import Linewise.Proofs.LexedScalars

/-!
# Marks of collections among tokens

The dash of an item, the question mark and the colon of a pair, a key on the line of its value and
the brackets of an empty collection. A mark opens its block collection where the collection is not
open yet; so does a key, whose announcement goes in front of it when its colon is read.
-/

namespace Linewise.Yaml

open ScalarText

namespace Lexer

/-- The lexer stands at a token after closing the blocks to its right. -/
def Stands (l : Lexer) (column : Nat) (rest : List Char) (indent : Int) (indents : List Int)
    (kinds : List Token.Kind) : Prop :=
  (l.arrived.closeBlocks l.arrived.source.column).At column rest indent indents kinds

theorem Ready.stands {l : Lexer} {c : Nat} {rest : List Char} {indents : List Int}
    {ks : List Token.Kind} (h : l.Ready c rest c indents ks) : l.Stands c rest c indents ks := by
  have hcol : l.arrived.source.column = c := by
    rw [← h.column, source_closeBlocks]
  rw [Stands, hcol]
  exact h

/-- The innermost collection ends where the next token stands to its left. -/
theorem Ready.close {l : Lexer} {n c : Nat} {rest : List Char} {indent : Int} {indents : List Int}
    {ks : List Token.Kind} (h : l.Ready n rest c (indent :: indents) ks) (hc : indent < c) :
    l.Ready n rest indent indents (.blockEnd :: ks) := by
  have hi := h.indent
  rw [Ready, ← closeBlocks_closeBlocks hc.le,
    closeBlocks_innermost h.outer h.indents (by omega) le_rfl]
  have hks := h.kinds
  exact ⟨h.column, h.rest, rfl, rfl, by simp [kinds, push] at hks ⊢; exact hks, h.outer, h.allowed,
    h.loose⟩

/-- The lexer comes to an entry of a block collection at column `c` that `start` announces. The
collection is open already or opens here; `indents` and `ks` are what there is when it is open. -/
inductive Comes (l : Lexer) (c : Nat) (rest : List Char) (start : Token.Kind) :
    List Int → List Token.Kind → Prop
  | goesOn {indents ks} (h : l.Stands c rest c indents ks) : Comes l c rest start indents ks
  | opens {indent indents ks} (h : l.Stands c rest indent indents ks) (hc : indent < c)
      (hd : indents.length < maxDepth) : Comes l c rest start (indent :: indents) (start :: ks)

/-- A lexer at a token, with the collection at its column open. -/
structure Inside (l : Lexer) (c : Nat) (indents : List Int) (ks : List Token.Kind) : Prop where
  outer : l.outerKeys = []
  key : l.key = none
  inside : c < l.source.column
  indent : l.indent = c
  indents : l.indents = indents
  kinds : l.kinds = ks

theorem Inside.awaits {l : Lexer} {c : Nat} {indents : List Int} {ks : List Token.Kind}
    (h : l.Inside c indents ks) : l.Awaits :=
  ⟨h.outer, h.key, by rw [h.indent]; exact_mod_cast h.inside⟩

/-- Coming to an entry, the lexer is left at it with its collection open. -/
theorem Comes.opened {l : Lexer} {c : Nat} {rest : List Char} {start : Token.Kind}
    {indents : List Int} {ks : List Token.Kind} (h : l.Comes c rest start indents ks) :
    ∃ l₀ l₁ : Lexer, l.arrived.closeBlocks l.arrived.source.column = l₀ ∧
      l₁.At c rest c indents ks ∧ l₀.source = l₁.source ∧ l₀.outerKeys = [] ∧ l₀.keyAllowed = true ∧
      l₀.openBlock c l₀.count start l₀.source.line = .ok l₁ := by
  cases h with
  | goesOn h =>
    exact ⟨_, _, rfl, h, rfl, h.outer, h.allowed, by rw [openBlock, if_pos (by simp [h.indent])]⟩
  | opens h hc hd =>
    rw [Stands] at h
    generalize l.arrived.closeBlocks l.arrived.source.column = l₀ at h ⊢
    have hi := h.indent
    refine ⟨l₀,
      { l₀.push start l₀.source.line with indent := c, indents := l₀.indent :: l₀.indents }, rfl,
      ?_, rfl, h.outer, h.allowed, ?_⟩
    · exact ⟨h.column, h.rest, rfl, by rw [h.indent, h.indents], by rw [← h.kinds]; rfl, h.outer,
        h.allowed, h.loose⟩
    · rw [openBlock, if_neg (by simp [inFlow, h.outer]; omega), if_neg (by rw [h.indents]; omega),
        insert]
      simp [push]

/-- A text that can stand behind a mark: spaces and something else than a comment, or a line
break. -/
def SetApart (w : List Char) : Prop :=
  ∃ k c more, w = List.replicate k ' ' ++ c :: more ∧ (c = '\n' ∨ 0 < k) ∧ isBlank c = false ∧
    c ≠ '#'

theorem SetApart.append {w : List Char} (h : SetApart w) (x : List Char) : SetApart (w ++ x) := by
  obtain ⟨k, c, more, rfl, hc⟩ := h
  exact ⟨k, c, more ++ x, by simp, hc⟩

theorem SetApart.head {w : List Char} (h : SetApart w) : w.head?.all isSpacing = true := by
  obtain ⟨k, c, more, rfl, hc, -⟩ := h
  rcases k with _ | k
  · obtain rfl : c = '\n' := by simpa using hc
    rfl
  · simp [List.replicate_succ, isSpacing, isBlank]

theorem skipLineComment_of_setApart {m : Lexer} (h : SetApart m.source.rest) :
    m.skipLineComment = m := by
  obtain ⟨k, c, more, hs, -, hb, hc⟩ := h
  exact skipLineComment_eq hs hb hc

theorem spacingAt_one {s : Source} {c : Char} {more : List Char} (hs : s.rest = c :: more)
    (hm : SetApart more) : s.spacingAt 1 = true := by
  have := hm.head
  rw [List.head?_eq_getElem?] at this
  simpa [Source.spacingAt, hs] using this

/-- The lexer behind a mark of an entry. -/
def marked (l : Lexer) (kind : Token.Kind) : Lexer :=
  { l.pushChar kind with key := none, keyAllowed := true }

theorem At.marked {l : Lexer} {c : Nat} {sign : Char} {more : List Char} {indents : List Int}
    {ks : List Token.Kind} (h : l.At c (sign :: more) c indents ks) (kind : Token.Kind) :
    (l.marked kind).Inside c indents (kind :: ks) ∧ (l.marked kind).keyAllowed = true ∧
      (l.marked kind).source.column = c + 1 ∧ (l.marked kind).source.rest = more := by
  have hcol : (l.marked kind).source.column = c + 1 := congrArg (· + 1) h.column
  refine ⟨⟨h.outer, rfl, by omega, h.indent, h.indents, by rw [← h.kinds]; rfl⟩, rfl, hcol, ?_⟩
  exact congrArg (List.drop 1) h.rest

theorem readToken_dash {l₀ l₁ : Lexer} (hf : l₀.outerKeys = []) (ha : l₀.keyAllowed = true)
    (hloose : ∀ k ∈ l₁.key, k.required = false)
    (hopen : l₀.openBlock l₀.source.column l₀.count .blockSequenceStart l₀.source.line = .ok l₁)
    (hsp : l₀.source.spacingAt 1 = true) : l₀.readToken '-' = .ok (l₁.marked .blockEntry) := by
  have hflow : l₀.inFlow = false := by simp [inFlow, hf]
  have hread : l₀.readToken '-' = l₀.blockEntry := by simp [readToken, hsp]
  rw [hread, blockEntry]
  simp only [hflow, ha, Bool.false_eq_true, if_false, Bool.not_true, hopen, bind, Except.bind,
    dropKey_of_loose hloose]
  rfl

theorem readToken_question {l₀ l₁ : Lexer} (hf : l₀.outerKeys = []) (ha : l₀.keyAllowed = true)
    (ho : l₁.outerKeys = []) (hloose : ∀ k ∈ l₁.key, k.required = false)
    (hopen : l₀.openBlock l₀.source.column l₀.count .blockMappingStart l₀.source.line = .ok l₁)
    (hsp : l₀.source.spacingAt 1 = true) : l₀.readToken '?' = .ok (l₁.marked .key) := by
  have hflow : l₀.inFlow = false := by simp [inFlow, hf]
  have hread : l₀.readToken '?' = l₀.keyMark := by simp [readToken, hsp]
  rw [hread, keyMark]
  simp only [hflow, ha, Bool.false_eq_true, if_false, Bool.not_true, hopen, bind, Except.bind,
    dropKey_of_loose hloose]
  simp [marked, pushChar, push, inFlow, ho]

theorem atDocumentMark_of_setApart {s : Source} {c : Char} {more : List Char}
    (hs : s.rest = c :: more) (hm : SetApart more) : s.atDocumentMark = false := by
  have hhead := hm.head
  cases more with
  | nil => simp [Source.atDocumentMark, Source.seesMark, hs]
  | cons d more =>
    have hne : ∀ e, isSpacing e = false → d ≠ e := by
      rintro e he rfl
      simp [he] at hhead
    simp [Source.atDocumentMark, Source.seesMark, hs, hne '-' rfl, hne '.' rfl]

/-- Reading the mark of an entry. -/
theorem Comes.goes_mark {l : Lexer} {c : Nat} {sign : Char} {more : List Char}
    {start kind : Token.Kind} {indents : List Int} {ks : List Token.Kind}
    (h : l.Comes c (sign :: more) start indents ks) (hm : SetApart more) (hsign : sign ≠ '%')
    (hread : ∀ l₀ l₁ : Lexer, l₀.outerKeys = [] → l₀.keyAllowed = true → l₁.outerKeys = [] →
      (∀ k ∈ l₁.key, k.required = false) →
      l₀.openBlock l₀.source.column l₀.count start l₀.source.line = .ok l₁ →
      l₀.source.spacingAt 1 = true → l₀.readToken sign = .ok (l₁.marked kind)) :
    ∃ m, l.Goes m ∧ m.Inside c indents (kind :: ks) ∧ m.keyAllowed = true ∧
      m.source.column = c + 1 ∧ m.source.rest = more := by
  obtain ⟨l₀, l₁, hl, hat, hsource, ho, ha, hopen⟩ := h.opened
  have hrest : l₀.source.rest = sign :: more := by rw [hsource, hat.rest]
  rw [← hat.column, ← hsource] at hopen
  have hnext := (hat.marked kind).2.2.2
  refine ⟨l₁.marked kind, ?_, hat.marked kind⟩
  exact goes_of_settled hl (by rw [hrest]; rfl)
    (fun _ => ⟨hsign, atDocumentMark_of_setApart hrest hm⟩)
    (hread l₀ l₁ ho ha hat.outer (fun k hk => (hat.loose k hk).1) hopen (spacingAt_one hrest hm))
    (fun _ => skipLineComment_of_setApart (by rw [hnext]; exact hm))
    (by rw [hnext, hrest]; exact Nat.lt_succ_self _)

/-- The dash of an item. -/
theorem Comes.dash {l : Lexer} {c : Nat} {more : List Char} {indents : List Int}
    {ks : List Token.Kind} (h : l.Comes c ('-' :: more) .blockSequenceStart indents ks)
    (hm : SetApart more) :
    ∃ m, l.Goes m ∧ m.Inside c indents (.blockEntry :: ks) ∧ m.keyAllowed = true ∧
      m.source.column = c + 1 ∧ m.source.rest = more :=
  h.goes_mark hm (by decide) fun _ _ ho ha _ hloose hopen hsp =>
    readToken_dash ho ha hloose hopen hsp

/-- The question mark of a key. -/
theorem Comes.question {l : Lexer} {c : Nat} {more : List Char} {indents : List Int}
    {ks : List Token.Kind} (h : l.Comes c ('?' :: more) .blockMappingStart indents ks)
    (hm : SetApart more) :
    ∃ m, l.Goes m ∧ m.Inside c indents (.key :: ks) ∧ m.keyAllowed = true ∧
      m.source.column = c + 1 ∧ m.source.rest = more :=
  h.goes_mark hm (by decide) fun _ _ ho ha ho' hloose hopen hsp =>
    readToken_question ho ha ho' hloose hopen hsp

theorem readToken_colon {l : Lexer} (hsp : l.source.spacingAt 1 = true) :
    l.readToken ':' = l.valueMark := by
  simp [readToken, hsp]

theorem complexValue_eq {l : Lexer} (hf : l.inFlow = false) (ha : l.keyAllowed = true)
    (hc : (l.source.column : Int) ≤ l.indent) :
    valueMark.complexValue l = .ok { l.pushChar .value with keyAllowed := true } := by
  have hopen : l.openBlock l.source.column l.count .blockMappingStart l.source.line = .ok l := by
    rw [openBlock, if_pos (by simpa using .inr hc)]
  rw [valueMark.complexValue]
  simp only [hf, ha, Bool.false_eq_true, if_false, Bool.not_true, hopen, bind, Except.bind,
    Bool.not_false]

/-- The colon of a value on a line of its own. -/
theorem Stands.colon {l : Lexer} {c : Nat} {more : List Char} {indents : List Int}
    {ks : List Token.Kind} (h : l.Stands c (':' :: more) c indents ks) (hm : SetApart more) :
    ∃ m, l.Goes m ∧ m.Inside c indents (.value :: ks) ∧ m.keyAllowed = true ∧
      m.source.column = c + 1 ∧ m.source.rest = more := by
  rw [Stands] at h
  generalize hl : l.arrived.closeBlocks l.arrived.source.column = l₀ at h
  have hflow : l₀.inFlow = false := by simp [inFlow, h.outer]
  have hcomplex : valueMark.complexValue { l₀ with key := none } = .ok (l₀.marked .value) :=
    complexValue_eq hflow h.allowed (by simp [h.indent, h.column])
  have hvalue : l₀.valueMark = .ok (l₀.marked .value) := by
    rw [valueMark]
    split
    next k hk =>
      obtain ⟨hreq, hline⟩ := h.loose k hk
      have hreach : l₀.keyInReach k = false := by
        simp [keyInReach]
        omega
      simp [hreach, hreq, hcomplex]
    next hk =>
      rw [← hcomplex, ← hk]
  have hnext := (h.marked .value).2.2.2
  refine ⟨l₀.marked .value, ?_, h.marked .value⟩
  exact goes_of_settled hl (by rw [h.rest]; rfl)
    (fun _ => ⟨by decide, atDocumentMark_of_setApart h.rest hm⟩)
    (by rw [readToken_colon (spacingAt_one h.rest hm), hvalue])
    (fun _ => skipLineComment_of_setApart (by rw [hnext]; exact hm))
    (by rw [hnext, h.rest]; exact Nat.lt_succ_self _)

theorem insert_eq {l : Lexer} {place : Nat} (front : List Token) {back : List Token}
    (ht : l.tokens = front ++ back) (hc : l.count = place + front.length) (kind : Token.Kind)
    (line : Nat) :
    l.insert place kind line =
      { l with tokens := front ++ ⟨kind, line⟩ :: back, count := l.count + 1 } := by
  have hn : l.count - place = front.length := by omega
  rw [insert, hn, ht, List.take_left, List.drop_left]

/-- The lexer behind a scalar that has turned out to be a key. -/
def withKey (l : Lexer) (style : Style) (t : ScalarText) : Lexer :=
  { l.afterScalar style t with
    tokens := [⟨.scalar (Utf8.encode t.chars) style, l.source.line⟩, ⟨.key, l.source.line⟩] ++
      l.tokens
    count := l.count + 2 }

/-- The lexer behind the colon after a key. -/
def atValue (l : Lexer) : Lexer := { l.pushChar .value with key := none, keyAllowed := false }

theorem valueMark_afterScalar {l : Lexer} {style : Style} {t : ScalarText}
    (ha : l.keyAllowed = true) (hline : t.after.line = l.source.line)
    (hindex : t.after.index ≤ l.source.index + maxKeyLength) {l₁ : Lexer}
    (hopen : (l.withKey style t).openBlock l.source.column l.count .blockMappingStart
      l.source.line = .ok l₁) : (l.afterScalar style t).valueMark = .ok l₁.atValue := by
  have hinsert : (l.afterScalar style t).insert l.count .key l.source.line = l.withKey style t :=
    insert_eq [⟨.scalar (Utf8.encode t.chars) style, l.source.line⟩] rfl rfl _ _
  have hkey : (l.afterScalar style t).key = some ⟨l.count, l.source.index, l.source.line,
      l.source.column, !l.inFlow && l.indent == l.source.column⟩ := by
    simp [afterScalar, noted, ha]
  have hreach : (l.afterScalar style t).keyInReach ⟨l.count, l.source.index, l.source.line,
      l.source.column, !l.inFlow && l.indent == l.source.column⟩ = true := by
    simp [keyInReach, afterScalar, hline, hindex]
  simp only [valueMark, hkey, hreach, if_true, hinsert, hopen, bind, Except.bind]
  rfl

/-- Opening the collection of a key. -/
theorem Comes.withKey {l : Lexer} {c : Nat} {rest : List Char} {indents : List Int}
    {ks : List Token.Kind} (h : l.Comes c rest .blockMappingStart indents ks) :
    ∃ (l₀ : Lexer) (outer : Int) (outers : List Int) (ks₀ : List Token.Kind),
      l.arrived.closeBlocks l.arrived.source.column = l₀ ∧ l₀.At c rest outer outers ks₀ ∧
      outer ≤ c ∧ ∀ style t, ∃ l₁ : Lexer,
        (l₀.withKey style t).openBlock c l₀.count .blockMappingStart l₀.source.line = .ok l₁ ∧
        l₁.source = t.after ∧ l₁.outerKeys = [] ∧ l₁.indent = c ∧ l₁.indents = indents ∧
        l₁.kinds = .scalar (Utf8.encode t.chars) style :: .key :: ks := by
  cases h with
  | goesOn h =>
    refine ⟨_, _, _, _, rfl, h, le_rfl, fun style t => ⟨Lexer.withKey _ style t, ?_, rfl, h.outer,
      h.indent, h.indents, by rw [← h.kinds]; rfl⟩⟩
    rw [openBlock, if_pos (by simp [Lexer.withKey, afterScalar, h.indent])]
  | opens h hc hd =>
    refine ⟨_, _, _, _, rfl, h, hc.le, fun style t => ?_⟩
    rw [Stands] at h
    generalize l.arrived.closeBlocks l.arrived.source.column = l₀ at h
    have hflow : (l₀.withKey style t).inFlow = false := by
      simp [Lexer.withKey, afterScalar, inFlow, h.outer]
    have hi : (l₀.withKey style t).indent = _ := h.indent
    have his : (l₀.withKey style t).indents = _ := h.indents
    refine ⟨{ l₀.withKey style t with
      tokens := [⟨.scalar (Utf8.encode t.chars) style, l₀.source.line⟩, ⟨.key, l₀.source.line⟩] ++
        ⟨.blockMappingStart, l₀.source.line⟩ :: l₀.tokens
      count := l₀.count + 3, indent := c, indents := l₀.indent :: l₀.indents }, ?_, rfl, h.outer,
      rfl, by rw [h.indent, h.indents], by rw [← h.kinds]; rfl⟩
    rw [openBlock, if_neg (by simp [hflow, hi]; omega), if_neg (by rw [his]; omega),
      insert_eq [⟨.scalar (Utf8.encode t.chars) style, l₀.source.line⟩, ⟨.key, l₀.source.line⟩]
        rfl rfl]
    rfl

/-- The colon that makes a key of the scalar before it. -/
theorem goes_colon {l l₁ : Lexer} {style : Style} {t : ScalarText} {more : List Char}
    (ha : l.keyAllowed = true) (hindent : l.indent ≤ t.after.column)
    (hafter : t.after.rest = ':' :: more) (hm : SetApart more)
    (hline : t.after.line = l.source.line) (hindex : t.after.index ≤ l.source.index + maxKeyLength)
    (hopen : (l.withKey style t).openBlock l.source.column l.count .blockMappingStart
      l.source.line = .ok l₁) (hnext : l₁.atValue.source.rest = more) :
    (l.afterScalar style t).Goes l₁.atValue := by
  have harrived : (l.afterScalar style t).arrived = l.afterScalar style t := by
    rw [arrived, skipToToken_spaces (k := 0) (startsToken_cons (by decide)) hafter]
    rfl
  have hclose : (l.afterScalar style t).arrived.closeBlocks
      (l.afterScalar style t).arrived.source.column = l.afterScalar style t := by
    rw [harrived]
    exact closeBlocks_of_le hindent
  refine goes_of_settled hclose (congrArg List.head? hafter)
    (fun _ => ⟨by decide, atDocumentMark_of_setApart hafter hm⟩) ?_
    (fun _ => skipLineComment_of_setApart (by rw [hnext]; exact hm)) ?_
  · rw [readToken_colon (spacingAt_one hafter hm)]
    exact valueMark_afterScalar ha hline hindex hopen
  · rw [hnext]
    change _ < t.after.rest.length
    rw [hafter]
    exact Nat.lt_succ_self _

/-- A key on the line of its value. -/
theorem Comes.key {l : Lexer} {c : Nat} {first : Char} {body more cs : List Char} {style : Style}
    {indents : List Int} {ks : List Token.Kind}
    (h : l.Comes c (first :: body ++ ':' :: more) .blockMappingStart indents ks)
    (hm : SetApart more) (hlen : (first :: body).length ≤ maxKeyLength)
    (hmark : ∀ s : Source, s.rest = first :: body ++ ':' :: more →
      first ≠ '%' ∧ s.atDocumentMark = false)
    (hread : ∀ l₀ : Lexer, l₀.outerKeys = [] → l₀.indent ≤ l₀.source.column →
      l₀.source.rest = first :: body ++ ':' :: more →
      l₀.readToken first = l₀.flowScalar style
        (.ok ⟨cs, l₀.source.skipMany (first :: body).length, false⟩)) :
    ∃ m, Reaches l m ∧ m.Inside c indents (.value :: .scalar (Utf8.encode cs) style :: .key :: ks) ∧
      m.keyAllowed = false ∧ m.source.rest = more := by
  obtain ⟨l₀, outer, outers, ks₀, hl, hat, hle, hopens⟩ := h.withKey
  have hcol := hat.column
  have hi₀ := hat.indent
  have hkey : ∀ k ∈ l₀.key, k.required = false := fun k hk => (hat.loose k hk).1
  have htok := hread l₀ hat.outer (by omega) hat.rest
  rw [flowScalar_ok hkey] at htok
  generalize ht : (⟨cs, l₀.source.skipMany (first :: body).length, false⟩ : ScalarText) = t at htok
  obtain ⟨l₁, hopen, hsource, ho, hi, his, hks⟩ := hopens style t
  have hpast : c < t.after.column := by
    rw [← ht]
    simp
    omega
  have hafter : t.after.rest = ':' :: more := by
    rw [← ht]
    exact Source.rest_skipMany_append hat.rest rfl
  have hnext : l₁.atValue.source.rest = more := by
    change l₁.source.skip.rest = more
    rw [hsource, Source.skip_eq, Source.rest_skipMany, hafter]
    rfl
  have hscalar : l.Goes (l₀.afterScalar style t) := by
    refine goes_of_settled hl (by rw [hat.rest]; rfl) (fun _ => hmark l₀.source hat.rest) htok
      (fun _ => ?_) ?_
    · exact skipLineComment_eq (k := 0) hafter rfl (by decide)
    · change t.after.rest.length < _
      rw [hafter, hat.rest]
      simp
  have hcolon : (l₀.afterScalar style t).Goes l₁.atValue :=
    goes_colon hat.allowed (by omega) hafter hm (by rw [← ht]; rfl)
      (by rw [← ht]; simpa using hlen) (by rw [hcol]; exact hopen) hnext
  refine ⟨l₁.atValue, (Relation.ReflTransGen.single hscalar).tail hcolon, ?_, rfl, hnext⟩
  refine ⟨ho, rfl, ?_, hi, his, ?_⟩
  · change c < l₁.source.column + 1
    rw [hsource]
    omega
  · rw [← ht] at hks
    exact congrArg (.value :: ·) hks

/-- The lexer behind a bracket that opens, and behind one that closes at once. -/
def bracketed (l : Lexer) (start : Token.Kind) : Lexer :=
  { l.pushChar start with key := none, outerKeys := [l.noted], keyAllowed := true }

def unbracketed (l : Lexer) (start stop : Token.Kind) : Lexer :=
  { (l.bracketed start).pushChar stop with key := l.noted, outerKeys := [], keyAllowed := false }

theorem openFlow_eq {l : Lexer} (ho : l.outerKeys = []) (hk : l.key = none) (start : Token.Kind) :
    l.openFlow start = .ok (l.bracketed start) := by
  have hlevel : ({ l with key := l.noted } : Lexer).flowLevel = 0 := by simp [flowLevel, ho]
  simp only [openFlow, noteKey_of_loose (by simp [hk] : ∀ k ∈ l.key, k.required = false), bind,
    Except.bind, hlevel]
  simp [bracketed, maxDepth, pushChar, push, ho]

theorem closeFlow_eq (l : Lexer) (start stop : Token.Kind) :
    (l.bracketed start).closeFlow stop = .ok (l.unbracketed start stop) := by
  rw [closeFlow, dropKey_of_loose (by simp [bracketed])]
  rfl

/-- An empty collection. -/
theorem Awaits.takes_brackets {l : Lexer} (h : l.Awaits) {rest : List Char} {k n : Nat}
    (hn : (n : Int) ≤ l.indent) (hr : StartsToken rest) {first last : Char}
    {start stop : Token.Kind}
    (hfirst : isSpacing first = false ∧ first ≠ '#' ∧ first ≠ byteOrderMark)
    (hlast : isSpacing last = false ∧ last ≠ '#' ∧ last ≠ byteOrderMark)
    (hopen : ∀ l : Lexer, l.readToken first = l.openFlow start)
    (hclose : ∀ l : Lexer, l.readToken last = l.closeFlow stop)
    (hs : l.source.rest = List.replicate k ' ' ++ (first :: last :: upTo false n rest)) :
    l.Takes n rest [start, stop] := by
  have hin := h.inside
  have hrest₀ := rest_past hs
  have hnext : ((l.past k).bracketed start).source.rest = last :: upTo false n rest := by
    change (l.past k).source.rest.drop 1 = _
    rw [hrest₀]
    rfl
  have hend : ((l.past k).unbracketed start stop).source.rest =
      '\n' :: (List.replicate n ' ' ++ rest) := by
    change ((l.past k).bracketed start).source.rest.drop 1 = _
    rw [hnext]
    rfl
  have hgo₁ : l.Goes ((l.past k).bracketed start) := by
    refine goes_of_settled (h.settled (startsToken_cons hfirst) hs) (by rw [hrest₀]; rfl)
      (fun h0 => ?_) (by rw [hopen]; exact openFlow_eq (l := l.past k) h.outer h.key start)
      (fun _ => skipLineComment_eq (k := 0) hnext (isSpacing_eq_false.mp hlast.1).1 hlast.2.1) ?_
    · simp [past] at h0
      omega
    · rw [hnext, hrest₀]
      exact Nat.lt_succ_self _
  have hgo₂ : ((l.past k).bracketed start).Goes ((l.past k).unbracketed start stop) := by
    have harrived : ((l.past k).bracketed start).arrived = (l.past k).bracketed start := by
      rw [arrived, skipToToken_spaces (k := 0) (startsToken_cons hlast) hnext]
      rfl
    have hsettled : ((l.past k).bracketed start).arrived.closeBlocks
        ((l.past k).bracketed start).arrived.source.column = (l.past k).bracketed start := by
      rw [harrived]
      rfl
    refine goes_of_settled hsettled (by rw [hnext]; rfl) (fun h0 => ?_)
      (by rw [hclose, closeFlow_eq])
      (fun _ => skipLineComment_eq (k := 0) hend rfl (by decide)) ?_
    · change l.source.column + k + 1 = 0 at h0
      omega
    · rw [hnext, hend]
      exact Nat.lt_succ_self _
  refine takes_of_reaches ((Relation.ReflTransGen.single hgo₁).tail hgo₂) (heads_line rfl hr hend)
    (by simp [hend]) (by simp) rfl rfl rfl rfl fun p hp => ?_
  obtain ⟨hreq, hline⟩ := h.noted_past p hp
  refine ⟨hreq, ?_⟩
  rw [hline]
  exact Nat.lt_succ_self _

end Lexer

end Linewise.Yaml
