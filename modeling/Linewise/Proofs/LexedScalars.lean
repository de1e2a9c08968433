import Linewise.Proofs.LexerMoves

/-!
# Scalars among tokens

A scalar that the writer puts behind a mark is taken by the lexer as one token with the same text,
whatever style it was written in. What the style needs of the characters is what their analysis
found; a literal block also has to open in a way that can be read, which not every text does.
-/

namespace Linewise.Yaml

open ScalarText

namespace Scalar

/-- The characters that a plain scalar can consist of. -/
structure PlainText (cs : List Char) : Prop where
  nonempty : cs ≠ []
  clear : clashes none cs = false
  noMark : startsLikeMark cs = false
  noBreak : ∀ c ∈ cs, isBreak c = false
  printable : ∀ c ∈ cs, isPrintable c = true
  starts : cs.head? ≠ some ' '
  ends : cs.getLast? ≠ some ' '

/-- The characters that single quotes or a block can hold are what the analysis finds. -/
theorem analyse_single {cs : List Char} (hne : cs ≠ []) (h : (analyse cs).single = true) :
    (∀ c ∈ cs, isPrintable c = true) ∧ hasPair (· == ' ') isBreak cs = false ∧
      hasPair isBreak (· == ' ') cs = false := by
  have hempty : cs.isEmpty = false := by simpa using hne
  simp only [analyse, hempty, Bool.false_eq_true, if_false, Bool.and_eq_true,
    Bool.not_eq_true'] at h
  obtain ⟨⟨⟨hsb, hbs⟩, htab⟩, hsp⟩ := h
  refine ⟨fun c hc => ?_, hsb, hbs⟩
  have hnt : c ≠ '\t' := by
    rintro rfl
    simp_all
  have := List.any_eq_false.mp hsp c hc
  simpa [hnt] using this

theorem plainText_of_analyse {cs : List Char} (hne : cs ≠ []) (h : (analyse cs).plain = true) :
    PlainText cs := by
  have hempty : cs.isEmpty = false := by simpa using hne
  have hsingle : (analyse cs).single = true := by
    simp only [analyse, hempty, Bool.false_eq_true, if_false, Bool.and_eq_true] at h ⊢
    tauto
  have hprint := (analyse_single hne hsingle).1
  simp only [analyse, hempty, Bool.false_eq_true, if_false, Bool.and_eq_true,
    Bool.not_eq_true'] at h
  obtain ⟨⟨⟨⟨⟨-, hhead⟩, hlast⟩, hbreak⟩, hclash⟩, hmark⟩ := h
  exact {
    nonempty := hne
    clear := hclash
    noMark := hmark
    noBreak := fun c hc => by simpa using List.any_eq_false.mp hbreak c hc
    printable := hprint
    starts := fun hs => by simp [hs] at hhead
    ends := fun hs => by simp [hs] at hlast }

namespace PlainText

variable {cs : List Char}

theorem not_spacing (h : PlainText cs) {c : Char} (hc : c ∈ cs) (hsp : isSpacing c = true) :
    c = ' ' := by
  have hb := h.noBreak c hc
  have ht : c ≠ '\t' := by
    rintro rfl
    exact absurd (h.printable _ hc) (by decide)
  simp only [isSpacing, isBlank, hb, Bool.or_false, Bool.or_eq_true, beq_iff_eq] at hsp
  tauto

theorem goesPlain (h : PlainText cs) : GoesPlain 'a' cs where
  clear := by
    have := h.clear
    cases cs with
    | nil => rfl
    | cons c cs =>
      simp only [clashes, Bool.or_eq_false_iff] at this ⊢
      refine ⟨?_, this.2⟩
      have hsp : isSpacing 'a' = false := rfl
      have h₁ := this.1.2
      simp only [hsp, Bool.and_false]
      by_cases hc : c = ':'
      · simp_all
      · simp [hc]
  spaces _ hc hsp := h.not_spacing hc hsp
  ends := h.ends

theorem exists_cons (h : PlainText cs) :
    ∃ c rest, cs = c :: rest ∧ isIndicator c = false ∧ isSpacing c = false ∧ c ≠ byteOrderMark ∧
      ((c = '?' ∨ c = ':' ∨ c = '-') → ∃ d more, rest = d :: more ∧ isSpacing d = false) := by
  obtain ⟨c, rest, rfl⟩ := List.exists_cons_of_ne_nil h.nonempty
  have hclear := h.clear
  simp only [clashes, Bool.or_eq_false_iff] at hclear
  refine ⟨c, rest, rfl, hclear.1.1, ?_, ?_, fun hc => ?_⟩
  · by_contra hsp
    exact h.starts (by simp [h.not_spacing List.mem_cons_self (by simpa using hsp)])
  · rintro rfl
    exact absurd (h.printable _ List.mem_cons_self) (by decide)
  · have hmark : (c == '?' || c == ':' || c == '-') = true := by simpa [or_assoc] using hc
    have hnext := hclear.1.2
    rw [hmark, Bool.true_and] at hnext
    cases rest with
    | nil => simp at hnext
    | cons d more =>
      refine ⟨d, more, rfl, ?_⟩
      by_contra hsp
      have hd := h.not_spacing (c := d) (by simp) (by simpa using hsp)
      simp [hd, isBlank] at hnext

end PlainText

/-- The style in which a scalar is written. -/
def written (s : Scalar) (asKey : Bool) : Style :=
  s.chooseStyle (analyse (Utf8.chars s.text)) asKey

/-- The start of a text that can be read back from a literal block; `aligned` says that the block
stands four columns to the right of the collection around it. -/
def OpensBlock (aligned : Bool) (cs : List Char) : Prop :=
  ∀ c ∈ cs.head?, isBreak c = false ∧ c ≠ '\t' ∧ (c = ' ' → aligned = true)

/-- The scalars whose text is read back as it was written. -/
structure Legible (aligned : Bool) (s : Scalar) : Prop where
  tag : s.tag = none
  valid : Utf8.isValid s.text = true
  plain : s.style = .plain → Utf8.chars s.text ≠ [] ∧ '\n' ∉ Utf8.chars s.text
  style : s.style = .plain ∨ s.style = .double ∨ s.style = .literal
  opens : s.written false = .literal → OpensBlock aligned (Utf8.chars s.text)

/-- The characters of a scalar that is written in a style. -/
def Fits (aligned : Bool) (cs : List Char) : Style → Prop
  | .plain => PlainText cs
  | .single => GoesSingle cs
  | .double => True
  | .literal => ∃ c rest, cs = c :: rest ∧ isBreak c = false ∧ c ≠ '\t' ∧
      (c = ' ' → aligned = true) ∧ ∀ d ∈ cs, d = '\t' ∨ isPrintable d = true
  | .folded => False

theorem analyse_block {cs : List Char} (h : (analyse cs).block = true) :
    cs ≠ [] ∧ ∀ c ∈ cs, c = '\t' ∨ isPrintable c = true := by
  have hne : cs ≠ [] := by
    rintro rfl
    exact absurd h (by decide)
  have hempty : cs.isEmpty = false := by simpa using hne
  simp only [analyse, hempty, Bool.false_eq_true, if_false, Bool.and_eq_true,
    Bool.not_eq_true'] at h
  refine ⟨hne, fun c hc => ?_⟩
  have := List.any_eq_false.mp h.2 c hc
  simp at this
  tauto

/-- What the style in which a scalar is written needs of its characters. A key on the line of its
value has no line breaks. -/
theorem Legible.fits {aligned asKey : Bool} {s : Scalar} (h : s.Legible aligned)
    (hk : asKey = true → (analyse (Utf8.chars s.text)).multiline = false) :
    Fits aligned (Utf8.chars s.text) (s.written asKey) := by
  have hmulti : (asKey && (analyse (Utf8.chars s.text)).multiline) = false := by
    cases asKey with
    | false => rfl
    | true => exact hk rfl
  rcases h.style with hs | hs | hs
  · obtain ⟨hne, hnl⟩ := h.plain hs
    have hempty : s.text.isEmpty = false := by
      cases ht : s.text with
      | nil => exact absurd (by rw [ht]; rfl) hne
      | cons => rfl
    cases hp : (analyse (Utf8.chars s.text)).plain with
    | true =>
      have hw : s.written asKey = .plain := by simp [written, chooseStyle, hs, hp, hmulti, hempty]
      rw [hw]
      exact plainText_of_analyse hne hp
    | false =>
      cases hq : (analyse (Utf8.chars s.text)).single with
      | true =>
        have hw : s.written asKey = .single := by
          simp [written, chooseStyle, hs, hp, hq, hmulti]
        obtain ⟨hprint, hsb, hbs⟩ := analyse_single hne hq
        rw [hw]
        exact ⟨hprint, hnl, hsb, hbs⟩
      | false =>
        have hw : s.written asKey = .double := by simp [written, chooseStyle, hs, hp, hq, hmulti]
        rw [hw]
        trivial
  · have hw : s.written asKey = .double := by simp [written, chooseStyle, hs, hmulti]
    rw [hw]
    trivial
  · by_cases hb : (analyse (Utf8.chars s.text)).block = true ∧ asKey = false
    · obtain ⟨hb, rfl⟩ := hb
      have hw : s.written false = .literal := by simp [written, chooseStyle, hs, hb]
      obtain ⟨hne, hprint⟩ := analyse_block hb
      obtain ⟨c, rest, hcs⟩ := List.exists_cons_of_ne_nil hne
      obtain ⟨hbr, htab, hsp⟩ := h.opens hw c (by simp [hcs])
      rw [hw]
      exact ⟨c, rest, hcs, hbr, htab, hsp, hprint⟩
    · have hno : (!(analyse (Utf8.chars s.text)).block || asKey) = true := by
        by_contra hno
        exact hb (by simpa using hno)
      have hw : s.written asKey = .double := by simp [written, chooseStyle, hs, hmulti, hno]
      rw [hw]
      trivial

end Scalar

namespace Lexer

/-- The possible key after noting that a token starts here. -/
def noted (l : Lexer) : Option PossibleKey :=
  if l.keyAllowed then
    some ⟨l.count, l.source.index, l.source.line, l.source.column,
      !l.inFlow && l.indent == l.source.column⟩
  else l.key

/-- The lexer after a plain or quoted scalar. -/
def afterScalar (l : Lexer) (style : Style) (t : ScalarText) : Lexer :=
  { l with
    source := t.after
    tokens := ⟨.scalar (Utf8.encode t.chars) style, l.source.line⟩ :: l.tokens
    count := l.count + 1
    key := l.noted
    keyAllowed := t.lineEnded }

theorem dropKey_of_loose {l : Lexer} (h : ∀ k ∈ l.key, k.required = false) :
    l.dropKey = .ok { l with key := none } := by
  rw [dropKey, if_neg]
  cases hk : l.key with
  | none => simp
  | some k => simp [h k hk]

theorem noteKey_of_loose {l : Lexer} (h : ∀ k ∈ l.key, k.required = false) :
    l.noteKey = .ok { l with key := l.noted } := by
  rw [noteKey, noted]
  split
  next => simp only [dropKey_of_loose h, bind, Except.bind]
  next => rfl

theorem flowScalar_ok {l : Lexer} (h : ∀ k ∈ l.key, k.required = false) (style : Style)
    (t : ScalarText) : l.flowScalar style (.ok t) = .ok (l.afterScalar style t) := by
  simp only [flowScalar, noteKey_of_loose h, bind, Except.bind, push, afterScalar]

theorem readToken_plain {l : Lexer} {c : Char} (ho : l.outerKeys = [])
    (hi : Scalar.isIndicator c = false) (hsp : isSpacing c = false)
    (hm : (c = '?' ∨ c = ':' ∨ c = '-') → l.source.spacingAt 1 = false) :
    l.readToken c =
      l.flowScalar .plain (ScalarText.plain false (l.indent + 1).toNat l.source) := by
  have hf : l.inFlow = false := by simp [inFlow, ho]
  simp [Scalar.isIndicator] at hi
  rw [readToken]
  · have hmark : ∀ d, d = '?' ∨ d = ':' ∨ d = '-' → (c == d && l.source.spacingAt 1) = false := by
      intro d hd
      by_cases hcd : c = d
      · rw [hm (hcd ▸ hd), Bool.and_false]
      · simp [hcd]
    have hplain : startsPlain false c (l.source.spacingAt 1) = true := by
      rw [startsPlain]
      split
      next hc => simp [hm (.inr (.inr (eq_of_beq hc)))]
      next =>
        split
        next hc =>
          have hc' : c = '?' ∨ c = ':' ∨ c = '-' := by simp at hc; tauto
          simp [hm hc']
        next =>
          simp [hsp]
          tauto
    have hbar : (c == '|') = false := by simp; tauto
    have hfold : (c == '>') = false := by simp; tauto
    simp only [hf, Bool.false_or, hmark '-' (by simp), hmark '?' (by simp), hmark ':' (by simp),
      hbar, hfold, Bool.false_and, Bool.false_eq_true, if_false, hplain, if_true]
  all_goals tauto

/-- The lexer stands right after a mark behind which a node is expected. -/
structure Awaits (l : Lexer) : Prop where
  outer : l.outerKeys = []
  key : l.key = none
  inside : l.indent < l.source.column

/-- The lexer goes on at a token in a column, which closes all blocks within the given ones. -/
def Ready (l : Lexer) (column : Nat) (rest : List Char) (indent : Int) (indents : List Int)
    (kinds : List Token.Kind) : Prop :=
  (l.arrived.closeBlocks indent).At column rest indent indents kinds

/-- The lexer reads tokens of the given kinds and gets to the next token, in column `n`. -/
def Takes (l : Lexer) (n : Nat) (rest : List Char) (ks : List Token.Kind) : Prop :=
  ∃ m, Reaches l m ∧ m.Ready n rest l.indent l.indents (ks.reverse ++ l.kinds)

/-- The lexer behind `k` spaces. -/
def past (l : Lexer) (k : Nat) : Lexer := { l with source := l.source.skipMany k }

theorem rest_past {l : Lexer} {k : Nat} {rest : List Char}
    (hs : l.source.rest = List.replicate k ' ' ++ rest) : (l.past k).source.rest = rest :=
  Source.rest_skipMany_append hs (by simp)

theorem Awaits.settled {l : Lexer} (h : l.Awaits) {k : Nat} {rest : List Char}
    (hr : StartsToken rest) (hs : l.source.rest = List.replicate k ' ' ++ rest) :
    l.arrived.closeBlocks l.arrived.source.column = l.past k := by
  have hin := h.inside
  rw [arrived, skipToToken_spaces hr hs]
  exact closeBlocks_of_le (by simp; omega)

/-- A token that the lexer awaits need not be a key. -/
theorem Awaits.noted_past {l : Lexer} (h : l.Awaits) {k : Nat} :
    ∀ p ∈ (l.past k).noted, p.required = false ∧ p.line = l.source.line := by
  have hin := h.inside
  intro p hp
  simp only [noted, past, h.key, inFlow, h.outer] at hp
  split at hp
  next =>
    obtain rfl := Option.mem_some.mp hp
    refine ⟨?_, rfl⟩
    simp
    omega
  next => simp at hp

/-- Taking tokens outside all brackets. -/
theorem takes_of_reaches {l m : Lexer} {s : Source} {n : Nat} {rest : List Char}
    {ks : List Token.Kind} (hgo : Reaches l m) (hheads : m.Heads s) (hrest : s.rest = rest)
    (hcol : s.column = n) (hindent : m.indent = l.indent) (hindents : m.indents = l.indents)
    (houter : m.outerKeys = []) (hkinds : m.kinds = ks.reverse ++ l.kinds)
    (hloose : ∀ k ∈ m.key, k.required = false ∧ k.line < s.line) : l.Takes n rest ks := by
  refine ⟨m, hgo, ?_⟩
  rw [Ready, hheads, closeBlocks_of_le (by simp [hindent])]
  exact ⟨hcol, hrest, hindent, hindents, hkinds, houter, rfl, hloose⟩

section Values

variable {l : Lexer} (h : l.Awaits) {cs rest : List Char} {k n : Nat} (hn : (n : Int) ≤ l.indent)
  (hr : StartsToken rest)

include h hn in
/-- A token that the lexer comes to where it awaits a node. -/
theorem Awaits.step_eq {c : Char} {more : List Char}
    (hs : l.source.rest = List.replicate k ' ' ++ c :: more) (hc : StartsToken (c :: more))
    {m : Lexer} (hread : (l.past k).readToken c = .ok m)
    (hcomment : m.allowsLineComment = true → m.skipLineComment = m) : l.step = .ok (m, false) := by
  have hin := h.inside
  refine step_of_settled (h.settled hc hs) ?_ (fun h0 => ?_) hread hcomment
  · rw [rest_past hs]
    rfl
  · simp [past] at h0
    omega

theorem skipLineComment_eq {m : Lexer} {c : Char} {more : List Char}
    (hs : m.source.rest = List.replicate k ' ' ++ c :: more) (hb : isBlank c = false)
    (hc : c ≠ '#') : m.skipLineComment = m := by
  have hdrop : m.source.dropWhile isBlank = m.source.skipMany k :=
    dropWhile_spaces rfl (by simp [hb]) hs
  have hsees : (m.source.skipMany k).sees '#' = false := by
    rw [Source.sees, Source.rest_skipMany_append hs (by simp)]
    simpa using hc
  rw [skipLineComment, hdrop, hsees]
  rfl

include h hn in
/-- A plain or quoted scalar. -/
theorem Awaits.takes_flow {c : Char} {more : List Char} {style : Style} {t : ScalarText}
    (hs : l.source.rest = List.replicate k ' ' ++ c :: more) (hc : StartsToken (c :: more))
    (hread : (l.past k).readToken c = (l.past k).flowScalar style (.ok t))
    (hlen : t.after.rest.length < (c :: more).length) {s : Source}
    (hline : l.source.line < s.line) (hrest : s.rest = rest) (hcol : s.column = n)
    (hheads : ((l.past k).afterScalar style t).Heads s)
    (hcomment : ((l.past k).afterScalar style t).allowsLineComment = true →
      ((l.past k).afterScalar style t).skipLineComment = (l.past k).afterScalar style t) :
    l.Takes n rest [.scalar (Utf8.encode t.chars) style] := by
  have hin := h.inside
  have hkey : ∀ p ∈ (l.past k).key, p.required = false := by simp [past, h.key]
  rw [flowScalar_ok hkey] at hread
  have hgo : l.Goes ((l.past k).afterScalar style t) := by
    refine ⟨h.step_eq hn hs hc hread hcomment, ?_⟩
    rw [hs, List.length_append]
    exact Nat.lt_add_left _ hlen
  refine takes_of_reaches (.single hgo) hheads hrest hcol rfl rfl h.outer rfl fun p hp => ?_
  obtain ⟨hreq, hp⟩ := h.noted_past p hp
  exact ⟨hreq, by omega⟩

include h hn hr in
theorem Awaits.takes_plain (hcs : Scalar.PlainText cs)
    (hs : l.source.rest = List.replicate k ' ' ++ (cs ++ upTo false n rest)) :
    l.Takes n rest [.scalar (Utf8.encode cs) .plain] := by
  have hin := h.inside
  have hrest₀ : (l.past k).source.rest = cs ++ '\n' :: (List.replicate n ' ' ++ rest) :=
    Source.rest_skipMany_append hs (by simp)
  have hind : (l.indent + 1).toNat ≤ (l.past k).source.column + 1 := by simp [past]; omega
  obtain ⟨s', hrest, hcol, hline, hread⟩ := plain_line hcs.goesPlain hrest₀ hind (by omega)
    fun c hc => (hr c hc).1
  obtain ⟨c, more, rfl, hic, hsp, hbom, hmark⟩ := hcs.exists_cons
  have htok : (l.past k).readToken c =
      (l.past k).flowScalar .plain (.ok ⟨c :: more, s', true⟩) := by
    rw [← hread]
    refine readToken_plain h.outer hic hsp fun hc => ?_
    obtain ⟨d, more, rfl, hd⟩ := hmark hc
    simp only [Source.spacingAt, hrest₀]
    simp [hd]
  have hstart : StartsToken (c :: (more ++ upTo false n rest)) := by
    refine startsToken_cons ⟨hsp, ?_, hbom⟩
    rintro rfl
    exact absurd hic (by decide)
  refine h.takes_flow hn hs hstart htok ?_ hline hrest hcol (heads_here ?_ rfl)
    (by simp [afterScalar, allowsLineComment])
  · simp [hrest, upTo]
    omega
  · simpa [afterScalar, hrest] using hr

include h hn hr in
/-- A scalar in quotes, which ends before a line break. -/
theorem Awaits.takes_quoted {q : Char} (hq : q = '\'' ∨ q = '"') {style : Style} {body : List Char}
    {s' : Source} (hs : l.source.rest = List.replicate k ' ' ++ q :: body)
    (htok : (l.past k).readToken q = (l.past k).flowScalar style (quoted q (l.past k).source))
    (hrest : s'.rest = upTo false n rest) (hline : l.source.line ≤ s'.line)
    (hlen : (upTo false n rest).length ≤ body.length)
    (hread : quoted q (l.past k).source = .ok ⟨cs, s', false⟩) :
    l.Takes n rest [.scalar (Utf8.encode cs) style] := by
  rw [hread] at htok
  have hstart : StartsToken (q :: body) := by
    refine startsToken_cons ?_
    rcases hq with rfl | rfl <;> decide
  refine h.takes_flow hn hs hstart htok (by simp [hrest]; omega) ?_ ?_ ?_
    (heads_line h.outer hr hrest) fun _ => skipLineComment_eq (k := 0) hrest rfl (by decide)
  · simp [afterScalar]; omega
  · simp [afterScalar, hrest, upTo]
  · simp [afterScalar]

include h hn hr in
theorem Awaits.takes_double (hs : l.source.rest = List.replicate k ' ' ++
      ('"' :: (cs.flatMap Scalar.escaped ++ ['"']) ++ upTo false n rest)) :
    l.Takes n rest [.scalar (Utf8.encode cs) .double] := by
  have hs' : l.source.rest = List.replicate k ' ' ++
      '"' :: (cs.flatMap Scalar.escaped ++ '"' :: upTo false n rest) := by
    rw [hs]
    simp
  have hrest₀ := rest_past hs'
  have hrest : ((l.past k).source.skipMany ((cs.flatMap Scalar.escaped).length + 2)).rest =
      upTo false n rest := by
    have hall : (l.past k).source.rest =
        '"' :: (cs.flatMap Scalar.escaped ++ ['"']) ++ upTo false n rest := by
      simpa using hrest₀
    exact Source.rest_skipMany_append hall
      (by simp only [List.length_cons, List.length_append, List.length_nil])
  exact h.takes_quoted hn hr (.inr rfl) hs' rfl hrest (by simp [past])
    (by simp only [List.length_append, List.length_cons]; omega) (quoted_double cs _ hrest₀)

include h hn hr in
theorem Awaits.takes_single {indent : Nat} (hi : 0 < indent) (hcs : GoesSingle cs)
    (hs : l.source.rest = List.replicate k ' ' ++
      ('\'' :: (singleText indent false cs ++ ['\'']) ++ upTo false n rest)) :
    l.Takes n rest [.scalar (Utf8.encode cs) .single] := by
  have hs' : l.source.rest = List.replicate k ' ' ++
      '\'' :: (singleText indent false cs ++ '\'' :: upTo false n rest) := by
    rw [hs]
    simp
  obtain ⟨s', hrest, hline, -, hread⟩ := quoted_single hi hcs (by simp [upTo]) (rest_past hs')
  exact h.takes_quoted hn hr (.inl rfl) hs' rfl hrest hline
    (by simp only [List.length_append, List.length_cons]; omega) hread

include h hn hr in
theorem Awaits.takes_literal {indent : Nat} {c : Char} (hpar : l.indent < indent)
    (hc : isBreak c = false) (ht : c ≠ '\t') (hspace : c = ' ' → l.indent.toNat + 4 = indent)
    (hp : ∀ d ∈ c :: cs, isBreak d = true → Scalar.isPrintable d = true)
    (hs : l.source.rest = List.replicate k ' ' ++
      ('|' :: ((Scalar.blockHints (c :: cs)).toList ++ '\n' :: literalText indent true (c :: cs)) ++
        upTo ((c :: cs).getLast?.any isBreak) n rest)) :
    l.Takes n rest [.scalar (Utf8.encode (c :: cs)) .literal] := by
  have hs' : l.source.rest = List.replicate k ' ' ++
      '|' :: ((Scalar.blockHints (c :: cs)).toList ++ '\n' ::
        (literalText indent true (c :: cs) ++ upTo ((c :: cs).getLast?.any isBreak) n rest)) := by
    rw [hs]
    simp
  obtain ⟨s', hrest, hcol, hline, hread⟩ := block_literal (by omega) hpar (fun d hd => (hr d hd).1)
    hc ht hspace hp (rest_past hs')
  have htok : (l.past k).readToken '|' =
      .ok { (l.past k).push (.scalar (Utf8.encode (c :: cs)) .literal) l.source.line with
        key := none, source := s', keyAllowed := true } := by
    have hkey : ∀ p ∈ (l.past k).key, p.required = false := by simp [past, h.key]
    have hflow : (l.past k).inFlow = false := by simp [past, inFlow, h.outer]
    have hscalar : (l.past k).readToken '|' = (l.past k).blockScalar .literal := by
      simp [readToken, hflow]
    rw [hscalar, blockScalar, dropKey_of_loose hkey]
    have hread' : block (Style.literal == .folded) (l.past k).indent (l.past k).source =
        .ok ⟨c :: cs, s', true⟩ := hread
    simp only [bind, Except.bind, hread']
    rfl
  have hstep := h.step_eq hn hs' (startsToken_cons (by decide)) htok
    (by simp [allowsLineComment, push])
  refine takes_of_reaches (.single ⟨hstep, ?_⟩) (heads_here ?_ rfl) hrest hcol rfl rfl h.outer rfl
    (by simp)
  · simp only [hs', hrest, upTo, List.length_append, List.length_cons]
    split <;> simp <;> omega
  · simpa [hrest] using hr

end Values

end Lexer

/-! ## The characters of written scalars -/

theorem isAllowed_of_isPrintable {c : Char} (h : Scalar.isPrintable c = true) :
    isAllowed c = true := by
  simp only [Scalar.isPrintable, Bool.or_eq_true, Bool.and_eq_true, beq_iff_eq,
    decide_eq_true_eq, bne_iff_ne] at h
  simp only [isAllowed, Bool.or_eq_true, Bool.and_eq_true, beq_iff_eq, decide_eq_true_eq]
  omega

theorem isAllowed_spaces (n : Nat) : ∀ c ∈ List.replicate n ' ', isAllowed c = true := by
  intro c hc
  rw [List.eq_of_mem_replicate hc]
  rfl

theorem isAllowed_hexDigits (width n : Nat) :
    ∀ c ∈ Scalar.hexDigits width n, isAllowed c = true := by
  have hdigit : ∀ d < 16, isAllowed (Nat.digitChar d).toUpper = true := by decide
  have hdigits : ∀ c ∈ (Nat.toDigits 16 n).map Char.toUpper, isAllowed c = true := by
    induction n using Nat.strongRecOn with
    | _ n ih =>
      by_cases hn : n < 16
      · rw [Nat.toDigits_of_lt_base hn]
        simpa using hdigit n hn
      · rw [Nat.toDigits_of_base_le (by omega) (by omega), List.map_append, List.forall_mem_append]
        exact ⟨ih (n / 16) (by omega), by simpa using hdigit (n % 16) (by omega)⟩
  rw [Scalar.hexDigits, List.forall_mem_append]
  refine ⟨fun c hc => ?_, hdigits⟩
  rw [List.eq_of_mem_replicate hc]
  rfl

theorem isAllowed_escaped (c : Char) : ∀ d ∈ Scalar.escaped c, isAllowed d = true := by
  rw [Scalar.escaped]
  split
  next h =>
    simp only [Bool.and_eq_true] at h
    simpa using isAllowed_of_isPrintable h.1.1.1
  next =>
    rw [List.forall_mem_cons]
    refine ⟨rfl, ?_⟩
    split
    iterate 15 simp [isAllowed]
    split
    next => exact List.forall_mem_cons.mpr ⟨rfl, isAllowed_hexDigits _ _⟩
    next =>
      split <;> exact List.forall_mem_cons.mpr ⟨rfl, isAllowed_hexDigits _ _⟩

theorem isAllowed_singleText {cs : List Char} (h : ∀ c ∈ cs, Scalar.isPrintable c = true)
    (indent : Nat) (b : Bool) : ∀ c ∈ singleText indent b cs, isAllowed c = true := by
  induction cs generalizing b with
  | nil => simp [singleText]
  | cons c cs ih =>
    obtain ⟨hc, hcs⟩ := List.forall_mem_cons.mp h
    have hc' := isAllowed_of_isPrintable hc
    rw [singleText]
    split
    next => exact List.forall_mem_cons.mpr ⟨rfl, ih hcs _⟩
    next =>
      split
      next => exact List.forall_mem_cons.mpr ⟨hc', ih hcs _⟩
      next =>
        rw [List.forall_mem_append, List.forall_mem_append]
        refine ⟨?_, ?_, ih hcs _⟩
        · split
          next => exact isAllowed_spaces indent
          next => simp
        · split
          next => simp [isAllowed]
          next => simpa using hc'

theorem isAllowed_literalText {cs : List Char} (h : ∀ c ∈ cs, isAllowed c = true)
    (indent : Nat) (b : Bool) : ∀ c ∈ literalText indent b cs, isAllowed c = true := by
  induction cs generalizing b with
  | nil => simp [literalText]
  | cons c cs ih =>
    obtain ⟨hc, hcs⟩ := List.forall_mem_cons.mp h
    rw [literalText]
    split
    next => exact List.forall_mem_cons.mpr ⟨hc, ih hcs _⟩
    next =>
      rw [List.forall_mem_append]
      refine ⟨?_, List.forall_mem_cons.mpr ⟨hc, ih hcs _⟩⟩
      split
      next => exact isAllowed_spaces indent
      next => simp

theorem isAllowed_blockHints (cs : List Char) :
    ∀ c ∈ (Scalar.blockHints cs).toList, isAllowed c = true := by
  rw [blockHints_toList, List.forall_mem_append]
  refine ⟨?_, ?_⟩
  · split <;> simp [isAllowed]
  · cases chompingOf cs <;> simp [Chomping.sign, isAllowed]

/-- The pen is at the start of a line, if a block may start where it is. -/
def Pen.Rests (p : Pen) : Prop := p.atIndent = true → p.column = 0 ∧ p.spaced = true

/-- The pen `q` has written `w` after the pen `p`, which a document may hold, and rests. -/
structure Pen.Sets (p : Pen) (w : List Char) (q : Pen) : Prop where
  writes : p.Writes w q
  allowed : ∀ c ∈ w, isAllowed c = true
  rests : q.Rests

theorem Pen.isAllowed_apart (p : Pen) : ∀ c ∈ p.apart, isAllowed c = true := by
  rw [Pen.apart]
  split <;> simp [isAllowed]

/-- The characters `w`, after spaces, are taken for a token; `ended` says that a line ends with
them. A block that is `aligned` with the collection around it stands four columns to its right. -/
def Lexer.Takable (aligned : Bool) (indent : Nat) (w : List Char) (ended : Bool)
    (kind : Token.Kind) : Prop :=
  ∀ (l : Lexer) (k n : Nat) (rest : List Char), l.Awaits → (n : Int) ≤ l.indent →
    l.indent < indent → (aligned = true → l.indent.toNat + 4 = indent) → StartsToken rest →
    l.source.rest = List.replicate k ' ' ++ (w ++ upTo ended n rest) → l.Takes n rest [kind]

/-- A scalar is taken as it was written. -/
theorem Pen.sets_scalar {aligned : Bool} {s : Scalar} (h : s.Legible aligned) (p : Pen)
    {indent : Nat} (hi : 0 < indent) :
    ∃ c body, StartsToken [c] ∧ p.Sets (p.apart ++ c :: body) (p.scalar s indent false) ∧
      Lexer.Takable aligned indent (c :: body) (p.scalar s indent false).atIndent
        (.scalar s.text (s.written false)) := by
  have htext := Utf8.encode_chars h.valid
  have hfits : Scalar.Fits aligned (Utf8.chars s.text) (s.written false) := h.fits (by simp)
  cases hw : s.written false with
  | plain =>
    rw [hw] at hfits
    obtain ⟨hwrites, hat, -⟩ := p.writes_scalar_plain h.tag hfits.nonempty hw
    obtain ⟨c, body, hcs, hic, hsp, hbom, -⟩ := hfits.exists_cons
    rw [hcs] at hwrites
    refine ⟨c, body, startsToken_cons ⟨hsp, ?_, hbom⟩, ⟨hwrites, ?_, ?_⟩, ?_⟩
    · rintro rfl
      exact absurd hic (by decide)
    · rw [List.forall_mem_append, ← hcs]
      exact ⟨p.isAllowed_apart, fun d hd => isAllowed_of_isPrintable (hfits.printable d hd)⟩
    · simp [Rests, hat]
    · intro l k n rest hl hn _ _ hr hs
      rw [hat, ← hcs] at hs
      rw [← htext]
      exact hl.takes_plain hn hr hfits hs
  | single =>
    rw [hw] at hfits
    obtain ⟨hwrites, hat, -⟩ := p.writes_scalar_single hi h.tag hfits hw
    refine ⟨_, _, startsToken_cons (by decide), ⟨hwrites, ?_, ?_⟩, ?_⟩
    · simp only [List.forall_mem_append, List.forall_mem_cons]
      exact ⟨p.isAllowed_apart, rfl, isAllowed_singleText hfits.printable _ _, rfl, by simp⟩
    · simp [Rests, hat]
    · intro l k n rest hl hn _ _ hr hs
      rw [hat] at hs
      rw [← htext]
      exact hl.takes_single hn hr hi hfits hs
  | double =>
    obtain ⟨hwrites, hat, -⟩ := p.writes_scalar_double h.tag hw
    refine ⟨_, _, startsToken_cons (by decide), ⟨hwrites, ?_, ?_⟩, ?_⟩
    · simp only [List.forall_mem_append, List.forall_mem_cons, List.forall_mem_flatMap]
      exact ⟨p.isAllowed_apart, rfl, fun c _ => isAllowed_escaped c, rfl, by simp⟩
    · simp [Rests, hat]
    · intro l k n rest hl hn _ _ hr hs
      rw [hat] at hs
      rw [← htext]
      exact hl.takes_double hn hr hs
  | literal =>
    rw [hw] at hfits
    obtain ⟨c, cs, hcs, hc, ht, hsp, hp⟩ := hfits
    obtain ⟨hwrites, hat, hrests⟩ := p.writes_scalar_literal hi h.tag hcs hc hw
    rw [hcs] at hp htext
    have hallowed : ∀ d ∈ c :: cs, isAllowed d = true := by
      intro d hd
      rcases hp d hd with rfl | hd
      · rfl
      · exact isAllowed_of_isPrintable hd
    refine ⟨_, _, startsToken_cons (by decide), ⟨hwrites, ?_, hrests⟩, ?_⟩
    · simp only [List.forall_mem_append, List.forall_mem_cons]
      exact ⟨p.isAllowed_apart, rfl, isAllowed_blockHints _, rfl,
        isAllowed_literalText hallowed _ _⟩
    · intro l k n rest hl hn hlt hal hr hs
      rw [hat] at hs
      rw [← htext]
      refine hl.takes_literal hn hr hlt hc ht (fun h => hal (hsp h)) (fun d hd hb => ?_) hs
      rcases hp d hd with rfl | hd
      · exact absurd hb (by decide)
      · exact hd
  | folded =>
    rw [hw] at hfits
    exact hfits.elim

end Linewise.Yaml
