import Linewise.Proofs.LexedMarks

/-!
# Keys among tokens

A short key without line breaks is written on the line of its value and found there, since the
longest text for it is within the reach of the lexer. Any other key gets a question mark, and its
colon stands on a line below.
-/

namespace Linewise.Yaml

open ScalarText

theorem length_encode_ge (cs : List Char) : cs.length ≤ (Utf8.encode cs).length := by
  induction cs with
  | nil => exact le_rfl
  | cons c cs ih =>
    have := String.length_utf8EncodeChar c
    have := c.utf8Size_pos
    rw [Utf8.encode_cons, List.length_append, List.length_cons]
    omega

theorem utf8Size_bounds (c : Char) :
    (0x7F < c.toNat → 2 ≤ c.utf8Size) ∧ (0xFFFF < c.toNat → 4 ≤ c.utf8Size) := by
  have hval : c.val.toNat = c.toNat := rfl
  simp only [Char.utf8Size, UInt32.le_iff_toNat_le, hval, UInt32.toNat_ofNatLT]
  constructor <;> intro h <;> split_ifs <;> omega

theorem length_escaped_le (c : Char) :
    (Scalar.escaped c).length ≤ 4 * (String.utf8EncodeChar c).length := by
  have hsize := String.length_utf8EncodeChar c
  have hpos := c.utf8Size_pos
  rw [hsize, Scalar.escaped]
  split
  next => simp; omega
  next =>
    split
    iterate 15 simp; omega
    obtain ⟨htwo, hfour⟩ := utf8Size_bounds c
    have hlt := Utf8.toNat_bounds c
    split
    next =>
      rw [List.length_cons, List.length_cons, length_hexDigits 2 c.toNat (by omega) (by omega)]
      omega
    next =>
      split
      next =>
        rw [List.length_cons, List.length_cons, length_hexDigits 4 c.toNat (by omega) (by omega)]
        omega
      next =>
        rw [List.length_cons, List.length_cons, length_hexDigits 8 c.toNat (by omega) (by omega)]
        omega

theorem length_flatMap_escaped_le (cs : List Char) :
    (cs.flatMap Scalar.escaped).length ≤ 4 * (Utf8.encode cs).length := by
  induction cs with
  | nil => exact le_rfl
  | cons c cs ih =>
    have := length_escaped_le c
    rw [List.flatMap_cons, Utf8.encode_cons, List.length_append, List.length_append]
    omega

theorem length_singleText_le {cs : List Char} (h : cs.any isBreak = false) (indent : Nat) :
    (singleText indent false cs).length ≤ 2 * cs.length := by
  induction cs with
  | nil => simp [singleText]
  | cons c cs ih =>
    simp only [List.any_cons, Bool.or_eq_false_iff] at h
    have := ih h.2
    rw [singleText]
    simp only [h.1, Bool.false_eq_true, if_false, List.nil_append]
    split
    next => simp; omega
    next => split <;> simp <;> omega

namespace Scalar

theorem any_isBreak_of_isSimpleKey {s : Scalar} (h : Pen.isSimpleKey s = true) :
    (Utf8.chars s.text).any isBreak = false ∧ s.text.length ≤ Pen.maxSimpleKey := by
  simp only [Pen.isSimpleKey, Bool.and_eq_true, Bool.not_eq_true', decide_eq_true_eq] at h
  refine ⟨?_, by omega⟩
  have hm := h.1
  rw [analyse] at hm
  split at hm
  next he => simp [List.isEmpty_iff.mp he]
  next => exact hm

theorem written_true_ne_literal (s : Scalar) : s.written true ≠ .literal := by
  have hlast : ∀ (style : Style) (b : Bool),
      (if (style == .literal || style == .folded) && (b || true) then Style.double else style) ≠
        .literal := by
    intro style b
    cases style <;> simp
  exact hlast _ _

end Scalar

/-- The style of a key. -/
def Scalar.keyStyle (k : Scalar) : Style := k.written (Pen.isSimpleKey k)

/-- How a key is written on the line of its value: its characters are followed by a colon. -/
structure KeyText (cs : List Char) (style : Style) (first : Char) (body : List Char) : Prop where
  starts : StartsToken [first]
  allowed : ∀ c ∈ first :: body, isAllowed c = true
  short : (first :: body).length ≤ Lexer.maxKeyLength
  unmarked : ∀ (s : Source) (more : List Char), s.rest = first :: body ++ ':' :: more →
    first ≠ '%' ∧ s.atDocumentMark = false
  reads : ∀ (l : Lexer) (more : List Char), l.outerKeys = [] → l.indent ≤ l.source.column →
    more.head?.all isSpacing = true → l.source.rest = first :: body ++ ':' :: more →
    l.readToken first =
      l.flowScalar style (.ok ⟨cs, l.source.skipMany (first :: body).length, false⟩)

/-- A plain key does not look like the mark of a document. -/
theorem Scalar.PlainText.atDocumentMark {cs more : List Char} (h : Scalar.PlainText cs) {s : Source}
    (hs : s.rest = cs ++ ':' :: more) : s.atDocumentMark = false := by
  have hmark := h.noMark
  simp only [startsLikeMark, Bool.or_eq_false_iff] at hmark
  rw [Source.atDocumentMark, Source.seesMark, Source.seesMark, hs]
  rcases cs with _ | ⟨a, _ | ⟨b, _ | ⟨c, rest⟩⟩⟩
  · simp
  · simp
  · simp
  · simp only [List.cons_append, List.take_succ_cons, List.take_zero] at hmark ⊢
    simp only [hmark, Bool.and_false, Bool.false_and, Bool.or_false]

theorem Scalar.PlainText.keyText {cs : List Char} (h : Scalar.PlainText cs)
    (hlen : cs.length ≤ Lexer.maxKeyLength) :
    ∃ first body, cs = first :: body ∧ KeyText cs .plain first body := by
  obtain ⟨c, body, hcs, hic, hsp, hbom, hmark⟩ := h.exists_cons
  refine ⟨c, body, hcs, ⟨startsToken_cons ⟨hsp, ?_, hbom⟩, ?_, hcs ▸ hlen, ?_, ?_⟩⟩
  · rintro rfl
    exact absurd hic (by decide)
  · rw [← hcs]
    exact fun d hd => isAllowed_of_isPrintable (h.printable d hd)
  · intro s more hs
    refine ⟨?_, ?_⟩
    · rintro rfl
      exact absurd hic (by decide)
    · exact h.atDocumentMark (hcs ▸ hs)
  · intro l more ho hi hm hs
    have hread := plain_colon h.goesPlain (hcs ▸ hs) hm
      (by omega : (l.indent + 1).toNat ≤ l.source.column + 1)
    rw [hcs] at hread
    rw [Lexer.readToken_plain ho hic hsp ?_, hread, hcs]
    intro hc
    obtain ⟨d, more', rfl, hd⟩ := hmark hc
    simp [Source.spacingAt, hs, hd]

theorem keyText_single {cs : List Char} (h : GoesSingle cs) (hb : cs.any isBreak = false)
    {indent : Nat} (hi : 0 < indent) (hlen : 2 * cs.length + 2 ≤ Lexer.maxKeyLength) :
    KeyText cs .single '\'' (singleText indent false cs ++ ['\'']) where
  starts := startsToken_cons (by decide)
  allowed := by
    simp only [List.forall_mem_append, List.forall_mem_cons]
    exact ⟨rfl, isAllowed_singleText h.printable _ _, rfl, by simp⟩
  short := by
    have := length_singleText_le hb indent
    simp
    omega
  unmarked s more hs := ⟨by decide, Source.atDocumentMark_of_head hs (by decide) (by decide)⟩
  reads l more ho _ _ hs := by
    have hs' : l.source.rest = '\'' :: (singleText indent false cs ++ '\'' :: ':' :: more) := by
      rw [hs]
      simp
    obtain ⟨s', -, -, hat, hread⟩ := quoted_single hi h (by simp) hs'
    have hlen : ('\'' :: (singleText indent false cs ++ ['\''])).length =
        (singleText indent false cs).length + 2 := by simp
    rw [hlen, ← hat hb, ← hread]
    rfl

theorem keyText_double (cs : List Char)
    (hlen : 4 * (Utf8.encode cs).length + 2 ≤ Lexer.maxKeyLength) :
    KeyText cs .double '"' (cs.flatMap Scalar.escaped ++ ['"']) where
  starts := startsToken_cons (by decide)
  allowed := by
    simp only [List.forall_mem_append, List.forall_mem_cons, List.forall_mem_flatMap]
    exact ⟨rfl, fun c _ => isAllowed_escaped c, rfl, by simp⟩
  short := by
    have := length_flatMap_escaped_le cs
    simp only [List.length_cons, List.length_append, List.length_nil]
    omega
  unmarked s more hs := ⟨by decide, Source.atDocumentMark_of_head hs (by decide) (by decide)⟩
  reads l more ho _ _ hs := by
    have hs' : l.source.rest = '"' :: (cs.flatMap Scalar.escaped ++ '"' :: ':' :: more) := by
      rw [hs]
      simp
    have hlen : ('"' :: (cs.flatMap Scalar.escaped ++ ['"'])).length =
        (cs.flatMap Scalar.escaped).length + 2 := by
      simp only [List.length_cons, List.length_append, List.length_nil]
    rw [hlen, ← quoted_double cs _ hs']
    rfl

namespace Pen

/-- A key is written on the line of its value as its style wants it. -/
theorem writes_key {aligned : Bool} {s : Scalar} (h : s.Legible aligned)
    (hk : isSimpleKey s = true) (p : Pen) (hp : p.spaced = true) {indent : Nat} (hi : 0 < indent) :
    ∃ first body, KeyText (Utf8.chars s.text) (s.written true) first body ∧
      p.Writes (first :: body) (p.scalar s indent true) := by
  obtain ⟨hbreak, hlen⟩ := Scalar.any_isBreak_of_isSimpleKey hk
  have hmulti : (Scalar.analyse (Utf8.chars s.text)).multiline = false := by
    simp only [isSimpleKey, Bool.and_eq_true, Bool.not_eq_true'] at hk
    exact hk.1
  have htext := Utf8.encode_chars h.valid
  have hchars := length_encode_ge (Utf8.chars s.text)
  rw [htext] at hchars
  have hapart : p.apart = [] := by simp [apart, hp]
  have hmax : maxSimpleKey = 128 ∧ Lexer.maxKeyLength = 1024 := ⟨rfl, rfl⟩
  have hfits : Scalar.Fits aligned (Utf8.chars s.text) (s.written true) := h.fits fun _ => hmulti
  cases hw : s.written true with
  | plain =>
    rw [hw] at hfits
    obtain ⟨first, body, hcs, hkey⟩ := hfits.keyText (by omega)
    have hwrites : p.Writes _ (p.scalar s indent true) :=
      (p.writes_scalar_plain h.tag hfits.nonempty hw).1
    rw [hapart, hcs] at hwrites
    exact ⟨first, body, hkey, hwrites⟩
  | single =>
    rw [hw] at hfits
    have hwrites := (p.writes_scalar_single hi h.tag hfits hw).1
    rw [hapart] at hwrites
    exact ⟨_, _, keyText_single hfits hbreak hi (by omega), hwrites⟩
  | double =>
    have hwrites : p.Writes _ (p.scalar s indent true) := (p.writes_scalar_double h.tag hw).1
    rw [hapart] at hwrites
    exact ⟨_, _, keyText_double _ (by rw [htext]; omega), hwrites⟩
  | literal => exact absurd hw s.written_true_ne_literal
  | folded =>
    rw [hw] at hfits
    exact hfits.elim

theorem Rests.lead_append {p : Pen} (h : p.Rests) (c : Nat) (rest : List Char) :
    p.lead c ++ rest = upTo p.atIndent c rest := by
  rw [lead, upTo]
  cases hat : p.atIndent with
  | false => simp
  | true =>
    obtain ⟨hcol, hsp⟩ := h hat
    simp [hcol, hsp]

/-- Writes the key of a pair and the colon after it. -/
def pairKey (indent : Nat) (k : Scalar) (p : Pen) : Pen :=
  if isSimpleKey k then
    (p.scalar k (deeper false indent) true).indicator ":" false false false
  else
    (((p.indicator "?" true false true).scalar k (deeper false indent) false).indentTo
      indent).indicator ":" true false true

theorem pairs_cons (indent : Nat) (k : Scalar) (d : Document) (rest : List (Scalar × Document))
    (p : Pen) :
    pairs indent ((k, d) :: rest) p =
      pairs indent rest (document false indent d (pairKey indent k (p.indentTo indent))) := by
  rw [pairs, pairKey]

theorem lt_deeper (inItem : Bool) (indent : Nat) : indent < deeper inItem indent := by
  rw [deeper, step]
  split <;> omega

theorem deeper_of_aligned {indent : Nat} (h : indent % 4 = 0) :
    deeper false indent = indent + 4 := by
  rw [deeper, step]
  simp only [Bool.false_eq_true, if_false]
  omega

theorem isAllowed_lead (p : Pen) (indent : Nat) : ∀ c ∈ p.lead indent, isAllowed c = true := by
  rw [lead]
  split
  next => exact List.forall_mem_cons.mpr ⟨rfl, isAllowed_spaces indent⟩
  next => exact isAllowed_spaces _

/-- The lexer goes from the start of a text to what follows it, inside the collection at `c`, and
reads tokens of the given kinds. The pen `q` stands where the text ends. -/
def Leads (c : Nat) (start : Token.Kind) (w : List Char) (q : Pen) (kinds : List Token.Kind) :
    Prop :=
  ∀ (l : Lexer) (more : List Char) (indents : List Int) (ks : List Token.Kind),
    l.Comes c (w ++ more) start indents ks → Lexer.SetApart more →
    ∃ m, Lexer.Reaches l m ∧ m.Inside c indents (kinds.reverse ++ ks) ∧
      m.keyAllowed = q.atIndent ∧ (q.atIndent = true → m.source.column = q.column) ∧
      m.source.rest = more

/-- A key on the line of its value. -/
theorem leads_simpleKey {aligned : Bool} {k : Scalar} (h : k.Legible aligned)
    (hk : isSimpleKey k = true) {c : Nat} (p : Pen) (hp : p.spaced = true) :
    ∃ first body, StartsToken [first] ∧ (∀ d ∈ first :: body, isAllowed d = true) ∧
      p.Writes (first :: body) (pairKey c k p) ∧
      Leads c .blockMappingStart (first :: body) (pairKey c k p)
        [.key, .scalar k.text k.keyStyle, .value] := by
  obtain ⟨first, body, hkey, hwrites⟩ :=
    writes_key h hk p hp (Nat.zero_lt_of_lt (lt_deeper false c))
  have hstyle : k.keyStyle = k.written true := by rw [Scalar.keyStyle, hk]
  rw [hstyle, ← Utf8.encode_chars h.valid, pairKey, if_pos hk]
  refine ⟨first, body ++ [':'], hkey.starts, ?_, ?_, ?_⟩
  · simp only [← List.cons_append, List.forall_mem_append]
    exact ⟨hkey.allowed, by simp [isAllowed]⟩
  · exact hwrites.trans (writes_indicator_close _ ":" false false)
  · intro l more indents ks hl hm
    have hl' : l.Comes c (first :: body ++ ':' :: more) .blockMappingStart indents ks := by
      simpa using hl
    obtain ⟨m, hreach, hinside, hallowed, hrest⟩ := hl'.key hm hkey.short
      (fun s hs => hkey.unmarked s more hs) (fun l₀ ho hi hs => hkey.reads l₀ more ho hi hm.head hs)
    exact ⟨m, hreach, hinside, by simpa [indicator] using hallowed, by simp [indicator], hrest⟩

/-- A key on a line of its own. -/
theorem leads_complexKey {c : Nat} {k : Scalar} (h : k.Legible (c % 4 == 0))
    (hk : isSimpleKey k = false) (p : Pen) (hp : p.spaced = true) :
    ∃ first body, StartsToken [first] ∧ (∀ d ∈ first :: body, isAllowed d = true) ∧
      p.Writes (first :: body) (pairKey c k p) ∧
      Leads c .blockMappingStart (first :: body) (pairKey c k p)
        [.key, .scalar k.text k.keyStyle, .value] := by
  have hlt := lt_deeper false c
  have hstyle : k.keyStyle = k.written false := by rw [Scalar.keyStyle, hk]
  have hmark := p.writes_indicator "?" false true
  have hspaced : (p.indicator "?" true false true).spaced = false := rfl
  obtain ⟨d, body, hd, hsets, htaken⟩ := sets_scalar h (p.indicator "?" true false true)
    (Nat.zero_lt_of_lt hlt)
  rw [apart, hp] at hmark
  rw [apart, hspaced] at hsets
  rw [hstyle, pairKey, if_neg (by simp [hk])]
  generalize (p.indicator "?" true false true).scalar k (deeper false c) false = q at *
  have hplace := q.indentTo_place c
  have hcolon := (q.indentTo c).writes_indicator ":" false true
  rw [apart, hplace.2.2] at hcolon
  have hall := (hmark.trans hsets.writes).trans ((q.writes_indentTo c).trans hcolon)
  refine ⟨'?', ' ' :: d :: body ++ (q.lead c ++ [':']), startsToken_cons (by decide), ?_, ?_, ?_⟩
  · have hallowed := (List.forall_mem_append.mp hsets.allowed).2
    simp only [List.forall_mem_cons, List.forall_mem_append]
    exact ⟨rfl, ⟨rfl, List.forall_mem_cons.mp hallowed⟩, q.isAllowed_lead c, rfl, by simp⟩
  · simpa using hall
  · intro l more indents ks hl hm
    have htext : '?' :: (' ' :: d :: body ++ (q.lead c ++ [':'])) ++ more =
        '?' :: (List.replicate 1 ' ' ++ (d :: body ++ upTo q.atIndent c (':' :: more))) := by
      rw [← hsets.rests.lead_append]
      simp
    rw [htext] at hl
    have hapart : Lexer.SetApart
        (List.replicate 1 ' ' ++ (d :: body ++ upTo q.atIndent c (':' :: more))) := by
      obtain ⟨hsp, hhash, -⟩ := hd d rfl
      exact ⟨1, d, _, rfl, .inr Nat.one_pos, (isSpacing_eq_false.mp hsp).1, hhash⟩
    obtain ⟨m₁, hgo₁, hin₁, -, -, hrest₁⟩ := hl.question hapart
    obtain ⟨m₂, hreach₂, hready⟩ := htaken m₁ 1 c (':' :: more) hin₁.awaits (by rw [hin₁.indent])
      (by rw [hin₁.indent]; exact_mod_cast hlt)
      (fun hal => by
        rw [hin₁.indent, deeper_of_aligned (by simpa using hal)]
        rfl)
      (startsToken_cons (by decide)) hrest₁
    rw [hin₁.indent, hin₁.indents, hin₁.kinds] at hready
    obtain ⟨m₃, hgo₃, hin₃, hallowed, hcol, hrest⟩ := hready.stands.colon hm
    exact ⟨m₃, (Relation.ReflTransGen.head hgo₁ hreach₂).tail hgo₃, hin₃,
      by simp [indicator, hallowed, hplace], fun _ => by simp [indicator, hcol, hplace], hrest⟩

/-- The dash of an item. -/
theorem leads_dash {c : Nat} {p : Pen} (hcol : p.column = c) (hat : p.atIndent = true)
    (hp : p.spaced = true) :
    p.Writes ['-'] (p.indicator "-" true false true) ∧
      Leads c .blockSequenceStart ['-'] (p.indicator "-" true false true) [.blockEntry] := by
  refine ⟨by simpa [apart, hp] using p.writes_indicator "-" false true, ?_⟩
  intro l more indents ks hl hm
  obtain ⟨m, hgo, hin, hallowed, hcol', hrest⟩ := Lexer.Comes.dash hl hm
  exact ⟨m, .single hgo, hin, by simp [indicator, hp, hat, hallowed],
    fun _ => by simp [indicator, hp, hcol, hcol'], hrest⟩

end Pen

end Linewise.Yaml
