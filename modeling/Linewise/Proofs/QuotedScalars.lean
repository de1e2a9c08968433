import Linewise.Proofs.CharacterBytes
import Linewise.Proofs.PlainScalars

/-!
# Quoted scalars

What is written between quotes is read as the characters that it was written for: between double
quotes every character that does not stand for itself is an escape, and between single quotes quotes
are doubled and lines are indented.
-/

namespace Linewise.Yaml

namespace ScalarText

/-! ## Quoted scalars -/

/-- Reading spacing between quotes. -/
theorem quotedFrom_gap {quote c : Char} {s s' : Source} {more done : List Char} {gap : Gap}
    {fresh : Bool} {fuel : Nat} (hmark : (fresh && s.atDocumentMark) = false)
    (hs : s.rest = c :: more) (hsp : isSpacing c = true)
    (hgap : Gap.read 0 s.rest.length {} s = .ok (gap, s')) :
    quotedFrom quote (fuel + 1) s done fresh =
      quotedFrom quote fuel s' (gap.text.reverse ++ done) true := by
  rw [quotedFrom, hmark]
  simp only [hs, hsp, if_true, Bool.false_eq_true, if_false]
  rw [← hs, hgap]

/-- Reading a character between quotes that stands for itself. -/
theorem quotedFrom_char {quote c : Char} {s : Source} {more done : List Char} {fresh : Bool}
    {fuel : Nat} (hmark : (fresh && s.atDocumentMark) = false) (hs : s.rest = c :: more)
    (hsp : isSpacing c = false) (hq : (c == quote) = false)
    (he : (quote == '"' && c == '\\') = false) :
    quotedFrom quote (fuel + 1) s done fresh = quotedFrom quote fuel s.skip (c :: done) false := by
  rw [quotedFrom, hmark]
  simp only [hs, hsp, hq, he, Bool.false_eq_true, if_false]

/-- A text starts with spaces, possibly none, that lead to something else. -/
theorem exists_spaces (cs : List Char) :
    ∃ k rest, cs = List.replicate k ' ' ++ rest ∧ rest.head? ≠ some ' ' := by
  induction cs with
  | nil => exact ⟨0, [], rfl, by simp⟩
  | cons c cs ih =>
    by_cases hc : c = ' '
    · obtain ⟨k, rest, rfl, hr⟩ := ih
      exact ⟨k + 1, rest, by simp [List.replicate_succ, hc], hr⟩
    · exact ⟨0, c :: cs, rfl, by simpa using hc⟩

/-- What was written for characters is read as these up to the closing quote, which stands before
`tail`. The position behind the quote is known where no line is broken. -/
def Quotes (quote : Char) (tail : List Char) (broken : Bool) (cs text : List Char) : Prop :=
  ∀ (fuel : Nat) (s : Source) (done : List Char) (fresh : Bool),
    s.rest = text ++ quote :: tail → (fresh && s.atDocumentMark) = false → s.rest.length < fuel →
    ∃ s' : Source, s'.rest = tail ∧ s.line ≤ s'.line ∧
      (broken = false → s' = s.skipMany (text.length + 1)) ∧
      quotedFrom quote fuel s done fresh = .ok ⟨done.reverse ++ cs, s', false⟩

theorem quotes_nil {quote : Char} {tail : List Char} (hsp : isSpacing quote = false)
    (ht : (quote == '\'' && tail.head? == some '\'') = false) (broken : Bool) :
    Quotes quote tail broken [] [] := by
  intro fuel s done fresh hs hmark hf
  obtain ⟨fuel, rfl⟩ : ∃ f, fuel = f + 1 := ⟨fuel - 1, by omega⟩
  rw [List.nil_append] at hs
  refine ⟨s.skip, by simp [Source.skip, hs], by simp [Source.skip],
    fun _ => by simp [Source.skip_eq], ?_⟩
  rw [quotedFrom, hmark]
  simp only [hs, hsp, ht, beq_self_eq_true, if_true, Bool.false_eq_true, if_false,
    List.append_nil]

namespace Quotes

variable {quote : Char} {tail : List Char} {broken : Bool} {cs text : List Char}

/-- Spaces up to something else. -/
theorem spaces (h : Quotes quote tail broken cs text)
    (hhead : ∃ c more, text ++ quote :: tail = c :: more ∧ isSpacing c = false) (k : Nat) :
    Quotes quote tail broken (List.replicate (k + 1) ' ' ++ cs)
      (List.replicate (k + 1) ' ' ++ text) := by
  intro fuel s done fresh hs hmark hf
  obtain ⟨fuel, rfl⟩ : ∃ f, fuel = f + 1 := ⟨fuel - 1, by omega⟩
  obtain ⟨c, more, hmore, hc⟩ := hhead
  rw [List.append_assoc] at hs
  have hnext := Source.rest_skipMany_append hs (n := k + 1) (by simp)
  have hgap := Gap.read_spaces 0 hc more (k + 1) s.rest.length s [] (by rw [hs, hmore])
    (by simp [hs])
  obtain ⟨s', hrest, hline, hat, hrec⟩ := h fuel (s.skipMany (k + 1))
    (List.replicate (k + 1) ' ' ++ done) true hnext
    (by rw [Source.atDocumentMark_of_pos (by simp)]; rfl)
    (by rw [hnext]; simp [hs] at hf ⊢; omega)
  refine ⟨s', hrest, hline, fun hb => ?_, ?_⟩
  · rw [hat hb, Source.skipMany_skipMany, List.length_append, List.length_replicate,
      ← Nat.add_assoc]
  · rw [quotedFrom_gap hmark (by rw [hs, List.replicate_succ]; rfl) rfl hgap]
    simp only [List.nil_append, Gap.text, Bool.not_false, if_true, List.reverse_replicate]
    rw [hrec, List.reverse_append, List.reverse_replicate, List.append_assoc]

/-- A character that stands for itself. -/
theorem char (h : Quotes quote tail broken cs text) {c : Char} (hsp : isSpacing c = false)
    (hq : (c == quote) = false) (he : (quote == '"' && c == '\\') = false) :
    Quotes quote tail broken (c :: cs) (c :: text) := by
  intro fuel s done fresh hs hmark hf
  obtain ⟨fuel, rfl⟩ : ∃ f, fuel = f + 1 := ⟨fuel - 1, by omega⟩
  obtain ⟨s', hrest, hline, hat, hrec⟩ := h fuel s.skip (c :: done) false
    (by simp [Source.skip, hs]) rfl (by simp [Source.skip, hs] at hf ⊢; omega)
  refine ⟨s', hrest, hline, fun hb => ?_, ?_⟩
  · rw [hat hb, Source.skip_eq, Source.skipMany_skipMany, List.length_cons, Nat.add_comm 1]
  · rw [quotedFrom_char hmark hs hsp hq he, hrec]
    simp

/-- Line breaks, and the indentation of the line that they lead to. -/
theorem lines (h : Quotes '\'' tail broken cs text)
    (hhead : ∃ c more, text ++ '\'' :: tail = c :: more ∧ isSpacing c = false) {b : Char}
    {breaks : List Char} (hb : ∀ c ∈ b :: breaks, isBreak c = true ∧ Scalar.isPrintable c = true)
    (hnl : b ≠ '\n') {k : Nat} (hk : k = 0 → text = []) :
    Quotes '\'' tail true (b :: (breaks ++ cs))
      (b :: (breaks ++ (List.replicate k ' ' ++ text))) := by
  intro fuel s done fresh hs hmark hf
  obtain ⟨fuel, rfl⟩ : ∃ f, fuel = f + 1 := ⟨fuel - 1, by omega⟩
  simp only [List.cons_append, List.append_assoc] at hs
  obtain ⟨c, more, hmore, hc⟩ := hhead
  have hnext : ∀ d ∈ (text ++ '\'' :: tail).head?, isSpacing d = false := by
    rw [hmore]
    simpa using hc
  obtain ⟨s₁, hrest₁, hcol₁, hline₁, hgap⟩ :=
    Gap.read_lines 0 b breaks hb hnext k s.rest.length s hs (by simp [hs])
  -- Without an indentation only the closing quote stands on the line.
  have hmark₁ : s₁.atDocumentMark = false := by
    by_cases hk0 : k = 0
    · rw [hk hk0, List.nil_append] at hrest₁
      exact Source.atDocumentMark_of_head hrest₁ (by decide) (by decide)
    · exact Source.atDocumentMark_of_pos (by omega)
  obtain ⟨s', hrest, hline, -, hrec⟩ := h fuel s₁ (breaks.reverse ++ b :: done) true hrest₁
    (by rw [hmark₁]; rfl) (by rw [hrest₁]; simp [hs] at hf ⊢; omega)
  refine ⟨s', hrest, by omega, by simp, ?_⟩
  rw [quotedFrom_gap hmark hs (by simp [isSpacing, (hb b List.mem_cons_self).1]) hgap]
  simp only [Gap.text, Bool.not_true, Bool.false_eq_true, if_false, List.head?_cons,
    Option.some_beq_some, beq_iff_eq, hnl]
  simpa using hrec

/-- A quote that is doubled. -/
theorem doubled (h : Quotes '\'' tail broken cs text) :
    Quotes '\'' tail broken ('\'' :: cs) ('\'' :: '\'' :: text) := by
  intro fuel s done fresh hs hmark hf
  obtain ⟨fuel, rfl⟩ : ∃ f, fuel = f + 1 := ⟨fuel - 1, by omega⟩
  have hsp : isSpacing '\'' = false := rfl
  obtain ⟨s', hrest, hline, hat, hrec⟩ := h fuel (s.skipMany 2) ('\'' :: done) false
    (by simp [hs]) rfl (by simp [hs] at hf ⊢; omega)
  refine ⟨s', hrest, hline, fun hb => ?_, ?_⟩
  · rw [hat hb, Source.skipMany_skipMany, List.length_cons, List.length_cons]
    congr 1
    omega
  · rw [quotedFrom, hmark]
    simp only [hs, List.cons_append, hsp, Bool.false_eq_true, if_false, beq_self_eq_true, if_true,
      List.head?_cons, Bool.and_self]
    simpa using hrec

/-- What is read from behind the opening quote. -/
theorem quoted (h : Quotes quote tail broken cs text) {s : Source}
    (hs : s.rest = quote :: (text ++ quote :: tail)) :
    ∃ s' : Source, s'.rest = tail ∧ s.line ≤ s'.line ∧
      (broken = false → s' = s.skipMany (text.length + 2)) ∧
      ScalarText.quoted quote s = .ok ⟨cs, s', false⟩ := by
  obtain ⟨s', hrest, hline, hat, hread⟩ := h (s.rest.length + 1) s.skip [] true
    (by simp [Source.skip, hs])
    (by rw [Source.atDocumentMark_of_pos (by simp [Source.skip])]; rfl)
    (by simp [Source.skip])
  refine ⟨s', hrest, hline, fun hb => ?_, hread⟩
  rw [hat hb, Source.skip_eq, Source.skipMany_skipMany, Nat.add_comm 1]

end Quotes

/-! ## Double quotes -/

theorem digitValue?_hexDigit {d : Nat} (h : d < 16) :
    d.digitChar.toUpper.toNat < 128 ∧
      Bytes.digitValue? (Bytes.ascii d.digitChar.toUpper) = some d := by
  interval_cases d <;> decide

theorem hexValue?_concat {cs : List Char} {n d : Nat} (h : hexValue? cs = some n) (hd : d < 16) :
    hexValue? (cs ++ [d.digitChar.toUpper]) = some (n * 16 + d) := by
  rw [hexValue?] at h ⊢
  rw [List.foldlM_append, h]
  obtain ⟨hlow, hval⟩ := digitValue?_hexDigit hd
  simp [hlow, hval, hd]

theorem hexValue?_toDigits (n : Nat) :
    hexValue? ((Nat.toDigits 16 n).map Char.toUpper) = some n := by
  induction n using Nat.strongRecOn with
  | _ n ih =>
    by_cases hn : n < 16
    · rw [Nat.toDigits_of_lt_base hn, List.map_singleton]
      have hzero : hexValue? [] = some 0 := rfl
      simpa using hexValue?_concat hzero hn
    · rw [Nat.toDigits_of_base_le (by omega) (by omega), List.map_append, List.map_singleton,
        hexValue?_concat (ih (n / 16) (by omega)) (by omega)]
      congr 1
      omega

theorem hexValue?_zeros (k : Nat) (cs : List Char) :
    hexValue? (List.replicate k '0' ++ cs) = hexValue? cs := by
  induction k with
  | zero => rfl
  | succ k ih => rw [List.replicate_succ, List.cons_append, ← ih]; rfl

theorem length_hexDigits (width n : Nat) (hw : 0 < width) (h : n < 16 ^ width) :
    (Scalar.hexDigits width n).length = width := by
  have hle := (Nat.length_toDigits_le_iff (b := 16) (by omega) hw).mpr h
  simp [Scalar.hexDigits]
  omega

theorem hexValue?_hexDigits (width n : Nat) : hexValue? (Scalar.hexDigits width n) = some n := by
  rw [Scalar.hexDigits, hexValue?_zeros, hexValue?_toDigits]

theorem escape_code {c letter : Char} {width : Nat} (hlow : escaped? letter = none)
    (hlen : codeLength? letter = some width) (hw : 0 < width) (hc : c.toNat < 16 ^ width)
    (tail : List Char) :
    escape ('\\' :: letter :: (Scalar.hexDigits width c.toNat ++ tail)) = .ok (c, width + 2) := by
  have htake : (Scalar.hexDigits width c.toNat ++ tail).take width =
      Scalar.hexDigits width c.toNat := by
    rw [List.take_left' (length_hexDigits _ _ hw hc)]
  have hvalid : ¬ ((0xD800 ≤ c.toNat ∧ c.toNat ≤ 0xDFFF) ∨ 0x10FFFF < c.toNat) := by
    have := Utf8.toNat_bounds c
    omega
  simp only [escape, hlow, hlen, htake, hexValue?_hexDigits, length_hexDigits _ _ hw hc,
    Char.ofNat_toNat]
  simp at hvalid ⊢
  omega

/-- The characters that double quotes keep as they are. -/
def keptInDouble (c : Char) : Bool :=
  Scalar.isPrintable c && !isBreak c && c != '"' && c != '\\'

theorem eq_ofNat_of_toNat {c : Char} {n : Nat} (h : c.toNat = n) : c = Char.ofNat n := by
  rw [← h, Char.ofNat_toNat]

/-- What is written for a character that is escaped is read as that character. -/
theorem escape_escaped {c : Char} (h : keptInDouble c = false) (tail : List Char) :
    escape (Scalar.escaped c ++ tail) = .ok (c, (Scalar.escaped c).length) := by
  rw [Scalar.escaped, if_neg (by rw [keptInDouble] at h; simp [h])]
  split
  iterate 15 next hn => rw [eq_ofNat_of_toNat hn]; rfl
  next =>
    have hb := Utf8.toNat_bounds c
    split_ifs with h₁ h₂
    · rw [List.cons_append, List.cons_append, escape_code rfl rfl (by omega) (by omega)]
      simp [length_hexDigits 2 c.toNat (by omega) (by omega)]
    · rw [List.cons_append, List.cons_append, escape_code rfl rfl (by omega) (by omega)]
      simp [length_hexDigits 4 c.toNat (by omega) (by omega)]
    · rw [List.cons_append, List.cons_append, escape_code rfl rfl (by omega) (by omega)]
      simp [length_hexDigits 8 c.toNat (by omega) (by omega)]

theorem escaped_of_kept {c : Char} (h : keptInDouble c = true) : Scalar.escaped c = [c] := by
  rw [keptInDouble] at h
  rw [Scalar.escaped, if_pos h]

/-- What is written for a character that is escaped starts with a backslash that ends no line. -/
theorem escaped_of_not_kept {c : Char} (h : keptInDouble c = false) :
    ∃ d more, Scalar.escaped c = '\\' :: d :: more ∧ isBreak d = false := by
  rw [Scalar.escaped, if_neg (by rw [keptInDouble] at h; simp [h])]
  split
  iterate 15 exact ⟨_, _, rfl, rfl⟩
  split_ifs <;> exact ⟨_, _, rfl, rfl⟩

theorem isSpacing_of_kept {c : Char} (h : keptInDouble c = true) (hc : c ≠ ' ') :
    isSpacing c = false := by
  simp only [keptInDouble, Bool.and_eq_true, Bool.not_eq_true'] at h
  have ht : c ≠ '\t' := by
    rintro rfl
    exact absurd h.1.1.1 (by decide)
  simp [isSpacing, isBlank, hc, ht, h.1.1.2]

/-- No spacing follows the spaces of a double-quoted scalar. -/
theorem head_escaped (cs tail : List Char) (h : cs.head? ≠ some ' ') :
    ∃ c more, cs.flatMap Scalar.escaped ++ '"' :: tail = c :: more ∧ isSpacing c = false := by
  cases cs with
  | nil => exact ⟨'"', tail, rfl, rfl⟩
  | cons c cs =>
    cases hk : keptInDouble c with
    | true =>
      have hsp := isSpacing_of_kept hk (by simpa using h)
      rw [List.flatMap_cons, escaped_of_kept hk]
      exact ⟨c, _, rfl, hsp⟩
    | false =>
      obtain ⟨d, more, hd, _⟩ := escaped_of_not_kept hk
      rw [List.flatMap_cons, hd]
      exact ⟨'\\', _, rfl, rfl⟩

theorem flatMap_escaped_spaces (k : Nat) :
    (List.replicate k ' ').flatMap Scalar.escaped = List.replicate k ' ' := by
  induction k with
  | zero => rfl
  | succ k ih => rw [List.replicate_succ, List.flatMap_cons, ih]; rfl

/-- What is written for a character that is escaped. -/
theorem Quotes.escape {tail cs text : List Char} {broken : Bool}
    (h : Quotes '"' tail broken cs text) {c : Char} (hk : keptInDouble c = false) :
    Quotes '"' tail broken (c :: cs) (Scalar.escaped c ++ text) := by
  intro fuel s done fresh hs hmark hf
  obtain ⟨fuel, rfl⟩ : ∃ f, fuel = f + 1 := ⟨fuel - 1, by omega⟩
  obtain ⟨d, more, hd, hbr⟩ := escaped_of_not_kept hk
  have hesc := escape_escaped hk (text ++ '"' :: tail)
  rw [List.append_assoc] at hs
  have hnext : (s.skipMany (Scalar.escaped c).length).rest = text ++ '"' :: tail :=
    Source.rest_skipMany_append hs rfl
  obtain ⟨s', hrest, hline, hat, hrec⟩ := h fuel (s.skipMany (Scalar.escaped c).length)
    (c :: done) false hnext rfl
    (by rw [hnext]; rw [hs, List.length_append, hd] at hf; simp at hf ⊢; omega)
  refine ⟨s', hrest, hline, fun hb => ?_, ?_⟩
  · rw [hat hb, Source.skipMany_skipMany, List.length_append, Nat.add_assoc]
  · have hcons : s.rest = '\\' :: d :: (more ++ (text ++ '"' :: tail)) := by
      rw [hs, hd]
      rfl
    have hsp : isSpacing '\\' = false := rfl
    have hq : ('\\' == '"') = false := rfl
    rw [← hs] at hesc
    rw [quotedFrom, hmark]
    simp only [hcons, hsp, hq, hbr, List.head?_cons, Option.any_some, beq_self_eq_true,
      Bool.and_self, if_true, Bool.false_eq_true, if_false]
    rw [← hcons, hesc]
    simp only
    rw [hrec]
    simp

/-- The characters between double quotes. -/
theorem quotes_double (tail cs : List Char) :
    Quotes '"' tail false cs (cs.flatMap Scalar.escaped) := by
  match cs with
  | [] => exact quotes_nil rfl rfl false
  | c :: rest =>
    by_cases hc : c = ' '
    · obtain ⟨k, more, rfl, hm⟩ := exists_spaces rest
      have hspaces := (quotes_double tail more).spaces (head_escaped more tail hm) k
      have htext : (List.replicate (k + 1) ' ' ++ more).flatMap Scalar.escaped =
          List.replicate (k + 1) ' ' ++ more.flatMap Scalar.escaped := by
        rw [List.flatMap_append, flatMap_escaped_spaces]
      rw [← htext] at hspaces
      rw [hc]
      exact hspaces
    rw [List.flatMap_cons]
    cases hk : keptInDouble c with
    | true =>
      have hq : c ≠ '"' ∧ c ≠ '\\' := by
        simp only [keptInDouble, Bool.and_eq_true, bne_iff_ne] at hk
        exact ⟨hk.1.2, hk.2⟩
      rw [escaped_of_kept hk]
      exact (quotes_double tail rest).char (isSpacing_of_kept hk hc) (by simpa using hq.1)
        (by simpa using hq.2)
    | false => exact (quotes_double tail rest).escape hk
termination_by cs.length

/-- Reading a double-quoted scalar. -/
theorem quoted_double {s : Source} (cs tail : List Char)
    (hs : s.rest = '"' :: (cs.flatMap Scalar.escaped ++ '"' :: tail)) :
    quoted '"' s = .ok ⟨cs, s.skipMany ((cs.flatMap Scalar.escaped).length + 2), false⟩ := by
  obtain ⟨s', -, -, hat, hread⟩ := (quotes_double tail cs).quoted hs
  rw [hread, hat rfl]

/-! ## Single quotes -/

/-- What is written between single quotes for the characters of a scalar; `afterBreak` says that a
line starts, which is then indented. -/
def singleText (indent : Nat) : Bool → List Char → List Char
  | _, [] => []
  | afterBreak, c :: rest =>
    if c == ' ' then ' ' :: singleText indent afterBreak rest
    else if isBreak c then c :: singleText indent true rest
    else
      (if afterBreak then List.replicate indent ' ' else []) ++
        ((if c == '\'' then ['\'', '\''] else [c]) ++ singleText indent false rest)

/-- The characters of a scalar that single quotes can hold. -/
structure GoesSingle (cs : List Char) : Prop where
  printable : ∀ c ∈ cs, Scalar.isPrintable c = true
  oneLine : '\n' ∉ cs
  spaceBreak : Scalar.hasPair (· == ' ') isBreak cs = false
  breakSpace : Scalar.hasPair isBreak (· == ' ') cs = false

namespace GoesSingle

variable {c : Char} {cs : List Char}

theorem tail (h : GoesSingle (c :: cs)) : GoesSingle cs where
  printable d hd := h.printable d (List.mem_cons_of_mem _ hd)
  oneLine hd := h.oneLine (List.mem_cons_of_mem _ hd)
  spaceBreak := by
    have := h.spaceBreak
    cases cs with
    | nil => rfl
    | cons d cs =>
      rw [Scalar.hasPair, Bool.or_eq_false_iff] at this
      exact this.2
  breakSpace := by
    have := h.breakSpace
    cases cs with
    | nil => rfl
    | cons d cs =>
      rw [Scalar.hasPair, Bool.or_eq_false_iff] at this
      exact this.2

theorem append (run : List Char) (h : GoesSingle (run ++ cs)) : GoesSingle cs := by
  induction run with
  | nil => exact h
  | cons d run ih => exact ih h.tail

theorem isSpacing_head (h : GoesSingle (c :: cs)) (hc : c ≠ ' ') (hb : isBreak c = false) :
    isSpacing c = false := by
  have ht : c ≠ '\t' := by
    rintro rfl
    exact absurd (h.printable _ List.mem_cons_self) (by decide)
  simp [isSpacing, isBlank, hc, ht, hb]

/-- No line break follows a space. -/
theorem after_space {k : Nat} (h : GoesSingle (List.replicate (k + 1) ' ' ++ c :: cs)) :
    isBreak c = false := by
  have hlast : GoesSingle (' ' :: c :: cs) := by
    rw [List.replicate_succ', List.append_assoc] at h
    exact h.append
  have := hlast.spaceBreak
  simp only [Scalar.hasPair, Bool.or_eq_false_iff] at this
  simpa using this.1

/-- No space follows a line break. -/
theorem after_break {b : Char} {breaks : List Char} (hb : ∀ d ∈ b :: breaks, isBreak d = true)
    (h : GoesSingle (b :: breaks ++ c :: cs)) : c ≠ ' ' := by
  induction breaks generalizing b with
  | nil =>
    have hpair := h.breakSpace
    simp only [List.cons_append, List.nil_append, Scalar.hasPair, hb b List.mem_cons_self,
      Bool.true_and, Bool.or_eq_false_iff] at hpair
    simpa using hpair.1
  | cons d breaks ih => exact ih (fun e he => hb e (List.mem_cons_of_mem _ he)) h.tail

end GoesSingle

theorem exists_breaks (cs : List Char) :
    ∃ breaks rest, cs = breaks ++ rest ∧ (∀ c ∈ breaks, isBreak c = true) ∧
      ∀ c ∈ rest.head?, isBreak c = false := by
  refine ⟨cs.takeWhile isBreak, cs.dropWhile isBreak, (List.takeWhile_append_dropWhile).symm,
    List.all_eq_true.mp List.all_takeWhile, fun c hc => ?_⟩
  have := List.head?_dropWhile_not isBreak cs
  simp only [Option.mem_def] at hc
  rw [hc] at this
  simpa using this

theorem singleText_spaces (indent k : Nat) (cs : List Char) :
    singleText indent false (List.replicate k ' ' ++ cs) =
      List.replicate k ' ' ++ singleText indent false cs := by
  induction k with
  | zero => rfl
  | succ k ih => simp [List.replicate_succ, singleText, ih]

theorem singleText_breaks (indent : Nat) {breaks : List Char} (hb : ∀ c ∈ breaks, isBreak c = true)
    (cs : List Char) (b : Bool) :
    singleText indent b (breaks ++ cs) =
      breaks ++ singleText indent (b || !breaks.isEmpty) cs := by
  induction breaks generalizing b with
  | nil => simp
  | cons c breaks ih =>
    have hc := hb c List.mem_cons_self
    have hne : (c == ' ') = false := by
      rw [beq_eq_false_iff_ne]
      rintro rfl
      exact absurd hc (by decide)
    simp [singleText, hne, hc, ih fun d hd => hb d (List.mem_cons_of_mem _ hd)]

/-- A line that starts with a character is indented and goes on as any other. -/
theorem singleText_line (indent : Nat) {c : Char} (hc : c ≠ ' ') (hb : isBreak c = false)
    (cs : List Char) :
    singleText indent true (c :: cs) =
      List.replicate indent ' ' ++ singleText indent false (c :: cs) := by
  simp [singleText, hc, hb]

/-- What is written for a character that is no spacing starts with no spacing. -/
theorem head_singleText (indent : Nat) {cs : List Char} (tail : List Char)
    (h : ∀ c ∈ cs.head?, c ≠ ' ' ∧ isBreak c = false ∧ isSpacing c = false) :
    ∃ c more, singleText indent false cs ++ '\'' :: tail = c :: more ∧ isSpacing c = false := by
  cases cs with
  | nil => exact ⟨'\'', tail, rfl, rfl⟩
  | cons c cs =>
    obtain ⟨hne, hb, hsp⟩ := h c rfl
    by_cases hq : c = '\''
    · subst hq
      exact ⟨'\'', _, rfl, rfl⟩
    · have hne' : (c == ' ') = false := by simpa using hne
      have hq' : (c == '\'') = false := by simpa using hq
      simp only [singleText, hne', hb, hq', Bool.false_eq_true, if_false, List.nil_append,
        List.cons_append]
      exact ⟨c, _, rfl, hsp⟩

theorem singleText_lines (indent : Nat) {b : Char} {breaks cs : List Char}
    (hb : ∀ c ∈ b :: breaks, isBreak c = true) (hi : 0 < indent)
    (hcs : ∀ c ∈ cs.head?, c ≠ ' ' ∧ isBreak c = false ∧ isSpacing c = false) :
    ∃ k, singleText indent false (b :: (breaks ++ cs)) =
      b :: (breaks ++ (List.replicate k ' ' ++ singleText indent false cs)) ∧
      (k = 0 → singleText indent false cs = []) := by
  have hbreaks := singleText_breaks indent hb cs false
  cases cs with
  | nil => exact ⟨0, by simpa [singleText] using hbreaks, fun _ => by rw [singleText]⟩
  | cons c cs =>
    obtain ⟨hne, hbr, -⟩ := hcs c rfl
    have hline := singleText_line indent hne hbr cs
    exact ⟨indent, by simpa [hline] using hbreaks, by omega⟩

/-- The characters between single quotes. -/
theorem GoesSingle.quotes {indent : Nat} (hi : 0 < indent) {cs : List Char} (h : GoesSingle cs)
    {tail : List Char} (ht : tail.head? ≠ some '\'') :
    Quotes '\'' tail (cs.any isBreak) cs (singleText indent false cs) := by
  match cs, h with
  | [], _ => exact quotes_nil rfl (by simpa using ht) _
  | c :: rest, h =>
    by_cases hc : c = ' '
    · obtain ⟨k, more, rfl, hm⟩ := exists_spaces rest
      subst hc
      have hmore : GoesSingle more := GoesSingle.append (' ' :: List.replicate k ' ') h
      have hhead : ∀ d ∈ more.head?, d ≠ ' ' ∧ isBreak d = false ∧ isSpacing d = false := by
        intro d hd
        obtain ⟨after, rfl⟩ : ∃ after, more = d :: after := List.head?_eq_some_iff.mp hd
        have hne : d ≠ ' ' := by simpa using hm
        have hbr : isBreak d = false := GoesSingle.after_space (k := k) h
        exact ⟨hne, hbr, hmore.isSpacing_head hne hbr⟩
      have hspaces := (quotes hi hmore ht).spaces (head_singleText indent tail hhead) k
      have hflat : (List.replicate (k + 1) ' ' ++ more).any isBreak = more.any isBreak := by
        simp [isBreak]
      rw [← singleText_spaces, ← hflat] at hspaces
      exact hspaces
    cases hb : isBreak c with
    | true =>
      obtain ⟨breaks, more, rfl, hbs, hm⟩ := exists_breaks rest
      have hall : ∀ d ∈ c :: breaks, isBreak d = true := by simpa [hb] using hbs
      have hmore : GoesSingle more := GoesSingle.append (c :: breaks) h
      have hprint : ∀ d ∈ c :: breaks, isBreak d = true ∧ Scalar.isPrintable d = true :=
        fun d hd =>
          ⟨hall d hd, h.printable d (by rw [← List.cons_append]; exact List.mem_append_left _ hd)⟩
      have hhead : ∀ d ∈ more.head?, d ≠ ' ' ∧ isBreak d = false ∧ isSpacing d = false := by
        intro d hd
        have hbr := hm d hd
        obtain ⟨after, rfl⟩ : ∃ after, more = d :: after := List.head?_eq_some_iff.mp hd
        have hne : d ≠ ' ' := GoesSingle.after_break hall h
        exact ⟨hne, hbr, hmore.isSpacing_head hne hbr⟩
      have hnl : c ≠ '\n' := fun he => h.oneLine (by simp [he])
      obtain ⟨k, htext, hk⟩ := singleText_lines indent hall hi hhead
      rw [htext, List.any_cons, hb, Bool.true_or]
      exact (quotes hi hmore ht).lines (head_singleText indent tail hhead) hprint hnl hk
    | false =>
      have hrest := quotes hi h.tail ht
      have hne : (c == ' ') = false := by simpa using hc
      rw [List.any_cons, hb, Bool.false_or]
      by_cases hq : c = '\''
      · subst hq
        exact hrest.doubled
      · have hq' : (c == '\'') = false := by simpa using hq
        have htext : singleText indent false (c :: rest) = c :: singleText indent false rest := by
          simp [singleText, hne, hb, hq']
        rw [htext]
        exact hrest.char (h.isSpacing_head hc hb) hq' rfl
termination_by cs.length

/-- Reading a single-quoted scalar. -/
theorem quoted_single {indent : Nat} (hi : 0 < indent) {cs : List Char} (h : GoesSingle cs)
    {tail : List Char} (ht : tail.head? ≠ some '\'') {s : Source}
    (hs : s.rest = '\'' :: (singleText indent false cs ++ '\'' :: tail)) :
    ∃ s' : Source, s'.rest = tail ∧ s.line ≤ s'.line ∧
      (cs.any isBreak = false → s' = s.skipMany ((singleText indent false cs).length + 2)) ∧
      quoted '\'' s = .ok ⟨cs, s', false⟩ :=
  (h.quotes hi ht).quoted hs

end ScalarText

end Linewise.Yaml
