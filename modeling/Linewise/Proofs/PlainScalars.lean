import Linewise.Yaml.Document.Printer
import Linewise.Yaml.Token.Scalar
import Mathlib

/-!
# Plain scalars

Reading the blanks and line breaks inside scalars, and reading plain scalars: characters that would
not end a plain scalar are read as they stand, up to the end of the line or the colon after them.
-/

namespace Linewise.Yaml

namespace Source

/-- The position after a line break of one character. -/
def nextLine (s : Source) : Source :=
  { rest := s.rest.drop 1, index := s.index + 1, line := s.line + 1, column := 0 }

@[simp] theorem rest_skipMany (s : Source) (n : Nat) : (s.skipMany n).rest = s.rest.drop n := rfl
@[simp] theorem column_skipMany (s : Source) (n : Nat) : (s.skipMany n).column = s.column + n := rfl
@[simp] theorem line_skipMany (s : Source) (n : Nat) : (s.skipMany n).line = s.line := rfl
@[simp] theorem index_skipMany (s : Source) (n : Nat) : (s.skipMany n).index = s.index + n := rfl

@[simp] theorem rest_nextLine (s : Source) : s.nextLine.rest = s.rest.drop 1 := rfl
@[simp] theorem column_nextLine (s : Source) : s.nextLine.column = 0 := rfl
@[simp] theorem line_nextLine (s : Source) : s.nextLine.line = s.line + 1 := rfl

theorem rest_skipMany_append {s : Source} {read rest : List Char} {n : Nat}
    (hs : s.rest = read ++ rest) (hn : read.length = n) : (s.skipMany n).rest = rest := by
  subst hn
  simp [hs]

theorem skip_eq (s : Source) : s.skip = s.skipMany 1 := rfl

@[simp] theorem skipMany_zero (s : Source) : s.skipMany 0 = s := rfl

theorem skipMany_skipMany (s : Source) (m n : Nat) :
    (s.skipMany m).skipMany n = s.skipMany (m + n) := by
  simp [skipMany, Nat.add_assoc]

end Source

theorem isBreak_newline : isBreak '\n' = true := rfl

theorem isSpacing_eq_false {c : Char} :
    isSpacing c = false ↔ isBlank c = false ∧ isBreak c = false := by
  simp [isSpacing]

/-- The line breaks that can be written as they are. -/
theorem printable_break {c : Char} (hb : isBreak c = true) (hp : Scalar.isPrintable c = true) :
    c = '\n' ∨ c = '\u2028' ∨ c = '\u2029' := by
  simp only [isBreak, Bool.or_eq_true, beq_iff_eq] at hb
  rcases hb with (((rfl | rfl) | rfl) | rfl) | rfl
  · exact .inl rfl
  · exact absurd hp (by decide)
  · exact absurd hp (by decide)
  · exact .inr (.inl rfl)
  · exact .inr (.inr rfl)

/-- A line break that can be written is read as it is. -/
theorem Source.readBreak_of_printable {s : Source} {c : Char} {more : List Char}
    (hs : s.rest = c :: more) (hb : isBreak c = true) (hp : Scalar.isPrintable c = true) :
    s.readBreak = ([c], s.nextLine) := by
  rcases printable_break hb hp with rfl | rfl | rfl <;> simp [readBreak, hs, nextLine, isBreak]

namespace Gap

/-- Reading the spaces inside a line of a scalar. -/
theorem read_spaces (indent : Nat) {c : Char} (hc : isSpacing c = false) (more : List Char)
    (k fuel : Nat) (s : Source) (blanks : List Char)
    (hs : s.rest = List.replicate k ' ' ++ c :: more) (hf : k < fuel) :
    Gap.read indent fuel { blanks := blanks } s =
      .ok ({ blanks := blanks ++ List.replicate k ' ' }, s.skipMany k) := by
  induction k generalizing fuel blanks s with
  | zero =>
    obtain ⟨fuel, rfl⟩ := Nat.exists_eq_add_of_lt hf
    have hb := isSpacing_eq_false.mp hc
    simp only [List.replicate_zero, List.nil_append] at hs
    simp [Gap.read, hs, hb]
  | succ k ih =>
    obtain ⟨fuel, rfl⟩ : ∃ f, fuel = f + 1 := ⟨fuel - 1, by omega⟩
    rw [List.replicate_succ, List.cons_append] at hs
    rw [Gap.read, hs]
    have hb : isBlank ' ' = true := rfl
    simp only [hb, if_true, Bool.false_and, Bool.false_eq_true, if_false]
    rw [ih fuel s.skip _ (by simp [Source.skip, hs]) (by omega), Source.skip_eq,
      Source.skipMany_skipMany]
    simp [List.replicate_succ, Nat.add_comm]

/-- Reading the spaces at the start of a line of a scalar. -/
theorem read_indentation (indent : Nat) {g : Gap} (hg : g.broken = true) {rest : List Char}
    (hr : ∀ c ∈ rest.head?, isSpacing c = false) (k fuel : Nat) (s : Source)
    (hs : s.rest = List.replicate k ' ' ++ rest) (hf : k ≤ fuel) :
    Gap.read indent fuel g s = .ok (g, s.skipMany k) := by
  induction k generalizing fuel s with
  | zero =>
    rw [List.replicate_zero, List.nil_append] at hs
    cases fuel with
    | zero => rfl
    | succ fuel =>
      cases rest with
      | nil => simp [Gap.read, hs]
      | cons c rest =>
        have hb := isSpacing_eq_false.mp (hr c rfl)
        simp [Gap.read, hs, hb]
  | succ k ih =>
    obtain ⟨fuel, rfl⟩ : ∃ f, fuel = f + 1 := ⟨fuel - 1, by omega⟩
    rw [List.replicate_succ, List.cons_append] at hs
    rw [Gap.read, hs]
    have hb : isBlank ' ' = true := rfl
    have ht : (' ' == '\t') = false := rfl
    simp only [hb, if_true, hg, ht, Bool.and_false, Bool.false_eq_true, if_false]
    rw [ih fuel s.skip (by simp [Source.skip, hs]) (by omega), Source.skip_eq,
      Source.skipMany_skipMany, Nat.add_comm]

/-- Reading further line breaks. -/
theorem read_breaks (indent : Nat) {breaks : List Char}
    (hb : ∀ c ∈ breaks, isBreak c = true ∧ Scalar.isPrintable c = true) (rest : List Char)
    {g : Gap} (hg : g.broken = true) (fuel : Nat) (s : Source) (hs : s.rest = breaks ++ rest) :
    ∃ s' : Source, s'.rest = rest ∧ s'.line = s.line + breaks.length ∧
      (s.column = 0 → s'.column = 0) ∧
      Gap.read indent (fuel + breaks.length) g s =
        Gap.read indent fuel { g with more := g.more ++ breaks } s' := by
  induction breaks generalizing g s with
  | nil => exact ⟨s, hs, rfl, id, by simp⟩
  | cons c breaks ih =>
    have hc := hb c List.mem_cons_self
    have hblank : isBlank c = false := by
      rcases printable_break hc.1 hc.2 with rfl | rfl | rfl <;> rfl
    obtain ⟨s', hrest, hline, hcol, hread⟩ := ih (fun d hd => hb d (List.mem_cons_of_mem _ hd))
      (g := { g with more := g.more ++ [c] }) hg s.nextLine (by simp [hs])
    refine ⟨s', hrest, by simp [hline]; omega, fun _ => hcol rfl, ?_⟩
    rw [List.length_cons, ← Nat.add_assoc, Gap.read, hs]
    simp only [List.cons_append, hblank, hc.1, if_true, hg,
      Source.readBreak_of_printable hs hc.1 hc.2, Bool.false_eq_true, if_false]
    simpa [hg] using hread

/-- Reading line breaks and the indentation after them. -/
theorem read_lines (indent : Nat) (b : Char) (breaks : List Char) {rest : List Char}
    (hb : ∀ c ∈ b :: breaks, isBreak c = true ∧ Scalar.isPrintable c = true)
    (hr : ∀ c ∈ rest.head?, isSpacing c = false) (k fuel : Nat) (s : Source)
    (hs : s.rest = b :: (breaks ++ (List.replicate k ' ' ++ rest)))
    (hf : breaks.length + k + 1 ≤ fuel) :
    ∃ s' : Source, s'.rest = rest ∧ s'.column = k ∧ s.line < s'.line ∧
      Gap.read indent fuel {} s = .ok ({ first := [b], more := breaks, broken := true }, s') := by
  have hc := hb b List.mem_cons_self
  have hblank : isBlank b = false := by
    rcases printable_break hc.1 hc.2 with rfl | rfl | rfl <;> rfl
  obtain ⟨fuel, rfl⟩ : ∃ f, fuel = f + breaks.length + 1 := ⟨fuel - breaks.length - 1, by omega⟩
  obtain ⟨s', hrest, hline, hcol, hread⟩ := read_breaks indent
    (fun d hd => hb d (List.mem_cons_of_mem _ hd)) (List.replicate k ' ' ++ rest)
    (g := { first := [b], broken := true }) rfl fuel s.nextLine (by simp [hs])
  refine ⟨s'.skipMany k, Source.rest_skipMany_append hrest (by simp), by simp [hcol rfl],
    by simp [hline]; omega, ?_⟩
  rw [Gap.read, hs]
  simp only [hblank, hc.1, if_true, Bool.false_eq_true, if_false,
    Source.readBreak_of_printable hs hc.1 hc.2]
  rw [hread]
  exact read_indentation indent rfl hr k fuel s' hrest (by omega)

end Gap


/-- A text of spaces and other characters that does not end with a space starts with spaces that
lead to a character. -/
theorem exists_spaces_cons {cs : List Char} (hne : cs ≠ []) (hl : cs.getLast? ≠ some ' ') :
    ∃ k c rest, cs = List.replicate k ' ' ++ c :: rest ∧ c ≠ ' ' := by
  induction cs with
  | nil => exact absurd rfl hne
  | cons c rest ih =>
    by_cases hc : c = ' '
    · have hr : rest ≠ [] := by
        rintro rfl
        exact hl (by simp [hc])
      obtain ⟨k, d, more, rfl, hd⟩ := ih hr (by rwa [List.getLast?_cons_of_ne_nil hr] at hl)
      exact ⟨k + 1, d, more, by simp [List.replicate_succ, hc], hd⟩
    · exact ⟨0, c, rest, rfl, hc⟩

/-- The characters of a plain scalar after the character `before`: no blanks but spaces, none at the
end, and nothing that would end the scalar. -/
structure GoesPlain (before : Char) (cs : List Char) : Prop where
  clear : Scalar.clashes (some before) cs = false
  spaces : ∀ c ∈ cs, isSpacing c = true → c = ' '
  ends : cs.getLast? ≠ some ' '

namespace GoesPlain

variable {before c : Char} {cs : List Char}

theorem tail (h : GoesPlain before (c :: cs)) : GoesPlain c cs where
  clear := by
    have := h.clear
    simp only [Scalar.clashes, Bool.or_eq_false_iff] at this
    exact this.2
  spaces d hd := h.spaces d (List.mem_cons_of_mem _ hd)
  ends := by
    have := h.ends
    cases cs with
    | nil => simp
    | cons d cs => simpa using this

theorem after_spaces {k : Nat} (h : GoesPlain before (List.replicate (k + 1) ' ' ++ cs)) :
    GoesPlain ' ' cs := by
  induction k generalizing before with
  | zero => exact h.tail
  | succ k ih => exact ih h.tail

theorem exists_after_space (h : GoesPlain before (' ' :: cs)) :
    ∃ k d more, cs = List.replicate k ' ' ++ d :: more ∧ d ≠ ' ' := by
  refine exists_spaces_cons ?_ h.tail.ends
  rintro rfl
  exact h.ends rfl

theorem isSpacing_head (h : GoesPlain before (c :: cs)) (hc : c ≠ ' ') : isSpacing c = false := by
  by_contra hs
  exact hc (h.spaces c List.mem_cons_self (by simpa using hs))

/-- A colon in a plain scalar has a character after it. -/
theorem colon (h : GoesPlain before (':' :: cs)) :
    ∃ d more, cs = d :: more ∧ isSpacing d = false := by
  have hclear := h.clear
  simp only [Scalar.clashes, Bool.or_eq_false_iff] at hclear
  cases cs with
  | nil => simp at hclear
  | cons d more =>
    refine ⟨d, more, rfl, ?_⟩
    have hd : isBlank d = false := by simpa using hclear.1.1
    exact h.tail.isSpacing_head (by rintro rfl; exact absurd hd (by decide))

theorem ne_hash (h : GoesPlain ' ' (c :: cs)) : c ≠ '#' := by
  rintro rfl
  have hclear := h.clear
  simp [Scalar.clashes, isSpacing, isBlank] at hclear

end GoesPlain

theorem Source.atDocumentMark_of_pos {s : Source} (h : 0 < s.column) :
    s.atDocumentMark = false := by
  have hc : (s.column == 0) = false := by simp; omega
  simp [Source.atDocumentMark, Source.seesMark, hc]

theorem Source.atDocumentMark_of_head {s : Source} {c : Char} {more : List Char}
    (hs : s.rest = c :: more) (hdash : c ≠ '-') (hdot : c ≠ '.') : s.atDocumentMark = false := by
  simp [Source.atDocumentMark, Source.seesMark, hs, hdash, hdot]

namespace ScalarText

/-- Reading one more character of a plain scalar, with the blanks before it. -/
theorem plainFrom_char {before c : Char} {cs tail : List Char} (h : GoesPlain before (c :: cs))
    (hc : c ≠ ' ') (indent fuel : Nat) {s : Source} (done : List Char) {gap : Gap} {fresh : Bool}
    (hs : s.rest = c :: cs ++ tail) (hfresh : fresh = true → 0 < s.column ∧ c ≠ '#') :
    plainFrom false indent (fuel + 1) s done gap fresh =
      plainFrom false indent fuel s.skip (c :: (gap.text.reverse ++ done)) {} false := by
  have hsp := h.isSpacing_head hc
  have hcolon : (c == ':' && s.spacingAt 1) = false := by
    by_cases hcol : c = ':'
    · subst hcol
      obtain ⟨d, more, rfl, hd⟩ := h.colon
      simp [Source.spacingAt, hs, hd]
    · simp [hcol]
  have hf : (fresh && (s.atDocumentMark || s.sees '#')) = false := by
    cases fresh with
    | false => rfl
    | true =>
      obtain ⟨hpos, hne⟩ := hfresh rfl
      simp [Source.atDocumentMark_of_pos hpos, Source.sees, hs, hne]
  rw [plainFrom, hf]
  simp only [hs, List.cons_append, hsp, hcolon, Bool.false_eq_true, if_false, Bool.false_and,
    Bool.or_false]

/-- Reading the characters of a plain scalar. -/
theorem plainFrom_goes {before : Char} {cs : List Char} (h : GoesPlain before cs)
    (tail : List Char) (indent fuel : Nat) (s : Source) (done : List Char)
    (hs : s.rest = cs ++ tail) (hind : indent ≤ s.column + 1) (hf : (cs ++ tail).length < fuel) :
    ∃ fuel', tail.length < fuel' ∧ plainFrom false indent fuel s done {} false =
      plainFrom false indent fuel' (s.skipMany cs.length) (cs.reverse ++ done) {} false := by
  match cs, h with
  | [], _ => exact ⟨fuel, by simpa using hf, rfl⟩
  | c :: rest, h =>
    obtain ⟨fuel, rfl⟩ : ∃ f, fuel = f + 1 := ⟨fuel - 1, by omega⟩
    by_cases hc : c = ' '
    · subst hc
      obtain ⟨k, d, more, rfl, hd⟩ := h.exists_after_space
      have hgo : GoesPlain ' ' (d :: more) := h.after_spaces
      have hrest : s.rest = List.replicate (k + 1) ' ' ++ d :: (more ++ tail) := by
        simp [hs, List.replicate_succ]
      have hnext : (s.skipMany (k + 1)).rest = d :: more ++ tail :=
        Source.rest_skipMany_append hrest (by simp)
      have hgap := Gap.read_spaces indent (hgo.isSpacing_head hd) (more ++ tail) (k + 1)
        s.rest.length s [] hrest (by simp [hrest])
      obtain ⟨fuel, rfl⟩ : ∃ f, fuel = f + 1 := ⟨fuel - 1, by simp at hf; omega⟩
      obtain ⟨fuel', hf', heq⟩ := plainFrom_goes hgo.tail tail indent fuel
        (s.skipMany (k + 1)).skip (d :: (List.replicate (k + 1) ' ' ++ done))
        (by simp [Source.skip, -Source.rest_skipMany, hnext])
        (by simp [Source.skip]; omega) (by simp at hf ⊢; omega)
      refine ⟨fuel', hf', ?_⟩
      have hcol : ((!false : Bool) && decide ((s.skipMany (k + 1)).column < indent)) = false := by
        have hle : ¬ (s.column + (k + 1) < indent) := by omega
        simp [hle]
      have hlen : (' ' :: (List.replicate k ' ' ++ d :: more)).length =
          k + 1 + 1 + more.length := by
        simp
        omega
      have hrev : (' ' :: (List.replicate k ' ' ++ d :: more)).reverse =
          more.reverse ++ d :: List.replicate (k + 1) ' ' := by
        simp [List.replicate_succ']
      have hpos : 0 < (s.skipMany (k + 1)).column := by
        rw [Source.column_skipMany]
        omega
      have hsp : isSpacing ' ' = true := rfl
      rw [plainFrom]
      simp only [Bool.false_and, Bool.false_eq_true, if_false, hs, List.cons_append, hsp, if_true]
      simp only [hs, List.cons_append] at hgap
      rw [hgap]
      simp only [List.nil_append, hcol, Bool.false_eq_true, if_false]
      rw [plainFrom_char hgo hd indent fuel done hnext fun _ => ⟨hpos, hgo.ne_hash⟩, hlen, hrev]
      simpa [Gap.text, Source.skip_eq, Source.skipMany_skipMany] using heq
    · have hgo := h.tail
      obtain ⟨fuel', hf', heq⟩ := plainFrom_goes hgo tail indent fuel s.skip (c :: done)
        (by simp [Source.skip, hs]) (by simp [Source.skip]; omega) (by simp at hf ⊢; omega)
      refine ⟨fuel', hf', ?_⟩
      rw [plainFrom_char h hc indent fuel done hs (by simp)]
      simpa [Gap.text, Source.skip_eq, Source.skipMany_skipMany, Nat.add_comm] using heq
termination_by cs.length

/-- The end of a plain scalar at the end of its line. -/
theorem plainFrom_line {s : Source} {n indent : Nat} {rest : List Char} (fuel : Nat)
    (done : List Char) (hs : s.rest = '\n' :: (List.replicate n ' ' ++ rest)) (hn : n < indent)
    (hr : ∀ c ∈ rest.head?, isSpacing c = false) :
    ∃ s' : Source, s'.rest = rest ∧ s'.column = n ∧ s.line < s'.line ∧
      plainFrom false indent (fuel + 1) s done {} false = .ok ⟨done.reverse, s', true⟩ := by
  obtain ⟨s', hrest, hcol, hline, hread⟩ := Gap.read_lines indent '\n' []
    (by simp [isBreak_newline]; rfl) hr n s.rest.length s hs (by simp [hs])
  refine ⟨s', hrest, hcol, hline, ?_⟩
  have hsp : isSpacing '\n' = true := rfl
  rw [plainFrom]
  simp only [Bool.false_and, Bool.false_eq_true, if_false, hs, hsp, if_true]
  rw [← hs, hread]
  simp [hcol, hn]

/-- The end of a plain scalar at the colon after it. -/
theorem plainFrom_colon {s : Source} {indent : Nat} {more : List Char} (fuel : Nat)
    (done : List Char) (hs : s.rest = ':' :: more) (hm : more.head?.all isSpacing = true) :
    plainFrom false indent (fuel + 1) s done {} false = .ok ⟨done.reverse, s, false⟩ := by
  have hsp : isSpacing ':' = false := rfl
  have hat : s.spacingAt 1 = true := by
    simpa [Source.spacingAt, hs, List.head?_eq_getElem?] using hm
  rw [plainFrom]
  simp [hs, hsp, hat]

/-- Reading a plain scalar to the end of its line. -/
theorem plain_line {before : Char} {cs : List Char} (h : GoesPlain before cs) {indent n : Nat}
    {rest : List Char} {s : Source} (hs : s.rest = cs ++ '\n' :: (List.replicate n ' ' ++ rest))
    (hind : indent ≤ s.column + 1) (hn : n < indent) (hr : ∀ c ∈ rest.head?, isSpacing c = false) :
    ∃ s' : Source, s'.rest = rest ∧ s'.column = n ∧ s.line < s'.line ∧
      plain false indent s = .ok ⟨cs, s', true⟩ := by
  obtain ⟨fuel, hf, hread⟩ := plainFrom_goes h _ indent (2 * s.rest.length + 1) s [] hs hind
    (by rw [← hs]; omega)
  obtain ⟨fuel, rfl⟩ : ∃ f, fuel = f + 1 := ⟨fuel - 1, by omega⟩
  obtain ⟨s', hrest, hcol, hline, hend⟩ := plainFrom_line fuel (cs.reverse ++ [])
    (Source.rest_skipMany_append hs rfl) hn hr
  refine ⟨s', hrest, hcol, hline, ?_⟩
  rw [plain, hread, hend]
  simp

/-- Reading a plain scalar to the colon after it. -/
theorem plain_colon {before : Char} {cs : List Char} (h : GoesPlain before cs) {indent : Nat}
    {more : List Char} {s : Source} (hs : s.rest = cs ++ ':' :: more)
    (hm : more.head?.all isSpacing = true) (hind : indent ≤ s.column + 1) :
    plain false indent s = .ok ⟨cs, s.skipMany cs.length, false⟩ := by
  obtain ⟨fuel, hf, hread⟩ := plainFrom_goes h _ indent (2 * s.rest.length + 1) s [] hs hind
    (by rw [← hs]; omega)
  obtain ⟨fuel, rfl⟩ : ∃ f, fuel = f + 1 := ⟨fuel - 1, by omega⟩
  rw [plain, hread, plainFrom_colon fuel _ (Source.rest_skipMany_append hs rfl) hm]
  simp

end ScalarText

end Linewise.Yaml
