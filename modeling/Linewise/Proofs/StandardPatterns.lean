import Linewise.Proofs.AsciiCharacters
import Linewise.Proofs.PatternSearch
import Linewise.Rule.LinePattern

/-!
# What the standard patterns find

Two of the standard patterns find whole words between blanks, one finds a tag in a comment that starts
a line and one finds the name of a macro where it names a namespace. All of this can be seen in the
bytes of a line, whether or not the rest of the line is well-formed.
-/

namespace Linewise

namespace Pattern

variable {before after : Option Char} {s : List Char} {q : Pattern}

/-! ## Words and runs -/

/-- The pattern of a word and of what follows it. -/
def spelling : List Char → Pattern → Pattern
  | [], q => q
  | c :: cs, q => .concat (.literal c.toNat) (spelling cs q)

/-- The pattern of a word. -/
def word : List Char → Pattern
  | [] => .empty
  | [c] => .literal c.toNat
  | c :: cs => .concat (.literal c.toNat) (word cs)

theorem matches_char_iff {c : Char} :
    Matches (.literal c.toNat) before s after ↔ s = [c] := by
  rw [matches_literal_iff]
  constructor
  · rintro ⟨d, hd, rfl⟩
    rw [Char.toNat_inj.mp hd]
  · rintro rfl
    exact ⟨c, rfl, rfl⟩

theorem matches_char_concat_iff {c : Char} : Matches (.concat (.literal c.toNat) q) before s after ↔
    ∃ t, s = c :: t ∧ Matches q (some c) t after := by
  simp [matches_concat_iff, matches_char_iff]

theorem matches_spelling_iff (w : List Char) : Matches (spelling w q) before s after ↔
    ∃ t, s = w ++ t ∧ Matches q (lastOr before w) t after := by
  induction w generalizing before s with
  | nil => simp [spelling]
  | cons c w ih =>
    simp only [spelling, matches_char_concat_iff, ih, lastOr_cons]
    constructor
    · rintro ⟨_, rfl, t, rfl, h⟩
      exact ⟨t, rfl, h⟩
    · rintro ⟨t, rfl, h⟩
      exact ⟨w ++ t, rfl, t, rfl, h⟩

theorem matches_word_iff (w : List Char) : Matches (word w) before s after ↔ s = w := by
  fun_induction word w generalizing before s with
  | case1 => exact matches_empty_iff
  | case2 c => exact matches_char_iff
  | case3 c cs hne ih => simp [matches_char_concat_iff, ih]

theorem times_set_iff {set : CharSet} {n : Nat} : Times (.set set) n before s after ↔
    s.length = n ∧ ∀ c ∈ s, set.holds c.toNat = true := by
  induction n generalizing before s with
  | zero =>
    rw [times_zero_iff, List.length_eq_zero_iff, iff_self_and]
    rintro rfl
    simp
  | succ n ih =>
    simp only [times_succ_iff, matches_set_iff, ih]
    constructor
    · rintro ⟨_, t, rfl, ⟨c, hc, rfl⟩, rfl, ht⟩
      exact ⟨by simp, List.forall_mem_cons.mpr ⟨hc, ht⟩⟩
    · rintro ⟨hlength, hs⟩
      obtain ⟨c, t, rfl⟩ := List.exists_cons_of_length_eq_add_one hlength
      obtain ⟨hc, ht⟩ := List.forall_mem_cons.mp hs
      exact ⟨[c], t, rfl, ⟨c, hc, rfl⟩, by simpa using hlength, ht⟩

/-- A run of characters out of a set. -/
theorem matches_run_iff {set : CharSet} {min : Nat} :
    Matches (.repeated (.set set) min none) before s after ↔
      min ≤ s.length ∧ ∀ c ∈ s, set.holds c.toNat = true := by
  simp [matches_repeated_iff, times_set_iff]

theorem CharSet.holds_single (m : Member) (n : Nat) : CharSet.holds ⟨[m], false⟩ n = m.holds n := by
  simp [holds]

end Pattern

namespace LinePattern
open Pattern Utf8

/-! ## Blanks -/

/-- The blanks: tab, line feed, form feed, carriage return and space. -/
def blanks : Bytes := [9, 10, 12, 13, 32]

/-- The character that a blank stands for. -/
def IsBlank (c : Char) : Prop := c.toNat ∈ [9, 10, 12, 13, 32]

instance (c : Char) : Decidable (IsBlank c) := inferInstanceAs (Decidable (_ ∈ _))

/-- The set of the blanks, whether or not it is closed under change of case. -/
def blankSet (fold : Bool) : CharSet :=
  ⟨[⟨[.range 9 10, .range 12 13, .range 32 32], fold, false⟩], false⟩

theorem holds_blankSet_iff (fold : Bool) (c : Char) :
    (blankSet fold).holds c.toNat = true ↔ IsBlank c := by
  have hatoms (n : Nat) : ([Atom.range 9 10, .range 12 13, .range 32 32].any (·.holds n)) = true ↔
      n ∈ [9, 10, 12, 13, 32] := by
    simp [Atom.holds]
    omega
  rw [blankSet, CharSet.holds_single]
  cases fold with
  | false => simp only [Member.holds, Bool.bne_false, Bool.false_eq_true, if_false, hatoms, IsBlank]
  | true =>
    have hfar (k : Nat) (hk : k ∈ [9, 10, 12, 13, 32]) : k < 128 ∧ k ∉ [75, 83, 107, 115] := by
      revert k
      decide
    have hnear : ∀ n < 128, (∃ k ∈ Unicode.caseOrbit n, k ∈ [9, 10, 12, 13, 32]) ↔
        n ∈ [9, 10, 12, 13, 32] := by
      decide +kernel
    rw [Member.holds_fold_iff fun k hk => hfar k ((hatoms k).mp hk), List.any_eq_true]
    simp only [hatoms]
    rw [and_congr_right (hnear c.toNat), IsBlank, and_iff_right_of_imp fun h => (hfar _ h).1]

theorem IsBlank.ascii {c : Char} (h : IsBlank c) : c.toNat < 0x80 ∧ Bytes.ascii c ∈ blanks := by
  simp only [IsBlank, List.mem_cons, List.not_mem_nil, or_false] at h
  rcases h with h | h | h | h | h <;> simp [Bytes.ascii, h, blanks]

theorem isBlank_ofNat : ∀ b ∈ blanks,
    IsBlank (Char.ofNat b.toNat) ∧ Bytes.ascii (Char.ofNat b.toNat) = b := by
  simp [blanks, IsBlank, Bytes.ascii]

theorem forall_ascii_of_isBlank {u : List Char} (h : ∀ c ∈ u, IsBlank c) : ∀ c ∈ u, c.toNat < 0x80 :=
  fun c hc => (h c hc).ascii.1

/-- A run of blank characters is a run of blanks. -/
theorem mem_blanks_of_mem_encode {u : List Char} (h : ∀ c ∈ u, IsBlank c) :
    ∀ b ∈ encode u, b ∈ blanks := by
  rw [encode_of_lt (forall_ascii_of_isBlank h)]
  intro b hb
  obtain ⟨c, hc, rfl⟩ := List.mem_map.mp hb
  exact (h c hc).ascii.2

theorem exists_encode_eq {run : Bytes} (h : ∀ b ∈ run, b ∈ blanks) :
    ∃ u, (∀ c ∈ u, IsBlank c) ∧ encode u = run := by
  have hu : ∀ c ∈ run.map (Char.ofNat ·.toNat), IsBlank c := by
    intro c hc
    obtain ⟨b, hb, rfl⟩ := List.mem_map.mp hc
    exact (isBlank_ofNat b (h b hb)).1
  refine ⟨_, hu, ?_⟩
  rw [encode_of_lt (forall_ascii_of_isBlank hu), List.map_map]
  conv_rhs => rw [← List.map_id run]
  exact List.map_congr_left fun b hb => (isBlank_ofNat b (h b hb)).2

/-- A neighbour is a blank character exactly when its byte is a blank. -/
theorem forall_isBlank_iff {o : Option Char} {o' : Option UInt8} (hnone : o = none ↔ o' = none)
    (hsome : ∀ c, c.toNat < 0x80 → (o = some c ↔ o' = some (Bytes.ascii c))) :
    (∀ c ∈ o, IsBlank c) ↔ ∀ b ∈ o', b ∈ blanks := by
  constructor
  · intro h b hb
    cases ho : o with
    | none => simp [hnone.mp ho] at hb
    | some c =>
      have hc := (h c ho).ascii
      obtain rfl := Option.some.inj (hb.symm.trans ((hsome c hc.1).mp ho))
      exact hc.2
  · intro h c hc
    cases ho : o' with
    | none => simp [hnone.mpr ho] at hc
    | some b =>
      obtain ⟨hblank, hbyte⟩ := isBlank_ofNat b (h b ho)
      rw [← hbyte] at ho
      obtain rfl := Option.some.inj (hc.symm.trans ((hsome _ hblank.ascii.1).mpr ho))
      exact hblank

theorem forall_getLast?_chars_iff {x : Bytes} :
    (∀ c ∈ (chars x).getLast?, IsBlank c) ↔ ∀ b ∈ x.getLast?, b ∈ blanks :=
  forall_isBlank_iff (by simp [chars_eq_nil_iff]) fun _ hc => getLast?_chars_iff hc

theorem forall_head?_chars_iff {y : Bytes} :
    (∀ c ∈ (chars y).head?, IsBlank c) ↔ ∀ b ∈ y.head?, b ∈ blanks :=
  forall_isBlank_iff (by simp [chars_eq_nil_iff]) fun _ hc => head?_chars_iff hc

theorem matches_blanks_iff {before after : Option Char} {s : List Char} {fold : Bool} {min : Nat} :
    Matches (.repeated (.set (blankSet fold)) min none) before s after ↔
      min ≤ s.length ∧ ∀ c ∈ s, IsBlank c := by
  simp only [matches_run_iff, holds_blankSet_iff]

/-! ## Words between blanks -/

/-- Some blanks, or the start of the text. -/
def front : Pattern := .either (.assertion .textStart) (.repeated (.set (blankSet false)) 1 none)

/-- Some blanks, or the end of the text. -/
def back : Pattern := .either (.repeated (.set (blankSet false)) 1 none) (.assertion .textEnd)

/-- Some blanks, or nothing where the text ends. -/
def Apart (neighbour : Option Char) (run : List Char) : Prop :=
  neighbour = none ∧ run = [] ∨ run ≠ [] ∧ ∀ c ∈ run, IsBlank c

theorem matches_front_iff {before after : Option Char} {s : List Char} :
    Matches front before s after ↔ Apart before s := by
  simp [front, Apart, matches_either_iff, matches_assertion_iff, matches_blanks_iff, Assertion.holds,
    Nat.one_le_iff_ne_zero]

theorem matches_back_iff {before after : Option Char} {s : List Char} :
    Matches back before s after ↔ Apart after s := by
  rw [back, matches_either_iff, or_comm]
  simp [Apart, matches_assertion_iff, matches_blanks_iff, Assertion.holds, Nat.one_le_iff_ne_zero]

theorem exists_front_iff {text : List Char} :
    (∃ a u, text = a ++ u ∧ Apart a.getLast? u) ↔ ∀ c ∈ text.getLast?, IsBlank c := by
  constructor
  · rintro ⟨a, u, rfl, ⟨hnone, rfl⟩ | ⟨hne, hblank⟩⟩
    · simp [hnone]
    · rw [List.getLast?_append_of_ne_nil a hne]
      exact fun c hc => hblank c (List.mem_of_getLast? hc)
  · intro h
    cases hlast : text.getLast? with
    | none => exact ⟨text, [], by simp, .inl ⟨hlast, rfl⟩⟩
    | some c =>
      obtain ⟨a, rfl⟩ := List.getLast?_eq_some_iff.mp hlast
      exact ⟨a, [c], rfl, .inr ⟨by simp, by simpa using h c hlast⟩⟩

theorem exists_back_iff {text : List Char} :
    (∃ v b, text = v ++ b ∧ Apart b.head? v) ↔ ∀ c ∈ text.head?, IsBlank c := by
  constructor
  · rintro ⟨v, b, rfl, ⟨hnone, rfl⟩ | ⟨hne, hblank⟩⟩
    · simp [hnone]
    · rw [List.head?_append_of_ne_nil v hne]
      exact fun c hc => hblank c (List.mem_of_head? hc)
  · intro h
    cases text with
    | nil => exact ⟨[], [], rfl, .inl ⟨rfl, rfl⟩⟩
    | cons c b => exact ⟨[c], b, rfl, .inr ⟨by simp, by simpa using h c rfl⟩⟩

/-- A word of a line: a run without blanks that goes on as far as it can. -/
def IsWord (word line : Bytes) : Prop :=
  word ≠ [] ∧ (∀ b ∈ word, b ∉ blanks) ∧ ∃ x y, line = x ++ (word ++ y) ∧
    (∀ b ∈ x.getLast?, b ∈ blanks) ∧ ∀ b ∈ y.head?, b ∈ blanks

/-- The letters of a word: ASCII characters that are not blank, at least one. -/
structure Spells (w : List Char) : Prop where
  ne_nil : w ≠ []
  ascii : ∀ c ∈ w, c.toNat < 0x80
  notBlank : ∀ c ∈ w, ¬IsBlank c

theorem Spells.not_mem_blanks {w : List Char} (h : Spells w) : ∀ b ∈ encode w, b ∉ blanks := by
  rw [encode_of_lt h.ascii]
  intro b hb hblank
  obtain ⟨c, hc, rfl⟩ := List.mem_map.mp hb
  have hchar := (isBlank_ofNat _ hblank).1
  rw [ofNat_ascii (h.ascii c hc)] at hchar
  exact h.notBlank c hc hchar

/-- A pattern that describes a word with what keeps it apart finds the lines with this word. -/
theorem occursIn_iff_isWord {p : Pattern} {words : List String}
    (hwords : ∀ w ∈ words, Spells w.toList)
    (hp : ∀ before s after, Matches p before s after ↔ ∃ w ∈ words, ∃ u v,
      s = u ++ (w.toList ++ v) ∧ Apart before u ∧ Apart after v) (line : Bytes) :
    p.occursIn line = true ↔ ∃ w ∈ words, IsWord (utf8 w) line := by
  rw [Pattern.occursIn_iff]
  constructor
  · rintro ⟨a, s, b, hline, hs⟩
    obtain ⟨w, hw, u, v, rfl, hu, hv⟩ := (hp ..).mp hs
    have hspells := hwords w hw
    have hsplit : chars line = (a ++ u) ++ (w.toList ++ (v ++ b)) := by simp [hline]
    obtain ⟨x, y, rfl, hx, hy⟩ := (chars_eq_append_iff hspells.ne_nil hspells.ascii).mp hsplit
    have hfront := exists_front_iff.mp ⟨a, u, hx, hu⟩
    have hback := exists_back_iff.mp ⟨v, b, hy, hv⟩
    exact ⟨w, hw, encode_eq_nil_iff.not.mpr hspells.ne_nil, hspells.not_mem_blanks, x, y, rfl,
      forall_getLast?_chars_iff.mp hfront, forall_head?_chars_iff.mp hback⟩
  · rintro ⟨w, hw, -, -, x, y, rfl, hx, hy⟩
    have hspells := hwords w hw
    obtain ⟨a, u, hau, hu⟩ := exists_front_iff.mpr (forall_getLast?_chars_iff.mpr hx)
    obtain ⟨v, b, hvb, hv⟩ := exists_back_iff.mpr (forall_head?_chars_iff.mpr hy)
    have hsplit : chars (x ++ (utf8 w ++ y)) = (a ++ u) ++ (w.toList ++ (v ++ b)) :=
      (chars_eq_append_iff hspells.ne_nil hspells.ascii).mpr ⟨x, y, rfl, hau, hvb⟩
    exact ⟨a, u ++ (w.toList ++ v), b, by simp [hsplit], (hp ..).mpr ⟨w, hw, u, v, rfl, hu, hv⟩⟩

theorem exitKeywordPattern_eq :
    exitKeywordPattern = .concat front (spelling "exit".toList back) := by
  rfl

theorem aceErrorPattern_eq : aceErrorPattern = .concat front
    (.concat (.either (word "ACE_ERROR".toList)
      (.either (word "ACE_ERROR_RETURN".toList) (word "ACE_DEBUG".toList))) back) := by
  rfl

variable {before after : Option Char} {s : List Char}

theorem matches_exitKeyword_iff : Matches exitKeywordPattern before s after ↔
    ∃ w ∈ ["exit"], ∃ u v, s = u ++ (w.toList ++ v) ∧ Apart before u ∧ Apart after v := by
  simp only [exitKeywordPattern_eq, matches_concat_iff, matches_front_iff, matches_spelling_iff,
    matches_back_iff, List.mem_singleton, exists_eq_left]
  constructor
  · rintro ⟨u, _, rfl, hu, v, rfl, hv⟩
    exact ⟨u, v, rfl, hu, hv⟩
  · rintro ⟨u, v, rfl, hu, hv⟩
    exact ⟨u, _, rfl, hu, v, rfl, hv⟩

/-- The words of the old logging macros. -/
def loggingWords : List String := ["ACE_ERROR", "ACE_ERROR_RETURN", "ACE_DEBUG"]

theorem matches_aceError_iff : Matches aceErrorPattern before s after ↔
    ∃ w ∈ loggingWords, ∃ u v, s = u ++ (w.toList ++ v) ∧ Apart before u ∧ Apart after v := by
  have hwords (before after : Option Char) (s : List Char) :
      Matches (.either (word "ACE_ERROR".toList) (.either (word "ACE_ERROR_RETURN".toList)
        (word "ACE_DEBUG".toList))) before s after ↔ ∃ w ∈ loggingWords, s = w.toList := by
    simp only [matches_either_iff, matches_word_iff, loggingWords, List.mem_cons, List.not_mem_nil,
      or_false, exists_eq_or_imp, exists_eq_left]
  simp only [aceErrorPattern_eq, matches_concat_iff, matches_front_iff, hwords, matches_back_iff]
  constructor
  · rintro ⟨u, _, rfl, hu, _, v, rfl, ⟨w, hw, rfl⟩, hv⟩
    exact ⟨w, hw, u, v, rfl, hu, hv⟩
  · rintro ⟨w, hw, u, v, rfl, hu, hv⟩
    exact ⟨u, _, rfl, hu, _, v, rfl, ⟨w, hw, rfl⟩, hv⟩

/-! ## Tags and macros -/

/-- A pattern that describes stretches of ASCII characters, wherever they stand, finds the lines with
such a stretch. -/
theorem occursIn_iff_anywhere {p : Pattern} {stretches : List Char → Prop}
    (hp : ∀ before s after, Matches p before s after ↔ stretches s)
    (hascii : ∀ s, stretches s → s ≠ [] ∧ ∀ c ∈ s, c.toNat < 0x80) (line : Bytes) :
    p.occursIn line = true ↔ ∃ s, stretches s ∧ encode s <:+: line := by
  rw [Pattern.occursIn_iff]
  constructor
  · rintro ⟨a, s, b, hline, hs⟩
    rw [hp] at hs
    rw [List.append_assoc] at hline
    obtain ⟨x, y, rfl, -, -⟩ := (chars_eq_append_iff (hascii s hs).1 (hascii s hs).2).mp hline
    exact ⟨s, hs, x, y, List.append_assoc ..⟩
  · rintro ⟨s, hs, x, y, rfl⟩
    refine ⟨chars x, s, chars y, ?_, (hp ..).mpr hs⟩
    rw [List.append_assoc, List.append_assoc]
    exact (chars_eq_append_iff (hascii s hs).1 (hascii s hs).2).mpr ⟨x, y, rfl, rfl, rfl⟩

/-- If they must stand at the start of the text, it finds the lines that start with such a stretch. -/
theorem occursIn_iff_atStart {p : Pattern} {stretches : List Char → Prop}
    (hp : ∀ before s after, Matches p before s after ↔ before = none ∧ stretches s)
    (hascii : ∀ s, stretches s → s ≠ [] ∧ ∀ c ∈ s, c.toNat < 0x80) (line : Bytes) :
    p.occursIn line = true ↔ ∃ s, stretches s ∧ encode s <+: line := by
  rw [Pattern.occursIn_iff]
  constructor
  · rintro ⟨a, s, b, hline, hs⟩
    obtain ⟨hstart, hs⟩ := (hp ..).mp hs
    rw [List.append_assoc] at hline
    obtain ⟨x, y, rfl, hx, -⟩ := (chars_eq_append_iff (hascii s hs).1 (hascii s hs).2).mp hline
    rw [List.getLast?_eq_none_iff.mp hstart] at hx
    obtain rfl := chars_eq_nil_iff.mp hx
    exact ⟨s, hs, y, rfl⟩
  · rintro ⟨s, hs, y, rfl⟩
    refine ⟨[], s, chars y, ?_, (hp ..).mpr ⟨rfl, hs⟩⟩
    rw [List.append_assoc]
    exact (chars_eq_append_iff (hascii s hs).1 (hascii s hs).2).mpr ⟨[], y, rfl, rfl, rfl⟩

/-- The characters of the tag and of the signs in front of it, with what they match in any case. -/
def caseTable : List (Nat × List Char) :=
  [(42, ['*']), (47, ['/']), (35, ['#']), (36, ['$']), (73, ['i', 'I']), (100, ['d', 'D'])]

theorem matches_anyCase_iff {code : Nat} {letters : List Char} (h : (code, letters) ∈ caseTable) :
    Matches (.set (.anyCase code)) before s after ↔ ∃ c ∈ letters, s = [c] := by
  have hcodes : ∀ entry ∈ caseTable, entry.1 < 128 ∧ entry.1 ∉ [75, 83, 107, 115] := by decide
  have hletters : ∀ entry ∈ caseTable, ∀ c ∈ entry.2, c.toNat < 128 := by simp [caseTable]
  have horbits : ∀ entry ∈ caseTable, ∀ n < 128,
      entry.1 ∈ Unicode.caseOrbit n ↔ n ∈ entry.2.map Char.toNat := by
    decide +kernel
  have hatoms (n : Nat) : ([Atom.range code code].any (·.holds n)) = true ↔ n = code := by
    simp [Atom.holds]
    omega
  have hfar (k : Nat) (hk : ([Atom.range code code].any (·.holds k)) = true) :
      k < 128 ∧ k ∉ [75, 83, 107, 115] := by
    obtain rfl := (hatoms k).mp hk
    exact hcodes _ h
  have hholds (c : Char) : (CharSet.anyCase code).holds c.toNat = true ↔ c ∈ letters := by
    rw [CharSet.anyCase, CharSet.holds_single, Member.holds_fold_iff hfar, List.any_eq_true]
    simp only [hatoms, exists_eq_right]
    rw [and_congr_right (horbits _ h c.toNat)]
    constructor
    · rintro ⟨-, hmem⟩
      obtain ⟨d, hd, hsame⟩ := List.mem_map.mp hmem
      exact Char.toNat_inj.mp hsame ▸ hd
    · exact fun hc => ⟨hletters _ h c hc, List.mem_map_of_mem hc⟩
  simp only [matches_set_iff, hholds]

/-- The signs that start a comment. -/
def signs : List String := ["*", "//", "#"]

/-- The pattern of the signs. -/
def signPattern : Pattern :=
  .either (.set (.anyCase 42))
    (.either (.concat (.set (.anyCase 47)) (.set (.anyCase 47))) (.set (.anyCase 35)))

theorem matches_signPattern_iff :
    Matches signPattern before s after ↔ ∃ sign ∈ signs, s = sign.toList := by
  have hstar : (42, ['*']) ∈ caseTable := by simp [caseTable]
  have hslash : (47, ['/']) ∈ caseTable := by simp [caseTable]
  have hhash : (35, ['#']) ∈ caseTable := by simp [caseTable]
  simp only [signPattern, matches_either_iff, matches_concat_iff, matches_anyCase_iff hstar,
    matches_anyCase_iff hslash, matches_anyCase_iff hhash, exists_eq_left, signs, List.mem_cons,
    List.not_mem_nil, or_false, exists_eq_or_imp]
  refine or_congr Iff.rfl (or_congr ?_ Iff.rfl)
  constructor
  · rintro ⟨_, _, rfl, rfl, rfl⟩
    rfl
  · rintro rfl
    exact ⟨_, _, rfl, rfl, rfl⟩

/-- The tag in any case. -/
def idTags : List String := ["$id", "$iD", "$Id", "$ID"]

/-- The pattern of the tag. -/
def tagPattern : Pattern :=
  .concat (.set (.anyCase 36)) (.concat (.set (.anyCase 73)) (.set (.anyCase 100)))

theorem matches_tagPattern_iff :
    Matches tagPattern before s after ↔ ∃ tag ∈ idTags, s = tag.toList := by
  have hdollar : (36, ['$']) ∈ caseTable := by simp [caseTable]
  have hi : (73, ['i', 'I']) ∈ caseTable := by simp [caseTable]
  have hd : (100, ['d', 'D']) ∈ caseTable := by simp [caseTable]
  simp only [tagPattern, matches_concat_iff, matches_anyCase_iff hdollar, matches_anyCase_iff hi,
    matches_anyCase_iff hd, exists_eq_left, idTags, List.mem_cons, List.not_mem_nil, or_false,
    exists_eq_or_imp]
  constructor
  · rintro ⟨_, _, rfl, rfl, _, _, rfl, rfl | rfl, rfl | rfl⟩ <;> simp
  · rintro (rfl | rfl | rfl | rfl)
    · exact ⟨['$'], _, rfl, rfl, ['i'], ['d'], rfl, .inl rfl, .inl rfl⟩
    · exact ⟨['$'], _, rfl, rfl, ['i'], ['D'], rfl, .inl rfl, .inr rfl⟩
    · exact ⟨['$'], _, rfl, rfl, ['I'], ['d'], rfl, .inr rfl, .inl rfl⟩
    · exact ⟨['$'], _, rfl, rfl, ['I'], ['D'], rfl, .inr rfl, .inr rfl⟩

theorem idTagPattern_eq : idTagPattern = .concat (.assertion .textStart)
    (.concat (.repeated (.set (blankSet true)) 0 none) (.concat signPattern
      (.concat (.repeated (.set (blankSet true)) 0 none) tagPattern))) := by
  rfl

/-- Blanks, the sign of a comment, blanks and the tag. -/
def TagsId (s : List Char) : Prop :=
  ∃ sign ∈ signs, ∃ tag ∈ idTags, ∃ u, (∀ c ∈ u, IsBlank c) ∧ ∃ v, (∀ c ∈ v, IsBlank c) ∧
    s = u ++ (sign.toList ++ (v ++ tag.toList))

theorem matches_idTag_iff : Matches idTagPattern before s after ↔ before = none ∧ TagsId s := by
  simp only [idTagPattern_eq, matches_concat_iff, matches_assertion_iff, matches_blanks_iff,
    matches_signPattern_iff, matches_tagPattern_iff, Assertion.holds, Option.isNone_iff_eq_none,
    Nat.zero_le, true_and, TagsId]
  constructor
  · rintro ⟨_, _, rfl, ⟨hstart, rfl⟩, u, _, rfl, hu, _, _, rfl, ⟨sign, hsign, rfl⟩, v, _, rfl, hv, tag,
      htag, rfl⟩
    exact ⟨hstart, sign, hsign, tag, htag, u, hu, v, hv, rfl⟩
  · rintro ⟨hstart, sign, hsign, tag, htag, u, hu, v, hv, rfl⟩
    exact ⟨[], _, rfl, ⟨hstart, rfl⟩, u, _, rfl, hu, _, _, rfl, ⟨sign, hsign, rfl⟩, v, _, rfl, hv, tag,
      htag, rfl⟩

/-- The names of the macros. -/
def macros : List String := ["TAOX11_NAMESPACE", "TAOX11_CORBA", "TAOX11_PORTABLE_SERVER"]

/-- The pattern of the macros. -/
def macroPattern : Pattern :=
  .either (word "TAOX11_NAMESPACE".toList)
    (.either (word "TAOX11_CORBA".toList) (word "TAOX11_PORTABLE_SERVER".toList))

theorem matches_macroPattern_iff :
    Matches macroPattern before s after ↔ ∃ m ∈ macros, s = m.toList := by
  simp [macroPattern, matches_either_iff, matches_word_iff, macros]

theorem namespacePattern_eq : namespacePattern =
    .either (.concat macroPattern (word "::".toList))
      (spelling "namespace".toList
        (.concat (.repeated (.set (blankSet false)) 1 none) macroPattern)) := by
  decide +kernel

/-- The name of a macro where it names a namespace. -/
def NamesNamespace (s : List Char) : Prop :=
  ∃ m ∈ macros, s = m.toList ++ "::".toList ∨
    ∃ u, (∀ c ∈ u, IsBlank c) ∧ u ≠ [] ∧ s = "namespace".toList ++ (u ++ m.toList)

theorem matches_namespace_iff : Matches namespacePattern before s after ↔ NamesNamespace s := by
  simp only [namespacePattern_eq, matches_either_iff, matches_spelling_iff, matches_concat_iff,
    matches_macroPattern_iff, matches_word_iff, matches_blanks_iff, NamesNamespace]
  constructor
  · rintro (⟨_, _, rfl, ⟨m, hm, rfl⟩, rfl⟩ | ⟨_, rfl, u, _, rfl, ⟨hlength, hu⟩, m, hm, rfl⟩)
    · exact ⟨m, hm, .inl rfl⟩
    · exact ⟨m, hm, .inr ⟨u, hu, List.length_pos_iff.mp hlength, rfl⟩⟩
  · rintro ⟨m, hm, rfl | ⟨u, hu, hne, rfl⟩⟩
    · exact .inl ⟨_, _, rfl, ⟨m, hm, rfl⟩, rfl⟩
    · exact .inr ⟨_, rfl, u, _, rfl, ⟨List.length_pos_iff.mpr hne, hu⟩, m, hm, rfl⟩

theorem TagsId.ascii {s : List Char} (h : TagsId s) : s ≠ [] ∧ ∀ c ∈ s, c.toNat < 0x80 := by
  obtain ⟨sign, hsign, tag, htag, u, hu, v, hv, rfl⟩ := h
  have hsigns : ∀ sign ∈ signs, sign.toList ≠ [] ∧ ∀ c ∈ sign.toList, c.toNat < 0x80 := by
    simp [signs]
  have htags : ∀ tag ∈ idTags, ∀ c ∈ tag.toList, c.toNat < 0x80 := by simp [idTags]
  refine ⟨by simp [(hsigns sign hsign).1], ?_⟩
  simp only [List.forall_mem_append]
  exact ⟨forall_ascii_of_isBlank hu, (hsigns sign hsign).2, forall_ascii_of_isBlank hv,
    htags tag htag⟩

theorem NamesNamespace.ascii {s : List Char} (h : NamesNamespace s) :
    s ≠ [] ∧ ∀ c ∈ s, c.toNat < 0x80 := by
  obtain ⟨m, hm, h⟩ := h
  have hname : ∀ c ∈ m.toList, c.toNat < 0x80 := by
    revert m
    simp [macros]
  rcases h with rfl | ⟨u, hu, -, rfl⟩
  · refine ⟨by simp, ?_⟩
    simp only [List.forall_mem_append]
    exact ⟨hname, by simp⟩
  · refine ⟨by simp, ?_⟩
    simp only [List.forall_mem_append]
    exact ⟨by simp, forall_ascii_of_isBlank hu, hname⟩

theorem encode_toList (w : String) : encode w.toList = utf8 w := rfl

theorem exitKeyword_found_iff (line : Bytes) :
    exitKeywordPattern.occursIn line = true ↔ IsWord (utf8 "exit") line := by
  have hwords : ∀ w ∈ ["exit"], Spells w.toList := by
    simp only [List.mem_singleton, forall_eq]
    exact ⟨by decide, by simp, by simp [IsBlank]⟩
  rw [occursIn_iff_isWord hwords fun _ _ _ => matches_exitKeyword_iff]
  simp only [List.mem_singleton, exists_eq_left]

theorem aceError_found_iff (line : Bytes) :
    aceErrorPattern.occursIn line = true ↔ ∃ w ∈ loggingWords, IsWord (utf8 w) line := by
  have hwords : ∀ w ∈ loggingWords, Spells w.toList := fun w hw =>
    ⟨by revert w; decide, by revert w; simp [loggingWords],
      by revert w; simp [loggingWords, IsBlank]⟩
  exact occursIn_iff_isWord hwords (fun _ _ _ => matches_aceError_iff) line

theorem idTag_found_iff (line : Bytes) :
    idTagPattern.occursIn line = true ↔ ∃ sign ∈ signs, ∃ tag ∈ idTags,
      ∃ run : Bytes, (∀ b ∈ run, b ∈ blanks) ∧ ∃ run' : Bytes, (∀ b ∈ run', b ∈ blanks) ∧
        run ++ (utf8 sign ++ (run' ++ utf8 tag)) <+: line := by
  rw [occursIn_iff_atStart (fun _ _ _ => matches_idTag_iff) fun _ => TagsId.ascii]
  constructor
  · rintro ⟨_, ⟨sign, hsign, tag, htag, u, hu, v, hv, rfl⟩, hline⟩
    simp only [encode_append, encode_toList] at hline
    exact ⟨sign, hsign, tag, htag, encode u, mem_blanks_of_mem_encode hu, encode v,
      mem_blanks_of_mem_encode hv, hline⟩
  · rintro ⟨sign, hsign, tag, htag, run, hrun, run', hrun', hline⟩
    obtain ⟨u, hu, rfl⟩ := exists_encode_eq hrun
    obtain ⟨v, hv, rfl⟩ := exists_encode_eq hrun'
    refine ⟨_, ⟨sign, hsign, tag, htag, u, hu, v, hv, rfl⟩, ?_⟩
    simpa only [encode_append, encode_toList]

theorem namespace_found_iff (line : Bytes) :
    namespacePattern.occursIn line = true ↔ ∃ m ∈ macros, utf8 m ++ utf8 "::" <:+: line ∨
      ∃ run : Bytes, (∀ b ∈ run, b ∈ blanks) ∧ run ≠ [] ∧
        utf8 "namespace" ++ (run ++ utf8 m) <:+: line := by
  rw [occursIn_iff_anywhere (fun _ _ _ => matches_namespace_iff) fun _ => NamesNamespace.ascii]
  constructor
  · rintro ⟨_, ⟨m, hm, rfl | ⟨u, hu, hne, rfl⟩⟩, hline⟩
    · simp only [encode_append, encode_toList] at hline
      exact ⟨m, hm, .inl hline⟩
    · simp only [encode_append, encode_toList] at hline
      exact ⟨m, hm, .inr ⟨encode u, mem_blanks_of_mem_encode hu, encode_eq_nil_iff.not.mpr hne,
        hline⟩⟩
  · rintro ⟨m, hm, hline | ⟨run, hrun, hne, hline⟩⟩
    · refine ⟨_, ⟨m, hm, .inl rfl⟩, ?_⟩
      simpa only [encode_append, encode_toList]
    · obtain ⟨u, hu, rfl⟩ := exists_encode_eq hrun
      refine ⟨_, ⟨m, hm, .inr ⟨u, hu, encode_eq_nil_iff.not.mp hne, rfl⟩⟩, ?_⟩
      simpa only [encode_append, encode_toList]

/-- What the four standard patterns find in a line: the word `exit`, one of the words of the old
logging macros, a tag in a comment at the start of the line, and a macro in front of a double colon or
behind the word `namespace`. -/
theorem standard_patterns_find (line : Bytes) :
    (exitKeywordPattern.occursIn line = true ↔ IsWord (utf8 "exit") line) ∧
    (aceErrorPattern.occursIn line = true ↔ ∃ w ∈ loggingWords, IsWord (utf8 w) line) ∧
    (idTagPattern.occursIn line = true ↔ ∃ sign ∈ signs, ∃ tag ∈ idTags,
      ∃ run : Bytes, (∀ b ∈ run, b ∈ blanks) ∧ ∃ run' : Bytes, (∀ b ∈ run', b ∈ blanks) ∧
        run ++ (utf8 sign ++ (run' ++ utf8 tag)) <+: line) ∧
    (namespacePattern.occursIn line = true ↔ ∃ m ∈ macros, utf8 m ++ utf8 "::" <:+: line ∨
      ∃ run : Bytes, (∀ b ∈ run, b ∈ blanks) ∧ run ≠ [] ∧
        utf8 "namespace" ++ (run ++ utf8 m) <:+: line) :=
  ⟨exitKeyword_found_iff line, aceError_found_iff line, idTag_found_iff line,
    namespace_found_iff line⟩

end LinePattern

end Linewise
