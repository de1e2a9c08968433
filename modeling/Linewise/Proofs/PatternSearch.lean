import Linewise.Pattern.Basic
import Mathlib

/-!
# Searching for a pattern

A search runs through a text once and keeps what may remain of the attempts that it has begun. The
remainders of a pattern after a character describe the rest of every stretch that starts with this
character and that the pattern describes. So the search finds a pattern exactly when the pattern
describes some stretch of the text.
-/

namespace Linewise.Pattern

/-- `Times p n before s after`: the stretch `s` consists of `n` stretches that `p` describes. -/
inductive Times (p : Pattern) : Nat → Option Char → List Char → Option Char → Prop where
  | zero {before after} : Times p 0 before [] after
  | succ {n before after s t} : Matches p before s (firstOr t after) →
      Times p n (lastOr before s) t after → Times p (n + 1) before (s ++ t) after

/-- `MatchesAll ps before s after`: the patterns `ps`, one after the other, describe `s`. -/
inductive MatchesAll : List Pattern → Option Char → List Char → Option Char → Prop where
  | nil {before after} : MatchesAll [] before [] after
  | cons {p ps before after s t} : Matches p before s (firstOr t after) →
      MatchesAll ps (lastOr before s) t after → MatchesAll (p :: ps) before (s ++ t) after

variable {p q : Pattern} {ps qs : List Pattern} {before after : Option Char} {s t : List Char}
  {c : Char} {n min : Nat} {max : Option Nat}

/-! ## Neighbours of a stretch -/

@[simp] theorem lastOr_nil (before : Option Char) : lastOr before [] = before := rfl

@[simp] theorem lastOr_cons (before : Option Char) (c : Char) (s : List Char) :
    lastOr before (c :: s) = lastOr (some c) s := by
  cases s with
  | nil => rfl
  | cons d s => simp [lastOr, List.getLast?_cons]

@[simp] theorem firstOr_nil (after : Option Char) : firstOr [] after = after := rfl

@[simp] theorem firstOr_cons (c : Char) (s : List Char) (after : Option Char) :
    firstOr (c :: s) after = some c := rfl

theorem lastOr_append (before : Option Char) (s t : List Char) :
    lastOr before (s ++ t) = lastOr (lastOr before s) t := by
  induction s generalizing before with
  | nil => rfl
  | cons c s ih => rw [List.cons_append, lastOr_cons, ih, lastOr_cons]

theorem firstOr_append (s t : List Char) (after : Option Char) :
    firstOr (s ++ t) after = firstOr s (firstOr t after) := by
  cases s <;> rfl

/-! ## Cutting a stretch in two -/

theorem exists_split_nil_iff {P : List Char → List Char → Prop} :
    (∃ s₁ s₂, [] = s₁ ++ s₂ ∧ P s₁ s₂) ↔ P [] [] := by
  constructor
  · rintro ⟨s₁, s₂, hs, h⟩
    obtain ⟨rfl, rfl⟩ := List.append_eq_nil_iff.mp hs.symm
    exact h
  · exact fun h => ⟨[], [], rfl, h⟩

/-- The first of two stretches takes the first character, or it is empty and the second one does. -/
theorem exists_split_cons_iff {P : List Char → List Char → Prop} :
    (∃ s₁ s₂, c :: s = s₁ ++ s₂ ∧ P s₁ s₂) ↔
      (∃ s₁ s₂, s = s₁ ++ s₂ ∧ P (c :: s₁) s₂) ∨ P [] (c :: s) := by
  constructor
  · rintro ⟨s₁, s₂, hs, h⟩
    rcases List.cons_eq_append_iff.mp hs with ⟨rfl, rfl⟩ | ⟨s₁, rfl, rfl⟩
    · exact .inr h
    · exact .inl ⟨s₁, s₂, rfl, h⟩
  · rintro (⟨s₁, s₂, rfl, h⟩ | h)
    · exact ⟨c :: s₁, s₂, rfl, h⟩
    · exact ⟨[], c :: s, rfl, h⟩

/-! ## What each kind of pattern describes -/

theorem matches_empty_iff : Matches .empty before s after ↔ s = [] := by
  constructor
  · rintro ⟨⟩
    rfl
  · rintro rfl
    exact .empty

theorem matches_literal_iff {code : Nat} :
    Matches (.literal code) before s after ↔ ∃ c, c.toNat = code ∧ s = [c] := by
  constructor
  · rintro ⟨⟩
    exact ⟨_, rfl, rfl⟩
  · rintro ⟨c, rfl, rfl⟩
    exact .literal

theorem matches_set_iff {set : CharSet} :
    Matches (.set set) before s after ↔ ∃ c, set.holds c.toNat = true ∧ s = [c] := by
  constructor
  · rintro ⟨⟩
    exact ⟨_, by assumption, rfl⟩
  · rintro ⟨c, h, rfl⟩
    exact .set h

theorem matches_assertion_iff {a : Assertion} :
    Matches (.assertion a) before s after ↔ a.holds before after = true ∧ s = [] := by
  constructor
  · rintro ⟨⟩
    exact ⟨by assumption, rfl⟩
  · rintro ⟨h, rfl⟩
    exact .assertion h

theorem matches_either_iff :
    Matches (.either p q) before s after ↔ Matches p before s after ∨ Matches q before s after := by
  constructor
  · rintro (_ | _ | _ | _ | _ | h | h)
    · exact .inl h
    · exact .inr h
  · rintro (h | h)
    · exact .left h
    · exact .right h

theorem matches_concat_iff :
    Matches (.concat p q) before s after ↔ ∃ s₁ s₂, s = s₁ ++ s₂ ∧
      Matches p before s₁ (firstOr s₂ after) ∧ Matches q (lastOr before s₁) s₂ after := by
  constructor
  · rintro (_ | _ | _ | _ | ⟨hp, hq⟩)
    exact ⟨_, _, rfl, hp, hq⟩
  · rintro ⟨s₁, s₂, rfl, hp, hq⟩
    exact .concat hp hq

theorem times_zero_iff : Times p 0 before s after ↔ s = [] := by
  constructor
  · rintro ⟨⟩
    rfl
  · rintro rfl
    exact .zero

theorem times_succ_iff : Times p (n + 1) before s after ↔ ∃ s₁ s₂, s = s₁ ++ s₂ ∧
    Matches p before s₁ (firstOr s₂ after) ∧ Times p n (lastOr before s₁) s₂ after := by
  constructor
  · rintro (_ | ⟨hp, htimes⟩)
    exact ⟨_, _, rfl, hp, htimes⟩
  · rintro ⟨s₁, s₂, rfl, hp, htimes⟩
    exact .succ hp htimes

theorem matches_of_times (h : Times p n before s after) (hmin : min ≤ n)
    (hmax : ∀ m ∈ max, n ≤ m) : Matches (.repeated p min max) before s after := by
  induction h generalizing min max with
  | zero =>
    obtain rfl : min = 0 := Nat.le_zero.mp hmin
    exact .stop
  | @succ n before after s t hp _ ih =>
    have hne : max ≠ some 0 := by
      rintro rfl
      exact absurd (hmax 0 rfl) (Nat.not_succ_le_zero n)
    refine .again hne hp (ih (by omega) fun m hm => ?_)
    obtain ⟨m', hm', rfl⟩ := Option.mem_map.mp hm
    have := hmax m' hm'
    omega

/-- A repetition is as many stretches as its bounds allow. -/
theorem matches_repeated_iff : Matches (.repeated p min max) before s after ↔
    ∃ n, min ≤ n ∧ (∀ m ∈ max, n ≤ m) ∧ Times p n before s after := by
  constructor
  · intro h
    generalize hr : Pattern.repeated p min max = r at h
    induction h generalizing min max with
    | stop =>
      cases hr
      exact ⟨0, Nat.le_refl 0, fun m _ => Nat.zero_le m, .zero⟩
    | again hne hp _ _ ih =>
      cases hr
      obtain ⟨n, hmin, hmax, htimes⟩ := ih rfl
      refine ⟨n + 1, by omega, fun m hm => ?_, .succ hp htimes⟩
      have hle := hmax (m - 1) (Option.mem_map.mpr ⟨m, hm, rfl⟩)
      have hpos : m ≠ 0 := by
        rintro rfl
        exact hne hm
      omega
    | _ => cases hr
  · rintro ⟨n, hmin, hmax, h⟩
    exact matches_of_times h hmin hmax

/-! ## The empty stretch -/

theorem times_nil_iff : Times p n before [] after ↔ n = 0 ∨ Matches p before [] after := by
  induction n with
  | zero => simp [times_zero_iff]
  | succ n ih =>
    rw [times_succ_iff, or_iff_right (Nat.succ_ne_zero n), exists_split_nil_iff]
    simp only [firstOr_nil, lastOr_nil, ih]
    exact and_iff_left_of_imp .inr

/-- Whether a pattern describes the empty stretch is computed from its parts. -/
theorem nullable_iff (p : Pattern) (before after : Option Char) :
    p.nullable before after = true ↔ Matches p before [] after := by
  induction p with
  | empty => simp [nullable, matches_empty_iff]
  | literal code => simp [nullable, matches_literal_iff]
  | set set => simp [nullable, matches_set_iff]
  | assertion a => simp [nullable, matches_assertion_iff]
  | concat p q ihp ihq =>
    rw [nullable, Bool.and_eq_true, ihp, ihq, matches_concat_iff, exists_split_nil_iff]
    rfl
  | either p q ihp ihq => rw [nullable, Bool.or_eq_true, ihp, ihq, matches_either_iff]
  | repeated p min max ih =>
    rw [nullable, Bool.or_eq_true, beq_iff_eq, Bool.and_eq_true, ih, Option.all_eq_true,
      matches_repeated_iff]
    simp only [decide_eq_true_eq, times_nil_iff]
    constructor
    · rintro (rfl | ⟨hp, hmax⟩)
      · exact ⟨0, Nat.le_refl 0, fun m _ => Nat.zero_le m, .inl rfl⟩
      · exact ⟨min, Nat.le_refl min, fun m hm => hmax m hm, .inr hp⟩
    · rintro ⟨n, hmin, hmax, rfl | hp⟩
      · exact .inl (Nat.le_zero.mp hmin)
      · exact .inr ⟨hp, fun m hm => hmin.trans (hmax m hm)⟩

/-! ## The first character of a stretch -/

theorem matchesAll_nil_iff : MatchesAll [] before s after ↔ s = [] := by
  constructor
  · rintro ⟨⟩
    rfl
  · rintro rfl
    exact .nil

theorem matchesAll_cons_iff :
    MatchesAll (p :: ps) before s after ↔ ∃ s₁ s₂, s = s₁ ++ s₂ ∧
      Matches p before s₁ (firstOr s₂ after) ∧ MatchesAll ps (lastOr before s₁) s₂ after := by
  constructor
  · rintro (_ | ⟨hp, hps⟩)
    exact ⟨_, _, rfl, hp, hps⟩
  · rintro ⟨s₁, s₂, rfl, hp, hps⟩
    exact .cons hp hps

theorem matchesAll_append_iff :
    MatchesAll (ps ++ qs) before s after ↔ ∃ s₁ s₂, s = s₁ ++ s₂ ∧
      MatchesAll ps before s₁ (firstOr s₂ after) ∧ MatchesAll qs (lastOr before s₁) s₂ after := by
  induction ps generalizing before s with
  | nil => simp [matchesAll_nil_iff]
  | cons p ps ih =>
    simp only [List.cons_append, matchesAll_cons_iff, ih]
    constructor
    · rintro ⟨s₁, _, rfl, hp, s₂, s₃, rfl, hps, hqs⟩
      rw [firstOr_append] at hp
      exact ⟨s₁ ++ s₂, s₃, (List.append_assoc ..).symm, ⟨s₁, s₂, rfl, hp, hps⟩,
        by rwa [lastOr_append]⟩
    · rintro ⟨_, s₃, rfl, ⟨s₁, s₂, rfl, hp, hps⟩, hqs⟩
      rw [lastOr_append] at hqs
      exact ⟨s₁, s₂ ++ s₃, List.append_assoc .., by rwa [firstOr_append], s₂, s₃, rfl, hps, hqs⟩

theorem matchesAll_singleton_iff : MatchesAll [p] before s after ↔ Matches p before s after := by
  simp [matchesAll_cons_iff, matchesAll_nil_iff]

/-- The stretches of a repetition before the first one that is not empty can be left out. -/
theorem times_cons_iff : Times p n before (c :: s) after ↔
    ∃ s₁ s₂ k, s = s₁ ++ s₂ ∧ Matches p before (c :: s₁) (firstOr s₂ after) ∧
      Times p k (lastOr (some c) s₁) s₂ after ∧
      (n = k + 1 ∨ k < n ∧ Matches p before [] (some c)) := by
  constructor
  · intro h
    generalize hs : c :: s = s' at h
    induction h with
    | zero => cases hs
    | @succ n before after s₁ s₂ hp hrest ih =>
      rcases List.cons_eq_append_iff.mp hs with ⟨rfl, rfl⟩ | ⟨s₁, rfl, rfl⟩
      · -- This stretch is empty, so the character belongs to a later one.
        obtain ⟨s₁, s₂, k, rfl, hfirst, htimes, hk⟩ := ih rfl
        refine ⟨s₁, s₂, k, rfl, hfirst, htimes, .inr ⟨?_, hp⟩⟩
        rcases hk with rfl | ⟨hlt, -⟩ <;> omega
      · exact ⟨s₁, s₂, n, rfl, hp, by simpa using hrest, .inl rfl⟩
  · rintro ⟨s₁, s₂, k, rfl, hfirst, htimes, hk⟩
    have hlast : Times p (k + 1) before (c :: s₁ ++ s₂) after :=
      .succ hfirst (by simpa using htimes)
    rcases hk with rfl | ⟨hlt, hempty⟩
    · exact hlast
    · -- Empty stretches in front make up for those that are missing.
      obtain ⟨d, rfl⟩ := Nat.exists_eq_add_of_le hlt
      clear hlt
      induction d with
      | zero => exact hlast
      | succ d ih => exact .succ (s := []) hempty ih

/-- What a repetition leaves over for its further stretches after the first one that is not empty. -/
theorem matches_repeated_cons_iff : Matches (.repeated p min max) before (c :: s) after ↔
    ¬(max.any fun m => m == 0 || m < min) = true ∧ ∃ s₁ s₂, s = s₁ ++ s₂ ∧
      Matches p before (c :: s₁) (firstOr s₂ after) ∧
      Matches (.repeated p (if p.nullable before (some c) then 0 else min - 1) (max.map (· - 1)))
        (lastOr (some c) s₁) s₂ after := by
  have hbounds : ¬(max.any fun m => m == 0 || m < min) = true ↔ ∀ m ∈ max, m ≠ 0 ∧ min ≤ m := by
    simp [Option.any_eq_true]
  rw [hbounds]
  simp only [matches_repeated_iff, times_cons_iff]
  constructor
  · rintro ⟨n, hmin, hmax, s₁, s₂, k, rfl, hfirst, htimes, hk⟩
    have hkn : k + 1 ≤ n := by
      rcases hk with rfl | ⟨hlt, -⟩
      · exact Nat.le_refl _
      · exact hlt
    refine ⟨fun m hm => ?_, s₁, s₂, rfl, hfirst, k, ?_, fun m hm => ?_, htimes⟩
    · have := hmax m hm
      omega
    · split_ifs with hempty
      · exact Nat.zero_le k
      · obtain rfl := hk.resolve_right fun h => hempty ((nullable_iff p before (some c)).mpr h.2)
        omega
    · obtain ⟨m', hm', rfl⟩ := Option.mem_map.mp hm
      have := hmax m' hm'
      omega
  · rintro ⟨hmax, s₁, s₂, rfl, hfirst, k, hmin, hk, htimes⟩
    have hle (m : Nat) (hm : m ∈ max) : k + 1 ≤ m := by
      have := hk (m - 1) (Option.mem_map.mpr ⟨m, hm, rfl⟩)
      have := (hmax m hm).1
      omega
    split_ifs at hmin with hempty
    · -- Empty stretches in front bring the number up to the lower bound.
      refine ⟨Nat.max min (k + 1), Nat.le_max_left _ _, fun m hm => ?_, s₁, s₂, k, rfl, hfirst, htimes,
        .inr ⟨Nat.le_max_right _ _, (nullable_iff p before (some c)).mp hempty⟩⟩
      exact Nat.max_le.mpr ⟨(hmax m hm).2, hle m hm⟩
    · exact ⟨k + 1, by omega, hle, s₁, s₂, k, rfl, hfirst, htimes, .inl rfl⟩

/-- Behind each of some lists of patterns the same further patterns. -/
theorem exists_matchesAll_map_append_iff {lists : List (List Pattern)} :
    (∃ rs ∈ lists.map (· ++ qs), MatchesAll rs before s after) ↔ ∃ s₁ s₂, s = s₁ ++ s₂ ∧
      (∃ rs ∈ lists, MatchesAll rs before s₁ (firstOr s₂ after)) ∧
      MatchesAll qs (lastOr before s₁) s₂ after := by
  constructor
  · rintro ⟨_, hmem, h⟩
    obtain ⟨rs, hrs, rfl⟩ := List.mem_map.mp hmem
    obtain ⟨s₁, s₂, rfl, hfirst, hsecond⟩ := matchesAll_append_iff.mp h
    exact ⟨s₁, s₂, rfl, ⟨rs, hrs, hfirst⟩, hsecond⟩
  · rintro ⟨s₁, s₂, rfl, ⟨rs, hrs, hfirst⟩, hsecond⟩
    exact ⟨rs ++ qs, List.mem_map_of_mem hrs, matchesAll_append_iff.mpr ⟨s₁, s₂, rfl, hfirst, hsecond⟩⟩

/-- The remainders of a pattern after a character describe the rest of the stretches that start with
the character. -/
theorem matches_cons_iff (p : Pattern) (before after : Option Char) (c : Char) (s : List Char) :
    Matches p before (c :: s) after ↔
      ∃ ps ∈ p.remainders before c, MatchesAll ps (some c) s after := by
  induction p generalizing s after with
  | empty => simp [remainders, matches_empty_iff]
  | literal code =>
    rw [matches_literal_iff, remainders]
    by_cases hc : c.toNat = code <;> simp [hc, matchesAll_nil_iff]
  | set set =>
    rw [matches_set_iff, remainders]
    by_cases hc : set.holds c.toNat = true <;> simp [hc, matchesAll_nil_iff]
  | assertion a => simp [remainders, matches_assertion_iff]
  | concat p q ihp ihq =>
    rw [matches_concat_iff, exists_split_cons_iff, remainders]
    simp only [List.mem_append, or_and_right, exists_or, exists_matchesAll_map_append_iff,
      matchesAll_singleton_iff, lastOr_cons, lastOr_nil, firstOr_cons, ihp, ← nullable_iff p]
    refine or_congr Iff.rfl ?_
    by_cases hempty : p.nullable before (some c) = true <;> simp [hempty, ihq]
  | either p q ihp ihq =>
    rw [matches_either_iff, ihp, ihq, remainders]
    simp only [List.mem_append, or_and_right, exists_or]
  | repeated p min max ih =>
    rw [matches_repeated_cons_iff, remainders]
    by_cases hmax : (max.any fun m => m == 0 || m < min) = true
    · simp [hmax]
    · rw [if_neg hmax]
      simp only [exists_matchesAll_map_append_iff, matchesAll_singleton_iff, ih]
      exact and_iff_right hmax

theorem listNullable_iff (ps : List Pattern) (before after : Option Char) :
    listNullable ps before after = true ↔ MatchesAll ps before [] after := by
  induction ps with
  | nil => exact ⟨fun _ => .nil, fun _ => rfl⟩
  | cons p ps ih =>
    rw [listNullable, List.all_cons, Bool.and_eq_true, nullable_iff, ← listNullable, ih,
      matchesAll_cons_iff, exists_split_nil_iff]
    rfl

theorem matchesAll_cons_char_iff (ps : List Pattern) (before after : Option Char) (c : Char)
    (s : List Char) : MatchesAll ps before (c :: s) after ↔
      ∃ rs ∈ listRemainders ps before c, MatchesAll rs (some c) s after := by
  induction ps with
  | nil => simp [listRemainders, matchesAll_nil_iff]
  | cons p ps ih =>
    rw [matchesAll_cons_iff, exists_split_cons_iff, listRemainders]
    simp only [List.mem_append, or_and_right, exists_or, exists_matchesAll_map_append_iff,
      lastOr_cons, lastOr_nil, firstOr_cons, matches_cons_iff p, ← nullable_iff p]
    refine or_congr Iff.rfl ?_
    by_cases hempty : p.nullable before (some c) = true <;> simp [hempty, ih]

/-! ## The search -/

/-- An attempt of which `states` holds the remainder comes to its end in `text`. -/
def Ends (states : List (List Pattern)) (before : Option Char) (text : List Char) : Prop :=
  ∃ ps ∈ states, ∃ s t, text = s ++ t ∧ MatchesAll ps before s t.head?

/-- An attempt comes to its end in `text`: one that was begun before or one that begins there. -/
def Succeeds (p : Pattern) (states : List (List Pattern)) (before : Option Char)
    (text : List Char) : Prop :=
  Ends states before text ∨ ∃ a b, text = a ++ b ∧ Ends [[p]] (lastOr before a) b

variable {states states' : List (List Pattern)} {text rest : List Char}

theorem ends_congr (h : ∀ ps, ps ∈ states ↔ ps ∈ states') :
    Ends states before text ↔ Ends states' before text := by
  simp only [Ends, h]

theorem ends_cons_iff :
    Ends (ps :: states) before text ↔ Ends [ps] before text ∨ Ends states before text := by
  simp [Ends]

theorem ends_nil_iff :
    Ends states before [] ↔ (states.any (listNullable · before none)) = true := by
  simp only [Ends, exists_split_nil_iff, List.any_eq_true, listNullable_iff, List.head?_nil]

/-- An attempt ends before the next character, or what remains of it after this character ends
later. -/
theorem ends_char_iff : Ends states before (c :: rest) ↔
    (states.any (listNullable · before (some c))) = true ∨
      Ends (states.flatMap (listRemainders · before c)) (some c) rest := by
  simp only [Ends, List.any_eq_true, listNullable_iff]
  constructor
  · rintro ⟨ps, hps, hends⟩
    rcases exists_split_cons_iff.mp hends with ⟨s, t, rfl, h⟩ | h
    · obtain ⟨rs, hrs, h⟩ := (matchesAll_cons_char_iff ps before _ c s).mp h
      exact .inr ⟨rs, List.mem_flatMap.mpr ⟨ps, hps, hrs⟩, s, t, rfl, h⟩
    · exact .inl ⟨ps, hps, h⟩
  · rintro (⟨ps, hps, h⟩ | ⟨rs, hrs, s, t, rfl, h⟩)
    · exact ⟨ps, hps, [], c :: rest, rfl, h⟩
    · obtain ⟨ps, hps, hrs⟩ := List.mem_flatMap.mp hrs
      exact ⟨ps, hps, c :: s, t, rfl, (matchesAll_cons_char_iff ps before _ c s).mpr ⟨rs, hrs, h⟩⟩

theorem succeeds_nil_iff : Succeeds p states before [] ↔ Ends ([p] :: states) before [] := by
  rw [Succeeds, exists_split_nil_iff]
  exact or_comm.trans ends_cons_iff.symm

theorem succeeds_char_iff : Succeeds p states before (c :: rest) ↔
    (([p] :: states).any (listNullable · before (some c))) = true ∨
      Succeeds p (([p] :: states).flatMap (listRemainders · before c)) (some c) rest := by
  have hnow : Ends ([p] :: states) before (c :: rest) ↔
      Ends [[p]] before (c :: rest) ∨ Ends states before (c :: rest) := ends_cons_iff
  calc Succeeds p states before (c :: rest)
      ↔ Ends states before (c :: rest) ∨
          (∃ a b, rest = a ++ b ∧ Ends [[p]] (lastOr (some c) a) b) ∨
            Ends [[p]] before (c :: rest) := by
        rw [Succeeds, exists_split_cons_iff]
        simp only [lastOr_cons, lastOr_nil]
    _ ↔ Ends ([p] :: states) before (c :: rest) ∨
          ∃ a b, rest = a ++ b ∧ Ends [[p]] (lastOr (some c) a) b := by
        rw [hnow, or_assoc]
        exact or_rotate.symm
    _ ↔ _ := by rw [ends_char_iff, or_assoc, Succeeds]

theorem searchFrom_iff (p : Pattern) (states : List (List Pattern)) (before : Option Char)
    (text : List Char) : searchFrom p states before text = true ↔ Succeeds p states before text := by
  induction text generalizing states before with
  | nil =>
    rw [succeeds_nil_iff, ends_nil_iff, searchFrom]
    simp
  | cons c rest ih =>
    have hstates : Succeeds p ((([p] :: states).flatMap (listRemainders · before c)).eraseDups)
        (some c) rest ↔
        Succeeds p (([p] :: states).flatMap (listRemainders · before c)) (some c) rest :=
      or_congr (ends_congr fun ps => List.mem_eraseDups) Iff.rfl
    rw [succeeds_char_iff, ← hstates, ← ih, searchFrom]
    simp only [List.head?_cons]
    split_ifs with hend <;> simp [hend]

/-- The search finds a pattern exactly when the pattern describes some stretch of the text. -/
theorem search_iff (p : Pattern) (text : List Char) : p.search text = true ↔ p.Occurs text := by
  rw [search, searchFrom_iff]
  constructor
  · rintro (⟨ps, hps, -⟩ | ⟨a, _, rfl, ps, hps, s, t, rfl, h⟩)
    · cases hps
    · obtain rfl := List.mem_singleton.mp hps
      rw [matchesAll_singleton_iff, lastOr, Option.or_none] at h
      exact ⟨a, s, t, (List.append_assoc ..).symm, h⟩
  · rintro ⟨a, s, t, rfl, h⟩
    refine .inr ⟨a, s ++ t, List.append_assoc .., [p], .head _, s, t, rfl, ?_⟩
    rwa [matchesAll_singleton_iff, lastOr, Option.or_none]

theorem occursIn_iff (p : Pattern) (text : Bytes) :
    p.occursIn text = true ↔ p.Occurs (Utf8.chars text) :=
  search_iff p (Utf8.chars text)

end Linewise.Pattern
