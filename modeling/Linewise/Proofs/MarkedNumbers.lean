import Linewise.Cursor.Basic
import Mathlib

/-!
# Marked numbers

A number is looked for in the marked ones by halving, and inserted where it is missing. In whatever
order numbers are marked, big or small, the marked ones stay in ascending order, once each.
-/

namespace Linewise.Cursor

variable {n k : Int} {numbers : List Int}

/-- The number at the place found is not smaller, and the one before it is. This needs no order. -/
theorem searchFrom_spec (n : Int) {numbers : List Int} {fuel low high : Nat} (hle : low ≤ high)
    (hhigh : high ≤ numbers.length) (hfuel : high ≤ low + fuel) :
    let place := searchFrom n numbers fuel low high
    low ≤ place ∧ place ≤ high ∧
      (∀ k, low < place → numbers[place - 1]? = some k → k < n) ∧
      (∀ k, place < high → numbers[place]? = some k → n ≤ k) := by
  induction fuel generalizing low high with
  | zero =>
    simp only [searchFrom]
    exact ⟨le_refl low, hle, fun _ h => absurd h (lt_irrefl _), fun _ h => by omega⟩
  | succ fuel ih =>
    simp only [searchFrom]
    by_cases hlt : low < high
    · rw [if_pos hlt]
      have hmiddle : (low + high) / 2 < numbers.length := by omega
      rw [List.getElem?_eq_getElem hmiddle, Option.getD_some]
      by_cases hsmall : numbers[(low + high) / 2] < n
      · rw [if_pos hsmall]
        have hleft : (low + high) / 2 + 1 ≤ high := by omega
        obtain ⟨hlow, hup, hbefore, hafter⟩ := ih hleft hhigh (by omega)
        refine ⟨by omega, hup, fun k _ hk => ?_, hafter⟩
        -- Either the search went on to the right, or it ended right behind the middle.
        rcases Nat.lt_or_eq_of_le hlow with hright | hend
        · exact hbefore k hright hk
        · rw [← hend, Nat.add_sub_cancel, List.getElem?_eq_getElem hmiddle] at hk
          exact Option.some.inj hk ▸ hsmall
      · rw [if_neg hsmall]
        have hright : low ≤ (low + high) / 2 := by omega
        obtain ⟨hlow, hup, hbefore, hafter⟩ := ih hright (by omega) (by omega)
        refine ⟨hlow, by omega, hbefore, fun k _ hk => ?_⟩
        rcases Nat.lt_or_eq_of_le hup with hleft | hend
        · exact hafter k hleft hk
        · rw [hend, List.getElem?_eq_getElem hmiddle] at hk
          exact Option.some.inj hk ▸ not_lt.mp hsmall
    · rw [if_neg hlt]
      exact ⟨le_refl low, hle, fun _ h => absurd h (lt_irrefl _), fun _ h => by omega⟩

theorem searchNumber_spec (n : Int) (numbers : List Int) :
    searchNumber n numbers ≤ numbers.length ∧
      (∀ k, 0 < searchNumber n numbers → numbers[searchNumber n numbers - 1]? = some k → k < n) ∧
      (∀ k, numbers[searchNumber n numbers]? = some k → n ≤ k) := by
  obtain ⟨-, hle, hbefore, hafter⟩ := searchFrom_spec n (Nat.zero_le numbers.length)
    (le_refl numbers.length) (Nat.le_add_left ..)
  refine ⟨hle, hbefore, fun k hk => hafter k ?_ hk⟩
  exact (List.getElem?_eq_some_iff.mp hk).1

theorem mem_insertNumber : k ∈ insertNumber n numbers ↔ k = n ∨ k ∈ numbers := by
  rw [insertNumber]
  split
  next hfound =>
    have hmem : n ∈ numbers := List.mem_of_getElem? (by simpa using hfound)
    exact ⟨.inr, fun h => h.elim (fun heq => heq ▸ hmem) id⟩
  next =>
    have hmem : k ∈ numbers ↔ k ∈ numbers.take (searchNumber n numbers) ∨
        k ∈ numbers.drop (searchNumber n numbers) := by
      rw [← List.mem_append, List.take_append_drop]
    rw [List.mem_append, List.mem_cons, hmem]
    tauto

theorem getElem_le_getElem (h : numbers.Pairwise (· < ·)) {i j : Nat} (hij : i ≤ j)
    (hj : j < numbers.length) : numbers[i] ≤ numbers[j] := by
  rcases Nat.lt_or_eq_of_le hij with hlt | rfl
  · exact le_of_lt (List.pairwise_iff_getElem.mp h i j (by omega) hj hlt)
  · exact le_refl _

/-- Before its place, the numbers of an ascending list are smaller than a number. -/
theorem lt_of_mem_take (h : numbers.Pairwise (· < ·))
    (hk : k ∈ numbers.take (searchNumber n numbers)) : k < n := by
  obtain ⟨i, hi, rfl⟩ := List.mem_take_iff_getElem.mp hk
  obtain ⟨hle, hbefore, -⟩ := searchNumber_spec n numbers
  have hlast : searchNumber n numbers - 1 < numbers.length := by omega
  have hless := hbefore _ (by omega) (List.getElem?_eq_getElem hlast)
  exact (getElem_le_getElem h (by omega) hlast).trans_lt hless

/-- From its place on, the numbers of an ascending list that lacks a number are bigger. -/
theorem lt_of_mem_drop (h : numbers.Pairwise (· < ·))
    (hmissing : numbers[searchNumber n numbers]? ≠ some n)
    (hk : k ∈ numbers.drop (searchNumber n numbers)) : n < k := by
  obtain ⟨i, hi, rfl⟩ := List.mem_drop_iff_getElem.mp hk
  have hplace : searchNumber n numbers < numbers.length := by omega
  have hget := List.getElem?_eq_getElem hplace
  have hle := (searchNumber_spec n numbers).2.2 _ hget
  have hne : n ≠ numbers[searchNumber n numbers] := fun heq => hmissing (by rw [hget, ← heq])
  exact (lt_of_le_of_ne hle hne).trans_le (getElem_le_getElem h (Nat.le_add_right _ i) (by omega))

theorem pairwise_insertNumber (h : numbers.Pairwise (· < ·)) :
    (insertNumber n numbers).Pairwise (· < ·) := by
  rw [insertNumber]
  split
  next => exact h
  next hmissing =>
    have hbelow : ∀ k ∈ numbers.take (searchNumber n numbers), k < n := fun _ => lt_of_mem_take h
    have habove : ∀ k ∈ numbers.drop (searchNumber n numbers), n < k :=
      fun _ => lt_of_mem_drop h (by simpa using hmissing)
    refine List.pairwise_append.mpr ⟨h.sublist (List.take_sublist ..), ?_, fun k hk j hj => ?_⟩
    · exact List.pairwise_cons.mpr ⟨habove, h.sublist (List.drop_sublist ..)⟩
    · rcases List.mem_cons.mp hj with rfl | hj
      · exact hbelow k hk
      · exact (hbelow k hk).trans (habove j hj)

/-- A number above all others goes to the end. -/
theorem insertNumber_of_lt (h : ∀ k ∈ numbers, k < n) : insertNumber n numbers = numbers ++ [n] := by
  obtain ⟨hle, -, hafter⟩ := searchNumber_spec n numbers
  have hend : searchNumber n numbers = numbers.length := by
    by_contra hne
    have hplace : searchNumber n numbers < numbers.length := by omega
    have hge := hafter _ (List.getElem?_eq_getElem hplace)
    have hlt := h _ (List.getElem_mem hplace)
    omega
  rw [insertNumber, hend]
  simp

end Linewise.Cursor
