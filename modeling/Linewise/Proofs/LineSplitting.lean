import Linewise.Lines
import Mathlib.Data.List.DropRight

/-!
# Lines and texts

A text is its lines put together, and lines that end where lines end are found again in the text
that they make up. Blanks at the end of a text are what a search from its end passes over.
-/

namespace Linewise

namespace Bytes

/-- Trimming is dropping from the right. -/
theorem trimRight_eq_rdropWhile (p : UInt8 → Bool) (text : Bytes) :
    trimRight p text = text.rdropWhile p := by
  have hkeep (front rest : Bytes) (hrest : rest ≠ []) :
      front.foldr (fun b rest => if rest.isEmpty && p b then [] else b :: rest) rest =
        front ++ rest := by
    induction front with
    | nil => rfl
    | cons b front ih =>
      rw [List.foldr_cons, ih]
      simp [hrest]
  induction text using List.reverseRecOn with
  | nil => rfl
  | append_singleton text b ih =>
    by_cases hb : p b = true
    · rw [List.rdropWhile_concat_pos p text b hb, ← ih]
      simp [trimRight, hb]
    · rw [List.rdropWhile_concat_neg p text b hb, trimRight, List.foldr_append, List.foldr_cons,
        List.foldr_nil, List.isEmpty_nil, Bool.true_and, if_neg hb]
      exact hkeep text [b] (by simp)

end Bytes

namespace Lines
open Bytes

theorem flatten_split (text : Bytes) : (split text).flatten = text := by
  fun_induction split text with
  | case1 => rfl
  | case2 b rest hb ih => simp [ih]
  | case3 b rest hb hs ih => simpa [hs] using ih
  | case4 b rest hb line lines hs ih => simpa [hs] using ih

theorem split_terminated {body : Bytes} (h : newline ∉ body) (rest : Bytes) :
    split (body ++ newline :: rest) = (body ++ [newline]) :: split rest := by
  induction body with
  | nil => simp [split]
  | cons b body ih =>
    obtain ⟨hb, hbody⟩ : newline ≠ b ∧ newline ∉ body := by simpa using h
    simp [split, ih hbody, Ne.symm hb]

theorem split_open {body : Bytes} (h : newline ∉ body) (hne : body ≠ []) :
    split body = [body] := by
  induction body with
  | nil => simp at hne
  | cons b body ih =>
    obtain ⟨hb, hbody⟩ : newline ≠ b ∧ newline ∉ body := by simpa using h
    cases body with
    | nil => simp [split, Ne.symm hb]
    | cons b' body =>
      have hsplit := ih hbody (by simp)
      rw [split, hsplit]
      simp [Ne.symm hb]

/-- Lines of which all but the last end with their only line feed, and the last has at most that
one. -/
inductive Cut : List Bytes → Prop where
  | nil : Cut []
  | last {body : Bytes} (h : newline ∉ body) : Cut [body]
  | cons {body : Bytes} {rest : List Bytes} (h : newline ∉ body) (hr : Cut rest) :
      Cut ((body ++ [newline]) :: rest)

theorem cut_split (text : Bytes) : Cut (split text) := by
  fun_induction split text with
  | case1 => exact .nil
  | case2 b rest hb ih =>
    obtain rfl : b = newline := by simpa using hb
    exact @Cut.cons [] _ (by simp) ih
  | case3 b rest hb hs ih =>
    have hne : b ≠ newline := by simpa using hb
    exact .last (by simp [hne.symm])
  | case4 b rest hb line lines hs ih =>
    have hne : b ≠ newline := by simpa using hb
    rw [hs] at ih
    cases ih with
    | last h => exact .last (by simp [hne.symm, h])
    | @cons body rest h hr => exact @Cut.cons (b :: body) _ (by simp [hne.symm, h]) hr

/-- A line feed stands in it at most once, and at its end. -/
def IsLine (line : Bytes) : Prop :=
  ∃ body, newline ∉ body ∧ (line = body ∨ line = body ++ [newline])

theorem isLine_of_cut {lines : List Bytes} (h : Cut lines) {line : Bytes} (hl : line ∈ lines) :
    IsLine line := by
  induction h with
  | nil => simp at hl
  | @last body hb =>
    obtain rfl : line = body := by simpa using hl
    exact ⟨line, hb, Or.inl rfl⟩
  | @cons body rest hb hr ih =>
    rcases List.mem_cons.mp hl with rfl | hl
    · exact ⟨body, hb, Or.inr rfl⟩
    · exact ih hl

/-- Lines are found again in the text that they make up, except for an empty last one. -/
theorem Cut.eq_split_flatten {lines : List Bytes} (h : Cut lines) :
    lines = split lines.flatten ∨ lines = split lines.flatten ++ [[]] := by
  induction h with
  | nil => exact Or.inl rfl
  | @last body h =>
    by_cases hne : body = []
    · subst hne
      exact Or.inr rfl
    · exact Or.inl (by simp [split_open h hne])
  | @cons body rest h hr ih =>
    have hsplit : split ((body ++ [newline]) :: rest).flatten =
        (body ++ [newline]) :: split rest.flatten := by
      simpa using split_terminated h rest.flatten
    rw [hsplit]
    rcases ih with ih | ih
    · exact Or.inl (congrArg _ ih)
    · exact Or.inr (by rw [List.cons_append, ← ih])

theorem length_split_le (text : Bytes) : (split text).length ≤ text.length := by
  fun_induction split text with
  | case1 => simp
  | case2 b rest hb ih => simpa using ih
  | case3 b rest hb hs ih => simp
  | case4 b rest hb line lines hs ih =>
    rw [hs] at ih
    simp only [List.length_cons] at ih ⊢
    omega

end Lines

end Linewise
