import Linewise.FileTree.RealPath
import Linewise.Proofs.PathText
import Mathlib

/-!
# Paths written out

The text of a path with given components, what adding a name to it and taking one away does, and
how long it is. The text of any path falls apart into its first component and the rest.
-/

namespace Linewise

namespace Path
open Bytes

/-- The text of a path, absolute or not, with the given components. -/
def render (rooted : Bool) (cs : List Bytes) : Bytes :=
  (if rooted then [slash] else []) ++ joinWith [slash] cs

/-- The length of the slash in front. -/
def fixedLength (rooted : Bool) : Nat := if rooted then 1 else 0

theorem joinWith_concat (cs : List Bytes) (c : Bytes) (hne : cs ≠ []) :
    joinWith [slash] (cs ++ [c]) = joinWith [slash] cs ++ slash :: c := by
  induction cs with
  | nil => exact absurd rfl hne
  | cons d cs ih =>
    cases cs with
    | nil => simp [joinWith]
    | cons e cs =>
      rw [List.cons_append, List.cons_append, joinWith_cons_cons, ← List.cons_append,
        ih (by simp), joinWith_cons_cons, List.append_assoc, List.cons_append]

section Render

variable {rooted : Bool} {cs : List Bytes} {c : Bytes}

theorem components_render (h : ∀ c ∈ cs, IsPart c) : components (render rooted cs) = cs := by
  cases rooted with
  | false => exact components_joinWith h
  | true =>
    exact (components_slash_cons _).trans (components_joinWith h)

theorem isAbsolute_render (h : ∀ c ∈ cs, IsPart c) : isAbsolute (render rooted cs) = rooted := by
  cases rooted with
  | false => exact isAbsolute_joinWith h
  | true => rfl

theorem drop_render (rooted : Bool) (cs : List Bytes) :
    (render rooted cs).drop (fixedLength rooted) = joinWith [slash] cs := by
  cases rooted <;> rfl

theorem render_append_slash (hne : cs ≠ []) (c : Bytes) :
    render rooted (cs ++ [c]) = render rooted cs ++ slash :: c := by
  rw [render, render, joinWith_concat cs c hne, List.append_assoc]

theorem addName_render (c : Bytes) (h : ∀ c ∈ cs, IsPart c) :
    FileTree.addName (render rooted cs) c = render rooted (cs ++ [c]) := by
  rw [FileTree.addName]
  by_cases hcs : cs = []
  · subst hcs
    cases rooted <;> simp [render, joinWith]
  · obtain ⟨hlast, hne⟩ := getLast?_joinWith hcs h
    have hlast' : (render rooted cs).getLast? ≠ some slash := by
      rwa [render, List.getLast?_append_of_ne_nil _ hne]
    have hnil : render rooted cs ≠ [] := by simp [render, hne]
    rw [if_neg (by simpa [hnil] using hlast'), render_append_slash hcs, List.append_assoc,
      List.singleton_append]

theorem beforeLastSlash?_render (hc : IsPart c) :
    FileTree.beforeLastSlash? (fixedLength rooted) (render rooted (cs ++ [c])) =
      if cs = [] then none else some (render rooted cs) := by
  have hall : ∀ b ∈ c.reverse, (b != slash) = true := by
    intro b hb
    rw [bne_iff_ne]
    rintro rfl
    exact hc.2 (List.mem_reverse.mp hb)
  rw [FileTree.beforeLastSlash?, drop_render]
  by_cases hcs : cs = []
  · have hjoin : joinWith [slash] (cs ++ [c]) = c := by simp [hcs, joinWith]
    rw [if_pos hcs, hjoin, List.takeWhile_eq_self_iff.mpr hall]
    simp
  · have htake : ((joinWith [slash] (cs ++ [c])).reverse).takeWhile (· != slash) = c.reverse := by
      rw [joinWith_concat cs c hcs, List.reverse_append, List.reverse_cons, List.append_assoc,
        List.takeWhile_append_of_pos hall, List.singleton_append,
        List.takeWhile_cons_of_neg (by simp), List.append_nil]
    have hlen : (render rooted (cs ++ [c])).length - c.reverse.length - 1 =
        (render rooted cs).length := by
      rw [render_append_slash hcs, List.length_append, List.length_cons, List.length_reverse]
      omega
    rw [if_neg hcs, htake, if_pos, hlen, render_append_slash hcs, List.take_left]
    rw [joinWith_concat cs c hcs, List.length_reverse, List.length_reverse, List.length_append,
      List.length_cons]
    omega

theorem beforeLastSlash?_getD_render (hc : IsPart c) :
    (FileTree.beforeLastSlash? (fixedLength rooted) (render rooted (cs ++ [c]))).getD
      ((render rooted (cs ++ [c])).take (fixedLength rooted)) = render rooted cs := by
  rw [beforeLastSlash?_render hc]
  by_cases hcs : cs = []
  · subst hcs
    cases rooted <;> rfl
  · rw [if_neg hcs, Option.getD_some]

/-- Taking `..` adds it to the text, or takes a name away from it. -/
theorem dropName_render (h : ∀ c ∈ cs, IsPart c) :
    FileTree.dropName (fixedLength rooted) (render rooted cs) = render rooted (cs ++ [up]) ∨
      ∃ cs' c, cs = cs' ++ [c] ∧ c ≠ up ∧
        FileTree.dropName (fixedLength rooted) (render rooted cs) = render rooted cs' := by
  have hkept : render rooted cs ++
      (if (render rooted cs).length > fixedLength rooted then [slash] else []) ++ up =
        render rooted (cs ++ [up]) := by
    by_cases hcs : cs = []
    · subst hcs
      cases rooted <;> rfl
    · have hne := (getLast?_joinWith hcs h).2
      have hlen : (render rooted cs).length > fixedLength rooted := by
        have hpos := List.length_pos_iff.mpr hne
        cases rooted <;> simp [render, fixedLength, hpos]
      rw [if_pos hlen, render_append_slash hcs, List.append_assoc, List.singleton_append]
  rcases List.eq_nil_or_concat cs with rfl | ⟨cs', c, rfl⟩
  · left
    rw [FileTree.dropName, hkept]
    cases rooted <;> rfl
  · rw [List.concat_eq_append] at *
    have hc := h c (by simp)
    rw [FileTree.dropName, hkept, beforeLastSlash?_render hc]
    by_cases hcs : cs' = []
    · left
      rw [if_pos hcs]
    · have hdrop : (render rooted (cs' ++ [c])).drop ((render rooted cs').length + 1) = c := by
        rw [render_append_slash hcs, List.append_cons, ← List.length_singleton (a := slash),
          ← List.length_append, List.drop_left]
      rw [if_neg hcs]
      simp only [hdrop]
      by_cases hup : c = up
      · left
        rw [if_pos (by simpa using hup)]
      · exact .inr ⟨cs', c, rfl, hup, if_neg (by simpa using hup)⟩

end Render

/-- The length of a text with these components and a slash after each. -/
def weight (cs : List Bytes) : Nat := (cs.map (·.length + 1)).sum

@[simp] theorem weight_nil : weight [] = 0 := rfl

@[simp] theorem weight_cons (c : Bytes) (cs : List Bytes) :
    weight (c :: cs) = c.length + 1 + weight cs := rfl

theorem weight_reverse (cs : List Bytes) : weight cs.reverse = weight cs := by
  rw [weight, List.map_reverse, List.sum_reverse, weight]

theorem weight_splitBy (text : Bytes) : weight (splitBy (· == slash) text) = text.length + 1 := by
  induction text with
  | nil => rfl
  | cons b rest ih =>
    obtain ⟨part, parts, hsplit⟩ := List.exists_cons_of_ne_nil (splitBy_ne_nil (· == slash) rest)
    rw [splitBy]
    split
    · rw [weight_cons, ih, List.length_nil, List.length_cons]
      omega
    · rw [hsplit, weight_cons] at ih
      rw [hsplit]
      simp only [weight_cons, List.length_cons]
      omega

theorem weight_filter_le (p : Bytes → Bool) (cs : List Bytes) :
    weight (cs.filter p) ≤ weight cs := by
  induction cs with
  | nil => exact Nat.le_refl 0
  | cons c cs ih =>
    rw [List.filter_cons]
    split
    · rw [weight_cons, weight_cons]
      omega
    · rw [weight_cons]
      omega

theorem weight_components_le (p : Bytes) :
    weight (components p) + (fixedLength (isAbsolute p)) ≤ p.length + 1 := by
  cases hp : isAbsolute p with
  | false =>
    have hle := weight_filter_le (!·.isEmpty) (splitBy (· == slash) p)
    rw [weight_splitBy] at hle
    exact hle
  | true =>
    cases p with
    | nil => simp [isAbsolute] at hp
    | cons b rest =>
      obtain rfl : b = slash := by simpa [isAbsolute] using hp
      have hle := weight_filter_le (!·.isEmpty) (splitBy (· == slash) rest)
      rw [weight_splitBy] at hle
      rw [components_slash_cons, List.length_cons]
      exact Nat.succ_le_succ hle

theorem weight_cleanStep_le (rooted : Bool) (st : List Bytes) (c : Bytes) :
    weight (cleanStep rooted st c) ≤ weight (c :: st) := by
  rw [weight_cons]
  simp only [cleanStep]
  split
  · omega
  split
  · rename_i hup
    obtain rfl : c = up := by simpa using hup
    cases st with
    | nil => cases rooted <;> simp
    | cons d st =>
      simp only
      split
      · rw [weight_cons]
      · rw [weight_cons]
        omega
  · rw [weight_cons]

theorem weight_foldl_le (rooted : Bool) (cs st : List Bytes) :
    weight (cs.foldl (cleanStep rooted) st) ≤ weight cs + weight st := by
  induction cs generalizing st with
  | nil => simp
  | cons c cs ih =>
    have hstep := weight_cleanStep_le rooted st c
    have hrest := ih (cleanStep rooted st c)
    rw [weight_cons] at hstep
    rw [List.foldl_cons, weight_cons]
    omega

theorem length_joinWith {cs : List Bytes} (hne : cs ≠ []) :
    (joinWith [slash] cs).length + 1 = weight cs := by
  induction cs with
  | nil => exact absurd rfl hne
  | cons c cs ih =>
    cases cs with
    | nil => simp [joinWith]
    | cons d cs =>
      have hrest := ih (by simp)
      rw [joinWith_cons_cons, weight_cons, ← hrest, List.length_append, List.length_cons]
      omega

/-- Cleaning does not make a path longer. -/
theorem length_clean_le {p : Bytes} (hne : p ≠ []) : (clean p).length ≤ p.length := by
  have hpos := List.length_pos_iff.mpr hne
  have hkept : weight (kept p) ≤ weight (components p) := by
    rw [kept, weight_reverse]
    exact weight_foldl_le (isAbsolute p) (components p) []
  have hcomp := weight_components_le p
  rw [clean_eq]
  by_cases hk : kept p = []
  · rw [hk]
    split <;> simpa [joinWith, here, Nat.succ_le_iff] using hpos
  · have hjoin := length_joinWith hk
    cases hp : isAbsolute p with
    | true =>
      rw [hp] at hcomp
      simp only [fixedLength, if_true] at hcomp
      rw [if_pos rfl, List.length_cons]
      omega
    | false =>
      rw [if_neg Bool.false_ne_true, if_neg hk]
      omega

theorem components_append {p q : Bytes} (hq : q = [] ∨ ∃ rest, q = slash :: rest) :
    components (p ++ q) = components p ++ components q := by
  rcases hq with rfl | ⟨rest, rfl⟩
  · rw [List.append_nil, components_nil, List.append_nil]
  · rw [components_append_slash, components_slash_cons]

theorem components_dropWhile (text : Bytes) :
    components (text.dropWhile (· == slash)) = components text := by
  induction text with
  | nil => rfl
  | cons b text ih =>
    by_cases hb : b = slash
    · rw [hb, List.dropWhile_cons_of_pos (by simp), ih, components_slash_cons]
    · rw [List.dropWhile_cons_of_neg (by simpa using hb)]

/-- The first component of a text, and what stands after it. -/
theorem components_cut {text name after : Bytes}
    (hname : (text.dropWhile (· == slash)).takeWhile (· != slash) = name)
    (hafter : (text.dropWhile (· == slash)).dropWhile (· != slash) = after) :
    (name = [] ∧ components text = [] ∨ IsPart name ∧ components text = name :: components after) ∧
      name.length + after.length ≤ text.length := by
  have hsplit : name ++ after = text.dropWhile (· == slash) := by
    rw [← hname, ← hafter, List.takeWhile_append_dropWhile]
  have hslash : slash ∉ name := by
    intro hmem
    rw [← hname] at hmem
    simpa using List.mem_takeWhile_imp hmem
  have hcases := dropWhile_ne_slash (text.dropWhile (· == slash))
  rw [hafter] at hcases
  constructor
  · rw [← components_dropWhile text, ← hsplit]
    by_cases hnil : name = []
    · left
      refine ⟨hnil, ?_⟩
      rcases hcases with hcase | ⟨rest, hcase⟩
      · rw [hnil, hcase, List.append_nil, components_nil]
      · -- A text without leading slashes does not start with one.
        have hhead := List.head?_dropWhile_not (· == slash) text
        rw [← hsplit, hnil, hcase] at hhead
        simp at hhead
    · right
      have hpart : IsPart name := ⟨hnil, hslash⟩
      refine ⟨hpart, ?_⟩
      rcases hcases with hcase | ⟨rest, hcase⟩
      · rw [hcase, List.append_nil, components_of_isPart hpart, components_nil]
      · rw [hcase, components_append_slash, components_of_isPart hpart, components_slash_cons,
          List.singleton_append]
  · rw [← List.length_append, hsplit]
    exact List.length_dropWhile_le _ _

end Path

end Linewise
