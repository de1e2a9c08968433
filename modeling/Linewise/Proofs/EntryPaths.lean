import Linewise.Proofs.PathText

/-!
# Paths of entries

A path and a name, joined, go where the path goes and name an entry there. The system follows such a
path only when the path and the name are not too long for it.
-/

namespace Linewise

namespace Path
open Bytes

/-- A name that a path can end with, as far as its text goes. -/
structure Regular (n : Bytes) : Prop where
  isPart : IsPart n
  zero : 0 ∉ n
  ne_here : n ≠ here
  ne_up : n ≠ up

theorem Regular.isName {n : Bytes} (h : Regular n) (hlen : n.length ≤ FileTree.maxName) :
    FileTree.IsName n :=
  ⟨h.ne_here, h.ne_up, hlen⟩

/-- A component that goes down to an entry. -/
structure IsEntry (n : Bytes) : Prop where
  isPart : IsPart n
  ne_here : n ≠ here
  ne_up : n ≠ up

theorem Regular.isEntry {n : Bytes} (h : Regular n) : IsEntry n := ⟨h.isPart, h.ne_here, h.ne_up⟩

theorem kept_append_name {p n : Bytes} (hp : p ≠ []) (hn : IsEntry n) :
    kept (p ++ slash :: n) = kept p ++ [n] := by
  have hpush (st : List Bytes) : cleanStep (isAbsolute p) st n = n :: st := by
    simp [cleanStep, hn.ne_here, hn.ne_up]
  rw [kept, isAbsolute_append hp, components_append_slash, components_of_isPart hn.isPart,
    List.foldl_concat, hpush, List.reverse_cons, kept]

theorem join_name {p : Bytes} (hp : p ≠ []) (n : Bytes) :
    join [p, n] = clean (p ++ slash :: n) := by
  simp [join, hp, joinWith]

theorem steps_join_name {p n : Bytes} (hp : p ≠ []) (hn : IsEntry n) :
    FileTree.steps (join [p, n]) = kept p ++ [n] := by
  rw [join_name hp, steps_clean, kept_append_name hp hn, if_neg (by simp)]

theorem isAbsolute_join_name {p : Bytes} (hp : p ≠ []) (n : Bytes) :
    isAbsolute (join [p, n]) = isAbsolute p := by
  rw [join_name hp, isAbsolute_clean, isAbsolute_append hp]

end Path

namespace FileTree

/-- A path that can be followed up to its last name is not too long, and neither is the name. -/
theorem lengths_of_resolve_ok {t : FileTree} {follow : Bool} {p x : Bytes} {cs : List Bytes}
    {d : Destination} (h : t.resolve follow p = .ok d) (htrail : trail t.cwd p = cs ++ [x]) :
    p.length ≤ maxPath ∧ x.length ≤ maxName := by
  have hlegal := legal_of_resolve_ok h
  refine ⟨hlegal.2.2, ?_⟩
  rw [t.resolve_of_legal follow hlegal, htrail] at h
  obtain ⟨k, D, -, hlast⟩ := leads_of_walkLinks_ok (by simp) h
  exact length_le_of_walkLinks hlast

theorem trail_join_name {p n : Bytes} (hp : p ≠ []) (hn : Path.IsEntry n) (cwd : Bytes) :
    trail cwd (Path.join [p, n]) = (origin cwd p ++ Path.kept p) ++ [n] := by
  rw [trail, Path.steps_join_name hp hn, origin, Path.isAbsolute_join_name hp, ← origin,
    List.append_assoc]

end FileTree

end Linewise
