import Linewise.Proofs.EntryPaths
import Linewise.Replacement

/-!
# Paths beside a path

The directory and the last name of a clean path, put together in any of the usual ways, spell out
the components of the path again. So a path beside the resolved path of a file leads through the
same directories and names an entry of the file's directory.
-/

namespace Linewise

namespace Path
open Bytes

/-- A clean path that takes the steps `C` and names `x` at the end. -/
structure Spells (r : Bytes) (C : List Bytes) (x : Bytes) : Prop where
  isClean : ∃ y, r = clean y
  steps_eq : FileTree.steps r = C ++ [x]
  ne_here : x ≠ here

namespace Spells

variable {r : Bytes} {C : List Bytes} {x : Bytes}

theorem last_ne_slash (h : Spells r C x) : r.getLast? ≠ some slash := by
  intro hlast
  have hs := h.steps_eq
  rw [FileTree.steps, if_pos (by simpa using hlast)] at hs
  exact h.ne_here (by simpa using (List.append_inj' hs rfl).2.symm)

theorem components_eq (h : Spells r C x) : components r = C ++ [x] := by
  have hs := h.steps_eq
  rwa [FileTree.steps, if_neg (by simpa using h.last_ne_slash), List.append_nil] at hs

theorem ne_nil (h : Spells r C x) : r ≠ [] := by
  rintro rfl
  have hc := h.components_eq
  simp at hc

theorem front_and_last (h : Spells r C x) : components (front r) = C ∧ lastElement r = x := by
  have hc := components_front_append (p := r) (isPart_lastElement h.ne_nil h.last_ne_slash)
  rw [front_append_lastElement, h.components_eq] at hc
  obtain ⟨hC, hx⟩ := List.append_inj' hc rfl
  exact ⟨hC.symm, by simpa using hx.symm⟩

theorem base_eq (h : Spells r C x) : base r = x := base_of_components h.components_eq

theorem kept_front (h : Spells r C x) : kept (front r) = C := by
  obtain ⟨y, rfl⟩ := h.isClean
  have hs := h.steps_eq
  rw [steps_clean] at hs
  by_cases hk : kept y = []
  · rw [if_pos hk] at hs
    have hx := congrArg List.getLast? hs
    exact absurd (by simpa using hx.symm) h.ne_here
  · rw [if_neg hk] at hs
    have hset := settled_kept y
    rw [hs, List.reverse_concat] at hset
    rw [kept, isAbsolute_front, isAbsolute_clean, h.front_and_last.1]
    conv_lhs => rw [← List.reverse_reverse C, foldl_reverse_of_settled hset.2]
    exact List.reverse_reverse C

theorem settled (h : Spells r C x) : Settled (isAbsolute r) C.reverse := by
  have hset := settled_kept (front r)
  rwa [h.kept_front, isAbsolute_front] at hset

theorem steps_parent (h : Spells r C x) :
    FileTree.steps (parent r) = if C = [] then [here] else C := by
  change FileTree.steps (clean (front r)) = _
  rw [steps_clean, h.kept_front]

theorem components_parent (h : Spells r C x) :
    components (parent r) = C ∨ components (parent r) = [here] ∧ C = [] := by
  have hc := components_clean (front r)
  rwa [h.kept_front] at hc

theorem kept_parent (h : Spells r C x) : kept (parent r) = C := by
  rw [kept, isAbsolute_parent]
  rcases h.components_parent with hc | ⟨hc, rfl⟩
  · rw [hc]
    conv_lhs => rw [← List.reverse_reverse C, foldl_reverse_of_settled h.settled]
    exact List.reverse_reverse C
  · rw [hc]
    simp [cleanStep]

end Spells

theorem steps_pathIn {n : Bytes} (hn : IsPart n) (dir : Bytes) :
    FileTree.steps (Temporary.pathIn dir n) = components dir ++ [n] := by
  have hlast : (Temporary.pathIn dir n).getLast? ≠ some slash := by
    rw [Temporary.pathIn, List.getLast?_append_of_ne_nil _ hn.1]
    exact fun h => hn.2 (List.mem_of_getLast? h)
  have hcomp : components (Temporary.pathIn dir n) = components dir ++ [n] := by
    rw [Temporary.pathIn]
    by_cases hslash : dir.getLast? = some slash
    · obtain ⟨f, rfl⟩ := List.getLast?_eq_some_iff.mp hslash
      rw [if_pos (by simp), List.append_nil, List.append_assoc, List.singleton_append,
        components_append_slash, components_append_slash, components_of_isPart hn, components_nil,
        List.append_nil]
    · rw [if_neg (by simpa using hslash), List.append_assoc, List.singleton_append,
        components_append_slash, components_of_isPart hn]
  rw [FileTree.steps, hcomp, if_neg (by simpa using hlast), List.append_nil]

end Path

namespace FileTree

theorem clean_of_realPathFrom {t : FileTree} {links fixed : Nat} {done rest r : Bytes}
    (h : t.realPathFrom links fixed done rest = .ok r) : ∃ y, r = Path.clean y := by
  induction links generalizing fixed done rest with
  | zero =>
    rw [realPathFrom] at h
    split at h
    · simp at h
    · exact ⟨_, (Except.ok.inj h).symm⟩
    · simp at h
  | succ links ih =>
    rw [realPathFrom] at h
    split at h
    · simp at h
    · exact ⟨_, (Except.ok.inj h).symm⟩
    · simp only at h
      split at h <;> exact ih h

/-- A link-free path is clean. -/
theorem clean_of_realPath {t : FileTree} {path r : Bytes} (h : t.realPath path = .ok r) :
    ∃ y, r = Path.clean y :=
  clean_of_realPathFrom h

/-- The paths beside a path name the entries of the directory at `D`. -/
structure Beside (privileged : Bool) (cwd : Bytes) (v : View) (r : Bytes) (D : Place) : Prop where
  isPart : Path.IsPart (Path.base r)
  zero_base : 0 ∉ Path.base r
  zero_parent : 0 ∉ Path.parent r
  self : Names privileged cwd v r D (Path.base r)
  parent : ∃ k, Leads privileged v maxLinks [] (trail cwd (Path.parent r)) k D
  join {n : Bytes} (hpart : Path.IsPart n) (hzero : 0 ∉ n) (hname : IsName n)
    (hlen : (Path.join [Path.parent r, n]).length ≤ maxPath) :
    Names privileged cwd v (Path.join [Path.parent r, n]) D n
  pathIn {n : Bytes} (hpart : Path.IsPart n) (hzero : 0 ∉ n) (hname : IsName n)
    (hlen : (Temporary.pathIn (Path.parent r) n).length ≤ maxPath) :
    Names privileged cwd v (Temporary.pathIn (Path.parent r) n) D n

theorem Beside.calm {privileged : Bool} {cwd : Bytes} {v w : View} {r : Bytes} {D : Place}
    (h : Beside privileged cwd v r D) (hw : Node.Calm v w) : Beside privileged cwd w r D := by
  obtain ⟨k, hlead⟩ := h.parent
  refine ⟨h.isPart, h.zero_base, h.zero_parent, h.self.calm hw, ⟨k, hlead.calm hw⟩, ?_, ?_⟩
  · intro n hpart hzero hname hlen
    exact (h.join hpart hzero hname hlen).calm hw
  · intro n hpart hzero hname hlen
    exact (h.pathIn hpart hzero hname hlen).calm hw

theorem origin_congr {p q : Bytes} (h : Path.isAbsolute p = Path.isAbsolute q) (cwd : Bytes) :
    origin cwd p = origin cwd q := by
  rw [origin, origin, h]

section Spelled

variable {r x n : Bytes} {C : List Bytes}

theorem trail_parent (h : Path.Spells r C x) (cwd : Bytes) :
    trail cwd (Path.parent r) = origin cwd r ++ (if C = [] then [Path.here] else C) := by
  rw [trail, h.steps_parent, origin_congr (Path.isAbsolute_parent r)]

theorem trail_join (h : Path.Spells r C x) (hn : Path.IsEntry n) (cwd : Bytes) :
    trail cwd (Path.join [Path.parent r, n]) = (origin cwd r ++ C) ++ [n] := by
  rw [trail_join_name (Path.parent_ne_nil r) hn, h.kept_parent,
    origin_congr (Path.isAbsolute_parent r)]

theorem trail_pathIn (r : Bytes) (hpart : Path.IsPart n) (cwd : Bytes) :
    trail cwd (Temporary.pathIn (Path.parent r) n) =
      (origin cwd r ++ Path.components (Path.parent r)) ++ [n] := by
  have habs : Path.isAbsolute (Temporary.pathIn (Path.parent r) n) = Path.isAbsolute r := by
    rw [Temporary.pathIn, List.append_assoc, Path.isAbsolute_append (Path.parent_ne_nil r),
      Path.isAbsolute_parent]
  rw [trail, Path.steps_pathIn hpart, origin_congr habs, List.append_assoc]

theorem zero_notMem_parent (h : 0 ∉ r) : 0 ∉ Path.parent r := by
  apply Path.zero_notMem_clean
  intro hzero
  apply h
  rw [← Path.front_append_lastElement r]
  exact List.mem_append_left _ hzero

theorem beside_of_leads (h : Path.Spells r C x) (hlegal : IsLegal r) (hx : IsName x)
    {privileged : Bool} {cwd : Bytes} {v : View} {k : Nat} {D : Place}
    (hlead : Leads privileged v maxLinks [] (origin cwd r ++ C) k D)
    (hD : Admits .search privileged v D) : Beside privileged cwd v r D := by
  have hzero := zero_notMem_parent hlegal.1
  have hmem : x ∈ Path.components r := by simp [h.components_eq]
  refine ⟨?_, ?_, hzero, ?_, ⟨k, ?_⟩, ?_, ?_⟩
  · rw [h.base_eq]
    exact Path.isPart_of_mem_components hmem
  · rw [h.base_eq]
    exact fun hx0 => hlegal.1 (Path.mem_of_mem_components hmem hx0)
  · rw [h.base_eq]
    refine ⟨hlegal, hx, hD, _, k, ?_, hlead⟩
    rw [trail, h.steps_eq, List.append_assoc]
  · rw [trail_parent h]
    by_cases hC : C = []
    · rw [hC, List.append_nil] at hlead
      rw [if_pos hC]
      exact hlead.concat_here hD
    · rwa [if_neg hC]
  · intro n hpart hn0 hname hlen
    have hnil : Path.join [Path.parent r, n] ≠ [] := by
      rw [Path.join_parent]
      exact Path.clean_ne_nil _
    have htrail := trail_join h ⟨hpart, hname.1, hname.2.1⟩ cwd
    refine ⟨⟨?_, hnil, hlen⟩, hname, hD, _, k, htrail, hlead⟩
    rw [Path.join_parent]
    exact Path.zero_notMem_clean (by simp [hzero, hn0, Path.slash])
  · intro n hpart hn0 hname hlen
    refine ⟨⟨?_, ?_, hlen⟩, hname, hD, _, k, trail_pathIn r hpart cwd, ?_⟩
    · rw [Temporary.pathIn]
      split <;> simp [hzero, hn0, Path.slash]
    · simp [Temporary.pathIn, Path.parent_ne_nil]
    · -- The directory is written `.` when the path has no other component than its name.
      rcases h.components_parent with hc | ⟨hc, hC⟩
      · rwa [hc]
      · rw [hC, List.append_nil] at hlead
        rw [hc]
        exact hlead.concat_here hD

end Spelled

/-- A link-free path to anything but a directory ends with the name of an entry. -/
theorem spells_of_find {t : FileTree} {path r : Bytes} {follow : Bool} {q : Place} {n : Node}
    (hr : t.realPath path = .ok r) (hfind : t.find follow r = .ok (q, n))
    (hn : n.isDirectory = false) : ∃ C x, Path.Spells r C x ∧ IsName x := by
  have hne := Path.steps_ne_nil (legal_of_find_ok hfind).2.1
  have hsteps := (List.dropLast_append_getLast hne).symm
  have hwalk := resolve_of_find_ok hfind
  rw [trail, hsteps, ← List.append_assoc] at hwalk
  obtain ⟨k, D, -, hlast⟩ := leads_of_walkLinks_ok (by simp) hwalk
  have hname := isName_of_walkLinks hlast (by rintro q mode es ⟨⟩; cases hn)
  exact ⟨_, _, ⟨clean_of_realPath hr, hsteps, hname.1⟩, hname⟩

/-- The paths beside the resolved path of a file name entries of the file's directory. -/
theorem beside_of_find_file {t : FileTree} {path r : Bytes} {q : Place} {id mode : Nat}
    {content : Bytes} (hr : t.realPath path = .ok r)
    (hfile : t.find false r = .ok (q, .file id mode content)) :
    ∃ D, Beside t.privileged t.cwd t.view r D ∧ q = D ++ [Path.base r] ∧
      t.view q = some (.file id mode content) := by
  obtain ⟨C, x, hspell, -⟩ := spells_of_find hr hfile rfl
  have htrail : trail t.cwd r = (origin t.cwd r ++ C) ++ [x] := by
    rw [trail, hspell.steps_eq, List.append_assoc]
  obtain ⟨k, D, hlead, hD, hname, rfl, hview⟩ := leads_of_find_file hfile htrail
  refine ⟨D, beside_of_leads hspell (legal_of_find_ok hfile) hname hlead hD, ?_, hview⟩
  rw [hspell.base_eq]

end FileTree

end Linewise
