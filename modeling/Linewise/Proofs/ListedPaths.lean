import Linewise.Proofs.EntryPaths
import Linewise.Proofs.WrittenFiles

/-!
# Paths below a path

A walk that starts at a path puts the names of entries behind it, one after the other. As long as the
result is not too long for the system, it leads to the entry that the names lead to from where the
first path leads.
-/

namespace Linewise

namespace Path
open Bytes

theorem kept_clean (p : Bytes) : kept (clean p) = kept p := by
  have hfold := foldl_reverse_of_settled (settled_kept p)
  rw [List.reverse_reverse] at hfold
  rw [kept, isAbsolute_clean]
  rcases components_clean p with hc | ⟨hc, hk⟩
  · rw [hc, hfold, List.reverse_reverse]
  · rw [hc, hk]
    simp [cleanStep]

theorem here_notMem_kept (p : Bytes) : here ∉ kept p := by
  have hsettled := settled_kept p
  rw [← List.mem_reverse]
  generalize (kept p).reverse = st at hsettled
  induction st with
  | nil => simp
  | cons c st ih =>
    obtain ⟨hpushed, hrest⟩ := hsettled
    rw [List.mem_cons, not_or]
    refine ⟨?_, ih hrest⟩
    rintro rfl
    simp [cleanStep] at hpushed

/-- The components of a clean path are those that cleaning keeps, but for the path `.`. -/
theorem components_of_clean {p : Bytes} (h : clean p = p) (hk : kept p ≠ [] ∨ isAbsolute p = true) :
    components p = kept p := by
  have hcomponents := components_clean p
  rw [h] at hcomponents
  refine hcomponents.resolve_right fun ⟨hhere, hnil⟩ => ?_
  have habs := hk.resolve_left (not_not.mpr hnil)
  rw [← h, clean_eq, if_pos habs, hnil] at hhere
  exact absurd hhere (by decide)

/-- The path of the entry that names lead to from a path. -/
def under (root : Bytes) (names : List Bytes) : Bytes :=
  names.foldl (fun p name => join [p, name]) root

theorem under_concat (root : Bytes) (names : List Bytes) (name : Bytes) :
    under root (names ++ [name]) = join [under root names, name] := by
  rw [under, List.foldl_concat, under]

theorem under_ne_nil {root : Bytes} (h : root ≠ []) (names : List Bytes) : under root names ≠ [] := by
  induction names using List.reverseRecOn with
  | nil => exact h
  | append_singleton names name ih =>
    rw [under_concat, join_name ih]
    exact clean_ne_nil _

section Under

variable {root : Bytes} (hroot : root ≠ []) {names : List Bytes}
include hroot

theorem kept_under (hnames : ∀ name ∈ names, IsEntry name) :
    kept (under root names) = kept root ++ names := by
  induction names using List.reverseRecOn with
  | nil => exact (List.append_nil _).symm
  | append_singleton names name ih =>
    rw [under_concat, join_name (under_ne_nil hroot _), kept_clean,
      kept_append_name (under_ne_nil hroot _) (hnames name (by simp)),
      ih fun n hn => hnames n (List.mem_append_left _ hn), List.append_assoc]

end Under

theorem clean_clean (p : Bytes) : clean (clean p) = clean p := by
  rw [clean_eq (clean p), isAbsolute_clean, kept_clean, ← clean_eq]

end Path

namespace FileTree
open Node

/-- The last step to a directory, when a link there is not followed, is a step that leads on. -/
theorem leads_of_last_step {t : FileTree} {k mode : Nat} {D q : Place} {x : Bytes}
    {es : List (Bytes × Node)}
    (h : walkLinks t false k D [x] = .ok (.found q (.directory mode es))) :
    Leads t.privileged t.view k D [x] k q := by
  obtain ⟨ds, hds⟩ := directory_of_walkLinks_ok h
  have hD := admits_search.mpr ⟨ds, hds⟩
  by_cases hhere : x = Path.here
  · subst hhere
    obtain ⟨mode, hget, -⟩ := id hds
    rw [walkLinks_here hds, walkLinks_nil hget] at h
    obtain ⟨rfl, -⟩ : D = q ∧ _ := by simpa using h
    exact .here hD (.done hD.directory)
  by_cases hup : x = Path.up
  · subst hup
    have hparent := view_dropLast hD.directory
    obtain ⟨mode, ps, hps⟩ := directoryAt_view.mp hparent
    rw [walkLinks_up hds, walkLinks_nil hps] at h
    obtain ⟨rfl, -⟩ : D.dropLast = q ∧ _ := by simpa using h
    exact .up hD (.done hparent)
  · obtain ⟨hname, rfl, hget⟩ := found_of_walkLinks hhere hup h
    exact .name hD hname (.done (directoryAt_view.mpr ⟨mode, es, hget⟩))

/-- The names of all entries are names that paths can have. -/
def WellNamed (t : FileTree) : Prop :=
  ∀ D x, t.view (D ++ [x]) ≠ none → Path.Regular x ∧ x.length ≤ maxName

theorem wellNamed_of_allEntries {t : FileTree}
    (h : t.root.allEntries (fun name _ => !name.isEmpty && !name.contains Path.slash &&
      !name.contains 0 && name != Path.here && name != Path.up && name.length ≤ maxName) = true) :
    WellNamed t := by
  intro D x hsome
  obtain ⟨n, hn⟩ := Option.ne_none_iff_exists'.mp hsome
  obtain ⟨m, hm, -⟩ := Option.map_eq_some_iff.mp hn
  have hcheck := Node.check_of_allEntries h hm
  simp only [Bool.and_eq_true, Bool.not_eq_true', List.isEmpty_eq_false_iff, List.contains_eq_mem,
    decide_eq_false_iff_not, bne_iff_ne, decide_eq_true_eq] at hcheck
  obtain ⟨⟨⟨⟨⟨hne, hslash⟩, hzero⟩, hhere⟩, hup⟩, hlen⟩ := hcheck
  exact ⟨⟨⟨hne, hslash⟩, hzero, hhere, hup⟩, hlen⟩

/-- The process may look up the entries of the directories from the place `P` down to the one that
holds the place `P ++ q`. -/
def Passable (t : FileTree) (P q : Place) : Prop :=
  ∀ a, a <+: q → a ≠ q → Admits .search t.privileged t.view (P ++ a)

instance (t : FileTree) (P q : Place) : Decidable (t.Passable P q) :=
  decidable_of_iff (∀ a ∈ q.inits, a ≠ q → Admits .search t.privileged t.view (P ++ a)) <| by
    simp only [List.mem_inits, Passable]

namespace Passable

variable {t : FileTree} {P q : Place} {x : Bytes}

theorem above (h : t.Passable P (q ++ [x])) : Admits .search t.privileged t.view (P ++ q) :=
  h q (List.prefix_append q [x]) (by simp)

theorem init (h : t.Passable P (q ++ [x])) : t.Passable P q := by
  intro a ha hne
  refine h a (ha.trans (List.prefix_append q [x])) ?_
  rintro rfl
  exact absurd ha.length_le (by simp)

end Passable

/-- A clean path to the directory at a place. -/
structure Rooted (t : FileTree) (root : Bytes) (P : Place) : Prop where
  clean_eq : Path.clean root = root
  found : ∃ mode es, t.find false root = .ok (P, .directory mode es)

namespace Rooted

variable {t : FileTree} {root : Bytes} {P q : Place} {n : Node}

theorem legal (h : Rooted t root P) : IsLegal root := by
  obtain ⟨mode, es, hfind⟩ := h.found
  exact legal_of_find_ok hfind

theorem directory (h : Rooted t root P) : ∃ mode es, t.root.get? P = some (.directory mode es) := by
  obtain ⟨mode, es, hfind⟩ := h.found
  exact ⟨mode, es, get?_of_find hfind⟩

theorem trail_eq (h : Rooted t root P) : trail t.cwd root =
    origin t.cwd root ++ if Path.kept root = [] then [Path.here] else Path.kept root := by
  rw [trail]
  conv_lhs => rw [← h.clean_eq, Path.steps_clean, h.clean_eq]

/-- The last step of the path. -/
theorem last_step (h : Rooted t root P) : ∃ cs x k D mode es, trail t.cwd root = cs ++ [x] ∧
    Leads t.privileged t.view maxLinks [] cs k D ∧
    walkLinks t false k D [x] = .ok (.found P (.directory mode es)) := by
  obtain ⟨mode, es, hfind⟩ := h.found
  have hne : trail t.cwd root ≠ [] := by
    simp [trail, Path.steps_ne_nil h.legal.2.1]
  have htrail := (List.dropLast_append_getLast hne).symm
  have hwalk := resolve_of_find_ok hfind
  rw [htrail] at hwalk
  obtain ⟨k, D, hlead, hlast⟩ := leads_of_walkLinks_ok (by simp) hwalk
  exact ⟨_, _, k, D, mode, es, htrail, hlead, hlast⟩

theorem leads (h : Rooted t root P) :
    ∃ k, Leads t.privileged t.view maxLinks [] (origin t.cwd root ++ Path.kept root) k P := by
  obtain ⟨cs, x, k, D, mode, es, htrail, hlead, hlast⟩ := h.last_step
  rw [h.trail_eq] at htrail
  by_cases hkept : Path.kept root = []
  · -- The path is the root or the working directory.
    rw [if_pos hkept] at htrail
    obtain ⟨rfl, hx⟩ := List.append_inj' htrail rfl
    obtain rfl : Path.here = x := by simpa using hx
    obtain ⟨ds, hds⟩ := directory_of_walkLinks_ok hlast
    obtain ⟨mode, hget, -⟩ := id hds
    rw [walkLinks_here hds, walkLinks_nil hget] at hlast
    obtain ⟨rfl, -⟩ : D = P ∧ _ := by simpa using hlast
    rw [hkept, List.append_nil]
    exact ⟨k, hlead⟩
  · rw [if_neg hkept] at htrail
    rw [htrail]
    exact ⟨k, hlead.append (leads_of_last_step hlast)⟩

end Rooted

end FileTree

end Linewise
