import Linewise.Proofs.TreeViews

/-!
# Where paths lead

A path leads through directories and links only, so what it means depends on the view of a tree at
these places alone. `Leads` follows the components of a path to a directory; a path that leads to a
directory and then names an entry of it means that entry, whatever is there, and goes on to mean it
while files of the directory come and go.
-/

namespace Linewise

namespace FileTree

/-- A component that names an entry. -/
def IsName (c : Bytes) : Prop := c ≠ Path.here ∧ c ≠ Path.up ∧ c.length ≤ maxName

/-- The directory at a place has the entries `es`, and the process may look them up. -/
def Holds (t : FileTree) (P : Place) (es : List (Bytes × Node)) : Prop :=
  ∃ mode, t.root.get? P = some (.directory mode es) ∧ t.grants .search mode = true

theorem Holds.child {t : FileTree} {P : Place} {es : List (Bytes × Node)} (h : t.Holds P es)
    (x : Bytes) : t.root.get? (P ++ [x]) = es.lookup x :=
  Node.get?_child h.choose_spec.1 x

theorem Holds.directory {t : FileTree} {P : Place} {es : List (Bytes × Node)} (h : t.Holds P es) :
    DirectoryAt t.view P :=
  Node.directoryAt_view.mpr ⟨_, es, h.choose_spec.1⟩

theorem admits_search {t : FileTree} {P : Place} :
    Admits .search t.privileged t.view P ↔ ∃ es, t.Holds P es := by
  constructor
  · rintro ⟨mode, hP, hmode⟩
    obtain ⟨es, hes⟩ := Node.view_eq_directory.mp hP
    exact ⟨es, mode, hes, hmode⟩
  · rintro ⟨es, mode, hes, hmode⟩
    exact ⟨mode, Node.view_eq_directory.mpr ⟨es, hes⟩, hmode⟩

section Steps

variable {t : FileTree} {follow : Bool} {k : Nat} {P : Place} {c : Bytes} {cs : List Bytes}
  {es : List (Bytes × Node)}

theorem walkLinks_of_walkLeg {P' : Place} {cs' : List Bytes}
    (h : walkLeg t follow P cs = walkLeg t follow P' cs') :
    walkLinks t follow k P cs = walkLinks t follow k P' cs' := by
  rw [walkLinks, h, ← walkLinks]

theorem walkLinks_nil {n : Node} (h : t.root.get? P = some n) :
    walkLinks t follow k P [] = .ok (.found P n) := by
  rw [walkLinks, walkLeg, h]

theorem walkLeg_here (h : t.Holds P es) :
    walkLeg t follow P (Path.here :: cs) = walkLeg t follow P cs := by
  obtain ⟨mode, hes, hmode⟩ := h
  simp [walkLeg, hes, hmode]

theorem walkLinks_here (h : t.Holds P es) :
    walkLinks t follow k P (Path.here :: cs) = walkLinks t follow k P cs :=
  walkLinks_of_walkLeg (walkLeg_here h)

theorem walkLeg_up (h : t.Holds P es) :
    walkLeg t follow P (Path.up :: cs) = walkLeg t follow P.dropLast cs := by
  obtain ⟨mode, hes, hmode⟩ := h
  simp [walkLeg, hes, hmode, Path.here, Path.up]

theorem walkLinks_up (h : t.Holds P es) :
    walkLinks t follow k P (Path.up :: cs) = walkLinks t follow k P.dropLast cs :=
  walkLinks_of_walkLeg (walkLeg_up h)

theorem walkLeg_name (h : t.Holds P es) (hc : IsName c) :
    walkLeg t follow P (c :: cs) =
      match es.lookup c with
      | none => if cs.isEmpty then .ok (.arrived (.absent P c)) else .error .noEntry
      | some (.link target) =>
        if cs.isEmpty && !follow then .ok (.arrived (.found (P ++ [c]) (.link target)))
        else .ok (.link P target cs)
      | some _ => walkLeg t follow (P ++ [c]) cs := by
  obtain ⟨mode, hes, hmode⟩ := h
  obtain ⟨hhere, hup, hlen⟩ := hc
  cases hn : es.lookup c with
  | none => simp [walkLeg, hes, hmode, hn, hhere, hup, Nat.not_lt.mpr hlen]
  | some n => cases n <;> simp [walkLeg, hes, hmode, hn, hhere, hup, Nat.not_lt.mpr hlen]

theorem walkLeg_step {n : Node} (h : t.Holds P es) (hc : IsName c)
    (hn : es.lookup c = some n) (hl : ∀ target, n ≠ .link target) :
    walkLeg t follow P (c :: cs) = walkLeg t follow (P ++ [c]) cs := by
  rw [walkLeg_name h hc, hn]
  cases n with
  | link target => exact absurd rfl (hl target)
  | file | directory | special => rfl

theorem walkLinks_name {n : Node} (h : t.Holds P es) (hc : IsName c)
    (hn : es.lookup c = some n) (hl : ∀ target, n ≠ .link target) :
    walkLinks t follow k P (c :: cs) = walkLinks t follow k (P ++ [c]) cs :=
  walkLinks_of_walkLeg (walkLeg_step h hc hn hl)

theorem walkLinks_absent (h : t.Holds P es) (hc : IsName c)
    (hn : es.lookup c = none) : walkLinks t follow k P [c] = .ok (.absent P c) := by
  rw [walkLinks, walkLeg_name h hc, hn]
  rfl

theorem walkLinks_link {target : Bytes} (h : t.Holds P es) (hc : IsName c)
    (hn : es.lookup c = some (.link target)) (hcs : cs ≠ [] ∨ follow = true) :
    walkLinks t follow (k + 1) P (c :: cs) =
      walkLinks t follow k (if Path.isAbsolute target then [] else P) (steps target ++ cs) := by
  have hgo : (cs.isEmpty && !follow) = false := by
    rcases hcs with hcs | hfollow
    · simp [hcs]
    · simp [hfollow]
  rw [walkLinks, walkLeg_name h hc, hn]
  simp only [hgo, Bool.false_eq_true, if_false]

theorem directory_of_walkLeg_ok {leg : Leg} (h : walkLeg t follow P (c :: cs) = .ok leg) :
    ∃ es, t.Holds P es := by
  rw [walkLeg] at h
  cases hP : t.root.get? P with
  | none => simp [hP] at h
  | some n =>
    cases n with
    | directory mode es =>
      cases hmode : t.grants .search mode with
      | false => simp [hP, hmode] at h
      | true => exact ⟨es, mode, hP, hmode⟩
    | file | link | special => simp [hP] at h

theorem directory_of_walkLinks_ok {d : Destination}
    (h : walkLinks t follow k P (c :: cs) = .ok d) : ∃ es, t.Holds P es := by
  rw [walkLinks] at h
  cases hleg : walkLeg t follow P (c :: cs) with
  | error err => simp [hleg] at h
  | ok leg => exact directory_of_walkLeg_ok hleg

/-- No name that is taken is too long. -/
theorem length_le_of_walkLinks {d : Destination} (h : walkLinks t follow k P (c :: cs) = .ok d) :
    c.length ≤ maxName := by
  obtain ⟨es, mode, hes, hmode⟩ := directory_of_walkLinks_ok h
  by_contra hlen
  have hhere : c ≠ Path.here := by
    rintro rfl
    exact hlen (by decide)
  have hup : c ≠ Path.up := by
    rintro rfl
    exact hlen (by decide)
  rw [walkLinks, walkLeg, hes] at h
  simp [hmode, hhere, hup, Nat.lt_of_not_le hlen] at h

end Steps

/-- The components `cs` lead from the place `P` to the directory at `D`, and of the `k` links that
may be followed `k'` are left then. -/
inductive Leads (privileged : Bool) (v : View) :
    Nat → Place → List Bytes → Nat → Place → Prop
  | done {k : Nat} {P : Place} (hP : DirectoryAt v P) : Leads privileged v k P [] k P
  | here {k k' : Nat} {P D : Place} {cs : List Bytes} (hP : Admits .search privileged v P)
      (h : Leads privileged v k P cs k' D) : Leads privileged v k P (Path.here :: cs) k' D
  | up {k k' : Nat} {P D : Place} {cs : List Bytes} (hP : Admits .search privileged v P)
      (h : Leads privileged v k P.dropLast cs k' D) : Leads privileged v k P (Path.up :: cs) k' D
  | name {k k' : Nat} {P D : Place} {c : Bytes} {cs : List Bytes}
      (hP : Admits .search privileged v P) (hc : IsName c)
      (h : Leads privileged v k (P ++ [c]) cs k' D) : Leads privileged v k P (c :: cs) k' D
  | link {k k' : Nat} {P D : Place} {c target : Bytes} {cs : List Bytes}
      (hP : Admits .search privileged v P) (hc : IsName c) (hl : v (P ++ [c]) = some (.link target))
      (h : Leads privileged v k (if Path.isAbsolute target then [] else P) (steps target ++ cs) k' D) :
      Leads privileged v (k + 1) P (c :: cs) k' D

namespace Leads

variable {privileged : Bool} {v : View} {k k' : Nat} {P D : Place} {cs : List Bytes}

theorem directory_start (h : Leads privileged v k P cs k' D) : DirectoryAt v P := by
  cases h with
  | done hP => exact hP
  | here hP | up hP | name hP | link hP => exact hP.directory

theorem directory_end (h : Leads privileged v k P cs k' D) : DirectoryAt v D := by
  induction h with
  | done hP => exact hP
  | here _ _ ih => exact ih
  | up _ _ ih => exact ih
  | name _ _ _ ih => exact ih
  | link _ _ _ _ ih => exact ih

theorem append {k'' : Nat} {R : Place} {ds : List Bytes} (h : Leads privileged v k P cs k' D)
    (hds : Leads privileged v k' D ds k'' R) : Leads privileged v k P (cs ++ ds) k'' R := by
  induction h with
  | done => exact hds
  | here hP _ ih => exact .here hP (ih hds)
  | up hP _ ih => exact .up hP (ih hds)
  | name hP hc _ ih => exact .name hP hc (ih hds)
  | link hP hc hl _ ih =>
    have hrest := ih hds
    rw [List.append_assoc] at hrest
    exact .link hP hc hl hrest

theorem concat_here (h : Leads privileged v k P cs k' D) (hD : Admits .search privileged v D) :
    Leads privileged v k P (cs ++ [Path.here]) k' D :=
  h.append (.here hD (.done h.directory_end))

/-- A path leads where it did when no directory and no link has changed. -/
theorem keep (h : Leads privileged v k P cs k' D) {w : View}
    (hw : ∀ q n, v q = some n → n.isDirectory = true ∨ n.isLink = true → w q = v q) :
    Leads privileged w k P cs k' D := by
  have hkeep {q : Place} (hq : Admits .search privileged v q) : Admits .search privileged w q := by
    obtain ⟨mode, hmode, _⟩ := id hq
    exact hq.congr (hw q _ hmode (.inl rfl))
  induction h with
  | done hP =>
    obtain ⟨mode, hmode⟩ := hP
    exact .done ⟨mode, (hw _ _ hmode (.inl rfl)).trans hmode⟩
  | here hP _ ih => exact .here (hkeep hP) ih
  | up hP _ ih => exact .up (hkeep hP) ih
  | name hP hc _ ih => exact .name (hkeep hP) hc ih
  | link hP hc hl _ ih => exact .link (hkeep hP) hc ((hw _ _ hl (.inr rfl)).trans hl) ih

/-- A change where every way ends does not change where a path leads. -/
theorem calm (h : Leads privileged v k P cs k' D) {w : View} (hw : Node.Calm v w) :
    Leads privileged w k P cs k' D :=
  h.keep fun _ _ => hw.keeps

/-- Components lead to one place. -/
theorem unique {k'' : Nat} {R : Place} (h : Leads privileged v k P cs k' D)
    (h' : Leads privileged v k P cs k'' R) :
    D = R := by
  induction h with
  | done =>
    cases h' with
    | done => rfl
  | here _ _ ih =>
    cases h' with
    | here _ h' => exact ih h'
    | name _ hc | link _ hc => exact absurd rfl hc.1
  | up _ _ ih =>
    cases h' with
    | up _ h' => exact ih h'
    | name _ hc | link _ hc => exact absurd rfl hc.2.1
  | name _ hc hrest ih =>
    cases h' with
    | here => exact absurd rfl hc.1
    | up => exact absurd rfl hc.2.1
    | name _ _ h' => exact ih h'
    | link _ _ hl => cases hl.symm.trans hrest.directory_start.choose_spec
  | link _ hc hl _ ih =>
    cases h' with
    | here => exact absurd rfl hc.1
    | up => exact absurd rfl hc.2.1
    | name _ _ h' => cases hl.symm.trans h'.directory_start.choose_spec
    | link _ _ hl' h' =>
      cases hl.symm.trans hl'
      exact ih h'

/-- After the components that lead to a directory the walk goes on from there. -/
theorem walkLinks_append {t : FileTree} {follow : Bool} (h : Leads t.privileged t.view k P cs k' D)
    {ds : List Bytes} (hds : ds ≠ [] ∨ follow = true) :
    walkLinks t follow k P (cs ++ ds) = walkLinks t follow k' D ds := by
  induction h with
  | done => rfl
  | here hP _ ih =>
    obtain ⟨es, hes⟩ := admits_search.mp hP
    rw [List.cons_append, walkLinks_here hes, ih]
  | up hP _ ih =>
    obtain ⟨es, hes⟩ := admits_search.mp hP
    rw [List.cons_append, walkLinks_up hes, ih]
  | @name k k' P D c cs hP hc h ih =>
    obtain ⟨es, hes⟩ := admits_search.mp hP
    obtain ⟨mode, es', hes'⟩ := Node.directoryAt_view.mp h.directory_start
    rw [hes.child] at hes'
    rw [List.cons_append, walkLinks_name hes hc hes' (by simp), ih]
  | @link k k' P D c target cs hP hc hl h ih =>
    obtain ⟨es, hes⟩ := admits_search.mp hP
    have hlink := Node.view_eq_link.mp hl
    rw [hes.child] at hlink
    have hne : cs ++ ds ≠ [] ∨ follow = true := by
      rcases hds with hds | hfollow
      · exact .inl (by simp [hds])
      · exact .inr hfollow
    rw [List.cons_append, walkLinks_link hes hc hlink hne, ← ih, List.append_assoc]

end Leads

/-- A walk that goes through leads to a directory at every component but the last ones. -/
theorem leads_of_walkLinks_ok {t : FileTree} {follow : Bool} {k : Nat} {P : Place}
    {cs ds : List Bytes} {d : Destination} (hds : ds ≠ [])
    (h : walkLinks t follow k P (cs ++ ds) = .ok d) :
    ∃ k' D, Leads t.privileged t.view k P cs k' D ∧ walkLinks t follow k' D ds = .ok d := by
  -- Links put their target in front of the rest, so the outer induction is on the links left.
  induction k using Nat.strongRecOn generalizing P cs with
  | _ k ihk =>
    induction cs generalizing P with
    | nil =>
      obtain ⟨d₁, ds₁, rfl⟩ := List.exists_cons_of_ne_nil hds
      have hP := (admits_search.mpr (directory_of_walkLinks_ok h)).directory
      exact ⟨k, P, .done hP, h⟩
    | cons c cs ih =>
      rw [List.cons_append] at h
      obtain ⟨es, hes⟩ := directory_of_walkLinks_ok h
      have hP := admits_search.mpr ⟨es, hes⟩
      by_cases hhere : c = Path.here
      · subst hhere
        rw [walkLinks_here hes] at h
        obtain ⟨k', D, hlead, hrest⟩ := ih h
        exact ⟨k', D, .here hP hlead, hrest⟩
      by_cases hup : c = Path.up
      · subst hup
        rw [walkLinks_up hes] at h
        obtain ⟨k', D, hlead, hrest⟩ := ih h
        exact ⟨k', D, .up hP hlead, hrest⟩
      have hc : IsName c := ⟨hhere, hup, length_le_of_walkLinks h⟩
      cases hn : es.lookup c with
      | none =>
        rw [walkLinks, walkLeg_name hes hc, hn] at h
        simp [hds] at h
      | some n =>
        by_cases hl : ∃ target, n = .link target
        · obtain ⟨target, rfl⟩ := hl
          cases k with
          | zero =>
            rw [walkLinks, walkLeg_name hes hc, hn] at h
            simp [hds] at h
          | succ k =>
            rw [walkLinks_link hes hc hn (.inl (by simp [hds])), ← List.append_assoc] at h
            obtain ⟨k', D, hlead, hrest⟩ := ihk k (Nat.lt_succ_self k) h
            rw [← hes.child] at hn
            exact ⟨k', D, .link hP hc (Node.view_eq_link.mpr hn) hlead, hrest⟩
        · rw [walkLinks_name hes hc hn (fun target ht => hl ⟨target, ht⟩)] at h
          obtain ⟨k', D, hlead, hrest⟩ := ih h
          exact ⟨k', D, .name hP hc hlead, hrest⟩

/-- A path that the system looks at. -/
def IsLegal (p : Bytes) : Prop := 0 ∉ p ∧ p ≠ [] ∧ p.length ≤ maxPath

/-- The components that lead to where a path starts. -/
def origin (cwd p : Bytes) : List Bytes := if Path.isAbsolute p then [] else Path.components cwd

/-- The components from the root on that a path stands for. -/
def trail (cwd p : Bytes) : List Bytes := origin cwd p ++ steps p

theorem resolve_of_legal (t : FileTree) (follow : Bool) {p : Bytes} (h : IsLegal p) :
    t.resolve follow p = walkLinks t follow maxLinks [] (trail t.cwd p) := by
  obtain ⟨hzero, hne, hlen⟩ := h
  rw [resolve, trail, origin, if_neg (by simpa using hzero), if_neg (by simpa using hne),
    if_neg (Nat.not_lt.mpr hlen)]
  split <;> rfl

theorem legal_of_resolve_ok {t : FileTree} {follow : Bool} {p : Bytes} {d : Destination}
    (h : t.resolve follow p = .ok d) : IsLegal p := by
  rw [resolve] at h
  refine ⟨?_, ?_, ?_⟩
  · intro hzero
    simp [hzero] at h
  · rintro rfl
    simp at h
  · by_contra hlen
    by_cases hzero : 0 ∈ p <;> by_cases hne : p = [] <;>
      simp [hzero, hne, Nat.lt_of_not_le hlen] at h

/-- What is found at a path is what the path leads to. -/
theorem found_of_find_ok {t : FileTree} {follow : Bool} {p : Bytes} {q : Place} {n : Node}
    (h : t.find follow p = .ok (q, n)) : t.resolve follow p = .ok (.found q n) := by
  rw [find] at h
  cases hr : t.resolve follow p with
  | error e => simp [hr] at h
  | ok d =>
    cases d with
    | absent => simp [hr] at h
    | found q' n' =>
      obtain ⟨rfl, rfl⟩ : q' = q ∧ n' = n := by simpa [hr] using h
      rfl

theorem legal_of_find_ok {t : FileTree} {follow : Bool} {p : Bytes} {q : Place × Node}
    (h : t.find follow p = .ok q) : IsLegal p :=
  legal_of_resolve_ok (found_of_find_ok h)

/-- A path means the entry `x` of the directory at `D`, whether there is one or not. -/
structure Names (privileged : Bool) (cwd : Bytes) (v : View) (p : Bytes) (D : Place) (x : Bytes) :
    Prop where
  legal : IsLegal p
  isName : IsName x
  search : Admits .search privileged v D
  route : ∃ cs k, trail cwd p = cs ++ [x] ∧ Leads privileged v maxLinks [] cs k D

namespace Names

variable {t : FileTree} {privileged : Bool} {cwd p : Bytes} {v : View} {D : Place} {x : Bytes}

theorem directory (h : Names privileged cwd v p D x) : DirectoryAt v D := h.search.directory

theorem keep (h : Names privileged cwd v p D x) {w : View}
    (hw : ∀ q n, v q = some n → n.isDirectory = true ∨ n.isLink = true → w q = v q) :
    Names privileged cwd w p D x := by
  obtain ⟨cs, k, htrail, hlead⟩ := h.route
  obtain ⟨mode, hmode⟩ := h.directory
  exact ⟨h.legal, h.isName, h.search.congr (hw D _ hmode (.inl rfl)), cs, k, htrail, hlead.keep hw⟩

theorem calm (h : Names privileged cwd v p D x) {w : View} (hw : Node.Calm v w) :
    Names privileged cwd w p D x :=
  h.keep fun _ _ => hw.keeps

theorem unique {E : Place} {y : Bytes} (h : Names privileged cwd v p D x)
    (h' : Names privileged cwd v p E y) : D = E := by
  obtain ⟨cs, k, htrail, hlead⟩ := h.route
  obtain ⟨cs', k', htrail', hlead'⟩ := h'.route
  obtain ⟨rfl, -⟩ := List.append_inj' (htrail.symm.trans htrail') rfl
  exact hlead.unique hlead'

theorem resolve_eq (h : Names t.privileged t.cwd t.view p D x) (follow : Bool) :
    ∃ k, t.resolve follow p = walkLinks t follow k D [x] := by
  obtain ⟨cs, k, htrail, hlead⟩ := h.route
  exact ⟨k, by rw [t.resolve_of_legal follow h.legal, htrail, hlead.walkLinks_append (by simp)]⟩

theorem resolve_absent (h : Names t.privileged t.cwd t.view p D x) (hx : t.view (D ++ [x]) = none)
    (follow : Bool) : t.resolve follow p = .ok (.absent D x) := by
  obtain ⟨k, hk⟩ := h.resolve_eq follow
  obtain ⟨es, hes⟩ := admits_search.mp h.search
  have hnone := Node.view_eq_none.mp hx
  rw [hes.child] at hnone
  rw [hk, walkLinks_absent hes h.isName hnone]

theorem resolve_file (h : Names t.privileged t.cwd t.view p D x) {id mode : Nat} {content : Bytes}
    (hx : t.view (D ++ [x]) = some (.file id mode content)) (follow : Bool) :
    t.resolve follow p = .ok (.found (D ++ [x]) (.file id mode content)) := by
  obtain ⟨k, hk⟩ := h.resolve_eq follow
  obtain ⟨es, hes⟩ := admits_search.mp h.search
  have hfile := Node.view_eq_file.mp hx
  rw [hk, walkLinks_name hes h.isName (hes.child x ▸ hfile) (by simp),
    walkLinks_nil hfile]

theorem find_absent (h : Names t.privileged t.cwd t.view p D x) (hx : t.view (D ++ [x]) = none)
    (follow : Bool) : t.find follow p = .error .noEntry := by
  rw [find, h.resolve_absent hx]

theorem find_file (h : Names t.privileged t.cwd t.view p D x) {id mode : Nat} {content : Bytes}
    (hx : t.view (D ++ [x]) = some (.file id mode content)) (follow : Bool) :
    t.find follow p = .ok (D ++ [x], .file id mode content) := by
  rw [find, h.resolve_file hx]

end Names

/-- A walk that ends with a name ends at the entry with that name. -/
theorem found_of_walkLinks {t : FileTree} {k : Nat} {D q : Place} {x : Bytes} {n : Node}
    (hhere : x ≠ Path.here) (hup : x ≠ Path.up)
    (h : walkLinks t false k D [x] = .ok (.found q n)) :
    IsName x ∧ q = D ++ [x] ∧ t.root.get? q = some n := by
  obtain ⟨es, hes⟩ := directory_of_walkLinks_ok h
  have hx : IsName x := ⟨hhere, hup, length_le_of_walkLinks h⟩
  refine ⟨hx, ?_⟩
  cases hn : es.lookup x with
  | none =>
    rw [walkLinks_absent hes hx hn] at h
    simp at h
  | some m =>
    have hget := (hes.child x).trans hn
    by_cases hl : ∃ target, m = .link target
    · obtain ⟨target, rfl⟩ := hl
      rw [walkLinks, walkLeg_name hes hx, hn] at h
      obtain ⟨rfl, rfl⟩ : D ++ [x] = q ∧ .link target = n := by simpa using h
      exact ⟨rfl, hget⟩
    · rw [walkLinks_name hes hx hn (fun target ht => hl ⟨target, ht⟩), walkLinks_nil hget] at h
      obtain ⟨rfl, rfl⟩ : D ++ [x] = q ∧ m = n := by simpa using h
      exact ⟨rfl, hget⟩

/-- The entry of a destination: the missing one, or the one that was found. -/
def Destination.place : Destination → Place
  | .found place _ => place
  | .absent dir name => dir ++ [name]

/-- A walk that ends with a name ends at the entry with that name, which may be missing. -/
theorem place_of_walkLinks {t : FileTree} {k : Nat} {D : Place} {x : Bytes} {d : Destination}
    (hname : IsName x) (h : walkLinks t false k D [x] = .ok d) : d.place = D ++ [x] := by
  cases d with
  | found q n => exact (found_of_walkLinks hname.1 hname.2.1 h).2.1
  | absent E y =>
    obtain ⟨es, hes⟩ := directory_of_walkLinks_ok h
    cases hn : es.lookup x with
    | none =>
      rw [walkLinks_absent hes hname hn] at h
      cases h
      rfl
    | some m =>
      by_cases hl : ∃ target, m = .link target
      · obtain ⟨target, rfl⟩ := hl
        rw [walkLinks, walkLeg_name hes hname, hn] at h
        cases h
      · rw [walkLinks_name hes hname hn (fun target ht => hl ⟨target, ht⟩),
          walkLinks_nil ((hes.child x).trans hn)] at h
        cases h

/-- What is opened is what the path leads to. -/
theorem find_of_openNode {t : FileTree} {p : Bytes} {n : Node} (h : t.openNode p = .ok n) :
    ∃ place, t.find true p = .ok (place, n) := by
  unfold openNode at h
  split at h
  · cases h
  next place m hfind =>
    split at h
    · cases h
    · exact ⟨place, Except.ok.inj h ▸ hfind⟩

theorem resolve_of_find_ok {t : FileTree} {follow : Bool} {p : Bytes} {q : Place} {n : Node}
    (h : t.find follow p = .ok (q, n)) :
    walkLinks t follow maxLinks [] (trail t.cwd p) = .ok (.found q n) := by
  rw [← t.resolve_of_legal follow (legal_of_find_ok h), found_of_find_ok h]

/-- A step at the end of a walk that does not end at a directory is a name: both `.` and `..` would
lead to a directory. -/
theorem isName_of_walkLinks {t : FileTree} {follow : Bool} {k : Nat} {D : Place} {x : Bytes}
    {d : Destination} (h : walkLinks t follow k D [x] = .ok d)
    (hd : ∀ q mode es, d ≠ .found q (.directory mode es)) : IsName x := by
  obtain ⟨es, hes⟩ := directory_of_walkLinks_ok h
  refine ⟨?_, ?_, length_le_of_walkLinks h⟩
  · rintro rfl
    obtain ⟨mode, hget, _⟩ := id hes
    rw [walkLinks_here hes, walkLinks_nil hget] at h
    exact hd _ _ _ (Except.ok.inj h).symm
  · rintro rfl
    obtain ⟨mode, ds, hds⟩ := Node.directoryAt_view.mp (Node.view_dropLast hes.directory)
    rw [walkLinks_up hes, walkLinks_nil hds] at h
    exact hd _ _ _ (Except.ok.inj h).symm

/-- The path of a file leads to the directory of the file and names the file there. -/
theorem leads_of_find_file {t : FileTree} {p x : Bytes} {q : Place} {cs : List Bytes}
    {id mode : Nat} {content : Bytes}
    (h : t.find false p = .ok (q, .file id mode content)) (htrail : trail t.cwd p = cs ++ [x]) :
    ∃ k D, Leads t.privileged t.view maxLinks [] cs k D ∧ Admits .search t.privileged t.view D ∧
      IsName x ∧ q = D ++ [x] ∧ t.view (D ++ [x]) = some (.file id mode content) := by
  have hwalk := resolve_of_find_ok h
  rw [htrail] at hwalk
  obtain ⟨k, D, hlead, hlast⟩ := leads_of_walkLinks_ok (by simp) hwalk
  have hname := isName_of_walkLinks hlast (by simp)
  obtain ⟨hx, rfl, hget⟩ := found_of_walkLinks hname.1 hname.2.1 hlast
  have hD := admits_search.mpr (directory_of_walkLinks_ok hlast)
  exact ⟨k, D, hlead, hD, hx, rfl, Node.view_eq_file.mpr hget⟩

theorem find_directory {t : FileTree} {p : Bytes} {k mode : Nat} {D : Place}
    {es : List (Bytes × Node)} (hlegal : IsLegal p)
    (hlead : Leads t.privileged t.view maxLinks [] (trail t.cwd p) k D)
    (hD : t.root.get? D = some (.directory mode es)) :
    t.find true p = .ok (D, .directory mode es) := by
  have hwalk := hlead.walkLinks_append (.inr rfl : ([] : List Bytes) ≠ [] ∨ true = true)
  rw [List.append_nil, walkLinks_nil hD] at hwalk
  rw [find, t.resolve_of_legal true hlegal, hwalk]

end FileTree

end Linewise
