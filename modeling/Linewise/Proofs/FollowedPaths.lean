import Linewise.Proofs.FileRequests
import Linewise.Proofs.WrittenFiles

/-!
# Where followed paths arrive

`Arrives` tells in terms of views where a path leads that is followed to its end, links at its end
included. A file can only be at the end of a way. One file more in a tree therefore changes no way
to another place.
-/

namespace Linewise.FileTree
open Node

/-- The way along path components that ends at `q`, with at most `k` links followed. -/
inductive Arrives (privileged : Bool) (v : View) : Nat → Place → List Bytes → Place → Prop
  | start {k : Nat} {P : Place} : Arrives privileged v k P [] P
  | here {k k' : Nat} {P D : Place} {cs : List Bytes} (h : Leads privileged v k P cs k' D)
      (hD : Admits .search privileged v D) : Arrives privileged v k P (cs ++ [Path.here]) D
  | up {k k' : Nat} {P D : Place} {cs : List Bytes} (h : Leads privileged v k P cs k' D)
      (hD : Admits .search privileged v D) : Arrives privileged v k P (cs ++ [Path.up]) D.dropLast
  | name {k k' : Nat} {P D : Place} {cs : List Bytes} {x : Bytes}
      (h : Leads privileged v k P cs k' D) (hD : Admits .search privileged v D) (hx : IsName x)
      (hl : ∀ target, v (D ++ [x]) ≠ some (.link target)) :
      Arrives privileged v k P (cs ++ [x]) (D ++ [x])
  | link {k k' : Nat} {P D q : Place} {cs : List Bytes} {x target : Bytes}
      (h : Leads privileged v k P cs (k' + 1) D) (hD : Admits .search privileged v D) (hx : IsName x)
      (hl : v (D ++ [x]) = some (.link target))
      (hrest : Arrives privileged v k' (if Path.isAbsolute target then [] else D) (steps target) q) :
      Arrives privileged v k P (cs ++ [x]) q

variable {t t' : FileTree} {privileged : Bool} {k : Nat} {P q : Place} {cs : List Bytes} {n : Node}

theorem Leads.le {v : View} {k k' : Nat} {P D : Place} {cs : List Bytes}
    (h : Leads privileged v k P cs k' D) : k' ≤ k := by
  induction h with
  | done => exact Nat.le_refl _
  | here _ _ ih | up _ _ ih | name _ _ _ ih => exact ih
  | link _ _ _ _ ih => exact Nat.le_succ_of_le ih

theorem eq_of_walkLinks_nil (h : walkLinks t true k P [] = .ok (.found q n)) : q = P := by
  cases hP : t.root.get? P with
  | none => simp [walkLinks, walkLeg, hP] at h
  | some m =>
    rw [walkLinks_nil hP] at h
    cases h
    rfl

/-- A path that is followed successfully arrives. -/
theorem arrives_of_walkLinks (h : walkLinks t true k P cs = .ok (.found q n)) :
    Arrives t.privileged t.view k P cs q := by
  induction k using Nat.strongRecOn generalizing P cs with
  | _ k ih =>
    rcases List.eq_nil_or_concat cs with rfl | ⟨cs, x, rfl⟩
    · rw [eq_of_walkLinks_nil h]
      exact .start
    rw [List.concat_eq_append] at h ⊢
    obtain ⟨j, D, hlead, hlast⟩ := leads_of_walkLinks_ok (by simp) h
    obtain ⟨es, hes⟩ := directory_of_walkLinks_ok hlast
    have hD := admits_search.mpr ⟨es, hes⟩
    by_cases hhere : x = Path.here
    · subst hhere
      rw [walkLinks_here hes] at hlast
      rw [eq_of_walkLinks_nil hlast]
      exact .here hlead hD
    by_cases hup : x = Path.up
    · subst hup
      rw [walkLinks_up hes] at hlast
      rw [eq_of_walkLinks_nil hlast]
      exact .up hlead hD
    have hx : IsName x := ⟨hhere, hup, length_le_of_walkLinks hlast⟩
    cases hc : es.lookup x with
    | none =>
      rw [walkLinks_absent hes hx hc] at hlast
      cases hlast
    | some m =>
      have hget : t.root.get? (D ++ [x]) = some m := (hes.child x).trans hc
      by_cases hlink : ∃ target, m = .link target
      · obtain ⟨target, rfl⟩ := hlink
        cases j with
        | zero => simp [walkLinks, walkLeg_name hes hx, hc] at hlast
        | succ j =>
          rw [walkLinks_link hes hx hc (.inr rfl), List.append_nil] at hlast
          exact .link hlead hD hx (view_eq_link.mpr hget) (ih j (Nat.lt_of_succ_le hlead.le) hlast)
      · rw [walkLinks_name hes hx hc (not_exists.mp hlink)] at hlast
        rw [eq_of_walkLinks_nil hlast]
        refine .name hlead hD hx fun target htarget => ?_
        rw [view, view_eq_link, hget] at htarget
        exact hlink ⟨target, Option.some.inj htarget⟩

/-- Where a path arrives, it is found. -/
theorem Arrives.walkLinks_eq (h : Arrives t.privileged t.view k P cs q)
    (hn : t.root.get? q = some n) : walkLinks t true k P cs = .ok (.found q n) := by
  induction h with
  | start => exact walkLinks_nil hn
  | here hlead hD =>
    obtain ⟨es, hes⟩ := admits_search.mp hD
    rw [hlead.walkLinks_append (.inr rfl), walkLinks_here hes, walkLinks_nil hn]
  | up hlead hD =>
    obtain ⟨es, hes⟩ := admits_search.mp hD
    rw [hlead.walkLinks_append (.inr rfl), walkLinks_up hes, walkLinks_nil hn]
  | name hlead hD hx hl =>
    obtain ⟨es, hes⟩ := admits_search.mp hD
    have hlink : ∀ target, n ≠ .link target := by
      rintro target rfl
      exact hl target (view_eq_link.mpr hn)
    have hlookup := (hes.child _).symm.trans hn
    rw [hlead.walkLinks_append (.inr rfl), walkLinks_name hes hx hlookup hlink, walkLinks_nil hn]
  | link hlead hD hx hl _ ih =>
    obtain ⟨es, hes⟩ := admits_search.mp hD
    have hlookup := (hes.child _).symm.trans (view_eq_link.mp hl)
    rw [hlead.walkLinks_append (.inr rfl), walkLinks_link hes hx hlookup (.inr rfl), List.append_nil]
    exact ih hn

/-- A way to a directory can be continued. -/
theorem Arrives.leads {v : View} (h : Arrives privileged v k P cs q) (hq : DirectoryAt v q) :
    ∃ k', Leads privileged v k P cs k' q := by
  induction h with
  | start => exact ⟨_, .done hq⟩
  | here hlead hD => exact ⟨_, hlead.concat_here hD⟩
  | up hlead hD => exact ⟨_, hlead.append (.up hD (.done hq))⟩
  | name hlead hD hx => exact ⟨_, hlead.append (.name hD hx (.done hq))⟩
  | link hlead hD hx hl _ ih =>
    obtain ⟨j, hrest⟩ := ih hq
    exact ⟨j, hlead.append (.link hD hx hl (by rwa [List.append_nil]))⟩

/-- A change where every way ends leaves the way to any other place. -/
theorem Arrives.calm {v w : View} (h : Arrives privileged v k P cs q) (hcalm : Calm v w)
    (hq : w q = v q) : Arrives privileged w k P cs q := by
  induction h with
  | start => exact .start
  | here hlead hD => exact .here (hlead.calm hcalm) (hD.calm hcalm)
  | up hlead hD => exact .up (hlead.calm hcalm) (hD.calm hcalm)
  | name hlead hD hx hl =>
    exact .name (hlead.calm hcalm) (hD.calm hcalm) hx fun target => hq ▸ hl target
  | link hlead hD hx hl _ ih =>
    refine .link (hlead.calm hcalm) (hD.calm hcalm) hx ?_ (ih hq)
    rw [hcalm _ (by simp [hl, Ends]), hl]

theorem arrives_of_find {p : Bytes} (h : t.find true p = .ok (q, n)) :
    Arrives t.privileged t.view maxLinks [] (trail t.cwd p) q :=
  arrives_of_walkLinks (resolve_of_find_ok h)

theorem leads_of_find_directory {p : Bytes} {mode : Nat} {es : List (Bytes × Node)}
    (h : t.find true p = .ok (q, .directory mode es)) :
    ∃ k, Leads t.privileged t.view maxLinks [] (trail t.cwd p) k q :=
  (arrives_of_find h).leads (directoryAt_view.mpr ⟨mode, es, get?_of_find h⟩)

/-- After a change where every way ends a path leads to the same place, unless this place changed. -/
theorem find_calm {p : Bytes} (h : t.find true p = .ok (q, n)) (hprocess : SameProcess t t')
    (hcalm : Calm t.view t'.view) (hq : t'.view q = t.view q) :
    ∃ m, t'.find true p = .ok (q, m) ∧ m.label = n.label := by
  have hview : t'.view q = some n.label := by
    rw [hq, view, Node.view, get?_of_find h]
    rfl
  obtain ⟨m, hm, hlabel⟩ : ∃ m, t'.root.get? q = some m ∧ m.label = n.label := by
    simpa [view, Node.view] using hview
  refine ⟨m, ?_, hlabel⟩
  have harrives := (arrives_of_find h).calm hcalm hq
  rw [← hprocess.1, ← hprocess.2] at harrives
  rw [find, resolve_of_legal t' true (legal_of_find_ok h), harrives.walkLinks_eq hm]

/-- A path that is found in a tree with one file more leads to that file, or it leads to the same
place in the tree without it. -/
theorem find_without {F : Place} {o : Option Node} (ho : Ends o)
    (ht' : Shows t' t.privileged t.cwd (Function.update t.view F o)) {p : Bytes}
    (h : t'.find true p = .ok (q, n)) :
    q = F ∨ ∃ m, t.find true p = .ok (q, m) ∧ m.label = n.label := by
  refine or_iff_not_imp_left.mpr fun hq => ?_
  refine find_calm h ⟨ht'.cwd_eq.symm, ht'.privileged_eq.symm⟩ ?_ ?_
  · rw [ht'.view_eq]
    exact Calm.of_update t.view ho
  · rw [ht'.view_eq, Function.update_of_ne hq]

end Linewise.FileTree
