import Linewise.Proofs.FixingWalk
import Linewise.Proofs.OrderlyTrees

/-!
# The shape of a tree

What a walk comes to depends on the names, kinds and modes of entries and on the targets of links,
not on what is in the files. Replacing a file keeps this shape, and so does the report on a run.
-/

namespace Linewise

/-- A node as far as walks tell nodes apart: all files of one mode are alike. -/
def Node.outline : Node → Node
  | file _ mode _ => .file 0 mode []
  | n => n

namespace FileTree
open Node

/-- Two trees with entries of the same names, kinds and modes and with the same links, seen by the
same process. -/
structure SameShape (t t' : FileTree) : Prop where
  process : SameProcess t t'
  outlines : ∀ q, (t'.view q).map outline = (t.view q).map outline

/-- Two legs that end at the same place or at the same link. -/
inductive Leg.Alike : Leg → Leg → Prop
  | found {q : Place} {n n' : Node} : Alike (.arrived (.found q n)) (.arrived (.found q n'))
  | absent {D : Place} {x : Bytes} : Alike (.arrived (.absent D x)) (.arrived (.absent D x))
  | link {D : Place} {target : Bytes} {rest : List Bytes} :
      Alike (.link D target rest) (.link D target rest)

theorem Leg.Alike.refl (leg : Leg) : leg.Alike leg := by
  rcases leg with (⟨q, n⟩ | ⟨D, x⟩) | ⟨D, target, rest⟩
  · exact .found
  · exact .absent
  · exact .link

namespace SameShape

variable {t t' t'' : FileTree}

theorem refl (t : FileTree) : SameShape t t := ⟨.refl t, fun _ => rfl⟩

theorem symm (h : SameShape t t') : SameShape t' t :=
  ⟨⟨h.process.1.symm, h.process.2.symm⟩, fun q => (h.outlines q).symm⟩

theorem trans (h : SameShape t t') (h' : SameShape t' t'') : SameShape t t'' :=
  ⟨h.process.trans h'.process, fun q => (h'.outlines q).trans (h.outlines q)⟩

theorem none_iff (h : SameShape t t') (q : Place) : t'.view q = none ↔ t.view q = none := by
  rw [← Option.map_eq_none_iff (f := Node.outline), h.outlines, Option.map_eq_none_iff]

/-- Whatever is not a file is the same in both. -/
theorem view_eq (h : SameShape t t') {q : Place} {n : Node} (hq : t.view q = some n)
    (hn : n.outline = n) (hfile : ∀ id mode content, n ≠ .file id mode content) :
    t'.view q = some n := by
  have houtline := h.outlines q
  rw [hq, Option.map_some, hn] at houtline
  obtain ⟨m, hm, rfl⟩ := Option.map_eq_some_iff.mp houtline
  cases m with
  | file => exact absurd rfl (hfile _ _ _)
  | directory | link | special => exact hm

theorem lockFree (h : SameShape t t') (hlock : LockFree t) : LockFree t' :=
  fun place name hsome => hlock place name fun hnone => hsome ((h.none_iff _).mpr hnone)

theorem of_replaces {place : Place} {id mode : Nat} {old data : Bytes}
    (hold : t.view place = some (.file id mode old))
    (h : Replacement.Replaces t' t.privileged t.cwd t.view place mode data) : SameShape t t' := by
  rcases h with ⟨hprivileged, hcwd, hview⟩ | ⟨newId, hprivileged, hcwd, hview⟩
  · exact ⟨⟨hcwd, hprivileged⟩, fun q => by rw [hview]⟩
  · refine ⟨⟨hcwd, hprivileged⟩, fun q => ?_⟩
    rw [hview]
    by_cases hq : q = place
    · rw [hq, Function.update_self, hold]
      rfl
    · rw [Function.update_of_ne hq]

theorem of_writeIdentity (t : FileTree) (id : Nat) (content : Bytes) :
    SameShape t (t.writeIdentity id content) := by
  refine ⟨⟨rfl, rfl⟩, fun q => ?_⟩
  rw [view_writeIdentity]
  cases hq : t.view q with
  | none => rfl
  | some n =>
    obtain ⟨m, -, rfl⟩ := Option.map_eq_some_iff.mp hq
    cases m <;> simp [label, writeFiles, writeEntries, outline]

theorem holds (h : SameShape t t') {q : Place} {es : List (Bytes × Node)} (hq : t.Holds q es) :
    ∃ es', t'.Holds q es' := by
  obtain ⟨mode, hview, hmode⟩ := admits_search.mpr ⟨es, hq⟩
  exact admits_search.mp ⟨mode, h.view_eq hview rfl (by simp), by rwa [h.process.2]⟩

theorem link (h : SameShape t t') {q : Place} {target : Bytes}
    (hq : t.root.get? q = some (.link target)) : t'.root.get? q = some (.link target) :=
  view_eq_link.mp (h.view_eq (view_eq_link.mpr hq) rfl (by simp))

/-- The nodes at one place differ in no more than what is in them. -/
theorem outline_eq (h : SameShape t t') {q : Place} {n n' : Node} (hq : t.root.get? q = some n)
    (hq' : t'.root.get? q = some n') : n'.label.outline = n.label.outline := by
  have houtlines := h.outlines q
  rw [FileTree.view, FileTree.view, Node.view, Node.view, hq, hq'] at houtlines
  simpa using houtlines

theorem directory (h : SameShape t t') {q : Place} {mode : Nat} {es : List (Bytes × Node)}
    {n : Node} (hq : t.root.get? q = some (.directory mode es)) (hq' : t'.root.get? q = some n) :
    ∃ es', n = .directory mode es' := by
  have heq := h.outline_eq hq hq'
  cases n <;> simp_all [label, outline]

theorem file (h : SameShape t t') {q : Place} {id mode : Nat} {content : Bytes} {n : Node}
    (hq : t.root.get? q = some (.file id mode content)) (hq' : t'.root.get? q = some n) :
    ∃ id' content', n = .file id' mode content' := by
  have heq := h.outline_eq hq hq'
  cases n <;> simp_all [label, outline]

end SameShape

end FileTree

namespace Session
open FileTree

theorem sameShape_view (s : Session) : SameShape s.tree s.view := by
  unfold Journal.view
  split
  · exact .refl s.tree
  · exact .of_writeIdentity _ _ _

theorem orderly_view {s : Session} (h : Orderly s.tree) : Orderly s.view := by
  unfold Journal.view
  split
  · exact h
  · exact h.writeIdentity _ _

/-- A session on a tree that has kept its shape. -/
structure InShape (t : FileTree) (s : Session) : Prop where
  shape : SameShape t s.tree
  orderly : Orderly s.tree

variable {t : FileTree} {s s' : Session}

theorem InShape.still (h : InShape t s) (hs : Still s s') : InShape t s' :=
  ⟨hs.tree ▸ h.shape, hs.tree ▸ h.orderly⟩

theorem InShape.shape_view (h : InShape t s) : SameShape t s.view :=
  h.shape.trans s.sameShape_view

end Session

end Linewise
