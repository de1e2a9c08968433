import Linewise.Proofs.ListedPaths
import Linewise.Proofs.TargetHistories
import Linewise.Proofs.TreeShapes
import Linewise.Rule.Script

/-!
# Rules that edit what they have read

A rule may edit the lines of the target that it is given, once they have been read from the file. What
is written back then goes to a file that is there, so that the tree keeps its shape.
-/

namespace Linewise

/-- A target after edits: it is still the same file or directory, and lines of a file that were not
known before have been read in a tree that was seen. -/
structure Target.Edits (seen : FileTree → Prop) (t t' : Target) : Prop where
  fullPath : t'.fullPath = t.fullPath
  kind : t'.kind = t.kind
  content : t.kind = .file → t'.content ≠ none →
    t.content ≠ none ∨ ∃ tree, seen tree ∧ ∃ data, tree.readFile t.fullPath = .ok data

namespace Target

variable {seen seen' : FileTree → Prop} {t t' t'' : Target}

theorem Edits.refl (t : Target) : t.Edits seen t := ⟨rfl, rfl, fun _ => .inl⟩

theorem Edits.trans (h : t.Edits seen t') (h' : t'.Edits seen t'') : t.Edits seen t'' := by
  refine ⟨h'.fullPath.trans h.fullPath, h'.kind.trans h.kind, fun hfile hcontent => ?_⟩
  rcases h'.content (h.kind.trans hfile) hcontent with hbefore | hread
  · exact h.content hfile hbefore
  · exact .inr (h.fullPath ▸ hread)

theorem Edits.mono (h : t.Edits seen t') (hseen : ∀ tree, seen tree → seen' tree) :
    t.Edits seen' t' := by
  refine ⟨h.fullPath, h.kind, fun hfile hcontent => (h.content hfile hcontent).imp_right ?_⟩
  rintro ⟨tree, hold, hread⟩
  exact ⟨tree, hseen tree hold, hread⟩

end Target

namespace FileTree

variable {t t' : FileTree}

end FileTree

namespace Session
open FileTree

variable {e : Engine} {t : FileTree} {s : Session} {root : Bytes}

/-- Replacing a file where there are no locks keeps the shape of the tree. -/
theorem InShape.replace {s' : Session} (h : InShape t s) (hlock : LockFree t) {p data : Bytes}
    {q : Place} {id mode : Nat} {content : Bytes} {k : Nat}
    (hfind : s.view.find true p = .ok (q, .file id mode content))
    (htree : s'.tree = (Writer.replacing k s.view p data).1) : InShape t s' := by
  have hnone (D : Place) (name : Bytes) : s.view.view (D ++ [Replacement.lockName name]) = none := by
    by_contra hsome
    exact h.shape_view.lockFree hlock D _ hsome ⟨utf8 "." ++ name, rfl⟩
  refine ⟨?_, ?_⟩
  · rw [htree]
    exact h.shape_view.trans (.of_replaces (Node.view_eq_file.mpr (get?_of_find hfind))
      (Replacement.run_replaces hfind (fun D name _ => hnone D name) _))
  · rw [htree]
    exact Replacement.orderly_run (orderly_view h.orderly) _ _ _

end Session

end Linewise
