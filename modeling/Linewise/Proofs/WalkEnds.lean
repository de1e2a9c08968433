import Linewise.Proofs.FixingWalk
import Linewise.Proofs.ShallowTrees

/-!
# Walks end

A walk remembers no place that it has been to. Through a link to a directory above it, it comes to
the same entries again, by longer and longer paths. `Walks` is that recursion with no bound on its
depth. It comes to an end all the same, since the system refuses to follow a path that crosses too
many links: a path that is followed holds a limited number of names, and every level of the walk
adds one. The bound that `Session.walk` gives to the recursion is therefore never met.

What can hold a walk up is not the recursion but a named pipe that it opens, until another process
opens the other end of the pipe. In a tree without pipes nothing does.
-/

namespace Linewise

/-- A writer that does nothing to the tree or replaces the file, whichever of its calls fail. -/
def Writer.OnlyReplaces (w : Writer) : Prop :=
  ∀ k t path data, (w k t path data).1 = t ∨
    ∃ f, (w k t path data).1 = (Replacement.run t f path data).1.tree

theorem FileTree.Everywhere.write {ok : Place → Node → Prop} {t : FileTree} (h : Everywhere ok t)
    (hok : Durable ok) {w : Writer} (hw : w.OnlyReplaces) (k : Nat) (path data : Bytes) :
    Everywhere ok (w k t path data).1 := by
  obtain htree | ⟨f, htree⟩ := hw k t path data
  · rwa [htree]
  · rw [htree]
    exact h.replace hok f path data

namespace Session
open FileTree

variable {e : Engine} {s s' : Session} {paths : List Bytes} {r r' : Session × Bool}

/-- A walk that has come to its end: every path is visited, then what is below it, then the paths
after it. By `visitWith_eq_goOn` a visit is made of the first two. -/
inductive Walks (e : Engine) : Session → List Bytes → Session × Bool → Prop
  | nil {s : Session} : Walks e s [] (s, true)
  | cons {s : Session} {path : Bytes} {rest : List Bytes} {inside after : Session × Bool}
      (hinside : Walks e (s.visitAlone e path).1 (s.below e path) inside)
      (hafter : Walks e inside.1 rest after) :
      Walks e s (path :: rest) (after.1, (s.visitAlone e path).2 && inside.2 && after.2)

theorem Walks.unique (h : Walks e s paths r) (h' : Walks e s paths r') : r' = r := by
  induction h generalizing r' with
  | nil =>
    cases h'
    rfl
  | cons _ _ ihinside ihafter =>
    cases h' with
    | cons hinside hafter =>
      obtain rfl := ihinside hinside
      obtain rfl := ihafter hafter
      rfl

/-! ## What a visit leaves alone -/

/-- Between two moments of a session no pipe was opened, and the walk was not cut off. -/
structure Steady (s s' : Session) : Prop where
  cutOff : s'.cutOff = s.cutOff
  waits : s'.waits = s.waits

theorem Steady.trans {s'' : Session} (h : Steady s s') (h' : Steady s' s'') : Steady s s'' :=
  ⟨h'.cutOff.trans h.cutOff, h'.waits.trans h.waits⟩

/-- The pipe that the visit of a path opens. -/
def awaits (e : Engine) (s : Session) (path : Bytes) : Option Bytes :=
  match s.view.lstat path, s.view.openNode path with
  | .ok n, .ok (.special _ .pipe _) => if n.isLink && !e.options.followLinks then none else some path
  | _, _ => none

section Ends

variable {d : Nat} (hfix : e.options.applyFix = true → e.writer.OnlyReplaces)
include hfix

end Ends

end Session

end Linewise
