import Linewise.Proofs.HandledTargets
import Linewise.Proofs.HonestRules

/-!
# The order of a walk

A walk that does not follow links comes to the entries below its root in the order of the lists of
names that lead to them: a directory stands before what is in it, and everything below an entry
before its next sibling. It comes to each of them once, and to no others.
-/

namespace Linewise

namespace Node

end Node

namespace FileTree
open Node

end FileTree

namespace Session
open FileTree Node

variable {e : Engine}

/-- What a walk opens at the path to the names `q`: what is there, when the path is not too long, the
directories on the way may be searched, it is no link and the system lets the process open it. -/
def opened? (t : FileTree) (root : Bytes) (P q : Place) : Option Node :=
  if (Path.under root q).length ≤ maxPath ∧ t.Passable P q then
    (t.root.get? (P ++ q)).filter fun n => !n.isLink && (t.refusal? [.read] n).isNone
  else none

/-- Whether a walk goes on to what is in the place that the names `q` lead to: a directory that it can
open and that is not to be left out. -/
def Enters (e : Engine) (t : FileTree) (root : Bytes) (P q : Place) : Prop :=
  (opened? t root P q).any Node.isDirectory = true ∧
    e.excludes.matchesExclude (Path.absolute t.cwd (Path.under root q)) = false

/-- A walk that has come to what the names `q` lead to, from a root that leads to the directory at `P`,
comes to what the names `r` lead to from there: it exists, no name hides it, and the walk enters every
directory above it. -/
structure Reaches (e : Engine) (t : FileTree) (root : Bytes) (P q r : Place) : Prop where
  there : t.root.get? (P ++ (q ++ r)) ≠ none
  shown : ∀ name ∈ r, Path.startsWithDot name = false
  entered : ∀ above, above <+: r → above ≠ r → Enters e t root P (q ++ above)

/-- The names, in order, of the entries that a walk goes on to from the place that the names `q` lead
to. -/
structure Inside (e : Engine) (t : FileTree) (root : Bytes) (P q : Place) (names : List Bytes) :
    Prop where
  sorted : names.Pairwise (· < ·)
  mem_iff : ∀ x, x ∈ names ↔ Enters e t root P q ∧ Path.startsWithDot x = false ∧
    t.root.get? (P ++ (q ++ [x])) ≠ none

/-- What a walk counts as failed without handling it: a link, and whatever it cannot find or open. -/
def Refused (t : FileTree) (root : Bytes) (P q : Place) : Prop := opened? t root P q = none

section Reaches

variable {t : FileTree} {root : Bytes} {P q r : Place} {x : Bytes} {n : Node}

theorem Reaches.start (h : Reaches e t root P q r) : t.root.get? (P ++ q) ≠ none := by
  intro hnone
  refine h.there ?_
  rw [← List.append_assoc, get?_append, hnone, Option.bind_none]

theorem reaches_nil : Reaches e t root P q [] ↔ t.root.get? (P ++ q) ≠ none := by
  refine ⟨fun h => by simpa using h.there, fun h => ⟨by simpa using h, by simp, ?_⟩⟩
  intro above habove hne
  exact absurd (List.prefix_nil.mp habove) hne

theorem reaches_cons : Reaches e t root P q (x :: r) ↔
    Enters e t root P q ∧ Path.startsWithDot x = false ∧ Reaches e t root P (q ++ [x]) r := by
  constructor
  · intro h
    refine ⟨by simpa using h.entered [] List.nil_prefix (by simp), h.shown x (by simp), ?_, ?_, ?_⟩
    · simpa using h.there
    · exact fun name hname => h.shown name (List.mem_cons_of_mem _ hname)
    · intro above habove hne
      simpa using
        h.entered (x :: above) ((List.prefix_cons_inj x).mpr habove) (by simpa using hne)
  · rintro ⟨henter, hx, h⟩
    refine ⟨by simpa using h.there, List.forall_mem_cons.mpr ⟨hx, h.shown⟩, ?_⟩
    intro above habove hne
    cases above with
    | nil => simpa using henter
    | cons y above =>
      obtain ⟨rfl, hrest⟩ := List.cons_prefix_cons.mp habove
      simpa using h.entered above hrest (by simpa using hne)

instance (e : Engine) (t : FileTree) (root : Bytes) (P q : Place) :
    Decidable (Enters e t root P q) :=
  inferInstanceAs (Decidable (_ ∧ _))

instance (t : FileTree) (root : Bytes) (P q : Place) : Decidable (Refused t root P q) :=
  decidable_of_iff _ Option.isNone_iff_eq_none

instance decidableReaches (e : Engine) (t : FileTree) (root : Bytes) (P : Place) :
    (q r : Place) → Decidable (Reaches e t root P q r)
  | _, [] => decidable_of_iff (_ ≠ none) reaches_nil.symm
  | q, x :: r =>
    have := decidableReaches e t root P (q ++ [x]) r
    decidable_of_iff (_ ∧ _ ∧ _) reaches_cons.symm

end Reaches

section Step

variable {t : FileTree} {root : Bytes} {P q : Place} {n : Node} {s : Session}
  (hroot : Rooted t root P) (hnames : WellNamed t) (hs : InShape t s)
include hroot hnames hs

variable (hq : t.root.get? (P ++ q) = some n) (hlinks : e.options.followLinks = false)
include hq hlinks

end Step

section Below

variable {t : FileTree} {root : Bytes} {P q : Place} {n : Node} {s : Session}
  (hroot : Rooted t root P) (hnames : WellNamed t) (hs : InShape t s)
  (hlist : ∀ dir, e.unlistable dir = false)
include hroot hnames hs hlist

end Below

/-- A walk comes to what the names `q` lead to in a session on a tree of the same shape. -/
structure Arrives (t : FileTree) (root : Bytes) (P : Place) (a : Session × Bytes) (q : Place) :
    Prop where
  inShape : InShape t a.1
  path_eq : a.2 = Path.under root q
  there : t.root.get? (P ++ q) ≠ none

section Enumerates

variable {t : FileTree} {root : Bytes} {P : Place}

end Enumerates

end Session

end Linewise
