import Linewise.FileTree.Change
import Mathlib

/-!
# What stands at the places of a file tree

A view of a tree tells what stands at every place, without what is below it. Setting or taking away
an entry that is no directory changes the view at one place only, so a run of requests on the files
of a directory is a run of updates of the view.
-/

namespace Linewise

/-- What stands at the places of a tree; a directory stands for itself, without its entries. -/
abbrev View := Place → Option Node

/-- A directory stands at a place. -/
def DirectoryAt (v : View) (q : Place) : Prop := ∃ mode, v q = some (.directory mode [])

/-- A directory stands at a place, and its mode grants an access. -/
def Admits (a : Access) (privileged : Bool) (v : View) (q : Place) : Prop :=
  ∃ mode, v q = some (.directory mode []) ∧ a.granted privileged mode = true

instance (a : Access) (privileged : Bool) (v : View) (q : Place) :
    Decidable (Admits a privileged v q) :=
  decidable_of_iff ((v q).any fun n =>
      match n with
      | .directory mode [] => a.granted privileged mode
      | _ => false) <| by
    rw [Admits, Option.any_eq_true]
    constructor
    · rintro ⟨n, hn, h⟩
      split at h
      next mode => exact ⟨mode, hn, h⟩
      next => cases h
    · rintro ⟨mode, hn, h⟩
      exact ⟨_, hn, h⟩

theorem Admits.directory {a : Access} {privileged : Bool} {v : View} {q : Place}
    (h : Admits a privileged v q) : DirectoryAt v q :=
  h.imp fun _ h => h.1

/-- What a view says about a directory holds of another view that has the same there. -/
theorem Admits.congr {a : Access} {privileged : Bool} {v w : View} {q : Place}
    (h : Admits a privileged v q) (hq : w q = v q) : Admits a privileged w q := by
  rwa [Admits, hq]

namespace Node

/-- A node without what is below it. -/
def label : Node → Node
  | directory mode _ => .directory mode []
  | n => n

@[simp] theorem mode_label (n : Node) : n.label.mode = n.mode := by
  cases n <;> rfl

/-- What stands at a place below a node. -/
def view (n : Node) : View := fun q => (n.get? q).map label

/-- A file or nothing: neither a directory nor a link, so that no path leads on from it. -/
def Ends : Option Node → Prop
  | none => True
  | some (file _ _ _) => True
  | some _ => False

theorem ends_none : Ends none := trivial

theorem ends_file (id mode : Nat) (content : Bytes) : Ends (some (.file id mode content)) := trivial

/-- Every directory and every link of one view stands in another one. -/
def Calm (v w : View) : Prop := ∀ q, ¬ Ends (v q) → w q = v q

theorem label_eq_directory {n : Node} {mode : Nat} :
    n.label = .directory mode [] ↔ ∃ es, n = .directory mode es := by
  cases n <;> simp [label]

theorem label_eq_link {n : Node} {target : Bytes} : n.label = .link target ↔ n = .link target := by
  cases n <;> simp [label]

theorem label_eq_file {n : Node} {id mode : Nat} {content : Bytes} :
    n.label = .file id mode content ↔ n = .file id mode content := by
  cases n <;> simp [label]

@[simp] theorem get?_nil (n : Node) : n.get? [] = some n := rfl

theorem get?_cons_directory (mode : Nat) (es : List (Bytes × Node)) (name : Bytes) (rest : Place) :
    (directory mode es).get? (name :: rest) = (es.lookup name).bind fun m => m.get? rest := by
  rw [get?, child?]
  cases es.lookup name <;> rfl

theorem get?_cons_of_not_directory {n : Node} (h : ∀ mode es, n ≠ .directory mode es) (name : Bytes)
    (rest : Place) : n.get? (name :: rest) = none := by
  cases n <;> simp_all [get?, child?]

theorem get?_append (n : Node) (p q : Place) :
    n.get? (p ++ q) = (n.get? p).bind fun m => m.get? q := by
  induction p generalizing n with
  | nil => rfl
  | cons name p ih =>
    rw [List.cons_append, get?, get?]
    cases n.child? name with
    | none => rfl
    | some m => exact ih m

theorem get?_child {n : Node} {p : Place} {mode : Nat} {es : List (Bytes × Node)}
    (h : n.get? p = some (.directory mode es)) (name : Bytes) :
    n.get? (p ++ [name]) = es.lookup name := by
  rw [get?_append, h, Option.bind_some, get?_cons_directory]
  cases es.lookup name <;> rfl

theorem view_eq_directory {n : Node} {q : Place} {mode : Nat} :
    n.view q = some (.directory mode []) ↔ ∃ es, n.get? q = some (.directory mode es) := by
  simp only [view, Option.map_eq_some_iff, label_eq_directory]
  constructor
  · rintro ⟨m, hm, es, rfl⟩
    exact ⟨es, hm⟩
  · rintro ⟨es, h⟩
    exact ⟨_, h, es, rfl⟩

theorem view_eq_link {n : Node} {q : Place} {target : Bytes} :
    n.view q = some (.link target) ↔ n.get? q = some (.link target) := by
  simp [view, label_eq_link]

theorem view_eq_file {n : Node} {q : Place} {id mode : Nat} {content : Bytes} :
    n.view q = some (.file id mode content) ↔ n.get? q = some (.file id mode content) := by
  simp [view, label_eq_file]

theorem directoryAt_view {n : Node} {q : Place} :
    DirectoryAt n.view q ↔ ∃ mode es, n.get? q = some (.directory mode es) :=
  exists_congr fun _ => view_eq_directory

theorem view_eq_none {n : Node} {q : Place} : n.view q = none ↔ n.get? q = none := by
  simp [view]

/-- Above a directory there are only directories. -/
theorem view_dropLast {n : Node} {q : Place} (h : DirectoryAt n.view q) :
    DirectoryAt n.view q.dropLast := by
  induction q using List.reverseRecOn with
  | nil => exact h
  | append_singleton q name _ =>
    rw [List.dropLast_concat]
    obtain ⟨mode, es, hes⟩ := directoryAt_view.mp h
    rw [get?_append] at hes
    cases hq : n.get? q with
    | none => simp [hq] at hes
    | some m =>
      rw [hq, Option.bind_some] at hes
      by_cases hm : ∃ mode ds, m = .directory mode ds
      · obtain ⟨mode, ds, rfl⟩ := hm
        exact directoryAt_view.mpr ⟨mode, ds, hq⟩
      · rw [get?_cons_of_not_directory (fun mode ds hds => hm ⟨mode, ds, hds⟩)] at hes
        simp at hes

theorem lookup_filter_ne (x y : Bytes) (es : List (Bytes × Node)) :
    (es.filter (·.1 != x)).lookup y = if y = x then none else es.lookup y := by
  induction es with
  | nil => simp
  | cons e es ih =>
    obtain ⟨k, m⟩ := e
    by_cases hk : k = x
    · subst hk
      by_cases hy : y = k
      · simpa [hy] using ih
      · simpa [hy, List.lookup_cons, beq_eq_false_iff_ne.mpr hy] using ih
    · rw [List.filter_cons_of_pos (by simpa using hk), List.lookup_cons, List.lookup_cons, ih]
      by_cases hy : y = x
      · subst hy
        simp [beq_eq_false_iff_ne.mpr (Ne.symm hk)]
      · simp [hy]

theorem lookup_alterEntry (f : Option Node → Option Node) (x y : Bytes)
    (es : List (Bytes × Node)) :
    (alterEntry f x es).lookup y = if y = x then f (es.lookup x) else es.lookup y := by
  induction es with
  | nil =>
    rw [alterEntry, List.lookup_nil]
    by_cases hy : y = x
    · subst hy
      cases f none <;> simp
    · rw [if_neg hy]
      cases f none <;> simp [List.lookup_cons, beq_eq_false_iff_ne.mpr hy]
  | cons e es ih =>
    obtain ⟨k, m⟩ := e
    rw [alterEntry]
    by_cases hk : k = x
    · subst hk
      rw [if_pos (beq_self_eq_true k), List.lookup_cons_self]
      cases f (some m) with
      | none =>
        rw [lookup_filter_ne]
        by_cases hy : y = k
        · rw [if_pos hy, if_pos hy]
        · rw [if_neg hy, if_neg hy, List.lookup_cons, beq_eq_false_iff_ne.mpr hy]
      | some m' =>
        by_cases hy : y = k
        · simp [hy]
        · rw [if_neg hy, List.lookup_cons, List.lookup_cons, beq_eq_false_iff_ne.mpr hy]
    · rw [if_neg (by simpa using hk), List.lookup_cons, ih, List.lookup_cons, List.lookup_cons,
        beq_eq_false_iff_ne.mpr (Ne.symm hk)]
      by_cases hy : y = k
      · subst hy
        simp [hk]
      · simp [beq_eq_false_iff_ne.mpr hy]

theorem length_alterEntry_le (f : Option Node → Option Node) (x : Bytes)
    (es : List (Bytes × Node)) : (alterEntry f x es).length ≤ es.length + 1 := by
  induction es with
  | nil =>
    rw [alterEntry]
    cases f none <;> simp
  | cons e es ih =>
    obtain ⟨k, m⟩ := e
    rw [alterEntry]
    split
    · split
      · simp
      · have := List.length_filter_le (fun e => e.1 != x) es
        simp only [List.length_cons]
        omega
    · simpa using ih

theorem alter_cons_directory (f : Option Node → Option Node) (mode : Nat)
    (es : List (Bytes × Node)) (d : Bytes) (D : Place) (x : Bytes) :
    (directory mode es).alter f (d :: (D ++ [x])) =
      .directory mode (alterEntry (Option.map fun m => m.alter f (D ++ [x])) d es) := by
  cases D <;> rfl

theorem get?_alter_directory {n : Node} {D : Place} {mode : Nat} {es : List (Bytes × Node)}
    (h : n.get? D = some (.directory mode es)) (f : Option Node → Option Node) (x : Bytes) :
    (n.alter f (D ++ [x])).get? D = some (.directory mode (alterEntry f x es)) := by
  induction D generalizing n with
  | nil =>
    obtain rfl : n = .directory mode es := by simpa using h
    rfl
  | cons d D ih =>
    cases n with
    | directory _ ds =>
      rw [get?_cons_directory] at h
      obtain ⟨m, hm, hes⟩ := Option.bind_eq_some_iff.mp h
      rw [List.cons_append, alter_cons_directory, get?_cons_directory, lookup_alterEntry,
        if_pos rfl, hm, Option.map_some, Option.bind_some]
      exact ih hes
    | file | link | special => simp [get?, child?] at h

theorem Ends.map_label {o : Option Node} (h : Ends o) : o.map label = o := by
  cases o with
  | none => rfl
  | some n => cases n <;> first | rfl | exact h.elim

theorem Ends.not_directoryAt {v : View} {q : Place} (h : Ends (v q)) : ¬ DirectoryAt v q := by
  rintro ⟨mode, hq⟩
  rwa [hq] at h

/-- Below a node that stands for itself there is nothing. -/
theorem get?_below_of_label {o : Option Node} (h : o.map label = o) (name : Bytes) (rest : Place) :
    (o.bind fun m => m.get? (name :: rest)) = none := by
  cases o with
  | none => rfl
  | some n =>
    cases n with
    | directory mode es =>
      obtain rfl : [] = es := by simpa [label] using h
      rfl
    | file | link | special => rfl

/-- A calm change leaves directories and links alone. -/
theorem Calm.keeps {v w : View} (h : Calm v w) {q : Place} {n : Node} (hq : v q = some n)
    (hn : n.isDirectory = true ∨ n.isLink = true) : w q = v q := by
  refine h q fun hends => ?_
  rw [hq] at hends
  cases n with
  | directory | link => exact hends
  | file | special => simp [isDirectory, isLink] at hn

theorem Calm.refl (v : View) : Calm v v := fun _ _ => rfl

theorem Calm.update {v w : View} (h : Calm v w) {q : Place} (hq : Ends (v q)) (o : Option Node) :
    Calm v (Function.update w q o) := by
  intro p hp
  rw [Function.update_of_ne, h p hp]
  rintro rfl
  exact hp hq

/-- What stands at one place may change when every way ended there. -/
theorem Calm.of_update_update (v : View) {q : Place} {o : Option Node} (ho : Ends o)
    (o' : Option Node) : Calm (Function.update v q o) (Function.update v q o') := by
  intro p hp
  have hpq : p ≠ q := by
    rintro rfl
    rw [Function.update_self] at hp
    exact hp ho
  rw [Function.update_of_ne hpq, Function.update_of_ne hpq]

theorem Calm.of_update (v : View) {q : Place} {o : Option Node} (ho : Ends o) :
    Calm (Function.update v q o) v := by
  have h := Calm.of_update_update v (q := q) ho (v q)
  rwa [Function.update_eq_self] at h

/-- Changing an entry leaves alone what is neither the entry nor below it. -/
theorem view_alter_of_not_below (f : Option Node → Option Node) {n : Node} {P q : Place}
    (h : ¬ P <+: q) : (n.alter f P).view q = n.view q := by
  induction P generalizing n q with
  | nil => exact absurd q.nil_prefix h
  | cons x P ih =>
    cases n with
    | directory mode es =>
      cases q with
      | nil => cases P <;> rfl
      | cons y rest =>
        have hbelow {f' : Option Node → Option Node}
            (hself : y = x → ((f' (es.lookup x)).bind fun m => m.get? rest).map label =
              ((es.lookup x).bind fun m => m.get? rest).map label) :
            (directory mode (alterEntry f' x es)).view (y :: rest) =
              (directory mode es).view (y :: rest) := by
          rw [view, view, get?_cons_directory, get?_cons_directory, lookup_alterEntry]
          split
          next hy => rw [hself hy, hy]
          next => rfl
        cases P with
        | nil =>
          apply hbelow
          rintro rfl
          simp at h
        | cons z P =>
          apply hbelow
          rintro rfl
          have hrest : ¬ (z :: P) <+: rest := by simpa using h
          cases es.lookup y with
          | none => rfl
          | some m => exact ih hrest
    | file | link | special => cases P <;> rfl

/-- Changing an entry without changing what is below it changes what stands at its place. -/
theorem view_alter_of_below {n : Node} {D : Place} {x : Bytes} {o : Option Node}
    (hD : DirectoryAt n.view D)
    (hbelow : ∀ name rest, (o.bind fun m => m.get? (name :: rest)) =
      (n.get? (D ++ [x])).bind fun m => m.get? (name :: rest)) :
    (n.alter (fun _ => o) (D ++ [x])).view = Function.update n.view (D ++ [x]) (o.map label) := by
  obtain ⟨mode, es, hes⟩ := directoryAt_view.mp hD
  have hself : (n.alter (fun _ => o) (D ++ [x])).get? (D ++ [x]) = o := by
    rw [get?_child (get?_alter_directory hes _ x), lookup_alterEntry, if_pos rfl]
  funext q
  by_cases hq : D ++ [x] <+: q
  · obtain ⟨rest, rfl⟩ := hq
    cases rest with
    | nil => rw [List.append_nil, view, hself, Function.update_self]
    | cons name rest =>
      rw [Function.update_of_ne (by simp), view, view, get?_append, get?_append _ (D ++ [x]), hself,
        hbelow]
  · rw [view_alter_of_not_below _ hq, Function.update_of_ne]
    rintro rfl
    exact hq (List.prefix_refl _)

/-- Setting or taking away an entry that is no directory changes what stands at its place. A directory
that is set is an empty one. -/
theorem view_alter {n : Node} {D : Place} {x : Bytes} {o : Option Node}
    (hD : DirectoryAt n.view D) (hold : ¬ DirectoryAt n.view (D ++ [x])) (ho : o.map label = o) :
    (n.alter (fun _ => o) (D ++ [x])).view = Function.update n.view (D ++ [x]) o := by
  rw [view_alter_of_below hD, ho]
  intro name rest
  rw [get?_below_of_label ho]
  cases hget : n.get? (D ++ [x]) with
  | none => rfl
  | some m =>
    refine (get?_cons_of_not_directory (fun mode es hm => hold ?_) name rest).symm
    exact directoryAt_view.mpr ⟨mode, es, hm ▸ hget⟩

mutual

/-- Whether a check succeeds on the name and the node of every entry below a node. -/
def allEntries (check : Bytes → Node → Bool) : Node → Bool
  | directory _ es => allIn check es
  | _ => true

def allIn (check : Bytes → Node → Bool) : List (Bytes × Node) → Bool
  | [] => true
  | (name, n) :: rest => check name n && n.allEntries check && allIn check rest

end

theorem check_of_allIn {check : Bytes → Node → Bool} {es : List (Bytes × Node)}
    (h : allIn check es = true) {name : Bytes} {n : Node} (hn : es.lookup name = some n) :
    check name n = true ∧ n.allEntries check = true := by
  induction es with
  | nil => simp at hn
  | cons entry rest ih =>
    obtain ⟨k, m⟩ := entry
    simp only [allIn, Bool.and_eq_true] at h
    by_cases hk : name = k
    · obtain rfl : m = n := by simpa [hk] using hn
      exact hk ▸ h.1
    · rw [List.lookup_cons, beq_eq_false_iff_ne.mpr hk] at hn
      exact ih h.2 hn

theorem check_of_allEntries {check : Bytes → Node → Bool} {n : Node}
    (h : n.allEntries check = true) {place : Place} {name : Bytes} {m : Node}
    (hm : n.get? (place ++ [name]) = some m) : check name m = true := by
  induction place generalizing n with
  | nil =>
    cases n with
    | directory mode es =>
      rw [List.nil_append, get?_cons_directory] at hm
      obtain ⟨m', hlookup, hm'⟩ := Option.bind_eq_some_iff.mp hm
      obtain rfl : m' = m := by simpa using hm'
      exact (check_of_allIn h hlookup).1
    | file | link | special => simp [get?, child?] at hm
  | cons x place ih =>
    cases n with
    | directory mode es =>
      rw [List.cons_append, get?_cons_directory] at hm
      obtain ⟨m', hlookup, hm'⟩ := Option.bind_eq_some_iff.mp hm
      exact ih (check_of_allIn h hlookup).2 hm'
    | file | link | special => simp [get?, child?] at hm

end Node

theorem Admits.calm {a : Access} {privileged : Bool} {v w : View} {q : Place}
    (h : Admits a privileged v q) (hw : Node.Calm v w) : Admits a privileged w q :=
  h.congr (hw.keeps h.choose_spec.1 (.inl rfl))

namespace FileTree

/-- The process stays who it is and where it is. -/
def SameProcess (t t' : FileTree) : Prop := t'.cwd = t.cwd ∧ t'.privileged = t.privileged

@[refl] theorem SameProcess.refl (t : FileTree) : SameProcess t t := ⟨rfl, rfl⟩

theorem SameProcess.trans {t t' t'' : FileTree} (h : SameProcess t t') (h' : SameProcess t' t'') :
    SameProcess t t'' :=
  ⟨h'.1.trans h.1, h'.2.trans h.2⟩

theorem sameProcess_put (t : FileTree) (P : Place) (o : Option Node) : SameProcess t (t.put P o) :=
  ⟨rfl, rfl⟩

/-- What stands at the places of the tree. -/
def view (t : FileTree) : View := t.root.view

theorem view_put {t : FileTree} {D : Place} {x : Bytes} {o : Option Node}
    (hD : DirectoryAt t.view D) (hold : ¬ DirectoryAt t.view (D ++ [x]))
    (ho : o.map Node.label = o) : (t.put (D ++ [x]) o).view = Function.update t.view (D ++ [x]) o :=
  Node.view_alter hD hold ho

/-- Entries of a directory that the process may write can be made and taken away. -/
theorem mayAlter_iff {t : FileTree} {D : Place} (hD : DirectoryAt t.view D) :
    t.mayAlter D = true ↔ Admits .write t.privileged t.view D := by
  obtain ⟨mode, es, hes⟩ := Node.directoryAt_view.mp hD
  have hview : t.view D = some (.directory mode []) := Node.view_eq_directory.mpr ⟨es, hes⟩
  rw [mayAlter, hes, Admits, hview]
  simp [grants, Node.mode]

end FileTree

end Linewise
