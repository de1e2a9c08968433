import Linewise.Proofs.ReplacementFrames

/-!
# Trees with distinct names

In a file tree no two entries of a directory have the same name. Every request keeps it so, and with
them every replacement of a file.
-/

namespace Linewise

namespace Node

mutual

/-- Whether the entries of every directory have distinct names. -/
def isOrderly : Node → Bool
  | directory _ es => decide (es.map Prod.fst).Nodup && areOrderly es
  | _ => true

def areOrderly : List (Bytes × Node) → Bool
  | [] => true
  | (_, n) :: rest => n.isOrderly && areOrderly rest

end

theorem areOrderly_iff {es : List (Bytes × Node)} :
    areOrderly es = true ↔ ∀ entry ∈ es, entry.2.isOrderly = true := by
  induction es with
  | nil => simp [areOrderly]
  | cons entry rest ih => rw [areOrderly, Bool.and_eq_true, ih, List.forall_mem_cons]

theorem isOrderly_directory {mode : Nat} {es : List (Bytes × Node)} :
    (directory mode es).isOrderly = true ↔
      (es.map Prod.fst).Nodup ∧ ∀ entry ∈ es, entry.2.isOrderly = true := by
  rw [isOrderly, Bool.and_eq_true, decide_eq_true_iff, areOrderly_iff]

theorem mem_of_lookup {es : List (Bytes × Node)} {name : Bytes} {n : Node}
    (h : es.lookup name = some n) : (name, n) ∈ es := by
  obtain ⟨above, below, rfl, -⟩ := List.lookup_eq_some_iff.mp h
  simp

theorem isOrderly_get? {n m : Node} {place : Place} (h : n.isOrderly = true)
    (hm : n.get? place = some m) : m.isOrderly = true := by
  induction place generalizing n with
  | nil =>
    obtain rfl : n = m := by simpa using hm
    exact h
  | cons name rest ih =>
    cases n with
    | directory mode es =>
      rw [get?_cons_directory] at hm
      obtain ⟨child, hchild, hm⟩ := Option.bind_eq_some_iff.mp hm
      exact ih ((isOrderly_directory.mp h).2 _ (mem_of_lookup hchild)) hm
    | file | link | special => simp [get?, child?] at hm

section Alter

variable {f : Option Node → Option Node} {name : Bytes}

/-- An entry after a change was there before, or it is what the change made of the entry with its
name. -/
theorem mem_alterEntry {es : List (Bytes × Node)} {entry : Bytes × Node}
    (h : entry ∈ alterEntry f name es) :
    entry ∈ es ∨ entry.1 = name ∧ ∃ o, f o = some entry.2 ∧ ∀ n, o = some n → (name, n) ∈ es := by
  induction es with
  | nil =>
    obtain ⟨m, hm, rfl⟩ : ∃ m, f none = some m ∧ (name, m) = entry := by
      simpa [alterEntry] using h
    exact .inr ⟨rfl, none, hm, by simp⟩
  | cons head rest ih =>
    obtain ⟨k, n⟩ := head
    by_cases hk : k = name
    · subst hk
      cases hf : f (some n) with
      | none =>
        simp only [alterEntry, beq_self_eq_true, ↓reduceIte, hf, List.mem_filter] at h
        exact .inl (List.mem_cons_of_mem _ h.1)
      | some m =>
        simp only [alterEntry, beq_self_eq_true, ↓reduceIte, hf, List.mem_cons] at h
        rcases h with rfl | h
        · exact .inr ⟨rfl, some n, hf, by simp⟩
        · exact .inl (List.mem_cons_of_mem _ h)
    · simp only [alterEntry, beq_eq_false_iff_ne.mpr hk, Bool.false_eq_true, ↓reduceIte,
        List.mem_cons] at h
      rcases h with rfl | h
      · exact .inl List.mem_cons_self
      · rcases ih h with h | ⟨hname, o, ho, hin⟩
        · exact .inl (List.mem_cons_of_mem _ h)
        · exact .inr ⟨hname, o, ho, fun n hn => List.mem_cons_of_mem _ (hin n hn)⟩

theorem nodup_alterEntry {es : List (Bytes × Node)} (h : (es.map Prod.fst).Nodup) :
    ((alterEntry f name es).map Prod.fst).Nodup := by
  induction es with
  | nil => cases hf : f none <;> simp [alterEntry, hf]
  | cons head rest ih =>
    obtain ⟨k, n⟩ := head
    obtain ⟨hk, hrest⟩ := List.nodup_cons.mp h
    by_cases hkn : k = name
    · subst hkn
      cases hf : f (some n) with
      | none =>
        simp only [alterEntry, beq_self_eq_true, ↓reduceIte, hf]
        exact hrest.sublist (List.filter_sublist.map _)
      | some m =>
        simp only [alterEntry, beq_self_eq_true, ↓reduceIte, hf]
        exact h
    · simp only [alterEntry, beq_eq_false_iff_ne.mpr hkn, Bool.false_eq_true, ↓reduceIte]
      refine List.nodup_cons.mpr ⟨fun hmem => ?_, ih hrest⟩
      obtain ⟨entry, hentry, hkey⟩ := List.mem_map.mp hmem
      rcases mem_alterEntry hentry with hold | ⟨hname, -⟩
      · exact hk (hkey ▸ List.mem_map_of_mem hold)
      · exact hkn (hkey.symm.trans hname)

theorem isOrderly_alterEntry {mode : Nat} {es : List (Bytes × Node)}
    (h : (directory mode es).isOrderly = true)
    (hf : ∀ o m, (∀ n, o = some n → n.isOrderly = true) → f o = some m → m.isOrderly = true) :
    (directory mode (alterEntry f name es)).isOrderly = true := by
  obtain ⟨hnames, hentries⟩ := isOrderly_directory.mp h
  refine isOrderly_directory.mpr ⟨nodup_alterEntry hnames, fun entry hentry => ?_⟩
  rcases mem_alterEntry hentry with hold | ⟨-, o, ho, hin⟩
  · exact hentries entry hold
  · exact hf o entry.2 (fun n hn => hentries _ (hin n hn)) ho

theorem isOrderly_alter {n : Node} {o : Option Node} (h : n.isOrderly = true)
    (ho : ∀ m, o = some m → m.isOrderly = true) (place : Place) :
    (n.alter (fun _ => o) place).isOrderly = true := by
  induction place generalizing n with
  | nil => cases n <;> exact h
  | cons name rest ih =>
    cases n with
    | directory mode es =>
      cases rest with
      | nil => exact isOrderly_alterEntry h fun _ m _ hm => ho m hm
      | cons next rest =>
        refine isOrderly_alterEntry h fun old m hold hm => ?_
        obtain ⟨n, rfl, rfl⟩ := Option.map_eq_some_iff.mp hm
        exact ih (hold n rfl)
    | file | link | special => cases rest <;> exact h

end Alter

theorem isOrderly_withMode (n : Node) (mode : Nat) : (n.withMode mode).isOrderly = n.isOrderly := by
  cases n <;> rfl

theorem names_writeEntries (id : Nat) (content : Bytes) (es : List (Bytes × Node)) :
    (writeEntries id content es).map Prod.fst = es.map Prod.fst := by
  induction es with
  | nil => rfl
  | cons entry rest ih => rw [writeEntries, List.map_cons, List.map_cons, ih]

mutual

theorem isOrderly_writeFiles (id : Nat) (content : Bytes) :
    (n : Node) → (n.writeFiles id content).isOrderly = n.isOrderly
  | directory _ es => by
    rw [writeFiles, isOrderly, isOrderly, names_writeEntries, areOrderly_writeEntries]
  | file _ _ _ => rfl
  | link _ => rfl
  | special _ _ _ => rfl

theorem areOrderly_writeEntries (id : Nat) (content : Bytes) :
    (es : List (Bytes × Node)) → areOrderly (writeEntries id content es) = areOrderly es
  | [] => rfl
  | (_, n) :: rest => by
    rw [writeEntries, areOrderly, areOrderly, isOrderly_writeFiles id content n,
      areOrderly_writeEntries id content rest]

end

end Node

namespace FileTree
open Node

variable {t t' : FileTree}

/-- In every directory of the tree the names are distinct. -/
def Orderly (t : FileTree) : Prop := t.root.isOrderly = true

theorem Orderly.put (h : Orderly t) {o : Option Node} (ho : ∀ m, o = some m → m.isOrderly = true)
    (place : Place) : Orderly (t.put place o) :=
  isOrderly_alter h ho place

theorem Orderly.putFile (h : Orderly t) (place : Place) (mode : Nat) (content : Bytes) :
    Orderly (t.putFile place mode content) :=
  isOrderly_alter h (by rintro _ ⟨rfl⟩; rfl) place

theorem Orderly.writeIdentity (h : Orderly t) (id : Nat) (content : Bytes) :
    Orderly (t.writeIdentity id content) := by
  rwa [Orderly, FileTree.writeIdentity, isOrderly_writeFiles]

theorem Orderly.openOrCreate (h : Orderly t) {wanted : List Access} {path : Bytes} {mode : Nat}
    {place : Place} (hok : t.openOrCreate wanted path mode = .ok (t', place)) : Orderly t' := by
  obtain ⟨rfl, -⟩ | ⟨D, x, -, -, -, rfl⟩ := openOrCreate_ok hok
  · exact h
  · exact h.putFile _ mode []

theorem Orderly.createNew (h : Orderly t) {path content : Bytes} {mode : Nat}
    (hok : t.createNew path mode content = .ok t') : Orderly t' := by
  obtain ⟨D, x, -, -, rfl⟩ := createNew_ok hok
  exact h.putFile _ mode content

theorem Orderly.changeMode (h : Orderly t) {path : Bytes} {mode : Nat}
    (hok : t.changeMode path mode = .ok t') : Orderly t' := by
  obtain ⟨P, n, hfind, rfl⟩ := changeMode_ok hok
  have hn := isOrderly_get? h (get?_of_find hfind)
  refine h.put ?_ P
  rintro _ ⟨rfl⟩
  rwa [isOrderly_withMode]

theorem Orderly.rename (h : Orderly t) {old new : Bytes} (hok : t.rename old new = .ok t') :
    Orderly t' := by
  obtain ⟨source, n, d, hfind, -, -, ⟨-, rfl⟩ | ⟨-, -, rfl⟩⟩ := rename_ok hok
  · exact h
  · have hn := isOrderly_get? h (get?_of_find hfind)
    exact (h.put (by simp) source).put (by rintro _ ⟨rfl⟩; exact hn) d.place

theorem Orderly.remove (h : Orderly t) {path : Bytes} (hok : t.remove path = .ok t') :
    Orderly t' := by
  obtain ⟨P, n, -, -, -, rfl⟩ := remove_ok hok
  exact h.put (by simp) P

end FileTree

/-- Replacing a file keeps names distinct, whatever calls fail. -/
theorem Replacement.orderly_run {t : FileTree} (h : t.Orderly) (f : Faults) (path data : Bytes) :
    (run t f path data).1.tree.Orderly :=
  keeps_run h (fun _ _ _ => {
    openOrCreate := fun h hok => h.openOrCreate hok
    createNew := fun h hok => h.createNew hok
    changeMode := fun h hok => h.changeMode hok
    rename := fun h _ _ hok => h.rename hok
    remove := fun h hok => h.remove hok }) f data

end Linewise
