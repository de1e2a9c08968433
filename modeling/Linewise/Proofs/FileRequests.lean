import Linewise.Proofs.FreshNames

/-!
# Requests on the files of a directory

What creating, renaming, removing and changing the mode of a file do to the view of a tree, for
paths that name entries of one directory. No request of these can be refused there when the process
may write the directory.
-/

namespace Linewise.FileTree
open Node

/-- The view of a tree, the directory from which it is seen and whether by a privileged process. -/
structure Shows (t : FileTree) (privileged : Bool) (cwd : Bytes) (v : View) : Prop where
  privileged_eq : t.privileged = privileged
  cwd_eq : t.cwd = cwd
  view_eq : t.view = v

theorem Names.last_ne_slash {privileged : Bool} {cwd : Bytes} {v : View} {p : Bytes} {D : Place}
    {x : Bytes} (h : Names privileged cwd v p D x) : p.getLast? ≠ some Path.slash := by
  intro hlast
  obtain ⟨cs, k, htrail, -⟩ := h.route
  rw [trail, steps, if_pos (by simpa using hlast), ← List.append_assoc] at htrail
  exact h.isName.1 (by simpa using (List.append_inj' htrail rfl).2.symm)

namespace Shows

variable {t : FileTree} {privileged : Bool} {cwd : Bytes} {v : View} {D : Place} {p q x y : Bytes}
  {id mode : Nat} {content : Bytes}

theorem put (h : Shows t privileged cwd v) (hD : DirectoryAt v D) (hold : Ends (v (D ++ [x])))
    {o : Option Node} (ho : Ends o) :
    Shows (t.put (D ++ [x]) o) privileged cwd (Function.update v (D ++ [x]) o) := by
  obtain ⟨rfl, rfl, rfl⟩ := h
  exact ⟨rfl, rfl, view_put hD hold.not_directoryAt ho.map_label⟩

theorem putFile (h : Shows t privileged cwd v) (hD : DirectoryAt v D) (hold : Ends (v (D ++ [x])))
    (mode : Nat) (content : Bytes) :
    Shows (t.putFile (D ++ [x]) mode content) privileged cwd
      (Function.update v (D ++ [x]) (some (.file t.nextId mode content))) := by
  obtain ⟨hprivileged, hcwd, hview⟩ := h.put hD hold (ends_file t.nextId mode content)
  exact ⟨hprivileged, hcwd, hview⟩

theorem mayAlter (h : Shows t privileged cwd v) (hD : Admits .write privileged v D) :
    t.mayAlter D = true := by
  obtain ⟨rfl, rfl, rfl⟩ := h
  exact (mayAlter_iff hD.directory).mpr hD

theorem find_file (h : Shows t privileged cwd v) (hp : Names privileged cwd v p D x)
    (hx : v (D ++ [x]) = some (.file id mode content)) (follow : Bool) :
    t.find follow p = .ok (D ++ [x], .file id mode content) := by
  obtain ⟨rfl, rfl, rfl⟩ := h
  exact hp.find_file hx follow

theorem find_absent (h : Shows t privileged cwd v) (hp : Names privileged cwd v p D x)
    (hx : v (D ++ [x]) = none)
    (follow : Bool) : t.find follow p = .error .noEntry := by
  obtain ⟨rfl, rfl, rfl⟩ := h
  exact hp.find_absent hx follow

theorem resolve_absent (h : Shows t privileged cwd v) (hp : Names privileged cwd v p D x)
    (hx : v (D ++ [x]) = none)
    (follow : Bool) : t.resolve follow p = .ok (.absent D x) := by
  obtain ⟨rfl, rfl, rfl⟩ := h
  exact hp.resolve_absent hx follow

theorem resolve_file (h : Shows t privileged cwd v) (hp : Names privileged cwd v p D x)
    (hx : v (D ++ [x]) = some (.file id mode content)) (follow : Bool) :
    t.resolve follow p = .ok (.found (D ++ [x]) (.file id mode content)) := by
  obtain ⟨rfl, rfl, rfl⟩ := h
  exact hp.resolve_file hx follow

theorem openOrCreate (h : Shows t privileged cwd v) (hp : Names privileged cwd v p D x)
    (hD : Admits .write privileged v D) (hx : v (D ++ [x]) = none) (wanted : List Access)
    (mode : Nat) :
    t.openOrCreate wanted p mode = .ok (t.putFile (D ++ [x]) mode [], D ++ [x]) := by
  have hlast : ¬ (p.getLast? == some Path.slash) = true := by simpa using hp.last_ne_slash
  simp only [FileTree.openOrCreate, if_neg hlast, h.resolve_absent hp hx, if_pos (h.mayAlter hD)]

theorem createNew (h : Shows t privileged cwd v) (hp : Names privileged cwd v p D x)
    (hD : Admits .write privileged v D) (hx : v (D ++ [x]) = none) (mode : Nat) (content : Bytes) :
    t.createNew p mode content = .ok (t.putFile (D ++ [x]) mode content) := by
  rw [FileTree.createNew, h.resolve_absent hp hx]
  exact if_pos (h.mayAlter hD)

/-- A file goes to another name of its directory; a file that has the name is replaced. -/
theorem rename (h : Shows t privileged cwd v) (hp : Names privileged cwd v p D x)
    (hq : Names privileged cwd v q D y) (hD : Admits .write privileged v D) (hne : x ≠ y)
    (hx : v (D ++ [x]) = some (.file id mode content))
    (hy : Ends (v (D ++ [y]))) :
    ∃ t', t.rename p q = .ok t' ∧ Shows t' privileged cwd (Function.update
      (Function.update v (D ++ [x]) none) (D ++ [y]) (some (.file id mode content))) := by
  have hplace : D ++ [y] ≠ D ++ [x] := by simpa using hne.symm
  have hdir : DirectoryAt (Function.update v (D ++ [x]) none) D := by
    rw [DirectoryAt, Function.update_of_ne (by simp)]
    exact hp.directory
  have halter := h.mayAlter hD
  have hold : Ends (Function.update v (D ++ [x]) none (D ++ [y])) := by
    rwa [Function.update_of_ne hplace]
  refine ⟨(t.put (D ++ [x]) none).put (D ++ [y]) (some (.file id mode content)), ?_,
    (h.put hp.directory (hx.symm ▸ ends_file id mode content) ends_none).put hdir hold
      (ends_file id mode content)⟩
  rw [FileTree.rename, h.find_file hp hx]
  cases hv : v (D ++ [y]) with
  | none =>
    rw [h.resolve_absent hq hv]
    simp [halter]
  | some n =>
    cases n with
    | file id' mode' content' =>
      rw [h.resolve_file hq hv]
      simp [beq_eq_false_iff_ne.mpr hplace, halter]
    | directory | link | special =>
      rw [hv] at hy
      exact hy.elim

theorem changeMode (h : Shows t privileged cwd v) (hp : Names privileged cwd v p D x)
    (hx : v (D ++ [x]) = some (.file id mode content)) (mode' : Nat) :
    ∃ t', t.changeMode p mode' = .ok t' ∧
      Shows t' privileged cwd (Function.update v (D ++ [x]) (some (.file id mode' content))) := by
  refine ⟨_, ?_, h.put hp.directory (hx.symm ▸ ends_file id mode content)
    (ends_file id mode' content)⟩
  rw [FileTree.changeMode, h.find_file hp hx]
  rfl

theorem remove (h : Shows t privileged cwd v) (hp : Names privileged cwd v p D x)
    (hD : Admits .write privileged v D) (hx : v (D ++ [x]) = some (.file id mode content)) :
    ∃ t', t.remove p = .ok t' ∧ Shows t' privileged cwd (Function.update v (D ++ [x]) none) := by
  refine ⟨_, ?_, h.put hp.directory (hx.symm ▸ ends_file id mode content) ends_none⟩
  rw [FileTree.remove, h.find_file hp hx]
  simp [h.mayAlter hD]

/-- Whether there is a file or nothing, nothing is there afterwards. -/
theorem discard (h : Shows t privileged cwd v) (hp : Names privileged cwd v p D x)
    (hD : Admits .write privileged v D) (hx : Ends (v (D ++ [x]))) :
    Shows (t.discard p) privileged cwd (Function.update v (D ++ [x]) none) := by
  cases hv : v (D ++ [x]) with
  | none =>
    rw [FileTree.discard, FileTree.remove, h.find_absent hp hv, ← hv, Function.update_eq_self]
    exact h
  | some n =>
    cases n with
    | file id mode content =>
      obtain ⟨t', ht', hshows⟩ := h.remove hp hD hv
      rwa [FileTree.discard, ht']
    | directory | link | special =>
      rw [hv] at hx
      exact hx.elim

section Directory

variable {dir : Bytes} {k : Nat}

theorem find_directory (h : Shows t privileged cwd v) (hlegal : IsLegal dir)
    (hlead : Leads privileged v maxLinks [] (trail cwd dir) k D) :
    ∃ mode es, t.root.get? D = some (.directory mode es) ∧
      t.find true dir = .ok (D, .directory mode es) := by
  obtain ⟨rfl, rfl, rfl⟩ := h
  obtain ⟨mode, es, hes⟩ := Node.directoryAt_view.mp hlead.directory_end
  exact ⟨mode, es, hes, FileTree.find_directory hlegal hlead hes⟩

/-- The name that the search for a free one finds is free. -/
theorem freeNumber (h : Shows t privileged cwd v) (hlegal : IsLegal dir)
    (hlead : Leads privileged v maxLinks [] (trail cwd dir) k D) {nameOf : Nat → Bytes}
    (hinj : Function.Injective nameOf) :
    v (D ++ [nameOf (t.freeNumber dir nameOf)]) = none ∧
      t.freeNumber dir nameOf ≤ t.entryCount dir := by
  obtain ⟨_, es, hes, hfind⟩ := h.find_directory hlegal hlead
  obtain ⟨hfree, hle⟩ := freeNumber_spec hfind hinj
  refine ⟨?_, hle⟩
  rw [← h.view_eq]
  exact Node.view_eq_none.mpr ((Node.get?_child hes _).trans hfree)

theorem entryCount_putFile_le (h : Shows t privileged cwd v) (hlegal : IsLegal dir)
    (hlead : Leads privileged v maxLinks [] (trail cwd dir) k D) (hold : Ends (v (D ++ [x])))
    (mode : Nat)
    (content : Bytes) :
    (t.putFile (D ++ [x]) mode content).entryCount dir ≤ t.entryCount dir + 1 := by
  have hnew := h.putFile hlead.directory_end hold mode content
  have hlead' := hlead.calm ((Calm.refl v).update hold (some (.file t.nextId mode content)))
  obtain ⟨_, es, hes, hfind⟩ := h.find_directory hlegal hlead
  obtain ⟨_, es', hes', hfind'⟩ := hnew.find_directory hlegal hlead'
  have hget := Node.get?_alter_directory hes (fun _ => some (.file t.nextId mode content)) x
  obtain ⟨-, rfl⟩ : _ ∧ _ = es' := by simpa using hget.symm.trans hes'
  have hlen := Node.length_alterEntry_le (fun _ => some (.file t.nextId mode content)) x es
  simpa only [entryCount, hfind, hfind'] using hlen

end Directory

end Shows

end Linewise.FileTree
