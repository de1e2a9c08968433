import Linewise.Proofs.ReplacementEndings

/-!
# Replacements that stop halfway

A replacement can be stopped between any two of its calls. Whatever calls failed before, and
whatever stands at the path of the lock, the old file is then in place or in the backup, or the new
file is complete and has the mode of the old one; and no other content is ever in place.
-/

namespace Linewise.Replacement
open FileTree Node Site

/-- What may stand at the place of the file and at that of its backup, wherever a replacement of
`old` by `data` is stopped. -/
structure Recoverable (id mode : Nat) (old data : Bytes) (file saved : Option Node) : Prop where
  kept : file = some (.file id mode old) ∨ saved = some (.file id mode old) ∨
    ∃ newId, file = some (.file newId mode data)
  whole : ∀ n, file = some n → n = .file id mode old ∨ ∃ newId newMode, n = .file newId newMode data

section Recoverable

variable {id mode : Nat} {old data : Bytes}

theorem recoverable_of_kept (saved : Option Node) :
    Recoverable id mode old data (some (.file id mode old)) saved :=
  ⟨.inl rfl, fun _ hn => .inl (Option.some.inj hn).symm⟩

theorem recoverable_of_gone : Recoverable id mode old data none (some (.file id mode old)) :=
  ⟨.inr (.inl rfl), fun _ hn => by simp at hn⟩

theorem recoverable_of_saved (newId newMode : Nat) :
    Recoverable id mode old data (some (.file newId newMode data)) (some (.file id mode old)) :=
  ⟨.inr (.inl rfl), fun _ hn => .inr ⟨newId, newMode, (Option.some.inj hn).symm⟩⟩

theorem recoverable_of_replaced (newId : Nat) (saved : Option Node) :
    Recoverable id mode old data (some (.file newId mode data)) saved :=
  ⟨.inr (.inr ⟨newId, rfl⟩), fun _ hn => .inr ⟨newId, mode, (Option.some.inj hn).symm⟩⟩

end Recoverable

/-- Something holds of the tree of a course now and after every change before. -/
def Throughout (P : FileTree → Prop) (c : Course) : Prop := ∀ t ∈ c.tree :: c.past, P t

section Throughout

variable {P : FileTree → Prop} {f : Faults} {c : Course} {fault : Bool} {step : Call}
  {act : Except PathError FileTree}

theorem Throughout.moveTo (h : Throughout P c) {t : FileTree} (ht : P t) :
    Throughout P (c.moveTo t) := by
  intro t' ht'
  rcases List.mem_cons.mp ht' with rfl | ht'
  · exact ht
  · exact h t' ht'

/-- A call adds at most the tree that it answers. -/
theorem Throughout.call (h : Throughout P c) (hnow : P (c.call fault step act).1.tree) :
    Throughout P (c.call fault step act).1 := by
  unfold Course.call at hnow ⊢
  cases fault with
  | true => exact h
  | false =>
    cases act with
    | error e => exact h
    | ok t => exact h.moveTo hnow

theorem Throughout.tried (h : Throughout P c) {privileged : Bool} {cwd : Bytes}
    {v w : View} (htried : Tried f c step privileged cwd v w (c.call fault step act))
    (hstruck : ∀ t, Shows t privileged cwd v → P t) (hmade : ∀ t, Shows t privileged cwd w → P t) :
    Throughout P (c.call fault step act).1 := by
  apply h.call
  generalize c.call fault step act = out at htried
  cases htried with
  | struck c' hshows => exact hstruck _ hshows
  | made c' hshows => exact hmade _ hshows

/-- When the file cannot be moved aside, at most the new file is taken away again. -/
theorem Throughout.swap_blocked (h : Throughout P c) {privileged : Bool} {cwd path temp backup : Bytes}
    {v : View} {mode : Nat} (hblocked : Blocked privileged cwd v path temp backup c.tree)
    (hshows : ∀ t, Shows t privileged cwd v → P t) :
    Throughout P (swap c f path temp backup mode).1 := by
  obtain ⟨⟨e, hrename⟩, -, t, hremove, ht⟩ := hblocked
  obtain ⟨failed, hfails⟩ :=
    call_error c (f.rename (c.next Course.isRename)) (.rename path backup) e
  rw [swap, Course.rename, hrename, hfails]
  simp only [Course.remove, hremove]
  generalize hc' : ({ c with calls := .rename path backup :: c.calls } : Course) = c'
  have h' : Throughout P c' := by
    subst hc'
    exact h
  apply h'.call
  unfold Course.call
  split
  · exact h' _ List.mem_cons_self
  · exact hshows t ht

end Throughout

/-- A moment of the replacement of the file at `r`, whose directory is at `D` and whose backup has
the number `k`: the file is recoverable, and the paths beside it lead where they did. -/
structure Moment (r : Bytes) (D : Place) (k id mode : Nat) (old data : Bytes) (t : FileTree) :
    Prop where
  beside : Beside t.privileged t.cwd t.view r D
  recoverable : Recoverable id mode old data (t.view (D ++ [Path.base r]))
    (t.view (D ++ [backupName (Path.base r) k]))

/-- A site at the file `r`, with the backup of the number `k`. -/
structure Site.At (s : Site) (u : View) (r : Bytes) (D : Place) (k : Nat) : Prop where
  valid : s.Valid u
  beside : Beside s.privileged s.cwd u r D
  file_eq : s.file = D ++ [Path.base r]
  saved_eq : s.saved = D ++ [Replacement.backupName (Path.base r) k]

section Calls

variable {s : Site} {u : View} {r : Bytes} {D : Place} {k id mode : Nat} {old data : Bytes}
  {f : Faults} {c : Course} {x y z : Option Node}

theorem Site.At.moment (hs : s.At u r D k) (hxz : Recoverable id mode old data x z) (t : FileTree)
    (h : Shows t s.privileged s.cwd (s.arrange u x y z)) : Moment r D k id mode old data t := by
  have hfile : t.view (D ++ [Path.base r]) = x := by
    rw [h.view_eq, ← hs.file_eq, arrange_file hs.valid]
  have hsaved : t.view (D ++ [Replacement.backupName (Path.base r) k]) = z := by
    rw [h.view_eq, ← hs.saved_eq, arrange_saved]
  refine ⟨?_, hfile.symm ▸ hsaved.symm ▸ hxz⟩
  rw [h.privileged_eq, h.cwd_eq, h.view_eq]
  exact hs.beside.calm (calm_arrange hs.valid x y z)

theorem removeTemp_throughout (hs : s.At u r D k)
    (h : Shows c.tree s.privileged s.cwd (s.arrange u x y z))
    (hxz : Recoverable id mode old data x z) (hy : Ends y)
    (hall : Throughout (Moment r D k id mode old data) c) :
    ∃ c' failed y', c.remove f s.temp = (c', failed) ∧
      Shows c'.tree s.privileged s.cwd (s.arrange u x y' z) ∧
        Throughout (Moment r D k id mode old data) c' := by
  obtain ⟨c', failed, y', -, hremove, hshows, -⟩ := removeTemp_spec hs.valid f h hy
  have hnow : Moment r D k id mode old data (c.remove f s.temp).1.tree := by
    rw [hremove]
    exact hs.moment hxz _ hshows
  have hlater : Throughout (Moment r D k id mode old data) (c.remove f s.temp).1 := hall.call hnow
  rw [hremove] at hlater
  exact ⟨c', failed, y', hremove, hshows, hlater⟩

theorem restore_throughout (hs : s.At u r D k)
    (h : Shows c.tree s.privileged s.cwd (s.arrange u x y (some (.file id mode old))))
    (hxz : Recoverable id mode old data x (some (.file id mode old))) (hx : Ends x) (hy : Ends y)
    (hall : Throughout (Moment r D k id mode old data) c) (cause : Error) :
    Throughout (Moment r D k id mode old data) (restore c f s.path s.temp s.backup cause).1 := by
  obtain ⟨c₁, failed, y₁, hremove, hshows₁, hall₁⟩ := removeTemp_throughout hs h hxz hy hall
  have htried := tried_bringBack hs.valid f hshows₁ hx
  have hall₂ : Throughout _ (c₁.rename f s.backup s.path).1 :=
    hall₁.tried htried (hs.moment hxz) (hs.moment (recoverable_of_kept none))
  rw [restore, hremove]
  simp only
  generalize c₁.rename f s.backup s.path = out at htried hall₂ ⊢
  cases htried with
  | struck | made => exact hall₂

theorem finish_throughout (hs : s.At u r D k) {newId newMode : Nat}
    (h : Shows c.tree s.privileged s.cwd (s.arrange u (some (.file newId newMode data)) none
      (some (.file id mode old)))) (hall : Throughout (Moment r D k id mode old data) c) :
    Throughout (Moment r D k id mode old data) (finish c f s.path s.temp s.backup mode).1 := by
  have hsaved : Recoverable id mode old data _ _ := recoverable_of_saved newId newMode
  have htried := tried_changeMode hs.valid f h mode
  have hall₁ : Throughout _ (c.changeMode f s.path mode).1 :=
    hall.tried htried (hs.moment hsaved) (hs.moment (recoverable_of_replaced newId _))
  rw [finish]
  generalize c.changeMode f s.path mode = out at htried hall₁ ⊢
  cases htried with
  | struck c₁ hshows₁ =>
    exact restore_throughout hs hshows₁ hsaved (ends_file _ _ _) ends_none hall₁ _
  | made c₁ hshows₁ =>
    have htried := tried_removeBackup hs.valid f hshows₁
    have hall₂ : Throughout _ (c₁.remove f s.backup).1 :=
      Throughout.tried hall₁ htried (hs.moment (recoverable_of_replaced newId _))
        (hs.moment (recoverable_of_replaced newId none))
    simp only
    generalize c₁.remove f s.backup = out at htried hall₂ ⊢
    cases htried with
    | struck | made => exact hall₂

theorem moveIn_throughout (hs : s.At u r D k) {newId newMode : Nat}
    (h : Shows c.tree s.privileged s.cwd (s.arrange u none (some (.file newId newMode data))
      (some (.file id mode old)))) (hall : Throughout (Moment r D k id mode old data) c) :
    Throughout (Moment r D k id mode old data) (moveIn c f s.path s.temp s.backup mode).1 := by
  have htried := tried_moveIn hs.valid f h ends_none
  have hall₁ : Throughout _ (c.rename f s.temp s.path).1 :=
    hall.tried htried (hs.moment recoverable_of_gone)
      (hs.moment (recoverable_of_saved newId newMode))
  rw [moveIn]
  generalize c.rename f s.temp s.path = out at htried hall₁ ⊢
  cases htried with
  | struck c₁ hshows₁ =>
    exact restore_throughout hs hshows₁ recoverable_of_gone ends_none (ends_file _ _ _) hall₁ _
  | made c₁ hshows₁ => exact finish_throughout hs hshows₁ hall₁

theorem swap_throughout (hs : s.At u r D k) {newId newMode : Nat}
    (h : Shows c.tree s.privileged s.cwd (s.arrange u (some (.file id mode old))
      (some (.file newId newMode data)) none))
    (hall : Throughout (Moment r D k id mode old data) c) :
    Throughout (Moment r D k id mode old data) (swap c f s.path s.temp s.backup mode).1 := by
  have htried := tried_setAside hs.valid f h ends_none
  have hall₁ : Throughout _ (c.rename f s.path s.backup).1 :=
    hall.tried htried (hs.moment (recoverable_of_kept none)) (hs.moment recoverable_of_gone)
  rw [swap]
  generalize c.rename f s.path s.backup = out at htried hall₁ ⊢
  cases htried with
  | struck c₁ hshows₁ =>
    obtain ⟨c₂, failed, y₂, hremove, -, hall₂⟩ := removeTemp_throughout (f := f) hs hshows₁
      (recoverable_of_kept none) (ends_file _ _ _) hall₁
    simp only [hremove]
    exact hall₂
  | made c₁ hshows₁ => exact moveIn_throughout hs hshows₁ hall₁

end Calls

theorem place_of_find {t : FileTree} {p x : Bytes} {D q : Place} {n : Node}
    (h : Names t.privileged t.cwd t.view p D x) (hfind : t.find false p = .ok (q, n)) :
    q = D ++ [x] := by
  obtain ⟨k, hk⟩ := h.resolve_eq false
  have hwalk := hk.symm.trans (found_of_find_ok hfind)
  exact (found_of_walkLinks h.isName.1 h.isName.2.1 hwalk).2.1

variable {f : Faults} {c : Course} {privileged : Bool} {cwd r : Bytes} {v : View} {D : Place}
  {id mode : Nat} {old : Bytes}

theorem moment_of_kept (data : Bytes) {t : FileTree} (hb : Beside t.privileged t.cwd t.view r D)
    (hfile : t.view (D ++ [Path.base r]) = some (.file id mode old)) (k : Nat) :
    Moment r D k id mode old data t :=
  ⟨hb, hfile.symm ▸ recoverable_of_kept _⟩

theorem runLocked_throughout (hb : Beside privileged cwd v r D) (h : Shows c.tree privileged cwd v)
    (hfile : v (D ++ [Path.base r]) = some (.file id mode old)) (data : Bytes)
    (hall : ∀ k, Throughout (Moment r D k id mode old data) c) :
    ∃ k, Throughout (Moment r D k id mode old data) (runLocked c f r data).1 := by
  have hstat : c.tree.stat r = .ok (.file id mode old) := by
    rw [stat, h.find_file hb.self hfile]
  simp only [runLocked, hstat]
  cases hw : Temporary.write c.tree (Path.parent r) (Path.base r) data with
  | error e => exact ⟨0, hall 0⟩
  | ok written =>
    obtain ⟨t₁, temp⟩ := written
    obtain ⟨hb₁, hfile₁, hsite⟩ := site_of_write hb h hfile hw
    have hall₁ (k : Nat) : Throughout (Moment r D k id mode old data) (c.moveTo t₁) :=
      (hall k).moveTo (moment_of_kept data hb₁ hfile₁ k)
    rcases hsite with ⟨-, hblocked⟩ | ⟨tempName, k, hready, hshows⟩
    · refine ⟨0, (hall₁ 0).swap_blocked hblocked fun t hshows => ?_⟩
      refine moment_of_kept data ?_ (hshows.view_eq.symm ▸ hfile) 0
      rwa [hshows.privileged_eq, hshows.cwd_eq, hshows.view_eq]
    · exact ⟨k, swap_throughout ⟨hready.valid, hb, rfl, rfl⟩ hshows (hall₁ k)⟩

theorem lockName_ne (name : Bytes) : lockName name ≠ name := by
  intro h
  have hdot : (utf8 ".").length = 1 := by decide
  have hlength := congrArg List.length h
  simp only [lockName, List.length_append] at hlength
  omega

theorem lockName_ne_backupName (name : Bytes) (k : Nat) : lockName name ≠ backupName name k := by
  intro h
  simp only [lockName, backupName, List.append_assoc, List.append_cancel_left_eq] at h
  have hsecond := congrArg (fun rest => rest[1]?) h
  have hlock : (utf8 ".fuzz-lock")[1]? = some 102 := by decide
  have hbackup : (utf8 ".00000000-0000-4000-8000-")[1]? = some 48 := by decide
  have hlong : 1 < (utf8 ".00000000-0000-4000-8000-").length := by decide
  rw [hlock, List.getElem?_append_left hlong, hbackup] at hsecond
  simp at hsecond

theorem view_put_of_ne {t : FileTree} {x y : Bytes} (o : Option Node) (hne : x ≠ y) :
    (t.put (D ++ [x]) o).view (D ++ [y]) = t.view (D ++ [y]) := by
  apply view_alter_of_not_below
  rintro ⟨rest, hrest⟩
  exact hne (by simpa using hrest : x = y ∧ rest = []).1

/-- Taking the lock away leaves the file and its backup alone, whatever was at its path. -/
theorem Moment.discard_lock {k : Nat} {data : Bytes} {t : FileTree}
    (h : Moment r D k id mode old data t) :
    Recoverable id mode old data ((t.discard (lockPath r)).view (D ++ [Path.base r]))
      ((t.discard (lockPath r)).view (D ++ [backupName (Path.base r) k])) := by
  obtain hsame | ⟨q, n, hfind, hgone⟩ := discard_cases t (lockPath r)
  · rw [hsame]
    exact h.recoverable
  · have hnames : Names t.privileged t.cwd t.view (lockPath r) D (lockName (Path.base r)) :=
      names_join h.beside (regular_lockName h.beside.isPart h.beside.zero_base)
        (found_of_find_ok hfind)
    obtain rfl : q = D ++ [lockName (Path.base r)] := place_of_find hnames hfind
    rw [hgone, view_put_of_ne none (lockName_ne _),
      view_put_of_ne none (lockName_ne_backupName _ k)]
    exact h.recoverable

theorem runResolved_recoverable (hb : Beside c.tree.privileged c.tree.cwd c.tree.view r D)
    (hfile : c.tree.view (D ++ [Path.base r]) = some (.file id mode old)) (data : Bytes)
    (hall : ∀ k, Throughout (Moment r D k id mode old data) c) :
    ∃ k, (∀ t ∈ (runResolved c f r data).1.past, Moment r D k id mode old data t) ∧
      Recoverable id mode old data ((runResolved c f r data).1.tree.view (D ++ [Path.base r]))
        ((runResolved c f r data).1.tree.view (D ++ [backupName (Path.base r) k])) := by
  have hquiet : ∃ k, (∀ t ∈ c.past, Moment r D k id mode old data t) ∧
      Recoverable id mode old data (c.tree.view (D ++ [Path.base r]))
        (c.tree.view (D ++ [backupName (Path.base r) k])) :=
    ⟨0, fun t ht => hall 0 t (List.mem_cons_of_mem _ ht),
      (hall 0 _ List.mem_cons_self).recoverable⟩
  unfold runResolved
  cases c.tree.checkWritable r with
  | error e => exact hquiet
  | ok _ =>
    cases ho : c.tree.openOrCreate [.read] (lockPath r) 0o600 with
    | error e => simpa only [ho] using hquiet
    | ok opened =>
      obtain ⟨locked, P⟩ := opened
      obtain ⟨⟨hcwd, hprivileged⟩, hcalm, hkept⟩ := openOrCreate_keeps ho
      have hbLocked : Beside locked.privileged locked.cwd locked.view r D := by
        rw [hprivileged, hcwd]
        exact hb.calm hcalm
      have hfileLocked := (hkept _ (by simp [hfile])).trans hfile
      obtain ⟨k, hall₁⟩ := runLocked_throughout (c := c.moveTo locked) (f := f) hbLocked ⟨rfl, rfl, rfl⟩
        hfileLocked data fun k => (hall k).moveTo (moment_of_kept data hbLocked hfileLocked k)
      simp only [ho]
      exact ⟨k, hall₁, (hall₁ _ List.mem_cons_self).discard_lock⟩

/-- While the new file is written, the file and its backup stay as they are. -/
theorem Moment.write {k : Nat} {data part temp : Bytes} {t t' : FileTree}
    (h : Moment r D k id mode old data t)
    (hok : Temporary.write t (Path.parent r) (Path.base r) part = .ok (t', temp)) :
    Recoverable id mode old data (t'.view (D ++ [Path.base r]))
      (t'.view (D ++ [backupName (Path.base r) k])) := by
  obtain ⟨name, rfl, hnames, -, hfree, -, hne⟩ := write_ok h.beside ⟨rfl, rfl, rfl⟩ hok
  have hshows := Shows.putFile ⟨rfl, rfl, rfl⟩ hnames.directory (hfree.symm ▸ ends_none) 0o600 part
  obtain ⟨hkept, hwhole⟩ := h.recoverable
  have hfile : (t.putFile (D ++ [name]) 0o600 part).view (D ++ [Path.base r]) =
      t.view (D ++ [Path.base r]) := by
    rw [hshows.view_eq, Function.update_of_ne (by simpa using hne.symm)]
  rw [hfile]
  refine ⟨hkept.imp_right (Or.imp_left fun hsaved => ?_), hwhole⟩
  rw [hshows.view_eq, Function.update_of_ne, hsaved]
  intro heq
  rw [← heq, hsaved] at hfree
  simp at hfree

theorem ne_nil_of_find_file {t : FileTree} {follow : Bool} {path : Bytes} {place : Place}
    (hfile : t.find follow path = .ok (place, .file id mode old)) : place ≠ [] := by
  rintro rfl
  have hroot := get?_of_find hfile
  have hwalk := resolve_of_find_ok hfile
  obtain ⟨c, cs, hcs⟩ : ∃ c cs, trail t.cwd path = c :: cs := by
    apply List.exists_cons_of_ne_nil
    have hsteps := Path.steps_ne_nil (legal_of_find_ok hfile).2.1
    simp [trail, hsteps]
  rw [hcs] at hwalk
  obtain ⟨es, mode, hes, -⟩ := directory_of_walkLinks_ok hwalk
  rw [hroot] at hes
  simp at hes

/-- At every moment of a replacement, whatever calls fail, the old file is in place or in the
backup, or the new file is complete and has the mode of the old one; and nothing else is ever in
place. This is so between any two calls, and also while only a part of the new file is written. -/
theorem run_recoverable_throughout {t : FileTree} {path : Bytes} {place : Place}
    (hfile : t.find true path = .ok (place, .file id mode old)) (f : Faults) (data : Bytes) :
    let c := (run t f path data).1
    ∃ D name k, place = D ++ [name] ∧
      (∀ t' ∈ c.tree :: c.past, Recoverable id mode old data (t'.view (D ++ [name]))
        (t'.view (D ++ [backupName name k]))) ∧
      ∀ r, t.realPath path = .ok r → ∀ t₀ ∈ c.past, ∀ part t' temp,
        Temporary.write t₀ (Path.parent r) (Path.base r) part = .ok (t', temp) →
          Recoverable id mode old data (t'.view (D ++ [name]))
            (t'.view (D ++ [backupName name k])) := by
  intro c
  cases hr : t.realPath path with
  | error e =>
    -- Nothing has been done.
    have hrun : c = { tree := t } := by simp only [c, run, hr]
    refine ⟨place.dropLast, place.getLast (ne_nil_of_find_file hfile), 0,
      (List.dropLast_append_getLast _).symm, fun t' ht' => ?_, by simp⟩
    obtain rfl : t' = t := by simpa [hrun] using ht'
    have hview : t'.view place = some (.file id mode old) := view_eq_file.mpr (get?_of_find hfile)
    rw [List.dropLast_append_getLast, hview]
    exact recoverable_of_kept _
  | ok r =>
    obtain ⟨D, hb, rfl, hview⟩ := beside_of_find_file hr (find_realPath hfile hr)
    obtain ⟨k, hpast, hnow⟩ := runResolved_recoverable (c := { tree := t }) (f := f) hb hview data
      fun k t' ht' => by
        obtain rfl : t' = t := by simpa using ht'
        exact moment_of_kept data hb hview k
    have hrun : run t f path data = runResolved { tree := t } f r data := by
      simp only [run, hr]
    rw [← hrun] at hpast hnow
    refine ⟨D, Path.base r, k, rfl, fun t' ht' => ?_, fun r' hr' t₀ ht₀ part t' temp hok => ?_⟩
    · rcases List.mem_cons.mp ht' with rfl | ht'
      · exact hnow
      · exact (hpast t' ht').recoverable
    · obtain rfl : r = r' := by simpa using hr'
      exact (hpast t₀ ht₀).write hok

/-- The new file is not moved in and the old one not back: the file is only in the backup then. -/
theorem run_recoverable_throughout_when_stuck :
    ∃ k, ∃ t' ∈ (run linkedTree stuck (utf8 "l") (utf8 "new")).1.past,
      t'.view [utf8 "w", utf8 "d", utf8 "a"] = none ∧
        t'.view [utf8 "w", utf8 "d", backupName (utf8 "a") k] =
          some (.file 0 0o4755 (utf8 "old")) := by
  have hfile : linkedTree.find true (utf8 "l") =
      .ok ([utf8 "w", utf8 "d", utf8 "a"], .file 0 0o4755 (utf8 "old")) := by cbv
  obtain ⟨D, name, k, hplace, hall, -⟩ := run_recoverable_throughout hfile stuck (utf8 "new")
  obtain ⟨rfl, rfl⟩ : D = [utf8 "w", utf8 "d"] ∧ name = utf8 "a" := by
    have hsplit : [utf8 "w", utf8 "d"] ++ [utf8 "a"] = D ++ [name] := hplace
    obtain ⟨hD, hname⟩ := List.append_inj' hsplit rfl
    exact ⟨hD.symm, by simpa using hname.symm⟩
  have hgone : ∃ t' ∈ (run linkedTree stuck (utf8 "l") (utf8 "new")).1.past,
      t'.view [utf8 "w", utf8 "d", utf8 "a"] = none := by
    have hany : (run linkedTree stuck (utf8 "l") (utf8 "new")).1.past.any
        (fun t' => (t'.view [utf8 "w", utf8 "d", utf8 "a"]).isNone) = true := by decide +kernel
    simpa using hany
  obtain ⟨t', ht', hnone⟩ := hgone
  obtain ⟨hkept, -⟩ := hall t' (List.mem_cons_of_mem _ ht')
  simp only [List.cons_append, List.nil_append, hnone, reduceCtorEq, false_or, exists_false,
    or_false] at hkept
  exact ⟨k, t', ht', hnone, hkept⟩

end Linewise.Replacement
