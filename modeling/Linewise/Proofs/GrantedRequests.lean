import Linewise.Proofs.WrittenFiles
import Linewise.Replacement

/-!
# Requests that are granted

What a request on a file tree has found and what it has changed once it was granted. Every request
changes the tree at one place, or at two when an entry moves.
-/

namespace Linewise

namespace FileTree
open Node

variable {t t' : FileTree} {p old new content : Bytes} {mode : Nat} {wanted : List Access}

theorem createNew_ok (h : t.createNew p mode content = .ok t') :
    ∃ D x, t.resolve false p = .ok (.absent D x) ∧ t.mayAlter D = true ∧
      t' = t.putFile (D ++ [x]) mode content := by
  unfold createNew at h
  split at h
  · cases h
  · cases h
  next D x habsent =>
    split at h
    next halter => exact ⟨D, x, habsent, halter, (Except.ok.inj h).symm⟩
    next => cases h

theorem changeMode_ok (h : t.changeMode p mode = .ok t') :
    ∃ P n, t.find true p = .ok (P, n) ∧ t' = t.put P (some (n.withMode mode)) := by
  unfold changeMode at h
  split at h
  · cases h
  next P n hfind => exact ⟨P, n, hfind, (Except.ok.inj h).symm⟩

/-- A directory is removed only when it is empty. -/
theorem remove_ok (h : t.remove p = .ok t') :
    ∃ P n, t.find false p = .ok (P, n) ∧ t.mayAlter P.dropLast = true ∧
      (∀ mode es, n = .directory mode es → es = []) ∧ t' = t.put P none := by
  unfold remove at h
  split at h
  · cases h
  next P n hfind =>
    split at h
    · cases h
    next halter =>
      split at h
      · cases h
      next hempty =>
        refine ⟨P, n, hfind, by simpa using halter, ?_, (Except.ok.inj h).symm⟩
        rintro mode (_ | ⟨e, es⟩) rfl
        · rfl
        · exact absurd rfl (hempty _ _ _)

theorem discard_cases (t : FileTree) (p : Bytes) :
    t.discard p = t ∨ ∃ P n, t.find false p = .ok (P, n) ∧ t.discard p = t.put P none := by
  unfold discard
  split
  next hok =>
    obtain ⟨P, n, hfind, -, -, rfl⟩ := remove_ok hok
    exact .inr ⟨P, n, hfind, rfl⟩
  · exact .inl rfl

/-- The node goes to the entry that the new path means, which is no directory; if it is there already,
nothing changes. -/
theorem rename_ok (h : t.rename old new = .ok t') :
    ∃ source n d, t.find false old = .ok (source, n) ∧ t.resolve false new = .ok d ∧
      (∀ q mode es, d ≠ .found q (.directory mode es)) ∧
      (d.place = source ∧ t' = t ∨ t.mayAlter source.dropLast = true ∧
        t.mayAlter d.place.dropLast = true ∧ t' = (t.put source none).put d.place (some n)) := by
  unfold rename at h
  simp only at h
  split at h
  · cases h
  next source n hfind =>
    split at h
    · cases h
    · cases h
    next q m hm hresolve =>
      refine ⟨source, n, _, hfind, hresolve, fun q mode es heq => ?_, ?_⟩
      · cases heq
        exact hm mode es rfl
      · split at h
        next hsame => exact .inl ⟨beq_iff_eq.mp hsame, (Except.ok.inj h).symm⟩
        next =>
          split at h
          next halter =>
            rw [Bool.and_eq_true] at halter
            exact .inr ⟨halter.1, halter.2, (Except.ok.inj h).symm⟩
          next => cases h
    next D x hresolve =>
      split at h
      next halter =>
        rw [Bool.and_eq_true] at halter
        refine ⟨source, n, _, hfind, hresolve, nofun, .inr ⟨halter.1, ?_, (Except.ok.inj h).symm⟩⟩
        rw [Destination.place, List.dropLast_concat]
        exact halter.2
      next => cases h

theorem sameProcess_openOrCreate {P : Place} (h : t.openOrCreate wanted p mode = .ok (t', P)) :
    SameProcess t t' := by
  obtain ⟨rfl, -⟩ | ⟨D, x, -, -, -, rfl⟩ := openOrCreate_ok h <;> exact ⟨rfl, rfl⟩

/-- Making a lock leaves every file and every directory in its place. -/
theorem openOrCreate_keeps {P : Place} (h : t.openOrCreate wanted p mode = .ok (t', P)) :
    SameProcess t t' ∧ Calm t.view t'.view ∧ ∀ q, t.view q ≠ none → t'.view q = t.view q := by
  refine ⟨sameProcess_openOrCreate h, ?_⟩
  rcases openOrCreate_ok h with ⟨rfl, -⟩ | ⟨D, x, habsent, -, rfl, rfl⟩
  · exact ⟨.refl _, fun _ _ => rfl⟩
  · have hnone := (view_of_resolve_absent habsent).2
    rw [view_putFile_absent habsent]
    refine ⟨(Calm.refl _).update (hnone.symm ▸ ends_none) _, fun q hq => ?_⟩
    refine Function.update_of_ne ?_ _ _
    rintro rfl
    exact hq hnone

theorem sameProcess_createNew (h : t.createNew p mode content = .ok t') : SameProcess t t' := by
  obtain ⟨D, x, -, -, rfl⟩ := createNew_ok h
  exact ⟨rfl, rfl⟩

theorem sameProcess_changeMode (h : t.changeMode p mode = .ok t') : SameProcess t t' := by
  obtain ⟨P, n, -, rfl⟩ := changeMode_ok h
  exact ⟨rfl, rfl⟩

theorem sameProcess_remove (h : t.remove p = .ok t') : SameProcess t t' := by
  obtain ⟨P, n, -, -, -, rfl⟩ := remove_ok h
  exact ⟨rfl, rfl⟩

theorem sameProcess_rename (h : t.rename old new = .ok t') : SameProcess t t' := by
  obtain ⟨source, n, d, -, -, -, ⟨-, rfl⟩ | ⟨-, -, rfl⟩⟩ := rename_ok h <;> exact ⟨rfl, rfl⟩

end FileTree

/-- The new file has a number for which no name was taken. -/
theorem Temporary.write_ok {t t' : FileTree} {dir name data temp : Bytes}
    (h : Temporary.write t dir name data = .ok (t', temp)) :
    Path.slash ∉ name ∧
      temp = pathIn dir (nameOf name (t.freeNumber dir (nameOf name))) ∧
      t.createNew temp 0o600 data = .ok t' := by
  unfold Temporary.write at h
  split at h
  · cases h
  next hslash =>
    simp only at h
    split at h
    · cases h
    next hcreate =>
      cases h
      exact ⟨by simpa using hslash, rfl, hcreate⟩

end Linewise
