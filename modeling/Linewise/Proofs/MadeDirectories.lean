import Linewise.Proofs.FollowedPaths

/-!
# Making missing directories

Making a directory with the missing ones above it adds directories on the way along the path, each
where nothing was, and changes nothing else, whether it succeeds or not.
-/

namespace Linewise.FileTree
open Node

variable {t t' t'' : FileTree} {p path : Bytes} {D : Place} {x : Bytes}

/-! ## The entry that a path means -/

/-- A path with no directory at its end means an entry, which may be missing. -/
theorem names_of_resolve {d : Destination} (h : t.resolve false p = .ok d)
    (hd : ∀ q mode es, d ≠ .found q (.directory mode es)) :
    ∃ D x, Names t.privileged t.cwd t.view p D x ∧ d.place = D ++ [x] := by
  have hlegal := legal_of_resolve_ok h
  rw [t.resolve_of_legal false hlegal] at h
  have htrail : trail t.cwd p ≠ [] := by
    simp [trail, Path.steps_ne_nil hlegal.2.1]
  rw [← List.dropLast_append_getLast htrail] at h
  obtain ⟨k, D, hlead, hlast⟩ := leads_of_walkLinks_ok (by simp) h
  have hname := isName_of_walkLinks hlast hd
  have hD := admits_search.mpr (directory_of_walkLinks_ok hlast)
  exact ⟨D, _, ⟨hlegal, hname, hD, _, k, (List.dropLast_append_getLast htrail).symm, hlead⟩,
    place_of_walkLinks hname hlast⟩

theorem not_directoryAt_place {follow : Bool} {d : Destination} (h : t.resolve follow p = .ok d)
    (hd : ∀ q mode es, d ≠ .found q (.directory mode es)) : ¬ DirectoryAt t.view d.place := by
  rintro ⟨mode, hdirectory⟩
  obtain ⟨es, hes⟩ := view_eq_directory.mp hdirectory
  cases d with
  | found q n => exact hd q mode es (by rw [Option.some.inj ((get?_of_resolve h).symm.trans hes)])
  | absent D x => exact nomatch (view_of_resolve_absent h).2.symm.trans hdirectory

theorem names_of_resolve_absent (h : t.resolve false p = .ok (.absent D x)) :
    Names t.privileged t.cwd t.view p D x := by
  obtain ⟨D', x', hnames, hplace⟩ := names_of_resolve h nofun
  obtain ⟨rfl, hx⟩ := List.append_inj' hplace rfl
  exact (List.cons.inj hx).1 ▸ hnames

/-- The directory that a path means is found at the path. -/
theorem Names.find_directory (h : Names t.privileged t.cwd t.view p D x)
    (hx : DirectoryAt t.view (D ++ [x])) :
    ∃ mode es, t.find true p = .ok (D ++ [x], .directory mode es) := by
  obtain ⟨cs, k, htrail, hlead⟩ := h.route
  obtain ⟨mode, es, hes⟩ := directoryAt_view.mp hx
  have hentry := hlead.append (.name h.search h.isName (.done hx))
  rw [← htrail] at hentry
  exact ⟨mode, es, FileTree.find_directory h.legal hentry hes⟩

/-! ## Directories on the way -/

/-- Directories were made on the way along a path, each where nothing was. -/
structure Made (t t' : FileTree) (path : Bytes) : Prop where
  process : SameProcess t t'
  view_or : ∀ q, t'.view q = t.view q ∨ t.view q = none ∧
    ∃ part mode es, part <+: path ∧ t'.find true part = .ok (q, .directory mode es)

theorem Made.refl (t : FileTree) (path : Bytes) : Made t t path := ⟨.refl t, fun _ => .inl rfl⟩

theorem Made.calm (h : Made t t' path) : Calm t.view t'.view := by
  intro q hq
  rcases h.view_or q with heq | ⟨hnone, -⟩
  · exact heq
  · rw [hnone] at hq
    exact absurd ends_none hq

theorem Made.of_part (h : Made t t' p) (hp : p <+: path) : Made t t' path := by
  refine ⟨h.process, fun q => (h.view_or q).imp_right ?_⟩
  rintro ⟨hnone, part, mode, es, hpart, hfind⟩
  exact ⟨hnone, part, mode, es, hpart.trans hp, hfind⟩

theorem Made.trans (h : Made t t' path) (h' : Made t' t'' path) : Made t t'' path := by
  refine ⟨h.process.trans h'.process, fun q => ?_⟩
  rcases h'.view_or q with heq' | ⟨hnone', hnew'⟩
  · rcases h.view_or q with heq | ⟨hnone, part, mode, es, hpart, hfind⟩
    · exact .inl (heq'.trans heq)
    · -- What was made before is still found the same way.
      obtain ⟨m, hm, hlabel⟩ := find_calm hfind h'.process h'.calm heq'
      obtain ⟨ds, rfl⟩ := label_eq_directory.mp hlabel
      exact .inr ⟨hnone, part, mode, ds, hpart, hm⟩
  · rcases h.view_or q with heq | ⟨hnone, -⟩
    · exact .inr ⟨heq ▸ hnone', hnew'⟩
    · exact .inr ⟨hnone, hnew'⟩

/-- A directory that is made where a path means a missing entry is found there. -/
theorem made_put (h : t.resolve false p = .ok (.absent D x)) (mode : Nat) :
    Made t (t.put (D ++ [x]) (some (.directory mode []))) p := by
  obtain ⟨hD, hnone⟩ := view_of_resolve_absent h
  have hends : Ends (t.view (D ++ [x])) := hnone.symm ▸ ends_none
  have hview : (t.put (D ++ [x]) (some (.directory mode []))).view =
      Function.update t.view (D ++ [x]) (some (.directory mode [])) :=
    view_put hD.directory hends.not_directoryAt rfl
  refine ⟨sameProcess_put _ _ _, fun q => ?_⟩
  by_cases hq : q = D ++ [x]
  · subst hq
    have hcalm : Calm t.view (t.put (D ++ [x]) (some (.directory mode []))).view :=
      hview ▸ (Calm.refl t.view).update hends _
    have hnew : DirectoryAt (t.put (D ++ [x]) (some (.directory mode []))).view (D ++ [x]) :=
      ⟨mode, by rw [hview, Function.update_self]⟩
    have hnames : Names t.privileged t.cwd _ p D x := (names_of_resolve_absent h).calm hcalm
    obtain ⟨mode', es, hfind⟩ :=
      Names.find_directory (t := t.put (D ++ [x]) (some (.directory mode []))) hnames hnew
    exact .inr ⟨hnone, p, mode', es, List.prefix_refl p, hfind⟩
  · left
    rw [hview, Function.update_of_ne hq]

theorem prefix_withoutSlashes (path : Bytes) : withoutSlashes path <+: path := by
  rw [withoutSlashes, Bytes.trimRight_eq_rdropWhile]
  exact List.rdropWhile_prefix _ _

theorem prefix_beforeLast (path : Bytes) : beforeLast path <+: path :=
  (List.rdropWhile_prefix (· != Path.slash) (withoutSlashes path)).trans (prefix_withoutSlashes path)

theorem made_makeDirectory (h : t.makeDirectory path = .ok t') : Made t t' path := by
  unfold makeDirectory at h
  split at h
  · cases h
  · cases h
  next D x habsent =>
    split at h
    next =>
      cases h
      refine (made_put habsent newDirectoryMode).of_part ?_
      split
      · exact List.prefix_refl path
      · exact prefix_withoutSlashes path
    next => cases h

theorem made_makeDirectoriesFrom (fuel : Nat) (t : FileTree) (path : Bytes) :
    Made t (makeDirectoriesFrom fuel t path).1 path := by
  induction fuel generalizing t path with
  | zero => exact .refl t path
  | succ fuel ih =>
    have habove : Made t (if (beforeLast path).isEmpty then (t, none)
        else makeDirectoriesFrom fuel t (beforeLast path)).1 path := by
      split
      · exact .refl t path
      · exact (ih t (beforeLast path)).of_part (prefix_beforeLast path)
    unfold makeDirectoriesFrom
    split
    · exact .refl t path
    · exact .refl t path
    · simp only
      generalize (if (beforeLast path).isEmpty then (t, none)
        else makeDirectoriesFrom fuel t (beforeLast path)) = above at habove
      obtain ⟨t₁, failed⟩ := above
      cases failed with
      | some e => exact habove
      | none =>
        simp only
        split
        next t₂ hmade => exact habove.trans (made_makeDirectory hmade)
        next => split <;> exact habove

theorem made_makeDirectories (t : FileTree) (path : Bytes) :
    Made t (t.makeDirectories path).1 path :=
  made_makeDirectoriesFrom _ t path

end Linewise.FileTree
