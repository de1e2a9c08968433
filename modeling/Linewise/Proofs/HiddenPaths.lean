import Linewise.PathArguments
import Linewise.Proofs.LayerMerging
import Linewise.Proofs.MatchedPaths

/-!
# Arguments that do not ask for hidden paths

An argument with no hidden component of its own stands for no path that ends in a hidden name. On the
way to a path it can cross a hidden directory or link, but only by a wildcard before its last segment
or by two stars: the names before the last one are not looked at.
-/

namespace Linewise

namespace Path

/-- Cleaning keeps a name at the end. -/
theorem base_clean_of_components {p c : Bytes} {front : List Bytes}
    (h : components p = front ++ [c]) (hc : IsEntry c) : base (clean p) = c := by
  have hpush (st : List Bytes) : cleanStep (isAbsolute p) st c = c :: st := by
    simp [cleanStep, hc.ne_here, hc.ne_up]
  have hkept : kept p = (front.foldl (cleanStep (isAbsolute p)) []).reverse ++ [c] := by
    rw [kept, h, List.foldl_concat, hpush, List.reverse_cons]
  rcases components_clean p with hcomponents | ⟨-, hnil⟩
  · exact base_of_components (hcomponents.trans hkept)
  · rw [hnil] at hkept
    simp at hkept

end Path

namespace PathArguments
open Linewise.Path (components)
open FileTree (HasWay WellNamed)

variable {t : FileTree} {argument path c : Bytes} {matched found arguments : List Bytes}

/-- The name of an entry that it hides. -/
def Hides (c : Bytes) : Prop := Path.startsWithDot c = true ∧ c ≠ Path.here ∧ c ≠ Path.up

theorem isHidden_iff (path : Bytes) : isHidden path = true ↔ Hides (Path.base path) := by
  simp [isHidden, Hides, and_assoc]

/-- An argument none of whose components starts with a dot. -/
def IsOpen (argument : Bytes) : Prop := ∀ c ∈ components argument, Path.startsWithDot c = false

theorem IsOpen.not_hides (h : IsOpen argument) (hc : c ∈ components argument) : ¬Hides c :=
  fun hhides => Bool.false_ne_true ((h c hc).symm.trans hhides.1)

theorem IsOpen.isHidden_eq (h : IsOpen argument) : isHidden argument = false := by
  rw [Bool.eq_false_iff, Ne, isHidden_iff, Path.base_eq]
  cases hlast : (components argument).getLast? with
  | some c => exact h.not_hides (List.mem_of_getLast? hlast)
  | none => cases argument <;> simp [Hides, Path.startsWithDot, Path.here, Path.slash, Path.dot]

theorem IsOpen.not_hides_clean (h : IsOpen argument) (hc : c ∈ components (Path.clean argument)) :
    ¬Hides c := by
  intro hhides
  rcases Path.components_clean argument with hcomponents | ⟨hcomponents, -⟩
  · rw [hcomponents] at hc
    exact h.not_hides ((Path.mem_kept hc).resolve_right hhides.2.2) hhides
  · rw [hcomponents] at hc
    exact hhides.2.1 (List.mem_singleton.mp hc)

theorem IsOpen.not_hides_unescape (h : IsOpen argument)
    (hc : c ∈ components (Glob.unescape (Path.clean argument))) : ¬Hides c := by
  rintro ⟨hdot, hhere, hup⟩
  rw [Glob.components_unescape] at hc
  obtain ⟨d, hd, rfl⟩ := List.mem_map.mp hc
  refine h.not_hides_clean hd ⟨Glob.startsWithDot_unescape hdot, ?_, ?_⟩
  · rintro rfl
    exact hhere rfl
  · rintro rfl
    exact hup rfl

theorem IsOpen.not_hides_base (h : IsOpen argument) :
    (Glob.splitBase (Path.clean argument)).1 ≠ [] ∧
      ∀ c ∈ components (Glob.splitBase (Path.clean argument)).1, ¬Hides c := by
  rcases Glob.splitBase_spec (Path.clean argument) with heq | ⟨base, below, heq, hne, hparts⟩
  · rw [heq]
    exact ⟨List.cons_ne_nil _ _, fun c hc hhides => hhides.2.1 (List.mem_singleton.mp hc)⟩
  · rw [heq]
    refine ⟨hne, fun c hc => h.not_hides_clean ?_⟩
    rw [hparts]
    exact List.mem_append_left _ hc

/-- A hidden name in a path that is put together comes from the second part, and from its end only
when the path ends in it. -/
theorem hides_of_mem_join {base q : Bytes} (hne : base ≠ [])
    (hbase : ∀ c ∈ components base, ¬Hides c) (hshown : isHidden (Path.join [base, q]) = false)
    (hc : c ∈ components (Path.join [base, q])) (hhides : Hides c) :
    c ∈ (components q).dropLast := by
  rw [Path.join_name hne] at hc hshown
  have hparts := Path.components_append_slash base q
  have hmem : c ∈ components q := by
    rcases Path.components_clean (base ++ Path.slash :: q) with heq | ⟨heq, -⟩
    · rw [heq] at hc
      have hc := (Path.mem_kept hc).resolve_right hhides.2.2
      rw [hparts] at hc
      exact (List.mem_append.mp hc).resolve_left fun hc => hbase c hc hhides
    · rw [heq] at hc
      exact absurd (List.mem_singleton.mp hc) hhides.2.1
  have hq : components q ≠ [] := List.ne_nil_of_mem hmem
  rw [← List.dropLast_append_getLast hq, List.mem_append] at hmem
  refine hmem.resolve_right fun hlast => ?_
  obtain rfl := List.mem_singleton.mp hlast
  have hend : components (base ++ Path.slash :: q) =
      (components base ++ (components q).dropLast) ++ [(components q).getLast hq] := by
    rw [hparts, List.append_assoc, List.dropLast_append_getLast]
  have hname : Path.IsEntry ((components q).getLast hq) :=
    ⟨Path.isPart_of_mem_components (List.getLast_mem hq), hhides.2.1, hhides.2.2⟩
  rw [← Path.base_clean_of_components hend hname, ← isHidden_iff, hshown] at hhides
  cases hhides

/-- A hidden name in a path that an open argument matches and that does not end in it was found on
the way down from where the pattern starts. -/
theorem IsOpen.hides_on_way (h : IsOpen argument) (hmatched : Glob.paths t argument = .ok matched)
    (hpath : path ∈ matched) (hshown : isHidden path = false) (hc : c ∈ components path)
    (hhides : Hides c) :
    ∃ g : Glob.Ground, g.tree = t ∧ ∃ q ∈ Glob.expand g (Glob.fuelFor (Path.clean argument)) true []
      (Glob.splitBase (Path.clean argument)).2, c ∈ (components q).dropLast := by
  unfold Glob.paths at hmatched
  split at hmatched
  · cases hmatched
    cases hpath
  · simp only at hmatched
    split at hmatched
    · split at hmatched
      · cases hmatched
      · cases hmatched
        simp only [List.mem_ite_nil_right, List.mem_singleton] at hpath
        rw [hpath.2] at hc
        exact absurd hhides (h.not_hides_unescape hc)
    · split at hmatched
      · cases hmatched
      · cases hmatched
        obtain ⟨q, hq, rfl⟩ := List.mem_map.mp hpath
        obtain ⟨hne, hbase⟩ := h.not_hides_base
        exact ⟨_, rfl, q, hq, hides_of_mem_join hne hbase hshown hc hhides⟩

/-- Whether a pattern looks no further than into one directory that it names: it has all its
wildcards in its last segment, and this is not two stars and has no braces. -/
def isShallow (argument : Bytes) : Bool :=
  let below := (Glob.splitBase (Path.clean argument)).2
  !below.contains Path.slash && !below.contains Glob.openBrace && below != [Glob.star, Glob.star]

/-- The arguments, or the one that stands for none. -/
def asked (arguments : List Bytes) : List Bytes :=
  if arguments.isEmpty then [everything] else arguments

/-- What an open argument stands for: what it matches and is not hidden, or itself. -/
def Selects (t : FileTree) (argument path : Bytes) : Prop :=
  ∃ matched, Glob.paths t argument = .ok matched ∧
    (path ∈ matched ∧ isHidden path = false ∨
      matched = [] ∧ isPattern argument = false ∧ path = argument)

theorem IsOpen.mem_expandOne (h : IsOpen argument) (hfound : expandOne t argument = .ok found) :
    path ∈ found ↔ Selects t argument path := by
  unfold expandOne at hfound
  unfold Selects
  cases hmatched : Glob.paths t argument with
  | error e => simp [hmatched] at hfound
  | ok matched =>
    rw [hmatched] at hfound
    cases matched with
    | nil =>
      cases hfound
      cases isPattern argument <;> simp
    | cons first rest =>
      cases hfound
      simp [h.isHidden_eq]

theorem mem_expandFrom {done : List Bytes} (hopen : ∀ a ∈ arguments, IsOpen a)
    (h : expandFrom t done arguments = .ok found) (path : Bytes) :
    path ∈ found ↔ path ∈ done ∨ ∃ a ∈ arguments, Selects t a path := by
  induction arguments generalizing done with
  | nil =>
    cases h
    simp
  | cons a arguments ih =>
    obtain ⟨ha, hopen⟩ := List.forall_mem_cons.mp hopen
    unfold expandFrom at h
    cases hone : expandOne t a with
    | error e => simp [hone] at h
    | ok one =>
      rw [hone] at h
      rw [ih hopen h, mem_appendNew, ha.mem_expandOne hone, or_assoc, List.exists_mem_cons_iff]

theorem IsOpen.isHidden_of_selects (h : IsOpen argument) (hpath : Selects t argument path) :
    isHidden path = false := by
  obtain ⟨matched, -, ⟨-, hshown⟩ | ⟨-, -, rfl⟩⟩ := hpath
  · exact hshown
  · exact h.isHidden_eq

/-- What stands between the ends of a path is named by the tree, and by an argument that looks
further than into one directory. -/
theorem IsOpen.hasWay_of_selects (h : IsOpen argument) (ht : WellNamed t)
    (hpath : Selects t argument path) (hc : c ∈ components path) (hhides : Hides c) :
    t.HasWay c ∧ isShallow argument = false := by
  obtain ⟨matched, hmatched, ⟨hpath, hshown⟩ | ⟨-, -, rfl⟩⟩ := hpath
  · obtain ⟨g, rfl, q, hq, hway⟩ := h.hides_on_way hmatched hpath hshown hc hhides
    refine ⟨(Glob.reached_expand ht _).1 _ _ _ q hq c hway hhides.2.1 hhides.2.2, ?_⟩
    rw [Bool.eq_false_iff]
    intro hshallow
    obtain ⟨⟨hslash, hbrace⟩, hstars⟩ := by simpa [isShallow] using hshallow
    rw [Glob.dropLast_components_expand ht hslash hbrace hstars hq] at hway
    cases hway
  · exact absurd hhides (h.not_hides hc)

theorem isOpen_asked (h : ∀ a ∈ arguments, IsOpen a) : ∀ a ∈ asked arguments, IsOpen a := by
  unfold asked
  split
  · refine List.forall_mem_singleton.mpr ?_
    unfold IsOpen
    decide
  · exact h

/-- What open arguments stand for. None of it ends in a hidden name, and it has hidden names only
when an argument matches a path with a hidden name that ends in another one; this takes a wildcard
before the last segment, two stars or braces, and a directory or a link with the hidden name. -/
theorem expand_shows {arguments found : List Bytes} (ht : WellNamed t)
    (hopen : ∀ a ∈ arguments, IsOpen a) (h : expand t arguments = .ok found) :
    (∀ path, path ∈ found ↔ ∃ a ∈ asked arguments, Selects t a path) ∧
      (∀ path ∈ found, isHidden path = false) ∧
      ((∀ path ∈ found, ∀ c ∈ components path, ¬Hides c) ↔
        ∀ a ∈ asked arguments, ∀ matched, Glob.paths t a = .ok matched →
          ∀ path ∈ matched, ∀ c ∈ components path, Hides c → isHidden path = true) ∧
      ∀ path ∈ found, ∀ c ∈ components path, Hides c →
        t.HasWay c ∧ ∃ a ∈ arguments, Selects t a path ∧ isShallow a = false := by
  have hopen := isOpen_asked hopen
  have hmem (path : Bytes) : path ∈ found ↔ ∃ a ∈ asked arguments, Selects t a path := by
    simpa using mem_expandFrom hopen h path
  refine ⟨hmem, fun path hpath => ?_, ⟨fun hnone a ha matched hmatched path hpath c hc hhides => ?_,
    fun hends path hpath c hc hhides => ?_⟩, fun path hpath c hc hhides => ?_⟩
  · obtain ⟨a, ha, hselects⟩ := (hmem path).mp hpath
    exact (hopen a ha).isHidden_of_selects hselects
  · by_contra hshown
    have hselects : Selects t a path := ⟨matched, hmatched, .inl ⟨hpath, by simpa using hshown⟩⟩
    exact hnone path ((hmem path).mpr ⟨a, ha, hselects⟩) c hc hhides
  · obtain ⟨a, ha, matched, hmatched, ⟨hpath, hshown⟩ | ⟨-, -, rfl⟩⟩ := (hmem path).mp hpath
    · rw [hends a ha matched hmatched path hpath c hc hhides] at hshown
      cases hshown
    · exact (hopen path ha).not_hides hc hhides
  · obtain ⟨a, ha, hselects⟩ := (hmem path).mp hpath
    obtain ⟨hway, hdeep⟩ := (hopen a ha).hasWay_of_selects ht hselects hc hhides
    refine ⟨hway, a, ?_, hselects, hdeep⟩
    unfold asked at ha
    split at ha
    · rw [List.mem_singleton.mp ha] at hdeep
      exact absurd hdeep (by decide)
    · exact ha

/-- Hidden directories and a hidden file beside others. -/
def mixedTree : FileTree :=
  let file := Node.file 0 0o644 []
  ⟨.directory 0o755 [(utf8 "w", .directory 0o755 [(utf8 ".hid", .directory 0o755 [(utf8 "x.h", file)]),
    (utf8 "d", .directory 0o755 [(utf8 ".e", .directory 0o755 [(utf8 "x.h", file)]),
      (utf8 ".y.h", file), (utf8 "x.h", file)])])], utf8 "/w", 1, false⟩

theorem expand_shows_shallow :
    WellNamed mixedTree ∧ IsOpen (utf8 "d/*") ∧ isShallow (utf8 "d/*") = true ∧
      Glob.paths mixedTree (utf8 "d/*") = .ok [utf8 "d/.e", utf8 "d/.y.h", utf8 "d/x.h"] ∧
      expand mixedTree [utf8 "d/*"] = .ok [utf8 "d/x.h"] ∧
      ∀ c ∈ components (utf8 "d/x.h"), ¬Hides c := by
  have ht : WellNamed mixedTree := FileTree.wellNamed_of_allEntries (by decide)
  have hopen : IsOpen (utf8 "d/*") := by
    unfold IsOpen
    decide
  have hshallow : isShallow (utf8 "d/*") = true := by decide
  have hfound : expand mixedTree [utf8 "d/*"] = .ok [utf8 "d/x.h"] := by cbv
  obtain ⟨-, -, -, hdeep⟩ := expand_shows ht (List.forall_mem_singleton.mpr hopen) hfound
  refine ⟨ht, hopen, hshallow, by cbv, hfound, fun c hc hhides => ?_⟩
  obtain ⟨-, a, ha, -, ha'⟩ := hdeep _ (List.mem_singleton_self _) c hc hhides
  rw [List.mem_singleton.mp ha, hshallow] at ha'
  cases ha'

/-- A file in a hidden directory. -/
def hiddenTree : FileTree :=
  ⟨.directory 0o755 [(utf8 "w", .directory 0o755 [(utf8 ".hid", .directory 0o755
    [(utf8 "x.h", .file 0 0o644 [])])])], utf8 "/w", 1, false⟩

/-- Two stars go through a hidden directory, although the argument names none. -/
theorem two_stars_cross_hidden :
    WellNamed hiddenTree ∧ IsOpen (utf8 "**/*.h") ∧
      expand hiddenTree [utf8 "**/*.h"] = .ok [utf8 ".hid/x.h"] ∧
      utf8 ".hid" ∈ components (utf8 ".hid/x.h") ∧ Hides (utf8 ".hid") := by
  refine ⟨FileTree.wellNamed_of_allEntries (by decide), ?_, by decide +kernel, by decide, ?_⟩
  · unfold IsOpen
    decide
  · unfold Hides
    decide

end PathArguments

end Linewise
