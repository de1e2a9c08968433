import Linewise.Proofs.ReadingCommands

/-!
# Paths that do not disturb each other

A walk that only looks carries nothing from one path to the next but its messages and its counters,
and what it comes to on a path does not depend on them. So a walk over two lists of paths is a walk
over either, put together, and the counters do not depend on the order of the paths.
-/

namespace Linewise

namespace Stats

instance : Zero Stats := ⟨{}⟩

instance : Add Stats :=
  ⟨fun a b => ⟨a.targets + b.targets, a.failed + b.failed, a.aborted + b.aborted,
    a.fixed + b.fixed⟩⟩

theorem add_def (a b : Stats) : a + b = ⟨a.targets + b.targets, a.failed + b.failed,
    a.aborted + b.aborted, a.fixed + b.fixed⟩ := rfl

theorem zero_def : (0 : Stats) = ⟨0, 0, 0, 0⟩ := rfl

/-- Counters are added one by one. -/
instance : AddCommMonoid Stats where
  add_assoc a b c := by simp only [add_def, Nat.add_assoc]
  zero_add a := by simp only [add_def, zero_def, Nat.zero_add]
  add_zero a := by simp only [add_def, zero_def, Nat.add_zero]
  add_comm a b := by simp only [add_def, Nat.add_comm]
  nsmul := nsmulRec

end Stats

namespace Session

/-- The session `s`, carried on after the session `before`: its messages and counters come on top of
those from before. -/
def after (before s : Session) : Session :=
  { s with
    log := before.log ++ s.log
    stats := before.stats + s.stats
    handled := before.handled ++ s.handled
    writes := before.writes ++ s.writes
    answers := before.answers ++ s.answers
    waits := before.waits ++ s.waits
    cutOff := before.cutOff || s.cutOff }

variable {e : Engine} {before s : Session}

theorem view_after (h : s.report = none) : (before.after s).view = s.view := by
  simp [Journal.view, after, h]

@[simp] theorem after_say (before s : Session) (level : Level) (text : Bytes) :
    (before.after s).say level text = before.after (s.say level text) := by
  simp [after, say, List.append_assoc]

@[simp] theorem after_log (before s : Session) (more : Log) :
    { before.after s with log := (before.after s).log ++ more } =
      before.after { s with log := s.log ++ more } := by
  simp [after, List.append_assoc]

@[simp] theorem after_countFailed (before s : Session) :
    (before.after s).countFailed = before.after s.countFailed := by
  simp [after, countFailed, Stats.add_def, Nat.add_assoc]

@[simp] theorem after_countAborted (before s : Session) :
    (before.after s).countAborted = before.after s.countAborted := by
  simp [after, countAborted, Stats.add_def, Nat.add_assoc]

@[simp] theorem after_begin (before s : Session) (t : Target) :
    (before.after s).begin t = before.after (s.begin t) := by
  simp [after, begin, say, Stats.add_def, Nat.add_assoc, List.append_assoc]

/-- A session of which nothing is known yet adds nothing to the one before. -/
theorem after_fresh (h : before.report = none) :
    before.after { tree := before.tree } = before := by
  obtain ⟨⟨tree, log, report⟩, stats, handled, writes, answers, waits, cutOff⟩ := before
  obtain rfl : report = none := h
  simp [after, show (({} : Stats)) = 0 from rfl]

/-- Rules do not see what was said and counted before. -/
theorem runRules_after (rules : List Rule) (h : s.report = none) (t : Target) (outcome : Outcome) :
    runRules e rules (before.after s) t outcome =
      (runRules e rules s t outcome).map before.after id := by
  induction rules generalizing s t outcome with
  | nil => rfl
  | cons r rest ih =>
    have hview : (before.after (s.say .trace (utf8 "+ Running rule " ++ r.id))).view =
        (s.say .trace (utf8 "+ Running rule " ++ r.id)).view := view_after h
    simp only [runRules, after_say, hview, after_log]
    split
    · simp only [after_countAborted, Prod.map_apply, id_eq]
    · split
      · refine ih ?_ _ _
        exact h
      · refine ih ?_ _ _
        exact h

theorem handle_after (hfix : e.options.applyFix = false) (h : s.report = none) (t : Target) :
    (before.after s).handle e t = (s.handle e t).map before.after id := by
  simp only [handle, after_begin, runRules_after (e := e) (e.select t) (s := s.begin t) h t .passed]
  generalize runRules e (e.select t) (s.begin t) t .passed = out
  obtain ⟨s', t', outcome⟩ := out
  cases outcome <;> simp [conclude, hfix, Prod.map_apply]

theorem passBy_after (before s : Session) (path : Bytes) (kind : Special) :
    (before.after s).passBy path kind = (s.passBy path kind).map before.after id := by
  cases kind <;> simp [passBy, after, List.append_assoc]

theorem report_handle (h : s.report = none) (t : Target) : (s.handle e t).1.report = none :=
  (handle_cases e s t).1.trans h

/-- A visitor of paths that does not see what was said and counted before. -/
def Carries (before : Session) (visit : Session → Bytes → Session × Bool) : Prop :=
  ∀ s path, s.report = none → (visit s path).1.report = none ∧
    visit (before.after s) path = (visit s path).map before.after id

theorem Carries.visitAll {visit : Session → Bytes → Session × Bool} (hvisit : Carries before visit)
    (paths : List Bytes) (h : s.report = none) :
    (visitAll visit s paths).1.report = none ∧
      Session.visitAll visit (before.after s) paths =
        (Session.visitAll visit s paths).map before.after id := by
  induction paths generalizing s with
  | nil => exact ⟨h, rfl⟩
  | cons path rest ih =>
    obtain ⟨hreport, hsame⟩ := hvisit s path h
    obtain ⟨hlast, hrest⟩ := ih hreport
    refine ⟨by rw [visitAll_cons]; exact hlast, ?_⟩
    simp only [visitAll_cons, hsame, Prod.map_apply, id_eq, Prod.map_fst, Prod.map_snd, hrest]

theorem Carries.visitDirectory {visit : Session → Bytes → Session × Bool}
    (hvisit : Carries before visit) (hfix : e.options.applyFix = false) (path : Bytes)
    (h : s.report = none) :
    (s.visitDirectory e visit path).1.report = none ∧
      (before.after s).visitDirectory e visit path =
        (s.visitDirectory e visit path).map before.after id := by
  generalize ht : Target.new s.tree.cwd path .directory = t
  have ht' : Target.new (before.after s).tree.cwd path .directory = t := ht
  have hreport := report_handle (e := e) h t
  simp only [Session.visitDirectory, ht, ht', handle_after hfix h]
  generalize s.handle e t = out at hreport ⊢
  obtain ⟨s', t', outcome⟩ := out
  have hview : (before.after (s'.say .debug (utf8 "Iterating " ++ path))).view =
      (s'.say .debug (utf8 "Iterating " ++ path)).view := view_after hreport
  simp only [Prod.map_apply, id_eq, after_say, children, hview]
  split
  · exact ⟨hreport, rfl⟩
  · split
    · cases outcome <;> exact ⟨hreport, by simp⟩
    · obtain ⟨hlast, hrest⟩ :=
        hvisit.visitAll _ (s := s'.say .debug (utf8 "Iterating " ++ path)) hreport
      exact ⟨hlast, by simp [hrest]⟩

theorem Carries.visitWith {visit : Session → Bytes → Session × Bool} (hvisit : Carries before visit)
    (hfix : e.options.applyFix = false) : Carries before fun s => s.visitWith e visit := by
  intro s path h
  simp only [Session.visitWith, view_after h]
  split
  · exact ⟨h, by simp [unreadable]⟩
  · split
    · exact ⟨h, by simp⟩
    · split
      next => exact ⟨h, by simp [unreadable]⟩
      next => exact hvisit.visitDirectory hfix path h
      next =>
        refine ⟨report_handle h _, ?_⟩
        simp only [visitFile, show (before.after s).tree = s.tree from rfl, handle_after hfix h,
          Prod.map_apply, Prod.map_fst, Prod.map_snd, id_eq]
      next kind _ _ => exact ⟨by cases kind <;> exact h, passBy_after before s path kind⟩
      next => exact ⟨h, rfl⟩

theorem carries_visit (hfix : e.options.applyFix = false) (before : Session) (fuel : Nat) :
    Carries before (visit e fuel) := by
  induction fuel with
  | zero => exact fun s path h => ⟨h, by simp [visit, after]⟩
  | succ fuel ih => exact ih.visitWith hfix

theorem visitAll_append (visit : Session → Bytes → Session × Bool) (s : Session)
    (ps qs : List Bytes) :
    visitAll visit s (ps ++ qs) =
      ((visitAll visit (visitAll visit s ps).1 qs).1,
        (visitAll visit s ps).2 && (visitAll visit (visitAll visit s ps).1 qs).2) := by
  induction ps generalizing s with
  | nil => simp [visitAll]
  | cons path rest ih => simp [visitAll_cons, ih, Bool.and_assoc]

/-- A walk over two lists of paths is a walk over the second, carried on after one over the first. -/
theorem walk_append (hfix : e.options.applyFix = false) (tree : FileTree) (ps qs : List Bytes) :
    (({ tree := tree } : Session).walk e (ps ++ qs)) =
      ((({ tree := tree } : Session).walk e ps).1.after (({ tree := tree } : Session).walk e qs).1,
        (({ tree := tree } : Session).walk e ps).2 && (({ tree := tree } : Session).walk e qs).2) := by
  have hstill := still_walk hfix { tree := tree } ps
  generalize hfirst : ({ tree := tree } : Session).walk e ps = first at hstill
  have hfresh : first.1.after { tree := tree } = first.1 := by
    conv_lhs => rw [show tree = first.1.tree from hstill.tree.symm]
    exact after_fresh hstill.report
  have hcarried := (carries_visit hfix first.1 (walkBound tree)).visitAll qs
    (s := { tree := tree }) rfl
  rw [hfresh] at hcarried
  rw [walk] at hfirst
  rw [walk, visitAll_append, hfirst, hcarried.2]
  rfl

/-- Every path counts in a walk what it counts in a walk of its own. -/
theorem walk_eq_sum (hfix : e.options.applyFix = false) (tree : FileTree) (paths : List Bytes) :
    (({ tree := tree } : Session).walk e paths).1.stats =
        (paths.map fun path => (({ tree := tree } : Session).walk e [path]).1.stats).sum ∧
      (({ tree := tree } : Session).walk e paths).2 =
        paths.all fun path => (({ tree := tree } : Session).walk e [path]).2 := by
  induction paths with
  | nil => exact ⟨rfl, rfl⟩
  | cons path rest ih =>
    rw [← List.singleton_append, walk_append hfix]
    exact ⟨by simp [after, ih.1], by simp [ih.2]⟩

end Session

/-- An engine that is made after another from the same registry is the same. -/
theorem Engine.new_again {tree : FileTree} {registry registry' : Registry} {writer : Writer}
    {o : Options} {e : Engine} (h : Engine.new tree registry writer o = (registry', .ok e)) :
    Engine.new tree registry' writer o = (registry', .ok e) := by
  unfold Engine.new at h ⊢
  split at h
  · simp at h
  · simp only at h ⊢
    split at h
    · simp at h
    next filters hfilters =>
      obtain ⟨rfl, rfl⟩ : registry.close = registry' ∧ _ = e := by simpa using h
      have hclose : registry.close.close = registry.close := rfl
      simp only [hclose, hfilters]

namespace Session

/-- Failures do not spread. A walk that does not fix, over two lists of paths, passes when the walks
over either pass, counts what they count together and says what they say one after the other, as do
walks on engines of their own that share the registry. So its verdict and its counters are the same
for every order of its paths. -/
theorem walk_isolates_siblings {tree : FileTree} {registry registry' : Registry} {writer : Writer}
    {o : Options} {e : Engine} (hnew : Engine.new tree registry writer o = (registry', .ok e))
    (hfix : o.applyFix = false) (unlistable : Bytes → Bool) :
    Engine.new tree registry' writer o = (registry', .ok e) ∧
      let walk (paths : List Bytes) : Session × Bool :=
        ({ tree := tree } : Session).walk { e with unlistable := unlistable } paths
      (∀ ps qs, (walk (ps ++ qs)).2 = ((walk ps).2 && (walk qs).2) ∧
        (walk (ps ++ qs)).1.stats = (walk ps).1.stats + (walk qs).1.stats ∧
        (walk (ps ++ qs)).1.log = (walk ps).1.log ++ (walk qs).1.log) ∧
      ∀ ps qs, ps.Perm qs →
        (walk ps).2 = (walk qs).2 ∧ (walk ps).1.stats = (walk qs).1.stats := by
  have hlook : ({ e with unlistable := unlistable } : Engine).options.applyFix = false := by
    rw [← hfix, ← Engine.options_new hnew]
  refine ⟨Engine.new_again hnew, fun ps qs => ?_, fun ps qs hperm => ?_⟩
  · have happend := walk_append hlook tree ps qs
    exact ⟨congrArg (·.2) happend, congrArg (·.1.stats) happend, congrArg (·.1.log) happend⟩
  · obtain ⟨hstats, hverdict⟩ := walk_eq_sum hlook tree ps
    obtain ⟨hstats', hverdict'⟩ := walk_eq_sum hlook tree qs
    simp only [hstats, hstats', hverdict, hverdict']
    exact ⟨hperm.all_eq, (hperm.map _).sum_eq⟩

/-- A file with a broken directive, a file with a capital in its name, a good file, a link, and a file
and a directory that the process may not read. -/
def troubledTree : FileTree :=
  ⟨.directory 0o755
    [(utf8 "b", .file 0 0o644 (utf8 "X11_FUZZ: disable\n")), (utf8 "F", .file 1 0o644 []),
      (utf8 "g", .file 2 0o644 (utf8 "a\n")), (utf8 "l", .link (utf8 "g")),
      (utf8 "p", .file 3 0o200 (utf8 "a \n")), (utf8 "q", .directory 0o333 [])], utf8 "/", 4, false⟩

/-- The standard rules, set to look only. -/
def watchingEngine : Engine where
  rules := standardRules
  options := {}
  writer := Writer.pretend
  filters := standardRules.map fun r => (r.id, {})
  excludes := {}

/-- A broken directive, a capital, a link that may not be followed, a path that leads nowhere, and a
file and a directory that cannot be opened leave each other and the good file alone, in whatever order
they are met. -/
theorem walk_isolates_siblings_troubled :
    let walk (paths : List Bytes) : Session × Bool :=
      ({ tree := troubledTree } : Session).walk watchingEngine paths
    (walk [utf8 "g"]).2 = true ∧ (walk [utf8 "b", utf8 "l"]).1.stats = ⟨1, 1, 1, 0⟩ ∧
      (walk [utf8 "F", utf8 "nope", utf8 "p", utf8 "q"]).1.stats = ⟨1, 4, 0, 0⟩ ∧
      (walk [utf8 "q", utf8 "nope", utf8 "b", utf8 "F", utf8 "p", utf8 "l"]).1.stats =
        ⟨2, 5, 1, 0⟩ := by
  have hnew : Engine.new troubledTree Registry.standard Writer.pretend {} =
      (Registry.standard.close, .ok watchingEngine) := rfl
  have hisolated := (walk_isolates_siblings hnew rfl watchingEngine.unlistable).2
  have hsame : ({ watchingEngine with unlistable := watchingEngine.unlistable } : Engine) =
      watchingEngine := rfl
  rw [hsame] at hisolated
  obtain ⟨happend, hperm⟩ := hisolated
  have hfirst : (({ tree := troubledTree } : Session).walk watchingEngine
      [utf8 "b", utf8 "l"]).1.stats = ⟨1, 1, 1, 0⟩ := by decide +kernel
  have hsecond : (({ tree := troubledTree } : Session).walk watchingEngine
      [utf8 "F", utf8 "nope", utf8 "p", utf8 "q"]).1.stats = ⟨1, 4, 0, 0⟩ := by decide +kernel
  have horder : [utf8 "q", utf8 "nope", utf8 "b", utf8 "F", utf8 "p", utf8 "l"].Perm
      ([utf8 "b", utf8 "l"] ++ [utf8 "F", utf8 "nope", utf8 "p", utf8 "q"]) := by decide +kernel
  have hboth := (hperm _ _ horder).2.trans (happend _ _).2.1
  rw [hfirst, hsecond] at hboth
  exact ⟨by decide +kernel, hfirst, hsecond, hboth⟩

end Session

end Linewise
