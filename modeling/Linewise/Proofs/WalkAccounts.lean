import Linewise.CommandLine.Check
import Mathlib

/-!
# The accounts of a walk

A path fails on its own account when its visit fails although whatever is below it is left out. A
walk comes to many paths, one after the other. Each of them that fails on its own account adds one to
one of the two counters of failures, and nothing else does, so that the counters and the verdict of a
walk cannot disagree.
-/

namespace Linewise.Session

/-- What happens to the counters between two moments of a session: how many failures of either kind
are added, and one for every write that succeeded. -/
structure Grows (s s' : Session) (failed aborted : Nat) : Prop where
  failed : s'.stats.failed = s.stats.failed + failed
  aborted : s'.stats.aborted = s.stats.aborted + aborted
  fixed : ∃ new, s'.answers = s.answers ++ new ∧ s'.writes.length = s.writes.length + new.length ∧
    s'.stats.fixed = s.stats.fixed + new.count none

variable {e : Engine} {s s' s'' : Session} {failed aborted failed' aborted' : Nat}

theorem Grows.trans (h : Grows s s' failed aborted) (h' : Grows s' s'' failed' aborted') :
    Grows s s'' (failed + failed') (aborted + aborted') := by
  obtain ⟨hf, ha, new, hn, hw, hx⟩ := h
  obtain ⟨hf', ha', new', hn', hw', hx'⟩ := h'
  refine ⟨by omega, by omega, new ++ new', by rw [hn', hn, List.append_assoc], ?_, ?_⟩
  · rw [hw', hw, List.length_append, Nat.add_assoc]
  · rw [hx', hx, List.count_append, Nat.add_assoc]

theorem Grows.of_eq (hs : s'.stats = s.stats) (hw : s'.writes = s.writes)
    (ha : s'.answers = s.answers) : Grows s s' 0 0 :=
  ⟨by rw [hs]; rfl, by rw [hs]; rfl, [], by simp [ha], by simp [hw], by simp [hs]⟩

theorem Grows.refl (s : Session) : Grows s s 0 0 := .of_eq rfl rfl rfl

theorem grows_say (s : Session) (level : Level) (text : Bytes) : Grows s (s.say level text) 0 0 :=
  .of_eq rfl rfl rfl

theorem grows_countFailed (s : Session) : Grows s s.countFailed 1 0 :=
  ⟨rfl, rfl, [], by simp [countFailed], rfl, rfl⟩

theorem grows_countAborted (s : Session) : Grows s s.countAborted 0 1 :=
  ⟨rfl, rfl, [], by simp [countAborted], rfl, rfl⟩

theorem grows_begin (s : Session) (t : Target) : Grows s (s.begin t) 0 0 :=
  ⟨rfl, rfl, [], by simp [begin, say], rfl, rfl⟩

/-- Rules that are run one after the other add one aborted target when one of them gives up, and
nothing otherwise. -/
theorem grows_runRules (rules : List Rule) (s : Session) (t : Target) (outcome : Outcome)
    (h : outcome ≠ .aborted) :
    Grows s (runRules e rules s t outcome).1 0
      (if (runRules e rules s t outcome).2.2 = .aborted then 1 else 0) := by
  induction rules generalizing s t outcome with
  | nil => simpa [runRules, h] using Grows.refl s
  | cons r rest ih =>
    let told := s.say .trace (utf8 "+ Running rule " ++ r.id)
    let run := r.run (e.contextOf r) told.view t
    let ran : Session := { told with log := told.log ++ run.log }
    have hran : Grows s ran 0 0 := .of_eq rfl rfl rfl
    cases hb : breakdown? run.verdict with
    | some text =>
      simp only [runRules, show breakdown? (r.run (e.contextOf r) told.view t).verdict = _ from hb,
        told, ↓reduceIte]
      exact hran.trans ((grows_say _ _ _).trans (grows_countAborted _))
    | none =>
      by_cases hc : isClean run.verdict = true
      · have hrest := hran.trans (ih ran run.target outcome h)
        simpa [runRules, hb, hc, told, run, ran] using hrest
      · have hrest := (hran.trans (grows_say ran .debug
          (utf8 "+ Violations reported by rule " ++ r.id))).trans (ih _ run.target .failed (by simp))
        simpa [runRules, hb, hc, told, run, ran] using hrest

/-- A write adds one fixed target when it succeeds, and turns the outcome into a failure when not. -/
theorem grows_writeBack (e : Engine) (s : Session) (t : Target) (outcome : Outcome) :
    Grows s (s.writeBack e t outcome).1 0 0 ∧
      ((s.writeBack e t outcome).2 = outcome ∨ (s.writeBack e t outcome).2 = .failed) := by
  cases hw : e.writer s.writes.length s.view t.fullPath t.text with
  | mk tree failure =>
    cases failure with
    | some text =>
      simp only [writeBack, hw]
      exact ⟨⟨rfl, rfl, [some text], rfl, by simp [say], by simp [say]⟩, Or.inr trivial⟩
    | none =>
      simp only [writeBack, hw]
      exact ⟨⟨rfl, rfl, [none], rfl, by simp [say, countFixed], by simp [say, countFixed]⟩,
        Or.inl trivial⟩

theorem grows_conclude (e : Engine) (s : Session) (t : Target) (outcome : Outcome)
    (h : outcome ≠ .aborted) :
    Grows s (s.conclude e t outcome).1 (if (s.conclude e t outcome).2 = .failed then 1 else 0) 0 ∧
      (s.conclude e t outcome).2 ≠ .aborted := by
  have hcount (r : Session × Outcome) (hg : Grows s r.1 0 0) :
      Grows s (if r.2 == .failed then r.1.countFailed else r.1) (if r.2 = .failed then 1 else 0)
        0 := by
    by_cases hr : r.2 = .failed
    · simpa [hr] using hg.trans (grows_countFailed r.1)
    · simpa [hr] using hg
  by_cases hfix : (e.options.applyFix && t.changed) = true
  · obtain ⟨hg, ho⟩ := grows_writeBack e s t outcome
    simp only [conclude, hfix, ↓reduceIte]
    refine ⟨hcount _ hg, ?_⟩
    rcases ho with ho | ho
    · rwa [ho]
    · simp [ho]
  · simp only [conclude, hfix]
    exact ⟨hcount (s, outcome) (Grows.refl s), h⟩

/-- A target adds one to the counter that its outcome names. -/
theorem grows_handle (e : Engine) (s : Session) (t : Target) :
    Grows s (s.handle e t).1 (if (s.handle e t).2.2 = .failed then 1 else 0)
      (if (s.handle e t).2.2 = .aborted then 1 else 0) := by
  have hrun := (grows_begin s t).trans
    (grows_runRules (e := e) (e.select t) (s.begin t) t .passed (by simp))
  cases hr : runRules e (e.select t) (s.begin t) t .passed with
  | mk s' rest =>
    obtain ⟨t', outcome⟩ := rest
    simp only [hr, Nat.zero_add] at hrun
    by_cases ho : outcome = .aborted
    · subst ho
      simpa [handle, hr] using hrun
    · obtain ⟨hc, hne⟩ := grows_conclude e s' t' outcome ho
      have hall := hrun.trans hc
      simpa [handle, hr, ho, hne] using hall

/-- The visit of a path with whatever is below it left out. -/
def visitAlone (e : Engine) (s : Session) (path : Bytes) : Session × Bool :=
  s.visitWith e (fun s _ => (s, true)) path

/-- The target that the visit of a path handles: the file or the directory that the path leads to,
when it can be opened and is not behind a link that is left alone. -/
def handles (e : Engine) (s : Session) (path : Bytes) : Option Target :=
  match s.view.lstat path, s.view.openNode path with
  | .ok n, .ok m =>
    if n.isLink && !e.options.followLinks then none
    else
      match m with
      | .directory _ _ => some (.new s.tree.cwd path .directory)
      | .file _ _ _ => some (.new s.tree.cwd path .file)
      | _ => none
  | _, _ => none

/-- The visit of a path handles a directory and is to go on to what is in it. -/
def Iterates (e : Engine) (s : Session) (path : Bytes) : Prop :=
  ∃ t, s.handles e path = some t ∧ t.kind = .directory ∧ e.options.recurse = true ∧
    e.excludes.matchesExclude t.fullPath = false

/-- The paths right below a directory that has been handled, if it can be listed. -/
def listed (e : Engine) (s : Session) (t : Target) (path : Bytes) : Option (List Bytes) :=
  ((s.handle e t).1.say .debug (utf8 "Iterating " ++ path)).children e path

/-- The two counters of failures. -/
inductive Counter where
  | failed
  | aborted
  deriving DecidableEq

/-- A path fails on its own account, and which counter it goes to: nothing can be found at the path, or
there is a link that is left alone, or what is there cannot be opened, or handling the target failed
or was aborted, or a directory that passed cannot be listed. -/
inductive Trouble (e : Engine) (s : Session) (path : Bytes) : Counter → Prop
  | missing {err : PathError} (hl : s.view.lstat path = .error err) : Trouble e s path .failed
  | refused {n : Node} (hl : s.view.lstat path = .ok n) (hlink : n.isLink = true)
      (hfollow : e.options.followLinks = false) : Trouble e s path .failed
  | closed {n : Node} {err : PathError} (hl : s.view.lstat path = .ok n)
      (hfollow : n.isLink = false ∨ e.options.followLinks = true)
      (ho : s.view.openNode path = .error err) : Trouble e s path .failed
  | failed {t : Target} (ht : s.handles e path = some t) (ho : (s.handle e t).2.2 = .failed) :
      Trouble e s path .failed
  | aborted {t : Target} (ht : s.handles e path = some t) (ho : (s.handle e t).2.2 = .aborted) :
      Trouble e s path .aborted
  | unlistable {t : Target} (ht : s.handles e path = some t) (ho : (s.handle e t).2.2 = .passed)
      (hgo : s.Iterates e path) (hlist : s.listed e t path = none) :
      Trouble e s path .failed

/-- The paths right below a path that a visit goes on to. -/
def below (e : Engine) (s : Session) (path : Bytes) : List Bytes :=
  match s.view.lstat path, s.view.openNode path with
  | .ok n, .ok (.directory _ _) =>
    let t := Target.new s.tree.cwd path .directory
    if n.isLink && !e.options.followLinks then []
    else if !e.options.recurse || e.excludes.matchesExclude t.fullPath then []
    else (s.listed e t path).getD []
  | _, _ => []

theorem visitAll_cons (visit : Session → Bytes → Session × Bool) (s : Session) (path : Bytes)
    (rest : List Bytes) :
    visitAll visit s (path :: rest) =
      ((visitAll visit (visit s path).1 rest).1,
        (visit s path).2 && (visitAll visit (visit s path).1 rest).2) := by
  have hfold (ok : Bool) (s : Session) : rest.foldl
      (fun (acc : Session × Bool) path => ((visit acc.1 path).1, acc.2 && (visit acc.1 path).2))
        (s, ok) = ((visitAll visit s rest).1, ok && (visitAll visit s rest).2) := by
    induction rest generalizing s ok with
    | nil => simp [visitAll]
    | cons p ps ih =>
      have hall : visitAll visit s (p :: ps) = ps.foldl
          (fun (acc : Session × Bool) path => ((visit acc.1 path).1, acc.2 && (visit acc.1 path).2))
          ((visit s p).1, true && (visit s p).2) := rfl
      rw [List.foldl_cons, ih, hall, ih]
      simp [Bool.and_assoc]
  exact hfold (true && (visit s path).2) (visit s path).1

theorem visitAll_skip (s : Session) (paths : List Bytes) :
    visitAll (fun s _ => (s, true)) s paths = (s, true) := by
  induction paths with
  | nil => rfl
  | cons path rest ih => rw [visitAll_cons, ih]; rfl

/-- The visits of what is below a path after a visit of the path that came to `r`. -/
def goOn (visit : Session → Bytes → Session × Bool) (r : Session × Bool) (paths : List Bytes) :
    Session × Bool :=
  ((visitAll visit r.1 paths).1, r.2 && (visitAll visit r.1 paths).2)

@[simp] theorem goOn_nil (visit : Session → Bytes → Session × Bool) (r : Session × Bool) :
    goOn visit r [] = r := by
  simp [goOn, visitAll]

section Trouble

variable {path : Bytes} {t : Target} {c c' : Counter}

/-- What a visit handles can be found and opened and is not behind a link that is left alone. -/
theorem opened_of_handles (ht : s.handles e path = some t) :
    ∃ n m, s.view.lstat path = .ok n ∧ (n.isLink && !e.options.followLinks) = false ∧
      s.view.openNode path = .ok m := by
  unfold handles at ht
  split at ht
  next n m hl ho =>
    split at ht
    · simp at ht
    next hlink => exact ⟨n, m, hl, by simpa using hlink, ho⟩
  · simp at ht

/-- The troubles of a path whose target is handled. -/
theorem trouble_of_handles (ht : s.handles e path = some t) :
    Trouble e s path c ↔
      c = .failed ∧ (s.handle e t).2.2 = .failed ∨ c = .aborted ∧ (s.handle e t).2.2 = .aborted ∨
        c = .failed ∧ (s.handle e t).2.2 = .passed ∧ s.Iterates e path ∧
          s.listed e t path = none := by
  obtain ⟨n, m, hl, hlink, ho⟩ := opened_of_handles ht
  have hsame {t' : Target} (ht' : s.handles e path = some t') : t = t' :=
    Option.some.inj (ht.symm.trans ht')
  constructor
  · rintro (hl' | ⟨hl', hlink', hfollow⟩ | ⟨-, -, ho'⟩ | ⟨ht', hf⟩ | ⟨ht', ha⟩ |
      ⟨ht', hp, hgo, hlist⟩)
    · cases hl.symm.trans hl'
    · obtain rfl := Except.ok.inj (hl.symm.trans hl')
      simp [hlink', hfollow] at hlink
    · cases ho.symm.trans ho'
    · exact .inl ⟨rfl, hsame ht' ▸ hf⟩
    · exact .inr (.inl ⟨rfl, hsame ht' ▸ ha⟩)
    · obtain rfl := hsame ht'
      exact .inr (.inr ⟨rfl, hp, hgo, hlist⟩)
  · rintro (⟨rfl, hf⟩ | ⟨rfl, ha⟩ | ⟨rfl, hp, hgo, hlist⟩)
    · exact .failed ht hf
    · exact .aborted ht ha
    · exact .unlistable ht hp hgo hlist

/-- A path without a target can only go to the failed ones. -/
theorem Trouble.eq_failed (h : Trouble e s path c) (ht : s.handles e path = none) : c = .failed := by
  cases h with
  | aborted ht' => cases ht.symm.trans ht'
  | missing | refused | closed | failed | unlistable => rfl

/-- A path fails in one way. -/
theorem Trouble.unique (h : Trouble e s path c) (h' : Trouble e s path c') : c = c' := by
  cases ht : s.handles e path with
  | none => rw [h.eq_failed ht, h'.eq_failed ht]
  | some t =>
    rcases (trouble_of_handles ht).mp h with ⟨rfl, ho⟩ | ⟨rfl, ho⟩ | ⟨rfl, ho, -⟩ <;>
      rcases (trouble_of_handles ht).mp h' with ⟨rfl, ho'⟩ | ⟨rfl, ho'⟩ | ⟨rfl, ho', -⟩ <;>
        first
        | rfl
        | exact nomatch ho.symm.trans ho'

end Trouble

open Classical in
/-- What a path adds to a counter of failures on its own account. -/
noncomputable def own (e : Engine) (c : Counter) (a : Session × Bytes) : Nat :=
  if Trouble e a.1 a.2 c then 1 else 0

/-- A visit of a path alone charges its trouble, if there is one, and nothing else, and it passes if
there is none. -/
structure Settled (e : Engine) (s : Session) (path : Bytes) (r : Session × Bool) : Prop where
  grows : Grows s r.1 (own e .failed (s, path)) (own e .aborted (s, path))
  verdict : r.2 = true ↔ ∀ c, ¬ Trouble e s path c

section Settled

variable {path : Bytes} {c : Counter}

theorem own_of_trouble (h : Trouble e s path c) (c' : Counter) :
    own e c' (s, path) = if c' = c then 1 else 0 := by
  by_cases hc : c' = c
  · rw [own, if_pos (hc ▸ h), if_pos hc]
  · rw [own, if_neg fun h' => hc (h'.unique h), if_neg hc]

theorem own_of_not_trouble (h : ∀ c, ¬ Trouble e s path c) (c : Counter) :
    own e c (s, path) = 0 := by
  rw [own, if_neg (h c)]

theorem settled_failed (h : Trouble e s path .failed) (hg : Grows s s' 1 0) :
    Settled e s path (s', false) := by
  refine ⟨?_, by simpa using ⟨_, h⟩⟩
  simpa [own_of_trouble h] using hg

theorem settled_aborted (h : Trouble e s path .aborted) (hg : Grows s s' 0 1) :
    Settled e s path (s', false) := by
  refine ⟨?_, by simpa using ⟨_, h⟩⟩
  simpa [own_of_trouble h] using hg

theorem settled_passed (h : ∀ c, ¬ Trouble e s path c) (hg : Grows s s' 0 0) :
    Settled e s path (s', true) := by
  refine ⟨?_, by simpa using h⟩
  simpa [own_of_not_trouble h] using hg

theorem grows_unreadable (s : Session) (path : Bytes) : Grows s (s.unreadable path).1 1 0 :=
  (grows_say _ _ _).trans (grows_countFailed _)

/-- Handling a target settles it, unless it is a directory that passed and cannot be listed. -/
theorem settled_handle {t : Target} (ht : s.handles e path = some t)
    (hlist : s.Iterates e path → s.listed e t path ≠ none) {s' : Session}
    (hg : Grows (s.handle e t).1 s' 0 0) :
    Settled e s path (s', (s.handle e t).2.2 == .passed) := by
  have hhandle := (grows_handle e s t).trans hg
  cases ho : (s.handle e t).2.2 with
  | failed => exact settled_failed (.failed ht ho) (by simpa [ho] using hhandle)
  | aborted => exact settled_aborted (.aborted ht ho) (by simpa [ho] using hhandle)
  | passed =>
    refine settled_passed (fun c hc => ?_) (by simpa [ho] using hhandle)
    obtain ⟨-, h⟩ | ⟨-, h⟩ | ⟨-, -, hgo, hnone⟩ := (trouble_of_handles ht).mp hc
    · cases ho.symm.trans h
    · cases ho.symm.trans h
    · exact hlist hgo hnone

/-- A directory that cannot be listed fails; it is not counted again when handling it has failed. -/
theorem settled_unlistable {t : Target} (ht : s.handles e path = some t) (hgo : s.Iterates e path)
    (hlist : s.listed e t path = none) {s' : Session}
    (hg : Grows (s.handle e t).1 s' 0 0) :
    Settled e s path (if (s.handle e t).2.2 == .passed then s'.countFailed else s', false) := by
  have hhandle := (grows_handle e s t).trans hg
  cases ho : (s.handle e t).2.2 with
  | failed => exact settled_failed (.failed ht ho) (by simpa [ho] using hhandle)
  | aborted => exact settled_aborted (.aborted ht ho) (by simpa [ho] using hhandle)
  | passed =>
    refine settled_failed (.unlistable ht ho hgo hlist) ?_
    simpa [ho] using hhandle.trans (grows_countFailed s')

end Settled

/-- The visit of a directory settles it and then goes on to what is below it. -/
theorem visitDirectory_spec (e : Engine) (s : Session) (path : Bytes) (mode : Nat)
    (entries : List (Bytes × Node)) (n : Node) (hl : s.view.lstat path = .ok n)
    (hlink : (n.isLink && !e.options.followLinks) = false)
    (ho : s.view.openNode path = .ok (.directory mode entries)) :
    ∃ r, Settled e s path r ∧
      ∀ visit, s.visitDirectory e visit path = goOn visit r (s.below e path) := by
  let t := Target.new s.tree.cwd path .directory
  let told := (s.handle e t).1.say .debug (utf8 "Iterating " ++ path)
  have ht : s.handles e path = some t := by simp [handles, hl, ho, hlink, t]
  have htold : Grows (s.handle e t).1 told 0 0 := grows_say _ _ _
  by_cases hstay : (!e.options.recurse || e.excludes.matchesExclude t.fullPath) = true
  · have hbelow : s.below e path = [] := by simp [below, hl, ho, hlink, hstay, t]
    have hgo : ¬ s.Iterates e path := by
      rintro ⟨t', ht', -, hrecurse, hexcluded⟩
      obtain rfl := Option.some.inj (ht.symm.trans ht')
      simp [hrecurse, hexcluded] at hstay
    refine ⟨_, settled_handle ht (absurd · hgo) (Grows.refl _), fun visit => ?_⟩
    rw [hbelow, goOn_nil]
    simp [visitDirectory, hstay, t]
  have hgo : s.Iterates e path := by
    simp only [Bool.or_eq_true, Bool.not_eq_true', not_or, Bool.not_eq_false,
      Bool.not_eq_true] at hstay
    exact ⟨t, ht, rfl, hstay⟩
  cases hc : s.listed e t path with
  | none =>
    have hbelow : s.below e path = [] := by simp [below, hl, ho, hlink, hstay, hc, t]
    have hwarned := htold.trans (grows_say told .warn (utf8 "cannot read " ++ path))
    refine ⟨_, settled_unlistable ht hgo hc hwarned, fun visit => ?_⟩
    rw [hbelow, goOn_nil]
    simp [visitDirectory, hstay, show told.children e path = none from hc, t, told]
  | some paths =>
    have hbelow : s.below e path = paths := by simp [below, hl, ho, hlink, hstay, hc, t]
    refine ⟨_, settled_handle ht (fun _ => by simp [hc]) htold, fun visit => ?_⟩
    rw [hbelow]
    simp [visitDirectory, goOn, hstay, show told.children e path = some paths from hc, t, told]

/-- Every visit settles its path and then goes on to what is below it. -/
theorem visitWith_spec (e : Engine) (s : Session) (path : Bytes) :
    ∃ r, Settled e s path r ∧
      ∀ visit, s.visitWith e visit path = goOn visit r (s.below e path) := by
  have hleaf (r : Session × Bool) (hr : Settled e s path r) (hbelow : s.below e path = [])
      (hv : ∀ visit, s.visitWith e visit path = r) : ∃ r, Settled e s path r ∧
        ∀ visit, s.visitWith e visit path = goOn visit r (s.below e path) :=
    ⟨r, hr, fun visit => by rw [hbelow, goOn_nil, hv]⟩
  cases hl : s.view.lstat path with
  | error err =>
    exact hleaf _ (settled_failed (.missing hl) (grows_unreadable s path)) (by simp [below, hl])
      (fun _ => by simp [visitWith, hl, unreadable])
  | ok n =>
    cases hlink : n.isLink && !e.options.followLinks with
    | true =>
      obtain ⟨hn, hfollow⟩ : n.isLink = true ∧ e.options.followLinks = false := by
        simpa using hlink
      refine hleaf _ (settled_failed (.refused hl hn hfollow)
        ((grows_say s .warn (utf8 "cannot follow symlink " ++ path)).trans (grows_countFailed _))) ?_
        (fun _ => by simp [visitWith, hl, hlink])
      cases ho : s.view.openNode path with
      | error err => simp [below, hl, ho]
      | ok m => cases m <;> simp [below, hl, ho, hlink]
    | false =>
      have hfollow : n.isLink = false ∨ e.options.followLinks = true := by
        simpa using Bool.and_eq_false_iff.mp hlink
      cases ho : s.view.openNode path with
      | error err =>
        exact hleaf _ (settled_failed (.closed hl hfollow ho) (grows_unreadable s path))
          (by simp [below, hl, ho]) (fun _ => by simp [visitWith, hl, hlink, ho, unreadable])
      | ok m =>
        have hnone (hn : s.handles e path = none) (c : Counter) : ¬ Trouble e s path c := by
          rintro (hl' | ⟨hl', hn', hfollow'⟩ | ⟨-, -, ho'⟩ | ⟨ht, -⟩ | ⟨ht, -⟩ | ⟨ht, -⟩)
          · cases hl.symm.trans hl'
          · obtain rfl := Except.ok.inj (hl.symm.trans hl')
            simp [hn', hfollow'] at hlink
          · cases ho.symm.trans ho'
          all_goals cases hn.symm.trans ht
        cases m with
        | directory mode entries =>
          obtain ⟨r, hr, hv⟩ := visitDirectory_spec e s path mode entries n hl hlink ho
          exact ⟨r, hr, fun visit => by rw [← hv]; simp [visitWith, hl, hlink, ho]⟩
        | file id mode content =>
          have ht : s.handles e path = some (.new s.tree.cwd path .file) := by
            simp [handles, hl, hlink, ho]
          have hgo : ¬ s.Iterates e path := by
            rintro ⟨t, ht', hkind, -⟩
            obtain rfl := Option.some.inj (ht.symm.trans ht')
            cases hkind
          exact hleaf _ (settled_handle ht (absurd · hgo) (Grows.refl _)) (by simp [below, hl, ho])
            (fun _ => by simp [visitWith, visitFile, hl, hlink, ho])
        | link target =>
          have hn : s.handles e path = none := by simp [handles, hl, hlink, ho]
          exact hleaf _ (settled_passed (hnone hn) (Grows.refl s)) (by simp [below, hl, ho])
            (fun _ => by simp [visitWith, hl, hlink, ho])
        | special id kind mode =>
          have hn : s.handles e path = none := by simp [handles, hl, hlink, ho]
          have hpassed : Grows s (s.passBy path kind).1 0 0 := by
            unfold passBy
            split <;> exact .of_eq rfl rfl rfl
          exact hleaf _ (settled_passed (hnone hn) hpassed) (by simp [below, hl, ho])
            (fun _ => by simp [visitWith, hl, hlink, ho, passBy])

theorem visitWith_eq_goOn (e : Engine) (visit : Session → Bytes → Session × Bool) (s : Session)
    (path : Bytes) :
    s.visitWith e visit path = goOn visit (s.visitAlone e path) (s.below e path) := by
  obtain ⟨r, -, hv⟩ := visitWith_spec e s path
  have halone : s.visitAlone e path = r := by
    rw [visitAlone, hv, goOn, visitAll_skip, Bool.and_true]
  rw [hv, halone]

theorem settled_visitAlone (e : Engine) (s : Session) (path : Bytes) :
    Settled e s path (s.visitAlone e path) := by
  obtain ⟨r, hr, hv⟩ := visitWith_spec e s path
  rwa [visitAlone, hv, goOn, visitAll_skip, Bool.and_true]

/-- The paths that visits of some paths come to, in order, each with the session in which the visit
gets there. -/
def arrivalsAll (visit : Session → Bytes → Session × Bool)
    (arrivals : Session → Bytes → List (Session × Bytes)) :
    Session → List Bytes → List (Session × Bytes)
  | _, [] => []
  | s, path :: rest => arrivals s path ++ arrivalsAll visit arrivals (visit s path).1 rest

/-- The paths that a visit comes to, the path itself first. -/
def arrivals (e : Engine) : Nat → Session → Bytes → List (Session × Bytes)
  | 0, _, _ => []
  | fuel + 1, s, path =>
    (s, path) ::
      arrivalsAll (visit e fuel) (arrivals e fuel) (s.visitAlone e path).1 (s.below e path)

/-- The paths that a walk comes to. -/
def walkArrivals (e : Engine) (s : Session) (paths : List Bytes) : List (Session × Bytes) :=
  arrivalsAll (visit e (walkBound s.tree)) (arrivals e (walkBound s.tree)) s paths

/-- Visits that came to some paths and to a result: what they added to the counters is what the
paths were charged on their own accounts, and they passed when no path was in trouble. -/
structure Balanced (e : Engine) (s : Session) (arrived : List (Session × Bytes))
    (r : Session × Bool) : Prop where
  grows : Grows s r.1 (arrived.map (own e .failed)).sum (arrived.map (own e .aborted)).sum
  verdict : r.2 = true ↔ ∀ a ∈ arrived, ∀ c, ¬ Trouble e a.1 a.2 c

theorem Balanced.append {xs ys : List (Session × Bytes)} {r r' : Session × Bool}
    (h : Balanced e s xs r) (h' : Balanced e r.1 ys r') :
    Balanced e s (xs ++ ys) (r'.1, r.2 && r'.2) := by
  constructor
  · simpa using h.grows.trans h'.grows
  · rw [Bool.and_eq_true, h.verdict, h'.verdict, List.forall_mem_append]

theorem Settled.balanced {path : Bytes} {r : Session × Bool} (h : Settled e s path r) :
    Balanced e s [(s, path)] r :=
  ⟨by simpa using h.grows, by simpa using h.verdict⟩

theorem balanced_visitAll {visit : Session → Bytes → Session × Bool}
    {arrivals : Session → Bytes → List (Session × Bytes)}
    (h : ∀ s path, Balanced e s (arrivals s path) (visit s path)) (s : Session)
    (paths : List Bytes) :
    Balanced e s (arrivalsAll visit arrivals s paths) (visitAll visit s paths) := by
  induction paths generalizing s with
  | nil => exact ⟨Grows.refl s, by simp [visitAll, arrivalsAll]⟩
  | cons path rest ih =>
    rw [visitAll_cons]
    exact (h s path).append (ih (visit s path).1)

theorem balanced_visit (e : Engine) (fuel : Nat) (s : Session) (path : Bytes) :
    Balanced e s (arrivals e fuel s path) (visit e fuel s path) := by
  induction fuel generalizing s path with
  | zero => exact ⟨.of_eq rfl rfl rfl, by simp [visit, arrivals]⟩
  | succ fuel ih =>
    have hbelow := balanced_visitAll ih (s.visitAlone e path).1 (s.below e path)
    rw [visit, visitWith_eq_goOn]
    exact (settled_visitAlone e s path).balanced.append hbelow

theorem balanced_walk (e : Engine) (s : Session) (paths : List Bytes) :
    Balanced e s (s.walkArrivals e paths) (s.walk e paths) :=
  balanced_visitAll (balanced_visit e (walkBound s.tree)) s paths

/-- A path in trouble adds to a counter. -/
theorem own_eq_zero_iff {c : Counter} {a : Session × Bytes} :
    own e c a = 0 ↔ ¬ Trouble e a.1 a.2 c := by
  unfold own
  split <;> simp_all

theorem Balanced.verdict_iff {arrived : List (Session × Bytes)} {r : Session × Bool}
    (h : Balanced e s arrived r) :
    r.2 = true ↔ r.1.stats.failed = s.stats.failed ∧ r.1.stats.aborted = s.stats.aborted := by
  have hzero (c : Counter) :
      (arrived.map (own e c)).sum = 0 ↔ ∀ a ∈ arrived, ¬ Trouble e a.1 a.2 c := by
    rw [List.sum_eq_zero_iff, List.forall_mem_map]
    exact forall₂_congr fun a _ => own_eq_zero_iff
  rw [h.verdict, h.grows.failed, h.grows.aborted, Nat.add_eq_left, Nat.add_eq_left, hzero, hzero]
  constructor
  · exact fun hall => ⟨fun a ha => hall a ha .failed, fun a ha => hall a ha .aborted⟩
  · rintro ⟨hfailed, haborted⟩ a ha c
    cases c with
    | failed => exact hfailed a ha
    | aborted => exact haborted a ha

end Linewise.Session

namespace Linewise.Check

/-- A check comes to a walk, and what it writes ends with a summary of these counters. -/
def Reports (p : Process) (a : Arguments) (stats : Stats) : Prop :=
  ∃ tree sink j clean,
    openReport p.tree (a.text Command.outputName) = .ok (tree, sink) ∧
    walk p.env { tree := tree, report := reportTo p (console a) sink } a =
      (j, .walked stats clean) ∧
    run p a = deliver sink j.tree
      ((console a).transcript p.clock j.log ++ (console a).summary p.clock
        ⟨stats.targets, stats.failed, stats.aborted, stats.fixed⟩ p.duration)
      (failureOf (.walked stats clean))

theorem failure_deliver (sink : Sink) (t : FileTree) (text : Bytes) (failure : Option Failure) :
    (deliver sink t text failure).failure = failure := by
  cases sink <;> rfl

/-- A check that comes to a walk is clean when its counters of failures are zero, and one that does
not fails for another reason than violations. -/
theorem walk_ending (env : Environment) (j : Journal) (a : Arguments) :
    (∀ stats clean, (walk env j a).2 = .walked stats clean →
        (clean = true ↔ stats.failed = 0 ∧ stats.aborted = 0)) ∧
      (walk env j a).2 ≠ .failed .violations := by
  cases hc : a.loadConfig env j with
  | mk j' config =>
    cases config with
    | error err => simp [walk, hc]
    | ok c =>
      cases hp : PathArguments.expand j'.view a.words with
      | error err => simp [walk, hc, hp]
      | ok paths =>
        cases he : Engine.new j'.view (registry a) Writer.replacing (options c a) with
        | mk registry engine =>
          cases engine with
          | error err => simp [walk, hc, hp, he]
          | ok e =>
            have hv := (Session.balanced_walk e { toJournal := j' } paths).verdict_iff
            simp only [walk, hc, hp, he, Ending.walked.injEq]
            refine ⟨?_, by simp⟩
            rintro stats clean ⟨rfl, rfl⟩
            exact hv

theorem run_violations_iff (p : Process) (a : Arguments) :
    (run p a).failure = some .violations ↔
      ∃ stats, Reports p a stats ∧ stats.failed + stats.aborted ≠ 0 := by
  cases ho : openReport p.tree (a.text Command.outputName) with
  | error err => simp [run, Reports, ho]
  | ok opened =>
    obtain ⟨tree, sink⟩ := opened
    obtain ⟨hwalked, hfailed⟩ :=
      walk_ending p.env { tree := tree, report := reportTo p (console a) sink } a
    cases hw : walk p.env { tree := tree, report := reportTo p (console a) sink } a with
    | mk j ending =>
      rw [hw] at hwalked hfailed
      have hrun : run p a = deliver sink j.tree
          ((console a).transcript p.clock j.log ++ closing p (console a) ending)
          (failureOf ending) := by
        simp only [run, ho, hw]
      have hfail : (run p a).failure = failureOf ending := by rw [hrun, failure_deliver]
      cases ending with
      | failed err =>
        have herr : err ≠ .violations := fun h => hfailed (by rw [h])
        simp [hfail, failureOf, Reports, ho, hw, herr]
      | walked stats clean =>
        have hclean := hwalked stats clean rfl
        have hreports : Reports p a stats := ⟨tree, sink, j, clean, ho, hw, hrun⟩
        have hunique (other : Stats) (h : Reports p a other) : other = stats := by
          obtain ⟨tree', sink', j', clean', ho', hw', -⟩ := h
          obtain ⟨rfl, rfl⟩ : tree = tree' ∧ sink = sink' := by simpa [ho] using ho'
          obtain ⟨-, rfl, -⟩ : j = j' ∧ stats = other ∧ clean = clean' := by simpa [hw] using hw'
          rfl
        have hviolations : (run p a).failure = some .violations ↔ ¬clean = true := by
          cases clean <;> simp [hfail, failureOf]
        rw [hviolations, hclean]
        constructor
        · intro hne
          exact ⟨stats, hreports, by omega⟩
        · rintro ⟨other, hother, hsum⟩
          rw [hunique other hother] at hsum
          omega

open Session

/-- The verdict of a walk agrees with its counters. A walk passes exactly when neither counter of
failures has changed. Every path is charged on its own account: one to one counter if it is in
trouble, in one of the six ways that there are, and nothing otherwise. What a walk adds to the
counters is what the paths that it comes to are charged, and one fixed target for every write that
succeeded. So a check fails for violations exactly when the failures that it reports are not zero. -/
theorem walk_verdict_agrees_with_stats :
    (∀ (e : Engine) (s : Session) (paths : List Bytes),
      ((s.walk e paths).2 = true ↔
        (s.walk e paths).1.stats.failed = s.stats.failed ∧
          (s.walk e paths).1.stats.aborted = s.stats.aborted) ∧
      (∀ (now : Session) (path : Bytes), Settled e now path (now.visitAlone e path) ∧
        ∀ c c', Trouble e now path c → Trouble e now path c' → c = c') ∧
      Balanced e s (s.walkArrivals e paths) (s.walk e paths)) ∧
    ∀ (p : Process) (a : Arguments), (run p a).failure = some .violations ↔
      ∃ stats, Reports p a stats ∧ stats.failed + stats.aborted ≠ 0 := by
  constructor
  · intro e s paths
    have hbalanced := balanced_walk e s paths
    exact ⟨hbalanced.verdict_iff, fun now path =>
      ⟨settled_visitAlone e now path, fun c c' h h' => h.unique h'⟩, hbalanced⟩
  · exact run_violations_iff

end Linewise.Check
