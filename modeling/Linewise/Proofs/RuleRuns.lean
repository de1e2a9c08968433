import Linewise.Proofs.FixingWalk
import Linewise.Proofs.TargetHistories
import Linewise.Rule.Script

/-!
# What comes of the rules

A target is handled by the rules that apply to it, one after the other, each on the lines as those
before it have left them. The first that gives up ends the matter: what the others did is forgotten
and nothing is written. When none does, the lines are written back once if they are to be and differ
from those the target got first, and the outcome sums up the rules and the write.
-/

namespace Linewise

/-- A rule that does nothing to its target but read and set its lines. -/
def Rule.ChangesLines (r : Rule) : Prop :=
  ∀ (ctx : Context) (tree : FileTree) (t : Target), t.Changes (r.run ctx tree t).target

/-- Whatever a script asks for, it reads and sets lines. -/
theorem Script.changesLines (id description message : Bytes) (scope : Scope) (action : Action) :
    (Script.rule id description message scope action).ChangesLines := by
  intro ctx tree t
  cases action with
  | pass | fail | raise | panic | log => exact .refl
  | append line =>
    simp only [rule, Action.run]
    split
    · exact .refl
    next h => exact .tail (.single (.load h)) (.setLines _ _)
  | scan script =>
    simp only [rule, Action.run, Rule.target_report]
    exact t.changes_scan tree _ _ _ _

namespace Session

/-! ## The rules one after the other -/

/-- A rule with the tree and the target that it is shown. -/
structure Performance where
  rule : Rule
  tree : FileTree
  target : Target

/-- What the rule does. -/
def Performance.run (e : Engine) (p : Performance) : Run :=
  p.rule.run (e.contextOf p.rule) p.tree p.target

/-- What is said about the end of a rule. -/
def Performance.closing (e : Engine) (p : Performance) : Log :=
  match (p.run e).verdict with
  | .done true => []
  | .done false => [⟨.debug, utf8 "+ Violations reported by rule " ++ p.rule.id⟩]
  | .failed _ error =>
    [⟨.error, utf8 "EXCEPTION running rule " ++ p.rule.id ++ utf8 " on " ++ p.target.label ++
      utf8 " - " ++ error.message⟩]
  | .panicked value =>
    [⟨.error, utf8 "EXCEPTION running rule " ++ p.rule.id ++ utf8 " on " ++ p.target.label ++
      utf8 " - " ++ (utf8 "rule panicked: " ++ value)⟩]

/-- All messages of a rule and about it. -/
def Performance.messages (e : Engine) (p : Performance) : Log :=
  ⟨.trace, utf8 "+ Running rule " ++ p.rule.id⟩ :: ((p.run e).log ++ p.closing e)

/-- A rule that ends without giving up. -/
def Performance.Ends (e : Engine) (p : Performance) : Prop := ∃ clean, (p.run e).verdict = .done clean

/-- The session after some rules, as far as they can change it. -/
def told (e : Engine) (s : Session) (runs : List Performance) : Session :=
  { s with log := s.log ++ runs.flatMap (·.messages e) }

/-- Rules performed one after the other from `t` to `t'`: each is shown the tree with what was said so
far, and the target as those before it have left it. -/
inductive Performs (e : Engine) : Session → Target → List Performance → Target → Prop where
  | nil {s : Session} {t : Target} : Performs e s t [] t
  | cons {s : Session} {p : Performance} {runs : List Performance} {t' : Target}
      (htree : p.tree = s.shownTo p.rule) (hrest : Performs e (s.told e [p]) (p.run e).target runs t') :
      Performs e s p.target (p :: runs) t'

variable {e : Engine} {s : Session} {t t' : Target}

@[simp] theorem told_nil (e : Engine) (s : Session) : s.told e [] = s := by simp [told]

theorem told_cons (e : Engine) (s : Session) (p : Performance) (runs : List Performance) :
    s.told e (p :: runs) = (s.told e [p]).told e runs := by
  simp [told]

theorem Performs.changes {runs : List Performance} (h : Performs e s t runs t')
    (hrules : ∀ p ∈ runs, p.rule.ChangesLines) : t.Changes t' := by
  induction h with
  | nil => exact .refl
  | @cons s p runs t' _ _ ih =>
    have hfirst := hrules p (by simp) (e.contextOf p.rule) p.tree p.target
    exact hfirst.trans (ih fun q hq => hrules q (by simp [hq]))

/-- The first rule of a list is performed, and either it gives up or the others follow. -/
theorem runRules_step (e : Engine) (r : Rule) (rest : List Rule) (s : Session) (t : Target)
    (outcome : Outcome) :
    let p : Performance := ⟨r, s.shownTo r, t⟩
    (¬p.Ends e ∧ runRules e (r :: rest) s t outcome =
        ((s.told e [p]).countAborted, (p.run e).target, .aborted)) ∨
      ∃ clean, (p.run e).verdict = .done clean ∧ runRules e (r :: rest) s t outcome =
        runRules e rest (s.told e [p]) (p.run e).target (if clean then outcome else .failed) := by
  intro p
  have hrun : r.run (e.contextOf r) (s.say .trace (utf8 "+ Running rule " ++ r.id)).view t =
      p.run e := rfl
  cases hv : (p.run e).verdict with
  | done clean =>
    refine .inr ⟨clean, rfl, ?_⟩
    simp only [runRules, hrun, hv, breakdown?, isClean]
    cases clean <;> simp [told, Performance.messages, Performance.closing, hv, say, p]
  | failed clean error =>
    refine .inl ⟨by rintro ⟨clean', hdone⟩; simp [hv] at hdone, ?_⟩
    simp only [runRules, hrun, hv, breakdown?]
    simp [told, Performance.messages, Performance.closing, hv, say, p]
  | panicked value =>
    refine .inl ⟨by rintro ⟨clean', hdone⟩; simp [hv] at hdone, ?_⟩
    simp only [runRules, hrun, hv, breakdown?]
    simp [told, Performance.messages, Performance.closing, hv, say, p]

/-- Rules are performed in order up to the first that gives up, or all of them are. -/
theorem runRules_performs (e : Engine) (rules : List Rule) (s : Session) (t : Target)
    (outcome : Outcome) :
    let out := runRules e rules s t outcome
    ∃ runs, Performs e s t runs out.2.1 ∧
      ((∃ done last, runs = done ++ [last] ∧ runs.map (·.rule) <+: rules ∧
          (∀ p ∈ done, p.Ends e) ∧ ¬last.Ends e ∧ out.1 = (s.told e runs).countAborted ∧
          out.2.2 = .aborted) ∨
        runs.map (·.rule) = rules ∧ (∀ p ∈ runs, p.Ends e) ∧ out.1 = s.told e runs ∧
          out.2.2 = if runs.all fun p => isClean (p.run e).verdict then outcome else .failed) := by
  induction rules generalizing s t outcome with
  | nil => exact ⟨[], .nil, .inr ⟨rfl, by simp, by simp [runRules], by simp [runRules]⟩⟩
  | cons r rest ih =>
    let p : Performance := ⟨r, s.shownTo r, t⟩
    rcases runRules_step e r rest s t outcome with ⟨hnot, hout⟩ | ⟨clean, hdone, hout⟩
    · rw [hout]
      exact ⟨[p], .cons (p := p) rfl .nil,
        .inl ⟨[], p, rfl, by simp [p], by simp, hnot, rfl, rfl⟩⟩
    · rw [hout]
      obtain ⟨runs, hruns, hcase⟩ := ih (s.told e [p]) (p.run e).target
        (if clean then outcome else .failed)
      refine ⟨p :: runs, .cons rfl hruns, ?_⟩
      have hends : p.Ends e := ⟨clean, hdone⟩
      have hall {done : List Performance} (h : ∀ q ∈ done, q.Ends e) :
          ∀ q ∈ p :: done, q.Ends e := by simpa using ⟨hends, h⟩
      rcases hcase with ⟨done, last, rfl, hrules, hbefore, hlast, hsession, houtcome⟩ |
        ⟨hrules, hbefore, hsession, houtcome⟩
      · refine .inl ⟨p :: done, last, rfl, ?_, hall hbefore, hlast, ?_, houtcome⟩
        · simpa [p] using hrules
        · rw [told_cons e s p (done ++ [last])]
          exact hsession
      · refine .inr ⟨by simp [p, hrules], hall hbefore, ?_, ?_⟩
        · rw [told_cons e s p runs]
          exact hsession
        · have hfirst : isClean (p.run e).verdict = clean := by rw [hdone]; rfl
          simp only [List.all_cons, hfirst]
          cases clean <;> simp_all [p]

/-! ## The write -/

/-- How the handling of a target ends when no rule gave up: `answer` is what the writer answers if it
is called, and the reason for a failure if it fails. -/
structure Concluded (e : Engine) (s : Session) (t : Target) (outcome : Outcome)
    (answer : Option (Option Bytes)) : Prop where
  called : answer.isSome = true ↔ e.options.applyFix = true ∧ t.changed = true
  answered : ∀ a, answer = some a → e.writer s.writes.length s.view t.fullPath t.text =
    ((s.conclude e t outcome).1.tree, a)
  quiet : answer = none → (s.conclude e t outcome).1.tree = s.tree
  writes : (s.conclude e t outcome).1.writes =
    s.writes ++ answer.toList.map fun _ => (t.fullPath, t.text)
  answers : (s.conclude e t outcome).1.answers = s.answers ++ answer.toList
  outcome_eq : (s.conclude e t outcome).2 =
    match answer with
    | some (some _) => .failed
    | _ => outcome
  stats : (s.conclude e t outcome).1.stats = { s.stats with
    failed := s.stats.failed + if (s.conclude e t outcome).2 = .failed then 1 else 0
    fixed := s.stats.fixed + if answer = some none then 1 else 0 }

theorem exists_concluded (e : Engine) (s : Session) (t : Target) (outcome : Outcome) :
    ∃ answer, Concluded e s t outcome answer := by
  by_cases hfix : e.options.applyFix = true ∧ t.changed = true
  · obtain ⟨happly, hchanged⟩ := hfix
    cases hw : e.writer s.writes.length s.view t.fullPath t.text with
    | mk tree a =>
      refine ⟨some a, by simp [happly, hchanged], ?_, by simp, ?_, ?_, ?_, ?_⟩ <;>
        cases a <;> cases outcome <;>
        simp [conclude, writeBack, happly, hchanged, hw, say, countFixed, countFailed]
  · have hnot : (e.options.applyFix && t.changed) = false := by simpa using hfix
    refine ⟨none, by simpa using hfix, by simp, fun _ => ?_, ?_, ?_, ?_, ?_⟩ <;>
      cases outcome <;> simp [conclude, hnot, countFailed]

/-! ## The outcome -/

/-- A rule gave up on the target. The rules before it ended well, those after it did not run, nothing
was written, and the target counts as one more that was aborted. -/
structure GaveUp (e : Engine) (s : Session) (t : Target) (done : List Performance)
    (last : Performance) : Prop where
  rules : (done ++ [last]).map (·.rule) <+: e.select t
  performs : Performs e (s.begin t) t (done ++ [last]) (s.handle e t).2.1
  ends : ∀ p ∈ done, p.Ends e
  gives_up : ¬last.Ends e
  exception : ∃ text, last.closing e = [⟨.error, utf8 "EXCEPTION running rule " ++ last.rule.id ++
    utf8 " on " ++ last.target.label ++ utf8 " - " ++ text⟩]
  no_other : ∀ p ∈ done, ∀ m ∈ p.closing e, m.level ≠ .error
  outcome : (s.handle e t).2.2 = .aborted
  session : (s.handle e t).1 = { s with
    log := s.log ++ ⟨.debug, utf8 "Handling " ++ t.label⟩ :: (done ++ [last]).flatMap (·.messages e)
    stats := { s.stats with targets := s.stats.targets + 1, aborted := s.stats.aborted + 1 }
    handled := s.handled ++ [t] }

/-- All rules ran. The lines are written once if the target is a file and they are not those that it
got first; `answer` is what the writer answers then. -/
structure Completed (e : Engine) (s : Session) (t : Target) (runs : List Performance)
    (answer : Option (Option Bytes)) : Prop where
  rules : runs.map (·.rule) = e.select t
  performs : Performs e (s.begin t) t runs (s.handle e t).2.1
  ends : ∀ p ∈ runs, p.Ends e
  called : answer.isSome = true ↔ e.options.applyFix = true ∧ t.kind = .file ∧
    ∃ first, t.FirstLines (s.handle e t).2.1 first ∧ (s.handle e t).2.1.lines ≠ first
  answered : ∀ a, answer = some a →
    e.writer s.writes.length ((s.begin t).told e runs).view t.fullPath
      (s.handle e t).2.1.lines.toList.flatten = ((s.handle e t).1.tree, a)
  quiet : answer = none → (s.handle e t).1.tree = s.tree
  writes : (s.handle e t).1.writes = s.writes ++
    answer.toList.map fun _ => (t.fullPath, (s.handle e t).2.1.lines.toList.flatten)
  answers : (s.handle e t).1.answers = s.answers ++ answer.toList
  failed_iff : (s.handle e t).2.2 = .failed ↔
    (∃ p ∈ runs, (p.run e).verdict = .done false) ∨ ∃ reason, answer = some (some reason)
  passed_iff : (s.handle e t).2.2 = .passed ↔
    (∀ p ∈ runs, (p.run e).verdict = .done true) ∧ ∀ reason, answer ≠ some (some reason)
  stats : (s.handle e t).1.stats =
    { targets := s.stats.targets + 1
      failed := s.stats.failed + if (s.handle e t).2.2 = .failed then 1 else 0
      aborted := s.stats.aborted
      fixed := s.stats.fixed + if answer = some none then 1 else 0 }

theorem closing_of_not_ends {p : Performance} (h : ¬p.Ends e) :
    ∃ text, p.closing e = [⟨.error, utf8 "EXCEPTION running rule " ++ p.rule.id ++ utf8 " on " ++
      p.target.label ++ utf8 " - " ++ text⟩] := by
  unfold Performance.closing
  cases hv : (p.run e).verdict with
  | done clean => exact absurd ⟨clean, hv⟩ h
  | failed clean error => exact ⟨error.message, rfl⟩
  | panicked value => exact ⟨utf8 "rule panicked: " ++ value, rfl⟩

theorem level_closing_of_ends {p : Performance} (h : p.Ends e) :
    ∀ m ∈ p.closing e, m.level ≠ .error := by
  obtain ⟨clean, hdone⟩ := h
  cases clean <;> simp [Performance.closing, hdone]

theorem all_isClean_iff {runs : List Performance} (h : ∀ p ∈ runs, p.Ends e) :
    (runs.all fun p => isClean (p.run e).verdict) = true ↔
      ∀ p ∈ runs, (p.run e).verdict = .done true := by
  rw [List.all_eq_true]
  refine forall₂_congr fun p hp => ?_
  obtain ⟨clean, hdone⟩ := h p hp
  simp [hdone, isClean]

theorem not_all_isClean_iff {runs : List Performance} (h : ∀ p ∈ runs, p.Ends e) :
    ¬(∀ p ∈ runs, (p.run e).verdict = .done true) ↔
      ∃ p ∈ runs, (p.run e).verdict = .done false := by
  push Not
  refine exists_congr fun p => and_congr_right fun hp => ?_
  obtain ⟨clean, hdone⟩ := h p hp
  cases clean <;> simp [hdone]

/-- Handling a target comes to what its rules come to, and to what the writer answers. -/
theorem handle_sums_up (e : Engine) (s : Session) (t : Target)
    (hrules : ∀ r ∈ e.select t, r.ChangesLines) :
    (∃ done last, GaveUp e s t done last) ∨ ∃ runs answer, Completed e s t runs answer := by
  obtain ⟨runs, hperforms, ⟨done, last, rfl, hfirst, hends, hlast, hsession, houtcome⟩ |
    ⟨hall, hends, hsession, houtcome⟩⟩ := runRules_performs e (e.select t) (s.begin t) t .passed
  · have hout : s.handle e t = (((s.begin t).told e (done ++ [last])).countAborted,
        (runRules e (e.select t) (s.begin t) t .passed).2.1, .aborted) := by
      simp [handle, hsession, houtcome]
    refine .inl ⟨done, last, hfirst, by rw [hout]; exact hperforms, hends, hlast,
      closing_of_not_ends hlast, fun p hp => level_closing_of_ends (hends p hp), by rw [hout], ?_⟩
    rw [hout]
    simp [told, begin, say, countAborted]
  · generalize hran : runRules e (e.select t) (s.begin t) t .passed = ran at *
    obtain ⟨after, final, outcome⟩ := ran
    obtain rfl : after = _ := hsession
    replace houtcome : outcome =
      if runs.all fun p => isClean (p.run e).verdict then .passed else .failed := houtcome
    have hnot : outcome ≠ .aborted := by
      rw [houtcome]
      split <;> simp
    have hout : s.handle e t =
        ((((s.begin t).told e runs).conclude e final outcome).1, final,
          (((s.begin t).told e runs).conclude e final outcome).2) := by
      simp [handle, hran, hnot]
    obtain ⟨answer, hc⟩ := exists_concluded e ((s.begin t).told e runs) final outcome
    have hchanges : t.Changes final := hperforms.changes fun p hp =>
      hrules p.rule (hall ▸ List.mem_map_of_mem hp)
    obtain ⟨-, hpath, -⟩ := hchanges.same
    have hpassed : outcome = .passed ↔ ∀ p ∈ runs, (p.run e).verdict = .done true := by
      rw [← all_isClean_iff hends, houtcome]
      split <;> simp_all
    have hfailed : outcome = .failed ↔ ∃ p ∈ runs, (p.run e).verdict = .done false := by
      rw [← not_all_isClean_iff hends, ← hpassed]
      cases outcome with
      | passed | failed => simp
      | aborted => exact absurd rfl hnot
    refine .inr ⟨runs, answer, hall, by rw [hout]; exact hperforms, hends, ?_, ?_, ?_, ?_, ?_, ?_, ?_, ?_⟩
    all_goals rw [hout]
    · rw [hc.called, Target.changed_iff hchanges]
    · rw [← hpath]
      exact hc.answered
    · exact hc.quiet
    · rw [hc.writes, hpath]
      rfl
    · exact hc.answers
    · rw [hc.outcome_eq, ← hfailed]
      rcases answer with - | - | reason <;> simp
    · rw [hc.outcome_eq, ← hpassed]
      rcases answer with - | - | reason <;> simp
    · rw [hc.stats]
      rfl

theorem Completed.outcome_ne {runs : List Performance} {answer : Option (Option Bytes)}
    (h : Completed e s t runs answer) : (s.handle e t).2.2 ≠ .aborted := by
  intro haborted
  have hfailed := h.failed_iff.not.mp (by simp [haborted])
  have hpassed := h.passed_iff.not.mp (by simp [haborted])
  rw [not_or, ← not_all_isClean_iff h.ends, not_not] at hfailed
  exact hpassed ⟨hfailed.1, not_exists.mp hfailed.2⟩

/-- An engine that fixes with the given scripts and cannot write. -/
def scriptedEngine (actions : List Script.Action) : Engine :=
  { rules := actions.map (Script.rule (utf8 "r") [] [] .everything)
    options := { applyFix := true }
    writer := .failing
    filters := []
    excludes := {} }

/-- A file that has been read. -/
def readTarget : Target := ⟨utf8 "f", utf8 "/f", .file, some ⟨#[utf8 "a\n"], #[utf8 "a\n"]⟩⟩

/-- With one script that adds a line and one that fails, the lines are given to the writer; with
another one that breaks down after them, they are not. -/
theorem handle_sums_up_scripted :
    let s : Session := { tree := default }
    let added := Script.Action.append (utf8 "b\n")
    (∃ runs reason, Completed (scriptedEngine [added, .fail]) s readTarget runs (some (some reason))) ∧
      ∃ done last, GaveUp (scriptedEngine [added, .fail, .panic (utf8 "p"), .pass]) s readTarget
        done last := by
  intro s added
  have hscripts (actions : List Script.Action) :
      ∀ r ∈ (scriptedEngine actions).select readTarget, r.ChangesLines := by
    intro r hr
    obtain ⟨action, -, rfl⟩ := List.mem_map.mp (List.mem_of_mem_filter hr)
    exact Script.changesLines _ _ _ _ _
  have hfirst := handle_sums_up _ s readTarget (hscripts [added, .fail])
  have hsecond := handle_sums_up _ s readTarget (hscripts [added, .fail, .panic (utf8 "p"), .pass])
  have hanswers : (s.handle (scriptedEngine [added, .fail]) readTarget).1.answers =
      [some StepError.injected.message] := by decide +kernel
  have houtcome : (s.handle (scriptedEngine [added, .fail]) readTarget).2.2 = .failed := by
    decide +kernel
  have haborted : (s.handle (scriptedEngine [added, .fail, .panic (utf8 "p"), .pass])
      readTarget).2.2 = .aborted := by decide +kernel
  constructor
  · rcases hfirst with ⟨done, last, h⟩ | ⟨runs, answer, h⟩
    · cases houtcome.symm.trans h.outcome
    · have hanswer := hanswers.symm.trans h.answers
      obtain ⟨a, rfl⟩ : ∃ a, answer = some a := by
        cases answer with
        | none => simp [s] at hanswer
        | some a => exact ⟨a, rfl⟩
      obtain rfl : some _ = a := by simpa [s] using hanswer
      exact ⟨runs, _, h⟩
  · rcases hsecond with h | ⟨runs, answer, h⟩
    · exact h
    · exact absurd haborted h.outcome_ne

end Session

end Linewise
