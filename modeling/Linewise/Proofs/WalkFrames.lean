import Linewise.Proofs.WalkAccounts

/-!
# What a walk does to the tree

Rules only look at the tree. It changes when a target whose lines were mended is written back, once
for each such target and at no other time; so what every write keeps, a whole walk keeps.
-/

namespace Linewise.Session

/-- Between two moments of a session neither the tree nor the report has changed. -/
structure Still (s s' : Session) : Prop where
  tree : s'.tree = s.tree
  report : s'.report = s.report

variable {e : Engine} {s s' s'' : Session}

theorem Still.refl (s : Session) : Still s s := ⟨rfl, rfl⟩

theorem Still.trans (h : Still s s') (h' : Still s' s'') : Still s s'' :=
  ⟨h'.tree.trans h.tree, h'.report.trans h.report⟩

theorem still_runRules (e : Engine) (rules : List Rule) (s : Session) (t : Target)
    (outcome : Outcome) : Still s (runRules e rules s t outcome).1 := by
  induction rules generalizing s t outcome with
  | nil => exact .refl s
  | cons r rest ih =>
    have hlog {log : Log} {out : Session} (h : Still { s with log := log } out) : Still s out :=
      ⟨h.tree, h.report⟩
    simp only [runRules]
    split
    · exact ⟨rfl, rfl⟩
    · split
      · exact hlog (ih _ _ _)
      · exact hlog (ih _ _ _)

/-- The rules that apply to a target, run on it. -/
def ran (e : Engine) (s : Session) (t : Target) : Session × Target × Outcome :=
  runRules e (e.select t) (s.begin t) t .passed

theorem still_ran (e : Engine) (s : Session) (t : Target) : Still s (s.ran e t).1 := by
  have hbegin : Still s (s.begin t) := ⟨rfl, rfl⟩
  exact hbegin.trans (still_runRules e _ _ t .passed)

/-- Handling a target leaves the tree alone, unless mended lines are to be written and no rule gave
up on the target: then the tree is what the writer makes of it. -/
theorem handle_cases (e : Engine) (s : Session) (t : Target) :
    (s.handle e t).1.report = s.report ∧
      ((s.handle e t).1.tree = s.tree ∨
        e.options.applyFix = true ∧ (s.ran e t).2.2 ≠ .aborted ∧ (s.ran e t).2.1.changed = true ∧
          (s.handle e t).1.tree = (e.writer (s.ran e t).1.writes.length (s.ran e t).1.view
            (s.ran e t).2.1.fullPath (s.ran e t).2.1.text).1) := by
  obtain ⟨htree, hreport⟩ := still_ran e s t
  rw [handle, ← ran]
  generalize s.ran e t = out at htree hreport ⊢
  obtain ⟨s₁, t₁, outcome⟩ := out
  simp only at htree hreport ⊢
  by_cases ho : outcome = .aborted
  · simp [ho, htree, hreport]
  · simp only [beq_eq_false_iff_ne.mpr ho, Bool.false_eq_true, ↓reduceIte]
    -- Counting a failure at the end touches neither the tree nor the report.
    have hcount (r : Session × Outcome) :
        Still r.1 (if r.2 == .failed then r.1.countFailed else r.1) := by
      split <;> exact ⟨rfl, rfl⟩
    by_cases hfix : (e.options.applyFix && t₁.changed) = true
    · obtain ⟨hc, hr⟩ := hcount (s₁.writeBack e t₁ outcome)
      obtain ⟨happly, hchanged⟩ : e.options.applyFix = true ∧ t₁.changed = true := by
        simpa using hfix
      have hwrite : (s₁.writeBack e t₁ outcome).1.report = s₁.report ∧
          (s₁.writeBack e t₁ outcome).1.tree =
            (e.writer s₁.writes.length s₁.view t₁.fullPath t₁.text).1 := by
        cases hw : e.writer s₁.writes.length s₁.view t₁.fullPath t₁.text with
        | mk tree failure => cases failure <;> simp [writeBack, hw, say, countFixed]
      simp only [conclude, hfix, ↓reduceIte, hc, hr]
      exact ⟨hwrite.1.trans hreport, .inr ⟨happly, ho, hchanged, hwrite.2⟩⟩
    · obtain ⟨hc, hr⟩ := hcount (s₁, outcome)
      simp only [conclude, hfix, Bool.false_eq_true, ↓reduceIte]
      exact ⟨hr.trans hreport, .inl (hc.trans htree)⟩

theorem eq_new_of_handles {path : Bytes} {t : Target} (h : s.handles e path = some t) :
    ∃ kind, t = Target.new s.tree.cwd path kind := by
  unfold handles at h
  split at h
  · split at h
    · simp at h
    · split at h
      · exact ⟨.directory, (Option.some.inj h).symm⟩
      · exact ⟨.file, (Option.some.inj h).symm⟩
      · simp at h
  · simp at h

section Keeping

variable {P : Session → Prop}

theorem visitAll_keeps {visit : Session → Bytes → Session × Bool}
    (hvisit : ∀ s path, P s → P (visit s path).1) (paths : List Bytes) (h : P s) :
    P (visitAll visit s paths).1 := by
  induction paths generalizing s with
  | nil => exact h
  | cons path rest ih =>
    rw [visitAll_cons]
    exact ih (hvisit s path h)

variable (hstill : ∀ {s s'}, Still s s' → P s → P s')
include hstill

/-- What handling the target of a path keeps, a visit of the path alone keeps. -/
theorem visitAlone_keeps {path : Bytes} (h : P s)
    (hhandle : ∀ t, s.handles e path = some t → P (s.handle e t).1) :
    P (s.visitAlone e path).1 := by
  have hquiet (out : Session) (hout : Still s out) : P out := hstill hout h
  rw [visitAlone, visitWith]
  rw [handles] at hhandle
  cases hl : s.view.lstat path with
  | error err => exact hquiet (s.unreadable path).1 ⟨rfl, rfl⟩
  | ok n =>
    by_cases hlink : (n.isLink && !e.options.followLinks) = true
    · simp only [hlink, ↓reduceIte]
      exact hquiet (s.say _ _).countFailed ⟨rfl, rfl⟩
    cases hs : s.view.openNode path with
    | error err =>
      simp only [hlink, Bool.false_eq_true, ↓reduceIte]
      exact hquiet (s.unreadable path).1 ⟨rfl, rfl⟩
    | ok m =>
      simp only [hl, hs, hlink, Bool.false_eq_true, ↓reduceIte] at hhandle ⊢
      cases m with
      | directory mode entries =>
        have hdone := hhandle (Target.new s.tree.cwd path .directory) rfl
        generalize hout : s.handle e (Target.new s.tree.cwd path .directory) = out at hdone
        have hafter (last : Session) (hlast : Still out.1 last) : P last := hstill hlast hdone
        simp only [visitDirectory, hout, visitAll_skip]
        split
        · exact hdone
        · split
          · split
            · exact hafter ((out.1.say _ _).say _ _).countFailed ⟨rfl, rfl⟩
            · exact hafter ((out.1.say _ _).say _ _) ⟨rfl, rfl⟩
          · exact hafter (out.1.say _ _) ⟨rfl, rfl⟩
      | file id mode content => exact hhandle (Target.new s.tree.cwd path .file) rfl
      | special id kind mode =>
        simp only [passBy]
        split
        · exact hquiet { s with waits := _ } ⟨rfl, rfl⟩
        · exact h
      | link target => exact h

variable (hhandle : ∀ s path kind, P s → P (s.handle e (Target.new s.tree.cwd path kind)).1)
include hhandle

/-- What handling any target keeps, a visit of a path alone keeps. -/
theorem visitAlone_keeps_any (path : Bytes) (h : P s) : P (s.visitAlone e path).1 := by
  refine visitAlone_keeps hstill h fun t ht => ?_
  obtain ⟨kind, rfl⟩ := eq_new_of_handles ht
  exact hhandle s path kind h

theorem visit_keeps (fuel : Nat) (path : Bytes) (h : P s) : P (visit e fuel s path).1 := by
  induction fuel generalizing s path with
  | zero =>
    have hcut : Still s { s with cutOff := true } := ⟨rfl, rfl⟩
    exact hstill hcut h
  | succ fuel ih =>
    rw [visit, visitWith_eq_goOn]
    exact visitAll_keeps (fun s path => ih path) _ (visitAlone_keeps_any hstill hhandle path h)

/-- What handling a target keeps, a walk keeps. -/
theorem walk_keeps (paths : List Bytes) (h : P s) : P (s.walk e paths).1 :=
  visitAll_keeps (fun _ path => visit_keeps hstill hhandle _ path) paths h

end Keeping

/-- Without fixing a walk changes nothing. -/
theorem still_walk (hfix : e.options.applyFix = false) (s : Session) (paths : List Bytes) :
    Still s (s.walk e paths).1 := by
  refine walk_keeps (P := Still s) (fun h h' => h'.trans h) (fun s' path kind h => h.trans ?_) paths
    (.refl s)
  obtain ⟨hreport, htree | ⟨happly, -⟩⟩ := handle_cases e s' (Target.new s'.tree.cwd path kind)
  · exact ⟨htree, hreport⟩
  · simp [hfix] at happly

end Linewise.Session
