import Linewise.CommandLine.Run
import Linewise.Proofs.WalkFrames
import Linewise.Proofs.WrittenFiles

/-!
# Commands that only read

Loading the configuration, expanding paths and walking without fixing leave the tree alone. What a
check writes is its report, into the one file that the command line names for it; listing the rules
and showing the configuration write nothing.
-/

namespace Linewise

namespace Config

/-- Loading looks at files and changes neither the tree nor where the report goes. -/
structure Loading.Still (s s' : Loading) : Prop where
  tree : s'.tree = s.tree
  report : s'.report = s.report

theorem Loading.Still.trans {s s' s'' : Loading} (h : s.Still s') (h' : s'.Still s'') :
    s.Still s'' :=
  ⟨h'.tree.trans h.tree, h'.report.trans h.report⟩

theorem Loader.still_mergeFile (l : Loader) (s : Loading) (c : Config) (path : Bytes)
    (required : Bool) : s.Still (l.mergeFile s c path required).1 := by
  unfold mergeFile
  simp only
  split
  · exact ⟨rfl, rfl⟩
  · split
    · split <;> exact ⟨rfl, rfl⟩
    · split <;> exact ⟨rfl, rfl⟩

theorem Loader.still_mergeFiles (l : Loader) (required : Bool) (s : Loading) (c : Config)
    (paths : List Bytes) : s.Still (l.mergeFiles required s c paths).1 := by
  induction paths generalizing s c with
  | nil => exact ⟨rfl, rfl⟩
  | cons path rest ih =>
    have hfile := l.still_mergeFile s c path required
    rw [mergeFiles]
    cases hm : l.mergeFile s c path required with
    | mk s' result =>
      rw [hm] at hfile
      cases result with
      | ok c' => exact hfile.trans (ih s' c')
      | error e => exact hfile

theorem Loader.still_load (l : Loader) (s : Loading) (explicit : List Bytes) (overrides : Config) :
    s.Still (l.load s explicit overrides).1 := by
  unfold load
  split
  · exact ⟨rfl, rfl⟩
  · have huser := l.still_mergeFiles false s l.start l.userFiles
    cases hm : l.mergeFiles false s l.start l.userFiles with
    | mk s₁ result =>
      rw [hm] at huser
      cases result with
      | error e => exact huser
      | ok c₁ =>
        have hexplicit := huser.trans (l.still_mergeFiles true s₁ c₁ explicit)
        cases hm₁ : l.mergeFiles true s₁ c₁ explicit with
        | mk s₂ result =>
          rw [hm₁] at hexplicit
          cases result with
          | error e => simpa [hm₁] using hexplicit
          | ok c₂ =>
            have hwork := hexplicit.trans (l.still_mergeFiles false s₂ c₂ (l.workFiles s₂.view))
            cases hm₂ : l.mergeFiles false s₂ c₂ (l.workFiles s₂.view) with
            | mk s₃ result =>
              rw [hm₂] at hwork
              cases result with
              | error e => simpa [hm₁, hm₂] using hwork
              | ok c₃ => simpa [hm₁, hm₂] using hwork

end Config

theorem Arguments.tree_loadConfig (a : Arguments) (env : Environment) (j : Journal) :
    (a.loadConfig env j).1.tree = j.tree :=
  (Config.Loader.still_load _ { toJournal := j } _ _).tree

theorem Engine.options_new {tree : FileTree} {registry registry' : Registry} {writer : Writer}
    {o : Options} {e : Engine} (h : Engine.new tree registry writer o = (registry', .ok e)) :
    e.options = o := by
  unfold Engine.new at h
  split at h
  · simp at h
  · simp only at h
    split at h
    · simp at h
    · obtain ⟨-, rfl⟩ : _ ∧ _ = e := by simpa using h
      rfl

namespace Check

/-- A check that does not fix leaves the tree that it works on as it is. -/
theorem tree_walk (env : Environment) (j : Journal) (a : Arguments)
    (hfix : a.isOn Command.applyFixName = false) : (walk env j a).1.tree = j.tree := by
  have hload := a.tree_loadConfig env j
  unfold walk
  cases hc : a.loadConfig env j with
  | mk j' config =>
    rw [hc] at hload
    cases config with
    | error err => exact hload
    | ok c =>
      cases hp : PathArguments.expand j'.view a.words with
      | error err => simpa [hp] using hload
      | ok paths =>
        cases he : Engine.new j'.view (registry a) Writer.replacing (options c a) with
        | mk registry engine =>
          cases engine with
          | error err => simpa [hp, he] using hload
          | ok e =>
            have hoptions : e.options.applyFix = false := by rw [Engine.options_new he]; exact hfix
            have hwalk := (Session.still_walk hoptions { toJournal := j' } paths).tree
            simpa [hp, he] using hwalk.trans hload

/-- A check that does not fix and has no report to write leaves the tree as it is. One with a report
changes the file that was opened for it and nothing else. -/
theorem tree_run (p : Process) (a : Arguments) (hfix : a.isOn Command.applyFixName = false) :
    (run p a).tree = p.tree ∨
      a.text Command.outputName ≠ [] ∧
        ∃ opened place, p.tree.openOrCreate [.read, .write] (a.text Command.outputName) reportMode =
            .ok (opened, place) ∧
          ∀ q, (run p a).tree.view q = p.tree.view q ∨ opened.SameFile place q := by
  cases ho : openReport p.tree (a.text Command.outputName) with
  | error err => exact .inl (by simp [run, ho])
  | ok result =>
    obtain ⟨t, sink⟩ := result
    have hwalk := tree_walk p.env { tree := t, report := reportTo p (console a) sink } a hfix
    cases hw : walk p.env { tree := t, report := reportTo p (console a) sink } a with
    | mk j ending =>
      rw [hw] at hwalk
      obtain rfl : j.tree = t := hwalk
      have hrun : run p a = deliver sink j.tree
          ((console a).transcript p.clock j.log ++ closing p (console a) ending)
          (failureOf ending) := by
        simp only [run, ho, hw]
      rw [hrun]
      unfold openReport at ho
      by_cases hempty : a.text Command.outputName = []
      · obtain ⟨htree, rfl⟩ : p.tree = j.tree ∧ Sink.console = sink := by simpa [hempty] using ho
        exact .inl htree.symm
      · refine .inr ⟨hempty, ?_⟩
        cases hopen : p.tree.openOrCreate [.read, .write] (a.text Command.outputName) reportMode with
        | error err => simp [hempty, hopen] at ho
        | ok pair =>
          obtain ⟨opened, place⟩ := pair
          refine ⟨opened, place, rfl, fun q => ?_⟩
          by_cases hq : opened.SameFile place q
          · exact .inr hq
          · obtain ⟨hemptied, hwritten⟩ := FileTree.view_written hopen hq
            simp only [hopen, FileTree.identityAt_eq] at ho
            cases hid : (opened.writeAt place []).identityAt place with
            | some id =>
              obtain ⟨htree, rfl⟩ : opened.writeAt place [] = j.tree ∧ Sink.file id = sink := by
                simpa [hempty, hid] using ho
              exact .inl (htree ▸ hwritten id _ hid)
            | none =>
              obtain ⟨htree, rfl⟩ : opened.writeAt place [] = j.tree ∧ Sink.nowhere = sink := by
                simpa [hempty, hid] using ho
              exact .inl (htree ▸ hemptied)

end Check

namespace CommandLine

/-- A command line that is refused, or that asks for help or the version, leaves the tree alone; any
other performs its command. -/
theorem runCommand_cases (p : Process) (c : Command) (rest : List Bytes) :
    (runCommand p c rest).tree = p.tree ∨
      ∃ a, Arguments.read c.flags rest = .ok a ∧ runCommand p c rest = perform p a c := by
  cases hr : Arguments.read c.flags rest with
  | error err => exact .inl (by simp [runCommand, hr])
  | ok a =>
    simp only [runCommand, hr]
    split
    · exact .inl rfl
    · split
      · exact .inl rfl
      · split
        · exact .inl rfl
        · exact .inr ⟨a, rfl, rfl⟩

theorem tree_showConfig (p : Process) (a : Arguments) : (showConfig p a).tree = p.tree := by
  unfold showConfig
  split <;> rfl

/-- Checking only reads. Whatever a check without fixing comes to, it leaves the tree as it is, but
for the file that the command line names for the report. Listing the rules and showing the
configuration leave the tree as it is. -/
theorem run_only_reads (p : Process) (arguments rest : List Bytes) (c : Command)
    (hc : Command.find arguments = .ok (c, rest)) :
    (c = .list ∨ c = .configShow → (run p arguments).tree = p.tree) ∧
      (c = .check →
        (∀ a, Arguments.read c.flags rest = .ok a → a.isOn Command.applyFixName = false) →
        (run p arguments).tree = p.tree ∨
          ∃ a opened place, Arguments.read c.flags rest = .ok a ∧
            a.text Command.outputName ≠ [] ∧
            p.tree.openOrCreate [.read, .write] (a.text Command.outputName) Check.reportMode =
              .ok (opened, place) ∧
            ∀ q, (run p arguments).tree.view q = p.tree.view q ∨ opened.SameFile place q) := by
  have hrun : run p arguments = runCommand p c rest := by rw [run, hc]
  rw [hrun]
  obtain hkept | ⟨a, hread, hperform⟩ := runCommand_cases p c rest
  · exact ⟨fun _ => hkept, fun _ _ => .inl hkept⟩
  · rw [hperform]
    refine ⟨?_, ?_⟩
    · rintro (rfl | rfl)
      · rfl
      · exact tree_showConfig p a
    · rintro rfl hfix
      obtain hsame | ⟨hnamed, opened, place, hopen, hview⟩ := Check.tree_run p a (hfix a hread)
      · exact .inl hsame
      · exact .inr ⟨a, opened, place, hread, hnamed, hopen, hview⟩

/-- A process that finds a report `r` from before beside a file `f.c` with a blank at the end of a
line. -/
def besideReport : Process where
  tree :=
    ⟨.directory 0o755 [(utf8 "f.c", .file 0 0o644 (utf8 "a \n")),
      (utf8 "r", .file 1 0o600 (utf8 "old"))], utf8 "/", 2, false⟩
  env := fun _ => []
  clock := utf8 "12:00:00"
  duration := utf8 "1ms"

/-- The report goes to `r`, and the file that is checked stays as it is. -/
theorem run_only_reads_beside_report :
    Command.find [utf8 "check", utf8 "-o", utf8 "r", utf8 "f.c"] =
        .ok (.check, [utf8 "-o", utf8 "r", utf8 "f.c"]) ∧
      (run besideReport [utf8 "check", utf8 "-o", utf8 "r", utf8 "f.c"]).tree.view [utf8 "f.c"] =
        some (.file 0 0o644 (utf8 "a \n")) := by
  have hfind : Command.find [utf8 "check", utf8 "-o", utf8 "r", utf8 "f.c"] =
      .ok (.check, [utf8 "-o", utf8 "r", utf8 "f.c"]) := by decide +kernel
  have hread : Arguments.read Command.check.flags [utf8 "-o", utf8 "r", utf8 "f.c"] =
      .ok ⟨[(Command.outputName, .text (utf8 "r"))], [utf8 "f.c"]⟩ := by decide +kernel
  have hopened : besideReport.tree.openOrCreate [.read, .write] (utf8 "r") Check.reportMode =
      .ok (besideReport.tree, [utf8 "r"]) := rfl
  refine ⟨hfind, ?_⟩
  have hkept := (run_only_reads besideReport _ _ _ hfind).2 rfl (by
    intro a ha
    obtain rfl := Except.ok.inj (ha.symm.trans hread)
    decide +kernel)
  rcases hkept with hsame | ⟨a, opened, place, ha, -, hopen, hview⟩
  · rw [hsame]; rfl
  · obtain rfl := Except.ok.inj (ha.symm.trans hread)
    obtain ⟨rfl, rfl⟩ := Prod.mk.inj (Except.ok.inj (hopen.symm.trans hopened))
    refine (hview [utf8 "f.c"]).resolve_right ?_
    rintro ⟨id, hreport, hfile⟩
    have hids := hreport.trans hfile.symm
    revert hids
    decide +kernel

end CommandLine

end Linewise
