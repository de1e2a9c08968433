import Linewise.Proofs.MendingPass
import Linewise.Proofs.TargetHistories
import Linewise.Proofs.ReplacementEndings
import Linewise.Proofs.WalkFrames
import Linewise.Proofs.WrittenFiles

/-!
# Walks that mend

Of the standard rules one edits lines, and it runs first; the others look at what it leaves. So what
is written back to a file is what one pass over its content makes of it, and the file is not written
again. Everything else stays as it is: the names, kinds and modes of all entries, and the targets of
links.
-/

namespace Linewise

namespace Target
open Scan

/-- A target after something that edits no lines: it counts as changed only if it did before. -/
structure Untouched (t t' : Target) : Prop where
  fullPath : t'.fullPath = t.fullPath
  changed : t'.changed = true → t.changed = true ∧ t'.text = t.text

theorem Untouched.refl (t : Target) : t.Untouched t := ⟨rfl, fun h => ⟨h, rfl⟩⟩

theorem Untouched.trans {t t' t'' : Target} (h : t.Untouched t') (h' : t'.Untouched t'') :
    t.Untouched t'' := by
  refine ⟨h'.fullPath.trans h.fullPath, fun hchanged => ?_⟩
  obtain ⟨hchanged', htext'⟩ := h'.changed hchanged
  obtain ⟨hchanged, htext⟩ := h.changed hchanged'
  exact ⟨hchanged, htext'.trans htext⟩

variable {σ : Type} {visit : Visitor σ}

theorem lines_ofLines_looking (hlooks : ∀ m c, (visit m c).2.1.lines = c.lines) (visits : Nat) (m : σ)
    (lines : Array Bytes) (rule : Bytes) : (ofLines visit visits m lines rule).lines = lines := by
  refine lines_ofLines (P := fun a => a.2.lines = lines) ?_ ?_ (fun _ h => h)
    (fun m c _ _ _ => hlooks m c) visits
  · intro c hstart
    obtain ⟨off, states, rfl⟩ := Cursor.start_frame hstart
    rfl
  · rintro _ _ ha (@⟨m, c, c', -, -, hmove⟩ | @⟨m, m', c, d, c', -, -, hvisit, hmove⟩)
    · have hsame := lines_advance_one c
      rw [hmove] at hsame
      exact hsame.trans ha
    · have hsame := (lines_advance_one d).trans (congrArg (·.2.1.lines) hvisit).symm
      rw [hmove] at hsame
      exact hsame.trans ((hlooks m c).trans ha)

theorem untouched_scan (hlooks : ∀ m c, (visit m c).2.1.lines = c.lines) (t : Target)
    (tree : FileTree) (rule : Bytes) (m : σ) (visits : Option Nat) :
    t.Untouched (t.scan tree rule visit m visits).1 := by
  unfold scan
  split
  · exact .refl t
  next hfile =>
    cases hl : t.load tree with
    | error e => exact .refl t
    | ok loaded =>
      simp only [lines_ofLines_looking hlooks]
      rcases load_cases hl with ⟨rfl, hdirectory | ⟨c, hc⟩⟩ | ⟨hfile, -, data, -, rfl⟩
      · simp [isDirectory, hdirectory] at hfile
      · rw [setLines_lines hc]
        exact .refl loaded
      · -- What was read just now has not been changed.
        exact ⟨rfl, by simp [setLines, changed, lines, hfile]⟩

end Target

/-- A rule that edits no lines. -/
def Rule.Looks (r : Rule) : Prop :=
  ∀ (ctx : Context) (tree : FileTree) (t : Target), t.Untouched (r.run ctx tree t).target

theorem Rule.target_report {σ : Type} (t : Target) (path message : Bytes) (log : Log) (s : Scan σ) :
    (Rule.report t path message log s).target = t := by
  unfold report
  split
  · split <;> rfl
  all_goals rfl

theorem Filename.looks : Filename.rule.Looks := by
  intro ctx tree t
  simp only [rule]
  split <;> exact .refl t

theorem ExecutableBit.looks : ExecutableBit.rule.Looks := by
  intro ctx tree t
  simp only [rule]
  split
  · exact .refl t
  · split <;> exact .refl t

theorem LinePattern.looks (id description message : Bytes) (p : Pattern) (extensions : List Bytes) :
    (LinePattern.rule id description message p extensions).Looks := by
  intro ctx tree t
  simp only [rule, Rule.target_report]
  refine t.untouched_scan (fun m c => ?_) tree id () none
  by_cases hp : p.occursIn c.line = true <;> simp [visitor, hp, Cursor.mark, Cursor.markLine]

theorem Header.looks : Header.rule.Looks := by
  intro ctx tree t
  simp only [rule, run, Rule.target_report]
  refine t.untouched_scan (fun m c => ?_) tree id _ none
  simp only [visitor]
  split_ifs <;> simp [Cursor.mark, Cursor.markLine, Cursor.skipToEnd]

/-- All standard rules but the first only look. -/
theorem looks_of_mem_tail {flag : Int} {r : Rule} (h : r ∈ (standardRules flag).tail) : r.Looks := by
  simp only [standardRules, List.tail_cons, List.mem_cons, List.not_mem_nil, or_false] at h
  rcases h with rfl | rfl | rfl | rfl | rfl | rfl | rfl
  · exact Filename.looks
  · exact Header.looks
  · exact LinePattern.looks _ _ _ _ _
  · exact LinePattern.looks _ _ _ _ _
  · exact LinePattern.looks _ _ _ _ _
  · exact LinePattern.looks _ _ _ _ _
  · exact ExecutableBit.looks

namespace Session

variable {e : Engine} {s : Session} {t : Target}

theorem untouched_runRules {rules : List Rule} (h : ∀ r ∈ rules, r.Looks) (s : Session) (t : Target)
    (outcome : Outcome) : t.Untouched (runRules e rules s t outcome).2.1 := by
  induction rules generalizing s t outcome with
  | nil => exact .refl t
  | cons r rest ih =>
    have hrest := fun r hr => h r (List.mem_cons_of_mem _ hr)
    have hlook := h r List.mem_cons_self (e.contextOf r)
    simp only [runRules]
    split
    · exact hlook _ t
    · split
      · exact (hlook _ t).trans (ih hrest _ _ _)
      · exact (hlook _ t).trans (ih hrest _ _ _)

theorem done_of_breakdown? {v : Verdict} (h : breakdown? v = none) : ∃ clean, v = .done clean := by
  cases v with
  | done clean => exact ⟨clean, rfl⟩
  | failed | panicked => simp [breakdown?] at h

/-- The tree as a rule sees it. -/
def shownTo (s : Session) (r : Rule) : FileTree :=
  (s.say .trace (utf8 "+ Running rule " ++ r.id)).view

theorem shownTo_of_report (h : s.report = none) (r : Rule) : s.shownTo r = s.tree := by
  simp [shownTo, Journal.view, say, h]

/-- The first rule that runs breaks down, or the others look at what it leaves. -/
theorem runRules_cons {r : Rule} {rest : List Rule} (hlook : ∀ r ∈ rest, r.Looks) (outcome : Outcome)
    (h : (runRules e (r :: rest) s t outcome).2.2 ≠ .aborted) :
    (∃ clean, (r.run (e.contextOf r) (s.shownTo r) t).verdict = .done clean) ∧
      (r.run (e.contextOf r) (s.shownTo r) t).target.Untouched
        (runRules e (r :: rest) s t outcome).2.1 := by
  have hshown : (s.say .trace (utf8 "+ Running rule " ++ r.id)).view = s.shownTo r := rfl
  simp only [runRules, hshown] at h ⊢
  cases hb : breakdown? (r.run (e.contextOf r) (s.shownTo r) t).verdict with
  | some text => simp [hb] at h
  | none =>
    refine ⟨done_of_breakdown? hb, ?_⟩
    by_cases hclean : isClean (r.run (e.contextOf r) (s.shownTo r) t).verdict = true
    · simpa [hclean] using untouched_runRules hlook _ _ _
    · simpa [hclean] using untouched_runRules hlook _ _ _

/-- What a run of standard rules on an unread target leaves to be written is what the first of them
made of the file. -/
theorem ran_mends {flag : Int} (he : e.rules.Sublist (standardRules flag)) (hfresh : t.content = none)
    (houtcome : (s.ran e t).2.2 ≠ .aborted) (hchanged : (s.ran e t).2.1.changed = true) :
    let shown := (s.begin t).shownTo (Whitespace.rule flag)
    let first := Whitespace.run flag (e.contextOf (Whitespace.rule flag)) shown t
    ∃ data clean, Whitespace.Unread shown t data ∧ first.verdict = .done clean ∧
      first.target.changed = true ∧ (s.ran e t).2.1.text = first.target.text ∧
      (s.ran e t).2.1.fullPath = t.fullPath := by
  intro shown first
  have hselect : (e.select t).Sublist (Whitespace.rule flag :: (standardRules flag).tail) :=
    List.filter_sublist.trans he
  have hlook {rest : List Rule} (h : rest.Sublist (standardRules flag).tail) : ∀ r ∈ rest, r.Looks :=
    fun r hr => looks_of_mem_tail (h.mem hr)
  rcases List.sublist_cons_iff.mp hselect with hrest | ⟨rest, hcons, hrest⟩
  · have hbefore := (untouched_runRules (hlook hrest) _ t _).changed hchanged
    simp [Target.changed, hfresh] at hbefore
  · have hsel := (List.mem_filter.mp (hcons ▸ List.mem_cons_self :
      Whitespace.rule flag ∈ e.select t)).2
    have hfile : t.kind = .file := by
      simp only [Engine.selects, Bool.and_eq_true] at hsel
      simpa [Whitespace.rule, Target.isFile] using hsel.2
    rw [ran, hcons] at houtcome hchanged ⊢
    obtain ⟨⟨clean, hdone⟩, hlooked⟩ := runRules_cons (s := s.begin t) (hlook hrest) .passed houtcome
    obtain ⟨hfirst, htext⟩ := hlooked.changed hchanged
    obtain ⟨data, hunread⟩ := Whitespace.unread_of_done hfile hfresh hdone
    exact ⟨data, clean, hunread, hdone, hfirst, htext,
      hlooked.fullPath.trans (Whitespace.fullPath_run_unread flag _ hunread)⟩

end Session

/-- Every place holds what it held before or, where it held a file, a file of the same mode with what
one pass makes of the text. The mended text is one that a second pass leaves alone. -/
structure Mends (flag : Int) (settings : Settings) (before after : FileTree) : Prop where
  cwd_eq : after.cwd = before.cwd
  places : ∀ place, after.view place = before.view place ∨
    ∃ id id' mode data, before.view place = some (.file id mode data) ∧
      after.view place = some (.file id' mode (Whitespace.mended flag settings data)) ∧
      Whitespace.Lasting (Lines.split (Whitespace.mended flag settings data)) ∧
      (Lines.split (Whitespace.mended flag settings data)).length < 2 ^ 63

/-- A tree in which no entry has the name of a lock. -/
def LockFree (t : FileTree) : Prop :=
  ∀ place name, t.view (place ++ [name]) ≠ none → ¬ utf8 ".fuzz-lock" <:+ name

/-- A tree whose files fit into memory. -/
def Holdable (t : FileTree) : Prop :=
  ∀ place id mode content, t.view place = some (.file id mode content) → content.length < 2 ^ 63

theorem lockFree_of_allEntries {t : FileTree}
    (h : t.root.allEntries (fun name _ => !(utf8 ".fuzz-lock").isSuffixOf name) = true) :
    LockFree t := by
  intro place name hsome
  obtain ⟨n, hn⟩ := Option.ne_none_iff_exists'.mp hsome
  obtain ⟨m, hm, -⟩ := Option.map_eq_some_iff.mp hn
  have hcheck := Node.check_of_allEntries h hm
  rw [← List.isSuffixOf_iff_suffix]
  simpa only [Bool.not_eq_true', Bool.not_eq_true] using hcheck

theorem holdable_of_allEntries {t : FileTree} (hroot : t.root.isDirectory = true)
    (h : t.root.allEntries (fun _ n =>
      match n with
      | .file _ _ content => content.length < 2 ^ 63
      | _ => true) = true) : Holdable t := by
  intro place id mode content hfile
  have hget := Node.view_eq_file.mp hfile
  rcases List.eq_nil_or_concat place with rfl | ⟨D, name, rfl⟩
  · rw [Node.get?_nil, Option.some.injEq] at hget
    simp [hget, Node.isDirectory] at hroot
  · rw [List.concat_eq_append] at hget
    simpa using Node.check_of_allEntries h hget

section Mends

variable {flag : Int} {settings : Settings} {before t : FileTree}

theorem Mends.refl (t : FileTree) : Mends flag settings t t := ⟨rfl, fun _ => .inl rfl⟩

theorem Mends.lock_free (h : Mends flag settings before t) (hlock : LockFree before) (D : Place)
    (name : Bytes) : t.view (D ++ [Replacement.lockName name]) = none := by
  have hnone : before.view (D ++ [Replacement.lockName name]) = none := by
    by_contra hsome
    exact hlock D _ hsome ⟨utf8 "." ++ name, rfl⟩
  rcases h.places (D ++ [Replacement.lockName name]) with hsame | ⟨_, _, _, _, hfile, -⟩
  · rw [hsame, hnone]
  · simp [hnone] at hfile

/-- Replacing a file by what one pass makes of its first content. -/
theorem Mends.replaces (h : Mends flag settings before t) {t' : FileTree} {place : Place}
    {id mode : Nat} {data : Bytes} (hold : before.view place = some (.file id mode data))
    (hlasting : Whitespace.Lasting (Lines.split (Whitespace.mended flag settings data)))
    (hlength : (Lines.split (Whitespace.mended flag settings data)).length < 2 ^ 63)
    (hreplaces : Replacement.Replaces t' t.privileged t.cwd t.view place mode
      (Whitespace.mended flag settings data)) : Mends flag settings before t' := by
  rcases hreplaces with ⟨-, hcwd, hview⟩ | ⟨newId, -, hcwd, hview⟩
  · exact ⟨hcwd.trans h.cwd_eq, fun q => hview ▸ h.places q⟩
  · refine ⟨hcwd.trans h.cwd_eq, fun q => ?_⟩
    rw [hview]
    by_cases hq : q = place
    · subst hq
      rw [Function.update_self]
      exact .inr ⟨id, newId, mode, data, hold, rfl, hlasting, hlength⟩
    · rw [Function.update_of_ne hq]
      exact h.places q

end Mends

namespace Session
open Whitespace

theorem mends_handle {flag : Int} {e : Engine} (he : e.rules = standardRules flag)
    (hw : e.writer = Writer.replacing) {before : FileTree} (hlock : LockFree before)
    (hsize : Holdable before) (s : Session) (path : Bytes) (kind : Kind) (hreport : s.report = none)
    (h : Mends flag (e.contextOf (Whitespace.rule flag)).settings before s.tree) :
    Mends flag (e.contextOf (Whitespace.rule flag)).settings before
      (s.handle e (Target.new s.tree.cwd path kind)).1.tree := by
  generalize ht : Target.new s.tree.cwd path kind = t
  have hfresh : t.content = none := ht ▸ rfl
  obtain ⟨-, htree | ⟨happly, houtcome, hchanged, htree⟩⟩ := handle_cases e s t
  · rw [htree]
    exact h
  · have hrules : e.rules.Sublist (standardRules flag) := by rw [he]
    obtain ⟨data, clean, hunread, hdone, hfirst, htext, hpath⟩ :=
      ran_mends hrules hfresh houtcome hchanged
    have hshown : (s.begin t).shownTo (Whitespace.rule flag) = s.tree :=
      shownTo_of_report (s := s.begin t) hreport _
    rw [hshown] at hunread hdone hfirst htext
    have hview : (s.ran e t).1.view = s.tree := by
      obtain ⟨hran, hranReport⟩ := still_ran e s t
      rw [Journal.view, hranReport, hreport, hran]
    have hctx : e.contextOf (Whitespace.rule flag) =
        ⟨true, (e.contextOf (Whitespace.rule flag)).settings⟩ := by
      simp [Engine.contextOf, happly]
    rw [hctx] at hdone htext
    obtain ⟨place, id, mode, hfind⟩ := find_of_changed hunread hfirst
    have hplace : s.tree.view place = some (.file id mode data) :=
      Node.view_eq_file.mpr (FileTree.get?_of_find hfind)
    rcases h.places place with hsame | ⟨_, _, _, old, -, hmended, hlasting, hlength⟩
    · have hold : before.view place = some (.file id mode data) := hsame.symm.trans hplace
      obtain ⟨hlasting, hlength⟩ := lasting_mended hunread (hsize _ _ _ _ hold) hdone
      refine h.replaces hold hlasting hlength ?_
      rw [htree, hw, hview, hpath, htext, text_run_unread (fits_of_done _ hdone) hunread]
      exact Replacement.run_replaces hfind (fun D name _ => h.lock_free hlock D name) _
    · -- A file that was written before is not changed again.
      obtain ⟨-, -, rfl⟩ := Node.file.inj (Option.some.inj (hplace.symm.trans hmended))
      rw [changed_run_lasting flag _ hunread hlasting hlength] at hfirst
      simp at hfirst

/-- A walk that mends touches nothing but the content of files, and these by one pass over the
content that they had. -/
theorem walk_mends_content_only {flag : Int} {e : Engine} (he : e.rules = standardRules flag)
    (hw : e.writer = Writer.replacing) {s : Session} (hreport : s.report = none)
    (hlock : LockFree s.tree) (hsize : Holdable s.tree) (paths : List Bytes) :
    (s.walk e paths).1.tree.cwd = s.tree.cwd ∧
      ∀ place, (s.walk e paths).1.tree.view place = s.tree.view place ∨
        ∃ id id' mode data, s.tree.view place = some (.file id mode data) ∧
          (s.walk e paths).1.tree.view place = some (.file id' mode
            (mended flag (e.contextOf (Whitespace.rule flag)).settings data)) := by
  obtain ⟨-, hmends⟩ := walk_keeps (s := s) (e := e)
    (P := fun s' => s'.report = none ∧
      Mends flag (e.contextOf (Whitespace.rule flag)).settings s.tree s'.tree)
    (fun hstill h => ⟨hstill.report.trans h.1, hstill.tree ▸ h.2⟩)
    (fun s' path kind h => ⟨(handle_cases e s' _).1.trans h.1,
      mends_handle he hw hlock hsize s' path kind h.1 h.2⟩) paths ⟨hreport, .refl s.tree⟩
  refine ⟨hmends.cwd_eq, fun place => (hmends.places place).imp_right ?_⟩
  rintro ⟨id, id', mode, data, hbefore, hafter, -, -⟩
  exact ⟨id, id', mode, data, hbefore, hafter⟩

/-- A file and a link to it. -/
def linkedFile : FileTree :=
  ⟨.directory 0o755 [(utf8 "f", .file 0 0o4755 (utf8 "a \n")), (utf8 "l", .link (utf8 "f"))],
    utf8 "/", 1, false⟩

/-- The standard rules, set to mend and to follow links. -/
def mendingEngine : Engine where
  rules := standardRules
  options := { applyFix := true, followLinks := true }
  writer := Writer.replacing
  filters := []
  excludes := {}

/-- The file is mended through the link and then met again. -/
theorem walk_mends_content_only_linked :
    let walked := (({ tree := linkedFile } : Session).walk mendingEngine [utf8 "l", utf8 "f"]).1
    LockFree linkedFile ∧ Holdable linkedFile ∧ walked.stats = ⟨2, 0, 0, 1⟩ ∧
      walked.tree.readFile (utf8 "f") = .ok (utf8 "a\n") ∧
      ∀ place, walked.tree.view place = linkedFile.view place ∨
        ∃ id id' mode data, linkedFile.view place = some (.file id mode data) ∧
          walked.tree.view place = some (.file id' mode (mended 0 [] data)) := by
  have hlock : LockFree linkedFile := lockFree_of_allEntries (by decide +kernel)
  have hsize : Holdable linkedFile := holdable_of_allEntries (by decide) (by decide +kernel)
  exact ⟨hlock, hsize, by decide +kernel, by decide +kernel,
    (walk_mends_content_only (e := mendingEngine) rfl rfl rfl hlock hsize _).2⟩

end Session

end Linewise
