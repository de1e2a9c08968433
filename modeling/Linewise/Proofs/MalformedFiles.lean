import Linewise.Proofs.RuleRuns
import Linewise.Proofs.ScanCoverage
import Linewise.Proofs.SuppressedText

/-!
# Files with malformed directives

A scan that shows one line after the other lands on every line before the line can be edited, so it
does not come to the end of a text with a malformed directive, whatever it mends on the way. The rules
that read all lines of a file give up on such a file, the other rules edit nothing, and so nothing is
written back.
-/

namespace Linewise

namespace Cursor

/-- A cursor that stands where another one stood, with the same lines below. -/
structure Remains (c d : Cursor) : Prop where
  index_eq : d.index = c.index
  size_eq : d.lines.size = c.lines.size
  below : ∀ j, c.index < j → d.lines[j]? = c.lines[j]?
  consistent : Consistent c → Consistent d

variable {c d d' : Cursor}

theorem Remains.refl (c : Cursor) : Remains c c := ⟨rfl, rfl, fun _ _ => rfl, id⟩

theorem Remains.trans (h : Remains c d) (h' : Remains d d') : Remains c d' :=
  ⟨h'.index_eq.trans h.index_eq, h'.size_eq.trans h.size_eq,
    fun j hj => (h'.below j (h.index_eq.symm ▸ hj)).trans (h.below j hj),
    h'.consistent ∘ h.consistent⟩

/-- An index that does not fit into 64 bits becomes a smaller one. -/
theorem le_of_target?_zero {i : Nat} (h : c.target? 0 = some i) : i ≤ c.index := by
  have hwrap : (Int64.ofNat c.index + 0).toInt ≤ c.index := by
    rw [Int64.add_zero, Int64.toInt_ofNat', Int.bmod_def]
    simp only [Int64.size]
    split <;> omega
  unfold target? at h
  simp only at h
  split at h
  · cases h
  · obtain rfl := Option.some.inj h
    omega

theorem remains_setLine (c : Cursor) (text : Bytes) : Remains c (c.setLine text).1 := by
  obtain ⟨hsize, hindex⟩ := size_setText c 0 text
  refine ⟨hindex, hsize, fun j hj => ?_, fun h => h.setText 0 text⟩
  unfold setLine setText
  cases htarget : c.target? 0 with
  | none => rfl
  | some i =>
    have hle := le_of_target?_zero htarget
    exact Array.getElem?_setIfInBounds_ne (by omega)

theorem remains_mark (c : Cursor) : Remains c c.mark :=
  ⟨rfl, rfl, fun _ _ => rfl, fun h => ⟨h.index_le, h.size_le, h.state_eq⟩⟩

end Cursor

namespace Scan
open Cursor Directive

variable {σ : Type} {visit : Visitor σ} {L : Array Bytes}

/-- The visitor leaves the cursor and the lines below it where they are, and asks for the next line. -/
def Stays (visit : Visitor σ) : Prop :=
  ∀ m c, Remains c (visit m c).2.1 ∧ (visit m c).2.2 = .next

theorem stays_linePattern (p : Pattern) : Stays (LinePattern.visitor p) := by
  intro m c
  refine ⟨?_, rfl⟩
  simp only [LinePattern.visitor]
  split
  · exact remains_mark c
  · exact .refl c

theorem stays_check : Stays Whitespace.checkVisitor := fun _ c => ⟨.refl c, rfl⟩

theorem stays_fix (path : Bytes) (width : Nat) : Stays (Whitespace.fixVisitor path width) := by
  intro found c
  refine ⟨?_, Whitespace.request_fixVisitor path width found c⟩
  rw [Whitespace.fixVisitor_cursor]
  split
  · split
    · exact (remains_setLine c _).trans (remains_setLine _ _)
    · exact remains_setLine c _
  · split
    · exact remains_setLine c _
    · exact .refl c

/-- What holds at every turn of a scan by a visitor that stays: the lines from the cursor on are as they
were at first, and those above it had no malformed directive. -/
structure Passed (L : Array Bytes) (c : Cursor) : Prop where
  consistent : Consistent c
  landed : c.atEnd = false → Landed c
  size_eq : c.lines.size = L.size
  ahead : ∀ j, c.index ≤ j → c.lines[j]? = L[j]?
  above : ∀ j line, j < c.index → L[j]? = some line → isMalformed line = false

section Passed

variable {m m' : σ} {c d c' : Cursor}

/-- The line that a cursor has landed on has no malformed directive. -/
theorem not_isMalformed_of_landed {line : Bytes} (h : Landed c)
    (hline : c.lines[c.index]? = some line) :
    isMalformed line = false := by
  by_contra hbad
  have hline' : c.lines.toList[c.index]? = some line := by simpa using hline
  cases hfirst : firstMalformed? c.lines.toList with
  | none =>
    have hgood := List.findIdx?_eq_none_iff.mp hfirst line (List.mem_of_getElem? hline')
    exact hbad hgood
  | some k =>
    have hlt : c.index < k := h.readable k hfirst
    obtain ⟨hk, -, hbefore⟩ := List.findIdx?_eq_some_iff_getElem.mp hfirst
    have hgood := hbefore c.index hlt
    obtain ⟨hi, rfl⟩ := List.getElem?_eq_some_iff.mp hline'
    exact hbad (by simpa using hgood)

/-- Moving on from a line on which the visitor stayed. -/
theorem Passed.move (h : Passed L c) (hd : Remains c d) (hin : c.atEnd = false)
    (hmove : d.advance 1 = (c', none)) : Passed L c' := by
  have hdin : d.atEnd = false := by rwa [atEnd, hd.index_eq, hd.size_eq]
  obtain ⟨hlines, hindex⟩ := advance_one_frame hdin
  obtain ⟨hcons, -, hlanded⟩ := landed_of_advance_one (hd.consistent h.consistent) hmove
  rw [hmove] at hlines hindex
  replace hindex : c'.index = c.index + 1 := by rw [← hd.index_eq]; exact hindex
  replace hlines : c'.lines = d.lines := hlines
  refine ⟨hcons, hlanded, by rw [hlines, hd.size_eq, h.size_eq], fun j hj => ?_,
    fun j line hj hline => ?_⟩
  · rw [hlines, hd.below j (by omega), h.ahead j (by omega)]
  · by_cases hlast : j = c.index
    · subst hlast
      exact not_isMalformed_of_landed (h.landed hin) ((h.ahead c.index (Nat.le_refl _)).trans hline)
    · exact h.above j line (by omega) hline

theorem Passed.turn (hstay : Stays visit) {a b : σ × Cursor} (h : Passed L a.2)
    (hturn : Turn visit a b) : Passed L b.2 := by
  cases hturn with
  | @skip m c c' hin hoff hmove => exact h.move (.refl c) hin hmove
  | @look m m' c d c' hin hon hvisit hmove =>
    have hd : (visit m c).2.1 = d := by rw [hvisit]
    exact h.move (hd ▸ (hstay m c).1) hin hmove

theorem passed_start {rule : Bytes} (h : Cursor.start L rule = .ok c) : Passed L c := by
  obtain ⟨hcons, -, hlanded⟩ := start_spec h
  obtain ⟨off, states, rfl⟩ := start_frame h
  exact ⟨hcons, fun _ => hlanded, rfl, fun _ _ => rfl, fun j line hj => by simp at hj⟩

end Passed

/-- A scan by a visitor that stays gives up on a text with a malformed directive. -/
theorem ofLines_malformed (hstay : Stays visit) (hbad : ∃ line ∈ L.toList, isMalformed line = true)
    (m : σ) (rule : Bytes) :
    ∃ e, (ofLines visit L.size m L rule).ending = .failed (.directive e) := by
  have hturn : ∀ a b, Passed L a.2 → Turn visit a b → Passed L b.2 := fun _ _ ha => ha.turn hstay
  have hnot : (ofLines visit L.size m L rule).ending ≠ .exhausted := by
    refine ofLines_not_exhausted (P := fun a => Passed L a.2) (fun _ hs => passed_start hs) hturn ?_
    intro m c m' d _ _ _ hvisit
    obtain ⟨hremains, -⟩ := hstay m c
    rw [hvisit] at hremains
    exact ⟨hremains.size_eq, hremains.index_eq.ge⟩
  rcases ending_ofLines (fun m c => (hstay m c).2) L.size m L rule with hfin | hexhausted | hfailed
  · -- All lines are above the cursor.
    exfalso
    obtain ⟨c, hlast, hend, -⟩ := kept_of_finished (P := fun a => Passed L a.2)
      (fun _ hs => passed_start hs) hturn hfin
    obtain ⟨line, hmem, hbad⟩ := hbad
    obtain ⟨j, hj⟩ := List.mem_iff_getElem?.mp hmem
    have hlt : j < L.size := by simpa using (List.getElem?_eq_some_iff.mp hj).1
    have hend' : L.size ≤ c.index := hlast.size_eq ▸ of_decide_eq_true hend
    have hgood := hlast.above j line (Nat.lt_of_lt_of_le hlt hend') (by simpa using hj)
    simp [hgood] at hbad
  · exact absurd hexhausted hnot
  · exact hfailed

end Scan

open Scan Directive

namespace Target

/-- A file whose lines count as read and, whenever they are read from one of some trees, have a
malformed directive among them. -/
structure Spoilt (seen : FileTree → Prop) (t : Target) : Prop where
  file : t.kind = .file
  unchanged : t.changed = false
  malformed : ∀ tree u, seen tree → t.load tree = .ok u →
    ∃ line ∈ u.lines.toList, isMalformed line = true

variable {σ : Type} {visit : Visitor σ} {seen : FileTree → Prop} {tree : FileTree} {t u : Target}

theorem Spoilt.mono {seen' : FileTree → Prop} (h : t.Spoilt seen)
    (hsub : ∀ tree, seen' tree → seen tree) : t.Spoilt seen' :=
  ⟨h.file, h.unchanged, fun tree u htree => h.malformed tree u (hsub tree htree)⟩

theorem Spoilt.loaded (h : t.Spoilt seen) (htree : seen tree) (hload : t.load tree = .ok u) :
    u.Spoilt seen := by
  obtain ⟨hfile, hsame, -, hagain⟩ := load_of_load h.file hload
  refine ⟨hfile, hsame h.unchanged, fun tree' u' _ hload' => ?_⟩
  obtain rfl : u = u' := Except.ok.inj ((hagain tree').symm.trans hload')
  exact h.malformed tree u htree hload

/-- A scan by a visitor that stays gives up on such a file. -/
theorem Spoilt.scan_fails (h : t.Spoilt seen) (htree : seen tree) (hstay : Stays visit) (m : σ)
    (rule : Bytes) : ∃ error, (t.scan tree rule visit m).2.ending = .failed error := by
  cases hload : t.load tree with
  | error e => exact ⟨.unreadable e, by simp [scan, isDirectory, h.file, hload]⟩
  | ok u =>
    obtain ⟨e, he⟩ := ofLines_malformed hstay (h.malformed tree u htree hload) m rule
    exact ⟨.directive e, by simpa [scan_of_load h.file hload] using he⟩

/-- A scan by a visitor that edits no lines leaves such a file as one. -/
theorem Spoilt.scan_looking (h : t.Spoilt seen) (htree : seen tree)
    (hlooks : ∀ m c, (visit m c).2.1.lines = c.lines) (m : σ) (rule : Bytes) :
    (t.scan tree rule visit m).1.Spoilt seen := by
  cases hload : t.load tree with
  | error e => simpa [scan, isDirectory, h.file, hload] using h
  | ok u =>
    obtain ⟨-, -, hsame, -⟩ := load_of_load h.file hload
    rw [scan_of_load h.file hload, lines_ofLines_looking hlooks, hsame]
    exact h.loaded htree hload

end Target

/-- The ids of the standard rules that read all lines of a file. -/
def lineReaders : List Bytes :=
  ["check_whitespace", "check_id_tag", "check_ace_error", "check_exit_keyword",
    "check_taox11_namespace"].map utf8

namespace Rule
open Target

variable {seen : FileTree → Prop} {tree : FileTree} {t : Target} {flag : Int} {r : Rule}

theorem report_of_failed {σ : Type} {s : Scan σ} {error : RuleError} (h : s.ending = .failed error)
    (t : Target) (path message : Bytes) (log : Log) (clean : Bool) :
    (Rule.report t path message log s).verdict ≠ .done clean := by
  simp [Rule.report, h]

/-- The rules that read all lines give up on a file with a malformed directive. -/
theorem gives_up_of_reader (hr : r ∈ standardRules flag) (hid : r.id ∈ lineReaders)
    (h : t.Spoilt seen) (htree : seen tree) (ctx : Context) :
    ∀ clean, (r.run ctx tree t).verdict ≠ .done clean := by
  have hpattern (id description message : Bytes) (p : Pattern) (extensions : List Bytes)
      (clean : Bool) :
      ((LinePattern.rule id description message p extensions).run ctx tree t).verdict ≠
        .done clean := by
    obtain ⟨error, hfails⟩ := h.scan_fails htree (stays_linePattern p) () id
    exact report_of_failed hfails _ _ _ _ clean
  simp only [standardRules, List.mem_cons, List.not_mem_nil, or_false] at hr
  rcases hr with rfl | rfl | rfl | rfl | rfl | rfl | rfl | rfl
  · have hstay : Stays (Whitespace.visitor flag ctx t.path) := by
      unfold Whitespace.visitor
      split
      · exact stays_fix _ _
      · exact stays_check
    obtain ⟨error, hfails⟩ := h.scan_fails htree hstay {} Whitespace.id
    intro clean
    simp only [Whitespace.rule, Whitespace.run, Whitespace.conclude, hfails]
    split <;> simp
  · exact absurd hid (by decide)
  · exact absurd hid (by decide)
  · exact hpattern _ _ _ _ _
  · exact hpattern _ _ _ _ _
  · exact hpattern _ _ _ _ _
  · exact hpattern _ _ _ _ _
  · exact absurd hid (by decide)

/-- The other standard rules leave such a file as one. -/
theorem spoilt_run (hr : r ∈ standardRules flag) (hid : r.id ∉ lineReaders) (h : t.Spoilt seen)
    (htree : seen tree) (ctx : Context) : (r.run ctx tree t).target.Spoilt seen := by
  simp only [standardRules, List.mem_cons, List.not_mem_nil, or_false] at hr
  rcases hr with rfl | rfl | rfl | rfl | rfl | rfl | rfl | rfl
  · exact absurd (show Whitespace.id ∈ lineReaders by decide) hid
  · simp only [Filename.rule]
    split <;> exact h
  · simp only [Header.rule, Header.run, Rule.target_report]
    refine h.scan_looking htree (fun m c => ?_) _ _
    simp only [Header.visitor]
    split_ifs <;> simp [Cursor.mark, Cursor.markLine, Cursor.skipToEnd]
  · exact absurd (by decide) hid
  · exact absurd (by decide) hid
  · exact absurd (by decide) hid
  · exact absurd (by decide) hid
  · simp only [ExecutableBit.rule]
    split
    · exact h
    · split <;> exact h

end Rule

namespace Session

variable {e : Engine} {s : Session} {t : Target} {flag : Int}

/-- The trees that a session may show to the rules: messages are added to the report, and nothing else
changes. -/
def MayShow (s : Session) (tree : FileTree) : Prop :=
  ∃ more : Log, tree = Journal.view { s.toJournal with log := s.log ++ more }

theorem mayShow_shownTo (s : Session) (r : Rule) : s.MayShow (s.shownTo r) := ⟨_, rfl⟩

theorem MayShow.told {runs : List Performance} {tree : FileTree} (h : (s.told e runs).MayShow tree) :
    s.MayShow tree := by
  obtain ⟨more, rfl⟩ := h
  exact ⟨runs.flatMap (·.messages e) ++ more, by simp [Session.told]⟩

/-- Rules on a file with a malformed directive: those that read all lines give up, and none of those
that do not give up has edited anything. -/
theorem runRules_spoilt {rules : List Rule} (hrules : ∀ r ∈ rules, r ∈ standardRules flag) (s : Session)
    (h : t.Spoilt s.MayShow) (outcome : Outcome) :
    let out := runRules e rules s t outcome
    (out.2.2 = .aborted ∨ out.2.1.changed = false) ∧
      ((∃ r ∈ rules, r.id ∈ lineReaders) → out.2.2 = .aborted) := by
  induction rules generalizing s t outcome with
  | nil => exact ⟨.inr h.unchanged, by simp⟩
  | cons r rest ih =>
    intro out
    have hr := hrules r List.mem_cons_self
    have htree := s.mayShow_shownTo r
    rcases runRules_step e r rest s t outcome with ⟨-, hout⟩ | ⟨clean, hdone, hout⟩
    · have haborted : out.2.2 = .aborted := by simp only [out, hout]
      exact ⟨.inl haborted, fun _ => haborted⟩
    · have hid : r.id ∉ lineReaders := by
        intro hid
        exact Rule.gives_up_of_reader hr hid h htree (e.contextOf r) clean hdone
      have hnext := (Rule.spoilt_run hr hid h htree (e.contextOf r)).mono
        fun tree (hshow : (s.told e [⟨r, s.shownTo r, t⟩]).MayShow tree) => hshow.told
      obtain ⟨hends, hreader⟩ := ih (fun r hr => hrules r (List.mem_cons_of_mem _ hr)) _ hnext _
      simp only [out, hout]
      exact ⟨hends, fun ⟨r', hr', hid'⟩ => hreader ⟨r',
        (List.mem_cons.mp hr').resolve_left (by rintro rfl; exact hid hid'), hid'⟩⟩

/-- A file with a malformed directive is never written back, and it is aborted by every rule that reads
all lines. -/
theorem handle_spares_malformed (he : e.rules = standardRules flag) (hfile : t.kind = .file)
    (hsame : t.changed = false)
    (hbad : ∀ tree u, s.MayShow tree → t.load tree = .ok u →
      ∃ line ∈ u.lines.toList, isMalformed line = true) :
    (s.handle e t).1.writes = s.writes ∧ (s.handle e t).1.answers = s.answers ∧
      (s.handle e t).1.tree = s.tree ∧
      ((∃ r ∈ e.select t, r.id ∈ lineReaders) → (s.handle e t).2.2 = .aborted) := by
  have hrules : ∀ r ∈ e.select t, r ∈ standardRules flag :=
    fun r hr => he ▸ List.mem_of_mem_filter hr
  have hspoilt : t.Spoilt (s.begin t).MayShow := by
    refine ⟨hfile, hsame, fun tree u hshow => hbad tree u ?_⟩
    obtain ⟨more, rfl⟩ := hshow
    exact ⟨⟨.debug, utf8 "Handling " ++ t.label⟩ :: more, by simp [begin, say]⟩
  obtain ⟨hends, hreader⟩ := runRules_spoilt (e := e) hrules (s.begin t) hspoilt .passed
  obtain ⟨runs, -, hruns⟩ := runRules_performs e (e.select t) (s.begin t) t .passed
  generalize hran : runRules e (e.select t) (s.begin t) t .passed = ran at hends hreader hruns
  obtain ⟨after, final, outcome⟩ := ran
  have hframe : after.writes = s.writes ∧ after.answers = s.answers ∧ after.tree = s.tree := by
    rcases hruns with ⟨-, -, -, -, -, -, hsession, -⟩ | ⟨-, -, hsession, -⟩
    · obtain rfl : after = _ := hsession
      exact ⟨rfl, rfl, rfl⟩
    · obtain rfl : after = _ := hsession
      exact ⟨rfl, rfl, rfl⟩
  simp only [handle, hran]
  by_cases houtcome : outcome = .aborted
  · simpa [houtcome] using hframe
  · have hkept : final.changed = false := hends.resolve_left houtcome
    have hnone : ¬∃ r ∈ e.select t, r.id ∈ lineReaders := fun hsome => houtcome (hreader hsome)
    cases outcome with
    | aborted => exact absurd rfl houtcome
    | passed | failed => simpa [conclude, hkept, hnone, countFailed] using hframe

/-- An engine that fixes with all standard rules. -/
def standardEngine : Engine :=
  { rules := standardRules
    options := { applyFix := true }
    writer := .replacing
    filters := []
    excludes := {} }

/-- The first line is mended in memory before the directive is met, and nothing is written. -/
theorem handle_spares_malformed_mending :
    let s : Session := { tree := Whitespace.oneFile (utf8 "a \nb\nX11_FUZZ: enable\nc\t\n") }
    let out := s.handle standardEngine Whitespace.unreadFile
    out.1.writes = [] ∧ out.1.tree = s.tree ∧ out.2.2 = .aborted ∧
      out.2.1.lines[0]? = some (utf8 "a\n") := by
  intro s
  have hmended : (s.handle standardEngine Whitespace.unreadFile).2.1.lines[0]? =
      some (utf8 "a\n") := by decide +kernel
  have hselected : ∃ r ∈ standardEngine.select Whitespace.unreadFile, r.id ∈ lineReaders :=
    ⟨Whitespace.rule, List.mem_filter.mpr ⟨by simp [standardEngine, standardRules], by decide⟩,
      by decide⟩
  have hrules : standardEngine.rules = standardRules 0 := rfl
  have hbad : ∀ tree u, s.MayShow tree → Whitespace.unreadFile.load tree = .ok u →
      ∃ line ∈ u.lines.toList, isMalformed line = true := by
    rintro tree u ⟨more, rfl⟩ hload
    have hlines : ∃ v, Whitespace.unreadFile.load s.tree = .ok v ∧
        ∃ line ∈ v.lines.toList, isMalformed line = true :=
      ⟨_, rfl, utf8 "X11_FUZZ: enable\n", by decide +kernel, by decide⟩
    obtain ⟨v, hv, hmalformed⟩ := hlines
    obtain rfl : v = u := Except.ok.inj (hv.symm.trans hload)
    exact hmalformed
  have hspared := handle_spares_malformed hrules rfl rfl hbad
  have hnone : s.writes = [] := rfl
  rw [hnone] at hspared
  generalize s.handle standardEngine Whitespace.unreadFile = out at hspared hmended
  obtain ⟨hwrites, -, htree, haborted⟩ := hspared
  exact ⟨hwrites, htree, haborted hselected, hmended⟩

end Session

end Linewise
