import Linewise.Proofs.MendedLines
import Linewise.Proofs.ScanTurns

/-!
# Mending blanks and tabs

After a scan that mends, every line is clean or the rule is off there, and the latter can be read off
the mended text itself. So a second scan finds nothing, provided that it can read the directives:
mending can spoil a directive, and no landing notices it on the last line.
-/

namespace Linewise.Whitespace
open Bytes Lines Cursor Directive Scan

theorem expandTabs_of_not_hasTab (width : Nat) {line : Bytes} (h : hasTab line = false) :
    expandTabs width line = line := by
  have hkeep : ∀ b ∈ line, (if b == tab then List.replicate width 32 else [b]) = [b] := by
    intro b hb
    have hbt : b ≠ tab := by
      rintro rfl
      simp [hasTab, hb] at h
    simp [hbt]
  rw [expandTabs, replaceByte, List.flatMap_congr hkeep]
  simp

theorem fixVisitor_cursor (path : Bytes) (width : Nat) (found : Findings) (c : Cursor) :
    (fixVisitor path width found c).2.1 =
      if hasTrailing c.line then
        if hasTab (strip c.line) then
          ((c.setLine (strip c.line)).1.setLine (expandTabs width (strip c.line))).1
        else (c.setLine (strip c.line)).1
      else if hasTab c.line then (c.setLine (expandTabs width c.line)).1 else c := by
  cases ht : hasTrailing c.line with
  | true => cases htab : hasTab (strip c.line) <;> simp [fixVisitor, ht, htab]
  | false => cases htab : hasTab c.line <;> simp [fixVisitor, ht, htab]

theorem request_fixVisitor (path : Bytes) (width : Nat) (found : Findings) (c : Cursor) :
    (fixVisitor path width found c).2.2 = .next := by
  simp only [fixVisitor]
  split <;> split <;> rfl

/-- A visit of the mending scan replaces the line by the mended one and stays where it is. -/
theorem fixVisitor_frame (path : Bytes) (width : Nat) (found : Findings) {c : Cursor}
    (hsize : c.lines.size < 2 ^ 63) (hin : c.atEnd = false) :
    (fixVisitor path width found c).2.1.rule = c.rule ∧
      (fixVisitor path width found c).2.1.index = c.index ∧
      (fixVisitor path width found c).2.1.lines =
        c.lines.setIfInBounds c.index (fixLine width c.line) := by
  have heq (text : Bytes) := setLine_eq hsize hin text
  rw [fixVisitor_cursor]
  cases ht : hasTrailing c.line with
  | true =>
    cases htab : hasTab (strip c.line) with
    | true =>
      have hsize' : (c.setLine (strip c.line)).1.lines.size < 2 ^ 63 := by simpa [heq] using hsize
      have hin' : (c.setLine (strip c.line)).1.atEnd = false := by simpa [heq, atEnd] using hin
      simp only [↓reduceIte]
      rw [setLine_eq hsize' hin', heq]
      simp [fixLine, ht]
    | false => simp [heq, fixLine, ht, expandTabs_of_not_hasTab width htab]
  | false =>
    cases htab : hasTab c.line with
    | true => simp [heq, fixLine, ht]
    | false =>
      refine ⟨rfl, rfl, ?_⟩
      simp [fixLine, ht, expandTabs_of_not_hasTab width htab, setIfInBounds_line hsize hin]

theorem fixVisitor_spec (path : Bytes) (width : Nat) (found : Findings) {c : Cursor}
    (hsize : c.lines.size < 2 ^ 63) (hin : c.atEnd = false) (hcons : Consistent c) :
    Consistent (fixVisitor path width found c).2.1 ∧
      (fixVisitor path width found c).2.1.rule = c.rule ∧
      (fixVisitor path width found c).2.1.index = c.index ∧
      (fixVisitor path width found c).2.1.lines =
        c.lines.setIfInBounds c.index (fixLine width c.line) := by
  refine ⟨?_, fixVisitor_frame path width found hsize hin⟩
  have hset (text : Bytes) : Consistent (c.setLine text).1 := hcons.setText 0 text
  rw [fixVisitor_cursor]
  split
  · split
    · exact (hset _).setText 0 _
    · exact hset _
  · split
    · exact hset _
    · exact hcons

/-- What holds at every turn of a scan that mends the lines `initial`: the lines before the cursor are
mended or as they were, those from the cursor on are as they were, and every line before the cursor
is clean or the text as it is now switches the rule off there. -/
structure Mending (width : Nat) (initial : Array Bytes) (c : Cursor) : Prop where
  consistent : Consistent c
  rule_eq : c.rule = id
  size_eq : c.lines.size = initial.size
  lines_eq : ∀ j, c.lines[j]? = initial[j]? ∨
    j < c.index ∧ c.lines[j]? = initial[j]?.map (fixLine width)
  settled : ∀ j line, j < c.index → c.lines[j]? = some line →
    offAfter id (c.lines.toList.take (j + 1)) = .ok true ∨ Clean line
  landed : c.atEnd = false → Landed c
  readable : ∃ off, offAfter id (c.lines.toList.take (c.index - 1)) = .ok off

variable {width : Nat} {initial : Array Bytes} {c c' : Cursor}

theorem Mending.skip (h : Mending width initial c) (hin : c.atEnd = false)
    (hoff : c.suppressed = true) (hmove : c.advance 1 = (c', none)) :
    Mending width initial c' := by
  have hlanded : offAfter id (c.lines.toList.take (c.index + 1)) = .ok true := by
    have := h.landed hin
    rwa [Landed, h.rule_eq, hoff] at this
  have hnext := h.consistent.down (by simp [hin])
  obtain ⟨off, states, hframe⟩ := land_frame { c with index := c.index + 1 }
  obtain ⟨hcons, hland, -⟩ := land_spec hnext
  rw [← advance_one hin, hmove] at hframe hcons hland
  simp only at hframe
  subst hframe
  refine ⟨hcons, h.rule_eq, h.size_eq, fun j => ?_, ?_, hland rfl, ?_⟩
  · exact (h.lines_eq j).imp_right fun ⟨hj, hfix⟩ => ⟨by simp only; omega, hfix⟩
  · intro j line hj hline
    by_cases hlast : j = c.index
    · subst hlast
      exact Or.inl hlanded
    · exact h.settled j line (by simp only at hj; omega) hline
  · exact ⟨_, (offAfter_take_of_ok hlanded (Nat.le_succ _)).choose_spec⟩

theorem Mending.look (h : Mending width initial c) (path : Bytes) (found : Findings)
    (hall : ∀ line ∈ initial.toList, IsLine line) (hsize : initial.size < 2 ^ 63)
    (hin : c.atEnd = false)
    (hmove : (fixVisitor path width found c).2.1.advance 1 = (c', none)) :
    Mending width initial c' := by
  have hcsize : c.lines.size < 2 ^ 63 := by rw [h.size_eq]; exact hsize
  have hline := line_eq hcsize hin
  have hinitial : initial[c.index]? = some c.line := by
    rcases h.lines_eq c.index with heq | ⟨hlt, -⟩
    · rw [← heq, hline]
    · omega
  have hclean : Clean (fixLine width c.line) :=
    clean_fixLine width (hall _ (by simpa using Array.mem_of_getElem? hinitial))
  obtain ⟨hdcons, hdrule, hdindex, hdlines⟩ := fixVisitor_spec path width found hcsize hin h.consistent
  generalize (fixVisitor path width found c).2.1 = d at *
  -- the states of the lines before the mended one are those of the text before
  have htake (j : Nat) (hj : j ≤ c.index) : d.lines.toList.take j = c.lines.toList.take j := by
    rw [hdlines, Array.toList_setIfInBounds, List.take_set_of_le hj]
  have hdin : d.atEnd = false := by simpa [atEnd, hdlines, hdindex] using hin
  obtain ⟨off, states, hframe⟩ := land_frame { d with index := d.index + 1 }
  obtain ⟨hcons, hland, -⟩ := land_spec (hdcons.down (by simp [hdin]))
  rw [← advance_one hdin, hmove] at hframe hcons hland
  simp only at hframe
  subst hframe
  refine ⟨hcons, hdrule.trans h.rule_eq, by simp [hdlines, h.size_eq], fun j => ?_, ?_, hland rfl, ?_⟩
  · simp only [hdlines, hdindex]
    by_cases hj : c.index = j
    · subst hj
      refine Or.inr ⟨Nat.lt_succ_self _, ?_⟩
      have hlt : c.index < c.lines.size := by simpa [atEnd] using hin
      rw [Array.getElem?_setIfInBounds_self_of_lt hlt, hinitial, Option.map_some]
    · rw [Array.getElem?_setIfInBounds_ne hj]
      rcases h.lines_eq j with heq | ⟨hlt, hfix⟩
      · exact Or.inl heq
      · exact Or.inr ⟨by omega, hfix⟩
  · intro j line hj hjline
    simp only [hdindex] at hj
    by_cases hlast : c.index = j
    · subst hlast
      have hlt : c.index < c.lines.size := by simpa [atEnd] using hin
      simp only [hdlines, Array.getElem?_setIfInBounds_self_of_lt hlt, Option.some.injEq] at hjline
      exact Or.inr (hjline ▸ hclean)
    · simp only [hdlines, Array.getElem?_setIfInBounds_ne hlast] at hjline
      have := h.settled j line (by omega) hjline
      rwa [← htake (j + 1) (by omega)] at this
  · have hlanded := h.landed hin
    rw [Landed, h.rule_eq, linesRead] at hlanded
    obtain ⟨off, hoff⟩ := offAfter_take_of_ok hlanded (Nat.le_succ _)
    exact ⟨off, by simpa [hdindex, htake c.index (Nat.le_refl _)] using hoff⟩

theorem mending_start (h : Cursor.start initial id = .ok c) : Mending width initial c := by
  obtain ⟨hcons, hrule, hlanded⟩ := start_spec h
  obtain ⟨off, states, rfl⟩ := start_frame h
  exact ⟨hcons, hrule, rfl, fun _ => Or.inl rfl, by simp, fun _ => hlanded, ⟨false, rfl⟩⟩

/-- A scan that mends and comes to its end keeps its invariant to the end. -/
theorem mending_of_finished {path : Bytes} {visits : Nat}
    (hall : ∀ line ∈ initial.toList, IsLine line) (hsize : initial.size < 2 ^ 63)
    (hfin : (ofLines (fixVisitor path width) visits {} initial id).ending = .finished) :
    ∃ c, Mending width initial c ∧ c.atEnd = true ∧
      (ofLines (fixVisitor path width) visits {} initial id).lines = c.lines := by
  have hturn : ∀ a b, Mending width initial a.2 → Turn (fixVisitor path width) a b →
      Mending width initial b.2 := by
    rintro _ _ ha (⟨hin, hoff, hmove⟩ | ⟨hin, hon, hvisit, hmove⟩)
    · exact ha.skip hin hoff hmove
    · exact ha.look path _ hall hsize hin (by rw [hvisit]; exact hmove)
  obtain ⟨c, hm, hend, hstop⟩ := kept_of_finished (P := fun a => Mending width initial a.2)
    (fun c hs => mending_start hs) hturn hfin
  exact ⟨c, hm, hend, congrArg Scan.lines hstop⟩

/-- Every line is clean, or the text down to it can be read and switches the rule off. -/
def Lasting (lines : List Bytes) : Prop :=
  ∀ j line, lines[j]? = some line → offAfter id (lines.take (j + 1)) = .ok true ∨ Clean line

/-- Every directive can be read, and every line is clean or has the rule off. -/
def Settled (lines : List Bytes) : Prop :=
  ∀ j line, lines[j]? = some line →
    ∃ off, offAfter id (lines.take (j + 1)) = .ok off ∧ (off = true ∨ Clean line)

theorem Settled.lasting {lines : List Bytes} (h : Settled lines) : Lasting lines := by
  intro j line hline
  obtain ⟨off, hoff, rfl | hclean⟩ := h j line hline
  · exact .inl hoff
  · exact .inr hclean

/-- Mended lines are settled when the directives of the last one can be read. -/
theorem Mending.settled_of_last (h : Mending width initial c) (hend : c.atEnd = true)
    (hlast : ∀ line, c.lines.back? = some line → ∃ ds, parse line c.lines.size = .ok ds) :
    Settled c.lines.toList := by
  have hindex : c.index = c.lines.size := by
    have := h.consistent.index_le
    simp only [atEnd, ge_iff_le, decide_eq_true_eq] at hend
    omega
  obtain ⟨before, hbefore⟩ := h.readable
  have hwhole : ∃ off, offAfter id (c.lines.toList.take c.lines.size) = .ok off := by
    rw [hindex] at hbefore
    cases hn : c.lines.size with
    | zero => exact ⟨false, rfl⟩
    | succ n =>
      obtain ⟨last, hget⟩ : ∃ last, c.lines[n]? = some last :=
        ⟨_, Array.getElem?_eq_getElem (by omega)⟩
      obtain ⟨ds, hds⟩ := hlast last (by rw [Array.back?_eq_getElem?, hn]; exact hget)
      have hlist : c.lines.toList[n]? = some last := by simpa using hget
      have hlen : (c.lines.toList.take n).length = n := by
        simp only [List.length_take, Array.length_toList]
        omega
      simp only [hn, Nat.add_sub_cancel] at hbefore hds
      refine ⟨apply id before ds, ?_⟩
      rw [List.take_add_one, hlist, Option.toList_some, offAfter_concat hbefore, hlen, applyLine, hds]
  intro j line hline
  obtain ⟨whole, hwhole⟩ := hwhole
  have hj : j < c.lines.size := by simpa using (List.getElem?_eq_some_iff.mp hline).1
  obtain ⟨off, hoff⟩ := offAfter_take_of_ok hwhole (show j + 1 ≤ c.lines.size from hj)
  refine ⟨off, hoff, ?_⟩
  rcases h.settled j line (by omega) (by simpa using hline) with htrue | hclean
  · exact Or.inl (by simpa [hoff] using htrue)
  · exact Or.inr hclean

theorem Settled.of_append {above below : List Bytes} (h : Settled (above ++ below)) :
    Settled above := by
  intro j line hline
  have hj : j < above.length := (List.getElem?_eq_some_iff.mp hline).1
  obtain ⟨off, hoff, hcase⟩ := h j line (by rw [List.getElem?_append_left hj, hline])
  rw [List.take_append_of_le_length hj] at hoff
  exact ⟨off, hoff, hcase⟩

theorem Mending.cut (h : Mending width initial c) (hi : Cut initial.toList) :
    Cut c.lines.toList := by
  refine cut_fixLine width hi (List.forall₂_iff_get.mpr ⟨by simp [h.size_eq], fun j hj hj' => ?_⟩)
  have hold : initial[j]? = some (initial.toList.get ⟨j, hj⟩) := by simp
  have hnew : c.lines[j]? = some (c.lines.toList.get ⟨j, hj'⟩) := by simp
  rcases h.lines_eq j with hsame | ⟨-, hfixed⟩
  · rw [hnew, hold, Option.some.injEq] at hsame
    exact Or.inl hsame
  · rw [hnew, hold, Option.map_some, Option.some.injEq] at hfixed
    exact Or.inr hfixed

/-- What holds at every turn of a scan that edits nothing. -/
structure Reading (lines : Array Bytes) (c : Cursor) : Prop where
  consistent : Consistent c
  rule_eq : c.rule = id
  lines_eq : c.lines = lines
  flagged_eq : c.flagged = []
  landed : c.atEnd = false → Landed c
  readable : ∃ off, offAfter id (lines.toList.take c.index) = .ok off

variable {lines : Array Bytes}

theorem Reading.off_eq (h : Reading lines c) (hin : c.atEnd = false) :
    offAfter id (lines.toList.take (c.index + 1)) = .ok c.suppressed := by
  have hlanded := h.landed hin
  rwa [Landed, linesRead, h.rule_eq, h.lines_eq] at hlanded

theorem reading_start (h : Cursor.start lines id = .ok c) : Reading lines c := by
  obtain ⟨hcons, hrule, hlanded⟩ := start_spec h
  obtain ⟨off, states, rfl⟩ := start_frame h
  exact ⟨hcons, hrule, rfl, rfl, fun _ => hlanded, ⟨false, rfl⟩⟩

theorem Reading.next (h : Reading lines c) (hin : c.atEnd = false)
    (hmove : c.advance 1 = (c', none)) : Reading lines c' := by
  obtain ⟨off, states, hframe⟩ := land_frame { c with index := c.index + 1 }
  obtain ⟨hcons, hland, -⟩ := land_spec (h.consistent.down (by simp [hin]))
  rw [← advance_one hin, hmove] at hframe hcons hland
  simp only at hframe
  subst hframe
  exact ⟨hcons, h.rule_eq, h.lines_eq, h.flagged_eq, hland rfl, ⟨_, h.off_eq hin⟩⟩

/-- On settled lines no move meets a malformed directive. -/
theorem Reading.move_ok (h : Reading lines c) (hs : Settled lines.toList) (hin : c.atEnd = false)
    {e : MalformedDirective} : c.advance 1 ≠ (c', some e) := by
  intro hmove
  obtain ⟨-, -, herror⟩ := land_spec (h.consistent.down (by simp [hin]))
  rw [← advance_one hin, hmove] at herror
  have hoff := herror e rfl
  simp only [linesRead, h.rule_eq, h.lines_eq] at hoff
  by_cases hnext : c.index + 1 < lines.size
  · obtain ⟨off, hok, -⟩ := hs (c.index + 1) lines[c.index + 1] (by simp [hnext])
    simp [hok] at hoff
  · rw [List.take_of_length_le (by simp; omega)] at hoff
    have hok := h.off_eq hin
    rw [List.take_of_length_le (by simp; omega)] at hok
    simp [hok] at hoff

theorem Reading.clean (h : Reading lines c) (hs : Lasting lines.toList) (hsize : lines.size < 2 ^ 63)
    (hin : c.atEnd = false) (hon : c.suppressed = false) : Clean c.line := by
  have hline := line_eq (by rw [h.lines_eq]; exact hsize) hin
  have hoff := h.off_eq hin
  rw [hon] at hoff
  exact (hs c.index c.line (by simpa [h.lines_eq] using hline)).resolve_left (by simp [hoff])

theorem start_settled (hs : Settled lines.toList) : ∃ c, Cursor.start lines id = .ok c := by
  cases hstart : Cursor.start lines id with
  | ok c => exact ⟨c, rfl⟩
  | error e =>
    have herror := start_error hstart
    by_cases hempty : lines = #[]
    · simp [hempty] at herror
    · have hpos : 0 < lines.size := Nat.pos_of_ne_zero (by simpa using hempty)
      obtain ⟨off, hok, -⟩ := hs 0 lines[0] (by simp [hpos])
      simp [hok] at herror

/-- A scan of settled lines by a visitor that leaves clean lines alone comes to its end and changes
nothing. -/
theorem ofLines_settled {visit : Visitor Findings}
    (hquiet : ∀ c, Clean c.line → visit {} c = ({}, c, .next)) (hs : Settled lines.toList)
    (hsize : lines.size < 2 ^ 63) :
    ofLines visit lines.size {} lines id = ⟨{}, lines, [], .finished⟩ := by
  obtain ⟨c, hstart⟩ := start_settled hs
  have hfirst := reading_start hstart
  let P : Findings × Cursor → Prop := fun a => a.1 = {} ∧ Reading lines a.2
  have hturn : ∀ a b, P a → Turn visit a b → P b := by
    rintro _ _ ⟨hm, ha⟩ (⟨hin, hoff, hmove⟩ | ⟨hin, hon, hvisit, hmove⟩)
    · exact ⟨hm, ha.next hin hmove⟩
    · simp only at hm
      rw [hm, hquiet _ (ha.clean hs.lasting hsize hin hon)] at hvisit
      obtain ⟨rfl, rfl⟩ : _ ∧ _ := by simpa using hvisit
      exact ⟨rfl, ha.next hin hmove⟩
  simp only [ofLines, hstart]
  obtain ⟨⟨m, d⟩, hturns, hends⟩ := drive_ends visit lines.size {} c
  obtain ⟨hm, hd⟩ : P (m, d) := turns_keep hturn ⟨rfl, hfirst⟩ hturns
  simp only at hm hd
  subst hm
  have hnot : (drive visit lines.size {} c).ending ≠ .exhausted := by
    refine drive_not_exhausted hturn ?_ lines.size {} c ⟨rfl, hfirst⟩ (by rw [hfirst.lines_eq]; omega)
    rintro m c m' d ⟨hm, hc⟩ hin hon hvisit
    simp only at hm
    rw [hm, hquiet _ (hc.clean hs.lasting hsize hin hon)] at hvisit
    obtain ⟨rfl, rfl⟩ : _ ∧ _ := by simpa using hvisit
    exact ⟨rfl, Nat.le_refl _⟩
  generalize drive visit lines.size {} c = s at hends hnot ⊢
  cases hends with
  | finished hend => simp [stop, hd.lines_eq, hd.flagged_eq]
  | exhausted => exact absurd rfl hnot
  | skipFailed hin hoff hmove => exact absurd hmove (hd.move_ok hs hin)
  | moveFailed hin hon hvisit hmove =>
    rw [hquiet _ (hd.clean hs.lasting hsize hin hon)] at hvisit
    obtain ⟨rfl, rfl⟩ : _ ∧ _ := by simpa using hvisit
    exact absurd hmove (hd.move_ok hs hin)
  | visitFailed hin hon hvisit =>
    rw [hquiet _ (hd.clean hs.lasting hsize hin hon)] at hvisit
    simp at hvisit
  | visitPanicked hin hon hvisit =>
    rw [hquiet _ (hd.clean hs.lasting hsize hin hon)] at hvisit
    simp at hvisit

/-- A scan by a visitor that only looks comes to its end only when all directives can be read. -/
theorem readable_of_finished {visit : Visitor Findings} {visits : Nat} {m : Findings}
    (hlooks : ∀ m c, (visit m c).2.1 = c)
    (hfin : (ofLines visit visits m lines id).ending = .finished) :
    ∃ off, offAfter id lines.toList = .ok off := by
  have hturn : ∀ a b, Reading lines a.2 → Turn visit a b → Reading lines b.2 := by
    rintro _ _ ha (⟨hin, hoff, hmove⟩ | @⟨m, m', c, d, c', hin, hon, hvisit, hmove⟩)
    · exact ha.next hin hmove
    · have hsame : d = c := by simpa [hvisit] using hlooks m c
      exact ha.next hin (hsame ▸ hmove)
  obtain ⟨c, hc, hend, -⟩ := kept_of_finished (P := fun a => Reading lines a.2)
    (fun c hs => reading_start hs) hturn hfin
  obtain ⟨off, hoff⟩ := hc.readable
  have hend' : lines.size ≤ c.index := by
    rw [← hc.lines_eq]
    simpa [atEnd] using hend
  rw [List.take_of_length_le (by simpa using hend')] at hoff
  exact ⟨off, hoff⟩

theorem checkVisitor_clean {c : Cursor} (h : Clean c.line) : checkVisitor {} c = ({}, c, .next) := by
  simp [checkVisitor, h.1, h.2]

theorem fixVisitor_clean (path : Bytes) (width : Nat) {c : Cursor} (h : Clean c.line) :
    fixVisitor path width {} c = ({}, c, .next) := by
  simp [fixVisitor, h.1, h.2]

/-- The file of a target that has not been read yet. -/
structure Unread (tree : FileTree) (t : Target) (data : Bytes) : Prop where
  file : t.kind = .file
  fresh : t.content = none
  data : tree.readFile t.fullPath = .ok data

/-- The text for a tab can be made. -/
def Fits (flag : Int) (settings : Settings) : Prop := tabWidth flag settings ≤ maxText

instance (flag : Int) (settings : Settings) : Decidable (Fits flag settings) :=
  inferInstanceAs (Decidable (tabWidth flag settings ≤ maxText))

/-- When the text for a tab can be made, a run is a scan. -/
theorem run_of_fits {flag : Int} (ctx : Context) (h : Fits flag ctx.settings) (tree : FileTree)
    (t : Target) :
    run flag ctx tree t =
      conclude (t.scan tree id (visitor flag ctx t.path) {}).1
        (t.scan tree id (visitor flag ctx t.path) {}).2 := by
  rw [run, if_neg (not_lt.mpr h)]

/-- When it cannot be made, the rule breaks down before it has looked at anything. -/
theorem run_of_not_fits {flag : Int} (ctx : Context) (h : ¬ Fits flag ctx.settings)
    (tree : FileTree) (t : Target) : run flag ctx tree t = ⟨t, [], .panicked oversized⟩ := by
  rw [run, if_pos (not_le.mp h)]

theorem fits_of_done {flag : Int} (ctx : Context) {tree : FileTree} {t : Target} {clean : Bool}
    (h : (run flag ctx tree t).verdict = .done clean) : Fits flag ctx.settings := by
  by_contra hfits
  simp [run_of_not_fits _ hfits] at h

/-- A run on an unread file is a scan of the lines of its content. -/
theorem run_unread {flag : Int} (ctx : Context) {tree : FileTree} {t : Target} {data : Bytes}
    (hfits : Fits flag ctx.settings) (h : Unread tree t data) :
    run flag ctx tree t =
      let s := ofLines (visitor flag ctx t.path) (split data).length {} (split data).toArray id
      conclude { t with content := some ⟨s.lines, (split data).toArray⟩ } s := by
  simp [run_of_fits _ hfits, Target.scan, Target.isDirectory, Target.load, Target.setLines,
    Target.lines, h.file, h.fresh, h.data]

theorem target_conclude (t : Target) (s : Scan Findings) : (conclude t s).target = t := by
  unfold conclude
  split <;> rfl

theorem finished_of_conclude {t : Target} {s : Scan Findings} {clean : Bool}
    (h : (conclude t s).verdict = .done clean) : s.ending = .finished := by
  unfold conclude at h
  split at h
  next hf => exact hf
  all_goals simp at h

theorem mending_of_run {flag : Int} {settings : Settings} {tree : FileTree} {t : Target}
    {data : Bytes} {clean : Bool} (h : Unread tree t data) (hsize : data.length < 2 ^ 63)
    (hfix : (run flag ⟨true, settings⟩ tree t).verdict = .done clean) :
    ∃ c, Mending (tabWidth flag settings).toNat (split data).toArray c ∧ c.atEnd = true ∧
      (run flag ⟨true, settings⟩ tree t).target.lines = c.lines := by
  have hlength := length_split_le data
  have hfits := fits_of_done ⟨true, settings⟩ hfix
  rw [run_unread ⟨true, settings⟩ hfits h] at hfix ⊢
  obtain ⟨c, hm, hend, hlines⟩ := mending_of_finished
    (fun line hline => isLine_of_cut (cut_split data) (by simpa using hline))
    (by simp; omega) (finished_of_conclude hfix)
  refine ⟨c, hm, hend, ?_⟩
  rw [target_conclude]
  exact hlines

/-- A run on settled lines reports nothing and changes nothing. -/
theorem run_settled {flag : Int} (ctx : Context) {tree : FileTree} {t : Target} {data : Bytes}
    (hfits : Fits flag ctx.settings) (h : Unread tree t data)
    (hsize : (split data).length < 2 ^ 63) (hs : Settled (split data)) :
    (run flag ctx tree t).verdict = .done true ∧ (run flag ctx tree t).log = [] ∧
      (run flag ctx tree t).target.text = data := by
  have hquiet : ∀ c : Cursor, Clean c.line → visitor flag ctx t.path {} c = ({}, c, .next) := by
    intro c hc
    by_cases hfix : ctx.applyFix = true
    · simpa [visitor, hfix] using fixVisitor_clean t.path _ hc
    · simpa [visitor, hfix] using checkVisitor_clean hc
  have hscan : ofLines (visitor flag ctx t.path) (split data).length {} (split data).toArray id =
      ⟨{}, (split data).toArray, [], .finished⟩ :=
    ofLines_settled hquiet (by simpa using hs) (by simpa using hsize)
  rw [run_unread ctx hfits h]
  simp [hscan, conclude, offence, Target.text, Target.lines, flatten_split]

/-- Mending is final exactly when it has not spoilt a directive on the last line, for all runs for which
the text for a tab can be made: then a run on the mended file reports nothing and another one that mends
changes nothing. -/
theorem fix_final_iff_last_readable (flag flag' : Int) (settings settings' : Settings)
    {tree tree' : FileTree} {t t' : Target} {data : Bytes} (h : Unread tree t data)
    (hsize : data.length < 2 ^ 63)
    (hfix : (run flag ⟨true, settings⟩ tree t).verdict = .done true)
    (h' : Unread tree' t' (run flag ⟨true, settings⟩ tree t).target.text) :
    ((run flag' ⟨false, settings'⟩ tree' t').verdict = .done true ∧
        (run flag' ⟨false, settings'⟩ tree' t').log = [] ∧
        (run flag' ⟨true, settings'⟩ tree' t').verdict = .done true ∧
        (run flag' ⟨true, settings'⟩ tree' t').target.text =
          (run flag ⟨true, settings⟩ tree t).target.text) ↔
      Fits flag' settings' ∧
        ∀ line, (run flag ⟨true, settings⟩ tree t).target.lines.back? = some line →
          ∃ ds, parse line (run flag ⟨true, settings⟩ tree t).target.lines.size = .ok ds := by
  obtain ⟨c, hm, hend, hlines⟩ := mending_of_run h hsize hfix
  have htext : (run flag ⟨true, settings⟩ tree t).target.text = c.lines.toList.flatten := by
    rw [Target.text, hlines]
  rw [hlines]
  rw [htext] at h' ⊢
  have hfound := (hm.cut (by simpa using cut_split data)).eq_split_flatten
  have hlength : (split c.lines.toList.flatten).length < 2 ^ 63 := by
    have hdata := length_split_le data
    have hsame : c.lines.toList.length = (split data).length := by simpa using hm.size_eq
    rcases hfound with heq | heq
    · rw [← heq]
      omega
    · have := congrArg List.length heq
      simp only [List.length_append, List.length_singleton] at this
      omega
  constructor
  · rintro ⟨hcheck, -⟩
    have hfits' : Fits flag' settings' := fits_of_done ⟨false, settings'⟩ hcheck
    refine ⟨hfits', fun line hlast => ?_⟩
    rw [run_unread ⟨false, settings'⟩ hfits' h'] at hcheck
    obtain ⟨off, hoff⟩ := readable_of_finished (fun _ _ => rfl) (finished_of_conclude hcheck)
    obtain ⟨above, habove⟩ : ∃ above, c.lines.toList = above ++ [line] :=
      List.getLast?_eq_some_iff.mp (by rwa [Array.getLast?_toList])
    have hnumber : c.lines.size = above.length + 1 := by
      simpa using congrArg List.length habove
    rw [hnumber]
    rcases hfound with heq | heq
    · rw [← heq, habove] at hoff
      exact parse_of_offAfter_concat hoff
    · obtain ⟨-, rfl⟩ : above = _ ∧ line = [] := List.append_singleton_inj.mp (habove.symm.trans heq)
      exact ⟨[], rfl⟩
  · rintro ⟨hfits', hlast⟩
    have hs := hm.settled_of_last hend hlast
    have hs' : Settled (split c.lines.toList.flatten) := by
      rcases hfound with heq | heq
      · rwa [← heq]
      · rw [heq] at hs
        exact hs.of_append
    obtain ⟨hcv, hcl, -⟩ := run_settled ⟨false, settings'⟩ hfits' h' hlength hs'
    obtain ⟨hfv, -, hft⟩ := run_settled ⟨true, settings'⟩ hfits' h' hlength hs'
    exact ⟨hcv, hcl, hfv, hft⟩

/-- A tree with one file `f` in its root. -/
def oneFile (data : Bytes) : FileTree :=
  ⟨.directory 0o755 [(utf8 "f", .file 0 0o644 data)], utf8 "/", 1, false⟩

/-- The file `f`, not read yet. -/
def unreadFile : Target := Target.new (utf8 "/") (utf8 "f") .file

/-- A file with blanks, tabs and directives, mended for good. -/
theorem fix_final_of_directives :
    let data := utf8 "a \t\r\nX11_FUZZ: disable check_whitespace\nb\t \nX11_FUZZ:\tenable \n"
    let fixed := utf8 "a\nX11_FUZZ: disable check_whitespace\nb\t \nX11_FUZZ:\tenable \n"
    let again := run 0 ⟨true, []⟩ (oneFile fixed) unreadFile
    (run 0 ⟨true, []⟩ (oneFile data) unreadFile).verdict = .done true ∧
      (run 0 ⟨true, []⟩ (oneFile data) unreadFile).target.text = fixed ∧
      (run 0 ⟨false, []⟩ (oneFile fixed) unreadFile).verdict = .done true ∧
      (run 0 ⟨false, []⟩ (oneFile fixed) unreadFile).log = [] ∧
      again.verdict = .done true ∧ again.target.text = fixed := by
  intro data fixed again
  have hdata : Unread (oneFile data) unreadFile data := ⟨rfl, rfl, by decide +kernel⟩
  have hfix : (run 0 ⟨true, []⟩ (oneFile data) unreadFile).verdict = .done true := by decide +kernel
  have htext : (run 0 ⟨true, []⟩ (oneFile data) unreadFile).target.text = fixed := by
    decide +kernel
  have hfixed : Unread (oneFile fixed) unreadFile
      (run 0 ⟨true, []⟩ (oneFile data) unreadFile).target.text := by
    rw [htext]
    exact ⟨rfl, rfl, by decide +kernel⟩
  have hlast : (run 0 ⟨true, []⟩ (oneFile data) unreadFile).target.lines.back? =
      some (utf8 "X11_FUZZ:\tenable \n") := by decide +kernel
  have hsize : data.length < 2 ^ 63 := by decide +kernel
  obtain ⟨hcv, hcl, hfv, hft⟩ :=
    (fix_final_iff_last_readable 0 0 [] [] hdata hsize hfix hfixed).mpr (by
      refine ⟨by decide, ?_⟩
      rw [hlast]
      rintro line ⟨rfl⟩
      exact ⟨[], rfl⟩)
  exact ⟨hfix, htext, hcv, hcl, hfv, hft.trans htext⟩

/-- A directive on the last line that ends in a vertical tab loses its rule id to the mending: the
run that mends passes, and no run on the mended file does. -/
theorem fix_spoils_last_directive :
    let data := utf8 "X11_FUZZ: enable \x0b\n"
    let fixed := utf8 "X11_FUZZ: enable\n"
    let refused : Verdict := .failed false (.directive ⟨1, utf8 "X11_FUZZ: enable"⟩)
    (run 0 ⟨true, []⟩ (oneFile data) unreadFile).verdict = .done true ∧
      (run 0 ⟨true, []⟩ (oneFile data) unreadFile).target.text = fixed ∧
      (run 0 ⟨false, []⟩ (oneFile fixed) unreadFile).verdict = refused ∧
      (run 0 ⟨true, []⟩ (oneFile fixed) unreadFile).verdict = refused := by
  decide +kernel

end Linewise.Whitespace
