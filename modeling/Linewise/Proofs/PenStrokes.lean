import Linewise.Proofs.BlockScalars

/-!
# Written text

What the pen writes: for every stroke the characters that it adds to the text and where it leaves
the pen.
-/

namespace Linewise.Yaml

open ScalarText

namespace Pen

/-- The pen `q` has written the characters `w` after what the pen `p` has written. -/
def Writes (p : Pen) (w : List Char) (q : Pen) : Prop := q.text = p.text ++ Utf8.encode w

theorem Writes.trans {p q r : Pen} {v w : List Char} (h : p.Writes v q) (h' : q.Writes w r) :
    p.Writes (v ++ w) r := by
  rw [Writes] at *
  rw [h', h, Utf8.encode_append, List.append_assoc]

/-- What is written does not depend on where the pen is left. -/
theorem Writes.of_pieces {p q r : Pen} {w : List Char} (h : p.Writes w q)
    (hr : r.pieces = q.pieces) : p.Writes w r := by
  rw [Writes, text] at *
  rw [hr, h]

@[simp] theorem column_put (p : Pen) (cs : List Char) :
    (p.put cs).column = p.column + cs.length := rfl

@[simp] theorem atIndent_put (p : Pen) (cs : List Char) : (p.put cs).atIndent = p.atIndent := rfl
@[simp] theorem spaced_put (p : Pen) (cs : List Char) : (p.put cs).spaced = p.spaced := rfl
@[simp] theorem column_newLine (p : Pen) : p.newLine.column = 0 := rfl
@[simp] theorem atIndent_newLine (p : Pen) : p.newLine.atIndent = true := rfl
@[simp] theorem spaced_newLine (p : Pen) : p.newLine.spaced = p.spaced := rfl

theorem writes_put (p : Pen) (cs : List Char) : p.Writes cs (p.put cs) := by
  simp [Writes, text, put]

theorem writes_newLine (p : Pen) : p.Writes ['\n'] p.newLine := by
  simp [Writes, text, newLine, Utf8.encode]
  rfl

theorem putBreak_eq (p : Pen) (c : Char) :
    p.putBreak c = { p.put [c] with column := 0, atIndent := true } := by
  rw [putBreak]
  split
  next h =>
    rw [eq_of_beq h]
    rfl
  next => rfl

theorem writes_putBreak (p : Pen) (c : Char) : p.Writes [c] (p.putBreak c) := by
  rw [putBreak_eq]
  exact writes_put p [c]

/-- What the pen writes to get to a column where something starts. -/
def lead (p : Pen) (indent : Nat) : List Char :=
  if !p.atIndent || p.column > indent || (p.column == indent && !p.spaced) then
    '\n' :: List.replicate indent ' '
  else List.replicate (indent - p.column) ' '

theorem writes_indentTo (p : Pen) (indent : Nat) :
    p.Writes (p.lead indent) (p.indentTo indent) := by
  rw [indentTo, lead]
  split
  next => exact (writes_newLine p).trans (writes_put p.newLine _)
  next => exact writes_put p _

theorem indentTo_place (p : Pen) (indent : Nat) :
    (p.indentTo indent).column = indent ∧ (p.indentTo indent).atIndent = true ∧
      (p.indentTo indent).spaced = true := by
  rw [indentTo]
  split
  next => simp
  next h =>
    simp at h ⊢
    exact ⟨by omega, h.1.1⟩

/-- The space before something that must not touch what stands before it. -/
def apart (p : Pen) : List Char := if p.spaced then [] else [' ']

theorem writes_indicator (p : Pen) (sign : String) (spaced keepsIndent : Bool) :
    p.Writes (p.apart ++ sign.toList) (p.indicator sign true spaced keepsIndent) := by
  rw [indicator, apart]
  cases hp : p.spaced with
  | true => exact (writes_put p sign.toList).of_pieces rfl
  | false => exact ((writes_put p [' ']).trans (writes_put _ sign.toList)).of_pieces rfl

theorem writes_indicator_close (p : Pen) (sign : String) (spaced keepsIndent : Bool) :
    p.Writes sign.toList (p.indicator sign false spaced keepsIndent) :=
  (writes_put p sign.toList).of_pieces rfl

theorem writes_nil (p : Pen) : p.Writes [] p := by
  simp [Writes]

/-- At the start of a line the pen writes the indentation and nothing else. -/
theorem lead_of_lineStart {p : Pen} {indent : Nat} (hi : 0 < indent) (hcol : p.column = 0)
    (hat : p.atIndent = true) : p.lead indent = List.replicate indent ' ' := by
  have hne : (0 == indent) = false := by simpa using hi.ne
  simp [lead, hcol, hat, hne]

/-- The characters between single quotes. -/
theorem writes_singleQuoted {indent : Nat} (hi : 0 < indent) {cs : List Char} (h : GoesSingle cs)
    (afterBreak : Bool) (p : Pen)
    (hp : afterBreak = true → p.column = 0 ∧ p.atIndent = true ∧ cs.head? ≠ some ' ') :
    p.Writes (singleText indent afterBreak cs) (singleQuoted indent afterBreak p cs) := by
  induction cs generalizing afterBreak p with
  | nil => exact writes_nil p
  | cons c cs ih =>
    rw [singleText, singleQuoted]
    split
    next hc =>
      obtain rfl := eq_of_beq hc
      have hfalse : afterBreak = false := by
        cases afterBreak with
        | false => rfl
        | true => exact absurd rfl (hp rfl).2.2
      exact (writes_put p [' ']).trans (ih h.tail afterBreak (p.put [' ']) (by simp [hfalse]))
    next hc =>
      split
      next hb =>
        have hline : (!afterBreak && c == '\n') = false := by
          have hne : c ≠ '\n' := fun he => h.oneLine (by simp [he])
          simp [hne]
        have hnext : cs.head? ≠ some ' ' := by
          intro hh
          obtain ⟨more, rfl⟩ := List.head?_eq_some_iff.mp hh
          exact GoesSingle.after_break (by simpa using hb : ∀ d ∈ [c], isBreak d = true) h rfl
        rw [hline]
        exact (writes_putBreak p c).trans
          (ih h.tail true (p.putBreak c) fun _ => by rw [putBreak_eq]; exact ⟨rfl, rfl, hnext⟩)
      next =>
        -- the indentation of a line, the character and the rest
        have hlead : p.Writes (if afterBreak then List.replicate indent ' ' else [])
            (if afterBreak then p.indentTo indent else p) := by
          cases afterBreak with
          | false => exact writes_nil p
          | true =>
            obtain ⟨hcol, hat, _⟩ := hp rfl
            have := writes_indentTo p indent
            rwa [lead_of_lineStart hi hcol hat] at this
        refine hlead.trans ?_
        generalize (if afterBreak = true then p.indentTo indent else p) = q
        have hchar : q.Writes (if c == '\'' then ['\'', '\''] else [c])
            (if c == '\'' then q.put ['\'', '\''] else q.put [c]) := by
          split <;> exact writes_put q _
        exact hchar.trans (ih h.tail false _ (by simp))

/-- The lines of a literal block. The pen is left at the start of a line when the text ends with a
line break. -/
theorem writes_literalLines {indent : Nat} (hi : 0 < indent) (cs : List Char) (afterBreak : Bool)
    (p : Pen) (hat : p.atIndent = afterBreak) (hcol : afterBreak = true → p.column = 0)
    (hsp : p.spaced = true) :
    p.Writes (literalText indent afterBreak cs) (literalLines indent afterBreak p cs) ∧
      (literalLines indent afterBreak p cs).atIndent =
        (cs.getLast?.map isBreak).getD afterBreak ∧
      (literalLines indent afterBreak p cs).spaced = true ∧
      ((literalLines indent afterBreak p cs).atIndent = true →
        (literalLines indent afterBreak p cs).column = 0) := by
  induction cs generalizing afterBreak p with
  | nil => exact ⟨writes_nil p, hat, hsp, fun h => hcol (by rwa [← hat])⟩
  | cons c cs ih =>
    have hlast : ∀ b, ((c :: cs).getLast?.map isBreak).getD b =
        (cs.getLast?.map isBreak).getD (isBreak c) := by
      intro b
      cases cs with
      | nil => rfl
      | cons d cs => simp [List.getLast?_cons]
    rw [hlast, literalText, literalLines]
    cases hb : isBreak c with
    | true =>
      obtain ⟨hw, hrest⟩ := ih true (p.putBreak c) (by rw [putBreak_eq]) (by rw [putBreak_eq]; simp)
        (by rw [putBreak_eq]; exact hsp)
      simp only [if_true]
      exact ⟨(writes_putBreak p c).trans hw, hrest⟩
    | false =>
      have hlead : p.Writes (if afterBreak then List.replicate indent ' ' else [])
          (if afterBreak then p.indentTo indent else p) := by
        cases afterBreak with
        | false => exact writes_nil p
        | true =>
          have := writes_indentTo p indent
          rwa [lead_of_lineStart hi (hcol rfl) hat] at this
      have hsp' : (if afterBreak then p.indentTo indent else p).spaced = true := by
        cases afterBreak with
        | false => exact hsp
        | true => exact (indentTo_place p indent).2.2
      simp only [Bool.false_eq_true, if_false]
      generalize (if afterBreak = true then p.indentTo indent else p) = q at hlead hsp' ⊢
      obtain ⟨hw, hrest⟩ := ih false { q.put [c] with atIndent := false } rfl (by simp) hsp'
      exact ⟨hlead.trans ((writes_put q [c]).trans hw), hrest⟩

section Scalars

variable {s : Scalar} {asKey : Bool} {indent : Nat} (p : Pen)

theorem writes_scalar_plain (htag : s.tag = none) (hne : Utf8.chars s.text ≠ [])
    (hstyle : s.chooseStyle (Scalar.analyse (Utf8.chars s.text)) asKey = .plain) :
    p.Writes (p.apart ++ Utf8.chars s.text) (p.scalar s indent asKey) ∧
      (p.scalar s indent asKey).atIndent = false ∧ (p.scalar s indent asKey).spaced = false := by
  have hempty : (Utf8.chars s.text).isEmpty = false := by simpa using hne
  simp only [scalar, htag, hstyle, hempty, apart, Bool.and_false, and_true]
  cases hp : p.spaced with
  | true => exact (writes_put p _).of_pieces rfl
  | false => exact ((writes_put p [' ']).trans (writes_put _ _)).of_pieces rfl

theorem writes_scalar_double (htag : s.tag = none)
    (hstyle : s.chooseStyle (Scalar.analyse (Utf8.chars s.text)) asKey = .double) :
    p.Writes (p.apart ++ '"' :: ((Utf8.chars s.text).flatMap Scalar.escaped ++ ['"']))
        (p.scalar s indent asKey) ∧
      (p.scalar s indent asKey).atIndent = false ∧ (p.scalar s indent asKey).spaced = false := by
  simp only [scalar, htag, hstyle, and_true]
  have hopen := writes_indicator p "\"" false false
  have hbody := writes_put (p.indicator "\"" true false false)
    ((Utf8.chars s.text).flatMap Scalar.escaped)
  have hw := (hopen.trans hbody).trans (writes_put _ ['"'])
  rw [List.append_assoc, List.append_assoc] at hw
  exact hw.of_pieces rfl

theorem writes_scalar_single (hi : 0 < indent) (htag : s.tag = none)
    (h : GoesSingle (Utf8.chars s.text))
    (hstyle : s.chooseStyle (Scalar.analyse (Utf8.chars s.text)) asKey = .single) :
    p.Writes (p.apart ++ '\'' :: (singleText indent false (Utf8.chars s.text) ++ ['\'']))
        (p.scalar s indent asKey) ∧
      (p.scalar s indent asKey).atIndent = false ∧ (p.scalar s indent asKey).spaced = false := by
  simp only [scalar, htag, hstyle, and_true]
  have hopen := writes_indicator p "'" false false
  have hbody := writes_singleQuoted hi h false (p.indicator "'" true false false) (by simp)
  have hw := (hopen.trans hbody).trans (writes_put _ ['\''])
  rw [List.append_assoc, List.append_assoc] at hw
  exact hw.of_pieces rfl

theorem writes_scalar_literal (hi : 0 < indent) (htag : s.tag = none) {c : Char} {cs : List Char}
    (hcs : Utf8.chars s.text = c :: cs) (hc : isBreak c = false)
    (hstyle : s.chooseStyle (Scalar.analyse (Utf8.chars s.text)) asKey = .literal) :
    p.Writes (p.apart ++ '|' :: ((Scalar.blockHints (c :: cs)).toList ++
        '\n' :: literalText indent true (c :: cs))) (p.scalar s indent asKey) ∧
      (p.scalar s indent asKey).atIndent = (c :: cs).getLast?.any isBreak ∧
      ((p.scalar s indent asKey).atIndent = true →
        (p.scalar s indent asKey).column = 0 ∧ (p.scalar s indent asKey).spaced = true) := by
  rw [hcs] at hstyle
  simp only [scalar, htag, hcs, hstyle, literalLines, hc, Bool.false_eq_true, if_false, if_true]
  have hsign := writes_indicator p "|" false false
  have hhints := writes_indicator_close (p.indicator "|" true false false)
    (Scalar.blockHints (c :: cs)) false false
  generalize hq : (p.indicator "|" true false false).indicator (Scalar.blockHints (c :: cs)) false
    false false = q at hhints ⊢
  have hat : q.atIndent = false := by
    rw [← hq]
    simp [indicator]
  -- the first line goes below the header
  have hlead := writes_indentTo { q with spaced := true } indent
  have hchar := writes_put ({ q with spaced := true }.indentTo indent) [c]
  have hsp := (indentTo_place { q with spaced := true } indent).2.2
  obtain ⟨hw, hend, hspaced, hcol⟩ := writes_literalLines hi cs false
    { ({ q with spaced := true }.indentTo indent).put [c] with atIndent := false } rfl (by simp) hsp
  refine ⟨?_, ?_, fun h => ⟨hcol h, hspaced⟩⟩
  · have hline : lead { q with spaced := true } indent = '\n' :: List.replicate indent ' ' := by
      simp [lead, hat]
    rw [hline] at hlead
    have hall := (((hsign.trans hhints).trans hlead).trans hchar).trans hw
    simp only [literalText, hc]
    simpa using hall
  · rw [hend]
    cases cs with
    | nil => simp [hc]
    | cons d cs => simp [List.getLast?_cons]

end Scalars

end Pen

end Linewise.Yaml
