import Linewise.Proofs.QuotedScalars

/-!
# Literal blocks

The lines of a literal block are read as they were written, with the line breaks at the end that its
header asks for, when the reader finds the indentation that the writer used.
-/

namespace Linewise.Yaml

namespace ScalarText

/-- The lines of a literal block; `afterBreak` says that a line starts, which is then indented. -/
def literalText (indent : Nat) : Bool → List Char → List Char
  | _, [] => []
  | afterBreak, c :: rest =>
    if isBreak c then c :: literalText indent true rest
    else
      (if afterBreak then List.replicate indent ' ' else []) ++ c :: literalText indent false rest

/-- What happens to the line breaks at the end of a text that is written as a block. -/
def chompingOf (cs : List Char) : Chomping :=
  match cs.reverse with
  | [] => .strip
  | [c] => if isBreak c then .keep else .strip
  | c :: b :: _ => if !isBreak c then .strip else if isBreak b then .keep else .clip

/-- The line breaks that are kept of those at the end of a block. -/
def Chomping.kept (lead breaks : List Char) : Chomping → List Char
  | .strip => []
  | .clip => lead
  | .keep => lead ++ breaks

/-- The text up to the next token, which stands in column `n`; `ended` says that the line before is
ended already. -/
def upTo (ended : Bool) (n : Nat) (rest : List Char) : List Char :=
  (if ended then [] else ['\n']) ++ (List.replicate n ' ' ++ rest)

theorem literalText_line (indent : Nat) {line : List Char} (hl : ∀ c ∈ line, isBreak c = false)
    (cs : List Char) :
    literalText indent false (line ++ cs) = line ++ literalText indent false cs := by
  induction line with
  | nil => rfl
  | cons c line ih =>
    simp [literalText, hl c List.mem_cons_self, ih fun d hd => hl d (List.mem_cons_of_mem _ hd)]

theorem literalText_breaks (indent : Nat) {breaks : List Char} (hb : ∀ c ∈ breaks, isBreak c = true)
    (cs : List Char) (b : Bool) :
    literalText indent b (breaks ++ cs) =
      breaks ++ literalText indent (b || !breaks.isEmpty) cs := by
  induction breaks generalizing b with
  | nil => simp
  | cons c breaks ih =>
    simp [literalText, hb c List.mem_cons_self, ih fun d hd => hb d (List.mem_cons_of_mem _ hd)]

theorem literalText_indented (indent : Nat) {c : Char} (hc : isBreak c = false) (cs : List Char) :
    literalText indent true (c :: cs) =
      List.replicate indent ' ' ++ literalText indent false (c :: cs) := by
  simp [literalText, hc]

theorem length_le_literalText (indent : Nat) (b : Bool) (cs : List Char) :
    cs.length ≤ (literalText indent b cs).length := by
  induction cs generalizing b with
  | nil => exact Nat.zero_le _
  | cons c cs ih =>
    have h₁ := ih true
    have h₂ := ih false
    rw [literalText]
    split <;> simp <;> omega

theorem length_takeWhile_spaces {k room : Nat} {rest : List Char} (hk : k ≤ room)
    (hr : k < room → rest.head? ≠ some ' ') :
    (((List.replicate k ' ' ++ rest).take room).takeWhile (· == ' ')).length = k := by
  induction k generalizing room with
  | zero =>
    cases room with
    | zero => rfl
    | succ room =>
      cases rest with
      | nil => rfl
      | cons c rest =>
        have hc : (c == ' ') = false := by simpa using hr (by omega)
        simp [hc]
  | succ k ih =>
    obtain ⟨room, rfl⟩ : ∃ m, room = m + 1 := ⟨room - 1, by omega⟩
    rw [List.replicate_succ, List.cons_append, List.take_succ_cons, List.takeWhile_cons_of_pos rfl,
      List.length_cons, ih (by omega) fun h => hr (by omega)]

/-- Reading the indentation of a line that is not empty. -/
theorem blockBreaks_indentation {indent k : Nat} {rest : List Char} {s : Source} (hk : k ≤ indent)
    (hr : k < indent → rest.head? ≠ some ' ' ∧ rest.head? ≠ some '\t')
    (hb : ∀ c ∈ rest.head?, isBreak c = false) (hs : s.rest = List.replicate k ' ' ++ rest)
    (hcol : s.column = 0) (fuel widest : Nat) (breaks : List Char) :
    blockBreaks (some indent) (fuel + 1) widest breaks s =
      .ok (breaks, Nat.max widest k, s.skipMany k) := by
  have hlen := length_takeWhile_spaces hk fun h => (hr h).1
  have hnext : (s.skipMany k).rest = rest := Source.rest_skipMany_append hs (by simp)
  have htab : ((some indent).all ((s.skipMany k).column < ·) &&
      (s.skipMany k).sees '\t') = false := by
    by_cases hlt : k < indent
    · have hsees : (s.skipMany k).sees '\t' = false := by
        rw [Source.sees, hnext]
        simpa using (hr hlt).2
      rw [hsees, Bool.and_false]
    · simp [hcol]
      omega
  have hpeek : (s.skipMany k).peek?.any isBreak = false := by
    rw [Source.peek?, hnext]
    cases rest with
    | nil => rfl
    | cons c rest => exact hb c rfl
  rw [blockBreaks]
  simp only [hcol, Nat.sub_zero, hs, hlen]
  rw [htab, hpeek]
  simp [hcol]

/-- Finding the indentation of the first line of a block. -/
theorem blockBreaks_first {k : Nat} {c : Char} {more : List Char} {s : Source} (hsp : c ≠ ' ')
    (ht : c ≠ '\t') (hb : isBreak c = false) (hs : s.rest = List.replicate k ' ' ++ c :: more)
    (hcol : s.column = 0) (fuel : Nat) :
    blockBreaks none (fuel + 1) 0 [] s = .ok ([], k, s.skipMany k) := by
  have hlen : ((s.rest.take s.rest.length).takeWhile (· == ' ')).length = k := by
    rw [hs]
    exact length_takeWhile_spaces (by simp) fun _ => by simpa using hsp
  have hnext : (s.skipMany k).rest = c :: more := Source.rest_skipMany_append hs (by simp)
  have htab : (s.skipMany k).sees '\t' = false := by
    rw [Source.sees, hnext]
    simpa using ht
  have hpeek : (s.skipMany k).peek?.any isBreak = false := by
    rw [Source.peek?, hnext]
    exact hb
  rw [blockBreaks]
  simp only [hlen, htab, hpeek, Bool.and_false, Bool.false_eq_true, if_false]
  simp [hcol]

/-- Reading the empty lines before a line that is not empty. -/
theorem blockBreaks_lines {indent k : Nat} {breaks rest : List Char} {s : Source}
    (hbs : ∀ c ∈ breaks, isBreak c = true ∧ Scalar.isPrintable c = true) (hk : k ≤ indent)
    (hr : k < indent → rest.head? ≠ some ' ' ∧ rest.head? ≠ some '\t')
    (hb : ∀ c ∈ rest.head?, isBreak c = false)
    (hs : s.rest = breaks ++ (List.replicate k ' ' ++ rest)) (hcol : s.column = 0) (fuel : Nat)
    (hf : breaks.length < fuel) (widest : Nat) (found : List Char) :
    ∃ (wider : Nat) (s' : Source), s'.rest = rest ∧ s'.column = k ∧ s.line ≤ s'.line ∧
      blockBreaks (some indent) fuel widest found s = .ok (found ++ breaks, wider, s') := by
  obtain ⟨fuel, rfl⟩ : ∃ f, fuel = f + 1 := ⟨fuel - 1, by omega⟩
  induction breaks generalizing fuel s widest found with
  | nil =>
    refine ⟨Nat.max widest k, s.skipMany k, Source.rest_skipMany_append hs (by simp),
      by simp [hcol], le_rfl, ?_⟩
    rw [blockBreaks_indentation hk hr hb hs hcol, List.append_nil]
  | cons b breaks ih =>
    obtain ⟨hbr, hpr⟩ := hbs b List.mem_cons_self
    obtain ⟨fuel, rfl⟩ : ∃ f, fuel = f + 1 := ⟨fuel - 1, by simp at hf; omega⟩
    rw [List.cons_append] at hs
    have hlen : ((s.rest.take indent).takeWhile (· == ' ')).length = 0 := by
      have hne : b ≠ ' ' := by
        rintro rfl
        exact absurd hbr (by decide)
      exact length_takeWhile_spaces (k := 0) (by omega) fun _ => by simpa [hs] using hne
    have htab : s.sees '\t' = false := by
      have hne : b ≠ '\t' := by
        rintro rfl
        exact absurd hbr (by decide)
      simpa [Source.sees, hs] using hne
    have hpeek : s.peek?.any isBreak = true := by simp [Source.peek?, hs, hbr]
    obtain ⟨wider, s', hrest, hcol', hline, hread⟩ := ih (s := s.nextLine)
      (fun c hc => hbs c (List.mem_cons_of_mem _ hc)) (by simp [hs]) rfl
      (Nat.max widest s.column) (found ++ [b]) fuel (by simp at hf; omega)
    refine ⟨wider, s', hrest, hcol', by simp at hline; omega, ?_⟩
    rw [blockBreaks]
    simp only [hcol, Nat.sub_zero, hlen, Source.skipMany_zero, htab, hpeek, Bool.and_false,
      Bool.false_eq_true, if_false, if_true, Source.readBreak_of_printable hs hbr hpr]
    rw [hcol] at hread
    rw [hread]
    simp

/-- A text that starts with no line break is a line, the breaks after it and a text of that kind,
unless it ends there. -/
theorem exists_line {c : Char} {cs : List Char} (hc : isBreak c = false) :
    ∃ line breaks more, c :: cs = c :: line ++ (breaks ++ more) ∧
      (∀ d ∈ c :: line, isBreak d = false) ∧ (∀ d ∈ breaks, isBreak d = true) ∧
      (∀ d ∈ more.head?, isBreak d = false) ∧ (breaks = [] → more = []) := by
  induction cs generalizing c with
  | nil => exact ⟨[], [], [], rfl, by simpa using hc, by simp, by simp, fun _ => rfl⟩
  | cons d cs ih =>
    cases hd : isBreak d with
    | true =>
      obtain ⟨breaks, more, rfl, hbs, hm⟩ := exists_breaks cs
      exact ⟨[], d :: breaks, more, rfl, by simpa using hc, by simpa [hd] using hbs, hm, by simp⟩
    | false =>
      obtain ⟨line, breaks, more, heq, hline, hbs, hm, hend⟩ := ih hd
      refine ⟨d :: line, breaks, more, by rw [heq]; rfl, ?_, hbs, hm, hend⟩
      intro e he
      rcases List.mem_cons.mp he with rfl | he
      · exact hc
      · exact hline e he

theorem takeWhile_line {line rest : List Char} {s : Source} (hl : ∀ c ∈ line, isBreak c = false)
    (hr : ∀ c ∈ rest.head?, isBreak c = true) (hs : s.rest = line ++ rest) :
    s.takeWhile (fun _ => true) = (line, s.skipMany line.length) := by
  have htake : (line ++ rest).takeWhile (fun c => true && !isBreak c) = line := by
    rw [List.takeWhile_append_of_pos (by simpa using hl)]
    cases rest with
    | nil => simp
    | cons c rest => simp [hr c rfl]
  rw [Source.takeWhile, hs, htake]

/-- One line of a block, with the line breaks after it. -/
theorem blockLines_line {indent k : Nat} {c : Char} {line rest : List Char} {s : Source} (b : Char)
    (breaks : List Char)
    (hl : ∀ d ∈ c :: line, isBreak d = false)
    (hbs : ∀ d ∈ b :: breaks, isBreak d = true ∧ Scalar.isPrintable d = true) (hk : k ≤ indent)
    (hr : k < indent → rest.head? ≠ some ' ' ∧ rest.head? ≠ some '\t')
    (hb : ∀ d ∈ rest.head?, isBreak d = false)
    (hs : s.rest = c :: line ++ (b :: breaks ++ (List.replicate k ' ' ++ rest)))
    (hcol : s.column = indent) (fuel : Nat) (done lead found : List Char) (blank : Bool) :
    ∃ (s' : Source) (blank' : Bool), s'.rest = rest ∧ s'.column = k ∧ s.line < s'.line ∧
      blockLines false indent (fuel + 1) s done lead found blank =
        blockLines false indent fuel s'
          ((c :: line).reverse ++ (found.reverse ++ (lead.reverse ++ done)))
          [b] breaks blank' := by
  obtain ⟨hbr, hpr⟩ := hbs b List.mem_cons_self
  have htake := takeWhile_line hl (by simpa using hbr) hs
  have hrest₁ : (s.skipMany (c :: line).length).rest =
      b :: (breaks ++ (List.replicate k ' ' ++ rest)) := Source.rest_skipMany_append hs rfl
  obtain ⟨wider, s', hrest, hcol', hline, hread⟩ := blockBreaks_lines
    (s := (s.skipMany (c :: line).length).nextLine)
    (fun d hd => hbs d (List.mem_cons_of_mem _ hd)) hk hr hb
    (by rw [Source.rest_nextLine, hrest₁]; rfl) rfl
    ((s.skipMany (c :: line).length).nextLine.rest.length + 1)
    (by rw [Source.rest_nextLine, hrest₁]; simp) 0 []
  refine ⟨s', s.peek?.any isBlank, hrest, hcol', by simp at hline; omega, ?_⟩
  have hend : s.atEnd = false := by simp [Source.atEnd, hs]
  rw [blockLines]
  simp only [hcol, hend, beq_self_eq_true, Bool.not_false, Bool.and_self, if_true, Bool.false_and,
    Bool.false_eq_true, if_false, htake, Source.readBreak_of_printable hrest₁ hbr hpr]
  rw [hread]
  rfl

theorem blockLines_end {indent : Nat} {s : Source} (hcol : s.column ≠ indent) (fuel : Nat)
    (done lead found : List Char) (blank : Bool) :
    blockLines false indent fuel s done lead found blank = .ok (done, lead, found, s) := by
  cases fuel with
  | zero => rfl
  | succ fuel => simp [blockLines, hcol]

theorem chompingOf_append (xs : List Char) {c : Char} (hc : isBreak c = false) (cs : List Char) :
    chompingOf (xs ++ c :: cs) = chompingOf (c :: cs) := by
  rw [chompingOf, chompingOf, List.reverse_append]
  rcases hrev : (c :: cs).reverse with _ | ⟨a, _ | ⟨b, more⟩⟩
  · simp at hrev
  · obtain rfl : c = a := by
      have : [a].reverse = c :: cs := by rw [← hrev, List.reverse_reverse]
      simp at this
      exact this.1.symm
    rcases xs.reverse with _ | ⟨d, ds⟩ <;> simp [hc]
  · rfl

theorem chompingOf_of_text_end {cs : List Char} (h : cs.getLast?.any isBreak = false) :
    chompingOf cs = .strip := by
  rw [List.getLast?_eq_head?_reverse] at h
  rw [chompingOf]
  rcases hrev : cs.reverse with _ | ⟨a, _ | ⟨b, more⟩⟩
  · rfl
  · have ha : isBreak a = false := by simpa [hrev] using h
    simp [ha]
  · have ha : isBreak a = false := by simpa [hrev] using h
    simp [ha]

/-- The breaks after the last line of a text are all kept. -/
theorem kept_chompingOf {c b : Char} {line breaks : List Char}
    (hl : ∀ d ∈ c :: line, isBreak d = false) (hb : ∀ d ∈ b :: breaks, isBreak d = true) :
    (chompingOf (c :: line ++ b :: breaks)).kept [b] breaks = b :: breaks := by
  rw [chompingOf, List.reverse_append]
  rcases hrev : (b :: breaks).reverse with _ | ⟨y, _ | ⟨z, more⟩⟩
  · simp at hrev
  · rcases hline : (c :: line).reverse with _ | ⟨x, more⟩
    · simp at hline
    · have hx : isBreak x = false :=
        hl x (by rw [← List.mem_reverse, hline]; exact List.mem_cons_self)
      have hy : isBreak y = true :=
        hb y (by rw [← List.mem_reverse, hrev]; exact List.mem_cons_self)
      have hbreaks : breaks = [] := by
        have := congrArg List.length hrev
        simpa using this
      simp [hx, hy, Chomping.kept, hbreaks]
  · have hmem : ∀ d ∈ y :: z :: more, isBreak d = true := fun d hd =>
      hb d (by rw [← List.mem_reverse, hrev]; exact hd)
    have hy := hmem y List.mem_cons_self
    have hz := hmem z (by simp)
    simp [hy, hz, Chomping.kept]

theorem getLast?_append_cons (xs : List Char) (y : Char) (ys : List Char) :
    (xs ++ y :: ys).getLast? = (y :: ys).getLast? := by
  simp [List.getLast?_append, List.getLast?_cons]

theorem getLast?_any_isBreak_line {c : Char} {line : List Char}
    (hl : ∀ d ∈ c :: line, isBreak d = false) : (c :: line).getLast?.any isBreak = false := by
  rw [List.getLast?_eq_some_getLast (by simp)]
  exact hl _ (List.getLast_mem _)

/-- Reading the lines of a block. -/
theorem blockLines_reads {indent n : Nat} (hn : n < indent) {rest : List Char}
    (hr : ∀ d ∈ rest.head?, isSpacing d = false) {c : Char} {cs : List Char} {s : Source}
    (hc : isBreak c = false)
    (hp : ∀ d ∈ c :: cs, isBreak d = true → Scalar.isPrintable d = true)
    (hs : s.rest = literalText indent false (c :: cs) ++
      upTo ((c :: cs).getLast?.any isBreak) n rest)
    (hcol : s.column = indent) (fuel : Nat) (hf : cs.length < fuel)
    (done lead found : List Char) (blank : Bool) :
    ∃ (done' lead' breaks' : List Char) (s' : Source), s'.rest = rest ∧ s'.column = n ∧
      s.line < s'.line ∧
      blockLines false indent fuel s done lead found blank = .ok (done', lead', breaks', s') ∧
      done'.reverse ++ (chompingOf (c :: cs)).kept lead' breaks' =
        done.reverse ++ (lead ++ (found ++ c :: cs)) := by
  induction fuel generalizing c cs s done lead found blank with
  | zero => omega
  | succ fuel ih =>
    obtain ⟨line, breaks, more, heq, hline, hbs, hm, hend⟩ := @exists_line c cs hc
    obtain rfl : cs = line ++ (breaks ++ more) := (List.cons.inj heq).2
    have hstop : n < indent → rest.head? ≠ some ' ' ∧ rest.head? ≠ some '\t' := fun _ =>
      ⟨fun h => absurd (hr _ h) (by decide), fun h => absurd (hr _ h) (by decide)⟩
    have hstop' : ∀ d ∈ rest.head?, isBreak d = false := fun d hd =>
      (isSpacing_eq_false.mp (hr d hd)).2
    rw [← List.cons_append, literalText_line indent hline] at hs
    match breaks, more with
    | [], more =>
      obtain rfl := hend rfl
      rw [List.append_nil, List.append_nil] at *
      rw [getLast?_any_isBreak_line hline] at hs
      obtain ⟨s', blank', hrest, hcol', hlt, hread⟩ := blockLines_line (k := n) '\n' [] hline
        (by simp only [List.mem_singleton, forall_eq]; decide) hn.le hstop hstop'
        (by rw [hs]; simp [literalText, upTo]) hcol fuel done lead found blank
      refine ⟨_, _, _, s', hrest, hcol', hlt, by rw [hread, blockLines_end (by omega)], ?_⟩
      rw [chompingOf_of_text_end (getLast?_any_isBreak_line hline)]
      simp [Chomping.kept]
    | b :: breaks, [] =>
      have hbs' : ∀ d ∈ b :: breaks, isBreak d = true ∧ Scalar.isPrintable d = true := fun d hd =>
        ⟨hbs d hd, hp d (List.mem_append_right (c :: line) (List.mem_append_left _ hd)) (hbs d hd)⟩
      have hlast : (c :: line ++ (b :: breaks ++ [])).getLast?.any isBreak = true := by
        rw [List.append_nil, getLast?_append_cons, List.getLast?_eq_some_getLast (by simp)]
        exact hbs _ (List.getLast_mem _)
      rw [hlast, literalText_breaks indent hbs] at hs
      obtain ⟨s', blank', hrest, hcol', hlt, hread⟩ := blockLines_line (k := n) b breaks hline
        hbs' hn.le hstop hstop' (by rw [hs]; simp [literalText, upTo]) hcol fuel done lead found
        blank
      refine ⟨_, _, _, s', hrest, hcol', hlt, by rw [hread, blockLines_end (by omega)], ?_⟩
      rw [List.append_nil, ← List.cons_append, kept_chompingOf hline hbs]
      simp
    | b :: breaks, d :: more =>
      have hbs' : ∀ e ∈ b :: breaks, isBreak e = true ∧ Scalar.isPrintable e = true := fun e he =>
        ⟨hbs e he, hp e (by simp at he ⊢; tauto) (hbs e he)⟩
      have hd : isBreak d = false := hm d rfl
      rw [literalText_breaks indent hbs] at hs
      have htext : literalText indent (false || !(b :: breaks).isEmpty) (d :: more) =
          List.replicate indent ' ' ++ literalText indent false (d :: more) :=
        literalText_indented indent hd more
      have hlast : (c :: line ++ (b :: breaks ++ d :: more)).getLast? = (d :: more).getLast? := by
        rw [← List.append_assoc, getLast?_append_cons]
      rw [htext, hlast] at hs
      have hnext : ∀ e ∈ (literalText indent false (d :: more) ++
          upTo ((d :: more).getLast?.any isBreak) n rest).head?, isBreak e = false := by
        simp [literalText, hd]
      obtain ⟨s', blank', hrest, hcol', hlt, hread⟩ := blockLines_line (k := indent) b breaks hline
        hbs' le_rfl (fun h => absurd h (lt_irrefl _)) hnext (by rw [hs]; simp) hcol fuel done lead
        found blank
      obtain ⟨done', lead', breaks', s'', hrest', hcol'', hlt', hread', hsum⟩ := ih hd
        (fun e he => hp e (by simp at he ⊢; tauto)) hrest hcol' (by simp at hf; omega)
        ((c :: line).reverse ++ (found.reverse ++ (lead.reverse ++ done))) [b] breaks blank'
      refine ⟨done', lead', breaks', s'', hrest', hcol'', by omega, by rw [hread, hread'], ?_⟩
      rw [← List.cons_append, ← List.append_assoc, chompingOf_append _ hd, hsum]
      simp

/-- The sign of a chomping in the header of a block. -/
def Chomping.sign : Chomping → List Char
  | .strip => ['-']
  | .clip => []
  | .keep => ['+']

theorem blockHints_toList (cs : List Char) :
    (Scalar.blockHints cs).toList =
      (if cs.head?.any (fun c => c == ' ' || isBreak c) then ['4'] else []) ++
        (chompingOf cs).sign := by
  rw [Scalar.blockHints, chompingOf, String.toList_append]
  congr 1
  · split <;> rfl
  · rcases cs.reverse with _ | ⟨a, _ | ⟨b, more⟩⟩
    · rfl
    · simp only
      split <;> rfl
    · simp only
      split
      · rfl
      · split <;> rfl

/-- Reading the header of a block. -/
theorem blockHeader_reads {hint : Bool} {chomping : Chomping} {rest : List Char} {s : Source}
    (hs : s.rest = (if hint then ['4'] else []) ++ (chomping.sign ++ '\n' :: rest)) :
    ∃ s' : Source, s'.rest = rest ∧ s'.column = 0 ∧ s.line < s'.line ∧
      blockHeader s = .ok (⟨chomping, if hint then some 4 else none⟩, s') := by
  refine ⟨(s.skipMany ((if hint then ['4'] else []) ++ chomping.sign).length).nextLine, ?_, rfl,
    by simp, ?_⟩
  · rw [← List.append_assoc] at hs
    rw [Source.rest_nextLine, Source.rest_skipMany_append hs rfl]
    rfl
  · cases hint <;> cases chomping <;>
      simp_all [Chomping.sign, blockHeader, chomping?, increment?, Source.sees, Source.skip_eq,
        Source.dropWhile, Source.takeWhile, Source.atEnd, Source.peek?, Source.skipBreak,
        Source.readBreak, Source.nextLine, Source.skipMany, isBreak, bind, Except.bind]

/-- The indentation of a block, as its header gives it or as it is found: that of the first line, or
four more than that of the collection around it when the first line starts with a space. -/
theorem blockBreaks_start {indent : Nat} {parent : Int} (hpar : parent < indent) (hpos : 0 < indent)
    {c : Char} {more : List Char} {s : Source} (hc : isBreak c = false) (ht : c ≠ '\t')
    (hspace : c = ' ' → parent.toNat + 4 = indent)
    (hs : s.rest = List.replicate indent ' ' ++ c :: more) (hcol : s.column = 0) (fuel : Nat) :
    ∃ wider,
      blockBreaks ((if c == ' ' then some 4 else none).map (parent.toNat + ·)) (fuel + 1) 0 [] s =
        .ok ([], wider, s.skipMany indent) ∧
      ((if c == ' ' then some 4 else none).map (parent.toNat + ·)).getD
        (Nat.max (Nat.max wider (parent + 1).toNat) 1) = indent := by
  by_cases hsp : c = ' '
  · have hi := hspace hsp
    refine ⟨Nat.max 0 indent, ?_, by simp [hsp, hi]⟩
    simp only [hsp, beq_self_eq_true, if_true, Option.map_some, hi]
    exact blockBreaks_indentation le_rfl (fun h => absurd h (lt_irrefl _)) (by simpa using hc) hs
      hcol
      fuel 0 []
  · have hh : (c == ' ') = false := by simpa using hsp
    refine ⟨indent, ?_, ?_⟩
    · simp only [hh, Bool.false_eq_true, if_false, Option.map_none]
      exact blockBreaks_first hsp ht hc hs hcol fuel
    · have hle : (parent + 1).toNat ≤ indent := by omega
      simp only [hh, Bool.false_eq_true, if_false, Option.map_none, Option.getD_none]
      change max (max indent (parent + 1).toNat) 1 = indent
      omega

/-- Reading a literal block. -/
theorem block_literal {indent n : Nat} {parent : Int} (hn : n < indent) (hpar : parent < indent)
    {rest : List Char} (hr : ∀ d ∈ rest.head?, isSpacing d = false) {c : Char} {cs : List Char}
    {s : Source} (hc : isBreak c = false) (ht : c ≠ '\t')
    (hspace : c = ' ' → parent.toNat + 4 = indent)
    (hp : ∀ d ∈ c :: cs, isBreak d = true → Scalar.isPrintable d = true)
    (hs : s.rest = '|' :: ((Scalar.blockHints (c :: cs)).toList ++ '\n' ::
      (literalText indent true (c :: cs) ++ upTo ((c :: cs).getLast?.any isBreak) n rest))) :
    ∃ s' : Source, s'.rest = rest ∧ s'.column = n ∧ s.line < s'.line ∧
      block false parent s = .ok ⟨c :: cs, s', true⟩ := by
  have hhint : (c :: cs).head?.any (fun c => c == ' ' || isBreak c) = (c == ' ') := by simp [hc]
  rw [blockHints_toList, hhint, List.append_assoc, literalText_indented indent hc,
    List.append_assoc] at hs
  obtain ⟨s₁, hrest₁, hcol₁, hline₁, hhead⟩ := blockHeader_reads (s := s.skip)
    (by rw [Source.skip, hs]; rfl)
  have hfirst : literalText indent false (c :: cs) = c :: literalText indent false cs := by
    simp [literalText, hc]
  obtain ⟨wider, hbreaks, hindent⟩ := blockBreaks_start hpar (by omega) hc ht hspace
    (by rw [hrest₁, hfirst]; rfl) hcol₁ s₁.rest.length
  have hlines : (s₁.skipMany indent).rest = literalText indent false (c :: cs) ++
      upTo ((c :: cs).getLast?.any isBreak) n rest :=
    Source.rest_skipMany_append hrest₁ (by simp)
  have hfuel : cs.length < (s₁.skipMany indent).rest.length + 1 := by
    have := length_le_literalText indent false (c :: cs)
    rw [hlines, List.length_append]
    simp only [List.length_cons] at this
    omega
  obtain ⟨done, lead, breaks, s', hrest, hcol, hline, hread, hsum⟩ := blockLines_reads hn hr hc hp
    hlines (by simp [hcol₁]) _ hfuel [] [] [] false
  refine ⟨s', hrest, hcol, by simp [Source.skip] at hline hline₁; omega, ?_⟩
  rw [block, hhead]
  simp only [bind, Except.bind, hbreaks, hindent, hread]
  cases hch : chompingOf (c :: cs) <;> simpa [hch, Chomping.kept] using hsum

end ScalarText

end Linewise.Yaml
