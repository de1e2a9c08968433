import Linewise.Proofs.PenStrokes
import Linewise.Yaml.Token.Lexer

/-!
# Moves of the lexer
-/

namespace Linewise.Yaml

open ScalarText

/-- Whether a text can stand where a token is expected: it is over, or goes on with a character that
is neither passed over nor starts a comment. -/
def StartsToken (rest : List Char) : Prop :=
  ∀ c ∈ rest.head?, isSpacing c = false ∧ c ≠ '#' ∧ c ≠ byteOrderMark

theorem startsToken_cons {c : Char} {rest : List Char}
    (h : isSpacing c = false ∧ c ≠ '#' ∧ c ≠ byteOrderMark) : StartsToken (c :: rest) := by
  intro d hd
  obtain rfl := Option.mem_some.mp hd
  exact h

namespace Source

theorem length_skipMany_le (s : Source) (n : Nat) : (s.skipMany n).rest.length ≤ s.rest.length := by
  simp

theorem length_dropWhile_le (s : Source) (p : Char → Bool) :
    (s.dropWhile p).rest.length ≤ s.rest.length :=
  s.length_skipMany_le _

theorem length_skipBreak_le (s : Source) : s.skipBreak.rest.length ≤ s.rest.length := by
  rw [skipBreak, readBreak]
  split
  next => simp
  next =>
    split
    next => simp
    next => split <;> simp
  next => simp

end Source

namespace Lexer

/-- The kinds of the tokens so far, latest first. -/
def kinds (l : Lexer) : List Token.Kind := l.tokens.map Token.kind

/-- The lexer at the next token. -/
def arrived (l : Lexer) : Lexer := skipToToken (l.source.rest.length + 1) l

/-- Reads the token that the lexer stands at, or ends the text. -/
def stepHere (l : Lexer) : Except Problem (Lexer × Bool) :=
  match l.source.peek? with
  | none => do
    let l ← l.closeAll
    .ok (l.push .streamEnd l.source.line, true)
  | some c =>
    if l.source.column == 0 && c == '%' then do
      let line := l.source.line
      let l ← l.closeAll
      let (kind, s) ← directive l.source
      .ok ({ l.push kind line with source := s }, false)
    else if l.source.atDocumentMark then do
      let l ← l.closeAll
      let kind := if c == '-' then Token.Kind.documentStart else .documentEnd
      .ok ({ l.push kind l.source.line with source := l.source.skipMany 3 }, false)
    else do
      let l ← l.readToken c
      .ok (if l.allowsLineComment then l.skipLineComment else l, false)

theorem step_eq (l : Lexer) :
    l.step = stepHere (l.arrived.closeBlocks l.arrived.source.column) := by
  rfl

theorem dropWhile_spaces {s : Source} {k : Nat} {rest : List Char} {p : Char → Bool}
    (hp : p ' ' = true) (hr : ∀ c ∈ rest.head?, (p c && !isBreak c) = false)
    (hs : s.rest = List.replicate k ' ' ++ rest) : s.dropWhile p = s.skipMany k := by
  have htake : s.rest.takeWhile (fun c => p c && !isBreak c) = List.replicate k ' ' := by
    rw [hs, List.takeWhile_append_of_pos]
    · cases rest with
      | nil => simp
      | cons c rest => simp [hr c rfl]
    · intro c hc
      rw [List.eq_of_mem_replicate hc, hp]
      rfl
  rw [Source.dropWhile, Source.takeWhile, htake]
  simp

/-- Passing over spaces to a token or to the end of the line. -/
theorem dropWhile_toToken (l : Lexer) {k : Nat} {rest : List Char}
    (hr : ∀ c ∈ rest.head?, isBlank c = false)
    (hs : l.source.rest = List.replicate k ' ' ++ rest) :
    (l.source.dropWhile fun c => c == ' ' || ((l.inFlow || !l.keyAllowed) && c == '\t')) =
      l.source.skipMany k := by
  refine dropWhile_spaces rfl (fun c hc => ?_) hs
  have hb := hr c hc
  simp only [isBlank, Bool.or_eq_false_iff] at hb
  simp [hb]

theorem not_sees_mark {s : Source} {k : Nat} {rest : List Char}
    (hr : ∀ c ∈ rest.head?, c ≠ byteOrderMark) (hs : s.rest = List.replicate k ' ' ++ rest) :
    s.sees byteOrderMark = false := by
  rw [Source.sees, hs]
  rcases k with _ | k
  · cases rest with
    | nil => rfl
    | cons c rest => simpa using hr c rfl
  · simp [List.replicate_succ, byteOrderMark]

/-- Passing over spaces to a token. -/
theorem skipToToken_spaces {l : Lexer} {k : Nat} {rest : List Char} (hr : StartsToken rest)
    (hs : l.source.rest = List.replicate k ' ' ++ rest) (fuel : Nat) :
    skipToToken (fuel + 1) l = { l with source := l.source.skipMany k } := by
  have hbom := not_sees_mark (fun c hc => (hr c hc).2.2) hs
  have hdrop := l.dropWhile_toToken (fun c hc => (isSpacing_eq_false.mp (hr c hc).1).1) hs
  have hnext : (l.source.skipMany k).rest = rest := Source.rest_skipMany_append hs (by simp)
  have hhash : (l.source.skipMany k).sees '#' = false := by
    rw [Source.sees, hnext]
    cases rest with
    | nil => rfl
    | cons c rest => simpa using (hr c rfl).2.1
  have hbreak : (l.source.skipMany k).peek?.any isBreak = false := by
    rw [Source.peek?, hnext]
    cases rest with
    | nil => rfl
    | cons c rest => exact (isSpacing_eq_false.mp (hr c rfl).1).2
  rw [skipToToken]
  simp only [hbom, Bool.and_false, Bool.false_eq_true, if_false, hdrop, hhash, hbreak]

/-- Passing over the end of a line to a token. -/
theorem skipToToken_line {l : Lexer} {n : Nat} {rest : List Char} (ho : l.outerKeys = [])
    (hr : StartsToken rest) (hs : l.source.rest = '\n' :: (List.replicate n ' ' ++ rest))
    (fuel : Nat) :
    skipToToken (fuel + 2) l =
      { l with source := l.source.nextLine.skipMany n, keyAllowed := true } := by
  have hs₀ : l.source.rest = List.replicate 0 ' ' ++ '\n' :: (List.replicate n ' ' ++ rest) := hs
  have hbom := not_sees_mark (by simp [byteOrderMark]) hs₀
  have hdrop := l.dropWhile_toToken (by simp [isBlank]) hs₀
  have hhash : l.source.sees '#' = false := by simp [Source.sees, hs]
  have hbreak : l.source.peek?.any isBreak = true := by simp [Source.peek?, hs, isBreak_newline]
  have hskip : l.source.skipBreak = l.source.nextLine := by
    rw [Source.skipBreak, Source.readBreak_of_printable hs isBreak_newline rfl]
  have hflow : l.inFlow = false := by simp [inFlow, ho]
  rw [skipToToken]
  simp only [hbom, Bool.and_false, Bool.false_eq_true, if_false, hdrop, Source.skipMany_zero, hhash,
    hbreak, if_true, hskip]
  simp only [hflow, Bool.not_false, Bool.or_true]
  rw [skipToToken_spaces (l := { l with source := l.source.nextLine, keyAllowed := true }) (k := n)
    hr (by simp [hs])]

/-- The lexer goes on at `s`, where a key may start. -/
def Heads (l : Lexer) (s : Source) : Prop := l.arrived = { l with source := s, keyAllowed := true }

theorem heads_here {l : Lexer} (hr : StartsToken l.source.rest) (ha : l.keyAllowed = true) :
    l.Heads l.source := by
  rw [Heads, arrived, skipToToken_spaces (k := 0) hr rfl, ← ha]
  rfl

theorem heads_spaces {l : Lexer} {k : Nat} {rest : List Char} (hr : StartsToken rest)
    (hs : l.source.rest = List.replicate k ' ' ++ rest) (ha : l.keyAllowed = true) :
    l.Heads (l.source.skipMany k) := by
  rw [Heads, arrived, skipToToken_spaces hr hs, ← ha]

theorem heads_line {l : Lexer} {n : Nat} {rest : List Char} (ho : l.outerKeys = [])
    (hr : StartsToken rest) (hs : l.source.rest = '\n' :: (List.replicate n ' ' ++ rest)) :
    l.Heads (l.source.nextLine.skipMany n) := by
  have hf : l.source.rest.length + 1 = l.source.nextLine.rest.length + 2 := by simp [hs]
  rw [Heads, arrived, hf, skipToToken_line ho hr hs]

theorem length_skipSpacing_le (n : Nat) (s : Source) :
    (skipSpacing n s).rest.length ≤ s.rest.length := by
  induction n generalizing s with
  | zero => exact le_rfl
  | succ n ih =>
    refine (ih _).trans ?_
    split
    next => exact s.length_skipBreak_le
    next => exact s.length_skipMany_le 1

theorem length_skipComments_le (fuel : Nat) (s : Source) :
    (skipComments fuel s).rest.length ≤ s.rest.length := by
  induction fuel generalizing s with
  | zero => exact le_rfl
  | succ fuel ih =>
    have hline : s.dropLine.rest.length ≤ s.rest.length := s.length_dropWhile_le _
    rw [skipComments]
    split
    next => exact (ih _).trans ((length_skipSpacing_le _ _).trans hline)
    next => exact hline

/-- Going to the next token never goes back. -/
theorem length_skipToToken_le (fuel : Nat) (l : Lexer) :
    (skipToToken fuel l).source.rest.length ≤ l.source.rest.length := by
  induction fuel generalizing l with
  | zero => exact le_rfl
  | succ fuel ih =>
    have hmark : (if l.source.column == 0 && l.source.sees byteOrderMark then l.source.skip
        else l.source).rest.length ≤ l.source.rest.length := by
      split
      next => exact l.source.length_skipMany_le 1
      next => exact le_rfl
    rw [skipToToken]
    generalize (if l.source.column == 0 && l.source.sees byteOrderMark then l.source.skip
      else l.source) = s at hmark ⊢
    have hblank := (s.length_dropWhile_le
      fun c => c == ' ' || ((l.inFlow || !l.keyAllowed) && c == '\t')).trans hmark
    generalize s.dropWhile _ = s at hblank ⊢
    have hcomment : (if s.sees '#' then skipComments s.rest.length s else s).rest.length ≤
        l.source.rest.length := by
      split
      next => exact (length_skipComments_le _ _).trans hblank
      next => exact hblank
    generalize (if s.sees '#' then skipComments s.rest.length s else s) = s at hcomment ⊢
    split
    next => exact (ih _).trans (s.length_skipBreak_le.trans hcomment)
    next => exact hcomment

/-! ## Closing blocks -/

theorem closeBlocksFrom_frame (column : Int) (outer : List Int) (l : Lexer) :
    (closeBlocksFrom column outer l).source = l.source ∧
      (closeBlocksFrom column outer l).key = l.key ∧
      (closeBlocksFrom column outer l).outerKeys = l.outerKeys ∧
      (closeBlocksFrom column outer l).keyAllowed = l.keyAllowed := by
  induction outer generalizing l with
  | nil => exact ⟨rfl, rfl, rfl, rfl⟩
  | cons m outer ih =>
    rw [closeBlocksFrom]
    split
    next => exact ih _
    next => exact ⟨rfl, rfl, rfl, rfl⟩

theorem source_closeBlocks (l : Lexer) (column : Int) :
    (l.closeBlocks column).source = l.source := by
  rw [closeBlocks]
  split
  next => rfl
  next => exact (closeBlocksFrom_frame _ _ _).1

theorem closeBlocks_of_le {l : Lexer} {column : Int} (h : l.indent ≤ column) :
    l.closeBlocks column = l := by
  rw [closeBlocks]
  split
  next => rfl
  next =>
    cases l.indents with
    | nil => rfl
    | cons m outer => rw [closeBlocksFrom, if_neg (by omega)]

theorem closeBlocksFrom_closeBlocksFrom {a b : Int} (hab : a ≤ b) {outer : List Int} {l : Lexer}
    (hl : l.indents = outer) :
    closeBlocksFrom a (closeBlocksFrom b outer l).indents (closeBlocksFrom b outer l) =
      closeBlocksFrom a outer l := by
  induction outer generalizing l with
  | nil => rw [closeBlocksFrom, hl]
  | cons m outer ih =>
    by_cases hb : l.indent > b
    · have ha : l.indent > a := by omega
      rw [closeBlocksFrom, if_pos hb, closeBlocksFrom, if_pos ha]
      exact ih rfl
    · rw [closeBlocksFrom, if_neg hb, hl]

/-- Closing blocks in two goes. -/
theorem closeBlocks_closeBlocks {l : Lexer} {a b : Int} (hab : a ≤ b) :
    (l.closeBlocks b).closeBlocks a = l.closeBlocks a := by
  by_cases hf : l.inFlow = true
  · simp [closeBlocks, hf]
  · have hf' : (closeBlocksFrom b l.indents l).inFlow = l.inFlow := by
      simp [inFlow, (closeBlocksFrom_frame b l.indents l).2.2.1]
    rw [closeBlocks, closeBlocks, closeBlocks, if_neg hf, if_neg (by rw [hf']; exact hf), if_neg hf]
    exact closeBlocksFrom_closeBlocksFrom hab rfl

/-- Closing the innermost block only. -/
theorem closeBlocks_innermost {l : Lexer} {column outer : Int} {rest : List Int}
    (ho : l.outerKeys = []) (hl : l.indents = outer :: rest) (hc : column < l.indent)
    (hr : outer ≤ column) :
    l.closeBlocks column =
      { l.push .blockEnd l.source.line with indent := outer, indents := rest } := by
  have hf : ¬ l.inFlow = true := by simp [inFlow, ho]
  have hstop := closeBlocks_of_le
    (l := { l.push .blockEnd l.source.line with indent := outer, indents := rest }) hr
  rw [closeBlocks, if_neg (by simpa [inFlow, push] using hf)] at hstop
  rw [closeBlocks, if_neg hf, hl, closeBlocksFrom, if_pos (by omega)]
  exact hstop

/-! ## Runs -/

/-- One token is read, and some text with it. -/
def Goes (l m : Lexer) : Prop :=
  l.step = .ok (m, false) ∧ m.source.rest.length < l.source.rest.length

/-- A number of tokens is read. -/
abbrev Reaches : Lexer → Lexer → Prop := Relation.ReflTransGen Goes

/-- One turn of a run. -/
theorem runFrom_succ (fuel : Nat) (l : Lexer) :
    runFrom (fuel + 1) l =
      match l.step with
      | .error e => ((l.tokens.drop 2).reverse, some e)
      | .ok (l, true) => (l.tokens.reverse, none)
      | .ok (l, false) => runFrom fuel l :=
  -- In parentheses, or it is checked once more as an equation by definition, which takes long.
  (rfl)

/-- Reading on from a state that a run reaches. -/
theorem Reaches.runFrom {l m : Lexer} (h : Reaches l m) {fuel : Nat}
    (hf : l.source.rest.length < fuel) :
    ∃ fuel', m.source.rest.length < fuel' ∧ Lexer.runFrom fuel l = Lexer.runFrom fuel' m := by
  induction h with
  | refl => exact ⟨fuel, hf, rfl⟩
  | tail _ hstep ih =>
    obtain ⟨fuel', hf', heq⟩ := ih
    obtain ⟨fuel', rfl⟩ : ∃ f, fuel' = f + 1 := ⟨fuel' - 1, by omega⟩
    refine ⟨fuel', by have := hstep.2; omega, ?_⟩
    rw [heq, runFrom_succ, hstep.1]

/-- The lexer stands at a token, in a column and inside the block collections that are given. -/
structure At (l : Lexer) (column : Nat) (rest : List Char) (indent : Int) (indents : List Int)
    (kinds : List Token.Kind) : Prop where
  column : l.source.column = column
  rest : l.source.rest = rest
  indent : l.indent = indent
  indents : l.indents = indents
  kinds : l.kinds = kinds
  outer : l.outerKeys = []
  allowed : l.keyAllowed = true
  /-- A token that might have been a key stands on a line before. -/
  loose : ∀ k ∈ l.key, k.required = false ∧ k.line < l.source.line

theorem step_of_settled {l l₀ : Lexer}
    (h : l.arrived.closeBlocks l.arrived.source.column = l₀)
    {c : Char} (hc : l₀.source.rest.head? = some c)
    (hmark : l₀.source.column = 0 → c ≠ '%' ∧ l₀.source.atDocumentMark = false)
    {m : Lexer} (hread : l₀.readToken c = .ok m)
    (hcomment : m.allowsLineComment = true → m.skipLineComment = m) :
    l.step = .ok (m, false) := by
  have hdir : (l₀.source.column == 0 && c == '%') = false := by
    by_cases h0 : l₀.source.column = 0
    · simp [(hmark h0).1]
    · simp [h0]
  have hdoc : l₀.source.atDocumentMark = false := by
    by_cases h0 : l₀.source.column = 0
    · exact (hmark h0).2
    · exact Source.atDocumentMark_of_pos (by omega)
  rw [step_eq, h, stepHere]
  simp only [Source.peek?, hc, hdir, hdoc, Bool.false_eq_true, if_false, hread, bind, Except.bind]
  cases ha : m.allowsLineComment with
  | true => simp [hcomment ha]
  | false => simp

theorem goes_of_settled {l l₀ : Lexer}
    (h : l.arrived.closeBlocks l.arrived.source.column = l₀)
    {c : Char} (hc : l₀.source.rest.head? = some c)
    (hmark : l₀.source.column = 0 → c ≠ '%' ∧ l₀.source.atDocumentMark = false)
    {m : Lexer} (hread : l₀.readToken c = .ok m)
    (hcomment : m.allowsLineComment = true → m.skipLineComment = m)
    (hlen : m.source.rest.length < l₀.source.rest.length) : l.Goes m := by
  refine ⟨step_of_settled h hc hmark hread hcomment, hlen.trans_le ?_⟩
  rw [← h, source_closeBlocks]
  exact length_skipToToken_le _ l

end Lexer

end Linewise.Yaml
