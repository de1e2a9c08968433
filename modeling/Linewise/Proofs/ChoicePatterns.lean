import Linewise.Proofs.ChoiceHeights
import Linewise.Proofs.QuotedTexts

/-!
# Patterns of a choice between texts

Quoted texts with bars between them, put into a group, are read as the choice between the words. A
pattern that ends in such a group and the end of the text can be read unless its size or its height is
over the limit, and a group that is too deep is refused.
-/

namespace Linewise.Pattern
open PathFilter (specialChars quoteChar quoteChars barred)

variable {size height : Nat} {whole : Bytes} {l : Level} {groups : List OpenGroup} {rest : List Char}
  {bs items : List Piece}

/-! ## Words and choices -/

theorem mergeLiterals_plain (c : Char) (cs : List Char) : mergeLiterals ((c :: cs).map plain) =
    [{ plain c with kind := .text false ((c :: cs).map Char.toNat), size := cs.length + 1 }] := by
  induction cs generalizing c with
  | nil => rfl
  | cons d cs ih =>
    rw [List.map_cons, mergeLiterals, ih d]
    simp [Kind.append?, plain, Nat.add_comm]

theorem sequence_literals (cs : List Char) :
    sequence (cs.map fun c => .literal c.toNat) = word cs := by
  fun_induction word cs with
  | case1 => rfl
  | case2 c => rfl
  | case3 c cs hne ih =>
    obtain ⟨d, cs, rfl⟩ := List.exists_cons_of_ne_nil hne
    rw [← ih]
    rfl

/-- A literal text. -/
def textPiece (t : List Char) : Piece :=
  { Outline.ofCodes (t.map Char.toNat) with pattern := word t, size := max 1 t.length }

theorem joined_text (bs : List Piece) (t : List Char) :
    Level.joined ⟨bs, (t.map plain).reverse⟩ = textPiece t := by
  have hpattern : (t.map plain).map Piece.pattern = t.map fun c => .literal c.toNat := by
    simp [plain]
  rw [Level.joined, List.reverse_reverse, hpattern, sequence_literals]
  cases t with
  | nil => rfl
  | cons c cs =>
    rw [mergeLiterals_plain]
    simp [textPiece, plain, Outline.ofCodes]

/-- The size of a choice between texts: a part for each character, at least one for each text, and one
between two texts. -/
def choiceSize (ts : List (List Char)) : Nat :=
  (ts.map fun t => max 1 t.length).sum + (ts.length - 1)

/-- The height of a choice between texts. -/
def choiceHeight (ts : List (List Char)) : Nat :=
  (Outline.ofAlternatives (ts.map fun t => .ofCodes (t.map Char.toNat))).height

theorem choiceHeight_le {ts : List (List Char)} {n : Nat} (h : ∀ t ∈ ts, t.length ≤ n) :
    choiceHeight ts ≤ 2 * n + 2 := by
  have hleaf : ∀ o ∈ ts.map fun t => Outline.ofCodes (t.map Char.toNat),
      o.height = 1 ∧ o.kind.codes.length ≤ n := by
    intro o ho
    obtain ⟨t, ht, rfl⟩ := List.mem_map.mp ho
    rw [Outline.height_ofCodes, Outline.codes_ofCodes, List.length_map]
    exact ⟨rfl, h t ht⟩
  have hlongest := Outline.longest_le fun o ho => (hleaf o ho).2
  have hheight := Outline.ofAlternatives_height_le fun o ho => (hleaf o ho).1
  rw [choiceHeight]
  omega

theorem length_le_choiceSize {ts : List (List Char)} {t : List Char} (ht : t ∈ ts) :
    max 1 t.length ≤ choiceSize ts :=
  Nat.le_add_right_of_le (List.le_sum_of_mem (List.mem_map.mpr ⟨t, ht, rfl⟩))

theorem leads_barred {ts : List (List Char)} (hne : ts ≠ [])
    (hsize : ∀ t ∈ ts, (textPiece t).size ≤ size) (hheight : 1 ≤ height) :
    ∃ l : Level, l.joined :: l.branches = (ts.map textPiece).reverse ++ bs ∧
      Leads size height whole ⟨bs, []⟩ groups (barred ts ++ rest) l groups rest := by
  fun_induction barred ts generalizing bs with
  | case1 => exact absurd rfl hne
  | case2 t => exact ⟨⟨bs, (t.map plain).reverse⟩, by rw [joined_text]; rfl, leads_text t⟩
  | case3 t ts hts ih =>
    obtain ⟨ht, hrest⟩ := List.forall_mem_cons.mp hsize
    obtain ⟨l, hl, hleads⟩ : ∃ l : Level,
        l.joined :: l.branches = (ts.map textPiece).reverse ++ textPiece t :: bs ∧
          Leads size height whole ⟨textPiece t :: bs, []⟩ groups (barred ts ++ rest) l groups rest :=
      ih hts hrest
    rw [List.append_assoc]
    have hbar : Leads size height whole ⟨bs, (t.map plain).reverse⟩ groups
        ('|' :: (barred ts ++ rest)) ⟨textPiece t :: bs, []⟩ groups (barred ts ++ rest) :=
      leads_bar (joined_text bs t) ht ((Outline.height_ofCodes _).trans_le hheight)
    exact ⟨l, by simp [hl], ((leads_text t).trans hbar).trans hleads⟩

theorem alternatives_of_reverse {ps : List Piece} {p : Piece}
    (h : l.joined :: l.branches = ps.reverse)
    (hp : ({ l with items := [l.joined] } : Level).alternatives = p) :
    p.pattern = choice (ps.map Piece.pattern) ∧
      p.toOutline = .ofAlternatives (ps.map Piece.toOutline) ∧
      p.size = (ps.map Piece.size).sum + (ps.length - 1) := by
  obtain rfl : ps = (l.joined :: l.branches).reverse := by rw [h, List.reverse_reverse]
  subst hp
  obtain ⟨branches, items⟩ := l
  cases branches with
  | nil => exact ⟨rfl, (Outline.ofAlternatives_singleton _).symm, by simp [Level.alternatives]; rfl⟩
  | cons b bs =>
    refine ⟨rfl, rfl, ?_⟩
    rw [List.sum_eq_foldl, List.foldl_map]
    simp only [List.length_reverse]
    rfl

/-- A group is a choice between texts. -/
structure Piece.Chooses (p : Piece) (ts : List (List Char)) : Prop where
  pattern : p.pattern = choice (ts.map word)
  kind : p.kind = .other
  size : p.size = choiceSize ts + 2
  height : p.height = choiceHeight ts + 1

theorem chooses_group {ts : List (List Char)}
    (h : l.joined :: l.branches = (ts.map textPiece).reverse) : l.group.Chooses ts := by
  obtain ⟨hpattern, houtline, hsize⟩ := alternatives_of_reverse h rfl
  constructor
  · rw [Level.group, Piece.grouped, hpattern, List.map_map]
    rfl
  · rfl
  · rw [Level.group, Piece.grouped, hsize, List.map_map, List.length_map]
    rfl
  · rw [Level.group, Piece.grouped, houtline, List.map_map]
    rfl

theorem head?_quoteChars_ne (cs : List Char) (hrest : rest.head? ≠ some '?') :
    (quoteChars cs ++ rest).head? ≠ some '?' := by
  cases cs with
  | nil => exact hrest
  | cons c cs =>
    rw [quoteChars, List.flatMap_cons, quoteChar]
    by_cases hc : c ∈ specialChars
    · simp [hc]
    · have hmark : c ≠ '?' := fun h => hc (h ▸ by simp [specialChars])
      simpa [hc] using hmark

theorem head?_barred_ne (ts : List (List Char)) (hrest : rest.head? ≠ some '?') :
    (barred ts ++ rest).head? ≠ some '?' := by
  fun_induction barred ts with
  | case1 => exact hrest
  | case2 t => exact head?_quoteChars_ne t hrest
  | case3 t ts hne ih =>
    rw [List.append_assoc]
    exact head?_quoteChars_ne t (by simp)

variable {ts : List (List Char)}

theorem leads_into_group (hne : ts ≠ []) (hsize : choiceSize ts ≤ size) (hheight : 1 ≤ height) :
    ∃ l : Level, l.joined :: l.branches = (ts.map textPiece).reverse ∧
      Leads size height whole ⟨bs, items⟩ groups ('(' :: (barred ts ++ ')' :: rest))
        l (⟨⟨bs, items⟩, {}, true⟩ :: groups) (')' :: rest) := by
  have htexts : ∀ t ∈ ts, (textPiece t).size ≤ size :=
    fun t ht => (length_le_choiceSize ht).trans hsize
  obtain ⟨l, hl, hleads⟩ := leads_barred hne htexts hheight
  rw [List.append_nil] at hl
  exact ⟨l, hl, (leads_open (head?_barred_ne ts (by simp))).trans hleads⟩

theorem leads_group (hne : ts ≠ []) (hsize : choiceSize ts + 2 ≤ size)
    (hheight : choiceHeight ts + 1 ≤ height) : ∃ g : Piece, g.Chooses ts ∧
      Leads size height whole ⟨bs, items⟩ groups ('(' :: (barred ts ++ ')' :: rest))
        ⟨bs, g :: items⟩ groups rest := by
  obtain ⟨l, hl, hleads⟩ := leads_into_group hne (Nat.le_of_add_right_le hsize)
    ((Nat.le_add_left 1 _).trans hheight)
  have hgroup := chooses_group hl
  have hjoined : l.joined ∈ (ts.map textPiece).reverse := hl ▸ List.mem_cons_self
  obtain ⟨t, ht, hpiece⟩ := List.mem_map.mp (List.mem_reverse.mp hjoined)
  refine ⟨l.group, hgroup, hleads.trans (leads_close ?_ (by rw [hgroup.size]; exact hsize)
    (by rw [hgroup.height]; exact hheight))⟩
  rw [← hpiece]
  exact ⟨(length_le_choiceSize ht).trans (Nat.le_of_add_right_le hsize),
    (Outline.height_ofCodes _).trans_le ((Nat.le_add_left 1 _).trans hheight)⟩

theorem run_end (fuel : Nat) (r : Reader) : Reader.run whole fuel r [] = .ok r := by
  cases fuel <;> rfl

theorem parse_encode (cs : List Char) : parse (Utf8.encode cs) =
    (Reader.run (Utf8.encode cs) cs.length {} (cs.map .char)).bind fun r =>
      (r.limited (Utf8.encode cs) r.level.joined).bind fun p =>
        (r.limited (Utf8.encode cs) ({ r.level with items := [p] } : Level).alternatives).bind fun p =>
          if r.groups.isEmpty then .ok p.pattern else fail .missingParen (Utf8.encode cs) := by
  rw [parse, Utf8.symbols_encode, List.length_map]
  rfl

/-- The text is read as a pattern, unless a pattern of this size and height is over a limit. -/
def ReadAs (size height : Nat) (text : Bytes) (p : Pattern) : Prop :=
  (∃ fault, Over size height fault ∧ parse text = .error ⟨fault, text⟩) ∨ parse text = .ok p

theorem readAs_of_leads {cs : List Char}
    (h : Leads size height (Utf8.encode cs) {} [] cs ⟨[], items⟩ [] [])
    (hsize : (Level.joined ⟨[], items⟩).size ≤ size)
    (hheight : (Level.joined ⟨[], items⟩).height ≤ height) :
    ReadAs size height (Utf8.encode cs) (Level.joined ⟨[], items⟩).pattern := by
  have halternatives : ({ branches := [], items := [Level.joined ⟨[], items⟩] } : Level).alternatives =
      Level.joined ⟨[], items⟩ := rfl
  rw [ReadAs, parse_encode]
  rcases h {} ⟨rfl, rfl, rfl⟩ cs.length (Nat.le_refl _) with
    ⟨fault, hover, herror⟩ | ⟨r, fuel, hr, -, hrun⟩
  · exact .inl ⟨fault, hover, by rw [herror]; rfl⟩
  · rw [hrun, List.map_nil, run_end, Except.bind, hr.level, hr.groups]
    rcases r.limited_cases hsize hheight with ⟨fault, hover, herror⟩ | hok
    · exact .inl ⟨fault, hover, by rw [herror]; rfl⟩
    · refine .inr ?_
      rw [hok, Except.bind, halternatives, hok]
      rfl

/-- A pattern, then one of some texts, then the end of the text. -/
def anchored (p : Pattern) (ts : List (List Char)) : Pattern :=
  .concat p (.concat (choice (ts.map word)) (.assertion .textEnd))

/-- The written form of a choice between quoted texts at the end of the text, behind `front`. -/
def anchoredText (front : List Char) (ts : List (List Char)) : List Char :=
  front ++ '(' :: (barred ts ++ [')', '$'])

theorem joined_anchored {x g : Piece} (hg : g.Chooses ts) :
    ∃ p : Piece, Level.joined ⟨[], [{ pattern := .assertion .textEnd }, g, x]⟩ = p ∧
      p.pattern = anchored x.pattern ts ∧ p.size = x.size + choiceSize ts + 3 ∧
      p.height = max (max x.height (choiceHeight ts + 1)) 1 + 1 := by
  have hend : g.kind.append? Kind.other = none := by rw [hg.kind]; rfl
  have hgroup : x.kind.append? g.kind = none := by rw [hg.kind]; cases x.kind <;> rfl
  have hmerge : mergeLiterals [x, g, { pattern := .assertion .textEnd }] =
      [x, g, { pattern := .assertion .textEnd }] := by
    simp only [mergeLiterals, hend, hgroup]
  refine ⟨_, rfl, ?_⟩
  rw [Level.joined]
  simp only [List.reverse_cons, List.reverse_nil, List.nil_append, List.cons_append, hmerge]
  refine ⟨?_, ?_, ?_⟩
  · simp [sequence, anchored, hg.pattern]
  · simp [sequenceMeasures, hg.size, Nat.add_assoc]
  · simp [sequenceMeasures, hg.height, Nat.add_comm]

theorem readAs_anchored {front : List Char} {x : Piece} (hne : ts ≠ [])
    (hsize : x.size + choiceSize ts + 3 ≤ size)
    (hheight : max x.height (choiceHeight ts + 1) + 1 ≤ height)
    (hfront : ∀ rest, Leads size height (Utf8.encode (anchoredText front ts)) {} []
      (front ++ '(' :: rest) ⟨[], [x]⟩ [] ('(' :: rest)) :
    ReadAs size height (Utf8.encode (anchoredText front ts)) (anchored x.pattern ts) := by
  obtain ⟨g, hg, hleads⟩ : ∃ g : Piece, g.Chooses ts ∧
      Leads size height (Utf8.encode (anchoredText front ts)) ⟨[], [x]⟩ []
        ('(' :: (barred ts ++ ')' :: ['$'])) ⟨[], [g, x]⟩ [] ['$'] :=
    leads_group hne (by omega) (by omega)
  obtain ⟨p, hp, hpattern, hpsize, hpheight⟩ := joined_anchored (x := x) hg
  have hall := readAs_of_leads (((hfront _).trans hleads).trans leads_textEnd)
  rw [hp, hpattern] at hall
  exact hall (by omega) (by omega)

theorem height_of_parse_anchored {front : List Char} {x : Piece} (hne : ts ≠ [])
    (hsize : choiceSize ts ≤ size) (hheight : 1 ≤ height)
    (hfront : ∀ rest, Leads size height (Utf8.encode (anchoredText front ts)) {} []
      (front ++ '(' :: rest) ⟨[], [x]⟩ [] ('(' :: rest)) {p : Pattern}
    (hparse : parse (Utf8.encode (anchoredText front ts)) = .ok p) :
    choiceHeight ts + 1 ≤ maxHeight := by
  obtain ⟨l, hl, hleads⟩ : ∃ l : Level, l.joined :: l.branches = (ts.map textPiece).reverse ∧
      Leads size height (Utf8.encode (anchoredText front ts)) ⟨[], [x]⟩ []
        ('(' :: (barred ts ++ ')' :: ['$'])) l (⟨⟨[], [x]⟩, {}, true⟩ :: []) [')', '$'] :=
    leads_into_group hne hsize hheight
  have hreach : Leads size height (Utf8.encode (anchoredText front ts)) {} [] (anchoredText front ts)
      l (⟨⟨[], [x]⟩, {}, true⟩ :: []) [')', '$'] := (hfront _).trans hleads
  rw [parse_encode] at hparse
  rcases hreach {} ⟨rfl, rfl, rfl⟩ _ (Nat.le_refl _) with
    ⟨fault, hover, herror⟩ | ⟨r, fuel, hr, hfuel, hrun⟩
  · rw [herror] at hparse
    cases hparse
  · obtain ⟨fuel, rfl⟩ := Nat.exists_eq_succ_of_ne_zero (n := fuel) (by rintro rfl; simp at hfuel)
    have hstep :
        Reader.run (Utf8.encode (anchoredText front ts)) (fuel + 1) r ([')', '$'].map .char) =
          (r.step (Utf8.encode (anchoredText front ts)) ([')', '$'].map .char)).bind fun p =>
            Reader.run (Utf8.encode (anchoredText front ts)) fuel p.1 p.2 := rfl
    rw [hrun, hstep] at hparse
    cases hclose : r.step (Utf8.encode (anchoredText front ts)) ([')', '$'].map .char) with
    | error e =>
      rw [hclose] at hparse
      cases hparse
    | ok after =>
      rw [← (chooses_group hl).height]
      exact step_close_eq_ok hr hclose

end Linewise.Pattern
