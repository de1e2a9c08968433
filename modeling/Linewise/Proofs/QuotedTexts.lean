import Linewise.PathFilter
import Linewise.Proofs.StandardPatterns

/-!
# Reading quoted texts

A text is quoted so that every character of it stands for itself. The reader goes over a quoted text
by pushing its characters, whatever stands around it. It is stopped only where a pattern is over one
of the limits on size and depth.
-/

namespace Linewise

namespace PathFilter
open Utf8

/-! ## Quoting -/

/-- The characters with a meaning of their own in patterns. -/
def specialChars : List Char :=
  ['\\', '.', '+', '*', '?', '(', ')', '|', '[', ']', '\x7b', '\x7d', '^', '$']

/-- A character as it is written to stand for itself. -/
def quoteChar (c : Char) : List Char := if c ∈ specialChars then ['\\', c] else [c]

/-- A text as it is written to stand for itself. -/
def quoteChars (cs : List Char) : List Char := cs.flatMap quoteChar

/-- Quoted texts with bars between them. -/
def barred : List (List Char) → List Char
  | [] => []
  | [t] => quoteChars t
  | t :: ts => quoteChars t ++ '|' :: barred ts

theorem specialChars_ascii : ∀ c ∈ specialChars, c.toNat < 0x80 := by
  simp [specialChars]

theorem isSpecial_iff (b : UInt8) : isSpecial b = true ↔ ∃ c ∈ specialChars, Bytes.ascii c = b := by
  have hbytes : utf8 "\\.+*?()|[]\x7b\x7d^$" = specialChars.map Bytes.ascii :=
    encode_of_lt specialChars_ascii
  rw [isSpecial, hbytes, List.contains_iff_mem, List.mem_map]

theorem isSpecial_ascii_iff {c : Char} (hc : c.toNat < 0x80) :
    isSpecial (Bytes.ascii c) = true ↔ c ∈ specialChars := by
  rw [isSpecial_iff]
  constructor
  · rintro ⟨d, hd, hsame⟩
    rw [← ofNat_ascii hc, ← hsame, ofNat_ascii (specialChars_ascii d hd)]
    exact hd
  · exact fun h => ⟨c, h, rfl⟩

theorem le_of_mem_utf8EncodeChar {c : Char} (hc : 0x80 ≤ c.toNat) {b : UInt8}
    (hb : b ∈ String.utf8EncodeChar c) : 0x80 ≤ b := by
  by_contra h
  rw [UInt8.not_le] at h
  have hlow : b.toNat < 0x80 := UInt8.lt_iff_toNat_lt.mp h
  have hd : (Char.ofNat b.toNat).toNat = b.toNat := toNat_ofNat (.inl (by omega))
  have hbyte : Bytes.ascii (Char.ofNat b.toNat) = b := by
    rw [Bytes.ascii, hd]
    exact UInt8.ofNat_toNat
  obtain ⟨x, y, hsplit⟩ := List.append_of_mem hb
  have hchars : chars (encode [c]) = chars x ++ Char.ofNat b.toNat :: chars y :=
    (chars_eq_append_cons_iff (by omega)).mpr ⟨x, y, by simp [encode_cons, hsplit, hbyte], rfl, rfl⟩
  rw [chars_encode] at hchars
  have hmem : Char.ofNat b.toNat ∈ [c] := hchars ▸ by simp
  rw [List.mem_singleton] at hmem
  rw [← hmem, hd] at hc
  omega

theorem quote_utf8EncodeChar (c : Char) :
    quote (String.utf8EncodeChar c) = encode (quoteChar c) := by
  by_cases hc : c.toNat < 0x80
  · have hspecial := isSpecial_ascii_iff hc
    rw [utf8EncodeChar_of_lt hc]
    by_cases h : c ∈ specialChars
    · simp [quote, quoteChar, h, hspecial.mpr h, encode, utf8EncodeChar_of_lt hc]
      rfl
    · simp [quote, quoteChar, h, hspecial, encode, utf8EncodeChar_of_lt hc]
  · have hplain : ∀ b ∈ String.utf8EncodeChar c, isSpecial b ≠ true := by
      intro b hb h
      obtain ⟨d, hd, rfl⟩ := (isSpecial_iff b).mp h
      have hhigh := le_of_mem_utf8EncodeChar (Nat.le_of_not_lt hc) hb
      exact absurd (ascii_lt (specialChars_ascii d hd)) (by simpa using hhigh)
    have hc' : c ∉ specialChars := fun h => hc (specialChars_ascii c h)
    have hquote : quote (String.utf8EncodeChar c) =
        (String.utf8EncodeChar c).flatMap fun b => [b] :=
      List.flatMap_congr fun b hb => by rw [if_neg (hplain b hb)]
    rw [hquote, List.flatMap_singleton', quoteChar, if_neg hc', encode_cons, encode_nil,
      List.append_nil]

theorem quote_encode (cs : List Char) : quote (encode cs) = encode (quoteChars cs) := by
  induction cs with
  | nil => rfl
  | cons c cs ih =>
    have happend (x y : Bytes) : quote (x ++ y) = quote x ++ quote y := List.flatMap_append
    rw [encode_cons, happend, quote_utf8EncodeChar, ih, ← encode_append]
    rfl

theorem quoteAll_encode (ts : List (List Char)) :
    quoteAll (ts.map encode) = encode (barred ts) := by
  rw [quoteAll, Bytes.joinWith, List.map_map]
  fun_induction barred ts with
  | case1 => rfl
  | case2 t => simp [quote_encode]
  | case3 t ts hne ih =>
    obtain ⟨u, us, rfl⟩ := List.exists_cons_of_ne_nil hne
    rw [List.map_cons] at ih
    rw [List.map_cons, List.map_cons, List.intercalate_cons_cons, ih, Function.comp_apply,
      quote_encode, encode_append, encode_cons, List.append_assoc]
    rfl

end PathFilter

namespace Pattern
open PathFilter (specialChars quoteChar quoteChars barred)

/-! ## Reading -/

/-- The fault that is found in a pattern of some size and height when a limit is exceeded. -/
def Over (size height : Nat) (fault : Fault) : Prop :=
  fault = .tooLarge ∧ maxSize < size ∨ fault = .tooDeep ∧ maxHeight < height

/-- The reader stands on a level inside of some groups, and no flag is set. -/
structure Reader.Stands (r : Reader) (l : Level) (groups : List OpenGroup) : Prop where
  flags : r.flags = {}
  level : r.level = l
  groups : r.groups = groups

/-- Reading leads from one level with some text ahead to another with the rest of it ahead, unless a
pattern of this size and height is over a limit. -/
def Leads (size height : Nat) (whole : Bytes) (l : Level) (groups : List OpenGroup) (s : List Char)
    (l' : Level) (groups' : List OpenGroup) (rest : List Char) : Prop :=
  ∀ r : Reader, r.Stands l groups → ∀ fuel, s.length ≤ fuel →
    (∃ fault, Over size height fault ∧
        Reader.run whole fuel r (s.map .char) = .error ⟨fault, whole⟩) ∨
      ∃ r' fuel', r'.Stands l' groups' ∧ rest.length ≤ fuel' ∧
        Reader.run whole fuel r (s.map .char) = Reader.run whole fuel' r' (rest.map .char)

variable {size height : Nat} {whole : Bytes} {l l' l'' : Level} {bs items : List Piece}
  {groups groups' groups'' : List OpenGroup} {s s' s'' rest : List Char}

theorem Leads.refl : Leads size height whole l groups s l groups s :=
  fun r hr fuel hfuel => .inr ⟨r, fuel, hr, hfuel, rfl⟩

theorem Leads.trans (h : Leads size height whole l groups s l' groups' s')
    (h' : Leads size height whole l' groups' s' l'' groups'' s'') :
    Leads size height whole l groups s l'' groups'' s'' := by
  intro r hr fuel hfuel
  obtain herror | ⟨r', fuel', hr', hfuel', hrun⟩ := h r hr fuel hfuel
  · exact .inl herror
  · rw [hrun]
    exact h' r' hr' fuel' hfuel'

theorem leads_of_step (hshorter : rest.length < s.length)
    (hstep : ∀ r : Reader, r.Stands l groups →
      (∃ fault, Over size height fault ∧ r.step whole (s.map .char) = .error ⟨fault, whole⟩) ∨
        ∃ r' : Reader, r'.Stands l' groups' ∧
          r.step whole (s.map .char) = .ok (r', rest.map .char)) :
    Leads size height whole l groups s l' groups' rest := by
  intro r hr fuel hfuel
  obtain ⟨fuel, rfl⟩ := Nat.exists_eq_succ_of_ne_zero (n := fuel) (by omega)
  cases s with
  | nil => simp at hshorter
  | cons c s =>
    have hrun : Reader.run whole (fuel + 1) r ((c :: s).map .char) =
        (r.step whole ((c :: s).map .char)).bind fun p => Reader.run whole fuel p.1 p.2 := rfl
    rw [List.length_cons] at hshorter hfuel
    rcases hstep r hr with ⟨fault, hover, herror⟩ | ⟨r', hr', hok⟩
    · exact .inl ⟨fault, hover, by rw [hrun, herror]; rfl⟩
    · exact .inr ⟨r', fuel, hr', by omega, by rw [hrun, hok]; rfl⟩

/-- A literal character. -/
def plain (c : Char) : Piece := { kind := .text false [c.toNat], pattern := .literal c.toNat }

theorem step_quoteChar (r : Reader) (c : Char) (rest : List Symbol) :
    r.step whole ((quoteChar c).map .char ++ rest) = .ok (r.pushLiteral c.toNat, rest) := by
  by_cases hc : c ∈ specialChars
  · rw [quoteChar, if_pos hc]
    simp only [specialChars, List.mem_cons, List.not_mem_nil, or_false] at hc
    rcases hc with rfl | rfl | rfl | rfl | rfl | rfl | rfl | rfl | rfl | rfl | rfl | rfl | rfl | rfl
    all_goals rfl
  · rw [quoteChar, if_neg hc]
    simp only [specialChars, List.mem_cons, List.not_mem_nil, or_false, not_or] at hc
    simp [Reader.step, hc]

theorem Reader.Stands.push {r : Reader} (h : r.Stands ⟨bs, items⟩ groups) (p : Piece) :
    (r.push p).Stands ⟨bs, p :: items⟩ groups :=
  ⟨h.flags, by simp [Reader.push, h.level], h.groups⟩

/-- A construct that stands for a piece. -/
theorem leads_push {p : Piece} (hshorter : rest.length < s.length)
    (hstep : ∀ r : Reader, r.flags = {} →
      r.step whole (s.map .char) = .ok (r.push p, rest.map .char)) :
    Leads size height whole ⟨bs, items⟩ groups s ⟨bs, p :: items⟩ groups rest :=
  leads_of_step hshorter fun r hr => .inr ⟨r.push p, hr.push p, hstep r hr.flags⟩

theorem leads_quoteChar (c : Char) :
    Leads size height whole ⟨bs, items⟩ groups (quoteChar c ++ rest)
      ⟨bs, plain c :: items⟩ groups rest := by
  apply leads_push
  · rw [List.length_append, quoteChar]
    split <;> simp
  · intro r hflags
    rw [List.map_append, step_quoteChar, Reader.pushLiteral, hflags]
    rfl

theorem leads_quoteChars (cs : List Char) :
    Leads size height whole ⟨bs, items⟩ groups (quoteChars cs ++ rest)
      ⟨bs, (cs.map plain).reverse ++ items⟩ groups rest := by
  induction cs generalizing items with
  | nil => exact .refl
  | cons c cs ih =>
    rw [quoteChars, List.flatMap_cons, List.append_assoc, List.map_cons, List.reverse_cons,
      List.append_assoc]
    exact (leads_quoteChar c).trans ih

theorem leads_text (t : List Char) : Leads size height whole ⟨bs, []⟩ groups (quoteChars t ++ rest)
    ⟨bs, (t.map plain).reverse⟩ groups rest := by
  have h : Leads size height whole ⟨bs, []⟩ groups (quoteChars t ++ rest)
      ⟨bs, (t.map plain).reverse ++ []⟩ groups rest := leads_quoteChars t
  rwa [List.append_nil] at h

theorem leads_textStart : Leads size height whole ⟨bs, items⟩ groups ('^' :: rest)
    ⟨bs, { pattern := .assertion .textStart } :: items⟩ groups rest := by
  apply leads_push (by simp)
  rintro ⟨flags⟩ rfl
  rfl

theorem leads_textEnd : Leads size height whole ⟨bs, items⟩ groups ('$' :: rest)
    ⟨bs, { pattern := .assertion .textEnd } :: items⟩ groups rest := by
  apply leads_push (by simp)
  rintro ⟨flags⟩ rfl
  rfl

theorem Reader.limited_cases (r : Reader) {p : Piece} (hsize : p.size ≤ size)
    (hheight : p.height ≤ height) :
    (∃ fault, Over size height fault ∧ r.limited whole p = .error ⟨fault, whole⟩) ∨
      r.limited whole p = .ok p := by
  unfold limited
  split_ifs with hlarge hdeep
  · simp only [Bool.and_eq_true, decide_eq_true_eq] at hlarge
    exact .inl ⟨.tooLarge, .inl ⟨rfl, by omega⟩, rfl⟩
  · exact .inl ⟨.tooDeep, .inr ⟨rfl, by omega⟩, rfl⟩
  · exact .inr rfl

theorem leads_bar {p : Piece} (hp : l.joined = p) (hsize : p.size ≤ size)
    (hheight : p.height ≤ height) :
    Leads size height whole l groups ('|' :: rest) ⟨p :: l.branches, []⟩ groups rest := by
  subst hp
  refine leads_of_step (by simp) fun r hr => ?_
  have hstep : r.step whole (('|' :: rest).map .char) =
    (r.nextBranch whole).bind fun r => .ok (r, rest.map .char) := rfl
  have hbranch : r.nextBranch whole = (r.limited whole l.joined).bind fun p =>
      .ok { r with level := ⟨p :: l.branches, []⟩, lastRepeat := none } := by
    rw [Reader.nextBranch, hr.level]
    rfl
  rw [hstep, hbranch]
  rcases r.limited_cases hsize hheight with ⟨fault, hover, herror⟩ | hok
  · exact .inl ⟨fault, hover, by rw [herror]; rfl⟩
  · refine .inr ⟨{ r with level := ⟨l.joined :: l.branches, []⟩, lastRepeat := none }, ?_, ?_⟩
    · exact ⟨hr.flags, rfl, hr.groups⟩
    · rw [hok]
      rfl

theorem leads_open (hrest : rest.head? ≠ some '?') :
    Leads size height whole l groups ('(' :: rest) {} (⟨l, {}, true⟩ :: groups) rest := by
  refine leads_of_step (by simp) fun r hr => .inr ⟨r.openGroup true r.flags, ?_, ?_⟩
  · exact ⟨hr.flags, rfl, by simp [Reader.openGroup, hr.level, hr.flags, hr.groups]⟩
  · cases rest with
    | nil => rfl
    | cons c rest =>
      have hc : c ≠ '?' := by simpa using hrest
      simp [Reader.step, hc]

/-- A pattern in parentheses. -/
def Piece.grouped (p : Piece) : Piece :=
  { p with kind := .other, height := p.height + 1, size := p.size + 2 }

/-- The alternatives of a level in parentheses. -/
def Level.group (l : Level) : Piece :=
  ({ l with items := [l.joined] } : Level).alternatives.grouped

theorem step_close {r : Reader} (hr : r.Stands l (⟨⟨bs, items⟩, {}, true⟩ :: groups)) :
    r.step whole ((')' :: rest).map .char) =
      (r.limited whole l.joined).bind fun p =>
        (r.limited whole ({ l with items := [p] } : Level).alternatives).bind fun p =>
          (r.limited whole p.grouped).bind fun p =>
            let outer : Reader := { r with groups := groups, level := ⟨bs, items⟩, flags := {} }
            .ok ({ outer.push p with lastRepeat := none }, rest.map .char) := by
  have hstep : r.step whole ((')' :: rest).map .char) =
    (r.closeGroup whole).bind fun r => .ok (r, rest.map .char) := rfl
  rw [hstep, Reader.closeGroup, hr.level, hr.groups]
  cases r.limited whole l.joined with
  | error e => rfl
  | ok p =>
    simp only [bind, Except.bind]
    cases r.limited whole ({ l with items := [p] } : Level).alternatives with
    | error e => rfl
    | ok p =>
      simp only [if_true, Piece.grouped]
      cases r.limited whole { p with kind := .other, height := p.height + 1, size := p.size + 2 } <;>
        rfl

theorem leads_close (hjoined : l.joined.size ≤ size ∧ l.joined.height ≤ height)
    (hsize : l.group.size ≤ size) (hheight : l.group.height ≤ height) :
    Leads size height whole l (⟨⟨bs, items⟩, {}, true⟩ :: groups) (')' :: rest)
      ⟨bs, l.group :: items⟩ groups rest := by
  refine leads_of_step (by simp) fun r hr => ?_
  rw [step_close hr]
  have hwithin : ({ l with items := [l.joined] } : Level).alternatives.size ≤ size ∧
      ({ l with items := [l.joined] } : Level).alternatives.height ≤ height :=
    ⟨Nat.le_of_add_right_le hsize, Nat.le_of_add_right_le hheight⟩
  rcases r.limited_cases hjoined.1 hjoined.2 with ⟨fault, hover, herror⟩ | hok
  · exact .inl ⟨fault, hover, by rw [herror]; rfl⟩
  rcases r.limited_cases hwithin.1 hwithin.2 with ⟨fault, hover, herror⟩ | hok'
  · exact .inl ⟨fault, hover, by rw [hok, Except.bind, herror]; rfl⟩
  rcases r.limited_cases hsize hheight with ⟨fault, hover, herror⟩ | hok''
  · refine .inl ⟨fault, hover, ?_⟩
    rw [hok, Except.bind, hok', Except.bind, ← Level.group, herror]
    rfl
  · refine .inr ⟨_, ?_, by rw [hok, Except.bind, hok', Except.bind, ← Level.group, hok'']; rfl⟩
    exact ⟨rfl, rfl, rfl⟩

theorem Reader.limited_eq_ok {r : Reader} {p q : Piece} (h : r.limited whole p = .ok q) :
    q = p ∧ p.height ≤ maxHeight := by
  unfold limited at h
  split_ifs at h with hlarge hdeep
  · cases h
  · cases h
  · exact ⟨(Except.ok.inj h).symm, by omega⟩

theorem step_close_eq_ok {r : Reader} (hr : r.Stands l (⟨⟨bs, items⟩, {}, true⟩ :: groups))
    {after : Reader × List Symbol} (h : r.step whole ((')' :: rest).map .char) = .ok after) :
    l.group.height ≤ maxHeight := by
  rw [step_close hr] at h
  cases hjoined : r.limited whole l.joined with
  | error e => simp [hjoined, Except.bind] at h
  | ok p =>
    obtain ⟨rfl, -⟩ := Reader.limited_eq_ok hjoined
    rw [hjoined, Except.bind] at h
    cases halternatives : r.limited whole ({ l with items := [l.joined] } : Level).alternatives with
    | error e => simp [halternatives, Except.bind] at h
    | ok p =>
      obtain ⟨rfl, -⟩ := Reader.limited_eq_ok halternatives
      rw [halternatives, Except.bind, ← Level.group] at h
      cases hgroup : r.limited whole l.group with
      | error e => simp [hgroup, Except.bind] at h
      | ok p => exact (Reader.limited_eq_ok hgroup).2

end Pattern

end Linewise
