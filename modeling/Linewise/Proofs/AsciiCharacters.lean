import Linewise.Proofs.CharacterBytes
import Linewise.Pattern.CharSet

/-!
# ASCII characters

A byte below 0x80 is a character wherever it stands in a byte string and cuts the text there. Hardly
any character outside ASCII matches one of these in another case: only `k` and `s` have such partners.
-/

namespace Linewise

namespace Utf8

variable {a b : UInt8} {c : Char} {k skip : Nat} {text rest x y : Bytes}

/-! ## Cutting a text -/

/-- No character reaches beyond a byte below 0x80. -/
theorem lead?_append_ascii (hb : b < 0x80) (a : UInt8) (x y : Bytes) :
    lead? a (x ++ b :: y) = lead? a x := by
  by_cases ha : a < 0x80
  · rw [lead?_ascii ha, lead?_ascii ha]
  have htail : isTail b = false := by
    rw [← Bool.not_eq_true, isTail_iff]
    have := UInt8.lt_iff_toNat_lt.mp hb
    simp at this
    omega
  have hpair : isPair a b = false := by simp [isPair, htail]
  have htriple : isTripleStart a b = false := by
    rw [← Bool.not_eq_true, isTripleStart_iff]
    have := UInt8.lt_iff_toNat_lt.mp hb
    simp at this
    omega
  have hquad : isQuadStart a b = false := by
    rw [← Bool.not_eq_true, isQuadStart_iff]
    have := UInt8.lt_iff_toNat_lt.mp hb
    simp at this
    omega
  rcases x with _ | ⟨x₁, _ | ⟨x₂, _ | ⟨x₃, x⟩⟩⟩
  · rcases y with _ | ⟨y₁, _ | ⟨y₂, y⟩⟩ <;> simp [lead?, ha, hpair, htriple, hquad]
  · rcases y with _ | ⟨y₁, y⟩ <;> simp [lead?, ha, htail]
  · simp [lead?, ha, htail]
  · simp [lead?]

theorem le_length_of_lead? (h : lead? a rest = some (c, k)) : k ≤ rest.length := by
  rw [lead?.eq_def] at h
  repeat' split at h
  all_goals simp_all
  all_goals omega

theorem ascii_lt (hc : c.toNat < 0x80) : Bytes.ascii c < 0x80 := by
  rw [UInt8.lt_iff_toNat_lt]
  simp [Bytes.ascii]
  omega

theorem ofNat_ascii (hc : c.toNat < 0x80) : Char.ofNat (Bytes.ascii c).toNat = c := by
  have hlow : (Bytes.ascii c).toNat = c.toNat := by
    simp [Bytes.ascii]
    omega
  rw [hlow, Char.ofNat_toNat]

theorem eq_of_lead?_ascii (h : lead? a rest = some (c, k)) (hc : c.toNat < 0x80) :
    a = Bytes.ascii c ∧ k = 0 := by
  have hbytes := utf8EncodeChar_of_lead? h
  rw [utf8EncodeChar_of_lt hc] at hbytes
  obtain ⟨rfl, -⟩ := List.cons.inj hbytes
  rw [lead?_ascii (ascii_lt hc)] at h
  exact ⟨rfl, by simpa using (congrArg Prod.snd (Option.some.inj h)).symm⟩

theorem symbolsFrom_append_ascii (hb : b < 0x80) (hskip : skip ≤ x.length) (y : Bytes) :
    symbolsFrom skip (x ++ b :: y) =
      symbolsFrom skip x ++ .char (Char.ofNat b.toNat) :: symbols y := by
  induction x generalizing skip with
  | nil =>
    obtain rfl : skip = 0 := Nat.le_zero.mp hskip
    simp [symbolsFrom, symbols, lead?_ascii hb]
  | cons a x ih =>
    cases skip with
    | succ skip => exact ih (Nat.le_of_succ_le_succ hskip)
    | zero =>
      rw [List.cons_append, symbolsFrom, symbolsFrom, lead?_append_ascii hb]
      cases hl : lead? a x with
      | none => rw [ih (Nat.zero_le _), List.cons_append]
      | some found =>
        obtain ⟨c, taken⟩ := found
        simp only
        rw [ih (le_length_of_lead? hl), List.cons_append]

/-- An ASCII character that is read stands there as a byte. -/
theorem exists_of_symbolsFrom {before after : List Symbol} (hc : c.toNat < 0x80)
    (hskip : skip ≤ text.length) (h : symbolsFrom skip text = before ++ .char c :: after) :
    ∃ x y, text = x ++ Bytes.ascii c :: y ∧ skip ≤ x.length ∧ symbolsFrom skip x = before ∧
      symbols y = after := by
  induction text generalizing skip before with
  | nil => simp [symbolsFrom] at h
  | cons a text ih =>
    cases skip with
    | succ skip =>
      obtain ⟨x, y, rfl, hx, hbefore, hafter⟩ := ih (Nat.le_of_succ_le_succ hskip) h
      exact ⟨a :: x, y, rfl, Nat.succ_le_succ hx, hbefore, hafter⟩
    | zero =>
      have hlow := ascii_lt hc
      rw [symbolsFrom] at h
      cases hl : lead? a text with
      | none =>
        simp only [hl] at h
        rcases List.cons_eq_append_iff.mp h with ⟨-, hstray⟩ | ⟨before, rfl, hrest⟩
        · cases hstray
        · obtain ⟨x, y, rfl, -, rfl, hafter⟩ := ih (Nat.zero_le _) hrest
          rw [lead?_append_ascii hlow] at hl
          exact ⟨a :: x, y, rfl, Nat.zero_le _, by simp [symbolsFrom, hl], hafter⟩
      | some found =>
        obtain ⟨d, taken⟩ := found
        simp only [hl] at h
        rcases List.cons_eq_append_iff.mp h with ⟨rfl, hfirst⟩ | ⟨before, rfl, hrest⟩
        · obtain ⟨hd, rfl⟩ := List.cons.inj hfirst
          obtain rfl := Symbol.char.inj hd
          obtain ⟨rfl, rfl⟩ := eq_of_lead?_ascii hl hc
          exact ⟨[], text, rfl, Nat.le_refl _, rfl, rfl⟩
        · obtain ⟨x, y, rfl, hx, rfl, hafter⟩ := ih (le_length_of_lead? hl) hrest
          rw [lead?_append_ascii hlow] at hl
          exact ⟨a :: x, y, rfl, Nat.zero_le _, by simp [symbolsFrom, hl], hafter⟩

theorem chars_eq_append_cons_iff {before after : List Char} (hc : c.toNat < 0x80) :
    chars text = before ++ c :: after ↔
      ∃ x y, text = x ++ Bytes.ascii c :: y ∧ chars x = before ∧ chars y = after := by
  constructor
  · intro h
    obtain ⟨before, rest, hsymbols, rfl, hrest⟩ := List.map_eq_append_iff.mp h
    obtain ⟨s, after, rfl, hs, rfl⟩ := List.map_eq_cons_iff.mp hrest
    cases s with
    | stray b =>
      obtain rfl : Char.ofNat 0xFFFD = c := hs
      exact absurd hc (by decide)
    | char d =>
      obtain rfl : d = c := hs
      obtain ⟨x, y, htext, -, rfl, rfl⟩ := exists_of_symbolsFrom hc (Nat.zero_le _) hsymbols
      exact ⟨x, y, htext, rfl, rfl⟩
  · rintro ⟨x, y, rfl, rfl, rfl⟩
    rw [chars, symbols, symbolsFrom_append_ascii (ascii_lt hc) (Nat.zero_le _), List.map_append,
      List.map_cons, Symbol.toChar, ofNat_ascii hc]
    rfl

theorem chars_eq_nil_iff : chars text = [] ↔ text = [] := by
  constructor
  · intro h
    cases text with
    | nil => rfl
    | cons a text =>
      simp only [chars, symbols, symbolsFrom, List.map_eq_nil_iff] at h
      cases hl : lead? a text <;> simp [hl] at h
  · rintro rfl
    rfl

theorem encode_eq_nil_iff {cs : List Char} : encode cs = [] ↔ cs = [] := by
  rw [← chars_eq_nil_iff, chars_encode]

/-- A stretch of ASCII characters that is read stands there in its bytes. -/
theorem chars_eq_append_iff {before stretch after : List Char} (hne : stretch ≠ [])
    (hascii : ∀ c ∈ stretch, c.toNat < 0x80) :
    chars text = before ++ (stretch ++ after) ↔
      ∃ x y, text = x ++ (encode stretch ++ y) ∧ chars x = before ∧ chars y = after := by
  induction stretch generalizing text before with
  | nil => exact absurd rfl hne
  | cons c stretch ih =>
    obtain ⟨hc, hstretch⟩ := List.forall_mem_cons.mp hascii
    rw [List.cons_append, chars_eq_append_cons_iff hc, encode_cons, utf8EncodeChar_of_lt hc]
    refine exists_congr fun x => ?_
    constructor
    · rintro ⟨z, rfl, rfl, hz⟩
      by_cases hnil : stretch = []
      · subst hnil
        exact ⟨z, rfl, rfl, hz⟩
      · have hfirst : chars z = [] ++ (stretch ++ after) := hz
        obtain ⟨u, y, rfl, hu, hy⟩ := (ih hnil hstretch).mp hfirst
        obtain rfl := chars_eq_nil_iff.mp hu
        exact ⟨y, rfl, rfl, hy⟩
    · rintro ⟨y, rfl, rfl, rfl⟩
      refine ⟨encode stretch ++ y, rfl, rfl, ?_⟩
      by_cases hnil : stretch = []
      · subst hnil
        rfl
      · have hfirst : chars (encode stretch ++ y) = [] ++ (stretch ++ chars y) :=
          (ih hnil hstretch).mpr ⟨[], y, rfl, rfl, rfl⟩
        exact hfirst

theorem getLast?_chars_iff (hc : c.toNat < 0x80) :
    (chars text).getLast? = some c ↔ text.getLast? = some (Bytes.ascii c) := by
  simp only [List.getLast?_eq_some_iff, chars_eq_append_cons_iff hc, chars_eq_nil_iff]
  constructor
  · rintro ⟨_, x, _, rfl, -, rfl⟩
    exact ⟨x, rfl⟩
  · rintro ⟨x, rfl⟩
    exact ⟨_, x, [], rfl, rfl, rfl⟩

theorem head?_chars_iff (hc : c.toNat < 0x80) :
    (chars text).head? = some c ↔ text.head? = some (Bytes.ascii c) := by
  rw [List.head?_eq_some_iff, List.head?_eq_some_iff]
  constructor
  · rintro ⟨after, h⟩
    have hfirst : chars text = [] ++ c :: after := h
    obtain ⟨x, y, rfl, hx, -⟩ := (chars_eq_append_cons_iff hc).mp hfirst
    obtain rfl := chars_eq_nil_iff.mp hx
    exact ⟨y, rfl⟩
  · rintro ⟨y, rfl⟩
    exact ⟨chars y, (chars_eq_append_cons_iff hc).mpr ⟨[], y, rfl, rfl, rfl⟩⟩

end Utf8

namespace Unicode

/-! ## Partners in another case -/

/-- Where a run of foldings starts and what its characters fold to: a run of ASCII characters turns
capital letters into small ones, and of the others only the long s and the Kelvin sign fold to ASCII. -/
theorem foldRuns_ascii : ∀ r ∈ foldRuns,
    r.first = 65 ∧ r.count = 26 ∧ r.step = 1 ∧ r.shift = 32 ∨
      128 ≤ r.first ∧ (128 ≤ r.first + r.shift ∨ r.count = 1 ∧ r.first + r.shift = 107 ∨
        r.count = 1 ∧ r.first + r.shift = 115) := by
  decide +kernel

theorem FoldRun.fold?_eq_some_iff {r : FoldRun} {n t : Nat} : r.fold? n = some t ↔
    (r.first ≤ n ∧ n ≤ r.first + (r.count - 1) * r.step) ∧ (n - r.first) % r.step = 0 ∧
      ((n : Int) + r.shift).toNat = t := by
  simp [fold?, and_assoc]

theorem fold_of_ge {n : Nat} (hn : 128 ≤ n) : 128 ≤ fold n ∨ fold n = 107 ∨ fold n = 115 := by
  unfold fold
  cases hfound : foldRuns.findSome? (·.fold? n) with
  | none => exact .inl hn
  | some t =>
    obtain ⟨r, hr, ht⟩ := List.exists_of_findSome?_eq_some hfound
    obtain ⟨⟨hfirst, hlast⟩, -, rfl⟩ := FoldRun.fold?_eq_some_iff.mp ht
    rw [Option.getD_some]
    rcases foldRuns_ascii r hr with ⟨hA, hcount, hstep, -⟩ | ⟨-, hge | ⟨hcount, hk⟩ | ⟨hcount, hs⟩⟩
    · simp only [hA, hcount, hstep] at hlast
      omega
    · omega
    · simp only [hcount] at hlast
      omega
    · simp only [hcount] at hlast
      omega

theorem source?_of_lt {r : FoldRun} (hr : r ∈ foldRuns) {t k : Nat} (h : r.source? t = some k)
    (hk : k < 128) : 65 ≤ k ∧ k ≤ 90 ∧ t = k + 32 := by
  simp only [FoldRun.source?, Option.ite_none_right_eq_some, Option.some.injEq, beq_iff_eq] at h
  obtain ⟨hfold, rfl⟩ := h
  obtain ⟨⟨hfirst, hlast⟩, -, ht⟩ := FoldRun.fold?_eq_some_iff.mp hfold
  rcases foldRuns_ascii r hr with ⟨hA, hcount, hstep, hshift⟩ | ⟨hge, -⟩
  · simp only [hA, hcount, hstep, hshift] at hfirst hlast ht hk ⊢
    omega
  · omega

/-- The ASCII characters that match a character outside ASCII. -/
theorem mem_caseOrbit_of_ge {n k : Nat} (hn : 128 ≤ n) (h : k ∈ caseOrbit n) (hk : k < 128) :
    k ∈ [75, 83, 107, 115] := by
  have hfold := fold_of_ge hn
  rw [caseOrbit, if_neg (by omega)] at h
  rcases List.mem_cons.mp h with rfl | hsource
  · rcases hfold with hge | hk | hs
    · omega
    · simp [hk]
    · simp [hs]
  · obtain ⟨r, hr, hsource⟩ := List.mem_filterMap.mp hsource
    obtain ⟨hcapital, hZ, ht⟩ := source?_of_lt hr hsource hk
    have : k = 75 ∨ k = 83 := by omega
    rcases this with rfl | rfl <;> simp

end Unicode

namespace Pattern

/-- What is made of ASCII characters without partners outside ASCII holds ASCII characters only, even
without regard to case. -/
theorem Member.holds_fold_iff {atoms : List Atom}
    (hatoms : ∀ k, (atoms.any (·.holds k)) = true → k < 128 ∧ k ∉ [75, 83, 107, 115]) (n : Nat) :
    (Member.mk atoms true false).holds n = true ↔
      n < 128 ∧ ((Unicode.caseOrbit n).any fun k => atoms.any (·.holds k)) = true := by
  simp only [Member.holds, if_true, Bool.bne_false, iff_and_self]
  intro h
  obtain ⟨k, hk, hholds⟩ := List.any_eq_true.mp h
  obtain ⟨hlow, hnot⟩ := hatoms k hholds
  by_contra hn
  exact hnot (Unicode.mem_caseOrbit_of_ge (by omega) hk hlow)

end Pattern

end Linewise
