import Linewise.Utf8
import Mathlib

namespace Linewise.Utf8

theorem toNat_ofNat_of_lt {n : Nat} (h : n < 256) : (UInt8.ofNat n).toNat = n := by
  simp [Nat.mod_eq_of_lt h]

theorem lead?_ascii {a : UInt8} (h : a < 0x80) (rest : Bytes) :
    lead? a rest = some (Char.ofNat a.toNat, 0) := by
  rw [lead?.eq_def, if_pos h]

theorem lead?_pair {a b : UInt8} (h : isPair a b = true) (rest : Bytes) :
    lead? a (b :: rest) = some (lead?.pair a b, 1) := by
  have ha : ¬ a < 0x80 := by
    simp only [isPair, Bool.and_eq_true, decide_eq_true_eq, UInt8.le_iff_toNat_le] at h
    rw [UInt8.lt_iff_toNat_lt]
    have := h.1.1
    simp at this ⊢
    omega
  rcases rest with _ | ⟨c, _ | ⟨d, rest⟩⟩ <;> simp [lead?, ha, h]

theorem lead?_triple {a b c : UInt8} (h : isTripleStart a b = true) (hc : isTail c = true)
    (rest : Bytes) : lead? a (b :: c :: rest) = some (lead?.triple a b c, 2) := by
  have hge : 0xE0 ≤ a := by
    revert h
    simp only [isTripleStart]
    grind
  have ha : ¬ a < 0x80 := by grind
  have hp : isPair a b = false := by
    simp only [isPair, Bool.and_eq_false_iff, decide_eq_false_iff_not]
    grind
  rcases rest with _ | ⟨d, rest⟩ <;> simp [lead?, ha, hp, h, hc]

theorem lead?_quad {a b c d : UInt8} (h : isQuadStart a b = true) (hc : isTail c = true)
    (hd : isTail d = true) (rest : Bytes) :
    lead? a (b :: c :: d :: rest) = some (lead?.quad a b c d, 3) := by
  have hge : 0xF0 ≤ a := by
    revert h
    simp only [isQuadStart]
    grind
  have ha : ¬ a < 0x80 := by grind
  have hp : isPair a b = false := by
    simp only [isPair, Bool.and_eq_false_iff, decide_eq_false_iff_not]
    grind
  have ht : isTripleStart a b = false := by
    simp only [isTripleStart]
    grind
  simp [lead?, ha, hp, ht, h, hc, hd]


theorem isTail_iff {b : UInt8} : isTail b = true ↔ 0x80 ≤ b.toNat ∧ b.toNat ≤ 0xBF := by
  simp [isTail, UInt8.le_iff_toNat_le]

theorem isPair_iff {a b : UInt8} :
    isPair a b = true ↔ (0xC2 ≤ a.toNat ∧ a.toNat ≤ 0xDF) ∧ 0x80 ≤ b.toNat ∧ b.toNat ≤ 0xBF := by
  simp [isPair, isTail, UInt8.le_iff_toNat_le]

theorem isTripleStart_iff {a b : UInt8} :
    isTripleStart a b = true ↔ (0xE0 ≤ a.toNat ∧ a.toNat ≤ 0xEF) ∧ 0x80 ≤ b.toNat ∧
      b.toNat ≤ 0xBF ∧ (a.toNat = 0xE0 → 0xA0 ≤ b.toNat) ∧ (a.toNat = 0xED → b.toNat ≤ 0x9F) := by
  have h0 : a = 0xE0 ↔ a.toNat = 0xE0 := by rw [← UInt8.toNat_inj]; rfl
  have h1 : a = 0xED ↔ a.toNat = 0xED := by rw [← UInt8.toNat_inj]; rfl
  simp only [isTripleStart, isTail, beq_iff_eq, h0, h1]
  split
  · simp [UInt8.le_iff_toNat_le]
    omega
  · split <;> simp [UInt8.le_iff_toNat_le] <;> omega

theorem isQuadStart_iff {a b : UInt8} :
    isQuadStart a b = true ↔ (0xF0 ≤ a.toNat ∧ a.toNat ≤ 0xF4) ∧ 0x80 ≤ b.toNat ∧
      b.toNat ≤ 0xBF ∧ (a.toNat = 0xF0 → 0x90 ≤ b.toNat) ∧ (a.toNat = 0xF4 → b.toNat ≤ 0x8F) := by
  have h0 : a = 0xF0 ↔ a.toNat = 0xF0 := by rw [← UInt8.toNat_inj]; rfl
  have h1 : a = 0xF4 ↔ a.toNat = 0xF4 := by rw [← UInt8.toNat_inj]; rfl
  simp only [isQuadStart, isTail, beq_iff_eq, h0, h1]
  split
  · simp [UInt8.le_iff_toNat_le]
    omega
  · split <;> simp [UInt8.le_iff_toNat_le] <;> omega

theorem toNat_bounds (c : Char) : c.toNat < 0xD800 ∨ 0xDFFF < c.toNat ∧ c.toNat < 0x110000 :=
  c.valid

/-- Reading a character where its bytes stand. -/
theorem lead?_utf8EncodeChar (c : Char) (rest : Bytes) :
    ∃ a tail, String.utf8EncodeChar c = a :: tail ∧
      lead? a (tail ++ rest) = some (c, tail.length) := by
  have hv : c.val.toNat = c.toNat := rfl
  have hb := toNat_bounds c
  have hz := toNat_ofNat_of_lt (show c.toNat % 64 + 128 < 256 by omega)
  have hy := toNat_ofNat_of_lt (show c.toNat / 64 % 64 + 128 < 256 by omega)
  have hx := toNat_ofNat_of_lt (show c.toNat / 4096 % 64 + 128 < 256 by omega)
  simp only [String.utf8EncodeChar, hv]
  split
  · refine ⟨_, _, rfl, ?_⟩
    have hn := toNat_ofNat_of_lt (show c.toNat < 256 by omega)
    rw [lead?_ascii (by rw [UInt8.lt_iff_toNat_lt, hn]; simp; omega), hn, Char.ofNat_toNat]
    rfl
  split
  · refine ⟨_, _, rfl, ?_⟩
    have ha := toNat_ofNat_of_lt (show c.toNat / 64 % 32 + 192 < 256 by omega)
    have hn : (c.toNat / 64 % 32 + 192) % 32 * 64 + (c.toNat % 64 + 128) % 64 = c.toNat := by omega
    rw [List.cons_append, lead?_pair (by rw [isPair_iff, ha, hz]; omega)]
    simp only [lead?.pair, tailBits, ha, hz, hn, Char.ofNat_toNat]
    rfl
  split
  · refine ⟨_, _, rfl, ?_⟩
    have ha := toNat_ofNat_of_lt (show c.toNat / 4096 % 16 + 224 < 256 by omega)
    have hn : ((c.toNat / 4096 % 16 + 224) % 16 * 64 + (c.toNat / 64 % 64 + 128) % 64) * 64 +
        (c.toNat % 64 + 128) % 64 = c.toNat := by omega
    rw [List.cons_append, List.cons_append,
      lead?_triple (by rw [isTripleStart_iff, ha, hy]; omega) (by rw [isTail_iff, hz]; omega)]
    simp only [lead?.triple, tailBits, ha, hy, hz, hn, Char.ofNat_toNat]
    rfl
  · refine ⟨_, _, rfl, ?_⟩
    have ha := toNat_ofNat_of_lt (show c.toNat / 262144 % 8 + 240 < 256 by omega)
    have hn : (((c.toNat / 262144 % 8 + 240) % 8 * 64 + (c.toNat / 4096 % 64 + 128) % 64) * 64 +
        (c.toNat / 64 % 64 + 128) % 64) * 64 + (c.toNat % 64 + 128) % 64 = c.toNat := by omega
    rw [List.cons_append, List.cons_append, List.cons_append,
      lead?_quad (by rw [isQuadStart_iff, ha, hx]; omega) (by rw [isTail_iff, hy]; omega)
        (by rw [isTail_iff, hz]; omega)]
    simp only [lead?.quad, tailBits, ha, hx, hy, hz, hn, Char.ofNat_toNat]
    rfl

theorem symbolsFrom_append (done rest : Bytes) :
    symbolsFrom done.length (done ++ rest) = symbolsFrom 0 rest := by
  induction done with
  | nil => rfl
  | cons b done ih => exact ih

@[simp] theorem encode_nil : encode [] = [] := rfl

@[simp] theorem encode_append (cs ds : List Char) : encode (cs ++ ds) = encode cs ++ encode ds :=
  List.flatMap_append

theorem encode_cons (c : Char) (cs : List Char) :
    encode (c :: cs) = String.utf8EncodeChar c ++ encode cs := rfl

/-- What was written as characters is read as these characters. -/
theorem symbols_encode (cs : List Char) : symbols (encode cs) = cs.map .char := by
  induction cs with
  | nil => rfl
  | cons c cs ih =>
    obtain ⟨a, tail, he, hl⟩ := lead?_utf8EncodeChar c (encode cs)
    rw [encode_cons, he, symbols, List.cons_append, symbolsFrom, hl]
    simp only [symbolsFrom_append, List.map_cons]
    rw [← ih, symbols]

@[simp] theorem chars_encode (cs : List Char) : chars (encode cs) = cs := by
  have hid : Symbol.toChar ∘ Symbol.char = id := rfl
  rw [chars, symbols_encode, List.map_map, hid, List.map_id]

@[simp] theorem isValid_encode (cs : List Char) : isValid (encode cs) = true := by
  simp [isValid, symbols_encode, Symbol.isStray]

theorem toNat_ofNat {n : Nat} (h : n.isValidChar) : (Char.ofNat n).toNat = n := by
  rw [Char.ofNat, dif_pos h]
  rfl

theorem utf8EncodeChar_pair {a b : UInt8} (h : isPair a b = true) :
    String.utf8EncodeChar (lead?.pair a b) = [a, b] := by
  rw [isPair_iff] at h
  have hc : (lead?.pair a b).val.toNat = a.toNat % 32 * 64 + tailBits b :=
    toNat_ofNat (.inl (by simp only [tailBits]; omega))
  simp only [String.utf8EncodeChar, hc, tailBits]
  rw [if_neg (by omega), if_pos (by omega)]
  have ha : (a.toNat % 32 * 64 + b.toNat % 64) / 64 % 32 + 192 = a.toNat := by omega
  have hb : (a.toNat % 32 * 64 + b.toNat % 64) % 64 + 128 = b.toNat := by omega
  simp only [ha, hb, UInt8.ofNat_toNat]

theorem utf8EncodeChar_triple {a b c : UInt8} (h : isTripleStart a b = true)
    (hc : isTail c = true) : String.utf8EncodeChar (lead?.triple a b c) = [a, b, c] := by
  rw [isTripleStart_iff] at h
  rw [isTail_iff] at hc
  have hn : (lead?.triple a b c).val.toNat =
      (a.toNat % 16 * 64 + tailBits b) * 64 + tailBits c :=
    toNat_ofNat (by simp only [Nat.isValidChar, tailBits]; omega)
  simp only [String.utf8EncodeChar, hn, tailBits]
  rw [if_neg (by omega), if_neg (by omega), if_pos (by omega)]
  have h₁ : ((a.toNat % 16 * 64 + b.toNat % 64) * 64 + c.toNat % 64) / 4096 % 16 + 224 =
      a.toNat := by
    omega
  have h₂ : ((a.toNat % 16 * 64 + b.toNat % 64) * 64 + c.toNat % 64) / 64 % 64 + 128 = b.toNat := by
    omega
  have h₃ : ((a.toNat % 16 * 64 + b.toNat % 64) * 64 + c.toNat % 64) % 64 + 128 = c.toNat := by
    omega
  simp only [h₁, h₂, h₃, UInt8.ofNat_toNat]

theorem utf8EncodeChar_quad {a b c d : UInt8} (h : isQuadStart a b = true)
    (hc : isTail c = true) (hd : isTail d = true) :
    String.utf8EncodeChar (lead?.quad a b c d) = [a, b, c, d] := by
  rw [isQuadStart_iff] at h
  rw [isTail_iff] at hc hd
  have hn : (lead?.quad a b c d).val.toNat =
      ((a.toNat % 8 * 64 + tailBits b) * 64 + tailBits c) * 64 + tailBits d :=
    toNat_ofNat (by simp only [Nat.isValidChar, tailBits]; omega)
  simp only [String.utf8EncodeChar, hn, tailBits]
  rw [if_neg (by omega), if_neg (by omega), if_neg (by omega)]
  generalize hm : ((a.toNat % 8 * 64 + b.toNat % 64) * 64 + c.toNat % 64) * 64 + d.toNat % 64 = m
  have h₁ : m / 262144 % 8 + 240 = a.toNat := by omega
  have h₂ : m / 4096 % 64 + 128 = b.toNat := by omega
  have h₃ : m / 64 % 64 + 128 = c.toNat := by omega
  have h₄ : m % 64 + 128 = d.toNat := by omega
  simp only [h₁, h₂, h₃, h₄, UInt8.ofNat_toNat]

theorem utf8EncodeChar_ascii {a : UInt8} (h : a < 0x80) :
    String.utf8EncodeChar (Char.ofNat a.toNat) = [a] := by
  have ha : a.toNat < 0x80 := UInt8.lt_iff_toNat_lt.mp h
  have hc : (Char.ofNat a.toNat).val.toNat = a.toNat := toNat_ofNat (.inl (by omega))
  simp only [String.utf8EncodeChar, hc]
  rw [if_pos (by omega), UInt8.ofNat_toNat]

theorem utf8EncodeChar_of_lt {c : Char} (h : c.toNat < 0x80) :
    String.utf8EncodeChar c = [Bytes.ascii c] := by
  have hle : c.val.toNat ≤ 0x7F := Nat.le_of_lt_succ h
  simp only [String.utf8EncodeChar, hle, if_true]
  rfl

theorem encode_of_lt {cs : List Char} (h : ∀ c ∈ cs, c.toNat < 0x80) :
    encode cs = cs.map Bytes.ascii := by
  induction cs with
  | nil => rfl
  | cons c cs ih =>
    obtain ⟨hc, hcs⟩ := List.forall_mem_cons.mp h
    rw [encode_cons, utf8EncodeChar_of_lt hc, ih hcs]
    rfl

/-- A character that is read stands there in its own bytes. -/
theorem utf8EncodeChar_of_lead? {a : UInt8} {rest : Bytes} {c : Char} {k : Nat}
    (h : lead? a rest = some (c, k)) : String.utf8EncodeChar c = a :: rest.take k := by
  rw [lead?.eq_def] at h
  split at h
  next ha =>
    cases h
    rw [utf8EncodeChar_ascii ha, List.take_zero]
  next =>
    repeat' split at h
    all_goals cases h
    all_goals simp_all [utf8EncodeChar_pair, utf8EncodeChar_triple, utf8EncodeChar_quad]

theorem ofSymbols_symbolsFrom (skip : Nat) (text : Bytes) :
    ofSymbols (symbolsFrom skip text) = text.drop skip := by
  fun_induction symbolsFrom skip text with
  | case1 => simp [ofSymbols]
  | case2 skip b rest ih => simpa using ih
  | case3 a rest c taken hl ih =>
    rw [ofSymbols, List.flatMap_cons, ← ofSymbols, ih, Symbol.bytes, utf8EncodeChar_of_lead? hl]
    simp
  | case4 a rest hl ih =>
    rw [ofSymbols, List.flatMap_cons, ← ofSymbols, ih, Symbol.bytes]
    simp

theorem encode_map_toChar {ss : List Symbol} (h : ss.any Symbol.isStray = false) :
    encode (ss.map Symbol.toChar) = ofSymbols ss := by
  induction ss with
  | nil => rfl
  | cons s ss ih =>
    rw [List.any_cons, Bool.or_eq_false_iff] at h
    cases s with
    | stray b => exact absurd h.1 (by simp [Symbol.isStray])
    | char c => rw [List.map_cons, encode_cons, ih h.2]; rfl

/-- Valid text is the text of its characters. -/
theorem encode_chars {text : Bytes} (h : isValid text = true) : encode (chars text) = text := by
  have hs : (symbols text).any Symbol.isStray = false := by simpa [isValid] using h
  rw [chars, encode_map_toChar hs, symbols, ofSymbols_symbolsFrom, List.drop_zero]

end Linewise.Utf8
