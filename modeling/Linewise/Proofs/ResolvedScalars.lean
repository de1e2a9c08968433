import Linewise.Proofs.FreshNames
import Linewise.Proofs.LexedKeys
import Linewise.Yaml.Node

/-!
# What scalars stand for

The scalar that is written for a value resolves to that value: texts are never taken for anything
else, whatever they look like, and the decimal text of a 64-bit integer is written without quotes
and read as that integer.
-/

namespace Linewise

/-! ## Decimal numbers -/

namespace Number

open Bytes

/-- Reading goes from digit to digit. -/
theorem readDigits_cons (base acc : Nat) (b : UInt8) (rest : Bytes) :
    readDigits base acc (b :: rest) =
      match digitValue? b with
      | none => .error .badSyntax
      | some d =>
        if d ≥ base then .error .badSyntax
        else if acc * base + d ≥ 2 ^ 64 then .error .outOfRange
        else readDigits base (acc * base + d) rest := rfl

theorem readDigits_nil (base acc : Nat) : readDigits base acc [] = .ok acc := rfl

theorem readDigits_append (base acc : Nat) (xs ys : Bytes) :
    readDigits base acc (xs ++ ys) = (readDigits base acc xs).bind (readDigits base · ys) := by
  induction xs generalizing acc with
  | nil => rfl
  | cons b xs ih =>
    simp only [List.cons_append, readDigits_cons]
    split
    · rfl
    · split
      · rfl
      · split
        · rfl
        · exact ih _

theorem readDigits_ofNat {n : Nat} (h : n < 2 ^ 64) : readDigits 10 0 (ofNat n) = .ok n := by
  induction n using Nat.strongRecOn with
  | _ n ih =>
    by_cases hn : n < 10
    · have hsmall : ¬ 10 ≤ n := by omega
      simp [ofNat_of_lt hn, readDigits_cons, readDigits_nil, (digitValue?_digitChar hn).1, hsmall]
      omega
    · have hlast : n % 10 < 10 := Nat.mod_lt n (by decide)
      have hsum : n / 10 * 10 + n % 10 = n := by omega
      have hfit : ¬ 10 ≤ n % 10 := by omega
      rw [ofNat_of_le (by omega), readDigits_append, ih (n / 10) (by omega) (by omega)]
      simp [Except.bind, readDigits_cons, readDigits_nil, (digitValue?_digitChar hlast).1, hsum, hfit]
      omega

theorem ofNat_eq_cons (n : Nat) :
    ∃ b rest, ofNat n = b :: rest ∧ isDigit b = true ∧ (b = 48 → n = 0) := by
  induction n using Nat.strongRecOn with
  | _ n ih =>
    by_cases hn : n < 10
    · refine ⟨_, [], ofNat_of_lt hn, (digitValue?_digitChar hn).2, ?_⟩
      interval_cases n <;> decide
    · obtain ⟨b, rest, hb, hdigit, hzero⟩ := ih (n / 10) (by omega)
      refine ⟨b, rest ++ [ascii (n % 10).digitChar], by rw [ofNat_of_le (by omega), hb]; rfl,
        hdigit, fun h => ?_⟩
      have := hzero h
      omega

theorem isDigit_iff {b : UInt8} : isDigit b = true ↔ 48 ≤ b.toNat ∧ b.toNat ≤ 57 := by
  simp [isDigit, UInt8.le_iff_toNat_le]

theorem splitSign_ofNat (n : Nat) : splitSign (ofNat n) = (false, ofNat n) := by
  obtain ⟨b, rest, hn, hdigit, -⟩ := ofNat_eq_cons n
  rw [isDigit_iff] at hdigit
  rw [hn]
  unfold splitSign
  split
  next heq =>
    cases heq
    exact absurd hdigit (by decide)
  next heq =>
    cases heq
    exact absurd hdigit (by decide)
  next => rfl

theorem splitBase_ofNat {n : Nat} (h : n ≠ 0) : splitBase (ofNat n) = (10, ofNat n) := by
  obtain ⟨b, rest, hn, -, hzero⟩ := ofNat_eq_cons n
  rw [hn]
  unfold splitBase
  split
  next heq =>
    cases heq
    exact absurd (hzero rfl) h
  next => rfl

/-- Decimal digits have no underscores among them. -/
theorem filter_ofNat (n : Nat) : (ofNat n).filter (· != 95) = ofNat n := by
  refine List.filter_eq_self.mpr fun b hb => ?_
  have := isDigit_of_mem_ofNat hb
  simp only [bne_iff_ne, ne_eq]
  rintro rfl
  exact absurd this (by decide)

theorem magnitude_ofNat {n : Nat} (h : n < 2 ^ 64) : magnitude (ofNat n) = .ok n := by
  by_cases hn : n = 0
  · subst hn
    decide
  · obtain ⟨b, rest, hb, -, hzero⟩ := ofNat_eq_cons n
    have hnot : (ofNat n == [48]) = false := by
      rw [hb]
      simp only [beq_eq_false_iff_ne, ne_eq, List.cons.injEq, not_and]
      exact fun hb => absurd (hzero hb) hn
    have hne : (ofNat n).isEmpty = false := by rw [hb]; rfl
    simp [magnitude, splitBase_ofNat hn, filter_ofNat, hnot, hne, readDigits_ofNat h]

theorem integer_ofInt {n : Int} (h : minInt ≤ n ∧ n ≤ maxInt) : integer (ofInt n) = .ok n := by
  have hrange : ¬ n < minInt ∧ ¬ maxInt < n := by omega
  simp only [minInt, maxInt] at h
  cases n with
  | ofNat n =>
    have hn : magnitude (ofNat n) = .ok n := magnitude_ofNat (by simp at h; omega)
    rw [ofInt, integer, splitSign_ofNat]
    simp only [hn]
    simpa [fit] using hrange
  | negSucc n =>
    have hsign : splitSign (ascii '-' :: ofNat (n + 1)) = (true, ofNat (n + 1)) := rfl
    rw [ofInt, integer, hsign]
    simp only [magnitude_ofNat (n := n + 1) (by omega)]
    simpa [fit, Int.negSucc_eq] using hrange

/-- A decimal number starts with a digit, behind its sign. -/
theorem head_splitSign_ofInt (n : Int) :
    (splitSign (ofInt n)).2.head?.any isDigit = true := by
  have hhead (m : Nat) : (ofNat m).head?.any isDigit = true := by
    obtain ⟨b, rest, hm, hdigit, -⟩ := ofNat_eq_cons m
    rw [hm]
    exact hdigit
  cases n with
  | ofNat n => rw [ofInt, splitSign_ofNat]; exact hhead n
  | negSucc n => exact hhead (n + 1)

theorem filter_ofInt (n : Int) : (ofInt n).filter (· != 95) = ofInt n := by
  cases n with
  | ofNat n => exact filter_ofNat n
  | negSucc n => simp [ofInt, filter_ofNat, ascii]

/-- The characters of decimal numbers. -/
def digits : List Char := ['0', '1', '2', '3', '4', '5', '6', '7', '8', '9']

theorem mem_digits {n : Nat} {c : Char} (h : c ∈ Nat.toDigits 10 n) : c ∈ digits := by
  have hrange : 48 ≤ c.toNat ∧ c.toNat ≤ 57 :=
    Char.isDigit_iff_toNat.mp (Nat.isDigit_of_mem_toDigits (by decide) (by decide) h)
  rw [← Char.ofNat_toNat c]
  generalize c.toNat = m at hrange
  obtain ⟨hlo, hhi⟩ := hrange
  interval_cases m <;> decide

/-- The characters of the decimal text of an integer: at least one digit, and a minus before them
when the integer is negative. -/
theorem ofInt_eq_encode (n : Int) :
    ∃ sign ds, ofInt n = Utf8.encode (sign ++ ds) ∧ (sign = [] ∨ sign = ['-']) ∧
      ds ≠ [] ∧ ∀ c ∈ ds, c ∈ digits := by
  have hascii : ∀ c ∈ '-' :: digits, c.toNat < 0x80 := by simp [digits]
  have hdigits (m : Nat) : Utf8.encode (Nat.toDigits 10 m) = ofNat m :=
    Utf8.encode_of_lt fun c hc => hascii c (List.mem_cons_of_mem _ (mem_digits hc))
  have hminus : Utf8.encode ['-'] = [ascii '-'] :=
    Utf8.encode_of_lt fun c hc => hascii c (by simp_all)
  cases n with
  | ofNat n => exact ⟨[], _, (hdigits n).symm, .inl rfl, Nat.toDigits_ne_nil, fun _ => mem_digits⟩
  | negSucc n =>
    refine ⟨['-'], Nat.toDigits 10 (n + 1), ?_, .inr rfl, Nat.toDigits_ne_nil, fun _ => mem_digits⟩
    rw [Utf8.encode_append, hdigits (n + 1), hminus]
    rfl

end Number

open Bytes

theorem Timestamp.read?_ofInt (n : Int) : Timestamp.read? (ofInt n) = none := by
  have hyear : ∀ p ∈ Timestamp.year? (ofInt n), Timestamp.after? 45 p.2 = none := by
    intro p hp
    rw [Timestamp.year?] at hp
    split at hp
    next hfour =>
      obtain ⟨y, -, rfl⟩ := Option.map_eq_some_iff.mp hp
      cases n with
      | ofNat n =>
        have hall : (ofNat n).takeWhile isDigit = ofNat n :=
          List.takeWhile_eq_self_iff.mpr fun b hb => isDigit_of_mem_ofNat hb
        rw [ofInt, hall, beq_iff_eq] at hfour
        rw [ofInt, List.drop_eq_nil_of_le hfour.le]
        rfl
      | negSucc n => exact absurd hfour (by simp [ofInt, ascii, isDigit])
    next => cases hp
  cases hp : Timestamp.year? (ofInt n) with
  | none => rw [Timestamp.read?, hp]; rfl
  | some p =>
    have := hyear p hp
    rw [Timestamp.read?, hp]
    simp [this]

namespace Yaml

theorem Resolve.word?_ofInt (n : Int) : Resolve.word? (ofInt n) = none := by
  have hwords : Resolve.words.all fun w =>
      !(Number.splitSign (utf8 w.1)).2.head?.any isDigit := by decide +kernel
  rw [Resolve.word?, Option.map_eq_none_iff, List.find?_eq_none]
  intro w hw heq
  have hword := List.all_eq_true.mp hwords w hw
  rw [beq_iff_eq.mp heq, Number.head_splitSign_ofInt] at hword
  exact absurd hword (by decide)

theorem Resolve.byLook_ofInt {n : Int} (h : Number.minInt ≤ n ∧ n ≤ Number.maxInt)
    (timely : Bool) : Resolve.byLook timely (ofInt n) = (.int, .int n) := by
  obtain ⟨b, rest, hn, hb⟩ : ∃ b rest, ofInt n = b :: rest ∧
      (isDigit b || b == 43 || b == 45) = true := by
    cases n with
    | ofNat n =>
      obtain ⟨b, rest, hm, hdigit, -⟩ := Number.ofNat_eq_cons n
      exact ⟨b, rest, hm, by simp [hdigit]⟩
    | negSucc n => exact ⟨_, _, rfl, by decide⟩
  have htime : (if timely then Timestamp.read? (ofInt n) else none) = none := by
    rw [Timestamp.read?_ofInt, ite_self]
  have hnumber : Resolve.number? (ofInt n) = some (.int, .int n) := by
    simp [Resolve.number?, Number.filter_ofInt, Resolve.integer?, Number.integer_ofInt h]
  rw [hn] at htime hnumber
  rw [Resolve.byLook.eq_def, Resolve.word?_ofInt, hn]
  simp only [hb, if_true, htime, hnumber, Option.getD_some]

/-! ## Plain text -/

namespace Scalar

open Number (digits)

theorem clashes_eq_false {cs : List Char} (h : ∀ c ∈ cs, c ≠ ':' ∧ c ≠ '#') (b : Char) :
    clashes (some b) cs = false := by
  induction cs generalizing b with
  | nil => rfl
  | cons c cs ih =>
    obtain ⟨⟨hcolon, hhash⟩, hcs⟩ := List.forall_mem_cons.mp h
    simp [clashes, hcolon, hhash, ih hcs]

theorem hasPair_eq_false {p q : Char → Bool} {cs : List Char} (h : ∀ c ∈ cs, p c = false) :
    hasPair p q cs = false := by
  fun_induction hasPair p q cs with
  | case1 a b rest ih => simp_all
  | case2 => rfl

/-- What stands plain: printable characters on one line, none of them a blank, with nothing that
counts as a mark. -/
theorem analyse_plain {cs : List Char} (hne : cs ≠ [])
    (h : ∀ c ∈ cs, isPrintable c = true ∧ isSpacing c = false)
    (hclash : clashes none cs = false) (hmark : startsLikeMark cs = false) :
    (analyse cs).plain = true := by
  have hspacing : ∀ c ∈ cs, c ≠ ' ' ∧ c ≠ '\t' ∧ isBreak c = false := fun c hc => by
    obtain ⟨hblank, hbreak⟩ := isSpacing_eq_false.mp (h c hc).2
    simpa [isBlank, and_assoc] using And.intro hblank hbreak
  have hempty : cs.isEmpty = false := by simpa using hne
  have hspecial : cs.any (fun c => c != '\t' && !isPrintable c) = false :=
    List.any_eq_false.mpr fun c hc => by simp [(h c hc).1]
  have hspaceBreak : hasPair (fun c => c == ' ') isBreak cs = false :=
    hasPair_eq_false fun c hc => by simpa using (hspacing c hc).1
  have hbreakSpace : hasPair isBreak (fun c => c == ' ') cs = false :=
    hasPair_eq_false fun c hc => (hspacing c hc).2.2
  have htab : cs.contains '\t' = false := by
    simp only [List.contains_eq_mem, decide_eq_false_iff_not]
    exact fun hc => (hspacing _ hc).2.1 rfl
  have hany : cs.any isBreak = false :=
    List.any_eq_false.mpr fun c hc => by simp [(hspacing c hc).2.2]
  have hedge (o : Option Char) (ho : ∀ c ∈ o, c ∈ cs) :
      o.any (fun c => c == ' ' || isBreak c) = false := by
    cases o with
    | none => rfl
    | some c => simp [hspacing c (ho c rfl)]
  have hhead := hedge cs.head? fun c hc => List.mem_of_head? hc
  have hlast := hedge cs.getLast? fun c hc => List.mem_of_getLast? hc
  simp only [analyse, hempty, hspecial, hspaceBreak, hbreakSpace, htab, hany, hhead, hlast, hclash,
    hmark, Bool.false_eq_true, if_false, Bool.not_false, Bool.and_self]

/-- Digits, with a minus before them or not, can be written without quotes. -/
theorem analyse_decimal {sign ds : List Char} (hs : sign = [] ∨ sign = ['-']) (hne : ds ≠ [])
    (hd : ∀ c ∈ ds, c ∈ digits) : (analyse (sign ++ ds)).plain = true := by
  have htame : ∀ c ∈ digits, (isPrintable c = true ∧ isSpacing c = false) ∧ isBlank c = false ∧
      isIndicator c = false ∧ c ≠ ':' ∧ c ≠ '#' ∧ c ≠ '?' ∧ c ≠ '-' ∧ c ≠ '.' := by
    simp [digits, isPrintable, isSpacing, isBlank, isBreak, isIndicator]
  obtain ⟨d, ds, rfl⟩ := List.exists_cons_of_ne_nil hne
  obtain ⟨hfirst, hds⟩ := List.forall_mem_cons.mp hd
  have hplain : ∀ c ∈ d :: ds, isPrintable c = true ∧ isSpacing c = false := fun c hc =>
    (htame c (hd c hc)).1
  have hclash : clashes (some d) ds = false := clashes_eq_false (fun c hc => by
    obtain ⟨-, -, -, hcolon, hhash, -⟩ := htame c (hds c hc)
    exact ⟨hcolon, hhash⟩) d
  obtain ⟨-, hblank, hind, hcolon, hhash, hask, hdash, hdot⟩ := htame d hfirst
  rcases hs with rfl | rfl
  · refine analyse_plain hne hplain ?_ ?_
    · simp [clashes, hclash, hind, hcolon, hask, hdash]
    · simp [startsLikeMark, hdash, hdot]
  · refine analyse_plain (by simp) (List.forall_mem_cons.mpr ⟨by decide, hplain⟩) ?_ ?_
    · simp [clashes, hclash, hcolon, hhash, hblank, isIndicator]
    · simp [startsLikeMark, hdash]

end Scalar

/-! ## Scalars -/

open NodeReader (scalarTag)

namespace Scalar

theorem style_of_written {s : Scalar} {asKey : Bool} (h : s.written asKey = .plain) :
    s.style = .plain := by
  rw [written, chooseStyle] at h
  split_ifs at h
  all_goals simp_all

theorem ofText_eq {text : Bytes} (h : Utf8.isValid text = true) :
    ∃ style, ofText text = { text := text, style := style } ∧
      (style = .plain ∨ style = .double ∨ style = .literal) ∧
      (style = .plain → newline ∉ text ∧ standsPlain text = true) := by
  rw [ofText, h]
  simp only [Bool.not_true, Bool.false_eq_true, if_false, List.contains_eq_mem, decide_eq_true_eq]
  split
  next => exact ⟨_, rfl, by simp⟩
  next hline =>
    split
    next hplain => exact ⟨_, rfl, by simp, fun _ => ⟨hline, hplain⟩⟩
    next => exact ⟨_, rfl, by simp⟩

theorem newline_mem {text : Bytes} (h : Utf8.isValid text = true) (hc : '\n' ∈ Utf8.chars text) :
    newline ∈ text := by
  rw [← Utf8.encode_chars h, Utf8.encode, List.mem_flatMap]
  exact ⟨'\n', hc, by decide⟩

/-- The text of a value is read back where it is written; as a block it has to open well. -/
theorem legible_ofText {aligned : Bool} {text : Bytes} (h : Utf8.isValid text = true)
    (hopens : (ofText text).written false = .literal → OpensBlock aligned (Utf8.chars text)) :
    (ofText text).Legible aligned := by
  obtain ⟨style, heq, hstyle, hplain⟩ := ofText_eq h
  rw [heq] at hopens ⊢
  refine ⟨rfl, h, fun hs => ⟨fun hnil => ?_, fun hc => (hplain hs).1 (newline_mem h hc)⟩, hstyle,
    hopens⟩
  have htext : text = [] := by rw [← Utf8.encode_chars h, hnil, Utf8.encode_nil]
  rw [htext] at hplain
  exact absurd (hplain hs).2 (by decide +kernel)

/-- A text is tagged as one, whatever it looks like; only the text `<<` can be taken for the sign
that announces pairs from elsewhere. -/
theorem scalarTag_ofText {text : Bytes} (h : Utf8.isValid text = true) (asKey : Bool) :
    scalarTag none text ((ofText text).written asKey) = .str ∨
      text = utf8 "<<" ∧ scalarTag none text ((ofText text).written asKey) = .merge := by
  obtain ⟨style, heq, -, hplain⟩ := ofText_eq h
  simp only [scalarTag]
  split
  next => exact .inl rfl
  next hw =>
    have hstyle : (ofText text).style = .plain := style_of_written (by simpa using hw)
    rw [heq] at hstyle
    split
    next hsign => exact .inr ⟨by simpa using hsign, rfl⟩
    next =>
      have hstands := (hplain hstyle).2
      simp only [standsPlain, Bool.and_eq_true, beq_iff_eq] at hstands
      exact .inl hstands.1.1

/-- A scalar of characters that can stand plain is written plain. -/
theorem written_plain {cs : List Char} (h : (analyse cs).plain = true) :
    Scalar.written { text := Utf8.encode cs } false = .plain := by
  simp [written, chooseStyle, h]

end Scalar

end Yaml

/-- The values that are written as one scalar and read back as they are: all but numbers with
fractions and times. -/
def Value.isAtom : Value → Bool
  | .null => true
  | .bool _ => true
  | .int n => Number.minInt ≤ n && n ≤ Number.maxInt
  | .string s => Utf8.isValid s
  | _ => false

namespace Yaml.Scalar

open NodeReader (scalarTag)

/-- What is written without quotes: nothing, truth values and integers. -/
theorem ofValue_plain {v : Value} (h : v.isAtom = true) (hs : ∀ s, v ≠ .string s) :
    ∃ cs, ofValue v = { text := Utf8.encode cs } ∧ cs ≠ [] ∧ (analyse cs).plain = true ∧
      Tag.resolve (scalarTag none (Utf8.encode cs) .plain) (Utf8.encode cs) =
        .ok (scalarTag none (Utf8.encode cs) .plain, v) := by
  cases v with
  | null => exact ⟨"null".toList, rfl, by decide, by decide, by rfl⟩
  | bool b =>
    cases b with
    | false => exact ⟨"false".toList, rfl, by decide, by decide, by rfl⟩
    | true => exact ⟨"true".toList, rfl, by decide, by decide, by rfl⟩
  | int n =>
    simp only [Value.isAtom, Bool.and_eq_true, decide_eq_true_eq] at h
    obtain ⟨sign, ds, hn, hsign, hne, hds⟩ := Number.ofInt_eq_encode n
    have htag : scalarTag none (ofInt n) .plain = .int := by
      have hnot : (ofInt n == utf8 "<<") = false := by
        rw [beq_eq_false_iff_ne]
        intro heq
        have hhead := Number.head_splitSign_ofInt n
        rw [heq] at hhead
        exact absurd hhead (by decide +kernel)
      simp [scalarTag, hnot, Tag.ofText, Resolve.byLook_ofInt h]
    refine ⟨sign ++ ds, by rw [← hn]; rfl, by simp [hne], analyse_decimal hsign hne hds, ?_⟩
    rw [← hn, htag]
    simp [Tag.resolve, Tag.resolve.ofLook, Resolve.byLook_ofInt h]
  | string s => exact absurd rfl (hs s)
  | _ => cases h

/-- The scalar of a value is read back where it is written; a text in a block has to open well. -/
theorem legible_ofValue {v : Value} (h : v.isAtom = true) {aligned : Bool}
    (hopens : ∀ s, v = .string s → (ofText s).written false = .literal →
      OpensBlock aligned (Utf8.chars s)) : (ofValue v).Legible aligned := by
  by_cases hs : ∃ s, v = .string s
  · obtain ⟨s, rfl⟩ := hs
    exact legible_ofText h (hopens s rfl)
  · obtain ⟨cs, heq, hne, hplain, -⟩ := ofValue_plain h (not_exists.mp hs)
    rw [heq]
    refine ⟨rfl, Utf8.isValid_encode cs, fun _ => ?_, .inl rfl, fun hw => ?_⟩
    · rw [Utf8.chars_encode]
      exact ⟨hne, fun hc => absurd ((plainText_of_analyse hne hplain).noBreak _ hc) (by decide)⟩
    · rw [written_plain hplain] at hw
      cases hw

/-- The scalar of a value stands for that value. -/
theorem resolve_ofValue {v : Value} (h : v.isAtom = true) :
    ∃ tag, Tag.resolve (scalarTag none (ofValue v).text ((ofValue v).written false))
      (ofValue v).text = .ok (tag, v) := by
  by_cases hs : ∃ s, v = .string s
  · obtain ⟨s, rfl⟩ := hs
    have htext : (ofText s).text = s := by
      obtain ⟨style, heq, -⟩ := ofText_eq h
      rw [heq]
    rw [ofValue, htext]
    rcases scalarTag_ofText h false with htag | ⟨-, htag⟩ <;> exact ⟨_, by rw [htag]; rfl⟩
  · obtain ⟨cs, heq, -, hplain, hresolve⟩ := ofValue_plain h (not_exists.mp hs)
    rw [heq, written_plain hplain]
    exact ⟨_, hresolve⟩

end Yaml.Scalar

end Linewise
