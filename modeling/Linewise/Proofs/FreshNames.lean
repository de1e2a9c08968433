import Linewise.Proofs.EntryPaths
import Linewise.Proofs.SiblingPaths

/-!
# Names that are free

Numbered names differ when their numbers do, so a directory cannot hold more of them than it has
entries: the search for a number whose name is free ends with one.
-/

namespace Linewise

namespace Bytes

theorem ofNat_of_lt {n : Nat} (h : n < 10) : ofNat n = [ascii n.digitChar] := by
  rw [ofNat, Nat.toDigits_of_lt_base h]
  rfl

theorem ofNat_of_le {n : Nat} (h : 10 ≤ n) :
    ofNat n = ofNat (n / 10) ++ [ascii (n % 10).digitChar] := by
  rw [ofNat, Nat.toDigits_of_base_le (by omega) h, List.map_append]
  rfl

theorem digitValue?_digitChar {d : Nat} (h : d < 10) :
    digitValue? (ascii d.digitChar) = some d ∧ isDigit (ascii d.digitChar) = true := by
  interval_cases d <;> decide

theorem isDigit_of_mem_ofNat {n : Nat} {b : UInt8} (h : b ∈ ofNat n) : isDigit b = true := by
  induction n using Nat.strongRecOn with
  | _ n ih =>
    by_cases hn : n < 10
    · rw [ofNat_of_lt hn, List.mem_singleton] at h
      rw [h]
      exact (digitValue?_digitChar hn).2
    · rw [ofNat_of_le (by omega), List.mem_append, List.mem_singleton] at h
      rcases h with h | h
      · exact ih (n / 10) (by omega) h
      · rw [h]
        exact (digitValue?_digitChar (Nat.mod_lt n (by decide))).2

theorem natOfDigits?_concat {text : Bytes} {v d : Nat} (h : natOfDigits? 10 text = some v)
    (hd : d < 10) : natOfDigits? 10 (text ++ [ascii d.digitChar]) = some (v * 10 + d) := by
  rw [natOfDigits?] at h
  split at h
  · simp at h
  · rw [natOfDigits?, if_neg (by simp), List.foldlM_append, h]
    simp [(digitValue?_digitChar hd).1, hd]

theorem natOfDigits?_ofNat (n : Nat) : natOfDigits? 10 (ofNat n) = some n := by
  induction n using Nat.strongRecOn with
  | _ n ih =>
    by_cases hn : n < 10
    · simp [ofNat_of_lt hn, natOfDigits?, (digitValue?_digitChar hn).1, hn]
    · rw [ofNat_of_le (by omega), natOfDigits?_concat (ih (n / 10) (by omega)) (by omega)]
      congr 1
      omega

theorem natOfDigits?_zero_cons {text : Bytes} {v : Nat} (h : natOfDigits? 10 text = some v) :
    natOfDigits? 10 (ascii '0' :: text) = some v := by
  rw [natOfDigits?] at h
  split at h
  · simp at h
  · rw [natOfDigits?, if_neg (by simp), List.foldlM_cons]
    exact h

theorem natOfDigits?_padded (width n : Nat) : natOfDigits? 10 (padded width n) = some n := by
  rw [padded]
  induction width - (ofNat n).length with
  | zero => exact natOfDigits?_ofNat n
  | succ zeros ih => exact natOfDigits?_zero_cons ih

theorem ofNat_injective : Function.Injective ofNat := by
  intro m n h
  have hm := natOfDigits?_ofNat m
  rw [h, natOfDigits?_ofNat] at hm
  exact (Option.some.inj hm).symm

theorem padded_injective (width : Nat) : Function.Injective (padded width) := by
  intro m n h
  have hm := natOfDigits?_padded width m
  rw [h, natOfDigits?_padded] at hm
  exact (Option.some.inj hm).symm

theorem isDigit_of_mem_padded {width n : Nat} {b : UInt8} (h : b ∈ padded width n) :
    isDigit b = true := by
  rw [padded, List.mem_append] at h
  rcases h with h | h
  · rw [List.eq_of_mem_replicate h]
    decide
  · exact isDigit_of_mem_ofNat h

end Bytes

theorem Temporary.nameOf_ne (name : Bytes) (k : Nat) : Temporary.nameOf name k ≠ name := by
  intro h
  have hdot : (utf8 ".").length = 1 := by decide
  have hlength := congrArg List.length h
  simp only [nameOf, stem, List.length_append] at hlength
  omega

theorem Temporary.nameOf_injective (name : Bytes) : Function.Injective (Temporary.nameOf name) := by
  intro j k h
  have hnat := Bytes.ofNat_injective (List.append_cancel_left h)
  omega

theorem Replacement.backupName_injective (name : Bytes) :
    Function.Injective (Replacement.backupName name) := by
  intro j k h
  exact Bytes.padded_injective 12 (List.append_cancel_left (List.append_cancel_right h))

section EntryNames
open FileTree Replacement

variable {name : Bytes}

/-- Whether a byte may stand in the name of an entry. -/
def isNameByte (b : UInt8) : Bool := b != Path.slash && b != 0

/-- A dot, a name and more text make the name of an entry. -/
theorem regular_dotted {rest : Bytes} (hpart : Path.IsPart name) (hzero : 0 ∉ name)
    (hall : rest.all isNameByte = true) (hne : rest ≠ []) :
    Path.Regular (utf8 "." ++ name ++ rest) := by
  have hrest : ∀ b ∈ rest, b ≠ Path.slash ∧ b ≠ 0 := by simpa [isNameByte] using hall
  have hdot : utf8 "." = [46] := by decide
  have hlong : 2 < (utf8 "." ++ name ++ rest).length := by
    have hname := List.length_pos_iff.mpr hpart.1
    have hrest := List.length_pos_iff.mpr hne
    simp only [hdot, List.length_append, List.length_singleton]
    omega
  refine ⟨⟨?_, ?_⟩, ?_, ?_, ?_⟩
  · simp [hne]
  · have hslash : Path.slash ∉ rest := fun h => (hrest _ h).1 rfl
    rw [hdot, List.mem_append, List.mem_append, List.mem_singleton]
    rintro ((h | h) | h)
    · exact absurd h (by decide)
    · exact hpart.2 h
    · exact hslash h
  · have h0 : (0 : UInt8) ∉ rest := fun h => (hrest _ h).2 rfl
    simp [hdot, hzero, h0]
  · intro h
    rw [h] at hlong
    simp [Path.here] at hlong
  · intro h
    rw [h] at hlong
    simp [Path.up] at hlong

theorem isNameByte_of_isDigit {b : UInt8} (h : Bytes.isDigit b = true) : isNameByte b = true := by
  rw [isNameByte, Bool.and_eq_true, bne_iff_ne, bne_iff_ne]
  constructor
  · rintro rfl
    exact absurd h (by decide)
  · rintro rfl
    exact absurd h (by decide)

theorem Replacement.regular_lockName (hpart : Path.IsPart name) (hzero : 0 ∉ name) :
    Path.Regular (lockName name) :=
  regular_dotted hpart hzero (by decide +kernel) (by decide +kernel)

theorem Temporary.regular_nameOf (hpart : Path.IsPart name) (hzero : 0 ∉ name) (k : Nat) :
    Path.Regular (Temporary.nameOf name k) := by
  have hdigits : (Bytes.ofNat (1000000000 + k)).all isNameByte = true :=
    List.all_eq_true.mpr fun _ hb => isNameByte_of_isDigit (Bytes.isDigit_of_mem_ofNat hb)
  have htext : (utf8 ".fuzz-").all isNameByte = true := by decide +kernel
  rw [Temporary.nameOf, Temporary.stem, List.append_assoc]
  refine regular_dotted hpart hzero ?_ (by simp [utf8])
  rw [List.all_append, htext, hdigits, Bool.and_self]

theorem Replacement.regular_backupName (hpart : Path.IsPart name) (hzero : 0 ∉ name) (k : Nat) :
    Path.Regular (backupName name k) := by
  have hdigits : (Bytes.padded 12 k).all isNameByte = true :=
    List.all_eq_true.mpr fun _ hb => isNameByte_of_isDigit (Bytes.isDigit_of_mem_padded hb)
  have hleft : (utf8 ".00000000-0000-4000-8000-").all isNameByte = true := by decide +kernel
  have hright : (utf8 ".fuzz-bak").all isNameByte = true := by decide +kernel
  rw [backupName, List.append_assoc _ (utf8 _) (Bytes.padded 12 k), List.append_assoc _ _ (utf8 _)]
  refine regular_dotted hpart hzero ?_ (by simp [utf8])
  rw [List.all_append, List.all_append, hleft, hdigits, hright, Bool.and_self, Bool.and_self]

/-- The name of an entry that is short enough for the system. -/
theorem Path.Regular.entry {n : Bytes} (h : Path.Regular n) (hlen : n.length ≤ maxName) :
    Path.IsPart n ∧ 0 ∉ n ∧ IsName n :=
  ⟨h.isPart, h.zero, h.isName hlen⟩

theorem Replacement.isName_lockName (hpart : Path.IsPart name) (hzero : 0 ∉ name)
    (hlen : (lockName name).length ≤ maxName) :
    Path.IsPart (lockName name) ∧ 0 ∉ lockName name ∧ IsName (lockName name) :=
  (regular_lockName hpart hzero).entry hlen

theorem Temporary.isName_nameOf (hpart : Path.IsPart name) (hzero : 0 ∉ name) {k : Nat}
    (hlen : (Temporary.nameOf name k).length ≤ maxName) :
    Path.IsPart (Temporary.nameOf name k) ∧ 0 ∉ Temporary.nameOf name k ∧
      IsName (Temporary.nameOf name k) :=
  (Temporary.regular_nameOf hpart hzero k).entry hlen

theorem Replacement.isName_backupName (hpart : Path.IsPart name) (hzero : 0 ∉ name) {k : Nat}
    (hlen : (backupName name k).length ≤ maxName) :
    Path.IsPart (backupName name k) ∧ 0 ∉ backupName name k ∧ IsName (backupName name k) :=
  (regular_backupName hpart hzero k).entry hlen

end EntryNames

namespace FileTree

theorem freeNumberFrom_spec (t : FileTree) (dir : Bytes) (nameOf : Nat → Bytes) (fuel k : Nat) :
    let j := t.freeNumberFrom dir nameOf fuel k
    (∀ i, k ≤ i → i < j → t.hasEntry dir (nameOf i) = true) ∧
      j ≤ k + fuel ∧ (j < k + fuel → t.hasEntry dir (nameOf j) = false) := by
  induction fuel generalizing k with
  | zero =>
    refine ⟨fun i hk hi => ?_, Nat.le_refl k, fun h => absurd h (Nat.lt_irrefl k)⟩
    exact absurd (Nat.lt_of_le_of_lt hk hi) (Nat.lt_irrefl k)
  | succ fuel ih =>
    rw [freeNumberFrom]
    by_cases htaken : t.hasEntry dir (nameOf k) = true
    · rw [if_pos htaken]
      obtain ⟨hbefore, hle, hfree⟩ := ih (k + 1)
      refine ⟨fun i hk hi => ?_, by omega, fun hlt => hfree (by omega)⟩
      by_cases hik : i = k
      · rwa [hik]
      · exact hbefore i (by omega) hi
    · rw [if_neg htaken]
      refine ⟨fun i hk hi => ?_, by omega, fun _ => by simpa using htaken⟩
      exact absurd (Nat.lt_of_le_of_lt hk hi) (Nat.lt_irrefl k)

/-- The number found for a family of names has a name that is free. -/
theorem freeNumber_spec {t : FileTree} {dir : Bytes} {nameOf : Nat → Bytes} {D : Place}
    {mode : Nat} {es : List (Bytes × Node)} (hdir : t.find true dir = .ok (D, .directory mode es))
    (hinj : Function.Injective nameOf) :
    es.lookup (nameOf (t.freeNumber dir nameOf)) = none ∧
      t.freeNumber dir nameOf ≤ t.entryCount dir := by
  have hentry (name : Bytes) : t.hasEntry dir name = (es.lookup name).isSome := by
    simp [hasEntry, hdir, Node.child?]
  have hcount : t.entryCount dir = es.length := by simp [entryCount, hdir]
  obtain ⟨htaken, hle, hfree⟩ := t.freeNumberFrom_spec dir nameOf (t.entryCount dir + 1) 0
  rw [← freeNumber] at htaken hle hfree
  have hlt : t.freeNumber dir nameOf < 0 + (t.entryCount dir + 1) := by
    by_contra hend
    -- All the numbers tried are taken, and there are more of them than entries.
    have hsub : (List.range (es.length + 1)).map nameOf ⊆ es.map Prod.fst := by
      intro name hname
      obtain ⟨i, hi, rfl⟩ := List.mem_map.mp hname
      have htake := htaken i (Nat.zero_le i) (by have := List.mem_range.mp hi; omega)
      rw [hentry, List.lookup_isSome_iff] at htake
      obtain ⟨e, he, hname⟩ := htake
      exact List.mem_map.mpr ⟨e, he, (beq_iff_eq.mp hname).symm⟩
    have hnodup : ((List.range (es.length + 1)).map nameOf).Nodup :=
      List.Nodup.map hinj List.nodup_range
    have hlen := (hnodup.subperm hsub).length_le
    simp at hlen
  refine ⟨?_, by omega⟩
  have hnone := hfree hlt
  rw [hentry] at hnone
  simpa using hnone

end FileTree

end Linewise
