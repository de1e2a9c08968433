import Linewise.Proofs.LexedDocuments
import Linewise.Proofs.ResolvedScalars
import Linewise.Yaml.Shape

/-!
# Values that can be written and read

The ordinary values are the ones that options have in practice: nothing, truth values, 64-bit
integers, texts, lists, and tables with texts for keys. They are written as documents, with the
pairs of tables in an order of their own, so that what is read back can only be the same up to that
order. A few texts are written so that they cannot be read back, which depends on the column that
they stand in; `Document.legible_ofValue` says that all other ordinary values give legible
documents.
-/

namespace Linewise

namespace Value

/-- Induction on the values in lists and tables. -/
theorem induct {P : Value → Prop}
    (atom : ∀ v, (∀ items, v ≠ .list items) → (∀ pairs, v ≠ .map pairs) → P v)
    (list : ∀ items, (∀ v ∈ items, P v) → P (.list items))
    (map : ∀ pairs, (∀ p ∈ pairs, P p.2) → P (.map pairs)) (v : Value) : P v := by
  match v with
  | .list items => exact list items fun w _ => induct atom list map w
  | .map pairs => exact map pairs fun p _ => induct atom list map p.2
  | .null | .bool _ | .int _ | .float _ | .string _ | .time _ => exact atom _ (by simp) (by simp)
termination_by sizeOf v
decreasing_by
  · have hlt := List.sizeOf_lt_of_mem ‹w ∈ items›
    simp
    omega
  · have hlt := List.sizeOf_lt_of_mem ‹p ∈ pairs›
    obtain ⟨k, w⟩ := p
    simp at hlt ⊢
    omega

mutual

/-- Atoms, and lists and tables of ordinary values. The keys of a table are texts, and no key occurs
twice. -/
def isOrdinary : Value → Bool
  | .list items => itemsOrdinary items
  | .map pairs => pairsOrdinary pairs
  | v => v.isAtom

def itemsOrdinary : List Value → Bool
  | [] => true
  | v :: rest => v.isOrdinary && itemsOrdinary rest

def pairsOrdinary : List (Value × Value) → Bool
  | [] => true
  | (.string k, v) :: rest =>
    Utf8.isValid k && !rest.any (Yaml.Decoder.sameKey (.string k) ·.1) && v.isOrdinary &&
      pairsOrdinary rest
  | _ :: _ => false

end

end Value

open Yaml

/-- Whether a text that is written as a block opens so that it can be read back: not with a line
break or a tab, and with a space only where the block is `aligned`, four columns to the right of the
collection around it. -/
def Yaml.Scalar.opensWell (aligned : Bool) (text : Bytes) : Bool :=
  (Scalar.ofText text).written false != .literal ||
    (Utf8.chars text).head?.all fun c => !isBreak c && c != '\t' && (c != ' ' || aligned)

namespace Value

mutual

/-- Whether the texts in a value are read back as they are written, below a collection at column
`c`. A key must also not be the sign that announces pairs from elsewhere. -/
def isLegible (inItem : Bool) (c : Nat) : Value → Bool
  | .string s => Scalar.opensWell (!inItem && c % 4 == 0) s
  | .list items => itemsLegible (Pen.deeper inItem c) items
  | .map pairs => pairsLegible (Pen.deeper inItem c) pairs
  | _ => true

def itemsLegible (c : Nat) : List Value → Bool
  | [] => true
  | v :: rest => v.isLegible true c && itemsLegible c rest

def pairsLegible (c : Nat) : List (Value × Value) → Bool
  | [] => true
  | (.string k, v) :: rest =>
    k != utf8 "<<" && Scalar.opensWell (c % 4 == 0) k && v.isLegible false c && pairsLegible c rest
  | (_, v) :: rest => v.isLegible false c && pairsLegible c rest

end

mutual

/-- How many lists and tables with something in them a value nests. -/
def depth : Value → Nat
  | .list (v :: rest) => itemsDepth (v :: rest) + 1
  | .map (p :: rest) => pairsDepth (p :: rest) + 1
  | _ => 0

def itemsDepth : List Value → Nat
  | [] => 0
  | v :: rest => max v.depth (itemsDepth rest)

def pairsDepth : List (Value × Value) → Nat
  | [] => 0
  | (_, v) :: rest => max v.depth (pairsDepth rest)

end

/-- Values that differ at most in the order of the pairs of tables. -/
inductive Same : Value → Value → Prop
  | refl (v : Value) : Same v v
  | list {items items' : List Value} : List.Forall₂ Same items items' →
    Same (.list items) (.list items')
  | map {pairs pairs' sorted : List (Value × Value)} : pairs.map Prod.fst = sorted.map Prod.fst →
    List.Forall₂ Same (pairs.map Prod.snd) (sorted.map Prod.snd) → sorted.Perm pairs' →
    Same (.map pairs) (.map pairs')

theorem itemsOrdinary_iff {items : List Value} :
    itemsOrdinary items = true ↔ ∀ v ∈ items, v.isOrdinary = true := by
  induction items with
  | nil => simp [itemsOrdinary]
  | cons v rest ih => simp [itemsOrdinary, ih]

theorem itemsLegible_iff {c : Nat} {items : List Value} :
    itemsLegible c items = true ↔ ∀ v ∈ items, v.isLegible true c = true := by
  induction items with
  | nil => simp [itemsLegible]
  | cons v rest ih => simp [itemsLegible, ih]

theorem depth_le_itemsDepth {v : Value} {items : List Value} (h : v ∈ items) :
    v.depth ≤ itemsDepth items := by
  induction items with
  | nil => cases h
  | cons w rest ih =>
    rw [itemsDepth]
    rcases List.mem_cons.mp h with rfl | hrest
    · exact le_max_left _ _
    · exact (ih hrest).trans (le_max_right _ _)

theorem pairsDepth_eq (pairs : List (Value × Value)) :
    pairsDepth pairs = itemsDepth (pairs.map Prod.snd) := by
  induction pairs with
  | nil => rw [pairsDepth, List.map_nil, itemsDepth]
  | cons p rest ih => rw [pairsDepth, List.map_cons, itemsDepth, ih]

theorem depth_lt_list {v : Value} {items : List Value} (h : v ∈ items) :
    v.depth < (Value.list items).depth := by
  obtain ⟨w, rest, rfl⟩ := List.exists_cons_of_ne_nil (List.ne_nil_of_mem h)
  rw [depth]
  exact Nat.lt_succ_of_le (depth_le_itemsDepth h)

theorem depth_lt_map {p : Value × Value} {pairs : List (Value × Value)} (h : p ∈ pairs) :
    p.2.depth < (Value.map pairs).depth := by
  obtain ⟨q, rest, rfl⟩ := List.exists_cons_of_ne_nil (List.ne_nil_of_mem h)
  rw [depth, pairsDepth_eq]
  exact Nat.lt_succ_of_le (depth_le_itemsDepth (List.mem_map_of_mem h))

/-- The pair of a table for a named value. -/
def pairOf (kv : Bytes × Value) : Value × Value := (.string kv.1, kv.2)

/-- The pairs of an ordinary table are named values. -/
theorem exists_named {pairs : List (Value × Value)} (h : pairsOrdinary pairs = true) :
    ∃ kvs : List (Bytes × Value), pairs = kvs.map pairOf ∧ (kvs.map Prod.fst).Nodup ∧
      ∀ kv ∈ kvs, Utf8.isValid kv.1 = true ∧ kv.2.isOrdinary = true := by
  induction pairs with
  | nil => exact ⟨[], rfl, List.nodup_nil, by simp⟩
  | cons p rest ih =>
    obtain ⟨k, v⟩ := p
    cases k with
    | string s =>
      simp only [pairsOrdinary, Bool.and_eq_true, Bool.not_eq_true'] at h
      obtain ⟨⟨⟨hs, hnew⟩, hv⟩, hrest⟩ := h
      obtain ⟨kvs, rfl, hnodup, hkvs⟩ := ih hrest
      refine ⟨(s, v) :: kvs, rfl, List.nodup_cons.mpr ⟨fun hmem => ?_, hnodup⟩,
        List.forall_mem_cons.mpr ⟨⟨hs, hv⟩, hkvs⟩⟩
      obtain ⟨kv, hkv, rfl⟩ := List.mem_map.mp hmem
      have hsame := List.any_eq_false.mp hnew _ (List.mem_map_of_mem hkv)
      exact hsame (by simp [pairOf, Decoder.sameKey])
    | _ => cases h

theorem pairsLegible_iff {c : Nat} {kvs : List (Bytes × Value)} :
    pairsLegible c (kvs.map pairOf) = true ↔ ∀ kv ∈ kvs,
      kv.1 ≠ utf8 "<<" ∧ Scalar.opensWell (c % 4 == 0) kv.1 = true ∧
        kv.2.isLegible false c = true := by
  induction kvs with
  | nil => simp [pairsLegible]
  | cons kv kvs ih =>
    rw [List.map_cons, pairOf, pairsLegible, Bool.and_eq_true, ih, List.forall_mem_cons]
    simp [and_assoc]

end Value

namespace Yaml

namespace Scalar

theorem opensBlock_of_opensWell {aligned : Bool} {text : Bytes} (h : opensWell aligned text = true)
    (hw : (ofText text).written false = .literal) : OpensBlock aligned (Utf8.chars text) := by
  intro c hc
  rw [opensWell, hw, bne_self_eq_false, Bool.false_or, hc] at h
  simpa [and_assoc, imp_iff_not_or] using h

end Scalar

namespace Document

theorem ofItems_eq (items : List Value) : ofItems items = items.map ofValue := by
  induction items with
  | nil => rw [ofItems, List.map_nil]
  | cons v rest ih => rw [ofItems, List.map_cons, ih]

theorem ofPairs_eq (pairs : List (Value × Value)) :
    ofPairs pairs = pairs.map fun p => (p.1, Scalar.ofValue p.1, ofValue p.2) := by
  induction pairs with
  | nil => rw [ofPairs, List.map_nil]
  | cons p rest ih => rw [ofPairs, List.map_cons, ih]

theorem ofValue_of_atom {v : Value} (hlist : ∀ items, v ≠ .list items)
    (hmap : ∀ pairs, v ≠ .map pairs) :
    v.isOrdinary = v.isAtom ∧ ofValue v = .scalar (Scalar.ofValue v) := by
  constructor
  · rw [Value.isOrdinary] <;> assumption
  · rw [ofValue] <;> assumption

/-- The pair of a document for a named value. -/
def pairOf (kv : Bytes × Value) : Scalar × Document := (Scalar.ofText kv.1, ofValue kv.2)

/-- The pairs of a table are written in an order of their own. -/
theorem ofValue_map (kvs : List (Bytes × Value)) :
    ∃ sorted : List (Bytes × Value), sorted.Perm kvs ∧
      ofValue (.map (kvs.map Value.pairOf)) = .mapping (sorted.map pairOf) := by
  refine ⟨kvs.mergeSort fun a b => KeyOrder.le (.string a.1) (.string b.1),
    List.mergeSort_perm _ _, ?_⟩
  have hkeyed : ofPairs (kvs.map Value.pairOf) = kvs.map fun kv => (.string kv.1, pairOf kv) := by
    rw [ofPairs_eq, List.map_map]
    rfl
  have hsort : (kvs.mergeSort fun a b => KeyOrder.le (.string a.1) (.string b.1)).map
      (fun kv => (Value.string kv.1, pairOf kv)) =
      (kvs.map fun kv => (Value.string kv.1, pairOf kv)).mergeSort fun a b => KeyOrder.le a.1 b.1 :=
    List.map_mergeSort fun _ _ _ _ => rfl
  rw [ofValue, hkeyed, ← hsort, List.map_map]
  rfl

theorem itemsLegible_iff {c : Nat} {ds : List Document} :
    ItemsLegible c ds ↔ ∀ d ∈ ds, d.Legible true c := by
  induction ds with
  | nil => simp [ItemsLegible]
  | cons d ds ih => rw [ItemsLegible, ih, List.forall_mem_cons]

theorem pairsLegible_iff {c : Nat} {kds : List (Scalar × Document)} :
    PairsLegible c kds ↔ ∀ kd ∈ kds, kd.1.Legible (c % 4 == 0) ∧ kd.2.Legible false c := by
  induction kds with
  | nil => simp [PairsLegible]
  | cons kd kds ih => rw [PairsLegible, ih, List.forall_mem_cons, and_assoc]

/-- A named value whose name and value are read back. -/
theorem legible_pairOf {c : Nat} {kv : Bytes × Value} (hk : Utf8.isValid kv.1 = true)
    (hopens : Scalar.opensWell (c % 4 == 0) kv.1 = true) (hv : (ofValue kv.2).Legible false c) :
    (pairOf kv).1.Legible (c % 4 == 0) ∧ (pairOf kv).2.Legible false c :=
  ⟨Scalar.legible_ofText hk (Scalar.opensBlock_of_opensWell hopens), hv⟩

/-- Ordinary values give legible documents. -/
theorem legible_ofValue {v : Value} {inItem : Bool} {c : Nat} (ho : v.isOrdinary = true)
    (hl : v.isLegible inItem c = true) : (ofValue v).Legible inItem c := by
  induction v using Value.induct generalizing inItem c with
  | atom v hlist hmap =>
    obtain ⟨hatom, heq⟩ := ofValue_of_atom hlist hmap
    rw [heq, Legible]
    refine Scalar.legible_ofValue (hatom ▸ ho) ?_
    rintro s rfl hw
    exact Scalar.opensBlock_of_opensWell hl hw
  | list items ih =>
    rw [Value.isOrdinary, Value.itemsOrdinary_iff] at ho
    rw [Value.isLegible, Value.itemsLegible_iff] at hl
    rw [ofValue, Legible, ofItems_eq, itemsLegible_iff, List.forall_mem_map]
    exact fun v hv => ih v hv (ho v hv) (hl v hv)
  | map pairs ih =>
    rw [Value.isOrdinary] at ho
    obtain ⟨kvs, rfl, -, hkvs⟩ := Value.exists_named ho
    rw [Value.isLegible, Value.pairsLegible_iff] at hl
    obtain ⟨sorted, hperm, heq⟩ := ofValue_map kvs
    rw [heq, Legible, pairsLegible_iff, List.forall_mem_map]
    intro kv hkv
    obtain ⟨hvalid, hordinary⟩ := hkvs kv (hperm.mem_iff.mp hkv)
    obtain ⟨-, hopens, hlegible⟩ := hl kv (hperm.mem_iff.mp hkv)
    exact legible_pairOf hvalid hopens
      (ih _ (List.mem_map_of_mem (hperm.mem_iff.mp hkv)) hordinary hlegible)

theorem depth_sequence_le_iff {ds : List Document} {n : Nat} :
    (Document.sequence ds).depth ≤ n ↔ ∀ d ∈ ds, d.depth < n := by
  cases ds with
  | nil => simp [depth]
  | cons d ds =>
    obtain ⟨hlt, e, he, heq⟩ := depth_sequence d ds
    constructor
    · exact fun hle e he => (hlt e he).trans_le hle
    · intro h
      rw [heq]
      exact h e he

theorem depth_mapping_le_iff {kds : List (Scalar × Document)} {n : Nat} :
    (Document.mapping kds).depth ≤ n ↔ ∀ kd ∈ kds, kd.2.depth < n := by
  cases kds with
  | nil => simp [depth]
  | cons kd kds =>
    obtain ⟨hlt, e, he, heq⟩ := depth_mapping kd kds
    constructor
    · exact fun hle e he => (hlt e he).trans_le hle
    · intro h
      rw [heq]
      exact h e he

/-- A document nests no deeper than the value that it was made for. -/
theorem depth_ofValue_le {v : Value} (ho : v.isOrdinary = true) : (ofValue v).depth ≤ v.depth := by
  induction v using Value.induct with
  | atom v hlist hmap =>
    rw [(ofValue_of_atom hlist hmap).2, depth]
    exact Nat.zero_le _
  | list items ih =>
    rw [Value.isOrdinary, Value.itemsOrdinary_iff] at ho
    rw [ofValue, ofItems_eq]
    refine depth_sequence_le_iff.mpr (List.forall_mem_map.mpr fun v hv => ?_)
    exact (ih v hv (ho v hv)).trans_lt (Value.depth_lt_list hv)
  | map pairs ih =>
    rw [Value.isOrdinary] at ho
    obtain ⟨kvs, rfl, -, hkvs⟩ := Value.exists_named ho
    obtain ⟨sorted, hperm, heq⟩ := ofValue_map kvs
    rw [heq]
    refine depth_mapping_le_iff.mpr (List.forall_mem_map.mpr fun kv hkv => ?_)
    have hmem := List.mem_map_of_mem (f := Value.pairOf) (hperm.mem_iff.mp hkv)
    exact (ih _ hmem (hkvs kv (hperm.mem_iff.mp hkv)).2).trans_lt (Value.depth_lt_map hmem)

end Document

end Yaml

end Linewise
