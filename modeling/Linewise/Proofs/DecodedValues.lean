import Linewise.Proofs.OrdinaryValues
import Linewise.Proofs.ShownDocuments

/-!
# Values of nodes

A node that shows the document of an ordinary value is decoded to that value, up to the order of the
pairs of tables, in every shape that the value has. Nothing is complained about on the way: no key
occurs twice, no pairs come from elsewhere and no alias is followed.
-/

namespace Linewise.Yaml

theorem Scalar.text_ofText {text : Bytes} (h : Utf8.isValid text = true) :
    (ofText text).text = text := by
  obtain ⟨style, heq, -⟩ := ofText_eq h
  rw [heq]

namespace Decoder

variable {α β : Type}

/-- A step gives a result without a complaint while no alias has been followed. Only the count of
nodes changes. -/
def Gives (m : Decoding α) (x : α) : Prop :=
  ∀ d : Decoder, d.aliasVisits = 0 → ∃ n, m.run d = .ok (x, { d with visits := n })

theorem gives_pure (x : α) : Gives (pure x) x := fun d _ => ⟨d.visits, rfl⟩

theorem Gives.bind {m : Decoding α} {f : α → Decoding β} {x : α} {y : β} (hm : Gives m x)
    (hf : Gives (f x) y) : Gives (m >>= f) y := by
  intro d hd
  obtain ⟨n, hrun⟩ := hm d hd
  obtain ⟨k, hrun'⟩ := hf { d with visits := n } hd
  refine ⟨k, ?_⟩
  rw [StateT.run_bind, hrun]
  exact hrun'

theorem gives_lift {m : Except Problem α} {x : α} (h : m = .ok x) :
    Gives (liftM m : Decoding α) x := by
  subst h
  exact fun d _ => ⟨d.visits, rfl⟩

theorem gives_visit : Gives (visit false) () := by
  intro d hd
  refine ⟨d.visits + 1, ?_⟩
  simp [visit, isExcessive, hd]
  rfl

theorem gives_mapM {f : α → Decoding β} {xs : List α} {ys : List β}
    (h : List.Forall₂ (fun x y => Gives (f x) y) xs ys) : Gives (xs.mapM f) ys := by
  induction h with
  | nil => exact gives_pure []
  | cons hx _ ih =>
    rw [List.mapM_cons]
    exact hx.bind (ih.bind (gives_pure _))

end Decoder

/-- The values that a shape is made for. -/
def Shape.Holds : Shape → Value → Prop
  | .any, _ => True
  | .flag, v => ∃ b, v = .bool b
  | .text, v => ∃ s, v = .string s
  | .list item, v => ∃ items, v = .list items ∧ ∀ x ∈ items, item.Holds x
  | .table value, v => ∃ pairs, v = .map pairs ∧ ∀ p ∈ pairs, value.Holds p.2
  | .record _ _, _ => False

/-- The shape of the items of a list of a shape. -/
def Shape.item? : Shape → Option Shape
  | .any => some .any
  | .list item => some item
  | _ => none

theorem Shape.Holds.item {shape : Shape} {items : List Value} (h : shape.Holds (.list items)) :
    ∃ item, shape.item? = some item ∧ ∀ v ∈ items, item.Holds v := by
  cases shape with
  | any => exact ⟨.any, rfl, fun _ _ => trivial⟩
  | list item =>
    obtain ⟨_, heq, hitems⟩ := h
    cases heq
    exact ⟨item, rfl, hitems⟩
  | flag => obtain ⟨_, heq⟩ := h; cases heq
  | text => obtain ⟨_, heq⟩ := h; cases heq
  | table value => obtain ⟨_, heq, -⟩ := h; cases heq
  | record name fields => cases h

open Decoder in
theorem Shape.Holds.value {shape : Shape} {pairs : List (Value × Value)}
    (h : shape.Holds (.map pairs)) :
    ∃ value, (∀ ps : List (Node × Node), ps.all (isTextKey ·.1) = true →
      Target.ofShape? shape ps = some (.table .text value)) ∧ ∀ p ∈ pairs, value.Holds p.2 := by
  cases shape with
  | any =>
    exact ⟨.any, fun ps hps => by simp only [Target.ofShape?, hps, if_true], fun _ _ => trivial⟩
  | table value =>
    obtain ⟨_, heq, hpairs⟩ := h
    cases heq
    exact ⟨value, fun _ _ => rfl, hpairs⟩
  | flag => obtain ⟨_, heq⟩ := h; cases heq
  | text => obtain ⟨_, heq⟩ := h; cases heq
  | list item => obtain ⟨_, heq, -⟩ := h; cases heq
  | record name fields => cases h

namespace Decoder

variable {fuel line : Nat} {shape : Shape} {tag : Tag}

theorem gives_scalar {v : Value} (hv : v.isAtom = true) (hs : shape.Holds v) {t : Tag}
    (ht : tag.resolve (Scalar.ofValue v).text = .ok (t, v)) :
    Gives (node (fuel + 1) false shape (.scalar line tag (Scalar.ofValue v).text)) (some v) := by
  rw [node]
  refine gives_visit.bind ?_
  refine (gives_lift ht).bind ?_
  cases shape with
  | any => exact gives_pure _
  | flag =>
    obtain ⟨b, rfl⟩ := hs
    exact gives_pure _
  | text =>
    obtain ⟨s, rfl⟩ := hs
    have htext : (Scalar.ofValue (.string s)).text = s := Scalar.text_ofText hv
    have hgives := gives_pure (some (if t == .binary then Value.string s else .string s))
    rw [ite_self] at hgives
    simpa only [htext, ite_self] using hgives
  | list item => obtain ⟨_, rfl, -⟩ := hs; cases hv
  | table value => obtain ⟨_, rfl, -⟩ := hs; cases hv
  | record name fields => cases hs

theorem gives_sequence {item : Shape} (hs : shape.item? = some item) {ns : List Node}
    {vs : List Value}
    (h : List.Forall₂ (fun n v => Gives (node fuel false item n) (some v)) ns vs) :
    Gives (node (fuel + 1) false shape (.sequence line tag ns)) (some (.list vs)) := by
  have hmap : Gives (ns.mapM (node fuel false item)) (vs.map some) :=
    gives_mapM (List.forall₂_map_right_iff.mpr h)
  have hvs : (vs.map some).filterMap id = vs := by simp
  have hlist : Gives (ns.mapM (node fuel false item) >>= fun vs =>
      (pure (some (Value.list (vs.filterMap id))) : Decoding (Option Value)))
      (some (.list vs)) := by
    refine hmap.bind ?_
    rw [hvs]
    exact gives_pure _
  cases shape with
  | any =>
    cases hs
    rw [node]
    exact gives_visit.bind hlist
  | list item =>
    cases hs
    rw [node]
    exact gives_visit.bind hlist
  | _ => cases hs

/-! ## Mappings -/

theorem sameKey_string {k : Value} {s : Bytes} :
    (sameKey k (.string s) = true ↔ k = .string s) ∧
      (sameKey (.string s) k = true ↔ k = .string s) := by
  cases k with
  | string t => simp [sameKey, eq_comm (a := s)]
  | _ => simp [sameKey]

theorem setPair_new {pairs : List (Value × Value)} {s : Bytes}
    (h : .string s ∉ pairs.map Prod.fst) (v : Value) :
    setPair pairs (.string s) v = pairs ++ [(.string s, v)] := by
  induction pairs with
  | nil => rfl
  | cons p pairs ih =>
    obtain ⟨k, w⟩ := p
    simp only [List.map_cons, List.mem_cons, not_or] at h
    have hk : sameKey k (.string s) = false := by
      rw [Bool.eq_false_iff, ne_eq, sameKey_string.1]
      exact fun hk => h.1 hk.symm
    rw [setPair, hk, if_neg (by simp), ih h.2, List.cons_append]

/-- The shape of the value with a name in a target. -/
def Target.shape? : Target → Bytes → Option Shape
  | .table _ value, _ => some value
  | .record _ fields, s => fields.lookup s

/-- A new name is added to the pairs gathered so far. -/
theorem gives_addPair {target : Target} {g : Gathered} {s : Bytes} {v : Value} {n : Node}
    (hs : target.shape? s = some shape) (hn : Gives (node fuel false shape n) (some v))
    (hnew : .string s ∉ g.pairs.map Prod.fst) (hdone : g.done ⊆ g.pairs.map Prod.fst) (line : Nat) :
    ∃ g', g'.pairs = g.pairs ++ [(.string s, v)] ∧ g'.done ⊆ g'.pairs.map Prod.fst ∧
      g'.taken = g.taken ∧ Gives (addPair (node fuel false) target g line (.string s) n) g' := by
  cases target with
  | table key value =>
    cases hs
    refine ⟨{ g with pairs := g.pairs ++ [(.string s, v)] }, rfl, ?_, rfl, ?_⟩
    · rw [List.map_append]
      exact List.subset_append_of_subset_left _ hdone
    · refine hn.bind ?_
      rw [← setPair_new hnew]
      exact gives_pure _
  | record name fields =>
    have hset : g.done.any (sameKey (.string s)) = false := by
      rw [List.any_eq_false]
      intro k hk hsame
      exact hnew (sameKey_string.2.mp hsame ▸ hdone hk)
    refine ⟨{ g with pairs := g.pairs ++ [(.string s, v)], done := .string s :: g.done }, rfl, ?_,
      rfl, ?_⟩
    · rw [List.map_append]
      refine List.cons_subset.mpr ⟨by simp, List.subset_append_of_subset_left _ hdone⟩
    · have hlookup : fields.lookup s = some shape := hs
      simp only [addPair, hlookup, hset, Bool.false_eq_true, if_false]
      refine hn.bind ?_
      rw [← setPair_new hnew]
      exact gives_pure _

/-- A pair of nodes is decoded to a named value of a target. -/
structure ReadsPair (fuel : Nat) (target : Target) (p : Node × Node) (kv : Bytes × Value) :
    Prop where
  own : isMergeKey p.1 = false
  key : Gives (node fuel false .text p.1) (some (.string kv.1))
  value : ∃ shape, target.shape? kv.1 = some shape ∧ Gives (node fuel false shape p.2) (some kv.2)

/-- Pairs with new names are gathered one by one. -/
theorem gives_ownPairs {target : Target} (hkey : target.key = .text) {ps : List (Node × Node)}
    {kvs : List (Bytes × Value)} (h : List.Forall₂ (ReadsPair fuel target) ps kvs) {g : Gathered}
    (htaken : g.taken = none) (hdone : g.done ⊆ g.pairs.map Prod.fst)
    (hnodup : ((g.pairs ++ kvs.map Value.pairOf).map Prod.fst).Nodup) :
    ∃ g', g'.pairs = g.pairs ++ kvs.map Value.pairOf ∧
      Gives (ownPairs (node fuel false) target g ps) g' := by
  induction h generalizing g with
  | nil => exact ⟨g, by simp, gives_pure g⟩
  | @cons p kv ps kvs hp _ ih =>
    obtain ⟨k, n⟩ := p
    obtain ⟨shape, hshape, hvalue⟩ := hp.value
    have hnew : .string kv.1 ∉ g.pairs.map Prod.fst := by
      rw [List.map_append, List.nodup_append] at hnodup
      exact fun hmem => hnodup.2.2 _ hmem _ (by simp [Value.pairOf]) rfl
    obtain ⟨g₁, hpairs, hdone₁, htaken₁, hadd⟩ :=
      gives_addPair hshape hvalue hnew hdone k.line
    rw [List.map_cons, List.append_cons] at hnodup
    obtain ⟨g₂, hpairs₂, hrest⟩ := ih (htaken₁.trans htaken) hdone₁ (by rwa [hpairs])
    refine ⟨g₂, ?_, ?_⟩
    · rw [hpairs₂, hpairs, List.map_cons, List.append_assoc]
      rfl
    · have hfree : (g.taken.any (·.any (sameKey (.string kv.1)))) = false := by rw [htaken]; rfl
      have hsame : { g with taken := g.taken.map ((.string kv.1 : Value) :: ·) } = g := by
        cases g
        simp_all
      rw [ownPairs, hp.own, if_neg (by simp), hkey]
      refine hp.key.bind ?_
      simp only [hfree, Bool.false_eq_true, if_false, hsame]
      exact hadd.bind hrest

theorem find?_isMergeKey {target : Target} {ps : List (Node × Node)} {kvs : List (Bytes × Value)}
    (h : List.Forall₂ (ReadsPair fuel target) ps kvs) : ps.find? (isMergeKey ·.1) = none := by
  induction h with
  | nil => rfl
  | cons hp _ ih => rw [List.find?_cons, hp.own, ih]

theorem repeatedKeys_of_nodup {ns : List Node} (h : (ns.map keyIdentity).Nodup) :
    repeatedKeys ns = [] := by
  induction ns with
  | nil => rfl
  | cons n ns ih =>
    rw [List.map_cons, List.nodup_cons] at h
    have hfilter : (ns.filter fun n' => keyIdentity n' == keyIdentity n) = [] := by
      rw [List.filter_eq_nil_iff]
      intro n' hn' hsame
      exact h.1 (List.mem_map.mpr ⟨n', hn', by simpa using hsame⟩)
    rw [repeatedKeys, hfilter, ih h.2]
    rfl

/-- A mapping with distinct names is decoded pair by pair. -/
theorem gives_mapping {target : Target} {ps : List (Node × Node)} {kvs : List (Bytes × Value)}
    (ht : Target.ofShape? shape ps = some target) (hkey : target.key = .text)
    (h : List.Forall₂ (ReadsPair fuel target) ps kvs)
    (hkeys : ((ps.map Prod.fst).map keyIdentity).Nodup) (hnodup : (kvs.map Prod.fst).Nodup) :
    Gives (node (fuel + 2) false shape (.mapping line tag ps))
      (some (.map (kvs.map Value.pairOf))) := by
  have hnames : ((([] : List (Value × Value)) ++ kvs.map Value.pairOf).map Prod.fst).Nodup := by
    have hmap : (kvs.map Value.pairOf).map Prod.fst = (kvs.map Prod.fst).map Value.string := by
      simp [Value.pairOf, Function.comp_def]
    rw [List.nil_append, hmap]
    exact hnodup.map fun _ _ => Value.string.inj
  obtain ⟨g, hpairs, hown⟩ :=
    gives_ownPairs hkey h (g := {}) rfl (List.nil_subset _) hnames
  have hcheck : Gives (checkKeys ps) true := by
    intro d _
    refine ⟨d.visits, ?_⟩
    simp [checkKeys, repeatedKeys_of_nodup hkeys]
    rfl
  have hgather : Gives (gather (fuel + 1) false target {} ps) g := by
    rw [gather]
    refine hown.bind ?_
    rw [find?_isMergeKey h]
    exact gives_pure _
  rw [node]
  refine gives_visit.bind (hcheck.bind ?_)
  rw [ht]
  refine hgather.bind ?_
  rw [hpairs]
  exact gives_pure _

end Decoder

/-! ## Nodes that show documents -/

namespace Document

open Decoder NodeReader

theorem itemsShown_iff {ds : List Document} {ns : List Node} :
    ItemsShown ds ns ↔ List.Forall₂ Shown ds ns := by
  induction ds generalizing ns with
  | nil => simp [ItemsShown]
  | cons d ds ih =>
    rw [ItemsShown, List.forall₂_cons_left_iff]
    constructor
    · rintro ⟨n, rest, rfl, hn, hrest⟩
      exact ⟨n, rest, hn, ih.mp hrest, rfl⟩
    · rintro ⟨n, rest, hn, hrest, rfl⟩
      exact ⟨n, rest, rfl, hn, ih.mpr hrest⟩

/-- A pair of nodes shows a named value. -/
structure ShowsPair (kv : Bytes × Value) (p : Node × Node) : Prop where
  key : ∃ line, p.1 = .scalar line (scalarTag none kv.1 (Scalar.ofText kv.1).keyStyle) kv.1
  value : (ofValue kv.2).Shown p.2

theorem pairsShown {kvs : List (Bytes × Value)} (hv : ∀ kv ∈ kvs, Utf8.isValid kv.1 = true)
    {ps : List (Node × Node)} (h : PairsShown (kvs.map pairOf) ps) :
    List.Forall₂ ShowsPair kvs ps := by
  induction kvs generalizing ps with
  | nil =>
    rw [List.map_nil, PairsShown] at h
    rw [h]
    exact .nil
  | cons kv kvs ih =>
    rw [List.map_cons, pairOf, PairsShown] at h
    obtain ⟨line, n, rest, rfl, hn, hrest⟩ := h
    obtain ⟨hkv, hkvs⟩ := List.forall_mem_cons.mp hv
    refine .cons ⟨⟨line, ?_⟩, hn⟩ (ih hkvs hrest)
    simp only [Scalar.text_ofText hkv]

/-- The key of a named value is decoded to its name, and announces no pairs from elsewhere. -/
theorem ShowsPair.reads {kv : Bytes × Value} {p : Node × Node} (h : ShowsPair kv p)
    (hv : Utf8.isValid kv.1 = true) (hm : kv.1 ≠ utf8 "<<") (fuel : Nat) :
    isMergeKey p.1 = false ∧ isTextKey p.1 = true ∧ keyIdentity p.1 = (0, kv.1) ∧
      Gives (Decoder.node (fuel + 1) false .text p.1) (some (.string kv.1)) := by
  obtain ⟨line, hkey⟩ := h.key
  have htag : scalarTag none kv.1 (Scalar.ofText kv.1).keyStyle = .str := by
    rcases Scalar.scalarTag_ofText hv (Pen.isSimpleKey (Scalar.ofText kv.1)) with htag | ⟨hsign, -⟩
    · exact htag
    · exact absurd hsign hm
  have htext : (Scalar.ofValue (.string kv.1)).text = kv.1 := Scalar.text_ofText hv
  have hgives : Gives (Decoder.node (fuel + 1) false .text
      (.scalar line .str (Scalar.ofValue (.string kv.1)).text)) (some (.string kv.1)) :=
    gives_scalar hv ⟨kv.1, rfl⟩ (by rw [htext]; rfl)
  rw [htext] at hgives
  rw [hkey, htag]
  exact ⟨rfl, rfl, rfl, hgives⟩

theorem exists_forall₂ {α β γ : Type} {R : α → β → Prop} {Q : γ → α → Prop} {G : β → γ → Prop}
    {xs : List α} {ys : List β} (h : List.Forall₂ R xs ys)
    (hex : ∀ x ∈ xs, ∀ y, R x y → ∃ z, Q z x ∧ G y z) :
    ∃ zs, List.Forall₂ Q zs xs ∧ List.Forall₂ G ys zs := by
  induction h with
  | nil => exact ⟨[], .nil, .nil⟩
  | @cons x y xs ys hxy _ ih =>
    obtain ⟨hx, hxs⟩ := List.forall_mem_cons.mp hex
    obtain ⟨z, hz, hg⟩ := hx y hxy
    obtain ⟨zs, hzs, hgs⟩ := ih hxs
    exact ⟨z :: zs, .cons hz hzs, .cons hg hgs⟩

/-- Named values that are the same. -/
def Alike (kv kv' : Bytes × Value) : Prop := kv.1 = kv'.1 ∧ kv.2.Same kv'.2

theorem map_fst {kvs kvs' : List (Bytes × Value)} (h : List.Forall₂ Alike kvs' kvs) :
    kvs'.map Prod.fst = kvs.map Prod.fst := by
  induction h with
  | nil => rfl
  | cons hkv _ ih => rw [List.map_cons, List.map_cons, hkv.1, ih]

/-- The keys of named values are texts, told apart by the names. -/
theorem keys_shown {kvs : List (Bytes × Value)} {ps : List (Node × Node)}
    (h : List.Forall₂ ShowsPair kvs ps)
    (hkeys : ∀ kv ∈ kvs, Utf8.isValid kv.1 = true ∧ kv.1 ≠ utf8 "<<") :
    (ps.map Prod.fst).map keyIdentity = (kvs.map Prod.fst).map (0, ·) ∧
      ps.all (isTextKey ·.1) = true := by
  induction h with
  | nil => exact ⟨rfl, rfl⟩
  | @cons kv p kvs ps hp _ ih =>
    obtain ⟨⟨hvalid, hsign⟩, hkeys⟩ := List.forall_mem_cons.mp hkeys
    obtain ⟨hidentity, htext⟩ := ih hkeys
    obtain ⟨-, htextKey, hid, -⟩ := hp.reads hvalid hsign 0
    simp only [List.map_cons, List.all_cons, hidentity, hid, htextKey, htext, Bool.and_self,
      and_self]

/-- A mapping of named values is decoded to named values that are the same. -/
theorem mapping_decodes {kvs : List (Bytes × Value)} {ps : List (Node × Node)}
    {target : Decoder.Target} {shape : Shape} {fuel line : Nat} {tag : Tag}
    (h : PairsShown (kvs.map pairOf) ps)
    (hkeys : ∀ kv ∈ kvs, Utf8.isValid kv.1 = true ∧ kv.1 ≠ utf8 "<<")
    (hnodup : (kvs.map Prod.fst).Nodup)
    (ht : ps.all (isTextKey ·.1) = true → Decoder.Target.ofShape? shape ps = some target)
    (hkey : target.key = .text)
    (hvalues : ∀ kv ∈ kvs, ∀ n, (ofValue kv.2).Shown n → ∃ shape v,
      target.shape? kv.1 = some shape ∧ v.Same kv.2 ∧
        Gives (Decoder.node (fuel + 1) false shape n) (some v)) :
    ∃ kvs', List.Forall₂ Alike kvs' kvs ∧
      Gives (Decoder.node (fuel + 3) false shape (.mapping line tag ps))
        (some (.map (kvs'.map Value.pairOf))) := by
  have hshows := pairsShown (fun kv hkv => (hkeys kv hkv).1) h
  obtain ⟨hidentity, htext⟩ := keys_shown hshows hkeys
  obtain ⟨kvs', halike, hreads⟩ : ∃ kvs', List.Forall₂ Alike kvs' kvs ∧
      List.Forall₂ (ReadsPair (fuel + 1) target) ps kvs' := by
    refine exists_forall₂ hshows fun kv hkv p hp => ?_
    obtain ⟨shape, v, hshape, hsame, hgives⟩ := hvalues kv hkv p.2 hp.value
    obtain ⟨hown, -, -, hname⟩ := hp.reads (hkeys kv hkv).1 (hkeys kv hkv).2 fuel
    exact ⟨(kv.1, v), ⟨rfl, hsame⟩, hown, hname, shape, hshape, hgives⟩
  refine ⟨kvs', halike, gives_mapping (ht htext) hkey hreads ?_ (map_fst halike ▸ hnodup)⟩
  rw [hidentity]
  exact hnodup.map fun _ _ heq => (Prod.mk.inj heq).2

theorem same_map {kvs kvs' sorted : List (Bytes × Value)} (h : List.Forall₂ Alike kvs' sorted)
    (hperm : sorted.Perm kvs) :
    Value.Same (.map (kvs'.map Value.pairOf)) (.map (kvs.map Value.pairOf)) := by
  refine @Value.Same.map _ _ (sorted.map Value.pairOf) ?_ ?_ (hperm.map _)
  · simpa [Function.comp_def, Value.pairOf] using congrArg (List.map Value.string) (map_fst h)
  · rw [List.map_map, List.map_map, List.forall₂_map_left_iff, List.forall₂_map_right_iff]
    exact h.imp fun _ _ hkv => hkv.2

/-- A node that shows an ordinary value is decoded to that value. -/
theorem ofValue_decodes {v : Value} {inItem : Bool} {c fuel : Nat} {n : Node} {shape : Shape}
    (ho : v.isOrdinary = true) (hl : v.isLegible inItem c = true) (hn : (ofValue v).Shown n)
    (hs : shape.Holds v) (hf : 2 * (ofValue v).depth + 3 ≤ fuel) :
    ∃ v', v'.Same v ∧ Gives (Decoder.node fuel false shape n) (some v') := by
  induction v using Value.induct generalizing inItem c fuel n shape with
  | atom v hlist hmap =>
    obtain ⟨hatom, heq⟩ := ofValue_of_atom hlist hmap
    rw [hatom] at ho
    rw [heq, Shown] at hn
    obtain ⟨line, rfl⟩ := hn
    obtain ⟨tag, htag⟩ := Scalar.resolve_ofValue ho
    obtain ⟨fuel, rfl⟩ : ∃ f, fuel = f + 1 := ⟨fuel - 1, by omega⟩
    exact ⟨v, .refl v, gives_scalar ho hs htag⟩
  | list items ih =>
    rw [Value.isOrdinary, Value.itemsOrdinary_iff] at ho
    rw [Value.isLegible, Value.itemsLegible_iff] at hl
    rw [ofValue, ofItems_eq] at hf hn
    rw [Shown] at hn
    obtain ⟨line, ns, rfl, hns⟩ := hn
    rw [itemsShown_iff, List.forall₂_map_left_iff] at hns
    obtain ⟨item, hitem, hholds⟩ := hs.item
    obtain ⟨fuel, rfl⟩ : ∃ f, fuel = f + 1 := ⟨fuel - 1, by omega⟩
    obtain ⟨vs, hsame, hgives⟩ : ∃ vs, List.Forall₂ Value.Same vs items ∧
        List.Forall₂ (fun n v => Gives (Decoder.node fuel false item n) (some v)) ns vs := by
      refine exists_forall₂ hns fun v hv n hn => ?_
      have hlt := depth_sequence_le_iff.mp le_rfl _ (List.mem_map_of_mem (f := ofValue) hv)
      exact ih v hv (ho v hv) (hl v hv) hn (hholds v hv) (by omega)
    exact ⟨.list vs, .list hsame, gives_sequence hitem hgives⟩
  | map pairs ih =>
    rw [Value.isOrdinary] at ho
    obtain ⟨kvs, rfl, hnodup, hkvs⟩ := Value.exists_named ho
    rw [Value.isLegible, Value.pairsLegible_iff] at hl
    obtain ⟨sorted, hperm, heq⟩ := ofValue_map kvs
    rw [heq] at hf hn
    rw [Shown] at hn
    obtain ⟨line, ps, rfl, hps⟩ := hn
    obtain ⟨value, ht, hholds⟩ := hs.value
    obtain ⟨fuel, rfl⟩ : ∃ f, fuel = f + 3 := ⟨fuel - 3, by omega⟩
    obtain ⟨kvs', halike, hgives⟩ : ∃ kvs', List.Forall₂ Alike kvs' sorted ∧
        Gives (Decoder.node (fuel + 3) false shape (.mapping line .map ps))
          (some (.map (kvs'.map Value.pairOf))) := by
      have hmem {kv : Bytes × Value} (hkv : kv ∈ sorted) : kv ∈ kvs := hperm.mem_iff.mp hkv
      refine mapping_decodes hps
        (fun kv hkv => ⟨(hkvs kv (hmem hkv)).1, (hl kv (hmem hkv)).1⟩)
        ((hperm.map Prod.fst).nodup_iff.mpr hnodup) (ht ps) rfl fun kv hkv n hn => ?_
      have hpair : Value.pairOf kv ∈ kvs.map Value.pairOf := List.mem_map_of_mem (hmem hkv)
      have hlt : (ofValue kv.2).depth < (Document.mapping (sorted.map pairOf)).depth :=
        depth_mapping_le_iff.mp le_rfl _ (List.mem_map_of_mem (f := pairOf) hkv)
      have hfuel : 2 * (ofValue kv.2).depth + 3 ≤ fuel + 1 := by omega
      obtain ⟨v', hsame, hgives⟩ := ih _ hpair (hkvs kv (hmem hkv)).2 (hl kv (hmem hkv)).2.2 hn
        (hholds _ hpair) hfuel
      exact ⟨value, v', rfl, hsame, hgives⟩
    exact ⟨_, same_map halike hperm, hgives⟩

end Document

end Linewise.Yaml
