import Linewise.Config.Format
import Linewise.Proofs.DecodedValues
import Linewise.Proofs.SavedFlags

/-!
# Configurations that are written and read again

The text of a configuration is read back as the configuration, whatever its texts look like; only
options may come in another order. `parse_render` says so for all configurations but three kinds.
Values that nest deeper than a reader goes are refused. The key `<<` is written without quotes and
taken for the sign that announces pairs from elsewhere. And a text of several lines is written as a
block, which cannot be read back when the text starts with a line break or a tab, or with a space
where the block is not indented by the four columns that its header claims. The configurations of
`lost_not_restored` are of the last two kinds.
-/

namespace Linewise.Config

open Yaml

/-- A list as a value, when it is not empty. -/
def listValue (items : List Bytes) : Option Value :=
  if items.isEmpty then none else some (.list (items.map .string))

/-- The fields of a configuration file in order, with their values where they say something. -/
def fieldValues (c : Config) : List (Bytes × Option Value) :=
  [(followLinksKey, c.followLinks.map .bool), (extensionsKey, listValue c.extensions),
    (filenamesKey, listValue c.filenames), (excludesKey, listValue c.excludes),
    (addFilesKey, if c.addFiles then some (.bool true) else none),
    (rulePathsKey, listValue c.rulePaths),
    (ruleOptionsKey, if c.ruleOptions.isEmpty then none else some (optionsValue c.ruleOptions)),
    (disabledRulesKey, listValue c.disabledRules)]

theorem toPairs_eq (c : Config) :
    c.toPairs = c.fieldValues.filterMap fun f => f.2.map (f.1, ·) := by
  have hcons (f : Bytes × Option Value) (fs : List (Bytes × Option Value)) :
      (f :: fs).filterMap (fun f => f.2.map (f.1, ·)) =
        (f.2.map (f.1, ·)).toList ++ fs.filterMap fun f => f.2.map (f.1, ·) := by
    cases h : f.2 <;> simp [h]
  have hlist (key : Bytes) (items : List Bytes) :
      ((listValue items).map (key, ·)).toList = listPair key items := by
    cases items <;> rfl
  have hadd : ((if c.addFiles then some (Value.bool true) else none).map (addFilesKey, ·)).toList =
      if c.addFiles then [(addFilesKey, .bool true)] else [] := by
    cases c.addFiles <;> rfl
  have hoptions : ((if c.ruleOptions.isEmpty then none else some (optionsValue c.ruleOptions)).map
      (ruleOptionsKey, ·)).toList =
      if c.ruleOptions.isEmpty then [] else [(ruleOptionsKey, optionsValue c.ruleOptions)] := by
    cases c.ruleOptions <;> rfl
  have hlinks : ((c.followLinks.map Value.bool).map (followLinksKey, ·)).toList =
      (c.followLinks.map fun b => (followLinksKey, Value.bool b)).toList := by
    cases c.followLinks <;> rfl
  simp only [fieldValues, hcons, hlist, hadd, hoptions, hlinks, List.filterMap_nil, List.append_nil,
    toPairs, List.append_assoc]

theorem lookup_filterMap {fs : List (Bytes × Option Value)} (hn : (fs.map Prod.fst).Nodup)
    {k : Bytes} {o : Option Value} (h : (k, o) ∈ fs) :
    (fs.filterMap fun f => f.2.map (f.1, ·)).lookup k = o := by
  induction fs with
  | nil => cases h
  | cons f fs ih =>
    obtain ⟨k', o'⟩ := f
    rw [List.map_cons, List.nodup_cons] at hn
    rcases List.mem_cons.mp h with heq | hrest
    · cases heq
      cases o with
      | some v => simp
      | none =>
        rw [List.filterMap_cons_none rfl, List.lookup_eq_none_iff]
        intro p hp
        obtain ⟨f, hf, hfp⟩ := List.mem_filterMap.mp hp
        obtain ⟨v, -, rfl⟩ := Option.map_eq_some_iff.mp hfp
        rw [bne_iff_ne]
        rintro rfl
        exact hn.1 (List.mem_map.mpr ⟨f, hf, rfl⟩)
    · have hne : (k == k') = false := by
        rw [beq_eq_false_iff_ne]
        rintro rfl
        exact hn.1 (List.mem_map.mpr ⟨_, hrest, rfl⟩)
      cases o' with
      | some v => simpa [List.lookup_cons, hne] using ih hn.2 hrest
      | none => simpa using ih hn.2 hrest

theorem sublist_filterMap (fs : List (Bytes × Option Value)) :
    ((fs.filterMap fun f => f.2.map (f.1, ·)).map Prod.fst).Sublist (fs.map Prod.fst) := by
  induction fs with
  | nil => exact .slnil
  | cons f fs ih =>
    obtain ⟨k, o⟩ := f
    cases o with
    | none => exact ih.cons k
    | some v => exact ih.cons_cons k

theorem nodup_keys (c : Config) : (c.fieldValues.map Prod.fst).Nodup := by
  have hkeys : [followLinksKey, extensionsKey, filenamesKey, excludesKey, addFilesKey, rulePathsKey,
      ruleOptionsKey, disabledRulesKey].Nodup := by decide +kernel
  exact hkeys

/-- What a field says. -/
theorem lookup_toPairs {c : Config} {k : Bytes} {o : Option Value} (h : (k, o) ∈ c.fieldValues) :
    c.toPairs.lookup k = o := by
  rw [toPairs_eq]
  exact lookup_filterMap c.nodup_keys h

theorem nodup_toPairs (c : Config) : (c.toPairs.map Prod.fst).Nodup := by
  rw [toPairs_eq]
  exact c.nodup_keys.sublist (sublist_filterMap _)

/-- Every field has a value of its shape. -/
theorem exists_shape (c : Config) :
    ∃ name fields, shape = .record name fields ∧ ∀ kv ∈ c.toPairs, ∃ s,
      fields.lookup kv.1 = some s ∧ s.Holds kv.2 := by
  refine ⟨_, _, rfl, ?_⟩
  have htexts (items : List Bytes) : (Shape.list .text).Holds (.list (items.map .string)) :=
    ⟨_, rfl, List.forall_mem_map.mpr fun s _ => ⟨s, rfl⟩⟩
  have hoptions : (Shape.table (.table .any)).Holds (optionsValue c.ruleOptions) :=
    ⟨_, rfl, List.forall_mem_map.mpr fun o _ => ⟨_, rfl, fun _ _ => trivial⟩⟩
  intro kv hkv
  simp only [toPairs, listPair, List.mem_append, Option.mem_toList, Option.map_eq_some_iff,
    List.mem_ite_nil_left, List.mem_ite_nil_right, List.mem_singleton] at hkv
  rcases hkv with ((((((⟨b, -, rfl⟩ | ⟨-, rfl⟩) | ⟨-, rfl⟩) | ⟨-, rfl⟩) | ⟨-, rfl⟩) | ⟨-, rfl⟩) |
    ⟨-, rfl⟩) | ⟨-, rfl⟩
  · exact ⟨.flag, rfl, b, rfl⟩
  · exact ⟨.list .text, rfl, htexts _⟩
  · exact ⟨.list .text, rfl, htexts _⟩
  · exact ⟨.list .text, rfl, htexts _⟩
  · exact ⟨.flag, rfl, true, rfl⟩
  · exact ⟨.list .text, rfl, htexts _⟩
  · exact ⟨.table (.table .any), rfl, hoptions⟩
  · exact ⟨.list .text, rfl, htexts _⟩

/-- All texts are valid UTF-8, and the options of rules are ordinary values with distinct names. -/
def isOrdinary (c : Config) : Bool := c.toPairs.all (·.2.isOrdinary)

/-- Whether the texts are read back as they are written. -/
def isLegible (c : Config) : Bool := c.toPairs.all (·.2.isLegible false 0)

/-- Whether a reader goes deep enough for the values. -/
def isShallow (c : Config) : Bool := c.toPairs.all (·.2.depth < Lexer.maxDepth)

/-- Configurations that differ at most in the order of options. -/
structure Same (c d : Config) : Prop where
  followLinks : c.followLinks = d.followLinks
  extensions : c.extensions = d.extensions
  filenames : c.filenames = d.filenames
  excludes : c.excludes = d.excludes
  addFiles : c.addFiles = d.addFiles
  rulePaths : c.rulePaths = d.rulePaths
  ruleOptions : (optionsValue c.ruleOptions).Same (optionsValue d.ruleOptions)
  disabledRules : c.disabledRules = d.disabledRules

end Config

namespace Value.Same

theorem eq_texts {vs : List Value} {items : List Bytes}
    (h : List.Forall₂ Same vs (items.map .string)) : vs = items.map .string := by
  rw [List.forall₂_map_right_iff] at h
  induction h with
  | nil => rfl
  | cons hv _ ih =>
    cases hv
    rw [ih, List.map_cons]

theorem eq_list {v : Value} {items : List Bytes} (h : v.Same (.list (items.map .string))) :
    v = .list (items.map .string) := by
  cases h with
  | refl => rfl
  | list hitems => rw [eq_texts hitems]

theorem exists_named {pairs sorted : List (Value × Value)} {kvs : List (Bytes × Value)}
    (hkeys : pairs.map Prod.fst = sorted.map Prod.fst)
    (hvalues : List.Forall₂ Same (pairs.map Prod.snd) (sorted.map Prod.snd))
    (hs : ∀ p ∈ sorted, p ∈ kvs.map pairOf) :
    ∃ kvs' : List (Bytes × Value), pairs = kvs'.map pairOf ∧
      ∀ kv' ∈ kvs', ∃ kv ∈ kvs, kv'.2.Same kv.2 := by
  rw [List.forall₂_map_left_iff, List.forall₂_map_right_iff] at hvalues
  induction hvalues with
  | nil => exact ⟨[], rfl, by simp⟩
  | @cons p q pairs sorted hpq _ ih =>
    rw [List.map_cons, List.map_cons, List.cons.injEq] at hkeys
    obtain ⟨hq, hrest⟩ := List.forall_mem_cons.mp hs
    obtain ⟨kv, hkv, rfl⟩ := List.mem_map.mp hq
    obtain ⟨kvs', rfl, hkvs'⟩ := ih hkeys.2 hrest
    refine ⟨(kv.1, p.2) :: kvs', ?_, List.forall_mem_cons.mpr ⟨⟨kv, hkv, hpq⟩, hkvs'⟩⟩
    rw [List.map_cons, pairOf, ← Prod.eta p]
    simp only [hkeys.1, pairOf]

/-- What is the same as a table of named values is one. -/
theorem named {v : Value} {kvs : List (Bytes × Value)} (h : v.Same (.map (kvs.map pairOf))) :
    ∃ kvs' : List (Bytes × Value), v = .map (kvs'.map pairOf) ∧
      ∀ kv' ∈ kvs', ∃ kv ∈ kvs, kv'.2.Same kv.2 := by
  cases h with
  | refl => exact ⟨kvs, rfl, fun kv hkv => ⟨kv, hkv, .refl _⟩⟩
  | map hkeys hvalues hperm =>
    obtain ⟨kvs', rfl, hkvs'⟩ := exists_named hkeys hvalues fun p hp => hperm.mem_iff.mp hp
    exact ⟨kvs', rfl, hkvs'⟩

end Value.Same

namespace Config

open Yaml

theorem namedOf_map (kvs : List (Bytes × Value)) : namedOf (.map (kvs.map Value.pairOf)) = kvs := by
  simp [namedOf, Value.pairOf, textOf, Function.comp_def]

theorem lookup_alike {kvs kvs' : List (Bytes × Value)} (h : List.Forall₂ Document.Alike kvs' kvs)
    (k : Bytes) : Option.Rel Value.Same (kvs'.lookup k) (kvs.lookup k) := by
  induction h with
  | nil => exact .none
  | @cons kv' kv _ _ hkv _ ih =>
    obtain ⟨k', v'⟩ := kv'
    obtain ⟨_, v⟩ := kv
    obtain ⟨rfl, hsame⟩ := hkv
    rw [List.lookup_cons, List.lookup_cons]
    cases k == k' with
    | true => exact .some hsame
    | false => exact ih

theorem optionsValue_eq (options : List (Bytes × Settings)) :
    optionsValue options =
      .map ((options.map fun o => (o.1, Value.map (o.2.map Value.pairOf))).map Value.pairOf) := by
  rw [optionsValue, List.map_map]
  rfl

/-- The options of rules that are read from a value which is the same as theirs. -/
theorem optionsValue_namedOf {v : Value} {options : List (Bytes × Settings)}
    (h : v.Same (optionsValue options)) :
    optionsValue ((namedOf v).map fun kv => (kv.1, namedOf kv.2)) = v := by
  rw [optionsValue_eq] at h
  obtain ⟨kvs, rfl, hkvs⟩ := h.named
  have hsettings : ∀ kv ∈ kvs, (kv.1, Value.map ((namedOf kv.2).map Value.pairOf)) = kv := by
    intro kv hkv
    obtain ⟨kv', hkv', hsame⟩ := hkvs kv hkv
    obtain ⟨o, -, rfl⟩ := List.mem_map.mp hkv'
    obtain ⟨settings, heq, -⟩ := hsame.named
    rw [heq, namedOf_map, ← heq]
  have hmap : ((kvs.map fun kv => (kv.1, namedOf kv.2)).map fun o =>
      (o.1, Value.map (o.2.map Value.pairOf))) = kvs := by
    rw [List.map_map]
    exact (List.map_congr_left hsettings).trans (List.map_id kvs)
  rw [namedOf_map, optionsValue_eq, hmap]

theorem textsOf_of_rel {o : Option Value} {items : List Bytes}
    (h : Option.Rel Value.Same o (listValue items)) : textsOf o = items := by
  cases items with
  | nil => cases h; rfl
  | cons s items =>
    cases h with
    | some h =>
      rw [h.eq_list, textsOf, List.map_map]
      exact List.map_id (s :: items)

theorem flagOf_of_rel {o : Option Value} {b : Option Bool}
    (h : Option.Rel Value.Same o (b.map .bool)) : flagOf o = b := by
  cases b with
  | none => cases h; rfl
  | some b =>
    cases h with
    | some h => cases h; rfl

theorem addFiles_of_rel {o : Option Value} {b : Bool}
    (h : Option.Rel Value.Same o (if b then some (.bool true) else none)) :
    (flagOf o).getD false = b := by
  cases b with
  | false => cases h; rfl
  | true =>
    cases h with
    | some h => cases h; rfl

theorem ruleOptions_of_rel {o : Option Value} {options : List (Bytes × Settings)}
    (h : Option.Rel Value.Same o (if options.isEmpty then none else some (optionsValue options))) :
    (optionsValue ((namedOf (o.getD .null)).map fun kv => (kv.1, namedOf kv.2))).Same
      (optionsValue options) := by
  cases options with
  | nil =>
    cases h
    exact .refl _
  | cons first rest =>
    cases h with
    | some h =>
      rw [Option.getD_some, optionsValue_namedOf h]
      exact h

/-- What was read of every field gives the configuration. -/
theorem same_ofValue {c : Config} {kvs : List (Bytes × Value)}
    (h : List.Forall₂ Document.Alike kvs c.toPairs) :
    (ofValue (.map (kvs.map Value.pairOf))).Same c := by
  have hfield {k : Bytes} {o : Option Value} (hk : (k, o) ∈ c.fieldValues) :
      Option.Rel Value.Same (kvs.lookup k) o := lookup_toPairs hk ▸ lookup_alike h k
  have htexts {k : Bytes} {items : List Bytes} (hk : (k, listValue items) ∈ c.fieldValues) :
      textsOf (kvs.lookup k) = items := textsOf_of_rel (hfield hk)
  rw [ofValue, namedOf_map]
  exact {
    followLinks := flagOf_of_rel (hfield (by simp [fieldValues]))
    extensions := htexts (by simp [fieldValues])
    filenames := htexts (by simp [fieldValues])
    excludes := htexts (by simp [fieldValues])
    addFiles := addFiles_of_rel (hfield (by simp [fieldValues]))
    rulePaths := htexts (by simp [fieldValues])
    ruleOptions := ruleOptions_of_rel (hfield (by simp [fieldValues]))
    disabledRules := htexts (by simp [fieldValues]) }

/-- The names of the fields are read back as they are. -/
theorem key_of_mem {c : Config} {kv : Bytes × Value} (h : kv ∈ c.toPairs) :
    (Utf8.isValid kv.1 = true ∧ kv.1 ≠ utf8 "<<") ∧ Scalar.opensWell true kv.1 = true := by
  have hkeys : ∀ k ∈ [followLinksKey, extensionsKey, filenamesKey, excludesKey, addFilesKey,
      rulePathsKey, ruleOptionsKey, disabledRulesKey],
      (Utf8.isValid k = true ∧ k ≠ utf8 "<<") ∧ Scalar.opensWell true k = true := by decide +kernel
  refine hkeys kv.1 ((sublist_filterMap c.fieldValues).subset ?_)
  rw [← toPairs_eq]
  exact List.mem_map_of_mem h

theorem legible_toPairs {c : Config} (ho : c.isOrdinary = true) (hl : c.isLegible = true) :
    Document.PairsLegible 0 (c.toPairs.map Document.pairOf) := by
  rw [isOrdinary, List.all_eq_true] at ho
  rw [isLegible, List.all_eq_true] at hl
  rw [Document.pairsLegible_iff, List.forall_mem_map]
  intro kv hkv
  obtain ⟨⟨hvalid, -⟩, hopens⟩ := key_of_mem hkv
  exact Document.legible_pairOf hvalid hopens (Document.legible_ofValue (ho kv hkv) (hl kv hkv))

/-- The node of a configuration file is decoded to the fields of the configuration. -/
theorem toPairs_decode {c : Config} (ho : c.isOrdinary = true) (hl : c.isLegible = true)
    {ps : List (Yaml.Node × Yaml.Node)} (h : Document.PairsShown (c.toPairs.map Document.pairOf) ps)
    {fuel : Nat} (hf : 2 * (Document.mapping (c.toPairs.map Document.pairOf)).depth + 3 ≤ fuel)
    (line : Nat) (tag : Tag) :
    ∃ kvs, List.Forall₂ Document.Alike kvs c.toPairs ∧
      Decoder.Gives (Decoder.node fuel false shape (.mapping line tag ps))
        (some (.map (kvs.map Value.pairOf))) := by
  rw [isOrdinary, List.all_eq_true] at ho
  rw [isLegible, List.all_eq_true] at hl
  obtain ⟨name, fields, hshape, hholds⟩ := c.exists_shape
  obtain ⟨fuel, rfl⟩ : ∃ f, fuel = f + 3 := ⟨fuel - 3, by omega⟩
  have htarget : Decoder.Target.ofShape? shape ps = some (.record (utf8 name) fields) := by
    rw [hshape]
    rfl
  refine Document.mapping_decodes h (fun kv hkv => (key_of_mem hkv).1) c.nodup_toPairs
    (fun _ => htarget) rfl fun kv hkv n hn => ?_
  obtain ⟨s, hs, hsv⟩ := hholds kv hkv
  have hlt : (Document.ofValue kv.2).depth <
      (Document.mapping (c.toPairs.map Document.pairOf)).depth :=
    Document.depth_mapping_le_iff.mp le_rfl _ (List.mem_map_of_mem (f := Document.pairOf) hkv)
  have hfuel : 2 * (Document.ofValue kv.2).depth + 3 ≤ fuel + 1 := by omega
  obtain ⟨v, hsame, hgives⟩ :=
    Document.ofValue_decodes (ho kv hkv) (hl kv hkv) hn hsv hfuel
  exact ⟨s, v, hs, hsame, hgives⟩

theorem depth_toPairs {c : Config} (ho : c.isOrdinary = true) (hs : c.isShallow = true) :
    (Document.mapping (c.toPairs.map Document.pairOf)).depth ≤ Lexer.maxDepth := by
  rw [isOrdinary, List.all_eq_true] at ho
  simp only [isShallow, List.all_eq_true, decide_eq_true_eq] at hs
  refine Document.depth_mapping_le_iff.mpr (List.forall_mem_map.mpr fun kv hkv => ?_)
  exact (Document.depth_ofValue_le (ho kv hkv)).trans_lt (hs kv hkv)

/-- A configuration that is written is read back. -/
theorem parse_render {c : Config} (ho : c.isOrdinary = true) (hs : c.isShallow = true)
    (hl : c.isLegible = true) : ∃ c', parse c.render = .ok c' ∧ c'.Same c := by
  have hdocument : c.toDocument = .mapping (c.toPairs.map Document.pairOf) := rfl
  cases hpairs : c.toPairs with
  | nil =>
    have hparse : parse (Document.mapping []).render = .ok (ofValue (.map [])) :=
      parse_eq_of_fields rfl (by decide +kernel)
    have hnone : List.Forall₂ Document.Alike [] c.toPairs := by rw [hpairs]; exact .nil
    rw [render, hdocument, hpairs]
    exact ⟨_, hparse, same_ofValue hnone⟩
  | cons kv kvs =>
    have hlegible := legible_toPairs ho hl
    have hdepth := depth_toPairs ho hs
    rw [hpairs, List.map_cons] at hlegible hdepth
    obtain ⟨n, hn, htext, hlength⟩ := Document.ofText_render hlegible hdepth
    rw [← List.map_cons, ← hpairs, ← hdocument] at hn htext hlength
    rw [hdocument, Document.Shown] at hn
    obtain ⟨line, ps, rfl, hps⟩ := hn
    -- The bound on the depth of nodes is never reached: every level takes a character at least.
    have hfuel : 2 * (Document.mapping (c.toPairs.map Document.pairOf)).depth + 3 ≤
        4 * (c.toDocument.render.length + 4) := by
      rw [← hdocument]
      omega
    obtain ⟨kvs', halike, hgives⟩ := toPairs_decode ho hl hps hfuel line .map
    obtain ⟨visits, hrun⟩ := hgives { visits := 1 } rfl
    refine ⟨_, ?_, same_ofValue halike⟩
    rw [parse, render, decode, htext]
    simp only [hrun]
    rfl

/-- A configuration with texts that look like other things. -/
def deceptive : Config where
  followLinks := some false
  extensions := [utf8 "1.0", utf8 "yes", utf8 "~", []]
  excludes := [utf8 "a: b # c", utf8 " padded ", utf8 "<<", utf8 "a\n  b\n\n"]
  addFiles := true
  ruleOptions := [(utf8 "on", [(utf8 "z10", .int (-9223372036854775808)),
    (utf8 "z9", .list [.null, .bool false, .string (utf8 "true"), .list [], .map []]),
    (utf8 "two\nlines", .string (utf8 "  one\n  two"))])]

theorem parse_render_deceptive :
    deceptive.isOrdinary = true ∧ ∃ c', parse deceptive.render = .ok c' ∧ c'.Same deceptive :=
  ⟨by decide +kernel, parse_render (by decide +kernel) (by decide +kernel) (by decide +kernel)⟩

/-- Configurations that are not read back: with a text that is a line break or starts with a space
or a tab, and with an option whose name is `<<`. -/
def lost : List Config :=
  [{ excludes := [utf8 "\n"] }, { excludes := [utf8 "  a\n  b"] }, { excludes := [utf8 "\ta\nb"] },
    { ruleOptions := [(utf8 "r", [(utf8 "<<", .null)])] }]

theorem lost_not_restored : lost.all (fun c => c.isOrdinary && c.isShallow) = true ∧
    ∀ c ∈ lost, ¬ ∃ c', parse c.render = .ok c' ∧ c'.Same c := by
  have hlost : ∀ c ∈ lost,
      (parse c.render).toOption.all (fun d => d.excludes ≠ c.excludes) = true := by decide +kernel
  refine ⟨by decide +kernel, ?_⟩
  rintro c hc ⟨c', hparse, hsame⟩
  have hdiffer := hlost c hc
  simp only [hparse, Except.toOption, Option.all_some, decide_eq_true_eq] at hdiffer
  exact hdiffer hsame.excludes

end Config

end Linewise
