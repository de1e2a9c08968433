import Linewise.Proofs.LayerLaws
import Linewise.Registry.Operation
import Mathlib.Data.List.Nodup

/-!
# Histories of a registry

A registry keeps its rules twice, in a list and by their ids. Whatever is asked of it, the two agree:
the list has the rules whose registration succeeded, in that order, no id occurs twice, and the rule
found under an id is the one in the list. Requests that are refused, and whatever is done to the lists
handed out, change nothing, and a sealed registry stays as it is.
-/

namespace Linewise

/-- The id of the rule that was refused. -/
def RegistryError.id : RegistryError → Bytes
  | alreadySealed id => id
  | duplicate id => id

namespace Registry

variable {r r' : Registry} {rule : Rule} {e : RegistryError}

/-- The list and the ids tell the same, and no id is taken twice. -/
structure Agrees (r : Registry) : Prop where
  byId_eq : r.byId = (r.rules.map fun rule => (rule.id, rule)).reverse
  distinct : (r.rules.map Rule.id).Nodup

theorem agrees_new : Agrees {} := ⟨rfl, .nil⟩

/-- What is found under an id is the rule in the list that has it. -/
theorem Agrees.get?_eq_some_iff (h : r.Agrees) (id : Bytes) (rule : Rule) :
    r.get? id = some rule ↔ rule ∈ r.rules ∧ rule.id = id := by
  have hkeys : (r.byId.map Prod.fst).Nodup := by
    rw [h.byId_eq, List.map_reverse, List.nodup_reverse, List.map_map]
    exact h.distinct
  have hmem : (id, rule) ∈ r.byId ↔ rule ∈ r.rules ∧ rule.id = id := by
    rw [h.byId_eq, List.mem_reverse, List.mem_map]
    constructor
    · rintro ⟨rule, hrule, heq⟩
      cases heq
      exact ⟨hrule, rfl⟩
    · rintro ⟨hrule, rfl⟩
      exact ⟨rule, hrule, rfl⟩
  exact ⟨fun hget => hmem.mp (Config.mem_of_lookup hget),
    fun hrule => Config.lookup_of_mem hkeys (hmem.mpr hrule)⟩

theorem Agrees.isSome_get?_iff (h : r.Agrees) (id : Bytes) :
    (r.get? id).isSome = true ↔ id ∈ r.rules.map Rule.id := by
  simp only [Option.isSome_iff_exists, h.get?_eq_some_iff, List.mem_map]

/-! ## Registration -/

/-- The three ways in which a registration goes. -/
theorem Agrees.register_cases (h : r.Agrees) (rule : Rule) :
    (r.isSealed = true ∧ r.register rule = .error (.alreadySealed rule.id)) ∨
    (r.isSealed = false ∧ rule.id ∈ r.rules.map Rule.id ∧
      r.register rule = .error (.duplicate rule.id)) ∨
    (r.isSealed = false ∧ rule.id ∉ r.rules.map Rule.id ∧
      r.register rule =
        .ok { r with rules := r.rules ++ [rule], byId := (rule.id, rule) :: r.byId }) := by
  unfold register
  by_cases hs : r.isSealed = true
  · exact .inl ⟨hs, if_pos hs⟩
  · rw [if_neg hs]
    rw [Bool.not_eq_true] at hs
    by_cases htaken : rule.id ∈ r.rules.map Rule.id
    · exact .inr (.inl ⟨hs, htaken, if_pos ((h.isSome_get?_iff _).mpr htaken)⟩)
    · exact .inr (.inr ⟨hs, htaken, if_neg (mt (h.isSome_get?_iff _).mp htaken)⟩)

theorem register_sealed (h : r.isSealed = true) (rule : Rule) :
    r.register rule = .error (.alreadySealed rule.id) := if_pos h

theorem registerAll_sealed (h : r.isSealed = true) (rules : List Rule) :
    (r.registerAll rules).1 = r := by
  cases rules with
  | nil => rfl
  | cons rule rest => rw [registerAll, register_sealed h]

theorem register_error_id (h : r.register rule = .error e) : e.id = rule.id := by
  unfold register at h
  split at h
  · cases h
    rfl
  · split at h
    · cases h
      rfl
    · cases h

/-- How a registry has changed: rules were added at the end, and it was closed or not. -/
structure Grows (r : Registry) (added : List Rule) (closed : Prop) (r' : Registry) : Prop where
  agrees : r'.Agrees
  rules_eq : r'.rules = r.rules ++ added
  isSealed_iff : r'.isSealed = true ↔ r.isSealed = true ∨ closed

theorem Agrees.grows (h : r.Agrees) : Grows r [] False r :=
  ⟨h, (List.append_nil _).symm, (or_iff_left id).symm⟩

theorem Grows.trans {added added' : List Rule} {closed closed' : Prop} {r'' : Registry}
    (h : Grows r added closed r') (h' : Grows r' added' closed' r'') :
    Grows r (added ++ added') (closed ∨ closed') r'' where
  agrees := h'.agrees
  rules_eq := by rw [h'.rules_eq, h.rules_eq, List.append_assoc]
  isSealed_iff := by rw [h'.isSealed_iff, h.isSealed_iff, or_assoc]

theorem Agrees.grows_register (h : r.Agrees) (hr : r.register rule = .ok r') :
    Grows r [rule] False r' := by
  rcases h.register_cases rule with ⟨-, heq⟩ | ⟨-, -, heq⟩ | ⟨-, hnew, heq⟩
  · rw [heq] at hr
    cases hr
  · rw [heq] at hr
    cases hr
  · rw [heq] at hr
    cases hr
    refine ⟨⟨by simp [h.byId_eq], ?_⟩, rfl, (or_iff_left id).symm⟩
    rw [List.map_append]
    exact h.distinct.append (List.nodup_singleton _) (by simpa using hnew)

theorem Agrees.grows_close (h : r.Agrees) : Grows r [] True r.close :=
  ⟨⟨h.byId_eq, h.distinct⟩, (List.append_nil _).symm, by simp [close]⟩

/-- Rules are registered one by one: all of them, or those before the first that is refused. -/
theorem Agrees.grows_registerAll (h : r.Agrees) (rules : List Rule) :
    ∃ kept, Grows r kept False (r.registerAll rules).1 ∧
      ((r.registerAll rules).2 = none → kept = rules) ∧
      ∀ e, (r.registerAll rules).2 = some e → ∃ refused rest,
        rules = kept ++ refused :: rest ∧ (r.registerAll rules).1.register refused = .error e := by
  induction rules generalizing r with
  | nil => exact ⟨[], h.grows, fun _ => rfl, nofun⟩
  | cons rule rest ih =>
    simp only [registerAll]
    cases hr : r.register rule with
    | error e =>
      refine ⟨[], h.grows, nofun, fun e' he => ?_⟩
      cases he
      exact ⟨rule, rest, rfl, hr⟩
    | ok r' =>
      have hrule := h.grows_register hr
      obtain ⟨kept, hkept, hall, hupTo⟩ := ih hrule.agrees
      refine ⟨rule :: kept, ?_, fun hnone => by rw [hall hnone], fun e he => ?_⟩
      · simpa only [List.singleton_append, or_false] using hrule.trans hkept
      · obtain ⟨refused, rest', hrest, hrefused⟩ := hupTo e he
        exact ⟨refused, rest', by rw [hrest, List.cons_append], hrefused⟩

/-! ## Histories -/

/-- The rules that an operation registered, told by the answer to it. -/
def Operation.registered : Operation → Reply → List Rule
  | .register rule, .registered .none => [rule]
  | .registerStandard tabWidth, .registered .none => standardRules tabWidth
  | .registerStandard tabWidth, .registered (some e) =>
    (standardRules tabWidth).takeWhile fun rule => rule.id != e.id
  | _, _ => []

theorem nodup_standardRules (tabWidth : Int) : ((standardRules tabWidth).map Rule.id).Nodup := by
  have hids : (standardRules tabWidth).map Rule.id = [Whitespace.id, Filename.rule.id, Header.id,
      LinePattern.idTag.id, LinePattern.aceError.id, LinePattern.exitKeyword.id,
      LinePattern.namespaceMacro.id, ExecutableBit.rule.id] := rfl
  rw [hids]
  decide

/-- Of rules with distinct ids, those before one are those before its id. -/
theorem takeWhile_id_ne {rules kept rest : List Rule} {refused : Rule}
    (hids : (rules.map Rule.id).Nodup) (hrules : rules = kept ++ refused :: rest) :
    (rules.takeWhile fun rule => rule.id != refused.id) = kept := by
  subst hrules
  rw [List.takeWhile_append_of_pos, List.takeWhile_cons_of_neg (by simp), List.append_nil]
  intro rule hrule
  rw [List.map_append, List.map_cons] at hids
  have hne := List.disjoint_of_nodup_append hids (List.mem_map_of_mem hrule)
  simpa using fun heq : rule.id = refused.id => hne (heq ▸ List.mem_cons_self)

namespace Usage

variable {u : Usage}

theorem grows_perform (h : u.registry.Agrees) (op : Operation) :
    Grows u.registry (op.registered (u.perform op).2) (op = .close) (u.perform op).1.registry := by
  cases op with
  | register rule =>
    unfold perform
    cases hr : u.registry.register rule with
    | ok r => simpa [hr, Operation.registered] using h.grows_register hr
    | error e => simpa [hr, Operation.registered] using h.grows
  | registerStandard tabWidth =>
    obtain ⟨kept, hkept, hall, hupTo⟩ := h.grows_registerAll (standardRules tabWidth)
    have hadded : Operation.registered (.registerStandard tabWidth)
        (u.perform (.registerStandard tabWidth)).2 = kept := by
      change Operation.registered (.registerStandard tabWidth)
        (.registered (u.registry.registerAll (standardRules tabWidth)).2) = kept
      cases he : (u.registry.registerAll (standardRules tabWidth)).2 with
      | none => exact (hall he).symm
      | some e =>
        obtain ⟨refused, rest, hrules, hrefused⟩ := hupTo e he
        rw [← takeWhile_id_ne (nodup_standardRules tabWidth) hrules,
          ← register_error_id hrefused]
        rfl
    rw [hadded]
    simpa [perform] using hkept
  | close => simpa [perform, Operation.registered] using h.grows_close
  | get | list | overwrite => simpa [perform, Operation.registered] using h.grows

/-- The rules registered along a history, told by the answers. -/
def registered (ops : List Operation) (replies : List Reply) : List Rule :=
  (List.zipWith Operation.registered ops replies).flatten

theorem grows_performAll (h : u.registry.Agrees) (ops : List Operation) :
    Grows u.registry (registered ops (u.performAll ops).2) (.close ∈ ops)
      (u.performAll ops).1.registry := by
  induction ops generalizing u with
  | nil => simpa [performAll, registered] using h.grows
  | cons op ops ih =>
    have hop := grows_perform h op
    have hrun := hop.trans (ih hop.agrees)
    rw [List.mem_cons, eq_comm]
    exact hrun

theorem perform_sealed (h : u.registry.isSealed = true) (op : Operation) :
    (u.perform op).1.registry = u.registry := by
  cases op with
  | register rule => simp only [perform, register_sealed h]
  | registerStandard tabWidth => exact registerAll_sealed h (standardRules tabWidth)
  | close =>
    change u.registry.close = u.registry
    rw [close, ← h]
  | get | list | overwrite => rfl

theorem performAll_sealed (h : u.registry.isSealed = true) (ops : List Operation) :
    (u.performAll ops).1.registry = u.registry := by
  induction ops generalizing u with
  | nil => rfl
  | cons op ops ih =>
    have hop := perform_sealed h op
    exact (ih (hop.symm ▸ h)).trans hop

/-- What a registry says and does after any history from its beginning. -/
theorem performAll_accounts (ops : List Operation) :
    let (u, replies) := ({} : Usage).performAll ops
    let r := u.registry
    (u.perform .list).2 = .rules r.rules ∧
      (∀ id, (u.perform (.get id)).2 = .found (r.get? id)) ∧
      r.rules = registered ops replies ∧
      (r.rules.map Rule.id).Nodup ∧
      (∀ id rule, r.get? id = some rule ↔ rule ∈ r.rules ∧ rule.id = id) ∧
      (r.isSealed = true ↔ .close ∈ ops) ∧
      (r.isSealed = true → ∀ more, (u.performAll more).1.registry = r) ∧
      (∀ rule,
        let (u', reply) := u.perform (.register rule)
        (reply = .registered (some (.alreadySealed rule.id)) ↔ r.isSealed = true) ∧
          (reply = .registered (some (.duplicate rule.id)) ↔
            r.isSealed = false ∧ rule.id ∈ r.rules.map Rule.id) ∧
          (reply = .registered none ↔ r.isSealed = false ∧ rule.id ∉ r.rules.map Rule.id) ∧
          (reply ≠ .registered none → u' = u)) ∧
      ∀ tabWidth,
        let (u', reply) := u.perform (.registerStandard tabWidth)
        (reply = .registered none ∧ u'.registry.rules = r.rules ++ standardRules tabWidth) ∨
          ∃ e kept refused rest, reply = .registered (some e) ∧
            standardRules tabWidth = kept ++ refused :: rest ∧
            u'.registry.rules = r.rules ++ kept ∧ u'.registry.register refused = .error e := by
  have hrun := grows_performAll (u := {}) agrees_new ops
  generalize ({} : Usage).performAll ops = run at hrun ⊢
  obtain ⟨u, replies⟩ := run
  have h : u.registry.Agrees := hrun.agrees
  refine ⟨rfl, fun _ => rfl, hrun.rules_eq, h.distinct, h.get?_eq_some_iff,
    by simpa using hrun.isSealed_iff, performAll_sealed, fun rule => ?_, fun tabWidth => ?_⟩
  · unfold perform
    rcases h.register_cases rule with ⟨hs, heq⟩ | ⟨hs, hid, heq⟩ | ⟨hs, hid, heq⟩
    · simp [heq, hs]
    · simp [heq, hs, hid]
    · simp [heq, hs, hid]
  · obtain ⟨kept, hkept, hall, hupTo⟩ := h.grows_registerAll (standardRules tabWidth)
    simp only [perform]
    cases he : (u.registry.registerAll (standardRules tabWidth)).2 with
    | none => exact .inl ⟨rfl, hkept.rules_eq.trans (by rw [hall he])⟩
    | some e =>
      obtain ⟨refused, rest, hrules, hrefused⟩ := hupTo e he
      exact .inr ⟨e, kept, refused, rest, rfl, hrules, hkept.rules_eq, hrefused⟩

end Usage

end Registry

end Linewise
