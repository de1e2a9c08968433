import Linewise.Proofs.LayerMerging

/-!
# The laws of merging

Merging layers is associative, so layers can be merged in any grouping, and merging a layer once more
changes nothing. Options of rules are tables in tables, and what is done to one entry is the same on
both levels: the entry of the upper table is joined with what the lower one has under its name.
-/

namespace Linewise.Config

/-! ## Tables of named things -/

section Tables

variable {α : Type} {n m : Bytes} {x y : α} {xs : List (Bytes × α)}

@[simp] theorem setNamed_nil (n : Bytes) (x : α) : setNamed n x [] = [(n, x)] := rfl

theorem setNamed_cons_self (n : Bytes) (x y : α) (xs : List (Bytes × α)) :
    setNamed n x ((n, y) :: xs) = (n, x) :: xs := by
  simp [setNamed]

theorem setNamed_cons_of_ne (h : m ≠ n) (x y : α) (xs : List (Bytes × α)) :
    setNamed n x ((m, y) :: xs) = (m, y) :: setNamed n x xs := by
  simp [setNamed, h]

theorem setNamed_setNamed (n : Bytes) (x y : α) (xs : List (Bytes × α)) :
    setNamed n x (setNamed n y xs) = setNamed n x xs := by
  induction xs with
  | nil => exact setNamed_cons_self ..
  | cons entry xs ih =>
    obtain ⟨k, z⟩ := entry
    by_cases h : k = n
    · subst h
      simp only [setNamed_cons_self]
    · simp only [setNamed_cons_of_ne h, ih]

/-- A name that is there keeps its place, so names can be set in any order. -/
theorem setNamed_comm (h : n ≠ m) (hn : n ∈ xs.map Prod.fst) (x y : α) :
    setNamed n x (setNamed m y xs) = setNamed m y (setNamed n x xs) := by
  induction xs with
  | nil => cases hn
  | cons entry xs ih =>
    obtain ⟨k, z⟩ := entry
    by_cases hkn : k = n
    · subst hkn
      rw [setNamed_cons_of_ne h, setNamed_cons_self, setNamed_cons_self, setNamed_cons_of_ne h]
    · have hxs : n ∈ xs.map Prod.fst := by simpa [Ne.symm hkn] using hn
      rw [setNamed_cons_of_ne hkn]
      by_cases hkm : k = m
      · subst hkm
        rw [setNamed_cons_self, setNamed_cons_self, setNamed_cons_of_ne hkn]
      · rw [setNamed_cons_of_ne hkm, setNamed_cons_of_ne hkm, setNamed_cons_of_ne hkn, ih hxs]

theorem setNamed_of_notMem (h : n ∉ xs.map Prod.fst) (x : α) : setNamed n x xs = xs ++ [(n, x)] := by
  induction xs with
  | nil => rfl
  | cons entry xs ih =>
    obtain ⟨k, y⟩ := entry
    rw [List.map_cons, List.mem_cons, not_or] at h
    rw [setNamed_cons_of_ne (Ne.symm h.1), ih h.2, List.cons_append]

theorem setNamed_of_lookup (h : xs.lookup n = some x) : setNamed n x xs = xs := by
  induction xs with
  | nil => cases h
  | cons entry xs ih =>
    obtain ⟨k, y⟩ := entry
    rw [lookup_cons_eq_ite] at h
    by_cases hk : n = k
    · subst hk
      rw [if_pos rfl, Option.some.injEq] at h
      rw [setNamed_cons_self, h]
    · rw [if_neg hk] at h
      rw [setNamed_cons_of_ne (Ne.symm hk), ih h]

theorem mem_names_setNamed : m ∈ (setNamed n x xs).map Prod.fst ↔ m = n ∨ m ∈ xs.map Prod.fst := by
  induction xs with
  | nil => simp
  | cons entry xs ih =>
    obtain ⟨k, y⟩ := entry
    by_cases hk : k = n
    · subst hk
      simp [setNamed_cons_self]
    · simp only [setNamed_cons_of_ne hk, List.map_cons, List.mem_cons, ih]
      exact or_left_comm

theorem nodup_setNamed (h : (xs.map Prod.fst).Nodup) (n : Bytes) (x : α) :
    ((setNamed n x xs).map Prod.fst).Nodup := by
  induction xs with
  | nil => simp
  | cons entry xs ih =>
    obtain ⟨k, y⟩ := entry
    obtain ⟨hk, hxs⟩ := List.nodup_cons.mp h
    by_cases hkn : k = n
    · subst hkn
      rw [setNamed_cons_self]
      exact h
    · rw [setNamed_cons_of_ne hkn, List.map_cons, List.nodup_cons, mem_names_setNamed]
      exact ⟨not_or.mpr ⟨hkn, hk⟩, ih hxs⟩

theorem mem_of_lookup (h : xs.lookup n = some x) : (n, x) ∈ xs := by
  induction xs with
  | nil => cases h
  | cons entry xs ih =>
    obtain ⟨k, y⟩ := entry
    rw [lookup_cons_eq_ite] at h
    by_cases hk : n = k
    · subst hk
      rw [if_pos rfl, Option.some.injEq] at h
      exact h ▸ List.mem_cons_self
    · rw [if_neg hk] at h
      exact List.mem_cons_of_mem _ (ih h)

theorem lookup_of_mem (hxs : (xs.map Prod.fst).Nodup) (h : (n, x) ∈ xs) :
    xs.lookup n = some x := by
  induction xs with
  | nil => cases h
  | cons entry xs ih =>
    obtain ⟨k, y⟩ := entry
    obtain ⟨hk, hxs⟩ := List.nodup_cons.mp hxs
    rw [lookup_cons_eq_ite]
    rcases List.mem_cons.mp h with heq | hmem
    · cases heq
      exact if_pos rfl
    · have hne : n ≠ k := by
        rintro rfl
        exact hk (List.mem_map.mpr ⟨_, hmem, rfl⟩)
      rw [if_neg hne, ih hxs hmem]

end Tables

/-! ## Joining tables -/

/-- A table: no name occurs twice, and the things that are named are of one kind. -/
structure IsTable {α : Type} (kind : α → Prop) (xs : List (Bytes × α)) : Prop where
  names : (xs.map Prod.fst).Nodup
  values : ∀ entry ∈ xs, kind entry.2

theorem isTable_nil {α : Type} {kind : α → Prop} : IsTable kind [] := ⟨.nil, by simp⟩

/-- A way to join a thing with the one that has its name in a lower table, if there is one. -/
structure Joins {α : Type} (join : Option α → α → α) (kind : α → Prop) : Prop where
  keeps : ∀ {o : Option α} {z : α}, (∀ y ∈ o, kind y) → kind (join o z)
  missing : ∀ o z, join o (join none z) = join o z
  found : ∀ {y}, kind y → ∀ o z, join (some (join o y)) z = join o (join (some y) z)
  alone : ∀ {y}, kind y → join none y = y
  again : ∀ {y}, kind y → join (some y) y = y

section Joining

variable {α : Type} (join : Option α → α → α)

/-- A table with one more entry, joined with what is there under its name. -/
def enter (xs : List (Bytes × α)) (entry : Bytes × α) : List (Bytes × α) :=
  setNamed entry.1 (join (xs.lookup entry.1) entry.2) xs

/-- A table with the entries of another one joined to it. -/
def joinTables (lower upper : List (Bytes × α)) : List (Bytes × α) := upper.foldl (enter join) lower

variable {join} {kind : α → Prop} {n m : Bytes} {x y : α} {xs lower middle upper : List (Bytes × α)}

theorem enter_comm (h : n ≠ m) (hn : n ∈ xs.map Prod.fst) :
    enter join (enter join xs (m, y)) (n, x) = enter join (enter join xs (n, x)) (m, y) := by
  simp only [enter, lookup_setNamed, if_neg h, if_neg h.symm]
  exact setNamed_comm h hn _ _

theorem enter_joinTables (hn : n ∈ lower.map Prod.fst) (hupper : n ∉ upper.map Prod.fst) :
    enter join (joinTables join lower upper) (n, x) =
      joinTables join (enter join lower (n, x)) upper := by
  induction upper generalizing lower with
  | nil => rfl
  | cons entry upper ih =>
    obtain ⟨m, y⟩ := entry
    rw [List.map_cons, List.mem_cons, not_or] at hupper
    calc enter join (joinTables join lower ((m, y) :: upper)) (n, x)
        = joinTables join (enter join (enter join lower (m, y)) (n, x)) upper :=
          ih (mem_names_setNamed.mpr (.inr hn)) hupper.2
      _ = joinTables join (enter join lower (n, x)) ((m, y) :: upper) := by
          rw [enter_comm hupper.1 hn]
          rfl

theorem IsTable.tail {entry : Bytes × α} (h : IsTable kind (entry :: xs)) : IsTable kind xs :=
  ⟨(List.nodup_cons.mp h.names).2, fun e he => h.values e (List.mem_cons_of_mem _ he)⟩

theorem IsTable.enter (hjoin : Joins join kind) (h : IsTable kind xs) (entry : Bytes × α) :
    IsTable kind (enter join xs entry) where
  names := nodup_setNamed h.names _ _
  values e he := by
    obtain ⟨n, z⟩ := entry
    have hlookup := lookup_of_mem (nodup_setNamed h.names _ _) he
    rw [lookup_setNamed] at hlookup
    split at hlookup
    next =>
      rw [← Option.some.inj hlookup]
      exact hjoin.keeps fun y hy => h.values _ (mem_of_lookup hy)
    next => exact h.values _ (mem_of_lookup hlookup)

theorem IsTable.joinTables (hjoin : Joins join kind) (h : IsTable kind lower)
    (upper : List (Bytes × α)) : IsTable kind (joinTables join lower upper) := by
  induction upper generalizing lower with
  | nil => exact h
  | cons entry upper ih => exact ih (h.enter hjoin entry)

/-- An entry comes to the same whether it is joined to the upper one of two tables or to both. -/
theorem joinTables_enter (hjoin : Joins join kind) (h : IsTable kind middle)
    (lower : List (Bytes × α)) (entry : Bytes × α) :
    joinTables join lower (enter join middle entry) =
      enter join (joinTables join lower middle) entry := by
  obtain ⟨n, z⟩ := entry
  induction middle generalizing lower with
  | nil => simp only [enter, joinTables, List.lookup_nil, setNamed_nil, List.foldl, hjoin.missing]
  | cons first middle ih =>
    obtain ⟨m, y⟩ := first
    by_cases hm : m = n
    · subst hm
      have hmiddle : m ∉ middle.map Prod.fst := (List.nodup_cons.mp h.names).1
      have hthere : m ∈ (enter join lower (m, y)).map Prod.fst := mem_names_setNamed.mpr (.inl rfl)
      have hfirst : enter join ((m, y) :: middle) (m, z) = (m, join (some y) z) :: middle := by
        simp only [enter, lookup_cons_eq_ite, if_true, setNamed_cons_self]
      have htwice : enter join (enter join lower (m, y)) (m, z) =
          enter join lower (m, join (some y) z) := by
        simp only [enter, lookup_setNamed, if_true, setNamed_setNamed,
          hjoin.found (h.values _ List.mem_cons_self)]
      rw [hfirst]
      exact (congrArg (joinTables join · middle) htwice).symm.trans
        (enter_joinTables hthere hmiddle).symm
    · have hrest : enter join ((m, y) :: middle) (n, z) = (m, y) :: enter join middle (n, z) := by
        simp only [enter, lookup_cons_eq_ite, if_neg (Ne.symm hm), setNamed_cons_of_ne hm]
      rw [hrest]
      exact ih h.tail (enter join lower (m, y))

theorem joinTables_assoc (hjoin : Joins join kind) (h : IsTable kind middle)
    (lower upper : List (Bytes × α)) :
    joinTables join (joinTables join lower middle) upper =
      joinTables join lower (joinTables join middle upper) := by
  induction upper generalizing middle with
  | nil => rfl
  | cons entry upper ih =>
    calc joinTables join (joinTables join lower middle) (entry :: upper)
        = joinTables join (joinTables join lower (enter join middle entry)) upper := by
          rw [joinTables_enter hjoin h]
          rfl
      _ = joinTables join lower (joinTables join middle (entry :: upper)) :=
          ih (h.enter hjoin entry)

theorem joinTables_of_found (hjoin : Joins join kind) (hupper : ∀ entry ∈ upper, kind entry.2)
    (h : ∀ entry ∈ upper, lower.lookup entry.1 = some entry.2) :
    joinTables join lower upper = lower := by
  induction upper with
  | nil => rfl
  | cons entry upper ih =>
    obtain ⟨hentry, hupper⟩ := List.forall_mem_cons.mp hupper
    obtain ⟨hfirst, hrest⟩ := List.forall_mem_cons.mp h
    have hsame : enter join lower entry = lower := by
      rw [enter, hfirst, hjoin.again hentry, setNamed_of_lookup hfirst]
    calc joinTables join lower (entry :: upper)
        = joinTables join (enter join lower entry) upper := rfl
      _ = lower := by rw [hsame, ih hupper hrest]

theorem joinTables_self (hjoin : Joins join kind) (h : IsTable kind xs) :
    joinTables join xs xs = xs :=
  joinTables_of_found hjoin h.values fun _ he => lookup_of_mem h.names he

theorem joinTables_append (hjoin : Joins join kind) (h : IsTable kind (lower ++ upper)) :
    joinTables join lower upper = lower ++ upper := by
  induction upper generalizing lower with
  | nil => simp [joinTables]
  | cons entry upper ih =>
    obtain ⟨n, x⟩ := entry
    have hnames := h.names
    rw [List.map_append, List.map_cons] at hnames
    have hn : n ∉ lower.map Prod.fst := fun hmem =>
      (List.nodup_append.mp hnames).2.2 n hmem n List.mem_cons_self rfl
    have hnone : lower.lookup n = none :=
      Option.eq_none_iff_forall_ne_some.mpr fun z hz =>
        hn (List.mem_map.mpr ⟨_, mem_of_lookup hz, rfl⟩)
    have hx : kind x := h.values (n, x) (by simp)
    have hlast : enter join lower (n, x) = lower ++ [(n, x)] := by
      rw [enter, hnone, hjoin.alone hx, setNamed_of_notMem hn]
    rw [List.append_cons] at h ⊢
    exact (congrArg (joinTables join · upper) hlast).trans (ih h)

end Joining

/-! ## Options of rules -/

/-- Settings: no option occurs twice. -/
abbrev IsSettings (s : Settings) : Prop := IsTable (fun _ => True) s

/-- Of two values of one option the upper one counts. -/
def joinValues (_ : Option Value) (upper : Value) : Value := upper

/-- Settings of one rule, set over those that it has in a lower table. -/
def joinSettings (lower : Option Settings) (upper : Settings) : Settings :=
  overlay (lower.getD []) upper

theorem overlayOptions_eq (lower upper : List (Bytes × Settings)) :
    overlayOptions lower upper = joinTables joinSettings lower upper :=
  rfl

theorem joins_values : Joins joinValues (fun _ => True) where
  keeps _ := trivial
  missing _ _ := rfl
  found _ _ _ := rfl
  alone _ := rfl
  again _ := rfl

-- Setting options over others is itself a way to join tables, so each law is one of `joinTables`.
theorem joins_settings : Joins joinSettings IsSettings where
  keeps {o z} h := by
    have ho : IsSettings (o.getD []) := by
      cases o with
      | none => exact isTable_nil
      | some y => exact h y rfl
    exact ho.joinTables joins_values z
  missing o z := (joinTables_assoc joins_values isTable_nil (o.getD []) z).symm
  found h o z := joinTables_assoc joins_values h (o.getD []) z
  alone h := joinTables_append joins_values h
  again h := joinTables_self joins_values h

/-! ## Layers -/

/-- In the options of rules neither a rule nor an option of a rule occurs twice. -/
def Tabular (c : Config) : Prop := IsTable IsSettings c.ruleOptions

theorem tabular_iff {c : Config} : c.Tabular ↔ (c.ruleOptions.map Prod.fst).Nodup ∧
    ∀ entry ∈ c.ruleOptions, (entry.2.map Prod.fst).Nodup :=
  ⟨fun h => ⟨h.names, fun entry he => (h.values entry he).names⟩,
    fun h => ⟨h.1, fun entry he => ⟨h.2 entry he, fun _ _ => trivial⟩⟩⟩

/-- No list of texts has a text twice. -/
def Unrepeated (c : Config) : Prop := ∀ field ∈ lists, (field c).Nodup

theorem appendNew_self (xs : List Bytes) : appendNew xs xs = xs :=
  appendNew_of_subset (List.Subset.refl xs)

theorem appendNew_assoc (xs ys zs : List Bytes) :
    appendNew (appendNew xs ys) zs = appendNew xs (appendNew ys zs) := by
  induction zs generalizing ys with
  | nil => rfl
  | cons z zs ih =>
    have hlast : (if z ∈ appendNew xs ys then appendNew xs ys else appendNew xs ys ++ [z]) =
        appendNew xs (if z ∈ ys then ys else ys ++ [z]) := by
      split
      next hz =>
        split
        next => rfl
        next hys =>
          have hsubset : [z] ⊆ appendNew xs ys := by simpa using hz
          rw [appendNew_append, appendNew_of_subset hsubset]
      next hz =>
        have hys : z ∉ ys := fun h => hz (mem_appendNew.mpr (.inr h))
        rw [if_neg hys, appendNew_append, appendNew_cons, if_neg hz, appendNew_nil]
    rw [appendNew_cons, appendNew_cons, hlast, ih]

theorem appendNew_of_nodup {xs ys : List Bytes} (h : (xs ++ ys).Nodup) :
    appendNew xs ys = xs ++ ys := by
  induction ys generalizing xs with
  | nil => exact (List.append_nil xs).symm
  | cons y ys ih =>
    have hy : y ∉ xs := fun hmem => (List.nodup_append.mp h).2.2 y hmem y List.mem_cons_self rfl
    rw [List.append_cons] at h ⊢
    rw [appendNew_cons, if_neg hy, ih h]

variable {a b : Config}

theorem merge_assoc (hb : b.Tabular) (a c : Config) :
    (a.merge b).merge c = a.merge (b.merge c) := by
  have hoptions := joinTables_assoc joins_settings hb a.ruleOptions c.ruleOptions
  simp only [merge, appendNew_assoc, Option.or_assoc, Bool.or_assoc, overlayOptions_eq, hoptions]

theorem merge_self (hb : b.Tabular) : b.merge b = b := by
  have hoptions := joinTables_self joins_settings hb
  simp only [merge, appendNew_self, Option.or_self, Bool.or_self, overlayOptions_eq, hoptions]

theorem empty_merge (ha : a.Tabular) (hlists : a.Unrepeated) : ({} : Config).merge a = a := by
  have hoptions : joinTables joinSettings [] a.ruleOptions = a.ruleOptions :=
    joinTables_append joins_settings ha
  have hlist {field : Config → List Bytes} (hfield : field ∈ lists) :
      appendNew [] (field a) = field a := by
    have hnodup : ([] ++ field a).Nodup := hlists field hfield
    rw [appendNew_of_nodup hnodup, List.nil_append]
  simp only [lists, List.forall_mem_cons] at hlist
  simp [merge, overlayOptions_eq, hoptions, hlist]

theorem tabular_merge (ha : a.Tabular) (b : Config) : (a.merge b).Tabular :=
  IsTable.joinTables joins_settings ha b.ruleOptions

theorem unrepeated_merge (ha : a.Unrepeated) (b : Config) : (a.merge b).Unrepeated :=
  fun field hfield => lists_merge hfield a b ▸ nodup_appendNew (ha field hfield) _

/-- Layers form an idempotent monoid, in which lists without repetition stay so. Since the names of
options keep their order, the laws hold of the order as well. -/
theorem merge_idempotent_monoid {a b : Config} (ha : a.Tabular) (hb : b.Tabular) (c : Config) :
    (a.merge b).merge c = a.merge (b.merge c) ∧
      (∀ nothing ∈ [none, some {}], a.mergeAny nothing = a) ∧
      (a.Unrepeated → ({} : Config).merge a = a) ∧
      (a.merge b).merge b = a.merge b ∧
      (a.Unrepeated → (a.merge b).Unrepeated) ∧ (a.merge b).Tabular := by
  refine ⟨merge_assoc hb a c, ?_, empty_merge ha, ?_, fun h => unrepeated_merge h b,
    tabular_merge ha b⟩
  · simp [mergeAny, merge_empty]
  · rw [merge_assoc hb, merge_self hb]

/-- A layer that names a file type twice and has settings for a rule, and none for another. -/
def repetitive : Config where
  followLinks := some false
  extensions := [utf8 "h", utf8 "c", utf8 "h"]
  ruleOptions := [(utf8 "r", [(utf8 "k", .int 1), (utf8 "l", .null)]), (utf8 "s", [])]

/-- A layer that says something else about the same things. -/
def contrary : Config where
  extensions := [utf8 "c", utf8 "py"]
  addFiles := true
  ruleOptions := [(utf8 "s", [(utf8 "m", .bool true)]), (utf8 "r", [(utf8 "k", .int 2)])]

theorem merge_idempotent_monoid_repetitive :
    contrary.Tabular ∧ repetitive.Tabular ∧
      (contrary.merge repetitive).merge contrary = contrary.merge (repetitive.merge contrary) ∧
      (contrary.merge repetitive).merge repetitive = contrary.merge repetitive := by
  have hcontrary : contrary.Tabular := tabular_iff.mpr (by decide)
  have hrepetitive : repetitive.Tabular := tabular_iff.mpr (by decide)
  obtain ⟨hassoc, -, -, htwice, -⟩ := merge_idempotent_monoid hcontrary hrepetitive contrary
  exact ⟨hcontrary, hrepetitive, hassoc, htwice⟩

end Linewise.Config
