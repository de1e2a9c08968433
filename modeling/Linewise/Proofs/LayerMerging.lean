import Linewise.Config.Basic

/-!
# Merging layers

What layers of configuration merged one over the other come to, field by field: the lists are joined
without repetition, and the rest is as the last layer has it that says something about it.
-/

namespace Linewise

/-! ## Lists without repetition -/

@[simp] theorem appendNew_nil (xs : List Bytes) : appendNew xs [] = xs := rfl

theorem appendNew_cons (xs ys : List Bytes) (y : Bytes) :
    appendNew xs (y :: ys) = appendNew (if y ∈ xs then xs else xs ++ [y]) ys := by
  simp [appendNew]

theorem appendNew_append (xs ys zs : List Bytes) :
    appendNew xs (ys ++ zs) = appendNew (appendNew xs ys) zs :=
  List.foldl_append

theorem eraseDups_concat (xs : List Bytes) (y : Bytes) :
    (xs ++ [y]).eraseDups = if y ∈ xs then xs.eraseDups else xs.eraseDups ++ [y] := by
  rw [List.eraseDups_append]
  by_cases hy : y ∈ xs
  · simp [hy, List.removeAll]
  · simp [hy, List.removeAll, List.eraseDups_cons]

/-- The new elements of a list are those whose first occurrence is in it. -/
theorem appendNew_eraseDups (xs ys : List Bytes) :
    appendNew xs.eraseDups ys = (xs ++ ys).eraseDups := by
  induction ys generalizing xs with
  | nil => simp
  | cons y ys ih =>
    have hstep : (if y ∈ xs.eraseDups then xs.eraseDups else xs.eraseDups ++ [y]) =
        (xs ++ [y]).eraseDups := by
      rw [eraseDups_concat]
      simp only [List.mem_eraseDups]
    rw [appendNew_cons, hstep, ih, List.append_assoc, List.singleton_append]

theorem appendNew_eq_eraseDups (ys : List Bytes) : appendNew [] ys = ys.eraseDups :=
  appendNew_eraseDups [] ys

theorem mem_appendNew {xs ys : List Bytes} {x : Bytes} : x ∈ appendNew xs ys ↔ x ∈ xs ∨ x ∈ ys := by
  induction ys generalizing xs with
  | nil => simp
  | cons y ys ih =>
    rw [appendNew_cons, ih]
    split <;> grind

theorem appendNew_of_subset {xs ys : List Bytes} (h : ys ⊆ xs) : appendNew xs ys = xs := by
  induction ys with
  | nil => rfl
  | cons y ys ih =>
    rw [appendNew_cons, if_pos (h List.mem_cons_self)]
    exact ih fun x hx => h (List.mem_cons_of_mem _ hx)

theorem nodup_appendNew {xs : List Bytes} (h : xs.Nodup) (ys : List Bytes) :
    (appendNew xs ys).Nodup := by
  induction ys generalizing xs with
  | nil => exact h
  | cons y ys ih =>
    rw [appendNew_cons]
    split
    next => exact ih h
    next hy =>
      refine ih (List.nodup_append.mpr ⟨h, List.pairwise_singleton _ y, fun a ha b hb hab => ?_⟩)
      obtain rfl := List.mem_singleton.mp hb
      exact hy (hab ▸ ha)

theorem nodup_eraseDups (xs : List Bytes) : xs.eraseDups.Nodup :=
  appendNew_eq_eraseDups xs ▸ nodup_appendNew .nil xs

namespace Config

/-! ## Options of rules -/

theorem lookup_cons_eq_ite {α : Type} (name k : Bytes) (x : α) (xs : List (Bytes × α)) :
    ((k, x) :: xs).lookup name = if name = k then some x else xs.lookup name := by
  rw [List.lookup_cons]
  by_cases h : name = k
  · simp [h]
  · simp [h, beq_eq_false_iff_ne.mpr h]

theorem lookup_setNamed {α : Type} (name name' : Bytes) (x : α) (xs : List (Bytes × α)) :
    (setNamed name x xs).lookup name' = if name' = name then some x else xs.lookup name' := by
  induction xs with
  | nil => rw [setNamed, lookup_cons_eq_ite, List.lookup_nil]
  | cons entry rest ih =>
    obtain ⟨n, y⟩ := entry
    by_cases hn : n = name
    · subst hn
      simp only [setNamed, BEq.rfl, ↓reduceIte, lookup_cons_eq_ite]
      split <;> rfl
    · simp only [setNamed, beq_eq_false_iff_ne.mpr hn, Bool.false_eq_true, ↓reduceIte,
        lookup_cons_eq_ite, ih]
      split
      next h => simp [h, hn]
      next => rfl

/-- Of the settings with one key the last one counts. -/
theorem lookup_overlay (lower upper : Settings) (key : Bytes) :
    (overlay lower upper).lookup key = (upper.reverse.lookup key).or (lower.lookup key) := by
  induction upper generalizing lower with
  | nil => simp [overlay]
  | cons entry rest ih =>
    obtain ⟨k, v⟩ := entry
    have hstep : overlay lower ((k, v) :: rest) = overlay (setNamed k v lower) rest := rfl
    rw [hstep, ih, lookup_setNamed, List.reverse_cons, List.lookup_append, lookup_cons_eq_ite,
      Option.or_assoc, List.lookup_nil]
    split <;> rfl

/-- The options that a layer has for a rule, those set last standing last. -/
def optionsFor (options : List (Bytes × Settings)) (id : Bytes) : Settings :=
  (options.filter (·.1 == id)).flatMap Prod.snd

/-- What a layer sets an option of a rule to. -/
def option? (c : Config) (id key : Bytes) : Option Value :=
  (optionsFor c.ruleOptions id).reverse.lookup key

/-- What an option of a rule is set to for the rule when it runs. -/
def setting? (c : Config) (id key : Bytes) : Option Value :=
  ((c.ruleOptions.lookup id).getD []).lookup key

theorem lookup_overlayOptions (lower upper : List (Bytes × Settings)) (id key : Bytes) :
    (((overlayOptions lower upper).lookup id).getD []).lookup key =
      ((optionsFor upper id).reverse.lookup key).or (((lower.lookup id).getD []).lookup key) := by
  induction upper generalizing lower with
  | nil => simp [overlayOptions, optionsFor]
  | cons entry rest ih =>
    obtain ⟨i, s⟩ := entry
    have hstep : overlayOptions lower ((i, s) :: rest) =
        overlayOptions (setNamed i (overlay ((lower.lookup i).getD []) s) lower) rest := rfl
    rw [hstep, ih, lookup_setNamed]
    by_cases hi : id = i
    · subst hi
      simp [optionsFor, lookup_overlay, List.lookup_append, Option.or_assoc]
    · have hi' : (i == id) = false := by simpa using Ne.symm hi
      simp [optionsFor, hi, hi']

/-! ## Layers -/

/-- The fields that are lists of texts. -/
def lists : List (Config → List Bytes) :=
  [extensions, filenames, excludes, rulePaths, disabledRules]

theorem lists_merge {field : Config → List Bytes} (h : field ∈ lists) (c layer : Config) :
    field (c.merge layer) = appendNew (field c) (field layer) := by
  simp only [lists, List.mem_cons, List.not_mem_nil, or_false] at h
  rcases h with rfl | rfl | rfl | rfl | rfl <;> rfl

/-- What layers come to, from the lowest to the highest. -/
structure Folds (layers : List Config) (c : Config) : Prop where
  lists : ∀ field ∈ lists, field c = (layers.flatMap field).eraseDups
  followLinks : c.followLinks = layers.reverse.findSome? Config.followLinks
  addFiles : c.addFiles = layers.any Config.addFiles
  setting : ∀ id key, c.setting? id key = layers.reverse.findSome? (·.option? id key)

variable {layers : List Config} {c : Config}

theorem Folds.merge (h : Folds layers c) (layer : Config) :
    Folds (layers ++ [layer]) (c.merge layer) where
  lists field hfield := by
    rw [lists_merge hfield, h.lists field hfield, appendNew_eraseDups, List.flatMap_append,
      List.flatMap_singleton]
  followLinks := by
    simp only [Config.merge, h.followLinks, List.reverse_append, List.reverse_singleton,
      List.singleton_append, List.findSome?_cons]
    cases layer.followLinks <;> rfl
  addFiles := by
    simp [Config.merge, h.addFiles]
  setting id key := by
    rw [setting?, Config.merge, lookup_overlayOptions]
    have hlower := h.setting id key
    rw [setting?] at hlower
    simp only [hlower, List.reverse_append, List.reverse_singleton, List.singleton_append,
      List.findSome?_cons, option?]
    cases (optionsFor layer.ruleOptions id).reverse.lookup key <;> rfl

theorem Folds.foldl (h : Folds layers c) (more : List Config) :
    Folds (layers ++ more) (more.foldl Config.merge c) := by
  induction more generalizing layers c with
  | nil => simpa using h
  | cons layer more ih => simpa using ih (h.merge layer)

theorem Folds.nodup (h : Folds layers c) {field : Config → List Bytes}
    (hfield : field ∈ Config.lists) : (field c).Nodup :=
  h.lists field hfield ▸ nodup_eraseDups _

theorem merge_empty (c : Config) : c.merge {} = c := by
  simp [merge, overlayOptions]

/-- A layer that is merged once more changes nothing. -/
theorem merge_merge {c layer : Config} (h : layer.ruleOptions = []) :
    (c.merge layer).merge layer = c.merge layer := by
  have hlist (xs ys : List Bytes) : appendNew (appendNew xs ys) ys = appendNew xs ys :=
    appendNew_of_subset fun y hy => mem_appendNew.mpr (.inr hy)
  cases hlinks : layer.followLinks <;> simp [merge, hlist, h, overlayOptions, hlinks]

theorem foldl_merge_of_all {c layer : Config} (h : layer.ruleOptions = []) {layers : List Config}
    (hall : ∀ d ∈ layers, d = layer) (hne : layers ≠ []) :
    layers.foldl merge c = c.merge layer := by
  induction layers generalizing c with
  | nil => exact absurd rfl hne
  | cons first rest ih =>
    obtain rfl := hall first List.mem_cons_self
    rw [List.foldl_cons]
    by_cases hrest : rest = []
    · rw [hrest, List.foldl_nil]
    · rw [ih (fun d hd => hall d (List.mem_cons_of_mem _ hd)) hrest, merge_merge h]

end Config

end Linewise
