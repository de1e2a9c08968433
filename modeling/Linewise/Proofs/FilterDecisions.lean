import Linewise.PathFilter
import Mathlib.Data.List.Forall2

/-!
# What a filter decides

A filter is built from the texts of its patterns when each of them can be read. What it decides then
depends only on which texts there are: it rejects a file if there are include patterns and none of them
is found in its path, and any target in whose path an exclude pattern is found.
-/

namespace Linewise.PathFilter

variable {texts includes excludes : List Bytes} {ps : List Pattern} {f : PathFilter} {path : Bytes}

/-- The text denotes a pattern. -/
def Compiles (text : Bytes) : Prop := ∃ p, Pattern.parse text = .ok p

/-- The pattern that a text denotes occurs in a path. -/
def FoundIn (path text : Bytes) : Prop := ∃ p, Pattern.parse text = .ok p ∧ p.occursIn path = true

/-! ## Reading the patterns -/

theorem readPatterns_eq_ok_iff :
    readPatterns texts = .ok ps ↔ List.Forall₂ (fun text p => Pattern.parse text = .ok p) texts ps := by
  induction texts generalizing ps with
  | nil => cases ps <;> simp [readPatterns]
  | cons text texts ih =>
    rw [readPatterns, List.forall₂_cons_left_iff]
    cases hp : Pattern.parse text with
    | error e => simp
    | ok p =>
      cases hps : readPatterns texts with
      | error e =>
        have hnone (qs : List Pattern) :
            ¬List.Forall₂ (fun text p => Pattern.parse text = .ok p) texts qs := by
          rw [← ih, hps]
          exact nofun
        simp [hnone]
      | ok qs =>
        have hqs := ih.mp hps
        constructor
        · rintro h
          cases h
          exact ⟨p, qs, rfl, hqs, rfl⟩
        · rintro ⟨p', qs', hp', hqs', rfl⟩
          cases hp'
          rw [Except.ok.inj ((ih.mpr hqs').symm.trans hps)]

theorem exists_readPatterns_iff :
    (∃ ps, readPatterns texts = .ok ps) ↔ ∀ text ∈ texts, Compiles text := by
  simp only [readPatterns_eq_ok_iff]
  induction texts with
  | nil => simp
  | cons text texts ih =>
    rw [List.forall_mem_cons, ← ih]
    constructor
    · rintro ⟨_, hp | ⟨hp, hps⟩⟩
      exact ⟨⟨_, hp⟩, _, hps⟩
    · rintro ⟨⟨p, hp⟩, ps, hps⟩
      exact ⟨p :: ps, .cons hp hps⟩

theorem anyOccurs_iff (h : List.Forall₂ (fun text p => Pattern.parse text = .ok p) texts ps) :
    anyOccurs ps path = true ↔ ∃ text ∈ texts, FoundIn path text := by
  induction h with
  | nil => simp [anyOccurs]
  | cons hp _ ih =>
    rw [anyOccurs] at ih ⊢
    simp [ih, FoundIn, hp]

/-! ## What the filter decides -/

/-- How a filter decides that was built from the given patterns. -/
structure BuiltFrom (includes excludes : List Bytes) (f : PathFilter) : Prop where
  matchesExclude_iff : ∀ path, f.matchesExclude path = true ↔ ∃ text ∈ excludes, FoundIn path text
  admits_iff : ∀ t, f.admits t = true ↔
    t.isDirectory = true ∨ includes = [] ∨ ∃ text ∈ includes, FoundIn t.fullPath text

theorem builtFrom_of_new (h : new includes excludes = .ok f) : BuiltFrom includes excludes f := by
  unfold new at h
  split at h
  next => cases h
  next is hincludes =>
    split at h
    next => cases h
    next es hexcludes =>
      cases h
      rw [readPatterns_eq_ok_iff] at hincludes hexcludes
      have hempty : is = [] ↔ includes = [] := by
        rw [← List.length_eq_zero_iff, ← List.length_eq_zero_iff, hincludes.length_eq]
      refine ⟨fun path => anyOccurs_iff hexcludes, fun t => ?_⟩
      simp [admits, anyOccurs_iff hincludes, hempty, or_assoc]

theorem exists_new_iff : (∃ f, new includes excludes = .ok f) ↔
    (∀ text ∈ includes, Compiles text) ∧ ∀ text ∈ excludes, Compiles text := by
  rw [← exists_readPatterns_iff, ← exists_readPatterns_iff, new]
  cases readPatterns includes with
  | error e => simp
  | ok is => cases readPatterns excludes <;> simp

theorem BuiltFrom.rejects_iff (h : BuiltFrom includes excludes f) (t : Target) :
    f.rejects t = true ↔
      (t.isDirectory = false ∧ includes ≠ [] ∧ ∀ text ∈ includes, ¬FoundIn t.fullPath text) ∨
        ∃ text ∈ excludes, FoundIn t.fullPath text := by
  have hadmits : f.admits t = false ↔
      t.isDirectory = false ∧ includes ≠ [] ∧ ∀ text ∈ includes, ¬FoundIn t.fullPath text := by
    rw [← Bool.not_eq_true, h.admits_iff]
    simp
  rw [rejects, Bool.or_eq_true, h.matchesExclude_iff, Bool.not_eq_true', hadmits]

end Linewise.PathFilter
