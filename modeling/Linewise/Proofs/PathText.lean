import Linewise.Proofs.LineSplitting
import Linewise.Proofs.PathResolution

/-!
# The text of clean paths

Cleaning keeps a stack of components, and cleaning the components that were kept keeps them again.
The last slash divides a path into the text of its directory and its last element.
-/

namespace Linewise

namespace Bytes

theorem splitBy_ne_nil (p : UInt8 → Bool) (text : Bytes) : splitBy p text ≠ [] := by
  cases text with
  | nil => simp [splitBy]
  | cons b rest =>
    rw [splitBy]
    split
    · simp
    · split <;> simp

theorem splitBy_append_cons (p : UInt8 → Bool) {b : UInt8} (hb : p b = true) (front back : Bytes) :
    splitBy p (front ++ b :: back) = splitBy p front ++ splitBy p back := by
  induction front with
  | nil => simp [splitBy, hb]
  | cons c front ih =>
    rw [List.cons_append, splitBy, splitBy, ih]
    by_cases hc : p c = true
    · simp [hc]
    · obtain ⟨part, parts, hsplit⟩ := List.exists_cons_of_ne_nil (splitBy_ne_nil p front)
      simp [hc, hsplit]

theorem splitBy_cons_separator (p : UInt8 → Bool) {b : UInt8} {rest : Bytes} (hb : p b = true) :
    splitBy p (b :: rest) = [] :: splitBy p rest :=
  if_pos hb

theorem splitBy_cons_other (p : UInt8 → Bool) {b : UInt8} {rest part : Bytes} {parts : List Bytes}
    (hb : p b = false) (h : splitBy p rest = part :: parts) :
    splitBy p (b :: rest) = (b :: part) :: parts := by
  simp [splitBy, hb, h]

/-- The first part is empty, or it starts as the text does. -/
theorem splitBy_head (p : UInt8 → Bool) {b : UInt8} {rest part : Bytes} {parts : List Bytes}
    (h : splitBy p (b :: rest) = part :: parts) : part = [] ∨ ∃ front, part = b :: front := by
  obtain ⟨first, others, hrest⟩ := List.exists_cons_of_ne_nil (splitBy_ne_nil p rest)
  cases hb : p b with
  | true =>
    rw [splitBy_cons_separator p hb] at h
    exact .inl (List.cons.inj h).1.symm
  | false =>
    rw [splitBy_cons_other p hb hrest] at h
    exact .inr ⟨first, (List.cons.inj h).1.symm⟩

theorem splitBy_eq_singleton (p : UInt8 → Bool) {text : Bytes} (h : ∀ b ∈ text, p b = false) :
    splitBy p text = [text] := by
  induction text with
  | nil => rfl
  | cons b rest ih =>
    rw [splitBy, ih (fun c hc => h c (List.mem_cons_of_mem b hc)), h b List.mem_cons_self]
    rfl

theorem mem_splitBy (p : UInt8 → Bool) {text part : Bytes} (h : part ∈ splitBy p text) :
    ∀ b ∈ part, p b = false ∧ b ∈ text := by
  induction text generalizing part with
  | nil =>
    obtain rfl : part = [] := by simpa [splitBy] using h
    simp
  | cons c rest ih =>
    obtain ⟨first, parts, hsplit⟩ := List.exists_cons_of_ne_nil (splitBy_ne_nil p rest)
    have hrest {part : Bytes} (hpart : part ∈ first :: parts) :
        ∀ b ∈ part, p b = false ∧ b ∈ c :: rest := by
      intro b hb
      obtain ⟨hp, hmem⟩ := ih (hsplit ▸ hpart) b hb
      exact ⟨hp, List.mem_cons_of_mem c hmem⟩
    rw [splitBy, hsplit] at h
    by_cases hc : p c = true
    · rw [if_pos hc, List.mem_cons] at h
      rcases h with rfl | h
      · simp
      · exact hrest h
    · rw [if_neg hc, List.mem_cons] at h
      rcases h with rfl | h
      · intro b hb
        rcases List.mem_cons.mp hb with rfl | hb
        · exact ⟨by simpa using hc, List.mem_cons_self⟩
        · exact hrest List.mem_cons_self b hb
      · exact hrest (List.mem_cons_of_mem first h)

end Bytes

namespace Path
open Bytes

/-- The text of a component: some bytes and no slash. -/
def IsPart (c : Bytes) : Prop := c ≠ [] ∧ slash ∉ c

theorem isPart_of_mem_components {p c : Bytes} (h : c ∈ components p) : IsPart c := by
  obtain ⟨hsplit, hne⟩ := List.mem_filter.mp h
  refine ⟨by simpa using hne, fun hslash => ?_⟩
  simpa using (mem_splitBy _ hsplit slash hslash).1

theorem mem_of_mem_components {p c : Bytes} (h : c ∈ components p) {b : UInt8} (hb : b ∈ c) :
    b ∈ p :=
  (mem_splitBy _ (List.mem_filter.mp h).1 b hb).2

@[simp] theorem components_nil : components [] = [] := rfl

theorem components_append_slash (p q : Bytes) :
    components (p ++ slash :: q) = components p ++ components q := by
  rw [components, splitBy_append_cons _ (by simp), List.filter_append, components, components]

theorem components_slash_cons (p : Bytes) : components (slash :: p) = components p :=
  components_append_slash [] p

theorem components_of_isPart {c : Bytes} (h : IsPart c) : components c = [c] := by
  have hall : ∀ b ∈ c, (b == slash) = false := by
    intro b hb
    rw [beq_eq_false_iff_ne]
    rintro rfl
    exact h.2 hb
  rw [components, splitBy_eq_singleton _ hall]
  simp [h.1]

theorem joinWith_cons_cons (c d : Bytes) (cs : List Bytes) :
    joinWith [slash] (c :: d :: cs) = c ++ slash :: joinWith [slash] (d :: cs) := by
  simp [joinWith]

theorem components_joinWith {cs : List Bytes} (h : ∀ c ∈ cs, IsPart c) :
    components (joinWith [slash] cs) = cs := by
  induction cs with
  | nil => rfl
  | cons c cs ih =>
    have hc := components_of_isPart (h c List.mem_cons_self)
    cases cs with
    | nil => simpa [joinWith] using hc
    | cons d cs =>
      rw [joinWith_cons_cons, components_append_slash, hc,
        ih fun e he => h e (List.mem_cons_of_mem c he)]
      rfl

theorem getLast?_joinWith {cs : List Bytes} (hne : cs ≠ []) (h : ∀ c ∈ cs, IsPart c) :
    (joinWith [slash] cs).getLast? ≠ some slash ∧ joinWith [slash] cs ≠ [] := by
  induction cs with
  | nil => exact absurd rfl hne
  | cons c cs ih =>
    obtain ⟨hnil, hslash⟩ := h c List.mem_cons_self
    cases cs with
    | nil =>
      rw [show joinWith [slash] [c] = c by simp [joinWith]]
      exact ⟨fun hlast => hslash (List.mem_of_getLast? hlast), hnil⟩
    | cons d cs =>
      obtain ⟨hlast, hrest⟩ := ih (by simp) fun e he => h e (List.mem_cons_of_mem c he)
      obtain ⟨b, rest, hcons⟩ := List.exists_cons_of_ne_nil hrest
      rw [hcons] at hlast
      rw [joinWith_cons_cons, hcons, List.getLast?_append_of_ne_nil _ (by simp),
        List.getLast?_cons_cons]
      exact ⟨hlast, by simp⟩

/-- Every component of a stack was pushed: none of them was dropped or took another one away. -/
def Settled (rooted : Bool) : List Bytes → Prop
  | [] => True
  | c :: st => cleanStep rooted st c = c :: st ∧ Settled rooted st

theorem settled_cleanStep {rooted : Bool} {st : List Bytes} (h : Settled rooted st) (c : Bytes) :
    Settled rooted (cleanStep rooted st c) := by
  by_cases hhere : c = here
  · simpa [cleanStep, hhere] using h
  by_cases hup : c = up
  · subst hup
    cases st with
    | nil => cases rooted <;> simp [cleanStep, Settled, here, up]
    | cons d st =>
      by_cases hd : d = up
      · subst hd
        have hpush : cleanStep rooted (up :: st) up = up :: up :: st := by
          simp [cleanStep, here, up]
        rw [hpush]
        exact ⟨hpush, h⟩
      · have hdrop : cleanStep rooted (d :: st) up = st := by
          simp only [cleanStep, beq_eq_false_iff_ne.mpr hd]
          rfl
        rw [hdrop]
        exact h.2
  · have hpush : cleanStep rooted st c = c :: st := by simp [cleanStep, hhere, hup]
    rw [hpush]
    exact ⟨hpush, h⟩

theorem settled_foldl {rooted : Bool} (cs : List Bytes) {st : List Bytes}
    (h : Settled rooted st) : Settled rooted (cs.foldl (cleanStep rooted) st) := by
  induction cs generalizing st with
  | nil => exact h
  | cons c cs ih => exact ih (settled_cleanStep h c)

theorem foldl_reverse_of_settled {rooted : Bool} {st : List Bytes} (h : Settled rooted st) :
    st.reverse.foldl (cleanStep rooted) [] = st := by
  induction st with
  | nil => rfl
  | cons c st ih => rw [List.reverse_cons, List.foldl_concat, ih h.2, h.1]

/-- The components that cleaning keeps. -/
def kept (p : Bytes) : List Bytes :=
  ((components p).foldl (cleanStep (isAbsolute p)) []).reverse

theorem settled_kept (p : Bytes) : Settled (isAbsolute p) (kept p).reverse := by
  rw [kept, List.reverse_reverse]
  exact settled_foldl _ trivial

theorem mem_cleanStep {rooted : Bool} {st : List Bytes} {c d : Bytes}
    (h : c ∈ cleanStep rooted st d) : c = d ∨ c ∈ st ∨ c = up := by
  simp only [cleanStep] at h
  split at h
  · exact .inr (.inl h)
  split at h
  · cases st with
    | nil => cases rooted <;> simp_all
    | cons e st =>
      simp only at h
      split at h
      · rcases List.mem_cons.mp h with h | h
        · exact .inr (.inr h)
        · exact .inr (.inl h)
      · exact .inr (.inl (List.mem_cons_of_mem e h))
  · rcases List.mem_cons.mp h with h | h
    · exact .inl h
    · exact .inr (.inl h)

theorem mem_foldl_cleanStep {rooted : Bool} {cs st : List Bytes} {c : Bytes}
    (h : c ∈ cs.foldl (cleanStep rooted) st) : c ∈ cs ∨ c ∈ st ∨ c = up := by
  induction cs generalizing st with
  | nil => exact .inr (.inl h)
  | cons d cs ih =>
    rcases ih h with h | h | h
    · exact .inl (List.mem_cons_of_mem d h)
    · rcases mem_cleanStep h with rfl | h | h
      · exact .inl List.mem_cons_self
      · exact .inr (.inl h)
      · exact .inr (.inr h)
    · exact .inr (.inr h)

theorem mem_kept {p c : Bytes} (h : c ∈ kept p) : c ∈ components p ∨ c = up := by
  rw [kept, List.mem_reverse] at h
  rcases mem_foldl_cleanStep h with h | h | h
  · exact .inl h
  · simp at h
  · exact .inr h

theorem isPart_of_mem_kept {p c : Bytes} (h : c ∈ kept p) : IsPart c := by
  rcases mem_kept h with h | rfl
  · exact isPart_of_mem_components h
  · exact ⟨by decide, by decide⟩

theorem clean_eq (p : Bytes) :
    clean p =
      if isAbsolute p then slash :: joinWith [slash] (kept p)
      else if kept p = [] then here else joinWith [slash] (kept p) := by
  rw [clean]
  change (if isAbsolute p = true then slash :: joinWith [slash] (kept p)
    else if (joinWith [slash] (kept p)).isEmpty = true then here
    else joinWith [slash] (kept p)) = _
  by_cases hk : kept p = []
  · simp [hk, joinWith]
  · have hne := (getLast?_joinWith hk fun c hc => isPart_of_mem_kept hc).2
    simp [hk, hne]

theorem isAbsolute_joinWith {cs : List Bytes} (h : ∀ c ∈ cs, IsPart c) :
    isAbsolute (joinWith [slash] cs) = false := by
  cases cs with
  | nil => rfl
  | cons c cs =>
    obtain ⟨hne, hslash⟩ := h c List.mem_cons_self
    obtain ⟨b, rest, rfl⟩ := List.exists_cons_of_ne_nil hne
    have hb : b ≠ slash := fun hb => hslash (hb ▸ List.mem_cons_self)
    cases cs <;> simp [joinWith, isAbsolute, hb]

theorem isAbsolute_clean (p : Bytes) : isAbsolute (clean p) = isAbsolute p := by
  rw [clean_eq]
  cases hp : isAbsolute p with
  | true => rfl
  | false =>
    rw [if_neg Bool.false_ne_true]
    split
    · rfl
    · exact isAbsolute_joinWith fun c hc => isPart_of_mem_kept hc

theorem clean_ne_nil (p : Bytes) : clean p ≠ [] := by
  rw [clean_eq]
  split
  · simp
  · split
    · simp [here]
    · exact (getLast?_joinWith ‹_› fun c hc => isPart_of_mem_kept hc).2

theorem components_clean (p : Bytes) :
    components (clean p) = kept p ∨ components (clean p) = [here] ∧ kept p = [] := by
  have hjoin := components_joinWith fun c hc => isPart_of_mem_kept (p := p) hc
  rw [clean_eq]
  split
  · left
    rw [← List.nil_append (slash :: _), components_append_slash, hjoin]
    rfl
  · split
    · exact .inr ⟨by decide, ‹_›⟩
    · exact .inl hjoin

/-- A clean path takes the steps that cleaning kept. -/
theorem steps_clean (p : Bytes) :
    FileTree.steps (clean p) = if kept p = [] then [here] else kept p := by
  have hpart : ∀ c ∈ kept p, IsPart c := fun c hc => isPart_of_mem_kept hc
  by_cases hk : kept p = []
  · rw [if_pos hk, clean_eq, hk]
    split <;> decide
  · obtain ⟨hlast, hne⟩ := getLast?_joinWith hk hpart
    have hend : (clean p).getLast? ≠ some slash := by
      obtain ⟨b, rest, hcons⟩ := List.exists_cons_of_ne_nil hne
      rw [clean_eq, if_neg hk, hcons]
      rw [hcons] at hlast
      split
      · rwa [List.getLast?_cons_cons]
      · exact hlast
    have hcomp : components (clean p) = kept p := by
      rcases components_clean p with h | ⟨-, h⟩
      · exact h
      · exact absurd h hk
    rw [if_neg hk, FileTree.steps, hcomp, if_neg (by simpa using hend), List.append_nil]

theorem mem_joinWith {cs : List Bytes} {b : UInt8} (h : b ∈ joinWith [slash] cs) :
    b = slash ∨ ∃ c ∈ cs, b ∈ c := by
  induction cs with
  | nil => simp [joinWith] at h
  | cons c cs ih =>
    cases cs with
    | nil => exact .inr ⟨c, by simp, by simpa [joinWith] using h⟩
    | cons d cs =>
      rw [joinWith_cons_cons, List.mem_append, List.mem_cons] at h
      rcases h with h | h | h
      · exact .inr ⟨c, List.mem_cons_self, h⟩
      · exact .inl h
      · rcases ih h with h | ⟨e, he, hb⟩
        · exact .inl h
        · exact .inr ⟨e, List.mem_cons_of_mem c he, hb⟩

theorem mem_clean {p : Bytes} {b : UInt8} (h : b ∈ clean p) : b ∈ p ∨ b = slash ∨ b = dot := by
  have hjoin (h : b ∈ joinWith [slash] (kept p)) : b ∈ p ∨ b = slash ∨ b = dot := by
    rcases mem_joinWith h with h | ⟨c, hc, hb⟩
    · exact .inr (.inl h)
    · rcases mem_kept hc with hc | rfl
      · exact .inl (mem_of_mem_components hc hb)
      · exact .inr (.inr (by simpa [up, dot] using hb))
  rw [clean_eq] at h
  split at h
  · rcases List.mem_cons.mp h with h | h
    · exact .inr (.inl h)
    · exact hjoin h
  · split at h
    · exact .inr (.inr (by simpa [here, dot] using h))
    · exact hjoin h

/-- What stands before the last element of a path. -/
def front (p : Bytes) : Bytes := (p.reverse.dropWhile (· != slash)).reverse

theorem front_append_lastElement (p : Bytes) : front p ++ lastElement p = p := by
  rw [front, lastElement, ← List.reverse_append, List.takeWhile_append_dropWhile,
    List.reverse_reverse]

theorem slash_notMem_lastElement (p : Bytes) : slash ∉ lastElement p := by
  intro h
  rw [lastElement, List.mem_reverse] at h
  simpa using List.mem_takeWhile_imp h

theorem dropWhile_ne_slash (text : Bytes) :
    text.dropWhile (· != slash) = [] ∨ ∃ rest, text.dropWhile (· != slash) = slash :: rest := by
  cases hd : text.dropWhile (· != slash) with
  | nil => exact .inl rfl
  | cons b rest =>
    have hb := List.head?_dropWhile_not (· != slash) text
    rw [hd] at hb
    obtain rfl : b = slash := by simpa using hb
    exact .inr ⟨rest, rfl⟩

theorem front_cases (p : Bytes) : front p = [] ∨ ∃ f, front p = f ++ [slash] := by
  rcases dropWhile_ne_slash p.reverse with h | ⟨rest, h⟩
  · exact .inl (by rw [front, h, List.reverse_nil])
  · exact .inr ⟨rest.reverse, by rw [front, h, List.reverse_cons]⟩

theorem components_front_append {p q : Bytes} (hq : IsPart q) :
    components (front p ++ q) = components (front p) ++ [q] := by
  rcases front_cases p with h | ⟨f, h⟩
  · rw [h, List.nil_append, components_of_isPart hq, components_nil, List.nil_append]
  · rw [h, List.append_assoc, List.singleton_append, components_append_slash,
      components_of_isPart hq, components_append_slash, components_nil, List.append_nil]

theorem isPart_lastElement {p : Bytes} (hne : p ≠ []) (hlast : p.getLast? ≠ some slash) :
    IsPart (lastElement p) := by
  refine ⟨fun hnil => ?_, slash_notMem_lastElement p⟩
  have hp := front_append_lastElement p
  rw [hnil, List.append_nil] at hp
  rcases front_cases p with hf | ⟨f, hf⟩
  · exact hne (hp ▸ hf)
  · exact hlast (by rw [← hp, hf, List.getLast?_concat])

/-- The base of a path is its last component, if it has any. -/
theorem base_eq (p : Bytes) :
    base p = (components p).getLast?.getD (if p.isEmpty then here else [slash]) := by
  -- Slashes at the end change neither the components nor the base.
  induction p using List.reverseRecOn with
  | nil => rfl
  | append_singleton r b ih =>
    by_cases hb : b = slash
    · subst hb
      rw [components_append_slash, components_nil, List.append_nil]
      cases hr : r.isEmpty with
      | true =>
        rw [List.isEmpty_iff.mp hr]
        decide
      | false =>
        rw [hr] at ih
        have htrim : Bytes.trimRight (· == slash) (r ++ [slash]) = Bytes.trimRight (· == slash) r := by
          simp only [Bytes.trimRight_eq_rdropWhile]
          exact List.rdropWhile_concat_pos _ _ _ (by simp)
        have hbase : base (r ++ [slash]) = base r := by simp [base, htrim, hr]
        rw [hbase, ih]
        simp
    · have hlast : (r ++ [b]).getLast? ≠ some slash := by simpa using hb
      have hparts := components_front_append (p := r ++ [b])
        (isPart_lastElement (by simp) hlast)
      have htrim : Bytes.trimRight (· == slash) (r ++ [b]) = r ++ [b] := by
        rw [Bytes.trimRight_eq_rdropWhile, List.rdropWhile_concat_neg _ _ _ (by simpa using hb)]
      rw [front_append_lastElement] at hparts
      rw [hparts, List.getLast?_concat, Option.getD_some]
      simp [base, htrim]

theorem base_of_components {p c : Bytes} {front : List Bytes} (h : components p = front ++ [c]) :
    base p = c := by
  rw [base_eq, h, List.getLast?_concat, Option.getD_some]

theorem steps_ne_nil {p : Bytes} (hne : p ≠ []) : FileTree.steps p ≠ [] := by
  rw [FileTree.steps]
  by_cases hlast : p.getLast? = some slash
  · simp [hlast]
  · have hc := components_front_append (p := p) (isPart_lastElement hne hlast)
    rw [front_append_lastElement] at hc
    simp [hc]

theorem isAbsolute_front (p : Bytes) : isAbsolute (front p) = isAbsolute p := by
  have hp := front_append_lastElement p
  cases hf : front p with
  | nil =>
    rw [hf, List.nil_append] at hp
    cases hl : p with
    | nil => rfl
    | cons b rest =>
      have hb : b ≠ slash := by
        rintro rfl
        apply slash_notMem_lastElement p
        rw [hp, hl]
        exact List.mem_cons_self
      simp [isAbsolute, hb]
  | cons b rest =>
    rw [hf] at hp
    rw [← hp]
    rfl

theorem isAbsolute_parent (p : Bytes) : isAbsolute (parent p) = isAbsolute p := by
  change isAbsolute (clean (front p)) = _
  rw [isAbsolute_clean, isAbsolute_front]

theorem isAbsolute_append {p : Bytes} (hp : p ≠ []) (q : Bytes) :
    isAbsolute (p ++ q) = isAbsolute p := by
  obtain ⟨b, rest, rfl⟩ := List.exists_cons_of_ne_nil hp
  rfl

theorem parent_ne_nil (p : Bytes) : parent p ≠ [] := clean_ne_nil _

theorem join_parent (p n : Bytes) : join [parent p, n] = clean (parent p ++ slash :: n) := by
  simp [join, parent_ne_nil, joinWith]

theorem zero_notMem_clean {p : Bytes} (h : 0 ∉ p) : 0 ∉ clean p := by
  intro hzero
  rcases mem_clean hzero with hzero | hzero | hzero
  · exact h hzero
  · simp [slash] at hzero
  · simp [dot] at hzero

end Path

end Linewise
