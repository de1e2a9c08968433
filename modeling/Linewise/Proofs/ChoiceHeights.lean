import Linewise.Pattern.Syntax
import Mathlib.Data.List.SplitBy

/-!
# How deep a choice between texts is

Alternatives that start with the same characters are kept with their common start written once, so a
choice between texts is deep where many of them are starts of one another. Its height is at most two
for each character of the longest text, and two more. Texts of which each is one character longer than
the one before come close to this.
-/

namespace Linewise.Pattern

theorem Kind.codes_drop (k : Kind) (n : Nat) : (k.drop n).codes = k.codes.drop n := by
  cases k with
  | text fold codes =>
    rw [Kind.drop]
    cases h : codes.drop n <;> simp [Kind.codes, h]
  | _ => simp [Kind.drop, Kind.codes]

/-- Starting with the same character is handed on from text to text. -/
theorem Kind.startsLike_trans {k k' k'' : Kind} (h : k.startsLike k' = true)
    (h' : k'.startsLike k'' = true) : k.startsLike k'' = true := by
  unfold startsLike at h h' ⊢
  split at h
  next fold c cs fold' c' cs' =>
    split at h'
    next fold₁ d ds fold'' c'' cs'' heq =>
      cases heq
      simp_all
    next => exact absurd h' (by simp)
  next => exact absurd h (by simp)

theorem Kind.one_le_commonLength {k k' : Kind} (h : k.startsLike k' = true) :
    1 ≤ commonLength k.codes k'.codes := by
  unfold startsLike at h
  split at h
  next fold c cs fold' c' cs' =>
    rw [Bool.and_eq_true, beq_iff_eq, beq_iff_eq] at h
    simp [codes, commonLength, h.2]
  next => exact absurd h (by simp)

namespace Outline

variable {os run : List Outline} {o : Outline} {n : Nat} {sort : Kind → Bool}

/-! ## Bounds -/

theorem mem_mergeNeighbours (h : o ∈ mergeNeighbours sort os) : o ∈ os ∨ o = { kind := .set } := by
  induction os generalizing o with
  | nil => simp [mergeNeighbours] at h
  | cons a rest ih =>
    rw [mergeNeighbours] at h
    cases hrest : mergeNeighbours sort rest with
    | nil =>
      rw [hrest] at h
      exact .inl (List.mem_cons.mpr (.inl (List.mem_singleton.mp h)))
    | cons b rest' =>
      rw [hrest] at h ih
      have htail (ho : o ∈ b :: rest') : o ∈ a :: rest ∨ o = { kind := .set } :=
        (ih ho).imp_left (List.mem_cons_of_mem a)
      dsimp only at h
      split_ifs at h with hsort hsame
      · rcases List.mem_cons.mp h with rfl | h
        · exact .inl List.mem_cons_self
        · exact htail (List.mem_cons_of_mem b h)
      · rcases List.mem_cons.mp h with rfl | h
        · exact .inr rfl
        · exact htail (List.mem_cons_of_mem b h)
      · rcases List.mem_cons.mp h with rfl | h
        · exact .inl List.mem_cons_self
        · exact htail h

theorem mem_merged (h : o ∈ mergeNothings (mergeSingles os)) : o ∈ os ∨ o = { kind := .set } :=
  (mem_mergeNeighbours h).elim mem_mergeNeighbours .inr

theorem foldl_height_le (h : ∀ o ∈ os, o.height ≤ n) {k : Nat} (hk : k ≤ n) :
    os.foldl (fun h o => max h o.height) k ≤ n := by
  induction os generalizing k with
  | nil => exact hk
  | cons o os ih =>
    obtain ⟨ho, hos⟩ := List.forall_mem_cons.mp h
    exact ih hos (Nat.max_le.mpr ⟨hk, ho⟩)

theorem choice_height_le (h : ∀ o ∈ os, o.height ≤ n) : (choice os).height ≤ n + 1 := by
  fun_cases choice os with
  | case1 o => exact Nat.le_add_right_of_le (h o List.mem_cons_self)
  | case2 hne =>
    rw [Nat.add_comm n]
    exact Nat.add_le_add_left (foldl_height_le h (Nat.zero_le n)) 1

/-- What is described by a single text or set is not deep. -/
structure IsLeaf (n : Nat) (o : Outline) : Prop where
  height : o.height = 1
  length : o.kind.codes.length ≤ n

theorem one_le_foldl_common {codes : List Nat} {k : Nat} (hk : 1 ≤ k)
    (h : ∀ o ∈ os, 1 ≤ commonLength codes o.kind.codes) :
    1 ≤ os.foldl (fun n o => min n (commonLength codes o.kind.codes)) k := by
  induction os generalizing k with
  | nil => exact hk
  | cons o os ih =>
    obtain ⟨ho, hos⟩ := List.forall_mem_cons.mp h
    exact ih (Nat.le_min.mpr ⟨hk, ho⟩) hos

theorem one_le_sharedLength {o' : Outline}
    (hchain : (o :: o' :: run).IsChain (·.kind.startsLike ·.kind)) :
    1 ≤ sharedLength (o :: o' :: run) := by
  have : IsTrans Outline (fun a b => a.kind.startsLike b.kind = true) :=
    ⟨fun _ _ _ => Kind.startsLike_trans⟩
  have hlike : ∀ a ∈ o' :: run, o.kind.startsLike a.kind = true :=
    fun _ => List.rel_of_pairwise_cons (List.isChain_iff_pairwise.mp hchain)
  have hcommon : ∀ a ∈ o' :: run, 1 ≤ commonLength o.kind.codes a.kind.codes :=
    fun a ha => Kind.one_le_commonLength (hlike a ha)
  refine one_le_foldl_common ?_ hcommon
  have hfirst := hcommon o' List.mem_cons_self
  cases hcodes : o.kind.codes with
  | nil => simp [hcodes, commonLength] at hfirst
  | cons c cs => simp

theorem isLeaf_behindShared {o o' : Outline}
    (hchain : (o :: o' :: run).IsChain (·.kind.startsLike ·.kind))
    (h : ∀ a ∈ o :: o' :: run, a.IsLeaf (n + 1)) :
    ∀ a ∈ behindShared (o :: o' :: run), a.IsLeaf n := by
  intro a ha
  obtain ⟨b, hb, rfl⟩ := List.mem_map.mp ha
  have hshared := one_le_sharedLength hchain
  have hlength := (h b hb).length
  refine ⟨(h b hb).height, ?_⟩
  rw [Kind.codes_drop, List.length_drop]
  omega

theorem factor_height_le (h : ∀ o ∈ os, o.IsLeaf n) : (choice (factor n os)).height ≤ 2 * n + 2 := by
  induction n generalizing os with
  | zero =>
    refine choice_height_le fun o ho => ?_
    rcases mem_merged ho with hmem | rfl
    · exact (h o hmem).height.le
    · exact le_rfl
  | succ n ih =>
    refine choice_height_le fun o ho => ?_
    rcases mem_merged ho with hmem | rfl
    · obtain ⟨run, hrun, rfl⟩ := List.mem_map.mp hmem
      have hleaves : ∀ a ∈ run, a.IsLeaf (n + 1) := by
        intro a ha
        refine h a ?_
        rw [← List.flatten_splitBy (fun a b : Outline => a.kind.startsLike b.kind) os]
        exact List.mem_flatten_of_mem hrun ha
      match run, List.ne_nil_of_mem_splitBy hrun with
      | [o], _ =>
        have hheight := (hleaves o List.mem_cons_self).height
        rw [collapse]
        omega
      | o :: o' :: run, _ =>
        have hheight := ih (isLeaf_behindShared (List.isChain_of_mem_splitBy hrun) hleaves)
        simp only [collapse]
        omega
    · exact Nat.le_add_left 1 _

theorem foldl_codes_le (os : List Outline) (k : Nat) :
    k ≤ os.foldl (fun n o => max n o.kind.codes.length) k ∧
      ∀ o ∈ os, o.kind.codes.length ≤ os.foldl (fun n o => max n o.kind.codes.length) k := by
  induction os generalizing k with
  | nil => simp
  | cons o os ih =>
    obtain ⟨hk, hos⟩ := ih (max k o.kind.codes.length)
    exact ⟨(le_max_left ..).trans hk, List.forall_mem_cons.mpr ⟨(le_max_right ..).trans hk, hos⟩⟩

theorem ofAlternatives_height_le (h : ∀ o ∈ os, o.height = 1) :
    (ofAlternatives os).height ≤ 2 * longest os + 2 := by
  refine factor_height_le fun o ho => ?_
  rcases mem_mergeNeighbours ho with hmem | rfl
  · exact ⟨h o hmem, (foldl_codes_le os 0).2 o hmem⟩
  · exact ⟨rfl, Nat.zero_le _⟩

theorem longest_le (h : ∀ o ∈ os, o.kind.codes.length ≤ n) : longest os ≤ n := by
  have hfold (k : Nat) (hk : k ≤ n) : os.foldl (fun n o => max n o.kind.codes.length) k ≤ n := by
    induction os generalizing k with
    | nil => exact hk
    | cons o os ih =>
      obtain ⟨ho, hos⟩ := List.forall_mem_cons.mp h
      exact ih hos _ (max_le hk ho)
  exact hfold 0 (Nat.zero_le n)

theorem ofAlternatives_singleton (o : Outline) : ofAlternatives [o] = o := by
  rw [ofAlternatives]
  cases longest [o] <;> rfl

/-! ## Texts that are starts of one another -/

/-- The outline of a literal text. -/
def ofCodes : List Nat → Outline
  | [] => { kind := .nothing }
  | codes => { kind := .text false codes }

theorem height_ofCodes (codes : List Nat) : (ofCodes codes).height = 1 := by
  cases codes <;> rfl

theorem codes_ofCodes (codes : List Nat) : (ofCodes codes).kind.codes = codes := by
  cases codes <;> rfl

theorem drop_ofCodes (codes : List Nat) (n : Nat) :
    { ofCodes codes with kind := (ofCodes codes).kind.drop n } = ofCodes (codes.drop n) := by
  cases codes with
  | nil => simp [ofCodes, Kind.drop]
  | cons c codes =>
    simp only [ofCodes, Kind.drop]
    cases (c :: codes).drop n <;> rfl

/-- Texts of one, two and more times the same character. -/
def steps (c n : Nat) : List Outline :=
  (List.range n).map fun i => ofCodes (List.replicate (i + 1) c)

theorem steps_succ (c n : Nat) : steps c (n + 1) =
    ofCodes [c] :: (List.range n).map fun i => ofCodes (List.replicate (i + 2) c) := by
  simp [steps, List.range_succ_eq_map, Function.comp_def]

theorem startsLike_steps (c n : Nat) : (steps c n).IsChain (·.kind.startsLike ·.kind) := by
  refine (List.pairwise_of_forall_mem_list fun a ha b hb => ?_).isChain
  obtain ⟨i, -, rfl⟩ := List.mem_map.mp ha
  obtain ⟨j, -, rfl⟩ := List.mem_map.mp hb
  simp [List.replicate_succ, ofCodes, Kind.startsLike]

theorem sharedLength_steps (c n : Nat) : sharedLength (steps c (n + 1)) = 1 := by
  have hcommon (k : Nat) : commonLength [c] (List.replicate (k + 2) c) = 1 := by
    simp [List.replicate_succ, commonLength]
  have hfold (is : List Nat) : is.foldl (fun n i => min n
      (commonLength [c] (ofCodes (List.replicate (i + 2) c)).kind.codes)) 1 = 1 := by
    induction is with
    | nil => rfl
    | cons i is ih => simpa [codes_ofCodes, hcommon] using ih
  rw [steps_succ, sharedLength, List.foldl_map]
  exact hfold _

theorem behindShared_steps (c n : Nat) :
    behindShared (steps c (n + 1)) = ofCodes [] :: steps c n := by
  rw [behindShared, sharedLength_steps]
  simp [steps, drop_ofCodes, List.range_succ_eq_map, Function.comp_def]

theorem collapse_steps (below : List Outline → Outline) (c n : Nat) :
    collapse below (steps c (n + 2)) =
      { height := 1 + (below (ofCodes [] :: steps c (n + 1))).height } := by
  obtain ⟨b, rest, hcons⟩ : ∃ b rest, steps c (n + 2) = ofCodes [c] :: b :: rest :=
    ⟨_, _, by rw [steps_succ, List.range_succ_eq_map]; rfl⟩
  rw [← behindShared_steps, hcons]
  rfl

theorem factor_steps (c fuel n : Nat) : factor (fuel + 1) (steps c (n + 2)) =
    [{ height := 1 + (choice (factor fuel (ofCodes [] :: steps c (n + 1)))).height }] := by
  have hsplit : (steps c (n + 2)).splitBy (·.kind.startsLike ·.kind) = [steps c (n + 2)] :=
    List.splitBy_of_isChain (by simp [steps]) (startsLike_steps c _)
  rw [factor, hsplit, List.map_singleton, collapse_steps]
  rfl

theorem factor_nothing_steps (c fuel n : Nat) : factor (fuel + 1) (ofCodes [] :: steps c (n + 2)) =
    [ofCodes [], { height := 1 + (choice (factor fuel (ofCodes [] :: steps c (n + 1)))).height }] := by
  have hsplit : (ofCodes [] :: steps c (n + 2)).splitBy (·.kind.startsLike ·.kind) =
      [[ofCodes []], steps c (n + 2)] := by
    have happend := List.splitBy_append (r := fun a b : Outline => a.kind.startsLike b.kind)
      (l := [ofCodes []]) (m := steps c (n + 2)) (by simp [ofCodes, Kind.startsLike])
    rw [List.splitBy_of_isChain (by simp [steps]) (startsLike_steps c _)] at happend
    exact happend
  rw [factor, hsplit, List.map_cons, List.map_singleton, collapse_steps]
  rfl

theorem le_factor_nothing_steps (c : Nat) {fuel n : Nat} (hfuel : n ≤ fuel) :
    2 * n ≤ (choice (factor fuel (ofCodes [] :: steps c (n + 1)))).height := by
  induction n generalizing fuel with
  | zero => exact Nat.zero_le _
  | succ n ih =>
    obtain ⟨fuel, rfl⟩ := Nat.exists_eq_succ_of_ne_zero (n := fuel) (by omega)
    have hrest := ih (Nat.le_of_succ_le_succ hfuel)
    rw [factor_nothing_steps, choice]
    · simp only [List.foldl_cons, List.foldl_nil]
      omega
    · simp

theorem mergeNeighbours_of_none (h : ∀ o ∈ os, sort o.kind = false) :
    mergeNeighbours sort os = os := by
  induction os with
  | nil => rfl
  | cons o os ih =>
    obtain ⟨ho, hos⟩ := List.forall_mem_cons.mp h
    rw [mergeNeighbours, ih hos]
    cases os <;> simp [ho]

theorem mergeSingles_steps (c n : Nat) : mergeSingles (steps c n) = steps c n := by
  cases n with
  | zero => rfl
  | succ n =>
    have hlonger : ∀ o ∈ (List.range n).map fun i => ofCodes (List.replicate (i + 2) c),
        o.kind.isSingle = false := by
      intro o ho
      obtain ⟨i, -, rfl⟩ := List.mem_map.mp ho
      rfl
    rw [steps_succ, mergeSingles, mergeNeighbours, mergeNeighbours_of_none hlonger]
    cases hrest : (List.range n).map fun i => ofCodes (List.replicate (i + 2) c) with
    | nil => rfl
    | cons b rest =>
      have hb := hlonger b (hrest ▸ List.mem_cons_self)
      simp [hb]

theorem lt_ofAlternatives_steps (c n : Nat) :
    2 * n < (ofAlternatives (steps c (n + 2))).height := by
  have hlast : ofCodes (List.replicate (n + 2) c) ∈ steps c (n + 2) :=
    List.mem_map.mpr ⟨n + 1, by simp, rfl⟩
  have hlongest := (foldl_codes_le (steps c (n + 2)) 0).2 _ hlast
  rw [codes_ofCodes, List.length_replicate, ← longest] at hlongest
  obtain ⟨fuel, hfuel⟩ := Nat.exists_eq_succ_of_ne_zero (n := longest (steps c (n + 2))) (by omega)
  have hrest : 2 * n ≤ (choice (factor fuel (ofCodes [] :: steps c (n + 1)))).height :=
    le_factor_nothing_steps c (by omega)
  rw [ofAlternatives, mergeSingles_steps, hfuel, factor_steps, choice]
  dsimp only
  omega

end Outline

end Linewise.Pattern
