import Linewise.Proofs.DirectiveGrammar

/-!
# Blanks between directives

The only blanks in a directive are single spaces, each with something else on both sides. So the
directives of a text stay what they are when its blanks are replaced by others, unless a single
space becomes another gap or another gap a single space. At the end of a text blanks may come and go.
-/

namespace Linewise.Directive

/-- Blanks other than a single space. -/
structure IsGap (gap : Bytes) : Prop where
  ne_nil : gap ≠ []
  blank : ∀ b ∈ gap, endsId b = true
  ne_space : gap ≠ [32]

/-- Two texts that differ in gaps and in the blanks at their ends only. -/
inductive Respaced : Bytes → Bytes → Prop where
  | ending {a a' : Bytes} (ha : ∀ b ∈ a, endsId b = true) (ha' : ∀ b ∈ a', endsId b = true) :
      Respaced a a'
  | byte (b : UInt8) {text text' : Bytes} (h : Respaced text text') :
      Respaced (b :: text) (b :: text')
  | gap {a a' text text' : Bytes} (ha : IsGap a) (ha' : IsGap a') (h : Respaced text text') :
      Respaced (a ++ text) (a' ++ text')

/-- Text whose blanks are single spaces, each of them followed by something else. -/
def Firm : Bytes → Prop
  | [] => True
  | b :: rest => (endsId b = true → b = 32 ∧ rest.head?.any (!endsId ·) = true) ∧ Firm rest

instance decidableFirm : (text : Bytes) → Decidable (Firm text)
  | [] => isTrue trivial
  | _ :: rest => @instDecidableAnd _ _ inferInstance (decidableFirm rest)

variable {text text' rest rest' : Bytes}

theorem firm_opening (enable : Bool) : Firm (opening enable) := by
  cases enable
  · decide
  · decide

theorem firm_of_no_blank {word : Bytes} (h : ∀ b ∈ word, endsId b = false) : Firm word := by
  induction word with
  | nil => trivial
  | cons b word ih =>
    have hb := h b List.mem_cons_self
    exact ⟨by simp [hb], ih fun c hc => h c (List.mem_cons_of_mem _ hc)⟩

theorem IsId.firm {id after : Bytes} (h : IsId id after) : Firm (32 :: id) := by
  refine ⟨fun _ => ⟨rfl, ?_⟩, firm_of_no_blank h.goes_on⟩
  cases id with
  | nil => exact absurd rfl h.ne_nil
  | cons b id => simpa using h.goes_on b List.mem_cons_self

theorem Firm.next {b : UInt8} {word : Bytes} (h : Firm (b :: word)) (hb : endsId b = true) :
    b = 32 ∧ ∃ c more, word = c :: more ∧ endsId c = false := by
  obtain ⟨hspace, hhead⟩ := h.1 hb
  cases word with
  | nil => simp at hhead
  | cons c more => exact ⟨hspace, c, more, rfl, by simpa using hhead⟩

/-! ## Texts that differ in their blanks -/

theorem Respaced.symm (h : Respaced text text') : Respaced text' text := by
  induction h with
  | ending ha ha' => exact .ending ha' ha
  | byte b _ ih => exact .byte b ih
  | gap ha ha' _ ih => exact .gap ha' ha ih

/-- What holds of all blanks holds of the first byte of both texts or of neither. -/
theorem Respaced.head {p : UInt8 → Prop} (hp : ∀ b, endsId b = true → p b)
    (h : Respaced text text') (hhead : ∀ b ∈ text.head?, p b) : ∀ b ∈ text'.head?, p b := by
  intro b hb
  cases h with
  | ending ha ha' => exact hp b (ha' b (List.mem_of_mem_head? hb))
  | byte c h => exact hhead b hb
  | @gap a a' text text' ha ha' h =>
    rw [List.head?_append_of_ne_nil _ ha'.ne_nil] at hb
    exact hp b (ha'.blank b (List.mem_of_mem_head? hb))

/-- Firm text is found in both texts or in neither. -/
theorem Respaced.exists_of_firm {word : Bytes} (hfirm : Firm word) (h : Respaced text text')
    (heq : text = word ++ rest) : ∃ rest', text' = word ++ rest' ∧ Respaced rest rest' := by
  induction word generalizing text text' with
  | nil =>
    obtain rfl : text = rest := heq
    exact ⟨text', rfl, h⟩
  | cons b word ih =>
    cases h with
    | ending ha ha' =>
      exfalso
      obtain ⟨-, c, more, rfl, hc⟩ := hfirm.next (ha b (by simp [heq]))
      simp [ha c (by simp [heq])] at hc
    | byte c h =>
      obtain ⟨rfl, htail⟩ := List.cons.inj heq
      obtain ⟨rest', rfl, hrest⟩ := ih hfirm.2 h htail
      exact ⟨rest', rfl, hrest⟩
    | @gap a a' text text' ha ha' h =>
      -- Firm text has something else after a space, where the gap goes on.
      exfalso
      obtain ⟨c, gap, rfl⟩ := List.exists_cons_of_ne_nil ha.ne_nil
      obtain ⟨rfl, htail⟩ := List.cons.inj heq
      obtain ⟨rfl, d, more, rfl, hd⟩ := hfirm.next (ha.blank c List.mem_cons_self)
      cases gap with
      | nil => exact ha.ne_space rfl
      | cons e gap =>
        obtain ⟨rfl, -⟩ := List.cons.inj htail
        simp [ha.blank e (by simp)] at hd

/-! ## The scan -/

theorem Begins.respaced {enable : Bool} (hbegins : Begins enable text rest)
    (h : Respaced text text') : ∃ rest', Begins enable text' rest' ∧ Respaced rest rest' := by
  obtain ⟨heq, hword⟩ := hbegins
  obtain ⟨rest', heq', hrest⟩ := h.exists_of_firm (firm_opening enable) heq
  have hblank : ∀ b, endsId b = true → Bytes.isWord b = false := by
    intro b hb
    simp only [endsId, Bool.or_eq_true, beq_iff_eq] at hb
    rcases hb with (((rfl | rfl) | rfl) | rfl) | rfl <;> decide
  exact ⟨rest', ⟨heq', hrest.head hblank hword⟩, hrest⟩

theorem IsId.respaced {id after : Bytes} (hid : IsId id after)
    (h : Respaced (32 :: (id ++ after)) text') :
    ∃ after', text' = 32 :: (id ++ after') ∧ IsId id after' ∧ Respaced after after' := by
  obtain ⟨after', heq, hafter⟩ := h.exists_of_firm hid.firm rfl
  exact ⟨after', heq, ⟨hid.ne_nil, hid.goes_on, hafter.head (fun _ hb => hb) hid.ends⟩, hafter⟩

theorem Respaced.start?_eq_none (h : Respaced text text') (hnone : start? text = none) :
    start? text' = none := by
  rw [start?_eq_none_iff] at hnone ⊢
  intro enable rest' hbegins
  obtain ⟨rest, hbegins', -⟩ := hbegins.respaced h.symm
  exact hnone enable rest hbegins'

theorem Respaced.id?_eq_none (h : Respaced text text') (hnone : id? text = none) :
    id? text' = none := by
  rw [Option.eq_none_iff_forall_ne_some] at hnone ⊢
  intro id hid
  obtain ⟨after', hisId, rfl⟩ := id?_eq_some_iff.mp hid
  obtain ⟨after, heq, hisId', -⟩ := hisId.respaced h.symm
  exact hnone id (id?_eq_some_iff.mpr ⟨after, hisId', heq⟩)

theorem start?_of_blank {b : UInt8} (hb : endsId b = true) (rest : Bytes) :
    start? (b :: rest) = none := by
  rw [start?_eq_none_iff]
  rintro enable after ⟨heq, -⟩
  obtain ⟨more, hmore⟩ := opening_eq_cons enable
  rw [hmore] at heq
  obtain ⟨rfl, -⟩ := List.cons.inj heq
  simp [endsId] at hb

theorem scanFrom_blank_append {blanks : Bytes} (h : ∀ b ∈ blanks, endsId b = true) (rest : Bytes) :
    scanFrom 0 (blanks ++ rest) = scanFrom 0 rest := by
  induction blanks with
  | nil => rfl
  | cons b blanks ih =>
    rw [List.cons_append, scanFrom, start?_of_blank (h b List.mem_cons_self)]
    exact ih fun c hc => h c (List.mem_cons_of_mem _ hc)

/-- Texts that differ in their blanks have the same directives, or the same first directive without
an id. -/
theorem Respaced.scanFrom_eq (h : Respaced text text') : scanFrom 0 text = scanFrom 0 text' := by
  induction hn : text.length using Nat.strongRecOn generalizing text text' with
  | _ n ih =>
    subst hn
    cases hs : start? text with
    | some found =>
      obtain ⟨enable, rest⟩ := found
      have hbegins := start?_eq_some_iff.mp hs
      obtain ⟨rest', ⟨rfl, hword'⟩, hrest⟩ := hbegins.respaced h
      obtain ⟨rfl, hword⟩ := hbegins
      cases hid : id? rest with
      | none => rw [scanFrom_bare hword hid, scanFrom_bare hword' (hrest.id?_eq_none hid)]
      | some id =>
        obtain ⟨after, hisId, rfl⟩ := id?_eq_some_iff.mp hid
        obtain ⟨after', rfl, hisId', hafter⟩ := hisId.respaced hrest
        have hshorter : after.length < (opening enable ++ 32 :: (id ++ after)).length := by
          simp only [List.length_append, List.length_cons]
          omega
        rw [scanFrom_directive hisId, scanFrom_directive hisId', ih _ hshorter hafter rfl]
    | none =>
      have hs' := h.start?_eq_none hs
      cases h with
      | ending ha ha' =>
        have hblank := scanFrom_blank_append ha []
        have hblank' := scanFrom_blank_append ha' []
        rw [List.append_nil] at hblank hblank'
        rw [hblank, hblank']
      | byte b h =>
        rw [scanFrom, scanFrom, hs, hs']
        exact ih _ (Nat.lt_succ_self _) h rfl
      | @gap a a' text text' ha ha' h =>
        have hshorter : text.length < (a ++ text).length := by
          rw [List.length_append]
          exact Nat.lt_add_of_pos_left (List.length_pos_iff.mpr ha.ne_nil)
        rw [scanFrom_blank_append ha.blank, scanFrom_blank_append ha'.blank]
        exact ih _ hshorter h rfl

theorem Respaced.parse_eq (h : Respaced text text') (number : Int) :
    parse text number = parse text' number := by
  rw [parse, parse, h.scanFrom_eq]

end Linewise.Directive
