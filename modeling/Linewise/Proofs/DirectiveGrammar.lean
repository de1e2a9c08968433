import Linewise.Directive
import Mathlib

/-!
# The grammar of directives

A text is read from left to right. Each time the leftmost keyword with a verb that no word character
follows is taken, whatever stands before it. It needs a space and an id after it, and the text is
read on behind the id; so an id may look like anything, even like another directive. This is what the
scan of a line computes, and a line made of directives and of other text between them is read as
those directives.
-/

namespace Linewise.Directive

/-- A text starts with a directive of the given kind, and `rest` follows its verb. -/
def Begins (enable : Bool) (text rest : Bytes) : Prop :=
  text = opening enable ++ rest ∧ ∀ b ∈ rest.head?, Bytes.isWord b = false

/-- No directive starts in a text before its last part `after`. -/
def Free (before after : Bytes) : Prop :=
  ∀ k < before.length, ∀ enable rest, ¬Begins enable ((before ++ after).drop k) rest

/-- A rule id that stands before `after`: not empty, without blanks and as long as it can be. -/
structure IsId (id after : Bytes) : Prop where
  ne_nil : id ≠ []
  goes_on : ∀ b ∈ id, endsId b = false
  ends : ∀ b ∈ after.head?, endsId b = true

/-- The directives of a text, or the text of the first one without an id. -/
inductive Reads : Bytes → Except Bytes (List Directive) → Prop where
  | plain {text : Bytes} (hfree : Free text []) : Reads text (.ok [])
  | bare {before rest : Bytes} {enable : Bool} (hfree : Free before (opening enable ++ rest))
      (hword : ∀ b ∈ rest.head?, Bytes.isWord b = false)
      (hid : ∀ id after, IsId id after → rest ≠ 32 :: (id ++ after)) :
      Reads (before ++ (opening enable ++ rest)) (.error (opening enable))
  | directive {before id after : Bytes} {enable : Bool} {result : Except Bytes (List Directive)}
      (hfree : Free before (opening enable ++ 32 :: (id ++ after))) (hid : IsId id after)
      (hafter : Reads after result) :
      Reads (before ++ (opening enable ++ 32 :: (id ++ after)))
        (result.map (⟨enable, id⟩ :: ·))

theorem dropHead?_eq_some_iff {head text rest : Bytes} :
    Bytes.dropHead? head text = some rest ↔ text = head ++ rest := by
  unfold Bytes.dropHead?
  constructor
  · intro h
    split at h
    next hhead =>
      obtain ⟨tail, rfl⟩ := List.isPrefixOf_iff_prefix.mp hhead
      simpa using h
    next => cases h
  · rintro rfl
    simp

theorem afterVerb?_eq_some_iff {enable : Bool} {text rest : Bytes} :
    afterVerb? enable text = some rest ↔ Begins enable text rest := by
  unfold afterVerb? Begins
  rw [← dropHead?_eq_some_iff]
  cases Bytes.dropHead? (opening enable) text with
  | none => simp
  | some found =>
    simp only [Option.some.injEq]
    constructor
    · intro h
      split at h
      next => cases h
      next hword =>
        obtain rfl := Option.some.inj h
        exact ⟨rfl, fun b hb => by simpa [Option.mem_def.mp hb] using hword⟩
    · rintro ⟨rfl, hword⟩
      have hnone : found.head?.any Bytes.isWord = false := by
        cases hb : found.head? with
        | none => rfl
        | some b => exact hword b hb
      simp [hnone]

/-- The two kinds of directives do not start with each other. -/
theorem Begins.unique {enable enable' : Bool} {text rest rest' : Bytes}
    (h : Begins enable text rest) (h' : Begins enable' text rest') :
    enable = enable' ∧ rest = rest' := by
  obtain ⟨rfl, -⟩ := h
  obtain ⟨heq, -⟩ := h'
  have hkind : enable = enable' := by
    have hletter := congrArg (·[10]?) heq
    have hopening (kind : Bool) (more : Bytes) :
        (opening kind ++ more)[10]? = some (if kind then 101 else 100) := by
      cases kind <;> rfl
    simp only [hopening] at hletter
    cases enable <;> cases enable' <;> simp_all
  subst hkind
  exact ⟨rfl, List.append_cancel_left heq⟩

theorem start?_eq_some_iff {enable : Bool} {text rest : Bytes} :
    start? text = some (enable, rest) ↔ Begins enable text rest := by
  unfold start?
  cases ht : afterVerb? true text with
  | some found =>
    have hfound := afterVerb?_eq_some_iff.mp ht
    simp only [Option.some.injEq, Prod.mk.injEq]
    constructor
    · rintro ⟨rfl, rfl⟩
      exact hfound
    · exact fun h => hfound.unique h
  | none =>
    cases enable with
    | false => simp [afterVerb?_eq_some_iff]
    | true => simp [← afterVerb?_eq_some_iff, ht]

theorem start?_eq_none_iff {text : Bytes} :
    start? text = none ↔ ∀ enable rest, ¬Begins enable text rest := by
  rw [Option.eq_none_iff_forall_ne_some]
  constructor
  · exact fun h enable rest hb => h (enable, rest) (start?_eq_some_iff.mpr hb)
  · exact fun h found hs => h found.1 found.2 (start?_eq_some_iff.mp hs)

/-- What follows a verb has an id exactly when it is a space, the id and what comes after it. -/
theorem id?_eq_some_iff {rest id : Bytes} :
    id? rest = some id ↔ ∃ after, IsId id after ∧ rest = 32 :: (id ++ after) := by
  unfold id?
  constructor
  · intro h
    split at h
    next text =>
      have hsplit := List.takeWhile_append_dropWhile (p := (!endsId ·)) (l := text)
      have hends : ∀ b ∈ (text.dropWhile (!endsId ·)).head?, endsId b = true := by
        intro b hb
        have hnot := List.head?_dropWhile_not (!endsId ·) text
        rw [Option.mem_def.mp hb] at hnot
        simpa using hnot
      split at h
      next => cases h
      next found hne =>
        obtain rfl := Option.some.inj h
        refine ⟨text.dropWhile (!endsId ·), ⟨hne, fun b hb => ?_, hends⟩, by rw [hsplit]⟩
        simpa using List.all_eq_true.mp List.all_takeWhile b hb
    next => cases h
  · rintro ⟨after, ⟨hne, hgoes, hends⟩, rfl⟩
    have htake : (id ++ after).takeWhile (!endsId ·) = id := by
      rw [List.takeWhile_append_of_pos (by simpa using hgoes)]
      cases after with
      | nil => simp
      | cons b after => simp [hends b rfl]
    simp only [htake]

/-! ## The scan -/

theorem scanFrom_eq_drop (skip : Nat) (text : Bytes) :
    scanFrom skip text = scanFrom 0 (text.drop skip) := by
  induction text generalizing skip with
  | nil => simp [scanFrom]
  | cons b rest ih =>
    cases skip with
    | zero => rfl
    | succ skip => rw [scanFrom, ih, List.drop_succ_cons]

theorem Free.tail {b : UInt8} {before after : Bytes} (h : Free (b :: before) after) :
    Free before after :=
  fun k hk => h (k + 1) (Nat.succ_lt_succ hk)

/-- Text in which no directive starts is passed over. -/
theorem scanFrom_free {before after : Bytes} (h : Free before after) :
    scanFrom 0 (before ++ after) = scanFrom 0 after := by
  induction before with
  | nil => rfl
  | cons b before ih =>
    have hnone : start? (b :: (before ++ after)) = none :=
      start?_eq_none_iff.mpr (h 0 (Nat.succ_pos _))
    rw [List.cons_append, scanFrom, hnone]
    exact ih h.tail

theorem opening_eq_cons (enable : Bool) : ∃ more, opening enable = 88 :: more := by
  cases enable
  · exact ⟨_, rfl⟩
  · exact ⟨_, rfl⟩

/-- A directive without an id ends the scan. -/
theorem scanFrom_bare {enable : Bool} {rest : Bytes}
    (hword : ∀ b ∈ rest.head?, Bytes.isWord b = false) (hid : id? rest = none) :
    scanFrom 0 (opening enable ++ rest) = .error (opening enable) := by
  have hstart := start?_eq_some_iff.mpr (⟨rfl, hword⟩ : Begins enable (opening enable ++ rest) rest)
  obtain ⟨more, hmore⟩ := opening_eq_cons enable
  rw [hmore, List.cons_append] at hstart ⊢
  rw [scanFrom, hstart]
  simp only [hid, hmore]

/-- A directive with an id is taken, and the scan goes on behind the id. -/
theorem scanFrom_directive {enable : Bool} {id after : Bytes} (hid : IsId id after) :
    scanFrom 0 (opening enable ++ 32 :: (id ++ after)) =
      (scanFrom 0 after).map (⟨enable, id⟩ :: ·) := by
  have hstart := start?_eq_some_iff.mpr (⟨rfl, by simp; decide⟩ :
    Begins enable (opening enable ++ 32 :: (id ++ after)) (32 :: (id ++ after)))
  have hread := id?_eq_some_iff.mpr ⟨after, hid, rfl⟩
  obtain ⟨more, hmore⟩ := opening_eq_cons enable
  have hdrop : (more ++ 32 :: (id ++ after)).drop ((88 :: more).length + id.length) = after := by
    have hlength : (88 :: more).length + id.length = (more ++ 32 :: id).length := by
      simp only [List.length_cons, List.length_append]
      omega
    rw [hlength, show more ++ 32 :: (id ++ after) = (more ++ 32 :: id) ++ after by simp,
      List.drop_left]
  rw [hmore, List.cons_append] at hstart ⊢
  rw [scanFrom, hstart]
  simp only [hread, hmore]
  rw [scanFrom_eq_drop, hdrop]
  cases scanFrom 0 after <;> rfl

/-- The scan computes what the grammar says. -/
theorem Reads.scanFrom_eq {text : Bytes} {result : Except Bytes (List Directive)}
    (h : Reads text result) : scanFrom 0 text = result := by
  induction h with
  | @plain text hfree => simpa [scanFrom] using scanFrom_free hfree
  | @bare before rest enable hfree hword hid =>
    have hnone : id? rest = none := by
      refine Option.eq_none_iff_forall_ne_some.mpr fun id hsome => ?_
      obtain ⟨after, hisId, heq⟩ := id?_eq_some_iff.mp hsome
      exact hid id after hisId heq
    rw [scanFrom_free hfree, scanFrom_bare hword hnone]
  | directive hfree hid _ ih => rw [scanFrom_free hfree, scanFrom_directive hid, ih]

theorem Free.cons {b : UInt8} {before after : Bytes} (h : Free before after)
    (hhere : ∀ enable rest, ¬Begins enable (b :: (before ++ after)) rest) :
    Free (b :: before) after := by
  intro k hk
  cases k with
  | zero => exact hhere
  | succ k => exact h k (Nat.lt_of_succ_lt_succ hk)

/-- One byte more in front, at which no directive starts, makes no difference. -/
theorem Reads.cons {b : UInt8} {text : Bytes} {result : Except Bytes (List Directive)}
    (h : Reads text result) (hhere : ∀ enable rest, ¬Begins enable (b :: text) rest) :
    Reads (b :: text) result := by
  cases h with
  | plain hfree => exact .plain (hfree.cons (by simpa using hhere))
  | bare hfree hword hid =>
    exact @Reads.bare (b :: _) _ _ (hfree.cons hhere) hword hid
  | directive hfree hid hafter =>
    exact @Reads.directive (b :: _) _ _ _ _ (hfree.cons hhere) hid hafter

theorem free_nil (after : Bytes) : Free [] after := fun k hk => absurd hk (Nat.not_lt_zero k)

/-- The grammar gives every text a reading, and the scan finds it. -/
theorem reads_scanFrom (text : Bytes) : Reads text (scanFrom 0 text) := by
  induction hn : text.length using Nat.strongRecOn generalizing text with
  | _ n ih =>
    subst hn
    cases text with
    | nil => exact .plain (free_nil [])
    | cons b rest =>
      cases hs : start? (b :: rest) with
      | none =>
        rw [scanFrom, hs]
        exact (ih rest.length (Nat.lt_succ_self _) rest rfl).cons (start?_eq_none_iff.mp hs)
      | some found =>
        obtain ⟨enable, afterVerb⟩ := found
        obtain ⟨heq, hword⟩ := start?_eq_some_iff.mp hs
        rw [heq]
        cases hid : id? afterVerb with
        | none =>
          rw [scanFrom_bare hword hid]
          refine @Reads.bare [] _ _ (free_nil _) hword fun id after hisId heq => ?_
          rw [id?_eq_some_iff.mpr ⟨after, hisId, heq⟩] at hid
          cases hid
        | some id =>
          obtain ⟨after, hisId, rfl⟩ := id?_eq_some_iff.mp hid
          have hshorter : after.length < (b :: rest).length := by
            rw [heq]
            simp only [List.length_append, List.length_cons]
            omega
          rw [scanFrom_directive hisId]
          exact @Reads.directive [] _ _ _ _ (free_nil _) hisId (ih after.length hshorter after rfl)

theorem reads_iff {text : Bytes} {result : Except Bytes (List Directive)} :
    Reads text result ↔ scanFrom 0 text = result :=
  ⟨Reads.scanFrom_eq, fun h => h ▸ reads_scanFrom text⟩

/-! ## Lines made of directives -/

/-- The word that every directive starts with. -/
def sign : Bytes := utf8 "X11_FUZZ:"

/-- The text of a directive. -/
def text (d : Directive) : Bytes := opening d.enable ++ 32 :: d.rule

/-- A line of directives with other text before the first and after each of them. -/
def written (first : Bytes) (parts : List (Directive × Bytes)) : Bytes :=
  first ++ parts.flatMap fun (d, filler) => d.text ++ filler

/-- The ids of directives can be ids, the other text has no sign of a directive, and a blank ends each
id unless the line does. -/
inductive Spaced : Bytes → List (Directive × Bytes) → Prop where
  | nil {first : Bytes} (hfree : ¬sign <:+: first) : Spaced first []
  | cons {first filler : Bytes} {d : Directive} {parts : List (Directive × Bytes)}
      (hfree : ¬sign <:+: first) (hne : d.rule ≠ []) (hgoes : ∀ b ∈ d.rule, endsId b = false)
      (hstarts : (∃ b rest, filler = b :: rest ∧ endsId b = true) ∨ filler = [] ∧ parts = [])
      (hparts : Spaced filler parts) : Spaced first ((d, filler) :: parts)

theorem sign_prefix_opening (enable : Bool) : sign <+: opening enable := by
  cases enable <;> decide

/-- The sign has its first letter only once. -/
theorem sign_letters : ∀ k < 9, 0 < k → sign[k]? ≠ none ∧ sign[k]? ≠ some 88 := by decide

/-- A sign that starts before a directive ends before it, too. -/
theorem sign_prefix_append {front after : Bytes} (hfront : front ≠ [])
    (hafter : after = [] ∨ after.head? = some 88) (h : sign <+: front ++ after) : sign <+: front := by
  by_cases hlong : sign.length ≤ front.length
  · exact List.prefix_of_prefix_length_le h (List.prefix_append front after) hlong
  · have hshort : front.length < sign.length := Nat.lt_of_not_le hlong
    obtain ⟨rest, hrest⟩ := h
    have hletter := congrArg (·[front.length]?) hrest
    simp only [List.getElem?_append_left hshort, List.getElem?_append_right (Nat.le_refl _),
      Nat.sub_self, ← List.head?_eq_getElem?] at hletter
    obtain ⟨hsome, hother⟩ := sign_letters front.length hshort (List.length_pos_iff.mpr hfront)
    rcases hafter with rfl | hhead
    · exact absurd hletter hsome
    · exact absurd (hletter.trans hhead) hother

/-- No directive starts in text without the sign of one, when the line ends or a directive comes
after it. -/
theorem free_of_sign {filler after : Bytes} (hfree : ¬sign <:+: filler)
    (hafter : after = [] ∨ after.head? = some 88) : Free filler after := by
  rintro k hk enable rest ⟨hbegins, -⟩
  have hfront : filler.drop k ≠ [] := by simpa using hk
  rw [List.drop_append_of_le_length hk.le] at hbegins
  have hprefix : sign <+: filler.drop k ++ after :=
    hbegins ▸ (sign_prefix_opening enable).trans (List.prefix_append _ _)
  exact hfree ((sign_prefix_append hfront hafter hprefix).isInfix.trans (List.drop_suffix k _).isInfix)

theorem head?_written (parts : List (Directive × Bytes)) :
    written [] parts = [] ∨ (written [] parts).head? = some 88 := by
  cases parts with
  | nil => exact .inl rfl
  | cons part parts =>
    obtain ⟨more, hmore⟩ := opening_eq_cons part.1.enable
    exact .inr (by simp [written, text, hmore])

theorem written_eq (first : Bytes) (parts : List (Directive × Bytes)) :
    written first parts = first ++ written [] parts := by
  simp [written]

theorem ends_written {filler : Bytes} {parts : List (Directive × Bytes)}
    (h : (∃ b rest, filler = b :: rest ∧ endsId b = true) ∨ filler = [] ∧ parts = []) :
    ∀ b ∈ (written filler parts).head?, endsId b = true := by
  intro b hb
  rcases h with ⟨b', rest, rfl, hblank⟩ | ⟨rfl, rfl⟩
  · obtain rfl : b' = b := by simpa [written] using hb
    exact hblank
  · simp [written] at hb

/-- A line made of directives is read as these directives. -/
theorem Spaced.reads {first : Bytes} {parts : List (Directive × Bytes)} (h : Spaced first parts) :
    Reads (written first parts) (.ok (parts.map (·.1))) := by
  induction h with
  | nil hfree => exact .plain (by simpa [written] using free_of_sign hfree (.inl rfl))
  | @cons first filler d parts hfree hne hgoes hstarts _ ih =>
    have hline : written [] ((d, filler) :: parts) =
        opening d.enable ++ 32 :: (d.rule ++ written filler parts) := by
      simp [written, text]
    have hfirst := free_of_sign hfree (head?_written ((d, filler) :: parts))
    rw [hline] at hfirst
    rw [written_eq, hline]
    exact .directive hfirst ⟨hne, hgoes, ends_written hstarts⟩ ih

/-- Reading the directives of a line follows the grammar to the byte, and so a line written in it is
read as what was written. -/
theorem parse_follows_grammar (number : Int) :
    (∀ line : Bytes,
      (∀ ds, parse line number = .ok ds ↔ Reads line (.ok ds)) ∧
        ∀ e, parse line number = .error e ↔
          ∃ fragment, e = ⟨number, fragment⟩ ∧ Reads line (.error fragment)) ∧
    ∀ (first : Bytes) (parts : List (Directive × Bytes)), Spaced first parts →
      parse (written first parts) number = .ok (parts.map (·.1)) := by
  refine ⟨fun line => ⟨fun ds => ?_, fun e => ?_⟩, fun first parts h => ?_⟩
  · rw [parse, reads_iff]
    cases scanFrom 0 line <;> simp
  · rw [parse]
    cases hs : scanFrom 0 line with
    | ok ds => simp [reads_iff, hs]
    | error fragment => simp [reads_iff, hs, eq_comm]
  · rw [parse, h.reads.scanFrom_eq]

/-- A keyword is swallowed as an id, one that was cut short is passed over, and a vertical tab does not
end an id. -/
theorem parse_follows_grammar_swallowing :
    let parts : List (Directive × Bytes) :=
      [(⟨false, utf8 "X11_FUZZ:"⟩, utf8 "\tX11_"), (⟨true, utf8 "r\u000b"⟩, [])]
    Spaced (utf8 "X11_FUZZ") parts ∧
      written (utf8 "X11_FUZZ") parts =
        utf8 "X11_FUZZX11_FUZZ: disable X11_FUZZ:\tX11_X11_FUZZ: enable r\u000b" ∧
      parse (written (utf8 "X11_FUZZ") parts) 1 =
        .ok [⟨false, utf8 "X11_FUZZ:"⟩, ⟨true, utf8 "r\u000b"⟩] := by
  intro parts
  have hspaced : Spaced (utf8 "X11_FUZZ") parts := by
    refine .cons (by decide +kernel) (by decide) (by decide +kernel)
      (.inl ⟨9, utf8 "X11_", rfl, rfl⟩) ?_
    refine .cons (by decide +kernel) (by decide) (by decide +kernel) (.inr ⟨rfl, rfl⟩) ?_
    exact .nil (by decide +kernel)
  exact ⟨hspaced, by decide, (parse_follows_grammar 1).2 _ parts hspaced⟩

end Linewise.Directive
