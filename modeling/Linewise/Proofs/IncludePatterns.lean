import Linewise.Proofs.ChoicePatterns
import Linewise.Proofs.FilterDecisions

/-!
# What the include patterns mean

The include patterns stand for file extensions and for names of files, whatever characters these are
made of. They can be read unless they are over a limit, and they are found in the paths that end in a
dot and one of the extensions, or in one of the names behind a slash or on its own.
-/

namespace Linewise

namespace Pattern
open Utf8

variable {before after : Option Char} {s : List Char} {ts : List (List Char)}

/-! ## Where a choice at the end is found -/

theorem matches_choice_iff (hne : ts ≠ []) :
    Matches (choice (ts.map word)) before s after ↔ s ∈ ts := by
  induction ts with
  | nil => exact absurd rfl hne
  | cons t ts ih =>
    cases ts with
    | nil => simp [choice, matches_word_iff]
    | cons u us =>
      have hchoice : choice ((t :: u :: us).map word) =
          .either (word t) (choice ((u :: us).map word)) := rfl
      rw [hchoice, matches_either_iff, matches_word_iff, ih (List.cons_ne_nil u us)]
      exact List.mem_cons.symm

theorem matches_anchored_iff {p : Pattern} (hne : ts ≠ []) :
    Matches (anchored p ts) before s after ↔
      after = none ∧ ∃ u, ∃ t ∈ ts, s = u ++ t ∧ Matches p before u (firstOr t after) := by
  simp only [anchored, matches_concat_iff, matches_choice_iff hne, matches_assertion_iff,
    Assertion.holds, Option.isNone_iff_eq_none]
  constructor
  · rintro ⟨u, _, rfl, hu, t, _, rfl, ht, rfl, rfl⟩
    rw [List.append_nil] at hu ⊢
    exact ⟨rfl, u, t, ht, rfl, hu⟩
  · rintro ⟨rfl, u, t, ht, rfl, hu⟩
    exact ⟨u, t, rfl, hu, t, [], by simp, ht, rfl, rfl⟩

theorem occursIn_anchored_iff {p : Pattern} {stretches : Option Char → List Char → Prop}
    (hp : ∀ before u after, Matches p before u after ↔ stretches before u) (hne : ts ≠ [])
    (text : Bytes) : (anchored p ts).occursIn text = true ↔
      ∃ a u, ∃ t ∈ ts, chars text = a ++ (u ++ t) ∧ stretches a.getLast? u := by
  simp only [occursIn_iff, Occurs, matches_anchored_iff hne, hp, List.head?_eq_none_iff]
  constructor
  · rintro ⟨a, _, _, htext, rfl, u, t, ht, rfl, hu⟩
    rw [List.append_nil] at htext
    exact ⟨a, u, t, ht, htext, hu⟩
  · rintro ⟨a, u, t, ht, htext, hu⟩
    exact ⟨a, u ++ t, [], by rw [htext, List.append_nil], rfl, u, t, ht, rfl, hu⟩

end Pattern

namespace PathFilter
open Utf8 Pattern

variable {es ns ts : List (List Char)} {path : Bytes}

/-! ## Reading the include patterns -/

/-- The pattern for some extensions. -/
def extensionPattern (es : List (List Char)) : List Char := anchoredText ['\\', '.'] es

/-- The pattern for some names of files. -/
def filenamePattern (ns : List (List Char)) : List Char := anchoredText ['(', '^', '|', '/', ')'] ns

theorem includePatterns_encode (es ns : List (List Char)) :
    includePatterns (es.map encode) (ns.map encode) =
      (if es = [] then [] else [encode (extensionPattern es)]) ++
        (if ns = [] then [] else [encode (filenamePattern ns)]) := by
  have hextension : utf8 "\\.(" ++ encode (barred es) ++ utf8 ")$" =
      encode (extensionPattern es) := by
    simp only [extensionPattern, anchoredText, encode_append, encode_cons, List.append_assoc]
    rfl
  have hfilename : utf8 "(^|/)(" ++ encode (barred ns) ++ utf8 ")$" =
      encode (filenamePattern ns) := by
    simp only [filenamePattern, anchoredText, encode_append, encode_cons, List.append_assoc]
    rfl
  rw [includePatterns, quoteAll_encode, quoteAll_encode, hextension, hfilename]
  simp only [List.isEmpty_iff, List.map_eq_nil_iff]

/-- The start of the text or a slash. -/
def front : Piece := Level.group ⟨[{ pattern := .assertion .textStart }], [plain '/']⟩

theorem leads_front {size height : Nat} {whole : Bytes} {rest : List Char} (hsize : 5 ≤ size)
    (hheight : 3 ≤ height) : Leads size height whole {} [] (['(', '^', '|', '/', ')'] ++ rest)
      ⟨[], [front]⟩ [] rest := by
  refine (leads_open (by simp)).trans (leads_textStart.trans ?_)
  refine (leads_bar rfl (Nat.le_of_add_left_le hsize) (Nat.le_of_add_left_le hheight)).trans ?_
  refine (leads_quoteChar '/').trans ?_
  exact leads_close ⟨Nat.le_of_add_left_le hsize, Nat.le_of_add_left_le hheight⟩ hsize hheight

theorem readAs_extensionPattern (hne : es ≠ []) :
    ReadAs (choiceSize es + 4) (max 1 (choiceHeight es + 1) + 1) (encode (extensionPattern es))
      (anchored (.literal '.'.toNat) es) := by
  have hsize : (plain '.').size = 1 := rfl
  have hheight : (plain '.').height = 1 := rfl
  apply readAs_anchored (x := plain '.') hne
  · omega
  · rw [hheight]
  · exact fun _ => leads_quoteChar '.'

theorem readAs_filenamePattern (hne : ns ≠ []) :
    ReadAs (choiceSize ns + 8) (max 3 (choiceHeight ns + 1) + 1) (encode (filenamePattern ns))
      (anchored (.either (.assertion .textStart) (.literal '/'.toNat)) ns) := by
  have hsize : front.size = 5 := rfl
  have hheight : front.height = 3 := rfl
  apply readAs_anchored (x := front) hne
  · omega
  · rw [hheight]
  · exact fun _ => leads_front (by omega) (by omega)

/-- The reader does not give up a pattern because it is too large or too deep. -/
def WithinLimits (text : Bytes) : Prop :=
  ∀ e, parse text = .error e → e.fault ≠ .tooLarge ∧ e.fault ≠ .tooDeep

theorem parse_of_withinLimits {text : Bytes} {size height : Nat} {p : Pattern}
    (h : WithinLimits text) (hread : ReadAs size height text p) : parse text = .ok p := by
  rcases hread with ⟨fault, hover, herror⟩ | hok
  · obtain ⟨hlarge, hdeep⟩ := h _ herror
    rcases hover with ⟨rfl, -⟩ | ⟨rfl, -⟩
    · exact absurd rfl hlarge
    · exact absurd rfl hdeep
  · exact hok

theorem withinLimits_of_readAs {text : Bytes} {size height : Nat} {p : Pattern}
    (hread : ReadAs size height text p) (hsize : size ≤ maxSize) (hheight : height ≤ maxHeight) :
    WithinLimits text := by
  intro e herror
  rcases hread with ⟨fault, ⟨-, hlarge⟩ | ⟨-, hdeep⟩, -⟩ | hok
  · omega
  · omega
  · rw [hok] at herror
    cases herror

theorem mem_includePatterns_iff {text : Bytes} :
    text ∈ includePatterns (es.map encode) (ns.map encode) ↔
      es ≠ [] ∧ text = encode (extensionPattern es) ∨
        ns ≠ [] ∧ text = encode (filenamePattern ns) := by
  rw [includePatterns_encode, List.mem_append]
  by_cases hes : es = [] <;> by_cases hns : ns = [] <;> simp [hes, hns]

/-- Extensions and names of files are within the limits if they are not too long and not too many. -/
theorem withinLimits_of_length {n : Nat} (hn : 2 * n + 4 ≤ maxHeight)
    (hes : ∀ e ∈ es, e.length ≤ n) (hns : ∀ m ∈ ns, m.length ≤ n)
    (hsize : choiceSize es + 4 ≤ maxSize) (hsize' : choiceSize ns + 8 ≤ maxSize) :
    ∀ text ∈ includePatterns (es.map encode) (ns.map encode), WithinLimits text := by
  have hheight := choiceHeight_le hes
  have hheight' := choiceHeight_le hns
  intro text htext
  rcases mem_includePatterns_iff.mp htext with ⟨hne, rfl⟩ | ⟨hne, rfl⟩
  · exact withinLimits_of_readAs (readAs_extensionPattern hne) hsize (by omega)
  · exact withinLimits_of_readAs (readAs_filenamePattern hne) hsize' (by omega)

/-! ## What they are found in -/

theorem exists_chars_eq_iff {c : Char} (hc : c.toNat < 0x80) (hpath : isValid path = true)
    (t : List Char) : (∃ a, chars path = a ++ c :: t) ↔ Bytes.ascii c :: encode t <:+ path := by
  constructor
  · rintro ⟨a, h⟩
    refine ⟨encode a, ?_⟩
    rw [← encode_chars hpath, h, encode_append, encode_cons, utf8EncodeChar_of_lt hc]
    rfl
  · rintro ⟨x, rfl⟩
    exact ⟨chars x, (chars_eq_append_cons_iff hc).mpr ⟨x, encode t, rfl, rfl, chars_encode t⟩⟩

theorem occursIn_extension_iff (hne : es ≠ []) (hpath : isValid path = true) :
    (anchored (.literal '.'.toNat) es).occursIn path = true ↔
      ∃ e ∈ es, Bytes.ascii '.' :: encode e <:+ path := by
  rw [occursIn_anchored_iff (fun _ _ _ => matches_char_iff) hne]
  constructor
  · rintro ⟨a, _, e, he, hchars, rfl⟩
    exact ⟨e, he, (exists_chars_eq_iff (by decide) hpath e).mp ⟨a, hchars⟩⟩
  · rintro ⟨e, he, hsuffix⟩
    obtain ⟨a, hchars⟩ := (exists_chars_eq_iff (by decide) hpath e).mpr hsuffix
    exact ⟨a, ['.'], e, he, hchars, rfl⟩

theorem occursIn_filename_iff (hne : ns ≠ []) (hpath : isValid path = true) :
    (anchored (.either (.assertion .textStart) (.literal '/'.toNat)) ns).occursIn path = true ↔
      ∃ n ∈ ns, path = encode n ∨ Bytes.ascii '/' :: encode n <:+ path := by
  have hfront (before after : Option Char) (u : List Char) :
      Matches (.either (.assertion .textStart) (.literal '/'.toNat)) before u after ↔
        before = none ∧ u = [] ∨ u = ['/'] := by
    rw [matches_either_iff, matches_assertion_iff, matches_char_iff, Assertion.holds,
      Option.isNone_iff_eq_none]
  rw [occursIn_anchored_iff (fun before u after => hfront before after u) hne]
  constructor
  · rintro ⟨a, u, n, hn, hchars, ⟨hstart, rfl⟩ | rfl⟩
    · rw [List.getLast?_eq_none_iff.mp hstart] at hchars
      refine ⟨n, hn, .inl ?_⟩
      rw [← encode_chars hpath, hchars]
      rfl
    · exact ⟨n, hn, .inr ((exists_chars_eq_iff (by decide) hpath n).mp ⟨a, hchars⟩)⟩
  · rintro ⟨n, hn, rfl | hsuffix⟩
    · exact ⟨[], [], n, hn, chars_encode n, .inl ⟨rfl, rfl⟩⟩
    · obtain ⟨a, hchars⟩ := (exists_chars_eq_iff (by decide) hpath n).mpr hsuffix
      exact ⟨a, ['/'], n, hn, hchars, .inr rfl⟩

theorem compiles_of_withinLimits {text : Bytes}
    (htext : text ∈ includePatterns (es.map encode) (ns.map encode)) (h : WithinLimits text) :
    Compiles text := by
  rcases mem_includePatterns_iff.mp htext with ⟨hne, rfl⟩ | ⟨hne, rfl⟩
  · exact ⟨_, parse_of_withinLimits h (readAs_extensionPattern hne)⟩
  · exact ⟨_, parse_of_withinLimits h (readAs_filenamePattern hne)⟩

theorem foundIn_iff_of_parse {text : Bytes} {p : Pattern} (h : parse text = .ok p) :
    FoundIn path text ↔ p.occursIn path = true := by
  simp [FoundIn, h]

theorem exists_foundIn_iff (hpath : isValid path = true)
    (hlimits : ∀ text ∈ includePatterns (es.map encode) (ns.map encode), WithinLimits text) :
    (∃ text ∈ includePatterns (es.map encode) (ns.map encode), FoundIn path text) ↔
      (∃ e ∈ es, Bytes.ascii '.' :: encode e <:+ path) ∨
        ∃ n ∈ ns, path = encode n ∨ Bytes.ascii '/' :: encode n <:+ path := by
  have hextension (hne : es ≠ []) : FoundIn path (encode (extensionPattern es)) ↔
      ∃ e ∈ es, Bytes.ascii '.' :: encode e <:+ path := by
    have hlimit := hlimits (encode (extensionPattern es))
      (mem_includePatterns_iff.mpr (.inl ⟨hne, rfl⟩))
    rw [foundIn_iff_of_parse (parse_of_withinLimits hlimit (readAs_extensionPattern hne))]
    exact occursIn_extension_iff hne hpath
  have hfilename (hne : ns ≠ []) : FoundIn path (encode (filenamePattern ns)) ↔
      ∃ n ∈ ns, path = encode n ∨ Bytes.ascii '/' :: encode n <:+ path := by
    have hlimit := hlimits (encode (filenamePattern ns))
      (mem_includePatterns_iff.mpr (.inr ⟨hne, rfl⟩))
    rw [foundIn_iff_of_parse (parse_of_withinLimits hlimit (readAs_filenamePattern hne))]
    exact occursIn_filename_iff hne hpath
  simp only [mem_includePatterns_iff]
  constructor
  · rintro ⟨_, ⟨hne, rfl⟩ | ⟨hne, rfl⟩, hfound⟩
    · exact .inl ((hextension hne).mp hfound)
    · exact .inr ((hfilename hne).mp hfound)
  · rintro (⟨e, he, h⟩ | ⟨n, hn, h⟩)
    · have hne := List.ne_nil_of_mem he
      exact ⟨_, .inl ⟨hne, rfl⟩, (hextension hne).mpr ⟨e, he, h⟩⟩
    · have hne := List.ne_nil_of_mem hn
      exact ⟨_, .inr ⟨hne, rfl⟩, (hfilename hne).mpr ⟨n, hn, h⟩⟩

theorem exists_map_encode {texts : List Bytes} (h : ∀ text ∈ texts, isValid text = true) :
    ∃ ts : List (List Char), ts.map encode = texts := by
  refine ⟨texts.map chars, ?_⟩
  rw [List.map_map]
  conv_rhs => rw [← List.map_id texts]
  exact List.map_congr_left fun text htext => encode_chars (h text htext)

/-- The include patterns for some extensions and names of files can be read unless a limit is
exceeded. The filter made of them lets in all directories and those files whose path ends in a dot and
one of the extensions, or is one of the names, or ends in a slash and one of the names. -/
theorem includePatterns_mean_literals (extensions filenames : List Bytes)
    (hextensions : ∀ e ∈ extensions, isValid e = true)
    (hfilenames : ∀ n ∈ filenames, isValid n = true) (hne : extensions ≠ [] ∨ filenames ≠ [])
    (hlimits : ∀ text ∈ includePatterns extensions filenames, WithinLimits text) :
    ∃ f, new (includePatterns extensions filenames) [] = .ok f ∧ ∀ t : Target,
      (t.isDirectory = true → f.rejects t = false) ∧
        (t.isDirectory = false → isValid t.fullPath = true →
          (f.rejects t = false ↔ (∃ e ∈ extensions, Bytes.ascii '.' :: e <:+ t.fullPath) ∨
            ∃ n ∈ filenames, t.fullPath = n ∨ Bytes.ascii '/' :: n <:+ t.fullPath)) := by
  obtain ⟨es, rfl⟩ := exists_map_encode hextensions
  obtain ⟨ns, rfl⟩ := exists_map_encode hfilenames
  obtain ⟨f, hf⟩ : ∃ f, new (includePatterns (es.map encode) (ns.map encode)) [] = .ok f :=
    exists_new_iff.mpr ⟨fun text htext => compiles_of_withinLimits htext (hlimits text htext), by simp⟩
  have hbuilt := builtFrom_of_new hf
  refine ⟨f, hf, fun t => ⟨fun hdirectory => ?_, fun hfile hpath => ?_⟩⟩
  · rw [← Bool.not_eq_true, hbuilt.rejects_iff]
    simp [hdirectory]
  · have hincludes : includePatterns (es.map encode) (ns.map encode) ≠ [] := by
      rw [includePatterns_encode]
      simp only [ne_eq, List.map_eq_nil_iff] at hne
      rcases hne with hne | hne <;> simp [hne]
    have hadmits : f.rejects t = false ↔
        ∃ text ∈ includePatterns (es.map encode) (ns.map encode), FoundIn t.fullPath text := by
      rw [← Bool.not_eq_true, hbuilt.rejects_iff]
      simp [hfile, hincludes]
    rw [hadmits, exists_foundIn_iff hpath hlimits]
    simp only [List.mem_map, exists_exists_and_eq_and]

/-- Extensions and a name with characters that have a meaning of their own in patterns. -/
theorem includePatterns_mean_literals_special :
    ∃ f, new (includePatterns [utf8 "c++", utf8 "h"] [utf8 "a|b"]) [] = .ok f ∧
      f.rejects { path := utf8 "x.c++", fullPath := utf8 "/w/x.c++", kind := .file } = false ∧
      f.rejects { path := utf8 "a|b", fullPath := utf8 "/w/a|b", kind := .file } = false ∧
      f.rejects { path := utf8 "x.ccc", fullPath := utf8 "/w/x.ccc", kind := .file } = true := by
  have hlimits : ∀ text ∈ includePatterns (["c++".toList, "h".toList].map encode)
      (["a|b".toList].map encode), WithinLimits text :=
    withinLimits_of_length (n := 3) (by decide) (by decide) (by decide) (by decide) (by decide)
  obtain ⟨f, hf, hall⟩ := includePatterns_mean_literals [utf8 "c++", utf8 "h"] [utf8 "a|b"]
    (by decide) (by decide) (by simp) hlimits
  refine ⟨f, hf, ?_, ?_, ?_⟩
  · apply ((hall _).2 rfl rfl).mpr
    decide
  · apply ((hall _).2 rfl rfl).mpr
    decide
  · rw [← Bool.not_eq_false, (hall _).2 rfl rfl]
    decide

/-! ## Extensions that are starts of one another -/

/-- Extensions of one, two and more times the same letter. -/
def nestedExtensions (n : Nat) : List (List Char) :=
  (List.range n).map fun i => List.replicate (i + 1) 'a'

theorem choiceSize_nestedExtensions_le (n : Nat) :
    choiceSize (nestedExtensions n) ≤ n * n + n := by
  have hsum : ((nestedExtensions n).map fun t => max 1 t.length).sum ≤
      ((nestedExtensions n).map fun t => max 1 t.length).length • n := by
    apply List.sum_le_card_nsmul
    intro k hk
    simp only [nestedExtensions, List.map_map, List.mem_map, List.mem_range] at hk
    obtain ⟨i, hi, rfl⟩ := hk
    simp only [Function.comp_apply, List.length_replicate]
    omega
  have hlength : (nestedExtensions n).length = n := by simp [nestedExtensions]
  rw [List.length_map, hlength, smul_eq_mul] at hsum
  rw [choiceSize, hlength]
  omega

theorem lt_choiceHeight_nestedExtensions (n : Nat) :
    2 * n < choiceHeight (nestedExtensions (n + 2)) := by
  have hsteps : (nestedExtensions (n + 2)).map (fun t => Outline.ofCodes (t.map Char.toNat)) =
      Outline.steps 'a'.toNat (n + 2) := by
    simp [nestedExtensions, Outline.steps]
  rw [choiceHeight, hsteps]
  exact Outline.lt_ofAlternatives_steps 'a'.toNat n

/-- Many extensions that are starts of one another nest too deeply, however small the pattern is. -/
theorem new_nestedExtensions {n : Nat} (hdeep : maxHeight ≤ 2 * n)
    (hsize : choiceSize (nestedExtensions (n + 2)) + 4 ≤ maxSize) :
    new (includePatterns ((nestedExtensions (n + 2)).map encode) []) [] =
      .error (.badInclude ⟨.tooDeep, encode (extensionPattern (nestedExtensions (n + 2)))⟩) := by
  have hne : nestedExtensions (n + 2) ≠ [] := by simp [nestedExtensions]
  have hheight := lt_choiceHeight_nestedExtensions n
  have hparse : parse (encode (extensionPattern (nestedExtensions (n + 2)))) =
      .error ⟨.tooDeep, encode (extensionPattern (nestedExtensions (n + 2)))⟩ := by
    rcases readAs_extensionPattern hne with ⟨fault, ⟨-, hlarge⟩ | ⟨rfl, -⟩, herror⟩ | hok
    · omega
    · exact herror
    · have hfront (rest : List Char) :
          Leads maxSize 1 (encode (extensionPattern (nestedExtensions (n + 2)))) {} []
            (['\\', '.'] ++ '(' :: rest) ⟨[], [plain '.']⟩ [] ('(' :: rest) := leads_quoteChar '.'
      have hlow := height_of_parse_anchored hne (by omega) (Nat.le_refl 1) hfront hok
      omega
  have hpatterns : includePatterns ((nestedExtensions (n + 2)).map encode) [] =
      [encode (extensionPattern (nestedExtensions (n + 2)))] := by
    have h := includePatterns_encode (nestedExtensions (n + 2)) []
    rwa [if_neg hne, if_pos rfl, List.append_nil] at h
  rw [hpatterns]
  simp only [new, readPatterns, hparse]

/-- Their pattern is far from the limit on size. -/
theorem new_nestedExtensions_refused :
    (∀ e ∈ (nestedExtensions 600).map encode, isValid e = true) ∧
      choiceSize (nestedExtensions 600) + 4 ≤ maxSize ∧
      new (includePatterns ((nestedExtensions 600).map encode) []) [] =
        .error (.badInclude ⟨.tooDeep, encode (extensionPattern (nestedExtensions 600))⟩) := by
  have hsize : choiceSize (nestedExtensions 600) + 4 ≤ maxSize := by
    have h := choiceSize_nestedExtensions_le 600
    have hmax : maxSize = 3355443 := rfl
    omega
  refine ⟨?_, hsize, ?_⟩
  · intro e he
    obtain ⟨t, -, rfl⟩ := List.mem_map.mp he
    exact isValid_encode t
  · exact new_nestedExtensions (n := 598) (by decide) hsize

end PathFilter

end Linewise
