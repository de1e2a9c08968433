import Linewise.Proofs.AsciiCharacters
import Linewise.Proofs.PathText
import Linewise.PathFilter

/-!
# What excludes files say

The lines of an excludes file ask for patterns one by one. A file is read down to the first line that
is too long, and what stands there or below it is passed over without a word: so the patterns of all
files are found exactly when no file asks for anything from such a line on.
-/

namespace Linewise

/-! ## Blanks at the end of a line -/

namespace Utf8

theorem trim_eq (text : Bytes) :
    trim text = ofSymbols (((symbols text).dropWhile isBlankSymbol).rdropWhile isBlankSymbol) :=
  rfl

/-- A blank at the end makes no difference. -/
theorem trim_concat {b : UInt8} (hb : b < 0x80) (hblank : isBlank (Char.ofNat b.toNat) = true)
    (text : Bytes) : trim (text ++ [b]) = trim text := by
  have hsymbols : symbols (text ++ [b]) = symbols text ++ [.char (Char.ofNat b.toNat)] :=
    symbolsFrom_append_ascii hb (Nat.zero_le _) []
  have hlast : isBlankSymbol (.char (Char.ofNat b.toNat)) = true := hblank
  rw [trim_eq, trim_eq, hsymbols, List.dropWhile_append]
  split
  next hall =>
    rw [List.isEmpty_iff] at hall
    rw [hall, List.dropWhile_cons_of_pos hlast, List.dropWhile_nil]
  next => rw [List.rdropWhile_concat_pos _ _ _ hlast]

end Utf8

namespace Excludes

/-! ## Lines and what they ask for -/

/-- The lines of a text: what stands between its line feeds. -/
def lines (text : Bytes) : List Bytes := Bytes.splitBy (· == Bytes.newline) text

/-- Whether a line can be read. -/
def isShort (line : Bytes) : Bool := line.length < lineLimit

/-- The lines above the first one that is too long. -/
def linesAbove (text : Bytes) : List Bytes := (lines text).takeWhile isShort

/-- The first line that is too long and the lines below it. -/
def linesFromLong (text : Bytes) : List Bytes := (lines text).dropWhile isShort

/-- What lines ask for: a line that is not blank is an exclude pattern without the blanks at its
ends, but after a `!` the rest is an include pattern, unless it is blank. -/
def asked (lines : List Bytes) : Excludes where
  excludes := (lines.map Utf8.trim).filter fun line => !line.isEmpty && line.head? != some 33
  includes := (((lines.map Utf8.trim).filter (·.head? == some 33)).map
    fun line => Utf8.trim line.tail).filter (!·.isEmpty)

@[simp] theorem asked_nil : asked [] = {} := rfl

theorem excludes_asked (lines : List Bytes) : (asked lines).excludes = lines.filterMap excludeOf? := by
  induction lines with
  | nil => rfl
  | cons line lines ih =>
    simp only [asked, List.map_cons, List.filter_cons, List.filterMap_cons, excludeOf?] at ih ⊢
    rw [ih]
    cases Utf8.trim line with
    | nil => rfl
    | cons b rest => by_cases hb : b = 33 <;> simp [hb]

theorem includes_asked (lines : List Bytes) : (asked lines).includes = lines.filterMap includeOf? := by
  induction lines with
  | nil => rfl
  | cons line lines ih =>
    simp only [asked, List.map_cons, List.filter_cons, List.filterMap_cons, includeOf?] at ih ⊢
    cases Utf8.trim line with
    | nil => exact ih
    | cons b rest =>
      by_cases hb : b = 33
      · cases hrest : Utf8.trim rest <;> simp [hb, hrest, ih]
      · simpa [hb] using ih

theorem dropReturn_cases (line : Bytes) :
    dropReturn line = line ∨ line = dropReturn line ++ [13] := by
  unfold dropReturn
  split
  next h =>
    obtain ⟨front, rfl⟩ := List.getLast?_eq_some_iff.mp (beq_iff_eq.mp h)
    exact .inr (by simp)
  next => exact .inl rfl

@[simp] theorem trim_dropReturn (line : Bytes) : Utf8.trim (dropReturn line) = Utf8.trim line := by
  rcases dropReturn_cases line with h | h
  · rw [h]
  · conv_rhs => rw [h]
    exact (Utf8.trim_concat (by decide) (by decide) _).symm

/-- A file is read as far as its lines can be read. -/
theorem parse_eq_asked (text : Bytes) : parse text = asked (linesAbove text) := by
  have hexclude : excludeOf? ∘ dropReturn = excludeOf? := by
    funext line
    simp [excludeOf?]
  have hinclude : includeOf? ∘ dropReturn = includeOf? := by
    funext line
    simp [includeOf?]
  have hlines : readLines text = (linesAbove text).map dropReturn := rfl
  have hfields (e : Excludes) : e = ⟨e.excludes, e.includes⟩ := rfl
  rw [hfields (asked _), excludes_asked, includes_asked]
  simp only [parse, hlines, List.filterMap_map, hexclude, hinclude]

theorem asked_append (xs ys : List Bytes) : asked (xs ++ ys) =
    ⟨(asked xs).excludes ++ (asked ys).excludes, (asked xs).includes ++ (asked ys).includes⟩ := by
  simp [asked]

/-! ## The files of a rule -/

/-- All files of a rule that are there can be read. -/
def Readable (tree : FileTree) (rule : Bytes) (dirs : List Bytes) : Prop :=
  ∀ dir ∈ dirs, ∀ e, tree.readFile (filePath rule dir) = .error e → e.cause = .noEntry

/-- The texts of the files of a rule, in the order of the directories. -/
def texts (tree : FileTree) (rule : Bytes) (dirs : List Bytes) : List Bytes :=
  dirs.filterMap fun dir => (tree.readFile (filePath rule dir)).toOption

variable {tree : FileTree} {rule : Bytes} {dirs : List Bytes}

theorem load_of_readable (h : Readable tree rule dirs) :
    load tree rule dirs = .ok (asked ((texts tree rule dirs).flatMap linesAbove)) := by
  induction dirs with
  | nil => rfl
  | cons dir dirs ih =>
    obtain ⟨hdir, hdirs⟩ := List.forall_mem_cons.mp h
    rw [load]
    cases hfile : tree.readFile (filePath rule dir) with
    | error e => simp [hfile, hdir e hfile, ih hdirs, texts, Except.toOption]
    | ok text =>
      simp only [ih hdirs, parse_eq_asked, texts, hfile, Except.toOption, List.filterMap_cons,
        List.flatMap_cons, asked_append]

theorem load_of_not_readable (h : ¬Readable tree rule dirs) : ∃ dir ∈ dirs, ∃ e,
    tree.readFile (filePath rule dir) = .error e ∧ e.cause ≠ .noEntry ∧
      load tree rule dirs = .error (.unreadable (filePath rule dir) e) := by
  induction dirs with
  | nil => exact absurd (by simp [Readable]) h
  | cons dir dirs ih =>
    have hrest (hdir : ∀ e, tree.readFile (filePath rule dir) = .error e → e.cause = .noEntry) :
        ¬Readable tree rule dirs := fun hdirs => h (List.forall_mem_cons.mpr ⟨hdir, hdirs⟩)
    cases hfile : tree.readFile (filePath rule dir) with
    | error e =>
      by_cases hcause : e.cause = .noEntry
      · obtain ⟨d, hd, e', he', hcause', hload⟩ := ih (hrest (by simpa [hfile] using hcause))
        refine ⟨d, List.mem_cons_of_mem _ hd, e', he', hcause', ?_⟩
        simp [load, hfile, hcause, hload]
      · exact ⟨dir, List.mem_cons_self, e, hfile, hcause, by simp [load, hfile, hcause]⟩
    | ok text =>
      obtain ⟨d, hd, e', he', hcause', hload⟩ := ih (hrest (by simp [hfile]))
      refine ⟨d, List.mem_cons_of_mem _ hd, e', he', hcause', ?_⟩
      simp [load, hfile, hload]

theorem excludes_asked_flatMap (f : Bytes → List Bytes) (texts : List Bytes) :
    (asked (texts.flatMap f)).excludes = texts.flatMap fun text => (asked (f text)).excludes := by
  simp only [excludes_asked, List.filterMap_flatMap]

theorem includes_asked_flatMap (f : Bytes → List Bytes) (texts : List Bytes) :
    (asked (texts.flatMap f)).includes = texts.flatMap fun text => (asked (f text)).includes := by
  simp only [includes_asked, List.filterMap_flatMap]

/-- Of lists put together from parts nothing is missing when it is missing from none of the parts. -/
theorem flatMap_eq_iff {α β : Type} {whole kept lost : α → List β}
    (h : ∀ x, whole x = kept x ++ lost x) (xs : List α) :
    xs.flatMap kept = xs.flatMap whole ↔ ∀ x ∈ xs, lost x = [] := by
  have hlength : (xs.flatMap whole).length = (xs.flatMap kept).length + (xs.flatMap lost).length := by
    induction xs with
    | nil => rfl
    | cons x xs ih =>
      simp only [List.flatMap_cons, List.length_append, ih, h]
      omega
  constructor
  · intro heq
    rw [heq] at hlength
    exact List.flatMap_eq_nil_iff.mp (List.length_eq_zero_iff.mp (by omega))
  · intro hnil
    exact List.flatMap_congr fun x hx => by rw [h, hnil x hx, List.append_nil]

theorem lines_eq (text : Bytes) : lines text = linesAbove text ++ linesFromLong text :=
  List.takeWhile_append_dropWhile.symm

theorem asked_above_eq_iff (texts : List Bytes) :
    asked (texts.flatMap linesAbove) = asked (texts.flatMap lines) ↔
      ∀ text ∈ texts, asked (linesFromLong text) = {} := by
  have hfields (e e' : Excludes) :
      e = e' ↔ e.excludes = e'.excludes ∧ e.includes = e'.includes := by
    cases e; cases e'; simp
  have hexcludes (text : Bytes) : (asked (lines text)).excludes =
      (asked (linesAbove text)).excludes ++ (asked (linesFromLong text)).excludes := by
    rw [lines_eq, asked_append]
  have hincludes (text : Bytes) : (asked (lines text)).includes =
      (asked (linesAbove text)).includes ++ (asked (linesFromLong text)).includes := by
    rw [lines_eq, asked_append]
  simp only [hfields, excludes_asked_flatMap, includes_asked_flatMap, flatMap_eq_iff hexcludes,
    flatMap_eq_iff hincludes]
  exact forall₂_and.symm

/-- Files of a rule are refused only when one of them cannot be read. Otherwise what the lines ask for
is found, in order, down to the first line that is too long; this is all that the files ask for
exactly when no such line and no line below it asks for anything. -/
theorem load_loses_nothing_iff (tree : FileTree) (rule : Bytes) (dirs : List Bytes) :
    (¬Readable tree rule dirs ∧ ∃ path e, load tree rule dirs = .error (.unreadable path e)) ∨
      Readable tree rule dirs ∧ ∃ found, load tree rule dirs = .ok found ∧
        found = asked ((texts tree rule dirs).flatMap linesAbove) ∧
        (found = asked ((texts tree rule dirs).flatMap lines) ↔
          ∀ text ∈ texts tree rule dirs, asked (linesFromLong text) = {}) := by
  by_cases h : Readable tree rule dirs
  · exact .inr ⟨h, _, load_of_readable h, rfl, asked_above_eq_iff _⟩
  · obtain ⟨dir, -, e, -, -, hload⟩ := load_of_not_readable h
    exact .inl ⟨h, _, e, hload⟩

/-- A file of a rule in the root directory. -/
def rootFile (text : Bytes) : FileTree :=
  ⟨.directory 0o755 [(utf8 "r.excludes", .file 0 0o644 text)], [Path.slash], 1, false⟩

theorem readFile_rootFile (text : Bytes) :
    (rootFile text).readFile (filePath (utf8 "r") (utf8 "/")) = .ok text := by
  cbv

/-- A line of blanks that is too long, above a pattern. -/
def longBlanks : Bytes := List.replicate lineLimit 32 ++ utf8 "\nb"

theorem lines_longBlanks : lines longBlanks = [List.replicate lineLimit 32, utf8 "b"] := by
  have hblanks : ∀ b ∈ List.replicate lineLimit (32 : UInt8), (b == Bytes.newline) = false := by
    intro b hb
    rw [List.eq_of_mem_replicate hb]
    decide
  have htext : longBlanks = List.replicate lineLimit 32 ++ Bytes.newline :: utf8 "b" := rfl
  rw [lines, htext, Bytes.splitBy_append_cons _ (by decide), Bytes.splitBy_eq_singleton _ hblanks]
  rfl

/-- The pattern is asked for, nothing is found and no error says so. -/
theorem load_loses_pattern_below_blanks :
    load (rootFile longBlanks) (utf8 "r") [utf8 "/"] = .ok {} ∧
      utf8 "b" ∈ (asked ((texts (rootFile longBlanks) (utf8 "r") [utf8 "/"]).flatMap lines)).excludes := by
  have htexts : texts (rootFile longBlanks) (utf8 "r") [utf8 "/"] = [longBlanks] := by
    simp only [texts, List.filterMap_cons, readFile_rootFile, Except.toOption, List.filterMap_nil]
  have hreadable : Readable (rootFile longBlanks) (utf8 "r") [utf8 "/"] := by
    simp [Readable, readFile_rootFile]
  have habove : linesAbove longBlanks = [] := by
    rw [linesAbove, lines_longBlanks, List.takeWhile_cons_of_neg]
    simp [isShort]
  constructor
  · rw [load_of_readable hreadable, htexts, List.flatMap_singleton, habove, asked_nil]
  · rw [htexts, List.flatMap_singleton, lines_longBlanks, excludes_asked]
    exact List.mem_filterMap.mpr ⟨utf8 "b", by simp, by decide⟩

end Excludes

end Linewise
