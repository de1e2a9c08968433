import Linewise.Glob.Expansion
import Linewise.Proofs.FollowedPaths
import Linewise.Proofs.ListedPaths

/-!
# What glob patterns match

Whatever a glob pattern looks like, a path that it matches is a path of the file tree: each of its
components but the last one is the name of a directory or of a link. A pattern of one segment that is
not two stars and has no braces looks no further than into one directory.
-/

namespace Linewise

namespace FileTree
open Linewise.Path (components)

/-- The tree has a directory or a link with a name. -/
def HasWay (t : FileTree) (c : Bytes) : Prop :=
  ∃ D n, t.root.get? (D ++ [c]) = some n ∧ (n.isDirectory = true ∨ n.isLink = true)

/-- A path takes only ways of the tree down to its last component. -/
def Reaches (t : FileTree) (p : Bytes) : Prop :=
  ∀ c ∈ (components p).dropLast, c ≠ Path.here → c ≠ Path.up → t.HasWay c

variable {t : FileTree} {p c : Bytes}

theorem Leads.hasWay {privileged : Bool} {k k' : Nat} {P D : Place} {cs : List Bytes}
    (h : Leads privileged t.view k P cs k' D) (hc : c ∈ cs) (hhere : c ≠ Path.here)
    (hup : c ≠ Path.up) : t.HasWay c := by
  induction h with
  | done => cases hc
  | here _ _ ih => exact ih (List.mem_of_ne_of_mem hhere hc)
  | up _ _ ih => exact ih (List.mem_of_ne_of_mem hup hc)
  | name _ _ hrest ih =>
    rcases List.mem_cons.mp hc with rfl | hc
    · obtain ⟨mode, es, hes⟩ := Node.directoryAt_view.mp hrest.directory_start
      exact ⟨_, _, hes, .inl rfl⟩
    · exact ih hc
  | link _ _ hl _ ih =>
    rcases List.mem_cons.mp hc with rfl | hc
    · exact ⟨_, _, Node.view_eq_link.mp hl, .inr rfl⟩
    · exact ih (List.mem_append_right _ hc)

theorem reaches_of_find {follow : Bool} {q : Place} {n : Node} (h : t.find follow p = .ok (q, n)) :
    Reaches t p := by
  have hsteps := Path.steps_ne_nil (legal_of_find_ok h).2.1
  have htrail :
      trail t.cwd p = (origin t.cwd p ++ (steps p).dropLast) ++ [(steps p).getLast hsteps] := by
    rw [List.append_assoc, List.dropLast_append_getLast, trail]
  have hwalk := resolve_of_find_ok h
  rw [htrail] at hwalk
  obtain ⟨k, D, hlead, -⟩ := leads_of_walkLinks_ok (by simp) hwalk
  intro c hc hhere hup
  refine hlead.hasWay (List.mem_append_right _ ?_) hhere hup
  rw [steps]
  split
  · rw [List.dropLast_concat]
    exact List.dropLast_subset _ hc
  · rwa [List.append_nil]

theorem hasWay_of_directory {q : Place} {mode : Nat} {es : List (Bytes × Node)}
    (h : t.find true p = .ok (q, .directory mode es)) (hc : c ∈ components p) (hhere : c ≠ Path.here)
    (hup : c ≠ Path.up) : t.HasWay c := by
  obtain ⟨k, hlead⟩ := leads_of_find_directory h
  exact hlead.hasWay (List.mem_append_right _ (List.mem_append_left _ hc)) hhere hup

theorem find_directory_of_isDirectory (h : t.isDirectory p = true) :
    ∃ q mode es, t.find true p = .ok (q, .directory mode es) := by
  unfold isDirectory stat at h
  cases hfind : t.find true p with
  | error e => simp [hfind] at h
  | ok found =>
    obtain ⟨q, n⟩ := found
    cases n with
    | directory mode es => exact ⟨q, mode, es, rfl⟩
    | file | link | special => simp [hfind, Node.isDirectory] at h

end FileTree

namespace Glob.Ground
open Linewise.Path (components)
open FileTree (HasWay Reaches WellNamed)

variable {g : Ground} {p dir name pattern : Bytes} {files : Bool}

theorem components_full (g : Ground) (p : Bytes) :
    components (g.full p) = components g.base ++ components p := by
  unfold full
  split
  next hslash =>
    obtain ⟨front, hfront⟩ := List.getLast?_eq_some_iff.mp (beq_iff_eq.mp hslash)
    rw [hfront, List.append_assoc, List.singleton_append, Path.components_append_slash,
      Path.components_append_slash, Path.components_nil, List.append_nil]
  next => rw [List.append_assoc, List.singleton_append, Path.components_append_slash]

theorem ne_nil_of_isPlain (h : isPlain p = true) : p ≠ [] := by
  rintro rfl
  exact absurd h (by decide)

/-- Everything on the way to a directory is a way, and so is the directory. -/
theorem hasWay_of_isDirectory (h : g.isDirectory p = true) {c : Bytes} (hc : c ∈ components p)
    (hhere : c ≠ Path.here) (hup : c ≠ Path.up) : g.tree.HasWay c := by
  obtain ⟨q, mode, es, hfind⟩ := FileTree.find_directory_of_isDirectory (Bool.and_eq_true_iff.mp h).2
  refine FileTree.hasWay_of_directory hfind ?_ hhere hup
  rw [components_full]
  exact List.mem_append_right _ hc

theorem reaches_of_isDirectory (h : g.isDirectory p = true) : Reaches g.tree p :=
  fun _ hc => hasWay_of_isDirectory h (List.dropLast_subset _ hc)

/-- An entry of a directory that can be listed. -/
theorem mem_names (hg : WellNamed g.tree) (h : name ∈ g.names dir) :
    g.isDirectory dir = true ∧ Path.IsEntry name := by
  unfold names at h
  split at h
  next hplain =>
    unfold FileTree.readDirectory at h
    cases hopen : g.tree.openNode (g.full dir) with
    | error e => simp [hopen] at h
    | ok n =>
      cases n with
      | directory mode es =>
        obtain ⟨q, hfind⟩ := FileTree.find_of_openNode hopen
        have hdir : g.isDirectory dir = true := by
          simp [isDirectory, hplain, FileTree.isDirectory, FileTree.stat, hfind, Node.isDirectory]
        refine ⟨hdir, (hg q name fun hnone => ?_).1.isEntry⟩
        have hget := Node.view_eq_none.mp hnone
        rw [Node.get?_child (FileTree.get?_of_find hfind), List.lookup_eq_none_iff] at hget
        simp only [hopen, FileTree.sortedNames, List.mem_mergeSort, List.mem_map] at h
        obtain ⟨entry, hentry, rfl⟩ := h
        simpa using hget entry hentry
      | file | link | special => simp [hopen] at h
  next => cases h

theorem components_join_entry (hdir : dir ≠ []) (hname : Path.IsEntry name) :
    components (Path.join [dir, name]) = Path.kept dir ++ [name] := by
  have hkept := Path.kept_append_name hdir hname
  rw [Path.join_name hdir]
  rcases Path.components_clean (dir ++ Path.slash :: name) with h | ⟨-, h⟩
  · rw [h, hkept]
  · rw [hkept] at h
    simp at h

theorem reaches_join (hdir : g.isDirectory dir = true) (hname : Path.IsEntry name) :
    Reaches g.tree (Path.join [dir, name]) := by
  intro c hc hhere hup
  rw [components_join_entry (ne_nil_of_isPlain (Bool.and_eq_true_iff.mp hdir).1) hname,
    List.dropLast_concat] at hc
  exact hasWay_of_isDirectory hdir ((Path.mem_kept hc).resolve_right hup) hhere hup

theorem reaches_allBelow (hg : WellNamed g.tree) (fuel : Nat) (h : p ∈ g.allBelow files fuel dir) :
    Reaches g.tree p := by
  induction fuel generalizing dir p with
  | zero => cases h
  | succ fuel ih =>
    unfold allBelow at h
    split at h
    next hdir =>
      rcases List.mem_cons.mp h with rfl | h
      · exact reaches_of_isDirectory hdir
      · obtain ⟨name, hname, h⟩ := List.mem_flatMap.mp h
        simp only at h
        split at h
        · exact ih h
        · split at h
          · rw [List.mem_singleton.mp h]
            exact reaches_join hdir (mem_names hg hname).2
          · cases h
    next => cases h

theorem reaches_segment (hg : WellNamed g.tree) (h : p ∈ g.segment dir pattern files) :
    Reaches g.tree p := by
  unfold segment at h
  split at h
  · split at h
    next hdir =>
      rw [List.mem_singleton.mp h]
      exact reaches_of_isDirectory hdir
    next => cases h
  · split at h
    · exact reaches_allBelow hg _ h
    · obtain ⟨name, hname, h⟩ := List.mem_filterMap.mp h
      obtain ⟨hdir, hentry⟩ := mem_names hg (List.mem_of_mem_filter hname)
      simp only [Option.ite_none_right_eq_some, Option.some.injEq] at h
      rw [← h.2]
      exact reaches_join hdir hentry

/-- A path that leads somewhere. -/
theorem reaches_of_leads (h : g.leads p = true) : Reaches g.tree p := by
  obtain ⟨-, hstat⟩ := Bool.and_eq_true_iff.mp h
  unfold FileTree.stat at hstat
  cases hfind : g.tree.find true (g.full p) with
  | error e => simp [hfind, Except.isOk, Except.toBool] at hstat
  | ok found =>
    have hreaches := FileTree.reaches_of_find hfind
    intro c hc
    refine hreaches c ?_
    rw [components_full]
    cases hp : components p with
    | nil => simp [hp] at hc
    | cons first rest =>
      rw [List.dropLast_append_of_ne_nil (by simp), ← hp]
      exact List.mem_append_right _ hc

end Glob.Ground

namespace Glob

/-! ## The text of patterns -/

/-- The base of a pattern ends at one of its slashes. -/
theorem baseEnd_spec {text : Bytes} {last : Option Nat} {place n : Nat}
    (h : baseEnd last place text = some n) :
    last = some n ∨
      ∃ front back, text = front ++ Path.slash :: back ∧ n = place + front.length := by
  fun_induction baseEnd last place text with
  | case1 => exact .inl h
  | case2 last place b hb =>
    obtain rfl := Option.some.inj h
    exact .inr ⟨[], [], by simpa using hb, rfl⟩
  | case3 => exact .inl h
  | case4 last place b c rest hb ih =>
    refine (ih h).imp_right ?_
    rintro ⟨front, back, rfl, rfl⟩
    exact ⟨b :: c :: front, back, rfl, by simp; omega⟩
  | case5 last place b c rest _ hslash ih =>
    rcases ih h with hlast | ⟨front, back, hrest, rfl⟩
    · obtain rfl := Option.some.inj hlast
      exact .inr ⟨[], c :: rest, by simpa using hslash, rfl⟩
    · exact .inr ⟨b :: front, back, by rw [hrest]; rfl, by simp; omega⟩
  | case6 => exact .inl h
  | case7 last place b c rest _ _ _ ih =>
    refine (ih h).imp_right ?_
    rintro ⟨front, back, hrest, rfl⟩
    exact ⟨b :: front, back, by rw [hrest]; rfl, by simp; omega⟩

/-- A pattern starts in the working directory, or it is a path to where it starts and, after a slash,
the pattern below. -/
theorem splitBase_spec (pattern : Bytes) :
    splitBase pattern = (Path.here, pattern) ∨
      ∃ base below, splitBase pattern = (base, below) ∧ base ≠ [] ∧
        Path.components pattern = Path.components base ++ Path.components below := by
  unfold splitBase
  cases hend : baseEnd none 0 pattern with
  | none => exact .inl rfl
  | some n =>
    obtain ⟨front, back, rfl, rfl⟩ := (baseEnd_spec hend).resolve_left nofun
    right
    have hparts := Path.components_append_slash front back
    cases front with
    | nil => exact ⟨[Path.slash], back, rfl, by simp, hparts⟩
    | cons b front =>
      have hback : (b :: front ++ Path.slash :: back).drop ((b :: front).length + 1) = back := by
        rw [← List.drop_drop, List.drop_left' rfl, List.drop_one, List.tail_cons]
      rw [Nat.zero_add]
      exact ⟨b :: front, back, Prod.ext (List.take_left' rfl) hback, by simp, hparts⟩

theorem unescape_cons {b : UInt8} {c : UInt8} {rest : Bytes}
    (h : ¬(b == backslash && (isMeta c || c == closeBracket || c == closeBrace)) = true) :
    unescape (b :: c :: rest) = b :: unescape (c :: rest) := by
  rw [unescape, if_neg h]

/-- A slash has no meaning that could be taken away, so components keep apart. -/
theorem splitBy_unescape (text : Bytes) :
    Bytes.splitBy (· == Path.slash) (unescape text) =
      (Bytes.splitBy (· == Path.slash) text).map unescape := by
  fun_induction unescape text with
  | case1 => rfl
  | case2 b => cases hb : b == Path.slash <;> simp [Bytes.splitBy, hb, unescape]
  | case3 b c rest hb ih =>
    obtain ⟨rfl, hc⟩ : b = backslash ∧ (isMeta c || c == closeBracket || c == closeBrace) = true := by
      simpa using hb
    have hslash : (c == Path.slash) = false := by
      rw [beq_eq_false_iff_ne]
      rintro rfl
      exact absurd hc (by decide)
    obtain ⟨part, parts, hsplit⟩ :=
      List.exists_cons_of_ne_nil (Bytes.splitBy_ne_nil (· == Path.slash) rest)
    rw [hsplit] at ih
    have hrest := Bytes.splitBy_cons_other (· == Path.slash) hslash hsplit
    rw [Bytes.splitBy_cons_other (· == Path.slash) hslash ih,
      Bytes.splitBy_cons_other (· == Path.slash) rfl hrest, List.map_cons, unescape, if_pos hb]
  | case4 b c rest hb ih =>
    cases hslash : b == Path.slash with
    | true =>
      rw [Bytes.splitBy_cons_separator (· == Path.slash) hslash,
        Bytes.splitBy_cons_separator (· == Path.slash) hslash, ih]
      rfl
    | false =>
      obtain ⟨part, parts, hsplit⟩ :=
        List.exists_cons_of_ne_nil (Bytes.splitBy_ne_nil (· == Path.slash) (c :: rest))
      have hpart : unescape (b :: part) = b :: unescape part := by
        rcases Bytes.splitBy_head _ hsplit with rfl | ⟨front, rfl⟩
        · rfl
        · exact unescape_cons hb
      rw [hsplit] at ih
      rw [Bytes.splitBy_cons_other (· == Path.slash) hslash ih,
        Bytes.splitBy_cons_other (· == Path.slash) hslash hsplit, List.map_cons, hpart]

theorem components_unescape (text : Bytes) :
    Path.components (unescape text) = (Path.components text).map unescape := by
  have hempty (c : Bytes) : (unescape c).isEmpty = c.isEmpty := by
    fun_cases unescape c <;> rfl
  rw [Path.components, splitBy_unescape, List.filter_map, Path.components]
  congr 2
  funext c
  simp [hempty]

/-- No component gets a dot in front. -/
theorem startsWithDot_unescape {c : Bytes} (h : Path.startsWithDot (unescape c) = true) :
    Path.startsWithDot c = true := by
  fun_cases unescape c with
  | case1 => exact h
  | case2 => exact h
  | case3 b d rest hb =>
    obtain ⟨-, hd⟩ := Bool.and_eq_true_iff.mp hb
    rw [unescape, if_pos hb] at h
    obtain rfl : d = Path.dot := by simpa [Path.startsWithDot] using h
    exact absurd hd (by decide)
  | case4 b d rest hb =>
    rw [unescape_cons hb] at h
    exact h

/-! ## Expansion -/

section Expansion
open FileTree (Reaches WellNamed)

variable {g : Ground} {p q : Bytes}

theorem mem_insertPath {paths : List Bytes} (h : p ∈ insertPath q paths) : p = q ∨ p ∈ paths := by
  induction paths with
  | nil => exact .inl (List.mem_singleton.mp h)
  | cons x paths ih =>
    unfold insertPath at h
    split at h
    · rcases List.mem_cons.mp h with rfl | h
      · exact .inr List.mem_cons_self
      · exact (ih h).imp_right (List.mem_cons_of_mem x)
    · exact List.mem_cons.mp h

theorem mem_addPath {paths : List Bytes} (h : p ∈ addPath paths q) : p = q ∨ p ∈ paths := by
  unfold addPath at h
  split at h
  · exact .inr h
  · exact mem_insertPath h

theorem mem_mergePaths {xs ys : List Bytes} (h : p ∈ mergePaths xs ys) : p ∈ xs ∨ p ∈ ys := by
  fun_induction mergePaths xs ys with
  | case1 => exact .inr h
  | case2 => exact .inl h
  | case3 x xs y ys heq ih =>
    rcases List.mem_cons.mp h with rfl | h
    · exact .inl List.mem_cons_self
    · exact (ih h).imp (List.mem_cons_of_mem x) (List.mem_cons_of_mem y)
  | case4 x xs y ys _ _ ih =>
    rcases List.mem_cons.mp h with rfl | h
    · exact .inl List.mem_cons_self
    · exact (ih h).imp_left (List.mem_cons_of_mem x)
  | case5 x xs y ys _ _ ih =>
    rcases List.mem_cons.mp h with rfl | h
    · exact .inr List.mem_cons_self
    · rcases ih h with h | h
      · exact .inl (List.mem_cons_of_mem x h)
      · rcases mem_insertPath h with rfl | h
        · exact .inl List.mem_cons_self
        · exact .inr (List.mem_cons_of_mem y h)

/-- All paths of a list are paths of the tree. -/
def Reached (g : Ground) (paths : List Bytes) : Prop := ∀ p ∈ paths, Reaches g.tree p

theorem reached_nil (g : Ground) : Reached g [] := nofun

theorem Reached.append {xs ys : List Bytes} (hxs : Reached g xs) (hys : Reached g ys) :
    Reached g (xs ++ ys) :=
  List.forall_mem_append.mpr ⟨hxs, hys⟩

theorem Reached.mergePaths {xs ys : List Bytes} (hxs : Reached g xs) (hys : Reached g ys) :
    Reached g (mergePaths xs ys) :=
  fun p hp => (mem_mergePaths hp).elim (hxs p) (hys p)

theorem Reached.foldl {α : Type} {f : List Bytes → α → List Bytes} {xs : List α} {init : List Bytes}
    (hinit : Reached g init)
    (hf : ∀ paths, Reached g paths → ∀ a ∈ xs, Reached g (f paths a)) :
    Reached g (xs.foldl f init) :=
  List.foldlRecOn xs f hinit hf

theorem reached_literal (g : Ground) (p : Bytes) :
    Reached g (if g.leads (if p.getLast? == some Path.slash then p.dropLast else p) then [p]
      else []) := by
  by_cases hslash : (p.getLast? == some Path.slash) = true
  · obtain ⟨front, rfl⟩ := List.getLast?_eq_some_iff.mp (beq_iff_eq.mp hslash)
    have hcomponents : Path.components (front ++ [Path.slash]) = Path.components front := by
      rw [Path.components_append_slash, Path.components_nil, List.append_nil]
    rw [if_pos hslash, List.dropLast_concat]
    split
    next hleads =>
      refine List.forall_mem_singleton.mpr fun c hc => Ground.reaches_of_leads hleads c ?_
      rwa [hcomponents] at hc
    next => exact reached_nil g
  · rw [if_neg hslash]
    split
    next hleads => exact List.forall_mem_singleton.mpr (Ground.reaches_of_leads hleads)
    next => exact reached_nil g

/-- Whatever is found is a path of the tree: in the end it was found in a directory, or looked up. -/
theorem reached_expand (hg : WellNamed g.tree) (fuel : Nat) :
    (∀ files found pattern, Reached g (expand g fuel files found pattern)) ∧
    (∀ files found pattern start slash,
      Reached g (expandBelow g fuel files found pattern start slash)) ∧
    ∀ files found pattern opening closing,
      Reached g (expandBraces g fuel files found pattern opening closing) := by
  have hsegment (dir pattern : Bytes) (files : Bool) : Reached g (g.segment dir pattern files) :=
    fun _ => Ground.reaches_segment hg
  induction fuel with
  | zero =>
    refine ⟨?_, ?_, ?_⟩ <;> intros <;> simp only [expand, expandBelow, expandBraces] <;>
      exact reached_nil g
  | succ fuel ih =>
    obtain ⟨hexpand, hbelow, hbraces⟩ := ih
    refine ⟨?_, ?_, ?_⟩
    · intro files found pattern
      unfold expand
      split
      · exact reached_literal g _
      · split
        · exact hsegment _ _ _
        · split
          · split
            · exact hbraces _ _ _ _ _
            · split
              · exact hbelow _ _ _ _ _
              · exact hsegment _ _ _
          · exact hbelow _ _ _ _ _
    · intro files found pattern start slash
      simp only [expandBelow]
      split
      · exact hsegment _ _ _
      · exact List.forall_mem_flatMap.mpr fun d _ => hsegment _ _ _
    · intro files found pattern opening closing
      simp only [expandBraces]
      split
      · refine (reached_nil g).foldl fun paths hpaths pattern _ => hpaths.foldl ?_
        intro paths hpaths p hp q hq
        rcases mem_addPath hq with rfl | hq
        · exact hexpand _ _ _ _ hp
        · exact hpaths q hq
      · refine (reached_nil g).foldl fun new hnew d _ => hnew.append ?_
        exact (reached_nil g).foldl fun paths hpaths pattern _ => hpaths.mergePaths (hexpand _ _ _)

/-! ## Patterns of one segment -/

theorem mem_unescapedPlaces {f : UInt8 → Bool} {before : UInt8} {place n : Nat} {text : Bytes}
    (h : n ∈ unescapedPlaces f before place text) :
    place ≤ n ∧ ∃ b, text[n - place]? = some b ∧ f b = true := by
  induction text generalizing before place with
  | nil => cases h
  | cons b rest ih =>
    rw [unescapedPlaces, List.mem_append] at h
    rcases h with h | h
    · obtain ⟨hb, rfl⟩ : (f b && before != backslash) = true ∧ n = place := by simpa using h
      exact ⟨Nat.le_refl n, b, by simp, (Bool.and_eq_true_iff.mp hb).1⟩
    · obtain ⟨hplace, c, hc, hfc⟩ := ih h
      refine ⟨by omega, c, ?_, hfc⟩
      rwa [show n - place = n - (place + 1) + 1 by omega, List.getElem?_cons_succ]

theorem lastPlace?_spec {f : UInt8 → Bool} {text : Bytes} {n : Nat}
    (h : lastPlace? f text = some n) : ∃ b, text[n]? = some b ∧ f b = true :=
  (mem_unescapedPlaces (List.mem_of_getLast? h)).2

theorem openingFrom_eq_none {text : Bytes} {places : List Nat}
    (h : ∀ place ∈ places, text[place]? = some closeBrace) (depth : Nat) :
    openingFrom text depth places = none := by
  induction places generalizing depth with
  | nil => rfl
  | cons place places ih =>
    obtain ⟨hplace, hplaces⟩ := List.forall_mem_cons.mp h
    rw [openingFrom, if_pos (by simp [hplace]), ih hplaces]

theorem opening?_eq_none {text : Bytes} (h : openBrace ∉ text) : opening? text = none := by
  refine openingFrom_eq_none (fun place hplace => ?_) 1
  obtain ⟨-, b, hb, hbrace⟩ := mem_unescapedPlaces (List.mem_reverse.mp hplace)
  rcases Bool.or_eq_true_iff.mp hbrace with hopen | hclose
  · obtain rfl := beq_iff_eq.mp hopen
    exact absurd (List.mem_of_getElem? hb) h
  · obtain rfl := beq_iff_eq.mp hclose
    exact hb

/-- What is found in the directory where a pattern starts has one component. -/
theorem dropLast_components_segment (hg : WellNamed g.tree) {pattern : Bytes} {files : Bool}
    (hstars : pattern ≠ [star, star]) (h : p ∈ g.segment Path.here pattern files) :
    (Path.components p).dropLast = [] := by
  unfold Ground.segment at h
  split at h
  · split at h
    · rw [List.mem_singleton.mp h]
      rfl
    · cases h
  · rw [if_neg (by simpa using hstars)] at h
    obtain ⟨name, hname, h⟩ := List.mem_filterMap.mp h
    have hentry := (Ground.mem_names hg (List.mem_of_mem_filter hname)).2
    simp only [Option.ite_none_right_eq_some, Option.some.injEq] at h
    rw [← h.2, Ground.components_join_entry (by decide) hentry, List.dropLast_concat]
    rfl

/-- A pattern of one segment, which is not two stars and has no braces, looks no further than into
the directory where it starts. -/
theorem dropLast_components_expand (hg : WellNamed g.tree) {pattern : Bytes} {files : Bool}
    {found : List Bytes} (hslash : Path.slash ∉ pattern) (hbrace : openBrace ∉ pattern)
    (hstars : pattern ≠ [star, star]) {fuel : Nat} (h : p ∈ expand g fuel files found pattern) :
    (Path.components p).dropLast = [] := by
  cases fuel with
  | zero =>
    rw [expand] at h
    cases h
  | succ fuel =>
    unfold expand at h
    split at h
    · simp only [List.mem_ite_nil_right, List.mem_singleton] at h
      have hsingle : Bytes.splitBy (· == Path.slash) pattern = [pattern] :=
        Bytes.splitBy_eq_singleton _ fun b hb => by
          rw [beq_eq_false_iff_ne]
          exact ne_of_mem_of_not_mem hb hslash
      rw [h.2, components_unescape, Path.components, hsingle]
      cases pattern <;> rfl
    · split at h
      · exact dropLast_components_segment hg hstars h
      · next place hplace =>
        -- The last slash or closing brace is a brace, and no brace is opened before it.
        obtain ⟨b, hb, hkind⟩ := lastPlace?_spec hplace
        have hclose : pattern[place]? = some closeBrace := by
          rcases Bool.or_eq_true_iff.mp hkind with hb' | hb'
          · obtain rfl := beq_iff_eq.mp hb'
            exact absurd (List.mem_of_getElem? hb) hslash
          · rw [hb, beq_iff_eq.mp hb']
        have hopening := opening?_eq_none (mt List.mem_of_mem_take hbrace : openBrace ∉ pattern.take place)
        have hbefore : lastPlace? (· == Path.slash) (pattern.take place) = none := by
          cases hlast : lastPlace? (· == Path.slash) (pattern.take place) with
          | none => rfl
          | some n =>
            obtain ⟨b, hb, hkind⟩ := lastPlace?_spec hlast
            obtain rfl := beq_iff_eq.mp hkind
            exact absurd (List.mem_of_mem_take (List.mem_of_getElem? hb)) hslash
        rw [if_pos (by simp [hclose]), hopening, hbefore] at h
        exact dropLast_components_segment hg hstars h

end Expansion

end Glob

end Linewise
