import Linewise.Proofs.RenderedPaths

/-!
# The link-free form of a path

The path that `FileTree.realPath` answers for a file leads to the file, crosses no link, and so
still names the file when the file itself has become another one. Both walks, the one of the system
and the one that rewrites the text, are followed side by side: after every step the text built so
far leads, through directories alone, to where the system stands.
-/

namespace Linewise

namespace FileTree

/-- The components of a stack, latest first, lead from `B` to `P` through directories alone. -/
inductive Straight (privileged : Bool) (v : View) (B : Place) : List Bytes → Place → Prop
  | nil (hB : DirectoryAt v B) : Straight privileged v B [] B
  | up {st : List Bytes} {P : Place} (h : Straight privileged v B st P)
      (hP : Admits .search privileged v P) (hup : DirectoryAt v P.dropLast) :
      Straight privileged v B (Path.up :: st) P.dropLast
  | name {st : List Bytes} {P : Place} {c : Bytes} (h : Straight privileged v B st P)
      (hP : Admits .search privileged v P) (hc : IsName c) (hdown : DirectoryAt v (P ++ [c])) :
      Straight privileged v B (c :: st) (P ++ [c])

namespace Straight

variable {privileged : Bool} {v : View} {B P Q : Place} {st : List Bytes} {c : Bytes}

theorem directory (h : Straight privileged v B st P) : DirectoryAt v P := by
  cases h <;> assumption

theorem leads (h : Straight privileged v B st P) (k : Nat) :
    Leads privileged v k B st.reverse k P := by
  induction h with
  | nil hB => exact .done hB
  | up h hP hup ih =>
    rw [List.reverse_cons]
    exact ih.append (.up hP (.done hup))
  | name h hP hc hdown ih =>
    rw [List.reverse_cons]
    exact ih.append (.name hP hc (.done hdown))

/-- A name and `..` after it cancel out where the name is that of a directory. -/
theorem cleanStep {rooted : Bool} (hB : rooted = true → B = [])
    (h : Straight privileged v B (c :: st) Q) :
    Straight privileged v B (Path.cleanStep rooted st c) Q := by
  cases h with
  | name h hP hc hdown =>
    have hpush : Path.cleanStep rooted st c = c :: st := by
      simp [Path.cleanStep, hc.1, hc.2.1]
    rw [hpush]
    exact .name h hP hc hdown
  | @up _ P h hP hup =>
    cases h with
    | nil hB' =>
      cases rooted with
      | true =>
        obtain rfl := hB rfl
        exact .nil hB'
      | false => exact .up (.nil hB') hP hup
    | up h hP' hup' => exact .up (.up h hP' hup') hP hup
    | @name st P c h hP' hc hdown =>
      have hdrop : Path.cleanStep rooted (c :: st) Path.up = st := by
        simp only [Path.cleanStep, beq_eq_false_iff_ne.mpr hc.2.1]
        rfl
      rw [hdrop, List.dropLast_concat]
      exact h

theorem foldl {rooted : Bool} (hB : rooted = true → B = []) {cs : List Bytes}
    (h : Straight privileged v B cs.reverse P) :
    Straight privileged v B (cs.foldl (Path.cleanStep rooted) []) P := by
  induction cs using List.reverseRecOn generalizing P with
  | nil => exact h
  | append_singleton cs c ih =>
    rw [List.reverse_concat] at h
    rw [List.foldl_concat]
    apply cleanStep hB
    cases h with
    | up h hP hup => exact .up (ih h) hP hup
    | name h hP hc hdown => exact .name (ih h) hP hc hdown

end Straight

/-- The text with the components `cs` leads to the directory at `P` and crosses no link. -/
structure LinkFree (t : FileTree) (rooted : Bool) (cs : List Bytes) (P : Place) : Prop where
  isPart : ∀ c ∈ cs, Path.IsPart c
  route : ∃ k B, Leads t.privileged t.view maxLinks []
      (if rooted then [] else Path.components t.cwd) k B ∧
    (rooted = true → B = []) ∧ Straight t.privileged t.view B cs.reverse P

namespace LinkFree
open Linewise.Path

variable {t : FileTree} {rooted : Bool} {cs : List Bytes} {P : Place} {c : Bytes}

theorem directory (h : LinkFree t rooted cs P) : DirectoryAt t.view P := by
  obtain ⟨_, _, _, _, hst⟩ := h.route
  exact hst.directory

theorem isPart_concat (h : LinkFree t rooted cs P) (hc : IsPart c) : ∀ d ∈ cs ++ [c], IsPart d := by
  intro d hd
  rcases List.mem_append.mp hd with hd | hd
  · exact h.isPart d hd
  · rwa [List.mem_singleton.mp hd]

theorem name (h : LinkFree t rooted cs P) (hP : Admits .search t.privileged t.view P)
    (hpart : IsPart c) (hc : IsName c) (hdown : DirectoryAt t.view (P ++ [c])) :
    LinkFree t rooted (cs ++ [c]) (P ++ [c]) := by
  obtain ⟨k, B, hbase, hB, hst⟩ := h.route
  refine ⟨h.isPart_concat hpart, k, B, hbase, hB, ?_⟩
  rw [List.reverse_concat]
  exact .name hst hP hc hdown

theorem up (h : LinkFree t rooted cs P) (hP : Admits .search t.privileged t.view P) :
    LinkFree t rooted (cs ++ [Path.up]) P.dropLast := by
  obtain ⟨k, B, hbase, hB, hst⟩ := h.route
  refine ⟨h.isPart_concat ⟨by decide, by decide⟩, k, B, hbase, hB, ?_⟩
  rw [List.reverse_concat]
  exact .up hst hP (Node.view_dropLast hst.directory)

theorem drop (h : LinkFree t rooted (cs ++ [c]) P) (hc : c ≠ Path.up) :
    LinkFree t rooted cs P.dropLast := by
  obtain ⟨k, B, hbase, hB, hst⟩ := h.route
  refine ⟨fun d hd => h.isPart d (List.mem_append_left _ hd), k, B, hbase, hB, ?_⟩
  rw [List.reverse_concat] at hst
  cases hst with
  | up => exact absurd rfl hc
  | name hst => rwa [List.dropLast_concat]

theorem steps_render (h : ∀ c ∈ cs, IsPart c) (hne : cs ≠ []) : steps (render rooted cs) = cs := by
  obtain ⟨hlast, hne⟩ := getLast?_joinWith hne h
  have hlast' : (render rooted cs).getLast? ≠ some slash := by
    rwa [render, List.getLast?_append_of_ne_nil _ hne]
  rw [steps, components_render h, if_neg (by simpa using hlast'), List.append_nil]

theorem leads (h : LinkFree t rooted cs P) :
    ∃ k, Leads t.privileged t.view maxLinks []
      ((if rooted then [] else components t.cwd) ++ cs) k P := by
  obtain ⟨k, B, hbase, -, hst⟩ := h.route
  have hlead := hst.leads k
  rw [List.reverse_reverse] at hlead
  exact ⟨k, hbase.append hlead⟩

/-- What the system finds under one more name. -/
theorem get?_of_lstat (h : LinkFree t rooted cs P) (hpart : IsPart c) (hhere : c ≠ here)
    (hup : c ≠ Path.up) {n : Node} (hl : t.lstat (render rooted (cs ++ [c])) = .ok n) :
    IsName c ∧ IsLegal (render rooted (cs ++ [c])) ∧ t.root.get? (P ++ [c]) = some n := by
  obtain ⟨q, hfind⟩ : ∃ q, t.find false (render rooted (cs ++ [c])) = .ok (q, n) := by
    rw [lstat] at hl
    cases hf : t.find false (render rooted (cs ++ [c])) with
    | error e => simp [hf] at hl
    | ok found =>
      obtain ⟨q, m⟩ := found
      obtain rfl : m = n := by simpa [hf] using hl
      exact ⟨q, rfl⟩
  have hparts := h.isPart_concat hpart
  obtain ⟨k, hlead⟩ := h.leads
  have hwalk := resolve_of_find_ok hfind
  rw [trail, origin, isAbsolute_render hparts, steps_render hparts (by simp), ← List.append_assoc,
    hlead.walkLinks_append (by simp)] at hwalk
  obtain ⟨hc, rfl, hget⟩ := found_of_walkLinks hhere hup hwalk
  exact ⟨hc, legal_of_find_ok hfind, hget⟩

/-- Cleaning the text does not change what it leads to. -/
theorem find_clean (h : LinkFree t rooted cs P) (hP : Admits .search t.privileged t.view P)
    (hpart : IsPart c) (hc : IsName c)
    (hlegal : IsLegal (render rooted (cs ++ [c]))) {id mode : Nat} {content : Bytes}
    (hfile : t.root.get? (P ++ [c]) = some (.file id mode content)) :
    t.find false (clean (render rooted (cs ++ [c]))) = .ok (P ++ [c], .file id mode content) := by
  have hparts := h.isPart_concat hpart
  obtain ⟨k, B, hbase, hB, hst⟩ := h.route
  have hkept : kept (render rooted (cs ++ [c])) =
      (cs.foldl (cleanStep rooted) []).reverse ++ [c] := by
    rw [kept, isAbsolute_render hparts, components_render hparts, List.foldl_concat]
    simp [cleanStep, hc.1, hc.2.1]
  have hlead := hbase.append ((hst.foldl hB).leads k)
  have hnames : Names t.privileged t.cwd t.view (clean (render rooted (cs ++ [c]))) P c := by
    refine ⟨⟨?_, clean_ne_nil _, ?_⟩, hc, hP, _, k, ?_, hlead⟩
    · exact Path.zero_notMem_clean hlegal.1
    · exact (length_clean_le hlegal.2.1).trans hlegal.2.2
    · have hsteps := steps_clean (render rooted (cs ++ [c]))
      rw [hkept, if_neg (by simp)] at hsteps
      rw [trail, origin, isAbsolute_clean, isAbsolute_render hparts, hsteps, List.append_assoc]
  exact hnames.find_file (Node.view_eq_file.mpr hfile) false

end LinkFree

/-- The components of a path that lead elsewhere: all but `.`. -/
def moves (cs : List Bytes) : List Bytes := cs.filter (· != Path.here)

theorem moves_append (cs ds : List Bytes) : moves (cs ++ ds) = moves cs ++ moves ds :=
  List.filter_append ..

theorem moves_steps (p : Bytes) : moves (steps p) = moves (Path.components p) := by
  rw [steps, moves_append]
  split <;> simp [moves]

/-- The text built so far leads to `P`, and from there the system takes the steps `ks` to the file
at `q`; the rest of the text has the same steps, up to `.`. -/
structure InStep (t : FileTree) (rooted : Bool) (cs : List Bytes) (rest : Bytes) (P : Place)
    (k : Nat) (ks : List Bytes) (q : Place) (n : Node) : Prop where
  linkFree : LinkFree t rooted cs P
  walk : walkLinks t true k P ks = .ok (.found q n)
  same : moves ks = moves (Path.components rest)

section Walk

variable {t : FileTree} {rooted : Bool} {cs : List Bytes} {rest name after : Bytes} {P q : Place}
  {k : Nat} {ks : List Bytes} {n : Node}

theorem walkLinks_skip_here {m : Node} {d : Destination} (hP : t.root.get? P = some m)
    (h : walkLinks t true k P ks = .ok d) :
    (moves ks = [] → d = .found P m) ∧
      ∀ c ds, moves ks = c :: ds →
        ∃ ks', walkLinks t true k P (c :: ks') = .ok d ∧ moves ks' = ds := by
  induction ks with
  | nil =>
    rw [walkLinks_nil hP] at h
    exact ⟨fun _ => (Except.ok.inj h).symm, by simp [moves]⟩
  | cons c ks ih =>
    by_cases hhere : c = Path.here
    · subst hhere
      obtain ⟨es, hes⟩ := directory_of_walkLinks_ok h
      rw [walkLinks_here hes] at h
      have hmoves : moves (Path.here :: ks) = moves ks := by simp [moves]
      rw [hmoves]
      exact ih h
    · have hmoves : moves (c :: ks) = c :: moves ks := by simp [moves, hhere]
      rw [hmoves]
      refine ⟨by simp, fun c' ds hc => ?_⟩
      obtain ⟨rfl, rfl⟩ := List.cons.inj hc
      exact ⟨ks, h, rfl⟩

theorem walkLinks_leaf {m : Node} (hP : t.root.get? P = some m) (hm : m.isDirectory = false)
    (h : walkLinks t true k P ks = .ok (.found q n)) : q = P ∧ m = n := by
  cases ks with
  | nil =>
    rw [walkLinks_nil hP] at h
    obtain ⟨hq, hn⟩ : P = q ∧ m = n := by simpa using h
    exact ⟨hq.symm, hn⟩
  | cons c ks =>
    obtain ⟨es, mode, hes, -⟩ := directory_of_walkLinks_ok h
    rw [hP] at hes
    obtain rfl := Option.some.inj hes
    simp [Node.isDirectory] at hm

theorem InStep.here (h : InStep t rooted cs rest P k ks q n)
    (hcut : Path.components rest = Path.here :: Path.components after) :
    InStep t rooted cs after P k ks q n := by
  refine ⟨h.linkFree, h.walk, ?_⟩
  rw [h.same, hcut]
  simp [moves]

theorem InStep.next (h : InStep t rooted cs rest P k ks q n)
    (hcut : Path.components rest = name :: Path.components after) (hhere : name ≠ Path.here) :
    ∃ ks', walkLinks t true k P (name :: ks') = .ok (.found q n) ∧
      moves ks' = moves (Path.components after) := by
  obtain ⟨mode, es, hes⟩ := Node.directoryAt_view.mp h.linkFree.directory
  apply (walkLinks_skip_here hes h.walk).2
  rw [h.same, hcut]
  simp [moves, hhere]

theorem InStep.up (h : InStep t rooted cs rest P k ks q n)
    (hcut : Path.components rest = Path.up :: Path.components after) :
    ∃ cs' ks', dropName (Path.fixedLength rooted) (Path.render rooted cs) = Path.render rooted cs' ∧
      InStep t rooted cs' after P.dropLast k ks' q n := by
  obtain ⟨ks', hwalk, hsame⟩ := h.next hcut (by decide)
  obtain ⟨es, hes⟩ := directory_of_walkLinks_ok hwalk
  have hP := admits_search.mpr ⟨es, hes⟩
  rw [walkLinks_up hes] at hwalk
  rcases @Path.dropName_render rooted cs h.linkFree.isPart with hdrop | ⟨cs', c, rfl, hc, hdrop⟩
  · exact ⟨_, ks', hdrop, h.linkFree.up hP, hwalk, hsame⟩
  · exact ⟨_, ks', hdrop, h.linkFree.drop hc, hwalk, hsame⟩

/-- How a stretch without links ends: at the file itself, or at a link that the system follows. -/
inductive LegEnd (t : FileTree) (rooted : Bool) (q : Place) (n : Node) : RealLeg → Prop
  | arrived {cs : List Bytes} {c : Bytes} {P : Place} (h : LinkFree t rooted cs P)
      (hP : Admits .search t.privileged t.view P) (hpart : Path.IsPart c) (hc : IsName c)
      (hlegal : IsLegal (Path.render rooted (cs ++ [c]))) (hq : q = P ++ [c])
      (hn : t.root.get? q = some n) :
      LegEnd t rooted q n (.arrived (Path.render rooted (cs ++ [c])))
  | link {cs ks : List Bytes} {c target after : Bytes} {P : Place} {k : Nat}
      (h : LinkFree t rooted cs P) (hpart : Path.IsPart c)
      (hwalk : walkLinks t true k (if Path.isAbsolute target then [] else P)
        (steps target ++ ks) = .ok (.found q n))
      (hsame : moves ks = moves (Path.components after))
      (hafter : after = [] ∨ ∃ rest, after = Path.slash :: rest) :
      LegEnd t rooted q n (.link (Path.render rooted (cs ++ [c])) target after)

theorem realLeg_spec {id mode : Nat} {content : Bytes} {fuel : Nat} {leg : RealLeg}
    (hfuel : rest.length < fuel) (h : InStep t rooted cs rest P k ks q (.file id mode content))
    (hok : t.realLeg (Path.fixedLength rooted) fuel (Path.render rooted cs) rest = .ok leg) :
    LegEnd t rooted q (.file id mode content) leg := by
  induction fuel generalizing rest cs P k ks with
  | zero => exact absurd hfuel (Nat.not_lt_zero _)
  | succ fuel ih =>
    rw [realLeg] at hok
    simp only at hok
    generalize hname : (rest.dropWhile (· == Path.slash)).takeWhile (· != Path.slash) = name at hok
    generalize hafter : (rest.dropWhile (· == Path.slash)).dropWhile (· != Path.slash) = after
      at hok
    obtain ⟨hcut, hlen⟩ := Path.components_cut hname hafter
    have hends := Path.dropWhile_ne_slash (rest.dropWhile (· == Path.slash))
    rw [hafter] at hends
    rcases hcut with ⟨rfl, hnil⟩ | ⟨hpart, hcut⟩
    · -- Without components left the system would stand at a directory.
      obtain ⟨mode, es, hes⟩ := Node.directoryAt_view.mp h.linkFree.directory
      have hfound := (walkLinks_skip_here hes h.walk).1 (by rw [h.same, hnil]; rfl)
      simp at hfound
    have hshort : after.length < fuel := by
      have hpos := List.length_pos_iff.mpr hpart.1
      omega
    rw [if_neg (by simpa using hpart.1)] at hok
    by_cases hhere : name = Path.here
    · rw [if_pos (by simpa using hhere)] at hok
      exact ih hshort (h.here (hhere ▸ hcut)) hok
    rw [if_neg (by simpa using hhere)] at hok
    by_cases hup : name = Path.up
    · rw [if_pos (by simpa using hup)] at hok
      obtain ⟨cs', ks', hdrop, hnext⟩ := h.up (hup ▸ hcut)
      rw [hdrop] at hok
      exact ih hshort hnext hok
    rw [if_neg (by simpa using hup), Path.addName_render name h.linkFree.isPart] at hok
    obtain ⟨ks', hwalk, hsame⟩ := h.next hcut hhere
    obtain ⟨es, hes⟩ := directory_of_walkLinks_ok hwalk
    have hP := admits_search.mpr ⟨es, hes⟩
    cases hl : t.lstat (Path.render rooted (cs ++ [name])) with
    | error e => simp [hl] at hok
    | ok n =>
      obtain ⟨hc, hlegal, hget⟩ := h.linkFree.get?_of_lstat hpart hhere hup hl
      have hlookup := (hes.child name).symm.trans hget
      rw [hl] at hok
      cases n with
      | link target =>
        obtain rfl := Except.ok.inj hok
        cases k with
        | zero =>
          rw [walkLinks, walkLeg_name hes hc, hlookup] at hwalk
          simp at hwalk
        | succ k =>
          rw [walkLinks_link hes hc hlookup (.inr rfl)] at hwalk
          exact .link h.linkFree hpart hwalk hsame hends
      | directory mode ds =>
        rw [walkLinks_name hes hc hlookup (by simp)] at hwalk
        have hdown := Node.directoryAt_view.mpr ⟨mode, ds, hget⟩
        exact ih hshort ⟨h.linkFree.name hP hpart hc hdown, hwalk, hsame⟩ hok
      | file | special =>
        rw [walkLinks_name hes hc hlookup (by simp)] at hwalk
        obtain ⟨hq, hn⟩ := walkLinks_leaf hget rfl hwalk
        simp only at hok
        split at hok
        · obtain rfl := Except.ok.inj hok
          exact .arrived h.linkFree hP hpart hc hlegal hq (by rw [hq, hget, hn])
        · simp at hok

theorem LegEnd.find_clean {id mode : Nat} {content done : Bytes}
    (h : LegEnd t rooted q (.file id mode content) (.arrived done)) :
    t.find false (Path.clean done) = .ok (q, .file id mode content) := by
  cases h with
  | arrived h hP hpart hc hlegal hq hn =>
    subst hq
    exact h.find_clean hP hpart hc hlegal hn

theorem LinkFree.root (h : LinkFree t rooted cs P) : LinkFree t true [] [] := by
  obtain ⟨k, B, hbase, -, -⟩ := h.route
  exact ⟨by simp, maxLinks, [], .done hbase.directory_start, fun _ => rfl,
    .nil hbase.directory_start⟩

theorem find_of_realPathFrom {id mode : Nat} {content r : Bytes} {links : Nat}
    (h : InStep t rooted cs rest P k ks q (.file id mode content))
    (hok : t.realPathFrom links (Path.fixedLength rooted) (Path.render rooted cs) rest = .ok r) :
    t.find false r = .ok (q, .file id mode content) := by
  induction links generalizing rooted cs rest P k ks with
  | zero =>
    rw [realPathFrom] at hok
    split at hok
    · simp at hok
    · rename_i done hleg
      obtain rfl := Except.ok.inj hok
      exact (realLeg_spec (Nat.lt_succ_self _) h hleg).find_clean
    · simp at hok
  | succ links ih =>
    rw [realPathFrom] at hok
    split at hok
    · simp at hok
    · rename_i done hleg
      obtain rfl := Except.ok.inj hok
      exact (realLeg_spec (Nat.lt_succ_self _) h hleg).find_clean
    · rename_i next target after hleg
      have hend := realLeg_spec (Nat.lt_succ_self _) h hleg
      cases hend with
      | @link cs' ks' c _ _ P' k' hfree hpart hwalk hsame hafter =>
        simp only at hok
        have hmoves : moves (steps target ++ ks') = moves (Path.components (target ++ after)) := by
          rw [moves_append, moves_steps, hsame, Path.components_append hafter, moves_append]
        by_cases habs : Path.isAbsolute target = true
        · rw [if_pos habs] at hok hwalk
          obtain ⟨b, tail, rfl⟩ : ∃ b tail, target = b :: tail := by
            cases target with
            | nil => simp [Path.isAbsolute] at habs
            | cons b tail => exact ⟨b, tail, rfl⟩
          obtain rfl : b = Path.slash := by simpa [Path.isAbsolute] using habs
          rw [List.cons_append, Path.components_slash_cons] at hmoves
          exact ih ⟨hfree.root, hwalk, hmoves⟩ hok
        · rw [if_neg habs] at hok hwalk
          rw [Path.beforeLastSlash?_getD_render hpart] at hok
          exact ih ⟨hfree, hwalk, hmoves⟩ hok

/-- The link-free form of a path to a file leads to that file, without a link at its end. -/
theorem find_realPath {path r : Bytes} {id mode : Nat} {content : Bytes}
    (hfile : t.find true path = .ok (q, .file id mode content))
    (hr : t.realPath path = .ok r) : t.find false r = .ok (q, .file id mode content) := by
  have hne := (legal_of_find_ok hfile).2.1
  have hwalk := resolve_of_find_ok hfile
  rw [trail] at hwalk
  obtain ⟨k, D, hlead, hrest⟩ := leads_of_walkLinks_ok (Path.steps_ne_nil hne) hwalk
  obtain ⟨b, tail, rfl⟩ := List.exists_cons_of_ne_nil hne
  by_cases hb : b = Path.slash
  · subst hb
    have hmoves := moves_steps (Path.slash :: tail)
    rw [Path.components_slash_cons] at hmoves
    have hstart : LinkFree t true [] [] :=
      ⟨by simp, maxLinks, [], .done hlead.directory_start, fun _ => rfl,
        .nil hlead.directory_start⟩
    exact find_of_realPathFrom ⟨hstart, hwalk, hmoves⟩ hr
  · have hrel : Path.isAbsolute (b :: tail) = false := by simp [Path.isAbsolute, hb]
    rw [origin, hrel] at hlead
    have hstart : LinkFree t false [] D :=
      ⟨by simp, k, D, hlead, by simp, .nil hlead.directory_end⟩
    have hslash : (b :: tail).takeWhile (· == Path.slash) = [] := by
      rw [List.takeWhile_cons_of_neg (by simpa using hb)]
    rw [realPath, hslash] at hr
    exact find_of_realPathFrom ⟨hstart, hrest, moves_steps (b :: tail)⟩ hr

end Walk

end FileTree

end Linewise
