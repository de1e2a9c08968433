import Linewise.Proofs.PathResolution

/-!
# Writing into files

A file can be written where it stands, found by its place or by its identity. Either way the view of
the tree changes at the places that hold the file and nowhere else.
-/

namespace Linewise

namespace Node

theorem lookup_writeEntries (id : Nat) (content name : Bytes) (es : List (Bytes × Node)) :
    (writeEntries id content es).lookup name = (es.lookup name).map (writeFiles id content) := by
  induction es with
  | nil => simp [writeEntries]
  | cons entry es ih =>
    obtain ⟨k, n⟩ := entry
    rw [writeEntries, List.lookup_cons, List.lookup_cons, ih]
    split <;> rfl

theorem get?_writeFiles (id : Nat) (content : Bytes) (n : Node) (q : Place) :
    (n.writeFiles id content).get? q = (n.get? q).map (writeFiles id content) := by
  induction q generalizing n with
  | nil => rfl
  | cons name rest ih =>
    cases n with
    | directory mode es =>
      rw [writeFiles, get?_cons_directory, get?_cons_directory, lookup_writeEntries]
      cases es.lookup name with
      | none => rfl
      | some m => exact ih m
    | file | link | special => simp [writeFiles, get?, child?]

theorem view_writeFiles (id : Nat) (content : Bytes) (n : Node) (q : Place) :
    (n.writeFiles id content).view q = (n.view q).map (writeFiles id content) := by
  rw [view, view, get?_writeFiles, Option.map_map, Option.map_map]
  congr 1
  funext m
  cases m <;> simp [label, writeFiles, writeEntries]

/-- What stands at a place after a change that only goes by what stood there. -/
theorem get?_alter_map (g : Node → Node) (n : Node) {P : Place} (hne : P ≠ []) :
    (n.alter (Option.map g) P).get? P = (n.get? P).map g := by
  induction P generalizing n with
  | nil => exact absurd rfl hne
  | cons x P ih =>
    cases n with
    | directory mode es =>
      cases P with
      | nil =>
        rw [alter, get?_cons_directory, get?_cons_directory, lookup_alterEntry, if_pos rfl]
        cases es.lookup x <;> rfl
      | cons y P =>
        rw [alter, get?_cons_directory, get?_cons_directory, lookup_alterEntry, if_pos rfl]
        cases es.lookup x with
        | none => rfl
        | some m => exact ih m (by simp)
    | file | link | special => cases P <;> simp [alter, get?, child?]

@[simp] theorem identity?_label (n : Node) : n.label.identity? = n.identity? := by
  cases n <;> rfl

/-- The node with its content replaced, if it is a file. -/
def withContent (content : Bytes) : Node → Node
  | file id mode _ => .file id mode content
  | n => n

@[simp] theorem identity?_withContent (content : Bytes) (n : Node) :
    (n.withContent content).identity? = n.identity? := by
  cases n <;> rfl

theorem label_withContent (content : Bytes) (n : Node) :
    (n.withContent content).label = n.label.withContent content := by
  cases n <;> rfl

theorem withContent_of_identity? {content : Bytes} {n : Node} (h : n.identity? = none) :
    n.withContent content = n := by
  cases n <;> simp_all [identity?, withContent]

theorem child?_withContent (content : Bytes) (n : Node) (name : Bytes) :
    (n.withContent content).child? name = n.child? name := by
  cases n <;> rfl

theorem get?_below_withContent (content : Bytes) (n : Node) (name : Bytes) (rest : Place) :
    (n.withContent content).get? (name :: rest) = n.get? (name :: rest) := by
  rw [get?, get?, child?_withContent]

theorem writeFiles_of_identity? {id : Nat} {content : Bytes} {n : Node}
    (h : n.identity? ≠ some id) : n.label.writeFiles id content = n.label := by
  cases n <;> simp_all [identity?, writeFiles, writeEntries, label]

end Node

namespace FileTree
open Node

theorem writeAt_eq (t : FileTree) (P : Place) (content : Bytes) :
    t.writeAt P content = { t with root := t.root.alter (Option.map (withContent content)) P } := by
  unfold writeAt
  congr 3

/-- A file written at its place has the new content there, and nothing else changes. -/
theorem view_writeAt (t : FileTree) {P : Place} (hne : P ≠ []) (content : Bytes) :
    (t.writeAt P content).view =
      Function.update t.view P ((t.view P).map (withContent content)) := by
  funext q
  rw [writeAt_eq]
  have hself := get?_alter_map (withContent content) t.root hne
  by_cases hq : q = P
  · subst hq
    rw [Function.update_self, view, Node.view, hself, view, Node.view, Option.map_map, Option.map_map]
    congr 1
    funext n
    exact label_withContent content n
  · rw [Function.update_of_ne hq]
    by_cases hprefix : P <+: q
    · obtain ⟨rest, rfl⟩ := hprefix
      obtain ⟨name, rest, rfl⟩ := List.exists_cons_of_ne_nil (l := rest) (by simpa using hq)
      rw [view, Node.view, get?_append, hself, view, Node.view, get?_append]
      cases t.root.get? P with
      | none => rfl
      | some n => exact congrArg _ (get?_below_withContent content n name rest)
    · exact view_alter_of_not_below _ hprefix

theorem view_writeIdentity (t : FileTree) (id : Nat) (content : Bytes) (q : Place) :
    (t.writeIdentity id content).view q = (t.view q).map (writeFiles id content) :=
  view_writeFiles id content t.root q

/-- The identity of the file at a place. -/
def identityAt (t : FileTree) (q : Place) : Option Nat := (t.view q).bind Node.identity?

theorem identityAt_eq (t : FileTree) (q : Place) :
    (t.root.get? q).bind Node.identity? = t.identityAt q := by
  rw [identityAt, view, Node.view]
  cases t.root.get? q with
  | none => rfl
  | some n => exact (identity?_label n).symm

/-- Two places that hold one and the same file. -/
def SameFile (t : FileTree) (p q : Place) : Prop :=
  ∃ id, t.identityAt p = some id ∧ t.identityAt q = some id

theorem view_writeIdentity_of_ne {t : FileTree} {id : Nat} {q : Place}
    (h : t.identityAt q ≠ some id) (content : Bytes) :
    (t.writeIdentity id content).view q = t.view q := by
  rw [view_writeIdentity]
  rw [identityAt] at h
  cases hq : t.root.get? q with
  | none => simp [view, Node.view, hq]
  | some n =>
    have hview : t.view q = some n.label := by simp [view, Node.view, hq]
    rw [hview] at h ⊢
    exact congrArg some (writeFiles_of_identity? (by simpa using h))

theorem get?_of_walkLeg {t : FileTree} {follow : Bool} {P q : Place} {cs : List Bytes} {n : Node}
    (h : walkLeg t follow P cs = .ok (.arrived (.found q n))) : t.root.get? q = some n := by
  fun_induction walkLeg t follow P cs with
  | case1 P m hm =>
    obtain ⟨rfl, rfl⟩ : P = q ∧ m = n := by simpa using h
    exact hm
  | case4 P c rest mode es hP hmode hhere ih => exact ih h
  | case5 P c rest mode es hP hmode hhere hup ih => exact ih h
  | case9 P c rest mode es hP hmode hhere hup hlen target hlink hlast =>
    obtain ⟨rfl, rfl⟩ : P ++ [c] = q ∧ link target = n := by simpa using h
    exact (get?_child hP c).trans hlink
  | case11 P c rest mode es hP hmode hhere hup hlen m hlink hm ih => exact ih h
  | case2 | case3 | case6 | case7 | case8 | case10 | case12 | case13 => simp_all

theorem lookup_of_walkLeg {t : FileTree} {follow : Bool} {P D : Place} {cs : List Bytes} {x : Bytes}
    (h : walkLeg t follow P cs = .ok (.arrived (.absent D x))) :
    ∃ es, t.Holds D es ∧ es.lookup x = none := by
  fun_induction walkLeg t follow P cs with
  | case4 P c rest mode es hP hmode hhere ih => exact ih h
  | case5 P c rest mode es hP hmode hhere hup ih => exact ih h
  | case7 P c rest mode es hP hmode hhere hup hlen hnone hlast =>
    obtain ⟨rfl, rfl⟩ : P = D ∧ c = x := by simpa using h
    exact ⟨es, ⟨mode, hP, by simpa using hmode⟩, hnone⟩
  | case11 P c rest mode es hP hmode hhere hup hlen m hlink hm ih => exact ih h
  | case1 | case2 | case3 | case6 | case8 | case9 | case10 | case12 | case13 => simp_all

/-- Following a link at the end makes a difference only when there is one. -/
theorem walkLeg_follow {t : FileTree} {P : Place} {cs : List Bytes} {leg : Leg}
    (h : walkLeg t false P cs = .ok leg)
    (hleg : ∀ q target, leg ≠ .arrived (.found q (.link target))) : walkLeg t true P cs = .ok leg := by
  fun_induction walkLeg t false P cs with
  | case1 P m hm => simpa [walkLeg, hm] using h
  | case4 P c rest mode es hP hmode hhere ih => simpa [walkLeg, hP, hmode, hhere] using ih h
  | case5 P c rest mode es hP hmode hhere hup ih => simpa [walkLeg, hP, hmode, hhere, hup] using ih h
  | case7 P c rest mode es hP hmode hhere hup hlen hnone hlast =>
    simpa [walkLeg, hP, hmode, hhere, hup, hlen, hnone, hlast] using h
  | case9 P c rest mode es hP hmode hhere hup hlen target hlink hlast =>
    obtain rfl := Except.ok.inj h
    exact absurd rfl (hleg _ target)
  | case10 P c rest mode es hP hmode hhere hup hlen target hlink hlast =>
    simpa [walkLeg, hP, hmode, hhere, hup, hlen, hlink] using h
  | case11 P c rest mode es hP hmode hhere hup hlen m hlink hm ih =>
    have hrest := ih h
    cases m with
    | link target => exact absurd rfl (hlink target)
    | file | directory | special => simpa [walkLeg, hP, hmode, hhere, hup, hlen, hm] using hrest
  | case2 | case3 | case6 | case8 | case12 | case13 => simp_all

theorem walkLinks_follow {t : FileTree} {k : Nat} {P : Place} {cs : List Bytes} {d : Destination}
    (h : walkLinks t false k P cs = .ok d) (hd : ∀ q target, d ≠ .found q (.link target)) :
    walkLinks t true k P cs = .ok d := by
  rw [walkLinks] at h ⊢
  cases hleg : walkLeg t false P cs with
  | error e => simp [hleg] at h
  | ok leg =>
    rw [hleg] at h
    cases leg with
    | arrived d' =>
      obtain rfl := Except.ok.inj h
      rw [walkLeg_follow hleg fun q target heq => hd q target (by simpa using heq)]
    | link dir target rest =>
      rw [walkLeg_follow hleg (by simp)]
      cases k with
      | zero => cases h
      | succ k => exact walkLinks_follow h hd

/-- What is found at a path without following a link at its end is found there in any case, unless it
is a link. -/
theorem find_follow {t : FileTree} {p : Bytes} {q : Place} {n : Node}
    (h : t.find false p = .ok (q, n)) (hn : n.isLink = false) : t.find true p = .ok (q, n) := by
  have hlegal := legal_of_find_ok h
  have hlink : ∀ q' target, Destination.found q n ≠ .found q' (.link target) := by
    rintro q' target heq
    cases heq
    simp [isLink] at hn
  rw [find, t.resolve_of_legal true hlegal, walkLinks_follow (resolve_of_find_ok h) hlink]

/-- A walk arrives by a stretch without links. -/
theorem walkLeg_of_walkLinks {t : FileTree} {follow : Bool} {k : Nat} {P : Place}
    {cs : List Bytes} {d : Destination} (h : walkLinks t follow k P cs = .ok d) :
    ∃ P' cs', walkLeg t follow P' cs' = .ok (.arrived d) := by
  induction k generalizing P cs with
  | zero =>
    rw [walkLinks] at h
    split at h
    · simp at h
    · rename_i d' hleg
      obtain rfl := Except.ok.inj h
      exact ⟨P, cs, hleg⟩
    · simp at h
  | succ k ih =>
    rw [walkLinks] at h
    split at h
    · simp at h
    · rename_i d' hleg
      obtain rfl := Except.ok.inj h
      exact ⟨P, cs, hleg⟩
    · exact ih h

theorem walkLeg_of_resolve {t : FileTree} {follow : Bool} {p : Bytes} {d : Destination}
    (h : t.resolve follow p = .ok d) : ∃ P cs, walkLeg t follow P cs = .ok (.arrived d) := by
  unfold resolve at h
  split at h
  · simp at h
  · split at h
    · simp at h
    · split at h
      · simp at h
      · split at h <;> exact walkLeg_of_walkLinks h

theorem get?_of_resolve {t : FileTree} {follow : Bool} {p : Bytes} {q : Place} {n : Node}
    (h : t.resolve follow p = .ok (.found q n)) : t.root.get? q = some n := by
  obtain ⟨P, cs, hleg⟩ := walkLeg_of_resolve h
  exact get?_of_walkLeg hleg

theorem get?_of_find {t : FileTree} {follow : Bool} {p : Bytes} {q : Place} {n : Node}
    (h : t.find follow p = .ok (q, n)) : t.root.get? q = some n :=
  get?_of_resolve (found_of_find_ok h)

theorem view_of_resolve_absent {t : FileTree} {follow : Bool} {p x : Bytes} {D : Place}
    (h : t.resolve follow p = .ok (.absent D x)) :
    Admits .search t.privileged t.view D ∧ t.view (D ++ [x]) = none := by
  obtain ⟨P, cs, hleg⟩ := walkLeg_of_resolve h
  obtain ⟨es, hes, hnone⟩ := lookup_of_walkLeg hleg
  exact ⟨admits_search.mpr ⟨es, hes⟩, Node.view_eq_none.mpr ((hes.child x).trans hnone)⟩

/-- A file that is opened is there already, or it is made where nothing was. -/
theorem openOrCreate_ok {t opened : FileTree} {wanted : List Access} {p : Bytes} {mode : Nat}
    {P : Place} (h : t.openOrCreate wanted p mode = .ok (opened, P)) :
    (opened = t ∧ ∃ n, t.resolve true p = .ok (.found P n) ∧ n.isDirectory = false ∧
        t.refusal? wanted n = none) ∨
      ∃ D x, t.resolve true p = .ok (.absent D x) ∧ t.mayAlter D = true ∧ P = D ++ [x] ∧
        opened = t.putFile P mode [] := by
  unfold openOrCreate at h
  simp only at h
  split at h
  · split at h <;> simp at h
  · split at h
    · simp at h
    · simp at h
    · rename_i place n hn hfound
      split at h
      · simp at h
      next hopen =>
        obtain ⟨rfl, rfl⟩ : t = opened ∧ place = P := by simpa using h
        refine .inl ⟨rfl, n, hfound, ?_, hopen⟩
        cases n with
        | directory mode es => exact absurd rfl (hn mode es)
        | file | link | special => rfl
    · rename_i D x habsent
      split at h
      next halter =>
        obtain ⟨rfl, rfl⟩ : t.putFile (D ++ [x]) mode [] = opened ∧ D ++ [x] = P := by simpa using h
        exact .inr ⟨D, x, habsent, halter, rfl, rfl⟩
      next => simp at h

theorem view_putFile_absent {t : FileTree} {follow : Bool} {p x : Bytes} {D : Place}
    (h : t.resolve follow p = .ok (.absent D x)) (mode : Nat) (content : Bytes) :
    (t.putFile (D ++ [x]) mode content).view =
      Function.update t.view (D ++ [x]) (some (.file t.nextId mode content)) := by
  obtain ⟨hD, hnone⟩ := view_of_resolve_absent h
  exact view_put hD.directory (Ends.not_directoryAt (hnone ▸ ends_none)) rfl

/-- Opening a file for writing leaves the tree as it is or adds one file. -/
theorem openOrCreate_cases {t opened : FileTree} {wanted : List Access} {p : Bytes} {mode : Nat}
    {P : Place} (h : t.openOrCreate wanted p mode = .ok (opened, P)) :
    (opened = t ∧ ∃ n, t.root.get? P = some n ∧ n.isDirectory = false) ∨
      P ≠ [] ∧ opened.cwd = t.cwd ∧
        opened.view = Function.update t.view P (some (.file t.nextId mode [])) := by
  rcases openOrCreate_ok h with ⟨rfl, n, hfound, hn, -⟩ | ⟨D, x, habsent, -, rfl, rfl⟩
  · exact .inl ⟨rfl, n, get?_of_resolve hfound, hn⟩
  · exact .inr ⟨by simp, rfl, view_putFile_absent habsent mode []⟩

theorem identityAt_writeAt (t : FileTree) (P : Place) (content : Bytes) (q : Place) :
    (t.writeAt P content).identityAt q = t.identityAt q := by
  cases P with
  | nil => rw [writeAt_eq]; rfl
  | cons x P =>
    rw [identityAt, view_writeAt t (by simp), identityAt]
    by_cases hq : q = x :: P
    · subst hq
      rw [Function.update_self]
      cases t.view (x :: P) with
      | none => rfl
      | some n => exact identity?_withContent content n
    · rw [Function.update_of_ne hq]

theorem view_writeAt_of_not_sameFile {t : FileTree} {P q : Place} (h : ¬ t.SameFile P q)
    (content : Bytes) : (t.writeAt P content).view q = t.view q := by
  cases P with
  | nil => rw [writeAt_eq]; rfl
  | cons x P =>
    rw [view_writeAt t (by simp)]
    by_cases hq : q = x :: P
    · subst hq
      rw [Function.update_self]
      cases hv : t.view (x :: P) with
      | none => rfl
      | some n =>
        have hid : n.identity? = none := by
          rw [Option.eq_none_iff_forall_ne_some]
          intro id hid
          have hat : t.identityAt (x :: P) = some id := by rw [identityAt, hv]; exact hid
          exact h ⟨id, hat, hat⟩
        exact congrArg some (withContent_of_identity? hid)
    · rw [Function.update_of_ne hq]

/-- A file that is opened, emptied and written changes where it stands and nowhere else. -/
theorem view_written {t opened : FileTree} {wanted : List Access} {p : Bytes} {mode : Nat}
    {P q : Place} (h : t.openOrCreate wanted p mode = .ok (opened, P)) (hq : ¬ opened.SameFile P q) :
    (opened.writeAt P []).view q = t.view q ∧
      ∀ id text, (opened.writeAt P []).identityAt P = some id →
        ((opened.writeAt P []).writeIdentity id text).view q = t.view q := by
  have hopened : opened.view q = t.view q := by
    rcases openOrCreate_cases h with ⟨rfl, -⟩ | ⟨-, -, hview⟩
    · rfl
    · rw [hview, Function.update_of_ne]
      rintro rfl
      have hat : opened.identityAt q = some t.nextId := by
        rw [identityAt, hview, Function.update_self]
        rfl
      exact hq ⟨t.nextId, hat, hat⟩
  have hemptied := (view_writeAt_of_not_sameFile hq []).trans hopened
  refine ⟨hemptied, fun id text hid => ?_⟩
  rw [view_writeIdentity_of_ne _ text, hemptied]
  rw [identityAt_writeAt] at hid ⊢
  exact fun hother => hq ⟨id, hid, hother⟩

end FileTree

end Linewise
