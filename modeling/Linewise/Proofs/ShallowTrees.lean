import Linewise.Proofs.MadeDirectories
import Linewise.Proofs.WalkOrder

/-!
# How far a path can lead

Between two links a path goes down in the tree, and the system follows a limited number of links on
one path. So a path that the system follows holds no more names than the depth of the tree and that
number allow, wherever the links lead. A replacement makes nothing but files, and what it moves stays
in its directory, so that the limit is the same after it and no pipe has come in.
-/

namespace Linewise

namespace Node

/-- When an entry is set or taken away, what is below its place goes with it, and nothing else
changes. -/
theorem view_alter_cases (n : Node) (o : Option Node) (P q : Place) :
    (n.alter (fun _ => o) P).view q = n.view q ∨
      ∃ rest, q = P ++ rest ∧
        (n.alter (fun _ => o) P).view q = o.bind fun m => m.view rest := by
  induction P generalizing n q with
  | nil => exact .inl (by simp [alter])
  | cons x P ih =>
    cases n with
    | file | link | special => exact .inl (by cases P <;> rfl)
    | directory mode es =>
      by_cases hbelow : x :: P <+: q
      · obtain ⟨rest, rfl⟩ := hbelow
        cases P with
        | nil =>
          refine .inr ⟨rest, rfl, ?_⟩
          simp only [alter, view, List.cons_append, get?_cons_directory, lookup_alterEntry,
            ↓reduceIte]
          cases o <;> rfl
        | cons z P =>
          simp only [alter, view, List.cons_append, get?_cons_directory, lookup_alterEntry,
            ↓reduceIte]
          cases es.lookup x with
          | none => exact .inl rfl
          | some m =>
            refine (ih m (z :: P ++ rest)).imp id ?_
            rintro ⟨rest', hrest, hview⟩
            exact ⟨rest', congrArg _ hrest, hview⟩
      · exact .inl (view_alter_of_not_below _ hbelow)

end Node

namespace FileTree
open Node

/-- Something holds of what stands at every place of a tree. -/
def Everywhere (ok : Place → Node → Prop) (t : FileTree) : Prop := ∀ q n, t.view q = some n → ok q n

/-- Something that files always have, that does not depend on modes and on what is in files, and that
stays with what moves within its directory to a name that a path can hold. -/
structure Durable (ok : Place → Node → Prop) : Prop where
  file (D : Place) {x : Bytes} (hx : Path.IsEntry x) (id mode : Nat) (content : Bytes) :
    ok (D ++ [x]) (.file id mode content)
  withMode {q : Place} {n : Node} (h : ok q n) (mode : Nat) : ok q (n.withMode mode)
  outline {q : Place} {n n' : Node} (h : ok q n) (hn : n'.outline = n.outline) : ok q n'
  move {D rest : Place} {x y : Bytes} {n : Node} (h : ok (D ++ [x] ++ rest) n)
    (hy : Path.IsEntry y) : ok (D ++ [y] ++ rest) n

variable {d : Nat} {t t' : FileTree} {ok : Place → Node → Prop}

/-- A directory is fewer than `d` names away from the root, and an entry has a name that a path can
hold. -/
structure Near (d : Nat) (q : Place) (n : Node) : Prop where
  near : n.isDirectory = true → q.length < d
  named : ∀ D x, q = D ++ [x] → Path.IsEntry x

/-- A tree whose directories are fewer than `d` names away from the root and whose entries have
names that a path can hold. -/
abbrev Shallow (d : Nat) (t : FileTree) : Prop := Everywhere (Near d) t

theorem Shallow.near (h : Shallow d t) {P : Place} (hP : DirectoryAt t.view P) : P.length < d := by
  obtain ⟨mode, hmode⟩ := hP
  exact (h P _ hmode).near rfl

theorem Shallow.named (h : Shallow d t) {D : Place} {x : Bytes} (hx : t.view (D ++ [x]) ≠ none) :
    Path.IsEntry x := by
  obtain ⟨n, hn⟩ := Option.ne_none_iff_exists'.mp hx
  exact (h _ n hn).named D x rfl

/-- Names that follow the components `pre` on a way to a directory: each stretch of them without a
link is shorter than `d`, and a stretch ends with the way or with a link. -/
theorem Leads.length_le {privileged : Bool} {v : View}
    (hnear : ∀ P, DirectoryAt v P → P.length < d) {k k' : Nat} {P D : Place} {cs : List Bytes}
    (h : Leads privileged v k P cs k' D) {pre names : List Bytes} (hcs : cs = pre ++ names)
    (hnames : ∀ c ∈ names, c ≠ Path.here ∧ c ≠ Path.up) :
    (if pre = [] then P.length else 0) + names.length + k' * d ≤ k * d + D.length := by
  induction h generalizing pre names with
  | done =>
    obtain ⟨rfl, rfl⟩ := List.append_eq_nil_iff.mp hcs.symm
    simp [Nat.add_comm]
  | here _ _ ih =>
    rcases List.cons_eq_append_iff.mp hcs with ⟨-, rfl⟩ | ⟨pre, rfl, rfl⟩
    · exact absurd rfl (hnames _ List.mem_cons_self).1
    · have hrest := ih rfl hnames
      simp only [reduceCtorEq, ↓reduceIte]
      omega
  | up _ _ ih =>
    rcases List.cons_eq_append_iff.mp hcs with ⟨-, rfl⟩ | ⟨pre, rfl, rfl⟩
    · exact absurd rfl (hnames _ List.mem_cons_self).2
    · have hrest := ih rfl hnames
      simp only [reduceCtorEq, ↓reduceIte]
      omega
  | name _ _ _ ih =>
    rcases List.cons_eq_append_iff.mp hcs with ⟨rfl, rfl⟩ | ⟨pre, rfl, rfl⟩
    · have hrest := ih (List.nil_append _).symm fun c hc =>
        hnames c (List.mem_cons_of_mem _ hc)
      simp only [↓reduceIte, List.length_append, List.length_cons, List.length_nil] at hrest ⊢
      omega
    · have hrest := ih rfl hnames
      simp only [reduceCtorEq, ↓reduceIte]
      omega
  | @link k k' P D c target cs hP _ _ _ ih =>
    have hlt := hnear P hP.directory
    rw [Nat.succ_mul]
    rcases List.cons_eq_append_iff.mp hcs with ⟨rfl, rfl⟩ | ⟨pre, rfl, rfl⟩
    · have hrest := @ih (steps target) cs rfl fun c hc => hnames c (List.mem_cons_of_mem _ hc)
      simp only [↓reduceIte, List.length_cons]
      omega
    · have hrest := ih (List.append_assoc (steps target) pre _).symm hnames
      simp only [reduceCtorEq, ↓reduceIte]
      omega

/-- A path that can be followed goes through a limited number of names. -/
theorem Shallow.length_le (h : Shallow d t) {p : Bytes} {names : List Bytes}
    (hp : names ≠ [] → p ≠ []) (hnames : ∀ name ∈ names, Path.IsEntry name) {follow : Bool}
    {found : Place × Node} (hok : t.find follow (Path.under p names) = .ok found) :
    names.length ≤ (maxLinks + 1) * d := by
  rcases List.eq_nil_or_concat names with rfl | ⟨names, x, rfl⟩
  · exact Nat.zero_le _
  rw [List.concat_eq_append] at hp hnames hok ⊢
  have hne := hp (by simp)
  have hwalk := resolve_of_find_ok hok
  rw [Path.under_concat, trail_join_name (Path.under_ne_nil hne _) (hnames x (by simp)),
    Path.kept_under hne fun name hname => hnames name (List.mem_append_left _ hname),
    ← List.append_assoc] at hwalk
  obtain ⟨k, D, hlead, -⟩ := leads_of_walkLinks_ok (by simp) hwalk
  have hle := hlead.length_le (fun _ => h.near) rfl fun c hc =>
    ⟨(hnames c (List.mem_append_left _ hc)).ne_here, (hnames c (List.mem_append_left _ hc)).ne_up⟩
  have hlt := h.near hlead.directory_end
  rw [Nat.succ_mul, List.length_append, List.length_singleton]
  omega

theorem isPart_of_mem_steps {p c : Bytes} (h : c ∈ steps p) : Path.IsPart c := by
  rcases List.mem_append.mp h with hc | hc
  · exact Path.isPart_of_mem_components hc
  · split at hc
    · rw [List.mem_singleton.mp hc]
      exact ⟨by decide, by decide⟩
    · cases hc

/-- A walk along parts of paths ends, where an entry is missing, with the name of an entry, and
leaves parts of paths to walk after a link. -/
theorem parts_of_walkLeg {follow : Bool} {P : Place} {cs : List Bytes} {leg : Leg}
    (h : walkLeg t follow P cs = .ok leg) (hcs : ∀ c ∈ cs, Path.IsPart c) :
    (∀ D x, leg = .arrived (.absent D x) → Path.IsEntry x) ∧
      ∀ D target rest, leg = .link D target rest → ∀ c ∈ rest, Path.IsPart c := by
  fun_induction walkLeg t follow P cs with
  | case4 P c rest mode es hP hsearch hhere ih =>
    exact ih h fun c hc => hcs c (List.mem_cons_of_mem _ hc)
  | case5 P c rest mode es hP hsearch hhere hup ih =>
    exact ih h fun c hc => hcs c (List.mem_cons_of_mem _ hc)
  | case7 P c rest mode es hP hsearch hhere hup hlen hnone hlast =>
    obtain rfl := Except.ok.inj h
    refine ⟨fun D x heq => ?_, by simp⟩
    obtain ⟨-, rfl⟩ : P = D ∧ c = x := by simpa using heq
    exact ⟨hcs c List.mem_cons_self, by simpa using hhere, by simpa using hup⟩
  | case10 P c rest mode es hP hsearch hhere hup hlen target hlink hlast =>
    obtain rfl := Except.ok.inj h
    refine ⟨by simp, fun D target' rest' heq => ?_⟩
    obtain ⟨-, -, rfl⟩ : P = D ∧ target = target' ∧ rest = rest' := by simpa using heq
    exact fun c hc => hcs c (List.mem_cons_of_mem _ hc)
  | case11 P c rest mode es hP hsearch hhere hup hlen m hlink hm ih =>
    exact ih h fun c hc => hcs c (List.mem_cons_of_mem _ hc)
  | case1 | case9 =>
    obtain rfl := Except.ok.inj h
    simp
  | case2 | case3 | case6 | case8 | case12 | case13 => cases h

theorem isEntry_of_walkLinks_absent {follow : Bool} {k : Nat} {P D : Place}
    {cs : List Bytes} {x : Bytes} (hcs : ∀ c ∈ cs, Path.IsPart c)
    (h : walkLinks t follow k P cs = .ok (.absent D x)) : Path.IsEntry x := by
  induction k generalizing P cs with
  | zero =>
    rw [walkLinks] at h
    split at h
    · cases h
    · rename_i hleg
      exact (parts_of_walkLeg hleg hcs).1 D x (congrArg _ (Except.ok.inj h))
    · cases h
  | succ k ih =>
    rw [walkLinks] at h
    split at h
    · cases h
    · rename_i hleg
      exact (parts_of_walkLeg hleg hcs).1 D x (congrArg _ (Except.ok.inj h))
    · rename_i dir target rest hleg
      refine ih (fun c hc => ?_) h
      rcases List.mem_append.mp hc with hc | hc
      · exact isPart_of_mem_steps hc
      · exact (parts_of_walkLeg hleg hcs).2 dir target rest rfl c hc

/-- The name of a missing entry is one that a path can hold. -/
theorem isEntry_of_resolve_absent {follow : Bool} {p x : Bytes} {D : Place}
    (h : t.resolve follow p = .ok (.absent D x)) : Path.IsEntry x := by
  rw [resolve_of_legal t follow (legal_of_resolve_ok h)] at h
  refine isEntry_of_walkLinks_absent (fun c hc => ?_) h
  rcases List.mem_append.mp hc with hc | hc
  · rw [origin] at hc
    split at hc
    · cases hc
    · exact Path.isPart_of_mem_components hc
  · exact isPart_of_mem_steps hc

/-! ## What the requests of a replacement keep -/

/-- An entry is set or taken away: it holds of what comes with the entry. -/
theorem Everywhere.put (h : Everywhere ok t) {P : Place} {o : Option Node}
    (ho : ∀ rest n, (o.bind fun m => m.view rest) = some n → ok (P ++ rest) n) :
    Everywhere ok (t.put P o) := by
  intro q n hn
  rcases view_alter_cases t.root o P q with hsame | ⟨rest, rfl, hset⟩
  · exact h q n (hsame.symm.trans hn)
  · exact ho rest n (hset.symm.trans hn)

theorem Everywhere.put_none (h : Everywhere ok t) (P : Place) : Everywhere ok (t.put P none) :=
  h.put (by simp)

/-- What stands below a place. -/
theorem view_below {P : Place} {n : Node} (hn : t.root.get? P = some n) (rest : Place) :
    t.view (P ++ rest) = n.view rest := by
  rw [FileTree.view, Node.view, get?_append, hn]
  rfl

/-- What moves within its directory. -/
theorem Everywhere.move (h : Everywhere ok t) (hok : Durable ok) {D : Place} {x y : Bytes} {n : Node}
    (hn : t.root.get? (D ++ [x]) = some n) (hy : Path.IsEntry y) :
    Everywhere ok ((t.put (D ++ [x]) none).put (D ++ [y]) (some n)) :=
  (h.put_none _).put fun rest m hm => hok.move (h _ m ((view_below hn rest).trans hm)) hy

theorem Everywhere.putFile (h : Everywhere ok t) (hok : Durable ok) {follow : Bool} {p x : Bytes}
    {D : Place} (habsent : t.resolve follow p = .ok (.absent D x)) (mode : Nat) (content : Bytes) :
    Everywhere ok (t.putFile (D ++ [x]) mode content) := by
  refine h.put (o := some (.file t.nextId mode content)) fun rest n hn => ?_
  cases rest with
  | nil =>
    obtain rfl : .file t.nextId mode content = n := by simpa [Node.view, label] using hn
    simpa using hok.file D (isEntry_of_resolve_absent habsent) t.nextId mode content
  | cons => simp [Node.view, get?, child?] at hn

theorem Everywhere.openOrCreate (h : Everywhere ok t) (hok : Durable ok) {wanted : List Access}
    {p : Bytes} {mode : Nat} {P : Place} (hopen : t.openOrCreate wanted p mode = .ok (t', P)) :
    Everywhere ok t' := by
  rcases openOrCreate_ok hopen with ⟨rfl, -⟩ | ⟨D, x, habsent, -, rfl, rfl⟩
  · exact h
  · exact h.putFile hok habsent mode []

theorem Everywhere.createNew (h : Everywhere ok t) (hok : Durable ok) {p content : Bytes}
    {mode : Nat} (hcreate : t.createNew p mode content = .ok t') : Everywhere ok t' := by
  obtain ⟨D, x, habsent, -, rfl⟩ := createNew_ok hcreate
  exact h.putFile hok habsent mode content

theorem Everywhere.changeMode (h : Everywhere ok t) (hok : Durable ok) {p : Bytes} {mode : Nat}
    (hchange : t.changeMode p mode = .ok t') : Everywhere ok t' := by
  obtain ⟨P, n, hfind, rfl⟩ := changeMode_ok hchange
  have hn := get?_of_find hfind
  refine h.put fun rest m hm => ?_
  cases rest with
  | nil =>
    obtain rfl : n.label.withMode mode = m := by
      cases n <;> simpa [Node.view, label, Node.withMode] using hm
    exact hok.withMode (h _ _ (by rw [view_below hn]; rfl)) mode
  | cons name rest =>
    have hsame : (n.withMode mode).view (name :: rest) = n.view (name :: rest) := by
      cases n <;> rfl
    exact h _ m ((view_below hn _).trans (hsame.symm.trans hm))

theorem Everywhere.remove (h : Everywhere ok t) {p : Bytes} (hremove : t.remove p = .ok t') :
    Everywhere ok t' := by
  obtain ⟨P, n, -, -, -, rfl⟩ := remove_ok hremove
  exact h.put_none P

/-! ## Entries that move within a directory -/

/-- A path takes the steps `cs`, with at most a `.` after them, and then names the entry `x`. -/
structure Enters (cwd : Bytes) (cs : List Bytes) (p x : Bytes) : Prop where
  isEntry : Path.IsEntry x
  trail_eq : trail cwd p = cs ++ [x] ∨ trail cwd p = cs ++ [Path.here, x]

/-- The steps lead to a directory, and the path ends at an entry of it. -/
theorem Enters.place_eq {cs : List Bytes} {p x : Bytes} (h : Enters t.cwd cs p x)
    {dest : Destination} (hok : t.resolve false p = .ok dest) :
    ∃ k D, Leads t.privileged t.view maxLinks [] cs k D ∧ dest.place = D ++ [x] := by
  rw [t.resolve_of_legal false (legal_of_resolve_ok hok)] at hok
  obtain ⟨k, D, hlead, hlast⟩ : ∃ k D, Leads t.privileged t.view maxLinks [] cs k D ∧
      walkLinks t false k D [x] = .ok dest := by
    rcases h.trail_eq with htrail | htrail
    · rw [htrail] at hok
      exact leads_of_walkLinks_ok (by simp) hok
    · rw [htrail] at hok
      obtain ⟨k, D, hlead, hlast⟩ := leads_of_walkLinks_ok (by simp) hok
      obtain ⟨es, hes⟩ := directory_of_walkLinks_ok hlast
      rw [walkLinks_here hes] at hlast
      exact ⟨k, D, hlead, hlast⟩
  have hname : IsName x := ⟨h.isEntry.ne_here, h.isEntry.ne_up, length_le_of_walkLinks hlast⟩
  exact ⟨k, D, hlead, place_of_walkLinks hname hlast⟩

theorem Everywhere.rename (h : Everywhere ok t) (hok : Durable ok) {cs : List Bytes}
    {old new x y : Bytes} (hold : Enters t.cwd cs old x) (hnew : Enters t.cwd cs new y)
    (hrename : t.rename old new = .ok t') : Everywhere ok t' := by
  obtain ⟨source, n, dest, hfind, hresolve, -, ⟨-, rfl⟩ | ⟨-, -, rfl⟩⟩ := rename_ok hrename
  · exact h
  obtain ⟨k, D, hlead, hsource⟩ := hold.place_eq (found_of_find_ok hfind)
  obtain ⟨k', D', hlead', hplace⟩ := hnew.place_eq hresolve
  obtain rfl := hlead.unique hlead'
  obtain rfl : source = D ++ [x] := hsource
  rw [hplace]
  exact h.move hok (get?_of_find hfind) hnew.isEntry

/-- The paths that a replacement moves entries between name entries of one directory. -/
theorem enters_of_moves {path r : Bytes} (hr : t.realPath path = .ok r)
    (hwritable : t.checkWritable r = .ok ()) :
    ∃ cs, ∀ p, Replacement.Moves r p → ∃ x, Enters t.cwd cs p x := by
  obtain ⟨q, n, hfind, hn⟩ : ∃ q n, t.find true r = .ok (q, n) ∧ n.isDirectory = false := by
    unfold checkWritable at hwritable
    split at hwritable
    · cases hwritable
    · cases hwritable
    next q n hdirectory hfind =>
      refine ⟨q, n, hfind, ?_⟩
      cases n with
      | directory mode es => exact absurd rfl (hdirectory mode es)
      | file | link | special => rfl
  obtain ⟨C, x, hspell, hname⟩ := spells_of_find hr hfind hn
  have hmem : Path.base r ∈ Path.components r := by
    rw [hspell.base_eq, hspell.components_eq]
    simp
  have hpart := Path.isPart_of_mem_components hmem
  have hzero : 0 ∉ Path.base r := fun h0 =>
    (legal_of_find_ok hfind).1 (Path.mem_of_mem_components hmem h0)
  refine ⟨origin t.cwd r ++ C, fun p hp => ?_⟩
  cases hp with
  | file =>
    refine ⟨x, ⟨hspell.base_eq ▸ hpart, hname.1, hname.2.1⟩, .inl ?_⟩
    rw [trail, hspell.steps_eq, List.append_assoc]
  | temporary k =>
    have hentry := (Temporary.regular_nameOf hpart hzero k).isEntry
    refine ⟨_, hentry, ?_⟩
    rw [trail_pathIn r hentry.isPart]
    rcases hspell.components_parent with hc | ⟨hc, rfl⟩
    · exact .inl (by rw [hc])
    · exact .inr (by simp [hc])
  | backup k =>
    have hentry := (Replacement.regular_backupName hpart hzero k).isEntry
    exact ⟨_, hentry, .inl (trail_join hspell hentry t.cwd)⟩

/-- A replacement makes nothing but files and moves nothing out of its directory, whatever calls
fail. -/
theorem Everywhere.replace (h : Everywhere ok t) (hok : Durable ok) (f : Replacement.Faults)
    (path data : Bytes) : Everywhere ok (Replacement.run t f path data).1.tree := by
  -- The steps of a path are those from the working directory, which never changes.
  refine (Replacement.keeps_run (P := fun t' => t'.cwd = t.cwd ∧ Everywhere ok t') ⟨rfl, h⟩
    (fun r hr hwritable => ?_) f data).2
  obtain ⟨cs, henters⟩ := enters_of_moves hr hwritable
  refine ⟨?_, ?_, ?_, ?_, ?_⟩
  · rintro t₁ t₂ wanted p mode P ⟨hcwd, h⟩ hopen
    exact ⟨(sameProcess_openOrCreate hopen).1.trans hcwd, h.openOrCreate hok hopen⟩
  · rintro t₁ t₂ p content mode ⟨hcwd, h⟩ hcreate
    exact ⟨(sameProcess_createNew hcreate).1.trans hcwd, h.createNew hok hcreate⟩
  · rintro t₁ t₂ p mode ⟨hcwd, h⟩ hchange
    exact ⟨(sameProcess_changeMode hchange).1.trans hcwd, h.changeMode hok hchange⟩
  · rintro t₁ t₂ old new ⟨hcwd, h⟩ hold hnew hrename
    obtain ⟨x, hx⟩ := henters old hold
    obtain ⟨y, hy⟩ := henters new hnew
    rw [← hcwd] at hx hy
    exact ⟨(sameProcess_rename hrename).1.trans hcwd, h.rename hok hx hy hrename⟩
  · rintro t₁ t₂ p ⟨hcwd, h⟩ hremove
    exact ⟨(sameProcess_remove hremove).1.trans hcwd, h.remove hremove⟩

end FileTree

end Linewise
