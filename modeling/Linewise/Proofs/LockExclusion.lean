import Linewise.Lock
import Linewise.Proofs.MadeDirectories

/-!
# The transient lock excludes

Any number of parties take the transient lock on a path and give it back. Each of them goes step by
step, and the steps of all come in any order: a party opens the file at the path, waits until nobody
holds its lock, looks whether the file is still the one at the path and, if not, starts anew; on its
way out it removes the path and then gives the lock back. A party that is inside holds the lock of
the file at the path, so there are never two of them.
-/

namespace Linewise

namespace LockRoom
open FileTree Relation

variable {r : LockRoom} {p q : Bytes} {l : Lock} {file : Nat}

@[simp] theorem tree_set (r : LockRoom) (p : Bytes) (l : Lock) : (r.set p l).tree = r.tree := rfl

@[simp] theorem get_set_self (r : LockRoom) (p : Bytes) (l : Lock) : (r.set p l).get p = l := by
  simp [get, set]

theorem get_set_of_ne (r : LockRoom) (l : Lock) (h : q ≠ p) : (r.set p l).get q = r.get q := by
  have hq : (q == p) = false := by simpa using h
  simp only [get, set, List.lookup, hq]
  congr 1
  induction r.locks with
  | nil => rfl
  | cons entry rest ih =>
    obtain ⟨n, m⟩ := entry
    by_cases hn : n = p
    · subst hn
      simpa [List.lookup, hq] using ih
    · have hkeep : (n != p) = true := by simpa using hn
      simp only [List.filter_cons, hkeep, ↓reduceIte, List.lookup]
      cases q == n
      · exact ih
      · rfl

/-- The lock of a file that a party holds is held by another one for everybody else. -/
theorem heldByOther_of_held (h : (r.get q).held = some file) (hne : q ≠ p) :
    r.heldByOther p file = true := by
  cases hl : r.locks.lookup q with
  | none => simp [get, hl] at h
  | some m =>
    obtain ⟨before, after, hlocks, -⟩ := List.lookup_eq_some_iff.mp hl
    have hm : m.held = some file := by simpa [get, hl] using h
    simp only [heldByOther, List.any_eq_true]
    exact ⟨(q, m), by simp [hlocks], by simp [hne, hm]⟩

/-- How far a party has come with the lock. -/
inductive Phase where
  | away
  /-- It has opened a file and waits for the lock of it. -/
  | waiting (file : Nat)
  /-- It holds the lock and has not looked at the path yet. -/
  | testing
  | inside
  /-- The file it holds is no longer the one at the path. -/
  | stale
  /-- It has removed the path and still holds the lock. -/
  | leaving
  deriving DecidableEq

/-- The locks of all parties, and how far each of them has come. -/
structure Scene where
  room : LockRoom
  phase : Bytes → Phase

/-- A step of the party `p`, while all others stand still. -/
inductive Step (path p : Bytes) : Scene → Scene → Prop
  | opens {r : LockRoom} {f : Bytes → Phase} {t : FileTree} {place : Place} {file : Nat}
      (hphase : f p = .away) (hopen : r.tree.openOrCreate [.read] path 0o600 = .ok (t, place))
      (hfile : t.identity? path = some file) :
      Step path p ⟨r, f⟩
        ⟨{ r with tree := t }.set p { path := path }, Function.update f p (.waiting file)⟩
  | acquires {r : LockRoom} {f : Bytes → Phase} {file : Nat} (hphase : f p = .waiting file)
      (hfree : r.heldByOther p file = false) :
      Step path p ⟨r, f⟩ ⟨r.set p ⟨path, some file⟩, Function.update f p .testing⟩
  | enters {r : LockRoom} {f : Bytes → Phase} (hphase : f p = .testing)
      (hcurrent : r.isCurrent p = true) : Step path p ⟨r, f⟩ ⟨r, Function.update f p .inside⟩
  | misses {r : LockRoom} {f : Bytes → Phase} (hphase : f p = .testing)
      (hcurrent : r.isCurrent p = false) : Step path p ⟨r, f⟩ ⟨r, Function.update f p .stale⟩
  | retries {r : LockRoom} {f : Bytes → Phase} (hphase : f p = .stale) :
      Step path p ⟨r, f⟩ ⟨r.unlock p, Function.update f p .away⟩
  | removes {r : LockRoom} {f : Bytes → Phase} (hphase : f p = .inside) :
      Step path p ⟨r, f⟩
        ⟨{ r with tree := r.tree.discard path }, Function.update f p .leaving⟩
  | unlocks {r : LockRoom} {f : Bytes → Phase} (hphase : f p = .leaving) :
      Step path p ⟨r, f⟩ ⟨r.unlock p, Function.update f p .away⟩

/-- Some steps of some parties. -/
def Steps (path : Bytes) : Scene → Scene → Prop := ReflTransGen fun s s' => ∃ p, Step path p s s'

/-- Nobody has started yet. -/
structure Scene.Quiet (s : Scene) : Prop where
  away : ∀ p, s.phase p = .away
  free : ∀ p, (s.room.get p).held = none

/-- What holds after any steps: no two parties hold the lock of one file, a party that is testing or
inside holds a lock on the path, and the file of a party inside is the one at the path. -/
structure Scene.Guarded (path : Bytes) (s : Scene) : Prop where
  alone : ∀ p q file, (s.room.get p).held = some file → (s.room.get q).held = some file → p = q
  holds : ∀ p, s.phase p = .testing ∨ s.phase p = .inside →
    ∃ file, s.room.get p = ⟨path, some file⟩
  current : ∀ p, s.phase p = .inside → s.room.tree.identity? path = (s.room.get p).held

variable {path : Bytes} {s s' : Scene}

theorem Scene.Quiet.guarded (h : s.Quiet) : s.Guarded path := by
  refine ⟨fun p q file hp => ?_, fun p hp => ?_, fun p hp => ?_⟩
  · simp [h.free p] at hp
  · simp [h.away p] at hp
  · simp [h.away p] at hp

/-- While the path leads to a file, opening it changes nothing. -/
theorem openOrCreate_of_identity? {t t' : FileTree} {wanted : List Access} {place : Place}
    {mode : Nat} (h : t.identity? path = some file)
    (hopen : t.openOrCreate wanted path mode = .ok (t', place)) : t' = t := by
  rcases openOrCreate_ok hopen with ⟨rfl, -⟩ | ⟨D, x, habsent, -⟩
  · rfl
  · simp [identity?, find, habsent] at h

/-- What a step of one party does to the others: nothing but a change of the tree. -/
theorem Step.others (h : Step path p s s') (hq : q ≠ p) :
    s'.phase q = s.phase q ∧ s'.room.get q = s.room.get q := by
  cases h with
  | opens | acquires => exact ⟨Function.update_of_ne hq _ _, get_set_of_ne _ _ hq⟩
  | enters | misses | removes => exact ⟨Function.update_of_ne hq _ _, rfl⟩
  | retries | unlocks => exact ⟨Function.update_of_ne hq _ _, get_set_of_ne _ _ hq⟩

/-- A party takes a lock only when nobody else has it. -/
theorem Step.held_alone (h : Step path p s s')
    (hp : (s'.room.get p).held = some file) (hq : (s.room.get q).held = some file) (hne : q ≠ p) :
    (s.room.get p).held = some file := by
  cases h with
  | opens | retries | unlocks => simp [unlock] at hp
  | enters | misses | removes => exact hp
  | acquires hphase hfree =>
    obtain rfl : _ = file := by simpa using hp
    rw [heldByOther_of_held hq hne] at hfree
    cases hfree

theorem Scene.Guarded.inside_alone (h : s.Guarded path) (hp : s.phase p = .inside)
    (hq : s.phase q = .inside) : p = q := by
  obtain ⟨file, hfile⟩ := h.holds p (.inr hp)
  have hheld : (s.room.get p).held = some file := by rw [hfile]
  refine h.alone p q file hheld ?_
  rw [← h.current q hq, h.current p hp, hheld]

theorem Scene.Guarded.step (h : s.Guarded path) (hstep : Step path p s s') : s'.Guarded path := by
  refine ⟨fun a b file ha hb => ?_, fun a ha => ?_, fun a ha => ?_⟩
  · by_cases hap : a = p
    · by_cases hbp : b = p
      · rw [hap, hbp]
      · subst hap
        rw [(hstep.others hbp).2] at hb
        exact h.alone a b file (hstep.held_alone ha hb hbp) hb
    · by_cases hbp : b = p
      · subst hbp
        rw [(hstep.others hap).2] at ha
        exact h.alone a b file ha (hstep.held_alone hb ha hap)
      · rw [(hstep.others hap).2] at ha
        rw [(hstep.others hbp).2] at hb
        exact h.alone a b file ha hb
  · by_cases hap : a = p
    · subst hap
      cases hstep with
      | acquires => exact ⟨_, get_set_self _ _ _⟩
      | enters hphase => exact h.holds a (.inl hphase)
      | opens | misses | retries | removes | unlocks => simp at ha
    · rw [(hstep.others hap).1] at ha
      rw [(hstep.others hap).2]
      exact h.holds a ha
  · by_cases hap : a = p
    · subst hap
      cases hstep with
      | enters hphase hcurrent =>
        obtain ⟨file, hfile⟩ := h.holds a (.inl hphase)
        simp only [isCurrent, hfile, beq_iff_eq] at hcurrent
        simp only [hcurrent, hfile]
      | opens | acquires | misses | retries | removes | unlocks => simp at ha
    · rw [(hstep.others hap).1] at ha
      rw [(hstep.others hap).2, ← h.current a ha]
      cases hstep with
      | opens hphase hopen =>
        obtain ⟨file, hfile⟩ := h.holds a (.inr ha)
        have hcurrent := h.current a ha
        rw [hfile] at hcurrent
        rw [tree_set, openOrCreate_of_identity? hcurrent hopen]
      | removes hphase => exact absurd (h.inside_alone ha hphase) hap
      | acquires | enters | misses | retries | unlocks => rfl

theorem Scene.Guarded.steps (h : s.Guarded path) (hsteps : Steps path s s') : s'.Guarded path := by
  induction hsteps with
  | refl => exact h
  | tail _ hlast ih =>
    obtain ⟨p, hstep⟩ := hlast
    exact ih.step hstep

/-- Where the path is no link and the process may write the directory, removing the path takes the
file away that the path leads to. -/
theorem discard_of_identity? {t : FileTree} {place : Place} {n : Node}
    (hfile : t.identity? path = some file) (hfind : t.find false path = .ok (place, n))
    (hlink : n.isLink = false) (halter : t.mayAlter place.dropLast = true) :
    t.find true path = .ok (place, n) ∧
      (t.discard path).view = Function.update t.view place none := by
  have hfollow := find_follow hfind hlink
  have hleaf : n.isDirectory = false := by
    cases n <;> simp_all [identity?, Node.isDirectory]
  obtain ⟨D, x, hnames, rfl⟩ : ∃ D x, Names t.privileged t.cwd t.view path D x ∧
      place = D ++ [x] := by
    refine names_of_resolve (found_of_find_ok hfind) ?_
    rintro q mode es ⟨⟩
    cases hleaf
  have hold : ¬ DirectoryAt t.view (D ++ [x]) := by
    intro hdir
    obtain ⟨mode, es, hes⟩ := Node.directoryAt_view.mp hdir
    obtain rfl : n = .directory mode es := Option.some.inj ((get?_of_find hfind).symm.trans hes)
    cases hleaf
  have hremove : t.remove path = .ok (t.put (D ++ [x]) none) := by
    rw [remove, hfind]
    cases n <;> simp_all [Node.isDirectory]
  refine ⟨hfollow, ?_⟩
  rw [FileTree.discard, hremove]
  exact view_put hnames.directory hold rfl

/-- No two parties are inside at once. When a party removes the path on its way out, the path leads
to the very file whose lock it holds, and where the path is no link then and the process may write its
directory, it is this file that goes. -/
theorem steps_exclude {s₀ : Scene} (hquiet : s₀.Quiet) (hsteps : Steps path s₀ s) :
    (∀ p q, s.phase p = .inside → s.phase q = .inside → p = q) ∧
      ∀ p s', Step path p s s' → s.phase p = .inside →
        s'.phase p = .leaving ∧ ∃ file, (s.room.get p).held = some file ∧
          s.room.tree.identity? path = some file ∧
          ∀ place n, s.room.tree.find false path = .ok (place, n) → n.isLink = false →
            s.room.tree.mayAlter place.dropLast = true →
            s.room.tree.find true path = .ok (place, n) ∧
              s'.room.tree.view = Function.update s.room.tree.view place none := by
  have hguarded := hquiet.guarded.steps hsteps
  refine ⟨fun p q hp hq => hguarded.inside_alone hp hq, fun p s' hstep hp => ?_⟩
  obtain ⟨file, hfile⟩ := hguarded.holds p (.inr hp)
  have hcurrent := hguarded.current p hp
  rw [hfile] at hcurrent
  cases hstep with
  | removes hphase =>
    refine ⟨Function.update_self _ _ _, file, by rw [hfile], hcurrent, ?_⟩
    exact fun place n hfind hlink halter => discard_of_identity? hcurrent hfind hlink halter
  | opens hphase | acquires hphase | enters hphase | misses hphase | retries hphase
  | unlocks hphase => exact absurd (hphase.symm.trans hp) (by simp)

/-- A party that takes the lock undisturbed goes inside. -/
theorem steps_takeTransient {f : Bytes → Phase} (haway : f p = .away)
    (hok : (r.takeTransient p path).2 = none)
    (hheld : ((r.takeTransient p path).1.get p).held ≠ none) :
    Steps path ⟨r, f⟩ ⟨(r.takeTransient p path).1, Function.update f p .inside⟩ := by
  generalize htake : r.takeTransient p path = taken at hok hheld ⊢
  simp only [takeTransient, lock, tryLock, get_set_self, tree_set, Option.isSome_none,
    Bool.false_eq_true, ↓reduceIte] at htake
  cases hopen : r.tree.openOrCreate [.read] path 0o600 with
  | error e =>
    subst htake
    simp [hopen] at hok
  | ok opened =>
    obtain ⟨t, place⟩ := opened
    simp only [hopen] at htake
    cases hfile : t.identity? path with
    | none =>
      simp only [hfile, Option.any_none, Bool.false_eq_true, ↓reduceIte] at htake
      rw [← htake, get_set_self] at hheld
      exact absurd rfl hheld
    | some file =>
      have hopens := Step.opens (r := r) (f := f) haway hopen hfile
      generalize hroom : ({ r with tree := t } : LockRoom).set p { path := path } = r₁ at hopens
      have hsame : ({ r.set p { path := path } with tree := t } : LockRoom) = r₁ := hroom
      rw [hsame] at htake
      cases hother : r₁.heldByOther p file with
      | true =>
        simp only [hfile, Option.any_some, hother, ↓reduceIte] at htake
        rw [← htake, ← hroom, get_set_self] at hheld
        exact absurd rfl hheld
      | false =>
        simp only [hfile, Option.any_some, hother, Bool.false_eq_true, ↓reduceIte] at htake
        subst htake
        have hcurrent : (r₁.set p ⟨path, some file⟩).isCurrent p = true := by
          rw [isCurrent, get_set_self, tree_set, ← hroom]
          simp [hfile]
        have hacquires : Step path p _ _ := .acquires (Function.update_self p _ f) hother
        have henters : Step path p _ _ :=
          .enters (Function.update_self p .testing (Function.update f p (.waiting file))) hcurrent
        simp only [Function.update_idem] at hacquires henters
        exact ((ReflTransGen.single ⟨p, hopens⟩).tail ⟨p, hacquires⟩).tail ⟨p, henters⟩

/-- A party that gives the lock back undisturbed goes away. -/
theorem steps_releaseTransient {f : Bytes → Phase} (hinside : f p = .inside)
    (hpath : (r.get p).path = path) :
    Steps path ⟨r, f⟩ ⟨r.releaseTransient p, Function.update f p .away⟩ := by
  have hremoves : Step path p _ _ := .removes (r := r) hinside
  have hunlocks : Step path p _ _ := .unlocks (r := { r with tree := r.tree.discard path })
    (Function.update_self p .leaving f)
  rw [Function.update_idem] at hunlocks
  have hroom :
      r.releaseTransient p = ({ r with tree := r.tree.discard path } : LockRoom).unlock p := by
    rw [releaseTransient, hpath]
    rfl
  rw [hroom]
  exact (ReflTransGen.single ⟨p, hremoves⟩).tail ⟨p, hunlocks⟩

/-- Two parties at an empty directory. The second one comes while the first one is inside, waits for
a file that is removed meanwhile, and has to start anew. -/
theorem steps_exclude_latecomer :
    let path := utf8 "l"
    let b := utf8 "b"
    let start : Scene := ⟨⟨⟨.directory 0o755 [], utf8 "/", 1, false⟩, []⟩, fun _ => .away⟩
    ∃ s s' place mode content, Steps path start s ∧ s.phase b = .inside ∧ Step path b s s' ∧
      (s.room.get b).held = some 2 ∧
      s.room.tree.find false path = .ok (place, .file 2 mode content) ∧
      s'.room.tree.view = Function.update s.room.tree.view place none := by
  intro path b start
  let a := utf8 "a"
  let f₁ := Function.update start.phase a .inside
  let f₂ := Function.update f₁ b (.waiting 1)
  let f₃ := Function.update f₂ a .away
  let f₄ := Function.update f₃ b .testing
  let f₅ := Function.update f₄ b .stale
  let f₆ := Function.update f₅ b .away
  obtain ⟨r₁, hr₁⟩ : ∃ r, (start.room.takeTransient a path).1 = r := ⟨_, rfl⟩
  have hfirst : Steps path start ⟨r₁, f₁⟩ :=
    hr₁ ▸ steps_takeTransient rfl (by decide +kernel) (by decide +kernel)
  obtain ⟨r₂, hr₂⟩ : ∃ r, r₁.set b { path := path } = r := ⟨_, rfl⟩
  have hopen : r₁.tree.openOrCreate [.read] path 0o600 = .ok (r₁.tree, [path]) := by
    rw [← hr₁]
    cbv
  have hopens : Step path b ⟨r₁, f₁⟩ ⟨r₂, f₂⟩ := by
    rw [← hr₂]
    exact .opens rfl hopen (by rw [← hr₁]; decide +kernel)
  obtain ⟨r₃, hr₃⟩ : ∃ r, r₂.releaseTransient a = r := ⟨_, rfl⟩
  have hleaves : Steps path ⟨r₂, f₂⟩ ⟨r₃, f₃⟩ :=
    hr₃ ▸ steps_releaseTransient rfl (by rw [← hr₂, ← hr₁]; decide +kernel)
  have hacquires : Step path b ⟨r₃, f₃⟩ ⟨r₃.set b ⟨path, some 1⟩, f₄⟩ :=
    .acquires rfl (by rw [← hr₃, ← hr₂, ← hr₁]; decide +kernel)
  have hmisses : Step path b ⟨r₃.set b ⟨path, some 1⟩, f₄⟩ ⟨r₃.set b ⟨path, some 1⟩, f₅⟩ :=
    .misses (Function.update_self b .testing f₃) (by rw [← hr₃, ← hr₂, ← hr₁]; decide +kernel)
  obtain ⟨r₄, hr₄⟩ : ∃ r, (r₃.set b ⟨path, some 1⟩).unlock b = r := ⟨_, rfl⟩
  have hretries : Step path b ⟨r₃.set b ⟨path, some 1⟩, f₅⟩ ⟨r₄, f₆⟩ :=
    hr₄ ▸ .retries (Function.update_self b .stale f₄)
  obtain ⟨r₅, hr₅⟩ : ∃ r, (r₄.takeTransient b path).1 = r := ⟨_, rfl⟩
  have hcase : (r₄.takeTransient b path).2 = none ∧ (r₅.get b).held = some 2 ∧
      r₅.tree.mayAlter [] = true := by
    rw [← hr₅, ← hr₄, ← hr₃, ← hr₂, ← hr₁]
    decide +kernel
  have hfind : r₅.tree.find false path = .ok ([path], .file 2 0o600 []) := by
    rw [← hr₅, ← hr₄, ← hr₃, ← hr₂, ← hr₁]
    cbv
  obtain ⟨hok, htwo, halter⟩ := hcase
  have hagain : Steps path ⟨r₄, f₆⟩ ⟨r₅, Function.update f₆ b .inside⟩ := by
    rw [← hr₅] at htwo ⊢
    exact steps_takeTransient (Function.update_self b .away f₅) hok (by simp [htwo])
  have hsteps := (((((hfirst.tail ⟨b, hopens⟩).trans hleaves).tail ⟨b, hacquires⟩).tail
    ⟨b, hmisses⟩).tail ⟨b, hretries⟩).trans hagain
  have hinside := Function.update_self b Phase.inside f₆
  have hquiet : start.Quiet := ⟨fun _ => rfl, fun _ => rfl⟩
  have hremoves : Step path b _ _ := .removes (r := r₅) hinside
  obtain ⟨-, file, hheld, -, hgoes⟩ := (steps_exclude hquiet hsteps).2 b _ hremoves hinside
  obtain ⟨-, hview⟩ := hgoes _ _ hfind rfl halter
  exact ⟨_, _, _, _, _, hsteps, hinside, hremoves, htwo, hfind, hview⟩

/-- A link at the path leads to a file in the same directory. -/
def linkedLock : LockRoom :=
  ⟨⟨.directory 0o755 [(utf8 "m", .file 1 0o600 []), (utf8 "l", .link (utf8 "m"))],
    utf8 "/", 2, false⟩, []⟩

/-- The file of the lock is in a directory that the process may not write. -/
def guardedLock : LockRoom :=
  ⟨⟨.directory 0o555 [(utf8 "l", .file 1 0o600 [])], utf8 "/", 2, false⟩, []⟩

/-- A party that comes inside by a path and removes the path on its way out leaves the file whose lock
it holds at another path. -/
def LeavesHeld (start : LockRoom) (p path other : Bytes) : Prop :=
  ∃ s s' file, Steps path ⟨start, fun _ => .away⟩ s ∧ s.phase p = .inside ∧ Step path p s s' ∧
    (s.room.get p).held = some file ∧ s'.room.tree.identity? other = some file

theorem leavesHeld_of_takeTransient {start : LockRoom} {p path other : Bytes} {file : Nat}
    (hok : (start.takeTransient p path).2 = none)
    (hheld : ((start.takeTransient p path).1.get p).held = some file)
    (hstays : ((start.takeTransient p path).1.tree.discard path).identity? other = some file) :
    LeavesHeld start p path other := by
  have hinside := Function.update_self p Phase.inside fun _ => Phase.away
  exact ⟨_, _, file, steps_takeTransient rfl hok (by simp [hheld]), hinside, .removes hinside, hheld,
    hstays⟩

/-- The file whose lock a party holds can stay when the party removes the path: where the path is a
link to the file only the link goes, and nothing goes where the directory may not be written. -/
theorem removes_leaves_held_file :
    LeavesHeld linkedLock (utf8 "a") (utf8 "l") (utf8 "m") ∧
      LeavesHeld guardedLock (utf8 "a") (utf8 "l") (utf8 "l") := by
  have hlinked : ((linkedLock.takeTransient (utf8 "a") (utf8 "l")).1.get (utf8 "a")).held =
      some 1 := by cbv
  have hguarded : ((guardedLock.takeTransient (utf8 "a") (utf8 "l")).1.get (utf8 "a")).held =
      some 1 := by cbv
  exact ⟨leavesHeld_of_takeTransient (by cbv) hlinked (by cbv),
    leavesHeld_of_takeTransient (by cbv) hguarded (by cbv)⟩

end LockRoom

end Linewise
