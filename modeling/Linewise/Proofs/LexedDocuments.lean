import Linewise.Proofs.LexedKeys

/-!
# Documents among tokens

The text of a document is read as the tokens of the document: the entries of a block collection one
by one, and the collections in them by induction on the document. The main result is
`Document.tokens_render`, for whole texts.
-/

namespace Linewise.Yaml

open ScalarText

/-! ## Entries -/

/-- What `write` writes for an entry of a block collection at column `c` is read as tokens of the
given kinds, when collections may nest `depth` deeper. -/
def Entry (c : Nat) (start : Token.Kind) (write : Pen → Pen) (kinds : List Token.Kind)
    (depth : Nat) : Prop :=
  ∀ p : Pen, p.column = c → p.atIndent = true → p.spaced = true →
    ∃ first body, StartsToken [first] ∧ p.Sets (first :: body) (write p) ∧
      depth < (first :: body).length ∧
      ∀ (l : Lexer) (n : Nat) (rest : List Char) (indents : List Int) (ks : List Token.Kind),
        l.Comes c (first :: body ++ upTo (write p).atIndent n rest) start indents ks → n ≤ c →
        indents.length + depth ≤ Lexer.maxDepth → StartsToken rest →
        ∃ m, Lexer.Reaches l m ∧ m.Ready n rest c indents (kinds.reverse ++ ks)

/-- Entries one below the other. -/
theorem Entry.block {α : Type} {c : Nat} {start : Token.Kind} {write : α → Pen → Pen}
    {kinds : α → List Token.Kind} {depth : α → Nat} {x : α} {xs : List α}
    (h : ∀ y ∈ x :: xs, Entry c start (write y) (kinds y) (depth y)) (p : Pen) :
    ∃ first body, StartsToken [first] ∧
      p.Sets (p.lead c ++ first :: body) ((x :: xs).foldl (fun p y => write y (p.indentTo c)) p) ∧
      (∀ y ∈ x :: xs, depth y < (first :: body).length) ∧
      ∀ (l : Lexer) (n : Nat) (rest : List Char) (indents : List Int) (ks : List Token.Kind),
        l.Comes c (first :: body ++
          upTo ((x :: xs).foldl (fun p y => write y (p.indentTo c)) p).atIndent n rest) start
          indents ks → n ≤ c → (∀ y ∈ x :: xs, indents.length + depth y ≤ Lexer.maxDepth) →
        StartsToken rest →
        ∃ m, Lexer.Reaches l m ∧
          m.Ready n rest c indents (((x :: xs).flatMap kinds).reverse ++ ks) := by
  induction xs generalizing x p with
  | nil =>
    obtain ⟨hcol, hat, hsp⟩ := p.indentTo_place c
    obtain ⟨first, body, hfirst, hsets, hdepth, hread⟩ := h x (by simp) _ hcol hat hsp
    refine ⟨first, body, hfirst, ⟨(p.writes_indentTo c).trans hsets.writes, ?_, hsets.rests⟩,
      by simpa using hdepth, fun l n rest indents ks hl hn hd hr => ?_⟩
    · exact List.forall_mem_append.mpr ⟨p.isAllowed_lead c, hsets.allowed⟩
    · simpa using hread l n rest indents ks hl hn (hd x (by simp)) hr
  | cons y ys ih =>
    obtain ⟨hcol, hat, hsp⟩ := p.indentTo_place c
    obtain ⟨first, body, hfirst, hsets, hdepth, hread⟩ := h x (by simp) _ hcol hat hsp
    obtain ⟨first', body', hfirst', hsets', hdepth', hread'⟩ :=
      ih (x := y) (fun z hz => h z (List.mem_cons_of_mem x hz)) (write x (p.indentTo c))
    rw [List.foldl_cons]
    generalize write x (p.indentTo c) = q at *
    generalize (y :: ys).foldl (fun p y => write y (p.indentTo c)) q = q' at *
    refine ⟨first, body ++ (q.lead c ++ first' :: body'), hfirst, ⟨?_, ?_, hsets'.rests⟩, ?_, ?_⟩
    · simpa using (p.writes_indentTo c).trans (hsets.writes.trans hsets'.writes)
    · rw [← List.cons_append, List.forall_mem_append, List.forall_mem_append]
      exact ⟨p.isAllowed_lead c, hsets.allowed, hsets'.allowed⟩
    · intro z hz
      simp only [List.length_cons, List.length_append] at hdepth hdepth' ⊢
      rcases List.mem_cons.mp hz with rfl | hz
      · omega
      · have := hdepth' z hz
        omega
    · intro l n rest indents ks hl hn hd hr
      have htext : first :: (body ++ (q.lead c ++ first' :: body')) ++ upTo q'.atIndent n rest =
          first :: body ++ upTo q.atIndent c (first' :: body' ++ upTo q'.atIndent n rest) := by
        rw [← hsets.rests.lead_append]
        simp
      rw [htext] at hl
      obtain ⟨m, hreach, hready⟩ := hread l c _ indents ks hl le_rfl (hd x (by simp))
        (startsToken_cons (hfirst' first' rfl))
      obtain ⟨m', hreach', hready'⟩ := hread' m n rest indents _ (.goesOn hready.stands) hn
        (fun z hz => hd z (List.mem_cons_of_mem x hz)) hr
      refine ⟨m', hreach.trans hreach', ?_⟩
      simpa using hready'

namespace Document

mutual

/-- The kinds of the tokens of a document. -/
def kinds : Document → List Token.Kind
  | .scalar s => [.scalar s.text (s.written false)]
  | .sequence [] => [.flowSequenceStart, .flowSequenceEnd]
  | .mapping [] => [.flowMappingStart, .flowMappingEnd]
  | .sequence (d :: rest) => .blockSequenceStart :: (itemKinds (d :: rest) ++ [.blockEnd])
  | .mapping (kv :: rest) => .blockMappingStart :: (pairKinds (kv :: rest) ++ [.blockEnd])

def itemKinds : List Document → List Token.Kind
  | [] => []
  | d :: rest => .blockEntry :: (kinds d ++ itemKinds rest)

def pairKinds : List (Scalar × Document) → List Token.Kind
  | [] => []
  | (k, d) :: rest => .key :: .scalar k.text k.keyStyle :: .value :: (kinds d ++ pairKinds rest)

end

mutual

/-- How many collections with something in them a document nests. -/
def depth : Document → Nat
  | .scalar _ => 0
  | .sequence [] => 0
  | .mapping [] => 0
  | .sequence (d :: rest) => itemsDepth (d :: rest) + 1
  | .mapping (kv :: rest) => pairsDepth (kv :: rest) + 1

def itemsDepth : List Document → Nat
  | [] => 0
  | d :: rest => max (depth d) (itemsDepth rest)

def pairsDepth : List (Scalar × Document) → Nat
  | [] => 0
  | (_, d) :: rest => max (depth d) (pairsDepth rest)

end

mutual

/-- The documents that are read back as they were written, below a collection at column `c`. -/
def Legible (inItem : Bool) (c : Nat) : Document → Prop
  | .scalar s => s.Legible (!inItem && c % 4 == 0)
  | .sequence items => ItemsLegible (Pen.deeper inItem c) items
  | .mapping pairs => PairsLegible (Pen.deeper inItem c) pairs

def ItemsLegible (c : Nat) : List Document → Prop
  | [] => True
  | d :: rest => Legible true c d ∧ ItemsLegible c rest

def PairsLegible (c : Nat) : List (Scalar × Document) → Prop
  | [] => True
  | (k, d) :: rest => k.Legible (c % 4 == 0) ∧ Legible false c d ∧ PairsLegible c rest

end

/-- A document behind a mark of the collection at column `c` is read as its tokens. -/
def Readable (inItem : Bool) (c : Nat) (d : Document) : Prop :=
  ∀ p : Pen, p.spaced = false →
    ∃ w, p.Sets w (Pen.document inItem c d p) ∧ Lexer.SetApart w ∧ d.depth ≤ w.length ∧
      ∀ (l : Lexer) (n : Nat) (rest : List Char), l.Awaits → l.indent = c → n ≤ c →
        l.keyAllowed = p.atIndent → (p.atIndent = true → l.source.column = p.column) →
        l.indents.length + d.depth ≤ Lexer.maxDepth → StartsToken rest →
        l.source.rest = w ++ upTo (Pen.document inItem c d p).atIndent n rest →
        l.Takes n rest d.kinds

/-- An entry is a mark or a key and a document behind it. -/
theorem Readable.entry {inItem : Bool} {c : Nat} {d : Document} (h : d.Readable inItem c)
    {start : Token.Kind} {put : Pen → Pen} {ks : List Token.Kind}
    (hput : ∀ p : Pen, p.column = c → p.atIndent = true → p.spaced = true →
      (put p).spaced = false ∧ ∃ first body, StartsToken [first] ∧
        (∀ e ∈ first :: body, isAllowed e = true) ∧ p.Writes (first :: body) (put p) ∧
        Pen.Leads c start (first :: body) (put p) ks) :
    Entry c start (fun p => Pen.document inItem c d (put p)) (ks ++ d.kinds) d.depth := by
  intro p hcol hat hsp
  obtain ⟨hspaced, first, body, hfirst, hallowed, hwrites, hleads⟩ := hput p hcol hat hsp
  obtain ⟨w, hsets, hapart, hdepth, hread⟩ := h (put p) hspaced
  refine ⟨first, body ++ w, hfirst, ⟨hwrites.trans hsets.writes, ?_, hsets.rests⟩, ?_, ?_⟩
  · rw [← List.cons_append, List.forall_mem_append]
    exact ⟨hallowed, hsets.allowed⟩
  · simp
    omega
  · intro l n rest indents ks₀ hl hn hd hr
    obtain ⟨m, hreach, hin, hkey, hcolumn, hrest⟩ := hleads l _ indents ks₀
      (by simpa using hl) (hapart.append _)
    obtain ⟨m', hreach', hready⟩ := hread m n rest hin.awaits hin.indent hn hkey hcolumn
      (by rw [hin.indents]; exact hd) hr hrest
    rw [hin.indent, hin.indents, hin.kinds] at hready
    exact ⟨m', hreach.trans hreach', by simpa using hready⟩

/-- Coming to the first entry of a collection behind a mark. -/
theorem stands_lead {l : Lexer} (h : l.Awaits) {c : Nat} (hc : l.indent < c) {p : Pen}
    (hp : p.spaced = false) (hkey : l.keyAllowed = p.atIndent)
    (hcol : p.atIndent = true → l.source.column = p.column) {rest : List Char}
    (hr : StartsToken rest) (hs : l.source.rest = p.lead c ++ rest) :
    l.Stands c rest l.indent l.indents l.kinds := by
  rw [Pen.lead] at hs
  split at hs
  next =>
    have hs' : l.source.rest = '\n' :: (List.replicate c ' ' ++ rest) := hs
    have hheads := Lexer.heads_line h.outer hr hs'
    rw [Lexer.Stands, hheads, Lexer.closeBlocks_of_le (by simp; omega)]
    exact ⟨by simp, by simp [hs'], rfl, rfl, rfl, h.outer, rfl, by simp [h.key]⟩
  next hline =>
    simp only [hp, Bool.not_false, Bool.and_true, Bool.or_eq_true, Bool.not_eq_true',
      decide_eq_true_eq, beq_iff_eq, not_or, Bool.not_eq_false] at hline
    obtain ⟨⟨hat, hle⟩, hne⟩ := hline
    have hcol := hcol hat
    have hheads := Lexer.heads_spaces hr hs (hkey.trans hat)
    rw [Lexer.Stands, hheads, Lexer.closeBlocks_of_le (by simp; omega)]
    exact ⟨by simp; omega, Source.rest_skipMany_append hs (by simp), rfl, rfl, rfl, h.outer, rfl,
      by simp [h.key]⟩

theorem setApart_lead {p : Pen} (hp : p.spaced = false) (c : Nat) {first : Char}
    (h : StartsToken [first]) (body : List Char) : Lexer.SetApart (p.lead c ++ first :: body) := by
  obtain ⟨hsp, hhash, -⟩ := h first rfl
  rw [Pen.lead]
  split
  next => exact ⟨0, '\n', _, rfl, .inl rfl, rfl, by decide⟩
  next hline =>
    simp only [hp, Bool.not_false, Bool.and_true, Bool.or_eq_true, Bool.not_eq_true',
      decide_eq_true_eq, beq_iff_eq, not_or, Bool.not_eq_false] at hline
    exact ⟨_, first, body, rfl, .inr (by omega), (isSpacing_eq_false.mp hsp).1, hhash⟩

/-- A collection is read from its entries. -/
theorem readable_of_entries {inItem : Bool} {c : Nat} {d : Document} {α : Type} {start : Token.Kind}
    {write : α → Pen → Pen} {kinds : α → List Token.Kind} {depth : α → Nat} {x : α} {xs : List α}
    (h : ∀ y ∈ x :: xs, Entry (Pen.deeper inItem c) start (write y) (kinds y) (depth y))
    (hwrite : ∀ p, Pen.document inItem c d p =
      (x :: xs).foldl (fun p y => write y (p.indentTo (Pen.deeper inItem c))) p)
    (hkinds : d.kinds = start :: ((x :: xs).flatMap kinds ++ [.blockEnd]))
    (hdepth : ∀ y ∈ x :: xs, depth y < d.depth) (hmax : ∃ y ∈ x :: xs, d.depth = depth y + 1) :
    d.Readable inItem c := by
  intro p hp
  have hlt := Pen.lt_deeper inItem c
  obtain ⟨first, body, hfirst, hsets, hlen, hread⟩ := Entry.block h p
  obtain ⟨y, hy, hmax⟩ := hmax
  rw [hwrite]
  generalize (x :: xs).foldl (fun p y => write y (p.indentTo (Pen.deeper inItem c))) p = q at *
  refine ⟨_, hsets, setApart_lead hp _ hfirst body, ?_, ?_⟩
  · have := hlen y hy
    rw [List.length_append]
    omega
  · intro l n rest hl hi hn hkey hcol hd hr hs
    have hs' : l.source.rest = p.lead (Pen.deeper inItem c) ++
        (first :: body ++ upTo q.atIndent n rest) := by
      rw [hs, List.append_assoc]
    have hstands := stands_lead hl (by omega) hp hkey hcol (startsToken_cons (hfirst first rfl)) hs'
    obtain ⟨m, hreach, hready⟩ := hread l n rest _ _ (.opens hstands (by omega) (by omega))
      (by omega) (fun y hy => by have := hdepth y hy; simp; omega) hr
    refine ⟨m, hreach, ?_⟩
    have hclosed := hready.close (by omega)
    rw [hkinds]
    simpa using hclosed

theorem items_eq (c : Nat) (ds : List Document) (p : Pen) :
    Pen.items c ds p = ds.foldl
      (fun p d => Pen.document true c d ((p.indentTo c).indicator "-" true false true)) p := by
  induction ds generalizing p with
  | nil => rw [Pen.items, List.foldl_nil]
  | cons d ds ih => rw [Pen.items, List.foldl_cons, ih]

theorem pairs_eq (c : Nat) (kvs : List (Scalar × Document)) (p : Pen) :
    Pen.pairs c kvs p =
      kvs.foldl (fun p kv => Pen.document false c kv.2 (Pen.pairKey c kv.1 (p.indentTo c))) p := by
  induction kvs generalizing p with
  | nil => rw [Pen.pairs, List.foldl_nil]
  | cons kv kvs ih => rw [Pen.pairs_cons, List.foldl_cons, ih]

theorem itemKinds_eq (ds : List Document) :
    itemKinds ds = ds.flatMap fun d => .blockEntry :: d.kinds := by
  induction ds with
  | nil => rw [itemKinds, List.flatMap_nil]
  | cons d ds ih => rw [itemKinds, List.flatMap_cons, ih, List.cons_append]

theorem pairKinds_eq (kvs : List (Scalar × Document)) :
    pairKinds kvs = kvs.flatMap fun kv =>
      [.key, .scalar kv.1.text kv.1.keyStyle, .value] ++ kv.2.kinds := by
  induction kvs with
  | nil => rw [pairKinds, List.flatMap_nil]
  | cons kv kvs ih =>
    rw [pairKinds, List.flatMap_cons, ih]
    simp

theorem pairsDepth_eq (kvs : List (Scalar × Document)) :
    pairsDepth kvs = itemsDepth (kvs.map Prod.snd) := by
  induction kvs with
  | nil => rw [pairsDepth, List.map_nil, itemsDepth]
  | cons kv kvs ih => rw [pairsDepth, List.map_cons, itemsDepth, ih]

theorem depth_le_itemsDepth {ds : List Document} : ∀ d ∈ ds, d.depth ≤ itemsDepth ds := by
  induction ds with
  | nil => simp
  | cons e ds ih =>
    rw [List.forall_mem_cons, itemsDepth]
    exact ⟨le_max_left _ _, fun d hd => (ih d hd).trans (le_max_right _ _)⟩

theorem exists_itemsDepth (d : Document) (ds : List Document) :
    ∃ e ∈ d :: ds, itemsDepth (d :: ds) = e.depth := by
  induction ds generalizing d with
  | nil => exact ⟨d, by simp, by simp [itemsDepth]⟩
  | cons e ds ih =>
    rw [itemsDepth]
    rcases le_total (itemsDepth (e :: ds)) d.depth with hle | hle
    · exact ⟨d, by simp, max_eq_left hle⟩
    · obtain ⟨f, hf, heq⟩ := ih e
      exact ⟨f, List.mem_cons_of_mem d hf, by rw [max_eq_right hle, heq]⟩

theorem depth_sequence (d : Document) (ds : List Document) :
    (∀ e ∈ d :: ds, e.depth < (Document.sequence (d :: ds)).depth) ∧
      ∃ e ∈ d :: ds, (Document.sequence (d :: ds)).depth = e.depth + 1 := by
  rw [depth]
  obtain ⟨e, he, heq⟩ := exists_itemsDepth d ds
  exact ⟨fun e he => Nat.lt_succ_of_le (depth_le_itemsDepth e he), e, he, by rw [heq]⟩

theorem depth_mapping (kv : Scalar × Document) (kvs : List (Scalar × Document)) :
    (∀ e ∈ kv :: kvs, e.2.depth < (Document.mapping (kv :: kvs)).depth) ∧
      ∃ e ∈ kv :: kvs, (Document.mapping (kv :: kvs)).depth = e.2.depth + 1 := by
  rw [depth, pairsDepth_eq]
  obtain ⟨d, hd, heq⟩ := exists_itemsDepth kv.2 (kvs.map Prod.snd)
  rw [← List.map_cons, List.mem_map] at hd
  obtain ⟨e, he, rfl⟩ := hd
  exact ⟨fun e he => Nat.lt_succ_of_le (depth_le_itemsDepth e.2 (List.mem_map_of_mem he)), e, he,
    by rw [List.map_cons, heq]⟩

theorem readable_scalar {inItem : Bool} {c : Nat} {s : Scalar}
    (h : s.Legible (!inItem && c % 4 == 0)) : (Document.scalar s).Readable inItem c := by
  intro p hp
  have hlt := Pen.lt_deeper inItem c
  obtain ⟨first, body, hfirst, hsets, htaken⟩ := Pen.sets_scalar h p (Nat.zero_lt_of_lt hlt)
  have hapart : p.apart = List.replicate 1 ' ' := by simp [Pen.apart, hp]
  obtain ⟨hsp, hhash, -⟩ := hfirst first rfl
  rw [hapart] at hsets
  refine ⟨_, hsets, ⟨1, first, body, rfl, .inr Nat.one_pos, (isSpacing_eq_false.mp hsp).1, hhash⟩,
    by simp [depth], ?_⟩
  intro l n rest hl hi hn _ _ _ hr hs
  refine htaken l 1 n rest hl (by omega) (by omega) (fun hal => ?_) hr
    (by rw [hs, List.append_assoc]; rfl)
  simp only [Bool.and_eq_true, Bool.not_eq_true', beq_iff_eq] at hal
  rw [hi, hal.1, Pen.deeper_of_aligned hal.2]
  rfl

theorem readable_brackets {inItem : Bool} {c : Nat} {d : Document} (first last : String)
    (a b : Char) {start stop : Token.Kind} (hfirst : first.toList = [a]) (hlast : last.toList = [b])
    (ha : isSpacing a = false ∧ a ≠ '#' ∧ a ≠ byteOrderMark ∧ isAllowed a = true)
    (hb : isSpacing b = false ∧ b ≠ '#' ∧ b ≠ byteOrderMark ∧ isAllowed b = true)
    (hopen : ∀ l : Lexer, l.readToken a = l.openFlow start)
    (hclose : ∀ l : Lexer, l.readToken b = l.closeFlow stop)
    (hwrite : ∀ p, Pen.document inItem c d p =
      (p.indicator first true true false).indicator last false false false)
    (hkinds : d.kinds = [start, stop]) (hdepth : d.depth = 0) : d.Readable inItem c := by
  intro p hp
  have hapart : p.apart = List.replicate 1 ' ' := by simp [Pen.apart, hp]
  have hwrites := (p.writes_indicator first true false).trans
    (Pen.writes_indicator_close _ last false false)
  rw [hfirst, hlast, hapart] at hwrites
  rw [hwrite, hkinds, hdepth]
  refine ⟨_, ⟨hwrites, ?_, by simp [Pen.Rests, Pen.indicator]⟩,
    ⟨1, a, [b], rfl, .inr Nat.one_pos, (isSpacing_eq_false.mp ha.1).1, ha.2.1⟩, Nat.zero_le _, ?_⟩
  · simp only [List.forall_mem_append, List.forall_mem_cons]
    exact ⟨⟨isAllowed_spaces 1, ha.2.2.2, by simp⟩, hb.2.2.2, by simp⟩
  · intro l n rest hl hi hn _ _ _ hr hs
    refine hl.takes_brackets (by omega) hr ⟨ha.1, ha.2.1, ha.2.2.1⟩ ⟨hb.1, hb.2.1, hb.2.2.1⟩ hopen
      hclose (k := 1) ?_
    rw [hs]
    simp [Pen.indicator]

theorem item_entry {c : Nat} {d : Document} (h : d.Readable true c) :
    Entry c .blockSequenceStart
      (fun p => Pen.document true c d (p.indicator "-" true false true)) (.blockEntry :: d.kinds)
      d.depth := by
  have hdash : Entry c .blockSequenceStart
      (fun p => Pen.document true c d (p.indicator "-" true false true)) ([.blockEntry] ++ d.kinds)
      d.depth :=
    h.entry fun p hcol hat hsp => ⟨rfl, '-', [], startsToken_cons (by decide),
      by simp [isAllowed], Pen.leads_dash hcol hat hsp⟩
  exact hdash

theorem pair_entry {c : Nat} {k : Scalar} {d : Document} (hk : k.Legible (c % 4 == 0))
    (h : d.Readable false c) :
    Entry c .blockMappingStart (fun p => Pen.document false c d (Pen.pairKey c k p))
      ([.key, .scalar k.text k.keyStyle, .value] ++ d.kinds) d.depth := by
  refine h.entry fun p _ _ hsp => ?_
  cases hs : Pen.isSimpleKey k with
  | true => exact ⟨by rw [Pen.pairKey, if_pos hs]; rfl, Pen.leads_simpleKey hk hs p hsp⟩
  | false =>
    exact ⟨by rw [Pen.pairKey, if_neg (by simp [hs])]; rfl, Pen.leads_complexKey hk hs p hsp⟩

mutual

theorem readable {inItem : Bool} {c : Nat} :
    ∀ {d : Document}, d.Legible inItem c → d.Readable inItem c
  | .scalar s, h => readable_scalar (by rwa [Legible] at h)
  | .sequence [], _ =>
    readable_brackets "[" "]" '[' ']' rfl rfl (by decide) (by decide) (fun _ => rfl) (fun _ => rfl)
      (fun p => by rw [Pen.document]) (by rw [kinds]) (by rw [depth])
  | .mapping [], _ =>
    readable_brackets "\x7b" "\x7d" '\x7b' '\x7d' rfl rfl (by decide) (by decide) (fun _ => rfl)
      (fun _ => rfl) (fun p => by rw [Pen.document]) (by rw [kinds]) (by rw [depth])
  | .sequence (d :: ds), h => by
    rw [Legible] at h
    have hitems := items_readable h
    refine readable_of_entries (fun e he => item_entry (hitems e he))
      (fun p => by rw [Pen.document, items_eq]) (by rw [kinds, itemKinds_eq])
      (depth_sequence d ds).1 (depth_sequence d ds).2
  | .mapping (kv :: kvs), h => by
    rw [Legible] at h
    have hpairs := pairs_readable h
    refine readable_of_entries (fun e he => pair_entry (hpairs e he).1 (hpairs e he).2)
      (fun p => by rw [Pen.document, pairs_eq]) (by rw [kinds, pairKinds_eq])
      (depth_mapping kv kvs).1 (depth_mapping kv kvs).2

theorem items_readable {c : Nat} :
    ∀ {ds : List Document}, ItemsLegible c ds → ∀ d ∈ ds, d.Readable true c
  | [], _ => by simp
  | d :: ds, h => by
    rw [ItemsLegible] at h
    exact List.forall_mem_cons.mpr ⟨readable h.1, items_readable h.2⟩

theorem pairs_readable {c : Nat} : ∀ {kvs : List (Scalar × Document)}, PairsLegible c kvs →
    ∀ kv ∈ kvs, kv.1.Legible (c % 4 == 0) ∧ kv.2.Readable false c
  | [], _ => by simp
  | (k, d) :: kvs, h => by
    rw [PairsLegible] at h
    exact List.forall_mem_cons.mpr ⟨⟨h.1, readable h.2.1⟩, pairs_readable h.2.2⟩

end

end Document

/-! ## Whole texts -/

/-- Where a collection in the first column is all that is left, the text ends. -/
theorem Lexer.Ready.step_end {l : Lexer} {ks : List Token.Kind} (h : l.Ready 0 [] 0 [-1] ks) :
    ∃ m, l.step = .ok (m, true) ∧ m.kinds = .streamEnd :: .blockEnd :: ks := by
  have hat : l.Stands 0 [] 0 [-1] ks := Ready.stands (by exact_mod_cast h)
  rw [step_eq, stepHere]
  rw [Stands] at hat
  generalize l.arrived.closeBlocks l.arrived.source.column = l₀ at hat ⊢
  have hclose := closeBlocks_innermost hat.outer hat.indents (by rw [hat.indent]; decide) le_rfl
  have hdrop : (l₀.closeBlocks (-1)).dropKey = .ok { l₀.closeBlocks (-1) with key := none } := by
    rw [hclose]
    exact dropKey_of_loose fun k hk => (hat.loose k hk).1
  simp only [Source.peek?, hat.rest, List.head?_nil, closeAll, hdrop, bind, Except.bind]
  refine ⟨_, rfl, ?_⟩
  rw [hclose, ← hat.kinds]
  rfl

/-- The text of a mapping is read as the tokens of the mapping. -/
theorem Document.tokens_render {kv : Scalar × Document} {kvs : List (Scalar × Document)}
    (h : PairsLegible 0 (kv :: kvs)) (hd : (Document.mapping (kv :: kvs)).depth ≤ Lexer.maxDepth) :
    ∃ text tokens, (Document.mapping (kv :: kvs)).render = Utf8.encode text ∧ StartsToken text ∧
      (∀ c ∈ text, isAllowed c = true) ∧ (Document.mapping (kv :: kvs)).depth ≤ text.length ∧
      Token.ofSource { rest := text } = (tokens, none) ∧
      tokens.map Token.kind = (Document.mapping (kv :: kvs)).kinds ++ [.streamEnd] := by
  have hpairs := pairs_readable h
  obtain ⟨first, body, hfirst, hsets, hlen, hread⟩ :=
    Entry.block (fun e he => pair_entry (hpairs e he).1 (hpairs e he).2) {}
  rw [← pairs_eq] at hsets hread
  rw [render, Pen.render]
  generalize Pen.pairs 0 (kv :: kvs) {} = q at *
  generalize htext : first :: (body ++ upTo q.atIndent 0 []) = text
  have hcons : first :: body ++ upTo q.atIndent 0 [] = text := htext
  have hstart : StartsToken text := by
    rw [← htext]
    exact startsToken_cons (hfirst first rfl)
  have hfinish : ({} : Pen).Writes text (Pen.render.finish q) := by
    have hlead : ({} : Pen).lead 0 = [] := rfl
    have hw := hsets.writes
    rw [hlead, List.nil_append] at hw
    rw [← hcons, Pen.render.finish, upTo]
    cases hat : q.atIndent with
    | true => simpa [(hsets.rests hat).1] using hw
    | false => simpa using hw.trans q.writes_newLine
  have hallowed : ∀ c ∈ text, isAllowed c = true := by
    rw [← hcons, List.forall_mem_append]
    refine ⟨(List.forall_mem_append.mp hsets.allowed).2, ?_⟩
    rw [upTo]
    split <;> simp [isAllowed]
  have hstands : ({ source := { rest := text } } : Lexer).Stands 0
      (first :: body ++ upTo q.atIndent 0 []) (-1) [] [] := by
    have harrived : ({ source := { rest := text } } : Lexer).arrived =
        { source := { rest := text } } := by
      rw [Lexer.arrived, Lexer.skipToToken_spaces (k := 0) hstart rfl]
      rfl
    rw [Lexer.Stands, harrived, Lexer.closeBlocks_of_le (Int.negSucc_lt_zero 0).le, hcons]
    exact ⟨rfl, rfl, rfl, rfl, rfl, rfl, rfl, by simp⟩
  obtain ⟨hdepth, e, he, hmax⟩ := depth_mapping kv kvs
  obtain ⟨m, hreach, hready⟩ := hread _ 0 [] _ _ (.opens hstands (by decide) (by decide)) le_rfl
    (fun e he => by have := hdepth e he; simp; omega) (by simp [StartsToken])
  obtain ⟨fuel, hfuel, hrun⟩ := hreach.runFrom (Nat.lt_add_of_pos_right (Nat.two_pos))
  obtain ⟨fuel, rfl⟩ : ∃ f, fuel = f + 1 := ⟨fuel - 1, by omega⟩
  obtain ⟨m', hstep, hks⟩ := hready.step_end
  refine ⟨text, m'.tokens.reverse, ?_, hstart, hallowed, ?_, ?_, ?_⟩
  · rw [Pen.Writes] at hfinish
    simpa [Pen.text] using hfinish
  · have := hlen e he
    rw [hmax, ← hcons, List.length_append]
    omega
  · rw [Token.ofSource, hrun, Lexer.runFrom_succ, hstep]
  · rw [List.map_reverse, ← Lexer.kinds, hks, kinds, pairKinds_eq]
    simp

end Linewise.Yaml
