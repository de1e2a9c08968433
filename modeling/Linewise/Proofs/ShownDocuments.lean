import Linewise.Proofs.LexedDocuments
import Linewise.Yaml.Node

/-!
# Nodes of documents

The tokens of a document are read as a node that shows the document: the same scalars, sequences and
mappings, with the tags that go with the styles of the scalars. The main result is
`Document.ofText_render`, for the text of a mapping.
-/

namespace Linewise.Yaml

namespace NodeReader

/-- The reader with other tokens ahead. -/
def on (r : NodeReader) (tokens : List Token) : NodeReader := { r with tokens := tokens }

variable {r : NodeReader} {fuel line : Nat} {rest : List Token} {indentless : Bool}

theorem node_scalar {text : Bytes} {style : Style} (block : Bool) :
    node (fuel + 1) block indentless (r.on (⟨.scalar text style, line⟩ :: rest)) =
      .ok (.scalar line (scalarTag none text style) text, r.on rest) :=
  rfl

theorem node_emptySequence {line' : Nat} (block : Bool) :
    node (fuel + 2) block indentless
        (r.on (⟨.flowSequenceStart, line⟩ :: ⟨.flowSequenceEnd, line'⟩ :: rest)) =
      .ok (.sequence line .seq [], r.on rest) :=
  rfl

theorem node_emptyMapping {line' : Nat} (block : Bool) :
    node (fuel + 2) block indentless
        (r.on (⟨.flowMappingStart, line⟩ :: ⟨.flowMappingEnd, line'⟩ :: rest)) =
      .ok (.mapping line .map [], r.on rest) :=
  rfl

theorem node_sequence {items : List Node} {r' : NodeReader}
    (h : blockItems fuel (r.on rest) = .ok (items, r')) :
    node (fuel + 1) true indentless (r.on (⟨.blockSequenceStart, line⟩ :: rest)) =
      .ok (.sequence line .seq items, r') := by
  have hnode : node (fuel + 1) true indentless (r.on (⟨.blockSequenceStart, line⟩ :: rest)) =
      (blockItems fuel (r.on rest)).map fun p => (.sequence line .seq p.1, p.2) := rfl
  rw [hnode, h]
  rfl

theorem node_mapping {pairs : List (Node × Node)} {r' : NodeReader}
    (h : blockPairs fuel (r.on rest) = .ok (pairs, r')) :
    node (fuel + 1) true indentless (r.on (⟨.blockMappingStart, line⟩ :: rest)) =
      .ok (.mapping line .map pairs, r') := by
  have hnode : node (fuel + 1) true indentless (r.on (⟨.blockMappingStart, line⟩ :: rest)) =
      (blockPairs fuel (r.on rest)).map fun p => (.mapping line .map p.1, p.2) := rfl
  rw [hnode, h]
  rfl

theorem blockItems_end : blockItems (fuel + 1) (r.on (⟨.blockEnd, line⟩ :: rest)) =
    .ok ([], r.on rest) :=
  rfl

/-- An item that is not left out. -/
theorem blockItems_entry {t : Token} {n : Node} {ns : List Node} {r₁ r₂ : NodeReader}
    (ht : t.kind ≠ .blockEntry ∧ endsPair t.kind = false)
    (hn : node fuel true false (r.on (t :: rest)) = .ok (n, r₁))
    (hrest : blockItems fuel r₁ = .ok (ns, r₂)) :
    blockItems (fuel + 1) (r.on (⟨.blockEntry, line⟩ :: t :: rest)) = .ok (n :: ns, r₂) := by
  have hahead : (t.kind == .blockEntry || t.kind == .blockEnd) = false := by
    obtain ⟨h₁, h₂⟩ := ht
    simp only [endsPair, Bool.or_eq_false_iff] at h₂
    simp [h₁, h₂.2]
  rw [on] at hn
  rw [blockItems]
  simp only [peek, on, bind, Except.bind, next, List.drop_succ_cons, List.drop_zero, hahead,
    Bool.false_eq_true, if_false, hn, hrest]

theorem blockPairs_end : blockPairs (fuel + 1) (r.on (⟨.blockEnd, line⟩ :: rest)) =
    .ok ([], r.on rest) :=
  rfl

theorem blockValue_value {t : Token} {n : Node} {r₁ : NodeReader} (ht : endsPair t.kind = false)
    (hn : node fuel true true (r.on (t :: rest)) = .ok (n, r₁)) :
    blockValue (fuel + 1) (r.on (⟨.value, line⟩ :: t :: rest)) = .ok (n, r₁) := by
  rw [on] at hn
  rw [blockValue]
  simp only [peek, on, bind, Except.bind, next, List.drop_succ_cons, List.drop_zero, ht,
    Bool.false_eq_true, if_false, hn]

/-- A pair with a scalar for its key and a value that is not left out. -/
theorem blockPairs_pair {text : Bytes} {style : Style} {line' : Nat} {n : Node}
    {ps : List (Node × Node)} {r₁ r₂ : NodeReader}
    (hn : blockValue (fuel + 1) (r.on rest) = .ok (n, r₁))
    (hrest : blockPairs (fuel + 1) r₁ = .ok (ps, r₂)) :
    blockPairs (fuel + 2) (r.on (⟨.key, line⟩ :: ⟨.scalar text style, line'⟩ :: rest)) =
      .ok ((.scalar line' (scalarTag none text style) text, n) :: ps, r₂) := by
  have hahead : endsPair (.scalar text style) = false := rfl
  have hkey : node (fuel + 1) true true (r.on (⟨.scalar text style, line'⟩ :: rest)) =
      .ok (.scalar line' (scalarTag none text style) text, r.on rest) := node_scalar true
  rw [on] at hkey
  rw [blockPairs]
  simp only [peek, on, bind, Except.bind, next, List.drop_succ_cons, List.drop_zero, hahead,
    Bool.false_eq_true, if_false, hkey]
  rw [on] at hn
  simp only [hn, hrest]

end NodeReader

namespace Document

open NodeReader

mutual

/-- A node holds what a document says, whatever lines it was read from. -/
def Shown : Document → Node → Prop
  | .scalar s, n => ∃ line, n = .scalar line (scalarTag none s.text (s.written false)) s.text
  | .sequence items, n => ∃ line ns, n = .sequence line .seq ns ∧ ItemsShown items ns
  | .mapping pairs, n => ∃ line ps, n = .mapping line .map ps ∧ PairsShown pairs ps

def ItemsShown : List Document → List Node → Prop
  | [], ns => ns = []
  | d :: ds, ns => ∃ n rest, ns = n :: rest ∧ Shown d n ∧ ItemsShown ds rest

def PairsShown : List (Scalar × Document) → List (Node × Node) → Prop
  | [], ps => ps = []
  | (k, d) :: kvs, ps => ∃ line n rest,
    ps = (.scalar line (scalarTag none k.text k.keyStyle) k.text, n) :: rest ∧ Shown d n ∧
      PairsShown kvs rest

end

theorem kinds_cons (d : Document) :
    ∃ k more, d.kinds = k :: more ∧ k ≠ .blockEntry ∧ endsPair k = false ∧
      endsContent k = false := by
  match d with
  | .scalar s => exact ⟨_, _, by rw [kinds], by simp, rfl, rfl⟩
  | .sequence [] => exact ⟨_, _, by rw [kinds], by simp, rfl, rfl⟩
  | .mapping [] => exact ⟨_, _, by rw [kinds], by simp, rfl, rfl⟩
  | .sequence (d :: ds) => exact ⟨_, _, by rw [kinds], by simp, rfl, rfl⟩
  | .mapping (kv :: kvs) => exact ⟨_, _, by rw [kinds], by simp, rfl, rfl⟩

/-- The first token of a list of tokens whose kinds are known. -/
theorem exists_token {ts : List Token} {k : Token.Kind} {ks : List Token.Kind}
    (h : ts.map Token.kind = k :: ks) :
    ∃ line more, ts = ⟨k, line⟩ :: more ∧ more.map Token.kind = ks := by
  obtain ⟨t, more, rfl, rfl, hmore⟩ := List.map_eq_cons_iff.mp h
  exact ⟨t.line, more, rfl, hmore⟩

mutual

/-- The tokens of a document are read as a node that shows it. -/
theorem node_reads {d : Document} {fuel : Nat} {ts : List Token}
    (hts : ts.map Token.kind = d.kinds) (hf : ts.length < fuel) (r : NodeReader)
    (rest : List Token) (indentless : Bool) :
    ∃ n, d.Shown n ∧ node fuel true indentless (r.on (ts ++ rest)) = .ok (n, r.on rest) := by
  obtain ⟨fuel, rfl⟩ : ∃ f, fuel = f + 1 := ⟨fuel - 1, by omega⟩
  match d with
  | .scalar s =>
    rw [kinds] at hts
    obtain ⟨line, ts, rfl, hend⟩ := exists_token hts
    obtain rfl := List.map_eq_nil_iff.mp hend
    exact ⟨_, by rw [Shown]; exact ⟨line, rfl⟩, node_scalar true⟩
  | .sequence [] =>
    rw [kinds] at hts
    obtain ⟨line, ts, rfl, hclose⟩ := exists_token hts
    obtain ⟨line', ts, rfl, hend⟩ := exists_token hclose
    obtain rfl := List.map_eq_nil_iff.mp hend
    obtain ⟨fuel, rfl⟩ : ∃ f, fuel = f + 1 := ⟨fuel - 1, by simp at hf; omega⟩
    exact ⟨_, by rw [Shown]; exact ⟨line, [], rfl, by rw [ItemsShown]⟩, node_emptySequence true⟩
  | .mapping [] =>
    rw [kinds] at hts
    obtain ⟨line, ts, rfl, hclose⟩ := exists_token hts
    obtain ⟨line', ts, rfl, hend⟩ := exists_token hclose
    obtain rfl := List.map_eq_nil_iff.mp hend
    obtain ⟨fuel, rfl⟩ : ∃ f, fuel = f + 1 := ⟨fuel - 1, by simp at hf; omega⟩
    exact ⟨_, by rw [Shown]; exact ⟨line, [], rfl, by rw [PairsShown]⟩, node_emptyMapping true⟩
  | .sequence (d :: ds) =>
    rw [kinds] at hts
    obtain ⟨line, ts, rfl, hbody⟩ := exists_token hts
    obtain ⟨us, vs, rfl, hus, hvs⟩ := List.map_eq_append_iff.mp hbody
    obtain ⟨line', vs, rfl, hend⟩ := exists_token hvs
    obtain rfl := List.map_eq_nil_iff.mp hend
    have hlen : us.length < fuel := by simp at hf; omega
    obtain ⟨ns, hns, hread⟩ := items_read hus hlen r line' rest
    refine ⟨_, by rw [Shown]; exact ⟨line, ns, rfl, hns⟩, ?_⟩
    simpa using node_sequence hread
  | .mapping (kv :: kvs) =>
    rw [kinds] at hts
    obtain ⟨line, ts, rfl, hbody⟩ := exists_token hts
    obtain ⟨us, vs, rfl, hus, hvs⟩ := List.map_eq_append_iff.mp hbody
    obtain ⟨line', vs, rfl, hend⟩ := exists_token hvs
    obtain rfl := List.map_eq_nil_iff.mp hend
    have hlen : us.length < fuel := by simp at hf; omega
    obtain ⟨ps, hps, hread⟩ := pairs_read hus hlen r line' rest
    refine ⟨_, by rw [Shown]; exact ⟨line, ps, rfl, hps⟩, ?_⟩
    simpa using node_mapping hread

theorem items_read {ds : List Document} {fuel : Nat} {ts : List Token}
    (hts : ts.map Token.kind = itemKinds ds) (hf : ts.length < fuel) (r : NodeReader) (line : Nat)
    (rest : List Token) :
    ∃ ns, ItemsShown ds ns ∧
      blockItems fuel (r.on (ts ++ ⟨.blockEnd, line⟩ :: rest)) = .ok (ns, r.on rest) := by
  obtain ⟨fuel, rfl⟩ : ∃ f, fuel = f + 1 := ⟨fuel - 1, by omega⟩
  match ds with
  | [] =>
    rw [itemKinds] at hts
    obtain rfl := List.map_eq_nil_iff.mp hts
    exact ⟨[], by rw [ItemsShown], blockItems_end⟩
  | d :: ds =>
    rw [itemKinds] at hts
    obtain ⟨line', ts, rfl, hbody⟩ := exists_token hts
    obtain ⟨us, vs, rfl, hus, hvs⟩ := List.map_eq_append_iff.mp hbody
    have hlen : us.length < fuel ∧ vs.length < fuel := by simp at hf; omega
    obtain ⟨n, hn, hnode⟩ := node_reads hus hlen.1 r (vs ++ ⟨.blockEnd, line⟩ :: rest) false
    obtain ⟨ns, hns, hread⟩ := items_read hvs hlen.2 r line rest
    obtain ⟨k, more, hk, hne, hend, -⟩ := d.kinds_cons
    rw [hk] at hus
    obtain ⟨line₁, us, rfl, -⟩ := exists_token hus
    refine ⟨n :: ns, by rw [ItemsShown]; exact ⟨n, ns, rfl, hn, hns⟩, ?_⟩
    simpa using blockItems_entry ⟨hne, hend⟩ hnode hread

theorem pairs_read {kvs : List (Scalar × Document)} {fuel : Nat} {ts : List Token}
    (hts : ts.map Token.kind = pairKinds kvs) (hf : ts.length < fuel) (r : NodeReader) (line : Nat)
    (rest : List Token) :
    ∃ ps, PairsShown kvs ps ∧
      blockPairs fuel (r.on (ts ++ ⟨.blockEnd, line⟩ :: rest)) = .ok (ps, r.on rest) := by
  obtain ⟨fuel, rfl⟩ : ∃ f, fuel = f + 1 := ⟨fuel - 1, by omega⟩
  match kvs with
  | [] =>
    rw [pairKinds] at hts
    obtain rfl := List.map_eq_nil_iff.mp hts
    exact ⟨[], by rw [PairsShown], blockPairs_end⟩
  | (k, d) :: kvs =>
    rw [pairKinds] at hts
    obtain ⟨line₁, ts, rfl, hkey⟩ := exists_token hts
    obtain ⟨line₂, ts, rfl, hvalue⟩ := exists_token hkey
    obtain ⟨line₃, ts, rfl, hbody⟩ := exists_token hvalue
    obtain ⟨us, vs, rfl, hus, hvs⟩ := List.map_eq_append_iff.mp hbody
    obtain ⟨fuel, rfl⟩ : ∃ f, fuel = f + 1 := ⟨fuel - 1, by simp at hf; omega⟩
    have hlen : us.length < fuel ∧ vs.length < fuel + 1 := by simp at hf; omega
    obtain ⟨n, hn, hnode⟩ := node_reads hus hlen.1 r (vs ++ ⟨.blockEnd, line⟩ :: rest) true
    obtain ⟨ps, hps, hread⟩ := pairs_read hvs hlen.2 r line rest
    obtain ⟨k', more, hk, -, hend, -⟩ := d.kinds_cons
    rw [hk] at hus
    obtain ⟨line₄, us, rfl, -⟩ := exists_token hus
    refine ⟨_, by rw [PairsShown]; exact ⟨line₂, n, ps, rfl, hn, hps⟩, ?_⟩
    simpa using blockPairs_pair (blockValue_value hend hnode) hread

end

end Document

/-- Characters that were written are read back, unless the first one is a byte order mark. -/
theorem decodeText?_encode {text : List Char} (h : StartsToken text) :
    decodeText? (Utf8.encode text) = some text := by
  have hvalid := Utf8.isValid_encode text
  have hchars := Utf8.chars_encode text
  rw [decodeText?]
  · rw [hvalid, if_pos rfl, hchars]
  · intro rest heq
    rw [heq] at hvalid
    have hlead : Utf8.lead? 0xFF (0xFE :: rest) = none := by
      rcases rest with _ | ⟨b, _ | ⟨c, rest⟩⟩ <;> rfl
    simp [Utf8.isValid, Utf8.symbols, Utf8.symbolsFrom, hlead, Symbol.isStray] at hvalid
  · intro rest heq
    rw [heq] at hvalid
    have hlead : Utf8.lead? 0xFE (0xFF :: rest) = none := by
      rcases rest with _ | ⟨b, _ | ⟨c, rest⟩⟩ <;> rfl
    simp [Utf8.isValid, Utf8.symbols, Utf8.symbolsFrom, hlead, Symbol.isStray] at hvalid
  · intro rest heq
    rw [heq] at hchars
    have hlead : Utf8.lead? 0xEF (0xBB :: 0xBF :: rest) = some (byteOrderMark, 2) := by
      rcases rest with _ | ⟨b, rest⟩ <;> rfl
    have hhead : (Utf8.chars (0xEF :: 0xBB :: 0xBF :: rest)).head? = some byteOrderMark := by
      simp [Utf8.chars, Utf8.symbols, Utf8.symbolsFrom, hlead, Symbol.toChar]
    rw [hchars] at hhead
    exact absurd rfl (h byteOrderMark hhead).2.2

namespace NodeReader

theorem directives_of_content {r : NodeReader} {t : Token} {rest : List Token} {fuel : Nat}
    (h : endsContent t.kind = false) :
    directives (fuel + 1) false [] (r.on (t :: rest)) = .ok ([], r.on (t :: rest)) := by
  obtain ⟨kind, line⟩ := t
  rw [directives]
  cases kind <;> simp_all [endsContent, peek, on, bind, Except.bind]

theorem document_of_content {r : NodeReader} {t : Token} {rest more : List Token} {n : Node}
    (h : endsContent t.kind = false) (hmore : more ≠ [])
    (hnode : node (r.on (t :: rest)).fuelFor true false
      (on { r with handles := coreHandles } (t :: rest)) =
        .ok (n, on { r with handles := coreHandles } more)) :
    document (r.on (t :: rest)) = .ok (some n) := by
  obtain ⟨s, more, rfl⟩ := List.exists_cons_of_ne_nil hmore
  have hdirectives : directives ((r.on (t :: rest)).tokens.length + 1) false [] (r.on (t :: rest)) =
      .ok ([], r.on (t :: rest)) := directives_of_content h
  have hpeek : (r.on (t :: rest)).peek = .ok t := rfl
  have hexplicit : (t.kind != .documentEnd && endsContent t.kind) = false := by
    rw [h, Bool.and_false]
  rw [document, hpeek]
  simp only [bind, Except.bind]
  split
  next hk =>
    rw [hk] at h
    exact absurd h (by decide)
  next =>
    simp only [hdirectives, hexplicit, Bool.false_eq_true, if_false]
    simp only [on, fuelFor, List.nil_append] at hnode ⊢
    rw [hnode]
    rfl

/-- A text with the tokens of a document and nothing else. -/
theorem document_reads {d : Document} {tokens : List Token}
    (h : tokens.map Token.kind = d.kinds ++ [.streamEnd]) (problem : Problem) :
    ∃ n, d.Shown n ∧ document { tokens := tokens, problem := problem } = .ok (some n) := by
  obtain ⟨ts, vs, rfl, hts, hvs⟩ := List.map_eq_append_iff.mp h
  obtain ⟨line', vs, rfl, hend⟩ := Document.exists_token hvs
  obtain rfl := List.map_eq_nil_iff.mp hend
  have hlen : ts.length < 4 * (ts ++ [(⟨.streamEnd, line'⟩ : Token)]).length + 8 := by
    rw [List.length_append]
    omega
  obtain ⟨n, hn, hnode⟩ := Document.node_reads hts hlen
    { tokens := [], problem := problem, handles := coreHandles } [⟨.streamEnd, line'⟩] false
  obtain ⟨k, more, hk, -, -, hcontent⟩ := d.kinds_cons
  rw [hk] at hts
  obtain ⟨line, ts, rfl, -⟩ := Document.exists_token hts
  exact ⟨n, hn, document_of_content (r := { tokens := [], problem := problem }) hcontent
    (by simp) hnode⟩

end NodeReader

/-- The text of a mapping is read as a node that shows the mapping. -/
theorem Document.ofText_render {kv : Scalar × Document} {kvs : List (Scalar × Document)}
    (h : PairsLegible 0 (kv :: kvs)) (hd : (Document.mapping (kv :: kvs)).depth ≤ Lexer.maxDepth) :
    ∃ n, (Document.mapping (kv :: kvs)).Shown n ∧
      Node.ofText (Document.mapping (kv :: kvs)).render = .ok (some n) ∧
      (Document.mapping (kv :: kvs)).depth ≤ (Document.mapping (kv :: kvs)).render.length := by
  obtain ⟨text, tokens, htext, hstart, hallowed, hdepth, htokens, hkinds⟩ := tokens_render h hd
  obtain ⟨n, hn, hread⟩ := NodeReader.document_reads hkinds .nodeExpected
  refine ⟨n, hn, ?_, ?_⟩
  · have hsource : Source.ofText (Utf8.encode text) = .ok { rest := text } := by
      simp only [Source.ofText, decodeText?_encode hstart]
      rw [if_pos (List.all_eq_true.mpr hallowed)]
    rw [Node.ofText, htext, hsource]
    simp only [bind, Except.bind, htokens]
    exact hread
  · rw [htext]
    exact hdepth.trans (length_encode_ge text)

end Linewise.Yaml
