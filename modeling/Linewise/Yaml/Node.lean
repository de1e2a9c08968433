import Linewise.Yaml.Tag
import Linewise.Yaml.Token.Lexer

/-!
# Nodes

The tree of nodes that a document describes. An alias carries the node that it stands for; an alias
inside the very node that it names has none. Only the first document of a text is read, and what
stands behind it is looked at only as far as its end requires.
-/

namespace Linewise.Yaml

/-- A node with the number of the line that it starts on. -/
inductive Node where
  | scalar (line : Nat) (tag : Tag) (text : Bytes)
  | sequence (line : Nat) (tag : Tag) (items : List Node)
  | mapping (line : Nat) (tag : Tag) (pairs : List (Node × Node))
  | alias (line : Nat) (name : Bytes) (target : Option Node)
  deriving Repr

namespace Node

def line : Node → Nat
  | scalar line _ _ => line
  | sequence line _ _ => line
  | mapping line _ _ => line
  | .alias line _ _ => line

/-- A scalar that is left out. -/
def empty (line : Nat) : Node := .scalar line .null []

end Node

/-- A node that has a name: a serial number, and the node when it is complete. -/
structure Anchor where
  name : Bytes
  serial : Nat
  node : Option Node

/-- The state of reading nodes: the tokens ahead, the problem that ended them, the anchors so far
with the latest first, and the handles of tags. -/
structure NodeReader where
  tokens : List Token
  problem : Problem
  anchors : List Anchor := []
  handles : List (Bytes × Bytes) := []

namespace NodeReader

/-- The next token. -/
def peek (r : NodeReader) : Except Problem Token :=
  match r.tokens with
  | t :: _ => .ok t
  | [] => .error r.problem

/-- The state after the next token. -/
def next (r : NodeReader) : NodeReader := { r with tokens := r.tokens.drop 1 }

/-- The number of the next anchor. -/
def nextSerial (r : NodeReader) : Nat := r.anchors.length

/-- Notes that a node with a name starts. -/
def startAnchor (r : NodeReader) (name : Option Bytes) : NodeReader :=
  match name with
  | some name => { r with anchors := ⟨name, r.nextSerial, none⟩ :: r.anchors }
  | none => r

/-- Notes that the node with a serial number is complete. -/
def finishAnchor (r : NodeReader) (name : Option Bytes) (serial : Nat) (n : Node) : NodeReader :=
  match name with
  | some _ =>
    { r with
      anchors := r.anchors.map fun a => if a.serial == serial then { a with node := n } else a }
  | none => r

/-- The handles that every document knows. -/
def coreHandles : List (Bytes × Bytes) :=
  [(utf8 "!", utf8 "!"), (utf8 "!!", Tag.coreStem)]

/-- The tag that a handle and a suffix mean; `none` for the tag `!`, which says nothing. -/
def tagOf (r : NodeReader) (handle suffix : Bytes) : Except Problem (Option Tag) :=
  if handle.isEmpty then .ok (if suffix == utf8 "!" then none else some (Tag.ofName suffix))
  else
    match r.handles.lookup handle with
    | some stem => .ok (some (Tag.ofName (stem ++ suffix)))
    | none => .error .tag

/-- The properties of a node: an anchor and a tag in either order. -/
structure Properties where
  anchor : Option Bytes := none
  tag : Option Tag := none
  /-- Whether there is any property. -/
  given : Bool := false

/-- Reads the properties of a node. -/
def properties (r : NodeReader) : Except Problem (Properties × NodeReader) := do
  let t ← r.peek
  match t.kind with
  | .anchor name =>
    let r := r.next
    match (← r.peek).kind with
    | .tag handle suffix => .ok (⟨some name, ← r.tagOf handle suffix, true⟩, r.next)
    | _ => .ok (⟨some name, none, true⟩, r)
  | .tag handle suffix =>
    let tag ← r.tagOf handle suffix
    let r := r.next
    match (← r.peek).kind with
    | .anchor name => .ok (⟨some name, tag, true⟩, r.next)
    | _ => .ok (⟨none, tag, true⟩, r)
  | _ => .ok ({}, r)

/-- The tag of a scalar: its own, or else the one of its style or its text. -/
def scalarTag (own : Option Tag) (text : Bytes) (style : Style) : Tag :=
  match own with
  | some tag => tag
  | none =>
    if style != .plain then .str
    else if text == utf8 "<<" then .merge
    else Tag.ofText text

/-- Reads an alias. -/
def aliasNode (r : NodeReader) (line : Nat) (name : Bytes) : Except Problem (Node × NodeReader) :=
  match r.anchors.find? (·.name == name) with
  | some a => .ok (.alias line name a.node, r.next)
  | none => .error .unknownAnchor

/-- Whether a token ends the place of a node in a block mapping. -/
def endsPair (kind : Token.Kind) : Bool :=
  kind == .key || kind == .value || kind == .blockEnd

mutual

/-- Reads a node. Block collections are allowed when `block` is set, and a sequence at the
indentation of the mapping around it when `indentless` is set. -/
def node : Nat → Bool → Bool → NodeReader → Except Problem (Node × NodeReader)
  | 0, _, _, _ => .error .tooDeep
  | fuel + 1, block, indentless, r => do
    let first ← r.peek
    match first.kind with
    | .alias name => r.aliasNode first.line name
    | _ =>
      let (p, r) ← r.properties
      let t ← r.peek
      let serial := r.nextSerial
      let started := r.startAnchor p.anchor
      let line := first.line
      let sequence (items : Except Problem (List Node × NodeReader)) :
          Except Problem (Node × NodeReader) := do
        let (items, r) ← items
        let n := Node.sequence line (p.tag.getD .seq) items
        .ok (n, r.finishAnchor p.anchor serial n)
      let mapping (pairs : Except Problem (List (Node × Node) × NodeReader)) :
          Except Problem (Node × NodeReader) := do
        let (pairs, r) ← pairs
        let n := Node.mapping line (p.tag.getD .map) pairs
        .ok (n, r.finishAnchor p.anchor serial n)
      let scalar (text : Bytes) (style : Style) (r : NodeReader) :
          Except Problem (Node × NodeReader) :=
        let n := Node.scalar line (scalarTag p.tag text style) text
        .ok (n, r.finishAnchor p.anchor serial n)
      match t.kind with
      | .scalar text style => scalar text style started.next
      | .flowSequenceStart => sequence (flowItems fuel true started.next)
      | .flowMappingStart => mapping (flowPairs fuel true started.next)
      | .blockEntry =>
        if indentless then sequence (indentlessItems fuel started)
        else if p.given then scalar [] .plain started
        else .error .nodeExpected
      | .blockSequenceStart =>
        if block then sequence (blockItems fuel started.next)
        else if p.given then scalar [] .plain started
        else .error .nodeExpected
      | .blockMappingStart =>
        if block then mapping (blockPairs fuel started.next)
        else if p.given then scalar [] .plain started
        else .error .nodeExpected
      | _ => if p.given then scalar [] .plain started else .error .nodeExpected

/-- Reads the items of a block sequence and its end. -/
def blockItems : Nat → NodeReader → Except Problem (List Node × NodeReader)
  | 0, _ => .error .tooDeep
  | fuel + 1, r => do
    let t ← r.peek
    match t.kind with
    | .blockEnd => .ok ([], r.next)
    | .blockEntry =>
      let r := r.next
      let ahead ← r.peek
      let (n, r) ←
        if ahead.kind == .blockEntry || ahead.kind == .blockEnd then .ok (Node.empty t.line, r)
        else node fuel true false r
      let (rest, r) ← blockItems fuel r
      .ok (n :: rest, r)
    | _ => .error .entryExpected

/-- Reads the items of a sequence at the indentation of the mapping around it. -/
def indentlessItems : Nat → NodeReader → Except Problem (List Node × NodeReader)
  | 0, _ => .error .tooDeep
  | fuel + 1, r => do
    let t ← r.peek
    match t.kind with
    | .blockEntry =>
      let r := r.next
      let ahead ← r.peek
      let (n, r) ←
        if ahead.kind == .blockEntry || endsPair ahead.kind then .ok (Node.empty t.line, r)
        else node fuel true false r
      let (rest, r) ← indentlessItems fuel r
      .ok (n :: rest, r)
    | _ => .ok ([], r)

/-- Reads the pairs of a block mapping and its end. -/
def blockPairs : Nat → NodeReader → Except Problem (List (Node × Node) × NodeReader)
  | 0, _ => .error .tooDeep
  | fuel + 1, r => do
    let t ← r.peek
    match t.kind with
    | .blockEnd => .ok ([], r.next)
    | .key =>
      let r := r.next
      let ahead ← r.peek
      let (k, r) ←
        if endsPair ahead.kind then .ok (Node.empty t.line, r) else node fuel true true r
      let (v, r) ← blockValue fuel r
      let (rest, r) ← blockPairs fuel r
      .ok ((k, v) :: rest, r)
    | _ => .error .keyExpected

/-- Reads the value of a pair of a block mapping. -/
def blockValue : Nat → NodeReader → Except Problem (Node × NodeReader)
  | 0, _ => .error .tooDeep
  | fuel + 1, r => do
    let t ← r.peek
    match t.kind with
    | .value =>
      let r := r.next
      let ahead ← r.peek
      if endsPair ahead.kind then .ok (Node.empty t.line, r) else node fuel true true r
    | _ => .ok (Node.empty t.line, r)

/-- Reads the items of a sequence in brackets and the bracket that closes it. -/
def flowItems : Nat → Bool → NodeReader → Except Problem (List Node × NodeReader)
  | 0, _, _ => .error .tooDeep
  | fuel + 1, first, r => do
    let t ← r.peek
    if t.kind == .flowSequenceEnd then .ok ([], r.next)
    else if !first && t.kind != .flowEntry then .error .entryExpected
    else
      let r := if first then r else r.next
      let t ← r.peek
      match t.kind with
      | .flowSequenceEnd => .ok ([], r.next)
      | .key =>
        let (k, r) ← flowPairKey fuel r.next
        let (v, r) ← flowPairValue fuel r
        let (rest, r) ← flowItems fuel false r
        .ok (.mapping t.line .map [(k, v)] :: rest, r)
      | _ =>
        let (n, r) ← node fuel false false r
        let (rest, r) ← flowItems fuel false r
        .ok (n :: rest, r)

/-- Reads the key of a single pair in a sequence in brackets. The token after a key that is left out
is passed over. -/
def flowPairKey : Nat → NodeReader → Except Problem (Node × NodeReader)
  | 0, _ => .error .tooDeep
  | fuel + 1, r => do
    let t ← r.peek
    if t.kind == .value || t.kind == .flowEntry || t.kind == .flowSequenceEnd then
      .ok (Node.empty t.line, r.next)
    else node fuel false false r

/-- Reads the value of a single pair in a sequence in brackets. -/
def flowPairValue : Nat → NodeReader → Except Problem (Node × NodeReader)
  | 0, _ => .error .tooDeep
  | fuel + 1, r => do
    let t ← r.peek
    if t.kind == .value then
      let r := r.next
      let ahead ← r.peek
      if ahead.kind == .flowEntry || ahead.kind == .flowSequenceEnd then
        .ok (Node.empty ahead.line, r)
      else node fuel false false r
    else .ok (Node.empty t.line, r)

/-- Reads the pairs of a mapping in braces and the brace that closes it. -/
def flowPairs : Nat → Bool → NodeReader → Except Problem (List (Node × Node) × NodeReader)
  | 0, _, _ => .error .tooDeep
  | fuel + 1, first, r => do
    let t ← r.peek
    if t.kind == .flowMappingEnd then .ok ([], r.next)
    else if !first && t.kind != .flowEntry then .error .entryExpected
    else
      let r := if first then r else r.next
      let t ← r.peek
      match t.kind with
      | .flowMappingEnd => .ok ([], r.next)
      | .key =>
        let r := r.next
        let ahead ← r.peek
        let (k, r) ←
          if ahead.kind == .value || ahead.kind == .flowEntry || ahead.kind == .flowMappingEnd then
            .ok (Node.empty ahead.line, r)
          else node fuel false false r
        let (v, r) ← flowValue fuel r
        let (rest, r) ← flowPairs fuel false r
        .ok ((k, v) :: rest, r)
      | _ =>
        let (k, r) ← node fuel false false r
        let ahead ← r.peek
        let (rest, r) ← flowPairs fuel false r
        .ok ((k, Node.empty ahead.line) :: rest, r)

/-- Reads the value of a pair of a mapping in braces. -/
def flowValue : Nat → NodeReader → Except Problem (Node × NodeReader)
  | 0, _ => .error .tooDeep
  | fuel + 1, r => do
    let t ← r.peek
    if t.kind == .value then
      let r := r.next
      let ahead ← r.peek
      if ahead.kind == .flowEntry || ahead.kind == .flowMappingEnd then
        .ok (Node.empty ahead.line, r)
      else node fuel false false r
    else .ok (Node.empty t.line, r)

end

/-- Reads the directives before a document: at most one version, which must be 1.1, and handles of
tags, each at most once. -/
def directives : Nat → Bool → List (Bytes × Bytes) → NodeReader →
    Except Problem (List (Bytes × Bytes) × NodeReader)
  | 0, _, _, _ => .error .directive
  | fuel + 1, versioned, handles, r => do
    match (← r.peek).kind with
    | .version major minor =>
      if versioned || major != 1 || minor != 1 then .error .directive
      else directives fuel true handles r.next
    | .tagDirective handle stem =>
      if (handles.lookup handle).isSome then .error .directive
      else directives fuel versioned (handles ++ [(handle, stem)]) r.next
    | _ => .ok (handles, r)

/-- Whether a token stands where a document has no content. -/
def endsContent (kind : Token.Kind) : Bool :=
  match kind with
  | .version _ _ => true
  | .tagDirective _ _ => true
  | .documentStart => true
  | .documentEnd => true
  | .streamEnd => true
  | _ => false

/-- More calls are not needed to read a list of tokens: along every way down, each second call
passes over a token. -/
def fuelFor (r : NodeReader) : Nat := 4 * r.tokens.length + 8

/-- Reads the first document; `none` when the text holds none. The token that ends the document has
to be readable. -/
def document (r : NodeReader) : Except Problem (Option Node) := do
  let first ← r.peek
  match first.kind with
  | .streamEnd => .ok none
  | _ =>
    let explicit := first.kind != .documentEnd && endsContent first.kind
    let (handles, r) ← directives (r.tokens.length + 1) false [] r
    let r := { r with handles := handles ++ coreHandles }
    let (n, r) ←
      if explicit then do
        let t ← r.peek
        if t.kind == .documentStart then do
          let r := r.next
          let ahead ← r.peek
          if endsContent ahead.kind then .ok (Node.empty ahead.line, r)
          else node r.fuelFor true false r
        else .error .documentStartExpected
      else node r.fuelFor true false r
    let _ ← r.peek
    .ok (some n)

end NodeReader

/-- The root of the first document of a text; `none` when there is none. -/
def Node.ofText (text : Bytes) : Except Problem (Option Node) := do
  let s ← Source.ofText text
  let (tokens, problem) := Token.ofSource s
  NodeReader.document { tokens := tokens, problem := problem.getD .nodeExpected }

end Linewise.Yaml
