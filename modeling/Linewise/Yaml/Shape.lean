import Linewise.Quoted
import Linewise.Yaml.Node

/-!
# Shapes

A shape says what a node should hold: a truth value, a text, a list, a table or a record. `decode`
turns the first document of a text into a value of a shape. Nodes that do not fit are complaints,
which are collected; they do not stop the decoding of the rest.

A mapping may have a pair with the key `<<`, whose value is another mapping, or a list of mappings,
that supplies further pairs. Pairs of the mapping itself go first.
-/

namespace Linewise.Yaml

/-- What a node should hold. -/
inductive Shape where
  /-- Anything. -/
  | any
  | flag
  | text
  | list (item : Shape)
  /-- Pairs of a text and a value. -/
  | table (value : Shape)
  /-- Pairs with known names; other names are passed over. -/
  | record (name : String) (fields : List (Bytes × Shape))
  deriving Repr

/-- The name of a shape in complaints. -/
def Shape.name : Shape → Bytes
  | any => utf8 "interface \x7b\x7d"
  | flag => utf8 "bool"
  | text => utf8 "string"
  | list item => utf8 "[]" ++ item.name
  | table value => utf8 "map[string]" ++ value.name
  | record name _ => utf8 name

/-- Why a document gives no value: it cannot be read, or nodes do not fit their shapes. -/
inductive DecodeError where
  | unreadable (p : Problem)
  | misfits (complaints : List Bytes)
  deriving DecidableEq, Repr

def DecodeError.message : DecodeError → Bytes
  | unreadable p => p.message
  | misfits complaints =>
    utf8 "yaml: unmarshal errors:\n  " ++ Bytes.joinWith (utf8 "\n  ") complaints

/-- The state of decoding: the complaints so far, latest first, and how many nodes were decoded, in
all and through aliases. -/
structure Decoder where
  complaints : List Bytes := []
  visits : Nat := 0
  aliasVisits : Nat := 0

/-- Decoding steps. -/
abbrev Decoding := StateT Decoder (Except Problem)

namespace Decoder

def complain (text : Bytes) : Decoding Unit :=
  modify fun d => { d with complaints := text :: d.complaints }

/-- The share of nodes that may come through aliases, in parts of `100 * 3600000`: 99 in a hundred
in documents of up to 400000 nodes, ten in a hundred from four million on, and evenly less in
between. -/
def allowedShare (visits : Nat) : Nat :=
  if visits ≤ 400000 then 99 * 3600000
  else if visits ≥ 4000000 then 10 * 3600000
  else 99 * 3600000 - 89 * (visits - 400000)

/-- Whether aliases blow a document up. -/
def isExcessive (d : Decoder) : Bool :=
  d.aliasVisits > 100 && d.visits > 1000 &&
    d.aliasVisits * 100 * 3600000 > allowedShare d.visits * d.visits

/-- Counts a node. -/
def visit (inAlias : Bool) : Decoding Unit := do
  modify fun d =>
    { d with visits := d.visits + 1, aliasVisits := d.aliasVisits + (if inAlias then 1 else 0) }
  if (← get).isExcessive then throw .excessiveAliases

/-- The text of a scalar in a complaint; a long one is cut. -/
def shown (text : Bytes) : Bytes :=
  if text.length > 10 then utf8 " `" ++ text.take 7 ++ utf8 "...`"
  else utf8 " `" ++ text ++ utf8 "`"

/-- Complains that a node does not fit its shape. -/
def misfit (line : Nat) (tag : Tag) (text : Bytes) (shape : Shape) : Decoding Unit :=
  complain (utf8 "line " ++ Bytes.ofNat line ++ utf8 ": cannot unmarshal " ++ tag.name ++
    (if tag == .seq || tag == .map then [] else shown text) ++ utf8 " into " ++ shape.name)

/-- The words for truth values that count only where a truth value is expected. -/
def flagOf? (text : Bytes) : Option Bool :=
  let isAny (words : List String) : Bool := words.any fun w => utf8 w == text
  if isAny ["y", "Y", "yes", "Yes", "YES", "on", "On", "ON"] then some true
  else if isAny ["n", "N", "no", "No", "NO", "off", "Off", "OFF"] then some false
  else none

/-- The value of a scalar in a shape; `none` when it has none there. -/
def scalar (shape : Shape) (line : Nat) (tag : Tag) (text : Bytes) : Decoding (Option Value) := do
  let (resolved, v) ← (tag.resolve text : Except Problem (Tag × Value))
  match shape, v with
  | .any, v => return some v
  | .list _, .null => return some .null
  | .table _, .null => return some .null
  | _, .null => return none
  | .text, v => return some (if resolved == .binary then v else .string text)
  | .flag, .bool b => return some (.bool b)
  | .flag, .string s =>
    match flagOf? s with
    | some b => return some (.bool b)
    | none =>
      misfit line tag text shape
      return none
  | shape, _ =>
    misfit line tag text shape
    return none

/-- What tells the keys of a mapping apart: the kind of node, and its text or name. -/
def keyIdentity : Node → Nat × Bytes
  | .scalar _ _ text => (0, text)
  | .alias _ name _ => (1, name)
  | .sequence _ _ _ => (2, [])
  | .mapping _ _ _ => (3, [])

/-- Complaints about the keys that occur again. -/
def repeatedKeys : List Node → List Bytes
  | [] => []
  | k :: rest =>
    (rest.filter fun k' => keyIdentity k' == keyIdentity k).map (fun k' =>
      utf8 "line " ++ Bytes.ofNat k'.line ++ utf8 ": mapping key " ++
        Quoted.double (keyIdentity k').2 ++ utf8 " already defined at line " ++
        Bytes.ofNat k.line) ++ repeatedKeys rest

/-- Complains about the keys that occur again and says whether there are any. -/
def checkKeys (pairs : List (Node × Node)) : Decoding Bool := do
  let found := repeatedKeys (pairs.map Prod.fst)
  modify fun d => { d with complaints := found.reverse ++ d.complaints }
  return found.isEmpty

/-- Whether a key announces pairs from elsewhere. -/
def isMergeKey : Node → Bool
  | .scalar _ .merge text => text == utf8 "<<"
  | _ => false

/-- Whether a key is a text, or announces pairs from elsewhere. -/
def isTextKey : Node → Bool
  | .scalar _ tag _ => tag == .str || tag == .merge
  | .sequence _ tag _ => tag == .str || tag == .merge
  | .mapping _ tag _ => tag == .str || tag == .merge
  | .alias _ _ (some n) => isTextKey n
  | .alias _ _ none => false

/-- Where the pairs of a mapping go: into a table with shapes for keys and values, or into a
record. -/
inductive Target where
  | table (key value : Shape)
  | record (name : Bytes) (fields : List (Bytes × Shape))

/-- The shape of the keys. -/
def Target.key : Target → Shape
  | table key _ => key
  | record _ _ => .text

/-- The target for a shape that a mapping fits. -/
def Target.ofShape? (shape : Shape) (pairs : List (Node × Node)) : Option Target :=
  match shape with
  | .any => some (.table (if pairs.all fun p => isTextKey p.1 then .text else .any) .any)
  | .table value => some (.table .text value)
  | .record name fields => some (.record (utf8 name) fields)
  | _ => none

/-- Whether two keys are the same. -/
def sameKey : Value → Value → Bool
  | .null, .null => true
  | .bool a, .bool b => a == b
  | .int a, .int b => a == b
  | .float a, .float b => !a.isNan && (a == b || (a.magnitude == 0 && b.magnitude == 0))
  | .string a, .string b => a == b
  | .time a, .time b => a == b
  | _, _ => false

/-- The pairs with the value of a key set; a new key goes last. -/
def setPair (pairs : List (Value × Value)) (k v : Value) : List (Value × Value) :=
  match pairs with
  | [] => [(k, v)]
  | (k', v') :: rest => if sameKey k' k then (k', v) :: rest else (k', v') :: setPair rest k v

/-- The pairs gathered so far, the keys that were set in this record, and, while pairs from
elsewhere are added, the keys that must not be set again. -/
structure Gathered where
  pairs : List (Value × Value) := []
  done : List Value := []
  taken : Option (List Value) := none

/-- Adds the pair of a key and a node in a target; `decode` decodes the node. -/
def addPair (decode : Shape → Node → Decoding (Option Value)) (target : Target) (g : Gathered)
    (line : Nat) (key : Value) (v : Node) : Decoding Gathered := do
  match target with
  | .table _ value =>
    match key with
    | .list _ => throw .mapKey
    | .map _ => throw .mapKey
    | _ =>
      match ← decode value v with
      | some x => return { g with pairs := setPair g.pairs key x }
      | none => return g
  | .record name fields =>
    let text := match key with
      | .string s => s
      | _ => []
    match fields.lookup text with
    | none => return g
    | some shape =>
      if g.done.any (sameKey key) then
        complain (utf8 "line " ++ Bytes.ofNat line ++ utf8 ": field " ++ text ++
          utf8 " already set in type " ++ name)
        return g
      else
        let g := { g with done := key :: g.done }
        match ← decode shape v with
        | some x => return { g with pairs := setPair g.pairs key x }
        | none => return g

/-- Adds the pairs that a mapping states itself; `decode` decodes their nodes. -/
def ownPairs (decode : Shape → Node → Decoding (Option Value)) (target : Target) :
    Gathered → List (Node × Node) → Decoding Gathered
  | g, [] => return g
  | g, (k, v) :: rest => do
    if isMergeKey k then ownPairs decode target g rest
    else
      match ← decode target.key k with
      | none => ownPairs decode target g rest
      | some key =>
        if g.taken.any (·.any (sameKey key)) then ownPairs decode target g rest
        else
          let g := { g with taken := g.taken.map (key :: ·) }
          ownPairs decode target (← addPair decode target g k.line key v) rest

mutual

/-- The value of a node in a shape; `none` when it has none there. The fuel bounds the depth of the
node with aliases replaced by what they stand for. -/
def node : Nat → Bool → Shape → Node → Decoding (Option Value)
  | 0, _, _, _ => throw .tooDeep
  | fuel + 1, inAlias, shape, n => do
    visit inAlias
    match n with
    | .scalar line tag text => scalar shape line tag text
    | .alias _ _ none => throw .selfReference
    | .alias _ _ (some target) => node fuel true shape target
    | .sequence line tag items =>
      match shape with
      | .list item =>
        let vs ← items.mapM (node fuel inAlias item)
        return some (.list (vs.filterMap id))
      | .any =>
        let vs ← items.mapM (node fuel inAlias .any)
        return some (.list (vs.filterMap id))
      | _ =>
        misfit line tag [] shape
        return none
    | .mapping line tag pairs =>
      if !(← checkKeys pairs) then return none
      match Target.ofShape? shape pairs with
      | none =>
        misfit line tag [] shape
        return none
      | some target =>
        let g ← gather fuel inAlias target {} pairs
        return some (.map g.pairs)

/-- Adds the pairs of a mapping, those that it takes from elsewhere last. -/
def gather : Nat → Bool → Target → Gathered → List (Node × Node) → Decoding Gathered
  | 0, _, _, _, _ => throw .tooDeep
  | fuel + 1, inAlias, target, g, pairs => do
    let g ← ownPairs (node fuel inAlias) target g pairs
    match pairs.find? (isMergeKey ·.1) with
    | none => return g
    | some (_, source) =>
      let taken ← match g.taken with
        | some taken => pure taken
        | none => do
          let keys ← pairs.mapM fun p => node fuel inAlias .any p.1
          pure (keys.filterMap id)
      let start := { g with taken := some taken }
      let h ← match source with
        | .sequence _ _ items => items.foldlM (merge fuel inAlias target) start
        | source => merge fuel inAlias target start source
      return { h with taken := g.taken.bind fun _ => h.taken }

/-- Adds the pairs of a mapping from elsewhere, given itself or through an alias. -/
def merge : Nat → Bool → Target → Gathered → Node → Decoding Gathered
  | 0, _, _, _, _ => throw .tooDeep
  | fuel + 1, inAlias, target, g, source => do
    visit inAlias
    match source with
    | .mapping _ _ pairs => adopt fuel inAlias target g pairs
    | .alias _ _ (some (.mapping _ _ pairs)) => do
      visit true
      adopt fuel true target g pairs
    | .alias _ _ none => throw .selfReference
    | _ => throw .mergeSource

/-- Adds the pairs of a mapping with keys of its own. -/
def adopt : Nat → Bool → Target → Gathered → List (Node × Node) → Decoding Gathered
  | 0, _, _, _, _ => throw .tooDeep
  | fuel + 1, inAlias, target, g, pairs => do
    if ← checkKeys pairs then
      let h ← gather fuel inAlias target { g with done := [] } pairs
      return { h with done := g.done }
    else return g

end

end Decoder

/-- The value of the first document of a text in a shape; `none` when it has none. -/
def decode (shape : Shape) (text : Bytes) : Except DecodeError (Option Value) :=
  match Node.ofText text with
  | .error p => .error (.unreadable p)
  | .ok none => .ok none
  | .ok (some n) =>
    match (Decoder.node (4 * (text.length + 4)) false shape n).run { visits := 1 } with
    | .error p => .error (.unreadable p)
    | .ok (v, d) => if d.complaints.isEmpty then .ok v else .error (.misfits d.complaints.reverse)

end Linewise.Yaml
