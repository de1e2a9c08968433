import Linewise.Bytes

/-!
# Directives

A line can switch a rule off or on with `X11_FUZZ: disable <rule>` and `X11_FUZZ: enable <rule>`.
A directive is the keyword, a verb that no word character follows, one space and the id of a rule,
which goes on to the next blank. A verb without an id is an error.
-/

namespace Linewise

/-- A switch found on a line. -/
structure Directive where
  enable : Bool
  rule : Bytes
  deriving DecidableEq, Repr

/-- A directive without a rule id: the number of its line and its text. -/
structure MalformedDirective where
  line : Int
  fragment : Bytes
  deriving DecidableEq, Repr

def MalformedDirective.message (e : MalformedDirective) : Bytes :=
  utf8 "malformed directive in line " ++ Bytes.ofInt e.line ++ utf8 ": \"" ++ e.fragment ++
    utf8 "\""

namespace Directive

/-- The keyword with the space after it. -/
def keyword : Bytes := utf8 "X11_FUZZ: "

/-- The text of a directive up to its rule id. -/
def opening (enable : Bool) : Bytes :=
  keyword ++ if enable then utf8 "enable" else utf8 "disable"

/-- The bytes that end a rule id: tab, line feed, form feed, carriage return and space. -/
def endsId (b : UInt8) : Bool := b == 9 || b == 10 || b == 12 || b == 13 || b == 32

/-- What follows the verb, when `text` starts with a directive of the given kind. -/
def afterVerb? (enable : Bool) (text : Bytes) : Option Bytes :=
  match Bytes.dropHead? (opening enable) text with
  | some rest => if rest.head?.any Bytes.isWord then none else some rest
  | none => none

/-- The kind of directive that `text` starts with and what follows its verb. -/
def start? (text : Bytes) : Option (Bool × Bytes) :=
  match afterVerb? true text with
  | some rest => some (true, rest)
  | none => (afterVerb? false text).map fun rest => (false, rest)

/-- The rule id after a verb. -/
def id? (afterVerb : Bytes) : Option Bytes :=
  match afterVerb with
  | 32 :: rest =>
    match rest.takeWhile (!endsId ·) with
    | [] => none
    | id => some id
  | _ => none

/-- The directives of a text after its first `skip` bytes, which belong to one already read. The
error is the text of the first directive without an id. -/
def scanFrom : Nat → Bytes → Except Bytes (List Directive)
  | _, [] => .ok []
  | skip + 1, _ :: rest => scanFrom skip rest
  | 0, b :: rest =>
    match start? (b :: rest) with
    | none => scanFrom 0 rest
    | some (enable, afterVerb) =>
      match id? afterVerb with
      | none => .error (opening enable)
      | some id =>
        match scanFrom ((opening enable).length + id.length) rest with
        | .ok ds => .ok (⟨enable, id⟩ :: ds)
        | .error e => .error e

/-- The directives on a line, from left to right. -/
def parse (line : Bytes) (number : Int) : Except MalformedDirective (List Directive) :=
  match scanFrom 0 line with
  | .ok ds => .ok ds
  | .error fragment => .error ⟨number, fragment⟩

/-- Whether a rule is off after some directives, when it was off (`off`) or on before. -/
def apply (rule : Bytes) (off : Bool) (ds : List Directive) : Bool :=
  ds.foldl (fun off d => if d.rule == rule then !d.enable else off) off

/-- Whether a rule is off after a line. -/
def applyLine (rule : Bytes) (off : Bool) (line : Bytes) (number : Int) :
    Except MalformedDirective Bool :=
  match parse line number with
  | .ok ds => .ok (apply rule off ds)
  | .error e => .error e

end Directive

end Linewise
