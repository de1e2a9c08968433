import Linewise.Number.Reading
import Linewise.Quoted

/-!
# Flags

The flags of a command and how they are read from its arguments. A flag has a name after two dashes
and may have a letter after one dash; letters may be given in clusters. A value follows after an
equals sign, after the letter, or as the next argument. Flags may stand among the other words of a
command, up to an argument of two dashes.
-/

namespace Linewise

/-- What a flag takes. -/
inductive FlagKind where
  /-- A truth value; true when none is given. -/
  | switch
  /-- A number; without one the flag counts. -/
  | count
  | number
  /-- A text, the last of which counts. -/
  | text
  /-- A text, all of which count. -/
  | texts
  deriving DecidableEq, Repr

/-- A flag of a command. -/
structure Flag where
  name : Bytes
  letter : Option UInt8 := none
  kind : FlagKind
  usage : Bytes
  deriving DecidableEq, Repr

/-- A value that was given to a flag. -/
inductive FlagValue where
  | switch (on : Bool)
  /-- One more. -/
  | step
  | number (n : Int)
  | text (t : Bytes)
  deriving DecidableEq, Repr

/-- Why a text is no value of a flag. -/
inductive FlagValue.Error where
  | notTruth
  | notInteger (cause : Number.IntegerError)
  deriving DecidableEq, Repr

/-- What is wrong with a text. -/
def FlagValue.Error.message (text : Bytes) : FlagValue.Error → Bytes
  | notTruth => utf8 "strconv.ParseBool: parsing " ++ Quoted.double text ++ utf8 ": invalid syntax"
  | notInteger .badSyntax =>
    utf8 "strconv.ParseInt: parsing " ++ Quoted.double text ++ utf8 ": invalid syntax"
  | notInteger .outOfRange =>
    utf8 "strconv.ParseInt: parsing " ++ Quoted.double text ++ utf8 ": value out of range"

/-- The spellings of a truth value. -/
def truth? (text : Bytes) : Option Bool :=
  if (["1", "t", "T", "true", "TRUE", "True"].map utf8).contains text then some true
  else if (["0", "f", "F", "false", "FALSE", "False"].map utf8).contains text then some false
  else none

namespace FlagKind

/-- The value of a flag that is given without one; `none` when there has to be one. -/
def implied? : FlagKind → Option FlagValue
  | switch => some (.switch true)
  | count => some .step
  | _ => none

def readNumber (text : Bytes) : Except FlagValue.Error FlagValue :=
  match Number.integer text with
  | .ok n => .ok (.number n)
  | .error e => .error (.notInteger e)

/-- Reads a value. -/
def read (text : Bytes) : FlagKind → Except FlagValue.Error FlagValue
  | switch =>
    match truth? text with
    | some b => .ok (.switch b)
    | none => .error .notTruth
  | count => if text == utf8 "+1" then .ok .step else readNumber text
  | number => readNumber text
  | _ => .ok (.text text)

end FlagKind

/-- A flag as messages name it. -/
def Flag.label (f : Flag) : Bytes :=
  match f.letter with
  | some letter => utf8 "-" ++ [letter] ++ utf8 ", --" ++ f.name
  | none => utf8 "--" ++ f.name

/-- Why arguments could not be read. -/
inductive FlagError where
  | badSyntax (argument : Bytes)
  | unknown (name : Bytes)
  /-- An unknown letter, and the cluster from it on. -/
  | unknownLetter (letter : UInt8) (cluster : Bytes)
  | noValue (name : Bytes)
  | noLetterValue (letter : UInt8) (cluster : Bytes)
  | badValue (flag : Flag) (value : Bytes) (cause : FlagValue.Error)
  /-- Help is asked for and there is no flag for it. -/
  | helpWanted
  deriving DecidableEq, Repr

/-- The character that stands for a letter in messages: of a byte outside ASCII only the first byte
of its own encoding is shown. -/
def FlagError.shown (letter : UInt8) : Bytes :=
  Quoted.single (.char (if letter < 0x80 then Char.ofNat letter.toNat
    else if letter < 0xC0 then Char.ofNat 0xC2 else Char.ofNat 0xC3))

def FlagError.message : FlagError → Bytes
  | badSyntax argument => utf8 "bad flag syntax: " ++ argument
  | unknown name => utf8 "unknown flag: --" ++ name
  | unknownLetter letter cluster =>
    utf8 "unknown shorthand flag: " ++ shown letter ++ utf8 " in -" ++ cluster
  | noValue name => utf8 "flag needs an argument: --" ++ name
  | noLetterValue letter cluster =>
    utf8 "flag needs an argument: " ++ shown letter ++ utf8 " in -" ++ cluster
  | badValue flag value cause =>
    utf8 "invalid argument " ++ Quoted.double value ++ utf8 " for " ++ Quoted.double flag.label ++
      utf8 " flag: " ++ cause.message value
  | helpWanted => utf8 "pflag: help requested"

/-- The arguments of a command, read: the values of flags in the order in which they were given, and
the other words. -/
structure Arguments where
  given : List (Bytes × FlagValue) := []
  words : List Bytes := []
  deriving DecidableEq, Repr

namespace Arguments

/-- The values of a flag, in order. -/
def values (a : Arguments) (name : Bytes) : List FlagValue :=
  (a.given.filter (·.1 == name)).map Prod.snd

/-- Whether a switch was left on. -/
def isOn (a : Arguments) (name : Bytes) : Bool := (a.values name).getLast? == some (.switch true)

/-- The texts given to a flag. -/
def texts (a : Arguments) (name : Bytes) : List Bytes :=
  (a.values name).filterMap fun
    | .text t => some t
    | _ => none

/-- The last text given to a flag, empty when there is none. -/
def text (a : Arguments) (name : Bytes) : Bytes := (a.texts name).getLast?.getD []

/-- The number that a flag has come to, in 64 bits; zero at first. -/
def number (a : Arguments) (name : Bytes) : Int :=
  (a.values name).foldl (fun n v =>
    match v with
    | .step => Int.bmod (n + 1) (Nat.pow 2 64)
    | .number m => m
    | _ => n) 0

/-- The name and the letter of the flag that asks for help. -/
def helpName : Bytes := utf8 "help"

def helpLetter : UInt8 := 104

def dash : UInt8 := 45

def equals : UInt8 := 61

/-- The argument after which there are no more flags. -/
def endOfFlags : Bytes := [dash, dash]

/-- What starts a cluster that is passed over. -/
def passedOver : Bytes := utf8 "test."

/-- The state of reading: besides the arguments read so far, the flag that waits for its value, with
what is wrong when none comes. -/
structure Progress extends Arguments where
  waiting : Option (Flag × FlagError) := none

/-- Gives a flag a value. -/
def Progress.give (p : Progress) (f : Flag) (value : FlagValue) : Progress :=
  { p with given := p.given ++ [(f.name, value)] }

/-- Gives a flag the value that a text means. -/
def Progress.giveText (p : Progress) (f : Flag) (text : Bytes) : Except FlagError Progress :=
  match f.kind.read text with
  | .ok value => .ok (p.give f value)
  | .error e => .error (.badValue f text e)

/-- Gives a flag the value that no value means, or lets it wait for the next argument. -/
def Progress.giveNothing (p : Progress) (f : Flag) (missing : FlagError) : Progress :=
  match f.kind.implied? with
  | some value => p.give f value
  | none => { p with waiting := some (f, missing) }

/-- Reads a flag by name; `body` is what follows the two dashes. -/
def Progress.readName (flags : List Flag) (p : Progress) (body : Bytes) :
    Except FlagError Progress :=
  if body.head? == some dash || body.head? == some equals then
    .error (.badSyntax (endOfFlags ++ body))
  else
    let name := body.takeWhile (· != equals)
    match flags.find? (·.name == name) with
    | none => .error (if name == helpName then .helpWanted else .unknown name)
    | some f =>
      match body.drop name.length with
      | _ :: value => p.giveText f value
      | [] => .ok (p.giveNothing f (.noValue name))

/-- Reads a cluster of letters. -/
def readCluster (flags : List Flag) : Progress → Bytes → Except FlagError Progress
  | p, [] => .ok p
  | p, letter :: more =>
    if passedOver.isPrefixOf (letter :: more) then .ok p
    else
      match flags.find? (·.letter == some letter) with
      | none =>
        .error (if letter == helpLetter then .helpWanted
          else .unknownLetter letter (letter :: more))
      | some f =>
        if more.length > 1 && more.head? == some equals then p.giveText f more.tail
        else
          match f.kind.implied? with
          | some value => readCluster flags (p.give f value) more
          | none =>
            if more.isEmpty then
              .ok { p with waiting := some (f, .noLetterValue letter (letter :: more)) }
            else p.giveText f more

/-- Reads one argument that is no value and no end of flags. -/
def Progress.readArgument (flags : List Flag) (p : Progress) (argument : Bytes) :
    Except FlagError Progress :=
  match argument with
  | first :: second :: rest =>
    if first != dash then .ok { p with words := p.words ++ [argument] }
    else if second == dash then p.readName flags rest
    else readCluster flags p (second :: rest)
  | _ => .ok { p with words := p.words ++ [argument] }

/-- Reads arguments one after the other. -/
def readFrom (flags : List Flag) : Progress → List Bytes → Except FlagError Arguments
  | p, [] =>
    match p.waiting with
    | some (_, missing) => .error missing
    | none => .ok p.toArguments
  | p, argument :: rest =>
    match p.waiting with
    | some (f, _) =>
      match { p with waiting := none }.giveText f argument with
      | .ok p => readFrom flags p rest
      | .error e => .error e
    | none =>
      if argument == endOfFlags then .ok { p.toArguments with words := p.words ++ rest }
      else
        match p.readArgument flags argument with
        | .ok p => readFrom flags p rest
        | .error e => .error e

/-- Reads the arguments of a command that has some flags. -/
def read (flags : List Flag) (arguments : List Bytes) : Except FlagError Arguments :=
  readFrom flags {} arguments

end Arguments

end Linewise
