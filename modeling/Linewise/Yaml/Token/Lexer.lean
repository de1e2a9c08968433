import Linewise.Yaml.Token.Scalar

/-!
# Reading tokens

The lexer turns the text of a document into tokens. It keeps the indentation of the open block
collections, and for every level of brackets the token that may turn out to be the key of a pair:
only the colon after a key tells that it was one, and then the tokens that announce the key are put
in front of it.
-/

namespace Linewise.Yaml

/-- A token that may turn out to be a key: its place among the tokens, where it starts, and whether
it has to be a key. -/
structure PossibleKey where
  place : Nat
  index : Nat
  line : Nat
  column : Nat
  required : Bool
  deriving Repr

/-- The state of the lexer between two tokens. -/
structure Lexer where
  source : Source
  /-- The tokens so far, latest first. -/
  tokens : List Token := []
  /-- The number of tokens so far. -/
  count : Nat := 0
  /-- The column of the innermost block collection, or -1. -/
  indent : Int := -1
  /-- The columns of the block collections around it, innermost first. -/
  indents : List Int := []
  /-- The possible key of the innermost brackets, or of the text outside all brackets. -/
  key : Option PossibleKey := none
  /-- The possible keys of the levels around it, innermost first. -/
  outerKeys : List (Option PossibleKey) := []
  /-- Whether a key may start here. -/
  keyAllowed : Bool := true

namespace Lexer

/-- No more brackets or block collections than this may be open. -/
def maxDepth : Nat := 10000

/-- A key must end within this number of characters. -/
def maxKeyLength : Nat := 1024

/-- The number of open brackets. -/
def flowLevel (l : Lexer) : Nat := l.outerKeys.length

def inFlow (l : Lexer) : Bool := !l.outerKeys.isEmpty

/-- Adds a token that starts on a line. -/
def push (l : Lexer) (kind : Token.Kind) (line : Nat) : Lexer :=
  { l with tokens := ⟨kind, line⟩ :: l.tokens, count := l.count + 1 }

/-- Puts a token in front of the one at a place. -/
def insert (l : Lexer) (place : Nat) (kind : Token.Kind) (line : Nat) : Lexer :=
  let after := l.count - place
  { l with
    tokens := l.tokens.take after ++ ⟨kind, line⟩ :: l.tokens.drop after
    count := l.count + 1 }

/-- Adds a token of a single character. -/
def pushChar (l : Lexer) (kind : Token.Kind) : Lexer :=
  { l.push kind l.source.line with source := l.source.skip }

/-- Forgets the possible key of the present level; one that had to be a key is a problem. -/
def dropKey (l : Lexer) : Except Problem Lexer :=
  if l.key.any (·.required) then .error .colonExpected else .ok { l with key := none }

/-- Notes that the next token may be a key. In block context a token in the column of the innermost
collection has to be one. -/
def noteKey (l : Lexer) : Except Problem Lexer :=
  if l.keyAllowed then do
    let s := l.source
    let required := !l.inFlow && l.indent == s.column
    let l ← l.dropKey
    .ok { l with key := some ⟨l.count, s.index, s.line, s.column, required⟩ }
  else .ok l

/-- Opens a block collection at a column when it lies further right than the innermost one. The
token that announces it goes in front of the one at `place`. -/
def openBlock (l : Lexer) (column : Nat) (place : Nat) (kind : Token.Kind) (line : Nat) :
    Except Problem Lexer :=
  if l.inFlow || (column : Int) ≤ l.indent then .ok l
  else if l.indents.length ≥ maxDepth then .error .tooDeep
  else
    .ok { l.insert place kind line with indent := column, indents := l.indent :: l.indents }

/-- Closes the block collections that lie further right than a column, innermost first. -/
def closeBlocksFrom (column : Int) : List Int → Lexer → Lexer
  | [], l => l
  | outer :: rest, l =>
    if l.indent > column then
      closeBlocksFrom column rest
        { l.push .blockEnd l.source.line with indent := outer, indents := rest }
    else l

/-- Closes the block collections that lie further right than a column; between brackets there are
none. -/
def closeBlocks (l : Lexer) (column : Int) : Lexer :=
  if l.inFlow then l else closeBlocksFrom column l.indents l

/-- The number of blanks and line breaks before a comment sign, when they lead to one. -/
def commentAhead? (cs : List Char) : Option Nat :=
  let spacing := cs.takeWhile isSpacing
  if (cs.drop spacing.length).head? == some '#' then some spacing.length else none

/-- Moves over `n` characters, line breaks included. -/
def skipSpacing : Nat → Source → Source
  | 0, s => s
  | n + 1, s => skipSpacing n (if s.peek?.any isBreak then s.skipBreak else s.skip)

/-- Moves past a comment and the comment lines that follow it, up to the end of the last one. -/
def skipComments : Nat → Source → Source
  | 0, s => s
  | fuel + 1, s =>
    let s := s.dropLine
    match commentAhead? s.rest with
    | some n =>
      let ahead := s.rest.take n
      skipComments fuel (skipSpacing (n - crlfCount ahead) s)
    | none => s
where
  /-- A carriage return with a line feed after it is one line break. -/
  crlfCount : List Char → Nat
    | '\r' :: '\n' :: rest => crlfCount rest + 1
    | _ :: rest => crlfCount rest
    | [] => 0

/-- Moves to the next token, over blanks, comments and line breaks. A tab may stand where no key can
start. After a line break outside brackets a key may start. -/
def skipToToken : Nat → Lexer → Lexer
  | 0, l => l
  | fuel + 1, l =>
    let s := l.source
    let s := if s.column == 0 && s.sees byteOrderMark then s.skip else s
    let s := s.dropWhile fun c => c == ' ' || ((l.inFlow || !l.keyAllowed) && c == '\t')
    let s := if s.sees '#' then skipComments s.rest.length s else s
    if s.peek?.any isBreak then
      skipToToken fuel { l with source := s.skipBreak, keyAllowed := l.keyAllowed || !l.inFlow }
    else { l with source := s }

/-- Moves past a comment on the line of the token just read. -/
def skipLineComment (l : Lexer) : Lexer :=
  let s := l.source.dropWhile isBlank
  if s.sees '#' then { l with source := s.dropLine } else l

/-- Letters, digits, `_` and `-`, the characters of names. -/
def isNameChar (c : Char) : Bool := c.isAlphanum || c == '_' || c == '-'

/-- Reads the name of an anchor or alias. -/
def anchorName (s : Source) : Except Problem (Bytes × Source) :=
  let (name, s) := s.skip.takeWhile isNameChar
  let ends := s.spacingAt 0 || s.peek?.any fun c => "?:,]\x7d%@`".toList.contains c
  if name.isEmpty || !ends then .error .anchorName else .ok (Utf8.encode name, s)

/-- The characters of the address of a tag. -/
def isUriChar (c : Char) : Bool :=
  isNameChar c || ";/?:@&=+$.,!~*'()[]%".toList.contains c

/-- The byte that an escape of the address of a tag stands for. -/
def uriByte? (cs : List Char) : Option UInt8 :=
  match cs with
  | '%' :: a :: b :: _ => (ScalarText.hexValue? [a, b]).map Nat.toUInt8
  | _ => none

/-- The bytes of one character of the address of a tag, which may be escaped byte by byte. -/
def uriEscape (s : Source) : Except Problem (Bytes × Source) :=
  match uriByte? s.rest with
  | none => .error .tag
  | some lead =>
    let width := if lead < 0x80 then 1 else if lead &&& 0xE0 == 0xC0 then 2
      else if lead &&& 0xF0 == 0xE0 then 3 else if lead &&& 0xF8 == 0xF0 then 4 else 0
    let tails := (List.range (width - 1)).map fun k => uriByte? (s.rest.drop (3 * (k + 1)))
    if width == 0 || tails.any (fun b => !b.any Utf8.isTail) then .error .tag
    else .ok (lead :: tails.filterMap id, s.skipMany (3 * width))

/-- Reads the address of a tag. -/
def uriFrom : Nat → Source → Bytes → Except Problem (Bytes × Source)
  | 0, s, done => .ok (done, s)
  | fuel + 1, s, done =>
    match s.rest with
    | [] => .ok (done, s)
    | c :: _ =>
      if c == '%' then
        match uriEscape s with
        | .error e => .error e
        | .ok (bs, s) => uriFrom fuel s (done ++ bs)
      else if isUriChar c then uriFrom fuel s.skip (done ++ Utf8.encode [c])
      else .ok (done, s)

/-- Reads the address of a tag after its head, which must not both be empty. -/
def uri (head : Bytes) (s : Source) : Except Problem (Bytes × Source) :=
  match uriFrom (s.rest.length + 1) s (head.drop 1) with
  | .error e => .error e
  | .ok (text, after) =>
    if head.isEmpty && after.index == s.index then .error .tag else .ok (text, after)

/-- Reads what may be the handle of a tag: `!`, a name and possibly `!`. -/
def tagHandle (s : Source) : Except Problem (Bytes × Source) :=
  if s.sees '!' then
    let (name, s) := s.skip.takeWhile isNameChar
    let handle := utf8 "!" ++ Utf8.encode name
    if s.sees '!' then .ok (handle ++ utf8 "!", s.skip) else .ok (handle, s)
  else .error .tag

/-- Reads a tag: an address in angle brackets, a handle with a suffix, or a lone `!`. -/
def tag (s : Source) : Except Problem (Token.Kind × Source) := do
  let (kind, s) ←
    if s.rest[1]? == some '<' then do
      let (suffix, s) ← uri [] (s.skipMany 2)
      if s.sees '>' then .ok (Token.Kind.tag [] suffix, s.skip) else .error .tag
    else do
      let (handle, s) ← tagHandle s
      if handle.length > 1 && handle.getLast? == some 33 then
        let (suffix, s) ← uri [] s
        .ok (.tag handle suffix, s)
      else
        let (suffix, s) ← uri handle s
        if suffix.isEmpty then .ok (.tag [] handle, s) else .ok (.tag (utf8 "!") suffix, s)
  if s.spacingAt 0 then .ok (kind, s) else .error .tag

/-- Reads a number of a version, of one or two digits. -/
def versionNumber (s : Source) : Except Problem (Nat × Source) :=
  let (digits, s) := s.takeWhile Char.isDigit
  match Bytes.natOfDigits? 10 (Utf8.encode digits) with
  | some n => if digits.length ≤ 2 then .ok (n, s) else .error .directive
  | none => .error .directive

/-- Reads the version of a version directive. -/
def versionDirective (s : Source) : Except Problem (Token.Kind × Source) := do
  let (major, s) ← versionNumber (s.dropWhile isBlank)
  if s.sees '.' then
    let (minor, s) ← versionNumber s.skip
    .ok (.version major minor, s)
  else .error .directive

/-- Reads the handle and the address of a tag directive. -/
def tagDirective (s : Source) : Except Problem (Token.Kind × Source) := do
  let (handle, s) ← tagHandle (s.dropWhile isBlank)
  if handle.getLast? != some 33 || !s.peek?.any isBlank then .error .directive
  else
    let (stem, s) ← uri [] (s.dropWhile isBlank)
    if s.spacingAt 0 then .ok (.tagDirective handle stem, s) else .error .directive

/-- Reads a directive up to the start of the next line. -/
def directive (s : Source) : Except Problem (Token.Kind × Source) := do
  let (name, s) := s.skip.takeWhile isNameChar
  if name.isEmpty || !s.spacingAt 0 then .error .directive
  else
    let (kind, s) ←
      if name == "YAML".toList then versionDirective s
      else if name == "TAG".toList then tagDirective s
      else .error .directive
    let s := s.dropWhile isBlank
    let s := if s.sees '#' then s.dropLine else s
    if s.spacingAt 0 then .ok (kind, s.skipBreak) else .error .directive

/-- Closes everything at a mark of a document or at the end of the text. -/
def closeAll (l : Lexer) : Except Problem Lexer := do
  let l ← (l.closeBlocks (-1)).dropKey
  .ok { l with keyAllowed := false }

/-- A bracket that opens. -/
def openFlow (l : Lexer) (kind : Token.Kind) : Except Problem Lexer := do
  let l ← l.noteKey
  if l.flowLevel ≥ maxDepth then .error .tooDeep
  else
    .ok { l.pushChar kind with key := none, outerKeys := l.key :: l.outerKeys, keyAllowed := true }

/-- A bracket that closes. -/
def closeFlow (l : Lexer) (kind : Token.Kind) : Except Problem Lexer := do
  let l ← l.dropKey
  let l := match l.outerKeys with
    | [] => l
    | key :: rest => { l with key := key, outerKeys := rest }
  .ok { l.pushChar kind with keyAllowed := false }

/-- A comma between brackets. -/
def flowEntry (l : Lexer) : Except Problem Lexer := do
  let l ← l.dropKey
  .ok { l.pushChar .flowEntry with keyAllowed := true }

/-- The dash of an item of a block sequence. -/
def blockEntry (l : Lexer) : Except Problem Lexer := do
  let l ← if l.inFlow then .ok l
    else if !l.keyAllowed then .error .notAllowedHere
    else l.openBlock l.source.column l.count .blockSequenceStart l.source.line
  let l ← l.dropKey
  .ok { l.pushChar .blockEntry with keyAllowed := true }

/-- The question mark of a key. -/
def keyMark (l : Lexer) : Except Problem Lexer := do
  let l ← if l.inFlow then .ok l
    else if !l.keyAllowed then .error .notAllowedHere
    else l.openBlock l.source.column l.count .blockMappingStart l.source.line
  let l ← l.dropKey
  .ok { l.pushChar .key with keyAllowed := !l.inFlow }

/-- Whether a possible key can still be one: it must be on this line and not too long. -/
def keyInReach (l : Lexer) (k : PossibleKey) : Bool :=
  l.source.line ≤ k.line && l.source.index ≤ k.index + maxKeyLength

/-- The colon of a value, which makes the possible key a key. -/
def valueMark (l : Lexer) : Except Problem Lexer :=
  match l.key with
  | some k =>
    if l.keyInReach k then do
      let l := l.insert k.place .key k.line
      let l ← l.openBlock k.column k.place .blockMappingStart k.line
      .ok { l.pushChar .value with key := none, keyAllowed := false }
    else if k.required then .error .colonExpected
    else complexValue { l with key := none }
  | none => complexValue l
where
  /-- The value of a key that was announced by a question mark or left out. -/
  complexValue (l : Lexer) : Except Problem Lexer := do
    let l ← if l.inFlow then .ok l
      else if !l.keyAllowed then .error .notAllowedHere
      else l.openBlock l.source.column l.count .blockMappingStart l.source.line
    .ok { l.pushChar .value with keyAllowed := !l.inFlow }

/-- A token that was read up to a position and after which no key can start. -/
def property (l : Lexer) (read : Except Problem (Token.Kind × Source)) : Except Problem Lexer := do
  let line := l.source.line
  let l ← l.noteKey
  let (kind, s) ← read
  .ok { l.push kind line with source := s, keyAllowed := false }

/-- A plain or quoted scalar. -/
def flowScalar (l : Lexer) (style : Style) (read : Except Problem ScalarText) :
    Except Problem Lexer := do
  let line := l.source.line
  let l ← l.noteKey
  let t ← read
  .ok { l.push (.scalar (Utf8.encode t.chars) style) line with
    source := t.after, keyAllowed := t.lineEnded }

/-- A block scalar. -/
def blockScalar (l : Lexer) (style : Style) : Except Problem Lexer := do
  let line := l.source.line
  let l ← l.dropKey
  let t ← ScalarText.block (style == .folded) l.indent l.source
  .ok { l.push (.scalar (Utf8.encode t.chars) style) line with
    source := t.after
    keyAllowed := true }

/-- Whether a plain scalar can start with `c` when `spaced` says that spacing follows it. -/
def startsPlain (inFlow : Bool) (c : Char) (spaced : Bool) : Bool :=
  if c == '-' then !spaced
  else if c == '?' || c == ':' then !inFlow && !spaced
  else !(",[]\x7b\x7d#&*!|>'\"%@`".toList.contains c) && !isSpacing c

/-- Reads the token that starts with `c` here. -/
def readToken (l : Lexer) (c : Char) : Except Problem Lexer :=
  let s := l.source
  let spaced := s.spacingAt 1
  match c with
  | '[' => l.openFlow .flowSequenceStart
  | '\x7b' => l.openFlow .flowMappingStart
  | ']' => l.closeFlow .flowSequenceEnd
  | '\x7d' => l.closeFlow .flowMappingEnd
  | ',' => l.flowEntry
  | '*' => l.property ((anchorName s).map fun (n, s) => (.alias n, s))
  | '&' => l.property ((anchorName s).map fun (n, s) => (.anchor n, s))
  | '!' => l.property (tag s)
  | '\'' => l.flowScalar .single (ScalarText.quoted '\'' s)
  | '"' => l.flowScalar .double (ScalarText.quoted '"' s)
  | _ =>
    if c == '-' && spaced then l.blockEntry
    else if c == '?' && (l.inFlow || spaced) then l.keyMark
    else if c == ':' && (l.inFlow || spaced) then l.valueMark
    else if c == '|' && !l.inFlow then l.blockScalar .literal
    else if c == '>' && !l.inFlow then l.blockScalar .folded
    else if startsPlain l.inFlow c spaced then
      l.flowScalar .plain (ScalarText.plain l.inFlow (l.indent + 1).toNat s)
    else .error .noToken

/-- Whether a comment may follow the latest token after blanks of any kind: not after a dash, and
not when the line of the token was read to its end. -/
def allowsLineComment (l : Lexer) : Bool :=
  match l.tokens with
  | ⟨.blockEntry, _⟩ :: _ => false
  | ⟨.scalar _ .plain, _⟩ :: _ => !l.keyAllowed
  | ⟨.scalar _ .literal, _⟩ :: _ => false
  | ⟨.scalar _ .folded, _⟩ :: _ => false
  | _ => true

/-- Reads up to the next token and reads it. The second part of the answer says that the text is
over. -/
def step (l : Lexer) : Except Problem (Lexer × Bool) := do
  let l := skipToToken (l.source.rest.length + 1) l
  let l := l.closeBlocks l.source.column
  match l.source.peek? with
  | none =>
    let l ← l.closeAll
    .ok (l.push .streamEnd l.source.line, true)
  | some c =>
    if l.source.column == 0 && c == '%' then
      let line := l.source.line
      let l ← l.closeAll
      let (kind, s) ← directive l.source
      .ok ({ l.push kind line with source := s }, false)
    else if l.source.atDocumentMark then
      let l ← l.closeAll
      let kind := if c == '-' then Token.Kind.documentStart else .documentEnd
      .ok ({ l.push kind l.source.line with source := l.source.skipMany 3 }, false)
    else
      let l ← l.readToken c
      .ok (if l.allowsLineComment then l.skipLineComment else l, false)

/-- Reads tokens to the end of the text. When the text goes wrong, the tokens before that are
answered, but for the last two: a token counts only when the two after it can be read. -/
def runFrom : Nat → Lexer → List Token × Option Problem
  | 0, l => (l.tokens.reverse, some .noToken)
  | fuel + 1, l =>
    match l.step with
    | .error e => ((l.tokens.drop 2).reverse, some e)
    | .ok (l, true) => (l.tokens.reverse, none)
    | .ok (l, false) => runFrom fuel l

end Lexer

/-- The tokens of a document, and the problem that ends them. -/
def Token.ofSource (s : Source) : List Token × Option Problem :=
  Lexer.runFrom (s.rest.length + 2) { source := s }

end Linewise.Yaml
