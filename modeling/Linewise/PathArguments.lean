import Linewise.Glob.Expansion
import Linewise.Quoted

/-!
# Path arguments

The arguments of a check are glob patterns. Each stands for the paths that it matches; one that
matches nothing stands for itself unless it is a real pattern, so that a missing file is reported.
Hidden paths count only for patterns that are hidden themselves.
-/

namespace Linewise.PathArguments

/-- An argument that is no well-formed pattern. -/
structure Error where
  argument : Bytes
  deriving DecidableEq, Repr

def Error.message (e : Error) : Bytes :=
  utf8 "invalid pattern " ++ Quoted.double e.argument ++ utf8 ": " ++ Glob.BadPattern.text

/-- The argument that stands for no arguments. -/
def everything : Bytes := utf8 "*"

/-- Whether an argument is a pattern rather than a path. -/
def isPattern (argument : Bytes) : Bool :=
  argument.any fun b => Glob.isMeta b || b == Glob.backslash

/-- Whether the last element of a path hides it. -/
def isHidden (path : Bytes) : Bool :=
  let name := Path.base path
  Path.startsWithDot name && name != Path.here && name != Path.up

/-- The paths that one argument stands for. -/
def expandOne (t : FileTree) (argument : Bytes) : Except Error (List Bytes) :=
  match Glob.paths t argument with
  | .error _ => .error ⟨argument⟩
  | .ok [] => .ok (if isPattern argument then [] else [argument])
  | .ok found => .ok (found.filter fun path => isHidden argument || !isHidden path)

/-- The paths that arguments stand for, each once, given the paths so far. -/
def expandFrom (t : FileTree) : List Bytes → List Bytes → Except Error (List Bytes)
  | done, [] => .ok done
  | done, argument :: rest =>
    match expandOne t argument with
    | .error e => .error e
    | .ok found => expandFrom t (appendNew done found) rest

/-- The paths that the arguments of a check stand for, each once. -/
def expand (t : FileTree) (arguments : List Bytes) : Except Error (List Bytes) :=
  expandFrom t [] (if arguments.isEmpty then [everything] else arguments)

end Linewise.PathArguments
