import Linewise.Pattern.Syntax
import Linewise.Rule.Scan

/-!
# Line patterns

A line pattern rule flags the lines in which a search pattern occurs and mends nothing. Four of the
standard rules are of this kind.
-/

namespace Linewise.LinePattern

/-- Marks the lines in which a pattern occurs. -/
def visitor (p : Pattern) : Visitor Unit := fun _ c =>
  ((), if p.occursIn c.line then c.mark else c, .next)

/-- The rule that flags a pattern in files with one of some extensions, in all files when there are
none. -/
def rule (id description message : Bytes) (p : Pattern) (extensions : List Bytes) : Rule :=
  { id := id
    description := description
    message := message
    appliesTo := fun t => t.isFile && (extensions.isEmpty || extensions.contains t.extension)
    run := fun _ tree t =>
      let (t, s) := t.scan tree id (visitor p) ()
      Rule.report t t.path message [] s }

/-- The extensions of C and C++ sources and headers. -/
def sourceExtensions : List Bytes :=
  ["h", "hxx", "hpp", "c", "cc", "cxx", "cpp", "H", "C"].map utf8

/-- A pattern that is part of the program; its text is known to be well-formed. -/
def fixedPattern (text : String) : Pattern :=
  match Pattern.parse (utf8 text) with
  | .ok p => p
  | .error _ => .empty

def idTagPattern : Pattern := fixedPattern "(?i)^\\s*(\\*|//|#)\\s*\\$Id"

def aceErrorPattern : Pattern :=
  fixedPattern "(^|\\s+)(ACE_ERROR|ACE_ERROR_RETURN|ACE_DEBUG)(\\s+|$)"

def exitKeywordPattern : Pattern := fixedPattern "(^|\\s+)exit(\\s+|$)"

def namespacePattern : Pattern :=
  fixedPattern ("(TAOX11_NAMESPACE|TAOX11_CORBA|TAOX11_PORTABLE_SERVER)::|"
    ++ "namespace\\s+(TAOX11_NAMESPACE|TAOX11_CORBA|TAOX11_PORTABLE_SERVER)")

/-- The rule `check_id_tag`. -/
def idTag : Rule :=
  rule (utf8 "check_id_tag") (utf8 "checks against the use of the $Id$ tag")
    (utf8 "detected use of $Id:$") idTagPattern []

/-- The rule `check_ace_error`. -/
def aceError : Rule :=
  rule (utf8 "check_ace_error")
    (utf8 "checks against the use of the old ACE logging macros in test code")
    (utf8 "detected use of ACE_ERROR, ACE_DEBUG, and/or ACE_ERROR_RETURN") aceErrorPattern
    (sourceExtensions ++ [utf8 "asm"])

/-- The rule `check_exit_keyword`. -/
def exitKeyword : Rule :=
  rule (utf8 "check_exit_keyword") (utf8 "checks against the use of the exit keyword in test code")
    (utf8 "detected use of exit") exitKeywordPattern sourceExtensions

/-- The rule `check_taox11_namespace`. -/
def namespaceMacro : Rule :=
  rule (utf8 "check_taox11_namespace")
    (utf8 "checks against the use of the TAOX11_NAMESPACE macro in user/test code")
    (utf8 "detected use TAOX11_xxx namespace macro") namespacePattern sourceExtensions

end Linewise.LinePattern
