import Linewise.FileTree.Basic

/-!
# Listings

A listing shows everything below a place of a file tree in pre-order, the entries of every directory
in byte order of their names.
-/

namespace Linewise

/-- One line of a listing. -/
inductive Listing.Item where
  | directory (path : Bytes)
  | link (path target : Bytes)
  | file (path : Bytes) (mode : Nat) (content : Bytes)
  | special (path : Bytes) (kind : Special)
  deriving DecidableEq, Repr

namespace Listing

/-- The path of an entry below `above`, the empty path being the top. -/
def below (above name : Bytes) : Bytes :=
  if above.isEmpty then name else above ++ [Path.slash] ++ name

/-- The order of the entries of a listing. -/
def entryLe (a b : Bytes × List Item) : Bool := Bytes.le a.1 b.1

mutual

/-- The listing of a node whose path is `path`, with everything below it. -/
def ofNode (path : Bytes) : Node → List Item
  | .file _ mode content => [.file path mode content]
  | .link target => [.link path target]
  | .special _ kind _ => [.special path kind]
  | .directory _ entries =>
    .directory path :: ((ofEntries path entries).mergeSort entryLe).flatMap Prod.snd

/-- The listings of the entries of a directory, each with its name. -/
def ofEntries (above : Bytes) : List (Bytes × Node) → List (Bytes × List Item)
  | [] => []
  | (name, n) :: rest => (name, ofNode (below above name) n) :: ofEntries above rest

end

/-- Everything below a place, paths relative to it. -/
def ofPlace (t : FileTree) (place : Place) : List Item :=
  match t.root.get? place with
  | some (.directory _ entries) => ((ofEntries [] entries).mergeSort entryLe).flatMap Prod.snd
  | _ => []

end Listing

end Linewise
