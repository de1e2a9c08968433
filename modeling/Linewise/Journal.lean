import Linewise.Console
import Linewise.FileTree.Change

/-!
# Journals

A run looks at a file tree and tells what it does in messages. The messages are kept in a log. When
a report is open they are also the content of a file in the tree, where the run itself may come
across them: `Journal.view` is the tree as the run sees it.
-/

namespace Linewise

/-- A report: a file that holds what a console shows of the log. -/
structure Report where
  /-- The identity of the file. -/
  file : Nat
  console : Console
  /-- The time of day that the messages carry. -/
  clock : Bytes

/-- The text of a report on a log. -/
def Report.text (r : Report) (l : Log) : Bytes := r.console.transcript r.clock l

/-- A file tree and what was said about it so far. -/
structure Journal where
  tree : FileTree
  log : Log := []
  /-- The report, when one is open. -/
  report : Option Report := none

/-- The tree with the report on the log so far in it. -/
def Journal.view (j : Journal) : FileTree :=
  match j.report with
  | none => j.tree
  | some r => j.tree.writeIdentity r.file (r.text j.log)

end Linewise
