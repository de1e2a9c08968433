import Linewise.Proofs.PathResolution
import Linewise.Proofs.WalkFrames

/-!
# The targets of a walk

A walk handles at most one target for every path that it comes to. Which one depends on what the path
leads to when the walk gets there.
-/

namespace Linewise.Session

variable {e : Engine}

section Record

variable {α : Type} {record : Session → List α} {adds : Session → Bytes → Option α}

variable (halone : ∀ s path, record (s.visitAlone e path).1 = record s ++ (adds s path).toList)
  (hcut : ∀ s : Session, record { s with cutOff := true } = record s)
include halone hcut

end Record

end Linewise.Session
