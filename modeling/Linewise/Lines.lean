import Linewise.Bytes

/-!
# Lines

A text is cut into lines after every line feed, so that the lines put together are the text again.
-/

namespace Linewise.Lines

/-- The lines of a text, terminators kept. -/
def split : Bytes → List Bytes
  | [] => []
  | b :: rest =>
    if b == Bytes.newline then [b] :: split rest
    else
      match split rest with
      | [] => [[b]]
      | line :: lines => (b :: line) :: lines

end Linewise.Lines
