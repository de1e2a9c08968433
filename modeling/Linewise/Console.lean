import Linewise.Log
import Linewise.Utf8

/-!
# The console

How messages and the summary of a run are written out: with the time of day, the level and, on a
terminal, in color. Messages below the level of the console are not written.
-/

namespace Linewise

namespace Level

/-- All levels, from the least important up. -/
def all : List Level := [trace, debug, info, warn, error]

/-- The position of a level among all levels. -/
def rank : Level → Nat
  | trace => 0
  | debug => 1
  | info => 2
  | warn => 3
  | error => 4

/-- The name of a level. -/
def name : Level → Bytes
  | trace => utf8 "trace"
  | debug => utf8 "debug"
  | info => utf8 "info"
  | warn => utf8 "warn"
  | error => utf8 "error"

/-- The name of a level in messages. -/
def tag : Level → Bytes
  | trace => utf8 "TRACE"
  | debug => utf8 "DEBUG"
  | info => utf8 "INFO"
  | warn => utf8 "WARN"
  | error => utf8 "ERROR"

/-- The level with a name, in any case and with blanks around it; `info` when there is none. -/
def ofName (text : Bytes) : Level :=
  let wanted := Bytes.lower (Utf8.trim text)
  (all.find? fun l => l.name == wanted).getD info

/-- The level for a number of verbosity flags. -/
def ofVerbosity (n : Int) : Level :=
  if n ≤ 0 then warn else if n == 1 then info else if n == 2 then debug else trace

end Level

/-- Ways to highlight text on a terminal. -/
inductive Highlight where
  | gray
  | cyan
  | blue
  | yellow
  | red
  | green
  | bold
  deriving DecidableEq, Repr

/-- The code that switches a highlight on. -/
def Highlight.on : Highlight → Bytes
  | gray => utf8 "90"
  | cyan => utf8 "36"
  | blue => utf8 "34"
  | yellow => utf8 "33"
  | red => utf8 "31"
  | green => utf8 "32"
  | bold => utf8 "1"

/-- The code that switches a highlight off. -/
def Highlight.off : Highlight → Bytes
  | bold => utf8 "22"
  | _ => utf8 "0"

/-- A terminal control sequence. -/
def Highlight.control (codes : List Bytes) : Bytes :=
  [27] ++ utf8 "[" ++ Bytes.joinWith (utf8 ";") codes ++ utf8 "m"

/-- Text with highlights. -/
def Highlight.paint (hs : List Highlight) (text : Bytes) : Bytes :=
  control (hs.map on) ++ text ++ control (hs.map off)

/-- The highlights of a level. -/
def Level.highlights : Level → List Highlight
  | trace => [.gray]
  | debug => [.cyan]
  | info => [.blue]
  | warn => [.yellow, .bold]
  | error => [.red, .bold]

/-- A length of time in words, from nanoseconds: the two or three largest units. -/
def durationText (ns : Int) : Bytes :=
  let unit (n : Int) (suffix : String) : Bytes := Bytes.ofInt n ++ utf8 suffix
  let second : Int := 1000000000
  let minute := 60 * second
  let hour := 60 * minute
  if ns ≥ hour then
    let rest := ns % hour
    if rest == 0 then unit (ns / hour) "h"
    else if rest % minute == 0 then unit (ns / hour) "h" ++ unit (rest / minute) "m"
    else
      unit (ns / hour) "h" ++ unit (rest / minute) "m" ++ unit (rest % minute / second) "s"
  else if ns ≥ minute then
    if ns % minute == 0 then unit (ns / minute) "m"
    else unit (ns / minute) "m" ++ unit (ns % minute / second) "s"
  else if ns ≥ second then unit (ns / second) "s"
  else unit (ns.tdiv 1000000) "ms"

/-- A place to write messages to. -/
structure Console where
  level : Level := .info
  color : Bool := false

/-- The time of day. -/
structure Clock where
  hour : Nat := 0
  minute : Nat := 0
  second : Nat := 0

def Clock.text (c : Clock) : Bytes :=
  Bytes.joinWith (utf8 ":") ([c.hour, c.minute, c.second].map (Bytes.padded 2))

namespace Console

/-- Whether messages of a level are written. -/
def shows (c : Console) (l : Level) : Bool := l.rank ≥ c.level.rank

/-- Text with highlights, when the console has color. -/
def paint (c : Console) (hs : List Highlight) (text : Bytes) : Bytes :=
  if c.color then Highlight.paint hs text else text

/-- What is written for a message. -/
def line (c : Console) (clock : Bytes) (m : Message) : Bytes :=
  if c.shows m.level then
    utf8 "[" ++ clock ++ utf8 "] [" ++ c.paint m.level.highlights m.level.tag ++ utf8 "] " ++
      m.text ++ utf8 "\n"
  else []

/-- What is written for messages, one after the other. -/
def transcript (c : Console) (clock : Bytes) (l : Log) : Bytes := l.flatMap (c.line clock)

/-- The counters of a run, as the summary shows them. -/
structure Summary where
  targets : Int
  failed : Int
  aborted : Int
  fixed : Int

/-- What is written at the end of a run; `duration` is a text. -/
def summary (c : Console) (clock : Bytes) (s : Summary) (duration : Bytes) : Bytes :=
  if c.shows .info then
    let count (n : Int) (what : String) : Bytes := Bytes.ofInt n ++ utf8 what
    let failed := c.paint [if s.failed > 0 then .red else .green] (count s.failed " failed")
    let aborted := count s.aborted " aborted"
    let aborted := if s.aborted > 0 then c.paint [.red] aborted else aborted
    let fixed := count s.fixed " fixed"
    let fixed := if s.fixed > 0 then c.paint [.yellow] fixed else fixed
    utf8 "[" ++ clock ++ utf8 "] Checked " ++ c.paint [.cyan] (Bytes.ofInt s.targets) ++
      utf8 " targets: " ++ failed ++ utf8 ", " ++ aborted ++ utf8 ", " ++ fixed ++ utf8 " (" ++
      duration ++ utf8 ")\n"
  else []

end Console

end Linewise
