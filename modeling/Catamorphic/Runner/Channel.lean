import Catamorphic.Lib.JsString
import Catamorphic.Lib.Runs
import Catamorphic.Runner.ProcessOutput

/-!
# A sandbox runner's channel

A runner writes its frames as lines of its process's output, each starting with a record
separator; anything else there is a diagnostic line. `sandboxChannel.read` asks for pages
of output until it has something to answer with, and answers with a cursor the next read
starts at, whoever makes it. Here a read is taken a page at a time: the process writes on
between two pages, the reader may stop between them, and another may take over from the
last cursor that was answered.
-/

namespace Catamorphic.Runner

open Utf8

/-- The longest frame line a runner writes, in bytes. -/
def RUNNER_LINE_MAX_BYTES : Nat := 8 * 1024 * 1024

/-- Pages one read passes over inside a skipped line before answering. -/
def SKIP_PAGES : Nat := 8

/-- Characters of one diagnostic line kept for the log. -/
def DIAGNOSTIC_CHARS : Nat := 4000

def FRAME_MARK : Char := Char.ofNat 0x1E

/-- A line that carries a frame, without its mark. -/
def framePayload (line : List Char) : Option (List Char) :=
  let trimmed := if line.getLast? = some '\r' then line.dropLast else line
  match trimmed with
  | c :: payload => if c = FRAME_MARK then some payload else none
  | [] => none

def diagnostic (line : List Char) : Text :=
  let text := Text.ofChars line
  if DIAGNOSTIC_CHARS < text.length then
    text.take DIAGNOSTIC_CHARS ++ Text.ofString " [" ++
      Text.ofString (toString (text.length - DIAGNOSTIC_CHARS)) ++
      Text.ofString " more characters]"
  else text

def skippedLine (bytes : Nat) : Text :=
  Text.ofString "[A " ++ Text.ofString (toString bytes) ++
    Text.ofString "-byte line of output, longer than any runner frame, was skipped]"

/-- A read while it runs: what it has, and the incomplete line just before `position`. -/
structure Loop (Frame : Type) where
  position : Int
  partialText : List Char
  partialBytes : Nat
  /-- Bytes passed over so far of a line longer than any frame. -/
  skipped : Option Nat
  pages : Nat
  frames : List Frame
  diagnostics : List Text

section Read

-- `parseFrame`: the frame a payload is, or none where it throws
variable {Frame : Type} (parseFrame : List Char → Option Frame)

namespace Loop

/-- A read starts, perhaps inside a line this channel is skipping. -/
def start (cursor : Int) (skipping : Option (Int × Nat)) : Loop Frame :=
  { position := cursor, partialText := [], partialBytes := 0
    skipped := match skipping with
      | some (at_, bytes) => if at_ = cursor then some bytes else none
      | none => none
    pages := 0, frames := [], diagnostics := [] }

/-- One complete line. -/
def take (l : Loop Frame) (line : List Char) : Loop Frame :=
  match framePayload line with
  | none =>
    if Text.trim line = [] then l
    else { l with diagnostics := l.diagnostics ++ [diagnostic line] }
  | some payload =>
    match parseFrame payload with
    | some frame => { l with frames := l.frames ++ [frame] }
    | none => { l with diagnostics := l.diagnostics ++ [diagnostic line] }

/-- The text of a page inside a skipped line: what is left after that line. -/
def passOver (l : Loop Frame) (text : List Char) : Loop Frame × List Char :=
  match l.skipped with
  | none => (l, text)
  | some bytes =>
    let line := text.takeWhile (fun c => c ≠ '\n')
    match text.dropWhile (fun c => c ≠ '\n') with
    | [] => ({ l with skipped := some (bytes + byteLength text) }, [])
    | _ :: later =>
      ({ l with
          skipped := none
          diagnostics := l.diagnostics ++ [skippedLine (bytes + byteLength line)] }, later)

/-- The lines of a page's text, the first of them begun on earlier pages. -/
def takeText (l : Loop Frame) (text : List Char) : Loop Frame :=
  let split := Lines.split '\n' text
  let taken := match split.1 with
    | [] => l
    | first :: lines => lines.foldl (take parseFrame)
        { take parseFrame l (l.partialText ++ first) with partialText := [], partialBytes := 0 }
  { taken with
    partialText := taken.partialText ++ split.2
    partialBytes := taken.partialBytes + byteLength split.2 }

/-- No runner writes a line this long: it is skipped, not held. -/
def dropLong (l : Loop Frame) : Loop Frame :=
  if RUNNER_LINE_MAX_BYTES < l.partialBytes then
    { l with skipped := some l.partialBytes, partialText := [], partialBytes := 0 }
  else l

/-- The last line has no newline, and never will. -/
def finish (l : Loop Frame) : Loop Frame :=
  let l := match l.skipped with
    | some bytes =>
      { l with skipped := none, diagnostics := l.diagnostics ++ [skippedLine bytes] }
    | none => l
  let l := if 0 < l.partialBytes then take parseFrame l l.partialText else l
  { l with partialText := [], partialBytes := 0 }

def Incomplete (l : Loop Frame) : Bool := decide (0 < l.partialBytes) || l.skipped.isSome

/-- What a page's text makes of the loop. -/
def readText (l : Loop Frame) (output : ProcessOutput) : Loop Frame :=
  let passed := passOver { l with position := output.nextCursor } output.chunk
  dropLong (takeText parseFrame passed.1 passed.2)

/-- One page; the second part says that the read answers after it. -/
def onPage (l : Loop Frame) (output : ProcessOutput) (timeLeft : Bool) : Loop Frame × Bool :=
  let l := readText parseFrame l output
  if output.exited && !output.more then (finish parseFrame l, true)
  else if output.more then
    -- a skipped line is passed over a few pages per read at most
    let l := { l with pages := l.pages + 1 }
    (l, !l.Incomplete || (l.skipped.isSome && decide (SKIP_PAGES < l.pages)))
  else if !l.frames.isEmpty || !l.diagnostics.isEmpty || !l.Incomplete then (l, true)
  else (l, output.chunk.isEmpty || !timeLeft)

/-- An incomplete line is read again from its start by the next read. -/
def next (l : Loop Frame) : Int :=
  if l.skipped.isNone then l.position - l.partialBytes else l.position

end Loop

/-! ## The channel over time -/

/-- A runner's output so far, the last answer, and the reader. -/
structure State (Frame : Type) where
  /-- Bytes of the output written so far. -/
  written : Nat
  exited : Bool
  /-- The cursor the last read answered with. -/
  cursor : Int
  /-- A line being skipped: where this channel's last read left off inside it. -/
  skipping : Option (Int × Nat)
  loop : Option (Loop Frame)
  /-- Every frame returned so far. -/
  frames : List Frame
  /-- A read answered that the runner is gone and everything it wrote was read. -/
  reportedExit : Bool

def State.init : State Frame :=
  { written := 0, exited := false, cursor := 0, skipping := none, loop := none, frames := []
    reportedExit := false }

inductive Event where
  /-- The process writes some more of its output. -/
  | write (bytes : Nat)
  /-- The process exits, with all of its output written. -/
  | exit
  /-- A read starts at the last cursor. -/
  | begin
  /-- A page of the read: at most so many bytes; and whether time is left to wait on. -/
  | page (maxBytes : Nat) (timeLeft : Bool)
  /-- A page could not be read: the read throws. -/
  | fail
  /-- A new reader, from the last cursor. -/
  | reattach
deriving DecidableEq, Repr

variable (output : List UInt8)

/-- The page a read gets next. -/
def State.nextPage (s : State Frame) (l : Loop Frame) (maxBytes : Nat) : ProcessOutput :=
  readProcessOutput output s.written s.exited l.position maxBytes

/-- The read answers. -/
def State.answer (s : State Frame) (l : Loop Frame) (page : ProcessOutput) : State Frame :=
  { s with
    cursor := l.next
    skipping := l.skipped.map (fun bytes => (l.position, bytes))
    loop := none
    frames := s.frames ++ l.frames
    reportedExit := s.reportedExit ||
      (page.exited && !page.more && decide ((page.outputBytes : Int) ≤ l.next)) }

def step (s : State Frame) : Event → Option (State Frame)
  | .write bytes =>
    if s.exited = false ∧ s.written + bytes ≤ output.length then
      some { s with written := s.written + bytes }
    else none
  | .exit => if s.written = output.length then some { s with exited := true } else none
  | .begin =>
    match s.loop with
    | none => some { s with loop := some (.start s.cursor s.skipping) }
    | some _ => none
  | .page maxBytes timeLeft =>
    match s.loop with
    | none => none
    | some l =>
      let page := s.nextPage output l maxBytes
      let after := l.onPage parseFrame page timeLeft
      if after.2 then some (s.answer after.1 page)
      else some { s with loop := some after.1 }
  | .fail => some { s with loop := none }
  | .reattach => some { s with loop := none, skipping := none }

end Read

end Catamorphic.Runner
