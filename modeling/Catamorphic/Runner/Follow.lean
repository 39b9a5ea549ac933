import Catamorphic.Lib.JsString
import Catamorphic.Lib.Utf8Encode
import Catamorphic.Runner.ProcessOutput

/-!
# Following a process

A follower reads a process's output page by page until the process has exited, a complete line
matches, the time is up or it is called off. The end of a page may cut a line: what there is of it
waits for the next page. A follower that is too far behind skips what it has not read.
-/

namespace Catamorphic.Runner.Follow

open Utf8

/-! ## The output kept -/

/-- The start and the end of long output, `limit` characters. -/
structure OutputWindow where
  limit : Nat
  head : Text
  tail : Text
  omitted : Nat
  deriving DecidableEq

namespace OutputWindow

def empty (limit : Nat) : OutputWindow := ⟨limit, [], [], 0⟩

/-- `text.slice(-count)`: for no characters it is the whole text. -/
def lastOf (count : Nat) (text : Text) : Text :=
  if count = 0 then text else text.drop (text.length - count)

def append (window : OutputWindow) (text : Text) : OutputWindow :=
  let headLimit := window.limit / 3
  let tailLimit := window.limit - headLimit
  let room := headLimit - window.head.length
  let tail := window.tail ++ text.drop room
  if tailLimit < tail.length then
    { window with
      head := window.head ++ text.take room
      tail := lastOf tailLimit tail
      omitted := window.omitted + (tail.length - tailLimit) }
  else { window with head := window.head ++ text.take room, tail }

def toText (window : OutputWindow) : Text :=
  if 0 < window.omitted then
    window.head ++ Text.ofString s!"\n[… {window.omitted} characters omitted …]\n" ++ window.tail
  else window.head ++ window.tail

end OutputWindow

/-! ## The loop -/

inductive Until
  /-- The end, or the time that is given. -/
  | none
  /-- Any new output. -/
  | output
  /-- A line that a regular expression without flags finds. -/
  | line (found : List Char → Bool)

def Until.test : Until → List Char → Bool
  | .line found, text => found text
  | _, _ => false

def Until.isOutput : Until → Bool
  | .output => true
  | _ => false

structure Args where
  cursor : Nat
  untilLine : Until
  outputLimit : Nat
  backlogBytes : Nat

/--
What one turn finds: how much the process has written, whether it has exited, how long a page
is, and then whether the deadline has passed and whether the follower is called off.
-/
structure Turn where
  size : Nat
  exited : Bool
  maxBytes : Nat
  late : Bool
  aborted : Bool
  deriving DecidableEq, Repr

structure Loop where
  cursor : Nat
  output : OutputWindow
  partialLine : List Char
  matched : Option (List Char)
  sawOutput : Bool

def Loop.initial (args : Args) : Loop where
  cursor := args.cursor
  output := .empty args.outputLimit
  partialLine := []
  matched := none
  sawOutput := false

structure Result where
  output : Text
  cursor : Nat
  exited : Bool
  matched : Option (List Char)
  timedOut : Bool
  aborted : Bool
  deriving DecidableEq

section

variable (args : Args) (output : List UInt8)

/-- `test`: a line counts where none has matched before. -/
def testLine (matched : Option (List Char)) (line : List Char) : Option (List Char) :=
  match matched with
  | some found => some found
  | none => if args.untilLine.test line then some line else none

def readOf (loop : Loop) (turn : Turn) : ProcessOutput :=
  readProcessOutput output turn.size turn.exited loop.cursor turn.maxBytes

/-- The chunk of a read, in lines. -/
def Loop.take (loop : Loop) (read : ProcessOutput) : Loop :=
  if read.chunk = [] then { loop with cursor := read.nextCursor }
  else
    let split := Lines.split '\n' (loop.partialLine ++ read.chunk)
    { cursor := read.nextCursor
      output := loop.output.append (Text.ofChars read.chunk)
      partialLine := split.2
      matched := split.1.foldl (testLine args) loop.matched
      sawOutput := true }

/-- Where a follower that is behind goes on. -/
def skipTo (read : ProcessOutput) : Option Nat :=
  if args.backlogBytes < read.outputBytes - read.nextCursor then
    some (read.outputBytes - args.backlogBytes)
  else none

def Loop.skip (loop : Loop) (read : ProcessOutput) : Loop :=
  match skipTo args read with
  | none => loop
  | some cursor =>
    { loop with
      cursor
      output := loop.output.append (Text.ofString
        s!"\n[… {read.outputBytes - read.nextCursor - args.backlogBytes} bytes skipped …]\n")
      partialLine := [] }

/-- The last line of a process that has exited may have no newline. -/
def Loop.atEnd (loop : Loop) (read : ProcessOutput) : Loop :=
  if read.exited && !read.more && loop.partialLine ≠ [] then
    { loop with matched := testLine args loop.matched loop.partialLine }
  else loop

def Loop.turn (loop : Loop) (turn : Turn) : Loop :=
  let read := readOf output loop turn
  ((loop.take args read).skip args read).atEnd args read

/-- What is returned after a turn, where the loop ends with it. -/
def answer (read : ProcessOutput) (turn : Turn) (loop : Loop) : Option Result :=
  let exited := read.exited && !read.more
  let done := exited || ((!read.more || turn.late) &&
    (loop.matched.isSome || (args.untilLine.isOutput && loop.sawOutput)))
  let timedOut := !done && turn.late && !read.exited
  let aborted := !done && turn.aborted
  if done || timedOut || aborted then
    some { output := loop.output.toText, cursor := loop.cursor, exited := read.exited,
           matched := loop.matched, timedOut, aborted }
  else none

/-- `followProcess`: the turns that were taken, and what it returned after the last. -/
inductive Follows : Loop → List Turn → Result → Prop
  | done {loop : Loop} {turn : Turn} {result : Result} :
      answer args (readOf output loop turn) turn (loop.turn args output turn) = some result →
      Follows loop [turn] result
  | next {loop : Loop} {turn : Turn} {turns : List Turn} {result : Result} :
      answer args (readOf output loop turn) turn (loop.turn args output turn) = none →
      Follows (loop.turn args output turn) turns result → Follows loop (turn :: turns) result

/-- The process writes on, and has written all of its output when it has exited. -/
def Written : Loop → Nat → List Turn → Prop
  | _, _, [] => True
  | loop, least, turn :: turns => least ≤ turn.size ∧ turn.size ≤ output.length ∧
      (turn.exited = true → turn.size = output.length) ∧
      Written (loop.turn args output turn) turn.size turns

end

end Catamorphic.Runner.Follow
