import Catamorphic.Git.Paths
import Catamorphic.Lib.Utf8Encode

/-!
# The Git gateway

Sandboxes push through a gateway that looks at a push before the remote does. It buffers
the request body until the commands are in, reads them out of the pkt-lines, reviews each
ref against the binding's push rules and the remote's default branch, and then hands on the
buffered bytes and the rest of the stream as they came.

What the gateway asks of others is a parameter: the inflated stream of a gzip body, the
remote's advertisement, and the broker's answer.
-/

namespace Catamorphic.Git.Gateway

abbrev Bytes := List UInt8

/-- What a handler throws. -/
inductive Failure where
  /-- `new GitGatewayError(400, "The gateway cannot read this push")` -/
  | unreadable
  /-- `new Error("Malformed pkt-line")` -/
  | malformed
  /-- `new Error("Unexpected pkt-line")` -/
  | unexpected
  /-- The request's stream broke off. -/
  | broken
  /-- The remote would not list its branches, or the broker failed. -/
  | unavailable
deriving DecidableEq, Repr

/-! ## pkt-lines -/

/-- The value of a hexadecimal digit of either case. -/
def hexDigit (c : Char) : Option Nat :=
  let n := c.toNat
  if 0x30 ≤ n ∧ n ≤ 0x39 then some (n - 0x30)
  else if 0x61 ≤ n ∧ n ≤ 0x66 then some (n - 0x61 + 10)
  else if 0x41 ≤ n ∧ n ≤ 0x46 then some (n - 0x41 + 10)
  else none

/-- The number that hexadecimal digits stand for, the first ones counted already. -/
def hexFrom (value : Nat) : List Nat → Nat
  | [] => value
  | d :: ds => hexFrom (value * 16 + d) ds

/-- The digits at the front of a text. -/
def leadingDigits : List Char → List Nat
  | [] => []
  | c :: cs =>
    match hexDigit c with
    | some d => d :: leadingDigits cs
    | none => []

/-- A text without `0x` or `0X` at its front. -/
def withoutPrefix : List Char → List Char
  | '0' :: x :: rest => if x = 'x' ∨ x = 'X' then rest else '0' :: x :: rest
  | text => text

/-- `Number.parseInt(text, 16)`: white space, a sign and `0x` may come first, and whatever
follows the digits is left unread. -/
def parseInt16 (text : List Char) : Option Int :=
  let trimmed := text.dropWhile Text.isSpace
  let negative := trimmed.head? = some '-'
  let unsigned := if trimmed.head? = some '-' ∨ trimmed.head? = some '+' then trimmed.tail
    else trimmed
  match leadingDigits (withoutPrefix unsigned) with
  | [] => none
  | d :: ds => some (if negative then -(hexFrom d ds : Int) else hexFrom d ds)

/-- The pkt-lines at the front of `buffer` up to a flush, and what follows the flush; `none`
while `buffer` does not hold a flush. -/
def readPktSection (buffer : Bytes) : Except Failure (Option (List Bytes × Bytes)) :=
  if _h : 4 ≤ buffer.length then
    match parseInt16 (Utf8.decodeText (buffer.take 4)) with
    | none => .error .malformed
    | some size =>
      if size = 0 then .ok (some ([], buffer.drop 4))
      else if _hs : size < 4 then .error .unexpected
      else if (buffer.length : Int) < size then .ok none
      else
        match readPktSection (buffer.drop size.toNat) with
        | .error e => .error e
        | .ok none => .ok none
        | .ok (some (lines, rest)) =>
          .ok (some ((buffer.take size.toNat).drop 4 :: lines, rest))
  else .ok none
termination_by buffer.length
decreasing_by
  rw [List.length_drop]
  omega

/-! ## Commands -/

structure RefUpdate where
  oldId : List Char
  newId : List Char
  ref : List Char
deriving DecidableEq, Repr

/-- `text.includes(part)` -/
def includes (text part : List Char) : Bool := text.tails.any part.isPrefixOf

/-- Characters no ref holds. -/
def badInRef (c : Char) : Bool := c.toNat ≤ 0x20 || c.toNat == 0x7F || "~^:?*[\\".toList.contains c

def isValidRefName (ref : List Char) : Bool :=
  "refs/".toList.isPrefixOf ref && (Text.ofChars ref).length ≤ 1024 &&
    !("/".toList.isSuffixOf ref || ".".toList.isSuffixOf ref) &&
    !(includes ref "..".toList || includes ref "@\x7b".toList || includes ref "//".toList) &&
    !ref.any badInRef &&
    (segmentsOf ref).all (fun component =>
      0 < component.length && !".".toList.isPrefixOf component &&
        !".lock".toList.isSuffixOf component)

/-- `[0-9a-f]` -/
def isHex (c : Char) : Bool :=
  (0x30 ≤ c.toNat && c.toNat ≤ 0x39) || (0x61 ≤ c.toNat && c.toNat ≤ 0x66)

/-- An object id of either hash, and what follows it. -/
def takeId {α : Type} (hex : α → Bool) (s : List α) : Option (List α × List α) :=
  let id := s.takeWhile hex
  if id.length = 40 ∨ id.length = 64 then some (id, s.dropWhile hex) else none

/-- `/^shallow ([0-9a-f]{40}|[0-9a-f]{64})$/.test(text)` -/
def isShallow (text : List Char) : Bool :=
  "shallow ".toList.isPrefixOf text &&
    match takeId isHex (text.drop 8) with
    | some (_, rest) => rest = []
    | none => false

/-- `/^([0-9a-f]{40}|[0-9a-f]{64}) ([0-9a-f]{40}|[0-9a-f]{64}) (refs\/\S+)$/` and a ref that
git accepts. -/
def readCommand (text : List Char) : Option RefUpdate :=
  match takeId isHex text with
  | some (oldId, ' ' :: second) =>
    match takeId isHex second with
    | some (newId, ' ' :: ref) =>
      if "refs/".toList.isPrefixOf ref ∧ 5 < ref.length ∧ (ref.all fun c => !Text.isSpace c) ∧
          isValidRefName ref then some ⟨oldId, newId, ref⟩
      else none
    | _ => none
  | _ => none

/-- The text of a pkt-line, without its newline. -/
def lineText (raw : Bytes) : List Char := Lines.chomp '\n' (Utf8.decodeText raw)

/-- `text.split("\0", 2)`: what stands before the first NUL, and what stands after it up to
the next. -/
def splitNul (text : List Char) : List Char × Option (List Char) :=
  (text.takeWhile (· ≠ '\x00'), match text.dropWhile (· ≠ '\x00') with
    | [] => none
    | _ :: rest => some (rest.takeWhile (· ≠ '\x00')))

/-- `text.split(" ").filter(Boolean)` -/
def words (text : List Char) : List (List Char) := (text.splitOn ' ').filter (· ≠ [])

/-- One command, or the refusal to go on. -/
def command (text : List Char) : Except Failure RefUpdate :=
  match readCommand text with
  | some c => .ok c
  | none => .error .unreadable

def parseReceivePackCommands (lines : List Bytes) :
    Except Failure (List RefUpdate × List (List Char)) := do
  let texts := lines.map lineText
  let updates := texts.filter (fun text => !isShallow text)
  let (firstCommand, caps) := splitNul (updates.head?.getD [])
  let commands ← (updates.mapIdx fun index text => if index = 0 then firstCommand else text).mapM
    command
  return (commands, (caps.map words).getD [])

/-! ## Policy -/

/-- The branch HEAD names in an upload-pack advertisement, if any: the first
`symref=HEAD:<ref>` at the start of the capabilities or after a space. -/
def symrefOf (caps : List Char) : Option (List Char) :=
  (' ' :: caps).tails.findSome? fun rest =>
    if " symref=HEAD:".toList.isPrefixOf rest then
      match (rest.drop 13).takeWhile (fun c => !Text.isSpace c) with
      | [] => none
      | ref => some ref
    else none

def advertisedDefaultBranch (body : Bytes) : Except Failure (Option (List Char)) := do
  let first ← readPktSection body
  let refs ← match first with
    | some (_, rest) => readPktSection rest
    | none => pure none
  let head := fun (read? : Option (List Bytes × Bytes)) => read?.bind (·.1.head?)
  match (head refs).or (head first) with
  | none => return none
  | some line =>
    let caps := (splitNul (Utf8.decodeText line)).2.getD []
    return (symrefOf caps).filter isValidRefName

/-- A line terminator, which `.` does not match. -/
def isTerminator (c : Char) : Bool :=
  c == '\n' || c == '\r' || c.toNat == 0x2028 || c.toNat == 0x2029

/-- `.*` at the front of a text, and then `next`. -/
def anyThen (next : List Char → Bool) : List Char → Bool
  | [] => next []
  | c :: cs => next (c :: cs) || (!isTerminator c && anyThen next cs)

/-- The whole text is the parts in their order, with `.*` between them. -/
def matchParts : List (List Char) → List Char → Bool
  | [], text => text = []
  | [part], text => text = part
  | part :: parts, text => part.isPrefixOf text && anyThen (matchParts parts)
    (text.drop part.length)

/-- A push rule in full: one that names no `refs/` is about branches. -/
def fullPattern (pattern : List Char) : List Char :=
  if "refs/".toList.isPrefixOf pattern then pattern else "refs/heads/".toList ++ pattern

def refMatches (ref pattern : List Char) : Bool :=
  matchParts ((fullPattern pattern).splitOn '*') ref

/-- `/^0+$/.test(id)` -/
def isZero (id : List Char) : Bool := id ≠ [] && id.all (· = '0')

def DEFAULT_PUSH_PATTERNS : List (List Char) := ["work/*".toList]

/-- Refusal reasons by ref, as a map that keeps the place of a key it has. -/
abbrev Reasons := List (List Char × List Char)

def setReason (reasons : Reasons) (ref reason : List Char) : Reasons :=
  if reasons.any (·.1 = ref) then reasons.map fun r => if r.1 = ref then (ref, reason) else r
  else reasons ++ [(ref, reason)]

/-- Why one update is refused. -/
def refusal (patterns : List (List Char)) (defaultBranch : Option (List Char))
    (update : RefUpdate) : Option (List Char) :=
  if defaultBranch.getD [] = [] then
    some "the remote names no default branch, so the gateway cannot check this push".toList
  else if isZero update.newId then some "Work does not delete refs through the gateway".toList
  else if defaultBranch = some update.ref then
    some ("the default branch is never pushed through the gateway; " ++
      "push a work/ branch and open a pull request").toList
  else if !patterns.any (refMatches update.ref) then
    some ("this session may push only ".toList ++ ", ".toList.intercalate patterns)
  else none

/-- The refusals, or `none` to allow the push. -/
def reviewPush (commands : List RefUpdate) (patterns : List (List Char))
    (defaultBranch : Option (List Char)) : Option Reasons :=
  let refusals := commands.foldl (fun reasons update =>
    match refusal patterns defaultBranch update with
    | some reason => setReason reasons update.ref reason
    | none => reasons) []
  if 0 < refusals.length then some refusals else none

/-! ## A push -/

/-- A stream: its chunks, and whether it breaks off after them. -/
structure Stream where
  chunks : List Bytes
  broken : Bool
deriving DecidableEq, Repr

def MAX_COMMAND_BYTES : Nat := 1024 * 1024

/-- `body.readUntil(complete, limit)`: chunks are pulled until what is buffered is complete. The
chunks that were not pulled are left. -/
def readUntil (complete : Bytes → Except Failure Bool) (limit : Nat) (broken : Bool) :
    Bytes → List Bytes → Except Failure (Bytes × List Bytes)
  | buffer, [] => do
    if ← complete buffer then return (buffer, [])
    else if limit < buffer.length then .error .unreadable
    else if broken then .error .broken
    else .error .unreadable
  | buffer, chunk :: chunks => do
    if ← complete buffer then return (buffer, chunk :: chunks)
    else if limit < buffer.length then .error .unreadable
    else readUntil complete limit broken (buffer ++ chunk) chunks

structure Request where
  contentEncoding : Option (List Char)
  body : Stream
deriving DecidableEq, Repr

/-- `/gzip/i.test(request.headers["content-encoding"] ?? "")` -/
def isGzip (request : Request) : Bool :=
  includes ((request.contentEncoding.getD []).map Char.toLower) "gzip".toList

/-- The broker's answer to a request for write access. -/
inductive Access where
  | denied (reason : List Char)
  | failed
  | granted (push : Option (List (List Char)))
deriving DecidableEq, Repr

/-- What the gateway knows of the session's binding, and what others answer it. -/
structure Env where
  aliasName : List Char
  canWrite : Bool
  push : Option (List (List Char))
  advertisement : Option Bytes
  access : Access
deriving DecidableEq, Repr

inductive Outcome where
  /-- The client is told why each ref was refused. -/
  | refused (commands : List RefUpdate) (capabilities : List (List Char)) (reasons : Reasons)
  /-- The remote is sent these bytes; `commands` were reviewed. -/
  | forwarded (commands : List RefUpdate) (body : Stream)
deriving DecidableEq, Repr

/-- `new Map(commands.map((command) => [command.ref, reason]))` -/
def reasonForAll (commands : List RefUpdate) (reason : List Char) : Reasons :=
  commands.foldl (fun reasons update => setReason reasons update.ref reason) []

variable (gunzip : Stream → Stream)

/-- The body as the gateway reads it. -/
def decoded (request : Request) : Stream :=
  if isGzip request then gunzip request.body else request.body

def defaultBranch (env : Env) : Except Failure (Option (List Char)) :=
  match env.advertisement with
  | none => .error .unavailable
  | some body => advertisedDefaultBranch body

def receivePack (env : Env) (request : Request) : Except Failure Outcome := do
  let body := decoded gunzip request
  let (buffered, chunks) ← readUntil (fun buffer => return (← readPktSection buffer).isSome)
    MAX_COMMAND_BYTES body.broken [] body.chunks
  let some (lines, _) ← readPktSection buffered | .error .unreadable
  let (commands, capabilities) ← parseReceivePackCommands lines
  if !env.canWrite then
    return .refused commands capabilities (reasonForAll commands
      ("this session may not push through '".toList ++ env.aliasName ++
        "' (it lacks git:write)".toList))
  let branch ← defaultBranch env
  if let some reasons := reviewPush commands (env.push.getD DEFAULT_PUSH_PATTERNS) branch then
    return .refused commands capabilities reasons
  match env.access with
  | .failed => .error .unavailable
  | .denied reason => return .refused commands capabilities (reasonForAll commands reason)
  | .granted push =>
    -- The branch policy can have narrowed while an approval was pending.
    if let some reasons := reviewPush commands (push.getD DEFAULT_PUSH_PATTERNS) branch then
      return .refused commands capabilities reasons
    return .forwarded commands ⟨buffered :: chunks, body.broken⟩

end Catamorphic.Git.Gateway
