import Catamorphic.Git.Paths
import Catamorphic.Lib.Runs

/-!
# Personal files in a sandbox

A member's files are placed at their repository paths in the sandbox of a chat of theirs, and
listed in a block of `.git/info/exclude`, so that a sync does not carry them. A delivery reads
what the repository tracks and where a path leads, uploads what it is to do, and places it by a
shell script: files first, then the block, then its own records. A removal takes out what the
list of placed files says, then the block and the records.

A step is one command of a script. A script may be cut off after each of them, and a command may
fail; between any two of them the sandbox may be snapshotted, the synced baseline moved, and what
the repository tracks changed.
-/

namespace Catamorphic.Sandbox

abbrev Text := List Char
abbrev Bytes := List UInt8
abbrev Fingerprint := List Char
abbrev Line := List Char

/-- A path relative to the project, as its segments. -/
abbrev Path := List Text

/-- The path as it is written. -/
def textOf (path : Path) : Text := Git.joinSegments path

/-! ## Paths and their patterns -/

/-- Why a path cannot hold a personal file. -/
inductive PathProblem
  | empty
  | tooLong
  | controlCharacters
  | backslash
  | absolute
  | emptyFolder
  | dots
  | gitDirectory
  deriving DecidableEq, Repr

def personalFilePathProblem (path : Text) : Option PathProblem :=
  let segments := Git.segmentsOf path
  if path.length = 0 then some .empty
  else if 512 < path.length then some .tooLong
  else if path.any fun c => c.toNat ≤ 0x1f || c.toNat = 0x7f then some .controlCharacters
  else if '\\' ∈ path then some .backslash
  else if path.head? = some '/' ∨
      (path.head?.any Char.isAlpha ∧ path.tail.head? = some ':') then some .absolute
  else if segments.any (· = []) then some .emptyFolder
  else if segments.any fun segment => segment = ['.'] || segment = ['.', '.'] then some .dots
  else if segments.any fun segment => segment.map Char.toLower = ".git".toList then
    some .gitDirectory
  else none

/-- `/[*?[]/g` -/
def escape : Text → Text
  | [] => []
  | c :: rest => if c = '*' ∨ c = '?' ∨ c = '[' then '\\' :: c :: escape rest else c :: escape rest

/-- `/ +$/` -/
def escapeTrailing : Text → Text
  | [] => []
  | c :: rest =>
    if c = ' ' ∧ rest.all (· = ' ') then '\\' :: ' ' :: escapeTrailing rest
    else c :: escapeTrailing rest

/-- One repository path as a gitignore pattern that matches only itself. -/
def gitignoreLiteral (path : Text) : Line := '/' :: escapeTrailing (escape path)

def EXCLUDE_BEGIN : Line := "# BEGIN Work personal files (ADR 0184)".toList
def EXCLUDE_END : Line := "# END Work personal files".toList

/-- The block this module owns in `.git/info/exclude`. -/
def personalExcludeBlock (paths : List Path) : List Line :=
  EXCLUDE_BEGIN :: paths.map (fun path => gitignoreLiteral (textOf path)) ++ [EXCLUDE_END]

/-- The `awk` program: the lines outside the block. -/
def outsideBlock (skip : Bool) : List Line → List Line
  | [] => []
  | line :: rest =>
    if line = EXCLUDE_BEGIN then outsideBlock true rest
    else if line = EXCLUDE_END then outsideBlock false rest
    else if skip then outsideBlock skip rest
    else line :: outsideBlock skip rest

/-! ## The project's folder -/

/-- A file; whether a delivery put it where it is. -/
structure File where
  content : Bytes
  placed : Bool
  deriving DecidableEq, Repr

inductive Node
  | file (file : File)
  | dir
  | link
  | other
  deriving DecidableEq, Repr

abbrev Tree := List (Path × Node)

def Tree.node (tree : Tree) (path : Path) : Option Node := List.lookup path tree

def Tree.remove (tree : Tree) (path : Path) : Tree := tree.filter (·.1 ≠ path)

def Tree.put (tree : Tree) (path : Path) (node : Node) : Tree := (path, node) :: tree.remove path

/-- `work_unsafe`: writing or removing the path could reach anything but its own place. A folder
that is no link resolves to its own place. -/
def Tree.unsafeFrom (tree : Tree) (at_ : Path) : Path → Bool
  | [] => match tree.node at_ with
    | none | some (.file _) => false
    | some _ => true
  | part :: rest => match tree.node (at_ ++ [part]) with
    | some .link => true
    | some .dir => tree.unsafeFrom (at_ ++ [part]) rest
    | some _ => if rest ≠ [] then true else tree.unsafeFrom (at_ ++ [part]) rest
    | none => tree.unsafeFrom (at_ ++ [part]) rest

def Tree.workUnsafe (tree : Tree) (path : Path) : Bool := tree.unsafeFrom [] path

/-- `mkdir -p` of the folder that the path is in. -/
def Tree.mkdirFrom (tree : Tree) (at_ : Path) : Path → Tree
  | [] | [_] => tree
  | part :: rest =>
    Tree.mkdirFrom (if (tree.node (at_ ++ [part])).isSome then tree else tree.put (at_ ++ [part])
      .dir)
      (at_ ++ [part]) rest

/-- What is in a folder, is in a folder. -/
def Tree.Closed (tree : Tree) : Prop :=
  ∀ path node, tree.node path = some node → ∀ at_, at_ ≠ [] → at_ <+: path → at_ ≠ path →
    tree.node at_ = some .dir

/-! ## Deliveries and removals -/

/-- A file of the member's set. The service keeps no other paths. -/
structure PersonalFile where
  path : Path
  content : Bytes
  fingerprint : Fingerprint
  valid : personalFilePathProblem (textOf path) = none

abbrev Manifest := List (Path × Fingerprint)

structure Incoming where
  manifest : Manifest
  files : List Path
  exclude : List Line

/-- The session's `personal` folder. -/
structure Personal where
  manifest : Option Manifest := none
  files : Option (List Path) := none
  incoming : Option Incoming := none

structure Delivery where
  previous : Manifest
  /-- Those that are neither tracked nor unsafe, and the paths of the others. -/
  files : List PersonalFile
  marked : List Path
  /-- What its script wrote. -/
  written : List Path

inductive DeliverStage
  | read (todo : List PersonalFile)
  | upload
  | stale (rest : List Path)
  /-- A stale path was checked. -/
  | rm (path : Path) (rest : List Path)
  | place (rest : List PersonalFile)
  /-- A path was checked. -/
  | mkdir (file : PersonalFile) (rest : List PersonalFile)
  | clear (file : PersonalFile) (rest : List PersonalFile)
  | write (file : PersonalFile) (rest : List PersonalFile)
  | touch
  | filter
  | append
  | moveExclude
  | moveManifest
  | moveFiles
  | removeIncoming

inductive RemoveStage
  | listed (rest : List Path)
  /-- A listed path was checked. -/
  | rm (path : Path) (rest : List Path)
  | filter
  | moveExclude
  | removePersonal

inductive Call
  | deliver (delivery : Delivery) (stage : DeliverStage)
  | remove (stage : RemoveStage)

/-- What was seen, for the statement of what holds. -/
inductive Note
  | snapshot (tree : List (Path × File))
  /-- A path was written or removed; whether it was tracked, and whether it led elsewhere. -/
  | touched (path : Path) (tracked leads : Bool)
  /-- A removal succeeded. With the placed files that are left, neither tracked nor elsewhere. -/
  | withdrawn (left : List Path)
  deriving DecidableEq, Repr

structure World where
  tree : Tree
  index : List Path
  head : List Path
  /-- `refs/work/synced` -/
  synced : List Path
  /-- `work-sync-index` -/
  syncIndex : Option (List Path)
  exclude : Option (List Line)
  /-- `"$ex.work"` -/
  excludeWork : List Line
  personal : Option Personal
  call : Option Call
  log : List Note

/-- A repository before anything was delivered or synced. -/
def start (exclude : Option (List Line)) : World where
  tree := []
  index := []
  head := []
  synced := []
  syncIndex := none
  exclude
  excludeWork := []
  personal := none
  call := none
  log := []

/-- `work_tracked`: in the index, the synced baseline or `HEAD`, itself or as a folder. -/
def World.workTracked (w : World) (path : Path) : Bool :=
  (w.index ++ w.synced ++ w.head).any path.isPrefixOf

def World.setCall (w : World) (call : Call) : World := { w with call := some call }

def World.stop (w : World) : World := { w with call := none }

def World.note (w : World) (note : Note) : World := { w with log := note :: w.log }

/-- A path is about to be written or removed. -/
def World.touch (w : World) (path : Path) : World :=
  w.note (.touched path (w.workTracked path) (w.tree.workUnsafe path))

def World.excludeLines (w : World) : List Line := w.exclude.getD []

/-- The paths of a manifest that are in the member's set no more, and were not marked. -/
def Delivery.stale (d : Delivery) : List Path :=
  (d.previous.map (·.1)).filter fun path =>
    path ∉ d.files.map (·.path) ∧ path ∉ d.marked

/-- The files whose fingerprint is new. -/
def Delivery.changed (d : Delivery) : List PersonalFile :=
  d.files.filter fun file => d.previous.lookup file.path ≠ some file.fingerprint

def Delivery.incoming (d : Delivery) : Incoming where
  manifest := d.files.map fun file => (file.path, file.fingerprint)
  files := d.files.map (·.path)
  exclude := personalExcludeBlock (d.files.map (·.path))

/-- The next command of a delivery. -/
def World.deliver (w : World) (d : Delivery) : DeliverStage → World
  | .read [] => w.setCall (.deliver d .upload)
  | .read (file :: todo) =>
    if w.workTracked file.path ∨ w.tree.workUnsafe file.path then
      w.setCall (.deliver { d with marked := file.path :: d.marked } (.read todo))
    else w.setCall (.deliver { d with files := d.files ++ [file] } (.read todo))
  | .upload =>
    { w.setCall (.deliver d (.stale d.stale)) with
      personal := some { w.personal.getD {} with incoming := some d.incoming } }
  | .stale [] => w.setCall (.deliver d (.place d.changed))
  | .stale (path :: rest) =>
    if w.workTracked path ∨ w.tree.workUnsafe path then w.setCall (.deliver d (.stale rest))
    else w.setCall (.deliver d (.rm path rest))
  | .rm path rest =>
    { (w.touch path).setCall (.deliver d (.stale rest)) with tree := w.tree.remove path }
  | .place [] => w.setCall (.deliver d .touch)
  | .place (file :: rest) =>
    if w.tree.workUnsafe file.path then w.setCall (.deliver d (.place rest))
    else w.setCall (.deliver d (.mkdir file rest))
  | .mkdir file rest =>
    { w.setCall (.deliver d (.clear file rest)) with tree := w.tree.mkdirFrom [] file.path }
  | .clear file rest =>
    { (w.touch file.path).setCall (.deliver d (.write file rest)) with
      tree := w.tree.remove file.path }
  | .write file rest =>
    { (w.touch file.path).setCall
        (.deliver { d with written := file.path :: d.written } (.place rest)) with
      tree := w.tree.put file.path (.file { content := file.content, placed := true }) }
  | .touch => { w.setCall (.deliver d .filter) with exclude := some w.excludeLines }
  | .filter =>
    { w.setCall (.deliver d .append) with excludeWork := outsideBlock false w.excludeLines }
  | .append =>
    { w.setCall (.deliver d .moveExclude) with
      excludeWork := w.excludeWork ++ d.incoming.exclude }
  | .moveExclude => { w.setCall (.deliver d .moveManifest) with exclude := some w.excludeWork }
  | .moveManifest =>
    { w.setCall (.deliver d .moveFiles) with
      personal := some { w.personal.getD {} with manifest := some d.incoming.manifest } }
  | .moveFiles =>
    { w.setCall (.deliver d .removeIncoming) with
      personal := some { w.personal.getD {} with files := some d.incoming.files } }
  | .removeIncoming => { w.stop with personal := some { w.personal.getD {} with incoming := none } }

/-- Placed files that are neither tracked nor elsewhere. -/
def World.left (w : World) : List Path :=
  (w.tree.map (·.1)).filter fun path => match w.tree.node path with
    | some (.file file) => file.placed && !w.workTracked path && !w.tree.workUnsafe path
    | _ => false

/-- A removal exits with success. -/
def World.withdrawn (w : World) : World := (w.note (.withdrawn w.left)).stop

/-- The next command of a removal. -/
def World.remove (w : World) : RemoveStage → World
  | .listed [] => w.setCall (.remove .filter)
  | .listed (path :: rest) =>
    if path = [] ∨ w.workTracked path ∨ w.tree.workUnsafe path then
      w.setCall (.remove (.listed rest))
    else w.setCall (.remove (.rm path rest))
  | .rm path rest =>
    { (w.touch path).setCall (.remove (.listed rest)) with tree := w.tree.remove path }
  | .filter =>
    match w.exclude with
    | some lines => { w.setCall (.remove .moveExclude) with excludeWork := outsideBlock false lines }
    | none => w.setCall (.remove .removePersonal)
  | .moveExclude => { w.setCall (.remove .removePersonal) with exclude := some w.excludeWork }
  | .removePersonal => World.withdrawn { w with personal := none }

/-- A command fails. A delivery goes on only where the command stands before `&&`, without what
follows it there; a removal goes on always, and fails where its last command does. -/
def World.fail (w : World) : Call → World
  | .deliver d (.mkdir _ rest) => w.setCall (.deliver d (.place rest))
  | .deliver d (.clear _ rest) => w.setCall (.deliver d (.place rest))
  | .deliver _ _ => w.stop
  | .remove (.rm _ rest) => w.setCall (.remove (.listed rest))
  | .remove .filter => w.setCall (.remove .removePersonal)
  | .remove .moveExclude => w.setCall (.remove .removePersonal)
  | .remove _ => w.stop

/-! ## Snapshots -/

/-- How git reads patterns: what the ignore files in a tree say of a path, and what one line of
`info/exclude` does (`some false` where it negates). -/
structure GitRules where
  ignoreFiles : Tree → Path → Option Bool
  matchLine : Line → Path → Option Bool

/-- A pattern's path, where it has no special characters but quoted ones. -/
def unescape : Line → Option Text
  | [] => some []
  | '\\' :: [] => none
  | '\\' :: c :: rest => (unescape rest).map (c :: ·)
  | c :: rest =>
    if c = '*' ∨ c = '?' ∨ c = '[' ∨ (c = ' ' ∧ rest = []) then none
    else (unescape rest).map (c :: ·)

/-- An anchored pattern that stands for one path. -/
def literalPath : Line → Option Text
  | '/' :: rest =>
    match unescape rest with
    | some path => if path.getLast? = some '/' then none else some path
    | none => none
  | _ => none

/-- What git documents of such patterns. -/
structure GitRules.Documented (rules : GitRules) : Prop where
  /-- Such a pattern matches the path that it stands for. -/
  literal : ∀ line path, literalPath line = some (textOf path) → rules.matchLine line path = some
    true
  /-- A line that starts with a hash is a comment. -/
  comment : ∀ rest path, rules.matchLine ('#' :: rest) path = none
  /-- Only a line that starts with an exclamation mark negates. -/
  negated : ∀ line path, rules.matchLine line path = some false → line.head? = some '!'

/-- The ignore files come before `info/exclude`, whose last match decides. -/
def World.ignored (w : World) (rules : GitRules) (path : Path) : Bool :=
  match rules.ignoreFiles w.tree path with
  | some verdict => verdict
  | none => (w.excludeLines.filterMap fun line => rules.matchLine line path).getLast? = some true

/-- `git add -A` on the snapshots' own index, which is a copy of the index at first. -/
def World.snapshotTree (w : World) (rules : GitRules) : List (Path × File) :=
  (w.tree.map (·.1)).filterMap fun path => match w.tree.node path with
    | some (.file file) =>
      if path ∈ w.syncIndex.getD w.index ∨ w.ignored rules path = false then some (path, file)
      else none
    | _ => none

def World.snapshot (w : World) (rules : GitRules) : World :=
  { w.note (.snapshot (w.snapshotTree rules)) with
    syncIndex := some ((w.snapshotTree rules).map (·.1)) }

/-! ## Steps -/

inductive Action
  | deliver (files : List PersonalFile)
  | remove
  | proceed
  | fail
  | cut
  | snapshot
  /-- The baseline becomes the tree of some snapshot. -/
  | baseline (paths : List Path)
  /-- The repository tracks other paths. -/
  | retrack (index head : List Path)
  /-- The folder is changed. -/
  | edit (tree : Tree)

section Rules

variable (rules : GitRules)

def step (w : World) : Action → Option World
  | .deliver files =>
    match w.call with
    | none =>
      let previous := ((w.personal.bind (·.manifest)).getD [])
      some (w.setCall (.deliver { previous, files := [], marked := [], written := [] }
        (.read files)))
    | some _ => none
  | .remove =>
    match w.call with
    | none =>
      match w.personal with
      | some personal => some (w.setCall (.remove (.listed (personal.files.getD []))))
      | none => some w.withdrawn
    | some _ => none
  | .proceed =>
    match w.call with
    | some (.deliver d stage) => some (w.deliver d stage)
    | some (.remove stage) => some (w.remove stage)
    | none => none
  | .fail => w.call.map w.fail
  | .cut => w.call.map fun _ => w.stop
  | .snapshot => some (w.snapshot rules)
  | .baseline paths => some { w with synced := paths }
  | .retrack index head => some { w with index, head }
  | .edit tree => some { w with tree }

/-! ## What holds of a sandbox -/

/-- **Personal files never leave with a sync.** -/
structure World.Sound (lines : List Line) (w : World) : Prop where
  secret : ∀ tree, .snapshot tree ∈ w.log → ∀ entry ∈ tree, entry.2.placed = false
  withdrawn : ∀ left, .withdrawn left ∈ w.log → left = []
  touched : ∀ path tracked leads, .touched path tracked leads ∈ w.log →
    tracked = false ∧ leads = false
  outside : outsideBlock false w.excludeLines = outsideBlock false lines

/-- A delivery put the file at its path. -/
def World.Placed (w : World) (path : Path) : Prop :=
  ∃ file, w.tree.node path = some (.file file) ∧ file.placed = true

/-- The block is last in `info/exclude`, and has the path. -/
def World.Excluded (w : World) (path : Path) : Prop :=
  ∃ before paths, w.excludeLines = before ++ personalExcludeBlock paths ∧ path ∈ paths

/-- The path is in the block, in the manifest and on the list. -/
def World.Kept (w : World) (path : Path) : Prop :=
  w.Excluded path ∧ ∃ personal, w.personal = some personal ∧
    (∃ manifest, personal.manifest = some manifest ∧ path ∈ manifest.map (·.1)) ∧
      ∃ files, personal.files = some files ∧ path ∈ files

/-- What the script under way wrote. -/
def World.written (w : World) : List Path :=
  match w.call with
  | some (.deliver d _) => d.written
  | _ => []

/-- The call under way found the path untracked, and is still to write or remove it. -/
def Call.Pending : Call → Path → Prop
  | .deliver d stage, path => match stage with
    | .read _ | .upload | .stale _ => path ∈ d.files.map (·.path)
    | .rm path' _ => path ∈ d.files.map (·.path) ∨ path = path'
    | .place rest => path ∈ rest.map (·.path)
    | .mkdir file rest | .clear file rest | .write file rest => path ∈ (file :: rest).map (·.path)
    | _ => False
  | .remove (.rm path' _), path => path = path'
  | .remove _, _ => False

/-- No placed file comes to be tracked, and no path that is about to be written or removed. -/
def World.TracksNoMore (w w' : World) : Prop :=
  ∀ path, w'.workTracked path = true → w.workTracked path = false →
    ¬ w.Placed path ∧ ∀ call, w.call = some call → ¬ call.Pending path

/-- **What a step must meet.** -/
def Careful (w : World) : Action → Prop
  | .proceed =>
    -- what a delivery writes is not in the snapshots' own index
    ∀ d file rest, w.call = some (.deliver d (.write file rest)) →
      ∀ index, w.syncIndex = some index → file.path ∉ index
  | .cut =>
    -- a delivery is cut off only while all that it wrote is kept
    ∀ path ∈ w.written, w.Kept path
  | .fail => match w.call with
      | some (.deliver _ (.mkdir _ _)) | some (.deliver _ (.clear _ _)) => True
      | some (.deliver _ _) => ∀ path ∈ w.written, w.Kept path
      -- a removal removes
      | some (.remove (.rm path _)) => ¬ w.Placed path
      | _ => True
  | .snapshot =>
    -- all that was written is in the block by then, and no ignore file says otherwise
    (∀ path ∈ w.written, w.Excluded path) ∧
      ∀ path, w.Placed path → rules.ignoreFiles w.tree path ≠ some false
  | .baseline paths => w.TracksNoMore { w with synced := paths }
  | .retrack index head => w.TracksNoMore { w with index, head }
  | .edit tree =>
    -- nobody changes the folder during a call, or brings a placed file back to its path
    w.call = none ∧ tree.Closed ∧ ∀ path, World.Placed { w with tree } path → w.Placed path
  | _ => True

end Rules

end Catamorphic.Sandbox
