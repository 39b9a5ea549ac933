import Catamorphic.Git.Gateway
import Catamorphic.Git.PublishedTrees
import Catamorphic.Git.RawTreeUpdates

/-!
# Writing the objects of an origin

The bytes of a tree, of a commit and of a stored object, and what is read back from them. A name
in a tree is its bytes; a commit's author is cleaned of what ends a name or an email, and its
message is given a final newline where it has none.
-/

namespace Catamorphic.Git.ObjectCodecs

open RawTrees Gateway List

/-! ## Trees -/

/-- An entry as it is stored, with the bytes of its name. -/
structure StoredEntry extends TreeEntry where
  nameBytes : List UInt8
  deriving DecidableEq

/-- The loop of `parseTree`; each turn takes at least one byte. -/
def parseTreeFrom : Nat → List UInt8 → List StoredEntry
  | 0, _ => []
  | _ + 1, [] => []
  | fuel + 1, data@(_ :: _) =>
    let afterMode := (data.dropWhile (· ≠ 0x20)).drop 1
    let nameBytes := afterMode.takeWhile (· ≠ 0x00)
    let afterName := (afterMode.dropWhile (· ≠ 0x00)).drop 1
    { mode := Utf8.decodeText (data.takeWhile (· ≠ 0x20)), name := Utf8.decodeText nameBytes,
      oid := (afterName.take 20).flatMap hexByte, nameBytes } ::
      parseTreeFrom fuel (afterName.drop 20)

def parseTree (data : List UInt8) : List StoredEntry := parseTreeFrom data.length data

def isTreeMode (mode : List Char) : Bool := mode = "40000".toList || mode = "040000".toList

/-- Git's tree order: bytewise by name, a tree sorting as if named `name/`. -/
def treeSortKey (entry : StoredEntry) : List UInt8 :=
  if isTreeMode entry.mode then entry.nameBytes ++ [0x2f] else entry.nameBytes

def entryLe (a b : StoredEntry) : Bool := compareBytes (treeSortKey a) (treeSortKey b) ≤ 0

/-- The bytes of an id: `NaN` is stored as 0. -/
def oidBytes (oid : List Char) : List UInt8 :=
  (List.range 20).map fun i => (parseInt16 ((oid.drop (i * 2)).take 2)).elim 0 UInt8.ofInt

def entryBytes (entry : StoredEntry) : List UInt8 :=
  let mode := if isTreeMode entry.mode then "40000".toList else entry.mode
  Utf8.encode (mode ++ [' ']) ++ entry.nameBytes ++ 0x00 :: oidBytes entry.oid

def serializeTree (entries : List StoredEntry) : List UInt8 :=
  (entries.mergeSort entryLe).flatMap entryBytes

/-- An entry as git has it: its mode in octal digits, a folder's without a zero in front, and its
name the reading of its bytes. -/
structure StoredEntry.Valid (entry : StoredEntry) : Prop where
  mode : ∀ c ∈ entry.mode, c.isDigit = true
  folder : entry.mode ≠ "040000".toList
  name : entry.name = Utf8.decodeText entry.nameBytes
  bytes : 0x00 ∉ entry.nameBytes
  oid : ∃ id : List UInt8, id.length = 20 ∧ entry.oid = id.flatMap hexByte

theorem span_until {α : Type} [DecidableEq α] {c : α} {s : List α} (h : c ∉ s) (t : List α) :
    (s ++ c :: t).takeWhile (· ≠ c) = s ∧ ((s ++ c :: t).dropWhile (· ≠ c)).drop 1 = t := by
  induction s with
  | nil => simp
  | cons a s ih =>
    obtain ⟨hne, hs⟩ := not_or.mp (mem_cons.not.mp h)
    obtain ⟨htake, hdrop⟩ := ih hs
    simpa [Ne.symm hne] using And.intro htake hdrop

theorem parseInt16_hexByte (b : UInt8) : (parseInt16 (hexByte b)).elim 0 UInt8.ofInt = b := by
  have h : ∀ n < 256, (parseInt16 (hexByte (UInt8.ofNat n))).elim 0 UInt8.ofInt =
      UInt8.ofNat n := by decide +kernel
  have hb := h b.toNat b.toNat_lt
  rwa [UInt8.ofNat_toNat] at hb

/-- An id's bytes are read back from its digits. -/
theorem oidBytes_hex {id : List UInt8} (h : id.length = 20) :
    oidBytes (id.flatMap hexByte) = id := by
  have hslice : ∀ (i : Nat) (id : List UInt8), ((id.flatMap hexByte).drop (i * 2)).take 2 =
      (id[i]?.map hexByte).getD [] := by
    intro i id
    induction id generalizing i with
    | nil => simp
    | cons b id ih =>
      cases i with
      | zero => rfl
      | succ i =>
        rw [getElem?_cons_succ, ← ih i, flatMap_cons, hexByte, Nat.succ_mul]
        rfl
  refine ext_getElem? fun i => ?_
  rw [oidBytes, getElem?_map]
  by_cases hi : i < 20
  · rw [getElem?_range hi, Option.map_some, hslice, getElem?_eq_getElem (h ▸ hi)]
    exact congrArg some (parseInt16_hexByte _)
  · rw [getElem?_eq_none (by simpa using hi), getElem?_eq_none (by omega)]
    rfl

variable {entry : StoredEntry} {entries : List StoredEntry} {line : List Char}

/-- **One entry is read back**, and what follows it comes next. -/
theorem parseTreeFrom_entry (h : entry.Valid) (fuel : Nat) (rest : List UInt8) :
    parseTreeFrom (fuel + 1) (entryBytes entry ++ rest) = entry :: parseTreeFrom fuel rest := by
  obtain ⟨id, hlen, hid⟩ := h.oid
  have hmode : (if isTreeMode entry.mode then "40000".toList else entry.mode) = entry.mode := by
    split
    · next htree =>
      rcases (Bool.or_eq_true _ _).mp htree with htree | htree
      · exact (of_decide_eq_true htree).symm
      · exact absurd (of_decide_eq_true htree) h.folder
    · rfl
  have hspace : (0x20 : UInt8) ∉ Utf8.encode entry.mode := by
    intro hmem
    obtain ⟨c, hc, hb⟩ := mem_flatMap.mp hmem
    have hdigit := h.mode c hc
    rw [Utf8.mem_encodeChar (by decide) hb] at hdigit
    exact absurd hdigit (by decide)
  have hbom : entry.mode.head? ≠ some '\uFEFF' := fun hhead =>
    absurd (h.mode _ (mem_of_head? hhead)) (by decide)
  have hbytes : entryBytes entry ++ rest =
      Utf8.encode entry.mode ++ 0x20 :: (entry.nameBytes ++ 0x00 :: (id ++ rest)) := by
    rw [entryBytes, hmode, hid, oidBytes_hex hlen, Utf8.encode_append]
    simp only [append_assoc]
    rfl
  obtain ⟨htakeMode, hdropMode⟩ := span_until hspace (entry.nameBytes ++ 0x00 :: (id ++ rest))
  obtain ⟨htakeName, hdropName⟩ := span_until h.bytes (id ++ rest)
  rw [hbytes]
  cases hdata : Utf8.encode entry.mode ++ 0x20 :: (entry.nameBytes ++ 0x00 :: (id ++ rest)) with
  | nil => exact absurd hdata (append_ne_nil_of_right_ne_nil _ (cons_ne_nil _ _))
  | cons b data =>
    rw [parseTreeFrom, ← hdata, htakeMode, hdropMode, htakeName, hdropName, ← hlen, take_left,
      drop_left, Utf8.decodeText_encode hbom, ← h.name, ← hid]

theorem parseTreeFrom_entries (h : ∀ entry ∈ entries, entry.Valid) {fuel : Nat}
    (hfuel : (entries.flatMap entryBytes).length ≤ fuel) :
    parseTreeFrom fuel (entries.flatMap entryBytes) = entries := by
  induction entries generalizing fuel with
  | nil => cases fuel <;> rfl
  | cons entry entries ih =>
    rw [flatMap_cons, length_append] at hfuel
    have hpos : 0 < (entryBytes entry).length := by
      rw [entryBytes, length_append, length_cons]
      exact Nat.succ_pos _
    obtain ⟨fuel, rfl⟩ := Nat.exists_eq_add_one.mpr (show 0 < fuel by omega)
    rw [flatMap_cons, parseTreeFrom_entry (h entry mem_cons_self),
      ih (List.forall_mem_cons.mp h).2 (by omega)]

/-- **A tree's bytes are its entries in git's order.** -/
theorem parseTree_serializeTree (h : ∀ entry ∈ entries, entry.Valid) :
    parseTree (serializeTree entries) = entries.mergeSort entryLe :=
  parseTreeFrom_entries (fun entry hentry => h entry (mem_mergeSort.mp hentry)) (Nat.le_refl _)

/-! ## Stored objects -/

def typeName : ObjectType → List Char
  | .blob => "blob".toList
  | .tree => "tree".toList
  | .commit => "commit".toList
  | .tag => "tag".toList

/-- A number in a text of the source. -/
def decimal (n : Nat) : List Char := (toString n).toList

/-- `<type> <length>\0<content>` -/
def wrapObject (object : GitObject) : List UInt8 :=
  Utf8.encode (typeName object.type ++ ' ' :: decimal object.data.length ++ ['\x00']) ++ object.data

inductive Malformed
  /-- `Malformed git object: missing header terminator` -/
  | missingTerminator
  /-- `Malformed git object: unknown type '<type>'` -/
  | unknownType (type : List Char)
  deriving DecidableEq

def unwrapObject (wrapped : List UInt8) : Except Malformed GitObject :=
  if 0x00 ∈ wrapped then
    let header := Utf8.decodeText (wrapped.takeWhile (· ≠ 0x00))
    -- `header.slice(0, -1)` where there is no space
    let type := if ' ' ∈ header then header.takeWhile (· ≠ ' ') else header.dropLast
    match [ObjectType.blob, .tree, .commit, .tag].find? (typeName · = type) with
    | some type => .ok ⟨type, (wrapped.dropWhile (· ≠ 0x00)).drop 1⟩
    | none => .error (.unknownType type)
  else .error .missingTerminator

theorem decimal_eq (n : Nat) : decimal n = Nat.toDigits 10 n := by
  rw [decimal, Nat.toString_eq_repr, Nat.toList_repr]

theorem isDigit_of_mem_decimal {n : Nat} {c : Char} (h : c ∈ decimal n) : c.isDigit = true :=
  Nat.isDigit_of_mem_toDigits (by decide) (by decide) (decimal_eq n ▸ h)

/-- **A stored object is its type and its bytes.** -/
theorem unwrapObject_wrapObject (object : GitObject) :
    unwrapObject (wrapObject object) = .ok object := by
  obtain ⟨type, data⟩ := object
  have hhead : ∀ c ∈ typeName type, c ≠ '\x00' ∧ c ≠ ' ' := by
    cases type <;> simp [typeName]
  have hplain : ∀ c ∈ typeName type ++ ' ' :: decimal data.length, c ≠ '\x00' := by
    intro c hc
    rcases mem_append.mp hc with hc | hc
    · exact (hhead c hc).1
    · rcases mem_cons.mp hc with rfl | hc
      · decide
      · rintro rfl
        exact absurd (isDigit_of_mem_decimal hc) (by decide)
  have hnul : (0x00 : UInt8) ∉ Utf8.encode (typeName type ++ ' ' :: decimal data.length) := by
    intro hmem
    obtain ⟨c, hc, hb⟩ := mem_flatMap.mp hmem
    exact hplain c hc (Utf8.mem_encodeChar (by decide) hb)
  have hbytes : wrapObject ⟨type, data⟩ =
      Utf8.encode (typeName type ++ ' ' :: decimal data.length) ++ 0x00 :: data := by
    rw [wrapObject, Utf8.encode_append, append_assoc]
    rfl
  have hbom : (typeName type ++ ' ' :: decimal data.length).head? ≠ some '\uFEFF' := by
    cases type <;> exact fun h => absurd (Option.some.inj h) (by decide)
  obtain ⟨htake, hdrop⟩ := span_until hnul data
  rw [unwrapObject, if_pos (hbytes ▸ mem_append_right _ mem_cons_self), hbytes, htake, hdrop,
    Utf8.decodeText_encode hbom]
  cases type <;> rfl

/-! ## Commits -/

/-- `value.replace(/[<>\n]/g, "").trim()` -/
def clean (value : List Char) : List Char :=
  Text.trim (value.filter fun c => c ≠ '<' && c ≠ '>' && c ≠ '\n')

/-- `signature`, whose time is the clock's. -/
def signature (author : Author) : List Char :=
  clean author.name ++ " <".toList ++ clean author.email ++ "> ".toList ++
    decimal author.timestamp ++ " +0000".toList

/-- A message with its final newline. -/
def closed (message : List Char) : List Char :=
  if message.getLast? = some '\n' then message else message ++ ['\n']

def headerLines (commit : CommitText) : List (List Char) :=
  ("tree ".toList ++ commit.tree) :: commit.parents.map ("parent ".toList ++ ·) ++
    ["author ".toList ++ signature commit.author, "committer ".toList ++ signature commit.author]

/-- The header's lines, an empty line and the message. -/
def serializeCommit (commit : CommitText) : List UInt8 :=
  Utf8.encode (Lines.join '\n' (headerLines commit) ++ '\n' :: closed commit.message)

theorem headerOf_line (h : '\n' ∉ line) (text : List Char) :
    headerOf (line ++ text) = line ++ headerOf text ∧ messageOf (line ++ text) = messageOf text ∧
      splitLines line = [line] ∧ splitLines (line ++ '\n' :: text) = line :: splitLines text := by
  induction line with
  | nil => exact ⟨rfl, rfl, rfl, by rw [nil_append, splitLines, if_pos rfl]⟩
  | cons c line ih =>
    obtain ⟨hc, hline⟩ := not_or.mp (mem_cons.not.mp h)
    obtain ⟨hheader, hmessage, hline, hlines⟩ := ih hline
    refine ⟨?_, ?_, ?_, ?_⟩
    · rw [cons_append, headerOf, hheader, cons_append]
      exact fun _ heq => absurd heq.symm hc
    · rw [cons_append, messageOf, hmessage]
      exact fun _ heq => absurd heq.symm hc
    · rw [splitLines, if_neg (Ne.symm hc), hline]
    · rw [cons_append, splitLines, if_neg (Ne.symm hc), hlines]

/-- **A header's lines and the message are read back.** -/
theorem header_read {lines : List (List Char)}
    (h : ∀ l ∈ line :: lines, l ≠ [] ∧ '\n' ∉ l) (message : List Char) :
    splitLines (headerOf (Lines.join '\n' (line :: lines) ++ '\n' :: message)) = line :: lines ∧
      messageOf (Lines.join '\n' (line :: lines) ++ '\n' :: message) = message := by
  induction lines generalizing line with
  | nil =>
    obtain ⟨hheader, hmessage, hline, -⟩ :=
      headerOf_line (h line mem_cons_self).2 ('\n' :: '\n' :: message)
    rw [Lines.join_cons, append_assoc]
    refine ⟨?_, hmessage⟩
    exact (congrArg splitLines (hheader.trans (append_nil _))).trans hline
  | cons next lines ih =>
    obtain ⟨hread, hmessage⟩ := ih (List.forall_mem_cons.mp h).2
    obtain ⟨hne, hnext⟩ := h next (mem_cons_of_mem _ mem_cons_self)
    obtain ⟨c, next, rfl⟩ := exists_cons_of_ne_nil hne
    have hc : c ≠ '\n' := fun heq => hnext (heq ▸ mem_cons_self)
    have hstart : ∃ rest, Lines.join '\n' ((c :: next) :: lines) ++ '\n' :: message = c :: rest :=
      ⟨_, by rw [Lines.join_cons]; rfl⟩
    rw [Lines.join_cons, append_assoc, cons_append]
    generalize Lines.join '\n' ((c :: next) :: lines) ++ '\n' :: message = text at *
    obtain ⟨rest, rfl⟩ := hstart
    have hline := (h line mem_cons_self).2
    obtain ⟨hheader, hafter, -⟩ := headerOf_line hline ('\n' :: c :: rest)
    have hnl : headerOf ('\n' :: c :: rest) = '\n' :: headerOf (c :: rest) ∧
        messageOf ('\n' :: c :: rest) = messageOf (c :: rest) := by
      rw [headerOf, messageOf]
      · exact ⟨rfl, rfl⟩
      · exact fun _ _ heq => absurd (cons.inj heq).1 hc
      · exact fun _ _ heq => absurd (cons.inj heq).1 hc
    rw [hheader, hafter, hnl.1, hnl.2]
    exact ⟨by rw [(headerOf_line hline _).2.2.2, hread], hmessage⟩

theorem numberOf_decimal (n : Nat) : numberOf (decimal n) = n := by
  rw [decimal_eq]
  exact Nat.ofDigitChars_ten_toDigits

/-- The mark before the email is the last one. -/
theorem splitMark_append {email : List Char} (h : '<' ∉ email) (name : List Char) :
    splitMark (email ++ '<' :: ' ' :: name) = some (email, name) := by
  induction email with
  | nil => rfl
  | cons c email ih =>
    obtain ⟨hc, hemail⟩ := not_or.mp (mem_cons.not.mp h)
    rw [cons_append, splitMark, ih hemail]
    · rfl
    · exact fun _ heq => absurd heq.symm hc

theorem splitTime_append (n : Nat) (before : List Char) :
    splitTime ("0000+ ".toList ++ ((decimal n).reverse ++ ' ' :: '>' :: before)) =
      some (decimal n, before) := by
  have hdigit : ∀ c ∈ (decimal n).reverse, c.isDigit = true := fun c hc =>
    isDigit_of_mem_decimal (mem_reverse.mp hc)
  have hne : (decimal n).reverse ≠ [] := by
    rw [decimal_eq]
    exact reverse_ne_nil_iff.mpr Nat.toDigits_ne_nil
  have htake : ((decimal n).reverse ++ ' ' :: '>' :: before).takeWhile Char.isDigit =
      (decimal n).reverse := by
    rw [takeWhile_append_of_pos hdigit, takeWhile_cons_of_neg (by decide), append_nil]
  have hdrop : ((decimal n).reverse ++ ' ' :: '>' :: before).dropWhile Char.isDigit =
      ' ' :: '>' :: before := by
    rw [dropWhile_append_of_pos hdigit, dropWhile_cons_of_neg (by decide)]
  show splitTime ('0' :: '0' :: '0' :: '0' :: '+' :: ' ' ::
    ((decimal n).reverse ++ ' ' :: '>' :: before)) = _
  rw [splitTime, hdrop, htake, reverse_reverse, decide_eq_true hne]
  rfl

/-- **An author's line is read back**, when no line ends in the name or the email. -/
theorem matchAuthor_line {name email : List Char} (hemail : '<' ∉ email)
    (hline : ∀ c ∈ name ++ email, isLineTerminator c = false) (n : Nat) :
    matchAuthor ("author ".toList ++ (name ++ " <".toList ++ email ++ "> ".toList ++ decimal n ++
      " +0000".toList)) = some ⟨name, email, n⟩ := by
  have hbefore : (name ++ " <".toList ++ email).reverse =
      email.reverse ++ '<' :: ' ' :: name.reverse := by
    rw [reverse_append, reverse_append]
    rfl
  have hrest : (name ++ " <".toList ++ email ++ "> ".toList ++ decimal n ++
      " +0000".toList).reverse = "0000+ ".toList ++ ((decimal n).reverse ++ ' ' :: '>' ::
        (email.reverse ++ '<' :: ' ' :: name.reverse)) := by
    rw [reverse_append, reverse_append, reverse_append, hbefore]
    rfl
  have hany : (email.reverse ++ '<' :: ' ' :: name.reverse).any isLineTerminator = false := by
    rw [any_eq_false]
    intro c hc
    rw [Bool.not_eq_true]
    rcases mem_append.mp hc with hc | hc
    · exact hline c (mem_append_right _ (mem_reverse.mp hc))
    · rcases mem_cons.mp hc with rfl | hc
      · decide
      · rcases mem_cons.mp hc with rfl | hc
        · decide
        · exact hline c (mem_append_left _ (mem_reverse.mp hc))
  rw [matchAuthor, show ∀ l, drop 7 ("author ".toList ++ l) = l from fun _ => rfl, hrest,
    splitTime_append]
  dsimp only
  rw [splitMark_append (fun h => hemail (mem_reverse.mp h))]
  dsimp only
  rw [hany, reverse_reverse, reverse_reverse, numberOf_decimal]
  rfl

theorem trim_subset (value : List Char) : ∀ c ∈ Text.trim value, c ∈ value := by
  intro c hc
  have h := (dropWhile_suffix _).subset (mem_reverse.mp hc)
  exact (dropWhile_suffix _).subset (mem_reverse.mp h)

theorem clean_plain {value : List Char} {c : Char} (h : c ∈ clean value) : c ≠ '<' ∧ c ≠ '\n' := by
  have hplain := (mem_filter.mp (trim_subset _ c h)).2
  simp only [Bool.and_eq_true, decide_eq_true_eq] at hplain
  exact ⟨hplain.1.1, hplain.2⟩

theorem newline_signature (author : Author) : '\n' ∉ signature author := by
  intro h
  simp only [signature, mem_append] at h
  rcases h with ((((h | h) | h) | h) | h) | h
  · exact (clean_plain h).2 rfl
  · exact absurd h (by decide)
  · exact (clean_plain h).2 rfl
  · exact absurd h (by decide)
  · exact absurd (isDigit_of_mem_decimal h) (by decide)
  · exact absurd h (by decide)

theorem newline_sha {sha : Sha} (h : isSha sha = true) : '\n' ∉ sha := by
  intro hmem
  rw [isSha, Bool.and_eq_true, List.all_eq_true] at h
  exact absurd (h.2 _ hmem) (by decide)

variable {commit : CommitText}

theorem headerLines_plain (htree : isSha commit.tree = true)
    (hparents : ∀ parent ∈ commit.parents, isSha parent = true) :
    ∀ line ∈ headerLines commit, line ≠ [] ∧ '\n' ∉ line := by
  have hline : ∀ (mark : String) (rest : List Char), mark.toList ≠ [] → '\n' ∉ mark.toList →
      '\n' ∉ rest → mark.toList ++ rest ≠ [] ∧ '\n' ∉ mark.toList ++ rest :=
    fun mark rest hne hm hr =>
      ⟨append_ne_nil_of_left_ne_nil hne _, fun h => (mem_append.mp h).elim hm hr⟩
  intro line hmem
  rcases mem_append.mp hmem with hmem | hmem
  · rcases mem_cons.mp hmem with rfl | hmem
    · exact hline _ _ (by decide) (by decide) (newline_sha htree)
    · obtain ⟨parent, hparent, rfl⟩ := mem_map.mp hmem
      exact hline _ _ (by decide) (by decide) (newline_sha (hparents parent hparent))
  · rcases mem_pair.mp hmem with rfl | rfl <;>
      exact hline _ _ (by decide) (by decide) (newline_signature _)

/-- What is read back of a commit: the time is when the name and the email are of one line. -/
structure Kept (commit read : CommitText) : Prop where
  tree : read.tree = commit.tree
  parents : read.parents = commit.parents
  message : read.message = closed commit.message
  time : (∀ c ∈ clean commit.author.name ++ clean commit.author.email,
    isLineTerminator c = false) → read.author.timestamp = commit.author.timestamp

/-- **A commit is read back as it was written**, its message with a final newline. -/
theorem parseCommit_serializeCommit (htree : isSha commit.tree = true)
    (hparents : ∀ parent ∈ commit.parents, isSha parent = true) :
    Kept commit (parseCommitText (serializeCommit commit)) := by
  have hlines : splitLines (headerOf (Lines.join '\n' (headerLines commit) ++ '\n' ::
      closed commit.message)) = headerLines commit ∧ messageOf (Lines.join '\n'
        (headerLines commit) ++ '\n' :: closed commit.message) = closed commit.message :=
    header_read (headerLines_plain htree hparents) _
  have hauthor : (headerLines commit).find? ("author ".toList.isPrefixOf) =
      some ("author ".toList ++ signature commit.author) := by
    have hnone : (commit.parents.map ("parent ".toList ++ ·)).find?
        ("author ".toList.isPrefixOf) = none := by
      rw [find?_eq_none]
      rintro line hline
      obtain ⟨parent, -, rfl⟩ := mem_map.mp hline
      exact Bool.false_ne_true
    rw [headerLines, cons_append, find?_cons_of_neg Bool.false_ne_true, find?_append, hnone]
    rfl
  have hfilter : ((headerLines commit).filter ("parent ".toList.isPrefixOf)) =
      commit.parents.map ("parent ".toList ++ ·) := by
    rw [headerLines, cons_append, filter_cons_of_neg Bool.false_ne_true, filter_append,
      filter_eq_self.mpr]
    · exact append_nil _
    · intro line hline
      obtain ⟨parent, -, rfl⟩ := mem_map.mp hline
      rfl
  have hread : Utf8.decodeText (serializeCommit commit) =
      Lines.join '\n' (headerLines commit) ++ '\n' :: closed commit.message :=
    Utf8.decodeText_encode fun h => absurd (Option.some.inj h) (by decide)
  rw [parseCommitText, hread, hlines.1, hlines.2, hfilter, hauthor, map_map]
  refine ⟨trim_sha htree, ?_, rfl, fun hplain => ?_⟩
  · exact (map_congr_left fun parent hparent => trim_sha (hparents parent hparent)).trans (map_id _)
  · rw [Option.bind_some, signature, matchAuthor_line (fun h => (clean_plain h).1 rfl) hplain]
    rfl

/-- **What the codecs write they read back.** -/
theorem codecs_round_trip (entries : List StoredEntry) (commit : CommitText) (object : GitObject)
    (h : ∀ entry ∈ entries, entry.Valid) (htree : isSha commit.tree = true)
    (hparents : ∀ parent ∈ commit.parents, isSha parent = true) :
    parseTree (serializeTree entries) = entries.mergeSort entryLe ∧
      Kept commit (parseCommitText (serializeCommit commit)) ∧
      unwrapObject (wrapObject object) = .ok object :=
  ⟨parseTree_serializeTree h, parseCommit_serializeCommit htree hparents,
    unwrapObject_wrapObject object⟩

def oneEntry : StoredEntry :=
  ⟨⟨"100644".toList, ['a'], (replicate 20 0).flatMap hexByte⟩, [0x61]⟩

def oneCommit : CommitText := ⟨replicate 40 '0', [], ⟨"A".toList, "a@b".toList, 7⟩, ['x']⟩

theorem codecs_round_trip_one : parseTree (serializeTree [oneEntry]) = [oneEntry] ∧
    Kept oneCommit (parseCommitText (serializeCommit oneCommit)) := by
  have h := codecs_round_trip [oneEntry] oneCommit ⟨.blob, []⟩
    (forall_mem_singleton.mpr
      ⟨all_eq_true.mp (by decide), by decide, by decide, by decide, replicate 20 0, rfl, rfl⟩)
    (by decide) (by decide)
  exact ⟨h.1.trans (mergeSort_singleton _), h.2.1⟩

/-- A message without a final newline is given one. -/
theorem message_closed :
    (parseCommitText (serializeCommit oneCommit)).message ≠ oneCommit.message := by
  decide +kernel

/-! ## The bytes of a tree -/

theorem compareBytes_eq_zero {as bs : List UInt8} (h : compareBytes as bs = 0) : as = bs := by
  induction as generalizing bs with
  | nil =>
    cases bs with
    | nil => rfl
    | cons b bs =>
      simp only [compareBytes, length_nil, length_cons] at h
      omega
  | cons a as ih =>
    cases bs with
    | nil =>
      simp only [compareBytes, length_nil, length_cons] at h
      omega
    | cons b bs =>
      rw [compareBytes_cons] at h
      split_ifs at h with hne
      · exact absurd h hne
      · rw [ih h, UInt8.toNat_inj.mp (by omega : a.toNat = b.toNat)]

variable {entries others : List StoredEntry}

theorem mergeSort_perm_eq (h : entries ~ others) (hkeys : (entries.map treeSortKey).Nodup) :
    entries.mergeSort entryLe = others.mergeSort entryLe := by
  have hsorted : ∀ l : List StoredEntry,
      (l.mergeSort entryLe).Pairwise fun a b => entryLe a b = true :=
    pairwise_mergeSort
      (fun a b c hab hbc => decide_eq_true
        (compareBytes_trans (of_decide_eq_true hab) (of_decide_eq_true hbc)))
      fun a b => by
        rw [Bool.or_eq_true, entryLe, entryLe, decide_eq_true_eq, decide_eq_true_eq,
          compareBytes_flip (treeSortKey a) (treeSortKey b)]
        omega
  refine Perm.eq_of_pairwise (fun a b ha hb hab hba => ?_) (hsorted _) (hsorted _)
    ((mergeSort_perm ..).trans (h.trans (mergeSort_perm ..).symm))
  have ha := mem_mergeSort.mp ha
  have hb := h.mem_iff.mpr (mem_mergeSort.mp hb)
  refine inj_on_of_nodup_map hkeys ha hb (compareBytes_eq_zero ?_)
  have hab := of_decide_eq_true hab
  have hba := of_decide_eq_true hba
  rw [compareBytes_flip (treeSortKey a) (treeSortKey b)] at hba
  omega

/-- **The bytes of a tree are those of its entries**, in whatever order they come, and of no
others. -/
theorem serializeTree_eq_iff (h : ∀ entry ∈ entries, entry.Valid)
    (h' : ∀ entry ∈ others, entry.Valid) (hkeys : (entries.map treeSortKey).Nodup) :
    serializeTree entries = serializeTree others ↔ entries ~ others := by
  refine ⟨fun heq => ?_, fun hperm => ?_⟩
  · have hread := parseTree_serializeTree h
    rw [heq, parseTree_serializeTree h'] at hread
    exact (mergeSort_perm ..).symm.trans (hread ▸ mergeSort_perm ..)
  · rw [serializeTree, serializeTree, mergeSort_perm_eq hperm hkeys]

def otherEntry : StoredEntry := { oneEntry with name := ['b'], nameBytes := [0x62] }

theorem serializeTree_eq_iff_swapped :
    serializeTree [oneEntry, otherEntry] = serializeTree [otherEntry, oneEntry] := by
  have hone : oneEntry.Valid :=
    ⟨all_eq_true.mp (by decide), by decide, by decide, by decide, replicate 20 0, rfl, rfl⟩
  have hother : otherEntry.Valid :=
    ⟨all_eq_true.mp (by decide), by decide, by decide, by decide, replicate 20 0, rfl, rfl⟩
  exact (serializeTree_eq_iff (by simp [hone, hother]) (by simp [hone, hother]) (by decide)).mpr
    (.swap ..)

end Catamorphic.Git.ObjectCodecs
