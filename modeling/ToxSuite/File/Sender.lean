import ToxSuite.Friend.Info

/-!
# `file.c`: the send queue

An outgoing transfer is a `FileSender` on a queue. This module gives the entries,
the operations on a queue, `add_filesender`, which hands an entry to Tox, and the
callers that make an entry and hand it over: `file_sender_new`, the SENDING step
of a call test, the `!sendimage` command and `resume_send`.

What the disk and Tox answer to `add_filesender` is an argument (`Answer`); what
Tox keeps of its outgoing transfers is next to the queue in the state (`Outbox`).
-/

namespace ToxSuite.File

open ToxSuite.Lib ToxSuite.Friend

/-! ### Entries -/

/-- `UINT32_MAX`, the file number of a failed `tox_file_send`. -/
abbrev UINT32_MAX : UInt32 := 4294967295

/-- `TOX_FILE_ID_LENGTH`. -/
abbrev TOX_FILE_ID_LENGTH : ℕ := 32

/-- A file id: a BLAKE2b hash. -/
abbrev FileId := Vec TOX_FILE_ID_LENGTH

/-- `FileNode`. -/
structure FileNode where
  file : Option CStr
  blake2b : Option FileId
  mtime : Int64
  length : Int64
  /-- `exists`. -/
  present : Bool
  deriving DecidableEq

/-- A `FileNode` of zeros. -/
def FileNode.zero : FileNode := ⟨none, none, 0, 0, false⟩

/-- What a stream was opened for. -/
inductive OpenMode where
  | read
  | write
  deriving DecidableEq

/-- An open `FILE *`. -/
structure Stream where
  path : CStr
  mode : OpenMode
  deriving DecidableEq

/-- `FileSender`, with the address of its allocation, by which the program tells entries
apart. -/
structure FileSender where
  addr : ℕ
  info : FileNode
  pathname : Option CStr
  file : Option Stream
  fileNumber : UInt32
  friendNumber : UInt32
  kind : UInt32
  deriving DecidableEq

/-- The entry `FileSender_new` puts at the head of a queue. -/
def FileSender.zero (addr : ℕ) : FileSender := ⟨addr, .zero, none, none, 0, 0, 0⟩

/-- The entry has this key. -/
def FileSender.hasKey (friendNumber fileNumber : UInt32) (f : FileSender) : Bool :=
  f.friendNumber == friendNumber && f.fileNumber == fileNumber

/-- `FileSender_get`. -/
def fileSenderGet (fileQueue : List FileSender) (friendNumber fileNumber : UInt32) : Option FileSender :=
  fileQueue.find? (·.hasKey friendNumber fileNumber)

/-- `FileSender_destroy` on the entry `FileSender_get` finds. -/
def fileSenderDestroy (fileQueue : List FileSender) (friendNumber fileNumber : UInt32) : List FileSender :=
  fileQueue.eraseP (·.hasKey friendNumber fileNumber)

/-! ### Handing an entry to Tox -/

/-- What the disk holds when an operation runs. -/
structure Disk where
  /-- `fopen` succeeds. -/
  opens : OpenMode → CStr → Bool
  /-- `ftell` at the end of the file. -/
  size : CStr → Int64

/-- `fopen`. -/
def Disk.fopen (disk : Disk) (path : CStr) (mode : OpenMode) : Option Stream :=
  if disk.opens mode path then some ⟨path, mode⟩ else none

/-- What `add_filesender` runs into. -/
structure Answer where
  disk : Disk
  /-- What `tox_file_send` returns, `UINT32_MAX` for an error. -/
  fileNumber : UInt32
  /-- What `tox_file_get_file_id` leaves in the buffer. -/
  fileId : FileId

/-- An outgoing transfer of Tox, with the address of the entry it was issued for. -/
structure Outgoing where
  friendNumber : UInt32
  fileNumber : UInt32
  addr : ℕ
  deriving DecidableEq

/-- Two transfers Tox would not tell apart. -/
def Outgoing.hasKey (friendNumber fileNumber : UInt32) (t : Outgoing) : Bool :=
  t.friendNumber == friendNumber && t.fileNumber == fileNumber

/-- The send queue, and Tox's side of it. -/
structure Outbox where
  filesSender : List FileSender
  /-- The transfers Tox has going. -/
  live : List Outgoing
  /-- All transfers Tox has ever issued a number for. -/
  issued : List Outgoing

/-- `tox_file_send`: a number the friend has no other live transfer under, or
`UINT32_MAX`. Another reply is not one `toxcore` gives. -/
def toxFileSend (live : List Outgoing) (friendNumber reply : UInt32) : UInt32 :=
  if live.any (·.hasKey friendNumber reply) then UINT32_MAX else reply

/-- The stream `add_filesender` works on: the one the entry has, or the file at its
pathname. -/
def FileSender.stream (f : FileSender) (disk : Disk) : Option Stream :=
  match f.file with
  | some stream => some stream
  | none => f.pathname.bind fun pathname => disk.fopen pathname .read

/-- What `add_filesender` makes of an entry once the file is open: a length of zero is
measured, and a missing hash is asked of Tox. -/
def FileSender.handed (f : FileSender) (stream : Stream) (fileNumber : UInt32) (answer : Answer) :
    FileSender :=
  { f with
    file := some stream
    fileNumber
    info :=
      { f.info with
        length := if f.info.length = 0 then answer.disk.size stream.path else f.info.length
        blake2b := some (f.info.blake2b.getD answer.fileId) } }

/-- `add_filesender` on an entry, whose `file_number` it returns except where it cannot
open the file. -/
def addFilesender (live : List Outgoing) (f : FileSender) (answer : Answer) :
    Except Fault (FileSender × UInt32) :=
  match f.stream answer.disk with
  | none => pure (f, UINT32_MAX)
  | some stream =>
    match f.info.file with
    | none => .error .null
    | some _ =>
      let fileNumber := toxFileSend live f.friendNumber answer.fileNumber
      pure (f.handed stream fileNumber answer, fileNumber)

/-- An entry at the head of `FilesSender`, handed to Tox: the outbox and what
`add_filesender` returned. -/
def Outbox.add (o : Outbox) (f : FileSender) (answer : Answer) : Except Fault (Outbox × UInt32) := do
  let (f, fileNumber) ← addFilesender o.live f answer
  let filesSender := f :: o.filesSender
  if fileNumber = UINT32_MAX then pure ({ o with filesSender }, fileNumber)
  else
    let t : Outgoing := ⟨f.friendNumber, fileNumber, f.addr⟩
    pure (⟨filesSender, t :: o.live, t :: o.issued⟩, fileNumber)

/-! ### The callers -/

/-- `gnu_basename`. -/
def gnuBasename (path : CStr) : CStr := .ofBytes (path.bytes.reverse.takeWhile (· ≠ 47)).reverse

/-- `packlist_filename`. -/
def packlistFilename : CStr := .ofBytes (ascii "packlist.txt")

/-- The entry `file_sender_new` makes: `none` where its own `fopen` fails, and it destroys
the entry. -/
def fileSenderEntry (addr : ℕ) (shrfiles : List FileNode) (packn : ℤ) (disk : Disk) :
    Except Fault (Option FileSender) :=
  let f := FileSender.zero addr
  if packn < 0 then
    -- the stream of `file_list_create`
    match disk.fopen packlistFilename .write with
    | none => pure none
    | some stream => pure (some
      { f with
        file := some stream
        info := { f.info with file := some packlistFilename }
        pathname := some packlistFilename })
  else
    match shrfiles[packn.toNat]? with
    | none => .error .overread
    | some info =>
      match info.file, info.blake2b with
      | some file, some _ =>
        match disk.fopen file .read with
        | none => pure none
        | some stream => pure (some
          { f with
            info := { info with file := some (gnuBasename file) }
            pathname := some file
            file := some stream })
      | _, _ => .error .null

/-- An operation that makes or moves one entry and hands it to Tox. -/
inductive Creation where
  /-- `file_sender_new`. -/
  | fileSenderNew (friendNumber : UInt32) (shrfiles : List FileNode) (packn : ℤ)
  /-- The SENDING step of `calltest_iterate_one_shot`. -/
  | sending (friendNumber : UInt32) (outfilename : CStr)
  /-- The `!sendimage` command of `friend_message`. -/
  | sendimage (friendNumber : UInt32)
  /-- The body of the loop of `resume_send`, on an entry of `FileQueueLoaded`. -/
  | resume (f : FileSender)

/-- The entry an operation hands to `add_filesender`; `none` where it bails out before. -/
def Creation.entry (addr : ℕ) (disk : Disk) : Creation → Except Fault (Option FileSender)
  | .fileSenderNew friendNumber shrfiles packn => do
    let f ← fileSenderEntry addr shrfiles packn disk
    pure (f.map fun f => { f with friendNumber })
  | .sending friendNumber outfilename => pure (some
    { FileSender.zero addr with
      friendNumber
      pathname := some outfilename
      info := { FileNode.zero with file := some (.ofBytes (ascii "call-test.wav")) } })
  | .sendimage friendNumber => pure (some
    { FileSender.zero addr with
      friendNumber
      pathname := some (.ofBytes (ascii "screenshot.png"))
      info := { FileNode.zero with file := some (.ofBytes (ascii "shot.png")) } })
  | .resume f => pure (some f)

/-- An operation: the outbox and whether it failed. -/
def Outbox.create (o : Outbox) (addr : ℕ) (c : Creation) (answer : Answer) :
    Except Fault (Outbox × Bool) := do
  match ← c.entry addr answer.disk with
  | none => pure (o, true)
  | some f =>
    let (o, fileNumber) ← o.add f answer
    pure (o, fileNumber = UINT32_MAX)

/-- `resume_send`: the entries of the friend at the front of `FileQueueLoad` move to
`FilesSender`; the loop ends at the first entry of another friend. `answers k` is what the
`k`-th of them meets. -/
def resumeSend (o : Outbox) (friendNumber : UInt32) :
    List FileSender → (ℕ → Answer) → Except Fault (Outbox × List FileSender)
  | [], _ => pure (o, [])
  | f :: fileQueueLoad, answers =>
    if f.friendNumber ≠ friendNumber then pure (o, f :: fileQueueLoad)
    else do
      let (o, _) ← o.create f.addr (.resume f) (answers 0)
      resumeSend o friendNumber fileQueueLoad fun k => answers (k + 1)

end ToxSuite.File
