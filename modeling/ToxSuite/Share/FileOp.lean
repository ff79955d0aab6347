import Mathlib.Data.List.Basic
import ToxSuite.File.Sender

/-!
# `fileop.c`: the shared directory

The program shares the files of a directory. `file_do` is called over and over;
when a recheck was asked for it walks the directory and puts what is new or
changed into `new_list`, and from then on each call hashes one block of one file.
A file is moved to `shr_list` when its hashing begins.

The static variables of the file are one state (`FileOp`); what the file system
and the allocator answer to a call is an argument (`Visit`). The lists are those
of a program that has fewer entries than an `int` counts.
-/

namespace ToxSuite.Share

open ToxSuite.Lib ToxSuite.File

/-! ### Lists of files -/

/-- `FileNode` of a shared file; its hash is the address of a buffer. -/
structure SharedFile where
  file : CStr
  blake2b : Option ℕ
  mtime : Int64
  length : Int64
  /-- `exists`. -/
  present : Bool
  deriving DecidableEq

/-- `shr_list` or `new_list`, with its length. A `realloc` that fails leaves a null pointer
and the length as it was: the entries are still allocated, but out of reach. -/
structure NodeList where
  entries : List SharedFile
  null : Bool
  deriving DecidableEq

/-- A loop over the list; one of length zero is not looked at. -/
def NodeList.read (l : NodeList) : Except Fault (List SharedFile) :=
  if l.null = true ∧ l.entries ≠ [] then .error .null else pure l.entries

/-- The last entry. -/
def NodeList.newest (l : NodeList) : Except Fault SharedFile :=
  match l.null, l.entries.getLast? with
  | false, some node => pure node
  | _, _ => .error .null

/-! ### The state, and what a call meets -/

/-- `HASHING_BUFSIZE`. -/
def HASHING_BUFSIZE : ℕ := 64 * 1024

/-- The file `file_checksumcalc_noblock` is reading, and what it has hashed of it. -/
structure HashStream where
  path : CStr
  pos : ℕ
  fed : Bytes
  deriving DecidableEq

/-- The static variables. -/
structure FileOp where
  shrList : NodeList
  newList : NodeList
  fileRecheck : Bool
  /-- `file_new_c` is set. -/
  fileNewC : Bool
  /-- `hashing`, which is `-1` when nothing is hashed. -/
  hashing : Option ℕ
  last : ℕ
  stream : Option HashStream
  /-- The address of the next hash buffer. -/
  nextBuf : ℕ
  /-- What the hash buffers hold. -/
  contents : ℕ → FileId

/-- The program's start; `file_new_c` may be set. -/
def FileOp.start (fileNewC : Bool) (contents : ℕ → FileId) : FileOp :=
  ⟨⟨[], true⟩, ⟨[], true⟩, false, fileNewC, none, 0, none, 0, contents⟩

/-- The type `ftw` reports an entry with. -/
inductive FtwType where
  | f
  | d
  | dnr
  | ns
  deriving DecidableEq

/-- What `ftw` reports. -/
structure FtwEntry where
  path : CStr
  mtime : Int64
  size : Int64
  type : FtwType
  deriving DecidableEq

/-- Which allocations succeed. -/
structure Allocs where
  /-- `realloc` of `new_list` in the walk, by its length. -/
  grow : ℕ → Bool
  /-- `malloc` of an entry in the walk, by the length of `new_list`. -/
  node : ℕ → Bool
  /-- `realloc` of `shr_list`. -/
  shared : Bool
  /-- `realloc` of `new_list` to one entry less. -/
  shrink : Bool
  /-- `malloc` of the hash buffer. -/
  hash : Bool

/-- What one call of `file_do` meets. -/
structure Visit where
  /-- `canonicalize_file_name` succeeds. -/
  canonicalizes : Bool
  /-- What `ftw` reports, in order. -/
  entries : List FtwEntry
  /-- What `ftw` returns if the callback does not end it. -/
  ftwRc : ℤ
  /-- `access(path, R_OK)` succeeds. -/
  access : CStr → Bool
  /-- `fopen(path, "rb")` succeeds. -/
  opens : CStr → Bool
  /-- What there is to read of a file from a position on. -/
  fread : CStr → ℕ → Bytes
  /-- What the buffer on the stack held. -/
  stack : Vec HASHING_BUFSIZE
  alloc : Allocs

/-! ### The walk -/

/-- The entry of `shr_list` is that of this file, in this version. -/
def SharedFile.matches (f : SharedFile) (e : FtwEntry) : Bool :=
  e.path = f.file && e.mtime = f.mtime && e.size = f.length

/-- The entry of `new_list` for a file; `strdup` is taken to succeed. -/
def FtwEntry.node (e : FtwEntry) : SharedFile := ⟨e.path, none, e.mtime, e.size, true⟩

/-- `file_walk_callback`: `new_list`, and what it returns. -/
def fileWalkCallback (shrList : List SharedFile) (alloc : Allocs) (newList : NodeList) (e : FtwEntry) :
    NodeList × ℤ :=
  if e.type = .f then
    if shrList.any (·.matches e) then (newList, 0)
    else if alloc.grow newList.entries.length = false then ({ newList with null := true }, -1)
    else if alloc.node newList.entries.length = false then ({ newList with null := false }, -1)
    else (⟨newList.entries ++ [e.node], false⟩, 0)
  else (newList, 0)

/-- `ftw`, which ends with the first callback that does not return `0`. -/
def ftw (shrList : List SharedFile) (v : Visit) : NodeList → List FtwEntry → NodeList × ℤ
  | newList, [] => (newList, v.ftwRc)
  | newList, e :: es =>
    match fileWalkCallback shrList v.alloc newList e with
    | (newList, 0) => ftw shrList v newList es
    | (newList, rc) => (newList, rc)

/-- `file_walk_shared`. -/
def fileWalkShared (s : FileOp) (v : Visit) : Except Fault (FileOp × ℤ) :=
  if v.canonicalizes = false then pure (s, -1)
  else do
    let shrList ← s.shrList.read
    let (newList, rc) := ftw shrList v s.newList v.entries
    pure ({ s with newList, fileRecheck := if newList.entries = [] then false else s.fileRecheck }, rc)

/-- An entry after `file_exists_shared` has looked for its file. -/
def SharedFile.checked (v : Visit) (f : SharedFile) : SharedFile := { f with present := v.access f.file }

/-- `file_exists_shared`. -/
def fileExistsShared (s : FileOp) (v : Visit) : Except Fault FileOp := do
  let shrList ← s.shrList.read
  pure { s with shrList := { s.shrList with entries := shrList.map (SharedFile.checked v) } }

/-! ### Hashing -/

/-- The stream there is, or that of a file that opens. -/
def FileOp.openStream (s : FileOp) (v : Visit) (filename : CStr) : Option HashStream :=
  match s.stream with
  | some f => some f
  | none => if v.opens filename then some ⟨filename, 0, []⟩ else none

/-- `file_checksumcalc_noblock`, which hashes the whole buffer for each block it reads.
`generichash` is BLAKE2b, of everything `crypto_generichash_update` was given. -/
def fileChecksumcalcNoblock (generichash : Bytes → FileId) (s : FileOp) (v : Visit) (blake2b : Option ℕ)
    (filename : CStr) : Except Fault (FileOp × ℤ) :=
  match s.openStream v filename with
  | none => pure (s, -1)
  | some f =>
    let block := (v.fread f.path f.pos).take HASHING_BUFSIZE
    if block ≠ [] then
      let fed := f.fed ++ block ++ v.stack.1.drop block.length
      pure ({ s with stream := some ⟨f.path, f.pos + block.length, fed⟩ }, block.length)
    else
      match blake2b with
      | none => .error .null
      | some b =>
        pure ({ s with stream := none, contents := Function.update s.contents b (generichash f.fed) }, 0)

/-! ### `file_do` -/

/-- `file_recheck_callback` on `SIGUSR1`. -/
def fileRecheckCallback (s : FileOp) : FileOp := { s with fileRecheck := true }

/-- A recheck was asked for, and nothing is left to do from the one before. -/
def FileOp.Due (s : FileOp) : Prop := s.fileRecheck = true ∧ s.newList.entries = [] ∧ s.hashing = none

instance (s : FileOp) : Decidable s.Due := inferInstanceAs (Decidable (_ ∧ _ ∧ _))

/-- The first part of `file_do`: whether the directory walk started. -/
def FileOp.recheck (s : FileOp) (v : Visit) : Except Fault (FileOp × Bool) :=
  if s.Due then do
    let s ← fileExistsShared s v
    let (s, _) ← fileWalkShared s v
    pure (s, v.canonicalizes)
  else pure (s, false)

/-- The index in `shr_list` of the path that the last entry of `new_list` has. -/
def FileOp.samePath (s : FileOp) : Except Fault (Option ℕ) := do
  let shrList ← s.shrList.read
  if shrList = [] then pure none
  else do
    let node ← s.newList.newest
    pure (shrList.findIdx? (·.file = node.file))

/-- The last entry of `new_list` goes into `shr_list`, at the end or for an entry that is
freed: the index and the hash buffer of the freed entry. `none` where `realloc` fails. -/
def FileOp.place (s : FileOp) (v : Visit) : Except Fault (FileOp × Option (ℕ × Option ℕ)) := do
  match ← s.samePath with
  | none =>
    if v.alloc.shared = false then pure ({ s with shrList := { s.shrList with null := true } }, none)
    else do
      let node ← s.newList.newest
      let last := s.shrList.entries.length
      pure ({ s with shrList := ⟨s.shrList.entries ++ [node], false⟩, last }, some (last, none))
  | some t => do
    let node ← s.newList.newest
    let freed := s.shrList.entries[t]?.bind SharedFile.blake2b
    pure ({ s with shrList := ⟨s.shrList.entries.set t node, false⟩, last := t }, some (t, freed))

/-- `shr_list[last]->BLAKE2b = b`. -/
def NodeList.setHash (l : NodeList) (last : ℕ) (b : Option ℕ) : NodeList :=
  { l with entries := l.entries.modify last fun f => { f with blake2b := b } }

/-- `new_list` shrinks, and the entry at `last` gets a hash buffer: whether that succeeds. -/
def FileOp.begin (s : FileOp) (v : Visit) : FileOp × Bool :=
  let entries := s.newList.entries.dropLast
  if v.alloc.shrink = false ∧ entries ≠ [] then ({ s with newList := ⟨entries, true⟩ }, false)
  else if v.alloc.hash = false then
    ({ s with newList := ⟨entries, false⟩, shrList := s.shrList.setHash s.last none }, false)
  else
    ({ s with
        newList := ⟨entries, false⟩
        shrList := s.shrList.setHash s.last (some s.nextBuf)
        nextBuf := s.nextBuf + 1
        hashing := some s.last }, true)

/-- What a call of `file_do` did. -/
structure Report where
  /-- The directory walk started. -/
  walked : Bool
  /-- The index at which an entry went into `shr_list`. -/
  taken : Option ℕ
  /-- The hash buffer of the entry it replaced. -/
  freed : Option ℕ
  /-- What `file_checksumcalc_noblock` returned. -/
  rc : Option ℤ
  /-- What `file_new_c` was called with. -/
  announced : Option (SharedFile × ℕ)
  ret : ℤ
  deriving DecidableEq

/-- The second part of `file_do`: the index at which an entry was placed, the buffer freed
and whether the call goes on. -/
def FileOp.take (s : FileOp) (v : Visit) : Except Fault (FileOp × Option ℕ × Option ℕ × Bool) :=
  if s.newList.entries ≠ [] ∧ s.hashing = none then do
    match ← s.place v with
    | (s, none) => pure (s, none, none, false)
    | (s, some (last, freed)) =>
      let (s, ok) := s.begin v
      pure (s, some last, freed, ok)
  else pure (s, none, none, true)

/-- The last part of `file_do`: what `file_checksumcalc_noblock` and `file_new_c` were called
for. -/
def FileOp.hash (generichash : Bytes → FileId) (s : FileOp) (v : Visit) :
    Except Fault (FileOp × Option ℤ × Option (SharedFile × ℕ)) :=
  match s.hashing with
  | none => pure (s, none, none)
  | some _ => do
    let shrList ← s.shrList.read
    match shrList[s.last]? with
    | none => .error .overread
    | some f =>
      let (s, rc) ← fileChecksumcalcNoblock generichash s v f.blake2b f.file
      if rc ≤ 0 then
        let fileRecheck := if s.newList.entries = [] then false else s.fileRecheck
        pure ({ s with hashing := none, fileRecheck }, some rc,
          if s.fileNewC = true then some (f, s.last) else none)
      else pure (s, some rc, none)

/-- `file_do`. -/
def fileDo (generichash : Bytes → FileId) (s : FileOp) (v : Visit) : Except Fault (FileOp × Report) := do
  let (s, walked) ← s.recheck v
  let (s, taken, freed, ok) ← s.take v
  if ok = false then pure (s, ⟨walked, taken, freed, none, none, -1⟩)
  else do
    let (s, rc, announced) ← s.hash generichash v
    pure (s, ⟨walked, taken, freed, rc, announced, if rc.any (· < 0) then -1 else 0⟩)

end ToxSuite.Share
