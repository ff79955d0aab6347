import Mathlib.Logic.Function.Basic
import ToxSuite.File.Sender

/-!
# `file.c`: receiving a file

Tox delivers the chunks of an incoming file in any order, and `file_recv_chunk_cb`
opens the file for each, seeks to the chunk's place and writes it. It takes the
return value of `fseek` the wrong way round: when the seek succeeds it reports an
error and gives up.

So a delivery without disk errors writes no byte, and the file is the content
afterwards if and only if it was before (`received_iff`).
-/

namespace ToxSuite.File

open ToxSuite.Lib

/-- The disk: what the files hold, by name. -/
abbrev Files := Bytes → Option Bytes

/-- `"%u.%u.bin"`. -/
def recvFilename (friendNumber fileNumber : UInt32) : Bytes :=
  decNat friendNumber.toNat ++ 46 :: (decNat fileNumber.toNat ++ ascii ".bin")

/-- How the disk operations of a call come out. -/
structure RecvIO where
  /-- One of the two `fopen` succeeds. -/
  opens : Bool
  /-- `fseek` returns `0`. -/
  seeks : Bool
  /-- How many bytes `fwrite` gets to the disk, at most. -/
  accepts : Option ℕ

/-- No operation fails. -/
def RecvIO.good : RecvIO := ⟨true, true, none⟩

/-- What `fwrite` gets to the disk. -/
def RecvIO.written (io : RecvIO) (data : Bytes) : Bytes :=
  match io.accepts with
  | none => data
  | some n => data.take n

/-- The content after `data` was written over its start. -/
def overwrite (content data : Bytes) : Bytes := data ++ content.drop data.length

/-- `file_recv_chunk_cb`. -/
def fileRecvChunkCb (io : RecvIO) (files : Files) (friendNumber fileNumber : UInt32) (_position : UInt64)
    (data : Bytes) : Files :=
  if data.length = 0 then files
  else
    let filename := recvFilename friendNumber fileNumber
    if io.opens then
      -- `"r+b"` opens a file that is there, `"wb"` makes an empty one
      let content := (files filename).getD []
      if io.seeks then
        -- `!fseek(...)` holds: "couldn't seek to position"
        Function.update files filename (some content)
      else
        -- the stream is where it was opened
        Function.update files filename (some (overwrite content (io.written data)))
    else files

/-- The calls for the chunks, and the call that completes the transfer, on a disk that does
not fail. -/
def received (files : Files) (friendNumber fileNumber : UInt32) (chunks : List (UInt64 × Bytes)) : Files :=
  let files := chunks.foldl (fun files c => fileRecvChunkCb .good files friendNumber fileNumber c.1 c.2) files
  fileRecvChunkCb .good files friendNumber fileNumber 0 []

/-- The chunks of a content that is cut into parts, each with its position. -/
def chunksAt : ℕ → List Bytes → List (UInt64 × Bytes)
  | _, [] => []
  | position, part :: parts => (UInt64.ofNat position, part) :: chunksAt (position + part.length) parts

/-- A chunk makes the file exist, and writes nothing to it. -/
theorem fileRecvChunkCb_good {files : Files} {n m : UInt32} {position : UInt64} {data : Bytes}
    (hdata : data ≠ []) :
    fileRecvChunkCb .good files n m position data =
      Function.update files (recvFilename n m) (some ((files (recvFilename n m)).getD [])) := by
  simp [fileRecvChunkCb, RecvIO.good, hdata]

/-- **What a delivery does**: if there is a chunk, the file exists afterwards, with what it
held before. -/
theorem received_eq (n m : UInt32) (chunks : List (UInt64 × Bytes)) :
    ∀ files : Files, (∀ c ∈ chunks, c.2 ≠ []) → received files n m chunks =
      if chunks = [] then files
      else Function.update files (recvFilename n m) (some ((files (recvFilename n m)).getD [])) := by
  induction chunks with
  | nil => intro files _; rfl
  | cons c chunks ih =>
    intro files h
    have hrest := ih (fileRecvChunkCb .good files n m c.1 c.2) fun d hd => h d (List.mem_cons_of_mem c hd)
    rw [fileRecvChunkCb_good (h c List.mem_cons_self)] at hrest
    rw [if_neg (List.cons_ne_nil c chunks)]
    change received (fileRecvChunkCb .good files n m c.1 c.2) n m chunks = _
    rw [fileRecvChunkCb_good (h c List.mem_cons_self), hrest]
    split_ifs
    · rfl
    · rw [Function.update_self, Option.getD_some, Function.update_idem]

theorem chunksAt_eq_nil (position : ℕ) {parts : List Bytes} : chunksAt position parts = [] ↔ parts = [] := by
  cases parts <;> simp [chunksAt]

theorem mem_chunksAt {parts : List Bytes} : ∀ {position : ℕ} {c : UInt64 × Bytes},
    c ∈ chunksAt position parts → c.2 ∈ parts := by
  induction parts with
  | nil => intro position c hc; cases hc
  | cons part parts ih =>
    intro position c hc
    rcases List.mem_cons.mp hc with rfl | hc
    · exact List.mem_cons_self
    · exact List.mem_cons_of_mem part (ih hc)

/-- **Receiving reassembles the file** if and only if the file already held the content; other
files are left alone. -/
theorem received_iff (files : Files) (friendNumber fileNumber : UInt32) (parts : List Bytes)
    (chunks : List (UInt64 × Bytes)) (hparts : ∀ part ∈ parts, part ≠ [])
    (horder : chunks.Perm (chunksAt 0 parts)) :
    (received files friendNumber fileNumber chunks (recvFilename friendNumber fileNumber) =
        some parts.flatten ↔
      files (recvFilename friendNumber fileNumber) = some parts.flatten) ∧
    ∀ filename ≠ recvFilename friendNumber fileNumber,
      received files friendNumber fileNumber chunks filename = files filename := by
  have hchunks : ∀ c ∈ chunks, c.2 ≠ [] := fun c hc => hparts c.2 (mem_chunksAt (horder.mem_iff.mp hc))
  have hnil : chunks = [] ↔ parts = [] := by
    rw [← chunksAt_eq_nil 0]
    exact ⟨fun h => (h ▸ horder).nil_eq.symm, fun h => (h ▸ horder).eq_nil⟩
  rw [received_eq friendNumber fileNumber chunks files hchunks]
  by_cases hempty : chunks = []
  · simp only [hempty, if_true, ne_eq, implies_true, and_self]
  · simp only [hempty, if_false]
    refine ⟨?_, fun filename hne => Function.update_of_ne hne _ _⟩
    rw [Function.update_self]
    cases hold : files (recvFilename friendNumber fileNumber) with
    | some content => simp
    | none =>
      -- a content that came in chunks is not empty
      have hflat : parts.flatten ≠ [] := by
        intro hflat
        refine hempty (hnil.mpr (List.eq_nil_iff_forall_not_mem.mpr fun part hpart => ?_))
        exact hparts part hpart (List.flatten_eq_nil_iff.mp hflat part hpart)
      simpa [eq_comm] using hflat

/-- Two chunks, the second first. -/
theorem received_iff_swapped :
    (received (fun _ => none) 1 2 [(1, [66]), (0, [65])] (recvFilename 1 2) = some [[65], [66]].flatten ↔
        (fun _ => none : Files) (recvFilename 1 2) = some [[65], [66]].flatten) ∧
      ∀ filename ≠ recvFilename 1 2,
        received (fun _ => none) 1 2 [(1, [66]), (0, [65])] filename = none :=
  received_iff (fun _ => none) 1 2 [[65], [66]] _ (by simp) (List.Perm.swap _ _ _)

/-- A file of one chunk arrives as an empty file, and one left from an earlier transfer stays
as it is. -/
theorem received_nothing :
    received (fun _ => none) 1 2 (chunksAt 0 [[65]]) (recvFilename 1 2) = some [] ∧
      received (fun _ => some [66, 67]) 1 2 (chunksAt 0 [[65]]) (recvFilename 1 2) = some [66, 67] := by
  constructor
  · rw [received_eq 1 2 _ _ (by simp [chunksAt])]
    simp [chunksAt]
  · rw [received_eq 1 2 _ _ (by simp [chunksAt])]
    simp [chunksAt]

end ToxSuite.File
