import ToxSuite.File.Transfer

/-!
# File events

Tox names a transfer by friend number and file number: in a request for a chunk
(`file_chunk_request_cb`), and when the peer pauses, resumes or cancels it
(`file_recv_control_cb`). The same callback is told of the transfers that come in, whose
numbers no entry of `FilesSender` has.

An event should touch only the transfer it names. `file_recv_control_cb` destroys what
`FileSender_get` returned without a look at it, so that the cancellation of a transfer for
which there is no entry ends the program; every other event touches only the transfer it
names (`touches_only_iff`).
-/

namespace ToxSuite.File

open ToxSuite.Lib

/-! ### The callbacks -/

/-- The send queue, and where the streams stand. -/
structure Senders where
  filesSender : List FileSender
  /-- Where the stream of the entry at an address stands. -/
  position : ℕ → ℕ

/-- What the files hold. -/
abbrev FileContents := CStr → Bytes

/-- A chunk for `tox_file_send_chunk`. -/
structure Chunk where
  friendNumber : UInt32
  fileNumber : UInt32
  position : UInt64
  data : Bytes
  deriving DecidableEq

/-- `INT64_MAX`, the last offset `fseek` takes; it is handed a `long`. -/
abbrev INT64_MAX : ℕ := 9223372036854775807

/-- `fread` from a position. A stream opened for writing cannot be read. -/
def Stream.fread (stream : Stream) (files : FileContents) (position length : ℕ) : Bytes :=
  match stream.mode with
  | .read => ((files stream.path).drop position).take length
  | .write => []

/-- The stream of an entry is moved. -/
def Senders.seek (s : Senders) (addr position : ℕ) : Senders :=
  { s with position := fun a => if a = addr then position else s.position a }

/-- `file_chunk_request_cb`: the chunk it sends, if it sends one. -/
def Senders.fileChunkRequestCb (files : FileContents) (s : Senders) (friendNumber fileNumber : UInt32)
    (position length : UInt64) : Senders × Option Chunk :=
  match fileSenderGet s.filesSender friendNumber fileNumber with
  | none => (s, none)
  | some f =>
    match f.file with
    | none => (s, none)
    | some stream =>
      if length = 0 then
        ({ s with filesSender := fileSenderDestroy s.filesSender friendNumber fileNumber }, none)
      else if INT64_MAX < position.toNat then (s, none)
      else
        let s := s.seek f.addr position.toNat
        let data := stream.fread files (s.position f.addr) length.toNat
        (s.seek f.addr (s.position f.addr + data.length), some ⟨friendNumber, fileNumber, position, data⟩)

/-- What the callback does to the queue. -/
theorem Senders.fileChunkRequestCb_filesSender (files : FileContents) (s : Senders) (n m : UInt32)
    (position length : UInt64) : (s.fileChunkRequestCb files n m position length).1.filesSender =
      File.fileChunkRequestCb s.filesSender n m length.toNat := by
  have hlength : length.toNat = 0 ↔ length = 0 := by
    rw [← UInt64.toNat_inj]
    rfl
  unfold fileChunkRequestCb File.fileChunkRequestCb
  cases fileSenderGet s.filesSender n m with
  | none => rfl
  | some f =>
    cases hfile : f.file with
    | none => simp [hfile]
    | some stream =>
      simp only [hfile, Option.isNone_some, hlength, Bool.false_eq_true, if_false]
      split_ifs <;> rfl

/-- An event that names a transfer. -/
inductive FileEvent where
  | chunkRequest (position length : UInt64)
  | control (c : FileControl)
  deriving DecidableEq

/-- What an event does. -/
def Senders.fileEvent (files : FileContents) (s : Senders) (friendNumber fileNumber : UInt32) :
    FileEvent → Except Fault (Senders × Option Chunk)
  | .chunkRequest position length => pure (s.fileChunkRequestCb files friendNumber fileNumber position length)
  | .control c => do
    let filesSender ← fileRecvControlCb s.filesSender friendNumber fileNumber c
    pure ({ s with filesSender }, none)

/-- The event ends the transfer: a request of length zero for an open entry, or a cancellation. -/
def FileEvent.ends (f : FileSender) : FileEvent → Bool
  | .chunkRequest _ length => length == 0 && f.file.isSome
  | .control c => c == .cancel

/-! ### The transfer it names -/

/-- The queue is cut at the transfer. -/
theorem fileSenderGet_split {pre post : List FileSender} {f : FileSender} {n m : UInt32}
    (hf : f.hasKey n m = true) (hpre : ∀ g ∈ pre, g.hasKey n m = false) :
    fileSenderGet (pre ++ f :: post) n m = some f ∧ fileSenderDestroy (pre ++ f :: post) n m = pre ++ post := by
  constructor
  · unfold fileSenderGet
    rw [List.find?_append, List.find?_eq_none.mpr (by simpa using hpre), List.find?_cons_of_pos hf]
    rfl
  · unfold fileSenderDestroy
    rw [List.eraseP_append_right _ (by simpa using hpre), List.eraseP_cons_of_pos hf]

theorem fileSenderGet_eq_none {q : List FileSender} {n m : UInt32} :
    fileSenderGet q n m = none ↔ ∀ g ∈ q, g.hasKey n m = false := by
  simp [fileSenderGet, List.find?_eq_none]

theorem Senders.seek_position_ne (s : Senders) {addr a : ℕ} (position : ℕ) (h : a ≠ addr) :
    (s.seek addr position).position a = s.position a := by
  simp [seek, h]

/-- **A chunk request** for a transfer: it ends, or a chunk of it may be sent and its stream moved. -/
theorem Senders.fileChunkRequestCb_hit {files : FileContents} {s : Senders} {n m : UInt32} {f : FileSender}
    (hget : fileSenderGet s.filesSender n m = some f) (position length : UInt64) :
    ∃ s' chunk, s.fileChunkRequestCb files n m position length = (s', chunk) ∧
      s'.filesSender = (if FileEvent.ends f (.chunkRequest position length) then
        fileSenderDestroy s.filesSender n m else s.filesSender) ∧
      (∀ a, a ≠ f.addr → s'.position a = s.position a) ∧
      ∀ c ∈ chunk, c.friendNumber = n ∧ c.fileNumber = m := by
  unfold fileChunkRequestCb
  rw [hget]
  cases hfile : f.file with
  | none => exact ⟨s, none, by simp [hfile], by simp [FileEvent.ends, hfile], fun _ _ => rfl, by simp⟩
  | some stream =>
    simp only [hfile, FileEvent.ends, Option.isSome_some, Bool.and_true, beq_iff_eq]
    split_ifs with hlength hposition
    · exact ⟨_, _, rfl, rfl, fun _ _ => rfl, by simp⟩
    · exact ⟨_, _, rfl, rfl, fun _ _ => rfl, by simp⟩
    · refine ⟨_, _, rfl, rfl, fun a ha => ?_, ?_⟩
      · rw [seek_position_ne _ _ ha, seek_position_ne _ _ ha]
      · rintro c ⟨⟩
        exact ⟨rfl, rfl⟩

/-- **A control event** for a transfer: it ends, or nothing happens. -/
theorem Senders.control_hit {files : FileContents} {s : Senders} {n m : UInt32} {f : FileSender}
    (hget : fileSenderGet s.filesSender n m = some f) (c : FileControl) :
    s.fileEvent files n m (.control c) =
      .ok ({ s with filesSender :=
        if FileEvent.ends f (.control c) then fileSenderDestroy s.filesSender n m else s.filesSender },
        none) := by
  cases c with
  | pause => rfl
  | resume => rfl
  | cancel => simp [fileEvent, fileRecvControlCb, hget, FileEvent.ends]

/-- **An event for no transfer of the queue** does nothing, unless it is a cancellation. -/
theorem Senders.fileEvent_miss {files : FileContents} {s : Senders} {n m : UInt32}
    (hget : fileSenderGet s.filesSender n m = none) (e : FileEvent) :
    s.fileEvent files n m e = if e = .control .cancel then .error .null else .ok (s, none) := by
  cases e with
  | chunkRequest position length => simp [fileEvent, fileChunkRequestCb, hget]
  | control c =>
    cases c with
    | pause => rfl
    | resume => rfl
    | cancel => simp [fileEvent, fileRecvControlCb, hget]

/-! ### Only this transfer -/

/-- An event touches only the transfer it names: without one in the queue, it does nothing; with one,
this entry goes if the event ends it and is left as it is otherwise, the others are left as they are
and in their order, their streams where they stand, and what is sent is for this transfer. -/
structure TouchesOnly (files : FileContents) (s : Senders) (n m : UInt32) (e : FileEvent) : Prop where
  miss : (∀ f ∈ s.filesSender, f.hasKey n m = false) → s.fileEvent files n m e = .ok (s, none)
  hit : ∀ pre f post, s.filesSender = pre ++ f :: post → f.hasKey n m = true →
    (∀ g ∈ pre ++ post, g.hasKey n m = false) →
      ∃ s' chunk, s.fileEvent files n m e = .ok (s', chunk) ∧
        s'.filesSender = (if e.ends f then pre ++ post else pre ++ f :: post) ∧
        (∀ a, a ≠ f.addr → s'.position a = s.position a) ∧
        ∀ c ∈ chunk, c.friendNumber = n ∧ c.fileNumber = m

/-- **File events touch only the transfer they name** if and only if no transfer is cancelled that has
no entry. -/
theorem touches_only_iff (files : FileContents) (s : Senders) (n m : UInt32) (e : FileEvent) :
    TouchesOnly files s n m e ↔ (e = .control .cancel → ∃ f ∈ s.filesSender, f.hasKey n m = true) := by
  constructor
  · rintro ⟨hmiss, -⟩ rfl
    by_contra hno
    have hkeys : ∀ f ∈ s.filesSender, f.hasKey n m = false := by
      intro f hf
      exact Bool.eq_false_iff.mpr fun hkey => hno ⟨f, hf, hkey⟩
    have hok := hmiss hkeys
    rw [Senders.fileEvent_miss (fileSenderGet_eq_none.mpr hkeys), if_pos rfl] at hok
    cases hok
  · intro hcancel
    refine ⟨fun hkeys => ?_, fun pre f post hq hf hothers => ?_⟩
    · rw [Senders.fileEvent_miss (fileSenderGet_eq_none.mpr hkeys), if_neg]
      intro he
      obtain ⟨f, hf, hkey⟩ := hcancel he
      rw [hkeys f hf] at hkey
      cases hkey
    · have hpre : ∀ g ∈ pre, g.hasKey n m = false := fun g hg => hothers g (List.mem_append_left post hg)
      obtain ⟨hget, hdestroy⟩ := @fileSenderGet_split pre post f n m hf hpre
      rw [← hq] at hget hdestroy
      rw [← hdestroy, ← hq]
      cases e with
      | chunkRequest position length =>
        obtain ⟨s', chunk, hok, hsenders, hposition, hchunk⟩ :=
          @Senders.fileChunkRequestCb_hit files s n m f hget position length
        exact ⟨s', chunk, congrArg Except.ok hok, hsenders, hposition, hchunk⟩
      | control c => exact ⟨_, _, Senders.control_hit hget c, rfl, fun _ _ => rfl, by simp⟩

/-- A peer cancels a transfer that comes in. -/
theorem cancel_without_entry :
    ¬ TouchesOnly (fun _ => []) ⟨[], fun _ => 0⟩ 0 65536 (.control .cancel) ∧
      Senders.fileEvent (fun _ => []) ⟨[], fun _ => 0⟩ 0 65536 (.control .cancel) = .error .null := by
  refine ⟨fun h => ?_, rfl⟩
  have hok := h.miss (by simp)
  cases hok

end ToxSuite.File
