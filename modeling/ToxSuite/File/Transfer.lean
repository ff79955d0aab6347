import ToxSuite.Lib.Runs
import ToxSuite.File.Sender

/-!
# Transfers come and go

The send queue as a machine (`transferStep`): senders are created, loaded senders
are resumed when their friend connects, and Tox asks for chunks, completes,
cancels and drops transfers.

A send that fails should leave no entry behind. The callers of `add_filesender`
do not look at what it returns, or look and leave the entry where it is: an
operation that fails leaves `FilesSender` as it was only where it bails out before
the call, and every entry of the queue is fit to be served and saved throughout a
run if and only if no call fails (`failed_send_iff`).
-/

namespace ToxSuite.File

open ToxSuite.Lib ToxSuite.Friend

/-- `TOX_FILE_CONTROL`. -/
inductive FileControl where
  | resume
  | pause
  | cancel
  deriving DecidableEq

/-- `file_chunk_request_cb`, as far as the queue goes. -/
def fileChunkRequestCb (filesSender : List FileSender) (friendNumber fileNumber : UInt32) (length : ℕ) :
    List FileSender :=
  match fileSenderGet filesSender friendNumber fileNumber with
  | none => filesSender
  | some f =>
    if f.file.isNone then filesSender
    else if length = 0 then fileSenderDestroy filesSender friendNumber fileNumber
    else filesSender

/-- `file_recv_control_cb`, which hands `FileSender_destroy` whatever `FileSender_get`
returned. -/
def fileRecvControlCb (filesSender : List FileSender) (friendNumber fileNumber : UInt32) :
    FileControl → Except Fault (List FileSender)
  | .pause => pure filesSender
  | .resume => pure filesSender
  | .cancel =>
    match fileSenderGet filesSender friendNumber fileNumber with
    | none => .error .null
    | some _ => pure (fileSenderDestroy filesSender friendNumber fileNumber)

/-- The program and Tox, as far as outgoing transfers go. -/
structure Transfers where
  friendsInfo : List FriendInfo
  outbox : Outbox
  fileQueueLoaded : List FileSender
  /-- The address of the next allocation. -/
  nextAddr : ℕ
  /-- The entries whose transfer Tox completed or cancelled. -/
  ended : List ℕ

/-- The state before anything was sent. -/
def Transfers.start (friendsInfo : List FriendInfo) (fileQueueLoaded : List FileSender) (nextAddr : ℕ) :
    Transfers :=
  ⟨friendsInfo, ⟨[], [], []⟩, fileQueueLoaded, nextAddr, []⟩

/-- What can happen to transfers. -/
inductive TransferEvent where
  | fileSenderNew (friendNumber : UInt32) (shrfiles : List FileNode) (packn : ℤ) (answer : Answer)
  | sending (friendNumber : UInt32) (outfilename : CStr) (answer : Answer)
  | sendimage (friendNumber : UInt32) (answer : Answer)
  | connectionStatus (friendNumber : UInt32) (status : Connection) (answers : ℕ → Answer)
  | chunkRequest (friendNumber fileNumber : UInt32) (length : ℕ)
  | control (friendNumber fileNumber : UInt32) (control : FileControl)

/-- A new sender. -/
def Transfers.create (s : Transfers) (c : Creation) (answer : Answer) : Except Fault Transfers := do
  let (outbox, _) ← s.outbox.create s.nextAddr c answer
  pure { s with outbox, nextAddr := s.nextAddr + 1 }

/-- Tox ends a transfer and frees its number. -/
def Transfers.finish (s : Transfers) (friendNumber fileNumber : UInt32) : Transfers :=
  { s with
    outbox := { s.outbox with live := s.outbox.live.filter fun t => !t.hasKey friendNumber fileNumber }
    ended := s.ended ++ (s.outbox.live.filter (·.hasKey friendNumber fileNumber)).map Outgoing.addr }

/-- A friend goes offline: Tox drops its transfers and frees their numbers. -/
def Outbox.drop (o : Outbox) (friendNumber : UInt32) : Outbox :=
  { o with live := o.live.filter fun t => t.friendNumber ≠ friendNumber }

/-- The queue after a callback. -/
def Transfers.withSenders (s : Transfers) (filesSender : List FileSender) : Transfers :=
  { s with outbox := { s.outbox with filesSender } }

/-- What an event does. -/
def transferEvent (s : Transfers) : TransferEvent → Except Fault Transfers
  | .fileSenderNew n shrfiles packn answer => s.create (.fileSenderNew n shrfiles packn) answer
  | .sending n outfilename answer => s.create (.sending n outfilename) answer
  | .sendimage n answer => s.create (.sendimage n) answer
  | .connectionStatus n status answers => do
    let friendsInfo ← friendConnectionStatus s.friendsInfo n status
    match status with
    | .none => pure { s with friendsInfo, outbox := s.outbox.drop n }
    | .tcp | .udp =>
      let (outbox, fileQueueLoaded) ← resumeSend s.outbox n s.fileQueueLoaded answers
      pure { s with friendsInfo, outbox, fileQueueLoaded }
  | .chunkRequest n m length =>
    let s' := s.withSenders (fileChunkRequestCb s.outbox.filesSender n m length)
    pure (if length = 0 then s'.finish n m else s')
  | .control n m control => do
    let filesSender ← fileRecvControlCb s.outbox.filesSender n m control
    let s' := s.withSenders filesSender
    pure (if control = .cancel then s'.finish n m else s')

/-- A step: a fault ends the program. -/
def transferStep (s : Transfers) (e : TransferEvent) : Option Transfers := (transferEvent s e).toOption

/-! ### What a step can do -/

/-- The sender an event makes, and what it meets. -/
def TransferEvent.creation : TransferEvent → Option (Creation × Answer)
  | .fileSenderNew n shrfiles packn answer => some (.fileSenderNew n shrfiles packn, answer)
  | .sending n outfilename answer => some (.sending n outfilename, answer)
  | .sendimage n answer => some (.sendimage n, answer)
  | _ => none

/-- What a step can do: the state after an event, by cases on what the program finds. -/
inductive Does (s : Transfers) : TransferEvent → Transfers → Prop
  | created {e : TransferEvent} {c : Creation} {answer : Answer} {s' : Transfers}
      (he : e.creation = some (c, answer)) (h : s.create c answer = .ok s') : Does s e s'
  | offline {n : UInt32} {answers : ℕ → Answer} {friendsInfo : List FriendInfo}
      (hinfo : friendConnectionStatus s.friendsInfo n .none = .ok friendsInfo) :
      Does s (.connectionStatus n .none answers) { s with friendsInfo, outbox := s.outbox.drop n }
  | online {n : UInt32} {status : Connection} {answers : ℕ → Answer} {friendsInfo : List FriendInfo}
      {outbox : Outbox} {fileQueueLoaded : List FileSender} (hstatus : status ≠ .none)
      (hinfo : friendConnectionStatus s.friendsInfo n status = .ok friendsInfo)
      (hresume : resumeSend s.outbox n s.fileQueueLoaded answers = .ok (outbox, fileQueueLoaded)) :
      Does s (.connectionStatus n status answers) { s with friendsInfo, outbox, fileQueueLoaded }
  | served {n m : UInt32} {length : ℕ} (hlength : length ≠ 0) : Does s (.chunkRequest n m length) s
  | completed {n m : UInt32} {f : FileSender} (hget : fileSenderGet s.outbox.filesSender n m = some f)
      (hfile : f.file.isSome) :
      Does s (.chunkRequest n m 0) ((s.withSenders (fileSenderDestroy s.outbox.filesSender n m)).finish n m)
  /-- Tox is done with a transfer for which there is no entry with a stream. -/
  | ignored {n m : UInt32} (hget : ∀ f, fileSenderGet s.outbox.filesSender n m = some f → f.file = none) :
      Does s (.chunkRequest n m 0) (s.finish n m)
  | noted {n m : UInt32} {control : FileControl} (hcontrol : control ≠ .cancel) :
      Does s (.control n m control) s
  | cancelled {n m : UInt32} {f : FileSender} (hget : fileSenderGet s.outbox.filesSender n m = some f) :
      Does s (.control n m .cancel) ((s.withSenders (fileSenderDestroy s.outbox.filesSender n m)).finish n m)

/-- **The inversion of a step**. -/
theorem does_transferStep {s s' : Transfers} {e : TransferEvent} (h : transferStep s e = some s') :
    Does s e s' := by
  have hok : transferEvent s e = .ok s' := toOption_eq_some.mp h
  cases e with
  | fileSenderNew n shrfiles packn answer => exact .created rfl hok
  | sending n outfilename answer => exact .created rfl hok
  | sendimage n answer => exact .created rfl hok
  | connectionStatus n status answers =>
    obtain ⟨friendsInfo, hinfo, hok⟩ := bind_eq_ok.mp hok
    cases status with
    | none =>
      cases hok
      exact .offline hinfo
    | tcp | udp =>
      obtain ⟨⟨o, q⟩, hresume, hok⟩ := bind_eq_ok.mp hok
      cases hok
      exact .online (by decide) hinfo hresume
  | chunkRequest n m length =>
    cases hok
    unfold fileChunkRequestCb
    by_cases hlength : length = 0
    · subst hlength
      simp only [if_true]
      cases hget : fileSenderGet s.outbox.filesSender n m with
      | none => exact .ignored fun f hf => by simp [hget] at hf
      | some f =>
        dsimp only
        split_ifs with hfile
        · refine .ignored fun g hg => ?_
          cases hget.symm.trans hg
          exact Option.isNone_iff_eq_none.mp hfile
        · exact .completed hget (by simpa [Option.isSome_iff_ne_none] using hfile)
    · simp only [hlength, if_false, ite_self]
      split <;> exact .served hlength
  | control n m control =>
    obtain ⟨q, hq, hok⟩ := bind_eq_ok.mp hok
    cases hok
    cases control with
    | pause =>
      cases hq
      exact .noted (by decide)
    | resume =>
      cases hq
      exact .noted (by decide)
    | cancel =>
      unfold fileRecvControlCb at hq
      dsimp only at hq
      split at hq
      · cases hq
      · next f hget =>
        cases hq
        exact .cancelled hget

/-! ### What `add_filesender` does -/

/-- The file is open or opens, and Tox issues a number. -/
def Outbox.Sends (o : Outbox) (f : FileSender) (answer : Answer) : Prop :=
  (f.stream answer.disk).isSome ∧ toxFileSend o.live f.friendNumber answer.fileNumber ≠ UINT32_MAX

/-- What `add_filesender` leaves of an entry as it was. -/
structure Handed (disk : Disk) (f f' : FileSender) : Prop where
  addr : f'.addr = f.addr
  friendNumber : f'.friendNumber = f.friendNumber
  pathname : f'.pathname = f.pathname
  name : f'.info.file = f.info.file
  hash : f.info.blake2b.isSome → f'.info.blake2b = f.info.blake2b
  length : f'.info.length = f.info.length ∨ f.info.length = 0 ∧
    ∃ stream, f.stream disk = some stream ∧ f'.info.length = disk.size stream.path

/-- The transfer of an entry. -/
def FileSender.outgoing (f : FileSender) : Outgoing := ⟨f.friendNumber, f.fileNumber, f.addr⟩

theorem FileSender.handed_spec {f : FileSender} {answer : Answer} {stream : Stream}
    (hs : f.stream answer.disk = some stream) (fileNumber : UInt32) :
    Handed answer.disk f (f.handed stream fileNumber answer) where
  addr := rfl
  friendNumber := rfl
  pathname := rfl
  name := rfl
  hash h := by
    obtain ⟨b, hb⟩ := Option.isSome_iff_exists.mp h
    simp [FileSender.handed, hb]
  length := by
    unfold FileSender.handed
    dsimp only
    split_ifs with h0
    · exact .inr ⟨h0, stream, hs, rfl⟩
    · exact .inl rfl

theorem FileSender.stream_of_file {f : FileSender} {disk : Disk} {stream : Stream} (h : f.file = some stream) :
    f.stream disk = some stream := by
  simp [FileSender.stream, h]

theorem FileSender.file_of_stream {f : FileSender} {disk : Disk} (h : f.stream disk = none) : f.file = none := by
  unfold stream at h
  cases hf : f.file with
  | none => rfl
  | some stream => simp [hf] at h

/-- The entry `add_filesender` leaves, with the stream it worked on. -/
theorem addFilesender_handed {live : List Outgoing} {f f' : FileSender} {answer : Answer} {n : UInt32}
    (h : addFilesender live f answer = .ok (f', n)) :
    Handed answer.disk f f' ∧ f'.file = f.stream answer.disk := by
  unfold addFilesender at h
  cases hs : f.stream answer.disk with
  | none =>
    simp only [hs, pure_eq_ok, Except.ok.injEq, Prod.mk.injEq] at h
    obtain ⟨rfl, -⟩ := h
    exact ⟨⟨rfl, rfl, rfl, rfl, fun _ => rfl, .inl rfl⟩, FileSender.file_of_stream hs⟩
  | some stream =>
    cases hname : f.info.file with
    | none => simp [hs, hname] at h
    | some name =>
      simp only [hs, hname, pure_eq_ok, Except.ok.injEq, Prod.mk.injEq] at h
      obtain ⟨rfl, -⟩ := h
      exact ⟨FileSender.handed_spec hs _, rfl⟩

/-- **The entry stands at the head of the queue**, sent or not. -/
theorem Outbox.add_head {o o' : Outbox} {f : FileSender} {answer : Answer} {n : UInt32}
    (h : o.add f answer = .ok (o', n)) : ∃ f', Handed answer.disk f f' ∧ f'.file = f.stream answer.disk ∧
      o'.filesSender = f' :: o.filesSender := by
  obtain ⟨⟨f', k⟩, hadd, h⟩ := bind_eq_ok.mp h
  obtain ⟨hhanded, hfile⟩ := addFilesender_handed hadd
  refine ⟨f', hhanded, hfile, ?_⟩
  dsimp only at h
  split_ifs at h
  · cases h
    rfl
  · cases h
    rfl

/-- Tox has no live transfer under the number it issues. -/
theorem toxFileSend_fresh {live : List Outgoing} {n reply : UInt32}
    (h : toxFileSend live n reply ≠ UINT32_MAX) :
    ∀ t ∈ live, t.hasKey n (toxFileSend live n reply) = false := by
  intro t ht
  unfold toxFileSend at h ⊢
  split_ifs at h ⊢ with hany
  · exact absurd rfl h
  · simp only [List.any_eq_true, not_exists, not_and] at hany
    simpa using hany t ht

/-- **What `add_filesender` does** on an entry at the head of the queue: it fails and
leaves the entry, without a stream or under `UINT32_MAX`, or it sends, and Tox has a new
transfer for a complete entry. -/
theorem Outbox.add_cases {o o' : Outbox} {f : FileSender} {answer : Answer} {n : UInt32}
    (h : o.add f answer = .ok (o', n)) : ∃ f', Handed answer.disk f f' ∧
      (¬ o.Sends f answer ∧ n = UINT32_MAX ∧ (f'.file.isNone ∨ f'.fileNumber = UINT32_MAX) ∧
          o' = { o with filesSender := f' :: o.filesSender } ∨
        o.Sends f answer ∧ n ≠ UINT32_MAX ∧ f'.file.isSome ∧ f'.info.file.isSome ∧
          f'.info.blake2b.isSome ∧ (∀ t ∈ o.live, t.hasKey f'.friendNumber f'.fileNumber = false) ∧
          f'.fileNumber ≠ UINT32_MAX ∧
          o' = ⟨f' :: o.filesSender, f'.outgoing :: o.live, f'.outgoing :: o.issued⟩) := by
  obtain ⟨⟨f', k⟩, hadd, h⟩ := bind_eq_ok.mp h
  unfold addFilesender at hadd
  cases hs : f.stream answer.disk with
  | none =>
    simp only [hs, pure_eq_ok, Except.ok.injEq, Prod.mk.injEq] at hadd
    obtain ⟨rfl, rfl⟩ := hadd
    simp only [if_true, pure_eq_ok, Except.ok.injEq, Prod.mk.injEq] at h
    obtain ⟨rfl, rfl⟩ := h
    have hfile : f.file.isNone := Option.isNone_iff_eq_none.mpr (FileSender.file_of_stream hs)
    exact ⟨f, ⟨rfl, rfl, rfl, rfl, fun _ => rfl, .inl rfl⟩,
      .inl ⟨by simp [Outbox.Sends, hs], rfl, .inl hfile, rfl⟩⟩
  | some stream =>
    cases hname : f.info.file with
    | none => simp [hs, hname] at hadd
    | some name =>
      simp only [hs, hname, pure_eq_ok, Except.ok.injEq, Prod.mk.injEq] at hadd
      obtain ⟨rfl, rfl⟩ := hadd
      refine ⟨f.handed stream (toxFileSend o.live f.friendNumber answer.fileNumber) answer,
        FileSender.handed_spec hs _, ?_⟩
      dsimp only at h
      split_ifs at h with hmax
      · simp only [pure_eq_ok, Except.ok.injEq, Prod.mk.injEq] at h
        obtain ⟨rfl, rfl⟩ := h
        exact .inl ⟨fun hsend => hsend.2 hmax, hmax, .inr hmax, rfl⟩
      · simp only [pure_eq_ok, Except.ok.injEq, Prod.mk.injEq] at h
        obtain ⟨rfl, rfl⟩ := h
        exact .inr ⟨⟨by simp [hs], hmax⟩, hmax, rfl, by simp [FileSender.handed, hname], rfl,
          toxFileSend_fresh hmax, hmax, rfl⟩

/-! ### No dead entries -/

/-- The entry can be served and saved: it has an open file, a name and a hash, and the
number Tox issued for it. -/
structure FileSender.Complete (issued : List Outgoing) (f : FileSender) : Prop where
  file : f.file.isSome
  name : f.info.file.isSome
  hash : f.info.blake2b.isSome
  number : f.fileNumber ≠ UINT32_MAX ∧ f.outgoing ∈ issued

/-- All entries of the queue are complete. -/
def Outbox.Complete (o : Outbox) : Prop := ∀ f ∈ o.filesSender, f.Complete o.issued

/-- If the operation gets to `add_filesender`, that succeeds. -/
def Outbox.Completes (o : Outbox) (addr : ℕ) (c : Creation) (answer : Answer) : Prop :=
  ∀ f, c.entry addr answer.disk = .ok (some f) → o.Sends f answer

/-- An operation bails out and changes nothing, or hands an entry to `add_filesender`. -/
theorem Outbox.create_cases {o o' : Outbox} {addr : ℕ} {c : Creation} {answer : Answer} {failed : Bool}
    (h : o.create addr c answer = .ok (o', failed)) :
    (c.entry addr answer.disk = .ok none ∧ o' = o ∧ failed = true) ∨
      ∃ f n, c.entry addr answer.disk = .ok (some f) ∧ o.add f answer = .ok (o', n) ∧
        failed = decide (n = UINT32_MAX) := by
  obtain ⟨entry, hentry, h⟩ := bind_eq_ok.mp h
  cases entry with
  | none =>
    cases h
    exact .inl ⟨hentry, rfl, rfl⟩
  | some f =>
    obtain ⟨⟨o'', n⟩, hadd, h⟩ := bind_eq_ok.mp h
    cases h
    exact .inr ⟨f, n, hentry, hadd, rfl⟩

/-- Every entry `resume_send` gets to is sent. -/
def Outbox.ResumesAll (o : Outbox) (friendNumber : UInt32) : List FileSender → (ℕ → Answer) → Prop
  | [], _ => True
  | f :: fileQueueLoad, answers =>
    f.friendNumber = friendNumber → o.Sends f (answers 0) ∧
      ∀ o' n, o.add f (answers 0) = .ok (o', n) →
        o'.ResumesAll friendNumber fileQueueLoad fun k => answers (k + 1)

/-- `resume_send` stops at once, or hands over an entry and goes on. -/
theorem resumeSend_cons {o o' : Outbox} {n : UInt32} {f : FileSender} {q q' : List FileSender}
    {answers : ℕ → Answer} (h : resumeSend o n (f :: q) answers = .ok (o', q')) :
    (f.friendNumber ≠ n ∧ o' = o ∧ q' = f :: q) ∨
      ∃ o₁ k, f.friendNumber = n ∧ o.add f (answers 0) = .ok (o₁, k) ∧
        resumeSend o₁ n q (fun i => answers (i + 1)) = .ok (o', q') := by
  unfold resumeSend at h
  split_ifs at h with hf
  · cases h
    exact .inl ⟨hf, rfl, rfl⟩
  · obtain ⟨⟨o₁, failed⟩, hcreate, h⟩ := bind_eq_ok.mp h
    rcases Outbox.create_cases hcreate with ⟨hnone, -⟩ | ⟨g, k, hentry, hadd, -⟩
    · cases hnone
    · cases hentry
      exact .inr ⟨o₁, k, not_not.mp hf, hadd, h⟩

/-- Whatever gets to `add_filesender` in an event is sent. -/
def SendsAll (s : Transfers) : TransferEvent → Prop
  | .fileSenderNew n shrfiles packn answer =>
    s.outbox.Completes s.nextAddr (.fileSenderNew n shrfiles packn) answer
  | .sending n outfilename answer => s.outbox.Completes s.nextAddr (.sending n outfilename) answer
  | .sendimage n answer => s.outbox.Completes s.nextAddr (.sendimage n) answer
  | .connectionStatus _ .none _ => True
  | .connectionStatus n .tcp answers => s.outbox.ResumesAll n s.fileQueueLoaded answers
  | .connectionStatus n .udp answers => s.outbox.ResumesAll n s.fileQueueLoaded answers
  | .chunkRequest .. => True
  | .control .. => True

/-- The queue in a state is complete. -/
def Transfers.Complete (s : Transfers) : Prop := s.outbox.Complete

theorem sendsAll_creation {s : Transfers} {e : TransferEvent} {c : Creation} {answer : Answer}
    (h : e.creation = some (c, answer)) : SendsAll s e ↔ s.outbox.Completes s.nextAddr c answer := by
  cases e with
  | fileSenderNew | sending | sendimage =>
    cases h
    exact Iff.rfl
  | _ => cases h

theorem sendsAll_online {s : Transfers} {n : UInt32} {status : Connection} {answers : ℕ → Answer}
    (h : status ≠ .none) : SendsAll s (.connectionStatus n status answers) ↔
      s.outbox.ResumesAll n s.fileQueueLoaded answers := by
  cases status with
  | none => exact absurd rfl h
  | tcp | udp => exact Iff.rfl

/-- A disk without files, and a Tox that refuses. -/
def refusal : Answer :=
  ⟨⟨fun _ _ => false, fun _ => 0⟩, UINT32_MAX, ⟨List.replicate _ 0, List.length_replicate⟩⟩

/-- A disk that opens every file, and a Tox that issues a number. -/
def consent (fileNumber : UInt32) : Answer :=
  ⟨⟨fun _ _ => true, fun _ => 10⟩, fileNumber, ⟨List.replicate _ 0, List.length_replicate⟩⟩

end ToxSuite.File
