import ToxSuite.Lib.Keyed
import ToxSuite.File.Transfer

/-!
# Finding the entry of a transfer

Tox names an outgoing transfer by friend number and file number, and the program
looks it up in `FilesSender` under both (`FileSender_get`). Tox uses a number again
when its transfer is over, so the look-up finds the right entry only as long as
the queue and Tox agree on which transfers there are.

They agree throughout a run in which no send fails and no friend goes offline
while it has entries in the queue (`filesSender_keyed`): the queue is then, entry
by entry, the list of Tox's live transfers (`Serves`). A failed send leaves an
entry under the number `0` or `UINT32_MAX`, and nothing takes the entries of a
friend off the queue when Tox drops its transfers.
-/

namespace ToxSuite.File

open ToxSuite.Lib ToxSuite.Friend

/-- What Tox names a transfer by. -/
def FileSender.key (f : FileSender) : UInt32 × UInt32 := (f.friendNumber, f.fileNumber)

/-- What Tox names a transfer by. -/
def Outgoing.key (t : Outgoing) : UInt32 × UInt32 := (t.friendNumber, t.fileNumber)

theorem FileSender.hasKey_eq (n m : UInt32) : FileSender.hasKey n m = fun f => decide (f.key = (n, m)) := by
  funext f
  simp [FileSender.hasKey, FileSender.key, Bool.beq_eq_decide_eq]

theorem Outgoing.hasKey_eq (n m : UInt32) : Outgoing.hasKey n m = fun t => decide (t.key = (n, m)) := by
  funext t
  simp [Outgoing.hasKey, Outgoing.key, Bool.beq_eq_decide_eq]

theorem fileSenderGet_eq (q : List FileSender) (n m : UInt32) :
    fileSenderGet q n m = q.find? fun f => f.key = (n, m) := by
  rw [fileSenderGet, FileSender.hasKey_eq]

/-- There is at most one entry under a key, and `FileSender_get` returns the entry of each
live transfer. -/
structure Transfers.Keyed (s : Transfers) : Prop where
  nodup : (s.outbox.filesSender.map FileSender.key).Nodup
  finds : ∀ t ∈ s.outbox.live, ∃ f, fileSenderGet s.outbox.filesSender t.friendNumber t.fileNumber = some f ∧
    f.addr = t.addr

/-- **The queue is the list of Tox's live transfers**, which have distinct keys, and every
entry has a stream. -/
structure Outbox.Serves (o : Outbox) : Prop where
  eq : o.filesSender.map FileSender.outgoing = o.live
  nodup : (o.live.map Outgoing.key).Nodup
  file : ∀ f ∈ o.filesSender, f.file.isSome

theorem Outbox.Serves.keys {o : Outbox} (h : o.Serves) :
    o.filesSender.map FileSender.key = o.live.map Outgoing.key := by
  rw [← h.eq, List.map_map]
  rfl

theorem Outbox.Serves.nodup_keys {o : Outbox} (h : o.Serves) :
    (o.filesSender.map FileSender.key).Nodup := h.keys ▸ h.nodup

theorem Outbox.Serves.keyed {s : Transfers} (h : s.outbox.Serves) : s.Keyed where
  nodup := h.nodup_keys
  finds t ht := by
    rw [← h.eq] at ht
    obtain ⟨f, hf, rfl⟩ := List.mem_map.mp ht
    refine ⟨f, ?_, rfl⟩
    rw [fileSenderGet_eq]
    exact (find?_key_eq_some FileSender.key h.nodup_keys).mpr ⟨hf, rfl⟩

/-- A send that succeeds. -/
theorem Outbox.Serves.add {o o' : Outbox} (h : o.Serves) {f : FileSender} {answer : Answer} {n : UInt32}
    (hadd : o.add f answer = .ok (o', n)) (hsend : o.Sends f answer) : o'.Serves := by
  obtain ⟨f', -, ⟨hnot, -⟩ | ⟨-, -, hfile, -, -, hfresh, -, rfl⟩⟩ := add_cases hadd
  · exact absurd hsend hnot
  · refine ⟨?_, ?_, ?_⟩
    · rw [List.map_cons, h.eq]
    · rw [List.map_cons, List.nodup_cons]
      refine ⟨fun hmem => ?_, h.nodup⟩
      obtain ⟨t, ht, hkey⟩ := List.mem_map.mp hmem
      have hno := hfresh t ht
      rw [Outgoing.hasKey_eq, decide_eq_false_iff_not] at hno
      exact hno hkey
    · exact List.forall_mem_cons.mpr ⟨hfile, h.file⟩

theorem Outbox.Serves.create {o o' : Outbox} (h : o.Serves) {addr : ℕ} {c : Creation} {answer : Answer}
    {failed : Bool} (hcreate : o.create addr c answer = .ok (o', failed))
    (hsend : o.Completes addr c answer) : o'.Serves := by
  rcases create_cases hcreate with ⟨-, rfl, -⟩ | ⟨f, n, hentry, hadd, -⟩
  · exact h
  · exact h.add hadd (hsend f hentry)

theorem Outbox.Serves.resumeSend {n : UInt32} (q : List FileSender) :
    ∀ {o o' : Outbox} {q' : List FileSender} {answers : ℕ → Answer}, o.Serves →
      resumeSend o n q answers = .ok (o', q') → o.ResumesAll n q answers → o'.Serves := by
  induction q with
  | nil =>
    intro o o' q' answers hs h _
    cases h
    exact hs
  | cons f q ih =>
    intro o o' q' answers hs h hall
    rcases resumeSend_cons h with ⟨-, rfl, -⟩ | ⟨o₁, k, hf, hadd, h⟩
    · exact hs
    · obtain ⟨hsend, hrest⟩ := hall hf
      exact ih (hs.add hadd hsend) h (hrest o₁ k hadd)

/-- Tox ends a transfer, and the program destroys the entry it finds. -/
theorem Outbox.Serves.finish {s : Transfers} (h : s.outbox.Serves) (n m : UInt32) :
    ((s.withSenders (fileSenderDestroy s.outbox.filesSender n m)).finish n m).outbox.Serves := by
  have hcut : fileSenderDestroy s.outbox.filesSender n m =
      s.outbox.filesSender.filter fun f => f.key ≠ (n, m) := by
    rw [fileSenderDestroy, FileSender.hasKey_eq, eraseP_key_eq_filter _ h.nodup_keys]
  have hlive : (s.outbox.live.filter fun t => !t.hasKey n m) =
      s.outbox.live.filter fun t => t.key ≠ (n, m) := by
    simp [Outgoing.hasKey_eq]
  refine ⟨?_, ?_, fun f hf => h.file f (List.eraseP_sublist.subset hf)⟩
  · simp only [Transfers.finish, Transfers.withSenders, hcut, hlive]
    rw [← h.eq, List.filter_map]
    rfl
  · exact h.nodup.sublist (List.filter_sublist.map _)

/-- Nothing under the key: Tox has no such transfer either. -/
theorem Outbox.Serves.finish_none {s : Transfers} (h : s.outbox.Serves) {n m : UInt32}
    (hget : fileSenderGet s.outbox.filesSender n m = none) : (s.finish n m).outbox.Serves := by
  rw [fileSenderGet_eq, find?_key_eq_none, h.keys] at hget
  have hlive : (s.outbox.live.filter fun t => !t.hasKey n m) = s.outbox.live := by
    apply List.filter_eq_self.mpr
    intro t ht
    have hne : t.key ≠ (n, m) := fun hk => hget (hk ▸ List.mem_map_of_mem ht)
    simpa [Outgoing.hasKey_eq] using hne
  refine ⟨?_, ?_, h.file⟩
  · simpa only [Transfers.finish, hlive] using h.eq
  · simpa only [Transfers.finish, hlive] using h.nodup

/-- No send fails, and no friend goes offline while it has entries in the queue. -/
def KeepsKeys (s : Transfers) (e : TransferEvent) : Prop :=
  SendsAll s e ∧ ∀ n answers, e = .connectionStatus n .none answers →
    ∀ f ∈ s.outbox.filesSender, f.friendNumber ≠ n

theorem Transfers.serves_create {s s' : Transfers} {c : Creation} {answer : Answer}
    (h : s.create c answer = .ok s') (hs : s.outbox.Serves)
    (hsend : s.outbox.Completes s.nextAddr c answer) : s'.outbox.Serves := by
  obtain ⟨⟨o, failed⟩, hcreate, h⟩ := bind_eq_ok.mp h
  cases h
  exact hs.create hcreate hsend

/-- **The step**: what keeps the keys keeps the queue the list of live transfers. -/
theorem serves_transferStep {s s' : Transfers} {e : TransferEvent} (h : transferStep s e = some s')
    (hs : s.outbox.Serves) (hkeep : KeepsKeys s e) : s'.outbox.Serves := by
  obtain ⟨hsend, hoff⟩ := hkeep
  cases does_transferStep h with
  | created he hcreate => exact Transfers.serves_create hcreate hs ((sendsAll_creation he).mp hsend)
  | @offline n answers friendsInfo hinfo =>
    -- Tox has nothing to drop, since the queue has no entry of the friend
    have hlive : (s.outbox.live.filter fun t => t.friendNumber ≠ n) = s.outbox.live := by
      apply List.filter_eq_self.mpr
      intro t ht
      rw [← hs.eq] at ht
      obtain ⟨f, hf, rfl⟩ := List.mem_map.mp ht
      exact decide_eq_true (hoff n answers rfl f hf)
    refine ⟨?_, ?_, hs.file⟩
    · simpa only [Outbox.drop, hlive] using hs.eq
    · simpa only [Outbox.drop, hlive] using hs.nodup
  | online hstatus hinfo hresume =>
    exact Outbox.Serves.resumeSend _ hs hresume ((sendsAll_online hstatus).mp hsend)
  | completed hget hfile => exact hs.finish _ _
  | @ignored n m hget =>
    refine hs.finish_none (Option.eq_none_iff_forall_ne_some.mpr fun f hf => ?_)
    have hfile := hs.file f (List.mem_of_find?_eq_some hf)
    rw [hget f hf] at hfile
    cases hfile
  | cancelled hget => exact hs.finish _ _
  | served | noted => exact hs

/-- **The send queue is keyed by transfer** in every state of a run from an empty queue,
with any transfers loaded, in which no send fails and no friend goes offline while it
has entries in the queue. -/
theorem filesSender_keyed (friendsInfo : List FriendInfo) (fileQueueLoaded : List FileSender) (addr : ℕ)
    (es : List TransferEvent)
    (h : Along transferStep KeepsKeys (.start friendsInfo fileQueueLoaded addr) es) :
    Always transferStep Transfers.Keyed (.start friendsInfo fileQueueLoaded addr) es := by
  have hstart : (Transfers.start friendsInfo fileQueueLoaded addr).outbox.Serves :=
    ⟨rfl, List.nodup_nil, fun f hf => by cases hf⟩
  have hrun := always_of_along (Q := fun s : Transfers => s.outbox.Serves)
    (fun _ _ _ => serves_transferStep) hstart h
  exact hrun.mono fun _ => Outbox.Serves.keyed

/-- A screenshot sent and completed. -/
theorem filesSender_keyed_sendimage :
    Always transferStep Transfers.Keyed (.start [] [] 0) [.sendimage 0 (consent 3), .chunkRequest 0 3 0] := by
  apply filesSender_keyed [] [] 0 _
  intro s h
  cases h
  refine ⟨⟨fun f hf => ?_, by simp⟩, fun s h => ⟨⟨trivial, by simp⟩, trivial⟩⟩
  cases hf
  exact ⟨rfl, by decide⟩

/-- Two screenshots that do not open leave two entries under one key, and so do two that
Tox issues the same number for because the friend was offline between them. -/
theorem filesSender_not_keyed :
    ∃ s s', runEvents transferStep (.start [] [] 0) [.sendimage 0 refusal, .sendimage 0 refusal] = some s ∧
      ¬ s.Keyed ∧
      runEvents transferStep (.start [zeroEntry] [] 0)
        [.sendimage 0 (consent 3), .connectionStatus 0 .none (fun _ => refusal),
          .sendimage 0 (consent 3)] = some s' ∧
      ¬ s'.Keyed := by
  refine ⟨_, _, rfl, fun h => ?_, rfl, fun h => ?_⟩
  · exact absurd h.nodup (by decide)
  · exact absurd h.nodup (by decide)

end ToxSuite.File
