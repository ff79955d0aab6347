import ToxSuite.File.Transfer

/-!
# `filesend.c`: the slots of the send queue

The queue is meant to have `NUM_FILE_SENDERS` slots: `file_list_create` prints how
many are open, and `file_sender_new` has a code for a full queue, for which
`cmd_send` has a message. `file_sender_new` never looks at the size of the queue.
A run respects the slots if and only if every `file_sender_new` in it happens to
find one open (`slots_iff`).
-/

namespace ToxSuite.File

open ToxSuite.Lib ToxSuite.Friend

/-- `NUM_FILE_SENDERS`. -/
abbrev NUM_FILE_SENDERS : ℕ := 64

/-- What `file_sender_new` returns: the `FILESEND_` codes. -/
inductive FileSend where
  | ok
  | errFull
  | errSending
  | errFileio
  | err
  deriving DecidableEq

/-- The counts `file_list_create` prints: the packs that exist, and the open slots. The entry
the list is for is on the queue already. -/
def fileListCounts (fnode : List FileNode) (filesSender : List FileSender) : ℕ × ℤ :=
  (fnode.countP FileNode.present, NUM_FILE_SENDERS - (filesSender.length + 1 : ℕ))

/-- `file_sender_new`. -/
def fileSenderNew (o : Outbox) (addr : ℕ) (friendNumber : UInt32) (shrfiles : List FileNode) (packn : ℤ)
    (answer : Answer) : Except Fault (Outbox × FileSend) := do
  match ← fileSenderEntry addr shrfiles packn answer.disk with
  | none => pure (o, .errFileio)
  | some f =>
    let (o, fileNumber) ← o.add { f with friendNumber } answer
    pure (o, if fileNumber = UINT32_MAX then .errSending else .ok)

/-- `file_sender_new` is the operation of the queue, with its codes. -/
theorem fileSenderNew_create {o : Outbox} {addr : ℕ} {n : UInt32} {shrfiles : List FileNode} {packn : ℤ}
    {answer : Answer} {o' : Outbox} {failed : Bool} :
    o.create addr (.fileSenderNew n shrfiles packn) answer = .ok (o', failed) ↔
      ∃ rc, fileSenderNew o addr n shrfiles packn answer = .ok (o', rc) ∧ failed = decide (rc ≠ .ok) := by
  unfold Outbox.create fileSenderNew Creation.entry
  cases hentry : fileSenderEntry addr shrfiles packn answer.disk with
  | error e => simp [hentry]
  | ok entry =>
    cases entry with
    | none =>
      simp only [hentry, ok_bind, pure_eq_ok, Option.map_none, Except.ok.injEq, Prod.mk.injEq]
      constructor
      · rintro ⟨rfl, rfl⟩
        exact ⟨_, ⟨rfl, rfl⟩, rfl⟩
      · rintro ⟨rc, ⟨rfl, rfl⟩, rfl⟩
        exact ⟨rfl, rfl⟩
    | some f =>
      simp only [hentry, ok_bind, pure_eq_ok, Option.map_some]
      cases hadd : o.add { f with friendNumber := n } answer with
      | error e => simp
      | ok r =>
        obtain ⟨o₁, k⟩ := r
        simp only [ok_bind, Except.ok.injEq, Prod.mk.injEq]
        have hcode : decide (k = UINT32_MAX) =
            decide ((if k = UINT32_MAX then FileSend.errSending else .ok) ≠ .ok) := by
          split_ifs with hk <;> simp [hk]
        constructor
        · rintro ⟨rfl, rfl⟩
          exact ⟨_, ⟨rfl, rfl⟩, hcode⟩
        · rintro ⟨rc, ⟨rfl, rfl⟩, rfl⟩
          exact ⟨rfl, hcode⟩

/-- No code of `file_sender_new` is that for a full queue. -/
theorem fileSenderNew_ne_full {o o' : Outbox} {addr : ℕ} {n : UInt32} {shrfiles : List FileNode} {packn : ℤ}
    {answer : Answer} {rc : FileSend} (h : fileSenderNew o addr n shrfiles packn answer = .ok (o', rc)) :
    rc ≠ .errFull := by
  obtain ⟨entry, -, h⟩ := bind_eq_ok.mp h
  cases entry with
  | none =>
    cases h
    decide
  | some f =>
    obtain ⟨⟨o₁, k⟩, -, h⟩ := bind_eq_ok.mp h
    cases h
    split_ifs <;> decide

/-- An operation adds one entry at most. -/
theorem Outbox.create_length_le {o o' : Outbox} {addr : ℕ} {c : Creation} {answer : Answer} {failed : Bool}
    (h : o.create addr c answer = .ok (o', failed)) : o'.filesSender.length ≤ o.filesSender.length + 1 := by
  rcases Outbox.create_cases h with ⟨-, rfl, -⟩ | ⟨f, n, -, hadd, -⟩
  · omega
  · obtain ⟨f', -, -, hhead⟩ := Outbox.add_head hadd
    rw [hhead]
    exact le_of_eq List.length_cons

/-! ### Runs -/

/-- What the slots ask of an event: a full queue refuses a new sender and stays as it is, a
queue within its slots stays within them, and the list never shows a negative count. -/
def RespectsSlots (s : Transfers) : TransferEvent → Prop
  | .fileSenderNew n shrfiles packn answer =>
    ∀ o rc, fileSenderNew s.outbox s.nextAddr n shrfiles packn answer = .ok (o, rc) →
      (NUM_FILE_SENDERS ≤ s.outbox.filesSender.length →
        rc = .errFull ∧ o.filesSender = s.outbox.filesSender) ∧
      (s.outbox.filesSender.length ≤ NUM_FILE_SENDERS → o.filesSender.length ≤ NUM_FILE_SENDERS) ∧
      (packn < 0 → (answer.disk.fopen packlistFilename .write).isSome →
        0 ≤ (fileListCounts shrfiles s.outbox.filesSender).2)
  | _ => True

/-- A new sender finds a slot. -/
def FindsSlot (s : Transfers) : TransferEvent → Prop
  | .fileSenderNew .. => s.outbox.filesSender.length < NUM_FILE_SENDERS
  | _ => True

/-- The event can make a sender other than by `file_sender_new`. -/
def TransferEvent.Other : TransferEvent → Prop
  | .sending .. => True
  | .sendimage .. => True
  | _ => False

/-- **The step**: a call of `file_sender_new` respects the slots if and only if it finds one. -/
theorem respectsSlots_iff {s s' : Transfers} {e : TransferEvent} (h : transferStep s e = some s') :
    RespectsSlots s e ↔ FindsSlot s e := by
  cases e with
  | fileSenderNew n shrfiles packn answer =>
    obtain ⟨⟨o, failed⟩, hcreate, -⟩ := bind_eq_ok.mp (toOption_eq_some.mp h)
    obtain ⟨rc, hnew, -⟩ := fileSenderNew_create.mp hcreate
    constructor
    · intro hrespects
      by_contra hfull
      have hlen : NUM_FILE_SENDERS ≤ s.outbox.filesSender.length := not_lt.mp hfull
      exact fileSenderNew_ne_full hnew ((hrespects o rc hnew).1 hlen).1
    · intro hslot o' rc' hnew'
      have hlt : s.outbox.filesSender.length < NUM_FILE_SENDERS := hslot
      have hlen := Outbox.create_length_le (fileSenderNew_create.mpr ⟨rc', hnew', rfl⟩)
      refine ⟨fun hfull => absurd hfull (by omega), fun _ => by omega, fun _ _ => ?_⟩
      unfold fileListCounts
      dsimp only
      omega
  | _ => exact Iff.rfl

/-- Nothing is loaded, and the queue is within its slots. -/
def Transfers.Within (s : Transfers) : Prop :=
  s.fileQueueLoaded = [] ∧ s.outbox.filesSender.length ≤ NUM_FILE_SENDERS

/-- A step in which nothing but `file_sender_new` makes senders, and that finds a slot, stays
within the slots. -/
theorem within_transferStep {s s' : Transfers} {e : TransferEvent} (h : transferStep s e = some s')
    (hs : s.Within) (he : ¬ e.Other ∧ FindsSlot s e) : s'.Within := by
  obtain ⟨hloaded, hlen⟩ := hs
  cases does_transferStep h with
  | created hcreation hcreate =>
    obtain ⟨⟨o, failed⟩, hmake, hs'⟩ := bind_eq_ok.mp hcreate
    cases hs'
    refine ⟨hloaded, ?_⟩
    cases e with
    | fileSenderNew n shrfiles packn answer =>
      have hlt : s.outbox.filesSender.length < NUM_FILE_SENDERS := he.2
      exact (Outbox.create_length_le hmake).trans hlt
    | sending | sendimage => exact absurd trivial he.1
    | _ => cases hcreation
  | online hstatus hinfo hresume =>
    rw [hloaded] at hresume
    cases hresume
    exact ⟨rfl, hlen⟩
  | completed hget hfile => exact ⟨hloaded, (List.eraseP_sublist).length_le.trans hlen⟩
  | cancelled hget => exact ⟨hloaded, (List.eraseP_sublist).length_le.trans hlen⟩
  | offline | served | ignored | noted => exact ⟨hloaded, hlen⟩

/-- **The slots are respected** throughout a run from an empty queue if and only if every
`file_sender_new` finds one. If it does, and nothing else makes senders, the queue never has
more entries than slots. -/
theorem slots_iff (friendsInfo : List FriendInfo) (fileQueueLoaded : List FileSender) (nextAddr : ℕ)
    (es : List TransferEvent) :
    (Along transferStep RespectsSlots (.start friendsInfo fileQueueLoaded nextAddr) es ↔
      Along transferStep FindsSlot (.start friendsInfo fileQueueLoaded nextAddr) es) ∧
    (fileQueueLoaded = [] → (∀ e ∈ es, ¬ e.Other) →
      Along transferStep FindsSlot (.start friendsInfo fileQueueLoaded nextAddr) es →
      Always transferStep (fun s => s.outbox.filesSender.length ≤ NUM_FILE_SENDERS)
        (.start friendsInfo fileQueueLoaded nextAddr) es) := by
  refine ⟨along_congr fun _ _ _ => respectsSlots_iff, fun hloaded hes hslots => ?_⟩
  have hother : Along transferStep (fun _ e => ¬ e.Other) (.start friendsInfo fileQueueLoaded nextAddr) es :=
    along_of_forall fun _ e he => hes e he
  have hwithin := always_of_along (fun _ _ _ => within_transferStep)
    (show Transfers.Within (.start friendsInfo fileQueueLoaded nextAddr) from ⟨hloaded, Nat.zero_le _⟩)
    (along_and.mpr ⟨hother, hslots⟩)
  exact hwithin.mono fun _ hs => hs.2

/-- The pack list is asked for `n` times. -/
def packlistSends (n : ℕ) : List TransferEvent :=
  (List.range n).map fun k => .fileSenderNew 0 [] (-1) (consent (.ofNat k))

/-- The 65th sender is made and sent although there are 64 already. -/
theorem full_queue_accepts :
    ¬ Along transferStep RespectsSlots (.start [] [] 0)
      (packlistSends 64 ++ [.fileSenderNew 0 [] (-1) (consent 64)]) := by
  intro h
  have hrun : ∃ t, runEvents transferStep (.start [] [] 0) (packlistSends 64) = some t ∧
      t.outbox.filesSender.length = 64 ∧
      (transferStep t (.fileSenderNew 0 [] (-1) (consent 64))).isSome := by
    refine ⟨_, rfl, ?_, ?_⟩
    · decide +kernel
    · decide +kernel
  obtain ⟨t, ht, hlen, hstep⟩ := hrun
  obtain ⟨t', ht'⟩ := Option.isSome_iff_exists.mp hstep
  have hslot : t.outbox.filesSender.length < 64 := (respectsSlots_iff ht').mp (h.next ht ht')
  omega

end ToxSuite.File
