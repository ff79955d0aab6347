import ToxSuite.File.Slots
import ToxSuite.Share.Steps

/-!
# Serving the shared directory

Friends ask for packs, the entries of `shr_list` by index, while `file_do` keeps
the list. This module has the commands `info` and `send`, `file_sender_new` and
what ends a transfer, at the level of hash buffers: a sender of a pack has the
buffer of the pack's entry, since `file_sender_new` copies the pointer.

The machine `serverStep` has every interleaving of `file_do`, recheck requests,
commands and the ends of transfers. Its state keeps some history: the buffers
given back, how the hashing of each pack went, and whether a recheck request is
still without a walk.
-/

namespace ToxSuite.Share

open ToxSuite.Lib ToxSuite.File

/-! ### Commands -/

def SYNTAX_ERR_MSG : String := "Invalid syntax!"
def NOTFND_ERR_MSG : String := "Pack number not found"
def NOTFND_F_MSG : String := "Could not open requested file"
def QUEUEFULL_F_MSG : String := "The queue is full, try later"
def SRVERR_F_MSG : String := "Error sending file"

/-- The pack a command's argument names, if the command accepts it. The lowest number is `0`
for `cmd_info` and `-1` for `cmd_send`. -/
def packArgument (fnode : NodeList) (lowest : ℤ) (arg : CStr) : Except Fault (Option ℤ) :=
  let packn := atoi arg
  if (packn = 0 ∧ arg.bytes ≠ ascii "0") ∨ packn < lowest ∨ packn ≥ fnode.entries.length then pure none
  else if packn = -1 then pure (some packn)
  else do
    let fnode ← fnode.read
    match fnode[packn.toNat]? with
    | none => .error .overread
    | some f => pure (if f.present then some packn else none)

/-- What `cmd_info` tells of a pack. -/
structure PackInfo where
  packn : ℕ
  filename : CStr
  length : Int64
  mtime : Int64
  blake2b : FileId

/-- The reply of `cmd_info`. -/
inductive InfoReply where
  | message (text : String)
  | pack (info : PackInfo)

/-- `cmd_info`. -/
def cmdInfo (s : FileOp) : List CStr → Except Fault InfoReply
  | [arg] => do
    match ← packArgument s.shrList 0 arg with
    | none => pure (.message NOTFND_ERR_MSG)
    | some packn =>
      match s.shrList.entries[packn.toNat]? with
      | none => .error .overread
      | some fn =>
        match fn.blake2b with
        | none => .error .null
        | some b => pure (.pack ⟨packn.toNat, gnuBasename fn.file, fn.length, fn.mtime, s.contents b⟩)
  | _ => pure (.message SYNTAX_ERR_MSG)

/-- What `cmd_send` tells the friend about what `file_sender_new` returned. -/
def sendMessage : FileSend → Option String
  | .ok => none
  | .errFileio => some NOTFND_F_MSG
  | .errFull => some QUEUEFULL_F_MSG
  | .errSending => some SRVERR_F_MSG
  | .err => some SRVERR_F_MSG

/-! ### Senders -/

/-- `FileSender` of `file_sender_new`, whose stream is open, and the pack it was made for: none
for the pack list. -/
structure PackSender where
  info : SharedFile
  pathname : CStr
  file : Stream
  fileNumber : UInt32
  friendNumber : UInt32
  pack : Option ℕ

/-- The entry has this key. -/
def PackSender.hasKey (friendNumber fileNumber : UInt32) (f : PackSender) : Bool :=
  f.friendNumber == friendNumber && f.fileNumber == fileNumber

/-- The entry `file_sender_new` makes: `none` where its own `fopen` fails. -/
def packEntry (shrfiles : NodeList) (friendNumber : UInt32) (packn : ℤ) (disk : Disk) :
    Except Fault (Option PackSender) :=
  if packn < 0 then
    match disk.fopen packlistFilename .write with
    | none => pure none
    | some file => do
      -- `file_list_create` goes over the packs
      let _ ← shrfiles.read
      pure (some ⟨⟨packlistFilename, none, 0, 0, false⟩, packlistFilename, file, 0, friendNumber, none⟩)
  else do
    let shrfiles ← shrfiles.read
    match shrfiles[packn.toNat]? with
    | none => .error .overread
    | some info =>
      match info.blake2b with
      | none => .error .null
      | some _ =>
        match disk.fopen info.file .read with
        | none => pure none
        | some file => pure (some
          ⟨{ info with file := gnuBasename info.file }, info.file, file, 0, friendNumber, some packn.toNat⟩)

/-- The record of a shared file, with what its hash buffer holds. -/
def SharedFile.view (contents : ℕ → FileId) (f : SharedFile) : FileNode :=
  ⟨some f.file, f.blake2b.map contents, f.mtime, f.length, f.present⟩

/-- The sender with its hash in place of the buffer. -/
def PackSender.view (contents : ℕ → FileId) (addr : ℕ) (f : PackSender) : FileSender :=
  ⟨addr, f.info.view contents, some f.pathname, some f.file, f.fileNumber, f.friendNumber, 0⟩

/-- The entry is the one the send queue is modelled with, but for its hash being a buffer. -/
theorem packEntry_view (contents : ℕ → FileId) (addr : ℕ) {shrfiles : NodeList} {l : List SharedFile}
    (hread : shrfiles.read = .ok l) (n : UInt32) (packn : ℤ) (disk : Disk) :
    (packEntry shrfiles n packn disk).map (Option.map (PackSender.view contents addr)) =
      (Creation.fileSenderNew n (l.map (SharedFile.view contents)) packn).entry addr disk := by
  unfold packEntry Creation.entry fileSenderEntry
  by_cases hlow : packn < 0
  · simp only [if_pos hlow, hread, ok_bind]
    cases disk.fopen packlistFilename .write <;> rfl
  · simp only [if_neg hlow, hread, ok_bind, List.getElem?_map]
    cases l[packn.toNat]? with
    | none => rfl
    | some f =>
      cases hb : f.blake2b with
      | none => simp [SharedFile.view, hb, Except.map]
      | some b =>
        cases hopen : disk.fopen f.file .read with
        | none => simp [SharedFile.view, hb, hopen, Except.map]
        | some file => simp [SharedFile.view, PackSender.view, FileSender.zero, hb, hopen, Except.map]

/-- How the hashing of a pack went since its entry was placed. What the file holds may have changed between the walk
that made the entry and the hashing. -/
inductive Round where
  | unfinished
  | complete
  | unopened
  deriving DecidableEq

/-- The shared directory and the send queue. -/
structure Server where
  shared : FileOp
  filesSender : List PackSender
  /-- The hash buffers given back, in order. -/
  released : List ℕ
  rounds : ℕ → Round
  /-- No walk has started since the last recheck request. -/
  outstanding : Bool

/-- The program's start. -/
def Server.start (fileNewC : Bool) (contents : ℕ → FileId) : Server :=
  ⟨.start fileNewC contents, [], [], fun _ => .unfinished, false⟩

/-- `add_filesender` on the entry of `file_sender_new`, at the head of `FilesSender`. -/
def Server.add (s : Server) (f : PackSender) (answer : Answer) : Server × FileSend :=
  let length := if f.info.length = 0 then answer.disk.size f.file.path else f.info.length
  let rc := if answer.fileNumber = UINT32_MAX then FileSend.errSending else .ok
  match f.info.blake2b with
  | some b =>
    let f := { f with fileNumber := answer.fileNumber, info := { f.info with length, blake2b := some b } }
    ({ s with filesSender := f :: s.filesSender }, rc)
  | none =>
    -- the hash of the transfer is asked of Tox
    let b := s.shared.nextBuf
    let f := { f with fileNumber := answer.fileNumber, info := { f.info with length, blake2b := some b } }
    let contents := Function.update s.shared.contents b answer.fileId
    ({ s with filesSender := f :: s.filesSender, shared := { s.shared with nextBuf := b + 1, contents } }, rc)

/-- `file_sender_new`: what it returns, and the pack whose hash it gave to Tox. Where `fopen`
fails it destroys the entry, with the hash buffer of what it copied. -/
def Server.fileSenderNew (s : Server) (friendNumber : UInt32) (packn : ℤ) (answer : Answer) :
    Except Fault (Server × FileSend × Option ℕ) := do
  match ← packEntry s.shared.shrList friendNumber packn answer.disk with
  | none =>
    let copied := if packn < 0 then none else s.shared.shrList.entries[packn.toNat]?.bind SharedFile.blake2b
    pure ({ s with released := s.released ++ copied.toList }, .errFileio, none)
  | some f =>
    let (s, rc) := s.add f answer
    pure (s, rc, f.pack)

/-- `cmd_send`: the message to the friend, and the pack whose hash was given to Tox. -/
def Server.cmdSend (s : Server) (friendNumber : UInt32) (args : List CStr) (answer : Answer) :
    Except Fault (Server × Option String × Option ℕ) :=
  match args with
  | [arg] => do
    match ← packArgument s.shared.shrList (-1) arg with
    | none => pure (s, some NOTFND_ERR_MSG, none)
    | some packn => do
      let (s, rc, pack) ← s.fileSenderNew friendNumber packn answer
      pure (s, sendMessage rc, pack)
  | _ => pure (s, some SYNTAX_ERR_MSG, none)

/-- `FileSender_destroy` on the entry `FileSender_get` finds. -/
def Server.destroy (s : Server) (f : PackSender) (friendNumber fileNumber : UInt32) : Server :=
  { s with
    filesSender := s.filesSender.eraseP (·.hasKey friendNumber fileNumber)
    released := s.released ++ f.info.blake2b.toList }

/-! ### The machine -/

/-- What can happen. -/
inductive ServerEvent where
  | fileDo (v : Visit)
  /-- `file_recheck_callback`. -/
  | recheck
  | info (args : List CStr)
  | send (friendNumber : UInt32) (args : List CStr) (answer : Answer)
  /-- `file_sender_new`, for any pack. -/
  | fileSenderNew (friendNumber : UInt32) (packn : ℤ) (answer : Answer)
  | chunkRequest (friendNumber fileNumber : UInt32) (length : ℕ)
  | control (friendNumber fileNumber : UInt32) (control : FileControl)

/-- The history after an entry was placed. -/
def placedRounds (taken : Option ℕ) (rounds : ℕ → Round) : ℕ → Round :=
  match taken with
  | none => rounds
  | some i => Function.update rounds i .unfinished

/-- The history after a call of `file_checksumcalc_noblock`. -/
def hashedRounds (rc : Option ℤ) (last : ℕ) (rounds : ℕ → Round) : ℕ → Round :=
  match rc with
  | none => rounds
  | some rc =>
    if rc = 0 then Function.update rounds last .complete
    else if rc < 0 then Function.update rounds last .unopened
    else rounds

/-- The history after a call of `file_do`. -/
def Report.rounds (r : Report) (last : ℕ) (rounds : ℕ → Round) : ℕ → Round :=
  hashedRounds r.rc last (placedRounds r.taken rounds)

variable (generichash : Bytes → FileId)

/-- The state after an event, and the packs whose hash it makes visible: in a call of
`file_new_c`, in a reply of `cmd_info` or as the id of a transfer. -/
def serverEvent (s : Server) : ServerEvent → Except Fault (Server × Option ℕ)
  | .fileDo v => do
    let (shared, r) ← fileDo generichash s.shared v
    pure ({ s with
      shared
      released := s.released ++ r.freed.toList
      rounds := r.rounds shared.last s.rounds
      outstanding := s.outstanding && !r.walked }, r.announced.map Prod.snd)
  | .recheck => pure ({ s with shared := fileRecheckCallback s.shared, outstanding := true }, none)
  | .info args => do
    match ← cmdInfo s.shared args with
    | .message _ => pure (s, none)
    | .pack info => pure (s, some info.packn)
  | .send n args answer => do
    let (s, _, pack) ← s.cmdSend n args answer
    pure (s, pack)
  | .fileSenderNew n packn answer => do
    let (s, _, pack) ← s.fileSenderNew n packn answer
    pure (s, pack)
  | .chunkRequest n m length =>
    match s.filesSender.find? (·.hasKey n m) with
    | none => pure (s, none)
    | some f => pure (if length = 0 then s.destroy f n m else s, none)
  | .control n m .cancel =>
    match s.filesSender.find? (·.hasKey n m) with
    | none => .error .null
    | some f => pure (s.destroy f n m, none)
  | .control _ _ _ => pure (s, none)

/-- A step: a fault ends the program. -/
def serverStep (s : Server) (e : ServerEvent) : Option Server :=
  (serverEvent generichash s e).toOption.map Prod.fst

/-! ### What a step can do -/

/-- An event calls `file_sender_new` for a pack. -/
inductive Calls (s : Server) : ServerEvent → UInt32 → ℤ → Answer → Prop
  | send {n : UInt32} {arg : CStr} {answer : Answer} {packn : ℤ}
      (h : packArgument s.shared.shrList (-1) arg = .ok (some packn)) :
      Calls s (.send n [arg] answer) n packn answer
  | direct {n : UInt32} {packn : ℤ} {answer : Answer} :
      Calls s (.fileSenderNew n packn answer) n packn answer

/-- An event ends the transfer under a key. -/
inductive Ends : ServerEvent → UInt32 → UInt32 → Prop
  | complete {n m : UInt32} : Ends (.chunkRequest n m 0) n m
  | cancel {n m : UInt32} : Ends (.control n m .cancel) n m

/-- An event calls `file_sender_new` once at most. -/
theorem Calls.det {s : Server} {e : ServerEvent} {n n' : UInt32} {packn packn' : ℤ} {answer answer' : Answer}
    (h : Calls s e n packn answer) (h' : Calls s e n' packn' answer') :
    n' = n ∧ packn' = packn ∧ answer' = answer := by
  cases h with
  | send harg =>
    cases h' with
    | send harg' =>
      cases harg.symm.trans harg'
      exact ⟨rfl, rfl, rfl⟩
  | direct =>
    cases h' with
    | direct => exact ⟨rfl, rfl, rfl⟩

/-- A call of `file_sender_new` is no other event. -/
theorem Calls.not_other {s : Server} {e : ServerEvent} {n : UInt32} {packn : ℤ} {answer : Answer}
    (h : Calls s e n packn answer) :
    (∀ v, e ≠ .fileDo v) ∧ (∀ args, e ≠ .info args) ∧ ∀ n m, ¬ Ends e n m := by
  cases h with
  | send | direct =>
    refine ⟨fun v hv => ?_, fun args hv => ?_, fun n m hend => ?_⟩
    · cases hv
    · cases hv
    · cases hend

/-- What a step can do: the state after an event and what it makes visible, by cases on what
the program finds. -/
inductive ServerDoes (s : Server) : ServerEvent → Server → Option ℕ → Prop
  | fileDo {v : Visit} {shared : FileOp} {r : Report}
      (h : Share.fileDo generichash s.shared v = .ok (shared, r)) :
      ServerDoes s (.fileDo v)
        { s with
          shared
          released := s.released ++ r.freed.toList
          rounds := r.rounds shared.last s.rounds
          outstanding := s.outstanding && !r.walked } (r.announced.map Prod.snd)
  | recheck : ServerDoes s .recheck { s with shared := fileRecheckCallback s.shared, outstanding := true } none
  /-- `cmd_info` tells of a pack. -/
  | told {arg : CStr} {packn : ℤ} {f : SharedFile} {b : ℕ}
      (harg : packArgument s.shared.shrList 0 arg = .ok (some packn))
      (hf : s.shared.shrList.entries[packn.toNat]? = some f) (hb : f.blake2b = some b) :
      ServerDoes s (.info [arg]) s (some packn.toNat)
  /-- `file_sender_new` does not open the file of a pack, and gives its hash buffer back. -/
  | unopened {e : ServerEvent} {n : UInt32} {i b : ℕ} {answer : Answer} {f : SharedFile}
      (hcall : Calls s e n i answer) (hf : s.shared.shrList.entries[i]? = some f) (hb : f.blake2b = some b)
      (hopen : answer.disk.fopen f.file .read = none) :
      ServerDoes s e { s with released := s.released ++ [b] } none
  /-- A sender of a pack. -/
  | packSent {e : ServerEvent} {n : UInt32} {i b : ℕ} {answer : Answer} {f : SharedFile} {g : PackSender}
      (hcall : Calls s e n i answer) (hf : s.shared.shrList.entries[i]? = some f) (hb : f.blake2b = some b)
      (hopen : (answer.disk.fopen f.file .read).isSome) (hg : g.info.blake2b = some b)
      (hpack : g.pack = some i) :
      ServerDoes s e { s with filesSender := g :: s.filesSender } (some i)
  /-- A sender of the pack list. -/
  | listSent {e : ServerEvent} {n : UInt32} {packn : ℤ} {answer : Answer} {contents : ℕ → FileId}
      {g : PackSender} (hcall : Calls s e n packn answer) (hlow : packn < 0)
      (hg : g.info.blake2b = some s.shared.nextBuf) (hpack : g.pack = none) :
      ServerDoes s e
        { s with
          filesSender := g :: s.filesSender
          shared := { s.shared with nextBuf := s.shared.nextBuf + 1, contents } } none
  | ended {e : ServerEvent} {n m : UInt32} {g : PackSender} (he : Ends e n m)
      (hget : s.filesSender.find? (·.hasKey n m) = some g) : ServerDoes s e (s.destroy g n m) none
  /-- The pack list cannot be written, the command is refused, or nothing ends. -/
  | nothing {e : ServerEvent} (hdo : ∀ v, e ≠ .fileDo v) (hinfo : ∀ arg packn, e = .info [arg] →
        packArgument s.shared.shrList 0 arg ≠ .ok (some packn))
      (hcall : ∀ n packn answer, Calls s e n packn answer → packn < 0)
      (hend : ∀ n m, Ends e n m → s.filesSender.find? (·.hasKey n m) = none) : ServerDoes s e s none

variable {generichash}

/-- What `file_sender_new` does. -/
theorem serverDoes_fileSenderNew {s s' : Server} {e : ServerEvent} {n : UInt32} {packn : ℤ} {answer : Answer}
    {rc : FileSend} {pack : Option ℕ} (hcall : Calls s e n packn answer)
    (h : s.fileSenderNew n packn answer = .ok (s', rc, pack)) : ServerDoes generichash s e s' pack := by
  obtain ⟨entry, hentry, h⟩ := bind_eq_ok.mp h
  unfold packEntry at hentry
  by_cases hlow : packn < 0
  · rw [if_pos hlow] at hentry
    cases hopen : answer.disk.fopen packlistFilename .write with
    | none =>
      simp only [hopen] at hentry
      cases hentry
      simp only [if_pos hlow, Option.toList_none, List.append_nil, pure_eq_ok, Except.ok.injEq,
        Prod.mk.injEq] at h
      obtain ⟨rfl, -, rfl⟩ := h
      obtain ⟨hdo, hinfo, hend⟩ := hcall.not_other
      refine .nothing hdo (fun arg _ he => absurd he (hinfo _)) (fun n' packn' answer' hcall' => ?_)
        (fun n' m' he => absurd he (hend n' m'))
      rw [(hcall.det hcall').2.1]
      exact hlow
    | some file =>
      simp only [hopen] at hentry
      obtain ⟨-, -, hentry⟩ := bind_eq_ok.mp hentry
      cases hentry
      cases h
      exact .listSent hcall hlow rfl rfl
  · rw [if_neg hlow] at hentry
    obtain ⟨i, rfl⟩ := Int.eq_ofNat_of_zero_le (not_lt.mp hlow)
    obtain ⟨shrfiles, hread, hentry⟩ := bind_eq_ok.mp hentry
    obtain ⟨rfl, -⟩ := NodeList.read_eq_ok hread
    rw [Int.toNat_natCast] at hentry
    cases hf : s.shared.shrList.entries[i]? with
    | none => simp [hf] at hentry
    | some f =>
      cases hb : f.blake2b with
      | none => simp [hf, hb] at hentry
      | some b =>
        simp only [hf, hb] at hentry
        cases hopen : answer.disk.fopen f.file .read with
        | none =>
          simp only [hopen] at hentry
          cases hentry
          simp only [if_neg hlow, Int.toNat_natCast, hf, Option.bind_some, hb, Option.toList_some,
            pure_eq_ok, Except.ok.injEq, Prod.mk.injEq] at h
          obtain ⟨rfl, -, rfl⟩ := h
          exact .unopened hcall hf hb hopen
        | some file =>
          simp only [hopen] at hentry
          cases hentry
          simp only [Server.add, pure_eq_ok, Except.ok.injEq, Prod.mk.injEq] at h
          obtain ⟨rfl, -, rfl⟩ := h
          exact .packSent hcall hf hb (by simp [hopen]) rfl rfl

/-- The pack that a reply of `cmd_info` tells of. -/
def InfoReply.packn : InfoReply → Option ℕ
  | .message _ => none
  | .pack info => some info.packn

/-- What `cmd_info` does. -/
theorem serverDoes_cmdInfo {s : Server} {args : List CStr} {reply : InfoReply}
    (h : cmdInfo s.shared args = .ok reply) : ServerDoes generichash s (.info args) s reply.packn := by
  -- what is left when the command is refused
  have hrefused : (∀ arg packn, args = [arg] → packArgument s.shared.shrList 0 arg ≠ .ok (some packn)) →
      ServerDoes generichash s (.info args) s none := by
    intro hinfo
    refine .nothing (fun v hv => by cases hv) (fun arg packn heq => ?_) (fun n packn answer hcall => ?_)
      (fun n m hend => ?_)
    · cases heq
      exact hinfo arg packn rfl
    · cases hcall
    · cases hend
  unfold cmdInfo at h
  split at h
  · next arg =>
    obtain ⟨packn, harg, h⟩ := bind_eq_ok.mp h
    cases packn with
    | none =>
      cases h
      refine hrefused fun arg' packn' heq harg' => ?_
      cases heq
      cases harg.symm.trans harg'
    | some packn =>
      dsimp only at h
      split at h
      · cases h
      · next fn hfn =>
        split at h
        · cases h
        · next b hb =>
          cases h
          exact .told harg hfn hb
  · next hargs =>
    cases h
    exact hrefused fun arg packn heq => absurd heq (hargs arg)

/-- What `cmd_send` does. -/
theorem serverDoes_cmdSend {s s' : Server} {n : UInt32} {args : List CStr} {answer : Answer}
    {message : Option String} {pack : Option ℕ} (h : s.cmdSend n args answer = .ok (s', message, pack)) :
    ServerDoes generichash s (.send n args answer) s' pack := by
  have hrefused : (∀ arg packn, args = [arg] → packArgument s.shared.shrList (-1) arg ≠ .ok (some packn)) →
      ServerDoes generichash s (.send n args answer) s none := by
    intro hsend
    refine .nothing (fun v hv => by cases hv) (fun arg packn heq => by cases heq)
      (fun n packn answer hcall => ?_) (fun n m hend => ?_)
    · cases hcall with
      | send harg => exact absurd harg (hsend _ _ rfl)
    · cases hend
  unfold Server.cmdSend at h
  split at h
  · next arg =>
    obtain ⟨packn, harg, h⟩ := bind_eq_ok.mp h
    cases packn with
    | none =>
      cases h
      apply hrefused
      intro arg' packn' heq harg'
      cases heq
      cases harg.symm.trans harg'
    | some packn =>
      obtain ⟨⟨s₂, rc, pack'⟩, hnew, h⟩ := bind_eq_ok.mp h
      cases h
      exact serverDoes_fileSenderNew (.send harg) hnew
  · next hargs =>
    cases h
    exact hrefused fun arg packn heq => absurd heq (hargs arg)

/-- **The inversion of a step**. -/
theorem does_serverEvent {s s' : Server} {e : ServerEvent} {pack : Option ℕ}
    (h : serverEvent generichash s e = .ok (s', pack)) : ServerDoes generichash s e s' pack := by
  cases e with
  | fileDo v =>
    obtain ⟨⟨shared, r⟩, hdo, h⟩ := bind_eq_ok.mp h
    cases h
    exact .fileDo hdo
  | recheck =>
    cases h
    exact .recheck
  | info args =>
    obtain ⟨reply, hreply, h⟩ := bind_eq_ok.mp h
    have hdoes : ServerDoes generichash s (.info args) s reply.packn := serverDoes_cmdInfo hreply
    cases reply with
    | message text =>
      cases h
      exact hdoes
    | pack info =>
      cases h
      exact hdoes
  | send n args answer =>
    obtain ⟨⟨s₁, message, pack'⟩, hcmd, h⟩ := bind_eq_ok.mp h
    cases h
    exact serverDoes_cmdSend hcmd
  | fileSenderNew n packn answer =>
    obtain ⟨⟨s₁, rc, pack'⟩, hnew, h⟩ := bind_eq_ok.mp h
    cases h
    exact serverDoes_fileSenderNew .direct hnew
  | chunkRequest n m length =>
    have hquiet : (length = 0 → s.filesSender.find? (·.hasKey n m) = none) →
        ServerDoes generichash s (.chunkRequest n m length) s none := by
      intro hnone
      refine .nothing (fun v hv => by cases hv) (fun arg packn heq => by cases heq)
        (fun n packn answer hcall => by cases hcall) (fun n' m' hend => ?_)
      cases hend
      exact hnone rfl
    unfold serverEvent at h
    cases hget : s.filesSender.find? (·.hasKey n m) with
    | none =>
      simp only [hget] at h
      cases h
      exact hquiet fun _ => hget
    | some g =>
      simp only [hget] at h
      by_cases hlength : length = 0
      · subst hlength
        cases h
        exact .ended .complete hget
      · rw [if_neg hlength] at h
        cases h
        exact hquiet fun h0 => absurd h0 hlength
  | control n m control =>
    cases control with
    | cancel =>
      unfold serverEvent at h
      cases hget : s.filesSender.find? (·.hasKey n m) with
      | none => simp [hget] at h
      | some g =>
        simp only [hget] at h
        cases h
        exact .ended .cancel hget
    | pause | resume =>
      cases h
      refine .nothing (fun v hv => by cases hv) (fun arg packn heq => by cases heq)
        (fun n packn answer hcall => by cases hcall) (fun n' m' hend => by cases hend)

/-- A step is an event that does not fault. -/
theorem serverStep_eq_some {s s' : Server} {e : ServerEvent} :
    serverStep generichash s e = some s' ↔ ∃ pack, serverEvent generichash s e = .ok (s', pack) := by
  unfold serverStep
  cases serverEvent generichash s e with
  | error fault => simp [Except.toOption]
  | ok r => simp [Except.toOption, Prod.ext_iff]

end ToxSuite.Share
