import ToxSuite.File.Sender
import ToxSuite.Suit.Time

/-!
# `call.c`: the call test

Who calls gets a tester, an entry of `calltesters`: it is greeted, its voice is
recorded for ten seconds, the recording is written to a file, the file is queued
for sending, the recording is played back, and the call is ended. The steps are
taken by `calltest_iterate`, one step a tester and tick; `call`, `call_state` and
`audio_receive_frame` are the callbacks of ToxAV.

What ToxAV, the disk and the allocator answer are arguments (`Reply`, `Alloc`). What
the program asks of ToxAV, of libsndfile and of the send queue is returned as a list
of notes (`Note`), in the order in which it is asked.

`calltest_iterate` walks over the list with a cursor while the body takes entries
out of it. On distinct addresses the walk does to each tester what the body does to
that tester alone (`calltestIterate_ok`).
-/

namespace ToxSuite.Call

open ToxSuite.Lib ToxSuite.File ToxSuite.Suit

/-! ### Testers -/

/-- `AUDIO_BITRATE`. -/
abbrev AUDIO_BITRATE : UInt32 := 48

/-- `VIDEO_BITRATE`. -/
abbrev VIDEO_BITRATE : UInt32 := 5000

/-- `AUDIO_LENGTH`, in milliseconds. -/
abbrev AUDIO_LENGTH : UInt32 := 20

/-- `DEFAULT_DELAY`. -/
abbrev DEFAULT_DELAY : UInt64 := 20000000

/-- `CALL_TEST_DURATION * NSEC_PER_SEC`. -/
abbrev CALL_TEST_DURATION_NS : UInt64 := 10000000000

/-- `CALLSTEP`. -/
inductive CallStep where
  | entering
  | greeter
  | recording
  | saving
  | sending
  | echoing
  | bye
  deriving DecidableEq

/-- `step++`; nothing counts on from `BYE`. -/
def CallStep.next : CallStep → CallStep
  | .entering => .greeter
  | .greeter => .recording
  | .recording => .saving
  | .saving => .sending
  | .sending => .echoing
  | .echoing => .bye
  | .bye => .bye

/-- `struct record`. A sample of `pcm` that nothing has written is `none`. -/
structure Record where
  pcm : List (Option Int16)
  channels : UInt8
  samplesCount : ℕ
  samplerate : UInt32
  deriving DecidableEq

/-- `struct call_tester`, with the address of its allocation. -/
structure CallTester where
  addr : ℕ
  friendNumber : UInt32
  step : CallStep
  samplesSend : ℕ
  ctrecord : Record
  callstart : Timespec
  delay : UInt64
  outfilename : CStr
  deriving DecidableEq

/-- What `malloc` leaves in the fields of a new tester that `call_tester_add_entry` does not
set, and the name `mkstemps` makes. -/
structure Alloc where
  channels : UInt8
  samplerate : UInt32
  samplesSend : ℕ
  callstart : Timespec
  outfilename : CStr

/-- `call_tester_by_friend_number`. -/
def callTesterByFriendNumber (callTesters : List CallTester) (friendNumber : UInt32) : Option CallTester :=
  callTesters.find? (·.friendNumber = friendNumber)

/-- The loop of `call_tester_add_entry`: before the first entry with a greater number. -/
def insertTester (calltester : CallTester) : List CallTester → List CallTester
  | [] => [calltester]
  | entry :: callTesters =>
    if entry.friendNumber > calltester.friendNumber then calltester :: entry :: callTesters
    else entry :: insertTester calltester callTesters

/-- The tester `call_tester_add_entry` makes. -/
def CallTester.new (addr : ℕ) (friendNumber : UInt32) (alloc : Alloc) : CallTester where
  addr
  friendNumber
  step := .entering
  samplesSend := alloc.samplesSend
  ctrecord := ⟨[], alloc.channels, 0, alloc.samplerate⟩
  callstart := alloc.callstart
  delay := DEFAULT_DELAY
  outfilename := alloc.outfilename

/-! ### What is asked of others -/

/-- `TOXAV_CALL_CONTROL`, as far as it is used. -/
inductive CallControl where
  | cancel
  | muteAudio
  | unmuteAudio
  deriving DecidableEq

/-- What `toxav_audio_send_frame` is given: the index in `pcm` of the first sample, how many
samples of each channel, and its answer. -/
structure Frame where
  first : ℕ
  sampleCount : ℕ
  channels : UInt8
  samplerate : UInt32
  sent : Bool
  deriving DecidableEq

/-- What a tester asks of others. -/
inductive Act where
  /-- `toxav_call_control`, whose error is only logged. -/
  | control (control : CallControl)
  /-- `toxav_audio_send_frame`. -/
  | sendFrame (frame : Frame)
  /-- `audio_write`. -/
  | audioWrite (destfile : CStr) (rec : Record)
  /-- `add_filesender` on a new entry for this path. -/
  | addFilesender (pathname : CStr)
  deriving DecidableEq

/-- An act of a tester: whose, in which step and in which tick. -/
structure Deed where
  addr : ℕ
  friendNumber : UInt32
  step : CallStep
  tp : Timespec
  act : Act
  deriving DecidableEq

/-- What is noted of an event. -/
inductive Note where
  /-- `toxav_answer`. -/
  | answer (friendNumber audioBitRate videoBitRate : UInt32)
  /-- `toxav_bit_rate_set`. -/
  | bitRateSet (friendNumber audioBitRate videoBitRate : UInt32)
  /-- `call_tester_add_entry` has made a tester. -/
  | added (addr : ℕ)
  | deed (deed : Deed)
  deriving DecidableEq

/-- The tester does this now. -/
def CallTester.does (ct : CallTester) (tp : Timespec) (act : Act) : Deed :=
  ⟨ct.addr, ct.friendNumber, ct.step, tp, act⟩

/-! ### Playing and recording -/

/-- `audio_playback`: the tester, the frame it hands to `toxav_audio_send_frame` if it does, and
what it returns. -/
def audioPlayback (ct : CallTester) (rec : Record) (sends : Bool) :
    Except Fault (CallTester × Option Frame × ℕ) :=
  if rec.samplerate = 0 then .error .divZero
  else
    let sampleCount := (rec.samplerate * AUDIO_LENGTH / 1000).toNat
    let delay := UInt64.ofNat (sampleCount * 1000 / rec.samplerate.toNat) * 1000000
    if ct.samplesSend < rec.samplesCount then
      let frame : Frame :=
        ⟨ct.samplesSend * rec.channels.toNat, sampleCount, rec.channels, rec.samplerate, sends⟩
      if sends then
        pure ({ ct with delay, samplesSend := ct.samplesSend + sampleCount }, some frame, sampleCount)
      else pure ({ ct with delay }, some frame, 0)
    else pure ({ ct with delay }, none, 0)

/-- `realloc` to `n` samples. -/
def reallocPcm (pcm : List (Option Int16)) (n : ℕ) : List (Option Int16) :=
  pcm.take n ++ List.replicate (n - pcm.length) none

/-- `memcpy` of samples to an index of `pcm`. -/
def memcpyPcm (pcm : List (Option Int16)) (i : ℕ) (samples : List Int16) :
    Except Fault (List (Option Int16)) :=
  if i + samples.length ≤ pcm.length then
    pure (pcm.take i ++ samples.map some ++ pcm.drop (i + samples.length))
  else .error .overflow

/-- `audio_receive_frame` on the record of a tester in `RECORDING`. -/
def receiveFrame (rec : Record) (pcm : List Int16) (sampleCount : ℕ) (channels : UInt8)
    (samplingRate : UInt32) : Except Fault Record := do
  let buffer := reallocPcm rec.pcm (channels.toNat * (sampleCount + rec.samplesCount))
  if pcm.length < channels.toNat * sampleCount then .error .overread
  else
    let buffer ← memcpyPcm buffer (channels.toNat * rec.samplesCount) (pcm.take (channels.toNat * sampleCount))
    pure ⟨buffer, channels, rec.samplesCount + sampleCount, samplingRate⟩

/-! ### The steps of a tester -/

/-- `case GREETER` of `calltest_iterate_one_shot`. -/
def caseGreeter (greeter : Option Record) (ct : CallTester) (tp : Timespec) (sends : Bool) :
    Except Fault (Option CallTester × List Deed) :=
  match greeter with
  | none => .error .null
  | some greeter => do
    let (played, frame, ret) ← audioPlayback ct greeter sends
    let frames := frame.toList.map fun frame => ct.does tp (.sendFrame frame)
    if ret = 0 then
      pure (some { played with callstart := tp, step := ct.step.next },
        frames ++ [ct.does tp (.control .unmuteAudio)])
    else pure (some played, frames)

/-- `calltest_iterate_one_shot`: what becomes of the tester, none when it is destroyed, and what
it does. -/
def calltestIterateOneShot (greeter : Option Record) (ct : CallTester) (tp : Timespec) (sends : Bool) :
    Except Fault (Option CallTester × List Deed) :=
  match ct.step with
  | .entering => do
    -- falls through
    let (tester, deeds) ← caseGreeter greeter { ct with samplesSend := 0, step := ct.step.next } tp sends
    pure (tester, ct.does tp (.control .muteAudio) :: deeds)
  | .greeter => caseGreeter greeter ct tp sends
  | .recording => do
    if ← nanosecTimeout ct.callstart tp CALL_TEST_DURATION_NS then
      pure (some { ct with step := ct.step.next }, [ct.does tp (.control .muteAudio)])
    else pure (some ct, [])
  | .saving =>
    pure (some { ct with samplesSend := 0, step := ct.step.next },
      [ct.does tp (.audioWrite ct.outfilename ct.ctrecord)])
  | .sending => pure (some { ct with step := ct.step.next }, [ct.does tp (.addFilesender ct.outfilename)])
  | .echoing => do
    let (played, frame, ret) ← audioPlayback ct ct.ctrecord sends
    let frames := frame.toList.map fun frame => ct.does tp (.sendFrame frame)
    pure (some (if ret = 0 then { played with step := ct.step.next } else played), frames)
  | .bye => pure (none, [ct.does tp (.control .cancel)])

/-! ### The testers -/

/-- The static variables of `call.c`, and the send queue. -/
structure CallTest where
  calltesters : List CallTester
  /-- What `audio_load` returned. -/
  greeter : Option Record
  outbox : Outbox
  /-- The address of the next allocation. -/
  nextAddr : ℕ

/-- `calltest_init`. -/
def CallTest.init (greeter : Option Record) (outbox : Outbox) (nextAddr : ℕ) : CallTest :=
  ⟨[], greeter, outbox, nextAddr⟩

/-- `call_tester_add_entry`. -/
def CallTest.addEntry (s : CallTest) (friendNumber : UInt32) (alloc : Alloc) : CallTest × List Note :=
  match callTesterByFriendNumber s.calltesters friendNumber with
  | some _ => (s, [])
  | none =>
    let calltester := CallTester.new s.nextAddr friendNumber alloc
    ({ s with calltesters := insertTester calltester s.calltesters, nextAddr := s.nextAddr + 1 },
      [.added s.nextAddr])

/-- `call`. -/
def CallTest.call (s : CallTest) (friendNumber : UInt32) (audioEnabled videoEnabled : Bool) (alloc : Alloc) :
    CallTest × List Note :=
  let (s, notes) := s.addEntry friendNumber alloc
  (s, .answer friendNumber (if audioEnabled then AUDIO_BITRATE else 0)
    (if videoEnabled then VIDEO_BITRATE else 0) :: notes)

/-- `TOXAV_FRIEND_CALL_STATE_ERROR`. -/
abbrev STATE_ERROR : UInt32 := 1

/-- `TOXAV_FRIEND_CALL_STATE_FINISHED`. -/
abbrev STATE_FINISHED : UInt32 := 2

/-- `TOXAV_FRIEND_CALL_STATE_SENDING_A`. -/
abbrev STATE_SENDING_A : UInt32 := 4

/-- `TOXAV_FRIEND_CALL_STATE_SENDING_V`. -/
abbrev STATE_SENDING_V : UInt32 := 8

/-- `TOXAV_FRIEND_CALL_STATE_ACCEPTING_A`. -/
abbrev STATE_ACCEPTING_A : UInt32 := 16

/-- `TOXAV_FRIEND_CALL_STATE_ACCEPTING_V`. -/
abbrev STATE_ACCEPTING_V : UInt32 := 32

/-- A state has a bit. -/
def hasBit (state bit : UInt32) : Bool := state &&& bit != 0

/-- The entry of the list at an address changes. -/
def CallTest.withTester (s : CallTest) (ct : CallTester) : CallTest :=
  { s with calltesters := s.calltesters.map fun c => if c.addr = ct.addr then ct else c }

/-- `call_state`. -/
def CallTest.callState (s : CallTest) (friendNumber state : UInt32) (alloc : Alloc) : CallTest × List Note :=
  if hasBit state STATE_ERROR then (s, [])
  else if hasBit state STATE_SENDING_A then
    let sendAudio := hasBit state STATE_SENDING_A && hasBit state STATE_ACCEPTING_A
    let sendVideo := hasBit state STATE_SENDING_V && hasBit state STATE_ACCEPTING_V
    let (s, notes) := s.addEntry friendNumber alloc
    (s, .bitRateSet friendNumber (if sendAudio then AUDIO_BITRATE else 0)
      (if sendVideo then VIDEO_BITRATE else 0) :: notes)
  else if hasBit state STATE_FINISHED then
    match callTesterByFriendNumber s.calltesters friendNumber with
    | none => (s, [])
    | some ct => (s.withTester { ct with step := .bye }, [])
  else (s, [])

/-- `audio_receive_frame`. -/
def CallTest.audioReceiveFrame (s : CallTest) (friendNumber : UInt32) (pcm : List Int16) (sampleCount : ℕ)
    (channels : UInt8) (samplingRate : UInt32) : Except Fault CallTest :=
  match callTesterByFriendNumber s.calltesters friendNumber with
  | none => pure s
  | some ct =>
    if ct.step ≠ .recording then pure s
    else do
      let ctrecord ← receiveFrame ct.ctrecord pcm sampleCount channels samplingRate
      pure (s.withTester { ct with ctrecord })

/-- What ToxAV, the disk and Tox answer to a tester in a tick. -/
structure Reply where
  /-- `toxav_audio_send_frame` succeeds. -/
  sends : Bool
  answer : Answer

/-- What becomes of the entry at an address. -/
def CallTest.settle (s : CallTest) (addr : ℕ) : Option CallTester → CallTest
  | none => { s with calltesters := s.calltesters.eraseP (·.addr = addr) }
  | some ct => s.withTester ct

/-- What the acts of a tester do to the send queue. -/
def CallTest.serve (s : CallTest) (answer : Answer) : List Deed → Except Fault CallTest
  | [] => pure s
  | d :: deeds =>
    match d.act with
    | .addFilesender pathname => do
      let (outbox, _) ← s.outbox.create s.nextAddr (.sending d.friendNumber pathname) answer
      CallTest.serve { s with outbox, nextAddr := s.nextAddr + 1 } answer deeds
    | _ => s.serve answer deeds

/-- `list_next_entry`: the address of the entry after the one at an address. -/
def listNextEntry (calltesters : List CallTester) (addr : ℕ) : Option ℕ :=
  ((calltesters.dropWhile (·.addr ≠ addr)).tail.head?).map CallTester.addr

/-- The loop of `calltest_iterate` from the entry the cursor is at. The cursor's next place is
looked up before the body. -/
def calltestIterateFrom (tp : Timespec) (replies : UInt32 → Reply) :
    ℕ → CallTest → Option ℕ → Except Fault (CallTest × List Deed)
  | _, s, none => pure (s, [])
  | 0, _, some _ => .error .fuel
  | fuel + 1, s, some addr =>
    match s.calltesters.find? (·.addr = addr) with
    | none => .error .released
    | some ct => do
      let n := listNextEntry s.calltesters addr
      let reply := replies ct.friendNumber
      let (tester, deeds) ← calltestIterateOneShot s.greeter ct tp reply.sends
      let s ← (s.settle addr tester).serve reply.answer deeds
      let (s, rest) ← calltestIterateFrom tp replies fuel s n
      pure (s, deeds ++ rest)

/-- `calltest_iterate`. -/
def CallTest.calltestIterate (s : CallTest) (tp : Timespec) (replies : UInt32 → Reply) :
    Except Fault (CallTest × List Deed) :=
  calltestIterateFrom tp replies s.calltesters.length s (s.calltesters.head?.map CallTester.addr)

/-- What can happen to the call test. -/
inductive CallEvent where
  /-- `call`; `answered`: `toxav_answer` succeeds. -/
  | call (friendNumber : UInt32) (audioEnabled videoEnabled answered : Bool) (alloc : Alloc)
  | callState (friendNumber state : UInt32) (alloc : Alloc)
  | audioReceiveFrame (friendNumber : UInt32) (pcm : List Int16) (sampleCount : ℕ) (channels : UInt8)
      (samplingRate : UInt32)
  | calltestIterate (tp : Timespec) (replies : UInt32 → Reply)

/-- What an event does. -/
def callEvent (s : CallTest) : CallEvent → Except Fault (CallTest × List Note)
  | .call n audio video _ alloc => pure (s.call n audio video alloc)
  | .callState n state alloc => pure (s.callState n state alloc)
  | .audioReceiveFrame n pcm count channels rate => do
    let s ← s.audioReceiveFrame n pcm count channels rate
    pure (s, [])
  | .calltestIterate tp replies => do
    let (s, deeds) ← s.calltestIterate tp replies
    pure (s, deeds.map Note.deed)

/-! ### What a tester does in a tick -/

/-- What `calltest_iterate_one_shot` can do to a tester, by the step it is at. -/
inductive Shot (tp : Timespec) : CallTester → Option CallTester → List Deed → Prop
  | enter {ct : CallTester} {tester : Option CallTester} {deeds : List Deed} (hstep : ct.step = .entering)
      (h : Shot tp { ct with samplesSend := 0, step := .greeter } tester deeds) :
      Shot tp ct tester (ct.does tp (.control .muteAudio) :: deeds)
  | greet {ct : CallTester} {samplesSend : ℕ} {delay : UInt64} {frames : List Frame}
      (hstep : ct.step = .greeter) :
      Shot tp ct (some { ct with samplesSend, delay }) (frames.map fun f => ct.does tp (.sendFrame f))
  | greeted {ct : CallTester} {samplesSend : ℕ} {delay : UInt64} {frames : List Frame}
      (hstep : ct.step = .greeter) :
      Shot tp ct (some { ct with samplesSend, delay, callstart := tp, step := .recording })
        ((frames.map fun f => ct.does tp (.sendFrame f)) ++ [ct.does tp (.control .unmuteAudio)])
  | record {ct : CallTester} (hstep : ct.step = .recording) : Shot tp ct (some ct) []
  | recorded {ct : CallTester} (hstep : ct.step = .recording)
      (htimeout : nanosecTimeout ct.callstart tp CALL_TEST_DURATION_NS = .ok true) :
      Shot tp ct (some { ct with step := .saving }) [ct.does tp (.control .muteAudio)]
  | save {ct : CallTester} (hstep : ct.step = .saving) :
      Shot tp ct (some { ct with samplesSend := 0, step := .sending })
        [ct.does tp (.audioWrite ct.outfilename ct.ctrecord)]
  | send {ct : CallTester} (hstep : ct.step = .sending) :
      Shot tp ct (some { ct with step := .echoing }) [ct.does tp (.addFilesender ct.outfilename)]
  | echo {ct : CallTester} {samplesSend : ℕ} {delay : UInt64} {frames : List Frame}
      (hstep : ct.step = .echoing) :
      Shot tp ct (some { ct with samplesSend, delay }) (frames.map fun f => ct.does tp (.sendFrame f))
  | echoed {ct : CallTester} {samplesSend : ℕ} {delay : UInt64} {frames : List Frame}
      (hstep : ct.step = .echoing) :
      Shot tp ct (some { ct with samplesSend, delay, step := .bye })
        (frames.map fun f => ct.does tp (.sendFrame f))
  | leave {ct : CallTester} (hstep : ct.step = .bye) : Shot tp ct none [ct.does tp (.control .cancel)]

/-- `audio_playback` touches the counter and the delay. -/
theorem audioPlayback_ok {ct played : CallTester} {rec : Record} {sends : Bool} {frame : Option Frame}
    {ret : ℕ} (h : audioPlayback ct rec sends = .ok (played, frame, ret)) :
    ∃ samplesSend delay, played = { ct with samplesSend, delay } := by
  unfold audioPlayback at h
  split_ifs at h with h0 hmore hsends
  · cases h
    exact ⟨_, _, rfl⟩
  · cases h
    exact ⟨_, _, rfl⟩
  · cases h
    exact ⟨_, _, rfl⟩

theorem shot_caseGreeter {greeter : Option Record} {ct : CallTester} {tp : Timespec} {sends : Bool}
    {tester : Option CallTester} {deeds : List Deed} (hstep : ct.step = .greeter)
    (h : caseGreeter greeter ct tp sends = .ok (tester, deeds)) : Shot tp ct tester deeds := by
  cases greeter with
  | none => cases h
  | some greeter =>
    obtain ⟨⟨played, frame, ret⟩, hplay, h⟩ := bind_eq_ok.mp h
    obtain ⟨samplesSend, delay, rfl⟩ := audioPlayback_ok hplay
    dsimp only at h
    split_ifs at h with hret
    · simp only [pure_eq_ok, Except.ok.injEq, Prod.mk.injEq, hstep, CallStep.next] at h
      obtain ⟨rfl, rfl⟩ := h
      exact .greeted hstep
    · simp only [pure_eq_ok, Except.ok.injEq, Prod.mk.injEq] at h
      obtain ⟨rfl, rfl⟩ := h
      exact .greet hstep

/-- **The inversion of a tester's tick**. -/
theorem shot_of_oneShot {greeter : Option Record} {ct : CallTester} {tp : Timespec} {sends : Bool}
    {tester : Option CallTester} {deeds : List Deed}
    (h : calltestIterateOneShot greeter ct tp sends = .ok (tester, deeds)) : Shot tp ct tester deeds := by
  unfold calltestIterateOneShot at h
  split at h
  next hstep =>
    obtain ⟨⟨tester', deeds'⟩, hcase, h⟩ := bind_eq_ok.mp h
    cases h
    rw [hstep] at hcase
    exact .enter hstep (shot_caseGreeter rfl hcase)
  next hstep => exact shot_caseGreeter hstep h
  next hstep =>
    rcases bind_ite_eq_ok.mp h with ⟨htimeout, h⟩ | ⟨-, h⟩
    · simp only [pure_eq_ok, Except.ok.injEq, Prod.mk.injEq, hstep, CallStep.next] at h
      obtain ⟨rfl, rfl⟩ := h
      exact .recorded hstep htimeout
    · cases h
      exact .record hstep
  next hstep =>
    simp only [pure_eq_ok, Except.ok.injEq, Prod.mk.injEq, hstep, CallStep.next] at h
    obtain ⟨rfl, rfl⟩ := h
    exact .save hstep
  next hstep =>
    simp only [pure_eq_ok, Except.ok.injEq, Prod.mk.injEq, hstep, CallStep.next] at h
    obtain ⟨rfl, rfl⟩ := h
    exact .send hstep
  next hstep =>
    obtain ⟨⟨played, frame, ret⟩, hplay, h⟩ := bind_eq_ok.mp h
    obtain ⟨samplesSend, delay, rfl⟩ := audioPlayback_ok hplay
    simp only [pure_eq_ok, Except.ok.injEq, Prod.mk.injEq] at h
    obtain ⟨rfl, rfl⟩ := h
    split_ifs with hret
    · rw [hstep]
      exact .echoed hstep
    · exact .echo hstep
  next hstep =>
    cases h
    exact .leave hstep

/-- A tick leaves a tester its identity and its record. -/
theorem Shot.same {tp : Timespec} {ct ct' : CallTester} {deeds : List Deed} (h : Shot tp ct (some ct') deeds) :
    ct'.addr = ct.addr ∧ ct'.friendNumber = ct.friendNumber ∧ ct'.ctrecord = ct.ctrecord := by
  generalize htester : some ct' = tester at h
  induction h with
  | enter hstep h ih => exact ih htester
  | leave hstep => cases htester
  | _ =>
    cases htester
    exact ⟨rfl, rfl, rfl⟩

/-- What a tester does in a tick is its own doing. -/
theorem Shot.own {tp : Timespec} {ct : CallTester} {tester : Option CallTester} {deeds : List Deed}
    (h : Shot tp ct tester deeds) : ∀ d ∈ deeds, d.addr = ct.addr ∧ d.friendNumber = ct.friendNumber ∧ d.tp = tp := by
  induction h with
  | enter hstep h ih =>
    intro d hd
    rcases List.mem_cons.mp hd with rfl | hd
    · exact ⟨rfl, rfl, rfl⟩
    · exact ih d hd
  | record hstep => simp
  | greeted hstep =>
    intro d hd
    simp only [List.mem_append, List.mem_map, List.mem_singleton] at hd
    rcases hd with ⟨f, -, rfl⟩ | rfl <;> exact ⟨rfl, rfl, rfl⟩
  | recorded hstep htimeout => simp [CallTester.does]
  | save hstep => simp [CallTester.does]
  | send hstep => simp [CallTester.does]
  | leave hstep => simp [CallTester.does]
  | _ =>
    intro d hd
    obtain ⟨f, -, rfl⟩ := List.mem_map.mp hd
    exact ⟨rfl, rfl, rfl⟩

/-- A tester is destroyed in `BYE`, where all it does is to cancel the call. -/
theorem Shot.gone_iff {tp : Timespec} {ct : CallTester} {tester : Option CallTester} {deeds : List Deed}
    (h : Shot tp ct tester deeds) : tester = none ↔ ct.step = .bye := by
  induction h with
  | enter hstep h ih => simp [ih, hstep]
  | _ => simp_all

/-! ### The walk over the testers -/

/-- What a tester's tick is when nothing is said of the others. -/
def Alone (greeter : Option Record) (tp : Timespec) (replies : UInt32 → Reply) (ct : CallTester)
    (shot : Option CallTester × List Deed) : Prop :=
  calltestIterateOneShot greeter ct tp (replies ct.friendNumber).sends = .ok shot

/-- `add_filesender` comes through on an entry with a name. -/
theorem addFilesender_total {live : List Outgoing} {f : FileSender} {name : CStr} (hname : f.info.file = some name)
    (answer : Answer) : ∃ r, addFilesender live f answer = .ok r := by
  unfold addFilesender
  cases f.stream answer.disk with
  | none => exact ⟨_, rfl⟩
  | some stream =>
    rw [hname]
    exact ⟨_, rfl⟩

theorem add_total (o : Outbox) {f : FileSender} {name : CStr} (hname : f.info.file = some name)
    (answer : Answer) : ∃ r, o.add f answer = .ok r := by
  obtain ⟨⟨f', n⟩, hadd⟩ := @addFilesender_total o.live f name hname answer
  unfold Outbox.add
  rw [hadd, ok_bind]
  dsimp only
  split_ifs <;> exact ⟨_, rfl⟩

/-- The recording is queued whatever the disk and Tox answer. -/
theorem create_sending (o : Outbox) (addr : ℕ) (n : UInt32) (outfilename : CStr) (answer : Answer) :
    ∃ r, o.create addr (.sending n outfilename) answer = .ok r := by
  obtain ⟨r, hadd⟩ := @add_total o
    { FileSender.zero addr with
      friendNumber := n
      pathname := some outfilename
      info := { FileNode.zero with file := some (.ofBytes (ascii "call-test.wav")) } } _ rfl answer
  exact bind_isOk.mpr ⟨_, rfl, bind_isOk.mpr ⟨r, hadd, _, rfl⟩⟩

/-- The send queue is the only thing that the acts of a tester change. -/
theorem serve_total (deeds : List Deed) : ∀ (s : CallTest) (answer : Answer), ∃ outbox nextAddr,
    s.serve answer deeds = .ok { s with outbox, nextAddr } ∧ s.nextAddr ≤ nextAddr := by
  induction deeds with
  | nil => exact fun s answer => ⟨s.outbox, s.nextAddr, rfl, le_rfl⟩
  | cons d deeds ih =>
    intro s answer
    unfold CallTest.serve
    split
    next pathname _ =>
      obtain ⟨⟨o, failed⟩, hcreate⟩ := create_sending s.outbox s.nextAddr d.friendNumber pathname answer
      obtain ⟨outbox, nextAddr, hserve, hle⟩ := ih { s with outbox := o, nextAddr := s.nextAddr + 1 } answer
      rw [hcreate, ok_bind]
      exact ⟨outbox, nextAddr, hserve, (Nat.le_succ _).trans hle⟩
    next => exact ih s answer

section Walk

variable {done rest : List CallTester} {ct : CallTester}

/-- The entry at the cursor, when the addresses are distinct. -/
theorem find?_at (hnodup : ((done ++ ct :: rest).map CallTester.addr).Nodup) :
    (done ++ ct :: rest).find? (·.addr = ct.addr) = some ct :=
  (find?_key_eq_some CallTester.addr hnodup).mpr ⟨by simp, rfl⟩

theorem addr_ne_of_mem_done (hnodup : ((done ++ ct :: rest).map CallTester.addr).Nodup) :
    ∀ c ∈ done, c.addr ≠ ct.addr := by
  intro c hc h
  rw [List.map_append, List.nodup_append] at hnodup
  exact hnodup.2.2 _ (List.mem_map_of_mem hc) ct.addr (by simp) h

theorem addr_ne_of_mem_rest (hnodup : ((done ++ ct :: rest).map CallTester.addr).Nodup) :
    ∀ c ∈ rest, c.addr ≠ ct.addr := by
  intro c hc h
  rw [List.map_append, List.nodup_append, List.map_cons, List.nodup_cons] at hnodup
  exact hnodup.2.1.1 (h ▸ List.mem_map_of_mem hc)

theorem listNextEntry_at (hnodup : ((done ++ ct :: rest).map CallTester.addr).Nodup) :
    listNextEntry (done ++ ct :: rest) ct.addr = rest.head?.map CallTester.addr := by
  unfold listNextEntry
  rw [List.dropWhile_append_of_pos, List.dropWhile_cons_of_neg (by simp), List.tail_cons]
  intro c hc
  simpa using addr_ne_of_mem_done hnodup c hc

/-- Only the entry at the cursor is replaced or taken out. -/
theorem settle_at {s : CallTest} (hlist : s.calltesters = done ++ ct :: rest)
    (hnodup : ((done ++ ct :: rest).map CallTester.addr).Nodup) {tester : Option CallTester}
    (haddr : ∀ ct', tester = some ct' → ct'.addr = ct.addr) :
    s.settle ct.addr tester = { s with calltesters := done ++ tester.toList ++ rest } := by
  have hdone := addr_ne_of_mem_done hnodup
  have hrest := addr_ne_of_mem_rest hnodup
  cases tester with
  | none =>
    simp only [CallTest.settle, hlist]
    rw [List.eraseP_append_right _ (by simpa using hdone), List.eraseP_cons_of_pos (by simp)]
    simp
  | some ct' =>
    simp only [CallTest.settle, CallTest.withTester, hlist, haddr ct' rfl, List.map_append, List.map_cons,
      if_true, Option.toList_some, List.append_assoc, List.singleton_append]
    congr 2
    · exact (List.map_congr_left fun c hc => if_neg (hdone c hc)).trans (List.map_id _)
    · congr 1
      exact (List.map_congr_left fun c hc => if_neg (hrest c hc)).trans (List.map_id _)

/-- What is left of a list after a part of it has been replaced by entries at the same place. -/
theorem nodup_settled (hnodup : ((done ++ ct :: rest).map CallTester.addr).Nodup) {tester : Option CallTester}
    (haddr : ∀ ct', tester = some ct' → ct'.addr = ct.addr) :
    ((done ++ tester.toList ++ rest).map CallTester.addr).Nodup := by
  cases tester with
  | none =>
    refine hnodup.sublist (List.Sublist.map _ ?_)
    simp
  | some ct' => simpa [haddr ct' rfl] using hnodup

end Walk

/-- The loop from a place in the list on: the testers before it are not touched, each from it on
has its own tick. -/
theorem calltestIterateFrom_ok {tp : Timespec} {replies : UInt32 → Reply} {rest : List CallTester} :
    ∀ {fuel : ℕ} {s s' : CallTest} {done : List CallTester} {deeds : List Deed},
      s.calltesters = done ++ rest → ((done ++ rest).map CallTester.addr).Nodup →
      calltestIterateFrom tp replies fuel s (rest.head?.map CallTester.addr) = .ok (s', deeds) →
      ∃ shots, List.Forall₂ (Alone s.greeter tp replies) rest shots ∧
        s'.calltesters = done ++ shots.filterMap Prod.fst ∧ deeds = shots.flatMap Prod.snd ∧
        s'.greeter = s.greeter ∧ s.nextAddr ≤ s'.nextAddr := by
  induction rest with
  | nil =>
    intro fuel s s' done deeds hlist hnodup h
    cases fuel <;>
    · cases h
      exact ⟨[], .nil, by simpa using hlist, rfl, rfl, le_rfl⟩
  | cons ct rest ih =>
    intro fuel s s' done deeds hlist hnodup h
    cases fuel with
    | zero => cases h
    | succ fuel =>
      simp only [List.head?_cons, Option.map_some, calltestIterateFrom, hlist, find?_at hnodup,
        listNextEntry_at hnodup] at h
      obtain ⟨⟨tester, deeds₁⟩, hshot, h⟩ := bind_eq_ok.mp h
      obtain ⟨t, hserve, h⟩ := bind_eq_ok.mp h
      obtain ⟨⟨s'', deeds₂⟩, hwalk, h⟩ := bind_eq_ok.mp h
      cases h
      have haddr : ∀ ct', tester = some ct' → ct'.addr = ct.addr := by
        rintro ct' rfl
        exact (shot_of_oneShot hshot).same.1
      obtain ⟨outbox, nextAddr, hserved, hle⟩ := serve_total deeds₁ (s.settle ct.addr tester)
        (replies ct.friendNumber).answer
      rw [hserved] at hserve
      cases hserve
      rw [settle_at hlist hnodup haddr] at hwalk hle
      obtain ⟨shots, hall, hlist', rfl, hgreeter, hle'⟩ :=
        @ih _ _ _ (done ++ tester.toList) _ rfl (nodup_settled hnodup haddr) hwalk
      refine ⟨(tester, deeds₁) :: shots, .cons hshot hall, ?_, by simp, hgreeter, hle.trans hle'⟩
      rw [hlist']
      cases tester <;> simp

/-- **The walk of `calltest_iterate`** does to each tester what the body does to it alone. -/
theorem calltestIterate_ok {s s' : CallTest} {tp : Timespec} {replies : UInt32 → Reply} {deeds : List Deed}
    (hnodup : (s.calltesters.map CallTester.addr).Nodup)
    (h : s.calltestIterate tp replies = .ok (s', deeds)) :
    ∃ shots, List.Forall₂ (Alone s.greeter tp replies) s.calltesters shots ∧
      s'.calltesters = shots.filterMap Prod.fst ∧ deeds = shots.flatMap Prod.snd ∧
      s'.greeter = s.greeter ∧ s.nextAddr ≤ s'.nextAddr := by
  have hlist : s.calltesters = [] ++ s.calltesters := rfl
  simpa using calltestIterateFrom_ok hlist hnodup h

end ToxSuite.Call
