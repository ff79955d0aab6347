import ToxSuite.Call.Heard
import ToxSuite.Call.Playback

/-!
# What comes back

A friend who calls the test is recorded, the recording is written to a file, and the friend
hears it again. The machine `echoStep` keeps all notes beside what each tester has heard. In
any run, whoever else calls in between, a tester writes what it has heard, and the
frames it plays back are the beginning of it, in the channels and at the rate in which it
came, sent to the one who said it; a playback that comes to its end without an error is all
of it (`echo_is_recording`). What the last frame reads behind the end of the recording is not part of this.
-/

namespace ToxSuite.Call

open ToxSuite.Lib ToxSuite.File ToxSuite.Suit

/-! ### What is played back -/

/-- The samples that have been heard. -/
def heardSamples (heard : List Received) : List Int16 := heard.flatMap Received.samples

/-- The frames that a tester plays back. -/
def echoes (deeds : List Deed) : List Frame :=
  deeds.filterMap fun d => if d.step = .echoing then match d.act with | .sendFrame f => some f | _ => none else none

/-- The records that a tester writes. -/
def writes (deeds : List Deed) : List Record :=
  deeds.filterMap fun d => match d.act with | .audioWrite _ rec => some rec | _ => none

/-- What a frame takes of a recording. -/
def Frame.reads (f : Frame) (samples : List Int16) : List Int16 :=
  (samples.drop f.first).take (f.sampleCount * f.channels.toNat)

/-- What the frames bring of a recording, those that could not be sent apart. -/
def playedBack (frames : List Frame) (samples : List Int16) : List Int16 :=
  (frames.filter Frame.sent).flatMap fun f => f.reads samples

/-- All frames have the same number of channels. -/
def Uniform (heard : List Received) : Prop := ∀ f ∈ heard, ∀ g ∈ heard, f.channels = g.channels

/-- The tester has written what it has heard, and has played back the beginning of it. -/
structure Echoed (heard : List Received) (deeds : List Deed) : Prop where
  saved : ∀ rec ∈ writes deeds, rec.pcm = (heardSamples heard).map some
  /-- The record counts its samples, and has the channels and the rate of the last frame. -/
  described : ∀ rec ∈ writes deeds, rec.pcm.length = rec.channels.toNat * rec.samplesCount ∧
    ∀ g, heard.getLast? = some g → rec.channels = g.channels ∧ rec.samplerate = g.samplingRate
  back : playedBack (echoes deeds) (heardSamples heard) <+: heardSamples heard
  /-- As the last frame came, so all are played. -/
  format : ∀ f ∈ echoes deeds, ∃ g, heard.getLast? = some g ∧ f.channels = g.channels ∧ f.samplerate = g.samplingRate

/-- Who sent a frame. -/
def CallEvent.speaker : CallEvent → List UInt32
  | .audioReceiveFrame n .. => [n]
  | _ => []

/-- The call test with its history. -/
structure Echoing extends Hearing where
  /-- The friends whom the tester at an address has heard. -/
  speakers : ℕ → List UInt32
  /-- All notes so far. -/
  notes : List Note

/-- After `calltest_init`. -/
def Echoing.start (greeter : Option Record) (outbox : Outbox) (nextAddr : ℕ) : Echoing :=
  ⟨.start greeter outbox nextAddr, fun _ => [], []⟩

/-- Who has been heard after an event. -/
def Echoing.speakersAfter (s : Echoing) (e : CallEvent) : ℕ → List UInt32 :=
  match s.test.hears e with
  | none => s.speakers
  | some (ct, _) => Function.update s.speakers ct.addr (s.speakers ct.addr ++ e.speaker)

/-- A step: a fault ends the program. -/
def echoStep (s : Echoing) (e : CallEvent) : Option Echoing :=
  (callEvent s.test e).toOption.map fun (test, notes) =>
    ⟨⟨test, s.heardAfter e⟩, s.speakersAfter e, s.notes ++ notes⟩

/-- What the tester at an address has done so far. -/
def Echoing.history (s : Echoing) (addr : ℕ) : List Deed := deedsOf addr (deedsIn s.notes)

/-- The tester at the address goes from `ECHOING` to `BYE`. -/
def EndsEcho (s s' : Echoing) (addr : ℕ) : Prop :=
  ∃ ct ∈ s.test.calltesters, ∃ c ∈ s'.test.calltesters,
    ct.addr = addr ∧ c.addr = addr ∧ ct.step = .echoing ∧ c.step = .bye

theorem echoStep_eq_some {s s' : Echoing} {e : CallEvent} :
    echoStep s e = some s' ↔ ∃ test notes, callEvent s.test e = .ok (test, notes) ∧
      s' = ⟨⟨test, s.heardAfter e⟩, s.speakersAfter e, s.notes ++ notes⟩ := by
  simp only [echoStep, Option.map_eq_some_iff, toOption_eq_some, Prod.exists, eq_comm (a := s')]

@[simp] theorem echoes_append (a b : List Deed) : echoes (a ++ b) = echoes a ++ echoes b := List.filterMap_append

@[simp] theorem writes_append (a b : List Deed) : writes (a ++ b) = writes a ++ writes b := List.filterMap_append

/-! ### Slices -/

/-- Slices of one length, one after the other, are the beginning of a list. -/
theorem slices_eq_take {α : Type} (l : List α) (n k : ℕ) :
    (List.range k).flatMap (fun i => (l.drop (i * n)).take n) = l.take (k * n) := by
  induction k with
  | zero => rw [List.range_zero, List.flatMap_nil, Nat.zero_mul, List.take_zero]
  | succ k ih =>
    rw [List.range_succ, List.flatMap_append, ih, List.flatMap_singleton, Nat.succ_mul, List.take_add]

/-- The frame of a recording that is played after `i` others. -/
def Record.frameAt (rec : Record) (sent : Bool) (i : ℕ) : Frame :=
  ⟨i * rec.frameSize * rec.channels.toNat, rec.frameSize, rec.channels, rec.samplerate, sent⟩

/-- So many frames of a recording, and perhaps one that could not be sent. -/
inductive PlayedOf (rec : Record) (k : ℕ) : List Frame → Prop
  | sent : PlayedOf rec k ((List.range k).map (rec.frameAt true))
  | failed : PlayedOf rec k ((List.range k).map (rec.frameAt true) ++ [rec.frameAt false k])

theorem playedBack_of_played {rec : Record} {k : ℕ} {frames : List Frame} (h : PlayedOf rec k frames)
    (samples : List Int16) :
    playedBack frames samples = samples.take (k * (rec.frameSize * rec.channels.toNat)) := by
  have hsent : ((List.range k).map (rec.frameAt true)).filter Frame.sent = (List.range k).map (rec.frameAt true) := by
    refine List.filter_eq_self.mpr fun f hf => ?_
    obtain ⟨i, -, rfl⟩ := List.mem_map.mp hf
    rfl
  have hframes : frames.filter Frame.sent = (List.range k).map (rec.frameAt true) := by
    cases h with
    | sent => exact hsent
    | failed => rw [List.filter_append, hsent, List.filter_cons_of_neg (by simp [Record.frameAt]), List.filter_nil,
        List.append_nil]
  rw [playedBack, hframes, List.flatMap_map, ← slices_eq_take]
  refine congrArg List.flatten (List.map_congr_left fun i _ => ?_)
  rw [Frame.reads, Record.frameAt, Nat.mul_assoc]

theorem format_of_played {rec : Record} {k : ℕ} {frames : List Frame} (h : PlayedOf rec k frames) :
    ∀ f ∈ frames, f.channels = rec.channels ∧ f.samplerate = rec.samplerate := by
  intro f hf
  cases h with
  | sent =>
    obtain ⟨i, -, rfl⟩ := List.mem_map.mp hf
    exact ⟨rfl, rfl⟩
  | failed =>
    rcases List.mem_append.mp hf with hf | hf
    · obtain ⟨i, -, rfl⟩ := List.mem_map.mp hf
      exact ⟨rfl, rfl⟩
    · rw [List.mem_singleton.mp hf]
      exact ⟨rfl, rfl⟩

/-! ### A tick -/

theorem echoes_frames (ct : CallTester) (tp : Timespec) (frames : List Frame) :
    echoes (frames.map fun f => ct.does tp (.sendFrame f)) = if ct.step = .echoing then frames else [] := by
  induction frames with
  | nil => split_ifs <;> rfl
  | cons f frames ih =>
    rw [List.map_cons, echoes, List.filterMap_cons, ← echoes, ih]
    by_cases hstep : ct.step = .echoing <;> simp [CallTester.does, hstep]

theorem writes_frames (ct : CallTester) (tp : Timespec) (frames : List Frame) :
    writes (frames.map fun f => ct.does tp (.sendFrame f)) = [] :=
  List.filterMap_eq_nil_iff.mpr fun d hd => by
    obtain ⟨f, -, rfl⟩ := List.mem_map.mp hd
    rfl

theorem echoes_control (ct : CallTester) (tp : Timespec) (control : CallControl) :
    echoes [ct.does tp (.control control)] = [] := by
  simp [echoes, CallTester.does]

/-- The steps before the recording is written. -/
def CallStep.unwritten : CallStep → Bool
  | .entering | .greeter | .recording | .saving => true
  | _ => false

/-- What a tester has written and played is of its record. -/
structure Plays (ct : CallTester) (recs : List Record) (frames : List Frame) : Prop where
  saved : ∀ rec ∈ recs, rec = ct.ctrecord
  played : ∃ k, PlayedOf ct.ctrecord k frames
  nonempty : frames ≠ [] → 0 < ct.ctrecord.samplesCount
  unwritten : ct.step.unwritten → recs = [] ∧ frames = []
  sending : ct.step = .sending → frames = [] ∧ ct.samplesSend = 0
  echoing : ct.step = .echoing → ∃ k, frames = (List.range k).map (ct.ctrecord.frameAt true) ∧
    ct.samplesSend = k * ct.ctrecord.frameSize

theorem plays_nil {ct : CallTester} (h : ct.step.unwritten) : Plays ct [] [] :=
  ⟨by simp, ⟨0, .sent⟩, fun hne => absurd rfl hne, fun _ => ⟨rfl, rfl⟩,
    fun hstep => by simp [hstep, CallStep.unwritten] at h, fun hstep => by simp [hstep, CallStep.unwritten] at h⟩

/-- A tester that is at `BYE` for whatever reason. -/
theorem plays_bye {ct c : CallTester} {recs : List Record} {frames : List Frame}
    (hsaved : ∀ rec ∈ recs, rec = ct.ctrecord) {k : ℕ} (hplayed : PlayedOf ct.ctrecord k frames)
    (hnonempty : frames ≠ [] → 0 < ct.ctrecord.samplesCount) (hrecord : c.ctrecord = ct.ctrecord)
    (hstep : c.step = .bye) : Plays c recs frames :=
  ⟨hrecord ▸ hsaved, hrecord ▸ ⟨k, hplayed⟩, hrecord ▸ hnonempty, by simp [hstep, CallStep.unwritten], by simp [hstep],
    by simp [hstep]⟩

/-- **A tick before the playback**: the record is written once, when no more comes to it. -/
theorem Shot.plays {tp : Timespec} {ct : CallTester} {tester : Option CallTester} {deeds : List Deed}
    (h : Shot tp ct tester deeds) (hstep : ct.step ≠ .echoing) {recs : List Record} {frames : List Frame}
    (hp : Plays ct recs frames) :
    echoes deeds = [] ∧ (tester = none → writes deeds = []) ∧
      ∀ c, tester = some c → Plays c (recs ++ writes deeds) frames := by
  induction h with
  | @enter ct tester deeds hentering h ih =>
    obtain ⟨rfl, rfl⟩ := hp.unwritten (by rw [hentering]; rfl)
    have hmute : writes (ct.does tp (.control .muteAudio) :: deeds) = writes deeds := rfl
    obtain ⟨hechoes, hwrites, hplays⟩ := ih (fun hgreeter => by cases hgreeter) (plays_nil rfl)
    refine ⟨?_, hmute ▸ hwrites, hmute ▸ hplays⟩
    rw [← List.singleton_append, echoes_append, echoes_control, hechoes, List.append_nil]
  | @greet ct samplesSend delay sent hgreeter =>
    obtain ⟨rfl, rfl⟩ := hp.unwritten (by rw [hgreeter]; rfl)
    rw [echoes_frames, if_neg hstep, writes_frames]
    refine ⟨rfl, fun _ => rfl, ?_⟩
    rintro _ ⟨⟩
    exact plays_nil (by rw [hgreeter]; rfl)
  | @greeted ct samplesSend delay sent hgreeter =>
    obtain ⟨rfl, rfl⟩ := hp.unwritten (by rw [hgreeter]; rfl)
    rw [echoes_append, echoes_frames, if_neg hstep, echoes_control, writes_append, writes_frames]
    refine ⟨rfl, fun _ => rfl, ?_⟩
    rintro _ ⟨⟩
    exact plays_nil rfl
  | @record ct hrecording =>
    refine ⟨rfl, fun _ => rfl, ?_⟩
    rintro _ ⟨⟩
    rwa [show writes [] = [] from rfl, List.append_nil]
  | @recorded ct hrecording htimeout =>
    obtain ⟨rfl, rfl⟩ := hp.unwritten (by rw [hrecording]; rfl)
    refine ⟨echoes_control .., fun _ => rfl, ?_⟩
    rintro _ ⟨⟩
    exact plays_nil rfl
  | @save ct hsaving =>
    obtain ⟨rfl, rfl⟩ := hp.unwritten (by rw [hsaving]; rfl)
    refine ⟨by simp [echoes, CallTester.does], fun hnone => (by cases hnone), ?_⟩
    rintro _ ⟨⟩
    refine ⟨fun rec hrec => List.mem_singleton.mp hrec, ⟨0, .sent⟩, fun hne => absurd rfl hne, fun hearly => ?_,
      fun _ => ⟨rfl, rfl⟩, fun hechoing => ?_⟩
    · cases hearly
    · cases hechoing
  | @send ct hsending =>
    obtain ⟨rfl, hplace⟩ := hp.sending hsending
    refine ⟨by simp [echoes, CallTester.does], fun _ => rfl, ?_⟩
    rintro _ ⟨⟩
    rw [show writes [ct.does tp (.addFilesender ct.outfilename)] = [] from rfl, List.append_nil]
    refine ⟨hp.saved, ⟨0, .sent⟩, fun hne => absurd rfl hne, fun hearly => ?_, fun hsending => ?_, fun _ => ?_⟩
    · cases hearly
    · cases hsending
    · exact ⟨0, rfl, by rw [hplace, Nat.zero_mul]⟩
  | echo hechoing => exact absurd hechoing hstep
  | echoed hechoing => exact absurd hechoing hstep
  | leave hbye => exact ⟨echoes_control .., fun _ => rfl, fun c hc => by cases hc⟩

/-- **A tick of the playback**: the next frame is played, or there is none; and unless it fails, what has been
played at the end of it is all there is. -/
theorem plays_echoing {greeter : Option Record} {ct : CallTester} {tp : Timespec} {sends : Bool}
    {tester : Option CallTester} {deeds : List Deed} (hstep : ct.step = .echoing) {recs : List Record}
    {frames : List Frame} (hp : Plays ct recs frames)
    (h : calltestIterateOneShot greeter ct tp sends = .ok (tester, deeds)) :
    writes deeds = [] ∧ ∃ c, tester = some c ∧ Plays c recs (frames ++ echoes deeds) ∧
      (c.step = .bye → (∀ f ∈ frames ++ echoes deeds, f.sent ∧ 0 < f.sampleCount) →
        ∃ k, PlayedOf ct.ctrecord k (frames ++ echoes deeds) ∧
          ct.ctrecord.samplesCount ≤ k * ct.ctrecord.frameSize) := by
  obtain ⟨k, rfl, hplace⟩ := hp.echoing hstep
  unfold calltestIterateOneShot at h
  rw [hstep] at h
  obtain ⟨⟨played, frame, ret⟩, hplay, h⟩ := bind_eq_ok.mp h
  have hrate : 0 < ct.ctrecord.samplerate := by
    refine UInt32.pos_iff_ne_zero.mpr fun hzero => ?_
    rw [audioPlayback, if_pos hzero] at hplay
    cases hplay
  obtain ⟨samplesSend, delay, hplayed⟩ := audioPlayback_ok hplay
  have hrecord : played.ctrecord = ct.ctrecord := by rw [hplayed]
  cases h
  rw [writes_frames, echoes_frames, if_pos hstep]
  refine ⟨rfl, _, rfl, ?_⟩
  by_cases hlt : ct.samplesSend < ct.ctrecord.samplesCount
  · obtain ⟨ct', hplay', hplace'⟩ := audioPlayback_lt hrate hlt sends
    have hframe : (⟨ct.samplesSend * ct.ctrecord.channels.toNat, ct.ctrecord.frameSize, ct.ctrecord.channels,
        ct.ctrecord.samplerate, sends⟩ : Frame) = ct.ctrecord.frameAt sends k := by
      rw [Record.frameAt, hplace]
    cases hplay.symm.trans hplay'
    rw [hframe, Option.toList_some]
    have hsome : 0 < ct.ctrecord.samplesCount := (Nat.zero_le _).trans_lt hlt
    have hnext : (List.range k).map (ct.ctrecord.frameAt true) ++ [ct.ctrecord.frameAt true k] =
        (List.range (k + 1)).map (ct.ctrecord.frameAt true) := by
      rw [List.range_succ, List.map_append, List.map_singleton]
    cases sends with
    | false =>
      rw [if_neg Bool.false_ne_true, if_pos rfl]
      refine ⟨plays_bye hp.saved .failed (fun _ => hsome) hrecord rfl, fun _ hsent => ?_⟩
      have hfailed := (hsent (ct.ctrecord.frameAt false k) (by simp)).1
      cases hfailed
    | true =>
      rw [if_pos rfl, hnext]
      split_ifs with hF
      · refine ⟨plays_bye hp.saved .sent (fun _ => hsome) hrecord rfl, fun _ hsent => ?_⟩
        have hempty := (hsent (ct.ctrecord.frameAt true k) (by rw [← hnext]; simp)).2
        exact absurd hF hempty.ne'
      · have hechoing : played.step = .echoing := by rw [hplayed, hstep]
        refine ⟨⟨hrecord ▸ hp.saved, hrecord ▸ ⟨k + 1, .sent⟩, fun _ => hrecord ▸ hsome, ?_, ?_, fun _ => ?_⟩, ?_⟩
        · simp [hechoing, CallStep.unwritten]
        · simp [hechoing]
        · exact ⟨k + 1, by rw [hrecord], by rw [hplace', if_pos rfl, hrecord, hplace, Nat.succ_mul]⟩
        · simp [hechoing]
  · obtain ⟨ct', hplay', -⟩ := audioPlayback_ge hrate hlt sends
    cases hplay.symm.trans hplay'
    rw [Option.toList_none, List.append_nil, if_pos rfl]
    refine ⟨plays_bye hp.saved .sent hp.nonempty hrecord rfl, fun _ _ => ⟨k, .sent, ?_⟩⟩
    exact hplace ▸ Nat.not_lt.mp hlt

/-! ### What is remembered of what was heard -/

/-- The record of a tester is that of what it has heard. -/
structure Remembers (ct : CallTester) (heard : List Received) : Prop where
  whole : Uniform heard → Whole ct.ctrecord heard
  last : ∀ g, heard.getLast? = some g → ct.ctrecord.channels = g.channels ∧ ct.ctrecord.samplerate = g.samplingRate
  unheard : heard = [] → ct.ctrecord.samplesCount = 0

theorem remembers_new (addr : ℕ) (n : UInt32) (alloc : Alloc) : Remembers (.new addr n alloc) [] :=
  ⟨fun _ => ⟨rfl, rfl⟩, fun _ hg => (by cases hg), fun _ => rfl⟩

/-- A frame is remembered. -/
theorem Remembers.receive {ct : CallTester} {heard : List Received} (h : Remembers ct heard) {f : Received}
    {ctrecord : Record}
    (hreceive : receiveFrame ct.ctrecord f.pcm f.sampleCount f.channels f.samplingRate = .ok ctrecord) :
    Remembers { ct with ctrecord } (heard ++ [f]) := by
  refine ⟨fun huniform => ?_, fun g hg => ?_, fun hnil => (by simp at hnil)⟩
  · have hbefore : Uniform heard := fun a ha b hb =>
      huniform a (List.mem_append_left _ ha) b (List.mem_append_left _ hb)
    refine (whole_receiveFrame_iff (h.whole hbefore) hreceive).mpr ?_
    cases hlast : heard.getLast? with
    | none => exact .inl (h.unheard (List.getLast?_eq_none_iff.mp hlast))
    | some g =>
      right
      rw [(h.last g hlast).1]
      exact huniform g (List.mem_append_left _ (List.mem_of_getLast? hlast)) f (by simp)
  · rw [List.getLast?_append, List.getLast?_singleton, Option.some_or] at hg
    cases hg
    rw [receiveFrame_eq] at hreceive
    split_ifs at hreceive
    cases hreceive
    exact ⟨rfl, rfl⟩

/-- **What a tester has written and played is what it has heard.** -/
theorem echoed_of_plays {ct : CallTester} {heard : List Received} {deeds : List Deed} (hr : Remembers ct heard)
    (hp : Plays ct (writes deeds) (echoes deeds)) (huniform : Uniform heard) : Echoed heard deeds := by
  have hwhole := hr.whole huniform
  obtain ⟨k, hplayed⟩ := hp.played
  refine ⟨fun rec hrec => hp.saved rec hrec ▸ hwhole.pcm, fun rec hrec => ?_, ?_, fun f hf => ?_⟩
  · rw [hp.saved rec hrec]
    exact ⟨hwhole.length, hr.last⟩
  · rw [playedBack_of_played hplayed]
    exact List.take_prefix _ _
  · have hcount := hp.nonempty (List.ne_nil_of_mem hf)
    cases hlast : heard.getLast? with
    | none => exact absurd (hr.unheard (List.getLast?_eq_none_iff.mp hlast)) hcount.ne'
    | some g =>
      obtain ⟨hchannels, hrate⟩ := format_of_played hplayed f hf
      obtain ⟨hchannels', hrate'⟩ := hr.last g hlast
      exact ⟨g, rfl, hchannels.trans hchannels', hrate.trans hrate'⟩

/-- Enough frames of a recording are all of it. -/
theorem playedBack_eq {ct : CallTester} {heard : List Received} (hr : Remembers ct heard) (huniform : Uniform heard)
    {k : ℕ} {frames : List Frame} (hplayed : PlayedOf ct.ctrecord k frames)
    (hcount : ct.ctrecord.samplesCount ≤ k * ct.ctrecord.frameSize) :
    playedBack frames (heardSamples heard) = heardSamples heard := by
  have hwhole := hr.whole huniform
  rw [playedBack_of_played hplayed]
  refine List.take_of_length_le ?_
  have hlen : (heardSamples heard).length = ct.ctrecord.channels.toNat * ct.ctrecord.samplesCount := by
    rw [← hwhole.length, hwhole.pcm, List.length_map]
    rfl
  rw [hlen, Nat.mul_comm, ← Nat.mul_assoc]
  exact Nat.mul_le_mul_right _ hcount

/-! ### Every event -/

/-- No callback does a deed. -/
theorem deedsIn_callback {s s' : CallTest} {e : CallEvent} {notes : List Note} (htick : e.isTick = false)
    (h : callEvent s e = .ok (s', notes)) : deedsIn notes = [] := by
  cases e with
  | call n audio video answered alloc =>
    cases h
    exact deedsIn_addEntry s n alloc
  | callState n state alloc =>
    simp only [callEvent, pure_eq_ok, Except.ok.injEq] at h
    rcases callState_cases s n state alloc with ⟨hsame, -⟩ | ⟨-, -, audio, video, hadd⟩ | ⟨-, ct, hget, hbye⟩
    · cases hsame.symm.trans h
      rfl
    · cases hadd.symm.trans h
      exact deedsIn_addEntry s n alloc
    · cases hbye.symm.trans h
      rfl
  | audioReceiveFrame n pcm count channels rate =>
    obtain ⟨t, ht, h⟩ := bind_eq_ok.mp h
    cases h
    rfl
  | calltestIterate tp replies => cases htick

/-- In a tick the deeds under the address of a tester are its own, and it stays as its own tick leaves it. -/
theorem shot_at {greeter : Option Record} {tp : Timespec} {replies : UInt32 → Reply} {l : List CallTester}
    {shots : List (Option CallTester × List Deed)} (h : List.Forall₂ (Alone greeter tp replies) l shots)
    (hnodup : (l.map CallTester.addr).Nodup) : ∀ ct ∈ l, ∃ tester,
      Alone greeter tp replies ct (tester, deedsOf ct.addr (shots.flatMap Prod.snd)) ∧
        ∀ c, c.addr = ct.addr → (c ∈ shots.filterMap Prod.fst ↔ tester = some c) := by
  intro ct hct
  obtain ⟨done, rest, rfl⟩ := List.append_of_mem hct
  -- the turns of the testers before it, its own, and those of the testers behind it
  have hbefore := List.forall₂_take done.length h
  have hbehind := List.forall₂_drop done.length h
  rw [List.take_left] at hbefore
  rw [List.drop_left, List.forall₂_cons_left_iff] at hbehind
  obtain ⟨⟨tester, deeds⟩, after, halone, hafter, hdrop⟩ := hbehind
  have hshots : shots = shots.take done.length ++ (tester, deeds) :: after := by rw [← hdrop, List.take_append_drop]
  have hturns : ∀ {l : List CallTester} {shots : List (Option CallTester × List Deed)},
      List.Forall₂ (Alone greeter tp replies) l shots → Turns l shots :=
    fun h => h.imp fun _ _ hshot => .tick (shot_of_oneShot hshot)
  have hdone := addr_ne_of_mem_done hnodup
  have hrest := addr_ne_of_mem_rest hnodup
  have hshot : Shot tp ct tester deeds := shot_of_oneShot halone
  have hown : deedsOf ct.addr deeds = deeds :=
    List.filter_eq_self.mpr fun d hd => by simpa using (hshot.own d hd).1
  refine ⟨tester, ?_, fun c hc => ?_⟩
  · rw [hshots, List.flatMap_append, List.flatMap_cons, deedsOf_append, deedsOf_append,
      (hturns hbefore).deedsOf_eq_nil hdone, (hturns hafter).deedsOf_eq_nil hrest, hown, List.nil_append,
      List.append_nil]
    exact halone
  · have hnot : ∀ {l : List CallTester} {shots : List (Option CallTester × List Deed)},
        List.Forall₂ (Alone greeter tp replies) l shots → (∀ x ∈ l, x.addr ≠ ct.addr) →
          c ∉ shots.filterMap Prod.fst := fun h hne hmem => by
      obtain ⟨x, hx, haddr⟩ := (hturns h).origin c hmem
      exact hne x hx (haddr.symm.trans hc)
    rw [hshots, List.filterMap_append, List.filterMap_cons, List.mem_append, or_iff_right (hnot hbefore hdone)]
    cases tester with
    | none => simpa using hnot hafter hrest
    | some c' => simpa [hnot hafter hrest] using eq_comm

/-- The records, the frames and the friend of each tester, and of those that are gone. -/
structure Echoing.Keeps (s : Echoing) : Prop extends s.toHearing.Fresh where
  remembers : ∀ ct ∈ s.test.calltesters, Remembers ct (s.heard ct.addr)
  plays : ∀ ct ∈ s.test.calltesters, Plays ct (writes (s.history ct.addr)) (echoes (s.history ct.addr))
  friend : ∀ ct ∈ s.test.calltesters,
    (∀ n ∈ s.speakers ct.addr, n = ct.friendNumber) ∧ ∀ d ∈ s.history ct.addr, d.friendNumber = ct.friendNumber
  gone : ∀ addr, (∀ ct ∈ s.test.calltesters, ct.addr ≠ addr) →
    (Uniform (s.heard addr) → Echoed (s.heard addr) (s.history addr)) ∧
      ∀ n ∈ s.speakers addr, ∀ d ∈ s.history addr, d.friendNumber = n
  unused : ∀ addr, s.test.nextAddr ≤ addr → s.speakers addr = [] ∧ s.history addr = []

theorem keeps_start (greeter : Option Record) (outbox : Outbox) (nextAddr : ℕ) :
    (Echoing.start greeter outbox nextAddr).Keeps := by
  refine ⟨fresh_start .., ?_, ?_, ?_, fun addr _ => ⟨fun _ => ?_, ?_⟩, fun addr _ => ⟨rfl, rfl⟩⟩
  · simp [Echoing.start, Hearing.start, CallTest.init]
  · simp [Echoing.start, Hearing.start, CallTest.init]
  · simp [Echoing.start, Hearing.start, CallTest.init]
  · exact ⟨List.forall_mem_nil _, List.forall_mem_nil _, List.nil_prefix, List.forall_mem_nil _⟩
  · simp [Echoing.start]

/-- What has been shown of testers on the list, and of those that are gone, is so of all. -/
theorem Echoing.Keeps.all {s : Echoing} (hs : s.Keeps) (addr : ℕ) :
    (Uniform (s.heard addr) → Echoed (s.heard addr) (s.history addr)) ∧
      ∀ n ∈ s.speakers addr, ∀ d ∈ s.history addr, d.friendNumber = n := by
  by_cases hlisted : ∃ ct ∈ s.test.calltesters, ct.addr = addr
  · obtain ⟨ct, hct, rfl⟩ := hlisted
    obtain ⟨hspeakers, hfriend⟩ := hs.friend ct hct
    refine ⟨echoed_of_plays (hs.remembers ct hct) (hs.plays ct hct), fun n hn d hd => ?_⟩
    exact (hfriend d hd).trans (hspeakers n hn).symm
  · exact hs.gone addr fun ct hct haddr => hlisted ⟨ct, hct, haddr⟩

theorem speakersAfter_of_none {s : Echoing} {e : CallEvent} (h : s.test.hears e = none) :
    s.speakersAfter e = s.speakers := by
  rw [Echoing.speakersAfter, h]

theorem speakersAfter_other {s : Echoing} {e : CallEvent} {addr : ℕ}
    (h : ∀ ct f, s.test.hears e = some (ct, f) → addr ≠ ct.addr) : s.speakersAfter e addr = s.speakers addr := by
  cases hhears : s.test.hears e with
  | none => rw [speakersAfter_of_none hhears]
  | some heard =>
    obtain ⟨ct, f⟩ := heard
    rw [Echoing.speakersAfter, hhears]
    exact Function.update_of_ne (h ct f hhears) ..

theorem history_after (s : Echoing) (e : CallEvent) (test : CallTest) (notes : List Note) (addr : ℕ) :
    Echoing.history ⟨⟨test, s.heardAfter e⟩, s.speakersAfter e, s.notes ++ notes⟩ addr =
      s.history addr ++ deedsOf addr (deedsIn notes) := by
  rw [Echoing.history, deedsIn_append, deedsOf_append]
  rfl

/-- What becomes of a tester in a callback. -/
theorem Echoing.Keeps.origin {s : Echoing} {e : CallEvent} {c : CallTester} (hs : s.Keeps) (htick : e.isTick = false)
    (h : s.test.Origin e c) :
    Remembers c (s.heardAfter e c.addr) ∧ Plays c (writes (s.history c.addr)) (echoes (s.history c.addr)) ∧
      (∀ n ∈ s.speakersAfter e c.addr, n = c.friendNumber) ∧
        ∀ d ∈ s.history c.addr, d.friendNumber = c.friendNumber := by
  cases h with
  | kept hc hother =>
    rw [heardAfter_other hother, speakersAfter_other hother]
    exact ⟨hs.remembers c hc, hs.plays c hc, hs.friend c hc⟩
  | @fresh n alloc hhears hadds hnew hc =>
    subst hc
    have haddr : (CallTester.new s.test.nextAddr n alloc).addr = s.test.nextAddr := rfl
    obtain ⟨hspeakers, hhistory⟩ := hs.unused s.test.nextAddr le_rfl
    rw [heardAfter_of_none hhears, speakersAfter_of_none hhears, haddr, hs.unheard _ le_rfl, hspeakers, hhistory]
    exact ⟨remembers_new .., plays_nil rfl, List.forall_mem_nil _, List.forall_mem_nil _⟩
  | @finished ct hhears hct hc =>
    subst hc
    rw [heardAfter_of_none hhears, speakersAfter_of_none hhears]
    have hplays := hs.plays ct hct
    obtain ⟨k, hplayed⟩ := hplays.played
    obtain ⟨hwhole, hlast, hunheard⟩ := hs.remembers ct hct
    exact ⟨⟨hwhole, hlast, hunheard⟩, plays_bye hplays.saved hplayed hplays.nonempty rfl rfl, hs.friend ct hct⟩
  | @received ct f ctrecord hhears hreceive hc =>
    subst hc
    obtain ⟨hct, hstep, he⟩ := hears_eq_some hhears
    have hplays := hs.plays ct hct
    obtain ⟨hwrites, hechoes⟩ := hplays.unwritten (by rw [hstep]; rfl)
    have hspeakers : s.speakersAfter e ct.addr = s.speakers ct.addr ++ [ct.friendNumber] := by
      rw [Echoing.speakersAfter, hhears, he]
      exact Function.update_self ..
    rw [heardAfter_self hhears, hspeakers, hwrites, hechoes]
    refine ⟨(hs.remembers ct hct).receive hreceive, plays_nil (by rw [hstep]; rfl), fun n hn => ?_,
      (hs.friend ct hct).2⟩
    rcases List.mem_append.mp hn with hn | hn
    · exact (hs.friend ct hct).1 n hn
    · exact List.mem_singleton.mp hn
  | ticked he hct hshot =>
    subst he
    cases htick

/-- No tester goes in a callback. -/
theorem stays_callback {s s' : CallTest} {e : CallEvent} {notes : List Note} (ho : s.Ordered) (htick : e.isTick = false)
    (h : callEvent s e = .ok (s', notes)) : ∀ ct ∈ s.calltesters, ∃ c ∈ s'.calltesters, c.addr = ct.addr := by
  intro ct hct
  cases does_callEvent ho h with
  | turns hall hlist hdeeds hadded hgone hnext =>
    obtain ⟨tester, hturn, hmem, htester⟩ := hall.turn ho.addrs ct hct
    cases tester with
    | none => cases htick.symm.trans (hgone htester)
    | some c =>
      have haddr := hturn.same_tester.1
      exact ⟨c, hlist ▸ (hmem c haddr).mpr rfl, haddr⟩
  | adds hnew hdeeds hadded => exact ⟨ct, mem_insertTester.mpr (.inr hct), rfl⟩

/-- **A callback** keeps it so. -/
theorem keeps_callback {s : Echoing} {e : CallEvent} {test : CallTest} {notes : List Note} (hs : s.Keeps)
    (htick : e.isTick = false) (hevent : callEvent s.test e = .ok (test, notes)) :
    Echoing.Keeps ⟨⟨test, s.heardAfter e⟩, s.speakersAfter e, s.notes ++ notes⟩ := by
  have hfresh : Hearing.Fresh ⟨test, s.heardAfter e⟩ :=
    fresh_hearingStep (hearingStep_eq_some.mpr ⟨test, notes, hevent, rfl⟩) hs.toFresh
  have horigin := fun c hc => hs.origin htick (origin_callEvent hs.ordered hevent c hc)
  have hnext := nextAddr_le (does_callEvent hs.ordered hevent)
  have hhistory : ∀ addr, Echoing.history ⟨⟨test, s.heardAfter e⟩, s.speakersAfter e, s.notes ++ notes⟩ addr =
      s.history addr := fun addr => by
    rw [history_after, deedsIn_callback htick hevent]
    exact List.append_nil _
  -- who has no tester now hears nothing, and had none before
  have hother : ∀ addr, (∀ ct ∈ test.calltesters, ct.addr ≠ addr) →
      (∀ ct ∈ s.test.calltesters, ct.addr ≠ addr) := fun addr h ct hct haddr => by
    obtain ⟨c, hc, hsame⟩ := stays_callback hs.ordered htick hevent ct hct
    exact h c hc (hsame.trans haddr)
  have hunheard : ∀ addr, (∀ ct ∈ s.test.calltesters, ct.addr ≠ addr) →
      s.heardAfter e addr = s.heard addr ∧ s.speakersAfter e addr = s.speakers addr := fun addr h => by
    have hne : ∀ ct f, s.test.hears e = some (ct, f) → addr ≠ ct.addr :=
      fun ct f hhears => (h ct (hears_eq_some hhears).1).symm
    exact ⟨heardAfter_other hne, speakersAfter_other hne⟩
  refine ⟨hfresh, fun c hc => (horigin c hc).1, fun c hc => ?_, fun c hc => ?_, fun addr haddr => ?_,
    fun addr haddr => ?_⟩
  · rw [hhistory]
    exact (horigin c hc).2.1
  · rw [hhistory]
    exact (horigin c hc).2.2
  · obtain ⟨hheard, hspeakers⟩ := hunheard addr (hother addr haddr)
    rw [hhistory]
    show (Uniform (s.heardAfter e addr) → Echoed (s.heardAfter e addr) _) ∧ ∀ n ∈ s.speakersAfter e addr, _
    rw [hheard, hspeakers]
    exact hs.gone addr (hother addr haddr)
  · have hle : s.test.nextAddr ≤ addr := hnext.trans haddr
    obtain ⟨-, hspeakers⟩ := hunheard addr fun ct hct => ((hs.ordered.fresh ct hct).trans_le hle).ne
    rw [hhistory]
    exact ⟨hspeakers.trans (hs.unused addr hle).1, (hs.unused addr hle).2⟩

/-- What becomes of a tester in a tick, with what it does: it stays with its record, or it goes and has
written and played nothing more. -/
theorem plays_alone {greeter : Option Record} {tp : Timespec} {replies : UInt32 → Reply} {ct : CallTester}
    {tester : Option CallTester} {deeds : List Deed} (h : Alone greeter tp replies ct (tester, deeds))
    {before : List Deed} (hp : Plays ct (writes before) (echoes before)) :
    (∀ c, tester = some c → Plays c (writes (before ++ deeds)) (echoes (before ++ deeds))) ∧
      (tester = none → writes deeds = [] ∧ echoes deeds = []) := by
  rw [writes_append, echoes_append]
  by_cases hstep : ct.step = .echoing
  · obtain ⟨hwrites, c, rfl, hplays, -⟩ := plays_echoing hstep hp h
    refine ⟨?_, fun hnone => by cases hnone⟩
    rintro _ ⟨⟩
    rwa [hwrites, List.append_nil]
  · obtain ⟨hechoes, hwrites, hplays⟩ := (shot_of_oneShot h).plays hstep hp
    rw [hechoes, List.append_nil]
    exact ⟨hplays, fun hnone => ⟨hwrites hnone, rfl⟩⟩

theorem Echoed.silent {heard : List Received} {before deeds : List Deed} (h : Echoed heard before)
    (hwrites : writes deeds = []) (hechoes : echoes deeds = []) : Echoed heard (before ++ deeds) := by
  obtain ⟨hsaved, hdescribed, hback, hformat⟩ := h
  constructor
  · rwa [writes_append, hwrites, List.append_nil]
  · rwa [writes_append, hwrites, List.append_nil]
  · rwa [echoes_append, hechoes, List.append_nil]
  · rwa [echoes_append, hechoes, List.append_nil]

/-- **A tick** keeps it so. -/
theorem keeps_tick {s : Echoing} {tp : Timespec} {replies : UInt32 → Reply} {test : CallTest} {notes : List Note}
    (hs : s.Keeps) (hevent : callEvent s.test (.calltestIterate tp replies) = .ok (test, notes)) :
    Echoing.Keeps ⟨⟨test, s.heard⟩, s.speakers, s.notes ++ notes⟩ := by
  have hfresh : Hearing.Fresh ⟨test, s.heard⟩ :=
    fresh_hearingStep (hearingStep_eq_some.mpr ⟨test, notes, hevent, rfl⟩) hs.toFresh
  have hnext := nextAddr_le (does_callEvent hs.ordered hevent)
  obtain ⟨shots, hall, hlist, rfl, -⟩ := callEvent_tick hs.ordered hevent
  have hturns : Turns s.test.calltesters shots := hall.imp fun _ _ hshot => .tick (shot_of_oneShot hshot)
  have hhistory : ∀ addr, Echoing.history ⟨⟨test, s.heard⟩, s.speakers,
      s.notes ++ (shots.flatMap Prod.snd).map Note.deed⟩ addr =
        s.history addr ++ deedsOf addr (shots.flatMap Prod.snd) := fun addr => by
    rw [Echoing.history, deedsIn_append, deedsOf_append, deedsIn_deeds]
    rfl
  -- each tester that stays is one there was
  have hstay : ∀ c ∈ test.calltesters, ∃ ct ∈ s.test.calltesters, c.addr = ct.addr ∧
      Alone s.test.greeter tp replies ct (some c, deedsOf ct.addr (shots.flatMap Prod.snd)) := fun c hc => by
    obtain ⟨ct, hct, haddr⟩ := hturns.origin c (hlist ▸ hc)
    obtain ⟨tester, halone, hmem⟩ := shot_at hall hs.ordered.addrs ct hct
    obtain rfl := (hmem c haddr).mp (hlist ▸ hc)
    exact ⟨ct, hct, haddr, halone⟩
  refine ⟨hfresh, fun c hc => ?_, fun c hc => ?_, fun c hc => ?_, fun addr haddr => ?_, fun addr haddr => ?_⟩
  · obtain ⟨ct, hct, haddr, halone⟩ := hstay c hc
    obtain ⟨-, -, hrecord⟩ := (shot_of_oneShot halone).same
    obtain ⟨hwhole, hlast, hunheard⟩ := hs.remembers ct hct
    show Remembers c (s.heard c.addr)
    rw [haddr]
    exact ⟨hrecord ▸ hwhole, hrecord ▸ hlast, hrecord ▸ hunheard⟩
  · obtain ⟨ct, hct, haddr, halone⟩ := hstay c hc
    rw [hhistory, haddr]
    exact (plays_alone halone (hs.plays ct hct)).1 c rfl
  · obtain ⟨ct, hct, haddr, halone⟩ := hstay c hc
    have hshot := shot_of_oneShot halone
    obtain ⟨-, hfriend, -⟩ := hshot.same
    rw [hhistory, haddr, hfriend]
    refine ⟨(hs.friend ct hct).1, fun d hd => ?_⟩
    rcases List.mem_append.mp hd with hd | hd
    · exact (hs.friend ct hct).2 d hd
    · exact (hshot.own d hd).2.1
  · rw [hhistory]
    by_cases hlisted : ∃ ct ∈ s.test.calltesters, ct.addr = addr
    · -- its tester goes in this tick
      obtain ⟨ct, hct, rfl⟩ := hlisted
      obtain ⟨tester, halone, hmem⟩ := shot_at hall hs.ordered.addrs ct hct
      have hshot := shot_of_oneShot halone
      cases tester with
      | none =>
        obtain ⟨hwrites, hechoes⟩ := (plays_alone halone (hs.plays ct hct)).2 rfl
        obtain ⟨hechoed, hown⟩ := hs.all ct.addr
        refine ⟨fun huniform => (hechoed huniform).silent hwrites hechoes, fun n hn d hd => ?_⟩
        rcases List.mem_append.mp hd with hd | hd
        · exact hown n hn d hd
        · exact ((hshot.own d hd).2.1).trans ((hs.friend ct hct).1 n hn).symm
      | some c =>
        have hsame := hshot.same.1
        exact absurd hsame (haddr c (hlist ▸ (hmem c hsame).mpr rfl))
    · have hnone : ∀ ct ∈ s.test.calltesters, ct.addr ≠ addr := fun ct hct heq => hlisted ⟨ct, hct, heq⟩
      rw [hturns.deedsOf_eq_nil hnone, List.append_nil]
      exact hs.gone addr hnone
  · have hle : s.test.nextAddr ≤ addr := hnext.trans haddr
    obtain ⟨hspeakers, hnohistory⟩ := hs.unused addr hle
    rw [hhistory, hnohistory, hturns.deedsOf_eq_nil fun ct hct => ((hs.ordered.fresh ct hct).trans_le hle).ne]
    exact ⟨hspeakers, rfl⟩

theorem keeps_echoStep {s s' : Echoing} {e : CallEvent} (h : echoStep s e = some s') (hs : s.Keeps) : s'.Keeps := by
  obtain ⟨test, notes, hevent, rfl⟩ := echoStep_eq_some.mp h
  cases htick : e.isTick with
  | false => exact keeps_callback hs htick hevent
  | true =>
    cases e with
    | calltestIterate tp replies => exact keeps_tick hs hevent
    | _ => cases htick

/-- **A playback that comes to its end** without an error, in frames that are not empty, is all that was heard. -/
theorem Echoing.Keeps.complete {s s' : Echoing} (hs : s.Keeps) {tp : Timespec} {replies : UInt32 → Reply}
    (h : echoStep s (.calltestIterate tp replies) = some s') {addr : ℕ} (hends : EndsEcho s s' addr)
    (hsent : ∀ f ∈ echoes (s'.history addr), f.sent ∧ 0 < f.sampleCount) (huniform : Uniform (s.heard addr)) :
    playedBack (echoes (s'.history addr)) (heardSamples (s.heard addr)) = heardSamples (s.heard addr) := by
  obtain ⟨test, notes, hevent, rfl⟩ := echoStep_eq_some.mp h
  obtain ⟨ct, hct, c, hc, rfl, haddr, hstep, hbye⟩ := hends
  obtain ⟨shots, hall, hlist, rfl, -⟩ := callEvent_tick hs.ordered hevent
  obtain ⟨tester, halone, hmem⟩ := shot_at hall hs.ordered.addrs ct hct
  obtain rfl := (hmem c haddr).mp (hlist ▸ hc)
  obtain ⟨-, c', hc', -, hall'⟩ := plays_echoing hstep (hs.plays ct hct) halone
  cases hc'
  rw [history_after, deedsIn_deeds, echoes_append] at hsent ⊢
  obtain ⟨k, hplayed, hcount⟩ := hall' hbye hsent
  exact playedBack_eq (hs.remembers ct hct) huniform hplayed hcount

/-- **What comes back is what was said.** In any run of the call test, all that a tester has done was for the friend
whom it has heard. If what it heard was all of as many channels, it has written just that, and has played back the
beginning of it, all of it when the playback ended without an error. -/
theorem echo_is_recording (greeter : Option Record) (outbox : Outbox) (nextAddr : ℕ) {es : List CallEvent} {s : Echoing}
    (h : runEvents echoStep (.start greeter outbox nextAddr) es = some s) (addr : ℕ) :
    (∀ n ∈ s.speakers addr, ∀ d ∈ s.history addr, d.friendNumber = n) ∧
      (Uniform (s.heard addr) → Echoed (s.heard addr) (s.history addr) ∧
        ∀ tp replies s', echoStep s (.calltestIterate tp replies) = some s' → EndsEcho s s' addr →
          (∀ f ∈ echoes (s'.history addr), f.sent ∧ 0 < f.sampleCount) →
            playedBack (echoes (s'.history addr)) (heardSamples (s.heard addr)) = heardSamples (s.heard addr)) := by
  have hkeeps : s.Keeps :=
    (always_of_along (C := fun _ _ => True) (fun _ _ _ hstep hs _ => keeps_echoStep hstep hs)
      (keeps_start greeter outbox nextAddr) (along_of_forall fun _ _ _ => trivial)).last h
  obtain ⟨hechoed, hown⟩ := hkeeps.all addr
  refine ⟨hown, fun huniform => ⟨hechoed huniform, fun tp replies s' hstep hends hsent => ?_⟩⟩
  exact hkeeps.complete hstep hends hsent huniform

/-- A tick, so many frames after the recording time is over. -/
def tickAfter (frames : ℤ) : CallEvent := .calltestIterate ⟨11, frames * 20000000⟩ fun _ => someReply

/-- A friend says three samples in two frames, at a rate at which each is a frame of its own. -/
def threeSamples : List CallEvent :=
  toRecording ++ [.audioReceiveFrame 0 [7] 1 1 50, .audioReceiveFrame 0 [8, 9] 2 1 50] ++
    [0, 1, 2, 3, 4, 5].map tickAfter

/-- They are all played back, by the seventh tick. -/
theorem echo_is_recording_three : ∃ s s',
    runEvents echoStep (.start (some shortGreeter) ⟨[], [], []⟩ 0) threeSamples = some s ∧
      echoStep s (tickAfter 6) = some s' ∧ playedBack (echoes (s'.history 0)) [7, 8, 9] = [7, 8, 9] := by
  refine ⟨_, _, rfl, rfl, ?_⟩
  refine ((@echo_is_recording (some shortGreeter) ⟨[], [], []⟩ 0 threeSamples _ rfl 0).2 ?_).2 _ _ _ rfl ?_ ?_
  · show Uniform [⟨[7], 1, 1, 50⟩, ⟨[8, 9], 2, 1, 50⟩]
    simp [Uniform]
  · exact ⟨_, List.mem_cons_self, _, List.mem_cons_self, rfl, rfl, rfl, rfl⟩
  · show ∀ f ∈ [(⟨0, 1, 1, 50, true⟩ : Frame), ⟨1, 1, 1, 50, true⟩, ⟨2, 1, 1, 50, true⟩], f.sent ∧ 0 < f.sampleCount
    decide

end ToxSuite.Call
