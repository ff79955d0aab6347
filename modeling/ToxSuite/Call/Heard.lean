import ToxSuite.Call.Ends

/-!
# What a tester has heard

The machine `hearingStep` keeps, beside the state of the code, the frames that came to
each tester while it was at `RECORDING`. Where a tester after an event comes from is
listed by `CallTest.Origin`.

`audio_receive_frame` makes room for all samples by the number of channels of the frame
that has just come, and puts its samples behind as many as there would be before it with
that number of channels. So a recording is the concatenation of the frames, all of it
written, if and only if no frame has another number of channels than the samples that
are there already (`recording_whole_iff`).
-/

namespace ToxSuite.Call

open ToxSuite.Lib ToxSuite.File ToxSuite.Suit

/-! ### Frames and histories -/

/-- A frame that ToxAV hands over: the samples from `pcm` on, and how many each channel has. -/
structure Received where
  pcm : List Int16
  sampleCount : ℕ
  channels : UInt8
  samplingRate : UInt32

/-- The samples of a frame, of all its channels. -/
def Received.samples (f : Received) : List Int16 := f.pcm.take (f.channels.toNat * f.sampleCount)

/-- The tester in `RECORDING` that an event brings a frame, and the frame. -/
def CallTest.hears (s : CallTest) : CallEvent → Option (CallTester × Received)
  | .audioReceiveFrame n pcm count channels rate =>
    match callTesterByFriendNumber s.calltesters n with
    | none => none
    | some ct => if ct.step = .recording then some (ct, ⟨pcm, count, channels, rate⟩) else none
  | _ => none

/-- The call test with its history. -/
structure Hearing where
  test : CallTest
  /-- The frames that came to the tester at an address while it was at `RECORDING`. -/
  heard : ℕ → List Received

/-- After `calltest_init`. -/
def Hearing.start (greeter : Option Record) (outbox : Outbox) (nextAddr : ℕ) : Hearing :=
  ⟨.init greeter outbox nextAddr, fun _ => []⟩

/-- What has been heard after an event. -/
def Hearing.heardAfter (s : Hearing) (e : CallEvent) : ℕ → List Received :=
  match s.test.hears e with
  | none => s.heard
  | some (ct, f) => Function.update s.heard ct.addr (s.heard ct.addr ++ [f])

/-- A step: a fault ends the program. -/
def hearingStep (s : Hearing) (e : CallEvent) : Option Hearing :=
  (callEvent s.test e).toOption.map fun (test, _) => ⟨test, s.heardAfter e⟩

theorem hearingStep_eq_some {s s' : Hearing} {e : CallEvent} :
    hearingStep s e = some s' ↔ ∃ test notes, callEvent s.test e = .ok (test, notes) ∧ s' = ⟨test, s.heardAfter e⟩ := by
  simp only [hearingStep, Option.map_eq_some_iff, toOption_eq_some, Prod.exists, eq_comm (a := s')]

theorem hears_eq_some {s : CallTest} {e : CallEvent} {ct : CallTester} {f : Received}
    (h : s.hears e = some (ct, f)) : ct ∈ s.calltesters ∧ ct.step = .recording ∧
      e = .audioReceiveFrame ct.friendNumber f.pcm f.sampleCount f.channels f.samplingRate := by
  cases e with
  | audioReceiveFrame n pcm count channels rate =>
    cases hget : callTesterByFriendNumber s.calltesters n with
    | none =>
      simp only [CallTest.hears, hget] at h
      cases h
    | some c =>
      obtain ⟨hmem, rfl⟩ := mem_of_find?_key CallTester.friendNumber hget
      simp only [CallTest.hears, hget] at h
      split_ifs at h with hstep
      cases h
      exact ⟨hmem, hstep, rfl⟩
  | _ => cases h

theorem heardAfter_of_none {s : Hearing} {e : CallEvent} (h : s.test.hears e = none) : s.heardAfter e = s.heard := by
  rw [Hearing.heardAfter, h]

theorem heardAfter_self {s : Hearing} {e : CallEvent} {ct : CallTester} {f : Received}
    (h : s.test.hears e = some (ct, f)) : s.heardAfter e ct.addr = s.heard ct.addr ++ [f] := by
  rw [Hearing.heardAfter, h]
  exact Function.update_self ..

theorem heardAfter_other {s : Hearing} {e : CallEvent} {addr : ℕ}
    (h : ∀ ct f, s.test.hears e = some (ct, f) → addr ≠ ct.addr) : s.heardAfter e addr = s.heard addr := by
  cases hhears : s.test.hears e with
  | none => rw [heardAfter_of_none hhears]
  | some heard =>
    obtain ⟨ct, f⟩ := heard
    rw [Hearing.heardAfter, hhears]
    exact Function.update_of_ne (h ct f hhears) ..

/-! ### Where a tester comes from -/

/-- A tester is made for this friend, if there is none. -/
def CallEvent.Adds (n : UInt32) : CallEvent → Prop
  | .call m .. => m = n
  | .callState m state _ => m = n ∧ hasBit state STATE_ERROR = false ∧ hasBit state STATE_SENDING_A
  | _ => False

/-- What a tester on the list after an event has been before. -/
inductive CallTest.Origin (s : CallTest) (e : CallEvent) (c : CallTester) : Prop
  | kept (hc : c ∈ s.calltesters) (hother : ∀ ct f, s.hears e = some (ct, f) → c.addr ≠ ct.addr)
  | fresh {n : UInt32} {alloc : Alloc} (hhears : s.hears e = none) (hadds : e.Adds n)
      (hnew : ∀ ct ∈ s.calltesters, ct.friendNumber ≠ n) (hc : c = .new s.nextAddr n alloc)
  /-- `call_state` reports that the call is finished. -/
  | finished {ct : CallTester} (hhears : s.hears e = none) (hct : ct ∈ s.calltesters)
      (hc : c = { ct with step := .bye })
  | received {ct : CallTester} {f : Received} {ctrecord : Record} (hhears : s.hears e = some (ct, f))
      (hreceive : receiveFrame ct.ctrecord f.pcm f.sampleCount f.channels f.samplingRate = .ok ctrecord)
      (hc : c = { ct with ctrecord })
  | ticked {ct : CallTester} {tp : Timespec} {replies : UInt32 → Reply} {deeds : List Deed}
      (he : e = .calltestIterate tp replies) (hct : ct ∈ s.calltesters) (hshot : Shot tp ct (some c) deeds)

theorem origin_of_none {s : CallTest} {e : CallEvent} {c : CallTester} (hhears : s.hears e = none)
    (hc : c ∈ s.calltesters) : s.Origin e c := by
  refine .kept hc fun ct f h => ?_
  rw [hhears] at h
  cases h

/-- The tester that takes a frame, and those that stay as they are. -/
theorem origin_audioReceiveFrame {s s' : CallTest} {n : UInt32} {pcm : List Int16} {count : ℕ}
    {channels : UInt8} {rate : UInt32} (h : s.audioReceiveFrame n pcm count channels rate = .ok s') :
    ∀ c ∈ s'.calltesters, s.Origin (.audioReceiveFrame n pcm count channels rate) c := by
  intro c hc
  rcases audioReceiveFrame_cases h with ⟨rfl, hbusy⟩ | ⟨ct, ctrecord, hget, hstep, hreceive, rfl⟩
  · refine origin_of_none ?_ hc
    cases hget : callTesterByFriendNumber s'.calltesters n with
    | none => simp only [CallTest.hears, hget]
    | some ct => simp only [CallTest.hears, hget, if_neg (hbusy ct hget)]
  · have hhears : s.hears (.audioReceiveFrame n pcm count channels rate) =
        some (ct, ⟨pcm, count, channels, rate⟩) := by
      simp only [CallTest.hears, hget, if_pos hstep]
    rcases mem_withTester hc with hc | ⟨hc, haddr⟩
    · exact .received hhears hreceive hc
    · refine .kept hc fun ct' f h' => ?_
      cases hhears.symm.trans h'
      exact haddr

theorem origin_callState {s : CallTest} (n state : UInt32) (alloc : Alloc) :
    ∀ c ∈ (s.callState n state alloc).1.calltesters, s.Origin (.callState n state alloc) c := by
  intro c hc
  rcases callState_cases s n state alloc with ⟨hs, -⟩ | ⟨herror, hsending, _, _, hs⟩ | ⟨-, ct, hget, hs⟩
  · rw [hs] at hc
    exact origin_of_none rfl hc
  · rw [hs] at hc
    rcases mem_addEntry.mp hc with hc | ⟨hnew, rfl⟩
    · exact origin_of_none rfl hc
    · exact .fresh rfl ⟨rfl, herror, hsending⟩ hnew rfl
  · rw [hs] at hc
    rcases mem_withTester hc with hc | ⟨hc, -⟩
    · exact .finished rfl (mem_of_find?_key CallTester.friendNumber hget).1 hc
    · exact origin_of_none rfl hc

/-- **Where the testers after an event come from**. -/
theorem origin_callEvent {s s' : CallTest} {e : CallEvent} {notes : List Note} (ho : s.Ordered)
    (h : callEvent s e = .ok (s', notes)) : ∀ c ∈ s'.calltesters, s.Origin e c := by
  cases e with
  | call n audio video answered alloc =>
    cases h
    intro c hc
    rcases mem_addEntry.mp hc with hc | ⟨hnew, rfl⟩
    · exact origin_of_none rfl hc
    · exact .fresh rfl rfl hnew rfl
  | callState n state alloc =>
    have hs : (s.callState n state alloc).1 = s' := congrArg Prod.fst (Except.ok.inj h)
    exact hs ▸ origin_callState n state alloc
  | audioReceiveFrame n pcm count channels rate =>
    obtain ⟨t, ht, h⟩ := bind_eq_ok.mp h
    cases h
    exact origin_audioReceiveFrame ht
  | calltestIterate tp replies =>
    obtain ⟨shots, hall, hlist, -⟩ := callEvent_tick ho h
    intro c hc
    rw [hlist] at hc
    obtain ⟨shot, hshot, hstays⟩ := List.mem_filterMap.mp hc
    obtain ⟨ct, hct, halone⟩ := exists_of_mem_right hall shot hshot
    exact .ticked rfl hct (hstays ▸ shot_of_oneShot halone)

/-- The list is in order, and nothing has been heard at an address that is still to be given out. -/
structure Hearing.Fresh (s : Hearing) : Prop where
  ordered : s.test.Ordered
  unheard : ∀ addr, s.test.nextAddr ≤ addr → s.heard addr = []

theorem fresh_start (greeter : Option Record) (outbox : Outbox) (nextAddr : ℕ) :
    (Hearing.start greeter outbox nextAddr).Fresh :=
  ⟨⟨.nil, .nil, by simp [Hearing.start, CallTest.init]⟩, fun _ _ => rfl⟩

theorem fresh_hearingStep {s s' : Hearing} {e : CallEvent} (h : hearingStep s e = some s') (hs : s.Fresh) :
    s'.Fresh := by
  obtain ⟨test, notes, hevent, rfl⟩ := hearingStep_eq_some.mp h
  have hdoes := does_callEvent hs.ordered hevent
  refine ⟨ordered_does hdoes hs.ordered, fun addr haddr => ?_⟩
  have hle : s.test.nextAddr ≤ addr := (nextAddr_le hdoes).trans haddr
  show s.heardAfter e addr = []
  rw [heardAfter_other, hs.unheard addr hle]
  intro ct f hhears
  exact ((hs.ordered.fresh ct (hears_eq_some hhears).1).trans_le hle).ne'

/-! ### The recording -/

/-- The recording is that of these frames, one after the other, and no sample of it is unwritten. -/
structure Whole (rec : Record) (heard : List Received) : Prop where
  pcm : rec.pcm = (heard.flatMap Received.samples).map some
  length : rec.pcm.length = rec.channels.toNat * rec.samplesCount

theorem length_reallocPcm (pcm : List (Option Int16)) (n : ℕ) : (reallocPcm pcm n).length = n := by
  rw [reallocPcm, List.length_append, List.length_take, List.length_replicate]
  omega

theorem reallocPcm_self (pcm : List (Option Int16)) : reallocPcm pcm pcm.length = pcm := by
  rw [reallocPcm, List.take_length, Nat.sub_self, List.replicate_zero, List.append_nil]

/-- What is left in front of a place is what `realloc` to that place would leave. -/
theorem take_reallocPcm (pcm : List (Option Int16)) {i n : ℕ} (h : i ≤ n) :
    (reallocPcm pcm n).take i = reallocPcm pcm i := by
  have hcut : min (i - min n pcm.length) (n - pcm.length) = i - pcm.length := by omega
  rw [reallocPcm, List.take_append, List.take_take, List.take_replicate, List.length_take, min_eq_left h, hcut,
    reallocPcm]

/-- **A frame**: there is always room for it. -/
theorem receiveFrame_eq (rec : Record) (f : Received) :
    receiveFrame rec f.pcm f.sampleCount f.channels f.samplingRate =
      if f.pcm.length < f.channels.toNat * f.sampleCount then .error .overread
      else .ok ⟨reallocPcm rec.pcm (f.channels.toNat * rec.samplesCount) ++ f.samples.map some, f.channels,
        rec.samplesCount + f.sampleCount, f.samplingRate⟩ := by
  unfold receiveFrame
  dsimp only
  split_ifs with hshort
  · rfl
  · have hsamples : f.samples.length = f.channels.toNat * f.sampleCount := by
      rw [Received.samples, List.length_take]
      omega
    have hroom : f.channels.toNat * rec.samplesCount + f.samples.length =
        f.channels.toNat * (f.sampleCount + rec.samplesCount) := by
      rw [hsamples, Nat.mul_add, Nat.add_comm]
    have hlen := length_reallocPcm rec.pcm (f.channels.toNat * (f.sampleCount + rec.samplesCount))
    have hle : f.channels.toNat * rec.samplesCount ≤ f.channels.toNat * (f.sampleCount + rec.samplesCount) :=
      Nat.mul_le_mul_left _ (Nat.le_add_left _ _)
    rw [← Received.samples, memcpyPcm, hroom, if_pos hlen.ge, take_reallocPcm _ hle, List.drop_of_length_le hlen.le,
      List.append_nil]
    rfl

theorem hears_room (s : CallTest) (n : UInt32) {f : Received} (h : f.channels.toNat * f.sampleCount ≤ f.pcm.length) :
    ∃ s', s.audioReceiveFrame n f.pcm f.sampleCount f.channels f.samplingRate = .ok s' ∧
      (s.hears (.audioReceiveFrame n f.pcm f.sampleCount f.channels f.samplingRate) = none → s' = s) := by
  unfold CallTest.audioReceiveFrame
  cases hget : callTesterByFriendNumber s.calltesters n with
  | none => exact ⟨s, rfl, fun _ => rfl⟩
  | some ct =>
    dsimp only
    split_ifs with hstep
    · exact ⟨s, rfl, fun _ => rfl⟩
    · rw [receiveFrame_eq, if_neg (Nat.not_lt.mpr h), ok_bind]
      refine ⟨_, rfl, fun hnone => ?_⟩
      simp only [CallTest.hears, hget, if_pos (not_not.mp hstep)] at hnone
      cases hnone

/-- **A frame leaves a whole recording whole** just when it has as many channels. -/
theorem whole_receiveFrame_iff {rec rec' : Record} {heard : List Received} {f : Received} (hw : Whole rec heard)
    (h : receiveFrame rec f.pcm f.sampleCount f.channels f.samplingRate = .ok rec') :
    Whole rec' (heard ++ [f]) ↔ rec.samplesCount = 0 ∨ rec.channels = f.channels := by
  rw [receiveFrame_eq] at h
  split_ifs at h with hshort
  cases h
  have hsamples : f.samples.length = f.channels.toNat * f.sampleCount := by
    rw [Received.samples, List.length_take]
    omega
  have hconcat : ((heard ++ [f]).flatMap Received.samples).map some = rec.pcm ++ f.samples.map some := by
    rw [List.flatMap_append, List.map_append, ← hw.pcm, List.flatMap_singleton]
  have hsame : rec.samplesCount = 0 ∨ rec.channels = f.channels ↔
      f.channels.toNat * rec.samplesCount = rec.pcm.length := by
    rw [hw.length, mul_eq_mul_right_iff, or_comm, eq_comm (a := rec.channels), UInt8.toNat_inj]
  rw [hsame]
  constructor
  · intro hwhole
    have hpcm := hwhole.pcm
    rw [hconcat] at hpcm
    have := congrArg List.length (List.append_cancel_right hpcm)
    rwa [length_reallocPcm] at this
  · intro hlen
    refine ⟨?_, ?_⟩
    · rw [hconcat, hlen, reallocPcm_self]
    · rw [List.length_append, length_reallocPcm, List.length_map, hsamples, Nat.mul_add]

/-! ### Every event -/

/-- After an event the recordings are whole, and what was recorded before is where it was. -/
structure RecordsWell (s s' : Hearing) : Prop where
  whole : ∀ ct ∈ s'.test.calltesters, Whole ct.ctrecord (s'.heard ct.addr)
  kept : ∀ ct ∈ s.test.calltesters, ∀ ct' ∈ s'.test.calltesters, ct'.addr = ct.addr →
    ct.ctrecord.pcm <+: ct'.ctrecord.pcm

/-- A frame that is taken up is the first one with samples, or has as many channels as those before. -/
def SameChannels (s : Hearing) (e : CallEvent) : Prop :=
  ∀ ct f, s.test.hears e = some (ct, f) → ct.ctrecord.samplesCount = 0 ∨ ct.ctrecord.channels = f.channels

/-- All recordings are whole so far. -/
structure Hearing.Recorded (s : Hearing) : Prop extends s.Fresh where
  whole : ∀ ct ∈ s.test.calltesters, Whole ct.ctrecord (s.heard ct.addr)

/-- What becomes of a recording in an event. -/
theorem Hearing.Recorded.origin {s : Hearing} {e : CallEvent} {c : CallTester} (hs : s.Recorded)
    (h : s.test.Origin e c) (hsame : SameChannels s e) :
    Whole c.ctrecord (s.heardAfter e c.addr) ∧
      ∀ ct ∈ s.test.calltesters, c.addr = ct.addr → ct.ctrecord.pcm <+: c.ctrecord.pcm := by
  cases h with
  | kept hc hother =>
    refine ⟨heardAfter_other hother ▸ hs.whole c hc, fun ct hct haddr => ?_⟩
    rw [List.inj_on_of_nodup_map hs.ordered.addrs hc hct haddr]
  | @fresh n alloc hhears hadds hnew hc =>
    subst hc
    rw [heardAfter_of_none hhears, hs.unheard (CallTester.new s.test.nextAddr n alloc).addr le_rfl]
    exact ⟨⟨rfl, rfl⟩, fun ct hct haddr => absurd haddr (hs.ordered.fresh ct hct).ne'⟩
  | @finished ct hhears hct hc =>
    subst hc
    rw [heardAfter_of_none hhears]
    refine ⟨hs.whole ct hct, fun ct' hct' haddr => ?_⟩
    rw [List.inj_on_of_nodup_map hs.ordered.addrs hct hct' haddr]
  | @received ct f ctrecord hhears hreceive hc =>
    subst hc
    obtain ⟨hct, -⟩ := hears_eq_some hhears
    have hwhole := (whole_receiveFrame_iff (hs.whole ct hct) hreceive).mpr (hsame ct f hhears)
    refine ⟨by rwa [heardAfter_self hhears], fun ct' hct' haddr => ?_⟩
    rw [← List.inj_on_of_nodup_map hs.ordered.addrs hct hct' haddr, (hs.whole ct hct).pcm, hwhole.pcm,
      List.flatMap_append, List.map_append]
    exact List.prefix_append _ _
  | @ticked ct tp replies deeds he hct hshot =>
    subst he
    obtain ⟨haddr, -, hrecord⟩ := hshot.same
    rw [heardAfter_of_none rfl, haddr, hrecord]
    refine ⟨hs.whole ct hct, fun ct' hct' haddr' => ?_⟩
    rw [List.inj_on_of_nodup_map hs.ordered.addrs hct hct' haddr']

theorem recordsWell_iff {s s' : Hearing} {e : CallEvent} (h : hearingStep s e = some s') (hs : s.Recorded) :
    RecordsWell s s' ↔ SameChannels s e := by
  obtain ⟨test, notes, hevent, rfl⟩ := hearingStep_eq_some.mp h
  constructor
  · rintro ⟨hwhole, -⟩ ct f hhears
    obtain ⟨hct, hstep, rfl⟩ := hears_eq_some hhears
    have hget := (callTesterByFriendNumber_eq_some hs.ordered.nodup_friends).mpr ⟨hct, rfl⟩
    obtain ⟨t, ht, hok⟩ := bind_eq_ok.mp hevent
    cases hok
    obtain ⟨ct', ctrecord, hget', -, hreceive, rfl⟩ :=
      (audioReceiveFrame_cases ht).resolve_left fun hbusy => hbusy.2 ct hget hstep
    cases hget.symm.trans hget'
    have hmem : { ct with ctrecord } ∈ (s.test.withTester { ct with ctrecord }).calltesters :=
      List.mem_map.mpr ⟨ct, hct, if_pos rfl⟩
    have hafter : Whole ctrecord (s.heardAfter _ ct.addr) := hwhole _ hmem
    rw [heardAfter_self hhears] at hafter
    exact (whole_receiveFrame_iff (hs.whole ct hct) hreceive).mp hafter
  · intro hsame
    have horigin := origin_callEvent hs.ordered hevent
    refine ⟨fun c hc => (hs.origin (horigin c hc) hsame).1, fun ct hct c hc haddr => ?_⟩
    exact (hs.origin (horigin c hc) hsame).2 ct hct haddr

/-- **The recording is the concatenation of the frames** received, in every run, if and only if all
frames of it have the same number of channels; a frame always has room, and frames that come in other
steps change nothing. -/
theorem recording_whole_iff (greeter : Option Record) (outbox : Outbox) (nextAddr : ℕ) (es : List CallEvent) :
    (∀ (s : CallTest) (n : UInt32) (f : Received), f.channels.toNat * f.sampleCount ≤ f.pcm.length →
      ∃ s', s.audioReceiveFrame n f.pcm f.sampleCount f.channels f.samplingRate = .ok s' ∧
        (s.hears (.audioReceiveFrame n f.pcm f.sampleCount f.channels f.samplingRate) = none → s' = s)) ∧
    (Along hearingStep (fun s e => ∀ s', hearingStep s e = some s' → RecordsWell s s')
        (.start greeter outbox nextAddr) es ↔
      Along hearingStep SameChannels (.start greeter outbox nextAddr) es) := by
  refine ⟨fun s n f h => hears_room s n h, ?_⟩
  have hstart : (Hearing.start greeter outbox nextAddr).Recorded :=
    ⟨fresh_start .., by simp [Hearing.start, CallTest.init]⟩
  refine along_congr_of_inv (I := Hearing.Recorded) ?_ ?_ hstart
  · intro s e s' hstep hs hsame
    exact ⟨fresh_hearingStep hstep hs.toFresh, ((recordsWell_iff hstep hs).mpr hsame).whole⟩
  · intro s e s' hstep hs
    refine Iff.trans ?_ (recordsWell_iff hstep hs)
    refine ⟨fun h => h s' hstep, fun h t ht => ?_⟩
    cases hstep.symm.trans ht
    exact h

/-- A greeting without a sample: the tester is at `RECORDING` after one tick. -/
def shortGreeter : Record := ⟨[], 1, 0, 8000⟩

/-- A call, and a tick. -/
def toRecording : List CallEvent := [.call 0 true false true someAlloc, .calltestIterate ⟨1, 0⟩ fun _ => someReply]

/-- A frame of one channel and then one of two leave a sample unwritten. -/
theorem second_channel_leaves_gap :
    (∃ s, runEvents hearingStep (.start (some shortGreeter) ⟨[], [], []⟩ 0)
        (toRecording ++ [.audioReceiveFrame 0 [1] 1 1 8000, .audioReceiveFrame 0 [2, 3] 1 2 8000]) = some s ∧
      s.test.calltesters.map (fun ct => ct.ctrecord.pcm) = [[some 1, none, some 2, some 3]]) ∧
    ¬ Along hearingStep (fun s e => ∀ s', hearingStep s e = some s' → RecordsWell s s')
      (.start (some shortGreeter) ⟨[], [], []⟩ 0)
      (toRecording ++ [.audioReceiveFrame 0 [1] 1 1 8000, .audioReceiveFrame 0 [2, 3] 1 2 8000]) := by
  refine ⟨⟨_, rfl, rfl⟩, fun h => ?_⟩
  have hwell := ((((h _ rfl).2 _ rfl).2 _ rfl).2 _ rfl).1 _ rfl
  have hpcm := (hwell.whole _ List.mem_cons_self).pcm
  exact absurd hpcm (by decide)

end ToxSuite.Call
