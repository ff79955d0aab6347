import ToxSuite.Call.Acts
import ToxSuite.Call.Ends
import ToxSuite.Suit.Service

/-!
# `suit.c` with the call test

The loop and the call test together. `calltest_iteration_interval` asks for the shortest delay of
the testers, `audio_playback` sets that of its tester to the length of a frame, cut to whole
milliseconds, and the callbacks of ToxAV come in `tox_iterate` and `toxav_iterate`. An iteration of the
loop that calls the call test hands each friend one frame at most, and the next one comes when the
shortest delay has passed. So the frames to a friend are as far apart as the shortest frame of any rate
the program meets lasts, but for less than a millisecond (`frames_paced`). At rates that are multiples
of 50 a frame lasts 20 ms (`lasts_of_dvd`), and no friend gets audio faster than it plays; at 11025 Hz it
lasts 19.95 ms, and the frames are 19 ms apart.
-/

namespace ToxSuite.Suit

open ToxSuite.Lib ToxSuite.File ToxSuite.Friend ToxSuite.Call

/-! ### The program -/

/-- `MAX_NS`. -/
abbrev MAX_NS : UInt64 := 999999999

/-- `calltest_iteration_interval`. -/
def calltestIterationInterval (calltesters : List CallTester) : UInt64 :=
  calltesters.foldl (fun ldelay ct => if ct.delay > ldelay then ldelay else ct.delay) MAX_NS

/-- The loop and the call test. -/
structure Program where
  loop : Loop
  callTest : CallTest

/-- What an iteration meets. -/
structure Pass where
  /-- `tpnow`. -/
  tpnow : Timespec
  /-- The Unix time. -/
  unixTime : ℕ
  /-- `tox_iteration_interval`. -/
  toxInterval : UInt32
  /-- `toxav_iteration_interval`. -/
  toxavInterval : UInt32
  /-- What `tox_iterate` brings of the friends, if it is called. -/
  events : List {e : FriendEvent // isCallback e}
  /-- What `tox_iterate` or `toxav_iterate` brings of the calls. -/
  calls : List {e : CallEvent // e.isTick = false}
  /-- What is answered to the testers, if `calltest_iterate` is called. -/
  replies : UInt32 → Reply

/-- What the loop sees of it. -/
def Pass.tick (pass : Pass) (calltesters : List CallTester) : Tick where
  tpnow := pass.tpnow
  unixTime := pass.unixTime
  calltestDelay := calltestIterationInterval calltesters
  toxInterval := pass.toxInterval
  toxavInterval := pass.toxavInterval
  events := pass.events

/-- The callbacks of ToxAV, one after the other. -/
def callbacks (s : CallTest) : List {e : CallEvent // e.isTick = false} → Except Fault (CallTest × List Note)
  | [] => pure (s, [])
  | e :: es => do
    let (s, notes) ← callEvent s e.1
    let (s, rest) ← callbacks s es
    pure (s, notes ++ rest)

/-- What the branch of an iteration does to the call test. -/
def branchCalls (s : CallTest) (pass : Pass) : Branch → Except Fault (CallTest × List Note)
  | .calltest => callEvent s (.calltestIterate pass.tpnow pass.replies)
  | .tox | .toxav => callbacks s pass.calls
  | .purge | .rest .. => pure (s, [])

/-- An iteration. -/
def turn (hex2bin : Hex2Bin) (p : Program) (pass : Pass) : Except Fault (Program × List Note) := do
  let (loop, branch) ← iteration hex2bin p.loop (pass.tick p.callTest.calltesters)
  let (callTest, notes) ← branchCalls p.callTest pass branch
  pure (⟨loop, callTest⟩, notes)

/-- The iterations one after the other, and what is noted of the calls. -/
def turns (hex2bin : Hex2Bin) : Program → List Pass → Except Fault (Program × List Note)
  | p, [] => pure (p, [])
  | p, pass :: passes => do
    let (p, notes) ← turn hex2bin p pass
    let (p, rest) ← turns hex2bin p passes
    pure (p, notes ++ rest)

/-- The program after its start. -/
def Program.start (contacts : Contacts) (shouldSaveConfig : Bool) (greeter : Option Record) (outbox : Outbox)
    (nextAddr : ℕ) : Program :=
  ⟨.start contacts shouldSaveConfig, .init greeter outbox nextAddr⟩

/-! ### The length of a frame -/

/-- The delay that `audio_playback` gives the tester of a record. -/
def frameDelay (rate : UInt32) : UInt64 :=
  UInt64.ofNat ((rate * AUDIO_LENGTH / 1000).toNat * 1000 / rate.toNat) * 1000000

/-- A frame at this rate lasts `d` nanoseconds at least; none are made at the rate zero. -/
def Lasts (d : ℕ) (rate : UInt32) : Prop :=
  rate ≠ 0 → d * rate.toNat ≤ (rate * AUDIO_LENGTH / 1000).toNat * 1000000000

/-- A tester that plays at this rate waits `d` nanoseconds at least. -/
def Paces (d : UInt64) (rate : UInt32) : Prop := rate ≠ 0 → d ≤ frameDelay rate

/-- What the rates that an event brings are like. -/
def Rates (P : UInt32 → Prop) : CallEvent → Prop
  | .call _ _ _ _ alloc => P alloc.samplerate
  | .callState _ _ alloc => P alloc.samplerate
  | .audioReceiveFrame _ _ _ _ samplingRate => P samplingRate
  | .calltestIterate .. => True

theorem Rates.imp {P Q : UInt32 → Prop} (h : ∀ rate, P rate → Q rate) {e : CallEvent} (he : Rates P e) : Rates Q e := by
  cases e with
  | calltestIterate tp replies => trivial
  | _ => exact h _ he

/-- At a rate that 50 divides a frame lasts 20 ms. -/
theorem lasts_of_dvd {rate : UInt32} (hdvd : 50 ∣ rate.toNat) (hlt : rate.toNat < 214748365) : Lasts 20000000 rate := by
  obtain ⟨k, hk⟩ := hdvd
  have hcount : (rate * AUDIO_LENGTH / 1000).toNat = k := by
    rw [UInt32.toNat_div, UInt32.toNat_mul, hk]
    have h20 : AUDIO_LENGTH.toNat = 20 := rfl
    have h1000 : (1000 : UInt32).toNat = 1000 := rfl
    rw [h20, h1000]
    omega
  intro _
  rw [hcount, hk]
  omega

/-- The delay is the length of the frame, cut to whole milliseconds. -/
theorem paces_of_lasts {d : ℕ} (hd : d ≤ 20000000) {rate : UInt32} (h : Lasts d rate) :
    Paces (UInt64.ofNat (d / 1000000 * 1000000)) rate := by
  intro hrate
  have hlast := h hrate
  have hpos : 0 < rate.toNat := Nat.pos_of_ne_zero fun h0 => hrate (UInt32.toNat_inj.mp h0)
  generalize hcount : (rate * AUDIO_LENGTH / 1000).toNat = count at hlast
  have hsmall : count < 2 ^ 32 := hcount ▸ UInt32.toNat_lt _
  have hms : d / 1000000 ≤ count * 1000 / rate.toNat := by
    rw [Nat.le_div_iff_mul_le hpos]
    have hcut := Nat.mul_le_mul_right rate.toNat (Nat.div_mul_le_self d 1000000)
    have hswap : d / 1000000 * 1000000 * rate.toNat = d / 1000000 * rate.toNat * 1000000 := Nat.mul_right_comm _ _ _
    omega
  have hle : count * 1000 / rate.toNat ≤ count * 1000 := Nat.div_le_self _ _
  have hshort : d / 1000000 * 1000000 ≤ 20000000 := (Nat.div_mul_le_self d 1000000).trans hd
  rw [frameDelay, hcount, UInt64.le_iff_toNat_le, UInt64.toNat_mul, UInt64.toNat_ofNat', UInt64.toNat_ofNat']
  have hmillion : (1000000 : UInt64).toNat = 1000000 := rfl
  rw [hmillion, Nat.mod_eq_of_lt (show count * 1000 / rate.toNat < 2 ^ 64 by omega),
    Nat.mod_eq_of_lt (show count * 1000 / rate.toNat * 1000000 < 2 ^ 64 by omega),
    Nat.mod_eq_of_lt (show d / 1000000 * 1000000 < 2 ^ 64 by omega)]
  exact Nat.mul_le_mul_right _ hms

/-- `audio_playback` gives its tester the length of a frame. -/
theorem audioPlayback_delay {ct played : CallTester} {rec : Record} {sends : Bool} {frame : Option Frame} {ret : ℕ}
    (h : audioPlayback ct rec sends = .ok (played, frame, ret)) :
    rec.samplerate ≠ 0 ∧ played.delay = frameDelay rec.samplerate ∧ played.ctrecord = ct.ctrecord := by
  unfold audioPlayback at h
  split_ifs at h with h0 hmore hsends
  all_goals
    cases h
    exact ⟨h0, rfl, rfl⟩

/-- A tester keeps the pace: its delay, and the rate of its record. -/
structure KeepsPace (d : UInt64) (ct : CallTester) : Prop where
  delay : d ≤ ct.delay
  rate : Paces d ct.ctrecord.samplerate

/-- What a tick may do: the tester keeps the pace, and hands over one frame at most. -/
def PacedShot (d : UInt64) (tester : Option CallTester) (deeds : List Deed) : Prop :=
  (∀ ct, tester = some ct → KeepsPace d ct) ∧ deeds.countP Deed.isFrame ≤ 1

theorem countP_frame (frame : Option Frame) (ct : CallTester) (tp : Timespec) :
    (frame.toList.map fun f => ct.does tp (.sendFrame f)).countP Deed.isFrame ≤ 1 :=
  List.countP_le_length.trans (by cases frame <;> simp)

theorem paced_caseGreeter {d : UInt64} {greeter : Option Record}
    (hgreeter : ∀ g, greeter = some g → Paces d g.samplerate) {ct : CallTester} (hct : KeepsPace d ct) {tp : Timespec}
    {sends : Bool} {tester : Option CallTester} {deeds : List Deed}
    (h : caseGreeter greeter ct tp sends = .ok (tester, deeds)) : PacedShot d tester deeds := by
  cases greeter with
  | none => cases h
  | some g =>
    obtain ⟨⟨played, frame, ret⟩, hplay, h⟩ := bind_eq_ok.mp h
    obtain ⟨hrate, hdelay, hrecord⟩ := audioPlayback_delay hplay
    have hplayed : d ≤ played.delay := hdelay ▸ hgreeter g rfl hrate
    have hpaces : Paces d played.ctrecord.samplerate := hrecord ▸ hct.rate
    dsimp only at h
    split_ifs at h with hret
    · cases h
      refine ⟨?_, ?_⟩
      · rintro ct' ⟨⟩
        exact ⟨hplayed, hpaces⟩
      · rw [List.countP_append]
        exact countP_frame frame ct tp
    · cases h
      refine ⟨?_, countP_frame frame ct tp⟩
      rintro ct' ⟨⟩
      exact ⟨hplayed, hpaces⟩

/-- **A tester's tick** keeps the pace. -/
theorem paced_oneShot {d : UInt64} {greeter : Option Record} (hgreeter : ∀ g, greeter = some g → Paces d g.samplerate)
    {ct : CallTester} (hct : KeepsPace d ct) {tp : Timespec} {sends : Bool} {tester : Option CallTester}
    {deeds : List Deed} (h : calltestIterateOneShot greeter ct tp sends = .ok (tester, deeds)) :
    PacedShot d tester deeds := by
  have hsame : ∀ ct', ct'.delay = ct.delay → ct'.ctrecord = ct.ctrecord → KeepsPace d ct' :=
    fun ct' hdelay hrecord => ⟨hdelay ▸ hct.delay, hrecord ▸ hct.rate⟩
  unfold calltestIterateOneShot at h
  split at h
  next hstep =>
    obtain ⟨⟨tester', deeds'⟩, hcase, h⟩ := bind_eq_ok.mp h
    cases h
    obtain ⟨htester, hframes⟩ := paced_caseGreeter hgreeter
      (hsame { ct with samplesSend := 0, step := ct.step.next } rfl rfl) hcase
    refine ⟨htester, ?_⟩
    rw [List.countP_cons_of_neg (by simp [Deed.isFrame, CallTester.does])]
    exact hframes
  next hstep => exact paced_caseGreeter hgreeter hct h
  next hstep =>
    rcases bind_ite_eq_ok.mp h with ⟨-, h⟩ | ⟨-, h⟩
    · cases h
      exact ⟨by rintro _ ⟨⟩; exact hsame _ rfl rfl, List.countP_le_length⟩
    · cases h
      exact ⟨by rintro _ ⟨⟩; exact hct, zero_le_one⟩
  next hstep =>
    cases h
    exact ⟨by rintro _ ⟨⟩; exact hsame _ rfl rfl, List.countP_le_length⟩
  next hstep =>
    cases h
    exact ⟨by rintro _ ⟨⟩; exact hsame _ rfl rfl, List.countP_le_length⟩
  next hstep =>
    obtain ⟨⟨played, frame, ret⟩, hplay, h⟩ := bind_eq_ok.mp h
    obtain ⟨hrate, hdelay, hrecord⟩ := audioPlayback_delay hplay
    have hplayed : KeepsPace d played := ⟨hdelay ▸ hct.rate hrate, hrecord ▸ hct.rate⟩
    cases h
    refine ⟨?_, countP_frame frame ct tp⟩
    rintro ct' ⟨⟩
    split_ifs
    · exact ⟨hplayed.delay, hplayed.rate⟩
    · exact hplayed
  next hstep =>
    cases h
    exact ⟨fun _ h => (by cases h), List.countP_le_length⟩

/-! ### The call test keeps the pace -/

/-- All testers keep the pace, and the greeting does. -/
structure CallsPaced (d : UInt64) (s : CallTest) : Prop where
  ordered : s.Ordered
  greeter : ∀ g, s.greeter = some g → Paces d g.samplerate
  testers : ∀ ct ∈ s.calltesters, KeepsPace d ct

/-- The frames to a friend. -/
def framesTo (n : UInt32) (deeds : List Deed) : List Deed := deeds.filter fun x => x.isFrame && x.friendNumber = n

@[simp] theorem framesTo_append (n : UInt32) (a b : List Deed) : framesTo n (a ++ b) = framesTo n a ++ framesTo n b :=
  List.filter_append ..

theorem greeter_addEntry (s : CallTest) (n : UInt32) (alloc : Alloc) : (s.addEntry n alloc).1.greeter = s.greeter := by
  unfold CallTest.addEntry
  cases callTesterByFriendNumber s.calltesters n <;> rfl

/-- A new tester keeps the pace. -/
theorem paced_addEntry {d : UInt64} (hd : d ≤ DEFAULT_DELAY) {s : CallTest} (hs : CallsPaced d s) {n : UInt32}
    {alloc : Alloc} (halloc : Paces d alloc.samplerate) :
    ∀ ct ∈ (s.addEntry n alloc).1.calltesters, KeepsPace d ct := by
  intro ct hct
  rcases mem_addEntry.mp hct with hct | ⟨-, rfl⟩
  · exact hs.testers ct hct
  · exact ⟨hd, halloc⟩

/-- **A callback** of ToxAV keeps the pace, and hands over no frame. -/
theorem paced_callback {d : UInt64} (hd : d ≤ DEFAULT_DELAY) {s s' : CallTest} (hs : CallsPaced d s) {e : CallEvent}
    (htick : e.isTick = false) (hrate : Rates (Paces d) e) {notes : List Note} (h : callEvent s e = .ok (s', notes)) :
    CallsPaced d s' ∧ deedsIn notes = [] := by
  have hordered := ordered_does (does_callEvent hs.ordered h) hs.ordered
  cases e with
  | call n audio video answered alloc =>
    cases h
    refine ⟨⟨hordered, ?_, paced_addEntry hd hs hrate⟩, deedsIn_addEntry s n alloc⟩
    exact fun g hg => hs.greeter g ((greeter_addEntry s n alloc).symm.trans hg)
  | callState n state alloc =>
    simp only [callEvent, pure_eq_ok, Except.ok.injEq] at h
    rcases callState_cases s n state alloc with ⟨hsame, -⟩ | ⟨-, -, audio, video, hadd⟩ | ⟨-, ct, hget, hbye⟩
    · cases hsame.symm.trans h
      exact ⟨hs, rfl⟩
    · cases hadd.symm.trans h
      refine ⟨⟨hordered, ?_, paced_addEntry hd hs hrate⟩, deedsIn_addEntry s n alloc⟩
      exact fun g hg => hs.greeter g ((greeter_addEntry s n alloc).symm.trans hg)
    · cases hbye.symm.trans h
      refine ⟨⟨hordered, hs.greeter, fun c hc => ?_⟩, rfl⟩
      obtain ⟨hct, -⟩ := (callTesterByFriendNumber_eq_some hs.ordered.nodup_friends).mp hget
      rcases mem_withTester hc with rfl | ⟨hc, -⟩
      · exact ⟨(hs.testers ct hct).delay, (hs.testers ct hct).rate⟩
      · exact hs.testers c hc
  | audioReceiveFrame n pcm count channels rate =>
    obtain ⟨t, ht, h⟩ := bind_eq_ok.mp h
    cases h
    refine ⟨?_, rfl⟩
    rcases audioReceiveFrame_cases ht with ⟨rfl, -⟩ | ⟨ct, ctrecord, hget, -, hreceive, rfl⟩
    · exact hs
    · refine ⟨hordered, hs.greeter, fun c hc => ?_⟩
      obtain ⟨hct, -⟩ := (callTesterByFriendNumber_eq_some hs.ordered.nodup_friends).mp hget
      rcases mem_withTester hc with rfl | ⟨hc, -⟩
      · refine ⟨(hs.testers ct hct).delay, ?_⟩
        have hsampled : ctrecord.samplerate = rate := by
          unfold receiveFrame at hreceive
          split_ifs at hreceive
          obtain ⟨buffer, -, hreceive⟩ := bind_eq_ok.mp hreceive
          cases hreceive
          rfl
        exact hsampled ▸ hrate
      · exact hs.testers c hc
  | calltestIterate tp replies => cases htick

theorem paced_callbacks {d : UInt64} (hd : d ≤ DEFAULT_DELAY) {es : List {e : CallEvent // e.isTick = false}} :
    ∀ {s s' : CallTest} {notes : List Note}, CallsPaced d s → (∀ e ∈ es, Rates (Paces d) e.1) →
      callbacks s es = .ok (s', notes) → CallsPaced d s' ∧ deedsIn notes = [] := by
  induction es with
  | nil =>
    intro s s' notes hs _ h
    cases h
    exact ⟨hs, rfl⟩
  | cons e es ih =>
    intro s s' notes hs hrates h
    rw [List.forall_mem_cons] at hrates
    obtain ⟨⟨s₁, notes₁⟩, hevent, h⟩ := bind_eq_ok.mp h
    obtain ⟨⟨s₂, notes₂⟩, hrest, h⟩ := bind_eq_ok.mp h
    cases h
    obtain ⟨hs₁, hnone₁⟩ := paced_callback hd hs e.2 hrates.1 hevent
    obtain ⟨hs₂, hnone₂⟩ := ih hs₁ hrates.2 hrest
    exact ⟨hs₂, by rw [deedsIn_append, hnone₁, hnone₂]; rfl⟩

/-- What the testers hand over in a tick: one frame to a friend at most. -/
theorem framesTo_shots {n : UInt32} {l : List CallTester} {shots : List (Option CallTester × List Deed)}
    (h : List.Forall₂ (fun ct shot => (∀ x ∈ shot.2, x.friendNumber = ct.friendNumber) ∧
      shot.2.countP Deed.isFrame ≤ 1) l shots) (hnodup : (l.map CallTester.friendNumber).Nodup) :
    (framesTo n (shots.flatMap Prod.snd)).length ≤ if n ∈ l.map CallTester.friendNumber then 1 else 0 := by
  induction h with
  | nil => simp [framesTo]
  | @cons ct shot l shots hshot h ih =>
    obtain ⟨hown, hframes⟩ := hshot
    rw [List.map_cons, List.nodup_cons] at hnodup
    have ih := ih hnodup.2
    rw [List.flatMap_cons, framesTo_append, List.length_append, List.map_cons]
    by_cases hn : n = ct.friendNumber
    · subst hn
      rw [if_neg hnodup.1] at ih
      rw [if_pos List.mem_cons_self]
      have hmine : (framesTo ct.friendNumber shot.2).length ≤ shot.2.countP Deed.isFrame := by
        rw [framesTo, ← List.countP_eq_length_filter]
        exact List.countP_mono_left fun x _ hx => (Bool.and_eq_true _ _ ▸ hx).1
      omega
    · have hnone : framesTo n shot.2 = [] :=
        List.filter_eq_nil_iff.mpr fun x hx => by simp [hown x hx, Ne.symm hn]
      simpa [hnone, hn] using ih

/-- **A tick** keeps the pace, and hands each friend one frame at most. -/
theorem paced_tick {d : UInt64} {s s' : CallTest} (hs : CallsPaced d s) {tp : Timespec} {replies : UInt32 → Reply}
    {notes : List Note} (h : callEvent s (.calltestIterate tp replies) = .ok (s', notes)) :
    CallsPaced d s' ∧ ∀ n, (framesTo n (deedsIn notes)).length ≤ 1 ∧ ∀ x ∈ framesTo n (deedsIn notes), x.tp = tp := by
  have hordered := ordered_does (does_callEvent hs.ordered h) hs.ordered
  obtain ⟨shots, hall, hlist, rfl, hgreeter, -⟩ := callEvent_tick hs.ordered h
  rw [deedsIn_deeds]
  refine ⟨⟨hordered, fun g hg => hs.greeter g (hgreeter ▸ hg), fun c hc => ?_⟩, fun n => ⟨?_, fun x hx => ?_⟩⟩
  · obtain ⟨shot, hshot, hc⟩ := List.mem_filterMap.mp (hlist ▸ hc)
    obtain ⟨ct, hct, halone⟩ := exists_of_mem_right hall shot hshot
    exact (paced_oneShot hs.greeter (hs.testers ct hct) halone).1 c hc
  · refine (framesTo_shots ?_ hs.ordered.nodup_friends).trans (by split_ifs <;> simp)
    refine ((List.forall₂_and_left _ _).mpr ⟨hs.testers, hall⟩).imp fun ct shot ⟨hct, halone⟩ => ?_
    exact ⟨fun x hx => ((shot_of_oneShot halone).own x hx).2.1, (paced_oneShot hs.greeter hct halone).2⟩
  · obtain ⟨shot, hshot, hx⟩ := List.mem_flatMap.mp (List.mem_filter.mp hx).1
    obtain ⟨ct, hct, halone⟩ := exists_of_mem_right hall shot hshot
    exact ((shot_of_oneShot halone).own x hx).2.2

/-! ### The program keeps the pace -/

/-- The shortest delay of testers that keep the pace is no shorter. -/
theorem le_interval {d : UInt64} (hd : d ≤ MAX_NS) {l : List CallTester} (hl : ∀ ct ∈ l, d ≤ ct.delay) :
    d ≤ calltestIterationInterval l := by
  unfold calltestIterationInterval
  generalize MAX_NS = ldelay at hd
  induction l generalizing ldelay with
  | nil => exact hd
  | cons ct l ih =>
    rw [List.forall_mem_cons] at hl
    rw [List.foldl_cons]
    refine ih hl.2 _ ?_
    split_ifs
    · exact hd
    · exact hl.1

/-- What the rates that an iteration meets are like. -/
def Pass.Rated (P : UInt32 → Prop) (pass : Pass) : Prop := ∀ e ∈ pass.calls, Rates P e.1

variable {hex2bin : Hex2Bin}

/-- **An iteration**: the frames that it hands over, if any, come when the pace allows it, and their time is kept. -/
theorem paced_turn {d : UInt64} (hd : d ≤ DEFAULT_DELAY) {p p' : Program} {pass : Pass} (hs : CallsPaced d p.callTest)
    (htimed : p.loop.Timed pass.tpnow) (hnow : pass.tpnow.Reading) (hrates : pass.Rated (Paces d)) {notes : List Note}
    (h : turn hex2bin p pass = .ok (p', notes)) :
    CallsPaced d p'.callTest ∧ p'.loop.Timed pass.tpnow ∧ p.loop.tscalltest.ns ≤ p'.loop.tscalltest.ns ∧
      ∀ n, framesTo n (deedsIn notes) = [] ∨ p.loop.tscalltest.ns + d.toNat ≤ pass.tpnow.ns ∧
        p'.loop.tscalltest = pass.tpnow ∧ ∃ x, framesTo n (deedsIn notes) = [x] ∧ x.tp = pass.tpnow := by
  obtain ⟨⟨loop, branch⟩, hiter, h⟩ := bind_eq_ok.mp h
  obtain ⟨⟨callTest, found⟩, hcalls, h⟩ := bind_eq_ok.mp h
  obtain ⟨rfl, rfl⟩ : ⟨loop, callTest⟩ = p' ∧ found = notes := by simpa using h
  obtain ⟨hindex, -, htimed'⟩ := iteration_polls htimed hnow hiter
  have hstamps := congrFun (stamps_of_index hiter) 0
  -- the branches that bring no frame
  have hquiet : branch.index ≠ some 0 → CallsPaced d callTest ∧ deedsIn found = [] →
      CallsPaced d callTest ∧ loop.Timed pass.tpnow ∧ p.loop.tscalltest.ns ≤ loop.tscalltest.ns ∧
        ∀ n, framesTo n (deedsIn found) = [] ∨ p.loop.tscalltest.ns + d.toNat ≤ pass.tpnow.ns ∧
          loop.tscalltest = pass.tpnow ∧ ∃ x, framesTo n (deedsIn found) = [x] ∧ x.tp = pass.tpnow := by
    rintro hne ⟨hcalls, hnone⟩
    refine ⟨hcalls, htimed', le_of_eq (congrArg Timespec.ns ?_), fun n => .inl (by rw [hnone]; rfl)⟩
    have hsame : loop.stamps 0 = p.loop.stamps 0 := by
      rw [hstamps]
      cases hbranch : branch.index with
      | none => rfl
      | some j =>
        have hj : (0 : Fin 4) ≠ j := fun heq => hne (heq ▸ hbranch)
        rw [Option.elim_some, Function.update_of_ne hj]
    exact hsame.symm
  cases branch with
  | calltest =>
    obtain ⟨hpaced, hframes⟩ := paced_tick hs hcalls
    have hlast : loop.tscalltest = pass.tpnow := hstamps
    have hdue := (first_eq_some.mp hindex.symm).1
    have hinterval : d ≤ calltestIterationInterval p.callTest.calltesters :=
      le_interval (UInt64.le_trans hd (by decide)) fun ct hct => (hs.testers ct hct).delay
    have hwait : p.loop.tscalltest.ns + d.toNat ≤ pass.tpnow.ns := by
      have hle := UInt64.le_iff_toNat_le.mp hinterval
      have hdue : ((calltestIterationInterval p.callTest.calltesters).toNat : ℤ) ≤
          pass.tpnow.ns - p.loop.tscalltest.ns := hdue
      omega
    refine ⟨hpaced, htimed', by rw [hlast]; exact (htimed 0).2, fun n => ?_⟩
    obtain ⟨hone, htp⟩ := hframes n
    cases hlist : framesTo n (deedsIn found) with
    | nil => exact .inl rfl
    | cons x xs =>
      rw [hlist] at hone htp
      obtain rfl : xs = [] := List.length_eq_zero_iff.mp (by simpa using hone)
      exact .inr ⟨hwait, hlast, x, rfl, htp x List.mem_cons_self⟩
  | tox => exact hquiet (by simp [Branch.index]) (paced_callbacks hd hs hrates hcalls)
  | toxav => exact hquiet (by simp [Branch.index]) (paced_callbacks hd hs hrates hcalls)
  | purge =>
    cases hcalls
    exact hquiet (by simp [Branch.index]) ⟨hs, rfl⟩
  | rest fileDo saveProfile sleepDelay =>
    cases hcalls
    exact hquiet (by simp [Branch.index]) ⟨hs, rfl⟩

/-- **A run**: the frames to a friend are apart, and none comes before the call test has waited. -/
theorem paced_turns {d : UInt64} (hd : d ≤ DEFAULT_DELAY) {passes : List Pass} : ∀ {p p' : Program} {notes : List Note},
    CallsPaced d p.callTest → (∀ pass ∈ passes, p.loop.Timed pass.tpnow) → (∀ pass ∈ passes, pass.tpnow.Reading) →
      passes.Pairwise (fun a b => a.tpnow.ns ≤ b.tpnow.ns) → (∀ pass ∈ passes, pass.Rated (Paces d)) →
        turns hex2bin p passes = .ok (p', notes) →
          ∀ n, (framesTo n (deedsIn notes)).Pairwise (fun a b => a.tp.ns + (d.toNat : ℤ) ≤ b.tp.ns) ∧
            ∀ x ∈ framesTo n (deedsIn notes), p.loop.tscalltest.ns + (d.toNat : ℤ) ≤ x.tp.ns := by
  induction passes with
  | nil =>
    intro p p' notes _ _ _ _ _ h n
    cases h
    exact ⟨.nil, fun x hx => absurd hx List.not_mem_nil⟩
  | cons pass passes ih =>
    intro p p' notes hs htimed hread hmono hrates h n
    rw [List.forall_mem_cons] at htimed hread hrates
    rw [List.pairwise_cons] at hmono
    obtain ⟨⟨p₁, now⟩, hturn, h⟩ := bind_eq_ok.mp h
    obtain ⟨⟨p₂, rest⟩, hrest, h⟩ := bind_eq_ok.mp h
    cases h
    obtain ⟨hs₁, htimed₁, hlast, hframes⟩ := paced_turn hd hs htimed.1 hread.1 hrates.1 hturn
    have htimed' : ∀ pass ∈ passes, p₁.loop.Timed pass.tpnow := fun q hq i =>
      ⟨(htimed₁ i).1, (htimed₁ i).2.trans (hmono.1 q hq)⟩
    obtain ⟨hpair, hafter⟩ := ih hs₁ htimed' hread.2 hmono.2 hrates.2 hrest n
    rw [deedsIn_append, framesTo_append]
    rcases hframes n with hnone | ⟨hwait, hnow, x, hx, htp⟩
    · rw [hnone, List.nil_append]
      exact ⟨hpair, fun y hy => (Int.add_le_add_right hlast _).trans (hafter y hy)⟩
    · -- the frame comes at the time that the later ones are counted from
      rw [hx, List.singleton_append, List.pairwise_cons, List.forall_mem_cons, htp]
      rw [hnow] at hafter hlast
      exact ⟨⟨hafter, hpair⟩, hwait, fun y hy => (Int.add_le_add_right hlast _).trans (hafter y hy)⟩

theorem paced_start {d : UInt64} {greeter : Option Record} (shouldSaveConfig : Bool) (contacts : Contacts)
    (outbox : Outbox) (nextAddr : ℕ) (hgreeter : ∀ g, greeter = some g → Paces d g.samplerate) :
    CallsPaced d (Program.start contacts shouldSaveConfig greeter outbox nextAddr).callTest :=
  ⟨ordered_start greeter outbox nextAddr, hgreeter, fun _ h => absurd h List.not_mem_nil⟩

/-- **The frames to a friend are paced.** In any run of the program on readings of a clock that does not go back, two
frames to one friend, over all its calls, are as far apart as the shortest frame of the rates that it meets lasts, cut
to whole milliseconds. -/
theorem frames_paced (hex2bin : Hex2Bin) (contacts : Contacts) (shouldSaveConfig : Bool) (greeter : Option Record)
    (outbox : Outbox) (nextAddr : ℕ) {d : ℕ} (hd : d ≤ 20000000)
    (hgreeter : ∀ g, greeter = some g → Lasts d g.samplerate) {passes : List Pass}
    (hread : ∀ pass ∈ passes, pass.tpnow.Reading) (hmono : passes.Pairwise fun a b => a.tpnow.ns ≤ b.tpnow.ns)
    (hrates : ∀ pass ∈ passes, pass.Rated (Lasts d)) {p : Program} {notes : List Note}
    (h : turns hex2bin (.start contacts shouldSaveConfig greeter outbox nextAddr) passes = .ok (p, notes))
    (n : UInt32) :
    (framesTo n (deedsIn notes)).Pairwise fun a b => a.tp.ns + ((d / 1000000 * 1000000 : ℕ) : ℤ) ≤ b.tp.ns := by
  have hms : (UInt64.ofNat (d / 1000000 * 1000000)).toNat = d / 1000000 * 1000000 := by
    rw [UInt64.toNat_ofNat', Nat.mod_eq_of_lt (by omega)]
  have hdelay : UInt64.ofNat (d / 1000000 * 1000000) ≤ DEFAULT_DELAY := by
    rw [UInt64.le_iff_toNat_le, hms]
    exact (Nat.div_mul_le_self d 1000000).trans hd
  have hpaced : CallsPaced (UInt64.ofNat (d / 1000000 * 1000000))
      (Program.start contacts shouldSaveConfig greeter outbox nextAddr).callTest :=
    paced_start shouldSaveConfig contacts outbox nextAddr fun g hg => paces_of_lasts hd (hgreeter g hg)
  have hrates' : ∀ pass ∈ passes, pass.Rated (Paces (UInt64.ofNat (d / 1000000 * 1000000))) := fun pass hpass e he =>
    (hrates pass hpass e he).imp fun _ => paces_of_lasts hd
  have happart := (paced_turns hdelay hpaced (fun pass hpass => timed_start _ _ (hread pass hpass)) hread hmono hrates'
    h n).1
  rwa [hms] at happart

/-- A pass in the second second of the clock. -/
def passIn (ms : ℤ) (calls : List {e : CallEvent // e.isTick = false}) : Pass :=
  ⟨⟨1, ms * 1000000⟩, 1500000000, 50, 20, [], calls, fun _ => someReply⟩

/-- A call whose record is not yet set, where that memory holds a rate of 50. -/
def aCall : {e : CallEvent // e.isTick = false} :=
  ⟨.call 0 true false true ⟨0, 50, 0, ⟨0, 0⟩, someAlloc.outfilename⟩, rfl⟩

/-- A friend calls and is greeted. -/
theorem frames_paced_greeting : ∃ p notes, turns (fun buf _ => buf)
    (.start ⟨newTox, []⟩ false (some someGreeter) ⟨[], [], []⟩ 0)
      [passIn 0 [], passIn 1 [aCall], passIn 30 [], passIn 60 []] = .ok (p, notes) ∧
    (framesTo 0 (deedsIn notes)).length = 2 ∧
    (framesTo 0 (deedsIn notes)).Pairwise fun a b => a.tp.ns + 20000000 ≤ b.tp.ns := by
  have hlasts : Lasts 20000000 50 := lasts_of_dvd (by decide) (by decide)
  refine ⟨_, _, rfl, by decide, ?_⟩
  refine @frames_paced (fun buf _ => buf) ⟨newTox, []⟩ false (some someGreeter) ⟨[], [], []⟩ 0 20000000 (by decide)
    (fun g hg => ?_) [passIn 0 [], passIn 1 [aCall], passIn 30 [], passIn 60 []] ?_ ?_ ?_ _ _ rfl 0
  · cases hg
    exact hlasts
  · simp only [List.forall_mem_cons]
    exact ⟨⟨rfl, by decide⟩, ⟨rfl, by decide⟩, ⟨rfl, by decide⟩, ⟨rfl, by decide⟩, fun _ h => absurd h List.not_mem_nil⟩
  · decide
  · have hnone : ∀ ms, (passIn ms []).Rated (Lasts 20000000) := fun _ _ h => absurd h List.not_mem_nil
    have hcall : (passIn 1 [aCall]).Rated (Lasts 20000000) := by
      rintro e he
      rw [List.mem_singleton.mp he]
      exact hlasts
    simp only [List.forall_mem_cons]
    exact ⟨hnone 0, hcall, hnone 30, hnone 60, fun _ h => absurd h List.not_mem_nil⟩

end ToxSuite.Suit
