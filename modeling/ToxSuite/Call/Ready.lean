import ToxSuite.Call.Heard

/-!
# Records that are set

A tester plays the greeter, which was loaded at the start if it was there, and later
writes and plays its own record, whose fields are set by the frames that come while it is
at `RECORDING`. Neither is looked at before it is used. What a tick may use is a record
that is there and set, with a sample rate by which can be divided, in every state of a run
if and only if no tester is made without a greeter, and none leaves `RECORDING` without
having heard anything (`plays_set_records_iff`).
-/

namespace ToxSuite.Call

open ToxSuite.Lib ToxSuite.File ToxSuite.Suit

/-! ### What a tick uses -/

/-- The record has the fields of the last frame that was heard. -/
def FieldsSet (rec : Record) (heard : List Received) : Prop :=
  ∃ f, heard.getLast? = some f ∧ rec.channels = f.channels ∧ rec.samplerate = f.samplingRate

/-- The greeter was loaded, and has a sample rate. -/
def Playable (greeter : Option Record) : Prop := ∃ rec, greeter = some rec ∧ rec.samplerate ≠ 0

/-- What the next tick plays or writes is set, whichever tick that is. -/
structure Ready (s : Hearing) : Prop where
  /-- In `ENTERING` and `GREETER` the greeter is played. -/
  greeter : ∀ ct ∈ s.test.calltesters, ct.step = .entering ∨ ct.step = .greeter → Playable s.test.greeter
  /-- In `SAVING` the recording is written, and in `ECHOING` it is played. -/
  record : ∀ ct ∈ s.test.calltesters, ct.step = .saving ∨ ct.step = .echoing →
    FieldsSet ct.ctrecord (s.heard ct.addr) ∧ ct.ctrecord.samplerate ≠ 0
  defined : ∀ ct ∈ s.test.calltesters, ∀ tp sends,
    calltestIterateOneShot s.test.greeter ct tp sends ≠ .error .null ∧
      calltestIterateOneShot s.test.greeter ct tp sends ≠ .error .divZero

/-- Who gets a tester is greeted with a greeter that can be played; and when the recording time of a
tester is over, it has heard something, and the last with a sample rate. -/
structure Provided (s : Hearing) (e : CallEvent) : Prop where
  greeter : ∀ n, e.Adds n → (∀ ct ∈ s.test.calltesters, ct.friendNumber ≠ n) → Playable s.test.greeter
  heard : ∀ tp replies, e = .calltestIterate tp replies → ∀ ct ∈ s.test.calltesters, ct.step = .recording →
    nanosecTimeout ct.callstart tp CALL_TEST_DURATION_NS = .ok true →
      ∃ f, (s.heard ct.addr).getLast? = some f ∧ f.samplingRate ≠ 0

/-! ### Faults of a tick -/

/-- A record with a sample rate can be played. -/
theorem audioPlayback_isOk (ct : CallTester) {rec : Record} (h : rec.samplerate ≠ 0) (sends : Bool) :
    ∃ r, audioPlayback ct rec sends = .ok r := by
  unfold audioPlayback
  rw [if_neg h]
  dsimp only
  split_ifs
  · exact ⟨_, rfl⟩
  · exact ⟨_, rfl⟩
  · exact ⟨_, rfl⟩

theorem caseGreeter_isOk {greeter : Option Record} (h : Playable greeter) (ct : CallTester) (tp : Timespec)
    (sends : Bool) : ∃ r, caseGreeter greeter ct tp sends = .ok r := by
  obtain ⟨rec, rfl, hrate⟩ := h
  obtain ⟨⟨played, frame, ret⟩, hplay⟩ := audioPlayback_isOk ct hrate sends
  simp only [caseGreeter, hplay, ok_bind]
  split_ifs
  · exact ⟨_, rfl⟩
  · exact ⟨_, rfl⟩

/-- On records that are set only the clock can go wrong in a tick. -/
theorem oneShot_error {greeter : Option Record} {ct : CallTester} {tp : Timespec} {sends : Bool} {e : Fault}
    (hgreeter : ct.step = .entering ∨ ct.step = .greeter → Playable greeter)
    (hrecord : ct.step = .echoing → ct.ctrecord.samplerate ≠ 0)
    (h : calltestIterateOneShot greeter ct tp sends = .error e) : e = .longRange := by
  unfold calltestIterateOneShot at h
  split at h
  next hstep =>
    obtain ⟨r, hcase⟩ := caseGreeter_isOk (hgreeter (.inl hstep))
      { ct with samplesSend := 0, step := CallStep.next .entering } tp sends
    rw [hstep, hcase] at h
    cases h
  next hstep =>
    obtain ⟨r, hcase⟩ := caseGreeter_isOk (hgreeter (.inr hstep)) ct tp sends
    rw [hcase] at h
    cases h
  next hstep =>
    rcases bind_eq_error.mp h with h | ⟨timeout, -, h⟩
    · exact nanosecTimeout_error h
    · split_ifs at h
      · cases h
      · cases h
  next hstep => cases h
  next hstep => cases h
  next hstep =>
    obtain ⟨r, hplay⟩ := audioPlayback_isOk ct (hrecord hstep) sends
    rw [hplay] at h
    cases h
  next hstep => cases h

/-! ### What is kept -/

/-- The steps between the recording and its playback. -/
def CallStep.stored : CallStep → Bool
  | .saving | .sending | .echoing => true
  | _ => false

/-- A tester has what it needs: a greeter to be greeted with, the fields of the last frame that it has
heard, and behind `RECORDING` such a frame. -/
structure Sound (greeter : Option Record) (heard : List Received) (ct : CallTester) : Prop where
  greeted : ct.step = .entering ∨ ct.step = .greeter → Playable greeter
  tracks : ∀ f, heard.getLast? = some f → ct.ctrecord.channels = f.channels ∧ ct.ctrecord.samplerate = f.samplingRate
  stored : ct.step.stored → ∃ f, heard.getLast? = some f ∧ f.samplingRate ≠ 0

/-- All testers have what they need. -/
structure Hearing.Sounding (s : Hearing) : Prop extends s.Fresh where
  sound : ∀ ct ∈ s.test.calltesters, Sound s.test.greeter (s.heard ct.addr) ct

theorem Sound.record {greeter : Option Record} {heard : List Received} {ct : CallTester} (h : Sound greeter heard ct)
    (hstored : ct.step.stored) : FieldsSet ct.ctrecord heard ∧ ct.ctrecord.samplerate ≠ 0 := by
  obtain ⟨f, hf, hrate⟩ := h.stored hstored
  obtain ⟨hchannels, hsamplerate⟩ := h.tracks f hf
  exact ⟨⟨f, hf, hchannels, hsamplerate⟩, hsamplerate ▸ hrate⟩

theorem Hearing.Sounding.ready {s : Hearing} (hs : s.Sounding) : Ready s := by
  have hrecord : ∀ ct ∈ s.test.calltesters, ct.step = .saving ∨ ct.step = .echoing →
      FieldsSet ct.ctrecord (s.heard ct.addr) ∧ ct.ctrecord.samplerate ≠ 0 := by
    rintro ct hct (hstep | hstep)
    · exact (hs.sound ct hct).record (by rw [hstep]; rfl)
    · exact (hs.sound ct hct).record (by rw [hstep]; rfl)
  refine ⟨fun ct hct => (hs.sound ct hct).greeted, hrecord, fun ct hct tp sends => ?_⟩
  have herror := @oneShot_error s.test.greeter ct tp sends
  constructor
  · intro h
    cases herror (hs.sound ct hct).greeted (fun hstep => (hrecord ct hct (.inr hstep)).2) h
  · intro h
    cases herror (hs.sound ct hct).greeted (fun hstep => (hrecord ct hct (.inr hstep)).2) h

/-- A tick takes a tester on to what uses its record from `RECORDING` only, when the time is over. -/
theorem Shot.after {tp : Timespec} {ct c : CallTester} {deeds : List Deed} (h : Shot tp ct (some c) deeds) :
    (c.step = .entering ∨ c.step = .greeter → ct.step = .entering ∨ ct.step = .greeter) ∧
      (c.step.stored → ct.step.stored ∨
        ct.step = .recording ∧ nanosecTimeout ct.callstart tp CALL_TEST_DURATION_NS = .ok true) := by
  generalize htester : some c = tester at h
  induction h with
  | @enter ct tester deeds hstep h ih =>
    refine ⟨fun _ => .inl hstep, fun hstored => ?_⟩
    rcases (ih htester).2 hstored with hstored' | ⟨hrecording, -⟩
    · cases hstored'
    · cases hrecording
  | greet hstep =>
    cases htester
    exact ⟨fun _ => .inr hstep, fun hstored => by rw [hstep] at hstored; cases hstored⟩
  | greeted hstep =>
    cases htester
    exact ⟨fun _ => .inr hstep, fun hstored => by cases hstored⟩
  | record hstep =>
    cases htester
    exact ⟨id, .inl⟩
  | recorded hstep htimeout =>
    cases htester
    exact ⟨fun h => (by rcases h with h | h <;> cases h), fun _ => .inr ⟨hstep, htimeout⟩⟩
  | save hstep =>
    cases htester
    exact ⟨fun h => (by rcases h with h | h <;> cases h), fun _ => .inl (by rw [hstep]; rfl)⟩
  | send hstep =>
    cases htester
    exact ⟨fun h => (by rcases h with h | h <;> cases h), fun _ => .inl (by rw [hstep]; rfl)⟩
  | echo hstep =>
    cases htester
    exact ⟨id, .inl⟩
  | echoed hstep =>
    cases htester
    exact ⟨fun h => (by rcases h with h | h <;> cases h), fun hstored => by cases hstored⟩
  | leave hstep => cases htester

theorem callEvent_greeter {s s' : CallTest} {e : CallEvent} {notes : List Note} (ho : s.Ordered)
    (h : callEvent s e = .ok (s', notes)) : s'.greeter = s.greeter := by
  have hadd (n : UInt32) (alloc : Alloc) : (s.addEntry n alloc).1.greeter = s.greeter := by
    unfold CallTest.addEntry
    split
    · rfl
    · rfl
  cases e with
  | call n audio video answered alloc =>
    cases h
    exact hadd n alloc
  | callState n state alloc =>
    have hs : (s.callState n state alloc).1 = s' := congrArg Prod.fst (Except.ok.inj h)
    rcases callState_cases s n state alloc with ⟨heq, -⟩ | ⟨-, -, _, _, heq⟩ | ⟨-, ct, -, heq⟩
    · rw [← hs, heq]
    · rw [← hs, heq]
      exact hadd n alloc
    · rw [← hs, heq]
      rfl
  | audioReceiveFrame n pcm count channels rate =>
    obtain ⟨t, ht, h⟩ := bind_eq_ok.mp h
    cases h
    rcases audioReceiveFrame_cases ht with ⟨rfl, -⟩ | ⟨ct, ctrecord, -, -, -, rfl⟩
    · rfl
    · rfl
  | calltestIterate tp replies =>
    obtain ⟨shots, -, -, -, hgreeter, -⟩ := callEvent_tick ho h
    exact hgreeter

/-- **What a tester needs** after an event, it has. -/
theorem Hearing.Sounding.origin {s : Hearing} {e : CallEvent} {c : CallTester} (hs : s.Sounding)
    (h : s.test.Origin e c) (hprovided : Provided s e) : Sound s.test.greeter (s.heardAfter e c.addr) c := by
  cases h with
  | kept hc hother => exact heardAfter_other hother ▸ hs.sound c hc
  | @fresh n alloc hhears hadds hnew hc =>
    subst hc
    rw [heardAfter_of_none hhears, hs.unheard (CallTester.new s.test.nextAddr n alloc).addr le_rfl]
    exact ⟨fun _ => hprovided.greeter n hadds hnew, fun f hf => (nomatch hf), fun hstored => by cases hstored⟩
  | @finished ct hhears hct hc =>
    subst hc
    rw [heardAfter_of_none hhears]
    exact ⟨fun h => (by rcases h with h | h <;> cases h), (hs.sound ct hct).tracks, fun hstored => by cases hstored⟩
  | @received ct f ctrecord hhears hreceive hc =>
    subst hc
    obtain ⟨-, hstep, -⟩ := hears_eq_some hhears
    rw [receiveFrame_eq] at hreceive
    split_ifs at hreceive
    cases hreceive
    have hlast : (s.heardAfter e ct.addr).getLast? = some f := by
      rw [heardAfter_self hhears, List.getLast?_concat]
    refine ⟨fun h => ?_, fun f' hf' => ?_, fun hstored => ?_⟩
    · rcases h with h | h <;> cases hstep.symm.trans h
    · cases hlast.symm.trans hf'
      exact ⟨rfl, rfl⟩
    · have hrecording : CallStep.stored .recording := hstep ▸ hstored
      cases hrecording
  | @ticked ct tp replies deeds he hct hshot =>
    subst he
    obtain ⟨haddr, -, hrecord⟩ := hshot.same
    obtain ⟨hgreeter, hafter⟩ := hshot.after
    rw [heardAfter_of_none rfl, haddr]
    refine ⟨fun h => (hs.sound ct hct).greeted (hgreeter h), hrecord ▸ (hs.sound ct hct).tracks, fun hstored => ?_⟩
    rcases hafter hstored with hstored' | ⟨hrecording, htimeout⟩
    · exact (hs.sound ct hct).stored hstored'
    · exact hprovided.heard tp replies rfl ct hct hrecording htimeout

/-! ### Both ways -/

/-- A tester that is made is at `ENTERING`. -/
theorem exists_new {s s' : CallTest} {e : CallEvent} {notes : List Note} (h : callEvent s e = .ok (s', notes))
    {n : UInt32} (hadds : e.Adds n) (hnew : ∀ ct ∈ s.calltesters, ct.friendNumber ≠ n) :
    ∃ ct ∈ s'.calltesters, ct.step = .entering := by
  cases e with
  | call m audio video answered alloc =>
    cases h
    obtain rfl := hadds
    exact ⟨_, mem_addEntry.mpr (.inr ⟨hnew, rfl⟩), rfl⟩
  | callState m state alloc =>
    obtain ⟨rfl, herror, hsending⟩ := hadds
    have hs : (s.callState m state alloc).1 = s' := congrArg Prod.fst (Except.ok.inj h)
    rw [← hs]
    unfold CallTest.callState
    simp only [herror, hsending, Bool.false_eq_true, if_false, if_true]
    exact ⟨_, mem_addEntry.mpr (.inr ⟨hnew, rfl⟩), rfl⟩
  | _ => exact hadds.elim

/-- A tester whose recording time is over is at `SAVING` after the tick, with its record. -/
theorem exists_saving {s s' : CallTest} {tp : Timespec} {replies : UInt32 → Reply} {notes : List Note}
    (ho : s.Ordered) (h : callEvent s (.calltestIterate tp replies) = .ok (s', notes)) {ct : CallTester}
    (hct : ct ∈ s.calltesters) (hstep : ct.step = .recording)
    (htimeout : nanosecTimeout ct.callstart tp CALL_TEST_DURATION_NS = .ok true) :
    { ct with step := .saving } ∈ s'.calltesters := by
  obtain ⟨shots, hall, hlist, -⟩ := callEvent_tick ho h
  obtain ⟨shot, hshot, halone⟩ := exists_of_mem_right hall.flip ct hct
  have hshot' : shot.1 = some { ct with step := .saving } := by
    unfold calltestIterateOneShot at halone
    simp only [hstep, htimeout, ok_bind, if_true, pure_eq_ok, Except.ok.injEq] at halone
    rw [← halone]
    rfl
  rw [hlist]
  exact List.mem_filterMap.mpr ⟨shot, hshot, hshot'⟩

theorem ready_iff {s s' : Hearing} {e : CallEvent} (h : hearingStep s e = some s') (hs : s.Sounding) :
    Ready s' ↔ Provided s e := by
  obtain ⟨test, notes, hevent, rfl⟩ := hearingStep_eq_some.mp h
  have hgreeter := callEvent_greeter hs.ordered hevent
  constructor
  · intro hready
    refine ⟨fun n hadds hnew => ?_, ?_⟩
    · obtain ⟨ct, hct, hstep⟩ := exists_new hevent hadds hnew
      exact hgreeter ▸ hready.greeter ct hct (.inl hstep)
    · rintro tp replies rfl ct hct hstep htimeout
      have hmem := exists_saving hs.ordered hevent hct hstep htimeout
      obtain ⟨⟨f, hf, -, hsamplerate⟩, hrate⟩ := hready.record _ hmem (.inl rfl)
      have hheard : (s.heardAfter (.calltestIterate tp replies) ct.addr).getLast? = some f := hf
      rw [heardAfter_of_none rfl] at hheard
      exact ⟨f, hheard, hsamplerate ▸ hrate⟩
  · intro hprovided
    have hsounding : Hearing.Sounding ⟨test, s.heardAfter e⟩ :=
      ⟨fresh_hearingStep h hs.toFresh, fun c hc =>
        hgreeter ▸ hs.origin (origin_callEvent hs.ordered hevent c hc) hprovided⟩
    exact hsounding.ready

/-- **No playback or save of an unset record**, in every state of a run and whatever the next tick is, if
and only if a greeter was loaded for those who call, and no tester leaves `RECORDING` before it has heard
a frame. -/
theorem plays_set_records_iff (greeter : Option Record) (outbox : Outbox) (nextAddr : ℕ) (es : List CallEvent) :
    Always hearingStep Ready (.start greeter outbox nextAddr) es ↔
      Along hearingStep Provided (.start greeter outbox nextAddr) es := by
  have hstart : (Hearing.start greeter outbox nextAddr).Sounding :=
    ⟨fresh_start .., by simp [Hearing.start, CallTest.init]⟩
  refine always_iff_along_of_inv (I := Hearing.Sounding) (fun s hs => hs.ready) ?_ ?_ hstart
  · exact fun s e s' hstep hs => ready_iff hstep hs
  · intro s e s' hstep hs hprovided
    obtain ⟨test, notes, hevent, rfl⟩ := hearingStep_eq_some.mp hstep
    refine ⟨fresh_hearingStep hstep hs.toFresh, fun c hc => ?_⟩
    exact callEvent_greeter hs.ordered hevent ▸ hs.origin (origin_callEvent hs.ordered hevent c hc) hprovided

/-- Without a greeter there is nothing to greet with; and a friend who is muted for ten seconds leaves
nothing to save. -/
theorem muted_friend_saved_unset :
    ¬ Always hearingStep Ready (.start none ⟨[], [], []⟩ 0) [.call 0 true false true someAlloc] ∧
      ¬ Always hearingStep Ready (.start (some shortGreeter) ⟨[], [], []⟩ 0)
        (toRecording ++ [.calltestIterate ⟨11, 0⟩ fun _ => someReply]) := by
  constructor
  · intro h
    obtain ⟨rec, hrec, -⟩ := (h.2 _ rfl).head.greeter _ List.mem_cons_self (.inl rfl)
    cases hrec
  · intro h
    have hready := (((h.2 _ rfl).2 _ rfl).2 _ rfl).head
    obtain ⟨⟨f, hf, -⟩, -⟩ := hready.record _ List.mem_cons_self (.inl rfl)
    cases hf

end ToxSuite.Call
