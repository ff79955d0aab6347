import ToxSuite.Lib.Histories
import ToxSuite.Call.Run

/-!
# A tester's acts, in order and once each

What a tester has done up to a step is given by a grammar (`Upto`): it mutes the
friend, greets, unmutes, mutes again when the recording time is over, writes the
recording, queues it, plays it back; at any point the call may be finished, and all
that follows is the `CANCEL` with which the tester is destroyed. A turn of the tester
follows the grammar (`Shot.upto`), so its whole life does. From the grammar it can be
read off what happens at most once and what comes before what (`Upto.inOrder`).
-/

namespace ToxSuite.Call

open ToxSuite.Lib ToxSuite.File ToxSuite.Suit

/-! ### Deeds -/

/-- `audio_write`. -/
def Deed.isWrite (d : Deed) : Bool := match d.act with | .audioWrite .. => true | _ => false

/-- `add_filesender`. -/
def Deed.isQueue (d : Deed) : Bool := match d.act with | .addFilesender _ => true | _ => false

/-- `toxav_audio_send_frame`. -/
def Deed.isFrame (d : Deed) : Bool := match d.act with | .sendFrame _ => true | _ => false

/-- `toxav_call_control` with `TOXAV_CALL_CONTROL_CANCEL`. -/
def Deed.isCancel (d : Deed) : Bool := d.act = .control .cancel

/-- A frame of the recording, played back. -/
def Deed.isEcho (d : Deed) : Bool := d.step = .echoing && d.isFrame

/-- The friend was unmuted, and muted again in a tick in which the recording time was over. -/
def TimedOut (h : List Deed) : Prop :=
  ∃ u ∈ h, ∃ m ∈ h, u.act = .control .unmuteAudio ∧ m.step = .recording ∧ m.act = .control .muteAudio ∧
    nanosecTimeout u.tp m.tp CALL_TEST_DURATION_NS = .ok true

/-- The place of a deed in a test. -/
def Deed.place (d : Deed) : ℕ :=
  match d.step with
  | .entering => 0
  | .greeter => if d.isFrame then 1 else 2
  | .recording => 3
  | .saving => 4
  | .sending => 5
  | .echoing => 6
  | .bye => 7

/-- The order of the deeds of a test; only frames are repeated. -/
def Deed.before (d e : Deed) : Prop := d.place < e.place ∨ d.place = e.place ∧ d.isFrame ∧ e.isFrame

/-- Each act at most once, and in order. -/
structure InOrder (h : List Deed) : Prop where
  ordered : h.Pairwise Deed.before
  write_once : h.countP Deed.isWrite ≤ 1
  write_after : Precedes (·.isWrite) TimedOut h
  queue_once : h.countP Deed.isQueue ≤ 1
  queue_after : Precedes (·.isQueue) (∃ w ∈ ·, w.isWrite) h
  echo_after : Precedes (·.isEcho) (∃ q ∈ ·, q.isQueue) h

/-! ### The grammar of a test -/

/-- What a tester at a step, which has done `h`, may do next, and where this brings it; `none`: it
is destroyed. -/
inductive Next (h : List Deed) (d : Deed) : CallStep → Option CallStep → Prop
  | muted (hact : d.act = .control .muteAudio) : Next h d .entering (some .greeter)
  | greet (hframe : d.isFrame) : Next h d .greeter (some .greeter)
  | unmuted (hact : d.act = .control .unmuteAudio) : Next h d .greeter (some .recording)
  | timedOut {u : Deed} (hu : u ∈ h) (hunmute : u.act = .control .unmuteAudio)
      (hact : d.act = .control .muteAudio)
      (htimeout : nanosecTimeout u.tp d.tp CALL_TEST_DURATION_NS = .ok true) :
      Next h d .recording (some .saving)
  | wrote (hwrite : d.isWrite) : Next h d .saving (some .sending)
  | queued (hqueue : d.isQueue) : Next h d .sending (some .echoing)
  | echo (hframe : d.isFrame) : Next h d .echoing (some .echoing)
  | cancelled (hcancel : d.isCancel) : Next h d .bye none

/-- What a tester has done when it is at a step; `none`: when it is destroyed. -/
inductive Upto : Option CallStep → List Deed → Prop
  | entering : Upto (some .entering) []
  | deed {h : List Deed} {d : Deed} {step : CallStep} {step' : Option CallStep} (hh : Upto (some step) h)
      (hstep : d.step = step) (hnext : Next h d step step') : Upto step' (h ++ [d])
  /-- The recording has been played, or the call is finished. -/
  | bye {h : List Deed} {step : CallStep} (hh : Upto (some step) h) : Upto (some .bye) h

/-- The first place in a test that is still to come; frames may come again. -/
def nextPlace : Option CallStep → ℕ
  | some .entering => 0
  | some .greeter => 1
  | some .recording => 3
  | some .saving => 4
  | some .sending => 5
  | some .echoing => 6
  | some .bye => 7
  | none => 8

variable {h : List Deed} {step : Option CallStep}

/-- The steps in which a deed may be repeated. -/
def Repeats (step : Option CallStep) : Prop := step = some .greeter ∨ step = some .echoing

theorem nextPlace_le_bye (step : CallStep) : nextPlace (some step) ≤ nextPlace (some .bye) := by
  cases step <;> decide

/-- A deed brings the tester on, or is one that may be repeated. -/
theorem Next.advances {d : Deed} {step : CallStep} {step' : Option CallStep} (hn : Next h d step step') :
    nextPlace (some step) < nextPlace step' ∨ step' = some step ∧ Repeats step' := by
  cases hn <;> simp [nextPlace, Repeats]

/-- The place of the deed is that of the step, or the second of `GREETER`. -/
theorem Next.place {d : Deed} {step : CallStep} {step' : Option CallStep} (hstep : d.step = step)
    (hn : Next h d step step') :
    nextPlace (some step) ≤ d.place ∧ (Repeats (some step) → d.isFrame ∨ nextPlace (some step) < d.place) ∧
      (d.place < nextPlace step' ∨ d.place = nextPlace step' ∧ d.isFrame ∧ Repeats step') := by
  cases hn with
  | greet hframe => simp [Deed.place, hstep, hframe, nextPlace, Repeats]
  | unmuted hact => simp [Deed.place, hstep, Deed.isFrame, hact, nextPlace]
  | echo hframe => simp [Deed.place, hstep, hframe, nextPlace, Repeats]
  | _ => simp [Deed.place, hstep, nextPlace, Repeats]

/-- What a tester has done comes before what it will do, frames apart. -/
theorem Upto.place (hh : Upto step h) : ∀ e ∈ h, e.place < nextPlace step ∨
    e.place = nextPlace step ∧ e.isFrame ∧ Repeats step := by
  induction hh with
  | entering => simp
  | @deed h d step step' hh hstep hnext ih =>
    intro e he
    rcases List.mem_append.mp he with he | he
    · rcases hnext.advances with hlt | ⟨rfl, -⟩
      · rcases ih e he with hpast | ⟨hpast, -, -⟩ <;> exact .inl (by omega)
      · exact ih e he
    · obtain rfl := List.mem_singleton.mp he
      exact (hnext.place hstep).2.2
  | @bye h step hh ih =>
    intro e he
    rcases ih e he with hpast | ⟨hpast, -, hrepeats⟩
    · exact .inl (hpast.trans_le (nextPlace_le_bye step))
    · left
      rcases hrepeats with hstep | hstep <;>
      · rw [hpast, hstep]
        decide

/-- The deeds are in order. -/
theorem Upto.pairwise (hh : Upto step h) : h.Pairwise Deed.before := by
  induction hh with
  | entering => exact .nil
  | @deed h d step step' hh hstep hnext ih =>
    refine List.pairwise_append.mpr ⟨ih, List.pairwise_singleton _ _, fun e he d' hd' => ?_⟩
    obtain rfl := List.mem_singleton.mp hd'
    obtain ⟨hle, hagain, -⟩ := hnext.place hstep
    rcases hh.place e he with hpast | ⟨hpast, hframe, hrepeats⟩
    · exact .inl (hpast.trans_le hle)
    · rcases hagain hrepeats with hframe' | hlt
      · rcases hle.eq_or_lt with heq | hlt
        · exact .inr ⟨hpast.trans heq, hframe, hframe'⟩
        · exact .inl (hpast.trans_lt hlt)
      · exact .inl (hpast.trans_lt hlt)
  | bye hh ih => exact ih

/-! ### What comes before what -/

theorem Upto.timedOut (hh : Upto (some .saving) h) : TimedOut h := by
  cases hh with
  | deed hh hstep hnext =>
    cases hnext with
    | @timedOut u hu hunmute hact htimeout =>
      exact ⟨u, by simp [hu], _, by simp, hunmute, hstep, hact, htimeout⟩

theorem Upto.written (hh : Upto (some .sending) h) : ∃ w ∈ h, w.isWrite := by
  cases hh with
  | deed hh hstep hnext =>
    cases hnext with
    | wrote hwrite => exact ⟨_, by simp, hwrite⟩

theorem Upto.queued (hh : Upto step h) (hstep : step = some .echoing) : ∃ q ∈ h, q.isQueue := by
  induction hh with
  | entering => cases hstep
  | deed hh hd hnext ih =>
    cases hstep
    cases hnext with
    | queued hqueue => exact ⟨_, by simp, hqueue⟩
    | echo hframe =>
      obtain ⟨q, hq, hqueue⟩ := ih rfl
      exact ⟨q, by simp [hq], hqueue⟩
  | bye hh ih => cases hstep

/-- Each kind of deed belongs to one step. -/
theorem Next.kind {d : Deed} {step : CallStep} {step' : Option CallStep} (hn : Next h d step step') :
    (d.isWrite → step = .saving) ∧ (d.isQueue → step = .sending) ∧ (d.isCancel → step = .bye) := by
  rcases d with ⟨addr, n, at', tp, act⟩
  cases hn <;> cases act <;> simp_all [Deed.isWrite, Deed.isQueue, Deed.isCancel, Deed.isFrame]

/-- What each deed with `P` finds done, comes before it. -/
theorem Upto.precedes {P : Deed → Prop} {Q : List Deed → Prop} (hh : Upto step h)
    (hfinds : ∀ h d step step', Upto (some step) h → d.step = step → Next h d step step' → P d → Q h) :
    Precedes P Q h := by
  induction hh with
  | entering => exact precedes_nil
  | deed hh hstep hnext ih => exact ih.concat (hfinds _ _ _ _ hh hstep hnext)
  | bye hh ih => exact ih

theorem Upto.write_after (hh : Upto step h) : Precedes (·.isWrite) TimedOut h := by
  refine hh.precedes fun h d step step' hh hstep hnext hwrite => ?_
  obtain rfl := hnext.kind.1 hwrite
  exact hh.timedOut

theorem Upto.queue_after (hh : Upto step h) : Precedes (·.isQueue) (∃ w ∈ ·, w.isWrite) h := by
  refine hh.precedes fun h d step step' hh hstep hnext hqueue => ?_
  obtain rfl := hnext.kind.2.1 hqueue
  exact hh.written

theorem Upto.echo_after (hh : Upto step h) : Precedes (·.isEcho) (∃ q ∈ ·, q.isQueue) h := by
  refine hh.precedes fun h d step step' hh hstep hnext hecho => ?_
  have hechoing : d.step = .echoing := by simpa using (Bool.and_eq_true_iff.mp hecho).1
  exact hh.queued (congrArg some (hstep.symm.trans hechoing))

/-- Each kind of deed is done in its step. -/
theorem Upto.kind (hh : Upto step h) : ∀ d ∈ h,
    (d.isWrite → d.step = .saving) ∧ (d.isQueue → d.step = .sending) ∧ (d.isCancel → d.step = .bye) := by
  induction hh with
  | entering => simp
  | deed hh hstep hnext ih =>
    intro d hd
    rcases List.mem_append.mp hd with hd | hd
    · exact ih d hd
    · obtain rfl := List.mem_singleton.mp hd
      exact hstep ▸ hnext.kind
  | bye hh ih => exact ih

/-- Two deeds at one place are both frames, or out of order. -/
theorem not_before {d e : Deed} (hplace : d.place = e.place) (hd : d.isFrame = false) : ¬ d.before e := by
  rintro (hlt | ⟨-, hframe, -⟩)
  · exact hlt.ne hplace
  · simp [hd] at hframe

theorem Deed.isFrame_of_isWrite {d : Deed} (hd : d.isWrite) : d.isFrame = false := by
  unfold Deed.isWrite at hd
  unfold Deed.isFrame
  split <;> simp_all

theorem Deed.isFrame_of_isQueue {d : Deed} (hd : d.isQueue) : d.isFrame = false := by
  unfold Deed.isQueue at hd
  unfold Deed.isFrame
  split <;> simp_all

/-- **The grammar keeps the order**. -/
theorem Upto.inOrder (hh : Upto step h) : InOrder h where
  ordered := hh.pairwise
  write_once := countP_le_one hh.pairwise fun a ha b hb hwa hwb => by
    refine not_before ?_ (Deed.isFrame_of_isWrite hwa)
    simp only [Deed.place, (hh.kind a ha).1 hwa, (hh.kind b hb).1 hwb]
  write_after := hh.write_after
  queue_once := countP_le_one hh.pairwise fun a ha b hb hqa hqb => by
    refine not_before ?_ (Deed.isFrame_of_isQueue hqa)
    simp only [Deed.place, (hh.kind a ha).2.1 hqa, (hh.kind b hb).2.1 hqb]
  queue_after := hh.queue_after
  echo_after := hh.echo_after

/-- A tester that is on the list has not cancelled. -/
theorem Upto.cancel_zero (hh : Upto step h) (hstep : step ≠ none) : h.countP Deed.isCancel = 0 := by
  induction hh with
  | entering => rfl
  | deed hh hd hnext ih =>
    rw [List.countP_append, ih (by simp), List.countP_singleton, if_neg]
    intro hcancel
    obtain rfl := hnext.kind.2.2 hcancel
    cases hnext
    exact hstep rfl
  | bye hh ih => exact ih (by simp)

/-- A tester that is destroyed has cancelled once, as its last deed. -/
theorem Upto.cancel_one (hh : Upto none h) : h.countP Deed.isCancel = 1 := by
  cases hh with
  | deed hh hd hnext =>
    cases hnext with
    | cancelled hcancel =>
      rw [List.countP_append, hh.cancel_zero (by simp), List.countP_singleton, if_pos hcancel]

/-! ### A tester follows the grammar -/

/-- A tester in `RECORDING` has its start from the tick in which it unmuted the friend. -/
def Started (ct : CallTester) (h : List Deed) : Prop :=
  ct.step = .recording → ∃ u ∈ h, u.act = .control .unmuteAudio ∧ u.tp = ct.callstart

/-- Any number of frames, played in a step in which a frame may come. -/
theorem Upto.frames {ct : CallTester} {tp : Timespec} {h : List Deed} (hh : Upto (some ct.step) h)
    (hstep : ct.step = .greeter ∨ ct.step = .echoing) (frames : List Frame) :
    Upto (some ct.step) (h ++ frames.map fun f => ct.does tp (.sendFrame f)) := by
  induction frames generalizing h with
  | nil => simpa using hh
  | cons f frames ih =>
    rw [List.map_cons, ← List.singleton_append, ← List.append_assoc]
    refine ih (.deed hh rfl ?_)
    rcases hstep with hstep | hstep <;> rw [hstep]
    · exact .greet rfl
    · exact .echo rfl

/-- **A tick follows the grammar**. -/
theorem Shot.upto {tp : Timespec} {ct : CallTester} {tester : Option CallTester} {deeds : List Deed}
    (hshot : Shot tp ct tester deeds) {h : List Deed} (hh : Upto (some ct.step) h) (hstarted : Started ct h) :
    Upto (tester.map CallTester.step) (h ++ deeds) ∧ ∀ ct', tester = some ct' → Started ct' (h ++ deeds) := by
  induction hshot generalizing h with
  | @enter ct tester deeds hstep hshot ih =>
    rw [hstep] at hh
    have hmuted : Upto (some .greeter) (h ++ [ct.does tp (.control .muteAudio)]) := .deed hh hstep (.muted rfl)
    rw [← List.singleton_append, ← List.append_assoc]
    exact ih hmuted fun hrecording => by cases hrecording
  | @greet ct samplesSend delay frames hstep =>
    refine ⟨hh.frames (.inl hstep) frames, ?_⟩
    rintro _ ⟨⟩ hrecording
    cases hstep.symm.trans hrecording
  | @greeted ct samplesSend delay frames hstep =>
    have hplayed : Upto (some ct.step) (h ++ frames.map fun f => ct.does tp (.sendFrame f)) :=
      hh.frames (.inl hstep) frames
    rw [hstep] at hplayed
    rw [← List.append_assoc]
    refine ⟨.deed hplayed hstep (.unmuted rfl), ?_⟩
    rintro _ ⟨⟩ -
    exact ⟨ct.does tp (.control .unmuteAudio), by simp, rfl, rfl⟩
  | @record ct hstep =>
    rw [List.append_nil]
    refine ⟨hh, ?_⟩
    rintro _ ⟨⟩
    exact hstarted
  | @recorded ct hstep htimeout =>
    obtain ⟨u, hu, hunmute, htp⟩ := hstarted hstep
    rw [hstep] at hh
    refine ⟨.deed hh hstep (.timedOut hu hunmute rfl (htp ▸ htimeout)), ?_⟩
    rintro _ ⟨⟩ ⟨⟩
  | @save ct hstep =>
    rw [hstep] at hh
    refine ⟨.deed hh hstep (.wrote rfl), ?_⟩
    rintro _ ⟨⟩ ⟨⟩
  | @send ct hstep =>
    rw [hstep] at hh
    refine ⟨.deed hh hstep (.queued rfl), ?_⟩
    rintro _ ⟨⟩ ⟨⟩
  | @echo ct samplesSend delay frames hstep =>
    refine ⟨hh.frames (.inr hstep) frames, ?_⟩
    rintro _ ⟨⟩ hrecording
    cases hstep.symm.trans hrecording
  | @echoed ct samplesSend delay frames hstep =>
    refine ⟨.bye (hh.frames (.inr hstep) frames), ?_⟩
    rintro _ ⟨⟩ ⟨⟩
  | @leave ct hstep =>
    rw [hstep] at hh
    refine ⟨.deed hh hstep (.cancelled rfl), ?_⟩
    rintro _ ⟨⟩

/-- Every turn follows the grammar. -/
theorem Turn.upto {ct : CallTester} {tester : Option CallTester} {deeds : List Deed}
    (hturn : Turn ct tester deeds) {h : List Deed} (hh : Upto (some ct.step) h) (hstarted : Started ct h) :
    Upto (tester.map CallTester.step) (h ++ deeds) ∧ ∀ ct', tester = some ct' → Started ct' (h ++ deeds) := by
  cases hturn with
  | same | receive hstep =>
    rw [List.append_nil]
    refine ⟨hh, ?_⟩
    rintro _ ⟨⟩
    exact hstarted
  | finish =>
    rw [List.append_nil]
    refine ⟨.bye hh, ?_⟩
    rintro _ ⟨⟩ ⟨⟩
  | tick hshot => exact hshot.upto hh hstarted

/-! ### Whole lives -/

/-- What the tester at an address has done so far. -/
def CallRun.history (s : CallRun) (addr : ℕ) : List Deed := deedsOf addr (deedsIn s.notes)

/-- The tester at an address is on the list. -/
def CallRun.Listed (s : CallRun) (addr : ℕ) : Prop := ∃ ct ∈ s.test.calltesters, ct.addr = addr

/-- The history agrees with the testers. -/
structure Recorded (s : CallRun) : Prop where
  ordered : s.test.Ordered
  upto : ∀ ct ∈ s.test.calltesters, Upto (some ct.step) (s.history ct.addr) ∧ Started ct (s.history ct.addr)
  added : ∀ ct ∈ s.test.calltesters, ct.addr ∈ addedIn s.notes
  gone : ∀ addr ∈ addedIn s.notes, ¬ s.Listed addr → Upto none (s.history addr)
  unused : ∀ addr, addr ∉ addedIn s.notes → s.history addr = []
  fresh : ∀ addr ∈ addedIn s.notes, addr < s.test.nextAddr

theorem recorded_start (greeter : Option Record) (outbox : Outbox) (nextAddr : ℕ) :
    Recorded (.start greeter outbox nextAddr) :=
  ⟨ordered_start .., by simp [CallRun.start, CallTest.init], by simp [CallRun.start, CallTest.init],
    by simp [CallRun.start, addedIn], fun _ _ => rfl, by simp [CallRun.start, addedIn]⟩

/-- What a step does to the testers, and what is noted of it. -/
theorem callStep_does {s s' : CallRun} {e : CallEvent} (hstep : callStep s e = some s')
    (ho : s.test.Ordered) : ∃ notes, callEvent s.test e = .ok (s'.test, notes) ∧ s.test.Does e s'.test notes ∧
      s'.notes = s.notes ++ notes := by
  obtain ⟨test, notes, hevent, rfl⟩ := callStep_eq_some.mp hstep
  exact ⟨notes, hevent, does_callEvent ho hevent, rfl⟩

section Step

variable {s s' : CallRun} {notes : List Note}

theorem CallRun.history_eq (hnotes : s'.notes = s.notes ++ notes) (addr : ℕ) :
    s'.history addr = s.history addr ++ deedsOf addr (deedsIn notes) := by
  simp only [CallRun.history, hnotes, deedsIn_append, deedsOf_append]

/-- After turns the history still agrees. -/
theorem Recorded.turns {shots : List (Option CallTester × List Deed)} (hr : Recorded s)
    (hnotes : s'.notes = s.notes ++ notes) (hordered : s'.test.Ordered)
    (hall : Turns s.test.calltesters shots) (hlist : s'.test.calltesters = shots.filterMap Prod.fst)
    (hdeeds : deedsIn notes = shots.flatMap Prod.snd) (hadded : addedIn notes = [])
    (hnext : s.test.nextAddr ≤ s'.test.nextAddr) : Recorded s' := by
  have hhistory := s.history_eq hnotes
  have hadded' : addedIn s'.notes = addedIn s.notes := by simp [hnotes, hadded]
  refine ⟨hordered, fun c hc => ?_, fun c hc => ?_, fun addr haddr hnot => ?_, fun addr haddr => ?_,
    fun addr haddr => ?_⟩
  · -- a tester that stays has had its turn
    rw [hlist] at hc
    obtain ⟨ct, hct, haddr⟩ := hall.origin c hc
    obtain ⟨tester, hturn, hmem, -⟩ := hall.turn hr.ordered.addrs ct hct
    obtain rfl := (hmem c haddr).mp hc
    have hgrammar := hturn.upto (hr.upto ct hct).1 (hr.upto ct hct).2
    rw [hhistory, hdeeds, haddr]
    exact ⟨hgrammar.1, hgrammar.2 c rfl⟩
  · rw [hlist] at hc
    obtain ⟨ct, hct, haddr⟩ := hall.origin c hc
    rw [hadded', haddr]
    exact hr.added ct hct
  · rw [hadded'] at haddr
    rw [hhistory, hdeeds]
    by_cases hlisted : s.Listed addr
    · -- it goes in this step
      obtain ⟨ct, hct, rfl⟩ := hlisted
      obtain ⟨tester, hturn, hmem, -⟩ := hall.turn hr.ordered.addrs ct hct
      cases tester with
      | none => exact (hturn.upto (hr.upto ct hct).1 (hr.upto ct hct).2).1
      | some c =>
        have hsame := hturn.same_tester.1
        exact absurd ⟨c, hlist ▸ (hmem c hsame).mpr rfl, hsame⟩ hnot
    · rw [hall.deedsOf_eq_nil fun ct hct heq => hlisted ⟨ct, hct, heq⟩, List.append_nil]
      exact hr.gone addr haddr hlisted
  · rw [hadded'] at haddr
    rw [hhistory, hdeeds, hall.deedsOf_eq_nil, List.append_nil, hr.unused addr haddr]
    rintro ct hct rfl
    exact haddr (hr.added ct hct)
  · rw [hadded'] at haddr
    exact (hr.fresh addr haddr).trans_le hnext

/-- After a new tester the history still agrees. -/
theorem Recorded.adds {n : UInt32} {alloc : Alloc} (hr : Recorded s)
    (hnotes : s'.notes = s.notes ++ notes) (hordered : s'.test.Ordered)
    (hlist : s'.test.calltesters = insertTester (.new s.test.nextAddr n alloc) s.test.calltesters)
    (hnext : s'.test.nextAddr = s.test.nextAddr + 1) (hdeeds : deedsIn notes = [])
    (hadded : addedIn notes = [s.test.nextAddr]) : Recorded s' := by
  have hhistory : ∀ addr, s'.history addr = s.history addr := fun addr => by
    rw [s.history_eq hnotes, hdeeds]
    exact List.append_nil _
  have hadded' : ∀ addr, addr ∈ addedIn s'.notes ↔ addr ∈ addedIn s.notes ∨ addr = s.test.nextAddr :=
    fun addr => by simp [hnotes, hadded]
  have hmem : ∀ c, c ∈ s'.test.calltesters ↔
      c = .new s.test.nextAddr n alloc ∨ c ∈ s.test.calltesters := fun c => by rw [hlist, mem_insertTester]
  refine ⟨hordered, fun c hc => ?_, fun c hc => ?_, fun addr haddr hnot => ?_, fun addr haddr => ?_,
    fun addr haddr => ?_⟩
  · rw [hhistory]
    rcases (hmem c).mp hc with rfl | hc
    · rw [hr.unused (CallTester.new s.test.nextAddr n alloc).addr fun hadd => (hr.fresh _ hadd).false]
      exact ⟨.entering, fun hrecording => by cases hrecording⟩
    · exact hr.upto c hc
  · rcases (hmem c).mp hc with rfl | hc
    · exact (hadded' _).mpr (.inr rfl)
    · exact (hadded' _).mpr (.inl (hr.added c hc))
  · rw [hhistory]
    rcases (hadded' addr).mp haddr with haddr | rfl
    · exact hr.gone addr haddr fun ⟨ct, hct, heq⟩ => hnot ⟨ct, (hmem ct).mpr (.inr hct), heq⟩
    · exact absurd ⟨_, (hmem _).mpr (.inl rfl), rfl⟩ hnot
  · rw [hhistory]
    exact hr.unused addr fun hadd => haddr ((hadded' addr).mpr (.inl hadd))
  · rw [hnext]
    rcases (hadded' addr).mp haddr with haddr | rfl
    · exact (hr.fresh addr haddr).trans (Nat.lt_succ_self _)
    · exact Nat.lt_succ_self _

end Step

/-- **A step keeps the history in agreement with the testers**. -/
theorem recorded_callStep {s s' : CallRun} {e : CallEvent} (hstep : callStep s e = some s')
    (hr : Recorded s) : Recorded s' := by
  obtain ⟨notes, -, hdoes, hnotes⟩ := callStep_does hstep hr.ordered
  have hordered := ordered_callStep hstep hr.ordered
  generalize hs : s'.test = test at hdoes
  cases hdoes with
  | turns hall hlist hdeeds hadded hgone hnext =>
    exact hr.turns hnotes hordered hall (hs ▸ hlist) hdeeds hadded (hs ▸ hnext)
  | adds hnew hdeeds hadded => exact hr.adds hnotes hordered (by rw [hs]) (by rw [hs]) hdeeds hadded

/-! ### The acts of every tester -/

/-- `SAVING` has been reached. -/
def CallStep.saved : CallStep → Bool
  | .entering => false
  | .greeter => false
  | .recording => false
  | .saving => true
  | .sending => true
  | .echoing => true
  | .bye => true

/-- A tester stays in a step, in which it does not cancel; once `SAVING` has been reached its
record is not modified. -/
def Stays (s s' : CallRun) (ct : CallTester) : Prop :=
  ∃ ct' ∈ s'.test.calltesters, ct'.addr = ct.addr ∧ ct'.friendNumber = ct.friendNumber ∧
    (ct.step.saved → ct'.step.saved ∧ ct'.ctrecord = ct.ctrecord) ∧
    ∃ deeds, s'.history ct.addr = s.history ct.addr ++ deeds ∧ ∀ d ∈ deeds, ¬ d.isCancel

/-- A tester goes in a tick, from `BYE`, and what it does in it is to cancel the call. -/
def Goes (s s' : CallRun) (e : CallEvent) (ct : CallTester) : Prop :=
  ¬ s'.Listed ct.addr ∧ ct.step = .bye ∧ (∃ tp replies, e = .calltestIterate tp replies) ∧
    ∃ d, s'.history ct.addr = s.history ct.addr ++ [d] ∧ d.isCancel

/-- A step takes each tester on alone: it stays or goes, and a tick does to it what it does to a
tester with no others. -/
structure OneByOne (s s' : CallRun) (e : CallEvent) : Prop where
  turns : ∀ ct ∈ s.test.calltesters, Stays s s' ct ∨ Goes s s' e ct
  alone : ∀ tp replies, e = .calltestIterate tp replies → ∃ shots,
    List.Forall₂ (Alone s.test.greeter tp replies) s.test.calltesters shots ∧
      s'.test.calltesters = shots.filterMap Prod.fst ∧
      s'.notes = s.notes ++ (shots.flatMap Prod.snd).map Note.deed

/-- The acts of the tester at an address: in order and once each, and `CANCEL` once if and only if
it has been destroyed. -/
structure Performed (s : CallRun) (addr : ℕ) : Prop where
  inOrder : InOrder (s.history addr)
  listed : s.Listed addr → (s.history addr).countP Deed.isCancel = 0
  destroyed : ¬ s.Listed addr → (s.history addr).countP Deed.isCancel = 1

theorem Recorded.performed {s : CallRun} (hr : Recorded s) {addr : ℕ} (haddr : addr ∈ addedIn s.notes) :
    Performed s addr := by
  by_cases hlisted : s.Listed addr
  · obtain ⟨ct, hct, rfl⟩ := id hlisted
    have hupto := (hr.upto ct hct).1
    exact ⟨hupto.inOrder, fun _ => hupto.cancel_zero (by simp), fun hnot => absurd hlisted hnot⟩
  · have hupto := hr.gone addr haddr hlisted
    exact ⟨hupto.inOrder, fun h => absurd h hlisted, fun _ => hupto.cancel_one⟩

theorem Shot.saved {tp : Timespec} {ct ct' : CallTester} {deeds : List Deed}
    (h : Shot tp ct (some ct') deeds) (hsaved : ct.step.saved) : ct'.step.saved := by
  cases h with
  | enter hstep h => simp [hstep, CallStep.saved] at hsaved
  | greeted hstep => simp [hstep, CallStep.saved] at hsaved
  | recorded hstep htimeout => rfl
  | save hstep => rfl
  | send hstep => rfl
  | echoed hstep => rfl
  | _ => exact hsaved

theorem Turn.saved {ct ct' : CallTester} {deeds : List Deed} (h : Turn ct (some ct') deeds)
    (hsaved : ct.step.saved) : ct'.step.saved ∧ ct'.ctrecord = ct.ctrecord := by
  cases h with
  | same => exact ⟨hsaved, rfl⟩
  | finish => exact ⟨rfl, rfl⟩
  | receive hstep => simp [hstep, CallStep.saved] at hsaved
  | tick h => exact ⟨h.saved hsaved, h.same.2.2⟩

theorem Turn.gone {ct : CallTester} {deeds : List Deed} (h : Turn ct none deeds) :
    ct.step = .bye ∧ ∃ d, deeds = [d] ∧ d.isCancel := by
  cases h with
  | tick h =>
    have hbye := h.gone_iff.mp rfl
    refine ⟨hbye, ?_⟩
    cases h with
    | enter hstep h => cases hstep.symm.trans hbye
    | leave hstep => exact ⟨_, rfl, rfl⟩

/-- **A step takes each tester on alone**. -/
theorem Recorded.oneByOne {s s' : CallRun} {e : CallEvent} (hr : Recorded s) (hstep : callStep s e = some s') :
    OneByOne s s' e := by
  obtain ⟨notes, hevent, hdoes, hnotes⟩ := callStep_does hstep hr.ordered
  refine ⟨fun ct hct => ?_, ?_⟩
  · have hhistory := s.history_eq hnotes ct.addr
    generalize hs : s'.test = test at hdoes
    cases hdoes with
    | turns hall hlist hdeeds hadded hgone hnext =>
      obtain ⟨tester, hturn, hmem, htester⟩ := hall.turn hr.ordered.addrs ct hct
      rw [hdeeds] at hhistory
      cases tester with
      | none =>
        obtain ⟨hbye, d, hd, hcancel⟩ := hturn.gone
        refine .inr ⟨?_, hbye, ?_, d, hd ▸ hhistory, hcancel⟩
        · rintro ⟨c, hc, haddr⟩
          cases (hmem c haddr).mp (hlist ▸ hs ▸ hc)
        · have htick := hgone htester
          cases e with
          | calltestIterate tp replies => exact ⟨tp, replies, rfl⟩
          | _ => cases htick
      | some c =>
        have hsame := hturn.same_tester
        refine .inl ⟨c, hs ▸ hlist ▸ (hmem c hsame.1).mpr rfl, hsame.1, hsame.2, hturn.saved, _, hhistory, ?_⟩
        have hzero := (hturn.upto (hr.upto ct hct).1 (hr.upto ct hct).2).1.cancel_zero (by simp)
        rw [List.countP_append, Nat.add_eq_zero_iff] at hzero
        exact List.countP_eq_zero.mp hzero.2
    | adds hnew hdeeds hadded =>
      rw [hdeeds] at hhistory
      refine .inl ⟨ct, ?_, rfl, rfl, fun h => ⟨h, rfl⟩, _, hhistory, by simp [deedsOf]⟩
      rw [hs]
      exact mem_insertTester.mpr (.inr hct)
  · rintro tp replies rfl
    obtain ⟨shots, hall, hlist, rfl, -⟩ := callEvent_tick hr.ordered hevent
    exact ⟨shots, hall, hlist, hnotes⟩

/-- **A call test performs each of its acts at most once and in order**. -/
theorem acts_once_in_order (greeter : Option Record) (outbox : Outbox) (nextAddr : ℕ) (es : List CallEvent) :
    Always callStep (fun s => ∀ addr ∈ addedIn s.notes, Performed s addr) (.start greeter outbox nextAddr) es ∧
      Along callStep (fun s e => ∀ s', callStep s e = some s' → OneByOne s s' e)
        (.start greeter outbox nextAddr) es := by
  have hall : Along callStep (fun _ _ => True) (.start greeter outbox nextAddr) es :=
    along_of_forall fun _ _ _ => trivial
  have hrecorded : Always callStep Recorded (.start greeter outbox nextAddr) es :=
    always_of_along (fun _ _ _ hstep hr _ => recorded_callStep hstep hr) (recorded_start ..) hall
  refine ⟨hrecorded.mono fun s hr => ?_, ?_⟩
  · exact fun addr haddr => hr.performed haddr
  · exact along_of_along (fun _ _ _ hstep hr _ => recorded_callStep hstep hr)
      (fun _ _ _ _ hr _ _ hstep => hr.oneByOne hstep) (recorded_start ..) hall

end ToxSuite.Call
