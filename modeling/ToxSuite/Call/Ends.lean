import ToxSuite.File.Transfer
import ToxSuite.Call.Run

/-!
# Calls begin and end

A tester goes in the tick after it has come to `BYE`, not when the call ends, and
`call_tester_add_entry` returns the tester it finds as it is. So `call` may find the
tester of the friend's last call, and it puts in a tester even when the call could not
be answered. Every answered call has its own test from the start, and a failed one none,
if and only if `call` never finds a used tester, and never fails for a friend who is not
being tested in a call (`own_test_iff`).

`call_state` sends a tester to `BYE` when it reports `FINISHED`; when it reports an
error it leaves the tester where it is. Nothing is sent into an ended call if every
end is reported in the first way (`silent_of_hangsUp`).
-/

namespace ToxSuite.Call

open ToxSuite.Lib ToxSuite.File ToxSuite.Suit

/-! ### What events do to the testers of one friend -/

/-- The second of two related lists has nothing that is not related to the first. -/
theorem exists_of_mem_right {α β : Type} {R : α → β → Prop} {l : List α} {r : List β}
    (h : List.Forall₂ R l r) : ∀ b ∈ r, ∃ a ∈ l, R a b := by
  induction h with
  | nil => simp
  | @cons a b l r hab h ih =>
    intro b' hb'
    rcases List.mem_cons.mp hb' with rfl | hb'
    · exact ⟨a, List.mem_cons_self, hab⟩
    · obtain ⟨a', ha', hab'⟩ := ih b' hb'
      exact ⟨a', List.mem_cons_of_mem a ha', hab'⟩

theorem mem_addEntry {s : CallTest} {n : UInt32} {alloc : Alloc} {c : CallTester} :
    c ∈ (s.addEntry n alloc).1.calltesters ↔ c ∈ s.calltesters ∨
      (∀ ct ∈ s.calltesters, ct.friendNumber ≠ n) ∧ c = .new s.nextAddr n alloc := by
  unfold CallTest.addEntry
  cases hget : callTesterByFriendNumber s.calltesters n with
  | none =>
    have hnone := callTesterByFriendNumber_eq_none.mp hget
    simp only [mem_insertTester, and_iff_right hnone, or_comm]
  | some ct =>
    obtain ⟨hct, hn⟩ := mem_of_find?_key CallTester.friendNumber hget
    refine ⟨.inl, ?_⟩
    rintro (hmem | ⟨hnone, -⟩)
    · exact hmem
    · exact absurd hn (hnone ct hct)

/-- The testers of a tick, and its deeds. -/
theorem callStep_tick {s s' : CallRun} {tp : Timespec} {replies : UInt32 → Reply} (ho : s.test.Ordered)
    (h : callStep s (.calltestIterate tp replies) = some s') :
    ∃ deeds, s'.notes = s.notes ++ deeds.map Note.deed ∧ s'.phase = deeds.foldl Phase.after s.phase ∧
      s'.underway = deeds.foldl underwayAfter s.underway ∧
      (∀ c ∈ s'.test.calltesters, ∃ ct ∈ s.test.calltesters, ∃ own, Shot tp ct (some c) own ∧ own ⊆ deeds) ∧
      ∀ d ∈ deeds, ∃ ct ∈ s.test.calltesters, ∃ tester own, Shot tp ct tester own ∧ d ∈ own := by
  obtain ⟨test, notes, hevent, rfl⟩ := callStep_eq_some.mp h
  obtain ⟨shots, hall, hlist, rfl, -⟩ := callEvent_tick ho hevent
  refine ⟨_, rfl, by simp [phaseAfter], by simp [underwayAfterEvent], fun c hc => ?_, fun d hd => ?_⟩
  · rw [hlist] at hc
    obtain ⟨shot, hshot, hstays⟩ := List.mem_filterMap.mp hc
    obtain ⟨ct, hct, halone⟩ := exists_of_mem_right hall shot hshot
    refine ⟨ct, hct, shot.2, hstays ▸ shot_of_oneShot halone, fun d hd => ?_⟩
    exact List.mem_flatMap.mpr ⟨shot, hshot, hd⟩
  · obtain ⟨shot, hshot, hd⟩ := List.mem_flatMap.mp hd
    obtain ⟨ct, hct, halone⟩ := exists_of_mem_right hall shot hshot
    exact ⟨ct, hct, shot.1, shot.2, shot_of_oneShot halone, hd⟩

/-- A tester after `call_state`: as before, or new, or sent to `BYE` by an end that comes without
an error and without `SENDING_A`. -/
theorem mem_callState {s : CallTest} {n state : UInt32} {alloc : Alloc} {c : CallTester}
    (hc : c ∈ (s.callState n state alloc).1.calltesters) :
    c ∈ s.calltesters ∨
      (hasBit state STATE_ERROR = false ∧ hasBit state STATE_SENDING_A ∧
        (∀ ct ∈ s.calltesters, ct.friendNumber ≠ n) ∧ c = .new s.nextAddr n alloc) ∨
      hasBit state STATE_FINISHED ∧ c.friendNumber = n ∧ c.step = .bye := by
  rcases callState_cases s n state alloc with ⟨hs, -⟩ | ⟨herror, hsending, _, _, hs⟩ | ⟨hfinished, ct, hget, hs⟩
  · rw [hs] at hc
    exact .inl hc
  · rw [hs] at hc
    rcases mem_addEntry.mp hc with hc | ⟨hnone, rfl⟩
    · exact .inl hc
    · exact .inr (.inl ⟨herror, hsending, hnone, rfl⟩)
  · rw [hs] at hc
    rcases mem_withTester hc with rfl | ⟨hc, -⟩
    · exact .inr (.inr ⟨hfinished, (mem_of_find?_key CallTester.friendNumber hget).2, rfl⟩)
    · exact .inl hc

/-- An end without an error and without `SENDING_A` sends every tester of the friend to `BYE`. -/
theorem callState_finished {s : CallTest} (ho : s.Ordered) {n state : UInt32} {alloc : Alloc} {c : CallTester}
    (herror : hasBit state STATE_ERROR = false) (hsending : hasBit state STATE_SENDING_A = false)
    (hfinished : hasBit state STATE_FINISHED) (hc : c ∈ (s.callState n state alloc).1.calltesters)
    (hn : c.friendNumber = n) : c.step = .bye := by
  rcases callState_cases s n state alloc with ⟨hs, hnone⟩ | ⟨-, hsending', -⟩ | ⟨-, ct, hget, hs⟩
  · rw [hs] at hc
    exact absurd hn (callTesterByFriendNumber_eq_none.mp ((hnone herror).2 hfinished) c hc)
  · exact absurd hsending' (by simp [hsending])
  · rw [hs] at hc
    rcases mem_withTester hc with rfl | ⟨hc, haddr⟩
    · rfl
    · -- the friend has one tester, and `c` is another
      have hfound := (callTesterByFriendNumber_eq_some ho.nodup_friends).mpr ⟨hc, hn⟩
      cases hget.symm.trans hfound
      exact absurd rfl haddr

/-- A tester that receives a frame is not at another step after it. -/
theorem mem_audioReceiveFrame {s s' : CallTest} {n : UInt32} {pcm : List Int16} {count : ℕ} {channels : UInt8}
    {rate : UInt32} (h : s.audioReceiveFrame n pcm count channels rate = .ok s') {c : CallTester}
    (hc : c ∈ s'.calltesters) :
    ∃ ct ∈ s.calltesters, c.friendNumber = ct.friendNumber ∧ c.step = ct.step := by
  rcases audioReceiveFrame_cases h with ⟨rfl, -⟩ | ⟨ct, ctrecord, hget, -, -, rfl⟩
  · exact ⟨c, hc, rfl, rfl⟩
  · rcases mem_withTester hc with rfl | ⟨hc, -⟩
    · exact ⟨ct, (mem_of_find?_key CallTester.friendNumber hget).1, rfl, rfl⟩
    · exact ⟨c, hc, rfl, rfl⟩

/-! ### A test from the start -/

/-- The steps before the recording is queued. -/
def CallStep.early : CallStep → Bool
  | .echoing => false
  | .bye => false
  | _ => true

/-- After a call that was answered the friend's one tester is at the start; after one that failed
there is none, unless it was running in a call; and no tick cancels an answered call that has not
ended and whose test is still under way. -/
def OwnTest (s : CallRun) (e : CallEvent) : Prop := ∀ s', callStep s e = some s' →
  match e with
  | .call n _ _ true _ => ∃ ct ∈ s'.test.calltesters, ct.friendNumber = n ∧ ct.step = .entering ∧
      ∀ c ∈ s'.test.calltesters, c.friendNumber = n → c = ct
  | .call n _ _ false _ => (∃ ct ∈ s'.test.calltesters, ct.friendNumber = n) →
      (∃ ct ∈ s.test.calltesters, ct.friendNumber = n) ∧ s.phase n = .active
  | .calltestIterate .. => ∀ notes, s'.notes = s.notes ++ notes → ∀ d ∈ deedsIn notes,
      d.act = .control .cancel → s.underway d.friendNumber = false
  | _ => True

/-- `call` finds no tester that has begun its test, and when it fails one of a call that is going
on. -/
def Welcome (s : CallRun) : CallEvent → Prop
  | .call n _ _ true _ => ∀ ct ∈ s.test.calltesters, ct.friendNumber = n → ct.step = .entering
  | .call n _ _ false _ => (∃ ct ∈ s.test.calltesters, ct.friendNumber = n) ∧ s.phase n = .active
  | _ => True

/-- A test that is under way has not queued its recording. -/
structure Testing (s : CallRun) : Prop where
  ordered : s.test.Ordered
  early : ∀ ct ∈ s.test.calltesters, s.underway ct.friendNumber → ct.step.early

theorem foldl_underwayAfter (deeds : List Deed) : ∀ (underway : UInt32 → Bool) (n : UInt32),
    deeds.foldl underwayAfter underway n = true ↔
      underway n = true ∧ ∀ d ∈ deeds, ∀ pathname, d.act = .addFilesender pathname → d.friendNumber ≠ n := by
  induction deeds with
  | nil => simp
  | cons d deeds ih =>
    intro underway n
    rw [List.foldl_cons, ih]
    rcases hd : d.act with _ | _ | _ | pathname
    · simp [underwayAfter, hd]
    · simp [underwayAfter, hd]
    · simp [underwayAfter, hd]
    · by_cases hn : d.friendNumber = n
      · simp [underwayAfter, hd, hn]
      · simp [underwayAfter, hd, hn, Function.update_of_ne (Ne.symm hn)]

/-- A tick takes a tester on to a late step by queueing the recording. -/
theorem Shot.early {tp : Timespec} {ct c : CallTester} {own : List Deed} (h : Shot tp ct (some c) own)
    (hct : ct.step.early) (hc : ¬ c.step.early) :
    ∃ d ∈ own, d.friendNumber = ct.friendNumber ∧ ∃ pathname, d.act = .addFilesender pathname := by
  generalize htester : some c = tester at h
  induction h with
  | enter hstep h ih =>
    obtain ⟨d, hd, hdeed⟩ := ih rfl htester
    exact ⟨d, List.mem_cons_of_mem _ hd, hdeed⟩
  | send hstep => exact ⟨_, List.mem_singleton.mpr rfl, rfl, _, rfl⟩
  | leave hstep => cases htester
  | greeted hstep =>
    cases htester
    exact absurd rfl hc
  | recorded hstep htimeout =>
    cases htester
    exact absurd rfl hc
  | save hstep =>
    cases htester
    exact absurd rfl hc
  | echoed hstep => simp [hstep, CallStep.early] at hct
  | _ =>
    cases htester
    exact absurd hct hc

/-- `CANCEL` is sent in `BYE`. -/
theorem Shot.cancel {tp : Timespec} {ct : CallTester} {tester : Option CallTester} {own : List Deed}
    (h : Shot tp ct tester own) {d : Deed} (hd : d ∈ own) (hcancel : d.act = .control .cancel) :
    ct.step = .bye := by
  induction h with
  | enter hstep h ih =>
    rcases List.mem_cons.mp hd with rfl | hd
    · cases hcancel
    · exact absurd (ih hd) (by simp)
  | record hstep => cases hd
  | leave hstep => exact hstep
  | greeted hstep =>
    simp only [List.mem_append, List.mem_map, List.mem_singleton] at hd
    rcases hd with ⟨f, -, rfl⟩ | rfl <;> cases hcancel
  | recorded hstep htimeout =>
    obtain rfl := List.mem_singleton.mp hd
    cases hcancel
  | save hstep =>
    obtain rfl := List.mem_singleton.mp hd
    cases hcancel
  | send hstep =>
    obtain rfl := List.mem_singleton.mp hd
    cases hcancel
  | _ =>
    obtain ⟨f, -, rfl⟩ := List.mem_map.mp hd
    cases hcancel

theorem callStep_call {s s' : CallRun} {n : UInt32} {audio video answered : Bool} {alloc : Alloc}
    (h : callStep s (.call n audio video answered alloc) = some s') :
    s'.test = (s.test.addEntry n alloc).1 ∧
      s'.phase = Function.update s.phase n (if answered || s.phase n = .active then .active else .idle) ∧
      s'.underway = if answered then Function.update s.underway n true else s.underway := by
  obtain ⟨test, notes, hevent, rfl⟩ := callStep_eq_some.mp h
  cases hevent
  exact ⟨rfl, rfl, rfl⟩

theorem callStep_callState {s s' : CallRun} {n state : UInt32} {alloc : Alloc}
    (h : callStep s (.callState n state alloc) = some s') :
    s'.test = (s.test.callState n state alloc).1 ∧
      s'.phase = (if isFinal state then Function.update s.phase n .over
        else if hasBit state STATE_SENDING_A then Function.update s.phase n .active else s.phase) ∧
      s'.underway = if isFinal state then Function.update s.underway n false else s.underway := by
  obtain ⟨test, notes, hevent, rfl⟩ := callStep_eq_some.mp h
  simp only [callEvent, pure_eq_ok, Except.ok.injEq] at hevent
  exact ⟨congrArg Prod.fst hevent.symm, rfl, rfl⟩

theorem callStep_audioReceiveFrame {s s' : CallRun} {n : UInt32} {pcm : List Int16} {count : ℕ}
    {channels : UInt8} {rate : UInt32} (h : callStep s (.audioReceiveFrame n pcm count channels rate) = some s') :
    s.test.audioReceiveFrame n pcm count channels rate = .ok s'.test ∧ s'.phase = s.phase ∧
      s'.underway = s.underway := by
  obtain ⟨test, notes, hevent, rfl⟩ := callStep_eq_some.mp h
  obtain ⟨t, ht, hok⟩ := bind_eq_ok.mp hevent
  cases hok
  exact ⟨ht, rfl, rfl⟩

/-- **A step keeps the tests under way early** if `call` finds no used tester. -/
theorem testing_callStep {s s' : CallRun} {e : CallEvent} (hstep : callStep s e = some s') (ht : Testing s)
    (hw : Welcome s e) : Testing s' := by
  refine ⟨ordered_callStep hstep ht.ordered, fun c hc hunder => ?_⟩
  cases e with
  | call n audio video answered alloc =>
    obtain ⟨htest, -, hunderway⟩ := callStep_call hstep
    rw [htest] at hc
    rcases mem_addEntry.mp hc with hc | ⟨-, rfl⟩
    · cases answered with
      | false =>
        rw [hunderway] at hunder
        exact ht.early c hc hunder
      | true =>
        by_cases hn : c.friendNumber = n
        · rw [hw c hc hn]
          rfl
        · rw [hunderway, if_pos rfl, Function.update_of_ne hn] at hunder
          exact ht.early c hc hunder
    · rfl
  | callState n state alloc =>
    obtain ⟨htest, -, hunderway⟩ := callStep_callState hstep
    rw [htest] at hc
    have hunder' : s.underway c.friendNumber ∧ (isFinal state → c.friendNumber ≠ n) := by
      rw [hunderway] at hunder
      split_ifs at hunder with hfinal
      · by_cases hn : c.friendNumber = n
        · simp [hn] at hunder
        · exact ⟨by rwa [Function.update_of_ne hn] at hunder, fun _ => hn⟩
      · exact ⟨hunder, fun h => absurd h hfinal⟩
    rcases mem_callState hc with hc | ⟨-, -, -, rfl⟩ | ⟨hfinished, hn, -⟩
    · exact ht.early c hc hunder'.1
    · rfl
    · exact absurd hn (hunder'.2 (by simp [isFinal, hfinished]))
  | audioReceiveFrame n pcm count channels rate =>
    obtain ⟨hframe, -, hunderway⟩ := callStep_audioReceiveFrame hstep
    obtain ⟨ct, hct, hn, hsame⟩ := mem_audioReceiveFrame hframe hc
    rw [hsame]
    exact ht.early ct hct (by rwa [hunderway, hn] at hunder)
  | calltestIterate tp replies =>
    obtain ⟨deeds, -, -, hunderway, hstays, -⟩ := callStep_tick ht.ordered hstep
    obtain ⟨ct, hct, own, hshot, hown⟩ := hstays c hc
    rw [hunderway, foldl_underwayAfter, hshot.same.2.1] at hunder
    by_contra hlate
    obtain ⟨d, hd, hn, pathname, hact⟩ := hshot.early (ht.early ct hct hunder.1) hlate
    exact hunder.2 d (hown hd) pathname hact hn

/-- A welcome call has its own test. -/
theorem ownTest_of_welcome {s : CallRun} {e : CallEvent} (ht : Testing s) (hw : Welcome s e) : OwnTest s e := by
  intro s' hstep
  cases e with
  | call n audio video answered alloc =>
    obtain ⟨htest, -, -⟩ := callStep_call hstep
    cases answered with
    | false => exact fun _ => hw
    | true =>
      have ho := (ordered_callStep hstep ht.ordered).nodup_friends
      have hone : ∃ ct ∈ s'.test.calltesters, ct.friendNumber = n ∧ ct.step = .entering := by
        rw [htest]
        by_cases hfound : ∃ ct ∈ s.test.calltesters, ct.friendNumber = n
        · obtain ⟨ct, hct, hn⟩ := hfound
          exact ⟨ct, mem_addEntry.mpr (.inl hct), hn, hw ct hct hn⟩
        · exact ⟨_, mem_addEntry.mpr (.inr ⟨fun ct hct hn => hfound ⟨ct, hct, hn⟩, rfl⟩), rfl, rfl⟩
      obtain ⟨ct, hct, hn, hentering⟩ := hone
      exact ⟨ct, hct, hn, hentering, fun c hc hcn => List.inj_on_of_nodup_map ho hc hct (hcn.trans hn.symm)⟩
  | callState n state alloc => trivial
  | audioReceiveFrame n pcm count channels rate => trivial
  | calltestIterate tp replies =>
    obtain ⟨deeds, hnotes, -, -, -, hdoer⟩ := callStep_tick ht.ordered hstep
    intro notes hnotes' d hd hcancel
    have hdeeds : deedsIn notes = deeds := by
      rw [List.append_cancel_left (hnotes'.symm.trans hnotes), deedsIn_deeds]
    obtain ⟨ct, hct, tester, own, hshot, hd⟩ := hdoer d (hdeeds ▸ hd)
    have hbye := hshot.cancel hd hcancel
    rw [(hshot.own d hd).2.1, ← Bool.not_eq_true]
    intro hunder
    have hearly := ht.early ct hct hunder
    rw [hbye] at hearly
    cases hearly

/-- A call with its own test was welcome. -/
theorem welcome_of_ownTest {s s' : CallRun} {e : CallEvent} (hstep : callStep s e = some s')
    (h : OwnTest s e) : Welcome s e := by
  cases e with
  | call n audio video answered alloc =>
    obtain ⟨htest, -, -⟩ := callStep_call hstep
    have hkept : ∀ ct ∈ s.test.calltesters, ct ∈ s'.test.calltesters := fun ct hct => by
      rw [htest]
      exact mem_addEntry.mpr (.inl hct)
    cases answered with
    | true =>
      obtain ⟨ct, -, -, hentering, hone⟩ := h s' hstep
      intro c hc hn
      rw [hone c (hkept c hc) hn]
      exact hentering
    | false =>
      apply h s' hstep
      by_cases hfound : ∃ ct ∈ s.test.calltesters, ct.friendNumber = n
      · obtain ⟨ct, hct, hn⟩ := hfound
        exact ⟨ct, hkept ct hct, hn⟩
      · refine ⟨.new s.test.nextAddr n alloc, ?_, rfl⟩
        rw [htest]
        exact mem_addEntry.mpr (.inr ⟨fun ct hct hn => hfound ⟨ct, hct, hn⟩, rfl⟩)
  | _ => trivial

/-- **Every answered call has its own test from the start, and a failed one none**, if and only if
`call` never finds a tester that has begun its test, and never fails for a friend who is not being
tested in a call. -/
theorem own_test_iff (greeter : Option Record) (outbox : Outbox) (nextAddr : ℕ) (es : List CallEvent) :
    Along callStep OwnTest (.start greeter outbox nextAddr) es ↔
      Along callStep Welcome (.start greeter outbox nextAddr) es := by
  have hstart : Testing (.start greeter outbox nextAddr) :=
    ⟨ordered_start .., by simp [CallRun.start, CallTest.init]⟩
  constructor
  · exact along_of_along (fun _ _ _ hstep ho _ => ordered_callStep hstep ho)
      (fun _ _ _ hstep _ h => welcome_of_ownTest hstep h) hstart.ordered
  · exact along_of_along (fun _ _ _ hstep ht hw => testing_callStep hstep ht hw)
      (fun _ _ _ _ ht hw => ownTest_of_welcome ht hw) hstart

/-- An allocation of zeros. -/
def someAlloc : Alloc := ⟨0, 0, 0, ⟨0, 0⟩, .ofBytes (ascii "/tmp/call-AAAAAA.wav")⟩

/-- A friend who calls again before the next tick meets the tester of the last call in `BYE`. -/
theorem second_call_meets_old_tester :
    ¬ Along callStep OwnTest (.start none ⟨[], [], []⟩ 0)
      [.call 0 true false true someAlloc, .callState 0 STATE_FINISHED someAlloc,
        .call 0 true false true someAlloc] := by
  intro h
  have hown : OwnTest _ (.call 0 true false true someAlloc) := (((h _ rfl).2 _ rfl).2 _ rfl).1
  have hwelcome := welcome_of_ownTest rfl hown
  have hentering : CallStep.bye = .entering := hwelcome _ (List.mem_singleton.mpr rfl) rfl
  cases hentering

/-! ### Nothing into an ended call -/

/-- The deed reaches the friend: a frame, a control other than `CANCEL`, or a file. -/
def Deed.reaches (d : Deed) : Bool :=
  match d.act with
  | .control .cancel => false
  | .control .muteAudio => true
  | .control .unmuteAudio => true
  | .sendFrame _ => true
  | .addFilesender _ => true
  | .audioWrite .. => false

/-- A tick does nothing that reaches a friend whose call is over. -/
def Silent (s : CallRun) : CallEvent → Prop
  | .calltestIterate tp replies => ∀ s', callStep s (.calltestIterate tp replies) = some s' →
      ∀ notes, s'.notes = s.notes ++ notes → ∀ d ∈ deedsIn notes, d.reaches → s.phase d.friendNumber ≠ .over
  | _ => True

/-- An end comes to the friend's tester: an error only when the tester is at `BYE` already, and
`FINISHED` together with `SENDING_A` only when there is a tester and it is. -/
def HangsUp (s : CallRun) : CallEvent → Prop
  | .callState n state _ =>
    (hasBit state STATE_ERROR → ∀ ct ∈ s.test.calltesters, ct.friendNumber = n → ct.step = .bye) ∧
      (hasBit state STATE_ERROR = false → hasBit state STATE_SENDING_A → hasBit state STATE_FINISHED →
        ∃ ct ∈ s.test.calltesters, ct.friendNumber = n ∧ ct.step = .bye)
  | _ => True

/-- The tester of a call that is over is at `BYE`. -/
structure HungUp (s : CallRun) : Prop where
  ordered : s.test.Ordered
  bye : ∀ ct ∈ s.test.calltesters, s.phase ct.friendNumber = .over → ct.step = .bye

/-- The program does not take part in whether a call is over. -/
theorem foldl_phaseAfter (deeds : List Deed) : ∀ (phase : UInt32 → Phase) (n : UInt32),
    deeds.foldl Phase.after phase n = .over ↔ phase n = .over := by
  induction deeds with
  | nil => simp
  | cons d deeds ih =>
    intro phase n
    rw [List.foldl_cons, ih]
    unfold Phase.after
    split_ifs with hcancel
    · by_cases hn : n = d.friendNumber
      · simp [hn, hcancel.2]
      · rw [Function.update_of_ne hn]
    · exact Iff.rfl

/-- A tester at `BYE` does nothing that reaches the friend, and goes. -/
theorem Shot.at_bye {tp : Timespec} {ct : CallTester} {tester : Option CallTester} {own : List Deed}
    (h : Shot tp ct tester own) (hbye : ct.step = .bye) : tester = none ∧ ∀ d ∈ own, ¬ d.reaches := by
  refine ⟨h.gone_iff.mpr hbye, ?_⟩
  cases h with
  | leave hstep => simp [CallTester.does, Deed.reaches]
  | _ hstep => cases hstep.symm.trans hbye

/-- The friend's tester after `call_state`, when the call is over then. -/
theorem bye_after_callState {s : CallRun} {n state : UInt32} {alloc : Alloc} (hu : HungUp s)
    (hh : HangsUp s (.callState n state alloc)) {c : CallTester}
    (hc : c ∈ (s.test.callState n state alloc).1.calltesters) (hn : c.friendNumber = n)
    (hover : isFinal state ∨ hasBit state STATE_SENDING_A = false ∧ s.phase n = .over) : c.step = .bye := by
  cases herror : hasBit state STATE_ERROR with
  | true =>
    simp only [CallTest.callState, herror, if_true] at hc
    exact hh.1 herror c hc hn
  | false =>
    cases hsending : hasBit state STATE_SENDING_A with
    | true =>
      have hfinished : hasBit state STATE_FINISHED := by simpa [isFinal, herror, hsending] using hover
      obtain ⟨ct, hct, hctn, hbye⟩ := hh.2 herror hsending hfinished
      rcases mem_callState hc with hc | ⟨-, -, hnone, -⟩ | ⟨-, -, hbye'⟩
      · rwa [List.inj_on_of_nodup_map hu.ordered.nodup_friends hc hct (hn.trans hctn.symm)]
      · exact absurd hctn (hnone ct hct)
      · exact hbye'
    | false =>
      cases hfinished : hasBit state STATE_FINISHED with
      | true => exact callState_finished hu.ordered herror hsending hfinished hc hn
      | false =>
        have hphase : s.phase n = .over := by simpa [isFinal, herror, hsending, hfinished] using hover
        simp only [CallTest.callState, herror, hsending, hfinished, Bool.false_eq_true, if_false] at hc
        exact hu.bye c hc (hn ▸ hphase)

/-- **A step keeps the testers of ended calls at `BYE`** if ends come to the testers. -/
theorem hungUp_callStep {s s' : CallRun} {e : CallEvent} (hstep : callStep s e = some s') (hu : HungUp s)
    (hh : HangsUp s e) : HungUp s' := by
  refine ⟨ordered_callStep hstep hu.ordered, fun c hc hover => ?_⟩
  cases e with
  | call n audio video answered alloc =>
    obtain ⟨htest, hphase, -⟩ := callStep_call hstep
    have hn : c.friendNumber ≠ n := by
      intro hn
      rw [hphase, hn, Function.update_self] at hover
      split_ifs at hover
    rw [htest] at hc
    rw [hphase, Function.update_of_ne hn] at hover
    rcases mem_addEntry.mp hc with hc | ⟨-, rfl⟩
    · exact hu.bye c hc hover
    · exact absurd rfl hn
  | callState n state alloc =>
    obtain ⟨htest, hphase, -⟩ := callStep_callState hstep
    rw [htest] at hc
    rw [hphase] at hover
    by_cases hn : c.friendNumber = n
    · apply bye_after_callState hu hh hc hn
      rw [hn] at hover
      split_ifs at hover with hfinal hsending
      · exact .inl hfinal
      · simp at hover
      · exact .inr ⟨by simpa using hsending, hover⟩
    · have hphase' : s.phase c.friendNumber = .over := by
        split_ifs at hover <;> simpa [Function.update_of_ne hn] using hover
      rcases mem_callState hc with hc | ⟨-, -, -, rfl⟩ | ⟨-, hn', -⟩
      · exact hu.bye c hc hphase'
      · exact absurd rfl hn
      · exact absurd hn' hn
  | audioReceiveFrame n pcm count channels rate =>
    obtain ⟨hframe, hphase, -⟩ := callStep_audioReceiveFrame hstep
    obtain ⟨ct, hct, hn, hsame⟩ := mem_audioReceiveFrame hframe hc
    rw [hsame]
    exact hu.bye ct hct (by rwa [hphase, hn] at hover)
  | calltestIterate tp replies =>
    obtain ⟨deeds, -, hphase, -, hstays, -⟩ := callStep_tick hu.ordered hstep
    obtain ⟨ct, hct, own, hshot, -⟩ := hstays c hc
    rw [hphase, foldl_phaseAfter, hshot.same.2.1] at hover
    cases (hshot.at_bye (hu.bye ct hct hover)).1

/-- A tick is silent when the testers of ended calls are at `BYE`. -/
theorem HungUp.silent {s : CallRun} (hu : HungUp s) (e : CallEvent) : Silent s e := by
  cases e with
  | calltestIterate tp replies =>
    intro s' hstep notes hnotes d hd hreaches hover
    obtain ⟨deeds, hnotes', -, -, -, hdoer⟩ := callStep_tick hu.ordered hstep
    have hdeeds : deedsIn notes = deeds := by
      rw [List.append_cancel_left (hnotes.symm.trans hnotes'), deedsIn_deeds]
    obtain ⟨ct, hct, tester, own, hshot, hd⟩ := hdoer d (hdeeds ▸ hd)
    rw [(hshot.own d hd).2.1] at hover
    exact (hshot.at_bye (hu.bye ct hct hover)).2 d hd hreaches
  | _ => trivial

/-- **Nothing is sent into an ended call** in a run in which every end comes to the friend's tester. -/
theorem silent_of_hangsUp (greeter : Option Record) (outbox : Outbox) (nextAddr : ℕ) (es : List CallEvent)
    (h : Along callStep HangsUp (.start greeter outbox nextAddr) es) :
    Along callStep Silent (.start greeter outbox nextAddr) es := by
  have hstart : HungUp (.start greeter outbox nextAddr) :=
    ⟨ordered_start .., by simp [CallRun.start, CallTest.init]⟩
  exact along_of_along (fun _ _ _ => hungUp_callStep) (fun _ e _ _ hu _ => hu.silent e) hstart h

/-- A second of a greeting. -/
def someGreeter : Record := ⟨List.replicate 50 (some 0), 1, 50, 50⟩

/-- ToxAV takes every frame, and nothing can be opened or sent. -/
def someReply : Reply := ⟨true, refusal⟩

/-- Whoever finishes the call during the greeting is sent nothing more. -/
theorem silent_after_finished : Along callStep Silent (.start (some someGreeter) ⟨[], [], []⟩ 0)
    [.call 0 true false true someAlloc, .calltestIterate ⟨1, 0⟩ fun _ => someReply,
      .callState 0 STATE_FINISHED someAlloc, .calltestIterate ⟨2, 0⟩ fun _ => someReply] := by
  refine silent_of_hangsUp _ _ _ _ (along_of_forall fun s e he => ?_)
  simp only [List.mem_cons, List.not_mem_nil, or_false] at he
  rcases he with rfl | rfl | rfl | rfl
  · trivial
  · trivial
  · exact ⟨fun h => absurd h (by decide), fun _ h => absurd h (by decide)⟩
  · trivial

/-- Whose call breaks off with an error before the greeting is muted in the next tick. -/
theorem muted_after_error : ¬ Along callStep Silent (.start (some someGreeter) ⟨[], [], []⟩ 0)
    [.call 0 true false true someAlloc, .callState 0 STATE_ERROR someAlloc,
      .calltestIterate ⟨1, 0⟩ fun _ => someReply] := by
  intro h
  have hsilent : Silent _ (.calltestIterate ⟨1, 0⟩ fun _ => someReply) := (((h _ rfl).2 _ rfl).2 _ rfl).1
  exact hsilent _ rfl _ rfl ⟨0, 0, .entering, ⟨1, 0⟩, .control .muteAudio⟩ (by decide) rfl rfl

end ToxSuite.Call
