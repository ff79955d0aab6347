import ToxSuite.Call.Ends

/-!
# One tester a friend

`call` and `call_state` both put in testers, each after a search for the friend's
tester; `calltest_iterate` takes testers out while it walks over the list. In every run
the list is strictly sorted by friend, so that the search has one answer at most. What
comes of one friend leaves the testers of all others as they are, and a tick takes out
just the testers that were at `BYE` when it began (`one_tester_per_friend`).
-/

namespace ToxSuite.Call

open ToxSuite.Lib ToxSuite.File ToxSuite.Suit

/-- The friend an event comes from; a tick comes from none. -/
def CallEvent.friend : CallEvent → Option UInt32
  | .call n .. => some n
  | .callState n .. => some n
  | .audioReceiveFrame n .. => some n
  | .calltestIterate .. => none

/-- The friend calls, or sends audio. -/
def CallEvent.Asks (n : UInt32) : CallEvent → Prop
  | .call m .. => m = n
  | .callState m state _ => m = n ∧ hasBit state STATE_SENDING_A
  | _ => False

/-- Each friend has one tester at most, and that is the one found. -/
structure OneEach (s : CallTest) : Prop where
  sorted : (s.calltesters.map CallTester.friendNumber).Pairwise (· < ·)
  found : ∀ n ct, callTesterByFriendNumber s.calltesters n = some ct ↔ ct ∈ s.calltesters ∧ ct.friendNumber = n

/-- What an event leaves of the testers. -/
structure KeepsApart (s s' : CallTest) (e : CallEvent) : Prop where
  /-- A friend under test gets no second tester, and none changes. -/
  again : ∀ n, e.Asks n → (∃ ct ∈ s.calltesters, ct.friendNumber = n) → s'.calltesters = s.calltesters
  /-- The testers of the other friends stay as they are. -/
  others : ∀ n, e.friend = some n → ∀ ct, ct.friendNumber ≠ n → (ct ∈ s'.calltesters ↔ ct ∈ s.calltesters)
  /-- A tick takes out those at `BYE`. -/
  tick : e.friend = none → s'.calltesters.map (fun ct => (ct.addr, ct.friendNumber)) =
    (s.calltesters.filter (·.step ≠ .bye)).map fun ct => (ct.addr, ct.friendNumber)

theorem CallTest.Ordered.oneEach {s : CallTest} (ho : s.Ordered) : OneEach s :=
  ⟨ho.friends, fun _ _ => callTesterByFriendNumber_eq_some ho.nodup_friends⟩

/-! ### What one event leaves -/

/-- Who has a tester gets no other. -/
theorem addEntry_of_mem {s : CallTest} {n : UInt32} (alloc : Alloc) (h : ∃ ct ∈ s.calltesters, ct.friendNumber = n) :
    s.addEntry n alloc = (s, []) := by
  obtain ⟨ct, hct, hn⟩ := h
  unfold CallTest.addEntry
  cases hget : callTesterByFriendNumber s.calltesters n with
  | none => exact absurd hn (callTesterByFriendNumber_eq_none.mp hget ct hct)
  | some ct => rfl

theorem mem_addEntry_other {s : CallTest} {n : UInt32} {alloc : Alloc} {c : CallTester} (hc : c.friendNumber ≠ n) :
    c ∈ (s.addEntry n alloc).1.calltesters ↔ c ∈ s.calltesters := by
  rw [mem_addEntry]
  refine ⟨?_, .inl⟩
  rintro (hmem | ⟨-, rfl⟩)
  · exact hmem
  · exact absurd rfl hc

/-- A tester that changes leaves those of other friends as they are. -/
theorem mem_withTester_other {s : CallTest} (ho : s.Ordered) {ct ct' c : CallTester} (hct : ct ∈ s.calltesters)
    (haddr : ct'.addr = ct.addr) (hn : ct'.friendNumber = ct.friendNumber) (hc : c.friendNumber ≠ ct.friendNumber) :
    c ∈ (s.withTester ct').calltesters ↔ c ∈ s.calltesters := by
  constructor
  · intro hmem
    rcases mem_withTester hmem with rfl | ⟨hmem, -⟩
    · exact absurd hn hc
    · exact hmem
  · intro hmem
    refine List.mem_map.mpr ⟨c, hmem, if_neg fun heq => ?_⟩
    rw [List.inj_on_of_nodup_map ho.addrs hmem hct (heq.trans haddr)] at hc
    exact hc rfl

/-- What is left after a walk in which those at `BYE` go. -/
theorem map_shots {tp : Timespec} {l : List CallTester} {shots : List (Option CallTester × List Deed)}
    (h : List.Forall₂ (fun ct shot => Shot tp ct shot.1 shot.2) l shots) :
    (shots.filterMap Prod.fst).map (fun ct => (ct.addr, ct.friendNumber)) =
      (l.filter (·.step ≠ .bye)).map fun ct => (ct.addr, ct.friendNumber) := by
  induction h with
  | nil => rfl
  | @cons ct shot l shots hshot h ih =>
    obtain ⟨tester, deeds⟩ := shot
    by_cases hbye : ct.step = .bye
    · obtain rfl := hshot.gone_iff.mpr hbye
      rw [List.filterMap_cons_none rfl, List.filter_cons_of_neg (by simpa using hbye), ih]
    · cases tester with
      | none => exact absurd (hshot.gone_iff.mp rfl) hbye
      | some ct' =>
        rw [List.filterMap_cons_some (f := Prod.fst) (b := ct') rfl, List.filter_cons_of_pos (by simpa using hbye),
          List.map_cons, List.map_cons, ih, hshot.same.1, hshot.same.2.1]

theorem keepsApart_callState {s : CallTest} (ho : s.Ordered) (n state : UInt32) (alloc : Alloc) :
    KeepsApart s (s.callState n state alloc).1 (.callState n state alloc) := by
  refine ⟨?_, ?_, fun h => nomatch h⟩
  · rintro m ⟨rfl, hsends⟩ htested
    unfold CallTest.callState
    split_ifs with herror
    · rfl
    · rw [addEntry_of_mem alloc htested]
  · rintro m hm ct hct
    cases hm
    rcases callState_cases s n state alloc with ⟨hs, -⟩ | ⟨-, -, _, _, hs⟩ | ⟨-, c, hget, hs⟩
    · rw [hs]
    · rw [hs]
      exact mem_addEntry_other hct
    · obtain ⟨hc, rfl⟩ := (callTesterByFriendNumber_eq_some ho.nodup_friends).mp hget
      rw [hs]
      exact mem_withTester_other ho hc rfl rfl hct

theorem keepsApart_audioReceiveFrame {s s' : CallTest} (ho : s.Ordered) {n : UInt32} {pcm : List Int16} {count : ℕ}
    {channels : UInt8} {rate : UInt32} (h : s.audioReceiveFrame n pcm count channels rate = .ok s') :
    KeepsApart s s' (.audioReceiveFrame n pcm count channels rate) := by
  refine ⟨fun _ hasks => hasks.elim, ?_, fun h => nomatch h⟩
  rintro m hm ct hct
  cases hm
  rcases audioReceiveFrame_cases h with ⟨rfl, -⟩ | ⟨c, ctrecord, hget, -, -, rfl⟩
  · exact Iff.rfl
  · obtain ⟨hc, rfl⟩ := (callTesterByFriendNumber_eq_some ho.nodup_friends).mp hget
    exact mem_withTester_other ho hc rfl rfl hct

theorem keepsApart_callEvent {s s' : CallTest} {e : CallEvent} {notes : List Note} (ho : s.Ordered)
    (h : callEvent s e = .ok (s', notes)) : KeepsApart s s' e := by
  cases e with
  | call n audio video answered alloc =>
    cases h
    refine ⟨?_, ?_, fun h => nomatch h⟩
    · rintro m rfl htested
      show (s.addEntry n alloc).1.calltesters = s.calltesters
      rw [addEntry_of_mem alloc htested]
    · rintro m hm ct hct
      cases hm
      exact mem_addEntry_other hct
  | callState n state alloc =>
    have hs : (s.callState n state alloc).1 = s' := congrArg Prod.fst (Except.ok.inj h)
    exact hs ▸ keepsApart_callState ho n state alloc
  | audioReceiveFrame n pcm count channels rate =>
    obtain ⟨t, ht, h⟩ := bind_eq_ok.mp h
    cases h
    exact keepsApart_audioReceiveFrame ho ht
  | calltestIterate tp replies =>
    obtain ⟨shots, hall, hlist, -⟩ := callEvent_tick ho h
    refine ⟨fun _ hasks => hasks.elim, fun _ h => (nomatch h), fun _ => ?_⟩
    rw [hlist]
    exact map_shots (hall.imp fun _ _ halone => shot_of_oneShot halone)

/-! ### Runs -/

/-- **One sorted tester a friend**, in every state of every run; and every step of it keeps the
testers of different friends apart. -/
theorem one_tester_per_friend (greeter : Option Record) (outbox : Outbox) (nextAddr : ℕ) (es : List CallEvent) :
    Always callStep (fun s => OneEach s.test) (.start greeter outbox nextAddr) es ∧
      Along callStep (fun s e => ∀ s', callStep s e = some s' → KeepsApart s.test s'.test e)
        (.start greeter outbox nextAddr) es := by
  have hall : Along callStep (fun _ _ => True) (.start greeter outbox nextAddr) es :=
    along_of_forall fun _ _ _ => trivial
  constructor
  · have hordered : Always callStep (fun s => s.test.Ordered) (.start greeter outbox nextAddr) es :=
      always_of_along (fun _ _ _ hstep ho _ => ordered_callStep hstep ho) (ordered_start ..) hall
    exact hordered.mono fun s ho => ho.oneEach
  · refine along_of_along (fun _ _ _ hstep ho _ => ordered_callStep hstep ho) ?_ (ordered_start ..) hall
    intro s e _ _ ho _ s' hstep
    obtain ⟨test, notes, hevent, rfl⟩ := callStep_eq_some.mp hstep
    exact keepsApart_callEvent ho hevent

end ToxSuite.Call
