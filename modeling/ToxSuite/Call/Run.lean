import ToxSuite.Lib.Runs
import ToxSuite.Call.Tester

/-!
# Runs of the call test

What an event can do to the list of testers: `call` and `call_state` may put in one
new tester, and otherwise every tester takes its own turn (`Turn`) and stays or
goes (`does_callEvent`). The list stays sorted by friend and no address occurs
twice in it (`ordered_does`).

The machine `callStep` keeps a history beside the state of the code: what has been
noted so far, how the call of each friend stands (`Phase`), and whether the test of
the last answered call is still under way.
-/

namespace ToxSuite.Call

open ToxSuite.Lib ToxSuite.File ToxSuite.Suit

/-! ### The order of the list -/

/-- The testers are sorted by friend, each friend's once, and their addresses have been given
out once. -/
structure CallTest.Ordered (s : CallTest) : Prop where
  friends : (s.calltesters.map CallTester.friendNumber).Pairwise (· < ·)
  addrs : (s.calltesters.map CallTester.addr).Nodup
  fresh : ∀ ct ∈ s.calltesters, ct.addr < s.nextAddr

theorem CallTest.Ordered.nodup_friends {s : CallTest} (h : s.Ordered) :
    (s.calltesters.map CallTester.friendNumber).Nodup :=
  h.friends.imp fun hlt => UInt32.ne_of_lt hlt

/-- The loop of `call_tester_add_entry` is an ordered insertion. -/
theorem insertTester_eq (calltester : CallTester) (l : List CallTester) :
    insertTester calltester l =
      l.orderedInsert (fun a b => a.friendNumber < b.friendNumber) calltester := by
  induction l with
  | nil => rfl
  | cons entry l ih => simp only [insertTester, ih, List.orderedInsert, gt_iff_lt]

@[simp] theorem mem_insertTester {ct calltester : CallTester} {l : List CallTester} :
    ct ∈ insertTester calltester l ↔ ct = calltester ∨ ct ∈ l := by
  rw [insertTester_eq, List.mem_orderedInsert]

theorem insertTester_sorted {calltester : CallTester} {l : List CallTester}
    (hl : (l.map CallTester.friendNumber).Pairwise (· < ·))
    (hnew : ∀ ct ∈ l, ct.friendNumber ≠ calltester.friendNumber) :
    ((insertTester calltester l).map CallTester.friendNumber).Pairwise (· < ·) := by
  rw [insertTester_eq]
  refine List.pairwise_map.mpr (pairwise_orderedInsert (r := fun a b : CallTester => a.friendNumber < b.friendNumber)
    (fun _ _ _ => UInt32.lt_trans) (List.pairwise_map.mp hl) fun ct hct => ?_)
  exact UInt32.lt_or_lt_of_ne (hnew ct hct).symm

theorem insertTester_nodup {calltester : CallTester} {l : List CallTester}
    (hl : (l.map CallTester.addr).Nodup) (hnew : ∀ ct ∈ l, ct.addr ≠ calltester.addr) :
    ((insertTester calltester l).map CallTester.addr).Nodup := by
  rw [insertTester_eq, ((List.perm_orderedInsert _ _ _).map _).nodup_iff, List.map_cons, List.nodup_cons]
  refine ⟨fun hmem => ?_, hl⟩
  obtain ⟨ct, hct, haddr⟩ := List.mem_map.mp hmem
  exact hnew ct hct haddr

/-- No tester of the friend is found if and only if there is none. -/
theorem callTesterByFriendNumber_eq_none {l : List CallTester} {n : UInt32} :
    callTesterByFriendNumber l n = none ↔ ∀ ct ∈ l, ct.friendNumber ≠ n := by
  simp [callTesterByFriendNumber]

/-- The tester that is found is the friend's only one. -/
theorem callTesterByFriendNumber_eq_some {l : List CallTester}
    (hl : (l.map CallTester.friendNumber).Nodup) {n : UInt32} {ct : CallTester} :
    callTesterByFriendNumber l n = some ct ↔ ct ∈ l ∧ ct.friendNumber = n :=
  find?_key_eq_some CallTester.friendNumber hl

/-! ### Turns -/

/-- The deeds among the notes. -/
def deedsIn (notes : List Note) : List Deed :=
  notes.filterMap fun | .deed d => some d | _ => none

/-- The testers that have been made. -/
def addedIn (notes : List Note) : List ℕ :=
  notes.filterMap fun | .added addr => some addr | _ => none

/-- What the tester at an address has done. -/
def deedsOf (addr : ℕ) (deeds : List Deed) : List Deed := deeds.filter (·.addr = addr)

@[simp] theorem deedsIn_append (a b : List Note) : deedsIn (a ++ b) = deedsIn a ++ deedsIn b :=
  List.filterMap_append

@[simp] theorem addedIn_append (a b : List Note) : addedIn (a ++ b) = addedIn a ++ addedIn b :=
  List.filterMap_append

@[simp] theorem deedsOf_append (addr : ℕ) (a b : List Deed) :
    deedsOf addr (a ++ b) = deedsOf addr a ++ deedsOf addr b := List.filter_append ..

@[simp] theorem deedsIn_deeds (deeds : List Deed) : deedsIn (deeds.map Note.deed) = deeds := by
  simp [deedsIn, List.filterMap_map]

@[simp] theorem addedIn_deeds (deeds : List Deed) : addedIn (deeds.map Note.deed) = [] := by
  simp [addedIn, List.filterMap_map]

/-- What an event can do to one tester: what becomes of it, and its deeds. -/
inductive Turn : CallTester → Option CallTester → List Deed → Prop
  | same {ct : CallTester} : Turn ct (some ct) []
  /-- `call_state` reports that the call is finished. -/
  | finish {ct : CallTester} : Turn ct (some { ct with step := .bye }) []
  | receive {ct : CallTester} {ctrecord : Record} (hstep : ct.step = .recording) :
      Turn ct (some { ct with ctrecord }) []
  | tick {ct : CallTester} {tp : Timespec} {tester : Option CallTester} {deeds : List Deed}
      (h : Shot tp ct tester deeds) : Turn ct tester deeds

theorem Turn.same_tester {ct ct' : CallTester} {deeds : List Deed} (h : Turn ct (some ct') deeds) :
    ct'.addr = ct.addr ∧ ct'.friendNumber = ct.friendNumber := by
  cases h with
  | tick h => exact ⟨h.same.1, h.same.2.1⟩
  | _ => exact ⟨rfl, rfl⟩

theorem Turn.own {ct : CallTester} {tester : Option CallTester} {deeds : List Deed}
    (h : Turn ct tester deeds) : ∀ d ∈ deeds, d.addr = ct.addr ∧ d.friendNumber = ct.friendNumber := by
  cases h with
  | tick h => exact fun d hd => ⟨(h.own d hd).1, (h.own d hd).2.1⟩
  | _ => simp

/-- All testers of a list have a turn. -/
abbrev Turns (l : List CallTester) (shots : List (Option CallTester × List Deed)) : Prop :=
  List.Forall₂ (fun ct shot => Turn ct shot.1 shot.2) l shots

/-- Whoever is on the list after the turns was on it before. -/
theorem Turns.origin {l : List CallTester} {shots : List (Option CallTester × List Deed)}
    (h : Turns l shots) : ∀ c ∈ shots.filterMap Prod.fst, ∃ ct ∈ l, c.addr = ct.addr := by
  induction h with
  | nil => simp
  | @cons ct shot l shots hturn h ih =>
    intro c hc
    obtain ⟨shot', hshot', hstays⟩ := List.mem_filterMap.mp hc
    rcases List.mem_cons.mp hshot' with rfl | hshot'
    · rw [hstays] at hturn
      exact ⟨ct, List.mem_cons_self, hturn.same_tester.1⟩
    · obtain ⟨ct', hct', haddr⟩ := ih c (List.mem_filterMap.mpr ⟨shot', hshot', hstays⟩)
      exact ⟨ct', List.mem_cons_of_mem _ hct', haddr⟩

/-- Every deed of the turns is one of a tester on the list. -/
theorem Turns.doer {l : List CallTester} {shots : List (Option CallTester × List Deed)}
    (h : Turns l shots) :
    ∀ d ∈ shots.flatMap Prod.snd, ∃ ct ∈ l, d.addr = ct.addr ∧ d.friendNumber = ct.friendNumber := by
  induction h with
  | nil => simp
  | @cons ct shot l shots hturn h ih =>
    intro d hd
    rw [List.flatMap_cons, List.mem_append] at hd
    rcases hd with hd | hd
    · exact ⟨ct, List.mem_cons_self, hturn.own d hd⟩
    · obtain ⟨ct', hct', hown⟩ := ih d hd
      exact ⟨ct', List.mem_cons_of_mem _ hct', hown⟩

/-- An address of no tester on the list has no deeds. -/
theorem Turns.deedsOf_eq_nil {l : List CallTester} {shots : List (Option CallTester × List Deed)}
    (h : Turns l shots) {addr : ℕ} (haddr : ∀ ct ∈ l, ct.addr ≠ addr) :
    deedsOf addr (shots.flatMap Prod.snd) = [] := by
  apply List.filter_eq_nil_iff.mpr
  intro d hd
  obtain ⟨ct, hct, hown, -⟩ := h.doer d hd
  simpa [hown] using haddr ct hct

/-- **Each tester has its own turn**: what is on the list under its address afterwards, and the
deeds under its address, are those of the turn. -/
theorem Turns.turn {l : List CallTester} {shots : List (Option CallTester × List Deed)}
    (h : Turns l shots) (hnodup : (l.map CallTester.addr).Nodup) : ∀ ct ∈ l, ∃ tester,
      Turn ct tester (deedsOf ct.addr (shots.flatMap Prod.snd)) ∧
        (∀ c, c.addr = ct.addr → (c ∈ shots.filterMap Prod.fst ↔ tester = some c)) ∧
        tester ∈ shots.map Prod.fst := by
  induction h with
  | nil => simp
  | @cons ct₀ shot l shots hturn h ih =>
    obtain ⟨hhead, htail⟩ := List.nodup_cons.mp (List.map_cons ▸ hnodup)
    intro ct hct
    rw [List.flatMap_cons, deedsOf_append]
    rcases List.mem_cons.mp hct with rfl | hct
    · have hne : ∀ c ∈ l, c.addr ≠ ct.addr := fun c hc heq => hhead (heq ▸ List.mem_map_of_mem hc)
      have hown : deedsOf ct.addr shot.2 = shot.2 :=
        List.filter_eq_self.mpr fun d hd => by simpa using (hturn.own d hd).1
      rw [Turns.deedsOf_eq_nil h hne, hown, List.append_nil]
      refine ⟨shot.1, hturn, fun c hc => ?_, by simp⟩
      have hgone : c ∉ shots.filterMap Prod.fst := fun hmem => by
        obtain ⟨ct', hct', haddr⟩ := Turns.origin h c hmem
        exact hne ct' hct' (haddr.symm.trans hc)
      rw [List.filterMap_cons]
      cases shot.1 <;> simp [hgone, eq_comm]
    · obtain ⟨tester, hturn', hmem, htester⟩ := ih htail ct hct
      have hne : ct.addr ≠ ct₀.addr := fun heq => hhead (heq ▸ List.mem_map_of_mem hct)
      have hown : deedsOf ct.addr shot.2 = [] :=
        List.filter_eq_nil_iff.mpr fun d hd => by simpa [(hturn.own d hd).1] using Ne.symm hne
      rw [hown, List.nil_append]
      refine ⟨tester, hturn', fun c hc => ?_, by simp [htester]⟩
      rw [← hmem c hc, List.filterMap_cons]
      cases hshot : shot.1 with
      | none => simp
      | some c₀ =>
        have hc₀ : c ≠ c₀ := by
          rintro rfl
          rw [hshot] at hturn
          exact hne (hc.symm.trans hturn.same_tester.1)
        simp [hc₀]

/-- What the turns do not change keeps its order. -/
theorem Turns.sublist {β : Type} {key : CallTester → β}
    (hkey : ∀ {ct ct' deeds}, Turn ct (some ct') deeds → key ct' = key ct) {l : List CallTester}
    {shots : List (Option CallTester × List Deed)} (h : Turns l shots) :
    ((shots.filterMap Prod.fst).map key).Sublist (l.map key) := by
  induction h with
  | nil => exact .slnil
  | @cons ct shot l shots hturn h ih =>
    rw [List.filterMap_cons]
    cases hshot : shot.1 with
    | none => exact ih.cons _
    | some c =>
      rw [hshot] at hturn
      simp only [List.map_cons, hkey hturn]
      exact ih.cons_cons _

/-! ### What an event can do -/

/-- `calltest_iterate`. -/
def CallEvent.isTick : CallEvent → Bool
  | .calltestIterate .. => true
  | _ => false

/-- What an event can do to the testers: each has a turn, and goes only in a tick, or a new one is
put in. -/
inductive CallTest.Does (s : CallTest) (e : CallEvent) : CallTest → List Note → Prop
  | turns {s' : CallTest} {notes : List Note} {shots : List (Option CallTester × List Deed)}
      (hall : Turns s.calltesters shots) (hlist : s'.calltesters = shots.filterMap Prod.fst)
      (hdeeds : deedsIn notes = shots.flatMap Prod.snd) (hadded : addedIn notes = [])
      (hgone : none ∈ shots.map Prod.fst → e.isTick) (hnext : s.nextAddr ≤ s'.nextAddr) : Does s e s' notes
  | adds {n : UInt32} {alloc : Alloc} {notes : List Note} (hnew : ∀ ct ∈ s.calltesters, ct.friendNumber ≠ n)
      (hdeeds : deedsIn notes = []) (hadded : addedIn notes = [s.nextAddr]) :
      Does s e
        { s with
          calltesters := insertTester (.new s.nextAddr n alloc) s.calltesters
          nextAddr := s.nextAddr + 1 } notes

/-- An event that does no deed and makes no tester changes the testers one by one. -/
theorem CallTest.Does.of_map {s s' : CallTest} {e : CallEvent} {notes : List Note} (f : CallTester → CallTester)
    (hturn : ∀ ct ∈ s.calltesters, Turn ct (some (f ct)) []) (hlist : s'.calltesters = s.calltesters.map f)
    (hdeeds : deedsIn notes = []) (hadded : addedIn notes = []) (hnext : s.nextAddr ≤ s'.nextAddr) :
    s.Does e s' notes := by
  have hall : Turns s.calltesters (s.calltesters.map fun ct => (some (f ct), [])) :=
    List.forall₂_map_right_iff.mpr (List.forall₂_same.mpr hturn)
  refine .turns hall ?_ ?_ hadded ?_ hnext
  · simp [hlist, List.filterMap_map]
  · simp [hdeeds]
  · simp

theorem CallTest.Does.of_same {s : CallTest} {e : CallEvent} {notes : List Note}
    (hdeeds : deedsIn notes = []) (hadded : addedIn notes = []) : s.Does e s notes :=
  .of_map id (fun _ _ => .same) (List.map_id _).symm hdeeds hadded le_rfl

/-- Addresses are given out in order. -/
theorem nextAddr_le {s s' : CallTest} {e : CallEvent} {notes : List Note} (h : s.Does e s' notes) :
    s.nextAddr ≤ s'.nextAddr := by
  cases h with
  | turns hall hlist hdeeds hadded hgone hnext => exact hnext
  | adds hnew hdeeds hadded => exact Nat.le_succ _

theorem does_withTester {s : CallTest} {e : CallEvent} (ho : s.Ordered) {ct ct' : CallTester}
    (hmem : ct ∈ s.calltesters) (haddr : ct'.addr = ct.addr) (hturn : Turn ct (some ct') []) :
    s.Does e (s.withTester ct') [] := by
  refine .of_map (fun c => if c.addr = ct'.addr then ct' else c) (fun c hc => ?_) rfl rfl rfl le_rfl
  split_ifs with heq
  · rw [List.inj_on_of_nodup_map ho.addrs hc hmem (heq.trans haddr)]
    exact hturn
  · exact .same

/-- A tester is the one that changes, or is as it was. -/
theorem mem_withTester {s : CallTest} {ct c : CallTester} (hc : c ∈ (s.withTester ct).calltesters) :
    c = ct ∨ c ∈ s.calltesters ∧ c.addr ≠ ct.addr := by
  obtain ⟨c₀, hc₀, hif⟩ := List.mem_map.mp hc
  split_ifs at hif with haddr
  · exact .inl hif.symm
  · exact .inr (hif ▸ ⟨hc₀, haddr⟩)

/-- What `call_state` does: nothing, or it puts in a tester, or it sends one to `BYE`. -/
theorem callState_cases (s : CallTest) (n state : UInt32) (alloc : Alloc) :
    s.callState n state alloc = (s, []) ∧
        (hasBit state STATE_ERROR = false → hasBit state STATE_SENDING_A = false ∧
          (hasBit state STATE_FINISHED → callTesterByFriendNumber s.calltesters n = none)) ∨
      (hasBit state STATE_ERROR = false ∧ hasBit state STATE_SENDING_A ∧ ∃ audio video, s.callState n state alloc =
        ((s.addEntry n alloc).1, .bitRateSet n audio video :: (s.addEntry n alloc).2)) ∨
      (hasBit state STATE_FINISHED ∧ ∃ ct, callTesterByFriendNumber s.calltesters n = some ct ∧
        s.callState n state alloc = (s.withTester { ct with step := .bye }, [])) := by
  unfold CallTest.callState
  split_ifs with herror hsending hfinished
  · exact .inl ⟨rfl, fun h => absurd herror (by simp [h])⟩
  · exact .inr (.inl ⟨by simpa using herror, hsending, _, _, rfl⟩)
  · cases hget : callTesterByFriendNumber s.calltesters n with
    | none => exact .inl ⟨rfl, fun _ => ⟨by simpa using hsending, fun _ => rfl⟩⟩
    | some ct => exact .inr (.inr ⟨hfinished, ct, rfl, rfl⟩)
  · exact .inl ⟨rfl, fun _ => ⟨by simpa using hsending, fun h => absurd h hfinished⟩⟩

/-- What `audio_receive_frame` does: nothing, or the tester, at `RECORDING`, takes up the frame. -/
theorem audioReceiveFrame_cases {s s' : CallTest} {n : UInt32} {pcm : List Int16} {count : ℕ} {channels : UInt8}
    {rate : UInt32} (h : s.audioReceiveFrame n pcm count channels rate = .ok s') :
    s' = s ∧ (∀ ct, callTesterByFriendNumber s.calltesters n = some ct → ct.step ≠ .recording) ∨
      ∃ ct ctrecord, callTesterByFriendNumber s.calltesters n = some ct ∧ ct.step = .recording ∧
        receiveFrame ct.ctrecord pcm count channels rate = .ok ctrecord ∧ s' = s.withTester { ct with ctrecord } := by
  unfold CallTest.audioReceiveFrame at h
  cases hget : callTesterByFriendNumber s.calltesters n with
  | none =>
    simp only [hget, pure_eq_ok, Except.ok.injEq] at h
    exact .inl ⟨h.symm, fun ct hct => nomatch hct⟩
  | some ct =>
    simp only [hget] at h
    split_ifs at h with hstep
    · cases h
      exact .inl ⟨rfl, fun ct' hct' => Option.some.inj hct' ▸ hstep⟩
    · obtain ⟨ctrecord, hreceive, h⟩ := bind_eq_ok.mp h
      cases h
      exact .inr ⟨ct, ctrecord, rfl, not_not.mp hstep, hreceive, rfl⟩

/-- What a tick does: the testers are taken on one by one. -/
theorem callEvent_tick {s s' : CallTest} {tp : Timespec} {replies : UInt32 → Reply} {notes : List Note}
    (ho : s.Ordered) (h : callEvent s (.calltestIterate tp replies) = .ok (s', notes)) :
    ∃ shots, List.Forall₂ (Alone s.greeter tp replies) s.calltesters shots ∧
      s'.calltesters = shots.filterMap Prod.fst ∧ notes = (shots.flatMap Prod.snd).map Note.deed ∧
      s'.greeter = s.greeter ∧ s.nextAddr ≤ s'.nextAddr := by
  obtain ⟨⟨t, deeds⟩, ht, h⟩ := bind_eq_ok.mp h
  cases h
  obtain ⟨shots, hall, hlist, rfl, hgreeter, hnext⟩ := calltestIterate_ok ho.addrs ht
  exact ⟨shots, hall, hlist, rfl, hgreeter, hnext⟩

theorem deedsIn_addEntry (s : CallTest) (n : UInt32) (alloc : Alloc) : deedsIn (s.addEntry n alloc).2 = [] := by
  unfold CallTest.addEntry
  cases callTesterByFriendNumber s.calltesters n <;> rfl

/-- `call_tester_add_entry` leaves everything as it is or puts in a new tester. -/
theorem does_addEntry {s s' : CallTest} {e : CallEvent} {n : UInt32} {alloc : Alloc} {notes : List Note}
    (h : s.addEntry n alloc = (s', notes)) {note : Note} (hdeed : deedsIn [note] = [])
    (hadded : addedIn [note] = []) : s.Does e s' (note :: notes) := by
  unfold CallTest.addEntry at h
  cases hget : callTesterByFriendNumber s.calltesters n with
  | some ct =>
    simp only [hget, Prod.mk.injEq] at h
    obtain ⟨rfl, rfl⟩ := h
    exact .of_same hdeed hadded
  | none =>
    simp only [hget, Prod.mk.injEq] at h
    obtain ⟨rfl, rfl⟩ := h
    refine .adds (callTesterByFriendNumber_eq_none.mp hget) ?_ ?_
    · rw [← List.singleton_append, deedsIn_append, hdeed]
      rfl
    · rw [← List.singleton_append, addedIn_append, hadded]
      rfl

/-- **The inversion of an event**. -/
theorem does_callEvent {s s' : CallTest} {e : CallEvent} {notes : List Note} (ho : s.Ordered)
    (h : callEvent s e = .ok (s', notes)) : s.Does e s' notes := by
  cases e with
  | call n audio video answered alloc =>
    cases h
    exact does_addEntry rfl rfl rfl
  | callState n state alloc =>
    simp only [callEvent, pure_eq_ok, Except.ok.injEq] at h
    rcases callState_cases s n state alloc with ⟨hs, -⟩ | ⟨-, -, _, _, hs⟩ | ⟨-, ct, hget, hs⟩
    · cases hs.symm.trans h
      exact .of_same rfl rfl
    · cases hs.symm.trans h
      exact does_addEntry rfl rfl rfl
    · cases hs.symm.trans h
      exact does_withTester ho ((callTesterByFriendNumber_eq_some ho.nodup_friends).mp hget).1 rfl .finish
  | audioReceiveFrame n pcm count channels rate =>
    obtain ⟨t, ht, h⟩ := bind_eq_ok.mp h
    cases h
    rcases audioReceiveFrame_cases ht with ⟨rfl, -⟩ | ⟨ct, ctrecord, hget, hstep, -, rfl⟩
    · exact .of_same rfl rfl
    · exact does_withTester ho ((callTesterByFriendNumber_eq_some ho.nodup_friends).mp hget).1 rfl (.receive hstep)
  | calltestIterate tp replies =>
    obtain ⟨shots, hall, hlist, rfl, -, hnext⟩ := callEvent_tick ho h
    exact .turns (hall.imp fun _ _ hshot => .tick (shot_of_oneShot hshot)) hlist (deedsIn_deeds _)
      (addedIn_deeds _) (fun _ => rfl) hnext

/-- An event keeps the list sorted and the addresses distinct. -/
theorem ordered_does {s s' : CallTest} {e : CallEvent} {notes : List Note} (h : s.Does e s' notes) (ho : s.Ordered) :
    s'.Ordered := by
  cases h with
  | turns hall hlist hdeeds hadded hgone hnext =>
    refine ⟨?_, ?_, fun c hc => ?_⟩
    · rw [hlist]
      exact ho.friends.sublist (hall.sublist fun h => h.same_tester.2)
    · rw [hlist]
      exact ho.addrs.sublist (hall.sublist fun h => h.same_tester.1)
    · obtain ⟨ct, hct, haddr⟩ := hall.origin c (hlist ▸ hc)
      exact haddr ▸ (ho.fresh ct hct).trans_le hnext
  | adds hnew hdeeds hadded =>
    refine ⟨insertTester_sorted ho.friends hnew, insertTester_nodup ho.addrs fun ct hct =>
      (ho.fresh ct hct).ne, fun c hc => ?_⟩
    rcases mem_insertTester.mp hc with rfl | hc
    · exact Nat.lt_succ_self _
    · exact (ho.fresh c hc).trans (Nat.lt_succ_self _)

/-! ### Runs -/

/-- How the call of a friend stands. -/
inductive Phase where
  /-- There is none: none was answered, or the program has cancelled it. -/
  | idle
  | active
  /-- ToxAV has reported its end. -/
  | over
  deriving DecidableEq

/-- The call test with its history. -/
structure CallRun where
  test : CallTest
  /-- All notes so far. -/
  notes : List Note
  phase : UInt32 → Phase
  /-- The last call of the friend that was answered has not ended, and the recording has not been
  queued since. -/
  underway : UInt32 → Bool

/-- After `calltest_init`. -/
def CallRun.start (greeter : Option Record) (outbox : Outbox) (nextAddr : ℕ) : CallRun :=
  ⟨.init greeter outbox nextAddr, [], fun _ => .idle, fun _ => false⟩

/-- A state that `call_state` reports is a final one. -/
def isFinal (state : UInt32) : Bool := hasBit state STATE_ERROR || hasBit state STATE_FINISHED

/-- How the call stands after a deed of the friend's tester. -/
def Phase.after (phase : UInt32 → Phase) (d : Deed) : UInt32 → Phase :=
  if d.act = .control .cancel ∧ phase d.friendNumber = .active then Function.update phase d.friendNumber .idle
  else phase

/-- Whether the test is under way after a deed of the friend's tester. -/
def underwayAfter (underway : UInt32 → Bool) (d : Deed) : UInt32 → Bool :=
  match d.act with
  | .addFilesender _ => Function.update underway d.friendNumber false
  | _ => underway

/-- How the calls stand after an event. -/
def phaseAfter (phase : UInt32 → Phase) (notes : List Note) : CallEvent → UInt32 → Phase
  | .call n _ _ answered _ =>
    Function.update phase n (if answered || phase n = .active then .active else .idle)
  | .callState n state _ =>
    if isFinal state then Function.update phase n .over
    else if hasBit state STATE_SENDING_A then Function.update phase n .active
    else phase
  | .audioReceiveFrame .. => phase
  | .calltestIterate .. => (deedsIn notes).foldl Phase.after phase

/-- Which tests are under way after an event. -/
def underwayAfterEvent (underway : UInt32 → Bool) (notes : List Note) : CallEvent → UInt32 → Bool
  | .call n _ _ answered _ => if answered then Function.update underway n true else underway
  | .callState n state _ => if isFinal state then Function.update underway n false else underway
  | .audioReceiveFrame .. => underway
  | .calltestIterate .. => (deedsIn notes).foldl underwayAfter underway

/-- A step: a fault ends the program. -/
def callStep (s : CallRun) (e : CallEvent) : Option CallRun :=
  (callEvent s.test e).toOption.map fun (test, notes) =>
    ⟨test, s.notes ++ notes, phaseAfter s.phase notes e, underwayAfterEvent s.underway notes e⟩

theorem callStep_eq_some {s s' : CallRun} {e : CallEvent} :
    callStep s e = some s' ↔ ∃ test notes, callEvent s.test e = .ok (test, notes) ∧
      s' = ⟨test, s.notes ++ notes, phaseAfter s.phase notes e, underwayAfterEvent s.underway notes e⟩ := by
  simp only [callStep, Option.map_eq_some_iff, toOption_eq_some, Prod.exists, eq_comm (a := s')]

theorem ordered_start (greeter : Option Record) (outbox : Outbox) (nextAddr : ℕ) :
    (CallRun.start greeter outbox nextAddr).test.Ordered :=
  ⟨.nil, .nil, by simp [CallRun.start, CallTest.init]⟩

theorem ordered_callStep {s s' : CallRun} {e : CallEvent} (h : callStep s e = some s')
    (ho : s.test.Ordered) : s'.test.Ordered := by
  obtain ⟨test, notes, hevent, rfl⟩ := callStep_eq_some.mp h
  exact ordered_does (does_callEvent ho hevent) ho

end ToxSuite.Call
