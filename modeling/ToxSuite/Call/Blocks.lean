import ToxSuite.Lib.Ledger
import ToxSuite.Call.Ends

/-!
# The blocks of the call test

What `call.c` allocates: a tester with its record and the name of its file, the
samples of the record, which `realloc` moves as frames come in, and the record of a playback that nothing is ever
played from. `call_tester_destroy` gives back all of it but the name.

The events are followed with a ledger beside the state. No order of callbacks and ticks frees a block twice
or loses one but for the names: after `calltest_destroy` the name of each tester there ever was is left,
and the greeting, and nothing else (`testers_leave_names`). What the SENDING step allocates belongs to the
send queue.
-/

namespace ToxSuite.Call

open ToxSuite.Lib ToxSuite.File ToxSuite.Suit

/-! ### Testers in memory -/

/-- The blocks of a `struct call_tester`. The record of `playback` has no samples: `record_init` sets none. -/
structure TesterBlocks where
  tester : ℕ
  ctrecord : ℕ
  pcm : Option ℕ
  playback : Option ℕ
  outfilename : ℕ

/-- Those that are given back, in their order: all but the name. -/
def TesterBlocks.held (b : TesterBlocks) : Multiset ℕ :=
  block b.pcm + ({b.ctrecord} + (block b.playback + {b.tester}))

/-- The blocks of `greeter`: the record and its samples. -/
structure RecordBlocks where
  record : ℕ
  pcm : ℕ

/-- The call test, the blocks of the tester that is or was at an address, those of the greeting, and all that is
allocated. -/
structure CallHeap where
  test : CallTest
  blocks : ℕ → TesterBlocks
  greeter : Option RecordBlocks
  ledger : Ledger

/-- The blocks of the greeting, if there is one. -/
def CallHeap.greeting (h : CallHeap) : Multiset ℕ := h.greeter.elim 0 fun g => {g.record} + {g.pcm}

/-- `record_free` of a record, with its samples. -/
def recordFree (pcm : Option ℕ) : Option ℕ → Ledger → Except Fault Ledger
  | none, L => pure L
  | some rec, L => do
    let L ← releaseOpt pcm L
    release rec L

/-- `call_tester_destroy`, without `list_del`. -/
def callTesterDestroy (b : TesterBlocks) (L : Ledger) : Except Fault Ledger := do
  let L ← recordFree b.pcm (some b.ctrecord) L
  let L ← recordFree none b.playback L
  release b.tester L

/-- `call_testers_destroy`. -/
def callTestersDestroy (blocks : ℕ → TesterBlocks) : List CallTester → Ledger → Except Fault Ledger
  | [], L => pure L
  | f :: calltesters, L => do
    let L ← callTesterDestroy (blocks f.addr) L
    callTestersDestroy blocks calltesters L

section

variable (place : Placement)

/-- `calltest_init`, with `audio_load`: a record and its samples, if the file opens. -/
def CallHeap.init (greeter : Option Record) (outbox : Outbox) (nextAddr : ℕ) (L : Ledger) : CallHeap :=
  let (blocks, ledger) := match greeter with
    | none => (none, L)
    | some _ =>
      let (record, L) := alloc place L
      let (pcm, L) := alloc place L
      (some ⟨record, pcm⟩, L)
  ⟨.init greeter outbox nextAddr, fun _ => ⟨0, 0, none, none, 0⟩, blocks, ledger⟩

/-- What `call_tester_add_entry` allocates. -/
def CallHeap.addEntry (h : CallHeap) (friendNumber : UInt32) : (ℕ → TesterBlocks) × Ledger :=
  match callTesterByFriendNumber h.test.calltesters friendNumber with
  | some _ => (h.blocks, h.ledger)
  | none =>
    let (tester, L) := alloc place h.ledger
    let (ctrecord, L) := alloc place L
    let (outfilename, L) := alloc place L
    (Function.update h.blocks h.test.nextAddr ⟨tester, ctrecord, none, none, outfilename⟩, L)

/-- What `call_state` allocates. -/
def CallHeap.callState (h : CallHeap) (friendNumber state : UInt32) : (ℕ → TesterBlocks) × Ledger :=
  if hasBit state STATE_ERROR then (h.blocks, h.ledger)
  else if hasBit state STATE_SENDING_A then h.addEntry place friendNumber
  else (h.blocks, h.ledger)

/-- `realloc` of the samples to a size; to zero, it gives them back. -/
def reallocBlock (pcm : Option ℕ) (size : ℕ) (L : Ledger) : Except Fault (Option ℕ × Ledger) :=
  if size = 0 ∧ pcm.isSome then do
    let L ← releaseOpt pcm L
    pure (none, L)
  else do
    let (pcm, L) ← realloc place pcm L
    pure (some pcm, L)

/-- What `audio_receive_frame` allocates. -/
def CallHeap.audioReceiveFrame (h : CallHeap) (friendNumber : UInt32) (sampleCount : ℕ) (channels : UInt8) :
    Except Fault ((ℕ → TesterBlocks) × Ledger) :=
  match callTesterByFriendNumber h.test.calltesters friendNumber with
  | none => pure (h.blocks, h.ledger)
  | some ct =>
    if ct.step ≠ .recording then pure (h.blocks, h.ledger)
    else do
      let b := h.blocks ct.addr
      let (pcm, L) ← reallocBlock place b.pcm (channels.toNat * (sampleCount + ct.ctrecord.samplesCount)) h.ledger
      pure (Function.update h.blocks ct.addr { b with pcm }, L)

/-- What `calltest_iterate_one_shot` allocates and gives back. -/
def oneShotBlocks (step : CallStep) (b : TesterBlocks) (L : Ledger) : Except Fault (TesterBlocks × Ledger) :=
  match step with
  | .entering =>
    let (playback, L) := alloc place L
    pure ({ b with playback := some playback }, L)
  | .bye => do
    let L ← callTesterDestroy b L
    pure (b, L)
  | _ => pure (b, L)

/-- The loop of `calltest_iterate`, as `calltestIterateFrom`. -/
def iterateFromAt (tp : Timespec) (replies : UInt32 → Reply) :
    ℕ → CallHeap → Option ℕ → Except Fault (CallHeap × List Deed)
  | _, h, none => pure (h, [])
  | 0, _, some _ => .error .fuel
  | fuel + 1, h, some addr =>
    match h.test.calltesters.find? (·.addr = addr) with
    | none => .error .released
    | some ct => do
      let n := listNextEntry h.test.calltesters addr
      let reply := replies ct.friendNumber
      let (tester, deeds) ← calltestIterateOneShot h.test.greeter ct tp reply.sends
      let (b, L) ← oneShotBlocks place ct.step (h.blocks addr) h.ledger
      let test ← (h.test.settle addr tester).serve reply.answer deeds
      let (h, rest) ← iterateFromAt tp replies fuel
        { h with test, blocks := Function.update h.blocks addr b, ledger := L } n
      pure (h, deeds ++ rest)

/-- An event. -/
def callEventAt (h : CallHeap) (e : CallEvent) : Except Fault (CallHeap × List Note) :=
  match e with
  | .call n .. => do
    let (test, notes) ← callEvent h.test e
    let (blocks, L) := h.addEntry place n
    pure ({ h with test, blocks, ledger := L }, notes)
  | .callState n state _ => do
    let (test, notes) ← callEvent h.test e
    let (blocks, L) := h.callState place n state
    pure ({ h with test, blocks, ledger := L }, notes)
  | .audioReceiveFrame n _ count channels _ => do
    let (blocks, L) ← h.audioReceiveFrame place n count channels
    let (test, notes) ← callEvent h.test e
    pure ({ h with test, blocks, ledger := L }, notes)
  | .calltestIterate tp replies => do
    let (h, deeds) ← iterateFromAt place tp replies h.test.calltesters.length h
      (h.test.calltesters.head?.map CallTester.addr)
    pure (h, deeds.map Note.deed)

/-- Events one after the other, with the blocks. -/
def callEventsAt : CallHeap → List CallEvent → Except Fault (CallHeap × List Note)
  | h, [] => pure (h, [])
  | h, e :: es => do
    let (h, notes) ← callEventAt place h e
    let (h, rest) ← callEventsAt h es
    pure (h, notes ++ rest)

end

/-- Events one after the other. -/
def callEvents : CallTest → List CallEvent → Except Fault (CallTest × List Note)
  | s, [] => pure (s, [])
  | s, e :: es => do
    let (s, notes) ← callEvent s e
    let (s, rest) ← callEvents s es
    pure (s, notes ++ rest)

/-! ### One tester -/

section

variable {place : Placement} {L : Ledger} {own base : Multiset ℕ}

theorem recordFree_spec {pcm rec : Option ℕ} (hpcm : rec = none → pcm = none)
    (h : Owns L (block pcm + (block rec + own)) base) : ∃ L', recordFree pcm rec L = .ok L' ∧ Owns L' own base := by
  cases rec with
  | none =>
    cases hpcm rfl
    exact ⟨L, rfl, h.congr (by simp [block])⟩
  | some rec =>
    obtain ⟨L₁, h₁, ho₁⟩ := h.releaseOpt
    obtain ⟨L₂, h₂, ho₂⟩ := ho₁.release
    exact ⟨L₂, by rw [recordFree, h₁]; exact h₂, ho₂⟩

/-- **A tester that is destroyed** gives back all but the name of its file. -/
theorem callTesterDestroy_spec {b : TesterBlocks} (h : Owns L (b.held + own) base) :
    ∃ L', callTesterDestroy b L = .ok L' ∧ Owns L' own base := by
  have hpcm : Owns L (block b.pcm + (block (some b.ctrecord) + (block b.playback + ({b.tester} + own)))) base :=
    h.congr (by rw [TesterBlocks.held]; simp only [block]; abel)
  obtain ⟨L₁, h₁, ho₁⟩ := recordFree_spec (by simp) hpcm
  obtain ⟨L₂, h₂, ho₂⟩ := recordFree_spec (fun _ => rfl) (ho₁.congr (show _ = block none + _ from (zero_add _).symm))
  obtain ⟨L₃, h₃, ho₃⟩ := ho₂.release
  exact ⟨L₃, by rw [callTesterDestroy, h₁, ok_bind, h₂, ok_bind, h₃], ho₃⟩

/-- **All testers that are left** give back all but the names of their files. -/
theorem callTestersDestroy_spec {blocks : ℕ → TesterBlocks} {l : List CallTester} : ∀ {L : Ledger} {own : Multiset ℕ},
    Owns L ((l.map fun ct => (blocks ct.addr).held).sum + own) base →
      ∃ L', callTestersDestroy blocks l L = .ok L' ∧ Owns L' own base := by
  induction l with
  | nil => exact fun h => ⟨_, rfl, h.congr (zero_add _)⟩
  | cons ct l ih =>
    intro L own h
    rw [List.map_cons, List.sum_cons, add_assoc] at h
    obtain ⟨L₁, h₁, ho₁⟩ := callTesterDestroy_spec h
    obtain ⟨L₂, h₂, ho₂⟩ := ih ho₁
    refine ⟨L₂, ?_, ho₂⟩
    rw [callTestersDestroy, h₁]
    exact h₂

/-- `realloc` owns the samples before and after. -/
theorem reallocBlock_spec (hplace : place.Sound) {pcm : Option ℕ} (size : ℕ) (h : Owns L (block pcm + own) base) :
    ∃ pcm' L', reallocBlock place pcm size L = .ok (pcm', L') ∧ Owns L' (block pcm' + own) base := by
  unfold reallocBlock
  split_ifs with hzero
  · obtain ⟨L', hok, ho⟩ := h.releaseOpt
    exact ⟨none, L', by rw [hok]; rfl, ho.congr (zero_add own).symm⟩
  · obtain ⟨a, L', hok, ho⟩ := h.realloc hplace
    exact ⟨some a, L', by rw [hok]; rfl, ho⟩

end

/-! ### Runs -/

section

variable {place : Placement} {h : CallHeap} {made : List ℕ} {left base : Multiset ℕ}

/-- What the testers of a list own, but for the names. -/
def testersOwn (blocks : ℕ → TesterBlocks) (l : List CallTester) : Multiset ℕ :=
  (l.map fun ct => (blocks ct.addr).held).sum

/-- The names of the files of the testers that were made at these addresses. -/
def namesOf (blocks : ℕ → TesterBlocks) (made : List ℕ) : Multiset ℕ := made.map fun addr => (blocks addr).outfilename

/-- The testers own their blocks, the names are those of all testers that were `made`, and `left` is the greeting. A
tester that is not greeted has no playback yet. -/
structure Holds (h : CallHeap) (made : List ℕ) (left base : Multiset ℕ) : Prop where
  ordered : h.test.Ordered
  owns : Owns h.ledger (testersOwn h.blocks h.test.calltesters + (namesOf h.blocks made + left)) base
  unplayed : ∀ ct ∈ h.test.calltesters, ct.step = .entering → (h.blocks ct.addr).playback = none
  fresh : ∀ addr ∈ made, addr < h.test.nextAddr

theorem namesOf_append (blocks : ℕ → TesterBlocks) (l l' : List ℕ) :
    namesOf blocks (l ++ l') = namesOf blocks l + namesOf blocks l' := by
  simp [namesOf]

theorem testersOwn_append (blocks : ℕ → TesterBlocks) (l l' : List CallTester) :
    testersOwn blocks (l ++ l') = testersOwn blocks l + testersOwn blocks l' := by
  simp [testersOwn]

theorem testersOwn_cons (blocks : ℕ → TesterBlocks) (ct : CallTester) (l : List CallTester) :
    testersOwn blocks (ct :: l) = (blocks ct.addr).held + testersOwn blocks l := by
  simp [testersOwn]

/-- The blocks of other testers are nothing to these. -/
theorem testersOwn_update {blocks : ℕ → TesterBlocks} {addr : ℕ} (b : TesterBlocks) {l : List CallTester}
    (hl : ∀ ct ∈ l, ct.addr ≠ addr) : testersOwn (Function.update blocks addr b) l = testersOwn blocks l := by
  unfold testersOwn
  rw [List.map_congr_left fun ct hct => by rw [Function.update_of_ne (hl ct hct)]]

/-- The blocks of one tester change. -/
theorem testersOwn_replaced {blocks : ℕ → TesterBlocks} {done rest : List CallTester} {ct ct' : CallTester}
    (hnodup : ((done ++ ct :: rest).map CallTester.addr).Nodup) (haddr : ct'.addr = ct.addr) (b : TesterBlocks) :
    testersOwn (Function.update blocks ct.addr b) (done ++ ct' :: rest) =
      testersOwn blocks done + (b.held + testersOwn blocks rest) := by
  rw [testersOwn_append, testersOwn_cons, haddr, Function.update_self, testersOwn_update b (addr_ne_of_mem_done hnodup),
    testersOwn_update b (addr_ne_of_mem_rest hnodup)]

theorem testersOwn_insert (blocks : ℕ → TesterBlocks) (ct : CallTester) (l : List CallTester) :
    testersOwn blocks (insertTester ct l) = (blocks ct.addr).held + testersOwn blocks l := by
  rw [← testersOwn_cons, testersOwn, testersOwn, insertTester_eq]
  exact ((List.perm_orderedInsert _ ct l).map _).sum_eq

/-- No tick leaves a tester where it was made. -/
theorem Shot.not_entering {tp : Timespec} {ct ct' : CallTester} {deeds : List Deed}
    (h : Shot tp ct (some ct') deeds) : ct'.step ≠ .entering := by
  generalize htester : some ct' = tester at h
  induction h with
  | enter hstep h ih => exact ih htester
  | leave hstep => cases htester
  | greeted | recorded | save | send | echoed =>
    cases htester
    simp
  | _ hstep =>
    cases htester
    simp [hstep]

/-- **A tester's tick**, with its blocks. -/
theorem oneShotBlocks_spec (hplace : place.Sound) {tp : Timespec} {ct : CallTester} {tester : Option CallTester}
    {deeds : List Deed} (hshot : Shot tp ct tester deeds) {b : TesterBlocks}
    (hplay : ct.step = .entering → b.playback = none) {L : Ledger} {own : Multiset ℕ} (h : Owns L (b.held + own) base) :
    ∃ b' L', oneShotBlocks place ct.step b L = .ok (b', L') ∧ b'.outfilename = b.outfilename ∧
      (∀ ct', tester = some ct' → Owns L' (b'.held + own) base ∧ ct'.step ≠ .entering) ∧
      (tester = none → Owns L' own base) := by
  by_cases hbye : ct.step = .bye
  · have hgone := hshot.gone_iff.mpr hbye
    obtain ⟨L', hok, ho⟩ := callTesterDestroy_spec h
    refine ⟨b, L', ?_, rfl, fun ct' hct' => absurd (hgone.symm.trans hct') (by simp), fun _ => ho⟩
    rw [hbye, oneShotBlocks, hok]
    rfl
  have hstays : tester ≠ none := fun hnone => hbye (hshot.gone_iff.mp hnone)
  have hstep : ∀ ct', tester = some ct' → ct'.step ≠ .entering := fun ct' hct' => (hct' ▸ hshot).not_entering
  by_cases henter : ct.step = .entering
  · have hnew : Owns (alloc place L).2 ({ b with playback := some (place L) }.held + own) base := by
      refine (h.alloc hplace).congr ?_
      rw [TesterBlocks.held, TesterBlocks.held, hplay henter]
      simp only [block]
      abel
    refine ⟨{ b with playback := some (place L) }, _, by rw [henter]; rfl, rfl, fun ct' hct' => ?_, fun hnone => ?_⟩
    · exact ⟨hnew, hstep ct' hct'⟩
    · exact absurd hnone hstays
  · refine ⟨b, L, ?_, rfl, fun ct' hct' => ⟨h, hstep ct' hct'⟩, fun hnone => absurd hnone hstays⟩
    unfold oneShotBlocks
    split
    · exact absurd ‹_› henter
    · exact absurd ‹_› hbye
    · rfl

/-- What a walk comes to with the blocks, where it comes to `r` without: the same, and the testers own theirs. Names are
neither made nor given back. -/
def Walks (names : ℕ → ℕ) (left base : Multiset ℕ) (r : Except Fault (CallTest × List Deed))
    (r' : Except Fault (CallHeap × List Deed)) : Prop :=
  match r with
  | .error f => r' = .error f
  | .ok (s, deeds) => ∃ h, r' = .ok (h, deeds) ∧ h.test = s ∧ (∀ addr, (h.blocks addr).outfilename = names addr) ∧
      Owns h.ledger (testersOwn h.blocks s.calltesters + left) base ∧
      ∀ ct ∈ s.calltesters, ct.step = .entering → (h.blocks ct.addr).playback = none

/-- What is done before the rest of a walk. -/
theorem Walks.bind {names : ℕ → ℕ} (deeds : List Deed) {r : Except Fault (CallTest × List Deed)}
    {r' : Except Fault (CallHeap × List Deed)} (h : Walks names left base r r') :
    Walks names left base (r >>= fun x => pure (x.1, deeds ++ x.2)) (r' >>= fun x => pure (x.1, deeds ++ x.2)) := by
  cases r with
  | error f =>
    obtain rfl : r' = .error f := h
    rfl
  | ok x =>
    obtain ⟨h', rfl, hwalk⟩ := h
    exact ⟨h', rfl, hwalk⟩

/-- The names stay where the blocks of a tester change and its name does not. -/
theorem outfilename_update {blocks : ℕ → TesterBlocks} {names : ℕ → ℕ}
    (hnames : ∀ addr, (blocks addr).outfilename = names addr) {addr : ℕ} {b : TesterBlocks}
    (hname : b.outfilename = (blocks addr).outfilename) (a : ℕ) :
    (Function.update blocks addr b a).outfilename = names a := by
  rcases eq_or_ne a addr with rfl | hne
  · rw [Function.update_self, hname, hnames]
  · rw [Function.update_of_ne hne, hnames]

/-- **The walk of `calltest_iterate`**, with the blocks. -/
theorem iterateFromAt_walks (hplace : place.Sound) {tp : Timespec} {replies : UInt32 → Reply} {names : ℕ → ℕ}
    {rest : List CallTester} :
    ∀ {fuel : ℕ} {h : CallHeap} {done : List CallTester}, h.test.calltesters = done ++ rest →
      ((done ++ rest).map CallTester.addr).Nodup →
      (∀ addr, (h.blocks addr).outfilename = names addr) →
      Owns h.ledger (testersOwn h.blocks (done ++ rest) + left) base →
      (∀ ct ∈ done ++ rest, ct.step = .entering → (h.blocks ct.addr).playback = none) →
      Walks names left base
        (calltestIterateFrom tp replies fuel h.test (rest.head?.map CallTester.addr))
        (iterateFromAt place tp replies fuel h (rest.head?.map CallTester.addr)) := by
  induction rest with
  | nil =>
    intro fuel h done hlist hnodup hnames howns hplay
    rw [← hlist] at howns hplay
    cases fuel <;> exact ⟨h, rfl, rfl, hnames, howns, hplay⟩
  | cons ct rest ih =>
    intro fuel h done hlist hnodup hnames howns hplay
    cases fuel with
    | zero => exact rfl
    | succ fuel =>
      simp only [List.head?_cons, Option.map_some, calltestIterateFrom, iterateFromAt, hlist, find?_at hnodup,
        listNextEntry_at hnodup]
      cases hshot : calltestIterateOneShot h.test.greeter ct tp (replies ct.friendNumber).sends with
      | error f => exact rfl
      | ok r =>
        obtain ⟨tester, deeds⟩ := r
        have hturn := shot_of_oneShot hshot
        have haddr : ∀ ct', tester = some ct' → ct'.addr = ct.addr := by
          rintro ct' rfl
          exact hturn.same.1
        have hown : Owns h.ledger ((h.blocks ct.addr).held +
            (testersOwn h.blocks done + testersOwn h.blocks rest + left)) base :=
          howns.congr (by rw [testersOwn_append, testersOwn_cons]; abel)
        obtain ⟨b, L, hblocks, hname, hstays, hgoes⟩ := oneShotBlocks_spec hplace hturn
          (hplay ct (by simp)) hown
        obtain ⟨outbox, nextAddr, hserve, -⟩ := serve_total deeds (h.test.settle ct.addr tester)
          (replies ct.friendNumber).answer
        rw [settle_at hlist hnodup haddr] at hserve
        simp only [ok_bind, hblocks, settle_at hlist hnodup haddr, hserve]
        have hdone := addr_ne_of_mem_done hnodup
        have hrest := addr_ne_of_mem_rest hnodup
        have hnames' := outfilename_update hnames hname
        have hothers : ∀ c ∈ done ++ rest, c.step = .entering →
            (Function.update h.blocks ct.addr b c.addr).playback = none := by
          intro c hc hstep
          have hne : c.addr ≠ ct.addr := (List.mem_append.mp hc).elim (hdone c) (hrest c)
          rw [Function.update_of_ne hne]
          refine hplay c ?_ hstep
          rcases List.mem_append.mp hc with hc | hc
          · exact List.mem_append_left _ hc
          · exact List.mem_append_right _ (List.mem_cons_of_mem ct hc)
        have hnodup' := nodup_settled hnodup haddr
        cases tester with
        | none =>
          rw [Option.toList_none, List.append_nil] at hnodup' ⊢
          refine Walks.bind deeds (@ih fuel
            { h with
              test := { h.test with calltesters := done ++ rest, outbox, nextAddr }
              blocks := Function.update h.blocks ct.addr b
              ledger := L } done rfl hnodup' hnames' ?_ hothers)
          refine (hgoes rfl).congr ?_
          rw [testersOwn_append, testersOwn_update b hdone, testersOwn_update b hrest]
        | some ct' =>
          obtain ⟨hown', hstep'⟩ := hstays ct' rfl
          refine Walks.bind deeds (@ih fuel
            { h with
              test := { h.test with calltesters := done ++ [ct'] ++ rest, outbox, nextAddr }
              blocks := Function.update h.blocks ct.addr b
              ledger := L } (done ++ [ct']) rfl hnodup' hnames' ?_ ?_)
          · refine hown'.congr ?_
            change _ = testersOwn (Function.update h.blocks ct.addr b) (done ++ [ct'] ++ rest) + left
            rw [List.append_assoc, List.singleton_append, testersOwn_replaced hnodup (haddr ct' rfl)]
            abel
          · intro c hc hstep
            rw [List.append_assoc, List.singleton_append, List.mem_append, List.mem_cons] at hc
            rcases hc with hc | rfl | hc
            · exact hothers c (List.mem_append_left _ hc) hstep
            · exact absurd hstep hstep'
            · exact hothers c (List.mem_append_right _ hc) hstep

/-- What an event, or several, comes to with the blocks, where it comes to `r` without: the same, with the names of the
testers that are made. -/
def Leaves (made : List ℕ) (left base : Multiset ℕ) (r : Except Fault (CallTest × List Note))
    (r' : Except Fault (CallHeap × List Note)) : Prop :=
  match r with
  | .error f => r' = .error f
  | .ok (s, notes) => ∃ h, r' = .ok (h, notes) ∧ h.test = s ∧ Holds h (made ++ addedIn notes) left base

theorem namesOf_congr {blocks blocks' : ℕ → TesterBlocks} {made : List ℕ}
    (h : ∀ addr ∈ made, (blocks' addr).outfilename = (blocks addr).outfilename) :
    namesOf blocks' made = namesOf blocks made := by
  rw [namesOf, namesOf, List.map_congr_left h]

theorem namesOf_update {blocks : ℕ → TesterBlocks} {addr : ℕ} {b : TesterBlocks} {made : List ℕ}
    (h : ∀ a ∈ made, a ≠ addr) : namesOf (Function.update blocks addr b) made = namesOf blocks made :=
  namesOf_congr fun a ha => by rw [Function.update_of_ne (h a ha)]

/-- A tester that is made has blocks of its own. -/
theorem addEntry_holds (hplace : place.Sound) (hh : Holds h made left base) (n : UInt32) (alloc : Alloc) :
    Holds { h with
      test := (h.test.addEntry n alloc).1
      blocks := (h.addEntry place n).1
      ledger := (h.addEntry place n).2 } (made ++ addedIn (h.test.addEntry n alloc).2) left base := by
  have hordered := ordered_does (@does_addEntry h.test _ (.call n true true true alloc) n alloc _ rfl
    (.answer n 0 0) rfl rfl) hh.ordered
  unfold CallTest.addEntry CallHeap.addEntry at *
  cases hget : callTesterByFriendNumber h.test.calltesters n with
  | some ct =>
    rw [hget] at hordered
    dsimp only
    rw [show addedIn [] = [] from rfl, List.append_nil]
    exact ⟨hordered, hh.owns, hh.unplayed, hh.fresh⟩
  | none =>
    rw [hget] at hordered
    have hfresh : ∀ ct ∈ h.test.calltesters, ct.addr ≠ h.test.nextAddr := fun ct hct => (hh.ordered.fresh ct hct).ne
    refine ⟨hordered, ?_, fun ct hct hstep => ?_, fun addr haddr => ?_⟩
    · refine (((hh.owns.alloc hplace).alloc hplace).alloc hplace).congr ?_
      dsimp only
      rw [testersOwn_insert, testersOwn_update _ hfresh,
        show addedIn [.added h.test.nextAddr] = [h.test.nextAddr] from rfl, namesOf_append,
        namesOf_update fun addr haddr => (hh.fresh addr haddr).ne]
      simp only [CallTester.new, namesOf, List.map_cons, List.map_nil, Function.update_self, TesterBlocks.held, block,
        Lib.alloc, Multiset.coe_singleton]
      abel
    · rcases mem_insertTester.mp hct with rfl | hct
      · simp [CallTester.new]
      · dsimp only
        rw [Function.update_of_ne (hfresh ct hct)]
        exact hh.unplayed ct hct hstep
    · rcases List.mem_append.mp haddr with haddr | haddr
      · exact (hh.fresh addr haddr).trans (Nat.lt_succ_self _)
      · obtain rfl : addr = h.test.nextAddr := List.mem_singleton.mp haddr
        exact Nat.lt_succ_self _

theorem addEntry_leaves (hplace : place.Sound) (hh : Holds h made left base) (n : UInt32) (alloc : Alloc) {note : Note}
    (hnote : addedIn [note] = []) :
    Leaves made left base (.ok ((h.test.addEntry n alloc).1, note :: (h.test.addEntry n alloc).2))
      (.ok ({ h with
        test := (h.test.addEntry n alloc).1
        blocks := (h.addEntry place n).1
        ledger := (h.addEntry place n).2 }, note :: (h.test.addEntry n alloc).2)) := by
  refine ⟨_, rfl, rfl, ?_⟩
  rw [← List.singleton_append, addedIn_append, hnote, List.nil_append]
  exact addEntry_holds hplace hh n alloc

/-- Fields of a tester change, and its blocks perhaps. -/
theorem withTester_holds {h : CallHeap} (hh : Holds h made left base) {ct ct' : CallTester}
    (hct : ct ∈ h.test.calltesters) (haddr : ct'.addr = ct.addr) (hstep : ct'.step ≠ .entering)
    (hordered : (h.test.withTester ct').Ordered) {b : TesterBlocks} {L : Ledger}
    (hname : b.outfilename = (h.blocks ct.addr).outfilename)
    (howns : ∀ own, testersOwn h.blocks h.test.calltesters = (h.blocks ct.addr).held + own →
      Owns L (b.held + (own + (namesOf h.blocks made + left))) base) :
    Holds { h with
      test := h.test.withTester ct'
      blocks := Function.update h.blocks ct.addr b
      ledger := L } made left base := by
  obtain ⟨done, rest, hlist⟩ := List.append_of_mem hct
  have hnodup := hh.ordered.addrs
  rw [hlist] at hnodup
  have hdone := addr_ne_of_mem_done hnodup
  have hrest := addr_ne_of_mem_rest hnodup
  have hsettle : h.test.settle ct.addr (some ct') = { h.test with calltesters := done ++ (some ct').toList ++ rest } :=
    settle_at hlist hnodup (by rintro _ ⟨⟩; exact haddr)
  have htesters : (h.test.withTester ct').calltesters = done ++ ct' :: rest := by
    have := congrArg CallTest.calltesters hsettle
    simpa [CallTest.settle] using this
  have hnames : namesOf (Function.update h.blocks ct.addr b) made = namesOf h.blocks made :=
    namesOf_congr fun addr _ => by
      rcases eq_or_ne addr ct.addr with rfl | hne
      · rw [Function.update_self, hname]
      · rw [Function.update_of_ne hne]
  refine ⟨hordered, ?_, fun c hc hentering => ?_, hh.fresh⟩
  · refine (howns (testersOwn h.blocks done + testersOwn h.blocks rest) ?_).congr ?_
    · rw [hlist, testersOwn_append, testersOwn_cons]
      abel
    · dsimp only
      rw [htesters, testersOwn_replaced hnodup haddr, hnames]
      abel
  · rw [htesters, List.mem_append, List.mem_cons] at hc
    have hold : ∀ c ∈ h.test.calltesters, c.addr ≠ ct.addr → c.step = .entering →
        (Function.update h.blocks ct.addr b c.addr).playback = none := fun c hc hne hentering => by
      rw [Function.update_of_ne hne]
      exact hh.unplayed c hc hentering
    rcases hc with hc | rfl | hc
    · exact hold c (by simp [hlist, hc]) (hdone c hc) hentering
    · exact absurd hentering hstep
    · exact hold c (by simp [hlist, hc]) (hrest c hc) hentering

/-- Nothing is made. -/
theorem Holds.leaves {s : CallTest} {notes : List Note} (hh : Holds h made left base) (htest : h.test = s)
    (hnotes : addedIn notes = []) : Leaves made left base (.ok (s, notes)) (.ok (h, notes)) :=
  ⟨h, rfl, htest, by rwa [hnotes, List.append_nil]⟩

/-- The list stays in order. -/
theorem Holds.ordered_event (hh : Holds h made left base) (e : CallEvent) {s : CallTest} {notes : List Note}
    (hok : callEvent h.test e = .ok (s, notes)) : s.Ordered :=
  ordered_does (does_callEvent hh.ordered hok) hh.ordered

/-- `call_state` makes a tester, sends one to BYE, or does nothing with blocks. -/
theorem callState_leaves (hplace : place.Sound) (hh : Holds h made left base) (n state : UInt32) (alloc : Alloc) :
    Leaves made left base (callEvent h.test (.callState n state alloc))
      (callEventAt place h (.callState n state alloc)) := by
  have ho : (h.test.callState n state alloc).1.Ordered := hh.ordered_event (.callState n state alloc) rfl
  change Leaves made left base (.ok (h.test.callState n state alloc)) (.ok ({ h with
    test := (h.test.callState n state alloc).1
    blocks := (h.callState place n state).1
    ledger := (h.callState place n state).2 }, (h.test.callState n state alloc).2))
  by_cases herror : hasBit state STATE_ERROR
  · rw [show h.test.callState n state alloc = (h.test, []) from if_pos herror,
      show h.callState place n state = (h.blocks, h.ledger) from if_pos herror]
    exact hh.leaves rfl rfl
  by_cases hsending : hasBit state STATE_SENDING_A
  · obtain ⟨audio, video, hcall⟩ : ∃ audio video, h.test.callState n state alloc =
        ((h.test.addEntry n alloc).1, .bitRateSet n audio video :: (h.test.addEntry n alloc).2) :=
      ⟨_, _, (if_neg herror).trans (if_pos hsending)⟩
    rw [hcall, show h.callState place n state = h.addEntry place n from (if_neg herror).trans (if_pos hsending)]
    exact addEntry_leaves hplace hh n alloc rfl
  rw [show h.callState place n state = (h.blocks, h.ledger) from (if_neg herror).trans (if_neg hsending)]
  rcases callState_cases h.test n state alloc with ⟨hsame, -⟩ | ⟨-, hsends, -⟩ | ⟨-, ct, hget, hbye⟩
  · rw [hsame]
    exact hh.leaves rfl rfl
  · exact absurd hsends hsending
  · rw [hbye] at ho ⊢
    obtain ⟨hct, -⟩ := (callTesterByFriendNumber_eq_some hh.ordered.nodup_friends).mp hget
    have hholds := @withTester_holds made left base h hh ct { ct with step := .bye } hct rfl (by simp) ho
      (h.blocks ct.addr) h.ledger rfl fun own hown => hh.owns.congr (by rw [hown, add_assoc])
    rw [Function.update_eq_self] at hholds
    exact hholds.leaves rfl rfl

/-- `audio_receive_frame` reallocates the samples of a tester at RECORDING. -/
theorem audioReceiveFrame_leaves (hplace : place.Sound) (hh : Holds h made left base) (n : UInt32)
    (pcm : List Int16) (count : ℕ) (channels : UInt8) (rate : UInt32) :
    Leaves made left base (callEvent h.test (.audioReceiveFrame n pcm count channels rate))
      (callEventAt place h (.audioReceiveFrame n pcm count channels rate)) := by
  have hordered : ∀ {s notes}, callEvent h.test (.audioReceiveFrame n pcm count channels rate) = .ok (s, notes) →
      s.Ordered := hh.ordered_event _
  have hsame : Leaves made left base (.ok (h.test, [])) (.ok (h, [])) := hh.leaves rfl rfl
  simp only [callEvent, callEventAt, CallTest.audioReceiveFrame, CallHeap.audioReceiveFrame] at hordered ⊢
  cases hget : callTesterByFriendNumber h.test.calltesters n with
  | none => exact hsame
  | some ct =>
    rw [hget] at hordered
    dsimp only at hordered ⊢
    by_cases hstep : ct.step ≠ .recording
    · rw [if_pos hstep, if_pos hstep]
      exact hsame
    rw [if_neg hstep] at hordered ⊢
    rw [if_neg hstep]
    obtain ⟨hct, -⟩ := (callTesterByFriendNumber_eq_some hh.ordered.nodup_friends).mp hget
    obtain ⟨own, hown⟩ : ∃ own, testersOwn h.blocks h.test.calltesters = (h.blocks ct.addr).held + own := by
      obtain ⟨done, rest, hlist⟩ := List.append_of_mem hct
      exact ⟨testersOwn h.blocks done + testersOwn h.blocks rest, by
        rw [hlist, testersOwn_append, testersOwn_cons]; abel⟩
    have hpcm : Owns h.ledger (block (h.blocks ct.addr).pcm + ({(h.blocks ct.addr).ctrecord} +
        (block (h.blocks ct.addr).playback + {(h.blocks ct.addr).tester}) +
          (own + (namesOf h.blocks made + left)))) base := hh.owns.congr (by rw [hown, TesterBlocks.held]; abel)
    obtain ⟨moved, L, hok, ho⟩ := reallocBlock_spec hplace (channels.toNat * (count + ct.ctrecord.samplesCount)) hpcm
    rw [hok]
    cases hreceive : receiveFrame ct.ctrecord pcm count channels rate with
    | error f => rfl
    | ok ctrecord =>
      rw [hreceive] at hordered
      have hrecording : ct.step = .recording := not_not.mp hstep
      have hholds := @withTester_holds made left base h hh ct { ct with ctrecord } hct rfl (by simp [hrecording])
        (hordered rfl) { h.blocks ct.addr with pcm := moved } L rfl fun own' hown' => by
          obtain rfl : own = own' := add_left_cancel (hown.symm.trans hown')
          exact ho.congr (by rw [TesterBlocks.held]; abel)
      exact hholds.leaves rfl rfl

/-- `calltest_iterate`, with the blocks of all testers. -/
theorem calltestIterate_leaves (hplace : place.Sound) (hh : Holds h made left base) (tp : Timespec)
    (replies : UInt32 → Reply) :
    Leaves made left base (callEvent h.test (.calltestIterate tp replies))
      (callEventAt place h (.calltestIterate tp replies)) := by
  have hordered : ∀ {s notes}, callEvent h.test (.calltestIterate tp replies) = .ok (s, notes) → s.Ordered :=
    hh.ordered_event _
  have hwalk := @iterateFromAt_walks place (namesOf h.blocks made + left) base hplace tp replies
    (fun addr => (h.blocks addr).outfilename)
    h.test.calltesters h.test.calltesters.length h [] rfl hh.ordered.addrs (fun _ => rfl) hh.owns
    hh.unplayed
  have hevent : callEvent h.test (.calltestIterate tp replies) =
    calltestIterateFrom tp replies h.test.calltesters.length h.test (h.test.calltesters.head?.map CallTester.addr) >>=
      fun r => pure (r.1, r.2.map Note.deed) := rfl
  have heventAt : callEventAt place h (.calltestIterate tp replies) =
    iterateFromAt place tp replies h.test.calltesters.length h (h.test.calltesters.head?.map CallTester.addr) >>=
      fun r => pure (r.1, r.2.map Note.deed) := rfl
  have hdoes := fun {s notes} => @does_callEvent h.test s (.calltestIterate tp replies) notes hh.ordered
  rw [hevent] at hordered hdoes ⊢
  rw [heventAt]
  cases hr : calltestIterateFrom tp replies h.test.calltesters.length h.test
      (h.test.calltesters.head?.map CallTester.addr) with
  | error f =>
    rw [hr] at hwalk
    rw [show iterateFromAt place tp replies _ _ _ = _ from hwalk]
    rfl
  | ok r =>
    obtain ⟨s, deeds⟩ := r
    rw [hr] at hwalk hordered hdoes
    obtain ⟨h', hat, rfl, hnames, howns, hplay⟩ := hwalk
    rw [hat]
    have hholds : Holds h' made left base := by
      refine ⟨hordered rfl, ?_, hplay, fun addr haddr => (hh.fresh addr haddr).trans_le (nextAddr_le (hdoes rfl))⟩
      rwa [namesOf_congr fun addr _ => hnames addr]
    exact hholds.leaves rfl (addedIn_deeds deeds)

/-- **An event**, with the blocks. -/
theorem callEventAt_leaves (hplace : place.Sound) (hh : Holds h made left base) (e : CallEvent) :
    Leaves made left base (callEvent h.test e) (callEventAt place h e) := by
  cases e with
  | call n audio video answered alloc => exact addEntry_leaves hplace hh n alloc rfl
  | callState n state alloc => exact callState_leaves hplace hh n state alloc
  | audioReceiveFrame n pcm count channels rate => exact audioReceiveFrame_leaves hplace hh n pcm count channels rate
  | calltestIterate tp replies => exact calltestIterate_leaves hplace hh tp replies

/-- **A run**, with the blocks. -/
theorem callEventsAt_leaves (hplace : place.Sound) {es : List CallEvent} : ∀ {h : CallHeap} {made : List ℕ},
    Holds h made left base → Leaves made left base (callEvents h.test es) (callEventsAt place h es) := by
  induction es with
  | nil => exact fun hh => hh.leaves rfl rfl
  | cons e es ih =>
    intro h made hh
    have hevent := callEventAt_leaves hplace hh e
    rw [callEvents, callEventsAt]
    cases hr : callEvent h.test e with
    | error f =>
      rw [hr] at hevent
      rw [show callEventAt place h e = _ from hevent]
      rfl
    | ok r =>
      obtain ⟨s, notes⟩ := r
      rw [hr] at hevent
      obtain ⟨h₁, hat, rfl, hh₁⟩ := hevent
      have hrest := ih hh₁
      rw [hat]
      simp only [ok_bind]
      cases hr : callEvents h₁.test es with
      | error f =>
        rw [hr] at hrest
        rw [show callEventsAt place h₁ es = _ from hrest]
        rfl
      | ok r =>
        obtain ⟨s, rest⟩ := r
        rw [hr] at hrest
        obtain ⟨h₂, hat₂, rfl, hh₂⟩ := hrest
        rw [hat₂]
        refine ⟨h₂, rfl, rfl, ?_⟩
        rwa [addedIn_append, ← List.append_assoc]

/-- At the start there is the greeting. -/
theorem init_holds (hplace : place.Sound) (greeter : Option Record) (outbox : Outbox) (nextAddr : ℕ) (L : Ledger) :
    Holds (.init place greeter outbox nextAddr L) [] (CallHeap.init place greeter outbox nextAddr L).greeting
      L.val := by
  have hordered := ordered_start greeter outbox nextAddr
  have hnone : ∀ ct ∈ ([] : List CallTester), ct.step = .entering →
      ((CallHeap.init place greeter outbox nextAddr L).blocks ct.addr).playback = none := by simp
  cases greeter with
  | none => exact ⟨hordered, Owns.nothing, hnone, by simp⟩
  | some greeter =>
    refine ⟨hordered, ((Owns.nothing.alloc hplace).alloc hplace).congr ?_, hnone, by simp⟩
    simp [testersOwn, namesOf, CallHeap.init, CallHeap.greeting, CallTest.init, alloc, add_comm]

end

/-- **The testers leave the names of their files**, and nothing else. Any run of the call test comes to what it comes
to without the blocks; no block is given back twice, and after `calltest_destroy` what is left is the name of each
tester that was made, and the greeting. -/
theorem testers_leave_names {place : Placement} (hplace : place.Sound) (greeter : Option Record) (outbox : Outbox)
    (nextAddr : ℕ) (es : List CallEvent) (L : Ledger) :
    match callEvents (.init greeter outbox nextAddr) es with
    | .error f => callEventsAt place (.init place greeter outbox nextAddr L) es = .error f
    | .ok (s, notes) => ∃ h L', callEventsAt place (.init place greeter outbox nextAddr L) es = .ok (h, notes) ∧
        h.test = s ∧ callTestersDestroy h.blocks s.calltesters h.ledger = .ok L' ∧
        Owns L' (namesOf h.blocks (addedIn notes) + (CallHeap.init place greeter outbox nextAddr L).greeting)
          L.val := by
  have hrun : Leaves [] _ L.val (callEvents (.init greeter outbox nextAddr) es)
    (callEventsAt place (.init place greeter outbox nextAddr L) es) :=
      callEventsAt_leaves hplace (init_holds hplace greeter outbox nextAddr L)
  cases hr : callEvents (.init greeter outbox nextAddr) es with
  | error f =>
    rw [hr] at hrun
    exact hrun
  | ok r =>
    obtain ⟨s, notes⟩ := r
    rw [hr] at hrun
    obtain ⟨h, hat, rfl, hh⟩ := hrun
    obtain ⟨L', hdestroy, ho⟩ := callTestersDestroy_spec hh.owns
    exact ⟨h, L', hat, rfl, hdestroy, ho⟩

/-- A friend calls and hangs up before the greeting. -/
def hungUpRun : List CallEvent :=
  [.call 0 true false true someAlloc, .callState 0 STATE_FINISHED someAlloc, .calltestIterate ⟨1, 0⟩ fun _ => someReply]

/-- Its tester is destroyed, and the name of its file stays. -/
theorem testers_leave_names_hungUp : ∃ h L',
    callEventsAt above (.init above none ⟨[], [], []⟩ 0 ∅) hungUpRun =
        .ok (h, [.answer 0 48 0, .added 0, .deed ⟨0, 0, .bye, ⟨1, 0⟩, .control .cancel⟩]) ∧
      h.test.calltesters = [] ∧ callTestersDestroy h.blocks [] h.ledger = .ok L' ∧
      Owns L' {(h.blocks 0).outfilename} 0 := by
  have hok : callEvents (.init none ⟨[], [], []⟩ 0) hungUpRun = .ok (⟨[], none, ⟨[], [], []⟩, 1⟩,
      [.answer 0 48 0, .added 0, .deed ⟨0, 0, .bye, ⟨1, 0⟩, .control .cancel⟩]) := rfl
  have hrun := testers_leave_names above_sound none ⟨[], [], []⟩ 0 hungUpRun ∅
  rw [hok] at hrun
  obtain ⟨h, L', hat, htest, hdestroy, ho⟩ := hrun
  exact ⟨h, L', hat, congrArg CallTest.calltesters htest, hdestroy, ho⟩

end ToxSuite.Call
