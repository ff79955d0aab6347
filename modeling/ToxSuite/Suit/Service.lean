import Mathlib.Data.Fin.VecNotation
import Mathlib.Tactic.FinCases
import ToxSuite.Lib.Polling
import ToxSuite.Suit.Pending

/-!
# Which branch the loop takes

The loop looks at its four timed branches in the order of their priority. On readings of a
clock that does not go back an iteration takes the first that is due, and none if none is
(`iteration_polls`); what polling by priority guarantees is then true of the loop. No branch
is taken twice within its delay, and a branch that is due is taken after as many iterations as there
are branches before it, if in these none of them comes round again (`branches_keep_time`): the
call test, which comes first, leaves `tox_iterate` one iteration in two only if the loop goes
round faster than the test wants to be called.
-/

namespace ToxSuite.Suit

open ToxSuite.Lib ToxSuite.Friend

/-! ### One iteration -/

/-- The place of a timed branch in the body. -/
def Branch.index : Branch → Option (Fin 4)
  | .calltest => some 0
  | .tox => some 1
  | .toxav => some 2
  | .purge => some 3
  | .rest .. => none

/-- When the timed branches were taken last. -/
def Loop.stamps (s : Loop) : Fin 4 → Timespec := ![s.tscalltest, s.tstox, s.tsav, s.tsfriend]

/-- When the timed branches were taken last, in nanoseconds. -/
def Loop.last (s : Loop) (i : Fin 4) : ℤ := (s.stamps i).ns

/-- What the timed branches wait. -/
def Tick.timeouts (tick : Tick) : Fin 4 → UInt64 :=
  ![tick.calltestDelay, tick.toxDelay, tick.toxavDelay, UInt64.ofInt (FRIEND_PURGE_INTERVAL * NSEC_PER_SEC)]

/-- An iteration as a pass. -/
def Tick.poll (tick : Tick) : Poll 4 := ⟨tick.tpnow.ns, fun i => (tick.timeouts i).toNat⟩

/-- The times of the loop are readings of a clock that has not gone back. -/
def Loop.Timed (s : Loop) (tpnow : Timespec) : Prop := ∀ i, (s.stamps i).Reading ∧ (s.stamps i).ns ≤ tpnow.ns

variable {hex2bin : Hex2Bin}

/-- A branch is due when its time is out. -/
theorem due_iff {s : Loop} {tick : Tick} (hs : s.Timed tick.tpnow) (hnow : tick.tpnow.Reading) (i : Fin 4) :
    nanosecTimeout (s.stamps i) tick.tpnow (tick.timeouts i) = .ok (decide (tick.poll.Due s.last i)) :=
  nanosecTimeout_eq (hs i).1 hnow (hs i).2 _

/-- The time of a branch that is taken is now, and the others stay as they are. -/
theorem stamps_of_index {s s' : Loop} {tick : Tick} {branch : Branch}
    (h : iteration hex2bin s tick = .ok (s', branch)) :
    s'.stamps = branch.index.elim s.stamps fun i => Function.update s.stamps i tick.tpnow := by
  have hfun : ∀ {f g : Fin 4 → Timespec}, f 0 = g 0 → f 1 = g 1 → f 2 = g 2 → f 3 = g 3 → f = g := by
    intro f g h0 h1 h2 h3
    funext i
    fin_cases i <;> assumption
  simp only [iteration, bind_ite_eq_ok] at h
  rcases h with ⟨-, h⟩ | ⟨-, ⟨-, h⟩ | ⟨-, ⟨-, h⟩ | ⟨-, ⟨-, h⟩ | ⟨-, h⟩⟩⟩⟩
  · cases h
    exact hfun rfl rfl rfl rfl
  · obtain ⟨contacts, -, h⟩ := bind_eq_ok.mp h
    cases h
    exact hfun rfl rfl rfl rfl
  · cases h
    exact hfun rfl rfl rfl rfl
  · obtain ⟨now, -, h⟩ := bind_eq_ok.mp h
    cases h
    exact hfun rfl rfl rfl rfl
  · obtain ⟨fileDo, -, h⟩ := bind_eq_ok.mp h
    obtain ⟨tselasped, -, h⟩ := bind_eq_ok.mp h
    obtain ⟨elapsed, -, h⟩ := bind_eq_ok.mp h
    cases h
    rfl

/-- An iteration takes the first branch that is due. -/
theorem index_eq_first {s s' : Loop} {tick : Tick} {branch : Branch} (hs : s.Timed tick.tpnow)
    (hnow : tick.tpnow.Reading) (h : iteration hex2bin s tick = .ok (s', branch)) :
    branch.index = tick.poll.first s.last := by
  have hdue := due_iff hs hnow
  have h0 : nanosecTimeout s.tscalltest tick.tpnow tick.calltestDelay = _ := hdue 0
  have h1 : nanosecTimeout s.tstox tick.tpnow tick.toxDelay = _ := hdue 1
  have h2 : nanosecTimeout s.tsav tick.tpnow tick.toxavDelay = _ := hdue 2
  have h3 : nanosecTimeout s.tsfriend tick.tpnow (UInt64.ofInt (FRIEND_PURGE_INTERVAL * NSEC_PER_SEC)) = _ := hdue 3
  simp only [iteration, bind_ite_eq_ok, h0, h1, h2, h3, Except.ok.injEq, decide_eq_true_eq,
    decide_eq_false_iff_not] at h
  have hfirst : ∀ i, tick.poll.Due s.last i → (∀ j < i, ¬ tick.poll.Due s.last j) → some i = tick.poll.first s.last :=
    fun i hi hj => (first_eq_some.mpr ⟨hi, hj⟩).symm
  rcases h with ⟨d0, h⟩ | ⟨d0, ⟨d1, h⟩ | ⟨d1, ⟨d2, h⟩ | ⟨d2, ⟨d3, h⟩ | ⟨d3, h⟩⟩⟩⟩
  · cases h
    exact hfirst 0 d0 fun j hj => absurd hj (by simp)
  · obtain ⟨contacts, -, h⟩ := bind_eq_ok.mp h
    cases h
    refine hfirst 1 d1 fun j hj => ?_
    fin_cases j <;> simp_all
  · cases h
    refine hfirst 2 d2 fun j hj => ?_
    fin_cases j <;> simp_all
  · obtain ⟨rfl, -⟩ := purgeFriends_ok h
    refine hfirst 3 d3 fun j hj => ?_
    fin_cases j <;> simp_all
  · obtain ⟨fileDo, -, h⟩ := bind_eq_ok.mp h
    obtain ⟨tselasped, -, h⟩ := bind_eq_ok.mp h
    obtain ⟨elapsed, -, h⟩ := bind_eq_ok.mp h
    cases h
    refine (first_eq_none.mpr fun i => ?_).symm
    fin_cases i
    exacts [d0, d1, d2, d3]

/-- **An iteration polls**: it takes the first branch that is due, and its times are readings again. -/
theorem iteration_polls {s s' : Loop} {tick : Tick} {branch : Branch} (hs : s.Timed tick.tpnow)
    (hnow : tick.tpnow.Reading) (h : iteration hex2bin s tick = .ok (s', branch)) :
    branch.index = tick.poll.first s.last ∧ s'.last = tick.poll.after s.last ∧ s'.Timed tick.tpnow := by
  have hindex := index_eq_first hs hnow h
  have hstamps := stamps_of_index h
  refine ⟨hindex, ?_, fun i => ?_⟩
  · funext i
    rw [Poll.after, ← hindex, Loop.last, hstamps]
    cases branch.index with
    | none => rfl
    | some j =>
      rw [Option.elim_some, Option.elim_some]
      by_cases hj : i = j
      · subst hj
        rw [Function.update_self, Function.update_self]
        rfl
      · rw [Function.update_of_ne hj, Function.update_of_ne hj]
        rfl
  · rw [hstamps]
    cases branch.index with
    | none => exact hs i
    | some j =>
      rw [Option.elim_some]
      by_cases hj : i = j
      · subst hj
        rw [Function.update_self]
        exact ⟨hnow, le_rfl⟩
      · rw [Function.update_of_ne hj]
        exact hs i

/-! ### Runs -/

/-- The iterations one after the other, and the branches they take. -/
def iterations (hex2bin : Hex2Bin) : Loop → List Tick → Except Fault (Loop × List Branch)
  | s, [] => pure (s, [])
  | s, tick :: ticks => do
    let (s, branch) ← iteration hex2bin s tick
    let (s, branches) ← iterations hex2bin s ticks
    pure (s, branch :: branches)

/-- The readings of the clock: it does not go back. -/
structure Readings (ticks : List Tick) : Prop where
  reading : ∀ tick ∈ ticks, tick.tpnow.Reading
  mono : ticks.Pairwise fun a b => a.tpnow.ns ≤ b.tpnow.ns

/-- **A run polls**. -/
theorem iterations_poll {ticks : List Tick} : ∀ {s s' : Loop} {branches : List Branch}, Readings ticks →
    (∀ tick ∈ ticks, s.Timed tick.tpnow) → iterations hex2bin s ticks = .ok (s', branches) →
      branches.map Branch.index = taken s.last (ticks.map Tick.poll) := by
  induction ticks with
  | nil =>
    intro s s' branches _ _ h
    cases h
    rfl
  | cons tick ticks ih =>
    intro s s' branches ⟨hread, hmono⟩ hs h
    rw [List.forall_mem_cons] at hread hs
    rw [List.pairwise_cons] at hmono
    obtain ⟨⟨s₁, branch⟩, hiter, h⟩ := bind_eq_ok.mp h
    obtain ⟨⟨s₂, branches'⟩, hrest, h⟩ := bind_eq_ok.mp h
    cases h
    obtain ⟨hindex, hlast, htimed⟩ := iteration_polls hs.1 hread.1 hiter
    have htimed' : ∀ tick ∈ ticks, s₁.Timed tick.tpnow := fun t ht i =>
      ⟨(htimed i).1, (htimed i).2.trans (hmono.1 t ht)⟩
    rw [List.map_cons, List.map_cons, taken, hindex, ← hlast, ih ⟨hread.2, hmono.2⟩ htimed' hrest]

/-- What a run leaves of the times, for what comes after it. -/
theorem iterations_timed {ticks : List Tick} {tpnow : Timespec} : ∀ {s s' : Loop} {branches : List Branch},
    Readings ticks → (∀ tick ∈ ticks, s.Timed tick.tpnow ∧ tick.tpnow.ns ≤ tpnow.ns) → s.Timed tpnow →
      iterations hex2bin s ticks = .ok (s', branches) → s'.Timed tpnow := by
  induction ticks with
  | nil =>
    intro s s' branches _ _ hs h
    cases h
    exact hs
  | cons tick ticks ih =>
    intro s s' branches ⟨hread, hmono⟩ hticks hs h
    rw [List.forall_mem_cons] at hread hticks
    rw [List.pairwise_cons] at hmono
    obtain ⟨⟨s₁, branch⟩, hiter, h⟩ := bind_eq_ok.mp h
    obtain ⟨⟨s₂, branches'⟩, hrest, h⟩ := bind_eq_ok.mp h
    cases h
    obtain ⟨-, -, htimed⟩ := iteration_polls hticks.1.1 hread.1 hiter
    refine ih ⟨hread.2, hmono.2⟩ (fun t ht => ⟨fun i => ?_, (hticks.2 t ht).2⟩) (fun i => ?_) hrest
    · exact ⟨(htimed i).1, (htimed i).2.trans (hmono.1 t ht)⟩
    · exact ⟨(htimed i).1, (htimed i).2.trans hticks.1.2⟩

/-- The loop is entered with all times at the start of the clock. -/
theorem timed_start (contacts : Contacts) (shouldSaveConfig : Bool) {tpnow : Timespec} (h : tpnow.Reading) :
    (Loop.start contacts shouldSaveConfig).Timed tpnow := by
  have hzero : (⟨0, 0⟩ : Timespec).Reading := ⟨rfl, by decide⟩
  intro i
  have hstamp : (Loop.start contacts shouldSaveConfig).stamps i = ⟨0, 0⟩ := by fin_cases i <;> rfl
  rw [hstamp]
  exact ⟨hzero, ns_nonneg h.1⟩

/-- **The branches keep time.** In any run of the loop, two iterations that take one branch are as far apart as its
delay. Where a branch is due in more iterations than there are branches before it, and none of those can come round
again within them, it is taken in one of them. -/
theorem branches_keep_time (hex2bin : Hex2Bin) (contacts : Contacts) (shouldSaveConfig : Bool)
    {before window : List Tick} (hclock : Readings (before ++ window)) {s s' : Loop} {past branches : List Branch}
    (hbefore : iterations hex2bin (.start contacts shouldSaveConfig) before = .ok (s, past))
    (hwindow : iterations hex2bin s window = .ok (s', branches)) :
    (window.zip branches).Pairwise (fun a b => ∀ i, a.2.index = some i → b.2.index = some i →
        ((b.1.timeouts i).toNat : ℤ) ≤ b.1.tpnow.ns - a.1.tpnow.ns) ∧
      ∀ i : Fin 4, i.val < window.length →
        window.Pairwise (fun a b => ∀ j < i, b.tpnow.ns - a.tpnow.ns < ((b.timeouts j).toNat : ℤ)) →
        (∀ tick ∈ window, ((tick.timeouts i).toNat : ℤ) ≤ tick.tpnow.ns - s.last i) →
        some i ∈ branches.map Branch.index := by
  obtain ⟨hread, hmono⟩ := hclock
  rw [List.pairwise_append] at hmono
  obtain ⟨hmono₁, hmono₂, hcross⟩ := hmono
  have hread₁ : ∀ tick ∈ before, tick.tpnow.Reading := fun t ht => hread t (List.mem_append_left _ ht)
  have hread₂ : ∀ tick ∈ window, tick.tpnow.Reading := fun t ht => hread t (List.mem_append_right _ ht)
  have htimed : ∀ tick ∈ window, s.Timed tick.tpnow := fun tick htick => iterations_timed ⟨hread₁, hmono₁⟩
    (fun t ht => ⟨timed_start _ _ (hread₁ t ht), hcross t ht tick htick⟩) (timed_start _ _ (hread₂ tick htick)) hbefore
  have htaken := iterations_poll ⟨hread₂, hmono₂⟩ htimed hwindow
  have hpolls : (window.map Tick.poll).Pairwise fun p q => p.now ≤ q.now := List.pairwise_map.mpr hmono₂
  refine ⟨?_, fun i hlen hhigher hdue => ?_⟩
  · have hspaced := taken_spaced hpolls s.last
    rw [← htaken, List.zip_map, List.pairwise_map] at hspaced
    exact hspaced
  · rw [htaken]
    refine taken_within (by simpa using hlen) hpolls (List.pairwise_map.mpr hhigher) fun p hp => ?_
    obtain ⟨tick, htick, rfl⟩ := List.mem_map.mp hp
    exact hdue tick htick

/-- An iteration in the second second of the clock. -/
def secondIn (ms : ℤ) : Tick := ⟨⟨1, ms * 1000000⟩, 1500000000, 20000000, 50, 20, []⟩

/-- The call test and `tox_iterate` are both due: the second of two iterations calls `tox_iterate`. -/
theorem branches_keep_time_two : ∃ s' branches,
    iterations (fun buf _ => buf) (.start ⟨newTox, []⟩ false) [secondIn 0, secondIn 1] = .ok (s', branches) ∧
      some 1 ∈ branches.map Branch.index := by
  have hclock : Readings ([] ++ [secondIn 0, secondIn 1]) :=
    ⟨List.forall_mem_cons.mpr ⟨⟨rfl, by decide⟩, List.forall_mem_cons.mpr ⟨⟨rfl, by decide⟩, nofun⟩⟩, by decide⟩
  refine ⟨_, _, rfl, ?_⟩
  refine (branches_keep_time (fun buf _ => buf) ⟨newTox, []⟩ false hclock rfl rfl).2 1 (by decide) ?_ ?_
  · decide
  · exact List.forall_mem_cons.mpr ⟨by decide, List.forall_mem_cons.mpr ⟨by decide, nofun⟩⟩

end ToxSuite.Suit
