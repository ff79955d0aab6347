import ToxSuite.Suit.Pending

/-!
# How long the loop sleeps

At the end of its body the loop sleeps for a tenth of what is left of the smallest of
three delays: the smallest less the time since it slept last. All of these are unsigned,
and the loop may come to its end late, so the difference may wrap around. What is passed
to `nanosleep` is a valid number of nanoseconds, and no more than a tenth of the smallest
delay, if and only if the loop never comes to its end later than that delay
(`sleeps_bounded_iff`). The first time it always does, unless the clock has just been
started.
-/

namespace ToxSuite.Suit

open ToxSuite.Lib ToxSuite.Friend

/-! ### The smallest delay -/

/-- The delays fit `min`, which takes them for `int`s. -/
structure Tick.Modest (tick : Tick) : Prop where
  calltest : tick.calltestDelay.toNat < 2 ^ 31
  tox : tick.toxDelay.toNat < 2 ^ 31
  toxav : tick.toxavDelay.toNat < 2 ^ 31

/-- The smallest of the three delays. -/
def Tick.smallest (tick : Tick) : ℕ := min (min tick.calltestDelay.toNat tick.toxDelay.toNat) tick.toxavDelay.toNat

theorem argInt_toInt {a : UInt64} (h : a.toNat < 2 ^ 31) : (argInt a).toInt = a.toNat := by
  have hcut : (argInt a).toInt = (a.toUInt32.toBitVec).toInt := rfl
  have hnat : a.toUInt32.toBitVec.toNat = a.toNat := by
    show a.toUInt32.toNat = a.toNat
    rw [UInt64.toNat_toUInt32]
    omega
  rw [hcut, BitVec.toInt_eq_toNat_cond, hnat, if_pos (by omega)]

/-- `min` is the minimum. -/
theorem cMin_toInt (a b c : Int32) : (cMin a [b, c]).toInt = min (min a.toInt b.toInt) c.toInt := by
  have hmin (a b : Int32) : (if b < a then b else a).toInt = min a.toInt b.toInt := by
    split_ifs with hlt
    · exact (min_eq_right (Int32.lt_iff_toInt_lt.mp hlt).le).symm
    · exact (min_eq_left (not_lt.mp fun h => hlt (Int32.lt_iff_toInt_lt.mpr h))).symm
  simp only [cMin, List.foldl_cons, List.foldl_nil, hmin]

/-- A `long` that is not negative stays what it is as a `uint64_t`. -/
theorem toNat_toUInt64 {x : Int64} (h : 0 ≤ x.toInt) : (x.toUInt64.toNat : ℤ) = x.toInt := by
  have hbits : x.toInt = x.toBitVec.toInt := rfl
  have hnat : x.toUInt64.toNat = x.toBitVec.toNat := rfl
  have hlt := x.toBitVec.isLt
  rw [hbits, BitVec.toInt_eq_toNat_cond] at h ⊢
  split_ifs at h ⊢ <;> omega

/-- What the loop computes from the smallest delay `m` and the time since it slept last. -/
theorem sleepDelay_toNat {tick : Tick} (hm : tick.Modest) {elapsed : ℤ} (hnonneg : 0 ≤ elapsed)
    (hlt : elapsed < 2 ^ 63) :
    ((sleepDelay tick.calltestDelay tick.toxDelay tick.toxavDelay elapsed).toNat : ℤ) =
      (tick.smallest - elapsed) % 2 ^ 64 / 10 := by
  have hmin : (cMin (argInt tick.calltestDelay) [argInt tick.toxDelay, argInt tick.toxavDelay]).toInt =
      tick.smallest := by
    rw [cMin_toInt, argInt_toInt hm.calltest, argInt_toInt hm.tox, argInt_toInt hm.toxav, Tick.smallest]
    omega
  unfold sleepDelay
  generalize cMin (argInt tick.calltestDelay) [argInt tick.toxDelay, argInt tick.toxavDelay] = delay at hmin ⊢
  have hdelay : (delay.toInt64.toUInt64.toNat : ℤ) = tick.smallest := by
    rw [toNat_toUInt64 (by rw [Int32.toInt_toInt64]; omega), Int32.toInt_toInt64, hmin]
  have hof := toNat_ofInt elapsed
  rw [Int.emod_eq_of_lt hnonneg (by omega)] at hof
  have hsub := UInt64.toNat_sub delay.toInt64.toUInt64 (UInt64.ofInt elapsed)
  have hten : (10 : UInt64).toNat = 10 := rfl
  have hbound := delay.toInt64.toUInt64.toNat_lt
  dsimp only
  rw [UInt64.toNat_div, hten]
  omega

/-! ### One iteration -/

/-- If the iteration sleeps, then for a valid number of nanoseconds, and for a tenth of the smallest
delay at most. -/
def SleepsBounded (hex2bin : Hex2Bin) (s : Loop) (tick : Tick) : Prop :=
  tick.Modest → ∀ s' fileDo saveProfile delay,
    iteration hex2bin s tick = .ok (s', .rest fileDo saveProfile delay) →
      delay.toNat ≤ 999999999 ∧ 10 * delay.toNat ≤ tick.smallest

/-- If the iteration is to sleep, it is no later after the last sleep than by the smallest delay. -/
def OnTime (s : Loop) (tick : Tick) : Prop :=
  tick.Modest → RestDue s tick → tick.tpnow.ns - s.tsprev.ns ≤ tick.smallest

variable {hex2bin : Hex2Bin}

theorem timespecSubtract_ns {a b d : Timespec} (h : timespecSubtract a b = .ok d) : d.ns = a.ns - b.ns := by
  obtain ⟨tvNsec, hnsec, h⟩ := bind_eq_ok.mp h
  obtain ⟨rfl, -⟩ := long_ok hnsec
  simp only [Timespec.ns_eq, NSEC_PER_SEC] at h ⊢
  split_ifs at h with hborrow
  · obtain ⟨tvNsec, hnsec, h⟩ := bind_eq_ok.mp h
    obtain ⟨rfl, -⟩ := long_ok hnsec
    obtain ⟨tvSec, hsec, h⟩ := bind_eq_ok.mp h
    obtain ⟨rfl, -⟩ := long_ok hsec
    obtain ⟨tvSec, hsec, h⟩ := bind_eq_ok.mp h
    obtain ⟨rfl, -⟩ := long_ok hsec
    cases h
    dsimp only
    omega
  · obtain ⟨tvSec, hsec, h⟩ := bind_eq_ok.mp h
    obtain ⟨rfl, -⟩ := long_ok hsec
    cases h
    dsimp only
    omega

/-- The rest of the body sleeps, and remembers when. -/
theorem restOfBody_sleeps {s s' : Loop} {tick : Tick} {branch : Branch} (h : restOfBody s tick = .ok (s', branch)) :
    s'.tsprev = tick.tpnow ∧ tick.tpnow.ns - s.tsprev.ns < 2 ^ 63 ∧ ∃ fileDo saveProfile, branch =
      .rest fileDo saveProfile (sleepDelay tick.calltestDelay tick.toxDelay tick.toxavDelay
        (tick.tpnow.ns - s.tsprev.ns)) := by
  obtain ⟨fileDo, -, h⟩ := bind_eq_ok.mp h
  obtain ⟨tselasped, helapsed, h⟩ := bind_eq_ok.mp h
  obtain ⟨elapsed, hns, h⟩ := bind_eq_ok.mp h
  obtain ⟨rfl, -, hlt⟩ := timespecToNs_ok hns
  cases h
  rw [timespecSubtract_ns helapsed] at hlt ⊢
  exact ⟨rfl, hlt, _, _, rfl⟩

/-- A sleep is bounded just when what is left of the smallest delay does not wrap around. -/
theorem bounded_iff {m : ℕ} (hm : m < 2 ^ 31) {elapsed : ℤ} (hnonneg : 0 ≤ elapsed) (hlt : elapsed < 2 ^ 63)
    {delay : ℕ} (hdelay : (delay : ℤ) = (m - elapsed) % 2 ^ 64 / 10) :
    delay ≤ 999999999 ∧ 10 * delay ≤ m ↔ elapsed ≤ m := by
  by_cases hle : elapsed ≤ m
  · rw [Int.emod_eq_of_lt (by omega) (by omega)] at hdelay
    exact iff_of_true (by omega) hle
  · have hwrap : ((m : ℤ) - elapsed) % 2 ^ 64 = m - elapsed + 2 ^ 64 := by omega
    exact iff_of_false (by omega) hle

theorem smallest_lt {tick : Tick} (hm : tick.Modest) : tick.smallest < 2 ^ 31 :=
  (min_le_right _ _).trans_lt hm.toxav

theorem sleepsBounded_iff {s s' : Loop} {tick : Tick} (h : loopStep hex2bin s tick = some s')
    (hclock : s.tsprev.ns ≤ tick.tpnow.ns) : SleepsBounded hex2bin s tick ↔ OnTime s tick := by
  obtain ⟨branch, hiter⟩ := iteration_of_loopStep h
  refine forall_congr' fun hm => ?_
  rcases iteration_cases hiter with ⟨hrest, hbody⟩ | ⟨hbusy, -, -, hbranch⟩
  · obtain ⟨-, hlt, fileDo, saveProfile, rfl⟩ := restOfBody_sleeps hbody
    have hiff := bounded_iff (smallest_lt hm) (by omega) hlt (sleepDelay_toNat hm (by omega) hlt)
    constructor
    · exact fun hbounded _ => hiff.mp (hbounded _ _ _ _ hiter)
    · intro hontime s'' fileDo' saveProfile' delay hiter'
      cases hiter.symm.trans hiter'
      exact hiff.mpr (hontime hrest)
  · refine iff_of_true (fun s'' fileDo saveProfile delay hiter' => ?_) fun hrest => absurd hrest hbusy
    cases hiter.symm.trans hiter'
    exact absurd rfl (hbranch _ _ _)

/-! ### Runs -/

/-- The clock does not go back: from the last sleep on, and from one iteration to the next. -/
structure Clocked (s : Loop) (ticks : List Tick) : Prop where
  last : ∀ tick ∈ ticks, s.tsprev.ns ≤ tick.tpnow.ns
  mono : ticks.Pairwise fun a b => a.tpnow.ns ≤ b.tpnow.ns

theorem clocked_loopStep {s s' : Loop} {tick : Tick} {ticks : List Tick} (h : loopStep hex2bin s tick = some s')
    (hc : Clocked s (tick :: ticks)) : Clocked s' ticks := by
  obtain ⟨hlast, hmono⟩ := hc
  rw [List.pairwise_cons] at hmono
  refine ⟨fun t ht => ?_, hmono.2⟩
  obtain ⟨branch, hiter⟩ := iteration_of_loopStep h
  rcases iteration_cases hiter with ⟨-, hbody⟩ | ⟨-, hsame, -⟩
  · rw [(restOfBody_sleeps hbody).1]
    exact hmono.1 t ht
  · rw [hsame]
    exact hlast t (List.mem_cons_of_mem _ ht)

/-- **The loop sleeps a valid, bounded time** in every iteration of a run if and only if it never comes
to its end later after its last sleep than by the smallest delay. -/
theorem sleeps_bounded_iff (hex2bin : Hex2Bin) (contacts : Contacts) (shouldSaveConfig : Bool) {ticks : List Tick}
    (hvalid : ∀ tick ∈ ticks, timespecValid tick.tpnow)
    (hmono : ticks.Pairwise fun a b => a.tpnow.ns ≤ b.tpnow.ns) :
    Along (loopStep hex2bin) (SleepsBounded hex2bin) (.start contacts shouldSaveConfig) ticks ↔
      Along (loopStep hex2bin) OnTime (.start contacts shouldSaveConfig) ticks := by
  have hstart : Clocked (.start contacts shouldSaveConfig) ticks := ⟨fun tick ht => ns_nonneg (hvalid tick ht), hmono⟩
  refine along_congr_of_ahead (I := Clocked) (fun s tick ticks s' hstep hc _ => clocked_loopStep hstep hc) ?_ hstart
  intro s tick ticks s' hstep hc
  exact sleepsBounded_iff hstep (hc.last tick List.mem_cons_self)

/-- An iteration some milliseconds after the machine was booted. -/
def justUp (ms : ℤ) : Tick := ⟨⟨0, ms * 1000000⟩, 1500000000, 999999999, 50, 20, []⟩

/-- Two iterations in the first 20 ms of the clock, 2 ms apart. -/
theorem sleeps_bounded_justUp :
    Along (loopStep fun buf _ => buf) (SleepsBounded fun buf _ => buf) (.start ⟨newTox, []⟩ false)
      [justUp 10, justUp 12] := by
  refine (sleeps_bounded_iff _ _ _ (by decide) (by decide)).mpr fun s hs => ?_
  cases hs
  refine ⟨fun _ _ => by decide, fun s hs => ?_⟩
  cases hs
  exact ⟨fun _ _ => by decide, trivial⟩

/-- A second after the machine was booted, the first sleep is for more than 50 years. -/
theorem first_sleep_wraps :
    timespecValid secondUp.tpnow ∧ ∃ s s', runEvents (loopStep fun buf _ => buf) (.start ⟨newTox, []⟩ false)
        [secondUp, secondUp, secondUp] = some s ∧
      iteration (fun buf _ => buf) s secondUp = .ok (s', .rest true false 1844674407272955161) ∧
      ¬ Along (loopStep fun buf _ => buf) (SleepsBounded fun buf _ => buf) (.start ⟨newTox, []⟩ false)
        [secondUp, secondUp, secondUp, secondUp] := by
  refine ⟨rfl, _, _, rfl, rfl, fun h => ?_⟩
  have hbounded : SleepsBounded (fun buf _ => buf) _ secondUp := ((((h _ rfl).2 _ rfl).2 _ rfl).2 _ rfl).1
  have hvalid := (hbounded ⟨by decide, by decide, by decide⟩ _ _ _ _ rfl).1
  exact absurd hvalid (by decide)

end ToxSuite.Suit
