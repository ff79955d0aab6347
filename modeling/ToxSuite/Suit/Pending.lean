import ToxSuite.Suit.Loop

/-!
# A pending save

`shouldSaveConfig` says that the profile is to be saved. It is set when a profile is
created at start-up (`startUp`) and after a purge of friends; the rest of the loop's
body is to save the profile and take the flag back. The rest of the body takes the flag
back before it looks at it, so it never saves (`restOfBody_ok`): a pending save is kept
by a run of the loop if and only if the rest of the body is never reached while one is
pending (`pending_save_kept_iff`).
-/

namespace ToxSuite.Suit

open ToxSuite.Lib ToxSuite.Friend

/-- The start-up of `main`, as far as the flag goes: the data file can be read and written,
`load_profile` succeeds, `tox_new` succeeds. The flag when the loop is entered; none when the
program exits before. -/
def startUp (access loads creates : Bool) : Option Bool :=
  let shouldSaveConfig := false
  if access then
    if loads then some shouldSaveConfig else none
  else
    let shouldSaveConfig := true
    if creates then some shouldSaveConfig else none

/-- The iteration calls `save_profile`. -/
def Branch.saves : Branch → Bool
  | .rest _ saveProfile _ => saveProfile
  | _ => false

variable {hex2bin : Hex2Bin}

/-- None of the timed branches is due. -/
def RestDue (s : Loop) (tick : Tick) : Prop :=
  nanosecTimeout s.tscalltest tick.tpnow tick.calltestDelay = .ok false ∧
    nanosecTimeout s.tstox tick.tpnow tick.toxDelay = .ok false ∧
    nanosecTimeout s.tsav tick.tpnow tick.toxavDelay = .ok false ∧
    nanosecTimeout s.tsfriend tick.tpnow (UInt64.ofInt (FRIEND_PURGE_INTERVAL * NSEC_PER_SEC)) = .ok false

/-- The rest of the body takes the flag back, and does not save. -/
theorem restOfBody_ok {s s' : Loop} {tick : Tick} {branch : Branch}
    (h : restOfBody s tick = .ok (s', branch)) : s'.shouldSaveConfig = false ∧ branch.saves = false := by
  obtain ⟨fileDo, -, h⟩ := bind_eq_ok.mp h
  obtain ⟨tselasped, -, h⟩ := bind_eq_ok.mp h
  obtain ⟨elapsed, -, h⟩ := bind_eq_ok.mp h
  cases h
  exact ⟨rfl, rfl⟩

/-- A purge sets the flag, and does not sleep. -/
theorem purgeFriends_flag {s s' : Loop} {tick : Tick} {branch : Branch}
    (h : purgeFriends s tick = .ok (s', branch)) : s'.shouldSaveConfig = true ∧ s'.tsprev = s.tsprev := by
  obtain ⟨currentTime, -, h⟩ := bind_eq_ok.mp h
  cases h
  exact ⟨rfl, rfl⟩

/-- **An iteration** takes the rest of the body when no timed branch is due; a timed branch leaves a
flag that is set, and the time of the last sleep, as they are. -/
theorem iteration_cases {s s' : Loop} {tick : Tick} {branch : Branch}
    (h : iteration hex2bin s tick = .ok (s', branch)) :
    (RestDue s tick ∧ restOfBody s tick = .ok (s', branch)) ∨
      (¬ RestDue s tick ∧ s'.tsprev = s.tsprev ∧ (s.shouldSaveConfig = true → s'.shouldSaveConfig = true) ∧
        ∀ fileDo saveProfile delay, branch ≠ .rest fileDo saveProfile delay) := by
  simp only [iteration, bind_ite_eq_ok] at h
  rcases h with ⟨hcalltest, h⟩ | ⟨hcalltest, ⟨htox, h⟩ | ⟨htox, ⟨htoxav, h⟩ | ⟨htoxav, ⟨hfriend, h⟩ | ⟨hfriend, h⟩⟩⟩⟩
  · cases h
    exact .inr ⟨fun hrest => absurd (hrest.1.symm.trans hcalltest) (by simp), rfl, id, by simp⟩
  · obtain ⟨contacts, -, h⟩ := bind_eq_ok.mp h
    cases h
    exact .inr ⟨fun hrest => absurd (hrest.2.1.symm.trans htox) (by simp), rfl, id, by simp⟩
  · cases h
    exact .inr ⟨fun hrest => absurd (hrest.2.2.1.symm.trans htoxav) (by simp), rfl, id, by simp⟩
  · obtain ⟨hflag, hprev⟩ := purgeFriends_flag h
    have hbranch := (purgeFriends_ok h).1
    exact .inr ⟨fun hrest => absurd (hrest.2.2.2.symm.trans hfriend) (by simp), hprev, fun _ => hflag,
      by simp [hbranch]⟩
  · exact .inl ⟨⟨hcalltest, htox, htoxav, hfriend⟩, h⟩

/-- **The flag in an iteration**: the rest of the body takes it back without saving, and no timed
branch does. -/
theorem iteration_flag {s s' : Loop} {tick : Tick} {branch : Branch}
    (h : iteration hex2bin s tick = .ok (s', branch)) :
    (RestDue s tick ∧ s'.shouldSaveConfig = false ∧ branch.saves = false) ∨
      (¬ RestDue s tick ∧ (s.shouldSaveConfig = true → s'.shouldSaveConfig = true)) := by
  rcases iteration_cases h with ⟨hrest, hbody⟩ | ⟨hbusy, -, hkept, -⟩
  · exact .inl ⟨hrest, restOfBody_ok hbody⟩
  · exact .inr ⟨hbusy, hkept⟩

/-- A step of the loop is an iteration that comes to its end. -/
theorem iteration_of_loopStep {s s' : Loop} {tick : Tick} (h : loopStep hex2bin s tick = some s') :
    ∃ branch, iteration hex2bin s tick = .ok (s', branch) := by
  obtain ⟨⟨t, branch⟩, hiter, rfl⟩ := map_eq_ok.mp (toOption_eq_some.mp h)
  exact ⟨branch, hiter⟩

/-- If the iteration takes the flag back, it saves the profile. -/
def KeepsPending (hex2bin : Hex2Bin) (s : Loop) (tick : Tick) : Prop :=
  ∀ s' branch, iteration hex2bin s tick = .ok (s', branch) →
    s.shouldSaveConfig = true → s'.shouldSaveConfig = false → branch.saves

/-- While a save is pending, a timed branch is due. -/
def BusyWhilePending (s : Loop) (tick : Tick) : Prop := s.shouldSaveConfig = true → ¬ RestDue s tick

theorem keepsPending_iff {s s' : Loop} {tick : Tick} (h : loopStep hex2bin s tick = some s') :
    KeepsPending hex2bin s tick ↔ BusyWhilePending s tick := by
  obtain ⟨branch, hiter⟩ := iteration_of_loopStep h
  constructor
  · intro hkeeps hpending hrest
    rcases iteration_flag hiter with ⟨-, hflag, hsaves⟩ | ⟨hbusy, -⟩
    · have := hkeeps s' branch hiter hpending hflag
      simp [hsaves] at this
    · exact hbusy hrest
  · intro hbusy t branch' ht hpending hflag
    rcases iteration_flag ht with ⟨hrest, -, -⟩ | ⟨-, hkept⟩
    · exact absurd hrest (hbusy hpending)
    · simp [hkept hpending] at hflag

/-- **A pending save is never dropped** in a run of the loop after start-up if and only if a timed
branch is due in every iteration in which one is pending. -/
theorem pending_save_kept_iff (hex2bin : Hex2Bin) (tox : Tox) (heap : UInt32 → FriendInfo)
    (access loads creates : Bool) (ticks : List Tick) :
    ∃ friendsInfo, friendsInfoInit tox heap = .ok friendsInfo ∧
      ∀ shouldSaveConfig ∈ startUp access loads creates,
        (Along (loopStep hex2bin) (KeepsPending hex2bin) (.start ⟨tox, friendsInfo⟩ shouldSaveConfig) ticks ↔
          Along (loopStep hex2bin) BusyWhilePending (.start ⟨tox, friendsInfo⟩ shouldSaveConfig) ticks) := by
  obtain ⟨friendsInfo, hinit, -⟩ := friendsInfoInit_spec tox heap
  exact ⟨friendsInfo, hinit, fun _ _ => along_congr fun _ _ _ => keepsPending_iff⟩

/-- An instance without friends. -/
def newTox : Tox := ⟨[], by decide, by decide⟩

/-- An iteration a second after the machine was booted. -/
def secondUp : Tick := ⟨⟨1, 0⟩, 1500000000, 999999999, 50, 20, []⟩

/-- The save of a profile just created is dropped in the fourth iteration: the first three run the
call test, Tox and ToxAV. -/
theorem new_profile_not_saved :
    startUp false false true = some true ∧ friendsInfoInit newTox (fun _ => zeroEntry) = .ok [] ∧
      ¬ Along (loopStep fun buf _ => buf) (KeepsPending fun buf _ => buf) (.start ⟨newTox, []⟩ true)
        [secondUp, secondUp, secondUp, secondUp] := by
  refine ⟨rfl, rfl, fun h => ?_⟩
  have hkeeps : KeepsPending (fun buf _ => buf) _ secondUp := ((((h _ rfl).2 _ rfl).2 _ rfl).2 _ rfl).1
  have hsaves := hkeeps _ _ rfl rfl rfl
  cases hsaves

end ToxSuite.Suit
