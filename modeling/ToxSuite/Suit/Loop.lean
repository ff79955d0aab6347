import ToxSuite.Friend.Contacts
import ToxSuite.Suit.Time

/-!
# `suit.c`: the polling loop

An iteration of the loop reads the monotonic clock, takes the first of four
timed branches that is due, or else does the rest of the body and sleeps. What
the iteration meets is its argument (`Tick`): the clock, the intervals the
libraries ask for, what happens to the friends in `tox_iterate`; and the wall
clock, which the loop never reads.

The purge of friends unseen for a month is the fourth branch. It measures from
the monotonic clock in nanoseconds to the Unix seconds that an entry got from Tox
when it was made, so once it is due everybody looks long gone (`purge_deletes`).
Only friends unseen for a month are deleted if and only if, whenever it is due, the
friends it takes happen to be unseen for a month (`purge_spares_seen_iff`).
-/

namespace ToxSuite.Suit

open ToxSuite.Lib ToxSuite.Friend

/-! ### State and input -/

/-- `FRIEND_PURGE_INTERVAL`. -/
abbrev FRIEND_PURGE_INTERVAL : ℤ := SEC_PER_HOUR * HOUR_PER_DAY * 30

/-- The variables of the loop. -/
structure Loop where
  contacts : Contacts
  tscalltest : Timespec
  tstox : Timespec
  tsav : Timespec
  tsfriend : Timespec
  tsprev : Timespec
  shouldSaveConfig : Bool

/-- The loop is entered. -/
def Loop.start (contacts : Contacts) (shouldSaveConfig : Bool) : Loop :=
  ⟨contacts, ⟨0, 0⟩, ⟨0, 0⟩, ⟨0, 0⟩, ⟨0, 0⟩, ⟨0, 0⟩, shouldSaveConfig⟩

/-- What can happen to the friends inside `tox_iterate`: the callbacks of `callbacks_init`
and news from Tox. -/
def isCallback : FriendEvent → Bool
  | .importKeys .. | .removeKeys .. | .cleanup .. => false
  | _ => true

/-- What an iteration meets. -/
structure Tick where
  /-- `tpnow`. -/
  tpnow : Timespec
  /-- The Unix time. -/
  unixTime : ℕ
  /-- `calltest_iteration_interval`. -/
  calltestDelay : UInt64
  /-- `tox_iteration_interval`. -/
  toxInterval : UInt32
  /-- `toxav_iteration_interval`. -/
  toxavInterval : UInt32
  /-- What `tox_iterate` brings if it is called. -/
  events : List {e : FriendEvent // isCallback e}

/-- `tox_delay`. -/
def Tick.toxDelay (tick : Tick) : UInt64 := UInt64.ofInt (tick.toxInterval.toNat * NSEC_PER_MSEC)

/-- `toxav_delay`. -/
def Tick.toxavDelay (tick : Tick) : UInt64 := UInt64.ofInt (tick.toxavInterval.toNat * NSEC_PER_MSEC)

/-- The branch an iteration takes. -/
inductive Branch where
  | calltest
  | tox
  | toxav
  | purge
  /-- None of these: whether it calls `file_do` and `save_profile`, and what it passes to
  `nanosleep`. -/
  | rest (fileDo saveProfile : Bool) (sleepDelay : UInt64)
  deriving DecidableEq

/-! ### The body -/

variable (hex2bin : Hex2Bin)

/-- `tox_iterate`, as far as the friends go. -/
def toxIterate (c : Contacts) (events : List {e : FriendEvent // isCallback e}) : Except Fault Contacts :=
  events.foldlM (fun c e => friendEvent hex2bin c e.1) c

/-- `va_arg(ap, int)` where a `uint64_t` was passed. -/
def argInt (a : UInt64) : Int32 := a.toUInt32.toInt32

/-- `min` of `misc.c`. -/
def cMin (first : Int32) (rest : List Int32) : Int32 :=
  rest.foldl (fun min a => if a < min then a else min) first

/-- `sleep_delay`. -/
def sleepDelay (calltestDelay toxDelay toxavDelay : UInt64) (elapsed : ℤ) : UInt64 :=
  let delay := (cMin (argInt calltestDelay) [argInt toxDelay, argInt toxavDelay]).toInt64.toUInt64
  (delay - UInt64.ofInt elapsed) / 10

/-- The body after the timed branches. -/
def restOfBody (s : Loop) (tick : Tick) : Except Fault (Loop × Branch) := do
  let fileDo ← nanosecTimeout s.tsfriend tick.tpnow (UInt64.ofInt (5000 * NSEC_PER_USEC))
  let shouldSaveConfig := false
  let saveProfile := shouldSaveConfig
  let shouldSaveConfig := if saveProfile then false else shouldSaveConfig
  let tselasped ← timespecSubtract tick.tpnow s.tsprev
  let elapsed ← timespecToNs tselasped
  pure ({ s with tsprev := tick.tpnow, shouldSaveConfig },
    .rest fileDo saveProfile (sleepDelay tick.calltestDelay tick.toxDelay tick.toxavDelay elapsed))

/-- The purge branch. -/
def purgeFriends (s : Loop) (tick : Tick) : Except Fault (Loop × Branch) := do
  let currentTime ← timespecToNs tick.tpnow
  let contacts := friendCleanup (UInt64.ofInt FRIEND_PURGE_INTERVAL) (UInt64.ofInt currentTime)
    s.contacts.tox s.contacts.friendsInfo
  pure ({ s with contacts, tsfriend := tick.tpnow, shouldSaveConfig := true }, .purge)

/-- The body of the loop. -/
def iteration (s : Loop) (tick : Tick) : Except Fault (Loop × Branch) := do
  if ← nanosecTimeout s.tscalltest tick.tpnow tick.calltestDelay then
    pure ({ s with tscalltest := tick.tpnow }, .calltest)
  else if ← nanosecTimeout s.tstox tick.tpnow tick.toxDelay then
    let contacts ← toxIterate hex2bin s.contacts tick.events
    pure ({ s with contacts, tstox := tick.tpnow }, .tox)
  else if ← nanosecTimeout s.tsav tick.tpnow tick.toxavDelay then
    pure ({ s with tsav := tick.tpnow }, .toxav)
  else if ← nanosecTimeout s.tsfriend tick.tpnow (UInt64.ofInt (FRIEND_PURGE_INTERVAL * NSEC_PER_SEC)) then
    purgeFriends s tick
  else restOfBody s tick

/-- A step of the loop: a fault ends the program. -/
def loopStep (s : Loop) (tick : Tick) : Option Loop := ((iteration hex2bin s tick).map Prod.fst).toOption

variable {hex2bin}

/-! ### The purge -/

/-- The purge is due, and no branch before it. -/
def PurgeDue (s : Loop) (tick : Tick) : Prop :=
  nanosecTimeout s.tscalltest tick.tpnow tick.calltestDelay = .ok false ∧
    nanosecTimeout s.tstox tick.tpnow tick.toxDelay = .ok false ∧
    nanosecTimeout s.tsav tick.tpnow tick.toxavDelay = .ok false ∧
    nanosecTimeout s.tsfriend tick.tpnow (UInt64.ofInt (FRIEND_PURGE_INTERVAL * NSEC_PER_SEC)) = .ok true

theorem restOfBody_ne_purge {s s' : Loop} {tick : Tick} : restOfBody s tick ≠ .ok (s', .purge) := by
  intro h
  obtain ⟨fileDo, -, h⟩ := bind_eq_ok.mp h
  obtain ⟨tselasped, -, h⟩ := bind_eq_ok.mp h
  obtain ⟨elapsed, -, h⟩ := bind_eq_ok.mp h
  cases h

/-- The purge branch is taken when it is due. -/
theorem iteration_purge {s s' : Loop} {tick : Tick} :
    iteration hex2bin s tick = .ok (s', .purge) ↔
      PurgeDue s tick ∧ purgeFriends s tick = .ok (s', .purge) := by
  simp only [iteration, bind_ite_eq_ok]
  constructor
  · rintro (⟨-, h⟩ | ⟨hcalltest, ⟨-, h⟩ | ⟨htox, ⟨-, h⟩ | ⟨htoxav, ⟨hfriend, h⟩ | ⟨-, h⟩⟩⟩⟩)
    · cases h
    · obtain ⟨contacts, -, h⟩ := bind_eq_ok.mp h
      cases h
    · cases h
    · exact ⟨⟨hcalltest, htox, htoxav, hfriend⟩, h⟩
    · exact absurd h restOfBody_ne_purge
  · rintro ⟨⟨hcalltest, htox, htoxav, hfriend⟩, h⟩
    exact .inr ⟨hcalltest, .inr ⟨htox, .inr ⟨htoxav, .inl ⟨hfriend, h⟩⟩⟩⟩

theorem iteration_of_due {s : Loop} {tick : Tick} (h : PurgeDue s tick) :
    iteration hex2bin s tick = purgeFriends s tick := by
  obtain ⟨hcalltest, htox, htoxav, hfriend⟩ := h
  simp only [iteration, hcalltest, htox, htoxav, hfriend, ok_bind, Bool.false_eq_true, if_false, if_true]

/-- An entry that `friend_cleanup` keeps when the monotonic clock reads `now` nanoseconds: it
has no time, or one that is less than the interval before `now`. -/
def Spared (now : ℤ) (lastOnline : UInt64) : Prop :=
  lastOnline.toNat = 2 ^ 64 - 1 ∨ (now - lastOnline.toNat) % 2 ^ 64 < FRIEND_PURGE_INTERVAL

theorem purges_iff (now : ℤ) (f : FriendInfo) :
    purges (UInt64.ofInt FRIEND_PURGE_INTERVAL) (UInt64.ofInt now) f ↔ ¬ Spared now f.lastOnline := by
  have hnow := toNat_ofInt now
  have hlast := f.lastOnline.toNat_lt
  have hsub := UInt64.toNat_sub (UInt64.ofInt now) f.lastOnline
  have hmax : f.lastOnline = UInt64.ofNat (2 ^ 64 - 1) ↔ f.lastOnline.toNat = 2 ^ 64 - 1 := by
    rw [← UInt64.toNat_inj]
    rfl
  have hinterval : (UInt64.ofInt FRIEND_PURGE_INTERVAL).toNat = 2592000 := by decide
  unfold purges Spared
  rw [not_or, ← hmax, Bool.and_eq_true, decide_eq_true_iff, Bool.not_eq_true', decide_eq_false_iff_not,
    UInt64.lt_iff_toNat_lt, hinterval, hsub]
  refine and_congr_right fun _ => not_congr ?_
  simp only [FRIEND_PURGE_INTERVAL, SEC_PER_HOUR, HOUR_PER_DAY]
  omega

/-- What a purge leaves of Tox's list. -/
theorem purgeFriends_ok {s s' : Loop} {tick : Tick} {branch : Branch}
    (h : purgeFriends s tick = .ok (s', branch)) : branch = .purge ∧ ∀ t, t ∈ s'.contacts.tox.friends ↔
      t ∈ s.contacts.tox.friends ∧
        ∀ f ∈ s.contacts.friendsInfo, ¬ Spared tick.tpnow.ns f.lastOnline → t.number ≠ f.friendNumber := by
  obtain ⟨now, hnow, h⟩ := bind_eq_ok.mp h
  obtain ⟨rfl, -⟩ := timespecToNs_ok hnow
  cases h
  refine ⟨rfl, fun t => ?_⟩
  simp only [← purges_iff]
  exact (friendCleanup_spec _ _ s.contacts.friendsInfo s.contacts.tox).2 t

/-- **Who is deleted by a purge**: the friends with an entry that is not spared. -/
theorem deleted_iff {s s' : Loop} {tick : Tick} {branch : Branch}
    (h : purgeFriends s tick = .ok (s', branch)) {t : ToxFriend} (ht : t ∈ s.contacts.tox.friends) :
    t ∉ s'.contacts.tox.friends ↔
      ∃ f ∈ s.contacts.friendsInfo, f.friendNumber = t.number ∧ ¬ Spared tick.tpnow.ns f.lastOnline := by
  rw [(purgeFriends_ok h).2]
  constructor
  · intro hdel
    by_contra hall
    exact hdel ⟨ht, fun f hf hspared hn => hall ⟨f, hf, hn.symm, hspared⟩⟩
  · rintro ⟨f, hf, hn, hspared⟩ ⟨-, hall⟩
    exact hall f hf hspared hn.symm

/-- Once the purge is due, 30 days in nanoseconds are on the clock, and no time in seconds comes
near. -/
theorem not_spared_of_due {s : Loop} {tick : Tick} (hdue : PurgeDue s tick) (hlast : s.tsfriend.Reading)
    (hnow : tick.tpnow.Reading) (hmono : s.tsfriend.ns ≤ tick.tpnow.ns) {lastOnline : UInt64}
    (hunix : lastOnline.toNat < 2 ^ 51) : ¬ Spared tick.tpnow.ns lastOnline := by
  have hfires := hdue.2.2.2
  rw [nanosecTimeout_eq hlast hnow hmono, Except.ok.injEq, decide_eq_true_iff] at hfires
  have hinterval : (UInt64.ofInt (FRIEND_PURGE_INTERVAL * NSEC_PER_SEC)).toNat = 2592000000000000 := by decide
  have hmax := hnow.2
  have hstamp := ns_nonneg hlast.1
  rw [hinterval] at hfires
  unfold Spared
  simp only [FRIEND_PURGE_INTERVAL, SEC_PER_HOUR, HOUR_PER_DAY]
  omega

/-- **A purge deletes everybody** whose entry has a Unix time, whenever that was. -/
theorem purge_deletes {s s' : Loop} {tick : Tick} (h : iteration hex2bin s tick = .ok (s', .purge))
    (hlast : s.tsfriend.Reading) (hnow : tick.tpnow.Reading) (hmono : s.tsfriend.ns ≤ tick.tpnow.ns)
    {f : FriendInfo} (hf : f ∈ s.contacts.friendsInfo) (hunix : f.lastOnline.toNat < 2 ^ 51) :
    f.friendNumber ∉ s'.contacts.tox.numbers := by
  obtain ⟨hdue, hpurge⟩ := iteration_purge.mp h
  intro hmem
  obtain ⟨t, ht, hn⟩ := List.mem_map.mp hmem
  exact (((purgeFriends_ok hpurge).2 t).mp ht).2 f hf (not_spared_of_due hdue hlast hnow hmono hunix) hn

/-! ### Runs -/

/-- Tox has the friend as disconnected, and last seen a purge interval ago or longer. -/
def Unseen (unixTime : ℕ) (t : ToxFriend) : Prop :=
  t.data.connectionStatus = .none ∧ t.data.lastOnline.toNat + FRIEND_PURGE_INTERVAL ≤ unixTime

/-- If the iteration purges, it deletes only friends that are unseen. -/
def PurgesUnseen (hex2bin : Hex2Bin) (s : Loop) (tick : Tick) : Prop :=
  ∀ s', iteration hex2bin s tick = .ok (s', .purge) → ∀ t ∈ s.contacts.tox.friends,
    t ∉ s'.contacts.tox.friends → Unseen tick.unixTime t

/-- If the purge is due, the friends with an entry that is not spared are unseen. -/
def UnsparedUnseen (s : Loop) (tick : Tick) : Prop :=
  PurgeDue s tick → ∀ t ∈ s.contacts.tox.friends, ∀ f ∈ s.contacts.friendsInfo,
    f.friendNumber = t.number → ¬ Spared tick.tpnow.ns f.lastOnline → Unseen tick.unixTime t

theorem purgesUnseen_iff {s s' : Loop} {tick : Tick} (h : loopStep hex2bin s tick = some s') :
    PurgesUnseen hex2bin s tick ↔ UnsparedUnseen s tick := by
  constructor
  · intro hseen hdue t ht f hf hn hspared
    cases hpurge : purgeFriends s tick with
    | error e => simp [loopStep, iteration_of_due hdue, hpurge, Except.map, Except.toOption] at h
    | ok r =>
      obtain ⟨s', branch⟩ := r
      obtain ⟨rfl, -⟩ := purgeFriends_ok hpurge
      refine hseen s' (iteration_purge.mpr ⟨hdue, hpurge⟩) t ht ?_
      exact (deleted_iff hpurge ht).mpr ⟨f, hf, hn, hspared⟩
  · intro hseen s' hs' t ht hdel
    obtain ⟨hdue, hpurge⟩ := iteration_purge.mp hs'
    obtain ⟨f, hf, hn, hspared⟩ := (deleted_iff hpurge ht).mp hdel
    exact hseen hdue t ht f hf hn hspared

/-- **Only friends unseen for a month are purged** in a run of the loop if and only if, whenever
the purge is due, the friends whose entries are not spared are unseen for a month. -/
theorem purge_spares_seen_iff (hex2bin : Hex2Bin) (tox : Tox) (heap : UInt32 → FriendInfo)
    (shouldSaveConfig : Bool) (ticks : List Tick) :
    ∃ friendsInfo, friendsInfoInit tox heap = .ok friendsInfo ∧
      (Along (loopStep hex2bin) (PurgesUnseen hex2bin) (.start ⟨tox, friendsInfo⟩ shouldSaveConfig) ticks ↔
        Along (loopStep hex2bin) UnsparedUnseen (.start ⟨tox, friendsInfo⟩ shouldSaveConfig) ticks) := by
  obtain ⟨friendsInfo, hinit, -⟩ := friendsInfoInit_spec tox heap
  exact ⟨friendsInfo, hinit, along_congr fun _ _ _ => purgesUnseen_iff⟩

/-- A friend who is online. -/
def onlineFriend : ToxFriend := ⟨0, someKey 1, ⟨1500000000, .udp, .none, [], []⟩⟩

/-- An instance with that friend. -/
def onlineTox : Tox := ⟨[onlineFriend], by decide, by decide⟩

/-- An iteration 30 days after the machine was booted. -/
def monthUp : Tick := ⟨⟨2592000, 0⟩, 1500000000, 999999999, 50, 20, []⟩

/-- On a machine that is up for a month, a program just started deletes a friend who is online
in its fourth iteration. -/
theorem online_friend_deleted :
    ∃ friendsInfo s s', friendsInfoInit onlineTox (fun _ => zeroEntry) = .ok friendsInfo ∧
      runEvents (loopStep fun buf _ => buf) (.start ⟨onlineTox, friendsInfo⟩ false)
        [monthUp, monthUp, monthUp] = some s ∧
      iteration (fun buf _ => buf) s monthUp = .ok (s', .purge) ∧
      onlineFriend ∈ s.contacts.tox.friends ∧ onlineFriend ∉ s'.contacts.tox.friends ∧
      ¬ Unseen monthUp.unixTime onlineFriend := by
  refine ⟨_, _, _, rfl, rfl, rfl, ?_, ?_, ?_⟩
  · decide
  · decide
  · rintro ⟨hoffline, -⟩
    cases hoffline

end ToxSuite.Suit
