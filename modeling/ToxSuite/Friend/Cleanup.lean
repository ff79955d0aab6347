import ToxSuite.Lib.Ring
import ToxSuite.Friend.Contacts

/-!
# `friend_cleanup` on the ring of friends

`friends_info` is a doubly linked ring, and `friend_cleanup` walks over it while it takes
entries out of it and frees them. The walk looks up the next entry before it comes to the
current one, so it never reads what was freed: it does what the walk over a list of
entries does (`friendCleanupAt_spec`, `friendCleanupAt_refines`).

An entry is expired if it was seen last, and the timeout was over, before now. The code
subtracts in 64 bits, and takes a friend who was seen after now for one who was not
seen for ages. Exactly the expired friends are removed if and only if no friend was seen
after now, or the timeout reaches so far that the subtraction does not matter
(`cleanup_removes_expired_iff`).
-/

namespace ToxSuite.Friend

open ToxSuite.Lib

/-! ### The ring -/

/-- The memory `friend_cleanup` works on. An entry and the links in it have one address. -/
structure FriendMemory where
  heads : Heads
  info : ℕ → Option FriendInfo
  tox : Tox
  /-- What `tox_friend_delete` was called with. -/
  deleted : List UInt32

/-- The entries of the ring at `head`, in order, with their addresses. -/
structure FriendsAt (s : FriendMemory) (head : ℕ) (entries : List (ℕ × FriendInfo)) : Prop where
  ring : ListRing s.heads head (entries.map Prod.fst)
  info : ∀ p ∈ entries, s.info p.1 = some p.2

/-- `friend_info_destroy`. -/
def friendInfoDestroyAt (s : FriendMemory) (friend : ℕ) : Except Fault FriendMemory := do
  let heads ← listDel s.heads friend
  -- `free`
  pure { s with heads := Function.update heads friend none, info := Function.update s.info friend none }

/-- The body of the loop of `friend_cleanup`. -/
def cleanupEntry (timeout currentTime : UInt64) (s : FriendMemory) (f : ℕ) : Except Fault FriendMemory :=
  match s.info f with
  | none => .error .released
  | some info =>
    if info.lastOnline = UInt64.ofNat (2 ^ 64 - 1) then pure s
    else if currentTime - info.lastOnline < timeout then pure s
    else
      friendInfoDestroyAt
        { s with
          tox := (toxFriendDelete s.tox info.friendNumber).1
          deleted := s.deleted ++ [info.friendNumber] } f

/-- `friend_cleanup`. -/
def friendCleanupAt (timeout currentTime : UInt64) (head fuel : ℕ) (s : FriendMemory) : Except Fault FriendMemory :=
  listForEachSafe FriendMemory.heads (cleanupEntry timeout currentTime) head fuel s

/-! ### The walk -/

section

variable {timeout currentTime : UInt64} {head : ℕ} {s₀ s : FriendMemory} {entries done rest : List (ℕ × FriendInfo)}

/-- The entries that `friend_cleanup` leaves. -/
def keptOf (timeout currentTime : UInt64) (entries : List (ℕ × FriendInfo)) : List (ℕ × FriendInfo) :=
  entries.filter fun p => !purges timeout currentTime p.2

/-- The entries that it takes out. -/
def purgedOf (timeout currentTime : UInt64) (entries : List (ℕ × FriendInfo)) : List (ℕ × FriendInfo) :=
  entries.filter fun p => purges timeout currentTime p.2

/-- The walk has gone over `done` and has `rest` before it. -/
structure Walked (timeout currentTime : UInt64) (head : ℕ) (s₀ : FriendMemory) (done rest : List (ℕ × FriendInfo))
    (s : FriendMemory) : Prop where
  friends : FriendsAt s head (keptOf timeout currentTime done ++ rest)
  freed : ∀ p ∈ purgedOf timeout currentTime done, s.heads p.1 = none ∧ s.info p.1 = none
  deleted : s.deleted = s₀.deleted ++ (purgedOf timeout currentTime done).map fun p => p.2.friendNumber
  tox : (friendCleanup timeout currentTime s.tox (rest.map Prod.snd)).tox =
    (friendCleanup timeout currentTime s₀.tox ((done ++ rest).map Prod.snd)).tox

theorem Walked.start (h : FriendsAt s₀ head entries) : Walked timeout currentTime head s₀ [] entries s₀ :=
  ⟨h, by simp [purgedOf], by simp [purgedOf], rfl⟩

/-- **The body carries the walk on**, whether it takes the entry out or not. -/
theorem Walked.next {p : ℕ × FriendInfo} (h : Walked timeout currentTime head s₀ done (p :: rest) s) :
    ∃ s', cleanupEntry timeout currentTime s p.1 = .ok s' ∧
      Walked timeout currentTime head s₀ (done ++ [p]) rest s' := by
  have hinfo : s.info p.1 = some p.2 := h.friends.info p (by simp)
  have htox := h.tox
  rw [List.append_cons, List.map_cons] at htox
  by_cases hp : purges timeout currentTime p.2 = true
  · have hkept : keptOf timeout currentTime (done ++ [p]) = keptOf timeout currentTime done := by
      simp [keptOf, hp]
    have hpurged : purgedOf timeout currentTime (done ++ [p]) = purgedOf timeout currentTime done ++ [p] := by
      simp [purgedOf, hp]
    obtain ⟨hmax, htime⟩ : p.2.lastOnline ≠ UInt64.ofNat (2 ^ 64 - 1) ∧ ¬ currentTime - p.2.lastOnline < timeout := by
      simpa [purges] using hp
    have hr := h.friends.ring
    rw [List.map_append, List.map_cons] at hr
    obtain ⟨m', hdel, hlive, hring⟩ := hr.cut
    have hne : ∀ q ∈ keptOf timeout currentTime done ++ rest, q.1 ≠ p.1 := by
      intro q hq heq
      have hnodup := (List.nodup_cons.mp hr.nodup).2
      rw [List.nodup_middle, List.nodup_cons, ← List.map_append] at hnodup
      exact hnodup.1 (heq ▸ List.mem_map_of_mem hq)
    refine ⟨⟨Function.update m' p.1 none, Function.update s.info p.1 none,
      (toxFriendDelete s.tox p.2.friendNumber).1, s.deleted ++ [p.2.friendNumber]⟩, ?_, ⟨?_, ?_⟩, ?_, ?_, ?_⟩
    · unfold cleanupEntry friendInfoDestroyAt
      simp only [hinfo, if_neg hmax, if_neg htime, hdel, ok_bind, pure_eq_ok]
    · rw [hkept, List.map_append]
      exact hring
    · rw [hkept]
      intro q hq
      refine (Function.update_of_ne (hne q hq) _ _).trans (h.friends.info q ?_)
      rw [List.mem_append, List.mem_cons]
      exact (List.mem_append.mp hq).imp_right .inr
    · rw [hpurged]
      intro q hq
      by_cases heq : q.1 = p.1
      · simp [heq]
      · obtain ⟨hheads, hinfo'⟩ := h.freed q ((List.mem_append.mp hq).resolve_right fun hqp => heq (by simp_all))
        have hnone : m' q.1 = none := by
          have := hlive q.1
          rw [hheads] at this
          simpa using this
        simp [Function.update_of_ne heq, hnone, hinfo']
    · rw [hpurged, List.map_append, ← List.append_assoc, ← h.deleted]
      rfl
    · rw [← htox, friendCleanup, if_pos hp]
  · have hkept : keptOf timeout currentTime (done ++ [p]) = keptOf timeout currentTime done ++ [p] := by
      simp [keptOf, hp]
    have hpurged : purgedOf timeout currentTime (done ++ [p]) = purgedOf timeout currentTime done := by
      simp [purgedOf, hp]
    have hentry : cleanupEntry timeout currentTime s p.1 = .ok s := by
      unfold cleanupEntry
      simp only [hinfo]
      split_ifs with hmax htime
      · rfl
      · rfl
      · exact absurd (by simpa [purges] using ⟨hmax, UInt64.not_lt.mp htime⟩) hp
    refine ⟨s, hentry, ?_, ?_, ?_, ?_⟩
    · rw [hkept, List.append_assoc]
      exact h.friends
    · rw [hpurged]
      exact h.freed
    · rw [hpurged]
      exact h.deleted
    · rw [← htox, friendCleanup, if_neg hp]

variable (timeout currentTime) in
/-- **What `friend_cleanup` leaves**: the walk is over, with nothing before it. -/
theorem friendCleanupAt_spec (h : FriendsAt s₀ head entries) {fuel : ℕ} (hfuel : entries.length ≤ fuel) :
    ∃ s', friendCleanupAt timeout currentTime head fuel s₀ = .ok s' ∧
      Walked timeout currentTime head s₀ entries [] s' := by
  -- the addresses behind the cursor are those of the entries that stay
  let I (l l' : List ℕ) (s : FriendMemory) : Prop :=
    ∃ done rest, l = (keptOf timeout currentTime done).map Prod.fst ∧ l' = rest.map Prod.fst ∧
      entries = done ++ rest ∧ Walked timeout currentTime head s₀ done rest s
  have hring : ∀ l l' s, I l l' s → ListRing s.heads head (l ++ l') := by
    rintro l l' s ⟨done, rest, rfl, rfl, -, hw⟩
    rw [← List.map_append]
    exact hw.friends.ring
  have hbody : ∀ l a l' s, I l (a :: l') s →
      ∃ s' l₁, cleanupEntry timeout currentTime s a = .ok s' ∧ I l₁ l' s' := by
    rintro l a l' s ⟨done, rest, rfl, hrest, hentries, hw⟩
    obtain ⟨p, rest, rfl, rfl, rfl⟩ := List.map_eq_cons_iff.mp hrest.symm
    obtain ⟨s', hok, hw'⟩ := hw.next
    exact ⟨s', _, hok, done ++ [p], rest, rfl, rfl, by rw [hentries, List.append_cons], hw'⟩
  have hstart : I [] (entries.map Prod.fst) s₀ := ⟨[], entries, rfl, rfl, rfl, .start h⟩
  obtain ⟨s', l, hok, done, rest, -, hrest, hentries, hw⟩ :=
    listForEachSafe_rule hring hbody hstart (by simpa using hfuel)
  cases List.map_eq_nil_iff.mp hrest.symm
  rw [List.append_nil] at hentries
  exact ⟨s', hok, hentries ▸ hw⟩

/-- **The walk over the ring is the walk over the list** of its entries. -/
theorem friendCleanupAt_refines (h : FriendsAt s₀ head entries) {fuel : ℕ} (hfuel : entries.length ≤ fuel) :
    ∃ s' kept, friendCleanupAt timeout currentTime head fuel s₀ = .ok s' ∧ FriendsAt s' head kept ∧
      ⟨s'.tox, kept.map Prod.snd⟩ = friendCleanup timeout currentTime s₀.tox (entries.map Prod.snd) := by
  obtain ⟨s', hok, hw⟩ := friendCleanupAt_spec timeout currentTime h hfuel
  have hfriends := hw.friends
  rw [List.append_nil] at hfriends
  refine ⟨s', _, hok, hfriends, ?_⟩
  have htox := hw.tox
  have hinfo := (friendCleanup_spec timeout currentTime (entries.map Prod.snd) s₀.tox).1
  rw [List.append_nil, List.map_nil, friendCleanup] at htox
  rw [List.filter_map] at hinfo
  cases hc : friendCleanup timeout currentTime s₀.tox (entries.map Prod.snd) with
  | mk tox friendsInfo =>
    rw [hc] at htox hinfo
    simp only at htox hinfo
    rw [htox, hinfo]
    rfl

end

/-! ### Expired friends -/

/-- The friend was seen, and the timeout was over before now. -/
def expired (timeout currentTime : UInt64) (f : FriendInfo) : Bool :=
  f.lastOnline ≠ UInt64.ofNat (2 ^ 64 - 1) && f.lastOnline.toNat + timeout.toNat ≤ currentTime.toNat

/-- Exactly the expired friends were removed: each was deleted in Tox, once, and is out of the ring, its
memory given back; the others are in the ring as they were. -/
structure RemovedExpired (timeout currentTime : UInt64) (head : ℕ) (s : FriendMemory)
    (entries : List (ℕ × FriendInfo)) (s' : FriendMemory) : Prop where
  deleted : s'.deleted = s.deleted ++
    (entries.filter fun p => expired timeout currentTime p.2).map fun p => p.2.friendNumber
  tox : ∀ t, t ∈ s'.tox.friends ↔
    t ∈ s.tox.friends ∧ ∀ p ∈ entries, expired timeout currentTime p.2 → t.number ≠ p.2.friendNumber
  friends : FriendsAt s' head (entries.filter fun p => !expired timeout currentTime p.2)
  freed : ∀ p ∈ entries, expired timeout currentTime p.2 → s'.heads p.1 = none ∧ s'.info p.1 = none

/-- `friend_cleanup` comes to its end, and has removed exactly the expired friends. -/
def RemovesExpired (timeout currentTime : UInt64) (head : ℕ) (s : FriendMemory)
    (entries : List (ℕ × FriendInfo)) : Prop :=
  ∀ fuel, entries.length ≤ fuel → ∃ s', friendCleanupAt timeout currentTime head fuel s = .ok s' ∧
    RemovedExpired timeout currentTime head s entries s'

/-- A friend seen after now counts as expired if the difference, modulo `2 ^ 64`, reaches the
timeout. -/
theorem purges_eq_expired_iff {timeout currentTime : UInt64} {f : FriendInfo} :
    purges timeout currentTime f = expired timeout currentTime f ↔
      (f.lastOnline ≠ UInt64.ofNat (2 ^ 64 - 1) → currentTime < f.lastOnline →
        currentTime.toNat + 2 ^ 64 < f.lastOnline.toNat + timeout.toNat) := by
  unfold purges expired
  by_cases hmax : f.lastOnline = UInt64.ofNat (2 ^ 64 - 1)
  · simp [hmax]
  · have hlast := f.lastOnline.toNat_lt
    have hnow := currentTime.toNat_lt
    have htimeout := timeout.toNat_lt
    rw [Bool.eq_iff_iff]
    simp only [hmax, ne_eq, not_false_eq_true, decide_true, Bool.true_and, Bool.not_eq_true', decide_eq_false_iff_not,
      decide_eq_true_eq, UInt64.lt_iff_toNat_lt, UInt64.toNat_sub, forall_const]
    omega

/-- **Exactly the expired friends are removed** if and only if each friend seen after now, if there is
one, is so far from the timeout that the subtraction does not wrap round to it. -/
theorem cleanup_removes_expired_iff {head : ℕ} {s : FriendMemory} {entries : List (ℕ × FriendInfo)}
    (h : FriendsAt s head entries) (timeout currentTime : UInt64) :
    RemovesExpired timeout currentTime head s entries ↔
      ∀ p ∈ entries, p.2.lastOnline ≠ UInt64.ofNat (2 ^ 64 - 1) → currentTime < p.2.lastOnline →
        currentTime.toNat + 2 ^ 64 < p.2.lastOnline.toNat + timeout.toNat := by
  simp only [← purges_eq_expired_iff]
  constructor
  · intro hremoves p hp
    obtain ⟨s', hok, hw⟩ := friendCleanupAt_spec timeout currentTime h le_rfl
    obtain ⟨s'', hok', hr⟩ := hremoves _ le_rfl
    cases hok.symm.trans hok'
    -- what is in the ring is in memory, and what was taken out is not
    have hfriends := hw.friends.ring
    rw [List.append_nil] at hfriends
    cases hpurge : purges timeout currentTime p.2 with
    | true =>
      have hnone := (hw.freed p (List.mem_filter.mpr ⟨hp, hpurge⟩)).1
      by_contra hne
      have hkept : p ∈ entries.filter fun p => !expired timeout currentTime p.2 :=
        List.mem_filter.mpr ⟨hp, by simpa using Ne.symm hne⟩
      obtain ⟨hd, hlive⟩ := hr.friends.ring.live (List.mem_cons_of_mem _ (List.mem_map_of_mem hkept))
      cases hnone.symm.trans hlive
    | false =>
      by_contra hne
      have hnone := (hr.freed p hp (by simpa using Ne.symm hne)).1
      have hkept : p ∈ keptOf timeout currentTime entries := List.mem_filter.mpr ⟨hp, by simp [hpurge]⟩
      obtain ⟨hd, hlive⟩ := hfriends.live (List.mem_cons_of_mem _ (List.mem_map_of_mem hkept))
      cases hnone.symm.trans hlive
  · intro hall fuel hfuel
    obtain ⟨s', hok, hw⟩ := friendCleanupAt_spec timeout currentTime h hfuel
    have hpurged : purgedOf timeout currentTime entries = entries.filter fun p => expired timeout currentTime p.2 :=
      List.filter_congr hall
    have hkept : keptOf timeout currentTime entries = entries.filter fun p => !expired timeout currentTime p.2 :=
      List.filter_congr fun p hp => congrArg _ (hall p hp)
    have hfriends := hw.friends
    have htox := hw.tox
    rw [List.append_nil, hkept] at hfriends
    rw [List.append_nil, List.map_nil, friendCleanup] at htox
    refine ⟨s', hok, hpurged ▸ hw.deleted, fun t => ?_, hfriends, fun p hp hexpired => ?_⟩
    · rw [show s'.tox = _ from htox, (friendCleanup_spec timeout currentTime _ s.tox).2, List.forall_mem_map]
      refine and_congr_right fun _ => forall₂_congr fun p hp => ?_
      rw [hall p hp]
    · exact hw.freed p (List.mem_filter.mpr ⟨hp, (hall p hp).trans hexpired⟩)

/-- The entry of a friend seen at this time. -/
def seenEntry (lastOnline : UInt64) : FriendInfo := { zeroEntry with lastOnline }

/-- A ring at address `0` with one friend at address `1`. -/
def oneEntry (lastOnline : UInt64) : FriendMemory where
  heads a := if a = 0 then some ⟨1, 1⟩ else if a = 1 then some ⟨0, 0⟩ else none
  info a := if a = 1 then some (seenEntry lastOnline) else none
  tox := oneFriend
  deleted := []

theorem friendsAt_oneEntry (lastOnline : UInt64) : FriendsAt (oneEntry lastOnline) 0 [(1, seenEntry lastOnline)] where
  ring := ⟨⟨⟨rfl, rfl⟩, rfl, rfl⟩, by simp⟩
  info p hp := by
    rw [List.mem_singleton.mp hp]
    rfl

/-- A ring at address `0` with two friends, at addresses `1` and `2`. -/
def twoEntries (first second : FriendInfo) : FriendMemory where
  heads a :=
    if a = 0 then some ⟨1, 2⟩ else if a = 1 then some ⟨2, 0⟩ else if a = 2 then some ⟨0, 1⟩ else none
  info a := if a = 1 then some first else if a = 2 then some second else none
  tox := twoFriends
  deleted := []

theorem friendsAt_twoEntries (first second : FriendInfo) :
    FriendsAt (twoEntries first second) 0 [(1, first), (2, second)] where
  ring := ⟨⟨⟨rfl, rfl⟩, ⟨rfl, rfl⟩, rfl, rfl⟩, by simp⟩
  info p hp := by
    rcases List.mem_cons.mp hp with rfl | hp
    · rfl
    · rw [List.mem_singleton.mp hp]
      rfl

/-- Two friends, seen 40 seconds and 5 seconds ago, with a timeout of 10. -/
theorem cleanup_removes_expired_seen :
    RemovesExpired 10 50 0 (twoEntries (seenEntry 10) { seenEntry 45 with friendNumber := 1 })
      [(1, seenEntry 10), (2, { seenEntry 45 with friendNumber := 1 })] := by
  refine (cleanup_removes_expired_iff (friendsAt_twoEntries _ _) 10 50).mpr fun p hp _ hlt => ?_
  rcases List.mem_cons.mp hp with rfl | hp
  · exact absurd hlt (by decide)
  · rw [List.mem_singleton.mp hp] at hlt
    exact absurd hlt (by decide)

/-- A friend seen 50 seconds after now is removed. -/
theorem friend_seen_later_removed : ¬ RemovesExpired 10 50 0 (oneEntry 100) [(1, seenEntry 100)] := by
  intro h
  obtain ⟨s', hok, hw⟩ := friendCleanupAt_spec 10 50 (friendsAt_oneEntry 100) le_rfl
  obtain ⟨s'', hok', hr⟩ := h _ le_rfl
  cases hok.symm.trans hok'
  have hdeleted := hw.deleted.symm.trans hr.deleted
  exact absurd hdeleted (by decide)

end ToxSuite.Friend
