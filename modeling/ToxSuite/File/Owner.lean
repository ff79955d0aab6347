import ToxSuite.Friend.Contacts
import ToxSuite.File.Savefile

/-!
# Whose key an entry carries

The program finds a friend by the key in its `friends_info` entry, and saves a
transfer under the key in the entry of the friend it is addressed to. An entry
comes from `malloc`, and `friend_info_update` writes the key. `import_keys` and
`friends_info_init` call it for the entries they add, `friend_request_cb` does
not: every entry carries its friend's key throughout a run if and only if each
allocation an accepted friend request gets already held that key
(`entries_carry_keys_iff`).
-/

namespace ToxSuite.File

open ToxSuite.Lib ToxSuite.Friend

/-- Every entry carries the key of its friend. -/
def Carries (c : Contacts) : Prop := ∀ f ∈ c.friendsInfo, CarriesKey c.tox f

/-- Every entry carries the key of its friend; a search by key finds exactly the friend that
has it; and the key a transfer is saved under is that of the friend it is addressed to. -/
structure RealKeys (c : Contacts) : Prop where
  carries : Carries c
  finds : ∀ t ∈ c.tox.friends, ∃ f, friendInfoByPublicKeybin c.friendsInfo t.publicKey = some f ∧
    f.friendNumber = t.number
  misses : ∀ publicKey ∉ c.tox.friends.map ToxFriend.publicKey,
    friendInfoByPublicKeybin c.friendsInfo publicKey = none
  saved : ∀ f r, senderRecord c.friendsInfo f = some r →
    ∃ t ∈ c.tox.friends, t.number = f.friendNumber ∧ r.toxid = t.publicKey

/-- The friend of an entry is the one with its number. -/
theorem carriesKey_friend {tox : Tox} {f : FriendInfo} (h : CarriesKey tox f) {t : ToxFriend}
    (ht : t ∈ tox.friends) (hn : t.number = f.friendNumber) : f.toxIdBin = t.publicKey := by
  obtain ⟨u, hu, hun, hbin, -⟩ := h
  rw [hbin, List.inj_on_of_nodup_map tox.numbers_nodup hu ht (hun.trans hn.symm)]

theorem Carries.realKeys {c : Contacts} (h : Carries c) (hm : Mirror c) : RealKeys c where
  carries := h
  finds t ht := by
    obtain ⟨g, hg, hgn⟩ := List.mem_map.mp ((hm.numbers t.number).mpr (List.mem_map_of_mem ht))
    have hbin : g.toxIdBin = t.publicKey := carriesKey_friend (h g hg) ht hgn.symm
    have hin : t.publicKey ∈ c.friendsInfo.map FriendInfo.toxIdBin := hbin ▸ List.mem_map_of_mem hg
    obtain ⟨f, hf⟩ := exists_find?_key FriendInfo.toxIdBin hin
    obtain ⟨hmem, hkey⟩ := mem_of_find?_key FriendInfo.toxIdBin hf
    -- the friend of the entry found has the key of `t`, so it is `t`
    obtain ⟨u, hu, hun, hubin, -⟩ := h f hmem
    have hut : u = t := List.inj_on_of_nodup_map c.tox.keys_nodup hu ht (hubin.symm.trans hkey)
    exact ⟨f, hf, by rw [← hun, hut]⟩
  misses publicKey hkey := by
    refine (find?_key_eq_none FriendInfo.toxIdBin).mpr fun hmem => hkey ?_
    obtain ⟨f, hf, rfl⟩ := List.mem_map.mp hmem
    obtain ⟨t, ht, -, hbin, -⟩ := h f hf
    exact hbin ▸ List.mem_map_of_mem ht
  saved f r hr := by
    obtain ⟨-, ⟨fr, hfr, hkey⟩, -⟩ := senderRecord_eq_some.mp hr
    obtain ⟨hmem, hn⟩ := mem_of_find?_key FriendInfo.friendNumber hfr
    obtain ⟨t, ht, htn, hbin, -⟩ := h fr hmem
    exact ⟨t, ht, htn.trans hn, hkey.symm.trans hbin⟩

/-! ### What the operations do to the keys -/

/-- An added entry carries the new friend's key if and only if it was filled with it. -/
theorem carries_add {c : Contacts} (h : Carries c) {tox : Tox} {t : ToxFriend} {f : FriendInfo}
    (htox : tox.friends = c.tox.friends ++ [t]) (hfree : t.number ∉ c.tox.numbers)
    (hf : f.friendNumber = t.number) :
    Carries ⟨tox, friendInfoAddEntry c.friendsInfo f⟩ ↔
      f.toxIdBin = t.publicKey ∧ f.toxIdHex.1 = upperHex t.publicKey.1 ++ [0] := by
  constructor
  · intro h'
    obtain ⟨u, hu, hun, hbin, hhex⟩ := h' f (mem_friendInfoAddEntry.mpr (.inl rfl))
    have hut : u = t := by
      rw [htox, List.mem_append, List.mem_singleton] at hu
      refine hu.resolve_left fun hold => hfree ?_
      exact (hun.trans hf) ▸ List.mem_map_of_mem hold
    rw [← hut]
    exact ⟨hbin, hhex⟩
  · rintro ⟨hbin, hhex⟩ g hg
    rcases mem_friendInfoAddEntry.mp hg with rfl | hg
    · exact ⟨t, by simp [htox], hf.symm, hbin, hhex⟩
    · obtain ⟨u, hu, hrest⟩ := h g hg
      exact ⟨u, by simp [htox, hu], hrest⟩

theorem carries_remove {c : Contacts} (h : Carries c) (hm : Mirror c) {f : FriendInfo}
    (hf : f ∈ c.friendsInfo) :
    Carries ⟨(toxFriendDelete c.tox f.friendNumber).1, friendInfoDestroy c.friendsInfo f⟩ := by
  intro g hg
  obtain ⟨hg, hne⟩ := (mem_friendInfoDestroy hm.increasing hf).mp hg
  obtain ⟨t, ht, hn, hrest⟩ := h g hg
  exact ⟨t, mem_toxFriendDelete.mpr ⟨ht, hn ▸ hne⟩, hn, hrest⟩

theorem carries_importKeys {hex2bin : Hex2Bin} (lines : List ImportLine) :
    ∀ {c c' : Contacts} {toxIdBin : PublicKey}, Carries c →
      importKeys hex2bin c toxIdBin lines = .ok c' → Carries c' := by
  induction lines with
  | nil =>
    intro c c' toxIdBin hc h
    cases h
    exact hc
  | cons line lines ih =>
    intro c c' toxIdBin hc h
    rcases importKeys_cons h with ⟨buf, h⟩ | ⟨buf, tox, t, f, htox, hfree, hnum, hbin, hhex, h⟩
    · exact ih hc h
    · refine ih ((carries_add hc htox hfree hnum).mpr ⟨hbin, ?_⟩) h
      rw [hhex, hexOf_eq]

theorem carries_removeKeys {c : Contacts} (h : Carries c) (hm : Mirror c) (lines : List Bytes) :
    Carries (removeKeys c lines) := by
  unfold removeKeys
  induction lines generalizing c with
  | nil => exact h
  | cons text lines ih =>
    rw [List.foldl_cons]
    rcases removeKey_cases c text with hc | ⟨f, hf, hc⟩
    · rw [hc]
      exact ih h hm
    · rw [hc]
      exact ih (carries_remove h hm hf) (hm.remove hf)

theorem carries_friendCleanup {c : Contacts} (h : Carries c) (hm : Mirror c)
    (timeout currentTime : UInt64) :
    Carries (friendCleanup timeout currentTime c.tox c.friendsInfo) := by
  obtain ⟨hinfo, htox⟩ := friendCleanup_spec timeout currentTime c.friendsInfo c.tox
  intro g hg
  rw [hinfo, List.mem_filter] at hg
  obtain ⟨t, ht, hn, hrest⟩ := h g hg.1
  refine ⟨t, (htox t).mpr ⟨ht, fun f hf hpurge heq => ?_⟩, hn, hrest⟩
  have hgf : g = f := List.inj_on_of_nodup_map hm.increasing.nodup hg.1 hf (hn.symm.trans heq)
  rw [hgf] at hg
  simp [hpurge] at hg

theorem carries_touch {c c' : Contacts} (h : Carries c) (ht : Touched c c') : Carries c' := by
  intro g hg
  -- the entry had the same number and keys before
  have hg' := List.mem_map_of_mem (f := fun f => (f.friendNumber, f.toxIdBin, f.toxIdHex)) hg
  rw [ht.entries] at hg'
  obtain ⟨f, hf, hview⟩ := List.mem_map.mp hg'
  obtain ⟨u, hu, hun, hbin, hhex⟩ := h f hf
  have hu' := List.mem_map_of_mem (f := fun t => (t.number, t.publicKey)) hu
  rw [← ht.friends] at hu'
  obtain ⟨t, ht', hid⟩ := List.mem_map.mp hu'
  simp only [Prod.mk.injEq] at hview hid
  obtain ⟨hnum, hgbin, hghex⟩ := hview
  obtain ⟨htn, htkey⟩ := hid
  refine ⟨t, ht', ?_, ?_, ?_⟩
  · rw [htn, hun, hnum]
  · rw [← hgbin, hbin, htkey]
  · rw [← hghex, hhex, htkey]

/-! ### Runs -/

/-- The allocation of an accepted friend request held the key of the friend. -/
def Filled (c : Contacts) : FriendEvent → Prop
  | .friendRequest publicKey reply heap => (toxFriendAddNorequest c.tox publicKey reply).2.isSome →
    heap.toxIdBin = publicKey ∧ heap.toxIdHex.1 = upperHex publicKey.1 ++ [0]
  | _ => True

theorem carries_friendRequestCb {c : Contacts} (h : Carries c) (publicKey : PublicKey) (reply : AddReply)
    (heap : FriendInfo) :
    Carries (friendRequestCb c publicKey reply heap) ↔ Filled c (.friendRequest publicKey reply heap) := by
  simp only [friendRequestCb, Filled]
  rcases toxFriendAddNorequest_cases c.tox publicKey reply with hadd | ⟨tox, n, data, hadd, hfree, htox⟩
  · rw [hadd]
    exact iff_of_true h (by simp)
  · rw [hadd]
    apply (carries_add h htox hfree rfl).trans
    simp [FriendInfo.init]

/-- **The step**: the entries go on mirroring Tox's list and carrying their keys if and only
if no friend forgets itself and the allocation of a new entry held its key. -/
theorem carries_friendStep {hex2bin : Hex2Bin} {c c' : Contacts} {e : FriendEvent}
    (h : friendStep hex2bin c e = some c') (hc : Mirror c ∧ Carries c) :
    Mirror c' ∧ Carries c' ↔ ¬ Forgets c e ∧ Filled c e := by
  rw [mirror_friendStep h hc.1]
  apply and_congr_right
  intro hforget
  have hok : friendEvent hex2bin c e = .ok c' := toOption_eq_some.mp h
  obtain ⟨hm, hkeys⟩ := hc
  cases e with
  | friendRequest publicKey reply heap =>
    cases hok
    exact carries_friendRequestCb hkeys publicKey reply heap
  | importKeys toxIdBin lines => exact iff_of_true (carries_importKeys lines hkeys hok) trivial
  | removeKeys lines =>
    cases hok
    exact iff_of_true (carries_removeKeys hkeys hm lines) trivial
  | cleanup timeout currentTime =>
    cases hok
    exact iff_of_true (carries_friendCleanup hkeys hm timeout currentTime) trivial
  | forgetme n =>
    cases hok
    have hn : n ∉ c.tox.numbers := fun hn => hforget ⟨n, hn, rfl⟩
    refine iff_of_true ?_ trivial
    simpa only [forgetme, toxFriendDelete, if_neg hn] using hkeys
  | _ => exact iff_of_true (carries_touch hkeys (touched_friendEvent (by rfl) hok)) trivial

/-- **Every entry carries its friend's key** in every state of a run from
`friends_info_init` without `!forgetme` if and only if the allocation of each accepted
friend request already held the key. -/
theorem entries_carry_keys_iff (hex2bin : Hex2Bin) (tox : Tox) (heap : UInt32 → FriendInfo)
    (es : List FriendEvent) (hes : ∀ e ∈ es, ∀ n, e ≠ .forgetme n) :
    ∃ friendsInfo, friendsInfoInit tox heap = .ok friendsInfo ∧
      (Always (friendStep hex2bin) RealKeys ⟨tox, friendsInfo⟩ es ↔
        Along (friendStep hex2bin) Filled ⟨tox, friendsInfo⟩ es) := by
  obtain ⟨friendsInfo, hinit, hm, hkeys⟩ := friendsInfoInit_spec tox heap
  refine ⟨friendsInfo, hinit, ?_⟩
  have hforget : Along (friendStep hex2bin) (fun c e => ¬ Forgets c e) ⟨tox, friendsInfo⟩ es := by
    apply along_of_forall
    intro c e he
    rintro ⟨n, -, rfl⟩
    exact hes _ he n rfl
  have hmirror := (always_mirror_iff hm es).mpr hforget
  have hiff : Always (friendStep hex2bin) (fun c => Mirror c ∧ Carries c) ⟨tox, friendsInfo⟩ es ↔
      Along (friendStep hex2bin) (fun c e => ¬ Forgets c e ∧ Filled c e) ⟨tox, friendsInfo⟩ es :=
    always_iff_along (fun _ _ _ => carries_friendStep) ⟨hm, hkeys⟩
  constructor
  · intro hreal
    have hcarries := hreal.mono fun _ => RealKeys.carries
    exact (along_and.mp (hiff.mp (always_and.mpr ⟨hmirror, hcarries⟩))).2
  · intro hfilled
    have hboth := hiff.mpr (along_and.mpr ⟨hforget, hfilled⟩)
    exact hboth.mono fun c hc => hc.2.realKeys hc.1

/-- A request and a purge. -/
theorem entries_carry_keys_iff_request :
    ∃ friendsInfo, friendsInfoInit .empty (fun _ => zeroEntry) = .ok friendsInfo ∧
      (Always (friendStep fun buf _ => buf) RealKeys ⟨.empty, friendsInfo⟩
          [.friendRequest (someKey 2) (some (0, unseen)) zeroEntry, .cleanup 10 20] ↔
        Along (friendStep fun buf _ => buf) Filled ⟨.empty, friendsInfo⟩
          [.friendRequest (someKey 2) (some (0, unseen)) zeroEntry, .cleanup 10 20]) :=
  entries_carry_keys_iff _ _ _ _ (by simp)

/-- The entry of a new friend holds the zeros of its allocation, and a transfer to the friend
is saved under a key nobody has. -/
theorem friendRequest_leaves_key :
    ∃ friendsInfo c r, friendsInfoInit .empty (fun _ => zeroEntry) = .ok friendsInfo ∧
      runEvents (friendStep fun buf _ => buf) ⟨.empty, friendsInfo⟩
        [.friendRequest (someKey 2) (some (0, unseen)) zeroEntry] = some c ∧
      ¬ RealKeys c ∧
      senderRecord c.friendsInfo (someTransfer 0) = some r ∧
      r.toxid = someKey 0 ∧ c.tox.friends.map ToxFriend.publicKey = [someKey 2] := by
  refine ⟨_, _, _, rfl, rfl, fun h => ?_, rfl, rfl, rfl⟩
  exact absurd (h.misses (someKey 0) (by decide)) (by decide)

end ToxSuite.File
