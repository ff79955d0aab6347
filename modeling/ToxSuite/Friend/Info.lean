import ToxSuite.Friend.Tox

/-!
# `friend.c`: the list of friends

`friends_info` is the program's own list of its friends, ordered by friend number.
This module gives its entries, the functions that add, update, find and destroy
them and the callbacks that write to one, and what each does to the list as a
whole.

An entry comes from `malloc`; what it held before is the argument `heap`.
-/

namespace ToxSuite.Friend

open ToxSuite.Lib

/-- `struct friend_info`. -/
structure FriendInfo where
  friendNumber : UInt32
  name : Option Bytes
  statusMessage : Option Bytes
  toxIdBin : PublicKey
  lastOnline : UInt64
  status : UserStatus
  connectionStatus : Connection
  toxIdHex : Vec (TOX_PUBLIC_KEY_SIZE * 2 + 1)
  deriving DecidableEq

/-- A key of one byte. -/
def someKey (b : UInt8) : PublicKey := ⟨List.replicate _ b, List.length_replicate⟩

/-- An allocation of zeros. -/
def zeroEntry : FriendInfo :=
  ⟨0, none, none, someKey 0, 0, .none, .none, ⟨List.replicate _ 0, List.length_replicate⟩⟩

/-- `entry->friend_number > friend->friend_number`. -/
abbrev FriendInfo.before (friend entry : FriendInfo) : Prop := friend.friendNumber < entry.friendNumber

/-- The entry `friend_info_add_entry` makes of an allocation. -/
def FriendInfo.init (heap : FriendInfo) (friendNumber : UInt32) : FriendInfo :=
  { heap with friendNumber, name := none, statusMessage := none }

/-- `friend_info_add_entry`: before the first entry with a greater number. The callers
that fill the entry do so through the pointer they get back; here it is filled first,
since its place depends on its number only. -/
def friendInfoAddEntry (friendsInfo : List FriendInfo) (friend : FriendInfo) : List FriendInfo :=
  friendsInfo.orderedInsert FriendInfo.before friend

/-! ### Keys in hexadecimal -/

/-- A digit of `sodium_bin2hex`, which writes in lower case. -/
def hexDigit (d : UInt8) : UInt8 := if d < 10 then 48 + d else 87 + d

/-- `toupper`, in the C locale. -/
def toupper (c : UInt8) : UInt8 := if 97 ≤ c ∧ c ≤ 122 then c - 32 else c

/-- The text `sodium_bin2hex` writes, without its terminator. -/
def bin2hex (bin : Bytes) : Bytes := bin.flatMap fun b => [hexDigit (b / 16), hexDigit (b % 16)]

theorem length_bin2hex (bin : Bytes) : (bin2hex bin).length = bin.length * 2 := by
  induction bin with
  | nil => rfl
  | cons b bin ih =>
    rw [bin2hex, List.flatMap_cons, List.length_append, ← bin2hex, ih]
    simp only [List.length_cons, List.length_nil]
    omega

/-- `sodium_bin2hex` and the loop over `toupper`. -/
def hexOf (bin : PublicKey) : Vec (TOX_PUBLIC_KEY_SIZE * 2 + 1) :=
  ⟨(bin2hex bin.1).map toupper ++ [0], by simp [length_bin2hex, bin.2]⟩

/-- An upper-case hexadecimal digit. -/
def upperHexDigit (d : ℕ) : UInt8 := (ascii "0123456789ABCDEF").getD d 0

/-- The upper-case hexadecimal text of a key. -/
def upperHex (bin : Bytes) : Bytes :=
  bin.flatMap fun b => [upperHexDigit (b.toNat / 16), upperHexDigit (b.toNat % 16)]

theorem toupper_hexDigit : ∀ d < 16, toupper (hexDigit (UInt8.ofNat d)) = upperHexDigit d := by
  decide

/-- **What `tox_id_hex` holds** is the key in upper-case hexadecimal. -/
theorem hexOf_eq (bin : PublicKey) : (hexOf bin).1 = upperHex bin.1 ++ [0] := by
  have hdigit (n : ℕ) (hn : n < 16) (d : UInt8) (hd : d.toNat = n) :
      toupper (hexDigit d) = upperHexDigit n := by
    rw [← toupper_hexDigit n hn, ← hd, UInt8.ofNat_toNat]
  have h (bs : Bytes) : (bin2hex bs).map toupper = upperHex bs := by
    induction bs with
    | nil => rfl
    | cons b bs ih =>
      have hb := b.toNat_lt
      simp only [bin2hex, upperHex, List.flatMap_cons, List.map_append, List.map_cons, List.map_nil] at ih ⊢
      rw [ih, hdigit (b.toNat / 16) (by omega) _ (by simp), hdigit (b.toNat % 16) (by omega) _ (by simp)]
  rw [← h]
  rfl

/-! ### Filling an entry -/

/-- `friend_info_update`. Tox answers for its friends only; for another number the sizes
it returns are `SIZE_MAX`, and the program writes there. -/
def friendInfoUpdate (tox : Tox) (friend : FriendInfo) : Except Fault FriendInfo :=
  match tox.friend friend.friendNumber with
  | none => .error .overflow
  | some t => .ok
    { friend with
      lastOnline := t.data.lastOnline
      toxIdBin := t.publicKey
      toxIdHex := hexOf t.publicKey
      name := some t.data.name
      statusMessage := some t.data.statusMessage
      status := t.data.status
      connectionStatus := t.data.connectionStatus }

theorem friendInfoUpdate_eq_ok {tox : Tox} {friend friend' : FriendInfo}
    (h : friendInfoUpdate tox friend = .ok friend') :
    ∃ t, tox.friend friend.friendNumber = some t ∧ friend'.friendNumber = friend.friendNumber ∧
      friend'.toxIdBin = t.publicKey ∧ friend'.toxIdHex = hexOf t.publicKey ∧
      friend'.lastOnline = t.data.lastOnline := by
  unfold friendInfoUpdate at h
  split at h
  · cases h
  · next t ht =>
    cases h
    exact ⟨t, ht, rfl, rfl, rfl, rfl⟩

/-- `friends_info_update`. -/
def friendsInfoUpdate (tox : Tox) (friendsInfo : List FriendInfo) : Except Fault (List FriendInfo) :=
  friendsInfo.mapM (friendInfoUpdate tox)

/-- `friends_info_init` on the empty list `suit_info_new` makes. -/
def friendsInfoInit (tox : Tox) (heap : UInt32 → FriendInfo) : Except Fault (List FriendInfo) :=
  friendsInfoUpdate tox
    (tox.numbers.foldl (fun friendsInfo n => friendInfoAddEntry friendsInfo (.init (heap n) n)) [])

/-! ### Finding an entry -/

/-- `friend_info_by_friend_number`. -/
def friendInfoByFriendNumber (friendsInfo : List FriendInfo) (friendNumber : UInt32) : Option FriendInfo :=
  friendsInfo.find? (·.friendNumber = friendNumber)

/-- `friend_info_by_public_keybin`. -/
def friendInfoByPublicKeybin (friendsInfo : List FriendInfo) (publicKey : PublicKey) : Option FriendInfo :=
  friendsInfo.find? (·.toxIdBin = publicKey)

/-- `strncmp(a, b, n)` is zero. -/
def strncmpEq (a b : Bytes) (n : ℕ) : Bool := (cstr a).take n == (cstr b).take n

/-- `friend_info_by_public_keyhex`. -/
def friendInfoByPublicKeyhex (friendsInfo : List FriendInfo) (publicKey : Bytes) : Option FriendInfo :=
  friendsInfo.find? fun f => strncmpEq f.toxIdHex.1 publicKey (TOX_PUBLIC_KEY_SIZE * 2)

/-- `friend_info_destroy` on an entry of the list: the first of its kind, since that is
the one a search comes upon. -/
def friendInfoDestroy (friendsInfo : List FriendInfo) (friend : FriendInfo) : List FriendInfo :=
  friendsInfo.erase friend

/-- Write to the entry found under a number. -/
def modifyEntry (friendNumber : UInt32) (g : FriendInfo → FriendInfo) : List FriendInfo → List FriendInfo
  | [] => []
  | f :: fs => if f.friendNumber = friendNumber then g f :: fs else f :: modifyEntry friendNumber g fs

/-- The callbacks that write to the entry of a friend: `friend_info_by_friend_number`
returns `NULL` for a stranger, and they write there. -/
def onEntry (friendsInfo : List FriendInfo) (friendNumber : UInt32) (g : FriendInfo → FriendInfo) :
    Except Fault (List FriendInfo) :=
  match friendInfoByFriendNumber friendsInfo friendNumber with
  | none => .error .null
  | some _ => .ok (modifyEntry friendNumber g friendsInfo)

/-- `friend_name_cb`. -/
def friendNameCb (friendsInfo : List FriendInfo) (friendNumber : UInt32) (name : Bytes) :
    Except Fault (List FriendInfo) :=
  onEntry friendsInfo friendNumber fun f => { f with name := some name }

/-- `friend_status_message_cb`. -/
def friendStatusMessageCb (friendsInfo : List FriendInfo) (friendNumber : UInt32) (message : Bytes) :
    Except Fault (List FriendInfo) :=
  onEntry friendsInfo friendNumber fun f => { f with statusMessage := some message }

/-- `friend_status_cb`. -/
def friendStatusCb (friendsInfo : List FriendInfo) (friendNumber : UInt32) (status : UserStatus) :
    Except Fault (List FriendInfo) :=
  onEntry friendsInfo friendNumber fun f => { f with status }

/-- What `friend_connection_status_cb` writes to the entry. -/
def friendConnectionStatus (friendsInfo : List FriendInfo) (friendNumber : UInt32)
    (connectionStatus : Connection) : Except Fault (List FriendInfo) :=
  onEntry friendsInfo friendNumber fun f => { f with connectionStatus }

/-! ### What they do to the list -/

theorem mem_friendInfoAddEntry {friendsInfo : List FriendInfo} {friend f : FriendInfo} :
    f ∈ friendInfoAddEntry friendsInfo friend ↔ f = friend ∨ f ∈ friendsInfo :=
  List.mem_orderedInsert _

/-- A list of friends is strictly increasing in friend number. -/
def Increasing (friendsInfo : List FriendInfo) : Prop := friendsInfo.Pairwise FriendInfo.before

theorem Increasing.nodup {friendsInfo : List FriendInfo} (h : Increasing friendsInfo) :
    (friendsInfo.map FriendInfo.friendNumber).Nodup := by
  rw [List.Nodup, List.pairwise_map]
  exact h.imp UInt32.ne_of_lt

/-- An added entry keeps the list strictly increasing if and only if its number is new. -/
theorem increasing_friendInfoAddEntry {friendsInfo : List FriendInfo} (h : Increasing friendsInfo)
    {friend : FriendInfo} :
    Increasing (friendInfoAddEntry friendsInfo friend) ↔
      friend.friendNumber ∉ friendsInfo.map FriendInfo.friendNumber := by
  constructor
  · intro hins hmem
    obtain ⟨f, hf, hn⟩ := List.mem_map.mp hmem
    rcases compares_of_pairwise_orderedInsert hins f hf with hlt | hlt
    · exact UInt32.ne_of_lt hlt hn.symm
    · exact UInt32.ne_of_lt hlt hn
  · intro hnew
    refine pairwise_orderedInsert (r := FriendInfo.before) (fun _ _ _ => UInt32.lt_trans) h fun f hf => ?_
    refine UInt32.lt_or_lt_of_ne fun heq => hnew ?_
    exact heq ▸ List.mem_map_of_mem hf

/-- Destroying an entry cuts its number and no other. -/
theorem mem_friendInfoDestroy {friendsInfo : List FriendInfo} (h : Increasing friendsInfo)
    {friend f : FriendInfo} (hfriend : friend ∈ friendsInfo) :
    f ∈ friendInfoDestroy friendsInfo friend ↔ f ∈ friendsInfo ∧ f.friendNumber ≠ friend.friendNumber := by
  rw [friendInfoDestroy, h.nodup.of_map.mem_erase_iff, and_comm]
  refine and_congr_right fun hf => not_congr ⟨congrArg _, fun hn => ?_⟩
  exact List.inj_on_of_nodup_map h.nodup hf hfriend hn

theorem Increasing.destroy {friendsInfo : List FriendInfo} (h : Increasing friendsInfo)
    (friend : FriendInfo) : Increasing (friendInfoDestroy friendsInfo friend) :=
  h.sublist List.erase_sublist

theorem friendInfoByFriendNumber_eq_some {friendsInfo : List FriendInfo} (h : Increasing friendsInfo)
    {n : UInt32} {f : FriendInfo} :
    friendInfoByFriendNumber friendsInfo n = some f ↔ f ∈ friendsInfo ∧ f.friendNumber = n :=
  find?_key_eq_some FriendInfo.friendNumber h.nodup

theorem friendInfoByFriendNumber_eq_none {friendsInfo : List FriendInfo} {n : UInt32} :
    friendInfoByFriendNumber friendsInfo n = none ↔ n ∉ friendsInfo.map FriendInfo.friendNumber :=
  find?_key_eq_none FriendInfo.friendNumber

/-- The first entry with the number is the one that is written to. -/
theorem modifyEntry_append {n : UInt32} {g : FriendInfo → FriendInfo} {pre post : List FriendInfo} {f : FriendInfo}
    (hpre : ∀ e ∈ pre, e.friendNumber ≠ n) (hf : f.friendNumber = n) :
    modifyEntry n g (pre ++ f :: post) = pre ++ g f :: post := by
  induction pre with
  | nil => exact if_pos hf
  | cons e pre ih =>
    rw [List.forall_mem_cons] at hpre
    rw [List.cons_append, modifyEntry, if_neg hpre.1, ih hpre.2]
    rfl

/-- What writing to an entry does not change of any entry it does not change of the list. -/
theorem map_modifyEntry {κ : Type} {view : FriendInfo → κ} {g : FriendInfo → FriendInfo}
    (hg : ∀ f, view (g f) = view f) (n : UInt32) (friendsInfo : List FriendInfo) :
    (modifyEntry n g friendsInfo).map view = friendsInfo.map view := by
  induction friendsInfo with
  | nil => rfl
  | cons a fs ih =>
    unfold modifyEntry
    split_ifs
    · rw [List.map_cons, List.map_cons, hg]
    · rw [List.map_cons, List.map_cons, ih]

theorem increasing_iff {friendsInfo : List FriendInfo} :
    Increasing friendsInfo ↔ (friendsInfo.map FriendInfo.friendNumber).Pairwise (· < ·) := by
  rw [List.pairwise_map]
  rfl

end ToxSuite.Friend
