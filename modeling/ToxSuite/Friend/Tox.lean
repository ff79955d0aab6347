import ToxSuite.Lib.CText
import ToxSuite.Lib.Keyed

/-!
# The Tox instance

The program rests on `toxcore`, which is not in this repository. This module is
what the program can rely on of the friend list a `Tox *` keeps: friend numbers
and public keys are distinct, `tox_friend_add_norequest` hands out a free number
or fails, `tox_friend_delete` fails if and only if the number is unknown, and
what Tox reports about a friend changes behind the program's back.
-/

namespace ToxSuite.Friend

open ToxSuite.Lib

/-- `TOX_PUBLIC_KEY_SIZE`. -/
abbrev TOX_PUBLIC_KEY_SIZE : ℕ := 32

/-- `TOX_MAX_MESSAGE_LENGTH`. -/
def TOX_MAX_MESSAGE_LENGTH : ℕ := 1372

/-- A public key. -/
abbrev PublicKey := Vec TOX_PUBLIC_KEY_SIZE

/-- `TOX_CONNECTION`. -/
inductive Connection where
  | none
  | tcp
  | udp
  deriving DecidableEq

/-- `TOX_USER_STATUS`. -/
inductive UserStatus where
  | none
  | away
  | busy
  deriving DecidableEq

/-- What Tox reports about a friend. -/
structure FriendData where
  /-- `tox_friend_get_last_online`: seconds since the epoch. -/
  lastOnline : UInt64
  /-- `tox_friend_get_connection_status`. -/
  connectionStatus : Connection
  /-- `tox_friend_get_status`. -/
  status : UserStatus
  /-- `tox_friend_get_name`. -/
  name : Bytes
  /-- `tox_friend_get_status_message`. -/
  statusMessage : Bytes
  deriving DecidableEq

/-- A friend in Tox's list. -/
structure ToxFriend where
  number : UInt32
  publicKey : PublicKey
  data : FriendData
  deriving DecidableEq

/-- A Tox instance, as far as its friend list goes. -/
structure Tox where
  /-- The friend list. -/
  friends : List ToxFriend
  /-- No two friends have a number in common. -/
  numbers_nodup : (friends.map ToxFriend.number).Nodup
  /-- No two friends have a key in common. -/
  keys_nodup : (friends.map ToxFriend.publicKey).Nodup

/-- An instance without friends. -/
def Tox.empty : Tox := ⟨[], List.nodup_nil, List.nodup_nil⟩

/-- The numbers of `tox_self_get_friend_list`. -/
def Tox.numbers (tox : Tox) : List UInt32 := tox.friends.map ToxFriend.number

/-- The friend with a number. -/
def Tox.friend (tox : Tox) (n : UInt32) : Option ToxFriend := tox.friends.find? (·.number = n)

theorem Tox.friend_eq_some {tox : Tox} {n : UInt32} {t : ToxFriend} :
    tox.friend n = some t ↔ t ∈ tox.friends ∧ t.number = n :=
  find?_key_eq_some ToxFriend.number tox.numbers_nodup

/-- A friend appended to the list, whose number and key are free. -/
def Tox.append (tox : Tox) (t : ToxFriend) (hn : t.number ∉ tox.numbers)
    (hk : t.publicKey ∉ tox.friends.map ToxFriend.publicKey) : Tox where
  friends := tox.friends ++ [t]
  numbers_nodup := by
    rw [List.map_append]
    exact tox.numbers_nodup.append (List.nodup_singleton _) (by simpa [Tox.numbers] using hn)
  keys_nodup := by
    rw [List.map_append]
    exact tox.keys_nodup.append (List.nodup_singleton _) (by simpa using hk)

/-- What `toxcore` answers to a request to add a friend: no, or a number and what it
reports about the friend from then on. -/
abbrev AddReply := Option (UInt32 × FriendData)

/-- `tox_friend_add_norequest`: the new number, or `none` for an error. A reply that
takes a used number or befriends a key twice is not one `toxcore` gives. -/
def toxFriendAddNorequest (tox : Tox) (publicKey : PublicKey) (reply : AddReply) : Tox × Option UInt32 :=
  match reply with
  | some (n, data) =>
    if hn : n ∉ tox.numbers then
      if hk : publicKey ∉ tox.friends.map ToxFriend.publicKey then
        (tox.append ⟨n, publicKey, data⟩ hn hk, some n)
      else (tox, none)
    else (tox, none)
  | none => (tox, none)

/-- The instance without a friend. -/
def Tox.without (tox : Tox) (n : UInt32) : Tox where
  friends := tox.friends.eraseP (·.number = n)
  numbers_nodup := nodup_eraseP _ tox.numbers_nodup _
  keys_nodup := nodup_eraseP _ tox.keys_nodup _

/-- `tox_friend_delete`: whether it succeeded. -/
def toxFriendDelete (tox : Tox) (n : UInt32) : Tox × Bool :=
  if n ∈ tox.numbers then (tox.without n, true) else (tox, false)

/-- Put new data under a number. -/
def setData (n : UInt32) (data : FriendData) (t : ToxFriend) : ToxFriend :=
  if t.number = n then { t with data } else t

@[simp] theorem setData_number (n : UInt32) (data : FriendData) (t : ToxFriend) :
    (setData n data t).number = t.number := by
  unfold setData
  split <;> rfl

@[simp] theorem setData_publicKey (n : UInt32) (data : FriendData) (t : ToxFriend) :
    (setData n data t).publicKey = t.publicKey := by
  unfold setData
  split <;> rfl

/-- From now on Tox reports something else about a friend. -/
def Tox.report (tox : Tox) (n : UInt32) (data : FriendData) : Tox where
  friends := tox.friends.map (setData n data)
  numbers_nodup := by simpa [Function.comp_def] using tox.numbers_nodup
  keys_nodup := by simpa [Function.comp_def] using tox.keys_nodup

/-! ### What each call does to the list -/

/-- An add fails and changes nothing, or appends the friend under a free number. -/
theorem toxFriendAddNorequest_cases (tox : Tox) (publicKey : PublicKey) (reply : AddReply) :
    toxFriendAddNorequest tox publicKey reply = (tox, none) ∨
      ∃ (tox' : Tox) (n : UInt32) (data : FriendData),
        toxFriendAddNorequest tox publicKey reply = (tox', some n) ∧ n ∉ tox.numbers ∧
        tox'.friends = tox.friends ++ [⟨n, publicKey, data⟩] := by
  unfold toxFriendAddNorequest
  rcases reply with - | ⟨n, data⟩
  · exact .inl rfl
  · by_cases hn : n ∉ tox.numbers
    · by_cases hk : publicKey ∉ tox.friends.map ToxFriend.publicKey
      · exact .inr ⟨tox.append ⟨n, publicKey, data⟩ hn hk, n, data,
          by simp only [dif_pos hn, dif_pos hk], hn, rfl⟩
      · exact .inl (by simp only [dif_pos hn, dif_neg hk])
    · exact .inl (by simp only [dif_neg hn])

theorem mem_without {tox : Tox} {n : UInt32} {t : ToxFriend} :
    t ∈ (tox.without n).friends ↔ t ∈ tox.friends ∧ t.number ≠ n :=
  mem_eraseP_key ToxFriend.number tox.numbers_nodup

theorem mem_numbers_without {tox : Tox} {n m : UInt32} :
    m ∈ (tox.without n).numbers ↔ m ∈ tox.numbers ∧ m ≠ n := by
  simp only [Tox.numbers, List.mem_map, mem_without]
  constructor
  · rintro ⟨t, ⟨ht, hne⟩, rfl⟩
    exact ⟨⟨t, ht, rfl⟩, hne⟩
  · rintro ⟨⟨t, ht, rfl⟩, hne⟩
    exact ⟨t, ⟨ht, hne⟩, rfl⟩

/-- Deleting takes exactly the number off the list, if it is there. -/
theorem mem_numbers_toxFriendDelete {tox : Tox} {n m : UInt32} :
    m ∈ (toxFriendDelete tox n).1.numbers ↔ m ∈ tox.numbers ∧ m ≠ n := by
  unfold toxFriendDelete
  split_ifs with h
  · exact mem_numbers_without
  · refine ⟨fun hm => ⟨hm, ?_⟩, And.left⟩
    rintro rfl
    exact h hm

/-- Deleting keeps the other friends as they are. -/
theorem mem_toxFriendDelete {tox : Tox} {n : UInt32} {t : ToxFriend} :
    t ∈ (toxFriendDelete tox n).1.friends ↔ t ∈ tox.friends ∧ t.number ≠ n := by
  unfold toxFriendDelete
  split_ifs with h
  · exact mem_without
  · refine ⟨fun ht => ⟨ht, ?_⟩, And.left⟩
    rintro rfl
    exact h (List.mem_map_of_mem ht)

end ToxSuite.Friend
