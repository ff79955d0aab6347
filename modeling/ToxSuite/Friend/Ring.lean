import Mathlib.Data.Set.Finite.Basic
import ToxSuite.Lib.Ledger
import ToxSuite.Lib.Rings
import ToxSuite.Friend.Cleanup

/-!
# Friends come and go on a ring

`Friend.Contacts` takes `friends_info` for a list. The program keeps it as a ring in memory
that `malloc` and `free` change: a new entry is tied in before the first one with a greater
number, an entry that goes is cut out and given back, with its name and its status message,
a search walks from the head. This module gives the functions of `friend.c` and `toxdata.c`
as they are, on addresses, and shows that they do to the ring what those of
`Friend.Contacts` do to the list (`ring_refines_contacts`): what is proved of the list in a
run holds of the ring, no entry is followed after it was given back, and nothing else is in
memory than the entries of the ring and the strings they point to.
-/

namespace ToxSuite.Friend

open ToxSuite.Lib

/-! ### Strings -/

/-- The blocks that `name` and `status_message` of an entry point to. -/
structure FriendStrings where
  name : Option ℕ
  statusMessage : Option ℕ

/-- What they are. -/
def FriendStrings.blocks (t : FriendStrings) : Multiset ℕ := block t.name + block t.statusMessage

/-- What a function does to the strings of an entry. -/
abbrev Rewrite := FriendStrings → Ledger → Except Fault (FriendStrings × Ledger)

/-- The strings stay. -/
def keepStrings : Rewrite := fun t L => pure (t, L)

/-- `name` is reallocated. -/
def reallocName (place : Placement) : Rewrite := fun t L => do
  let (name, L) ← realloc place t.name L
  pure ({ t with name := some name }, L)

/-- `status_message` is reallocated. -/
def reallocStatusMessage (place : Placement) : Rewrite := fun t L => do
  let (statusMessage, L) ← realloc place t.statusMessage L
  pure ({ t with statusMessage := some statusMessage }, L)

/-- Both are, the name first. -/
def reallocStrings (place : Placement) : Rewrite := fun t L => do
  let (t, L) ← reallocName place t L
  reallocStatusMessage place t L

/-- `name` is set to what `strdup` returns. -/
def strdupName (place : Placement) : Rewrite := fun t L =>
  let (name, L) := alloc place L
  pure ({ t with name := some name }, L)

/-! ### The functions on addresses -/

/-- The ring of friends with the strings of its entries, by the address of the entry, and the blocks that are
allocated for strings. -/
structure FriendHeap extends FriendMemory where
  strings : ℕ → FriendStrings
  ledger : Ledger

/-- The entry at an address. -/
def infoAt (s : FriendMemory) (a : ℕ) : Except Fault FriendInfo :=
  match s.info a with
  | none => .error .released
  | some f => pure f

/-- Write to the entry at an address. -/
def writeEntry (s : FriendHeap) (a : ℕ) (g : FriendInfo → Except Fault FriendInfo) (k : Rewrite) :
    Except Fault FriendHeap := do
  let f ← infoAt s.toFriendMemory a
  let f ← g f
  let (t, ledger) ← k (s.strings a) s.ledger
  pure { s with
    info := Function.update s.info a (some f)
    strings := Function.update s.strings a t
    ledger }

/-- `friend_info_destroy`, with the strings. -/
def friendInfoDestroyIn (s : FriendHeap) (friend : ℕ) : Except Fault FriendHeap := do
  let memory ← friendInfoDestroyAt s.toFriendMemory friend
  let ledger ← releaseOpt (s.strings friend).name s.ledger
  let ledger ← releaseOpt (s.strings friend).statusMessage ledger
  pure { s with toFriendMemory := memory, ledger }

/-- The body of the loop of `friend_cleanup`, with the strings. -/
def cleanupEntryIn (timeout currentTime : UInt64) (s : FriendHeap) (f : ℕ) : Except Fault FriendHeap := do
  let info ← infoAt s.toFriendMemory f
  if info.lastOnline = UInt64.ofNat (2 ^ 64 - 1) then pure s
  else if currentTime - info.lastOnline < timeout then pure s
  else
    friendInfoDestroyIn
      { s with
        tox := (toxFriendDelete s.tox info.friendNumber).1
        deleted := s.deleted ++ [info.friendNumber] } f

/-- Where `malloc` puts an entry in this memory, and what it leaves in its links. -/
abbrev Malloc := Heads → ℕ × ListHead

section

variable (malloc : Malloc) (place : Placement) (hex2bin : Hex2Bin) (head fuel : ℕ)

/-- What is done with a buffer that is allocated before and given back after. -/
def withBuffer (body : FriendHeap → Except Fault FriendHeap) (s : FriendHeap) : Except Fault FriendHeap := do
  let (buffer, ledger) := alloc place s.ledger
  let s ← body { s with ledger }
  let ledger ← release buffer s.ledger
  pure { s with ledger }

/-- A walk to the first entry that passes a test. -/
def friendInfoFind (s : FriendMemory) (p : FriendInfo → Bool) : Except Fault (Option ℕ) :=
  listFind s.heads head (fun ptr => do
    let entry ← infoAt s ptr
    pure (p entry)) fuel

/-- `friend_info_add_entry`: the memory and the new entry. -/
def friendInfoAddEntryAt (s : FriendHeap) (heap : FriendInfo) (friendNumber : UInt32) :
    Except Fault (FriendHeap × ℕ) := do
  let (friend, links) := malloc s.heads
  let s := { s with
    heads := Function.update s.heads friend (some links)
    info := Function.update s.info friend (some (.init heap friendNumber))
    strings := Function.update s.strings friend ⟨none, none⟩ }
  let ptr ← friendInfoFind head fuel s.toFriendMemory fun entry => entry.friendNumber > friendNumber
  let heads ← listAddTail s.heads friend (ptr.getD head)
  pure ({ s with heads }, friend)

/-- `friend_info_update`. -/
def friendInfoUpdateAt (s : FriendHeap) (friend : ℕ) : Except Fault FriendHeap :=
  writeEntry s friend (friendInfoUpdate s.tox) (reallocStrings place)

/-- `friends_info_number_of_friend`. -/
def friendsInfoNumberOfFriend (s : FriendMemory) : Except Fault ℕ :=
  listForEach s.heads head (fun i _ => pure (i + 1)) fuel 0

/-- `friend_request_cb`. -/
def friendRequestCbAt (s : FriendHeap) (publicKey : PublicKey) (reply : AddReply) (heap : FriendInfo) :
    Except Fault FriendHeap := do
  let (tox, number) := toxFriendAddNorequest s.tox publicKey reply
  -- for the log
  let _ ← friendsInfoNumberOfFriend head fuel s.toFriendMemory
  match number with
  | none => pure { s with tox }
  | some friendNumber => do
    let (s, _) ← friendInfoAddEntryAt malloc head fuel { s with tox } heap friendNumber
    pure s

/-- The loop of `import_keys` over its lines. -/
def importLinesAt (s : FriendHeap) (toxIdBin : PublicKey) : List ImportLine → Except Fault FriendHeap
  | [] => pure s
  | line :: lines =>
    if isPublickeyLine line.text then
      let toxIdBin := hex2bin toxIdBin (cstr line.text)
      match toxFriendAddNorequest s.tox toxIdBin line.reply with
      | (tox, none) => importLinesAt { s with tox } toxIdBin lines
      | (tox, some friendNumber) => do
        let (s, f) ← friendInfoAddEntryAt malloc head fuel { s with tox } line.heap friendNumber
        let s ← writeEntry s f (fun f => pure { f with name := some (ascii "_IMPORTED_KEY_") }) (strdupName place)
        let s ← friendInfoUpdateAt place s f
        importLinesAt s toxIdBin lines
    else importLinesAt s toxIdBin lines

/-- `import_keys`, with the buffer of `getline`. -/
def importKeysAt (s : FriendHeap) (toxIdBin : PublicKey) (lines : List ImportLine) : Except Fault FriendHeap :=
  withBuffer place (fun s => importLinesAt malloc place hex2bin head fuel s toxIdBin lines) s

/-- The body of the loop of `remove_keys`. -/
def removeKeyAt (s : FriendHeap) (text : Bytes) : Except Fault FriendHeap :=
  if isPublickeyLine text then do
    let f ← friendInfoFind head fuel s.toFriendMemory fun f =>
      strncmpEq f.toxIdHex.1 text (TOX_PUBLIC_KEY_SIZE * 2)
    match f with
    | none => pure s
    | some f => do
      let info ← infoAt s.toFriendMemory f
      let (tox, deleted) := toxFriendDelete s.tox info.friendNumber
      let s := { s with tox, deleted := s.deleted ++ [info.friendNumber] }
      if deleted then friendInfoDestroyIn s f else pure s
  else pure s

/-- `remove_keys`, with the buffer of `getline`. -/
def removeKeysAt (s : FriendHeap) (lines : List Bytes) : Except Fault FriendHeap :=
  withBuffer place (fun s => lines.foldlM (removeKeyAt head fuel) s) s

/-- `friend_cleanup`, with the strings. -/
def friendCleanupIn (timeout currentTime : UInt64) (s : FriendHeap) : Except Fault FriendHeap :=
  listForEachSafe (fun s : FriendHeap => s.heads) (cleanupEntryIn timeout currentTime) head fuel s

/-- The callbacks that write to the entry of a friend. -/
def onEntryAt (s : FriendHeap) (friendNumber : UInt32) (g : FriendInfo → FriendInfo) (k : Rewrite) :
    Except Fault FriendHeap := do
  let f ← friendInfoFind head fuel s.toFriendMemory fun f => f.friendNumber = friendNumber
  match f with
  | none => .error .null
  | some f => writeEntry s f (fun f => pure (g f)) k

/-- What an event does. -/
def friendEventAt (s : FriendHeap) : FriendEvent → Except Fault FriendHeap
  | .friendRequest publicKey reply heap => friendRequestCbAt malloc head fuel s publicKey reply heap
  | .importKeys toxIdBin lines => importKeysAt malloc place hex2bin head fuel s toxIdBin lines
  | .removeKeys lines => removeKeysAt place head fuel s lines
  | .cleanup timeout currentTime => friendCleanupIn head fuel timeout currentTime s
  | .forgetme n => pure { s with tox := (toxFriendDelete s.tox n).1, deleted := s.deleted ++ [n] }
  | .name n name => onEntryAt head fuel s n (fun f => { f with name := some name }) (reallocName place)
  | .statusMessage n message =>
    onEntryAt head fuel s n (fun f => { f with statusMessage := some message }) (reallocStatusMessage place)
  | .status n status => onEntryAt head fuel s n (fun f => { f with status }) keepStrings
  | .connectionStatus n connectionStatus =>
    onEntryAt head fuel s n (fun f => { f with connectionStatus }) keepStrings
  | .report n data => pure { s with tox := s.tox.report n data }

/-- A step: a fault ends the program. -/
def friendStepAt (s : FriendHeap) (e : FriendEvent) : Option FriendHeap :=
  (friendEventAt malloc place hex2bin head fuel s e).toOption

/-- `friends_info_update`. -/
def friendsInfoUpdateAt (s : FriendHeap) : Except Fault FriendHeap :=
  listForEach s.heads head (friendInfoUpdateAt place) fuel s

/-- The loop of `friends_info_init`. -/
def addEntriesAt (heap : UInt32 → FriendInfo) (numbers : List UInt32) (s : FriendHeap) : Except Fault FriendHeap :=
  numbers.foldlM (fun s n => do
    let (s, _) ← friendInfoAddEntryAt malloc head fuel s (heap n) n
    pure s) s

/-- `friends_info_init`, with `friend_list`. -/
def friendsInfoInitAt (s : FriendHeap) (heap : UInt32 → FriendInfo) : Except Fault FriendHeap := do
  let s ← withBuffer place (addEntriesAt malloc head fuel heap s.tox.numbers) s
  friendsInfoUpdateAt place head fuel s

/-- `friends_info_destroy`. -/
def friendsInfoDestroyAt (s : FriendHeap) : Except Fault FriendHeap :=
  listForEachSafe (fun s : FriendHeap => s.heads) friendInfoDestroyIn head fuel s

/-- The memory of `suit_info_new`: the head of the list and no entry. -/
def noFriends (tox : Tox) (links : ListHead) (L : Ledger) : Except Fault FriendHeap := do
  let heads ← initListHead (Function.update (fun _ => none) head (some links)) head
  pure ⟨⟨heads, fun _ => none, tox, []⟩, fun _ => ⟨none, none⟩, L⟩

end

/-! ### What is in memory -/

/-- `malloc` gives an address that is not in use, as long as there is one. -/
def Malloc.Sound (malloc : Malloc) : Prop := ∀ m : Heads, {a | (m a).isSome}.Finite → m (malloc m).1 = none

/-- The strings are there that the entry has. -/
structure FriendStrings.Of (t : FriendStrings) (f : FriendInfo) : Prop where
  name : t.name.isSome = f.name.isSome
  statusMessage : t.statusMessage.isSome = f.statusMessage.isSome

/-- The blocks of the strings of these entries. -/
def stringsOwn (strings : ℕ → FriendStrings) (entries : List (ℕ × FriendInfo)) : Multiset ℕ :=
  (entries.map fun e => (strings e.1).blocks).sum

/-- The ring holds these entries, and nothing else is in memory than the head, they, and the strings they point to,
beside `base`. -/
structure FriendsOnly (s : FriendHeap) (head : ℕ) (entries : List (ℕ × FriendInfo)) (base : Multiset ℕ) : Prop
    extends FriendsAt s.toFriendMemory head entries where
  heads_live : ∀ x, (s.heads x).isSome = true → x ∈ head :: entries.map Prod.fst
  info_live : ∀ x, (s.info x).isSome = true → x ∈ entries.map Prod.fst
  strings : ∀ e ∈ entries, (s.strings e.1).Of e.2
  owns : Owns s.ledger (stringsOwn s.strings entries) base

/-- The list of friends that a ring is, and Tox's. -/
def contactsOf (s : FriendHeap) (entries : List (ℕ × FriendInfo)) : Contacts := ⟨s.tox, entries.map Prod.snd⟩

section

variable {malloc : Malloc} {place : Placement} {hex2bin : Hex2Bin} {head fuel : ℕ} {s : FriendHeap}
  {entries : List (ℕ × FriendInfo)} {base : Multiset ℕ}

theorem stringsOwn_append (strings : ℕ → FriendStrings) (l l' : List (ℕ × FriendInfo)) :
    stringsOwn strings (l ++ l') = stringsOwn strings l + stringsOwn strings l' := by
  simp [stringsOwn]

theorem stringsOwn_cons (strings : ℕ → FriendStrings) (e : ℕ × FriendInfo) (l : List (ℕ × FriendInfo)) :
    stringsOwn strings (e :: l) = (strings e.1).blocks + stringsOwn strings l := by
  simp [stringsOwn]

/-- The strings of other entries are nothing to these. -/
theorem stringsOwn_update {strings : ℕ → FriendStrings} {a : ℕ} (t : FriendStrings) {l : List (ℕ × FriendInfo)}
    (hl : ∀ e ∈ l, e.1 ≠ a) : stringsOwn (Function.update strings a t) l = stringsOwn strings l := by
  unfold stringsOwn
  rw [List.map_congr_left fun e he => by rw [Function.update_of_ne (hl e he)]]

/-- The strings of one entry change, or come with it. -/
theorem stringsOwn_replaced {strings : ℕ → FriendStrings} {pre post : List (ℕ × FriendInfo)} {e : ℕ × FriendInfo}
    (hne : ∀ e' ∈ pre ++ post, e'.1 ≠ e.1) (t : FriendStrings) :
    stringsOwn (Function.update strings e.1 t) (pre ++ e :: post) = t.blocks + stringsOwn strings (pre ++ post) := by
  rw [stringsOwn_append, stringsOwn_cons, Function.update_self, add_left_comm, ← stringsOwn_append,
    stringsOwn_update t hne]

theorem FriendsOnly.finite (h : FriendsOnly s head entries base) : {a | (s.heads a).isSome}.Finite :=
  (List.finite_toSet (head :: entries.map Prod.fst)).subset h.heads_live

theorem FriendsOnly.with_tox (h : FriendsOnly s head entries base) (tox : Tox) (deleted : List UInt32) :
    FriendsOnly { s with tox, deleted } head entries base :=
  ⟨⟨h.ring, h.info⟩, h.heads_live, h.info_live, h.strings, h.owns⟩

theorem FriendsOnly.with_ledger (h : FriendsOnly s head entries base) {L : Ledger} {base' : Multiset ℕ}
    (hL : Owns L (stringsOwn s.strings entries) base') : FriendsOnly { s with ledger := L } head entries base' :=
  ⟨⟨h.ring, h.info⟩, h.heads_live, h.info_live, h.strings, hL⟩

theorem FriendsAt.nodup {s : FriendMemory} (h : FriendsAt s head entries) : (entries.map Prod.fst).Nodup :=
  (List.nodup_cons.mp h.ring.nodup).2

theorem FriendsAt.infoAt {s : FriendMemory} (h : FriendsAt s head entries) {p : ℕ × FriendInfo} (hp : p ∈ entries) :
    Friend.infoAt s p.1 = .ok p.2 := by
  unfold Friend.infoAt
  rw [h.info p hp]
  rfl

/-- The first address whose entry passes a test. -/
theorem find?_map_fst {q : ℕ → Bool} {p : FriendInfo → Bool} (hq : ∀ e ∈ entries, q e.1 = p e.2) :
    (entries.map Prod.fst).find? q = (entries.find? fun e => p e.2).map Prod.fst := by
  induction entries with
  | nil => rfl
  | cons e entries ih =>
    rw [List.forall_mem_cons] at hq
    rw [List.map_cons, List.find?_cons, List.find?_cons, hq.1, ih hq.2]
    cases p e.2 <;> rfl

/-- **A walk over the ring finds what a search in the list finds.** -/
theorem friendInfoFind_eq {s : FriendMemory} (h : FriendsAt s head entries) (hfuel : entries.length ≤ fuel)
    (p : FriendInfo → Bool) :
    friendInfoFind head fuel s p = .ok ((entries.find? fun e => p e.2).map Prod.fst) := by
  unfold friendInfoFind
  rw [listFind_eq (p := fun a => ((s.info a).map p).getD false) h.ring ?_ (by simpa using hfuel)]
  · rw [find?_map_fst fun e he => by rw [h.info e he]; rfl]
  · intro a ha
    obtain ⟨e, he, rfl⟩ := List.mem_map.mp ha
    rw [h.infoAt he, h.info e he]
    rfl

/-- The place of a new entry: what is before it has no greater number, what comes right behind has one. -/
theorem friendInfoAddEntry_append {pre post : List FriendInfo} {friend : FriendInfo}
    (hpre : ∀ f ∈ pre, ¬ friend.friendNumber < f.friendNumber)
    (hpost : ∀ f ∈ post.head?, friend.friendNumber < f.friendNumber) :
    friendInfoAddEntry (pre ++ post) friend = pre ++ friend :: post := by
  unfold friendInfoAddEntry
  induction pre with
  | nil =>
    cases post with
    | nil => rfl
    | cons f post => exact List.orderedInsert_cons_of_le _ _ (hpost f rfl)
  | cons f pre ih =>
    rw [List.forall_mem_cons] at hpre
    rw [List.cons_append, List.orderedInsert, if_neg hpre.1, ih hpre.2, List.cons_append]

/-- A list in two parts: before the first that passes a test, and from there on. -/
theorem exists_split {α : Type} (p : α → Bool) (l : List α) : ∃ pre post, l = pre ++ post ∧
    (∀ x ∈ pre, p x = false) ∧ (∀ x ∈ post.head?, p x = true) ∧ l.find? p = post.head? := by
  induction l with
  | nil => exact ⟨[], [], rfl, by simp, by simp, rfl⟩
  | cons x l ih =>
    cases hx : p x with
    | true => exact ⟨[], x :: l, rfl, by simp, by simpa using hx, by simp [hx]⟩
    | false =>
      obtain ⟨pre, post, rfl, hpre, hpost, hfind⟩ := ih
      exact ⟨x :: pre, post, rfl, List.forall_mem_cons.mpr ⟨hx, hpre⟩, hpost, by rw [List.find?_cons, hx, hfind]⟩

/-- Entries have addresses of their own. -/
theorem FriendsAt.ne_of_mem {s : FriendMemory} {pre post : List (ℕ × FriendInfo)} {e : ℕ × FriendInfo}
    (h : FriendsAt s head (pre ++ e :: post)) : ∀ e' ∈ pre ++ post, e'.1 ≠ e.1 := by
  intro e' he' heq
  have hnodup := h.nodup
  rw [List.map_append, List.map_cons, List.nodup_middle, List.nodup_cons, ← List.map_append] at hnodup
  exact hnodup.1 (List.mem_map.mpr ⟨e', he', heq⟩)

/-- A new entry, without strings, is tied into the ring. -/
theorem FriendsOnly.tiedIn {pre post : List (ℕ × FriendInfo)} {a : ℕ} {f : FriendInfo} {m' : Heads} (links : ListHead)
    (h : FriendsOnly s head (pre ++ post) base) (ha : a ∉ head :: (pre ++ post).map Prod.fst)
    (hname : f.name = none) (hmessage : f.statusMessage = none)
    (hlive : ∀ x, (m' x).isSome = (Function.update s.heads a (some links) x).isSome)
    (hr : ListRing m' head (pre.map Prod.fst ++ a :: post.map Prod.fst)) :
    FriendsOnly { s with
      heads := m'
      info := Function.update s.info a (some f)
      strings := Function.update s.strings a ⟨none, none⟩ } head (pre ++ (a, f) :: post) base := by
  have hne {e : ℕ × FriendInfo} (he : e ∈ pre ++ post) : e.1 ≠ a :=
    ne_of_mem_of_not_mem (List.mem_cons_of_mem _ (List.mem_map_of_mem he)) ha
  have hmem {e : ℕ × FriendInfo} (he : e ∈ pre ++ (a, f) :: post) : e = (a, f) ∨ e ∈ pre ++ post := by
    rwa [List.mem_append, List.mem_cons, or_left_comm, ← List.mem_append] at he
  refine ⟨⟨?_, fun e he => ?_⟩, fun x hx => ?_, fun x hx => ?_, fun e he => ?_, ?_⟩
  · rw [List.map_append, List.map_cons]
    exact hr
  · rcases hmem he with rfl | he
    · exact Function.update_self ..
    · exact (Function.update_of_ne (hne he) _ _).trans (h.info e he)
  · rw [hlive, Function.update_apply] at hx
    split_ifs at hx with heq
    · simp [heq]
    · have := h.heads_live x hx
      simp only [List.map_append, List.map_cons, List.mem_cons, List.mem_append] at this ⊢
      tauto
  · simp only [Function.update_apply] at hx
    split_ifs at hx with heq
    · simp [heq]
    · have := h.info_live x hx
      simp only [List.map_append, List.map_cons, List.mem_cons, List.mem_append] at this ⊢
      tauto
  · rcases hmem he with rfl | he
    · simp only [Function.update_self]
      exact ⟨by rw [hname]; rfl, by rw [hmessage]; rfl⟩
    · simp only [Function.update_of_ne (hne he)]
      exact h.strings e he
  · refine h.owns.congr ?_
    rw [stringsOwn_replaced (e := (a, f)) fun e he => hne he]
    exact (zero_add _).symm

/-- **`friend_info_add_entry` on the ring**: the new entry is at an address of its own, at the place where the
list has it, and has no strings. -/
theorem friendInfoAddEntryAt_spec (hmalloc : malloc.Sound) (h : FriendsOnly s head entries base)
    (hfuel : entries.length ≤ fuel) (heap : FriendInfo) (friendNumber : UInt32) :
    ∃ s' a pre post, friendInfoAddEntryAt malloc head fuel s heap friendNumber = .ok (s', a) ∧
      FriendsOnly s' head (pre ++ (a, .init heap friendNumber) :: post) base ∧ s'.tox = s.tox ∧
      entries = pre ++ post ∧
      ∀ friend : FriendInfo, friend.friendNumber = friendNumber →
        friendInfoAddEntry (entries.map Prod.snd) friend = pre.map Prod.snd ++ friend :: post.map Prod.snd := by
  have hnone := hmalloc s.heads h.finite
  rcases hal : malloc s.heads with ⟨a, links⟩
  rw [hal] at hnone
  have hfree : a ∉ head :: entries.map Prod.fst := by
    intro hmem
    have := h.ring.isSome hmem
    rw [hnone] at this
    cases this
  have hne {x : ℕ} (hx : x ∈ head :: entries.map Prod.fst) : x ≠ a := ne_of_mem_of_not_mem hx hfree
  -- the memory after `malloc`, in which the ring is as it was
  let s₁ : FriendHeap := { s with
    heads := Function.update s.heads a (some links)
    info := Function.update s.info a (some (.init heap friendNumber))
    strings := Function.update s.strings a ⟨none, none⟩ }
  have h₁ : FriendsAt s₁.toFriendMemory head entries :=
    ⟨h.ring.congr fun x hx => Function.update_of_ne (hne hx) _ _, fun e he =>
      (Function.update_of_ne (hne (List.mem_cons_of_mem _ (List.mem_map_of_mem he))) _ _).trans (h.info e he)⟩
  obtain ⟨pre, post, rfl, hpre, hpost, hfind⟩ :=
    exists_split (fun e : ℕ × FriendInfo => decide (e.2.friendNumber > friendNumber)) entries
  have hptr := friendInfoFind_eq h₁ hfuel fun f => decide (f.friendNumber > friendNumber)
  have hring := h₁.ring
  have hout := hfree
  rw [List.map_append] at hring hout
  obtain ⟨m', hadd, hlive, hr⟩ := hring.addTail (by simp [s₁]) hout
  have hhead : ((post.map Prod.fst ++ [head]).head (by simp)) = (post.head?.map Prod.fst).getD head := by
    cases post <;> rfl
  refine ⟨{ s₁ with heads := m' }, a, pre, post, ?_, h.tiedIn links hfree rfl rfl hlive hr, rfl, rfl, ?_⟩
  · unfold friendInfoAddEntryAt
    simp only [hal]
    rw [show friendInfoFind head fuel _ _ = _ from hptr, ok_bind, hfind, ← hhead]
    simp only [s₁] at hadd
    simp only [hadd, ok_bind, pure_eq_ok, s₁]
  · rintro friend rfl
    rw [List.map_append]
    refine friendInfoAddEntry_append (fun f hf => ?_) fun f hf => ?_
    · obtain ⟨e, he, rfl⟩ := List.mem_map.mp hf
      simpa using hpre e he
    · rw [List.head?_map] at hf
      obtain ⟨e, he, rfl⟩ := Option.mem_map.mp hf
      simpa using hpost e he

/-- What is done to the strings goes with what is done to the entry. -/
def Rewrites (k : Rewrite) (f f' : FriendInfo) : Prop :=
  ∀ (t : FriendStrings) (L : Ledger) (own base : Multiset ℕ), t.Of f → Owns L (t.blocks + own) base →
    ∃ t' L', k t L = .ok (t', L') ∧ t'.Of f' ∧ Owns L' (t'.blocks + own) base

theorem rewrites_keep {f f' : FriendInfo} (hname : f'.name.isSome = f.name.isSome)
    (hmessage : f'.statusMessage.isSome = f.statusMessage.isSome) : Rewrites keepStrings f f' :=
  fun _ _ _ _ ht hL => ⟨_, _, rfl, ⟨ht.name.trans hname.symm, ht.statusMessage.trans hmessage.symm⟩, hL⟩

theorem rewrites_name (hplace : place.Sound) {f f' : FriendInfo} (hname : f'.name.isSome = true)
    (hmessage : f'.statusMessage.isSome = f.statusMessage.isSome) : Rewrites (reallocName place) f f' := by
  intro t L own base ht hL
  obtain ⟨b, L', hok, hL'⟩ := (hL.congr (add_assoc _ _ _)).realloc hplace
  refine ⟨⟨some b, t.statusMessage⟩, L', ?_, ⟨hname.symm, ht.statusMessage.trans hmessage.symm⟩,
    hL'.congr (add_assoc _ _ _).symm⟩
  rw [reallocName, hok]
  rfl

theorem rewrites_statusMessage (hplace : place.Sound) {f f' : FriendInfo} (hname : f'.name.isSome = f.name.isSome)
    (hmessage : f'.statusMessage.isSome = true) : Rewrites (reallocStatusMessage place) f f' := by
  intro t L own base ht hL
  have hmessageFirst : Owns L (block t.statusMessage + (block t.name + own)) base :=
    hL.congr (by rw [FriendStrings.blocks, add_assoc, add_left_comm])
  obtain ⟨b, L', hok, hL'⟩ := hmessageFirst.realloc hplace
  refine ⟨⟨t.name, some b⟩, L', ?_, ⟨ht.name.trans hname.symm, hmessage.symm⟩, hL'.congr ?_⟩
  · rw [reallocStatusMessage, hok]
    rfl
  · rw [FriendStrings.blocks, add_assoc, add_left_comm]
    rfl

theorem rewrites_strdup (hplace : place.Sound) {f f' : FriendInfo} (hnone : f.name = none)
    (hname : f'.name.isSome = true) (hmessage : f'.statusMessage.isSome = f.statusMessage.isSome) :
    Rewrites (strdupName place) f f' := by
  intro t L own base ht hL
  have hnull : t.name = none := by simpa [hnone] using ht.name
  refine ⟨⟨some (place L), t.statusMessage⟩, _, rfl, ⟨hname.symm, ht.statusMessage.trans hmessage.symm⟩,
    (hL.alloc hplace).congr ?_⟩
  simp only [FriendStrings.blocks, hnull, block, zero_add, add_assoc]

/-- `friend_info_update` reallocates both strings. -/
theorem rewrites_update (hplace : place.Sound) {tox : Tox} {f f' : FriendInfo} (h : friendInfoUpdate tox f = .ok f') :
    Rewrites (reallocStrings place) f f' := by
  unfold friendInfoUpdate at h
  split at h
  · cases h
  · next u _ =>
    cases h
    intro t L own base ht hL
    obtain ⟨t₁, L₁, hok₁, ht₁, hL₁⟩ :=
      @rewrites_name place hplace f { f with name := some u.data.name } rfl rfl t L own base ht hL
    obtain ⟨t', L', hok', ht', hL'⟩ := @rewrites_statusMessage place hplace { f with name := some u.data.name }
      { f with
        name := some u.data.name
        statusMessage := some u.data.statusMessage } rfl rfl t₁ L₁ own base ht₁ hL₁
    refine ⟨t', L', ?_, ⟨ht'.name, ht'.statusMessage⟩, hL'⟩
    rw [reallocStrings, hok₁]
    exact hok'

/-- Writing to an entry of the ring. -/
theorem writeEntry_spec {pre post : List (ℕ × FriendInfo)} {a : ℕ} {f : FriendInfo}
    (h : FriendsOnly s head (pre ++ (a, f) :: post) base) (g : FriendInfo → Except Fault FriendInfo) (k : Rewrite) :
    (∀ e, g f = .error e → writeEntry s a g k = .error e) ∧
      ∀ f', g f = .ok f' → Rewrites k f f' → ∃ s', writeEntry s a g k = .ok s' ∧
        FriendsOnly s' head (pre ++ (a, f') :: post) base ∧ s'.tox = s.tox := by
  have hinfo : infoAt s.toFriendMemory a = .ok f := h.toFriendsAt.infoAt (p := (a, f)) (by simp)
  have hne : ∀ e ∈ pre ++ post, e.1 ≠ a := h.toFriendsAt.ne_of_mem
  unfold writeEntry
  rw [hinfo, ok_bind]
  refine ⟨fun e he => by rw [he, error_bind], fun f' hf' hk => ?_⟩
  have howns := h.owns
  rw [stringsOwn_append, stringsOwn_cons, add_left_comm, ← stringsOwn_append] at howns
  obtain ⟨t', L', hok, ht', hL'⟩ := hk _ _ _ _ (h.strings (a, f) (by simp)) howns
  have hmem {p : ℕ × FriendInfo} (hp : p ∈ pre ++ (a, f') :: post) : p = (a, f') ∨ p ∈ pre ++ post := by
    rwa [List.mem_append, List.mem_cons, or_left_comm, ← List.mem_append] at hp
  have hold {p : ℕ × FriendInfo} (hp : p ∈ pre ++ post) : p ∈ pre ++ (a, f) :: post := by
    rw [List.mem_append, List.mem_cons, or_left_comm, ← List.mem_append]
    exact .inr hp
  refine ⟨{ s with
      info := Function.update s.info a (some f')
      strings := Function.update s.strings a t'
      ledger := L' }, by rw [hf', ok_bind, hok]; rfl, ⟨⟨?_, fun p hp => ?_⟩, fun x hx => ?_,
    fun x hx => ?_, fun p hp => ?_, ?_⟩, rfl⟩
  · have := h.ring
    rwa [List.map_append, List.map_cons] at this ⊢
  · rcases hmem hp with rfl | hp
    · exact Function.update_self ..
    · exact (Function.update_of_ne (hne p hp) _ _).trans (h.info p (hold hp))
  · simpa using h.heads_live x hx
  · simp only [Function.update_apply] at hx
    split_ifs at hx with heq
    · simp [heq]
    · simpa using h.info_live x hx
  · dsimp only
    rcases hmem hp with rfl | hp
    · rw [Function.update_self]
      exact ht'
    · rw [Function.update_of_ne (hne p hp)]
      exact h.strings p (hold hp)
  · rw [stringsOwn_replaced (e := (a, f')) hne]
    exact hL'

/-- `friend_info_destroy` on an entry of the ring gives back the entry and its strings. -/
theorem friendInfoDestroyIn_spec {pre post : List (ℕ × FriendInfo)} {a : ℕ} {f : FriendInfo}
    (h : FriendsOnly s head (pre ++ (a, f) :: post) base) :
    ∃ s', friendInfoDestroyIn s a = .ok s' ∧ FriendsOnly s' head (pre ++ post) base ∧ s'.tox = s.tox := by
  have hr := h.ring
  rw [List.map_append, List.map_cons] at hr
  obtain ⟨m', hdel, hlive, hring⟩ := hr.cut
  have hne : ∀ e ∈ pre ++ post, e.1 ≠ a := h.toFriendsAt.ne_of_mem
  have howns := h.owns
  rw [stringsOwn_append, stringsOwn_cons, add_left_comm, ← stringsOwn_append] at howns
  obtain ⟨L₁, hname, hL₁⟩ := (howns.congr (add_assoc _ _ _)).releaseOpt
  obtain ⟨L₂, hmessage, hL₂⟩ := hL₁.releaseOpt
  refine ⟨⟨⟨Function.update m' a none, Function.update s.info a none, s.tox, s.deleted⟩, s.strings, L₂⟩, ?_,
    ⟨⟨?_, ?_⟩, ?_, ?_, ?_, hL₂⟩, rfl⟩
  · unfold friendInfoDestroyIn friendInfoDestroyAt
    simp only [hdel, ok_bind, pure_eq_ok, hname, hmessage]
  · rw [List.map_append]
    exact hring
  · intro p hp
    exact (Function.update_of_ne (hne p hp) _ _).trans (h.info p (by grind))
  · intro x hx
    simp only [Function.update_apply] at hx
    split_ifs at hx with heq
    · cases hx
    · rw [hlive] at hx
      have := h.heads_live x hx
      simp only [List.map_append, List.map_cons, List.mem_cons, List.mem_append] at this ⊢
      tauto
  · intro x hx
    simp only [Function.update_apply] at hx
    split_ifs at hx with heq
    · cases hx
    · have := h.info_live x hx
      simp only [List.map_append, List.map_cons, List.mem_cons, List.mem_append] at this ⊢
      tauto
  · exact fun p hp => h.strings p (by grind)

/-! ### The ring does what the list does -/

/-- The outcome on the ring is the outcome on the list: the same fault, or a ring of the same entries in the
same order, with nothing else in memory, and with at most `bound` entries. -/
def SameOutcome (head bound : ℕ) (base : Multiset ℕ) (r : Except Fault FriendHeap) : Except Fault Contacts → Prop
  | .ok c => ∃ s' entries', r = .ok s' ∧ FriendsOnly s' head entries' base ∧ contactsOf s' entries' = c ∧
      entries'.length ≤ bound
  | .error e => r = .error e

theorem SameOutcome.mono {b b' : ℕ} {r : Except Fault FriendHeap} {r' : Except Fault Contacts}
    (h : SameOutcome head b base r r') (hb : b ≤ b') : SameOutcome head b' base r r' := by
  cases r' with
  | error e => exact h
  | ok c =>
    obtain ⟨s', entries', hr, hs', hc, hlen⟩ := h
    exact ⟨s', entries', hr, hs', hc, hlen.trans hb⟩

theorem FriendsOnly.same (h : FriendsOnly s head entries base) {b : ℕ} (hb : entries.length ≤ b) :
    SameOutcome head b base (.ok s) (.ok (contactsOf s entries)) := ⟨s, entries, rfl, h, rfl, hb⟩

/-- A buffer is one more block that was there before. -/
theorem FriendsOnly.buffered (hplace : place.Sound) (h : FriendsOnly s head entries base) :
    FriendsOnly { s with ledger := (alloc place s.ledger).2 } head entries ({place s.ledger} + base) :=
  h.with_ledger (by
    have hL := h.owns.alloc hplace
    unfold Owns at hL ⊢
    rw [hL]
    abel)

/-- It is given back. -/
theorem FriendsOnly.unbuffered {b : ℕ} (h : FriendsOnly s head entries ({b} + base)) :
    ∃ L, release b s.ledger = .ok L ∧ FriendsOnly { s with ledger := L } head entries base := by
  have hL : Owns s.ledger ({b} + stringsOwn s.strings entries) base := by
    have := h.owns
    unfold Owns at this ⊢
    rw [this]
    abel
  obtain ⟨L, hok, hL'⟩ := hL.release
  exact ⟨L, hok, h.with_ledger hL'⟩

/-- With a buffer about it a function comes to the same. -/
theorem SameOutcome.withBuffer {b : ℕ} (body : FriendHeap → Except Fault FriendHeap) {r : Except Fault Contacts}
    (h : SameOutcome head b ({place s.ledger} + base) (body { s with ledger := (alloc place s.ledger).2 }) r) :
    SameOutcome head b base (Friend.withBuffer place body s) r := by
  unfold Friend.withBuffer
  cases r with
  | error e =>
    change body { s with ledger := (alloc place s.ledger).2 } = _ at h
    change (body { s with ledger := (alloc place s.ledger).2 } >>= _) = _
    rw [h]
    rfl
  | ok c =>
    obtain ⟨s', entries', hok, hs', hc, hlen⟩ := h
    obtain ⟨L, hrelease, hs''⟩ := hs'.unbuffered
    refine ⟨{ s' with ledger := L }, entries', ?_, hs'', hc, hlen⟩
    change (body { s with ledger := (alloc place s.ledger).2 } >>= _) = _
    rw [hok, ok_bind, hrelease]
    rfl

theorem friendsInfoNumberOfFriend_eq {s : FriendMemory} (h : FriendsAt s head entries) (hfuel : entries.length ≤ fuel) :
    friendsInfoNumberOfFriend head fuel s = .ok entries.length := by
  have hcount (l : List ℕ) : ∀ i : ℕ, l.foldlM (fun i _ => (pure (i + 1) : Except Fault ℕ)) i = .ok (i + l.length) := by
    induction l with
    | nil => intro i; rfl
    | cons x l ih =>
      intro i
      rw [List.foldlM_cons, pure_eq_ok, ok_bind, ih, List.length_cons, Nat.add_right_comm, Nat.add_assoc]
  unfold friendsInfoNumberOfFriend
  rw [listForEach_eq h.ring _ (by simpa using hfuel), hcount, List.length_map, Nat.zero_add]

theorem same_friendRequest (hmalloc : malloc.Sound) (h : FriendsOnly s head entries base)
    (hfuel : entries.length ≤ fuel) (publicKey : PublicKey) (reply : AddReply) (heap : FriendInfo) :
    SameOutcome head (entries.length + 1) base (friendRequestCbAt malloc head fuel s publicKey reply heap)
      (.ok (friendRequestCb (contactsOf s entries) publicKey reply heap)) := by
  unfold friendRequestCbAt friendRequestCb
  rw [friendsInfoNumberOfFriend_eq h.toFriendsAt hfuel]
  rcases hadd : toxFriendAddNorequest s.tox publicKey reply with ⟨tox, - | n⟩
  · simp only [contactsOf, hadd, ok_bind]
    exact (h.with_tox tox s.deleted).same (Nat.le_succ _)
  · obtain ⟨s', a, pre, post, hok, hs', htox, rfl, hlist⟩ :=
      friendInfoAddEntryAt_spec hmalloc (h.with_tox tox s.deleted) hfuel heap n
    simp only [contactsOf, hadd, ok_bind]
    refine ⟨s', _, by rw [hok]; rfl, hs', ?_, by simp; omega⟩
    rw [contactsOf, hlist _ rfl, htox, List.map_append, List.map_cons]

theorem same_importLines (hmalloc : malloc.Sound) (hplace : place.Sound) (lines : List ImportLine) :
    ∀ {s : FriendHeap} {entries : List (ℕ × FriendInfo)} (buf : PublicKey), FriendsOnly s head entries base →
      entries.length + lines.length ≤ fuel →
      SameOutcome head (entries.length + lines.length) base (importLinesAt malloc place hex2bin head fuel s buf lines)
        (importKeys hex2bin (contactsOf s entries) buf lines) := by
  induction lines with
  | nil => intro s entries buf h _; exact h.same le_rfl
  | cons line lines ih =>
    intro s entries buf h hfuel
    rw [List.length_cons, ← Nat.add_assoc] at hfuel ⊢
    rw [importLinesAt, importKeys]
    split_ifs with htext
    · rcases hadd : toxFriendAddNorequest s.tox (hex2bin buf (cstr line.text)) line.reply with ⟨tox, - | n⟩
      · simp only [contactsOf, hadd]
        exact (ih _ (h.with_tox tox s.deleted) (by omega)).mono (by omega)
      · obtain ⟨s₁, a, pre, post, hok₁, hs₁, htox₁, rfl, hlist⟩ :=
          @friendInfoAddEntryAt_spec malloc head fuel _ _ base hmalloc (h.with_tox tox s.deleted) (by omega) line.heap n
        obtain ⟨s₂, hok₂, hs₂, htox₂⟩ := (writeEntry_spec hs₁ (fun f =>
          pure { f with name := some (ascii "_IMPORTED_KEY_") }) (strdupName place)).2 _ rfl
            (rewrites_strdup hplace rfl rfl rfl)
        have htox : s₂.tox = tox := htox₂.trans htox₁
        obtain ⟨herr, hwrite⟩ := writeEntry_spec hs₂ (friendInfoUpdate s₂.tox) (reallocStrings place)
        rw [htox] at herr hwrite
        simp only [contactsOf, hadd, hok₁, hok₂, ok_bind, friendInfoUpdateAt, htox]
        cases hup : friendInfoUpdate tox { FriendInfo.init line.heap n with name := some (ascii "_IMPORTED_KEY_") } with
        | error e =>
          rw [herr e hup]
          exact rfl
        | ok f' =>
          obtain ⟨s₃, hok₃, hs₃, htox₃⟩ := hwrite f' hup (rewrites_update hplace hup)
          rw [hok₃]
          obtain ⟨-, -, hnum, -⟩ := friendInfoUpdate_eq_ok hup
          simp only [ok_bind]
          have hrec := ih (hex2bin buf (cstr line.text)) hs₃ (by simp at hfuel ⊢; omega)
          rw [contactsOf, htox₃, List.map_append, List.map_cons, ← hlist f' hnum] at hrec
          refine hrec.mono ?_
          simp only [List.length_append, List.length_cons]
          omega
    · exact (ih buf h (by omega)).mono (by omega)

/-- The first entry that passes a test, where the ring has it. -/
theorem exists_found {p : FriendInfo → Bool} {f : FriendInfo} (hf : (entries.map Prod.snd).find? p = some f) :
    ∃ a pre post, entries = pre ++ (a, f) :: post ∧ (entries.find? fun e => p e.2).map Prod.fst = some a ∧
      p f = true ∧ ∀ e ∈ pre, p e.2 = false := by
  obtain ⟨pre, post, hsplit, hpre, hpost, hfind⟩ := exists_split (fun e : ℕ × FriendInfo => p e.2) entries
  rw [List.find?_map, show (p ∘ Prod.snd) = fun e : ℕ × FriendInfo => p e.2 from rfl, hfind] at hf
  cases post with
  | nil => cases hf
  | cons e post =>
    cases hf
    exact ⟨e.1, pre, post, hsplit, by rw [hfind]; rfl, hpost e rfl, hpre⟩

theorem same_removeKey (h : FriendsOnly s head entries base) (hfuel : entries.length ≤ fuel) (text : Bytes) :
    SameOutcome head entries.length base (removeKeyAt head fuel s text)
      (.ok (removeKey (contactsOf s entries) text)) := by
  unfold removeKeyAt removeKey
  split_ifs with htext
  · rw [friendInfoFind_eq h.toFriendsAt hfuel, ok_bind]
    cases hf : friendInfoByPublicKeyhex (contactsOf s entries).friendsInfo text with
    | none =>
      have hnone : (entries.find? fun e => strncmpEq e.2.toxIdHex.1 text (TOX_PUBLIC_KEY_SIZE * 2)) = none := by
        rw [friendInfoByPublicKeyhex, contactsOf, List.find?_map, Option.map_eq_none_iff] at hf
        exact hf
      rw [hnone]
      exact h.same le_rfl
    | some f =>
      obtain ⟨a, pre, post, rfl, hfind, hp, hpre⟩ := exists_found hf
      rw [hfind]
      simp only [h.toFriendsAt.infoAt (p := (a, f)) (by simp), ok_bind]
      rcases hdel : toxFriendDelete s.tox f.friendNumber with ⟨tox, - | -⟩
      · simp only [contactsOf, hdel]
        exact (h.with_tox tox _).same le_rfl
      · obtain ⟨s', hok, hs', htox⟩ := friendInfoDestroyIn_spec (h.with_tox tox (s.deleted ++ [f.friendNumber]))
        simp only [contactsOf, hdel, if_true]
        refine ⟨s', _, hok, hs', ?_, by simp⟩
        have hnotMem : f ∉ pre.map Prod.snd := by
          intro hmem
          obtain ⟨e, he, rfl⟩ := List.mem_map.mp hmem
          have := hpre e he
          rw [hp] at this
          cases this
        rw [contactsOf, htox, friendInfoDestroy, List.map_append, List.map_append, List.map_cons,
          List.erase_append_right _ hnotMem, List.erase_cons_head]
  · exact h.same le_rfl

theorem same_removeLines (lines : List Bytes) : ∀ {s : FriendHeap} {entries : List (ℕ × FriendInfo)},
    FriendsOnly s head entries base → entries.length ≤ fuel →
      SameOutcome head entries.length base (lines.foldlM (removeKeyAt head fuel) s)
        (.ok (removeKeys (contactsOf s entries) lines)) := by
  induction lines with
  | nil => intro s entries h _; exact h.same le_rfl
  | cons text lines ih =>
    intro s entries h hfuel
    obtain ⟨s₁, entries₁, hok, hs₁, hc, hlen⟩ := same_removeKey h hfuel text
    have hrec := ih hs₁ (hlen.trans hfuel)
    rw [hc] at hrec
    unfold removeKeys at hrec ⊢
    rw [List.foldlM_cons, hok, ok_bind, List.foldl_cons]
    exact hrec.mono hlen

theorem same_onEntry (h : FriendsOnly s head entries base) (hfuel : entries.length ≤ fuel) (n : UInt32)
    {g : FriendInfo → FriendInfo} {k : Rewrite} (hk : ∀ f, Rewrites k f (g f)) :
    SameOutcome head entries.length base (onEntryAt head fuel s n g k)
      ((contactsOf s entries).withInfo (onEntry (contactsOf s entries).friendsInfo n g)) := by
  unfold onEntryAt onEntry
  rw [friendInfoFind_eq h.toFriendsAt hfuel, ok_bind]
  cases hf : friendInfoByFriendNumber (contactsOf s entries).friendsInfo n with
  | none =>
    have hnone : (entries.find? fun e => decide (e.2.friendNumber = n)) = none := by
      rw [friendInfoByFriendNumber, contactsOf, List.find?_map, Option.map_eq_none_iff] at hf
      exact hf
    rw [hnone]
    exact rfl
  | some f =>
    obtain ⟨a, pre, post, rfl, hfind, hp, hpre⟩ := exists_found hf
    rw [hfind]
    obtain ⟨s', hok, hs', htox⟩ := (writeEntry_spec h (fun f => pure (g f)) k).2 _ rfl (hk f)
    refine ⟨s', _, hok, hs', ?_, by simp⟩
    simp only [contactsOf, htox, List.map_append, List.map_cons]
    rw [modifyEntry_append (List.forall_mem_map.mpr fun e he => of_decide_eq_false (hpre e he)) (of_decide_eq_true hp)]

/-- An entry whose friend is purged is cut out and given back. -/
theorem cleanupEntryIn_purges {timeout currentTime : UInt64} {pre post : List (ℕ × FriendInfo)} {e : ℕ × FriendInfo}
    (h : FriendsOnly s head (pre ++ e :: post) base) (hp : purges timeout currentTime e.2 = true) :
    ∃ s', cleanupEntryIn timeout currentTime s e.1 = .ok s' ∧ FriendsOnly s' head (pre ++ post) base ∧
      s'.tox = (toxFriendDelete s.tox e.2.friendNumber).1 := by
  obtain ⟨hmax, htime⟩ : e.2.lastOnline ≠ UInt64.ofNat (2 ^ 64 - 1) ∧
      ¬ currentTime - e.2.lastOnline < timeout := by simpa [purges] using hp
  unfold cleanupEntryIn
  rw [h.toFriendsAt.infoAt (p := e) (by simp), ok_bind, if_neg hmax, if_neg htime]
  exact friendInfoDestroyIn_spec (h.with_tox _ _)

/-- Another one stays. -/
theorem cleanupEntryIn_keeps {timeout currentTime : UInt64} {e : ℕ × FriendInfo}
    (h : FriendsOnly s head entries base) (he : e ∈ entries) (hp : ¬ purges timeout currentTime e.2 = true) :
    cleanupEntryIn timeout currentTime s e.1 = .ok s := by
  unfold cleanupEntryIn
  rw [h.toFriendsAt.infoAt he, ok_bind]
  split_ifs with hmax htime
  · rfl
  · rfl
  · exact absurd (by simpa [purges] using ⟨hmax, UInt64.not_lt.mp htime⟩) hp

theorem same_cleanup (h : FriendsOnly s head entries base) (hfuel : entries.length ≤ fuel)
    (timeout currentTime : UInt64) :
    SameOutcome head entries.length base (friendCleanupIn head fuel timeout currentTime s)
      (.ok (friendCleanup timeout currentTime s.tox (entries.map Prod.snd))) := by
  -- the addresses behind the cursor are those of the entries that stay
  let I (l l' : List ℕ) (s' : FriendHeap) : Prop :=
    ∃ done rest, l = (keptOf timeout currentTime done).map Prod.fst ∧ l' = rest.map Prod.fst ∧
      entries = done ++ rest ∧ FriendsOnly s' head (keptOf timeout currentTime done ++ rest) base ∧
      (friendCleanup timeout currentTime s'.tox (rest.map Prod.snd)).tox =
        (friendCleanup timeout currentTime s.tox (entries.map Prod.snd)).tox
  have hring : ∀ l l' s', I l l' s' → ListRing s'.heads head (l ++ l') := by
    rintro l l' s' ⟨done, rest, rfl, rfl, -, hs', -⟩
    rw [← List.map_append]
    exact hs'.ring
  have hbody : ∀ l a l' s', I l (a :: l') s' →
      ∃ s'' l₁, cleanupEntryIn timeout currentTime s' a = .ok s'' ∧ I l₁ l' s'' := by
    rintro l a l' s' ⟨done, rest, rfl, hrest, hentries, hs', htox⟩
    obtain ⟨e, rest, rfl, rfl, rfl⟩ := List.map_eq_cons_iff.mp hrest.symm
    rw [List.append_cons] at hentries
    rw [List.map_cons, friendCleanup] at htox
    by_cases hp : purges timeout currentTime e.2 = true
    · rw [if_pos hp] at htox
      obtain ⟨s'', hok, hs'', htox'⟩ := cleanupEntryIn_purges hs' hp
      refine ⟨s'', _, hok, done ++ [e], rest, rfl, rfl, hentries, ?_, htox' ▸ htox⟩
      rwa [show keptOf timeout currentTime (done ++ [e]) = keptOf timeout currentTime done by simp [keptOf, hp]]
    · rw [if_neg hp] at htox
      refine ⟨s', _, cleanupEntryIn_keeps hs' (by simp) hp, done ++ [e], rest, rfl, rfl, hentries, ?_, htox⟩
      rw [show keptOf timeout currentTime (done ++ [e]) = keptOf timeout currentTime done ++ [e] by
        simp [keptOf, hp], List.append_assoc]
      exact hs'
  have hstart : I [] (entries.map Prod.fst) s := ⟨[], entries, rfl, rfl, rfl, h, rfl⟩
  obtain ⟨s', l, hok, done, rest, -, hrest, hentries, hs', htox⟩ :=
    listForEachSafe_rule hring hbody hstart (by simpa using hfuel)
  cases List.map_eq_nil_iff.mp hrest.symm
  rw [List.append_nil] at hentries hs'
  subst hentries
  refine ⟨s', _, hok, hs', ?_, List.length_filter_le _ _⟩
  have hinfo := (friendCleanup_spec timeout currentTime (entries.map Prod.snd) s.tox).1
  rw [List.filter_map] at hinfo
  cases hc : friendCleanup timeout currentTime s.tox (entries.map Prod.snd) with
  | mk tox friendsInfo =>
    rw [hc] at htox hinfo
    rw [List.map_nil, friendCleanup] at htox
    simp only at htox hinfo
    rw [contactsOf, htox, hinfo]
    rfl

/-- How many entries an event can add. -/
def FriendEvent.adds : FriendEvent → ℕ
  | .friendRequest .. => 1
  | .importKeys _ lines => lines.length
  | _ => 0

/-- **One event**: its outcome on the ring is its outcome on the list. -/
theorem same_friendEvent (hmalloc : malloc.Sound) (hplace : place.Sound) (h : FriendsOnly s head entries base)
    {e : FriendEvent} (hfuel : entries.length + e.adds ≤ fuel) :
    SameOutcome head (entries.length + e.adds) base (friendEventAt malloc place hex2bin head fuel s e)
      (friendEvent hex2bin (contactsOf s entries) e) := by
  have hle : entries.length ≤ fuel := (Nat.le_add_right _ _).trans hfuel
  cases e with
  | friendRequest publicKey reply heap => exact same_friendRequest hmalloc h hle publicKey reply heap
  | importKeys buf lines =>
    exact SameOutcome.withBuffer (fun s => importLinesAt malloc place hex2bin head fuel s buf lines)
      (same_importLines hmalloc hplace lines buf (h.buffered hplace) hfuel)
  | removeKeys lines =>
    exact SameOutcome.withBuffer (fun s => lines.foldlM (removeKeyAt head fuel) s)
      (same_removeLines lines (h.buffered hplace) hle)
  | cleanup timeout currentTime => exact same_cleanup h hle timeout currentTime
  | forgetme n => exact (h.with_tox _ _).same le_rfl
  | name n name => exact same_onEntry h hle n fun f => rewrites_name hplace rfl rfl
  | statusMessage n message => exact same_onEntry h hle n fun f => rewrites_statusMessage hplace rfl rfl
  | status n status => exact same_onEntry h hle n fun f => rewrites_keep rfl rfl
  | connectionStatus n connectionStatus => exact same_onEntry h hle n fun f => rewrites_keep rfl rfl
  | report n data => exact (h.with_tox _ _).same le_rfl

/-- **A run of events**: the ring goes where the list goes, and the program ends where it does. -/
theorem same_run (hmalloc : malloc.Sound) (hplace : place.Sound) (es : List FriendEvent) :
    ∀ {s : FriendHeap} {entries : List (ℕ × FriendInfo)}, FriendsOnly s head entries base →
      entries.length + (es.map FriendEvent.adds).sum ≤ fuel →
      match runEvents (friendStep hex2bin) (contactsOf s entries) es with
      | some c => ∃ s' entries', runEvents (friendStepAt malloc place hex2bin head fuel) s es = some s' ∧
          FriendsOnly s' head entries' base ∧ contactsOf s' entries' = c
      | none => runEvents (friendStepAt malloc place hex2bin head fuel) s es = none := by
  induction es with
  | nil => intro s entries h _; exact ⟨s, entries, rfl, h, rfl⟩
  | cons e es ih =>
    intro s entries h hfuel
    rw [List.map_cons, List.sum_cons, ← Nat.add_assoc] at hfuel
    have hsame := @same_friendEvent malloc place hex2bin head fuel s entries base hmalloc hplace h e (by omega)
    rw [runEvents_cons, runEvents_cons, friendStep, friendStepAt]
    cases hc : friendEvent hex2bin (contactsOf s entries) e with
    | error f =>
      rw [hc] at hsame
      rw [show friendEventAt malloc place hex2bin head fuel s e = _ from hsame]
      rfl
    | ok c =>
      rw [hc] at hsame
      obtain ⟨s₁, entries₁, hok, hs₁, rfl, hlen⟩ := hsame
      rw [hok]
      exact ih hs₁ (by omega)

/-! ### From the start to the end -/

theorem noFriends_spec (head : ℕ) (tox : Tox) (links : ListHead) (L : Ledger) :
    ∃ s, noFriends head tox links L = .ok s ∧ FriendsOnly s head [] L.val ∧ s.tox = tox := by
  have hlive : (Function.update (fun _ => none) head (some links) head : Option ListHead).isSome = true := by simp
  obtain ⟨m', hok, he, hr⟩ := initListHead_ring hlive
  refine ⟨_, by rw [noFriends, hok]; rfl, ⟨⟨hr, by simp⟩, fun x hx => ?_, fun x hx => (by cases hx), by simp,
    Owns.nothing⟩, rfl⟩
  rw [he.live, Function.update_apply] at hx
  split_ifs at hx with heq
  · simp [heq]
  · cases hx

/-- The loop of `friends_info_init`. -/
theorem same_addEntries (hmalloc : malloc.Sound) (heap : UInt32 → FriendInfo) (numbers : List UInt32) :
    ∀ {s : FriendHeap} {entries : List (ℕ × FriendInfo)}, FriendsOnly s head entries base →
      entries.length + numbers.length ≤ fuel →
      ∃ s' entries', addEntriesAt malloc head fuel heap numbers s = .ok s' ∧ FriendsOnly s' head entries' base ∧
        s'.tox = s.tox ∧ entries'.length = entries.length + numbers.length ∧ entries'.map Prod.snd =
          numbers.foldl (fun friendsInfo n => friendInfoAddEntry friendsInfo (.init (heap n) n))
            (entries.map Prod.snd) := by
  induction numbers with
  | nil => intro s entries h _; exact ⟨s, entries, rfl, h, rfl, rfl, rfl⟩
  | cons n numbers ih =>
    intro s entries h hfuel
    rw [List.length_cons] at hfuel
    obtain ⟨s₁, a, pre, post, hok, hs₁, htox, rfl, hlist⟩ :=
      @friendInfoAddEntryAt_spec malloc head fuel _ _ base hmalloc h (by omega) (heap n) n
    obtain ⟨s', entries', hok', hs', htox', hlen, hmap⟩ := ih hs₁ (by simp at hfuel ⊢; omega)
    refine ⟨s', entries', ?_, hs', htox'.trans htox, ?_, ?_⟩
    · rw [addEntriesAt, List.foldlM_cons, hok]
      exact hok'
    · rw [hlen]
      simp only [List.length_append, List.length_cons]
      omega
    · rw [hmap, List.foldl_cons, hlist _ rfl, List.map_append, List.map_cons]

/-- The loop of `friends_info_update`, from an entry on. -/
theorem same_updateEntries (hplace : place.Sound) {tox : Tox} (rest : List (ℕ × FriendInfo)) :
    ∀ {s : FriendHeap} {done : List (ℕ × FriendInfo)} {infos : List FriendInfo},
      FriendsOnly s head (done ++ rest) base → s.tox = tox →
      (rest.map Prod.snd).mapM (friendInfoUpdate tox) = .ok infos →
      ∃ s' rest', (rest.map Prod.fst).foldlM (friendInfoUpdateAt place) s = .ok s' ∧
        FriendsOnly s' head (done ++ rest') base ∧ s'.tox = tox ∧ rest'.length = rest.length ∧
        rest'.map Prod.snd = infos := by
  induction rest with
  | nil =>
    intro s done infos h htox hinfos
    cases hinfos
    exact ⟨s, [], rfl, h, htox, rfl, rfl⟩
  | cons e rest ih =>
    intro s done infos h htox hinfos
    rw [List.map_cons, List.mapM_cons] at hinfos
    obtain ⟨f', hf', hinfos⟩ := bind_eq_ok.mp hinfos
    obtain ⟨infos', hinfos', hcons⟩ := bind_eq_ok.mp hinfos
    cases hcons
    obtain ⟨s₁, hok, hs₁, htox₁⟩ := (writeEntry_spec h (friendInfoUpdate s.tox) (reallocStrings place)).2 f'
      (htox ▸ hf') (rewrites_update hplace hf')
    rw [List.append_cons] at hs₁
    obtain ⟨s', rest', hok', hs', htox', hlen, hmap⟩ := ih hs₁ (htox₁.trans htox) hinfos'
    refine ⟨s', (e.1, f') :: rest', ?_, ?_, htox', by simp [hlen], by simp [hmap]⟩
    · rw [List.map_cons, List.foldlM_cons, friendInfoUpdateAt, hok]
      exact hok'
    · rwa [List.append_cons]

/-- **`friends_info_init` on the ring** makes the list that it makes. -/
theorem same_init (hmalloc : malloc.Sound) (hplace : place.Sound) (h : FriendsOnly s head [] base)
    (heap : UInt32 → FriendInfo) (hfuel : s.tox.numbers.length ≤ fuel) :
    ∃ s' entries', friendsInfoInitAt malloc place head fuel s heap = .ok s' ∧ FriendsOnly s' head entries' base ∧
      s'.tox = s.tox ∧ entries'.length = s.tox.numbers.length ∧
      friendsInfoInit s.tox heap = .ok (entries'.map Prod.snd) := by
  obtain ⟨s₁, entries₁, hok₁, hs₁, htox₁, hlen₁, hmap₁⟩ :=
    same_addEntries hmalloc heap s.tox.numbers (h.buffered hplace) (by simpa using hfuel)
  rw [List.length_nil, Nat.zero_add] at hlen₁
  obtain ⟨L, hrelease, hs₂⟩ := hs₁.unbuffered
  obtain ⟨friendsInfo, hinit, -⟩ := friendsInfoInit_spec s.tox heap
  have hupdate := hinit
  rw [friendsInfoInit, friendsInfoUpdate, ← List.map_nil, ← hmap₁] at hupdate
  obtain ⟨s', entries', hok', hs', htox', hlen, hmap⟩ :=
    @same_updateEntries place head base hplace s.tox entries₁ { s₁ with ledger := L } [] friendsInfo hs₂ htox₁ hupdate
  refine ⟨s', entries', ?_, hs', htox', hlen.trans hlen₁, by rw [hinit, hmap]⟩
  have hbuffer : withBuffer place (addEntriesAt malloc head fuel heap s.tox.numbers) s =
      .ok { s₁ with ledger := L } := by
    unfold withBuffer
    change (addEntriesAt malloc head fuel heap s.tox.numbers { s with ledger := (alloc place s.ledger).2 } >>= _) = _
    rw [hok₁, ok_bind, hrelease]
    rfl
  unfold friendsInfoInitAt friendsInfoUpdateAt
  rw [hbuffer, ok_bind, listForEach_eq hs₂.ring _ (by simpa [hlen₁] using hfuel), hok']

/-- **`friends_info_destroy`** gives back all entries and their strings, each once. -/
theorem friendsInfoDestroyAt_spec (h : FriendsOnly s head entries base) (hfuel : entries.length ≤ fuel) :
    ∃ s', friendsInfoDestroyAt head fuel s = .ok s' ∧ FriendsOnly s' head [] base := by
  let I (l l' : List ℕ) (s : FriendHeap) : Prop :=
    l = [] ∧ ∃ rest, l' = rest.map Prod.fst ∧ FriendsOnly s head rest base
  have hring : ∀ l l' s, I l l' s → ListRing s.heads head (l ++ l') := by
    rintro l l' s ⟨rfl, rest, rfl, hs⟩
    exact hs.ring
  have hbody : ∀ l a l' s, I l (a :: l') s → ∃ s' l₁, friendInfoDestroyIn s a = .ok s' ∧ I l₁ l' s' := by
    rintro l a l' s ⟨rfl, rest, hrest, hs⟩
    obtain ⟨e, rest, rfl, rfl, rfl⟩ := List.map_eq_cons_iff.mp hrest.symm
    obtain ⟨s', hok, hs', -⟩ := @friendInfoDestroyIn_spec head s base [] rest e.1 e.2 hs
    exact ⟨s', [], hok, rfl, rest, rfl, hs'⟩
  obtain ⟨s', l, hok, rfl, rest, hrest, hs'⟩ :=
    listForEachSafe_rule hring hbody ⟨rfl, entries, rfl, h⟩ (by simpa using hfuel)
  cases List.map_eq_nil_iff.mp hrest.symm
  exact ⟨s', hok, hs'⟩

end

/-- **The ring of friends is the list of friends.** From `suit_info_new` and `friends_info_init` on, through any
events, the ring holds what the list holds, each entry at an address of its own, with its strings, and nothing else in
memory; where the list comes to a fault so does the ring, and nowhere else. `friends_info_destroy` then gives back all
of it. -/
theorem ring_refines_contacts {malloc : Malloc} (hmalloc : malloc.Sound) {place : Placement} (hplace : place.Sound)
    (hex2bin : Hex2Bin) (head : ℕ) (links : ListHead) (L : Ledger) (tox : Tox) (heap : UInt32 → FriendInfo)
    (es : List FriendEvent) {fuel : ℕ} (hfuel : tox.numbers.length + (es.map FriendEvent.adds).sum ≤ fuel) :
    ∃ friendsInfo s₀ s₁ entries₁, friendsInfoInit tox heap = .ok friendsInfo ∧ noFriends head tox links L = .ok s₀ ∧
      friendsInfoInitAt malloc place head fuel s₀ heap = .ok s₁ ∧ FriendsOnly s₁ head entries₁ L.val ∧
      contactsOf s₁ entries₁ = ⟨tox, friendsInfo⟩ ∧
      match runEvents (friendStep hex2bin) ⟨tox, friendsInfo⟩ es with
      | some c => ∃ s entries, runEvents (friendStepAt malloc place hex2bin head fuel) s₁ es = some s ∧
          FriendsOnly s head entries L.val ∧ contactsOf s entries = c ∧
          ∃ s', friendsInfoDestroyAt head entries.length s = .ok s' ∧ FriendsOnly s' head [] L.val ∧ s'.ledger = L
      | none => runEvents (friendStepAt malloc place hex2bin head fuel) s₁ es = none := by
  obtain ⟨s₀, hok₀, hs₀, rfl⟩ := noFriends_spec head tox links L
  obtain ⟨s₁, entries₁, hok₁, hs₁, htox₁, hlen₁, hinit⟩ :=
    @same_init malloc place head fuel s₀ _ hmalloc hplace hs₀ heap ((Nat.le_add_right _ _).trans hfuel)
  have hc₁ : contactsOf s₁ entries₁ = ⟨s₀.tox, entries₁.map Prod.snd⟩ := by rw [contactsOf, htox₁]
  refine ⟨entries₁.map Prod.snd, s₀, s₁, entries₁, hinit, hok₀, hok₁, hs₁, hc₁, ?_⟩
  have hrun := @same_run malloc place hex2bin head fuel _ hmalloc hplace es s₁ entries₁ hs₁ (hlen₁ ▸ hfuel)
  rw [hc₁] at hrun
  split
  · next c hc =>
    rw [hc] at hrun
    obtain ⟨s, entries, hok, hs, hcs⟩ := hrun
    obtain ⟨s', hdestroy, hs'⟩ := friendsInfoDestroyAt_spec hs le_rfl
    exact ⟨s, entries, hok, hs, hcs, s', hdestroy, hs', hs'.owns.all_released⟩
  · next hc =>
    rw [hc] at hrun
    exact hrun

/-- A `malloc` that takes some free address. -/
noncomputable def anyFree : Malloc := fun m => (Classical.epsilon fun a => m a = none, ⟨0, 0⟩)

theorem anyFree_sound : anyFree.Sound := by
  intro m hfin
  obtain ⟨a, ha⟩ := hfin.exists_notMem
  exact Classical.epsilon_spec (p := fun a => m a = none) ⟨a, by simpa using ha⟩

/-- A friend is added to the only one there is and gets a name, the first is removed by its key, and in the end all is
given back. -/
theorem ring_refines_contacts_two : ∃ s₁ s entries s',
    runEvents (friendStepAt anyFree above (fun buf _ => buf) 0 2) s₁
      [.friendRequest (someKey 2) (some (1, unseen)) zeroEntry, .name 1 (ascii "two"),
        .removeKeys [upperHex (someKey 1).1 ++ [10]]] = some s ∧
      FriendsOnly s 0 entries 0 ∧ entries.map (fun e => (e.2.friendNumber, e.2.name)) = [(1, some (ascii "two"))] ∧
      friendsInfoDestroyAt 0 entries.length s = .ok s' ∧ s'.ledger = ∅ := by
  obtain ⟨friendsInfo, s₀, s₁, entries₁, hinit, -, -, -, -, hrun⟩ :=
    @ring_refines_contacts anyFree anyFree_sound above above_sound (fun buf _ => buf) 0 ⟨7, 7⟩ ∅ oneFriend
      (fun _ => zeroEntry) [.friendRequest (someKey 2) (some (1, unseen)) zeroEntry, .name 1 (ascii "two"),
        .removeKeys [upperHex (someKey 1).1 ++ [10]]] 2 (by decide)
  cases hinit
  obtain ⟨s, entries, hok, hs, hc, s', hdestroy, -, hledger⟩ := hrun
  refine ⟨s₁, s, entries, s', hok, hs, ?_, hdestroy, hledger⟩
  have hnumbers := congrArg (fun c => c.friendsInfo.map fun f => (f.friendNumber, f.name)) hc
  rw [contactsOf, List.map_map] at hnumbers
  exact hnumbers

end ToxSuite.Friend
