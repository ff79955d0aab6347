import ToxSuite.Lib.Runs
import ToxSuite.Friend.Info

/-!
# Friends come and go

The program keeps two lists of friends in step, Tox's and `friends_info`. This
module gives the operations that change either, from `friend.c`, `toxdata.c` and
`command.c`, as the events of a machine (`friendStep`), and asks when the lists
mirror each other.

Every operation updates both lists except `!forgetme`, which deletes the friend
in Tox only: `friends_info` mirrors Tox's list throughout a run if and only if no
friend of the moment ever sends that command (`friendsInfo_mirrors_iff`).
-/

namespace ToxSuite.Friend

open ToxSuite.Lib

/-- The two lists. -/
structure Contacts where
  /-- Tox's. -/
  tox : Tox
  /-- The program's, `friends_info`. -/
  friendsInfo : List FriendInfo

/-! ### The operations -/

/-- `friend_request_cb`. -/
def friendRequestCb (c : Contacts) (publicKey : PublicKey) (reply : AddReply) (heap : FriendInfo) :
    Contacts :=
  match toxFriendAddNorequest c.tox publicKey reply with
  | (tox, none) => { c with tox }
  | (tox, some friendNumber) => ⟨tox, friendInfoAddEntry c.friendsInfo (.init heap friendNumber)⟩

/-- A line of the file `import_keys` reads, with Tox's answer and the memory of the entry
if it comes to that. -/
structure ImportLine where
  text : Bytes
  reply : AddReply
  heap : FriendInfo

/-- What `strlen` must say of a line: a key in hexadecimal and the end of the line. -/
def isPublickeyLine (text : Bytes) : Bool := (cstr text).length = TOX_PUBLIC_KEY_SIZE * 2 + 1

/-- `sodium_hex2bin` into a buffer: what the buffer holds afterwards, also where the text
is not hexadecimal. -/
abbrev Hex2Bin := PublicKey → Bytes → PublicKey

variable (hex2bin : Hex2Bin)

/-- The loop of `import_keys` over its lines; `toxIdBin` is the local buffer. -/
def importKeys (c : Contacts) (toxIdBin : PublicKey) : List ImportLine → Except Fault Contacts
  | [] => pure c
  | line :: lines =>
    if isPublickeyLine line.text then
      let toxIdBin := hex2bin toxIdBin (cstr line.text)
      match toxFriendAddNorequest c.tox toxIdBin line.reply with
      | (tox, none) => importKeys { c with tox } toxIdBin lines
      | (tox, some friendNumber) => do
        let f := FriendInfo.init line.heap friendNumber
        let f ← friendInfoUpdate tox { f with name := some (ascii "_IMPORTED_KEY_") }
        importKeys ⟨tox, friendInfoAddEntry c.friendsInfo f⟩ toxIdBin lines
    else importKeys c toxIdBin lines

/-- The body of the loop of `remove_keys`. -/
def removeKey (c : Contacts) (text : Bytes) : Contacts :=
  if isPublickeyLine text then
    match friendInfoByPublicKeyhex c.friendsInfo text with
    | none => c
    | some f =>
      match toxFriendDelete c.tox f.friendNumber with
      | (tox, true) => ⟨tox, friendInfoDestroy c.friendsInfo f⟩
      | (tox, false) => { c with tox }
  else c

/-- `remove_keys`. -/
def removeKeys (c : Contacts) (lines : List Bytes) : Contacts := lines.foldl removeKey c

/-- `friend_cleanup` destroys this entry. -/
def purges (timeout currentTime : UInt64) (f : FriendInfo) : Bool :=
  f.lastOnline ≠ UInt64.ofNat (2 ^ 64 - 1) && !(currentTime - f.lastOnline < timeout)

/-- `friend_cleanup`. -/
def friendCleanup (timeout currentTime : UInt64) : Tox → List FriendInfo → Contacts
  | tox, [] => ⟨tox, []⟩
  | tox, f :: fs =>
    if purges timeout currentTime f then
      friendCleanup timeout currentTime (toxFriendDelete tox f.friendNumber).1 fs
    else
      let c := friendCleanup timeout currentTime tox fs
      { c with friendsInfo := f :: c.friendsInfo }

/-- The `!forgetme` command of `friend_message`. -/
def forgetme (c : Contacts) (friendNumber : UInt32) : Contacts :=
  { c with tox := (toxFriendDelete c.tox friendNumber).1 }

/-- What can happen to the lists. -/
inductive FriendEvent where
  | friendRequest (publicKey : PublicKey) (reply : AddReply) (heap : FriendInfo)
  | importKeys (toxIdBin : PublicKey) (lines : List ImportLine)
  | removeKeys (lines : List Bytes)
  | cleanup (timeout currentTime : UInt64)
  | forgetme (friendNumber : UInt32)
  | name (friendNumber : UInt32) (name : Bytes)
  | statusMessage (friendNumber : UInt32) (message : Bytes)
  | status (friendNumber : UInt32) (status : UserStatus)
  | connectionStatus (friendNumber : UInt32) (connectionStatus : Connection)
  /-- Tox reports something new about a friend. -/
  | report (friendNumber : UInt32) (data : FriendData)

/-- The entries after a callback wrote to one. -/
def Contacts.withInfo (c : Contacts) (r : Except Fault (List FriendInfo)) : Except Fault Contacts :=
  r.map fun friendsInfo => { c with friendsInfo }

/-- What an event does. -/
def friendEvent (c : Contacts) : FriendEvent → Except Fault Contacts
  | .friendRequest publicKey reply heap => pure (friendRequestCb c publicKey reply heap)
  | .importKeys toxIdBin lines => importKeys hex2bin c toxIdBin lines
  | .removeKeys lines => pure (removeKeys c lines)
  | .cleanup timeout currentTime => pure (friendCleanup timeout currentTime c.tox c.friendsInfo)
  | .forgetme n => pure (forgetme c n)
  | .name n name => c.withInfo (friendNameCb c.friendsInfo n name)
  | .statusMessage n message => c.withInfo (friendStatusMessageCb c.friendsInfo n message)
  | .status n status => c.withInfo (friendStatusCb c.friendsInfo n status)
  | .connectionStatus n status => c.withInfo (friendConnectionStatus c.friendsInfo n status)
  | .report n data => pure { c with tox := c.tox.report n data }

/-- A step: a fault ends the program. -/
def friendStep (c : Contacts) (e : FriendEvent) : Option Contacts := (friendEvent hex2bin c e).toOption

/-! ### The lists mirror each other -/

/-- `friends_info` is strictly increasing and has the numbers Tox has. -/
structure Mirror (c : Contacts) : Prop where
  increasing : Increasing c.friendsInfo
  numbers : ∀ n, n ∈ c.friendsInfo.map FriendInfo.friendNumber ↔ n ∈ c.tox.numbers

variable {hex2bin}

/-- An added friend: appended under a free number in Tox, inserted in `friends_info`. -/
theorem Mirror.add {c : Contacts} (h : Mirror c) {tox : Tox} {t : ToxFriend} {f : FriendInfo}
    (htox : tox.friends = c.tox.friends ++ [t]) (hfree : t.number ∉ c.tox.numbers)
    (hf : f.friendNumber = t.number) : Mirror ⟨tox, friendInfoAddEntry c.friendsInfo f⟩ := by
  constructor
  · apply (increasing_friendInfoAddEntry h.increasing).mpr
    rw [hf, h.numbers]
    exact hfree
  · intro n
    have hold := h.numbers n
    simp only [List.mem_map, mem_friendInfoAddEntry, Tox.numbers, htox, List.mem_append,
      List.mem_singleton] at hold ⊢
    constructor
    · rintro ⟨g, rfl | hg, rfl⟩
      · exact ⟨t, .inr rfl, hf.symm⟩
      · obtain ⟨u, hu, hn⟩ := hold.mp ⟨g, hg, rfl⟩
        exact ⟨u, .inl hu, hn⟩
    · rintro ⟨u, hu | rfl, rfl⟩
      · obtain ⟨g, hg, hn⟩ := hold.mpr ⟨u, hu, rfl⟩
        exact ⟨g, .inr hg, hn⟩
      · exact ⟨f, .inl rfl, hf⟩

/-- A removed friend: deleted in Tox, its entry destroyed. -/
theorem Mirror.remove {c : Contacts} (h : Mirror c) {f : FriendInfo} (hf : f ∈ c.friendsInfo) :
    Mirror ⟨(toxFriendDelete c.tox f.friendNumber).1, friendInfoDestroy c.friendsInfo f⟩ := by
  refine ⟨h.increasing.destroy f, fun n => ?_⟩
  rw [mem_numbers_toxFriendDelete, ← h.numbers n]
  simp only [List.mem_map, mem_friendInfoDestroy h.increasing hf]
  constructor
  · rintro ⟨g, ⟨hg, hne⟩, rfl⟩
    exact ⟨⟨g, hg, rfl⟩, hne⟩
  · rintro ⟨⟨g, hg, rfl⟩, hne⟩
    exact ⟨g, ⟨hg, hne⟩, rfl⟩

/-- Nothing added, nothing removed, no number or key changed. -/
structure Touched (c c' : Contacts) : Prop where
  friends : c'.tox.friends.map (fun t => (t.number, t.publicKey)) =
    c.tox.friends.map fun t => (t.number, t.publicKey)
  entries : c'.friendsInfo.map (fun f => (f.friendNumber, f.toxIdBin, f.toxIdHex)) =
    c.friendsInfo.map fun f => (f.friendNumber, f.toxIdBin, f.toxIdHex)

theorem Touched.numbers {c c' : Contacts} (h : Touched c c') : c'.tox.numbers = c.tox.numbers := by
  have := congrArg (List.map Prod.fst) h.friends
  simpa [Tox.numbers, Function.comp_def] using this

theorem Touched.entryNumbers {c c' : Contacts} (h : Touched c c') :
    c'.friendsInfo.map FriendInfo.friendNumber = c.friendsInfo.map FriendInfo.friendNumber := by
  have := congrArg (List.map Prod.fst) h.entries
  simpa [Function.comp_def] using this

theorem Mirror.touch {c c' : Contacts} (h : Mirror c) (ht : Touched c c') : Mirror c' := by
  refine ⟨increasing_iff.mpr ?_, fun n => ?_⟩
  · rw [ht.entryNumbers]
    exact increasing_iff.mp h.increasing
  · rw [ht.entryNumbers, ht.numbers]
    exact h.numbers n

/-- The callbacks that write to an entry touch neither numbers nor keys. -/
theorem touched_onEntry {c c' : Contacts} {n : UInt32} {g : FriendInfo → FriendInfo}
    (hg : ∀ f, ((g f).friendNumber, (g f).toxIdBin, (g f).toxIdHex) =
      (f.friendNumber, f.toxIdBin, f.toxIdHex))
    (h : c.withInfo (onEntry c.friendsInfo n g) = .ok c') : Touched c c' := by
  unfold onEntry at h
  split at h
  · cases h
  · cases h
    exact ⟨rfl, map_modifyEntry hg n _⟩

theorem touched_report (c : Contacts) (n : UInt32) (data : FriendData) :
    Touched c { c with tox := c.tox.report n data } :=
  ⟨by simp [Tox.report, Function.comp_def], rfl⟩

/-- The events that touch neither numbers nor keys. -/
def FriendEvent.touches : FriendEvent → Bool
  | .name .. | .statusMessage .. | .status .. | .connectionStatus .. | .report .. => true
  | _ => false

theorem touched_friendEvent {c c' : Contacts} {e : FriendEvent} (he : e.touches)
    (h : friendEvent hex2bin c e = .ok c') : Touched c c' := by
  cases e with
  | name n name => exact touched_onEntry (g := fun f => { f with name := some name }) (fun _ => rfl) h
  | statusMessage n message =>
    exact touched_onEntry (g := fun f => { f with statusMessage := some message }) (fun _ => rfl) h
  | status n status => exact touched_onEntry (g := fun f => { f with status }) (fun _ => rfl) h
  | connectionStatus n status =>
    exact touched_onEntry (g := fun f => { f with connectionStatus := status }) (fun _ => rfl) h
  | report n data =>
    cases h
    exact touched_report c n data
  | _ => cases he

theorem mirror_friendRequestCb {c : Contacts} (h : Mirror c) (publicKey : PublicKey) (reply : AddReply)
    (heap : FriendInfo) : Mirror (friendRequestCb c publicKey reply heap) := by
  unfold friendRequestCb
  rcases toxFriendAddNorequest_cases c.tox publicKey reply with hadd | ⟨tox, n, data, hadd, hfree, htox⟩
  · rw [hadd]
    exact h
  · rw [hadd]
    exact h.add htox hfree rfl

/-- A line that is a key: Tox refuses it and nothing changes, or a friend and an entry are added
that have the key. -/
theorem importKeys_key {line : ImportLine} (htext : isPublickeyLine line.text = true)
    (c : Contacts) (buf : PublicKey) (lines : List ImportLine) :
    (toxFriendAddNorequest c.tox (hex2bin buf (cstr line.text)) line.reply = (c.tox, none) ∧
      importKeys hex2bin c buf (line :: lines) = importKeys hex2bin c (hex2bin buf (cstr line.text)) lines) ∨
    ∃ (tox : Tox) (t : ToxFriend) (f : FriendInfo),
      toxFriendAddNorequest c.tox (hex2bin buf (cstr line.text)) line.reply = (tox, some t.number) ∧
      tox.friends = c.tox.friends ++ [t] ∧ t.number ∉ c.tox.numbers ∧
      t.publicKey = hex2bin buf (cstr line.text) ∧ f.friendNumber = t.number ∧
      f.toxIdBin = t.publicKey ∧ f.toxIdHex = hexOf t.publicKey ∧
      importKeys hex2bin c buf (line :: lines) =
        importKeys hex2bin ⟨tox, friendInfoAddEntry c.friendsInfo f⟩ (hex2bin buf (cstr line.text)) lines := by
  rw [importKeys, if_pos htext]
  rcases toxFriendAddNorequest_cases c.tox (hex2bin buf (cstr line.text)) line.reply with
    hadd | ⟨tox, n, data, hadd, hfree, htox⟩
  · exact .inl ⟨hadd, by simp only [hadd]⟩
  · have ht : tox.friend n = some ⟨n, hex2bin buf (cstr line.text), data⟩ :=
      Tox.friend_eq_some.mpr ⟨by rw [htox]; simp, rfl⟩
    cases hup : friendInfoUpdate tox { FriendInfo.init line.heap n with name := some (ascii "_IMPORTED_KEY_") } with
    | error e =>
      unfold friendInfoUpdate at hup
      rw [show tox.friend (FriendInfo.init line.heap n).friendNumber = _ from ht] at hup
      cases hup
    | ok f =>
      obtain ⟨t, ht', hnum, hbin, hhex, -⟩ := friendInfoUpdate_eq_ok hup
      cases ht.symm.trans ht'
      refine .inr ⟨tox, _, f, hadd, htox, hfree, rfl, hnum, hbin, hhex, ?_⟩
      simp only [hadd]
      exact (congrArg (· >>= _) hup).trans rfl

/-- What `import_keys` does with a line: nothing, or it adds a friend and an entry that
holds its key. -/
theorem importKeys_cons {c c' : Contacts} {toxIdBin : PublicKey} {line : ImportLine}
    {lines : List ImportLine} (h : importKeys hex2bin c toxIdBin (line :: lines) = .ok c') :
    (∃ buf, importKeys hex2bin c buf lines = .ok c') ∨
      ∃ (buf : PublicKey) (tox : Tox) (t : ToxFriend) (f : FriendInfo),
        tox.friends = c.tox.friends ++ [t] ∧ t.number ∉ c.tox.numbers ∧ f.friendNumber = t.number ∧
        f.toxIdBin = t.publicKey ∧ f.toxIdHex = hexOf t.publicKey ∧
        importKeys hex2bin ⟨tox, friendInfoAddEntry c.friendsInfo f⟩ buf lines = .ok c' := by
  by_cases htext : isPublickeyLine line.text = true
  · rcases @importKeys_key hex2bin line htext c toxIdBin lines with
      ⟨-, himport⟩ | ⟨tox, t, f, -, htox, hfree, -, hnum, hbin, hhex, himport⟩
    · exact .inl ⟨_, himport ▸ h⟩
    · exact .inr ⟨_, tox, t, f, htox, hfree, hnum, hbin, hhex, himport ▸ h⟩
  · rw [importKeys, if_neg htext] at h
    exact .inl ⟨toxIdBin, h⟩

theorem mirror_importKeys (lines : List ImportLine) : ∀ {c c' : Contacts} {toxIdBin : PublicKey},
    Mirror c → importKeys hex2bin c toxIdBin lines = .ok c' → Mirror c' := by
  induction lines with
  | nil =>
    intro c c' toxIdBin hm h
    cases h
    exact hm
  | cons line lines ih =>
    intro c c' toxIdBin hm h
    rcases importKeys_cons h with ⟨buf, h⟩ | ⟨buf, tox, t, f, htox, hfree, hnum, -, -, h⟩
    · exact ih hm h
    · exact ih (hm.add htox hfree hnum) h

/-- What `remove_keys` does with a line: nothing, or it removes a friend and its entry. -/
theorem removeKey_cases (c : Contacts) (text : Bytes) :
    removeKey c text = c ∨ ∃ f ∈ c.friendsInfo,
      removeKey c text = ⟨(toxFriendDelete c.tox f.friendNumber).1, friendInfoDestroy c.friendsInfo f⟩ := by
  unfold removeKey
  split_ifs with htext
  · split
    · exact .inl rfl
    · next f hf =>
      have hmem : f ∈ c.friendsInfo := List.mem_of_find?_eq_some hf
      by_cases hn : f.friendNumber ∈ c.tox.numbers
      · exact .inr ⟨f, hmem, by simp only [toxFriendDelete, if_pos hn]⟩
      · exact .inl (by simp only [toxFriendDelete, if_neg hn])
  · exact .inl rfl

theorem mirror_removeKeys {c : Contacts} (h : Mirror c) (lines : List Bytes) :
    Mirror (removeKeys c lines) := by
  unfold removeKeys
  induction lines generalizing c with
  | nil => exact h
  | cons text lines ih =>
    rw [List.foldl_cons]
    apply ih
    rcases removeKey_cases c text with hc | ⟨f, hf, hc⟩
    · rw [hc]
      exact h
    · rw [hc]
      exact h.remove hf

/-- **What `friend_cleanup` does**: the purged entries go, and the friends under their
numbers. -/
theorem friendCleanup_spec (timeout currentTime : UInt64) (friendsInfo : List FriendInfo) : ∀ tox : Tox,
    (friendCleanup timeout currentTime tox friendsInfo).friendsInfo =
        friendsInfo.filter (fun f => !purges timeout currentTime f) ∧
      ∀ t, t ∈ (friendCleanup timeout currentTime tox friendsInfo).tox.friends ↔
        t ∈ tox.friends ∧ ∀ f ∈ friendsInfo, purges timeout currentTime f → t.number ≠ f.friendNumber := by
  induction friendsInfo with
  | nil => intro tox; simp [friendCleanup]
  | cons f fs ih =>
    intro tox
    by_cases hf : purges timeout currentTime f
    · obtain ⟨hinfo, htox⟩ := ih (toxFriendDelete tox f.friendNumber).1
      simp only [friendCleanup, hf, if_true]
      refine ⟨by simpa [hf] using hinfo, fun t => ?_⟩
      rw [htox, mem_toxFriendDelete]
      simp only [List.forall_mem_cons, hf, forall_const, and_assoc]
    · obtain ⟨hinfo, htox⟩ := ih tox
      simp only [friendCleanup, hf, if_false, Bool.false_eq_true]
      refine ⟨by simpa [hf] using hinfo, fun t => ?_⟩
      rw [htox]
      simp only [List.forall_mem_cons, hf, Bool.false_eq_true, false_imp_iff, true_and]

theorem mirror_friendCleanup {c : Contacts} (h : Mirror c) (timeout currentTime : UInt64) :
    Mirror (friendCleanup timeout currentTime c.tox c.friendsInfo) := by
  obtain ⟨hinfo, htox⟩ := friendCleanup_spec timeout currentTime c.friendsInfo c.tox
  constructor
  · rw [hinfo]
    exact h.increasing.sublist List.filter_sublist
  · intro n
    have hold := h.numbers n
    simp only [List.mem_map, Tox.numbers, hinfo, htox, List.mem_filter] at hold ⊢
    constructor
    · rintro ⟨f, ⟨hf, hkeep⟩, rfl⟩
      obtain ⟨t, ht, hn⟩ := hold.mp ⟨f, hf, rfl⟩
      refine ⟨t, ⟨ht, fun g hg hpurge heq => ?_⟩, hn⟩
      -- an entry purged under this number is the entry kept
      have hgf : g = f := List.inj_on_of_nodup_map h.increasing.nodup hg hf (heq ▸ hn)
      rw [hgf] at hpurge
      simp [hpurge] at hkeep
    · rintro ⟨t, ⟨ht, hkeep⟩, rfl⟩
      obtain ⟨f, hf, hn⟩ := hold.mpr ⟨t, ht, rfl⟩
      refine ⟨f, ⟨hf, ?_⟩, hn⟩
      by_cases hpurge : purges timeout currentTime f
      · exact absurd hn.symm (hkeep f hf hpurge)
      · simpa using hpurge

/-- A friend of the moment sends `!forgetme`. -/
def Forgets (c : Contacts) (e : FriendEvent) : Prop := ∃ n ∈ c.tox.numbers, e = .forgetme n

/-- Deleting in Tox only keeps the lists in step if and only if there is nothing to delete. -/
theorem mirror_forgetme {c : Contacts} (h : Mirror c) (n : UInt32) :
    Mirror (forgetme c n) ↔ n ∉ c.tox.numbers := by
  constructor
  · intro h' hn
    have := (h'.numbers n).mp ((h.numbers n).mpr hn)
    exact (mem_numbers_toxFriendDelete.mp this).2 rfl
  · intro hn
    simpa only [forgetme, toxFriendDelete, if_neg hn] using h

/-- **The step**: the lists stay in step if and only if no friend sends `!forgetme`. -/
theorem mirror_friendStep {c c' : Contacts} {e : FriendEvent} (h : friendStep hex2bin c e = some c')
    (hm : Mirror c) : Mirror c' ↔ ¬ Forgets c e := by
  have hok : friendEvent hex2bin c e = .ok c' := toOption_eq_some.mp h
  cases e with
  | friendRequest publicKey reply heap =>
    cases hok
    exact iff_of_true (mirror_friendRequestCb hm publicKey reply heap) (by simp [Forgets])
  | importKeys toxIdBin lines => exact iff_of_true (mirror_importKeys lines hm hok) (by simp [Forgets])
  | removeKeys lines =>
    cases hok
    exact iff_of_true (mirror_removeKeys hm lines) (by simp [Forgets])
  | cleanup timeout currentTime =>
    cases hok
    exact iff_of_true (mirror_friendCleanup hm timeout currentTime) (by simp [Forgets])
  | forgetme n =>
    cases hok
    rw [mirror_forgetme hm]
    simp [Forgets]
  | _ =>
    have ht := touched_friendEvent (by rfl) hok
    exact iff_of_true (hm.touch ht) (by simp [Forgets])

/-! ### From the start -/

theorem increasing_init (heap : UInt32 → FriendInfo) (numbers : List UInt32) :
    ∀ friendsInfo : List FriendInfo, Increasing friendsInfo →
      (∀ n ∈ numbers, n ∉ friendsInfo.map FriendInfo.friendNumber) → numbers.Nodup →
      let friendsInfo' := numbers.foldl (fun fs n => friendInfoAddEntry fs (.init (heap n) n)) friendsInfo
      Increasing friendsInfo' ∧ ∀ n, n ∈ friendsInfo'.map FriendInfo.friendNumber ↔
        n ∈ friendsInfo.map FriendInfo.friendNumber ∨ n ∈ numbers := by
  induction numbers with
  | nil => intro friendsInfo hinc _ _; simpa using hinc
  | cons m numbers ih =>
    intro friendsInfo hinc hfresh hnodup
    obtain ⟨hm, hnodup⟩ := List.nodup_cons.mp hnodup
    have hmem (n : UInt32) :
        n ∈ (friendInfoAddEntry friendsInfo (.init (heap m) m)).map FriendInfo.friendNumber ↔
          n = m ∨ n ∈ friendsInfo.map FriendInfo.friendNumber := by
      simp only [List.mem_map, mem_friendInfoAddEntry]
      constructor
      · rintro ⟨f, rfl | hf, rfl⟩
        · exact .inl rfl
        · exact .inr ⟨f, hf, rfl⟩
      · rintro (rfl | ⟨f, hf, rfl⟩)
        · exact ⟨_, .inl rfl, rfl⟩
        · exact ⟨f, .inr hf, rfl⟩
    have hinc' : Increasing (friendInfoAddEntry friendsInfo (.init (heap m) m)) :=
      (increasing_friendInfoAddEntry hinc).mpr (hfresh m List.mem_cons_self)
    obtain ⟨h₁, h₂⟩ := ih _ hinc' (fun n hn => by
      rw [hmem, not_or]
      exact ⟨fun h => hm (h ▸ hn), hfresh n (List.mem_cons_of_mem m hn)⟩) hnodup
    refine ⟨h₁, fun n => ?_⟩
    rw [List.foldl_cons, h₂, hmem, List.mem_cons]
    tauto

/-- The entry carries the key of the friend under its number, in binary and in upper-case
hexadecimal. -/
def CarriesKey (tox : Tox) (f : FriendInfo) : Prop :=
  ∃ t ∈ tox.friends, t.number = f.friendNumber ∧ f.toxIdBin = t.publicKey ∧
    f.toxIdHex.1 = upperHex t.publicKey.1 ++ [0]

theorem carriesKey_of_update {tox : Tox} {f f' : FriendInfo} (h : friendInfoUpdate tox f = .ok f') :
    CarriesKey tox f' := by
  obtain ⟨t, ht, hnum, hbin, hhex, -⟩ := friendInfoUpdate_eq_ok h
  obtain ⟨hmem, htn⟩ := Tox.friend_eq_some.mp ht
  exact ⟨t, hmem, htn.trans hnum.symm, hbin, by rw [hhex, hexOf_eq]⟩

/-- `friends_info_update` succeeds on entries of friends, and gives each its key. -/
theorem friendsInfoUpdate_spec {tox : Tox} {friendsInfo : List FriendInfo}
    (h : ∀ f ∈ friendsInfo, f.friendNumber ∈ tox.numbers) :
    ∃ friendsInfo', friendsInfoUpdate tox friendsInfo = .ok friendsInfo' ∧
      friendsInfo'.map FriendInfo.friendNumber = friendsInfo.map FriendInfo.friendNumber ∧
      ∀ f ∈ friendsInfo', CarriesKey tox f := by
  induction friendsInfo with
  | nil => exact ⟨[], rfl, rfl, by simp⟩
  | cons f fs ih =>
    obtain ⟨fs', hfs, hnums, hkeys⟩ := ih fun g hg => h g (List.mem_cons_of_mem f hg)
    obtain ⟨t, ht⟩ := exists_find?_key ToxFriend.number (h f List.mem_cons_self)
    cases hf : friendInfoUpdate tox f with
    | error e => simp [friendInfoUpdate, Tox.friend, ht] at hf
    | ok f' =>
      obtain ⟨-, -, hnum, -⟩ := friendInfoUpdate_eq_ok hf
      refine ⟨f' :: fs', ?_, by rw [List.map_cons, List.map_cons, hnum, hnums], ?_⟩
      · rw [friendsInfoUpdate] at hfs ⊢
        rw [List.mapM_cons, hf, ok_bind, hfs, ok_bind]
        rfl
      · rw [List.forall_mem_cons]
        exact ⟨carriesKey_of_update hf, hkeys⟩

/-- **`friends_info_init`** succeeds, mirrors Tox's list and gives every entry its key. -/
theorem friendsInfoInit_spec (tox : Tox) (heap : UInt32 → FriendInfo) :
    ∃ friendsInfo, friendsInfoInit tox heap = .ok friendsInfo ∧ Mirror ⟨tox, friendsInfo⟩ ∧
      ∀ f ∈ friendsInfo, CarriesKey tox f := by
  obtain ⟨hinc, hnums⟩ := increasing_init heap tox.numbers [] .nil (by simp) tox.numbers_nodup
  simp only [List.map_nil, List.not_mem_nil, false_or] at hnums
  obtain ⟨fs', hfs, hmap, hkeys⟩ := friendsInfoUpdate_spec fun f hf => (hnums f.friendNumber).mp
    (List.mem_map_of_mem hf)
  refine ⟨fs', hfs, ⟨increasing_iff.mpr ?_, fun n => ?_⟩, hkeys⟩
  · rw [hmap]
    exact increasing_iff.mp hinc
  · rw [hmap]
    exact hnums n

/-! ### Runs -/

/-- `friends_info` mirrors Tox's list, and a search by number finds the one entry of a
friend, and none of anybody else. -/
structure MirrorsTox (c : Contacts) : Prop extends Mirror c where
  finds : ∀ n ∈ c.tox.numbers, ∃ f, friendInfoByFriendNumber c.friendsInfo n = some f ∧
    ∀ g ∈ c.friendsInfo, g.friendNumber = n → g = f
  misses : ∀ n ∉ c.tox.numbers, friendInfoByFriendNumber c.friendsInfo n = none

theorem Mirror.mirrorsTox {c : Contacts} (h : Mirror c) : MirrorsTox c where
  toMirror := h
  finds n hn := by
    obtain ⟨f, hf⟩ := exists_find?_key FriendInfo.friendNumber ((h.numbers n).mpr hn)
    refine ⟨f, hf, fun g hg hgn => ?_⟩
    have hg' := (friendInfoByFriendNumber_eq_some h.increasing).mpr ⟨hg, hgn⟩
    exact Option.some.inj (hg'.symm.trans hf)
  misses n hn := friendInfoByFriendNumber_eq_none.mpr fun h' => hn ((h.numbers n).mp h')

/-- From a mirrored state, the lists stay in step if and only if no friend forgets itself. -/
theorem always_mirror_iff {c : Contacts} (hm : Mirror c) (es : List FriendEvent) :
    Always (friendStep hex2bin) Mirror c es ↔
      Along (friendStep hex2bin) (fun c e => ¬ Forgets c e) c es :=
  always_iff_along (fun _ _ _ => mirror_friendStep) hm

/-- **`friends_info` mirrors Tox's friend list** in every state of a run from
`friends_info_init` if and only if no friend of the moment sends `!forgetme`. -/
theorem friendsInfo_mirrors_iff (hex2bin : Hex2Bin) (tox : Tox) (heap : UInt32 → FriendInfo)
    (es : List FriendEvent) :
    ∃ friendsInfo, friendsInfoInit tox heap = .ok friendsInfo ∧
      (Always (friendStep hex2bin) MirrorsTox ⟨tox, friendsInfo⟩ es ↔
        Along (friendStep hex2bin) (fun c e => ¬ Forgets c e) ⟨tox, friendsInfo⟩ es) := by
  obtain ⟨friendsInfo, hinit, hm, -⟩ := friendsInfoInit_spec tox heap
  refine ⟨friendsInfo, hinit, ?_⟩
  rw [← always_mirror_iff hm]
  exact ⟨Always.mono fun _ => MirrorsTox.toMirror, Always.mono fun _ => Mirror.mirrorsTox⟩

/-- A friend Tox has not seen yet. -/
def unseen : FriendData := ⟨0, .none, .none, [], []⟩

/-- An instance with one friend. -/
def oneFriend : Tox := ⟨[⟨0, someKey 1, unseen⟩], by decide, by decide⟩

/-- An instance with two friends. -/
def twoFriends : Tox :=
  ⟨[⟨0, someKey 1, { unseen with lastOnline := 10 }⟩, ⟨1, someKey 2, { unseen with lastOnline := 90 }⟩],
    by decide, by decide⟩

/-- After `!forgetme` from its only friend the program still has an entry for it, and when
Tox gives the number away again there are two. -/
theorem forgetme_leaves_entry :
    ∃ friendsInfo c c', friendsInfoInit oneFriend (fun _ => zeroEntry) = .ok friendsInfo ∧
      runEvents (friendStep fun buf _ => buf) ⟨oneFriend, friendsInfo⟩ [.forgetme 0] = some c ∧
      ¬ MirrorsTox c ∧
      runEvents (friendStep fun buf _ => buf) c
        [.friendRequest (someKey 2) (some (0, unseen)) zeroEntry] = some c' ∧
      c'.friendsInfo.map FriendInfo.friendNumber = [0, 0] := by
  refine ⟨_, _, _, rfl, rfl, fun h => ?_, rfl, rfl⟩
  have hnone := h.misses 0 (by decide)
  exact absurd hnone (by decide)

end ToxSuite.Friend
