import ToxSuite.Friend.Cleanup
import ToxSuite.Friend.Import
import ToxSuite.Profile
import ToxSuite.Lib.Runs
import Mathlib.Data.Set.Card

/-!
# `toxdatatool.c`: friends from file to file

The tool loads a profile, writes the keys of its friends to a file, adds the keys of another
file, removes those of a third and purges the friends that were not seen for a time; where it
changed the profile, it saves it. Tox is a parameter here (`Toxcore`), with what it
documents of its savedata and of adding a friend (`Toxcore.Lawful`).

What the tool is for are the sets of friends: `Files` is a disk with the set that each key
file holds and the friends, with the time each was last seen, that each profile holds, and
`runTool` is what a call of the tool does to them. Any sequence of calls leaves on the
disk what `runTool` says (`tool_moves_friends`), also where a file does not open or a disk
is full, and whichever of the files are the same.
-/

namespace ToxSuite.Toxdatatool

open ToxSuite.Lib ToxSuite.Friend ToxSuite.Profile

/-! ### The program -/

/-- A Tox instance with its own key. -/
structure Account where
  publicKey : PublicKey
  tox : Tox

/-- What `toxcore` has to say of friends. -/
structure Terms where
  /-- The keys that a friend can have. -/
  valid : PublicKey → Bool
  /-- What `tox_friend_get_last_online` gives of a friend that was never online. -/
  neverSeen : UInt64
  /-- How many friends there is memory for. -/
  capacity : ℕ

/-- `toxcore`, as far as the tool calls it. -/
structure Toxcore extends Terms where
  /-- `tox_new`; `none` is an error. -/
  new : ToxOptions → Option Account
  /-- `tox_get_savedata`. -/
  savedata : Account → Bytes
  /-- What `tox_friend_add_norequest` answers. -/
  reply : Account → PublicKey → AddReply

/-- The command line. -/
structure Options where
  toxfile : CStr
  passphrase : Option CStr
  exportfile : Option CStr
  importfile : Option CStr
  removefile : Option CStr
  purgeDelay : UInt64

/-- `saveflag`, after the options were followed. -/
def Options.saveflag (o : Options) : Bool :=
  o.passphrase.isSome || o.importfile.isSome || o.removefile.isSome || 0 < o.purgeDelay

/-- How the world comes out in one call of the tool. -/
structure World where
  /-- `access` grants reading and writing. -/
  accessible : Bool
  load : ReadIO
  exporting : WriteIO
  /-- The file of keys to import opens, if there is one. -/
  importOpens : Bool
  /-- The file of keys to remove opens, if there is one. -/
  removeOpens : Bool
  saving : WriteIO
  currentTime : UInt64
  salt : Bytes
  /-- What the buffer for the decrypted profile holds before. -/
  clearData : ℕ → UInt8
  /-- What the buffer of `import_keys` holds before. -/
  toxIdBin : PublicKey
  /-- What the memory of an entry holds before: of a friend that is loaded, and of one imported. -/
  loaded : UInt32 → FriendInfo
  imported : PublicKey → FriendInfo

/-- The files, by their names. -/
abbrev Disk := CStr → Option Bytes

variable (hex2bin : Hex2Bin) (enc : Encryption) (core : Toxcore)

/-- The lines of a key file, each with what Tox answers when `import_keys` comes to it. -/
def answered (own : PublicKey) (heap : PublicKey → FriendInfo) : Tox → PublicKey → List Bytes → List ImportLine
  | _, _, [] => []
  | tox, toxIdBin, text :: texts =>
    if isPublickeyLine text then
      let toxIdBin := hex2bin toxIdBin (cstr text)
      let reply := core.reply ⟨own, tox⟩ toxIdBin
      ⟨text, reply, heap toxIdBin⟩ ::
        answered own heap (toxFriendAddNorequest tox toxIdBin reply).1 toxIdBin texts
    else ⟨text, none, heap toxIdBin⟩ :: answered own heap tox toxIdBin texts

/-- `export_keys` to a file of the disk. -/
def exportTo (w : World) (friendsInfo : List FriendInfo) (disk : Disk) : Option CStr → Except Fault Disk
  | none => pure disk
  | some exportfile => do
    let (_, file) ← exportKeys w.exporting friendsInfo (disk exportfile)
    pure (Function.update disk exportfile file)

/-- The lines of a key file: none if it does not open. -/
def keyLines (opens : Bool) (disk : Disk) (file : CStr) : List Bytes :=
  if opens then getlines ((disk file).getD []) else []

/-- `import_keys` from a file of the disk. -/
def importFrom (w : World) (own : PublicKey) (disk : Disk) (c : Contacts) : Option CStr → Except Fault Contacts
  | none => pure c
  | some importfile =>
    importKeys hex2bin c w.toxIdBin
      (answered hex2bin core own w.imported c.tox w.toxIdBin (keyLines w.importOpens disk importfile))

/-- `remove_keys` with a file of the disk. -/
def removeFrom (w : World) (disk : Disk) (c : Contacts) : Option CStr → Contacts
  | none => c
  | some removefile => removeKeys c (keyLines w.removeOpens disk removefile)

/-- What `main` does with the profile that it loaded. -/
def edit (o : Options) (w : World) (apptox : Account) (disk : Disk) : Except Fault (ℤ × Disk) := do
  let friendsInfo ← friendsInfoInit apptox.tox w.loaded
  let disk ← exportTo w friendsInfo disk o.exportfile
  let c ← importFrom hex2bin core w apptox.publicKey disk ⟨apptox.tox, friendsInfo⟩ o.importfile
  let c := removeFrom w disk c o.removefile
  let c := if 0 < o.purgeDelay then friendCleanup o.purgeDelay w.currentTime c.tox c.friendsInfo else c
  let disk := if o.saveflag then
      Function.update disk o.toxfile
        (saveProfile enc w.saving (core.savedata ⟨apptox.publicKey, c.tox⟩) o.passphrase w.salt (disk o.toxfile)).2
    else disk
  pure (0, disk)

/-- `main`, after the options: the exit code, and the disk. Without access to the profile nothing is loaded, and
`client_info_update` asks Tox about `NULL`. -/
def main (o : Options) (w : World) (disk : Disk) : Except Fault (ℤ × Disk) :=
  if w.accessible && (disk o.toxfile).isSome then do
    let (ret, options) ← loadProfile enc w.load w.clearData (fun options => (core.new options).isSome)
      (disk o.toxfile) o.passphrase
    match if ret = 0 then options.bind core.new else none with
    | none => pure (EXIT_FAILURE, disk)
    | some apptox => edit hex2bin enc core o w apptox disk
  else throw .null

/-- A call of the tool; one that crashes is the last. -/
def toolStep (disk : Disk) (e : Options × World) : Option Disk :=
  ((main hex2bin enc core e.1 e.2 disk).map Prod.snd).toOption

/-! ### The sets of friends -/

/-- The friends of a profile, each with the time it was last seen. -/
abbrev Friends := Set (PublicKey × UInt64)

/-- The friends Tox has. -/
def friendsOf (tox : Tox) : Friends := {m | ∃ t ∈ tox.friends, (t.publicKey, t.data.lastOnline) = m}

/-- The keys of friends. -/
def Friends.keys (friends : Friends) : Set PublicKey := Prod.fst '' friends

/-- The keys that are new, that a friend can have and that are not one's own become friends never seen. -/
def Friends.add (friends : Friends) (terms : Terms) (own : PublicKey) (keys : Set PublicKey) : Friends :=
  friends ∪ {m | m.1 ∈ keys ∧ terms.valid m.1 ∧ m.1 ≠ own ∧ m.1 ∉ friends.keys ∧ m.2 = terms.neverSeen}

/-- The friends that were last seen less than the delay ago stay. -/
def Friends.purge (friends : Friends) (delay now : UInt64) : Friends :=
  {m ∈ friends | now.toNat < m.2.toNat + delay.toNat}

/-- No friend was last seen in the time to come, but one of which Tox gives no time. -/
def Friends.SeenBy (friends : Friends) (now : UInt64) : Prop :=
  ∀ m ∈ friends, m.2 ≤ now ∨ m.2 = UInt64.ofNat (2 ^ 64 - 1)

/-- What a file is to the tool. -/
inductive Content where
  | absent
  | keys (keys : Set PublicKey)
  | profile (own : PublicKey) (friends : Friends)
  | other

/-- The files, by their names. -/
abbrev Files := CStr → Content

/-- What a write leaves in a file. -/
def Content.written (old new : Content) : WriteIO → Content
  | .fails => old
  | .cut _ => .other
  | .complete => new

/-- The keys of a key file. -/
def Content.listed : Content → Option (Set PublicKey)
  | .absent => some ∅
  | .keys listed => some listed
  | _ => none

/-- The keys that an option of the tool names. -/
def Files.named (files : Files) (opens : Bool) : Option CStr → Option (Set PublicKey)
  | none => some ∅
  | some file => if opens then (files file).listed else some ∅

/-- The files after the export. -/
def Files.exported (files : Files) (w : World) (keys : Set PublicKey) : Option CStr → Files
  | none => files
  | some exportfile => Function.update files exportfile ((files exportfile).written (.keys keys) w.exporting)

/-- The friends after those of one file were added and those of another removed. -/
def Friends.exchanged (friends : Friends) (terms : Terms) (own : PublicKey) (added removed : Set PublicKey) :
    Friends := {m ∈ friends.add terms own added | m.1 ∉ removed}

/-- The friends after an exchange and a purge. -/
def Friends.edited (friends : Friends) (o : Options) (w : World) (terms : Terms) (own : PublicKey)
    (added removed : Set PublicKey) : Friends :=
  if 0 < o.purgeDelay then (friends.exchanged terms own added removed).purge o.purgeDelay w.currentTime
  else friends.exchanged terms own added removed

/-- The files after the profile was saved, if it is. -/
def Files.saved (files : Files) (o : Options) (w : World) (own : PublicKey) (friends : Friends) : Files :=
  if o.saveflag then
    Function.update files o.toxfile (if o.passphrase.isSome then .other
      else (files o.toxfile).written (.profile own friends) w.saving)
  else files

open Classical in
/-- What a call of the tool is for: the friends of the profile are exported, and then those who are not its owner's
own key are added, removed and purged as the options say. There is no saying what a call does to a file that is not
a profile, or one that is encrypted, or with keys from a file that is no key file, or with more friends than there
is memory for, or with a purge where a friend was seen later than now. -/
noncomputable def runTool (terms : Terms) (files : Files) (e : Options × World) : Option Files :=
  match files e.1.toxfile, e.2.accessible, e.2.load with
  | .profile own friends, true, .complete =>
    let files := files.exported e.2 friends.keys e.1.exportfile
    (files.named e.2.importOpens e.1.importfile).bind fun added =>
      (files.named e.2.removeOpens e.1.removefile).bind fun removed =>
        if (friends.add terms own added).ncard ≤ terms.capacity ∧
            (0 < e.1.purgeDelay → (friends.exchanged terms own added removed).SeenBy e.2.currentTime) then
          some (files.saved e.1 e.2 own (friends.edited e.1 e.2 terms own added removed))
        else none
  | .profile _ _, true, _ => some files
  | _, _, _ => none

/-- An instance that Tox can come to: its friends have keys that a friend can have, and there is memory for them. -/
structure Account.Possible (terms : Terms) (a : Account) : Prop where
  keys : ∀ key ∈ a.tox.keys, terms.valid key ∧ key ≠ a.publicKey
  room : a.tox.friends.length ≤ terms.capacity

/-- What is on the disk for it. -/
inductive Stores : Content → Option Bytes → Prop where
  | absent : Stores .absent none
  | keys (keys : List PublicKey) : Stores (.keys {key | key ∈ keys}) (some (keys.flatMap keyLine))
  | profile (a : Account) (possible : a.Possible core.toTerms) :
      Stores (.profile a.publicKey (friendsOf a.tox)) (some (core.savedata a))
  | other (file : Option Bytes) : Stores .other file

/-- What `toxcore` documents: the savedata is not encrypted, and brings the instance back with its own key and its
friends; and while there is memory, a key is accepted if and only if it is one that a friend can have, and neither
one's own nor a friend's. -/
structure Toxcore.Lawful (enc : Encryption) (core : Toxcore) : Prop where
  clear : ∀ a, enc.isEncrypted (core.savedata a) = false
  restores : ∀ a, a.Possible core.toTerms → ∃ a', core.new ⟨core.savedata a, (core.savedata a).length⟩ = some a' ∧
    a'.publicKey = a.publicKey ∧ friendsOf a'.tox = friendsOf a.tox
  refuses : ∀ a key, core.valid key = false ∨ key = a.publicKey → core.reply a key = none
  accepts : ∀ a key, core.valid key → key ≠ a.publicKey → key ∉ a.tox.keys →
    a.tox.friends.length < core.capacity →
      ∃ n data, core.reply a key = some (n, data) ∧ n ∉ a.tox.numbers ∧ data.lastOnline = core.neverSeen

variable {hex2bin enc core}

theorem mem_friendsOf {tox : Tox} {m : PublicKey × UInt64} :
    m ∈ friendsOf tox ↔ ∃ t ∈ tox.friends, t.publicKey = m.1 ∧ t.data.lastOnline = m.2 := by
  simp only [friendsOf, Set.mem_ofPred_eq, Prod.ext_iff]

theorem mem_keys_friendsOf {tox : Tox} {key : PublicKey} : key ∈ (friendsOf tox).keys ↔ key ∈ tox.keys := by
  simp only [Friends.keys, Set.mem_image, mem_friendsOf, Tox.keys, List.mem_map]
  constructor
  · rintro ⟨m, ⟨t, ht, hkey, -⟩, rfl⟩
    exact ⟨t, ht, hkey⟩
  · rintro ⟨t, ht, rfl⟩
    exact ⟨(t.publicKey, t.data.lastOnline), ⟨t, ht, rfl, rfl⟩, rfl⟩

/-! ### The entries have the times Tox has -/

/-- An entry has the time its friend was last seen. -/
def Dated (c : Contacts) : Prop :=
  ∀ f ∈ c.friendsInfo, ∀ t ∈ c.tox.friends, t.number = f.friendNumber → f.lastOnline = t.data.lastOnline

theorem Dated.subset {c c' : Contacts} (h : Dated c) (hinfo : ∀ f ∈ c'.friendsInfo, f ∈ c.friendsInfo)
    (htox : ∀ t ∈ c'.tox.friends, t ∈ c.tox.friends) : Dated c' :=
  fun f hf t ht => h f (hinfo f hf) t (htox t ht)

/-- A friend that is added brings its time. -/
theorem Dated.add {c : Contacts} (h : Dated c) (hm : Mirror c) {tox : Tox} {t : ToxFriend} {f : FriendInfo}
    (htox : tox.friends = c.tox.friends ++ [t]) (hfree : t.number ∉ c.tox.numbers) (hf : f.friendNumber = t.number)
    (hseen : f.lastOnline = t.data.lastOnline) : Dated ⟨tox, friendInfoAddEntry c.friendsInfo f⟩ := by
  intro g hg u hu hn
  rw [mem_friendInfoAddEntry] at hg
  rw [htox, List.mem_append, List.mem_singleton] at hu
  rcases hg with rfl | hg <;> rcases hu with hu | rfl
  · exact absurd (List.mem_map_of_mem hu) (hn.trans hf ▸ hfree)
  · exact hseen
  · exact h g hg u hu hn
  · exact absurd ((hm.numbers _).mp (List.mem_map_of_mem hg)) (hn ▸ hfree)

theorem exists_updated {tox : Tox} {l : List FriendInfo} : ∀ {l' : List FriendInfo},
    friendsInfoUpdate tox l = .ok l' → ∀ f' ∈ l', ∃ f, friendInfoUpdate tox f = .ok f' := by
  induction l with
  | nil =>
    intro l' h
    cases h
    simp
  | cons f l ih =>
    intro l' h
    rw [friendsInfoUpdate, List.mapM_cons] at h
    obtain ⟨f', hf', h⟩ := bind_eq_ok.mp h
    obtain ⟨fs', hfs', h⟩ := bind_eq_ok.mp h
    cases h
    rw [List.forall_mem_cons]
    exact ⟨⟨f, hf'⟩, ih hfs'⟩

/-- What an update fills in is the time of the friend under the number. -/
theorem seen_of_update {tox : Tox} {f f' : FriendInfo} (h : friendInfoUpdate tox f = .ok f') {t : ToxFriend}
    (ht : t ∈ tox.friends) (hn : t.number = f'.friendNumber) : f'.lastOnline = t.data.lastOnline := by
  obtain ⟨u, hu, hnum, -, -, hseen⟩ := friendInfoUpdate_eq_ok h
  have htu := Tox.friend_eq_some.mpr ⟨ht, hn.trans hnum⟩
  cases hu.symm.trans htu
  exact hseen

theorem friendsInfoInit_dated {tox : Tox} {heap : UInt32 → FriendInfo} {friendsInfo : List FriendInfo}
    (h : friendsInfoInit tox heap = .ok friendsInfo) : Dated ⟨tox, friendsInfo⟩ := by
  intro f hf t ht hn
  obtain ⟨g, hg⟩ := exists_updated h f hf
  exact seen_of_update hg ht hn

/-! ### Importing, removing, purging -/

/-- `friends_info` reflects Tox's list, the times included. -/
structure Tracks (c : Contacts) : Prop extends Reflects c where
  dated : Dated c

theorem Friends.add_refused {friends : Friends} {terms : Terms} {own key : PublicKey}
    (h : terms.valid key = false ∨ key = own ∨ key ∈ friends.keys) (keys : List PublicKey) :
    friends.add terms own {k | k ∈ key :: keys} = friends.add terms own {k | k ∈ keys} := by
  ext m
  simp only [Friends.add, Set.mem_union, Set.mem_ofPred_eq, List.mem_cons]
  refine or_congr_right (and_congr_left fun hnew => or_iff_right ?_)
  rintro rfl
  rcases h with hinvalid | hown | hold
  · exact absurd hnew.1 (by simp [hinvalid])
  · exact hnew.2.1 hown
  · exact hnew.2.2.1 hold

theorem Friends.add_accepted {friends : Friends} {terms : Terms} {own key : PublicKey} (hvalid : terms.valid key)
    (hown : key ≠ own) (hnew : key ∉ friends.keys) (keys : List PublicKey) :
    Friends.add (friends ∪ {(key, terms.neverSeen)}) terms own {k | k ∈ keys} =
      friends.add terms own {k | k ∈ key :: keys} := by
  ext m
  have hkeys : m.1 ∈ Friends.keys (friends ∪ {(key, terms.neverSeen)}) ↔ m.1 ∈ friends.keys ∨ m.1 = key := by
    simp only [Friends.keys, Set.image_union, Set.image_singleton, Set.mem_union, Set.mem_singleton_iff]
  simp only [Friends.add, Set.mem_union, Set.mem_ofPred_eq, List.mem_cons, hkeys, Set.mem_singleton_iff, Prod.ext_iff]
  by_cases hm : m.1 = key
  · simp only [hm, hvalid, true_and, not_true_eq_false, or_true, false_and, and_false, or_false, true_or, ne_eq, hown,
      not_false_eq_true, hnew]
  · simp only [hm, false_and, or_false, false_or]

theorem Tracks.add {c : Contacts} (h : Tracks c) {tox : Tox} {t : ToxFriend} {f : FriendInfo}
    (htox : tox.friends = c.tox.friends ++ [t]) (hfree : t.number ∉ c.tox.numbers) (hf : f.friendNumber = t.number)
    (hkey : f.toxIdBin = t.publicKey) (hhex : f.toxIdHex = hexOf t.publicKey)
    (hseen : f.lastOnline = t.data.lastOnline) : Tracks ⟨tox, friendInfoAddEntry c.friendsInfo f⟩ :=
  ⟨h.toReflects.add htox hfree hf hkey hhex, h.dated.add h.toMirror htox hfree hf hseen⟩

theorem friendsOf_append {tox tox' : Tox} {t : ToxFriend} (h : tox'.friends = tox.friends ++ [t]) :
    friendsOf tox' = friendsOf tox ∪ {(t.publicKey, t.data.lastOnline)} := by
  ext m
  rw [Set.mem_union, Set.mem_singleton_iff, Prod.ext_iff, mem_friendsOf, mem_friendsOf, h]
  simp only [List.mem_append, List.mem_singleton, or_and_right, exists_or, exists_eq_left]
  rw [eq_comm, @eq_comm _ m.2]

/-- The entry that `import_keys` makes for a friend. -/
theorem updated_entry (heap : FriendInfo) {tox : Tox} {n : UInt32} {t : ToxFriend} (ht : tox.friend n = some t) :
    ∃ f, friendInfoUpdate tox { FriendInfo.init heap n with name := some (ascii "_IMPORTED_KEY_") } = .ok f ∧
      f.friendNumber = n ∧ f.toxIdBin = t.publicKey ∧ f.toxIdHex = hexOf t.publicKey ∧
      f.lastOnline = t.data.lastOnline := by
  unfold friendInfoUpdate
  dsimp only [FriendInfo.init]
  rw [ht]
  exact ⟨_, rfl, rfl, rfl, rfl, rfl⟩

theorem friendsOf_eq (tox : Tox) :
    friendsOf tox = ↑(tox.friends.map fun t => (t.publicKey, t.data.lastOnline)).toFinset := by
  ext m
  simp [friendsOf]

theorem ncard_friendsOf (tox : Tox) : (friendsOf tox).ncard = tox.friends.length := by
  have hnodup : (tox.friends.map fun t => (t.publicKey, t.data.lastOnline)).Nodup := by
    apply List.Nodup.of_map Prod.fst
    simpa [Function.comp_def] using tox.keys_nodup
  rw [friendsOf_eq, Set.ncard_coe_finset, List.toFinset_card_of_nodup hnodup, List.length_map]

theorem finite_friendsOf (tox : Tox) : (friendsOf tox).Finite := friendsOf_eq tox ▸ Finset.finite_toSet _

theorem finite_add (tox : Tox) (terms : Terms) (own : PublicKey) {keys : Set PublicKey} (hkeys : keys.Finite) :
    ((friendsOf tox).add terms own keys).Finite := by
  refine (finite_friendsOf tox).union ((hkeys.image (·, terms.neverSeen)).subset ?_)
  rintro m ⟨hm, -, -, -, hseen⟩
  exact ⟨m.1, hm, Prod.ext rfl hseen.symm⟩

/-- Where there is memory for all the friends to come, there is for the next. -/
theorem room_for {tox : Tox} {terms : Terms} {own key : PublicKey} (hvalid : terms.valid key) (hown : key ≠ own)
    (hnew : key ∉ tox.keys) {keys : List PublicKey} {capacity : ℕ}
    (hroom : ((friendsOf tox).add terms own {k | k ∈ key :: keys}).ncard ≤ capacity) :
    tox.friends.length < capacity := by
  have hnew' : key ∉ (friendsOf tox).keys := fun h => hnew (mem_keys_friendsOf.mp h)
  have hlt : friendsOf tox ⊂ (friendsOf tox).add terms own {k | k ∈ key :: keys} := by
    refine Set.ssubset_iff_exists.mpr ⟨Set.subset_union_left, (key, terms.neverSeen), ?_, fun h => hnew' ⟨_, h, rfl⟩⟩
    exact .inr ⟨List.mem_cons_self, hvalid, hown, hnew', rfl⟩
  rw [← ncard_friendsOf]
  exact (Set.ncard_lt_ncard hlt (finite_add tox terms own (key :: keys).finite_toSet)).trans_le hroom

/-- **What `import_keys` adds**, from the lines of a key file. -/
theorem importKeys_answered (hcore : core.Lawful enc) (own : PublicKey) (heap : PublicKey → FriendInfo)
    (texts : List Bytes) : ∀ {c : Contacts} {buf : PublicKey}, Tracks c →
      ((friendsOf c.tox).add core.toTerms own {key | key ∈ fileKeys hex2bin buf texts}).ncard ≤ core.capacity →
      ∃ c', importKeys hex2bin c buf (answered hex2bin core own heap c.tox buf texts) = .ok c' ∧ Tracks c' ∧
        friendsOf c'.tox =
          (friendsOf c.tox).add core.toTerms own {key | key ∈ fileKeys hex2bin buf texts} := by
  induction texts with
  | nil =>
    intro c buf h _
    refine ⟨c, rfl, h, ?_⟩
    simp [Friends.add, fileKeys]
  | cons text texts ih =>
    intro c buf h hroom
    unfold answered fileKeys
    unfold fileKeys at hroom
    split_ifs at hroom ⊢ with htext
    · dsimp only
      generalize hkey : hex2bin buf (cstr text) = key at hroom ⊢
      rw [importKeys, if_pos htext]
      dsimp only
      rw [hkey]
      by_cases hrefused : core.valid key = false ∨ key = own ∨ key ∈ c.tox.keys
      · have hadd : toxFriendAddNorequest c.tox key (core.reply ⟨own, c.tox⟩ key) = (c.tox, none) := by
          rcases or_assoc.mpr hrefused with hno | hold
          · rw [hcore.refuses ⟨own, c.tox⟩ key hno]
            rfl
          · exact toxFriendAddNorequest_twice hold _
        have hsame := fun keys => @Friends.add_refused (friendsOf c.tox) core.toTerms own key
          (hrefused.imp_right (Or.imp_right mem_keys_friendsOf.mpr)) keys
        rw [hsame] at hroom ⊢
        rw [hadd]
        exact ih h hroom
      · obtain ⟨hinvalid, hno⟩ := not_or.mp hrefused
        obtain ⟨hown, hold⟩ := not_or.mp hno
        have hvalid : core.valid key := Bool.not_eq_false _ ▸ hinvalid
        obtain ⟨n, data, hreply, hn, hseen⟩ :=
          hcore.accepts ⟨own, c.tox⟩ key hvalid hown hold (room_for hvalid hown hold hroom)
        have hadd : toxFriendAddNorequest c.tox key (core.reply ⟨own, c.tox⟩ key) =
            (c.tox.append ⟨n, key, data⟩ hn hold, some n) := by
          unfold toxFriendAddNorequest
          rw [hreply]
          dsimp only
          rw [dif_pos hn, dif_pos (show key ∉ c.tox.friends.map ToxFriend.publicKey from hold)]
        have ht : (c.tox.append ⟨n, key, data⟩ hn hold).friend n = some ⟨n, key, data⟩ :=
          Tox.friend_eq_some.mpr ⟨List.mem_append_right _ List.mem_cons_self, rfl⟩
        obtain ⟨f, hf, hnum, hbin, hhex, htime⟩ := updated_entry (heap key) ht
        have hlist : (c.tox.append ⟨n, key, data⟩ hn hold).friends = c.tox.friends ++ [⟨n, key, data⟩] := rfl
        have hmore := Friends.add_accepted hvalid hown (fun hmem => hold (mem_keys_friendsOf.mp hmem))
          (fileKeys hex2bin key texts)
        rw [← hseen, ← friendsOf_append hlist] at hmore
        rw [← hmore] at hroom ⊢
        rw [hadd]
        dsimp only
        rw [hf, ok_bind]
        exact ih (h.add hlist hn hnum hbin hhex htime) hroom
    · rw [importKeys, if_neg htext]
      exact ih h hroom

/-- What is left of Tox's friends are those whose keys are left. -/
theorem mem_friendsOf_of_subset {tox tox' : Tox} (h : ∀ t ∈ tox'.friends, t ∈ tox.friends)
    {m : PublicKey × UInt64} : m ∈ friendsOf tox' ↔ m ∈ friendsOf tox ∧ m.1 ∈ tox'.keys := by
  rw [mem_friendsOf, mem_friendsOf]
  constructor
  · rintro ⟨t, ht, hkey, hseen⟩
    exact ⟨⟨t, h t ht, hkey, hseen⟩, hkey ▸ List.mem_map_of_mem ht⟩
  · rintro ⟨⟨t, ht, hkey, hseen⟩, hmem⟩
    obtain ⟨u, hu, huk⟩ := List.mem_map.mp hmem
    have htu : u = t := List.inj_on_of_nodup_map tox.keys_nodup (h u hu) ht (huk.trans hkey.symm)
    exact ⟨t, htu ▸ hu, hkey, hseen⟩

theorem removeKeys_subset (texts : List Bytes) : ∀ {c : Contacts},
    (∀ f ∈ (removeKeys c texts).friendsInfo, f ∈ c.friendsInfo) ∧
      ∀ t ∈ (removeKeys c texts).tox.friends, t ∈ c.tox.friends := by
  induction texts with
  | nil => exact ⟨fun _ h => h, fun _ h => h⟩
  | cons text texts ih =>
    intro c
    obtain ⟨hinfo, htox⟩ := @ih (removeKey c text)
    rcases removeKey_cases c text with hc | ⟨f, -, hc⟩
    · rw [hc] at hinfo htox
      rw [removeKeys, List.foldl_cons, hc]
      exact ⟨hinfo, htox⟩
    · rw [hc] at hinfo htox
      rw [removeKeys, List.foldl_cons, hc]
      exact ⟨fun g hg => List.mem_of_mem_erase (hinfo g hg), fun t ht => (mem_toxFriendDelete.mp (htox t ht)).1⟩

theorem spells_keyLine_iff {key key' : PublicKey} : Spells (keyLine key) key' ↔ key' = key := by
  constructor
  · intro h
    exact Subtype.ext (upperHex_injective (h.2.symm.trans (spells_keyLine key).2))
  · rintro rfl
    exact spells_keyLine key'

/-- **What `remove_keys` removes**, with the lines of a key file. -/
theorem removeKeys_friends {c : Contacts} (h : Tracks c) (keys : List PublicKey) :
    Tracks (removeKeys c (keys.map keyLine)) ∧
      friendsOf (removeKeys c (keys.map keyLine)).tox = {m ∈ friendsOf c.tox | m.1 ∉ {key | key ∈ keys}} := by
  obtain ⟨hr, hkeys⟩ := removeKeys_keys (keys.map keyLine) h.toReflects
  obtain ⟨hinfo, htox⟩ := @removeKeys_subset (keys.map keyLine) c
  refine ⟨⟨hr, h.dated.subset hinfo htox⟩, ?_⟩
  ext m
  rw [mem_friendsOf_of_subset htox, hkeys]
  simp only [List.forall_mem_map, spells_keyLine_iff, Set.mem_ofPred_eq]
  constructor
  · rintro ⟨hm, -, hnone⟩
    exact ⟨hm, fun hmem => hnone m.1 hmem rfl⟩
  · rintro ⟨hm, hnone⟩
    exact ⟨hm, mem_keys_friendsOf.mp (Set.mem_image_of_mem _ hm), fun key hkey heq => hnone (heq ▸ hkey)⟩

/-- Where a friend was seen by now, the test of `friend_cleanup` is the delay's. -/
theorem purges_iff {delay currentTime : UInt64} (hdelay : 0 < delay) {f : FriendInfo}
    (hseen : f.lastOnline ≤ currentTime ∨ f.lastOnline = UInt64.ofNat (2 ^ 64 - 1)) :
    purges delay currentTime f = true ↔ f.lastOnline.toNat + delay.toNat ≤ currentTime.toNat := by
  have hnow : currentTime.toNat < 2 ^ 64 := currentTime.toNat_lt
  have hexpired : purges delay currentTime f = expired delay currentTime f :=
    purges_eq_expired_iff.mpr fun hne hlt => hseen.elim (fun hle => absurd hlt (UInt64.not_lt.mpr hle)) (absurd · hne)
  rw [hexpired, expired, Bool.and_eq_true, decide_eq_true_iff, decide_eq_true_iff, and_iff_right_iff_imp]
  intro hle hmax
  rw [hmax] at hle
  have hpos : 0 < delay.toNat := hdelay
  change 2 ^ 64 - 1 + delay.toNat ≤ currentTime.toNat at hle
  omega

/-- **What `friend_cleanup` purges**, going by the times Tox has. -/
theorem friendCleanup_friends {c : Contacts} (h : Tracks c) {delay now : UInt64} (hdelay : 0 < delay)
    (hseenBy : (friendsOf c.tox).SeenBy now) :
    friendsOf (friendCleanup delay now c.tox c.friendsInfo).tox = (friendsOf c.tox).purge delay now := by
  obtain ⟨-, htox⟩ := friendCleanup_spec delay now c.friendsInfo c.tox
  have hstays (t : ToxFriend) (ht : t ∈ c.tox.friends) :
      (∀ f ∈ c.friendsInfo, purges delay now f = true → t.number ≠ f.friendNumber) ↔
        now.toNat < t.data.lastOnline.toNat + delay.toNat := by
    obtain ⟨f, hf, hn⟩ := List.mem_map.mp ((h.numbers t.number).mpr (List.mem_map_of_mem ht))
    have hseen : f.lastOnline = t.data.lastOnline := h.dated f hf t ht hn.symm
    have hpurges := @purges_iff delay now hdelay f (hseen ▸ hseenBy (t.publicKey, t.data.lastOnline) ⟨t, ht, rfl⟩)
    rw [hseen, ← not_lt] at hpurges
    constructor
    · intro hnone
      by_contra hold
      exact hnone f hf (hpurges.mpr hold) hn.symm
    · intro hstay g hg hpurge heq
      have hgf : g = f := List.inj_on_of_nodup_map h.increasing.nodup hg hf (heq.symm.trans hn.symm)
      exact hpurges.mp (hgf ▸ hpurge) hstay
  ext m
  simp only [mem_friendsOf, Friends.purge, Set.mem_ofPred_eq, htox]
  constructor
  · rintro ⟨t, ⟨ht, hnone⟩, hkey, hseen⟩
    exact ⟨⟨t, ht, hkey, hseen⟩, hseen ▸ (hstays t ht).mp hnone⟩
  · rintro ⟨⟨t, ht, hkey, hseen⟩, hstay⟩
    exact ⟨t, ⟨ht, (hstays t ht).mpr (hseen ▸ hstay)⟩, hkey, hseen⟩

/-! ### Files -/

theorem Stores.written {old new : Content} {file : Option Bytes} {data : Bytes} (hold : Stores core old file)
    (hnew : Stores core new (some data)) (io : WriteIO) : Stores core (old.written new io) (io.write file data).2 := by
  cases io with
  | fails => exact hold
  | cut n => exact .other _
  | complete => exact hnew

variable {disk : Disk} {files : Files}

theorem Stores.update (h : ∀ p, Stores core (files p) (disk p)) {file : CStr} {content : Content} {data : Option Bytes}
    (hnew : Stores core content data) : ∀ p, Stores core (Function.update files file content p)
      (Function.update disk file data p) := by
  intro p
  by_cases hp : p = file
  · subst hp
    rw [Function.update_self, Function.update_self]
    exact hnew
  · rw [Function.update_of_ne hp, Function.update_of_ne hp]
    exact h p

/-- What is stored as a profile. -/
theorem Stores.of_profile {own : PublicKey} {friends : Friends} {data : Option Bytes}
    (h : Stores core (.profile own friends) data) :
    ∃ a : Account, data = some (core.savedata a) ∧ a.publicKey = own ∧ friendsOf a.tox = friends ∧
      a.Possible core.toTerms := by
  cases h with
  | profile a possible => exact ⟨a, rfl, rfl, rfl, possible⟩

theorem exportTo_spec (h : ∀ p, Stores core (files p) (disk p)) (w : World) {c : Contacts} (hc : Reflects c)
    (exportfile : Option CStr) : ∃ disk', exportTo w c.friendsInfo disk exportfile = .ok disk' ∧
      ∀ p, Stores core (files.exported w (friendsOf c.tox).keys exportfile p) (disk' p) := by
  cases exportfile with
  | none => exact ⟨disk, rfl, h⟩
  | some file =>
    have hkeys : (friendsOf c.tox).keys = {key | key ∈ c.friendsInfo.map FriendInfo.toxIdBin} := by
      ext key
      rw [mem_keys_friendsOf, ← hc.mem_keys]
      rfl
    have hexport : exportKeys w.exporting c.friendsInfo (disk file) =
        .ok (if (w.exporting.write (disk file) []).1 then 0 else -1, (w.exporting.write (disk file)
          ((c.friendsInfo.map FriendInfo.toxIdBin).flatMap keyLine)).2) := by
      unfold exportKeys
      rw [exportText_eq hc.carries]
      cases w.exporting <;> rfl
    have hstores : Stores core (.keys (friendsOf c.tox).keys)
        (some ((c.friendsInfo.map FriendInfo.toxIdBin).flatMap keyLine)) := by
      rw [hkeys]
      exact .keys _
    refine ⟨_, ?_, Stores.update h ((h file).written hstores w.exporting)⟩
    rw [exportTo, hexport]
    rfl

/-- The lines of a key file. -/
theorem keyLines_spec (h : ∀ p, Stores core (files p) (disk p)) {opens : Bool} {file : CStr} {listed : Set PublicKey}
    (hnamed : files.named opens (some file) = some listed) :
    ∃ keys : List PublicKey, keyLines opens disk file = keys.map keyLine ∧ listed = {key | key ∈ keys} := by
  rw [show files.named opens (some file) = if opens then (files file).listed else some ∅ from rfl] at hnamed
  unfold keyLines
  have hnone : (∅ : Set PublicKey) = {key | key ∈ ([] : List PublicKey)} := by simp
  split_ifs at hnamed ⊢
  · have hfile := h file
    generalize disk file = data at hfile ⊢
    cases hcontent : files file with
    | absent =>
      rw [hcontent] at hnamed hfile
      cases hnamed
      cases hfile
      exact ⟨[], rfl, hnone⟩
    | keys listed =>
      rw [hcontent] at hnamed hfile
      cases hnamed
      cases hfile with
      | keys keys => exact ⟨keys, getlines_keyLines keys, rfl⟩
    | profile own friends =>
      rw [hcontent] at hnamed
      cases hnamed
    | other =>
      rw [hcontent] at hnamed
      cases hnamed
  · cases hnamed
    exact ⟨[], rfl, hnone⟩

theorem importFrom_spec (hhex : DecodesHex hex2bin) (hcore : core.Lawful enc)
    (h : ∀ p, Stores core (files p) (disk p)) (w : World) (own : PublicKey) {c : Contacts} (hc : Tracks c)
    {importfile : Option CStr} {added : Set PublicKey} (hnamed : files.named w.importOpens importfile = some added)
    (hroom : ((friendsOf c.tox).add core.toTerms own added).ncard ≤ core.capacity) :
    ∃ c', importFrom hex2bin core w own disk c importfile = .ok c' ∧ Tracks c' ∧
      friendsOf c'.tox = (friendsOf c.tox).add core.toTerms own added := by
  cases importfile with
  | none =>
    cases hnamed
    exact ⟨c, rfl, hc, by simp [Friends.add]⟩
  | some file =>
    obtain ⟨keys, hlines, rfl⟩ := keyLines_spec h hnamed
    have himport := @importKeys_answered hex2bin _ _ hcore own w.imported (keys.map keyLine) _ w.toxIdBin hc
    rw [fileKeys_keyLines hhex] at himport
    obtain ⟨c', himport, hc', hfriends⟩ := himport hroom
    refine ⟨c', ?_, hc', hfriends⟩
    rw [importFrom, hlines]
    exact himport

theorem removeFrom_spec (h : ∀ p, Stores core (files p) (disk p)) (w : World) {c : Contacts} (hc : Tracks c)
    {removefile : Option CStr} {removed : Set PublicKey}
    (hnamed : files.named w.removeOpens removefile = some removed) :
    Tracks (removeFrom w disk c removefile) ∧
      friendsOf (removeFrom w disk c removefile).tox = {m ∈ friendsOf c.tox | m.1 ∉ removed} := by
  cases removefile with
  | none =>
    cases hnamed
    exact ⟨hc, by simp [removeFrom]⟩
  | some file =>
    obtain ⟨keys, hlines, rfl⟩ := keyLines_spec h hnamed
    rw [removeFrom, hlines]
    exact removeKeys_friends hc keys

/-- A profile that is not encrypted is loaded as it is. -/
theorem loadProfile_clear {data : Bytes} (hclear : enc.isEncrypted data = false) (heap : ℕ → UInt8)
    (toxNew : ToxOptions → Bool) (passphrase : Option CStr) :
    loadProfile enc .complete heap toxNew (some data) passphrase = .ok (startTox toxNew ⟨data, data.length⟩) := by
  simp only [loadProfile, hclear, Bool.false_eq_true, if_false, pure_eq_ok]

theorem saved_spec (h : ∀ p, Stores core (files p) (disk p)) (o : Options) (w : World) {a : Account}
    (ha : a.Possible core.toTerms) :
    ∀ p, Stores core (files.saved o w a.publicKey (friendsOf a.tox) p)
      ((if o.saveflag then
        Function.update disk o.toxfile
          (saveProfile enc w.saving (core.savedata a) o.passphrase w.salt (disk o.toxfile)).2
      else disk) p) := by
  unfold Files.saved
  split_ifs with hsave hpass
  · exact Stores.update h (.other _)
  · refine Stores.update h ?_
    have hwrite : (saveProfile enc w.saving (core.savedata a) o.passphrase w.salt (disk o.toxfile)).2 =
        (w.saving.write (disk o.toxfile) (core.savedata a)).2 := by
      rw [Option.not_isSome_iff_eq_none.mp hpass, saveProfile_eq]
      rfl
    rw [hwrite]
    exact (h o.toxfile).written (.profile a ha) w.saving
  · exact h

theorem exchanged_subset (friends : Friends) (terms : Terms) (own : PublicKey) (added removed : Set PublicKey) :
    friends.exchanged terms own added removed ⊆ friends.add terms own added := fun _ h => h.1

theorem edited_subset (friends : Friends) (o : Options) (w : World) (terms : Terms) (own : PublicKey)
    (added removed : Set PublicKey) :
    friends.edited o w terms own added removed ⊆ friends.add terms own added := by
  unfold Friends.edited
  split_ifs
  · exact fun m hm => exchanged_subset _ _ _ _ _ hm.1
  · exact exchanged_subset _ _ _ _ _

/-- With some of the friends and of those that are added, an instance stays one that Tox can come to. -/
theorem Account.Possible.of_subset {terms : Terms} {a : Account} (ha : a.Possible terms) {added : Set PublicKey}
    (hfinite : ((friendsOf a.tox).add terms a.publicKey added).Finite)
    (hroom : ((friendsOf a.tox).add terms a.publicKey added).ncard ≤ terms.capacity) {tox : Tox}
    (hsub : friendsOf tox ⊆ (friendsOf a.tox).add terms a.publicKey added) :
    Account.Possible terms ⟨a.publicKey, tox⟩ where
  keys key hkey := by
    obtain ⟨m, hm, rfl⟩ := mem_keys_friendsOf.mpr hkey
    rcases hsub hm with hold | ⟨-, hvalid, hown, -⟩
    · exact ha.keys m.1 (mem_keys_friendsOf.mp ⟨m, hold, rfl⟩)
    · exact ⟨hvalid, hown⟩
  room := by
    rw [← ncard_friendsOf]
    exact (Set.ncard_le_ncard hsub hfinite).trans hroom

theorem Account.Possible.of_friends {terms : Terms} {a a' : Account} (ha : a.Possible terms)
    (hown : a'.publicKey = a.publicKey) (hfriends : friendsOf a'.tox = friendsOf a.tox) : a'.Possible terms where
  keys key hkey := by
    rw [← mem_keys_friendsOf, hfriends, mem_keys_friendsOf] at hkey
    exact hown ▸ ha.keys key hkey
  room := by
    rw [← ncard_friendsOf, hfriends, ncard_friendsOf]
    exact ha.room

theorem edit_spec (hhex : DecodesHex hex2bin) (hcore : core.Lawful enc) (h : ∀ p, Stores core (files p) (disk p))
    {o : Options} {w : World} {a : Account} (ha : a.Possible core.toTerms) {added removed : Set PublicKey}
    (hadded : (files.exported w (friendsOf a.tox).keys o.exportfile).named w.importOpens o.importfile = some added)
    (hremoved : (files.exported w (friendsOf a.tox).keys o.exportfile).named w.removeOpens o.removefile =
      some removed)
    (hroom : ((friendsOf a.tox).add core.toTerms a.publicKey added).ncard ≤ core.capacity)
    (hseenBy : 0 < o.purgeDelay →
      ((friendsOf a.tox).exchanged core.toTerms a.publicKey added removed).SeenBy w.currentTime) :
    ∃ disk', edit hex2bin enc core o w a disk = .ok (0, disk') ∧
      ∀ p, Stores core ((files.exported w (friendsOf a.tox).keys o.exportfile).saved o w a.publicKey
        ((friendsOf a.tox).edited o w core.toTerms a.publicKey added removed) p) (disk' p) := by
  obtain ⟨friendsInfo, hinit, hm, hkeys⟩ := friendsInfoInit_spec a.tox w.loaded
  have hc : Tracks ⟨a.tox, friendsInfo⟩ := ⟨⟨hm, hkeys⟩, friendsInfoInit_dated hinit⟩
  obtain ⟨disk₁, hexport, h₁⟩ := exportTo_spec h w hc.toReflects o.exportfile
  obtain ⟨c, himport, hc, hfriends⟩ := importFrom_spec hhex hcore h₁ w a.publicKey hc hadded hroom
  obtain ⟨hc, hremove⟩ := removeFrom_spec h₁ w hc hremoved
  unfold edit
  rw [hinit, ok_bind, hexport, ok_bind, himport, ok_bind]
  dsimp only
  rw [pure_eq_ok]
  refine ⟨_, rfl, ?_⟩
  have hedited : friendsOf (if 0 < o.purgeDelay then friendCleanup o.purgeDelay w.currentTime
      (removeFrom w disk₁ c o.removefile).tox (removeFrom w disk₁ c o.removefile).friendsInfo
        else removeFrom w disk₁ c o.removefile).tox =
      (friendsOf a.tox).edited o w core.toTerms a.publicKey added removed := by
    unfold Friends.exchanged at hseenBy
    unfold Friends.edited Friends.exchanged
    rw [← hfriends, ← hremove] at hseenBy ⊢
    split_ifs with hdelay
    · exact friendCleanup_friends hc hdelay (hseenBy hdelay)
    · rfl
  have hfinite := finite_friendsOf c.tox
  rw [hfriends] at hfinite
  have hsub := edited_subset (friendsOf a.tox) o w core.toTerms a.publicKey added removed
  rw [← hedited] at hsub ⊢
  generalize (if 0 < o.purgeDelay then friendCleanup o.purgeDelay w.currentTime
    (removeFrom w disk₁ c o.removefile).tox (removeFrom w disk₁ c o.removefile).friendsInfo
      else removeFrom w disk₁ c o.removefile) = c' at hsub ⊢
  exact saved_spec h₁ o w (ha.of_subset hfinite hroom hsub)

/-- **A call of the tool** does to the disk what `runTool` says. -/
theorem toolStep_refines (hhex : DecodesHex hex2bin) (hcore : core.Lawful enc)
    (h : ∀ p, Stores core (files p) (disk p)) {e : Options × World} {files' : Files}
    (hrun : runTool core.toTerms files e = some files') :
    ∃ disk', toolStep hex2bin enc core disk e = some disk' ∧ ∀ p, Stores core (files' p) (disk' p) := by
  obtain ⟨o, w⟩ := e
  have hfile := h o.toxfile
  unfold runTool at hrun
  dsimp only at hrun
  split at hrun
  · next own friends hcontent haccess hload =>
    rw [hcontent] at hfile
    generalize hdata : disk o.toxfile = data at hfile
    obtain - | - | ⟨a, ha⟩ := hfile
    obtain ⟨added, hadded, hrun⟩ := Option.bind_eq_some_iff.mp hrun
    obtain ⟨removed, hremoved, hrun⟩ := Option.bind_eq_some_iff.mp hrun
    split_ifs at hrun with hcond
    cases hrun
    obtain ⟨a', hnew, hown, hfriends⟩ := hcore.restores a ha
    have ha' : a'.Possible core.toTerms := ha.of_friends hown hfriends
    rw [← hfriends] at hadded hremoved
    rw [← hown, ← hfriends] at hcond ⊢
    obtain ⟨disk', hedit, hstores⟩ := edit_spec hhex hcore h ha' hadded hremoved hcond.1 hcond.2
    refine ⟨disk', ?_, hstores⟩
    have hmain : main hex2bin enc core o w disk = .ok (0, disk') := by
      rw [main, haccess, hdata, hload, loadProfile_clear (hcore.clear a)]
      simpa [startTox, hnew] using hedit
    rw [toolStep, hmain]
    rfl
  · next hcontent haccess hload =>
    cases hrun
    rw [hcontent] at hfile
    generalize hdata : disk o.toxfile = data at hfile
    obtain - | - | ⟨a, ha⟩ := hfile
    refine ⟨disk, ?_, h⟩
    have hmain : main hex2bin enc core o w disk = .ok (EXIT_FAILURE, disk) := by
      rw [main, haccess, hdata]
      cases hio : w.load with
      | noStat => rfl
      | short => rfl
      | complete => exact (hload hio).elim
    rw [toolStep, hmain]
    rfl
  · cases hrun

/-- **The tool moves friends** from file to file: any sequence of calls leaves on the disk what `runTool` says. -/
theorem tool_moves_friends (hhex : DecodesHex hex2bin) (hcore : core.Lawful enc) (es : List (Options × World)) :
    ∀ {disk : Disk} {files files' : Files}, (∀ p, Stores core (files p) (disk p)) →
      runEvents (runTool core.toTerms) files es = some files' →
        ∃ disk', runEvents (toolStep hex2bin enc core) disk es = some disk' ∧
          ∀ p, Stores core (files' p) (disk' p) := by
  induction es with
  | nil =>
    intro disk files files' h hrun
    cases hrun
    exact ⟨disk, rfl, h⟩
  | cons e es ih =>
    intro disk files files' h hrun
    obtain ⟨files₁, hcall, hrun⟩ := runEvents_cons_eq_some.mp hrun
    obtain ⟨disk₁, hstep, h₁⟩ := toolStep_refines hhex hcore h hcall
    obtain ⟨disk', hrest, h'⟩ := ih h₁ hrun
    exact ⟨disk', runEvents_cons_eq_some.mpr ⟨disk₁, hstep, hrest⟩, h'⟩

/-! ### A small Tox -/

/-- A number in `k` bytes, the low ones first. -/
def toBytes : ℕ → ℕ → Bytes
  | 0, _ => []
  | k + 1, n => UInt8.ofNat n :: toBytes k (n / 256)

/-- The number that bytes are, the low ones first. -/
def ofBytes (b : Bytes) : ℕ := b.foldr (fun x n => x.toNat + 256 * n) 0

theorem length_toBytes (k : ℕ) : ∀ n, (toBytes k n).length = k := by
  induction k with
  | zero => exact fun _ => rfl
  | succ k ih => exact fun n => congrArg (· + 1) (ih (n / 256))

theorem ofBytes_toBytes (k : ℕ) : ∀ {n : ℕ}, n < 256 ^ k → ofBytes (toBytes k n) = n := by
  induction k with
  | zero =>
    intro n h
    exact (Nat.lt_one_iff.mp h).symm
  | succ k ih =>
    intro n h
    have hrest := ih (Nat.div_lt_of_lt_mul (by rwa [pow_succ'] at h) : n / 256 < 256 ^ k)
    have hbyte : (UInt8.ofNat n).toNat = n % 256 := UInt8.toNat_ofNat' ..
    change (UInt8.ofNat n).toNat + 256 * ofBytes (toBytes k (n / 256)) = n
    rw [hrest, hbyte, Nat.mod_add_div]

/-- A friend as it is saved. -/
def friendBytes (t : ToxFriend) : Bytes :=
  toBytes 4 t.number.toNat ++ (t.publicKey.1 ++ toBytes 8 t.data.lastOnline.toNat)

/-- The friends that were saved. -/
def readFriends : ℕ → Bytes → List ToxFriend
  | 0, _ => []
  | k + 1, b =>
    if hkey : ((b.drop 4).take TOX_PUBLIC_KEY_SIZE).length = TOX_PUBLIC_KEY_SIZE then
      let rest := (b.drop 4).drop TOX_PUBLIC_KEY_SIZE
      ⟨UInt32.ofNat (ofBytes (b.take 4)), ⟨(b.drop 4).take TOX_PUBLIC_KEY_SIZE, hkey⟩,
        { unseen with lastOnline := UInt64.ofNat (ofBytes (rest.take 8)) }⟩ :: readFriends k (rest.drop 8)
    else []

/-- What is saved of a friend. -/
def restored (t : ToxFriend) : ToxFriend := { t with data := { unseen with lastOnline := t.data.lastOnline } }

theorem readFriends_friendBytes (friends : List ToxFriend) :
    readFriends friends.length (friends.flatMap friendBytes) = friends.map restored := by
  induction friends with
  | nil => rfl
  | cons t friends ih =>
    have hnumber : ofBytes (toBytes 4 t.number.toNat) = t.number.toNat := ofBytes_toBytes 4 t.number.toNat_lt
    have hseen : ofBytes (toBytes 8 t.data.lastOnline.toNat) = t.data.lastOnline.toNat :=
      ofBytes_toBytes 8 t.data.lastOnline.toNat_lt
    have htext : (t :: friends).flatMap friendBytes = toBytes 4 t.number.toNat ++
        (t.publicKey.1 ++ (toBytes 8 t.data.lastOnline.toNat ++ friends.flatMap friendBytes)) := by
      simp only [List.flatMap_cons, friendBytes, List.append_assoc]
    rw [htext, List.length_cons, readFriends]
    simp only [List.take_left' (length_toBytes 4 _), List.drop_left' (length_toBytes 4 _),
      List.take_left' t.publicKey.2, List.drop_left' t.publicKey.2, t.publicKey.2, dite_true,
      List.take_left' (length_toBytes 8 _), List.drop_left' (length_toBytes 8 _), hnumber, hseen, ih,
      UInt32.ofNat_toNat, UInt64.ofNat_toNat, List.map_cons, restored]

theorem length_flatMap_friendBytes (friends : List ToxFriend) :
    (friends.flatMap friendBytes).length = friends.length * 44 := by
  induction friends with
  | nil => rfl
  | cons t friends ih =>
    rw [List.flatMap_cons, List.length_append, ih, friendBytes, List.length_append, List.length_append,
      length_toBytes, length_toBytes, t.publicKey.2, List.length_cons, Nat.succ_mul, Nat.add_comm]
    rfl

/-- An instance is saved as four bytes `00`, its key, and its friends. The last bit of a key is never set. -/
def smallTox : Toxcore where
  new options :=
    let data := options.savedataData.drop 4
    let friends := readFriends ((data.length - TOX_PUBLIC_KEY_SIZE) / 44) (data.drop TOX_PUBLIC_KEY_SIZE)
    if hkey : (data.take TOX_PUBLIC_KEY_SIZE).length = TOX_PUBLIC_KEY_SIZE then
      if h : (friends.map ToxFriend.number).Nodup ∧ (friends.map ToxFriend.publicKey).Nodup then
        some ⟨⟨data.take TOX_PUBLIC_KEY_SIZE, hkey⟩, ⟨friends, h.1, h.2⟩⟩
      else none
    else none
  savedata a := toBytes 4 0 ++ (a.publicKey.1 ++ a.tox.friends.flatMap friendBytes)
  reply a key :=
    if 128 ≤ key.1.getD 31 0 || key = a.publicKey || a.tox.keys.contains key then none
    else ((List.range 1000).find? fun n => UInt32.ofNat n ∉ a.tox.numbers).map (UInt32.ofNat ·, unseen)
  valid key := key.1.getD 31 0 < 128
  neverSeen := 0
  capacity := 1000

theorem smallTox_new (a : Account) (n : ℕ) : ∃ a', smallTox.new ⟨smallTox.savedata a, n⟩ = some a' ∧
    a'.publicKey = a.publicKey ∧ a'.tox.friends = a.tox.friends.map restored := by
  have hcount : ((a.publicKey.1 ++ a.tox.friends.flatMap friendBytes).length - TOX_PUBLIC_KEY_SIZE) / 44 =
      a.tox.friends.length := by
    rw [List.length_append, a.publicKey.2, Nat.add_sub_cancel_left, length_flatMap_friendBytes,
      Nat.mul_div_cancel _ (by decide)]
  have hnumbers : (a.tox.friends.map restored).map ToxFriend.number = a.tox.friends.map ToxFriend.number := by
    simp [Function.comp_def, restored]
  have hkeys : (a.tox.friends.map restored).map ToxFriend.publicKey = a.tox.friends.map ToxFriend.publicKey := by
    simp [Function.comp_def, restored]
  have hnodup : ((a.tox.friends.map restored).map ToxFriend.number).Nodup ∧
      ((a.tox.friends.map restored).map ToxFriend.publicKey).Nodup :=
    ⟨hnumbers ▸ a.tox.numbers_nodup, hkeys ▸ a.tox.keys_nodup⟩
  refine ⟨⟨a.publicKey, ⟨_, hnodup.1, hnodup.2⟩⟩, ?_, rfl, rfl⟩
  simp only [smallTox, List.drop_left' (length_toBytes 4 0), List.take_left' a.publicKey.2,
    List.drop_left' a.publicKey.2, a.publicKey.2, dite_true, hcount, readFriends_friendBytes, hnodup, and_self]

theorem smallTox_lawful : smallTox.Lawful plain where
  clear a := rfl
  restores a _ := by
    obtain ⟨a', hnew, hown, hfriends⟩ := smallTox_new a (smallTox.savedata a).length
    refine ⟨a', hnew, hown, ?_⟩
    ext m
    simp [friendsOf, hfriends, restored]
  refuses a key hno := by
    have hrefuses : (decide (128 ≤ key.1.getD 31 0) || key = a.publicKey || a.tox.keys.contains key) = true := by
      rcases hno with hinvalid | hown
      · have hle : 128 ≤ key.1.getD 31 0 := UInt8.not_lt.mp (of_decide_eq_false hinvalid)
        rw [decide_eq_true hle, Bool.true_or, Bool.true_or]
      · simp [hown]
    simp only [smallTox, hrefuses, if_true]
  accepts a key hvalid hown hnew hroom := by
    have hfree : ∃ n ∈ List.range 1000, UInt32.ofNat n ∉ a.tox.numbers := by
      by_contra hnone
      push Not at hnone
      have hnodup : ((List.range 1000).map UInt32.ofNat).Nodup := by
        refine List.nodup_range.map_on fun n hn m hm h => ?_
        rw [List.mem_range] at hn hm
        have := congrArg UInt32.toNat h
        simp only [UInt32.toNat_ofNat'] at this
        omega
      have hle := (hnodup.subperm (List.forall_mem_map.mpr hnone)).length_le
      simp only [List.length_map, List.length_range, Tox.numbers] at hle
      exact absurd hroom (not_lt.mpr hle)
    obtain ⟨n, hn⟩ : ∃ n, (List.range 1000).find? (fun n => UInt32.ofNat n ∉ a.tox.numbers) = some n :=
      Option.isSome_iff_exists.mp (List.find?_isSome.mpr (by simpa using hfree))
    refine ⟨UInt32.ofNat n, unseen, ?_, by simpa using List.find?_some hn, rfl⟩
    have hlt : ¬ 128 ≤ key.1.getD 31 0 := UInt8.not_le.mpr (of_decide_eq_true hvalid)
    have hrefuses : (decide (128 ≤ key.1.getD 31 0) || key = a.publicKey || a.tox.keys.contains key) = false := by
      rw [decide_eq_false hlt, Bool.false_or]
      simp [hown, hnew]
    simp only [smallTox, hrefuses, Bool.false_eq_true, if_false, hn, Option.map_some]

/-- A call in which everything succeeds, with these files, and a purge at this time. -/
def call (toxfile : String) (exportfile importfile : Option String) (purgeDelay currentTime : UInt64) :
    Options × World :=
  (⟨.ofBytes (ascii toxfile), none, exportfile.map (.ofBytes ∘ ascii), importfile.map (.ofBytes ∘ ascii), none,
      purgeDelay⟩,
    ⟨true, .complete, .complete, true, true, .complete, currentTime, [], fun _ => 0, someKey 0, fun _ => zeroEntry,
      fun _ => zeroEntry⟩)

/-- The profile of key 8, whose friends have the keys 1 and 2, and that of key 9, who has none. -/
def twoProfiles : Disk :=
  Function.update
    (Function.update (fun _ => none) (.ofBytes (ascii "a")) (some (smallTox.savedata ⟨someKey 8, twoFriends⟩)))
    (.ofBytes (ascii "b")) (some (smallTox.savedata ⟨someKey 9, .empty⟩))

/-- The friends of one go to the other, by way of a key file; and the one that was not seen for long is purged. -/
theorem tool_moves_friends_two : ∃ disk' a b,
    runEvents (toolStep hexInto plain smallTox) twoProfiles
        [call "a" (some "k") none 0 0, call "b" none (some "k") 0 0, call "a" none none 50 100] = some disk' ∧
      disk' (.ofBytes (ascii "a")) = some (smallTox.savedata a) ∧
      (a.publicKey = someKey 8 ∧ friendsOf a.tox = {(someKey 2, 90)}) ∧
      disk' (.ofBytes (ascii "b")) = some (smallTox.savedata b) ∧
      b.publicKey = someKey 9 ∧ friendsOf b.tox = {(someKey 1, 0), (someKey 2, 0)} := by
  let files : Files := Function.update (Function.update (fun _ => .absent) (.ofBytes (ascii "a"))
    (.profile (someKey 8) (friendsOf twoFriends))) (.ofBytes (ascii "b")) (.profile (someKey 9) (friendsOf .empty))
  have htwoPossible : Account.Possible smallTox.toTerms ⟨someKey 8, twoFriends⟩ := ⟨by decide, by decide⟩
  have hnonePossible : Account.Possible smallTox.toTerms ⟨someKey 9, .empty⟩ := ⟨by decide, by decide⟩
  have hstores : ∀ p, Stores smallTox (files p) (twoProfiles p) :=
    Stores.update (Stores.update (fun _ => .absent) (.profile ⟨someKey 8, twoFriends⟩ htwoPossible))
      (.profile ⟨someKey 9, .empty⟩ hnonePossible)
  have htwo : friendsOf twoFriends = {(someKey 1, 10), (someKey 2, 90)} := by
    ext m
    simp [friendsOf, twoFriends, eq_comm]
  have hnone : friendsOf .empty = ∅ := by
    ext m
    simp [friendsOf, Tox.empty]
  have hkeys : (friendsOf twoFriends).keys = {someKey 1, someKey 2} := by
    rw [htwo, Friends.keys, Set.image_pair]
  have hsame : (friendsOf twoFriends).add smallTox.toTerms (someKey 8) ∅ = friendsOf twoFriends := by
    simp [Friends.add]
  have hadded : (friendsOf .empty).add smallTox.toTerms (someKey 9) (friendsOf twoFriends).keys =
      {(someKey 1, 0), (someKey 2, 0)} := by
    ext m
    have hvalid₁ : smallTox.valid (someKey 1) = true ∧ someKey 1 ≠ someKey 9 := by decide
    have hvalid₂ : smallTox.valid (someKey 2) = true ∧ someKey 2 ≠ someKey 9 := by decide
    rw [hnone, hkeys]
    simp only [Friends.add, Friends.keys, Set.image_empty, Set.mem_union, Set.mem_empty_iff_false, false_or,
      Set.mem_ofPred_eq, Set.mem_insert_iff, Set.mem_singleton_iff, not_false_eq_true, true_and, Prod.ext_iff]
    constructor
    · rintro ⟨hkey | hkey, -, -, hseen⟩
      · exact .inl ⟨hkey, hseen⟩
      · exact .inr ⟨hkey, hseen⟩
    · rintro (⟨hkey, hseen⟩ | ⟨hkey, hseen⟩)
      · exact ⟨.inl hkey, hkey ▸ hvalid₁.1, hkey ▸ hvalid₁.2, hseen⟩
      · exact ⟨.inr hkey, hkey ▸ hvalid₂.1, hkey ▸ hvalid₂.2, hseen⟩
  have hexchanged (friends : Friends) (own : PublicKey) (added : Set PublicKey) :
      friends.exchanged smallTox.toTerms own added ∅ = friends.add smallTox.toTerms own added := by
    simp [Friends.exchanged]
  have hpurged : (friendsOf twoFriends).purge 50 100 = {(someKey 2, 90)} := by
    rw [htwo]
    ext m
    simp only [Friends.purge, Set.mem_ofPred_eq, Set.mem_insert_iff, Set.mem_singleton_iff]
    constructor
    · rintro ⟨rfl | rfl, hlt⟩
      · exact absurd hlt (by decide)
      · rfl
    · rintro rfl
      exact ⟨.inr rfl, by decide⟩
  have hseenBy : ((friendsOf twoFriends).exchanged smallTox.toTerms (someKey 8) ∅ ∅).SeenBy 100 := by
    rw [hexchanged, hsame, htwo]
    rintro m (rfl | rfl)
    · exact .inl (by decide)
    · exact .inl (by decide)
  have hroom : ((friendsOf twoFriends).add smallTox.toTerms (someKey 8) ∅).ncard ≤ 1000 := by
    rw [hsame, ncard_friendsOf]
    decide
  have hroom' : ((friendsOf .empty).add smallTox.toTerms (someKey 9) (friendsOf twoFriends).keys).ncard ≤ 1000 := by
    rw [hadded]
    exact (Set.ncard_insert_le _ _).trans (by rw [Set.ncard_singleton]; decide)
  have hrun : ∃ files', runEvents (runTool smallTox.toTerms) files
        [call "a" (some "k") none 0 0, call "b" none (some "k") 0 0, call "a" none none 50 100] = some files' ∧
      files' (.ofBytes (ascii "a")) = .profile (someKey 8) {(someKey 2, 90)} ∧
      files' (.ofBytes (ascii "b")) = .profile (someKey 9) {(someKey 1, 0), (someKey 2, 0)} := by
    refine ⟨_, runEvents_cons_eq_some.mpr ⟨_, if_pos ⟨hroom, fun h => absurd h (by decide)⟩,
      runEvents_cons_eq_some.mpr ⟨_, if_pos ⟨hroom', fun h => absurd h (by decide)⟩,
        runEvents_cons_eq_some.mpr ⟨_, if_pos ⟨hroom, fun _ => hseenBy⟩, rfl⟩⟩⟩, ?_, ?_⟩
    · refine (show _ = Content.profile (someKey 8) (((friendsOf twoFriends).exchanged smallTox.toTerms (someKey 8) ∅
        ∅).purge 50 100) from rfl).trans ?_
      rw [hexchanged, hsame, hpurged]
    · refine (show _ = Content.profile (someKey 9) ((friendsOf .empty).exchanged smallTox.toTerms (someKey 9)
        (friendsOf twoFriends).keys ∅) from rfl).trans ?_
      rw [hexchanged, hadded]
  obtain ⟨files', hrun, ha, hb⟩ := hrun
  obtain ⟨disk', hcalls, h'⟩ := tool_moves_friends (fun _ _ => rfl) smallTox_lawful _ hstores hrun
  obtain ⟨a, hdata, hown, hfriends, -⟩ := (ha ▸ h' (.ofBytes (ascii "a"))).of_profile
  obtain ⟨b, hdata', hown', hfriends', -⟩ := (hb ▸ h' (.ofBytes (ascii "b"))).of_profile
  exact ⟨disk', a, b, hcalls, hdata, ⟨hown, hfriends⟩, hdata', hown', hfriends'⟩

end ToxSuite.Toxdatatool
