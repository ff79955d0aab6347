import ToxSuite.Lib.LastWrite
import ToxSuite.File.Savefile
import ToxSuite.File.Shared

/-!
# What the loaders take for granted

`load_senders`, `load_shrlist` and `decode_FileNode` go through a tree by the keys
they find in it. A tree that was read from a disk may hold any node under any key.

`loaders_respect_iff` says for which trees the loaders stay within the types, skip
the records that do not have the expected shape and set every field: a list whose
records all have it, for `load_shrlist`; for `load_senders`, also a record that is
given up at the key of a stranger before anything else is wrong with it, and an end
of the list that would have made no entry anyway, where an element that is no
dictionary makes the loop stop.
-/

namespace ToxSuite.File

open ToxSuite.Lib ToxSuite.Bencode ToxSuite.Friend

/-! ### The expected shapes -/

/-- A string node with bytes. -/
def isStr : BeNode → Bool
  | .str (some _) => true
  | _ => false

/-- An integer node. -/
def isInt : BeNode → Bool
  | .int _ => true
  | _ => false

/-- A string node that holds a key or a hash. -/
def holds32 : BeNode → Bool
  | .str (some s) => decide (TOX_FILE_ID_LENGTH ≤ s.length)
  | _ => false

/-- The entries of a dictionary. -/
def entries : BeNode → List (Bytes × BeNode)
  | .dict d => d
  | _ => []

/-- The elements of a list. -/
def elements : BeNode → List BeNode
  | .list l => l
  | _ => []

/-- A dictionary has an entry under a key. -/
def hasKey (key : String) (d : List (Bytes × BeNode)) : Bool := d.any fun e => cstr e.1 == ascii key

/-- The entry of a file's dictionary is of the type its key stands for. -/
def fieldTyped (e : Bytes × BeNode) : Bool :=
  if cstr e.1 = ascii "name" then isStr e.2
  else if cstr e.1 = ascii "length" then isInt e.2
  else if cstr e.1 = ascii "hash" then holds32 e.2
  else true

/-- A dictionary whose entries are of the types a file's have. -/
def fileTyped : BeNode → Bool
  | .dict d => d.all fieldTyped
  | _ => false

/-- The expected shape of a file: its dictionary has everything. -/
def fileShaped (n : BeNode) : Bool :=
  fileTyped n && ["name", "length", "hash"].all fun key => hasKey key (entries n)

/-- The entry of a transfer's dictionary is of the type its key stands for. -/
def entryTyped (e : Bytes × BeNode) : Bool :=
  if cstr e.1 = ascii "toxid" then holds32 e.2
  else if cstr e.1 = ascii "path" then isStr e.2
  else if cstr e.1 = ascii "info" then fileTyped e.2
  else true

/-- The files of a transfer's dictionary are complete. -/
def infoShaped (d : List (Bytes × BeNode)) : Bool :=
  d.all fun e => cstr e.1 != ascii "info" || fileShaped e.2

/-- The expected shape of a transfer: its dictionary has everything. -/
def recordShaped : BeNode → Bool
  | .dict d => d.all entryTyped && infoShaped d && ["toxid", "path", "info"].all fun key => hasKey key d
  | _ => false

/-! ### Staying within the types -/

/-- The nodes `decode_FileNode` copies a hash from. -/
def decodeCopies (info : BeNode) : List BeNode :=
  ((entries info).filter fun e => cstr e.1 = ascii "hash").map Prod.snd

/-- The nodes `load_senders` takes 32 bytes of while it goes through the entries of a record:
the keys it compares with a friend's, and the hashes. -/
def senderCopies (friendsInfo : List FriendInfo) : List (Bytes × BeNode) → List BeNode
  | [] => []
  | (key, val) :: d =>
    if cstr key = ascii "toxid" then
      (if friendsInfo.isEmpty then [] else [val]) ++
        match lookupToxid friendsInfo val with
        | .ok (some _) => senderCopies friendsInfo d
        | _ => []
    else if cstr key = ascii "path" then senderCopies friendsInfo d
    else if cstr key = ascii "info" then decodeCopies val ++ senderCopies friendsInfo d
    else senderCopies friendsInfo d

/-- The nodes `load_senders` takes 32 bytes of while it goes through the records. -/
def sendersCopies (friendsInfo : List FriendInfo) : List BeNode → List BeNode
  | .dict d :: l => senderCopies friendsInfo d ++ sendersCopies friendsInfo l
  | _ => []

/-- An entry, but for where it was allocated. -/
def FileSender.contents (f : FileSender) : FileSender := { f with addr := 0 }

/-- An entry with the fields that a transfer needs. -/
def FileSender.Filled (f : FileSender) : Prop :=
  f.pathname.isSome ∧ f.info.file.isSome ∧ f.info.blake2b.isSome

/-- The queue a loop over the records comes to. -/
def queueContents (r : Except Fault (List FileSender × ℕ)) : Except Fault (List FileSender) :=
  r.map fun q => q.1.map FileSender.contents

/-- **`load_senders` respects the types**: it gets through the tree without a fault, takes 32
bytes only of strings that hold them, the queue is after every record as if only the records of
the expected shape had been there so far, and the entries it adds are complete. -/
structure RespectsSenders (fileQueue : List FileSender) (friendsInfo : List FriendInfo) (addr : ℕ)
    (file : Option Bytes) (root : BeNode) : Prop where
  loads : ∃ ret made addr', loadSenders fileQueue friendsInfo addr file = .ok (ret, made ++ fileQueue, addr') ∧
    ∀ f ∈ made, f.Filled
  copies : ∀ n ∈ sendersCopies friendsInfo (elements root), holds32 n = true
  skips : ∀ k, queueContents (loadSendersLoop friendsInfo fileQueue addr ((elements root).take k)) =
    queueContents (loadSendersLoop friendsInfo fileQueue addr (((elements root).take k).filter recordShaped))

/-- What `decode_FileNode` may set of a `FileNode`. -/
def FileNode.known (fn : FileNode) : Option CStr × Int64 × Option FileId := (fn.file, fn.length, fn.blake2b)

/-- **`load_shrlist` respects the types**: it gets through the tree without a fault, copies hashes
only of strings that hold them, its array is as if only the files of the expected shape had been
there, and nothing in it depends on what an allocation held before. -/
structure RespectsShrlist (heap : ℕ → FileNode) (shared : SharedList) (shrList : List FileNode)
    (file : Option Bytes) (root : BeNode) : Prop where
  loads : ∃ r, loadShrlist heap shared file = .ok r
  copies : ∀ n ∈ (elements root).flatMap decodeCopies, holds32 n = true
  skips : loadShrlistLoop heap shrList (elements root) =
    loadShrlistLoop heap shrList ((elements root).filter fileShaped)
  sets : ∀ heap', (loadShrlistLoop heap' shrList (elements root)).map (List.map FileNode.known) =
    (loadShrlistLoop heap shrList (elements root)).map (List.map FileNode.known)

/-! ### The condition -/

/-- An entry at which `load_senders` gives a record up: the key of a stranger. Where there are no
friends, the string is not looked at. -/
def stranger (friendsInfo : List FriendInfo) (e : Bytes × BeNode) : Bool :=
  cstr e.1 == ascii "toxid" && match e.2 with
  | .str none => friendsInfo.isEmpty
  | .str (some s) => friendsInfo.all fun fr =>
      decide (TOX_FILE_ID_LENGTH ≤ s.length) && fr.toxIdBin.1 != s.take TOX_FILE_ID_LENGTH
  | _ => false

/-- What is read of a record is of the types its keys stand for. -/
def recordReads (friendsInfo : List FriendInfo) : List (Bytes × BeNode) → Bool
  | [] => true
  | e :: d => stranger friendsInfo e || (entryTyped e && recordReads friendsInfo d)

/-- The records `load_senders` handles as it should. -/
def recordsFit (friendsInfo : List FriendInfo) : List BeNode → Bool
  | [] => true
  | .dict d :: l => recordReads friendsInfo d && (d.any (stranger friendsInfo) || recordShaped (.dict d)) &&
      recordsFit friendsInfo l
  -- the loop stops here
  | _ :: l => l.all fun n => !recordShaped n || (entries n).any (stranger friendsInfo)

/-! ### A file's dictionary -/

theorem isStr_iff {n : BeNode} : isStr n = true ↔ ∃ s, n = .str (some s) := by
  cases n with
  | str s => cases s <;> simp [isStr]
  | _ => simp [isStr]

theorem isInt_iff {n : BeNode} : isInt n = true ↔ ∃ i, n = .int i := by
  cases n <;> simp [isInt]

theorem holds32_iff {n : BeNode} : holds32 n = true ↔ ∃ s, n = .str (some s) ∧ TOX_FILE_ID_LENGTH ≤ s.length := by
  cases n with
  | str s => cases s <;> simp [holds32]
  | _ => simp [holds32]

/-- A field that is typed can be read, and a hash that is copied is held. -/
theorem fieldTyped_iff (e : Bytes × BeNode) :
    fieldTyped e = true ↔ FieldShaped e.1 e.2 ∧ (cstr e.1 = ascii "hash" → holds32 e.2 = true) := by
  unfold fieldTyped
  split_ifs with hname hlength hhash
  · rw [fieldShaped_name hname, isStr_iff]
    simp [hname, name_ne_hash]
  · rw [fieldShaped_length hlength, isInt_iff]
    simp [hlength, length_ne_hash]
  · rw [fieldShaped_hash hhash]
    constructor
    · intro h
      obtain ⟨s, hs, hlen⟩ := holds32_iff.mp h
      exact ⟨⟨s, hs, by omega⟩, fun _ => h⟩
    · rintro ⟨-, h⟩
      exact h hhash
  · simp [fieldShaped_other hname hlength hhash, hhash]

theorem fileTyped_iff {n : BeNode} :
    fileTyped n = true ↔ NodeShaped n ∧ ∀ m ∈ decodeCopies n, holds32 m = true := by
  cases n with
  | dict d =>
    have hcopies : (∀ m ∈ decodeCopies (.dict d), holds32 m = true) ↔
        ∀ e ∈ d, cstr e.1 = ascii "hash" → holds32 e.2 = true := by
      simp only [decodeCopies, entries, List.mem_map, List.mem_filter, decide_eq_true_eq]
      constructor
      · intro h e he hkey
        exact h e.2 ⟨e, ⟨he, hkey⟩, rfl⟩
      · rintro h m ⟨e, ⟨he, hkey⟩, rfl⟩
        exact h e he hkey
    have hnode : NodeShaped (.dict d) ↔ ∀ e ∈ d, FieldShaped e.1 e.2 := by simp [NodeShaped]
    rw [hcopies, hnode, fileTyped, List.all_eq_true]
    simp only [fieldTyped_iff]
    exact forall₂_and
  | _ => simp [fileTyped, NodeShaped]

/-- `decode_FileNode` gets through what is typed, and copies only what is held. -/
theorem decodeFileNode_reads (f : FileNode) (n : BeNode) :
    ((∃ f', decodeFileNode f n = .ok f') ∧ ∀ m ∈ decodeCopies n, holds32 m = true) ↔ fileTyped n = true := by
  rw [decodeFileNode_isOk, fileTyped_iff]

/-- What is copied of a string that holds 32 bytes. -/
theorem copy32_held {s : Bytes} {v : Vec 32} (hlen : TOX_FILE_ID_LENGTH ≤ s.length) (h : copy32 s = .ok v) :
    v.1 = s.take TOX_FILE_ID_LENGTH := by
  unfold copy32 at h
  split_ifs at h
  cases h
  exact List.take_append_of_le_length hlen

/-- A `FileNode` with what a dictionary has of it. -/
def FileNode.overlay (f : FileNode) (name : Option CStr) (length : Option Int64) (hash : Option FileId) :
    FileNode :=
  { f with file := name <|> f.file, length := length.getD f.length, blake2b := hash <|> f.blake2b }

/-- What `strdup` makes of a string node. -/
def readStr : BeNode → Option CStr
  | .str (some s) => some (.ofBytes s)
  | _ => none

/-- What is read of an integer node. -/
def readInt : BeNode → Option Int64
  | .int i => some i
  | _ => none

/-- What is copied of a string node that holds a hash. -/
def readHash : BeNode → Option FileId
  | .str (some s) => (copy32 s).toOption
  | _ => none

/-- What an entry of a dictionary writes under a key. -/
def under {α : Type} (key : String) (read : BeNode → Option α) (e : Bytes × BeNode) : Option α :=
  if cstr e.1 = ascii key then read e.2 else none

/-- What `decode_FileNode` reads of a dictionary under a key. -/
def readField {α : Type} (key : String) (read : BeNode → Option α) (info : BeNode) : Option α :=
  lastWrite (under key read) (entries info)

section

variable {α : Type} {key : String} {read : BeNode → Option α} {k : Bytes} {val : BeNode}

theorem under_pos (h : cstr k = ascii key) : under key read (k, val) = read val := by
  rw [under, if_pos h]

theorem under_neg (h : cstr k ≠ ascii key) : under key read (k, val) = none := by
  rw [under, if_neg h]

end

/-- **What `decode_FileNode` makes of a dictionary**: what was written last under each key. -/
theorem decodeFileNodeLoop_typed {d : List (Bytes × BeNode)} : ∀ (g : FileNode), d.all fieldTyped = true →
    decodeFileNodeLoop g d = .ok (g.overlay (lastWrite (under "name" readStr) d)
      (lastWrite (under "length" readInt) d) (lastWrite (under "hash" readHash) d)) := by
  induction d with
  | nil => intro g _; rfl
  | cons e d ih =>
    intro g h
    obtain ⟨key, val⟩ := e
    rw [List.all_cons, Bool.and_eq_true, fieldTyped] at h
    obtain ⟨he, hd⟩ := h
    simp only [lastWrite_cons]
    unfold decodeFileNodeLoop
    dsimp only at he
    split_ifs at he with hname hlength hhash
    · obtain ⟨s, rfl⟩ := isStr_iff.mp he
      rw [if_pos hname, strVal, pure_eq_ok, ok_bind, ih _ hd, under_pos hname,
        under_neg (hname ▸ name_ne_length), under_neg (hname ▸ name_ne_hash)]
      cases lastWrite (under "name" readStr) d <;> simp [FileNode.overlay, readStr]
    · obtain ⟨i, rfl⟩ := isInt_iff.mp he
      rw [if_neg hname, if_pos hlength, under_neg hname, under_pos hlength,
        under_neg (hlength ▸ length_ne_hash)]
      apply (ih _ hd).trans
      cases lastWrite (under "length" readInt) d <;> simp [FileNode.overlay, readInt]
    · obtain ⟨s, rfl, hlen⟩ := holds32_iff.mp he
      obtain ⟨v, hv⟩ := copy32_isOk.mpr (Nat.le_succ_of_le hlen)
      rw [if_neg hname, if_neg hlength, if_pos hhash, strVal, pure_eq_ok, ok_bind, hv, ok_bind, ih _ hd,
        under_neg hname, under_neg hlength, under_pos hhash]
      cases lastWrite (under "hash" readHash) d <;> simp [FileNode.overlay, readHash, hv, Except.toOption]
    · rw [if_neg hname, if_neg hlength, if_neg hhash, ih _ hd, under_neg hname, under_neg hlength,
        under_neg hhash]
      simp

theorem hasKey_iff {key : String} {d : List (Bytes × BeNode)} :
    hasKey key d = true ↔ ∃ e ∈ d, cstr e.1 = ascii key := by
  simp [hasKey]

theorem hasKey_cons (key : String) (e : Bytes × BeNode) (d : List (Bytes × BeNode)) :
    hasKey key (e :: d) = true ↔ cstr e.1 = ascii key ∨ hasKey key d = true := by
  simp [hasKey]

/-- What stands under a key and can be read is written. -/
theorem lastWrite_under_isSome {α : Type} {key : String} {read : BeNode → Option α} {d : List (Bytes × BeNode)}
    (hkey : hasKey key d = true) (hread : ∀ e ∈ d, cstr e.1 = ascii key → (read e.2).isSome) :
    (lastWrite (under key read) d).isSome := by
  obtain ⟨e, he, hk⟩ := hasKey_iff.mp hkey
  exact lastWrite_isSome.mpr ⟨e, he, by rw [under, if_pos hk]; exact hread e he hk⟩

theorem readStr_isSome {n : BeNode} (h : isStr n = true) : (readStr n).isSome := by
  obtain ⟨s, rfl⟩ := isStr_iff.mp h
  rfl

theorem readInt_isSome {n : BeNode} (h : isInt n = true) : (readInt n).isSome := by
  obtain ⟨i, rfl⟩ := isInt_iff.mp h
  rfl

theorem readHash_isSome {n : BeNode} (h : holds32 n = true) : (readHash n).isSome := by
  obtain ⟨s, rfl, hlen⟩ := holds32_iff.mp h
  obtain ⟨v, hv⟩ := copy32_isOk.mpr (Nat.le_succ_of_le hlen)
  simp [readHash, hv, Except.toOption]

/-- A file of the expected shape sets all that is known of it. -/
theorem decodeFileNode_shaped {n : BeNode} (hn : fileShaped n = true) : ∃ name length hash, ∀ f : FileNode,
    decodeFileNode f n = .ok { f with file := some name, length := length, blake2b := some hash } := by
  obtain ⟨htyped, hkeys⟩ := Bool.and_eq_true_iff.mp hn
  cases n with
  | dict d =>
    have hall : ∀ e ∈ d, fieldTyped e = true := List.all_eq_true.mp htyped
    simp only [List.all_cons, List.all_nil, Bool.and_true, Bool.and_eq_true, entries] at hkeys
    have hname : (lastWrite (under "name" readStr) d).isSome := lastWrite_under_isSome hkeys.1 fun e he hk => by
      have h := hall e he
      rw [fieldTyped, if_pos hk] at h
      exact readStr_isSome h
    have hlength : (lastWrite (under "length" readInt) d).isSome :=
      lastWrite_under_isSome hkeys.2.1 fun e he hk => by
        have h := hall e he
        rw [fieldTyped, if_neg (hk ▸ name_ne_length.symm), if_pos hk] at h
        exact readInt_isSome h
    have hhash : (lastWrite (under "hash" readHash) d).isSome :=
      lastWrite_under_isSome hkeys.2.2 fun e he hk => by
        have h := hall e he
        rw [fieldTyped, if_neg (hk ▸ name_ne_hash.symm), if_neg (hk ▸ length_ne_hash.symm), if_pos hk] at h
        exact readHash_isSome h
    obtain ⟨name, hname⟩ := Option.isSome_iff_exists.mp hname
    obtain ⟨length, hlength⟩ := Option.isSome_iff_exists.mp hlength
    obtain ⟨hash, hhash⟩ := Option.isSome_iff_exists.mp hhash
    refine ⟨name, length, hash, fun f => ?_⟩
    rw [decodeFileNode, decodeFileNodeLoop_typed f htyped, hname, hlength, hhash]
    rfl
  | _ => cases htyped

/-! ### A record -/

/-- The key of a stranger ends the record, and is not looked at too far. -/
theorem lookupToxid_stranger {friendsInfo : List FriendInfo} {e : Bytes × BeNode}
    (h : stranger friendsInfo e = true) : cstr e.1 = ascii "toxid" ∧ lookupToxid friendsInfo e.2 = .ok none ∧
      ∀ n ∈ (if friendsInfo.isEmpty then [] else [e.2]), holds32 n = true := by
  obtain ⟨key, val⟩ := e
  simp only [stranger, Bool.and_eq_true, beq_iff_eq] at h
  obtain ⟨hkey, h⟩ := h
  refine ⟨hkey, ?_⟩
  cases val with
  | str s =>
    cases s with
    | none =>
      rw [List.isEmpty_iff] at h
      subst h
      simp [lookupToxid]
    | some s =>
      cases friendsInfo with
      | nil => simp [lookupToxid]
      | cons fr fs =>
        simp only [List.all_eq_true, Bool.and_eq_true, decide_eq_true_eq, bne_iff_ne] at h
        have hlen := (h fr List.mem_cons_self).1
        obtain ⟨v, hv⟩ := copy32_isOk.mpr (Nat.le_succ_of_le hlen)
        have hval : v.1 = s.take TOX_FILE_ID_LENGTH := copy32_held hlen hv
        have hnone : friendInfoByPublicKeybin (fr :: fs) v = none := by
          refine List.find?_eq_none.mpr fun g hg hsame => (h g hg).2 ?_
          rw [of_decide_eq_true hsame, hval]
        simp [lookupToxid, hv, hnone, holds32_iff, hlen]
  | _ => cases h

/-- Another key is found, if it is one. -/
theorem lookupToxid_friend {friendsInfo : List FriendInfo} {e : Bytes × BeNode}
    (hkey : cstr e.1 = ascii "toxid") (h : stranger friendsInfo e = false) (hheld : holds32 e.2 = true) :
    ∃ fr, lookupToxid friendsInfo e.2 = .ok (some fr) := by
  obtain ⟨key, val⟩ := e
  obtain ⟨s, hs, hlen⟩ := holds32_iff.mp hheld
  dsimp only at hs
  subst hs
  cases friendsInfo with
  | nil => simp [stranger, hkey] at h
  | cons fr fs =>
    obtain ⟨v, hv⟩ := copy32_isOk.mpr (Nat.le_succ_of_le hlen)
    have hval : v.1 = s.take TOX_FILE_ID_LENGTH := copy32_held hlen hv
    have hsome : (friendInfoByPublicKeybin (fr :: fs) v).isSome := by
      simp only [stranger, hkey, beq_self_eq_true, Bool.true_and, List.all_eq_false, Bool.and_eq_true,
        decide_eq_true_eq, bne_iff_ne, hlen, true_and, not_not] at h
      obtain ⟨g, hg, hsame⟩ := h
      exact List.find?_isSome.mpr ⟨g, hg, decide_eq_true (Subtype.ext (hsame.trans hval.symm))⟩
    obtain ⟨g, hg⟩ := Option.isSome_iff_exists.mp hsome
    exact ⟨g, by simp [lookupToxid, hv, hg]⟩

/-- Another key that is no key is a fault, or looked at too far. -/
theorem holds32_of_lookupToxid {friendsInfo : List FriendInfo} {e : Bytes × BeNode} {r : Option FriendInfo}
    (hkey : cstr e.1 = ascii "toxid") (h : stranger friendsInfo e = false)
    (hr : lookupToxid friendsInfo e.2 = .ok r)
    (hcopies : ∀ n ∈ (if friendsInfo.isEmpty then [] else [e.2]), holds32 n = true) : holds32 e.2 = true := by
  obtain ⟨key, val⟩ := e
  cases friendsInfo with
  | nil =>
    cases val with
    | str s => cases s <;> simp [stranger, hkey] at h
    | _ => cases hr
  | cons fr fs => simpa using hcopies

/-- The loop of `load_senders` reads one entry of a record and goes on, or gives the record up. -/
theorem loadSender_cons {friendsInfo : List FriendInfo} {f : FileSender} {r : Option FileSender} {key : Bytes}
    {val : BeNode} {d : List (Bytes × BeNode)} (h : loadSender friendsInfo f ((key, val) :: d) = .ok r) :
    (cstr key = ascii "toxid" ∧ lookupToxid friendsInfo val = .ok none ∧ r = none) ∨
    (∃ fr, cstr key = ascii "toxid" ∧ lookupToxid friendsInfo val = .ok (some fr) ∧
      loadSender friendsInfo { f with friendNumber := fr.friendNumber } d = .ok r) ∨
    (∃ s, cstr key = ascii "path" ∧ val = .str (some s) ∧
      loadSender friendsInfo { f with pathname := some (.ofBytes s) } d = .ok r) ∨
    (∃ info, cstr key = ascii "info" ∧ decodeFileNode f.info val = .ok info ∧
      loadSender friendsInfo { f with info } d = .ok r) ∨
    (cstr key ≠ ascii "toxid" ∧ cstr key ≠ ascii "path" ∧ cstr key ≠ ascii "info" ∧
      loadSender friendsInfo f d = .ok r) := by
  rw [loadSender] at h
  split_ifs at h with htoxid hpath hinfo
  · obtain ⟨fr, hfr, h⟩ := bind_eq_ok.mp h
    cases fr with
    | none =>
      cases h
      exact .inl ⟨htoxid, hfr, rfl⟩
    | some fr => exact .inr (.inl ⟨fr, htoxid, hfr, h⟩)
  · obtain ⟨s, hs, h⟩ := bind_eq_ok.mp h
    exact .inr (.inr (.inl ⟨s, hpath, strVal_eq_ok.mp hs, h⟩))
  · obtain ⟨info, hdecode, h⟩ := bind_eq_ok.mp h
    exact .inr (.inr (.inr (.inl ⟨info, hinfo, hdecode, h⟩)))
  · exact .inr (.inr (.inr (.inr ⟨htoxid, hpath, hinfo, h⟩)))

/-- What is read of a record without a fault, and copied of what is held, is typed. -/
theorem recordReads_of_loadSender {friendsInfo : List FriendInfo} {d : List (Bytes × BeNode)} :
    ∀ {f : FileSender} {r : Option FileSender}, loadSender friendsInfo f d = .ok r →
      (∀ n ∈ senderCopies friendsInfo d, holds32 n = true) → recordReads friendsInfo d = true := by
  induction d with
  | nil =>
    intro f r _ _
    rfl
  | cons e d ih =>
    intro f r h hcopies
    obtain ⟨key, val⟩ := e
    unfold recordReads
    cases hs : stranger friendsInfo (key, val) with
    | true => rfl
    | false =>
      rw [Bool.false_or, Bool.and_eq_true]
      rcases loadSender_cons h with ⟨hkey, hlook, -⟩ | ⟨fr, hkey, hlook, h'⟩ | ⟨s, hkey, rfl, h'⟩ |
        ⟨info, hkey, hdecode, h'⟩ | ⟨htoxid, hpath, hinfo, h'⟩
      · simp only [senderCopies, if_pos hkey, List.mem_append, or_imp, forall_and] at hcopies
        obtain ⟨fr, hfr⟩ := lookupToxid_friend hkey hs (holds32_of_lookupToxid hkey hs hlook hcopies.1)
        rw [show lookupToxid friendsInfo val = .ok none from hlook] at hfr
        cases hfr
      · simp only [senderCopies, if_pos hkey, hlook, List.mem_append, or_imp, forall_and] at hcopies
        have hheld := holds32_of_lookupToxid (e := (key, val)) hkey hs hlook hcopies.1
        exact ⟨by rw [entryTyped, if_pos hkey, hheld], ih h' hcopies.2⟩
      · simp only [senderCopies, hkey, path_ne_toxid, if_true, if_false] at hcopies
        exact ⟨by simp [entryTyped, hkey, path_ne_toxid, isStr], ih h' hcopies⟩
      · simp only [senderCopies, hkey, info_ne_toxid, info_ne_path, if_true, if_false, List.mem_append, or_imp,
          forall_and] at hcopies
        have htyped := (decodeFileNode_reads f.info val).mp ⟨⟨info, hdecode⟩, hcopies.1⟩
        exact ⟨by simp [entryTyped, hkey, info_ne_toxid, info_ne_path, htyped], ih h' hcopies.2⟩
      · simp only [senderCopies, htoxid, hpath, hinfo, if_false] at hcopies
        exact ⟨by simp [entryTyped, htoxid, hpath, hinfo], ih h' hcopies⟩

/-- **A record whose entries are typed as far as they are read** is read without a fault. It is
given up if and only if it names a stranger; otherwise all of it is typed. -/
theorem loadSender_of_reads {friendsInfo : List FriendInfo} {d : List (Bytes × BeNode)} :
    ∀ (f : FileSender), recordReads friendsInfo d = true →
      (∀ n ∈ senderCopies friendsInfo d, holds32 n = true) ∧
      ((d.any (stranger friendsInfo) = true ∧ loadSender friendsInfo f d = .ok none) ∨
        (d.any (stranger friendsInfo) = false ∧ d.all entryTyped = true ∧
          ∃ g, loadSender friendsInfo f d = .ok (some g))) := by
  induction d with
  | nil =>
    intro f _
    exact ⟨by simp [senderCopies], .inr ⟨rfl, rfl, f, rfl⟩⟩
  | cons e d ih =>
    intro f h
    obtain ⟨key, val⟩ := e
    cases hs : stranger friendsInfo (key, val) with
    | true =>
      obtain ⟨hkey, hlook, hcopies⟩ := lookupToxid_stranger hs
      dsimp only at hkey hlook hcopies
      refine ⟨?_, .inl ⟨by simp [hs], ?_⟩⟩
      · simpa only [senderCopies, if_pos hkey, hlook, List.append_nil] using hcopies
      · rw [loadSender, if_pos hkey, hlook]
        rfl
    | false =>
      rw [recordReads, hs, Bool.false_or, Bool.and_eq_true] at h
      obtain ⟨htyped, h⟩ := h
      simp only [List.any_cons, hs, Bool.false_or, List.all_cons, htyped, Bool.true_and]
      unfold entryTyped at htyped
      split_ifs at htyped with htoxid hpath hinfo
      · obtain ⟨fr, hfr⟩ := lookupToxid_friend htoxid hs htyped
        obtain ⟨hcopies, hout⟩ := ih { f with friendNumber := fr.friendNumber } h
        dsimp only at htoxid hfr htyped
        refine ⟨?_, ?_⟩
        · simp only [senderCopies, if_pos htoxid, hfr, List.mem_append, or_imp, forall_and]
          refine ⟨?_, hcopies⟩
          split_ifs <;> simp [htyped]
        · rw [loadSender, if_pos htoxid, hfr]
          exact hout
      · obtain ⟨s, hval⟩ := isStr_iff.mp htyped
        obtain ⟨hcopies, hout⟩ := ih { f with pathname := some (.ofBytes s) } h
        dsimp only at htoxid hpath hval
        refine ⟨?_, ?_⟩
        · simpa only [senderCopies, if_neg htoxid, if_pos hpath] using hcopies
        · rw [loadSender, if_neg htoxid, if_pos hpath, hval]
          exact hout
      · obtain ⟨⟨info, hdecode⟩, hheld⟩ := (decodeFileNode_reads f.info val).mpr htyped
        obtain ⟨hcopies, hout⟩ := ih { f with info } h
        dsimp only at htoxid hpath hinfo
        refine ⟨?_, ?_⟩
        · simp only [senderCopies, if_neg htoxid, if_neg hpath, if_pos hinfo, List.mem_append, or_imp,
            forall_and]
          exact ⟨hheld, hcopies⟩
        · rw [loadSender, if_neg htoxid, if_neg hpath, if_pos hinfo, hdecode]
          exact hout
      · obtain ⟨hcopies, hout⟩ := ih f h
        dsimp only at htoxid hpath hinfo
        refine ⟨?_, ?_⟩
        · simpa only [senderCopies, if_neg htoxid, if_neg hpath, if_neg hinfo] using hcopies
        · rw [loadSender, if_neg htoxid, if_neg hpath, if_neg hinfo]
          exact hout

/-- What a record makes does not depend on where it is put. -/
theorem loadSender_addr {friendsInfo : List FriendInfo} {d : List (Bytes × BeNode)} (addr : ℕ) :
    ∀ {f : FileSender} {r : Option FileSender}, loadSender friendsInfo f d = .ok r →
      loadSender friendsInfo { f with addr } d = .ok (r.map fun g => { g with addr }) := by
  induction d with
  | nil =>
    intro f r h
    cases h
    rfl
  | cons e d ih =>
    intro f r h
    obtain ⟨key, val⟩ := e
    rcases loadSender_cons h with ⟨hkey, hlook, rfl⟩ | ⟨fr, hkey, hlook, h'⟩ | ⟨s, hkey, rfl, h'⟩ |
      ⟨info, hkey, hdecode, h'⟩ | ⟨htoxid, hpath, hinfo, h'⟩
    · rw [loadSender, if_pos hkey, hlook]
      rfl
    · rw [loadSender, if_pos hkey, hlook]
      exact ih h'
    · rw [loadSender, if_neg (hkey ▸ path_ne_toxid), if_pos hkey]
      exact ih h'
    · rw [loadSender, if_neg (hkey ▸ info_ne_toxid), if_neg (hkey ▸ info_ne_path), if_pos hkey, hdecode]
      exact ih h'
    · rw [loadSender, if_neg htoxid, if_neg hpath, if_neg hinfo]
      exact ih h'

/-- A record with a path and with complete files makes an entry that has them. -/
theorem loadSender_filled {friendsInfo : List FriendInfo} {d : List (Bytes × BeNode)} :
    ∀ {f g : FileSender}, loadSender friendsInfo f d = .ok (some g) → infoShaped d = true →
      (f.pathname.isSome ∨ hasKey "path" d = true → g.pathname.isSome) ∧
      ((f.info.file.isSome ∧ f.info.blake2b.isSome) ∨ hasKey "info" d = true →
        g.info.file.isSome ∧ g.info.blake2b.isSome) := by
  induction d with
  | nil =>
    intro f g h _
    cases h
    simp [hasKey]
  | cons e d ih =>
    intro f g h hshaped
    obtain ⟨key, val⟩ := e
    simp only [infoShaped, List.all_cons, Bool.and_eq_true, Bool.or_eq_true, bne_iff_ne] at hshaped
    obtain ⟨hval, hshaped⟩ := hshaped
    simp only [hasKey_cons]
    rcases loadSender_cons h with ⟨-, -, hnone⟩ | ⟨fr, hkey, -, h'⟩ | ⟨s, hkey, -, h'⟩ |
      ⟨info, hkey, hdecode, h'⟩ | ⟨-, hpath, hinfo, h'⟩
    · cases hnone
    · obtain ⟨ipath_ne_toxid, iinfo_ne_toxid⟩ := ih h' hshaped
      exact ⟨fun hset => ipath_ne_toxid (hset.imp_right fun hor => hor.resolve_left (hkey ▸ path_ne_toxid.symm)),
        fun hset => iinfo_ne_toxid (hset.imp_right fun hor => hor.resolve_left (hkey ▸ info_ne_toxid.symm))⟩
    · obtain ⟨ipath_ne_toxid, iinfo_ne_toxid⟩ := ih h' hshaped
      exact ⟨fun _ => ipath_ne_toxid (.inl rfl),
        fun hset => iinfo_ne_toxid (hset.imp_right fun hor => hor.resolve_left (hkey ▸ info_ne_path.symm))⟩
    · obtain ⟨ipath_ne_toxid, iinfo_ne_toxid⟩ := ih h' hshaped
      obtain ⟨name, length, hash, hfile⟩ := decodeFileNode_shaped (hval.resolve_left (not_not.mpr hkey))
      rw [hfile f.info] at hdecode
      cases hdecode
      exact ⟨fun hset => ipath_ne_toxid (hset.imp_right fun hor => hor.resolve_left (hkey ▸ info_ne_path)),
        fun _ => iinfo_ne_toxid (.inl ⟨rfl, rfl⟩)⟩
    · obtain ⟨ipath_ne_toxid, iinfo_ne_toxid⟩ := ih h' hshaped
      exact ⟨fun hset => ipath_ne_toxid (hset.imp_right fun hor => hor.resolve_left hpath),
        fun hset => iinfo_ne_toxid (hset.imp_right fun hor => hor.resolve_left hinfo)⟩

/-! ### The loop over the records -/

/-- The contents of the entry a record makes, if it makes one. -/
def recordMakes (friendsInfo : List FriendInfo) (d : List (Bytes × BeNode)) : List FileSender :=
  match loadSender friendsInfo (.zero 0) d with
  | .ok (some f) => [f.contents]
  | _ => []

/-- The contents of the entries the loop makes, the first record's first. -/
def loopMakes (friendsInfo : List FriendInfo) : List BeNode → List FileSender
  | .dict d :: l => recordMakes friendsInfo d ++ loopMakes friendsInfo l
  | _ => []

/-- What the loop reads is typed. -/
def loopReads (friendsInfo : List FriendInfo) : List BeNode → Bool
  | .dict d :: l => recordReads friendsInfo d && loopReads friendsInfo l
  | _ => true

theorem recordReads_of_shaped {friendsInfo : List FriendInfo} {d : List (Bytes × BeNode)}
    (h : d.all entryTyped = true) : recordReads friendsInfo d = true := by
  induction d with
  | nil => rfl
  | cons e d ih =>
    rw [List.all_cons, Bool.and_eq_true] at h
    rw [recordReads, h.1, ih h.2, Bool.and_true, Bool.or_true]

theorem loadSender_zero {friendsInfo : List FriendInfo} {d : List (Bytes × BeNode)} {r : Option FileSender}
    {addr : ℕ} (h : loadSender friendsInfo (.zero addr) d = .ok r) :
    recordMakes friendsInfo d = (r.map FileSender.contents).toList := by
  have h0 : loadSender friendsInfo (.zero 0) d = .ok (r.map FileSender.contents) := loadSender_addr 0 h
  unfold recordMakes
  rw [h0]
  cases r <;> rfl

/-- A record that is read makes nothing if and only if it names a stranger. -/
theorem recordMakes_eq_nil {friendsInfo : List FriendInfo} {d : List (Bytes × BeNode)}
    (h : recordReads friendsInfo d = true) :
    recordMakes friendsInfo d = [] ↔ d.any (stranger friendsInfo) = true := by
  unfold recordMakes
  rcases (loadSender_of_reads (.zero 0) h).2 with ⟨hs, hl⟩ | ⟨hs, -, g, hl⟩
  · simp [hl, hs]
  · simp [hl, hs]

/-- The loop gets through what is typed, and takes 32 bytes only where they are. -/
theorem loadSendersLoop_reads (friendsInfo : List FriendInfo) (l : List BeNode) :
    ∀ (q : List FileSender) (addr : ℕ), ((∃ r, loadSendersLoop friendsInfo q addr l = .ok r) ∧
      ∀ n ∈ sendersCopies friendsInfo l, holds32 n = true) ↔ loopReads friendsInfo l = true := by
  induction l with
  | nil => simp [loadSendersLoop, sendersCopies, loopReads]
  | cons n l ih =>
    intro q addr
    cases n with
    | dict d =>
      simp only [loadSendersLoop, sendersCopies, loopReads, List.mem_append, or_imp, forall_and,
        Bool.and_eq_true]
      constructor
      · rintro ⟨⟨r, hr⟩, hd, hl⟩
        obtain ⟨o, ho, hr⟩ := bind_eq_ok.mp hr
        refine ⟨recordReads_of_loadSender ho hd, ?_⟩
        cases o with
        | none => exact (ih q (addr + 1)).mp ⟨⟨r, hr⟩, hl⟩
        | some f => exact (ih (f :: q) (addr + 1)).mp ⟨⟨r, hr⟩, hl⟩
      · rintro ⟨hd, hl⟩
        obtain ⟨hcopies, hout⟩ := loadSender_of_reads (.zero addr) hd
        rcases hout with ⟨-, ho⟩ | ⟨-, -, f, ho⟩
        · obtain ⟨hr, hl⟩ := (ih q (addr + 1)).mpr hl
          rw [ho]
          exact ⟨hr, hcopies, hl⟩
        · obtain ⟨hr, hl⟩ := (ih (f :: q) (addr + 1)).mpr hl
          rw [ho]
          exact ⟨hr, hcopies, hl⟩
    | _ => simp [loadSendersLoop, sendersCopies, loopReads]

/-- The loop adds at the head what the records make. -/
theorem loadSendersLoop_makes (friendsInfo : List FriendInfo) (l : List BeNode) :
    ∀ {q q' : List FileSender} {addr addr' : ℕ},
      loadSendersLoop friendsInfo q addr l = .ok (q', addr') →
        ∃ made, q' = made ++ q ∧ made.map FileSender.contents = (loopMakes friendsInfo l).reverse := by
  induction l with
  | nil =>
    intro q q' addr addr' h
    cases h
    exact ⟨[], rfl, rfl⟩
  | cons n l ih =>
    intro q q' addr addr' h
    cases n with
    | dict d =>
      obtain ⟨o, ho, h⟩ := bind_eq_ok.mp h
      have hd := loadSender_zero ho
      rw [loopMakes, hd]
      cases o with
      | none => exact ih h
      | some f =>
        obtain ⟨made, rfl, hmade⟩ := ih h
        exact ⟨made ++ [f], by simp, by simp [hmade]⟩
    | _ =>
      cases h
      exact ⟨[], rfl, rfl⟩

theorem loopReads_take {friendsInfo : List FriendInfo} {l : List BeNode} (h : loopReads friendsInfo l = true) :
    ∀ k, loopReads friendsInfo (l.take k) = true := by
  induction l with
  | nil => intro k; simp [loopReads]
  | cons n l ih =>
    intro k
    cases k with
    | zero => rfl
    | succ k =>
      cases n with
      | dict d =>
        rw [loopReads, Bool.and_eq_true] at h
        rw [List.take_succ_cons, loopReads, h.1, ih h.2 k]
        rfl
      | _ => rfl

theorem recordShaped_typed {n : BeNode} (h : recordShaped n = true) :
    ∃ d, n = .dict d ∧ d.all entryTyped = true ∧ infoShaped d = true ∧
      ∀ key ∈ ["toxid", "path", "info"], hasKey key d = true := by
  cases n with
  | dict d =>
    simp only [recordShaped, Bool.and_eq_true, List.all_eq_true (l := ["toxid", "path", "info"])] at h
    exact ⟨d, rfl, h.1.1, h.1.2, h.2⟩
  | _ => cases h

theorem loopReads_of_shaped {friendsInfo : List FriendInfo} {l : List BeNode}
    (h : ∀ n ∈ l, recordShaped n = true) : loopReads friendsInfo l = true := by
  induction l with
  | nil => rfl
  | cons n l ih =>
    rw [List.forall_mem_cons] at h
    obtain ⟨d, rfl, htyped, -⟩ := recordShaped_typed h.1
    rw [loopReads, recordReads_of_shaped htyped, ih h.2]
    rfl

/-- The queue after the loop, if what it reads is typed. -/
theorem queueContents_eq {friendsInfo : List FriendInfo} {l : List BeNode}
    (h : loopReads friendsInfo l = true) (q : List FileSender) (addr : ℕ) :
    queueContents (loadSendersLoop friendsInfo q addr l) =
      .ok ((loopMakes friendsInfo l).reverse ++ q.map FileSender.contents) := by
  obtain ⟨⟨⟨q', addr'⟩, hr⟩, -⟩ := (loadSendersLoop_reads friendsInfo l q addr).mpr h
  obtain ⟨made, rfl, hmade⟩ := loadSendersLoop_makes friendsInfo l hr
  rw [hr, ← hmade]
  simp [queueContents, Except.map]

/-- After a loop that has stopped, a record is missed unless it would have made nothing. -/
theorem loopMakes_filter_eq_nil {friendsInfo : List FriendInfo} (l : List BeNode) :
    (∀ k, loopMakes friendsInfo ((l.take k).filter recordShaped) = []) ↔
      (l.all fun n => !recordShaped n || (entries n).any (stranger friendsInfo)) = true := by
  induction l with
  | nil => simp [loopMakes]
  | cons n l ih =>
    rw [List.all_cons, Bool.and_eq_true, ← ih]
    cases hn : recordShaped n with
    | false =>
      constructor
      · intro h
        exact ⟨rfl, fun k => by simpa [hn] using h (k + 1)⟩
      · rintro ⟨-, h⟩ k
        cases k with
        | zero => rfl
        | succ k => simpa [hn] using h k
    | true =>
      obtain ⟨d, rfl, htyped, -⟩ := recordShaped_typed hn
      have hreads : recordReads friendsInfo d = true := recordReads_of_shaped htyped
      have hnil := recordMakes_eq_nil hreads
      rw [Bool.not_true, Bool.false_or, entries, ← hnil]
      constructor
      · intro h
        refine ⟨?_, fun k => ?_⟩
        · simpa [hn, loopMakes] using h 1
        · have := h (k + 1)
          simp only [List.take_succ_cons, List.filter_cons, hn, if_true, loopMakes,
            List.append_eq_nil_iff] at this
          exact this.2
      · rintro ⟨hd, h⟩ k
        cases k with
        | zero => rfl
        | succ k =>
          simp only [List.take_succ_cons, List.filter_cons, hn, if_true, loopMakes, hd, h k,
            List.append_nil]

/-- **The records fit** if and only if what is read of them is typed, and every one makes what it
should. -/
theorem recordsFit_iff {friendsInfo : List FriendInfo} (l : List BeNode) :
    recordsFit friendsInfo l = true ↔ loopReads friendsInfo l = true ∧
      ∀ k, loopMakes friendsInfo (l.take k) = loopMakes friendsInfo ((l.take k).filter recordShaped) := by
  induction l with
  | nil => simp [recordsFit, loopReads]
  | cons n l ih =>
    cases n with
    | dict d =>
      rw [recordsFit, loopReads]
      simp only [Bool.and_eq_true, ih]
      constructor
      · rintro ⟨⟨hd, hor⟩, hl, hall⟩
        refine ⟨⟨hd, hl⟩, fun k => ?_⟩
        cases k with
        | zero => rfl
        | succ k =>
          rw [List.take_succ_cons, loopMakes, hall k, List.filter_cons]
          split_ifs with hshaped
          · rfl
          · rw [(recordMakes_eq_nil hd).mpr ((Bool.or_eq_true _ _ ▸ hor).resolve_right hshaped)]
            rfl
      · rintro ⟨⟨hd, hl⟩, hall⟩
        have hone : recordMakes friendsInfo d = [] ∨ recordShaped (.dict d) = true := by
          by_contra hnot
          push Not at hnot
          have := hall 1
          rw [List.take_succ_cons, loopMakes, List.filter_cons, if_neg hnot.2] at this
          simp only [List.take_zero, List.filter_nil, loopMakes, List.append_nil] at this
          exact hnot.1 this
        refine ⟨⟨hd, ?_⟩, hl, fun k => ?_⟩
        · rw [Bool.or_eq_true, ← recordMakes_eq_nil hd]
          exact hone
        · have := hall (k + 1)
          rw [List.take_succ_cons, loopMakes, List.filter_cons] at this
          split_ifs at this with hshaped
          · exact List.append_cancel_left this
          · rw [hone.resolve_right hshaped] at this
            exact this
    | _ =>
      unfold recordsFit
      rw [← loopMakes_filter_eq_nil]
      simp only [loopReads, true_and]
      constructor
      · intro h k
        cases k with
        | zero => rfl
        | succ k => exact (h k).symm
      · intro h k
        exact (h (k + 1)).symm

/-- The entries that records of the expected shape make are complete. -/
theorem filled_of_shaped {friendsInfo : List FriendInfo} {l : List BeNode}
    (h : ∀ n ∈ l, recordShaped n = true) : ∀ f ∈ loopMakes friendsInfo l, f.Filled := by
  induction l with
  | nil => simp [loopMakes]
  | cons n l ih =>
    rw [List.forall_mem_cons] at h
    obtain ⟨d, rfl, -, hinfo, hkeys⟩ := recordShaped_typed h.1
    intro f hf
    rw [loopMakes, List.mem_append] at hf
    rcases hf with hf | hf
    · unfold recordMakes at hf
      split at hf
      · next g hg =>
        obtain ⟨hpath, hfile⟩ := loadSender_filled hg hinfo
        rw [List.mem_singleton] at hf
        rw [hf]
        exact ⟨hpath (.inr (hkeys "path" (by decide))), hfile (.inr (hkeys "info" (by decide)))⟩
      · cases hf
    · exact ih h.2 f hf

/-- `load_senders` respects the types if and only if the records fit. -/
theorem respectsSenders_iff {file : Option Bytes} {root : BeNode} (h : beNodeLoadfile file = .ok (some root))
    (q : List FileSender) (friendsInfo : List FriendInfo) (addr : ℕ) :
    RespectsSenders q friendsInfo addr file root ↔ ∃ l, root = .list l ∧ recordsFit friendsInfo l = true := by
  constructor
  · rintro ⟨⟨ret, made, addr', hload, -⟩, hcopies, hskips⟩
    rw [loadSenders, h, ok_bind] at hload
    cases root with
    | list l =>
      obtain ⟨r, hr, -⟩ := bind_eq_ok.mp hload
      have hreads := (loadSendersLoop_reads friendsInfo l q addr).mp ⟨⟨r, hr⟩, hcopies⟩
      refine ⟨l, rfl, (recordsFit_iff l).mpr ⟨hreads, fun k => ?_⟩⟩
      have hk := hskips k
      rw [elements, queueContents_eq (loopReads_take hreads k),
        queueContents_eq (loopReads_of_shaped fun n hn => (List.mem_filter.mp hn).2)] at hk
      exact List.reverse_injective (List.append_cancel_right (Except.ok.inj hk))
    | _ => cases hload
  · rintro ⟨l, rfl, hfit⟩
    obtain ⟨hreads, hmakes⟩ := (recordsFit_iff l).mp hfit
    have hshaped : ∀ k, ∀ n ∈ (l.take k).filter recordShaped, recordShaped n = true :=
      fun k n hn => (List.mem_filter.mp hn).2
    obtain ⟨⟨⟨q', addr'⟩, hr⟩, hcopies⟩ := (loadSendersLoop_reads friendsInfo l q addr).mpr hreads
    obtain ⟨made, rfl, hmade⟩ := loadSendersLoop_makes friendsInfo l hr
    refine ⟨⟨0, made, addr', ?_, fun f hf => ?_⟩, hcopies, fun k => ?_⟩
    · rw [loadSenders, h, ok_bind]
      dsimp only
      rw [hr]
      rfl
    · have hall := hmakes l.length
      rw [List.take_length] at hall
      have hmem : f.contents ∈ loopMakes friendsInfo (l.filter recordShaped) := by
        rw [← hall, ← List.mem_reverse, ← hmade]
        exact List.mem_map_of_mem hf
      exact filled_of_shaped (fun n hn => (List.mem_filter.mp hn).2) f.contents hmem
    · rw [elements, queueContents_eq (loopReads_take hreads k),
        queueContents_eq (loopReads_of_shaped (hshaped k)), hmakes k]

/-! ### The shared files -/

theorem loadShrlistLoop_length {heap : ℕ → FileNode} (l : List BeNode) : ∀ {shrList shrList' : List FileNode},
    loadShrlistLoop heap shrList l = .ok shrList' → shrList'.length = shrList.length + l.length := by
  induction l with
  | nil =>
    intro shrList shrList' h
    cases h
    rfl
  | cons n l ih =>
    intro shrList shrList' h
    obtain ⟨fn, -, h⟩ := bind_eq_ok.mp h
    rw [ih h]
    simp only [List.length_append, List.length_cons, List.length_nil]
    omega

/-- What files of the expected shape make does not depend on what the allocations held. -/
theorem loadShrlistLoop_known {l : List BeNode} (h : ∀ n ∈ l, fileShaped n = true) (heap heap' : ℕ → FileNode) :
    ∀ {shrList shrList' : List FileNode}, shrList.map FileNode.known = shrList'.map FileNode.known →
      (loadShrlistLoop heap shrList l).map (List.map FileNode.known) =
        (loadShrlistLoop heap' shrList' l).map (List.map FileNode.known) := by
  induction l with
  | nil =>
    intro shrList shrList' heq
    simp [loadShrlistLoop, Except.map, heq]
  | cons n l ih =>
    intro shrList shrList' heq
    rw [List.forall_mem_cons] at h
    obtain ⟨name, length, hash, hn⟩ := decodeFileNode_shaped h.1
    rw [loadShrlistLoop, loadShrlistLoop, hn, hn, ok_bind, ok_bind]
    apply ih h.2
    rw [List.map_append, List.map_append, heq]
    rfl

/-- `load_shrlist` respects the types if and only if every record has the expected shape. -/
theorem respectsShrlist_iff {file : Option Bytes} {root : BeNode} (h : beNodeLoadfile file = .ok (some root))
    (heap : ℕ → FileNode) {shared : SharedList} {shrList : List FileNode} (hs : shared.entries = .ok shrList) :
    RespectsShrlist heap shared shrList file root ↔
      ∃ l, root = .list l ∧ ∀ n ∈ l, fileShaped n = true := by
  constructor
  · rintro ⟨⟨r, hload⟩, -, hskips, -⟩
    rw [loadShrlist, hs, ok_bind, h, ok_bind] at hload
    cases root with
    | list l =>
      obtain ⟨shrList', hloop, -⟩ := bind_eq_ok.mp hload
      rw [elements, hloop] at hskips
      have hlen := loadShrlistLoop_length l hloop
      have hlen' := loadShrlistLoop_length _ hskips.symm
      refine ⟨l, rfl, ?_⟩
      rw [← List.length_filter_eq_length_iff]
      omega
    | _ => cases hload
  · rintro ⟨l, rfl, hshaped⟩
    have htyped : ∀ n ∈ l, fileTyped n = true := fun n hn => (Bool.and_eq_true_iff.mp (hshaped n hn)).1
    have hnode : ∀ n ∈ l, NodeShaped n := fun n hn => (fileTyped_iff.mp (htyped n hn)).1
    obtain ⟨shrList', hloop⟩ := (loadShrlistLoop_isOk heap l shrList).mpr hnode
    refine ⟨?_, fun n hn => ?_, ?_, fun heap' => loadShrlistLoop_known hshaped heap' heap rfl⟩
    · rw [loadShrlist, hs, ok_bind, h, ok_bind]
      dsimp only
      rw [hloop, ok_bind]
      split <;> exact ⟨_, rfl⟩
    · obtain ⟨m, hm, hn⟩ := List.mem_flatMap.mp hn
      exact (fileTyped_iff.mp (htyped m hm)).2 n hn
    · rw [elements, List.filter_eq_self.mpr hshaped]

/-! ### What the program writes -/

theorem FileRecord.node_shaped (r : FileRecord) : fileShaped r.node = true := by
  have hhash : TOX_FILE_ID_LENGTH ≤ r.hash.1.length := r.hash.2.ge
  simp [fileShaped, fileTyped, fieldTyped, hasKey, entries, FileRecord.node, isStr, isInt, holds32, hhash,
    cstr_name, cstr_length, cstr_hash, name_ne_length.symm, name_ne_hash.symm, length_ne_hash.symm]

theorem SenderRecord.node_shaped (r : SenderRecord) : recordShaped r.node = true := by
  have htoxid : TOX_FILE_ID_LENGTH ≤ r.toxid.1.length := r.toxid.2.ge
  have hinfo := r.info.node_shaped
  have htyped : fileTyped r.info.node = true := (Bool.and_eq_true_iff.mp hinfo).1
  simp [recordShaped, infoShaped, entryTyped, hasKey, SenderRecord.node, isStr, holds32, htoxid, hinfo, htyped,
    cstr_toxid, cstr_path, cstr_info, path_ne_toxid, info_ne_toxid, info_ne_path, info_ne_toxid.symm,
    info_ne_path.symm]

/-- Records of the expected shape fit, whoever the friends are. -/
theorem recordsFit_of_shaped {friendsInfo : List FriendInfo} {l : List BeNode}
    (h : ∀ n ∈ l, recordShaped n = true) : recordsFit friendsInfo l = true := by
  refine (recordsFit_iff l).mpr ⟨loopReads_of_shaped h, fun k => ?_⟩
  rw [List.filter_eq_self.mpr fun n hn => h n (List.mem_of_mem_take hn)]

/-- **The loaders respect the node types** of a tree they have read if and only if it has the
shape they take for granted. -/
theorem loaders_respect_iff {file : Option Bytes} {root : BeNode} (h : beNodeLoadfile file = .ok (some root))
    (q : List FileSender) (friendsInfo : List FriendInfo) (addr : ℕ) (heap : ℕ → FileNode)
    {shared : SharedList} {shrList : List FileNode} (hs : shared.entries = .ok shrList) :
    (RespectsSenders q friendsInfo addr file root ↔
      ∃ l, root = .list l ∧ recordsFit friendsInfo l = true) ∧
    (RespectsShrlist heap shared shrList file root ↔
      ∃ l, root = .list l ∧ ∀ n ∈ l, fileShaped n = true) :=
  ⟨respectsSenders_iff h q friendsInfo addr, respectsShrlist_iff h heap hs⟩

/-- A saved transfer to a friend, and a shared file. -/
theorem loaders_respect_saved :
    RespectsSenders [] [somebody 1] 0 (some (recordsNode [⟨someKey 5, .ofBytes (ascii "/a"), sharedFile⟩]).text)
        (recordsNode [⟨someKey 5, .ofBytes (ascii "/a"), sharedFile⟩]) ∧
      RespectsShrlist (fun _ => .zero) .null [] (some (filesNode [sharedFile]).text) (filesNode [sharedFile]) := by
  have hsenders := beNodeLoadfile_text (recordsNode_wf [⟨someKey 5, .ofBytes (ascii "/a"), sharedFile⟩])
    (by decide +kernel)
  have hfiles := beNodeLoadfile_text (filesNode_wf [sharedFile]) (by decide +kernel)
  have hnull : SharedList.null.entries = .ok [] := rfl
  refine ⟨(loaders_respect_iff hsenders [] [somebody 1] 0 (fun _ => .zero) hnull).1.mpr
      ⟨_, rfl, recordsFit_of_shaped ?_⟩,
    (loaders_respect_iff hfiles [] [] 0 (fun _ => .zero) hnull).2.mpr ⟨_, rfl, ?_⟩⟩
  · intro n hn
    obtain ⟨r, -, rfl⟩ := List.mem_map.mp hn
    exact r.node_shaped
  · intro n hn
    obtain ⟨r, -, rfl⟩ := List.mem_map.mp hn
    exact r.node_shaped

/-- A path that is an integer is read as a string by `load_senders`, and a record without a name,
a length and a hash is taken for a file by `load_shrlist`. -/
theorem misshapen_record_read :
    ∃ root, beNodeLoadfile (some (ascii "ld4:pathi5eee")) = .ok (some root) ∧
      ¬ RespectsSenders [] [] 0 (some (ascii "ld4:pathi5eee")) root ∧
      ¬ RespectsShrlist (fun _ => .zero) .null [] (some (ascii "ld4:pathi5eee")) root := by
  have htext : (BeNode.list [.dict [(ascii "path", .int 5)]]).text = ascii "ld4:pathi5eee" := by
    decide +kernel
  have hload : beNodeLoadfile (some (ascii "ld4:pathi5eee")) =
      .ok (some (.list [.dict [(ascii "path", .int 5)]])) := by
    rw [← htext]
    exact beNodeLoadfile_text ⟨⟨by decide, trivial, trivial⟩, trivial⟩ (by decide +kernel)
  refine ⟨_, hload, fun h => ?_, fun h => ?_⟩
  · obtain ⟨l, hl, hfit⟩ := (respectsSenders_iff hload [] [] 0).mp h
    cases hl
    revert hfit
    decide
  · obtain ⟨l, hl, hshaped⟩ := (respectsShrlist_iff hload _ rfl).mp h
    cases hl
    revert hshaped
    decide

end ToxSuite.File
