import Mathlib.Data.List.Flatten
import Mathlib.Data.List.Perm.Subperm
import ToxSuite.File.Savefile
import ToxSuite.File.Transfer

/-!
# Pending transfers across a restart

A run of the program as the pending transfers see it: `load_senders` fills
`FileQueueLoaded` from `savesender.dat`, connection events move transfers from
there to `FilesSender`, Tox completes and cancels some, and at exit
`save_senders` writes `FilesSender` back.

What is still in `FileQueueLoaded` at exit is not written. If all transfers have
been resumed by then, no record is lost whose transfer was not completed or
cancelled (`records_survive`).
-/

namespace ToxSuite.File

open ToxSuite.Lib ToxSuite.Bencode ToxSuite.Friend

/-! ### The records in a file -/

/-- The string under a key. -/
def strField (key : String) (d : List (Bytes × BeNode)) : Option Bytes :=
  match d.lookup (ascii key) with
  | some (.str s) => s
  | _ => none

/-- The integer under a key. -/
def intField (key : String) (d : List (Bytes × BeNode)) : Option Int64 :=
  match d.lookup (ascii key) with
  | some (.int i) => some i
  | _ => none

/-- The dictionary under a key. -/
def dictField (key : String) (d : List (Bytes × BeNode)) : Option (List (Bytes × BeNode)) :=
  match d.lookup (ascii key) with
  | some (.dict d) => some d
  | _ => none

/-- A string of `n` bytes as an array. -/
def toVec (n : ℕ) (b : Bytes) : Option (Vec n) := if h : b.length = n then some ⟨b, h⟩ else none

/-- The record a tree holds. -/
def recordOf : BeNode → Option SenderRecord
  | .dict d => do
    let toxid ← toVec TOX_PUBLIC_KEY_SIZE (← strField "toxid" d)
    let path ← strField "path" d
    let info ← dictField "info" d
    let name ← strField "name" info
    let length ← intField "length" info
    let hash ← toVec TOX_FILE_ID_LENGTH (← strField "hash" info)
    pure ⟨toxid, .ofBytes path, .ofBytes name, length, hash⟩
  | _ => none

/-- The records `savesender.dat` holds. -/
def recordsOf (file : Option Bytes) : List SenderRecord :=
  match beNodeLoadfile file with
  | .ok (some (.list l)) => l.filterMap recordOf
  | _ => []

theorem toVec_vec {n : ℕ} (v : Vec n) : toVec n v.1 = some v := dif_pos v.2

theorem recordOf_node (r : SenderRecord) : recordOf r.node = some r := by
  change ((toVec TOX_PUBLIC_KEY_SIZE r.toxid.1).bind fun toxid =>
    (toVec TOX_FILE_ID_LENGTH r.info.hash.1).bind fun hash =>
      some (⟨toxid, .ofBytes r.path.bytes, .ofBytes r.info.name.bytes, r.info.length, hash⟩ :
        SenderRecord)) = some r
  simp only [toVec_vec, Option.bind_some, CStr.ofBytes_bytes]

/-- **A file of records** holds the records. -/
theorem recordsOf_recordsFile {rs : List SenderRecord} (hsize : (recordsNode rs).text.length < INT_MAX) :
    recordsOf (recordsFile rs) = rs := by
  unfold recordsFile
  split_ifs with hrs
  · rw [hrs]
    rfl
  · have hload := beNodeLoadfile_text (recordsNode_wf rs) hsize
    simp only [recordsOf, hload]
    simp only [recordsNode, List.filterMap_map, Function.comp_def, recordOf_node, List.filterMap_some]

/-! ### What a transfer keeps -/

/-- What of an entry a restart keeps: the entry as `load_senders` would make it. -/
def FileSender.saved (f : FileSender) : FileSender :=
  { FileSender.zero f.addr with
    friendNumber := f.friendNumber
    pathname := f.pathname
    info := { FileNode.zero with file := f.info.file, length := f.info.length, blake2b := f.info.blake2b } }

/-- Two lists of friends with the same numbers and keys. -/
def SameFriends (friendsInfo friendsInfo' : List FriendInfo) : Prop :=
  friendsInfo'.map (fun f => (f.friendNumber, f.toxIdBin)) = friendsInfo.map fun f => (f.friendNumber, f.toxIdBin)

/-- The record depends on what is saved of the entry. -/
theorem senderRecord_saved (friendsInfo : List FriendInfo) (f : FileSender) :
    senderRecord friendsInfo f.saved = senderRecord friendsInfo f := rfl

/-- The key under a number depends on the numbers and keys of the friends. -/
theorem friendInfoByFriendNumber_congr {friendsInfo : List FriendInfo} : ∀ {friendsInfo' : List FriendInfo},
    SameFriends friendsInfo friendsInfo' → ∀ n : UInt32,
      (friendInfoByFriendNumber friendsInfo' n).map FriendInfo.toxIdBin =
        (friendInfoByFriendNumber friendsInfo n).map FriendInfo.toxIdBin := by
  induction friendsInfo with
  | nil =>
    intro fs' h n
    rw [SameFriends, List.map_nil, List.map_eq_nil_iff] at h
    rw [h]
  | cons f fs ih =>
    intro fs' h n
    cases fs' with
    | nil => cases h
    | cons f' fs' =>
      simp only [SameFriends, List.map_cons, List.cons.injEq, Prod.mk.injEq] at h
      obtain ⟨⟨hn, hkey⟩, hrest⟩ := h
      have ih' := ih hrest n
      simp only [friendInfoByFriendNumber, List.find?_cons, hn] at ih' ⊢
      split
      · simp [hkey]
      · exact ih'

theorem senderRecord_sameFriends {friendsInfo friendsInfo' : List FriendInfo}
    (h : SameFriends friendsInfo friendsInfo') (f : FileSender) :
    senderRecord friendsInfo' f = senderRecord friendsInfo f := by
  have hkey := friendInfoByFriendNumber_congr h f.friendNumber
  apply Option.ext
  intro r
  simp only [senderRecord_eq_some]
  have hfr : (∃ fr, friendInfoByFriendNumber friendsInfo' f.friendNumber = some fr ∧ fr.toxIdBin = r.toxid) ↔
      ∃ fr, friendInfoByFriendNumber friendsInfo f.friendNumber = some fr ∧ fr.toxIdBin = r.toxid := by
    rw [← Option.map_eq_some_iff, ← Option.map_eq_some_iff, hkey]
  rw [hfr]

/-- The entry made of a record has the record, when no two friends share a number. -/
theorem senderRecord_sender {friendsInfo : List FriendInfo}
    (hnodup : (friendsInfo.map FriendInfo.friendNumber).Nodup) {r : SenderRecord} {fr : FriendInfo}
    (hfr : friendInfoByPublicKeybin friendsInfo r.toxid = some fr) (addr : ℕ) :
    senderRecord friendsInfo (r.sender addr fr.friendNumber) = some r := by
  obtain ⟨hmem, hkey⟩ := mem_of_find?_key FriendInfo.toxIdBin hfr
  have hnum : friendInfoByFriendNumber friendsInfo fr.friendNumber = some fr :=
    (find?_key_eq_some FriendInfo.friendNumber hnodup).mpr ⟨hmem, rfl⟩
  exact senderRecord_eq_some.mpr ⟨rfl, ⟨fr, hnum, hkey⟩, rfl⟩

theorem mem_loadedFrom {friendsInfo : List FriendInfo} {fr : FriendInfo} {r : SenderRecord}
    (hfr : friendInfoByPublicKeybin friendsInfo r.toxid = some fr) (rs : List SenderRecord) :
    ∀ (addr : ℕ) {i : ℕ}, rs[i]? = some r →
      r.sender (addr + i) fr.friendNumber ∈ loadedFrom friendsInfo addr rs := by
  induction rs with
  | nil => intro addr i hi; simp at hi
  | cons s rs ih =>
    intro addr i hi
    cases i with
    | zero =>
      cases hi
      simp only [loadedFrom, hfr, Nat.add_zero]
      exact List.mem_cons_self
    | succ i =>
      have hmem := ih (addr + 1) (by simpa using hi)
      rw [Nat.add_right_comm, Nat.add_assoc] at hmem
      unfold loadedFrom
      split
      · exact hmem
      · exact List.mem_cons_of_mem _ hmem

theorem loadedFrom_hash {friendsInfo : List FriendInfo} (rs : List SenderRecord) : ∀ {addr : ℕ}
    {g : FileSender}, g ∈ loadedFrom friendsInfo addr rs → g.info.blake2b.isSome := by
  induction rs with
  | nil => intro addr g hg; cases hg
  | cons r rs ih =>
    intro addr g hg
    unfold loadedFrom at hg
    split at hg
    · exact ih hg
    · rcases List.mem_cons.mp hg with rfl | hg
      · rfl
      · exact ih hg

/-- The records of the loaded entries are among those in the file. -/
theorem records_loadedFrom {friendsInfo : List FriendInfo}
    (hnodup : (friendsInfo.map FriendInfo.friendNumber).Nodup) (rs : List SenderRecord) :
    ∀ addr : ℕ, ((loadedFrom friendsInfo addr rs).map (senderRecord friendsInfo)).Sublist (rs.map some) := by
  induction rs with
  | nil => intro addr; exact List.Sublist.refl _
  | cons r rs ih =>
    intro addr
    unfold loadedFrom
    split
    · exact (ih (addr + 1)).cons _
    · next fr hfr =>
      rw [List.map_cons, List.map_cons, senderRecord_sender hnodup hfr]
      exact (ih (addr + 1)).cons_cons _

/-! ### What events do to pending transfers -/

/-- The entries of both queues. -/
def Transfers.pending (s : Transfers) : List FileSender := s.outbox.filesSender ++ s.fileQueueLoaded

/-- A length of zero that is measured again is zero. -/
def SameLength (f : FileSender) (disk : Disk) : Prop :=
  f.info.length = 0 → ∀ stream, f.stream disk = some stream → disk.size stream.path = 0

theorem Handed.saved {disk : Disk} {f f' : FileSender} (h : Handed disk f f')
    (hhash : f.info.blake2b.isSome) (hlength : SameLength f disk) : f'.saved = f.saved := by
  have hlen : f'.info.length = f.info.length := by
    rcases h.length with hsame | ⟨h0, stream, hstream, hmeasured⟩
    · exact hsame
    · rw [hmeasured, hlength h0 stream hstream, h0]
  simp only [FileSender.saved, h.addr, h.friendNumber, h.pathname, h.name, hlen, h.hash hhash]

/-- **`resume_send`** loses, doubles and changes nothing. -/
theorem saved_resumeSend {n : UInt32} (q : List FileSender) :
    ∀ {o o' : Outbox} {q' : List FileSender} {answers : ℕ → Answer},
      resumeSend o n q answers = .ok (o', q') → (∀ f ∈ q, f.info.blake2b.isSome) →
      (∀ i f, (q.takeWhile (·.friendNumber = n))[i]? = some f → SameLength f (answers i).disk) →
        ((o'.filesSender ++ q').map FileSender.saved).Perm ((o.filesSender ++ q).map FileSender.saved) := by
  induction q with
  | nil =>
    intro o o' q' answers h _ _
    cases h
    exact List.Perm.refl _
  | cons f q ih =>
    intro o o' q' answers h hhash hlength
    rcases resumeSend_cons h with ⟨-, rfl, rfl⟩ | ⟨o₁, k, hf, hadd, h⟩
    · exact List.Perm.refl _
    · rw [List.takeWhile_cons_of_pos (by simpa using hf)] at hlength
      have hrest := ih h (fun g hg => hhash g (List.mem_cons_of_mem f hg))
        fun i g hg => hlength (i + 1) g (by simpa using hg)
      obtain ⟨f', hhanded, -, hsenders⟩ := Outbox.add_head hadd
      have hsaved := hhanded.saved (hhash f List.mem_cons_self) (hlength 0 f rfl)
      apply hrest.trans
      rw [hsenders, List.cons_append, List.map_cons, hsaved, ← List.map_cons]
      exact List.perm_middle.symm.map _

/-- An entry cut off the queue is the one the search found. -/
theorem mem_or_found {q : List FileSender} {n m : UInt32} {f : FileSender} (hf : f ∈ q) :
    f ∈ fileSenderDestroy q n m ∨ fileSenderGet q n m = some f := by
  unfold fileSenderDestroy fileSenderGet
  induction q with
  | nil => cases hf
  | cons g q ih =>
    by_cases hg : g.hasKey n m
    · rw [List.eraseP_cons_of_pos hg, List.find?_cons_of_pos hg]
      rcases List.mem_cons.mp hf with rfl | hf
      · exact .inr rfl
      · exact .inl hf
    · rw [List.eraseP_cons_of_neg hg, List.find?_cons_of_neg hg]
      rcases List.mem_cons.mp hf with rfl | hf
      · exact .inl List.mem_cons_self
      · exact (ih hf).imp_left (List.mem_cons_of_mem g)

/-- The entry is that of the transfer Tox means. -/
def IsOwn (s : Transfers) (n m : UInt32) (f : FileSender) : Prop :=
  ∃ t ∈ s.outbox.live, t.hasKey n m ∧ t.addr = f.addr

/-- The events of the program's callbacks, which create no sender. -/
def TransferEvent.isCallback : TransferEvent → Bool
  | .connectionStatus .. | .chunkRequest .. | .control .. => true
  | _ => false

/-- Completions and cancellations destroy the entry that is meant, and lengths that are
measured again are the same. -/
def KeepsRecords (s : Transfers) : TransferEvent → Prop
  | .connectionStatus n _ answers => ∀ i f,
    (s.fileQueueLoaded.takeWhile (·.friendNumber = n))[i]? = some f → SameLength f (answers i).disk
  | .chunkRequest n m length => length = 0 →
    ∀ f, fileSenderGet s.outbox.filesSender n m = some f → f.file.isSome → IsOwn s n m f
  | .control n m control => control = .cancel →
    ∀ f, fileSenderGet s.outbox.filesSender n m = some f → IsOwn s n m f
  | _ => True

/-- **The invariant**: the pending entries are among those loaded, and each loaded entry is
pending or its transfer has ended. -/
structure Pending (friendsInfo : List FriendInfo) (loaded : List FileSender) (s : Transfers) : Prop where
  friends : SameFriends friendsInfo s.friendsInfo
  subperm : (s.pending.map FileSender.saved).Subperm (loaded.map FileSender.saved)
  kept : ∀ g ∈ loaded, g.addr ∈ s.ended ∨ g.saved ∈ s.pending.map FileSender.saved

theorem pending_start (friendsInfo : List FriendInfo) (loaded : List FileSender) (addr : ℕ) :
    Pending friendsInfo loaded (.start friendsInfo loaded addr) :=
  ⟨rfl, List.Subperm.refl _, fun _ hg => .inr (List.mem_map_of_mem hg)⟩

theorem Pending.hash {friendsInfo : List FriendInfo} {loaded : List FileSender} {s : Transfers}
    (h : Pending friendsInfo loaded s) (hloaded : ∀ g ∈ loaded, g.info.blake2b.isSome) :
    ∀ f ∈ s.pending, f.info.blake2b.isSome := by
  intro f hf
  obtain ⟨g, hg, hsaved⟩ := List.mem_map.mp (h.subperm.subset (List.mem_map_of_mem hf))
  have hhash : g.info.blake2b = f.info.blake2b := congrArg (fun f => f.info.blake2b) hsaved
  exact hhash ▸ hloaded g hg

/-- Nothing is lost when the pending entries stay the same up to order. -/
theorem Pending.perm {friendsInfo : List FriendInfo} {loaded : List FileSender} {s s' : Transfers}
    (h : Pending friendsInfo loaded s) (hfriends : SameFriends s.friendsInfo s'.friendsInfo)
    (hperm : (s'.pending.map FileSender.saved).Perm (s.pending.map FileSender.saved))
    (hended : s'.ended = s.ended) : Pending friendsInfo loaded s' where
  friends := hfriends.trans h.friends
  subperm := hperm.subperm.trans h.subperm
  kept g hg := by
    rw [hended]
    exact (h.kept g hg).imp_right hperm.mem_iff.mpr

/-- The entry of a transfer that ends is cut. -/
theorem Pending.finish {friendsInfo : List FriendInfo} {loaded : List FileSender} {s : Transfers}
    (h : Pending friendsInfo loaded s) {n m : UInt32}
    (hown : ∀ f, fileSenderGet s.outbox.filesSender n m = some f → IsOwn s n m f) :
    Pending friendsInfo loaded
      ((s.withSenders (fileSenderDestroy s.outbox.filesSender n m)).finish n m) where
  friends := h.friends
  subperm := by
    refine List.Subperm.trans ?_ h.subperm
    exact ((List.eraseP_sublist.append_right _).map _).subperm
  kept g hg := by
    rcases h.kept g hg with hended | hpending
    · exact .inl (List.mem_append_left _ hended)
    · obtain ⟨f, hf, hsaved⟩ := List.mem_map.mp hpending
      rcases List.mem_append.mp hf with hf | hf
      · rcases mem_or_found (n := n) (m := m) hf with hf | hfound
        · exact .inr (List.mem_map.mpr ⟨f, List.mem_append_left _ hf, hsaved⟩)
        · -- the entry cut is that of the transfer that has ended
          obtain ⟨t, ht, hkey, haddr⟩ := hown f hfound
          refine .inl (List.mem_append_right _ (List.mem_map.mpr ⟨t, ?_, ?_⟩))
          · exact List.mem_filter.mpr ⟨ht, hkey⟩
          · have hsame : f.saved.addr = g.saved.addr := congrArg FileSender.addr hsaved
            exact haddr.trans hsame
      · exact .inr (List.mem_map.mpr ⟨f, List.mem_append_right _ hf, hsaved⟩)

/-- A transfer Tox ends that the program has no entry to cut for. -/
theorem Pending.finish_none {friendsInfo : List FriendInfo} {loaded : List FileSender} {s : Transfers}
    (h : Pending friendsInfo loaded s) (n m : UInt32) : Pending friendsInfo loaded (s.finish n m) where
  friends := h.friends
  subperm := h.subperm
  kept g hg := (h.kept g hg).imp_left (List.mem_append_left _)

theorem sameFriends_connection {friendsInfo friendsInfo' : List FriendInfo} {n : UInt32}
    {status : Connection} (h : friendConnectionStatus friendsInfo n status = .ok friendsInfo') :
    SameFriends friendsInfo friendsInfo' := by
  unfold friendConnectionStatus onEntry at h
  split at h
  · cases h
  · cases h
    exact map_modifyEntry (g := fun f => { f with connectionStatus := status }) (fun _ => rfl) n _

/-- A callback makes no sender. -/
theorem TransferEvent.creation_of_isCallback {e : TransferEvent} (h : e.isCallback) : e.creation = none := by
  cases e with
  | connectionStatus | chunkRequest | control => rfl
  | _ => cases h

/-- **The step**. -/
theorem pending_transferStep {friendsInfo : List FriendInfo} {loaded : List FileSender}
    (hloaded : ∀ g ∈ loaded, g.info.blake2b.isSome) {s s' : Transfers} {e : TransferEvent}
    (h : transferStep s e = some s') (hs : Pending friendsInfo loaded s)
    (he : e.isCallback ∧ KeepsRecords s e) : Pending friendsInfo loaded s' := by
  obtain ⟨hcallback, hkeep⟩ := he
  cases does_transferStep h with
  | created he hcreate =>
    rw [TransferEvent.creation_of_isCallback hcallback] at he
    cases he
  | offline hinfo => exact hs.perm (sameFriends_connection hinfo) (List.Perm.refl _) rfl
  | online hstatus hinfo hresume =>
    have hhash : ∀ f ∈ s.fileQueueLoaded, f.info.blake2b.isSome := fun f hf =>
      hs.hash hloaded f (List.mem_append_right _ hf)
    exact hs.perm (sameFriends_connection hinfo) (saved_resumeSend _ hresume hhash hkeep) rfl
  | completed hget hfile =>
    refine hs.finish fun g hg => hkeep rfl g hg ?_
    cases hget.symm.trans hg
    exact hfile
  | ignored hget => exact hs.finish_none _ _
  | cancelled hget => exact hs.finish (hkeep rfl)
  | served | noted => exact hs

/-! ### The exit -/

theorem length_records_le {rs rs' : List SenderRecord} (h : rs'.Subperm rs) :
    (recordsNode rs').text.length ≤ (recordsNode rs).text.length := by
  obtain ⟨l, hperm, hsub⟩ := h
  rw [recordsNode, recordsNode, length_text_list, length_text_list, listText_eq_flatMap, listText_eq_flatMap]
  have hle := ((hsub.map SenderRecord.node).flatMap BeNode.text).length_le
  rw [((hperm.map SenderRecord.node).flatMap_right BeNode.text).length_eq] at hle
  omega

/-- The records of a queue whose entries all have one. -/
theorem map_some_savedRecords {friendsInfo : List FriendInfo} {q : List FileSender}
    (h : ∀ f ∈ q, ∃ r, senderRecord friendsInfo f = some r) :
    (savedRecords friendsInfo q).map some = q.map (senderRecord friendsInfo) := by
  induction q with
  | nil => rfl
  | cons f q ih =>
    obtain ⟨r, hr⟩ := h f List.mem_cons_self
    simp only [savedRecords, hr, List.map_cons, ih fun g hg => h g (List.mem_cons_of_mem f hg)]

/-- Pending entries have the records of the entries that were loaded. -/
theorem subperm_savedRecords {friendsInfo : List FriendInfo} {q loaded : List FileSender}
    {rs : List SenderRecord} (hq : (q.map FileSender.saved).Subperm (loaded.map FileSender.saved))
    (hloaded : (loaded.map (senderRecord friendsInfo)).Subperm (rs.map some))
    (hall : ∀ f ∈ q, ∃ r, senderRecord friendsInfo f = some r) : (savedRecords friendsInfo q).Subperm rs := by
  obtain ⟨l, hperm, hsub⟩ := hq
  have hmap : (q.map (senderRecord friendsInfo)).Subperm (loaded.map (senderRecord friendsInfo)) := by
    have hperm' := hperm.map (senderRecord friendsInfo)
    have hsub' := hsub.map (senderRecord friendsInfo)
    simp only [List.map_map, Function.comp_def, senderRecord_saved] at hperm' hsub'
    exact ⟨_, hperm', hsub'⟩
  rw [← map_some_savedRecords hall] at hmap
  exact (List.map_subperm_map_iff (Option.some_injective _)).mp (hmap.trans hloaded)

/-- **The exit**: with nothing left in `FileQueueLoaded`, `save_senders` writes every record
whose transfer has not ended. -/
theorem Pending.exit {friendsInfo : List FriendInfo} {rs : List SenderRecord} {addr : ℕ} {s : Transfers}
    (h : Pending friendsInfo (loadedFrom friendsInfo addr rs).reverse s)
    (hnodup : (friendsInfo.map FriendInfo.friendNumber).Nodup) (hresumed : s.fileQueueLoaded = [])
    (hsize : (recordsNode rs).text.length < INT_MAX) (heap : ℕ → UInt8) (old : Option Bytes) :
    ∃ file', saveSenders heap .complete s.outbox.filesSender s.friendsInfo old = .ok (0, file') ∧
      ∀ i r, rs[i]? = some r → r.toxid ∈ friendsInfo.map FriendInfo.toxIdBin → addr + i ∉ s.ended →
        r ∈ recordsOf file' := by
  have hpending : s.pending = s.outbox.filesSender := by
    rw [Transfers.pending, hresumed, List.append_nil]
  have hsubperm := h.subperm
  have hkept := h.kept
  rw [hpending] at hsubperm hkept
  have hfriends : senderRecord s.friendsInfo = senderRecord friendsInfo :=
    funext (senderRecord_sameFriends h.friends)
  have hloaded : ((loadedFrom friendsInfo addr rs).reverse.map (senderRecord friendsInfo)).Subperm
      (rs.map some) :=
    ((List.reverse_perm _).map _).subperm.trans (records_loadedFrom hnodup rs addr).subperm
  -- every entry in `FilesSender` has the record of an entry that was loaded
  have hall : ∀ f ∈ s.outbox.filesSender, ∃ r, senderRecord s.friendsInfo f = some r := fun f hf => by
    obtain ⟨g, hg, hsaved⟩ := List.mem_map.mp (hsubperm.subset (List.mem_map_of_mem hf))
    obtain ⟨r, -, hr⟩ := List.mem_map.mp (hloaded.subset (List.mem_map_of_mem hg))
    rw [hfriends, ← senderRecord_saved, ← hsaved, senderRecord_saved]
    exact ⟨r, hr.symm⟩
  have hrecords : (savedRecords s.friendsInfo s.outbox.filesSender).Subperm rs :=
    subperm_savedRecords hsubperm (hfriends ▸ hloaded) hall
  have hsize' := (length_records_le hrecords).trans_lt hsize
  refine ⟨_, saveSenders_eq heap old hall hsize', fun i r hi hkey hended => ?_⟩
  rw [recordsOf_recordsFile hsize']
  obtain ⟨fr, hfr⟩ := exists_find?_key FriendInfo.toxIdBin hkey
  have hmem := List.mem_reverse.mpr (mem_loadedFrom hfr rs addr hi)
  rcases hkept _ hmem with hend | hsaved
  · exact absurd hend hended
  · obtain ⟨f, hf, hfsaved⟩ := List.mem_map.mp hsaved
    apply mem_savedRecords hall hf
    rw [hfriends, ← senderRecord_saved, hfsaved, senderRecord_saved]
    exact senderRecord_sender hnodup hfr _

/-- **No pending transfer is lost across a restart**: in a run of callbacks in which
completions and cancellations find the entry that is meant, and in which all transfers
have been resumed at the end, each record of the file the run started from is in the file
it leaves, if a friend has its key and its transfer was not completed or cancelled. -/
theorem records_survive {friendsInfo friendsInfo₀ : List FriendInfo} {q₀ loaded : List FileSender}
    {heap₀ : ℕ → UInt8} {old file : Option Bytes} {ret₀ ret : ℤ} {addr addr' : ℕ}
    {es : List TransferEvent} {s : Transfers} (heap : ℕ → UInt8)
    (hnodup : (friendsInfo.map FriendInfo.friendNumber).Nodup)
    (hsave : saveSenders heap₀ .complete q₀ friendsInfo₀ old = .ok (ret₀, file))
    (hload : loadSenders [] friendsInfo addr file = .ok (ret, loaded, addr'))
    (hes : ∀ e ∈ es, e.isCallback)
    (hrun : runEvents transferStep (.start friendsInfo loaded addr') es = some s)
    (hkeep : Along transferStep KeepsRecords (.start friendsInfo loaded addr') es)
    (hresumed : s.fileQueueLoaded = []) :
    ∃ file', saveSenders heap .complete s.outbox.filesSender s.friendsInfo file = .ok (0, file') ∧
      ∀ i r, (recordsOf file)[i]? = some r → r.toxid ∈ friendsInfo.map FriendInfo.toxIdBin →
        addr + i ∉ s.ended → r ∈ recordsOf file' := by
  obtain ⟨-, rfl, hsize⟩ := saveSenders_ok hsave
  rw [loadSenders_records [] friendsInfo addr hsize] at hload
  simp only [List.append_nil, Except.ok.injEq, Prod.mk.injEq] at hload
  obtain ⟨-, rfl, rfl⟩ := hload
  rw [recordsOf_recordsFile hsize]
  have hcallbacks := along_and.mpr ⟨along_of_forall fun _ e he => hes e he, hkeep⟩
  have hpending := always_of_along
    (fun _ _ _ => pending_transferStep fun g hg => loadedFrom_hash _ (List.mem_reverse.mp hg))
    (pending_start friendsInfo _ _) hcallbacks
  exact (hpending.last hrun).exit hnodup hresumed hsize heap _

/-- A transfer that is resumed, to a friend who has another number after the restart. -/
theorem records_survive_resumed :
    ∃ file ret loaded addr s file',
      saveSenders (fun _ => 0) .complete [someTransfer 1] [somebody 1] none = .ok (0, file) ∧
      loadSenders [] [somebody 4] 0 file = .ok (ret, loaded, addr) ∧
      runEvents transferStep (.start [somebody 4] loaded addr)
        [.connectionStatus 4 .udp fun _ => consent 3] = some s ∧
      saveSenders (fun _ => 0) .complete s.outbox.filesSender s.friendsInfo file = .ok (0, file') ∧
      ∀ i r, (recordsOf file)[i]? = some r → r.toxid ∈ [somebody 4].map FriendInfo.toxIdBin →
        0 + i ∉ s.ended → r ∈ recordsOf file' := by
  have hsize : (recordsNode (savedRecords [somebody 1] [someTransfer 1])).text.length < INT_MAX := by
    decide +kernel
  have hsave := saveSenders_eq (fun _ => 0) none
    (by simp [senderRecord, someTransfer, somebody, friendInfoByFriendNumber, fileRecord]) hsize
  have hload := loadSenders_records [] [somebody 4] 0 hsize
  have hlength (i : ℕ) (f : FileSender)
      (hf : (List.takeWhile (fun f => decide (f.friendNumber = 4))
        (loadedFrom [somebody 4] 0 (savedRecords [somebody 1] [someTransfer 1])).reverse)[i]? = some f) :
      SameLength f (consent 3).disk := by
    have hmem : f ∈ [(⟨someKey 5, .ofBytes (ascii "/a"), .ofBytes (ascii "a"), 7, someKey 58⟩ :
      SenderRecord).sender 0 4] := List.mem_of_getElem? hf
    rw [List.mem_singleton.mp hmem]
    exact fun h0 => absurd h0 (by decide)
  obtain ⟨file', hexit, hkept⟩ := records_survive (fun _ => 0) (by decide) hsave hload
    (show ∀ e ∈ [TransferEvent.connectionStatus 4 .udp fun _ => consent 3], e.isCallback by
      simp [TransferEvent.isCallback]) rfl
    (fun s' _ => ⟨hlength, trivial⟩) rfl
  exact ⟨_, _, _, _, _, file', hsave, hload, rfl, hexit, hkept⟩

/-- A transfer whose friend does not connect is gone after the next exit. -/
theorem unresumed_record_lost :
    ∃ file ret loaded addr s,
      saveSenders (fun _ => 0) .complete [someTransfer 1] [somebody 1] none = .ok (0, file) ∧
      loadSenders [] [somebody 1] 0 file = .ok (ret, loaded, addr) ∧
      runEvents transferStep (.start [somebody 1] loaded addr) [] = some s ∧ s.ended = [] ∧
      saveSenders (fun _ => 0) .complete s.outbox.filesSender s.friendsInfo file = .ok (0, none) ∧
      ∃ r, (recordsOf file)[0]? = some r ∧ r.toxid ∈ [somebody 1].map FriendInfo.toxIdBin ∧
        r ∉ recordsOf none := by
  have hsize : (recordsNode (savedRecords [somebody 1] [someTransfer 1])).text.length < INT_MAX := by
    decide +kernel
  have hsave := saveSenders_eq (fun _ => 0) none
    (by simp [senderRecord, someTransfer, somebody, friendInfoByFriendNumber, fileRecord]) hsize
  have hload := loadSenders_records [] [somebody 1] 0 hsize
  have hexit : saveSenders (fun _ => 0) .complete [] [somebody 1]
      (recordsFile (savedRecords [somebody 1] [someTransfer 1])) = .ok (0, none) :=
    saveSenders_eq (fun _ => 0) _ (by simp) (by decide)
  refine ⟨_, _, _, _, _, hsave, hload, rfl, rfl, hexit, ?_⟩
  rw [recordsOf_recordsFile hsize]
  exact ⟨_, rfl, by decide, by simp [recordsOf, beNodeLoadfile]⟩

end ToxSuite.File
