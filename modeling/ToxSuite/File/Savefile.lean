import ToxSuite.File.FileNode

/-!
# `savesender.dat`

`save_senders` writes the entries of a send queue to `savesender.dat`, and
`load_senders` makes entries of them when the program starts again. A record
names the friend by public key, since friend numbers do not survive a restart.

`senders_round_trip`: what was saved is loaded, each entry once, and addressed to
the friend that has the saved key now. The queue comes back in reverse, because
`FileSender_new` adds at the head.
-/

namespace ToxSuite.File

open ToxSuite.Lib ToxSuite.Bencode ToxSuite.Friend

/-! ### Saving -/

/-- The record `save_senders` builds for an entry; `none` where its loop ends, at an entry
without a pathname or of a stranger. -/
def senderNode (friendsInfo : List FriendInfo) (f : FileSender) : Except Fault (Option BeNode) :=
  match f.pathname, friendInfoByFriendNumber friendsInfo f.friendNumber with
  | some pathname, some fr => do
    let toxid ← beCreateStrWlen fr.toxIdBin.1 TOX_PUBLIC_KEY_SIZE
    let path ← beCreateStrWlen pathname.bytes pathname.bytes.length
    let info ← encodeFileNode beCreateDict f.info
    pure (some (beAddKeypair (beAddKeypair (beAddKeypair beCreateDict (ascii "toxid") toxid)
      (ascii "path") path) (ascii "info") info))
  | _, _ => pure none

/-- The loop of `save_senders`. -/
def sendersRoot (friendsInfo : List FriendInfo) (root : BeNode) : List FileSender → Except Fault BeNode
  | [] => pure root
  | f :: fileQueue => do
    match ← senderNode friendsInfo f with
    | none => pure root
    | some filesend => sendersRoot friendsInfo (beAddList root filesend) fileQueue

/-- `save_senders`: what it returns, and `savesender.dat` afterwards, `none` where there is
no such file. -/
def saveSenders (heap : ℕ → UInt8) (io : WriteIO) (fileQueue : List FileSender)
    (friendsInfo : List FriendInfo) (old : Option Bytes) : Except Fault (ℤ × Option Bytes) := do
  let root ← sendersRoot friendsInfo beCreateList fileQueue
  let msg ← encodeRoot heap root
  if msg.length > 2 then
    match io.write old msg with
    | (true, file) => pure (0, file)
    | (false, file) => pure (-1, file)
  else pure (0, none)

/-! ### Loading -/

/-- `friend_info_by_public_keybin` on `toxid->val.s`, which is read only if there is a friend
to compare with. -/
def lookupToxid (friendsInfo : List FriendInfo) (toxid : BeNode) : Except Fault (Option FriendInfo) :=
  match toxid with
  | .str s =>
    match friendsInfo, s with
    | [], _ => pure none
    | _, none => .error .null
    | friendsInfo, some s => do
      let publicKey ← copy32 s
      pure (friendInfoByPublicKeybin friendsInfo publicKey)
  | _ => .error .variant

/-- The loop of `load_senders` over the entries of a record; `none` where it destroys the
sender. -/
def loadSender (friendsInfo : List FriendInfo) (f : FileSender) :
    List (Bytes × BeNode) → Except Fault (Option FileSender)
  | [] => pure (some f)
  | (key, val) :: d =>
    if cstr key = ascii "toxid" then do
      match ← lookupToxid friendsInfo val with
      | none => pure none
      | some fr => loadSender friendsInfo { f with friendNumber := fr.friendNumber } d
    else if cstr key = ascii "path" then do
      let path ← strVal val
      loadSender friendsInfo { f with pathname := some (.ofBytes path) } d
    else if cstr key = ascii "info" then do
      let info ← decodeFileNode f.info val
      loadSender friendsInfo { f with info } d
    else loadSender friendsInfo f d

/-- The loop of `load_senders` over the records. `addr` is the address of the next
allocation. -/
def loadSendersLoop (friendsInfo : List FriendInfo) (fileQueue : List FileSender) (addr : ℕ) :
    List BeNode → Except Fault (List FileSender × ℕ)
  | [] => pure (fileQueue, addr)
  | .dict filesend :: l => do
    match ← loadSender friendsInfo (.zero addr) filesend with
    | none => loadSendersLoop friendsInfo fileQueue (addr + 1) l
    | some f => loadSendersLoop friendsInfo (f :: fileQueue) (addr + 1) l
  | _ :: _ => pure (fileQueue, addr)

/-- `load_senders` on what `savesender.dat` holds: what it returns, the queue and the address
of the next allocation. -/
def loadSenders (fileQueue : List FileSender) (friendsInfo : List FriendInfo) (addr : ℕ)
    (file : Option Bytes) : Except Fault (ℤ × List FileSender × ℕ) := do
  match ← beNodeLoadfile file with
  | none => pure (-1, fileQueue, addr)
  | some (.list l) =>
    let (fileQueue, addr) ← loadSendersLoop friendsInfo fileQueue addr l
    pure (0, fileQueue, addr)
  | some _ => .error .variant

/-! ### Records -/

/-- What is saved of a transfer. -/
structure SenderRecord where
  toxid : PublicKey
  path : CStr
  info : FileRecord
  deriving DecidableEq

/-- The record of an entry that can be saved. -/
def senderRecord (friendsInfo : List FriendInfo) (f : FileSender) : Option SenderRecord :=
  match f.pathname, friendInfoByFriendNumber friendsInfo f.friendNumber, fileRecord f.info with
  | some path, some fr, some info => some ⟨fr.toxIdBin, path, info⟩
  | _, _, _ => none

/-- The records of a queue, up to the first entry that cannot be saved. -/
def savedRecords (friendsInfo : List FriendInfo) : List FileSender → List SenderRecord
  | [] => []
  | f :: fileQueue =>
    match senderRecord friendsInfo f with
    | none => []
    | some r => r :: savedRecords friendsInfo fileQueue

/-- The dictionary of a record. -/
def SenderRecord.node (r : SenderRecord) : BeNode :=
  .dict [(ascii "toxid", .str (some r.toxid.1)), (ascii "path", .str (some r.path.bytes)),
    (ascii "info", r.info.node)]

/-- The tree of a list of records. -/
def recordsNode (rs : List SenderRecord) : BeNode := .list (rs.map SenderRecord.node)

/-- What `savesender.dat` holds for a list of records. -/
def recordsFile (rs : List SenderRecord) : Option Bytes :=
  if rs = [] then none else some (recordsNode rs).text

theorem senderRecord_eq_some {friendsInfo : List FriendInfo} {f : FileSender} {r : SenderRecord} :
    senderRecord friendsInfo f = some r ↔ f.pathname = some r.path ∧
      (∃ fr, friendInfoByFriendNumber friendsInfo f.friendNumber = some fr ∧ fr.toxIdBin = r.toxid) ∧
      fileRecord f.info = some r.info := by
  unfold senderRecord
  constructor
  · intro h
    split at h
    · next path fr info hpath hfr hinfo =>
      cases h
      exact ⟨hpath, ⟨fr, hfr, rfl⟩, hinfo⟩
    · cases h
  · rintro ⟨hpath, ⟨fr, hfr, hkey⟩, hinfo⟩
    simp only [hpath, hfr, hinfo, hkey]

theorem senderRecord_isSome {friendsInfo : List FriendInfo} {f : FileSender} (hpath : f.pathname.isSome)
    (hfr : (friendInfoByFriendNumber friendsInfo f.friendNumber).isSome) (hname : f.info.file.isSome)
    (hhash : f.info.blake2b.isSome) : ∃ r, senderRecord friendsInfo f = some r := by
  obtain ⟨path, hpath⟩ := Option.isSome_iff_exists.mp hpath
  obtain ⟨fr, hfr⟩ := Option.isSome_iff_exists.mp hfr
  obtain ⟨name, hname⟩ := Option.isSome_iff_exists.mp hname
  obtain ⟨hash, hhash⟩ := Option.isSome_iff_exists.mp hhash
  exact ⟨⟨fr.toxIdBin, path, name, f.info.length, hash⟩,
    senderRecord_eq_some.mpr ⟨hpath, ⟨fr, hfr, rfl⟩, by simp [fileRecord, hname, hhash]⟩⟩

/-- The lengths `save_senders` keeps in an `int`. -/
def SenderRecord.Short (r : SenderRecord) : Prop :=
  r.path.bytes.length ≤ INT_MAX ∧ r.info.name.bytes.length ≤ INT_MAX

/-- An entry with a record gives its dictionary. -/
theorem senderNode_eq {friendsInfo : List FriendInfo} {f : FileSender} {r : SenderRecord}
    (h : senderRecord friendsInfo f = some r) (hr : r.Short) :
    senderNode friendsInfo f = .ok (some r.node) := by
  obtain ⟨hpath, ⟨fr, hfr, hkey⟩, hinfo⟩ := senderRecord_eq_some.mp h
  have htoxid := beCreateStrWlen_vec r.toxid (by decide)
  have hpath' := beCreateStrWlen_eq hr.1
  have hinfo' := encodeFileNode_eq hinfo hr.2
  simp only [senderNode, hpath, hfr, hkey, htoxid, hpath', hinfo', ok_bind, pure_eq_ok]
  rfl

/-- Conversely, an entry that gives a dictionary has a record, and one that ends the loop
has none. -/
theorem senderNode_ok {friendsInfo : List FriendInfo} {f : FileSender} {n : Option BeNode}
    (h : senderNode friendsInfo f = .ok n) :
    (n = none ∧ senderRecord friendsInfo f = none) ∨
      ∃ r, n = some r.node ∧ senderRecord friendsInfo f = some r := by
  cases hpath : f.pathname with
  | none =>
    refine .inl ⟨?_, by simp [senderRecord, hpath]⟩
    simp only [senderNode, hpath, pure_eq_ok, Except.ok.injEq] at h
    exact h.symm
  | some path =>
    cases hfr : friendInfoByFriendNumber friendsInfo f.friendNumber with
    | none =>
      refine .inl ⟨?_, by simp [senderRecord, hpath, hfr]⟩
      simp only [senderNode, hpath, hfr, pure_eq_ok, Except.ok.injEq] at h
      exact h.symm
    | some fr =>
      have h' := h
      simp only [senderNode, hpath, hfr] at h
      obtain ⟨toxid, -, h⟩ := bind_eq_ok.mp h
      obtain ⟨pathNode, hpathNode, h⟩ := bind_eq_ok.mp h
      obtain ⟨info, hinfo, h⟩ := bind_eq_ok.mp h
      obtain ⟨r, hr, -, hname⟩ := encodeFileNode_ok hinfo
      have hrec : senderRecord friendsInfo f = some ⟨fr.toxIdBin, path, r⟩ :=
        senderRecord_eq_some.mpr ⟨hpath, ⟨fr, hfr, rfl⟩, hr⟩
      have hshort : path.bytes.length ≤ INT_MAX := by
        by_contra hlong
        simp [beCreateStrWlen, toCInt, hlong] at hpathNode
      exact .inr ⟨_, Except.ok.inj (h'.symm.trans (senderNode_eq hrec ⟨hshort, hname⟩)), hrec⟩

/-- Where the loop of `save_senders` succeeds, it lists the records of the queue. -/
theorem sendersRoot_ok {friendsInfo : List FriendInfo} (q : List FileSender) :
    ∀ {l : List BeNode} {root : BeNode}, sendersRoot friendsInfo (.list l) q = .ok root →
      root = .list (l ++ (savedRecords friendsInfo q).map SenderRecord.node) := by
  induction q with
  | nil =>
    intro l root h
    cases h
    simp [savedRecords]
  | cons f q ih =>
    intro l root h
    obtain ⟨n, hn, h⟩ := bind_eq_ok.mp h
    rcases senderNode_ok hn with ⟨rfl, hrec⟩ | ⟨r, rfl, hrec⟩
    · cases h
      simp [savedRecords, hrec]
    · rw [ih h]
      simp [savedRecords, hrec]

/-- The loop succeeds on a queue whose records are short. -/
theorem sendersRoot_eq (friendsInfo : List FriendInfo) (q : List FileSender) :
    ∀ (l : List BeNode), (∀ f ∈ q, ∃ r, senderRecord friendsInfo f = some r ∧ r.Short) →
      ∃ root, sendersRoot friendsInfo (.list l) q = .ok root := by
  induction q with
  | nil => intro l _; exact ⟨_, rfl⟩
  | cons f q ih =>
    intro l h
    obtain ⟨r, hrec, hshort⟩ := h f List.mem_cons_self
    obtain ⟨root, hroot⟩ := ih (l ++ [r.node]) fun g hg => h g (List.mem_cons_of_mem f hg)
    refine ⟨root, ?_⟩
    rw [sendersRoot, senderNode_eq hrec hshort, ok_bind]
    exact hroot

theorem mem_savedRecords {friendsInfo : List FriendInfo} {q : List FileSender}
    (h : ∀ f ∈ q, ∃ r, senderRecord friendsInfo f = some r) {f : FileSender} (hf : f ∈ q)
    {r : SenderRecord} (hr : senderRecord friendsInfo f = some r) : r ∈ savedRecords friendsInfo q := by
  induction q with
  | nil => cases hf
  | cons g q ih =>
    obtain ⟨s, hs⟩ := h g List.mem_cons_self
    simp only [savedRecords, hs]
    rcases List.mem_cons.mp hf with rfl | hf
    · rw [hr] at hs
      cases hs
      exact List.mem_cons_self
    · exact List.mem_cons_of_mem s (ih (fun x hx => h x (List.mem_cons_of_mem g hx)) hf)

/-! ### What is written -/

theorem recordsNode_wf (rs : List SenderRecord) : (recordsNode rs).Wf := by
  apply listWf_of_forall
  intro n hn
  obtain ⟨r, -, rfl⟩ := List.mem_map.mp hn
  exact ⟨by decide, rfl, by decide, rfl, by decide, r.info.node_wf, trivial⟩

/-- The strings of a record are shorter than the text of the records. -/
theorem short_of_mem {rs : List SenderRecord} {r : SenderRecord} (hr : r ∈ rs)
    (h : (recordsNode rs).text.length < INT_MAX) : r.Short := by
  have hname := r.info.name_length_le
  have hnode : r.path.bytes.length + r.info.node.text.length ≤ r.node.text.length := by
    simp only [SenderRecord.node, BeNode.text, dictText, strText, Option.getD_some, List.length_append,
      List.length_cons]
    omega
  have hlist := (length_text_lt_of_mem (List.mem_map_of_mem hr)).trans h
  exact ⟨by omega, by omega⟩

theorem two_lt_recordsNode {rs : List SenderRecord} : 2 < (recordsNode rs).text.length ↔ rs ≠ [] := by
  rw [recordsNode, two_lt_length_text_list, Ne, List.map_eq_nil_iff]

/-- **What `save_senders` writes** where it writes without a fault or a disk error: the
records of the queue up to the first entry that cannot be saved. -/
theorem saveSenders_ok {heap : ℕ → UInt8} {q : List FileSender} {friendsInfo : List FriendInfo}
    {old file : Option Bytes} {ret : ℤ} (h : saveSenders heap .complete q friendsInfo old = .ok (ret, file)) :
    ret = 0 ∧ file = recordsFile (savedRecords friendsInfo q) ∧
      (recordsNode (savedRecords friendsInfo q)).text.length < INT_MAX := by
  obtain ⟨root, hroot, h⟩ := bind_eq_ok.mp h
  obtain ⟨msg, hmsg, h⟩ := bind_eq_ok.mp h
  have hroot' : root = recordsNode (savedRecords friendsInfo q) := sendersRoot_ok q hroot
  obtain ⟨rfl, hlen⟩ := encodeRoot_ok hmsg
  rw [hroot'] at h hlen
  split_ifs at h with h2
  · cases h
    exact ⟨rfl, by rw [recordsFile, if_neg (two_lt_recordsNode.mp h2)], hlen⟩
  · cases h
    refine ⟨rfl, ?_, hlen⟩
    rw [recordsFile, if_pos (by_contra fun hne => h2 (two_lt_recordsNode.mpr hne))]

/-- `save_senders` succeeds on a queue whose entries can all be saved. -/
theorem saveSenders_eq (heap : ℕ → UInt8) {q : List FileSender} {friendsInfo : List FriendInfo}
    (old : Option Bytes) (h : ∀ f ∈ q, ∃ r, senderRecord friendsInfo f = some r)
    (hsize : (recordsNode (savedRecords friendsInfo q)).text.length < INT_MAX) :
    saveSenders heap .complete q friendsInfo old = .ok (0, recordsFile (savedRecords friendsInfo q)) := by
  obtain ⟨root, hroot⟩ := sendersRoot_eq friendsInfo q [] fun f hf => by
    obtain ⟨r, hr⟩ := h f hf
    exact ⟨r, hr, short_of_mem (mem_savedRecords h hf hr) hsize⟩
  have hroot' : root = recordsNode (savedRecords friendsInfo q) := sendersRoot_ok q hroot
  cases hsave : saveSenders heap .complete q friendsInfo old with
  | ok r =>
    obtain ⟨ret, file⟩ := r
    obtain ⟨rfl, rfl, -⟩ := saveSenders_ok hsave
    rfl
  | error e =>
    unfold saveSenders at hsave
    rw [show beCreateList = .list [] from rfl, hroot, ok_bind, hroot', encodeRoot_eq heap hsize, ok_bind]
      at hsave
    split_ifs at hsave <;> cases hsave

/-! ### What is loaded -/

/-- The entry `load_senders` makes of a record. -/
def SenderRecord.sender (r : SenderRecord) (addr : ℕ) (friendNumber : UInt32) : FileSender :=
  { FileSender.zero addr with
    friendNumber
    pathname := some r.path
    info := { FileNode.zero with
      file := some r.info.name, length := r.info.length, blake2b := some r.info.hash } }

/-- The entries `load_senders` makes of records, the first record's first. -/
def loadedFrom (friendsInfo : List FriendInfo) : ℕ → List SenderRecord → List FileSender
  | _, [] => []
  | addr, r :: rs =>
    match friendInfoByPublicKeybin friendsInfo r.toxid with
    | none => loadedFrom friendsInfo (addr + 1) rs
    | some fr => r.sender addr fr.friendNumber :: loadedFrom friendsInfo (addr + 1) rs

theorem lookupToxid_eq (friendsInfo : List FriendInfo) (publicKey : PublicKey) :
    lookupToxid friendsInfo (.str (some publicKey.1)) =
      .ok (friendInfoByPublicKeybin friendsInfo publicKey) := by
  cases friendsInfo with
  | nil => rfl
  | cons fr fs => simp only [lookupToxid, copy32_of_vec, ok_bind, pure_eq_ok]

/-- The keys of a transfer's dictionary are read as they are written. -/
theorem cstr_toxid : cstr (ascii "toxid") = ascii "toxid" := by decide

theorem cstr_path : cstr (ascii "path") = ascii "path" := by decide

theorem cstr_info : cstr (ascii "info") = ascii "info" := by decide

/-- None of them is another. -/
theorem path_ne_toxid : ascii "path" ≠ ascii "toxid" := by decide

theorem info_ne_toxid : ascii "info" ≠ ascii "toxid" := by decide

theorem info_ne_path : ascii "info" ≠ ascii "path" := by decide

/-- The dictionary of a record gives its entry, if a friend has the key. -/
theorem loadSender_node (friendsInfo : List FriendInfo) (addr : ℕ) (r : SenderRecord) :
    loadSender friendsInfo (.zero addr)
        [(ascii "toxid", .str (some r.toxid.1)), (ascii "path", .str (some r.path.bytes)),
          (ascii "info", r.info.node)] =
      .ok ((friendInfoByPublicKeybin friendsInfo r.toxid).map fun fr => r.sender addr fr.friendNumber) := by
  simp only [loadSender, cstr_toxid, cstr_path, cstr_info, path_ne_toxid, info_ne_toxid, info_ne_path,
    if_true, if_false, lookupToxid_eq, ok_bind]
  cases friendInfoByPublicKeybin friendsInfo r.toxid with
  | none => rfl
  | some fr =>
    simp only [strVal, pure_eq_ok, ok_bind, decodeFileNode_node, CStr.ofBytes_bytes]
    rfl

theorem loadSendersLoop_eq (friendsInfo : List FriendInfo) (rs : List SenderRecord) :
    ∀ (q : List FileSender) (addr : ℕ),
      loadSendersLoop friendsInfo q addr (rs.map SenderRecord.node) =
        .ok ((loadedFrom friendsInfo addr rs).reverse ++ q, addr + rs.length) := by
  induction rs with
  | nil => intro q addr; rfl
  | cons r rs ih =>
    intro q addr
    rw [List.map_cons, SenderRecord.node, loadSendersLoop, loadSender_node, ok_bind]
    have hlen : addr + (r :: rs).length = addr + 1 + rs.length := by
      rw [List.length_cons]
      omega
    cases hfr : friendInfoByPublicKeybin friendsInfo r.toxid with
    | none => simp only [Option.map_none, ih, loadedFrom, hfr, hlen]
    | some fr => simp only [Option.map_some, ih, loadedFrom, hfr, hlen, List.reverse_cons,
        List.append_assoc, List.singleton_append]

/-- **What `load_senders` makes of records**: an entry for each whose key a friend has. -/
theorem loadSenders_records (q : List FileSender) (friendsInfo : List FriendInfo) (addr : ℕ)
    {rs : List SenderRecord} (hsize : (recordsNode rs).text.length < INT_MAX) :
    loadSenders q friendsInfo addr (recordsFile rs) =
      .ok (if rs = [] then -1 else 0, (loadedFrom friendsInfo addr rs).reverse ++ q, addr + rs.length) := by
  by_cases hrs : rs = []
  · subst hrs
    rfl
  · have hload := beNodeLoadfile_text (recordsNode_wf rs) hsize
    simp only [recordsFile, if_neg hrs, loadSenders, hload, ok_bind]
    simp only [recordsNode, loadSendersLoop_eq, ok_bind, pure_eq_ok]

/-! ### The round trip -/

/-- `g` is the transfer `f`, addressed to the friend among `friendsInfo'` that has the key of
`f`'s friend among `friendsInfo`. -/
structure SameTransfer (friendsInfo friendsInfo' : List FriendInfo) (f g : FileSender) : Prop where
  pathname : g.pathname = f.pathname
  name : g.info.file = f.info.file
  length : g.info.length = f.info.length
  hash : g.info.blake2b = f.info.blake2b
  friend : ∃ fr, friendInfoByFriendNumber friendsInfo f.friendNumber = some fr ∧
    ∃ fr' ∈ friendsInfo', fr'.toxIdBin = fr.toxIdBin ∧ g.friendNumber = fr'.friendNumber ∧
      ∀ other ∈ friendsInfo', other.toxIdBin = fr.toxIdBin → other = fr'

theorem sameTransfer_loadedFrom {friendsInfo friendsInfo' : List FriendInfo}
    (hkeys : (friendsInfo'.map FriendInfo.toxIdBin).Nodup)
    (hsame : ∀ fr ∈ friendsInfo, fr.toxIdBin ∈ friendsInfo'.map FriendInfo.toxIdBin)
    (q : List FileSender) : ∀ addr : ℕ, (∀ f ∈ q, ∃ r, senderRecord friendsInfo f = some r) →
      List.Forall₂ (SameTransfer friendsInfo friendsInfo') q
        (loadedFrom friendsInfo' addr (savedRecords friendsInfo q)) := by
  induction q with
  | nil => intro addr _; exact .nil
  | cons f q ih =>
    intro addr h
    obtain ⟨r, hr⟩ := h f List.mem_cons_self
    obtain ⟨hpath, ⟨fr, hfr, hkey⟩, hinfo⟩ := senderRecord_eq_some.mp hr
    obtain ⟨hname, hlength, hhash⟩ := fileRecord_eq_some hinfo
    obtain ⟨fr', hfr'⟩ := exists_find?_key FriendInfo.toxIdBin
      (hsame fr (List.mem_of_find?_eq_some hfr))
    obtain ⟨hmem, hkey'⟩ := mem_of_find?_key FriendInfo.toxIdBin hfr'
    have hlookup : friendInfoByPublicKeybin friendsInfo' r.toxid = some fr' := hkey ▸ hfr'
    simp only [savedRecords, hr, loadedFrom, hlookup]
    refine .cons ⟨hpath.symm, hname.symm, hlength.symm, hhash.symm, fr, hfr, fr', hmem, hkey', rfl, ?_⟩
      (ih (addr + 1) fun g hg => h g (List.mem_cons_of_mem f hg))
    intro other hother heq
    exact List.inj_on_of_nodup_map hkeys hother hmem (heq.trans hkey'.symm)

/-- **`savesender.dat` round-trips**: against friends with the same keys, whatever their
numbers, loading gives the entries that were saved, each once and for its friend. -/
theorem senders_round_trip (heap : ℕ → UInt8) {q : List FileSender}
    {friendsInfo friendsInfo' : List FriendInfo} (old : Option Bytes) (addr : ℕ)
    (hq : ∀ f ∈ q, f.pathname.isSome ∧ (friendInfoByFriendNumber friendsInfo f.friendNumber).isSome ∧
      f.info.file.isSome ∧ f.info.blake2b.isSome)
    (hkeys : (friendsInfo'.map FriendInfo.toxIdBin).Nodup)
    (hsame : ∀ fr ∈ friendsInfo, fr.toxIdBin ∈ friendsInfo'.map FriendInfo.toxIdBin)
    (hsize : (recordsNode (savedRecords friendsInfo q)).text.length < INT_MAX) :
    ∃ file ret loaded addr', saveSenders heap .complete q friendsInfo old = .ok (0, file) ∧
      loadSenders [] friendsInfo' addr file = .ok (ret, loaded, addr') ∧
      List.Forall₂ (SameTransfer friendsInfo friendsInfo') q loaded.reverse := by
  have hrec : ∀ f ∈ q, ∃ r, senderRecord friendsInfo f = some r := fun f hf => by
    obtain ⟨hpath, hfr, hname, hhash⟩ := hq f hf
    exact senderRecord_isSome hpath hfr hname hhash
  refine ⟨_, _, _, _, saveSenders_eq heap old hrec hsize, loadSenders_records [] friendsInfo' addr hsize, ?_⟩
  rw [List.append_nil, List.reverse_reverse]
  exact sameTransfer_loadedFrom hkeys hsame q addr hrec

/-- A friend with a key. -/
def somebody (friendNumber : UInt32) : FriendInfo :=
  { zeroEntry with friendNumber, toxIdBin := someKey 5 }

/-- A transfer to a friend. -/
def someTransfer (friendNumber : UInt32) : FileSender :=
  ⟨0, ⟨some (.ofBytes (ascii "a")), some (someKey 58), 0, 7, true⟩, some (.ofBytes (ascii "/a")), none, 3,
    friendNumber, 0⟩

/-- A transfer to a friend who has another number after the restart. -/
theorem senders_round_trip_renumbered :
    ∃ file ret loaded addr', saveSenders (fun _ => 0) .complete [someTransfer 1] [somebody 1] none =
        .ok (0, file) ∧
      loadSenders [] [zeroEntry, somebody 4] 0 file = .ok (ret, loaded, addr') ∧
      List.Forall₂ (SameTransfer [somebody 1] [zeroEntry, somebody 4]) [someTransfer 1] loaded.reverse :=
  senders_round_trip _ _ _ (by decide) (by decide) (by decide) (by decide +kernel)

end ToxSuite.File
