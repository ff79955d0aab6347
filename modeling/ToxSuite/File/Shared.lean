import ToxSuite.File.FileNode

/-!
# The list of shared files on disk

The list of shared files belongs to `fileop.c`, which keeps its array and its
length in statics and gives out both by value. `dump_shrlist` writes the list to
`savfileshr.dat`. `load_shrlist` reads the file into an array that starts as a
copy of the two statics, and "can't set outside fileop" what it has made of them.

Here a node that is read as another variant than its tag names is a fault, as in
`tsfiles.c`'s other loader. `loadShrlist_dumped`: what was dumped is read back, and
lost.
-/

namespace ToxSuite.File

open ToxSuite.Lib ToxSuite.Bencode ToxSuite.Friend

/-- The static `shr_list` of `fileop.c`, up to `shr_list_len`. -/
inductive SharedList where
  /-- `NULL`, as in a fresh process. -/
  | null
  | array (shrList : List FileNode)
  /-- The array was given back by a `realloc` outside `fileop.c`. -/
  | released

/-- The entries `file_get_shared` and `file_get_shared_len` describe. -/
def SharedList.entries : SharedList → Except Fault (List FileNode)
  | .null => pure []
  | .array shrList => pure shrList
  | .released => .error .released

/-! ### Saving -/

/-- The loop of `dump_shrlist`. -/
def shrlistRoot (root : BeNode) : List FileNode → Except Fault BeNode
  | [] => pure root
  | fn :: shrlist => do
    let info ← encodeFileNode beCreateDict fn
    shrlistRoot (beAddList root info) shrlist

/-- `dump_shrlist`: `savfileshr.dat` afterwards. -/
def dumpShrlist (heap : ℕ → UInt8) (io : WriteIO) (shrlist : List FileNode) (old : Option Bytes) :
    Except Fault (Option Bytes) := do
  let root ← shrlistRoot beCreateList shrlist
  let msg ← encodeRoot heap root
  pure (if msg.length > 2 then (io.write old msg).2 else old)

/-! ### Loading -/

/-- The loop of `load_shrlist`: its local array. `heap` is what the allocations of the
entries held before. -/
def loadShrlistLoop (heap : ℕ → FileNode) (shrList : List FileNode) : List BeNode → Except Fault (List FileNode)
  | [] => pure shrList
  | n :: l => do
    let fn ← decodeFileNode (heap shrList.length) n
    loadShrlistLoop heap (shrList ++ [fn]) l

/-- `load_shrlist` on what `savfileshr.dat` holds: what it returns, and the static it leaves.
Its first `realloc` gives the array of the static back. -/
def loadShrlist (heap : ℕ → FileNode) (shared : SharedList) (file : Option Bytes) :
    Except Fault (ℤ × SharedList) := do
  let shrList ← shared.entries
  match ← beNodeLoadfile file with
  | none => pure (-1, shared)
  | some (.list l) => do
    let _ ← loadShrlistLoop heap shrList l
    match shared, l with
    | .array _, _ :: _ => pure (0, .released)
    | _, _ => pure (0, shared)
  | some _ => .error .variant

/-! ### What the loader gets through -/

/-- An entry of a dictionary that `decode_FileNode` reads as what it is. -/
def FieldShaped (key : Bytes) (val : BeNode) : Prop :=
  (cstr key = ascii "name" → ∃ s, val = .str (some s)) ∧
  (cstr key = ascii "length" → ∃ i, val = .int i) ∧
  (cstr key = ascii "hash" → ∃ s, val = .str (some s) ∧ TOX_FILE_ID_LENGTH ≤ s.length + 1)

/-- A dictionary `decode_FileNode` gets through. -/
def NodeShaped (n : BeNode) : Prop :=
  ∃ d, n = .dict d ∧ ∀ e ∈ d, FieldShaped e.1 e.2

theorem strVal_eq_ok {n : BeNode} {s : Bytes} : strVal n = .ok s ↔ n = .str (some s) := by
  cases n with
  | str o => cases o <;> simp [strVal]
  | _ => simp [strVal]

theorem copy32_isOk {s : Bytes} : (∃ v, copy32 s = .ok v) ↔ 32 ≤ s.length + 1 := by
  have hlen : (s ++ [0]).length = s.length + 1 := List.length_append
  unfold copy32
  rw [← hlen]
  split_ifs with h
  · exact iff_of_true ⟨_, rfl⟩ h
  · exact iff_of_false (by rintro ⟨v, hv⟩; cases hv) h

/-- What `decode_FileNode` asks of the entry under each key it knows. -/
theorem fieldShaped_name {key : Bytes} {val : BeNode} (h : cstr key = ascii "name") :
    FieldShaped key val ↔ ∃ s, val = .str (some s) := by
  simp [FieldShaped, h, name_ne_length, name_ne_hash]

theorem fieldShaped_length {key : Bytes} {val : BeNode} (h : cstr key = ascii "length") :
    FieldShaped key val ↔ ∃ i, val = .int i := by
  simp [FieldShaped, h, name_ne_length.symm, length_ne_hash]

theorem fieldShaped_hash {key : Bytes} {val : BeNode} (h : cstr key = ascii "hash") :
    FieldShaped key val ↔ ∃ s, val = .str (some s) ∧ TOX_FILE_ID_LENGTH ≤ s.length + 1 := by
  simp [FieldShaped, h, name_ne_hash.symm, length_ne_hash.symm]

theorem fieldShaped_other {key : Bytes} {val : BeNode} (hname : cstr key ≠ ascii "name")
    (hlength : cstr key ≠ ascii "length") (hhash : cstr key ≠ ascii "hash") : FieldShaped key val := by
  simp [FieldShaped, hname, hlength, hhash]

/-- The loop of `decode_FileNode` gets through the entries it can read, whatever it has
decoded before. -/
theorem decodeFileNodeLoop_isOk (d : List (Bytes × BeNode)) : ∀ f : FileNode,
    (∃ f', decodeFileNodeLoop f d = .ok f') ↔ ∀ e ∈ d, FieldShaped e.1 e.2 := by
  induction d with
  | nil => intro f; simp [decodeFileNodeLoop]
  | cons e d ih =>
    intro f
    obtain ⟨key, val⟩ := e
    rw [List.forall_mem_cons]
    unfold decodeFileNodeLoop
    by_cases hname : cstr key = ascii "name"
    · rw [if_pos hname, fieldShaped_name hname, bind_isOk]
      simp only [strVal_eq_ok, ih, exists_and_right]
    · rw [if_neg hname]
      by_cases hlength : cstr key = ascii "length"
      · rw [if_pos hlength, fieldShaped_length hlength]
        cases val with
        | int i =>
          rw [ih]
          exact ⟨fun h => ⟨⟨i, rfl⟩, h⟩, And.right⟩
        | _ => simp
      · rw [if_neg hlength]
        by_cases hhash : cstr key = ascii "hash"
        · rw [if_pos hhash, fieldShaped_hash hhash, bind_isOk]
          simp only [bind_isOk, strVal_eq_ok, ih, exists_and_right, copy32_isOk, ← and_assoc]
        · rw [if_neg hhash, ih]
          exact ⟨fun h => ⟨fieldShaped_other hname hlength hhash, h⟩, And.right⟩

theorem decodeFileNode_isOk {f : FileNode} {n : BeNode} :
    (∃ f', decodeFileNode f n = .ok f') ↔ NodeShaped n := by
  unfold NodeShaped
  cases n with
  | dict d => simp [decodeFileNode, decodeFileNodeLoop_isOk]
  | _ => simp [decodeFileNode]

theorem loadShrlistLoop_isOk (heap : ℕ → FileNode) (l : List BeNode) : ∀ shrList : List FileNode,
    (∃ shrList', loadShrlistLoop heap shrList l = .ok shrList') ↔ ∀ n ∈ l, NodeShaped n := by
  induction l with
  | nil => intro shrList; simp [loadShrlistLoop]
  | cons n l ih =>
    intro shrList
    rw [List.forall_mem_cons, ← decodeFileNode_isOk (f := heap shrList.length), loadShrlistLoop, bind_isOk]
    simp only [ih, exists_and_right]

/-! ### What is written -/

/-- `dump_shrlist` leaves the file as it was when there is nothing to write. -/
theorem dumpShrlist_nil (heap : ℕ → UInt8) (io : WriteIO) (old : Option Bytes) :
    dumpShrlist heap io [] old = .ok old := by
  have htext : beCreateList.text = [108, 101] := by simp [beCreateList, BeNode.text, listText]
  have hroot : encodeRoot heap beCreateList = .ok [108, 101] := by
    rw [encodeRoot_eq heap (by rw [htext]; decide), htext]
  simp only [dumpShrlist, shrlistRoot, pure_eq_ok, ok_bind, hroot]
  rfl

/-- The tree of a list of records. -/
def filesNode (rs : List FileRecord) : BeNode := .list (rs.map FileRecord.node)

theorem filesNode_wf (rs : List FileRecord) : (filesNode rs).Wf := by
  refine listWf_of_forall fun n hn => ?_
  obtain ⟨r, -, rfl⟩ := List.mem_map.mp hn
  exact r.node_wf

theorem shrlistRoot_eq {rs : List FileRecord} : ∀ {l : List BeNode} {shrlist : List FileNode},
    shrlist.map fileRecord = rs.map some → (∀ r ∈ rs, r.name.bytes.length ≤ INT_MAX) →
      shrlistRoot (.list l) shrlist = .ok (.list (l ++ rs.map FileRecord.node)) := by
  induction rs with
  | nil =>
    intro l shrlist h _
    rw [List.map_nil, List.map_eq_nil_iff] at h
    simp [h, shrlistRoot]
  | cons r rs ih =>
    intro l shrlist h hname
    obtain ⟨fn, shrlist, rfl, hfn, h⟩ := List.map_eq_cons_iff.mp h
    rw [shrlistRoot, encodeFileNode_eq hfn (hname r List.mem_cons_self), ok_bind]
    change shrlistRoot (.list (l ++ [r.node])) shrlist = _
    rw [ih h fun s hs => hname s (List.mem_cons_of_mem r hs)]
    simp

/-- **What `dump_shrlist` writes** of files that have a name and a hash. -/
theorem dumpShrlist_eq (heap : ℕ → UInt8) {shrlist : List FileNode} {rs : List FileRecord}
    (old : Option Bytes) (h : shrlist.map fileRecord = rs.map some) (hne : rs ≠ [])
    (hsize : (filesNode rs).text.length < INT_MAX) :
    dumpShrlist heap .complete shrlist old = .ok (some (filesNode rs).text) := by
  have hroot : shrlistRoot beCreateList shrlist = .ok (filesNode rs) :=
    shrlistRoot_eq h fun r hr => by
      have hlist := (length_text_lt_of_mem (List.mem_map_of_mem hr)).trans hsize
      exact r.name_length_le.trans hlist.le
  have hlong : 2 < (filesNode rs).text.length :=
    two_lt_length_text_list.mpr fun hnil => hne (List.map_eq_nil_iff.mp hnil)
  rw [dumpShrlist, hroot, ok_bind, encodeRoot_eq heap hsize, ok_bind, if_pos hlong]
  rfl

/-- The local array of `load_shrlist` gets all that was written. -/
theorem loadShrlistLoop_filesNode (heap : ℕ → FileNode) (rs : List FileRecord) :
    ∀ shrList : List FileNode, ∃ shrList',
      loadShrlistLoop heap shrList (rs.map FileRecord.node) = .ok shrList' ∧
        shrList'.map fileRecord = shrList.map fileRecord ++ rs.map some := by
  induction rs with
  | nil => intro shrList; exact ⟨shrList, rfl, by simp⟩
  | cons r rs ih =>
    intro shrList
    rw [List.map_cons, loadShrlistLoop, decodeFileNode_node, ok_bind]
    obtain ⟨shrList', hloop, hrec⟩ := ih (shrList ++
      [{ heap shrList.length with file := some r.name, length := r.length, blake2b := some r.hash }])
    exact ⟨shrList', hloop, by simp [hrec, fileRecord]⟩

/-- **What was dumped is lost on the way back**: the array that `load_shrlist` makes of it holds
every file, in order, but it is the function's own. -/
theorem loadShrlist_dumped (heap : ℕ → FileNode) {rs : List FileRecord}
    (hsize : (filesNode rs).text.length < INT_MAX) :
    (∃ shrList, loadShrlistLoop heap [] (rs.map FileRecord.node) = .ok shrList ∧
        shrList.map fileRecord = rs.map some) ∧
      loadShrlist heap .null (some (filesNode rs).text) = .ok (0, .null) := by
  obtain ⟨shrList, hloop, hrec⟩ := loadShrlistLoop_filesNode heap rs []
  refine ⟨⟨shrList, hloop, hrec⟩, ?_⟩
  rw [loadShrlist, SharedList.entries, pure_eq_ok, ok_bind, beNodeLoadfile_text (filesNode_wf rs) hsize,
    ok_bind]
  change (loadShrlistLoop heap [] (rs.map FileRecord.node) >>= fun _ => _) = _
  rw [hloop, ok_bind]
  rfl

/-- A shared file. -/
def sharedFile : FileRecord := ⟨.ofBytes (ascii "a"), 7, someKey 58⟩

/-- A list of one file. -/
def oneShared : List FileNode := [⟨some sharedFile.name, some sharedFile.hash, 0, sharedFile.length, true⟩]

end ToxSuite.File
