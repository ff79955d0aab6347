import ToxSuite.File.Shared

/-!
# The list of shared files after a restart

`load_shrlist` goes through a tree by the keys it finds in it and not by the tags
of the nodes. What it then reads of a node that is something else, of a string past
its end, or of a message past its last byte is memory that the tree does not
describe: `Memory` stands for it. A process goes on with whatever is there, unless
it follows a pointer out of its memory. `loadShrlistIn_of_ok`: where nothing of the
kind is read, the memory does not matter.

`shrlist_survives_iff`: a list is restored if and only if there is nothing to
restore and the process gets through what the file held before. An empty list is not
written at all, and what `load_shrlist` makes of a file stays in its own array.
-/

namespace ToxSuite.File

open ToxSuite.Lib ToxSuite.Bencode ToxSuite.Friend

/-! ### Memory beside the tree -/

/-- What is read of a node as something it is not; `none` where a pointer leads out of the memory
of the process. -/
structure Misread where
  /-- `val.i`. -/
  int : BeNode → Int64
  /-- The string at `val.s`. -/
  str : BeNode → Option Bytes
  /-- The 32 bytes at `val.s`. -/
  hash : BeNode → Option FileId
  /-- The array at `val.l`, up to its `NULL`. -/
  list : BeNode → Option (List BeNode)
  /-- The array at `val.d`, up to the entry whose value is `NULL`. -/
  dict : BeNode → Option (List (Bytes × BeNode))

/-- The memory a load comes across beside the tree. -/
structure Memory where
  /-- What can be read behind the message. -/
  behind : Bytes
  /-- What is read of the root. -/
  root : Misread
  /-- What is read of the element `k`. -/
  element : ℕ → Misread
  /-- What is read of the value of the entry `j` of the element `k`. -/
  entry : ℕ → ℕ → Misread

/-- A node whose pointers are `NULL`. -/
def isNull : BeNode → Bool
  | .str none => true
  | .int 0 => true
  | _ => false

/-- A member that the tag does not name. -/
def misread {α : Type} (read : BeNode → Option α) (n : BeNode) : Option α :=
  if isNull n then none else read n

section

variable (m : Misread)

/-- `node->val.s`, as a string. -/
def Misread.strOf : BeNode → Option Bytes
  | .str (some s) => some s
  | n => misread m.str n

/-- `node->val.s`, as 32 bytes. -/
def Misread.hashOf : BeNode → Option FileId
  | .str (some s) =>
    match copy32 s with
    | .ok hash => some hash
    | .error _ => m.hash (.str (some s))
  | n => misread m.hash n

/-- `node->val.i`. -/
def Misread.intOf : BeNode → Int64
  | .int i => i
  | n => m.int n

/-- `node->val.l`. -/
def Misread.listOf : BeNode → Option (List BeNode)
  | .list l => some l
  | n => misread m.list n

/-- `node->val.d`. -/
def Misread.dictOf : BeNode → Option (List (Bytes × BeNode))
  | .dict d => some d
  | n => misread m.dict n

end

/-- A pointer that is followed. -/
def follow {α : Type} : Option α → Except Fault α
  | some a => pure a
  | none => .error .overread

/-! ### Loading -/

/-- The loop of `decode_FileNode` from its entry `j` on. -/
def decodeFileNodeLoopIn (entry : ℕ → Misread) (j : ℕ) (f : FileNode) :
    List (Bytes × BeNode) → Except Fault FileNode
  | [] => pure f
  | (key, val) :: d =>
    if cstr key = ascii "name" then do
      let name ← follow ((entry j).strOf val)
      decodeFileNodeLoopIn entry (j + 1) { f with file := some (.ofBytes name) } d
    else if cstr key = ascii "length" then
      decodeFileNodeLoopIn entry (j + 1) { f with length := (entry j).intOf val } d
    else if cstr key = ascii "hash" then do
      let hash ← follow ((entry j).hashOf val)
      decodeFileNodeLoopIn entry (j + 1) { f with blake2b := some hash } d
    else decodeFileNodeLoopIn entry (j + 1) f d

/-- `decode_FileNode` on the element `k`. -/
def decodeFileNodeIn (mem : Memory) (k : ℕ) (f : FileNode) (info : BeNode) : Except Fault FileNode := do
  let d ← follow ((mem.element k).dictOf info)
  decodeFileNodeLoopIn (mem.entry k) 0 f d

/-- The loop of `load_shrlist` from its element `k` on: its local array. `heap` is what the
allocations of the entries held before. -/
def loadShrlistLoopIn (mem : Memory) (heap : ℕ → FileNode) (k : ℕ) (shrList : List FileNode) :
    List BeNode → Except Fault (List FileNode)
  | [] => pure shrList
  | n :: l => do
    let fn ← decodeFileNodeIn mem k (heap shrList.length) n
    loadShrlistLoopIn mem heap (k + 1) (shrList ++ [fn]) l

/-- `be_node_loadfile`: the count is that of the file's bytes, the pointer does not know it. -/
def beNodeLoadfileIn (behind : Bytes) : Option Bytes → Except Fault (Option BeNode)
  | none => pure none
  | some [] => pure none
  | some data => beDecoden (data ++ behind) data.length

/-- `load_shrlist` on what `savfileshr.dat` holds: what it returns, and the static it leaves. -/
def loadShrlistIn (mem : Memory) (heap : ℕ → FileNode) (shared : SharedList) (file : Option Bytes) :
    Except Fault (ℤ × SharedList) := do
  let shrList ← shared.entries
  match ← beNodeLoadfileIn mem.behind file with
  | none => pure (-1, shared)
  | some root => do
    let l ← follow (mem.root.listOf root)
    let _ ← loadShrlistLoopIn mem heap 0 shrList l
    match shared, l with
    | .array _, _ :: _ => pure (0, .released)
    | _, _ => pure (0, shared)

/-! ### Where the memory does not matter -/

section

variable {entry : ℕ → Misread} {mem : Memory} {heap : ℕ → FileNode}

theorem strOf_of_strVal {m : Misread} {n : BeNode} {s : Bytes} (h : strVal n = .ok s) : m.strOf n = some s := by
  rw [strVal_eq_ok.mp h]
  rfl

theorem hashOf_of_copy32 {m : Misread} {n : BeNode} {s : Bytes} {v : Vec 32} (hs : strVal n = .ok s)
    (h : copy32 s = .ok v) : m.hashOf n = some v := by
  rw [strVal_eq_ok.mp hs, Misread.hashOf, h]

theorem decodeFileNodeLoopIn_of_ok (d : List (Bytes × BeNode)) : ∀ (j : ℕ) {f f' : FileNode},
    decodeFileNodeLoop f d = .ok f' → decodeFileNodeLoopIn entry j f d = .ok f' := by
  induction d with
  | nil => exact fun _ _ _ h => h
  | cons e d ih =>
    intro j f f' h
    obtain ⟨key, val⟩ := e
    unfold decodeFileNodeLoop at h
    unfold decodeFileNodeLoopIn
    split_ifs at h ⊢ with hname hlength hhash
    · obtain ⟨name, hs, h⟩ := bind_eq_ok.mp h
      rw [strOf_of_strVal hs, follow, pure_eq_ok, ok_bind]
      exact ih _ h
    · cases val with
      | int i => exact ih _ h
      | _ => cases h
    · obtain ⟨s, hs, h⟩ := bind_eq_ok.mp h
      obtain ⟨v, hv, h⟩ := bind_eq_ok.mp h
      rw [hashOf_of_copy32 hs hv, follow, pure_eq_ok, ok_bind]
      exact ih _ h
    · exact ih _ h

theorem decodeFileNodeIn_of_ok {k : ℕ} {f f' : FileNode} {n : BeNode} (h : decodeFileNode f n = .ok f') :
    decodeFileNodeIn mem k f n = .ok f' := by
  cases n with
  | dict d => exact decodeFileNodeLoopIn_of_ok d 0 h
  | _ => cases h

theorem loadShrlistLoopIn_of_ok (l : List BeNode) : ∀ (k : ℕ) {shrList shrList' : List FileNode},
    loadShrlistLoop heap shrList l = .ok shrList' → loadShrlistLoopIn mem heap k shrList l = .ok shrList' := by
  induction l with
  | nil => exact fun _ _ _ h => h
  | cons n l ih =>
    intro k shrList shrList' h
    obtain ⟨fn, hfn, h⟩ := bind_eq_ok.mp h
    rw [loadShrlistLoopIn, decodeFileNodeIn_of_ok hfn, ok_bind]
    exact ih _ h

theorem beNodeLoadfileIn_of_ok {file : Option Bytes} {root : Option BeNode} (h : beNodeLoadfile file = .ok root)
    (behind : Bytes) : beNodeLoadfileIn behind file = .ok root := by
  cases file with
  | none => exact h
  | some data => cases data with
    | nil => exact h
    | cons c data => exact beDecoden_append h behind

/-- **The memory does not matter** to a load that stays inside its message and the types. -/
theorem loadShrlistIn_of_ok {shared : SharedList} {file : Option Bytes} {r : ℤ × SharedList}
    (h : loadShrlist heap shared file = .ok r) : loadShrlistIn mem heap shared file = .ok r := by
  obtain ⟨shrList, hshared, h⟩ := bind_eq_ok.mp h
  obtain ⟨root, hroot, h⟩ := bind_eq_ok.mp h
  rw [loadShrlistIn, hshared, ok_bind, beNodeLoadfileIn_of_ok hroot, ok_bind]
  cases root with
  | none => exact h
  | some root => cases root with
    | list l =>
      obtain ⟨shrList', hloop, h⟩ := bind_eq_ok.mp h
      dsimp only [Misread.listOf, follow]
      rw [pure_eq_ok, ok_bind, loadShrlistLoopIn_of_ok l 0 hloop, ok_bind]
      exact h
    | _ => cases h

end

/-! ### What a process gets through -/

/-- An entry of a dictionary that a process gets through: a name that can be read, a hash that can
be copied. A length is there in any node. -/
def FieldReads (m : Misread) (key : Bytes) (val : BeNode) : Prop :=
  (cstr key = ascii "name" → (m.strOf val).isSome) ∧ (cstr key = ascii "hash" → (m.hashOf val).isSome)

/-- An element that a process gets through. -/
def NodeReads (mem : Memory) (k : ℕ) (n : BeNode) : Prop :=
  ∃ d, (mem.element k).dictOf n = some d ∧ ∀ e ∈ d.zipIdx, FieldReads (mem.entry k e.2) e.1.1 e.1.2

/-- A file that a process gets through: one that gives no tree, or a tree whose elements it gets
through. -/
def Readable (mem : Memory) (file : Option Bytes) : Prop :=
  beNodeLoadfileIn mem.behind file = .ok none ∨
    ∃ root l, beNodeLoadfileIn mem.behind file = .ok (some root) ∧ mem.root.listOf root = some l ∧
      ∀ e ∈ l.zipIdx, NodeReads mem e.2 e.1

theorem follow_isOk {α : Type} {o : Option α} : (∃ a, follow o = .ok a) ↔ o.isSome := by
  cases o <;> simp [follow]

theorem follow_eq_ok {α : Type} {o : Option α} {a : α} : follow o = .ok a ↔ o = some a := by
  cases o <;> simp [follow]

/-- The loop of `decode_FileNode` gets through the entries it can read, whatever it has decoded
before. -/
theorem decodeFileNodeLoopIn_isOk (entry : ℕ → Misread) (d : List (Bytes × BeNode)) :
    ∀ (j : ℕ) (f : FileNode), (∃ f', decodeFileNodeLoopIn entry j f d = .ok f') ↔
      ∀ e ∈ d.zipIdx j, FieldReads (entry e.2) e.1.1 e.1.2 := by
  induction d with
  | nil => intro j f; simp [decodeFileNodeLoopIn]
  | cons e d ih =>
    intro j f
    obtain ⟨key, val⟩ := e
    rw [List.zipIdx_cons, List.forall_mem_cons, FieldReads]
    unfold decodeFileNodeLoopIn
    by_cases hname : cstr key = ascii "name"
    · rw [if_pos hname, bind_isOk]
      simp only [ih, exists_and_right, follow_isOk, hname, name_ne_hash, true_imp_iff, false_imp_iff, and_true]
    · rw [if_neg hname]
      by_cases hlength : cstr key = ascii "length"
      · rw [if_pos hlength, ih]
        simp only [hlength, name_ne_length.symm, length_ne_hash, false_imp_iff, and_true, true_and]
      · rw [if_neg hlength]
        by_cases hhash : cstr key = ascii "hash"
        · rw [if_pos hhash, bind_isOk]
          simp only [ih, exists_and_right, follow_isOk, hhash, name_ne_hash.symm, true_imp_iff, false_imp_iff,
            true_and]
        · rw [if_neg hhash, ih]
          simp only [hname, hhash, false_imp_iff, true_and]

theorem decodeFileNodeIn_isOk {mem : Memory} {k : ℕ} {f : FileNode} {n : BeNode} :
    (∃ f', decodeFileNodeIn mem k f n = .ok f') ↔ NodeReads mem k n := by
  rw [decodeFileNodeIn, bind_isOk]
  simp only [follow_eq_ok, decodeFileNodeLoopIn_isOk, NodeReads]

theorem loadShrlistLoopIn_isOk (mem : Memory) (heap : ℕ → FileNode) (l : List BeNode) :
    ∀ (k : ℕ) (shrList : List FileNode), (∃ shrList', loadShrlistLoopIn mem heap k shrList l = .ok shrList') ↔
      ∀ e ∈ l.zipIdx k, NodeReads mem e.2 e.1 := by
  induction l with
  | nil => intro k shrList; simp [loadShrlistLoopIn]
  | cons n l ih =>
    intro k shrList
    rw [List.zipIdx_cons, List.forall_mem_cons, ← decodeFileNodeIn_isOk (f := heap shrList.length),
      loadShrlistLoopIn, bind_isOk]
    simp only [ih, exists_and_right]

/-- **A fresh process** has no shared files after `load_shrlist`, which gets through exactly the
readable files. -/
theorem loadShrlistIn_null (mem : Memory) (heap : ℕ → FileNode) (file : Option Bytes) :
    (∀ ret shared, loadShrlistIn mem heap .null file = .ok (ret, shared) → shared = .null) ∧
      ((∃ ret shared, loadShrlistIn mem heap .null file = .ok (ret, shared)) ↔ Readable mem file) := by
  unfold loadShrlistIn Readable
  simp only [SharedList.entries, pure_eq_ok, ok_bind]
  cases hload : beNodeLoadfileIn mem.behind file with
  | error e => simp
  | ok root =>
    rw [ok_bind]
    cases root with
    | none =>
      refine ⟨fun ret shared h => ?_, iff_of_true ⟨_, _, rfl⟩ (.inl rfl)⟩
      cases h
      rfl
    | some root =>
      dsimp only
      cases hlist : mem.root.listOf root with
      | none =>
        refine ⟨by simp [follow], iff_of_false (by simp [follow]) ?_⟩
        rintro (h | ⟨root', l, h, hl, -⟩)
        · cases h
        · cases h
          rw [hlist] at hl
          cases hl
      | some l =>
        rw [follow, pure_eq_ok, ok_bind]
        cases hloop : loadShrlistLoopIn mem heap 0 [] l with
        | error e =>
          refine ⟨by simp, iff_of_false (by simp) ?_⟩
          rintro (h | ⟨root', l', h, hl, hreads⟩)
          · cases h
          · cases h
            rw [hlist] at hl
            cases hl
            obtain ⟨shrList, hs⟩ := (loadShrlistLoopIn_isOk mem heap l 0 []).mpr hreads
            rw [hs] at hloop
            cases hloop
        | ok shrList =>
          refine ⟨fun ret shared h => ?_, iff_of_true ⟨0, .null, rfl⟩ (.inr ⟨root, l, rfl, hlist, ?_⟩)⟩
          · cases h
            rfl
          · exact (loadShrlistLoopIn_isOk mem heap l 0 []).mp ⟨_, hloop⟩

/-! ### The restart -/

/-- **The shared-file list survives a restart** if and only if it is empty and the process gets
through the file that `dump_shrlist` then leaves as it was. -/
theorem shrlist_survives_iff (heap : ℕ → UInt8) (mem : Memory) (heap' : ℕ → FileNode) {shrlist : List FileNode}
    {old file : Option Bytes} (hdump : dumpShrlist heap .complete shrlist old = .ok file) :
    (∃ ret shared entries, loadShrlistIn mem heap' .null file = .ok (ret, shared) ∧
        shared.entries = .ok entries ∧ entries.map fileRecord = shrlist.map fileRecord) ↔
      shrlist = [] ∧ Readable mem old := by
  obtain ⟨hnull, hread⟩ := loadShrlistIn_null mem heap' file
  constructor
  · rintro ⟨ret, shared, entries, hload, hentries, hsame⟩
    have hempty : shrlist = [] := by
      rw [hnull ret shared hload] at hentries
      cases hentries
      simpa [eq_comm] using hsame
    subst hempty
    rw [dumpShrlist_nil] at hdump
    cases hdump
    exact ⟨rfl, hread.mp ⟨ret, shared, hload⟩⟩
  · rintro ⟨rfl, hold⟩
    rw [dumpShrlist_nil] at hdump
    cases hdump
    obtain ⟨ret, shared, hload⟩ := hread.mpr hold
    exact ⟨ret, shared, [], hload, by rw [hnull ret shared hload]; rfl, rfl⟩

theorem filesNode_small : (filesNode [sharedFile]).text.length < INT_MAX := by decide +kernel

/-- A file in which a length is a string. -/
theorem beNodeLoadfile_oddLength : beNodeLoadfile (some (ascii "ld6:length1:xee")) =
    .ok (some (.list [.dict [(ascii "length", .str (some (ascii "x")))]])) := by
  have htext : (BeNode.list [.dict [(ascii "length", .str (some (ascii "x")))]]).text =
      ascii "ld6:length1:xee" := by decide +kernel
  rw [← htext]
  exact beNodeLoadfile_text ⟨⟨by decide, rfl, trivial⟩, trivial⟩ (by decide +kernel)

/-- A memory in which every pointer that is none leads out of the process. -/
def walled : Memory :=
  let m : Misread := ⟨fun _ => -1, fun _ => none, fun _ => none, fun _ => none, fun _ => none⟩
  ⟨[], m, fun _ => m, fun _ _ => m⟩

/-- Over that file an empty list is empty again, and a list of one file is not there again. -/
theorem shrlist_survives_iff_oddLength :
    (∃ ret shared entries, loadShrlistIn walled (fun _ => FileNode.zero) .null (some (ascii "ld6:length1:xee")) =
        .ok (ret, shared) ∧ shared.entries = .ok entries ∧ entries.map fileRecord = [].map fileRecord) ∧
      ¬ ∃ ret shared entries,
        loadShrlistIn walled (fun _ => FileNode.zero) .null (some (filesNode [sharedFile]).text) =
          .ok (ret, shared) ∧ shared.entries = .ok entries ∧ entries.map fileRecord = oneShared.map fileRecord := by
  have hkeeps := dumpShrlist_nil (fun _ => 0) .complete (some (ascii "ld6:length1:xee"))
  have hwrites := dumpShrlist_eq (fun _ => 0) (some (ascii "ld6:length1:xee"))
    (show oneShared.map fileRecord = [sharedFile].map some from rfl) (List.cons_ne_nil _ _) filesNode_small
  constructor
  · refine (shrlist_survives_iff (fun _ => 0) walled _ hkeeps).mpr ⟨rfl, .inr ⟨_, _,
      beNodeLoadfileIn_of_ok beNodeLoadfile_oddLength [], rfl, ?_⟩⟩
    simp only [List.zipIdx_cons, List.zipIdx_nil, List.forall_mem_singleton]
    refine ⟨_, rfl, ?_⟩
    simp only [List.zipIdx_cons, List.zipIdx_nil, List.forall_mem_singleton]
    exact ⟨fun h => absurd h (by decide), fun h => absurd h (by decide)⟩
  · intro h
    cases ((shrlist_survives_iff (fun _ => 0) walled _ hwrites).mp h).1

/-- A list of one file is written, and a fresh process that loads it has none. -/
theorem dumped_list_not_restored :
    ∃ file shared, dumpShrlist (fun _ => 0) .complete oneShared none = .ok (some file) ∧
      (∀ mem, loadShrlistIn mem (fun _ => FileNode.zero) .null (some file) = .ok (0, shared)) ∧
      shared.entries = .ok [] :=
  ⟨_, _, dumpShrlist_eq _ none rfl (List.cons_ne_nil _ _) filesNode_small,
    fun _ => loadShrlistIn_of_ok (loadShrlist_dumped _ filesNode_small).2, rfl⟩

end ToxSuite.File
