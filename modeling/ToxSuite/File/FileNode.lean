import ToxSuite.Bencode.Decode
import ToxSuite.File.Sender

/-!
# `tsfiles.c`: a file's record, and trees on disk

`encode_FileNode` and `decode_FileNode` put what is known of a file into a
dictionary and take it out again; `encodeRoot` and `be_node_loadfile` put a tree
into a file and take it out again. Both pairs are shared by the two files the
program keeps, that of the pending transfers and that of the shared files.

A field that is read as another variant than it was written as, a `NULL` that is
followed and a copy past the end of a string are faults.
-/

namespace ToxSuite.File

open ToxSuite.Lib ToxSuite.Bencode

/-! ### A file's record -/

/-- `encode_FileNode`. -/
def encodeFileNode (info : BeNode) (fn : FileNode) : Except Fault BeNode :=
  match fn.file, fn.blake2b with
  | some file, some blake2b => do
    let name ← beCreateStrWlen file.bytes file.bytes.length
    let length := beCreateInt fn.length
    let hash ← beCreateStrWlen blake2b.1 TOX_FILE_ID_LENGTH
    pure (beAddKeypair (beAddKeypair (beAddKeypair info (ascii "name") name) (ascii "length") length)
      (ascii "hash") hash)
  | _, _ => .error .null

/-- `node->val.s`, which is followed. -/
def strVal : BeNode → Except Fault Bytes
  | .str (some s) => pure s
  | .str none => .error .null
  | _ => .error .variant

/-- `memcpy` of 32 bytes from a string node's bytes and their terminator. -/
def copy32 (s : Bytes) : Except Fault (Vec 32) :=
  if h : 32 ≤ (s ++ [0]).length then pure ⟨(s ++ [0]).take 32, List.length_take_of_le h⟩
  else .error .overread

/-- The loop of `decode_FileNode`. -/
def decodeFileNodeLoop (f : FileNode) : List (Bytes × BeNode) → Except Fault FileNode
  | [] => pure f
  | (key, val) :: d =>
    if cstr key = ascii "name" then do
      let name ← strVal val
      decodeFileNodeLoop { f with file := some (.ofBytes name) } d
    else if cstr key = ascii "length" then
      match val with
      | .int length => decodeFileNodeLoop { f with length } d
      | _ => .error .variant
    else if cstr key = ascii "hash" then do
      let hash ← strVal val
      let hash ← copy32 hash
      decodeFileNodeLoop { f with blake2b := some hash } d
    else decodeFileNodeLoop f d

/-- `decode_FileNode`. -/
def decodeFileNode (f : FileNode) : BeNode → Except Fault FileNode
  | .dict d => decodeFileNodeLoop f d
  | _ => .error .variant

/-- What is saved of a file. -/
structure FileRecord where
  name : CStr
  length : Int64
  hash : FileId
  deriving DecidableEq

/-- The record of a `FileNode` that has a name and a hash. -/
def fileRecord (fn : FileNode) : Option FileRecord :=
  match fn.file, fn.blake2b with
  | some name, some hash => some ⟨name, fn.length, hash⟩
  | _, _ => none

/-- The dictionary of a record. -/
def FileRecord.node (r : FileRecord) : BeNode :=
  .dict [(ascii "name", .str (some r.name.bytes)), (ascii "length", .int r.length),
    (ascii "hash", .str (some r.hash.1))]

theorem fileRecord_eq_some {fn : FileNode} {r : FileRecord} (h : fileRecord fn = some r) :
    fn.file = some r.name ∧ fn.length = r.length ∧ fn.blake2b = some r.hash := by
  unfold fileRecord at h
  split at h
  · next name hash hname hhash =>
    cases h
    exact ⟨hname, rfl, hhash⟩
  · cases h

theorem copy32_of_vec (v : Vec 32) : copy32 v.1 = .ok v := by
  have hlen := v.2
  unfold copy32
  rw [dif_pos (by rw [List.length_append, hlen]; decide)]
  simp only [pure_eq_ok, Except.ok.injEq]
  exact Subtype.ext (List.take_left' hlen)

theorem beCreateStrWlen_vec {n : ℕ} (v : Vec n) (h : n ≤ INT_MAX) :
    beCreateStrWlen v.1 n = .ok (.str (some v.1)) := by
  obtain ⟨b, rfl⟩ := v
  exact beCreateStrWlen_eq h

/-- A `FileNode` encodes to the dictionary of its record, if that has one. -/
theorem encodeFileNode_eq {fn : FileNode} {r : FileRecord} (h : fileRecord fn = some r)
    (hname : r.name.bytes.length ≤ INT_MAX) : encodeFileNode beCreateDict fn = .ok r.node := by
  obtain ⟨hfile, hlength, hhash⟩ := fileRecord_eq_some h
  have hname' := beCreateStrWlen_eq hname
  have hhash' := beCreateStrWlen_vec r.hash (by decide)
  simp only [encodeFileNode, hfile, hhash, hname', hhash', ok_bind, hlength]
  rfl

/-- Conversely, what `encode_FileNode` succeeds on has a record. -/
theorem encodeFileNode_ok {fn : FileNode} {n : BeNode} (h : encodeFileNode beCreateDict fn = .ok n) :
    ∃ r, fileRecord fn = some r ∧ n = r.node ∧ r.name.bytes.length ≤ INT_MAX := by
  cases hfile : fn.file with
  | none => simp [encodeFileNode, hfile] at h
  | some file =>
    cases hhash : fn.blake2b with
    | none => simp [encodeFileNode, hfile, hhash] at h
    | some hash =>
      have hrec : fileRecord fn = some ⟨file, fn.length, hash⟩ := by simp [fileRecord, hfile, hhash]
      have hlen : file.bytes.length ≤ INT_MAX := by
        by_contra hlong
        simp [encodeFileNode, hfile, hhash, beCreateStrWlen, toCInt, hlong] at h
      refine ⟨_, hrec, ?_, hlen⟩
      exact Except.ok.inj (h.symm.trans (encodeFileNode_eq hrec hlen))

/-- The keys of a file's dictionary are read as they are written. -/
theorem cstr_name : cstr (ascii "name") = ascii "name" := by decide

theorem cstr_length : cstr (ascii "length") = ascii "length" := by decide

theorem cstr_hash : cstr (ascii "hash") = ascii "hash" := by decide

/-- None of them is another. -/
theorem name_ne_length : ascii "name" ≠ ascii "length" := by decide

theorem name_ne_hash : ascii "name" ≠ ascii "hash" := by decide

theorem length_ne_hash : ascii "length" ≠ ascii "hash" := by decide

/-- **Decoding the dictionary of a record** writes the record over the `FileNode`. -/
theorem decodeFileNode_node (f : FileNode) (r : FileRecord) :
    decodeFileNode f r.node =
      .ok { f with file := some r.name, length := r.length, blake2b := some r.hash } := by
  simp only [FileRecord.node, decodeFileNode, decodeFileNodeLoop, cstr_name, cstr_length, cstr_hash,
    name_ne_length.symm, name_ne_hash.symm, length_ne_hash.symm, if_true, if_false, strVal, pure_eq_ok,
    ok_bind, copy32_of_vec, CStr.ofBytes_bytes]

/-- The name of a record is part of the text of its dictionary. -/
theorem FileRecord.name_length_le (r : FileRecord) : r.name.bytes.length ≤ r.node.text.length := by
  simp only [FileRecord.node, BeNode.text, dictText, strText, Option.getD_some, List.length_append,
    List.length_cons]
  omega

theorem FileRecord.node_wf (r : FileRecord) : r.node.Wf := by
  refine ⟨by decide, rfl, by decide, trivial, by decide, rfl, trivial⟩

/-! ### A tree on disk -/

/-- `be_node_len`, `malloc` and `be_encode`: the bytes that are written of the message.
`heap` is what the allocation held before. -/
def encodeRoot (heap : ℕ → UInt8) (root : BeNode) : Except Fault Bytes := do
  let blen ← toCInt (beNodeLen root + 1)
  let (msg, blen) ← beEncode root ((List.range blen).map heap) 0 blen
  pure (msg.take blen)

/-- `be_node_loadfile`; a file that is absent or empty, or does not decode, gives `NULL`. -/
def beNodeLoadfile : Option Bytes → Except Fault (Option BeNode)
  | none => pure none
  | some [] => pure none
  | some data => beDecoden data data.length

/-- The message is the text of the tree; a tree too large for an `int` has none. -/
theorem encodeRoot_eq (heap : ℕ → UInt8) {root : BeNode} (h : root.text.length < INT_MAX) :
    encodeRoot heap root = .ok root.text := by
  have hlen : beNodeLen root + 1 ≤ INT_MAX := by
    rw [beNodeLen_eq]
    omega
  obtain ⟨msg, hmsg, htake⟩ := beEncode_fresh root (show
    ((List.range (beNodeLen root + 1)).map heap).length = beNodeLen root + 1 by simp)
  simp only [encodeRoot, toCInt_of_le hlen, ok_bind, hmsg, htake, pure_eq_ok]

theorem encodeRoot_ok {heap : ℕ → UInt8} {root : BeNode} {msg : Bytes}
    (h : encodeRoot heap root = .ok msg) : msg = root.text ∧ root.text.length < INT_MAX := by
  have hlen : root.text.length < INT_MAX := by
    obtain ⟨blen, hblen, -⟩ := bind_eq_ok.mp h
    unfold toCInt at hblen
    split_ifs at hblen with hle
    rw [beNodeLen_eq] at hle
    omega
  exact ⟨Except.ok.inj (h.symm.trans (encodeRoot_eq heap hlen)), hlen⟩

/-- **Loading the text of a tree** gives the tree. -/
theorem beNodeLoadfile_text {root : BeNode} (hwf : root.Wf) (h : root.text.length < INT_MAX) :
    beNodeLoadfile (some root.text) = .ok (some root) := by
  have hmax : (root.text.length : ℤ) ≤ LLONG_MAX := by
    have h₁ : (INT_MAX : ℤ) ≤ LLONG_MAX := by decide
    omega
  cases htext : root.text with
  | nil => exact absurd htext (text_ne_nil root)
  | cons c t =>
    change beDecoden (c :: t) (c :: t).length = .ok (some root)
    rw [← htext]
    exact beDecoden_text hwf hmax

end ToxSuite.File
