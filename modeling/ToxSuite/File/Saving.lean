import ToxSuite.Lib.Breaks
import ToxSuite.File.Savefile
import ToxSuite.File.Shared

/-!
# What is saved

`save_senders` and `dump_shrlist` build a tree, ask `be_node_len` for its size and let
`be_encode` write it into an allocation of that size and one byte more. The two agree on
every tree: no piece the encoder writes is truncated, and none goes beyond the
allocation, so what is handed to `fwrite` is the text of the tree (`beNodeLen_exact`).

The loop of `save_senders` breaks at an entry without a pathname or of a friend who is
no longer there, where it should pass over it. Every entry that can be saved is saved if
and only if none of the others stands before it (`keeps_savable_iff`).
-/

namespace ToxSuite.File

open ToxSuite.Lib ToxSuite.Bencode ToxSuite.Friend

/-! ### Sizes -/

/-- What a run of `be_encode` with a size of `be_node_len + 1` comes to. -/
structure Exact (n : BeNode) (buf buf' : Bytes) (pieces : List Piece) : Prop where
  encodes : beEncode n buf 0 (beNodeLen n + 1 : ℕ) = .ok (buf', beNodeLen n)
  pieces_eq : beEncodePieces n buf 0 (beNodeLen n + 1 : ℕ) = .ok (buf', beNodeLen n, pieces)
  text : buf'.take (beNodeLen n) = n.text
  /-- Nothing is written at or beyond the size. -/
  inside : ∀ p ∈ pieces, p.off + p.written.length ≤ beNodeLen n + 1
  rest : buf'.drop (beNodeLen n + 1) = buf.drop (beNodeLen n + 1)
  /-- Nothing is truncated. -/
  whole : ∀ p ∈ pieces, p.Whole

/-- `be_encode` needs the size `be_node_len` gives, and no more. -/
theorem exact_encode (n : BeNode) {buf : Bytes} (h : beNodeLen n + 1 ≤ buf.length) :
    ∃ buf' pieces, Exact n buf buf' pieces := by
  obtain ⟨buf', pieces, hw, w⟩ := beEncodePieces_spec n buf 0 (beNodeLen n + 1 : ℕ)
    (by rw [beNodeLen_eq]; push_cast; omega) (by push_cast; omega)
  have hforget := forget_beEncodePieces n buf 0 (beNodeLen n + 1 : ℕ)
  rw [hw] at hforget
  rw [← beNodeLen_eq] at hw hforget
  refine ⟨buf', pieces, hforget.symm, hw, ?_, fun p hp => ?_, ?_, w.whole⟩
  · simpa [beNodeLen_eq] using w.wrote.take
  · have := (w.inside p hp).2
    rwa [Nat.zero_add, ← beNodeLen_eq] at this
  · have := w.rest
    rwa [Nat.zero_add, ← beNodeLen_eq] at this

/-- **`be_node_len` predicts `be_encode` exactly**, and `save_senders` and `dump_shrlist` hand the
text of their tree to `fwrite`. -/
theorem beNodeLen_exact (n : BeNode) (h : n.text.length < INT_MAX) :
    (∀ buf : Bytes, beNodeLen n + 1 ≤ buf.length → ∃ buf' pieces, Exact n buf buf' pieces) ∧
      (∀ heap io queue friendsInfo old, sendersRoot friendsInfo beCreateList queue = .ok n →
        saveSenders heap io queue friendsInfo old = .ok
          (if 2 < n.text.length then (if (io.write old n.text).1 then 0 else -1, (io.write old n.text).2)
            else (0, none))) ∧
      ∀ heap io shrlist old, shrlistRoot beCreateList shrlist = .ok n →
        dumpShrlist heap io shrlist old = .ok (if 2 < n.text.length then (io.write old n.text).2 else old) := by
  refine ⟨fun buf hbuf => exact_encode n hbuf, ?_, ?_⟩
  · intro heap io queue friendsInfo old hroot
    simp only [saveSenders, hroot, ok_bind, encodeRoot_eq heap h, gt_iff_lt]
    by_cases hsize : 2 < n.text.length
    · rw [if_pos hsize, if_pos hsize]
      cases io <;> rfl
    · rw [if_neg hsize, if_neg hsize]
      rfl
  · intro heap io shrlist old hroot
    simp only [dumpShrlist, hroot, ok_bind, encodeRoot_eq heap h, gt_iff_lt, pure_eq_ok]

/-- A tree with everything in it. -/
def someTree : BeNode :=
  .list [.int (-9223372036854775808), .str none, .dict [(ascii "a", .str (some [0, 255])), ([98, 0, 99], .list [])]]

/-- It is encoded into an allocation of 100 bytes, of which the first 41 are used. -/
theorem beNodeLen_exact_someTree : beNodeLen someTree + 1 = 41 ∧
    ∃ buf' pieces, Exact someTree (List.replicate 100 7) buf' pieces :=
  ⟨by decide, (beNodeLen_exact someTree (by decide)).1 _ (by decide)⟩

/-! ### What is kept of a queue -/

/-- The entry has a pathname, and its friend is in `friends_info`. -/
def Savable (friendsInfo : List FriendInfo) (f : FileSender) : Bool :=
  f.pathname.isSome && (friendInfoByFriendNumber friendsInfo f.friendNumber).isSome

/-- The strings of the entry that are saved are there, and their lengths fit an `int`. -/
structure Storable (f : FileSender) : Prop where
  path : ∀ pathname, f.pathname = some pathname → pathname.bytes.length ≤ INT_MAX
  name : ∃ name, f.info.file = some name ∧ name.bytes.length ≤ INT_MAX
  hash : f.info.blake2b.isSome

/-- The list `save_senders` builds has the record of each entry that can be saved, in their order,
and `savesender.dat` is removed only when there is no such entry. -/
structure KeepsSavable (friendsInfo : List FriendInfo) (queue : List FileSender) : Prop where
  records : ∃ rs, sendersRoot friendsInfo beCreateList queue = .ok (recordsNode rs) ∧
    List.Forall₂ (fun f r => senderRecord friendsInfo f = some r) (queue.filter (Savable friendsInfo)) rs
  removed : ∀ heap io old ret, saveSenders heap io queue friendsInfo (some old) = .ok (ret, none) →
    ∀ f ∈ queue, ¬ Savable friendsInfo f

section

variable {friendsInfo : List FriendInfo} {f : FileSender}

/-- The loop breaks at an entry that cannot be saved. -/
theorem senderNode_of_not_savable (h : ¬ Savable friendsInfo f) : senderNode friendsInfo f = .ok none := by
  unfold Savable at h
  unfold senderNode
  split
  · next hpath hfr => simp [hpath, hfr] at h
  · rfl

/-- An entry that can be saved, and whose strings can be stored, has its record saved. -/
theorem senderNode_of_savable (h : Savable friendsInfo f) (hf : Storable f) :
    ∃ r, senderRecord friendsInfo f = some r ∧ senderNode friendsInfo f = .ok (some r.node) := by
  obtain ⟨hpath, hfr⟩ := Bool.and_eq_true_iff.mp h
  obtain ⟨name, hname, hshort⟩ := hf.name
  obtain ⟨r, hr⟩ := senderRecord_isSome hpath hfr (by simp [hname]) hf.hash
  obtain ⟨hpath', -, hinfo⟩ := senderRecord_eq_some.mp hr
  refine ⟨r, hr, senderNode_eq hr ⟨hf.path _ hpath', ?_⟩⟩
  rw [Option.some.inj ((fileRecord_eq_some hinfo).1.symm.trans hname)]
  exact hshort

/-- Where a record is saved, the entry can be saved and stored. -/
theorem savable_of_senderNode {n : BeNode} (h : senderNode friendsInfo f = .ok (some n)) :
    Savable friendsInfo f ∧ Storable f ∧ ∃ r, senderRecord friendsInfo f = some r ∧ n = r.node := by
  rcases senderNode_ok h with ⟨hnone, -⟩ | ⟨r, hn, hr⟩
  · cases hnone
  · obtain ⟨hpath, ⟨fr, hfr, -⟩, hinfo⟩ := senderRecord_eq_some.mp hr
    refine ⟨by simp [Savable, hpath, hfr], ?_, r, hr, Option.some.inj hn⟩
    simp only [senderNode, hpath, hfr] at h
    obtain ⟨toxid, -, h⟩ := bind_eq_ok.mp h
    obtain ⟨pathNode, hpathNode, h⟩ := bind_eq_ok.mp h
    obtain ⟨info, henc, h⟩ := bind_eq_ok.mp h
    obtain ⟨fr', hfile, -, hname⟩ := encodeFileNode_ok henc
    obtain ⟨hname', -, hhash⟩ := fileRecord_eq_some hfile
    refine ⟨fun pathname hpath' => ?_, ⟨_, hname', hname⟩, by simp [hhash]⟩
    cases hpath.symm.trans hpath'
    by_contra hlong
    simp [beCreateStrWlen, toCInt, hlong] at hpathNode

end

/-- A queue in which nothing breaks the loop too early. -/
theorem sendersRoot_of_orderly (friendsInfo : List FriendInfo) (queue : List FileSender) :
    ∀ l : List BeNode, Orderly (Savable friendsInfo) queue →
      (∀ f ∈ queue, Savable friendsInfo f → Storable f) →
      ∃ rs : List SenderRecord, sendersRoot friendsInfo (.list l) queue = .ok (.list (l ++ rs.map SenderRecord.node)) ∧
        List.Forall₂ (fun f r => senderRecord friendsInfo f = some r) (queue.filter (Savable friendsInfo)) rs := by
  induction queue with
  | nil => exact fun l _ _ => ⟨[], by simp [sendersRoot], .nil⟩
  | cons f queue ih =>
    intro l horder hstore
    by_cases hf : Savable friendsInfo f
    · obtain ⟨r, hr, hnode⟩ := senderNode_of_savable hf (hstore f List.mem_cons_self hf)
      obtain ⟨rs, hroot, hrs⟩ := ih (l ++ [r.node]) ((orderly_cons_of_pos hf).mp horder)
        fun g hg => hstore g (List.mem_cons_of_mem f hg)
      refine ⟨r :: rs, ?_, ?_⟩
      · rw [sendersRoot, hnode, ok_bind]
        exact hroot.trans (by simp)
      · rw [List.filter_cons_of_pos hf]
        exact .cons hr hrs
    · refine ⟨[], ?_, ?_⟩
      · rw [sendersRoot, senderNode_of_not_savable hf, ok_bind]
        simp
      · rw [List.filter_cons_of_neg hf, filter_eq_nil_of_orderly_cons horder hf]
        exact .nil

/-- Conversely, where as many records are built as there are entries that can be saved, nothing has
broken the loop too early. -/
theorem orderly_of_sendersRoot (friendsInfo : List FriendInfo) (queue : List FileSender) :
    ∀ (l l' : List BeNode), sendersRoot friendsInfo (.list l) queue = .ok (.list (l ++ l')) →
      l'.length = (queue.filter (Savable friendsInfo)).length →
      Orderly (Savable friendsInfo) queue ∧ ∀ f ∈ queue, Savable friendsInfo f → Storable f := by
  induction queue with
  | nil => exact fun _ _ _ _ => ⟨orderly_nil, by simp⟩
  | cons f queue ih =>
    intro l l' hroot hlen
    obtain ⟨n, hnode, hroot⟩ := bind_eq_ok.mp hroot
    cases n with
    | none =>
      -- the loop has broken
      have hnil : l' = [] := by simpa using hroot
      rw [hnil, List.length_nil, eq_comm, List.length_eq_zero_iff, List.filter_eq_nil_iff] at hlen
      exact ⟨orderly_of_forall_not hlen, fun g hg hsavable => absurd hsavable (hlen g hg)⟩
    | some n =>
      obtain ⟨hf, hstore, r, -, rfl⟩ := savable_of_senderNode hnode
      have hroot' := sendersRoot_ok queue hroot
      rw [BeNode.list.injEq, List.append_assoc, List.append_cancel_left_eq] at hroot'
      rw [hroot', List.filter_cons_of_pos hf] at hlen
      obtain ⟨horder, hall⟩ := ih (l ++ [r.node]) ((savedRecords friendsInfo queue).map SenderRecord.node)
        (by rw [hroot', ← List.append_assoc] at hroot; exact hroot) (by simpa using hlen)
      refine ⟨(orderly_cons_of_pos hf).mpr horder, fun g hg hsavable => ?_⟩
      rcases List.mem_cons.mp hg with rfl | hg
      · exact hstore
      · exact hall g hg hsavable

/-- **Every entry that can be saved is saved** if and only if no other stands before it, and its
strings can be stored. -/
theorem keeps_savable_iff (friendsInfo : List FriendInfo) (queue : List FileSender) :
    KeepsSavable friendsInfo queue ↔
      Orderly (Savable friendsInfo) queue ∧ ∀ f ∈ queue, Savable friendsInfo f → Storable f := by
  constructor
  · rintro ⟨⟨rs, hroot, hrs⟩, -⟩
    apply orderly_of_sendersRoot friendsInfo queue [] (rs.map SenderRecord.node) hroot
    rw [List.length_map, hrs.length_eq]
  · rintro ⟨horder, hstore⟩
    obtain ⟨rs, hroot, hrs⟩ := sendersRoot_of_orderly friendsInfo queue [] horder hstore
    refine ⟨⟨rs, hroot, hrs⟩, fun heap io old ret h f hf hsavable => ?_⟩
    obtain ⟨root, hroot', h⟩ := bind_eq_ok.mp h
    cases hroot.symm.trans hroot'
    obtain ⟨msg, hmsg, h⟩ := bind_eq_ok.mp h
    obtain ⟨rfl, -⟩ := encodeRoot_ok hmsg
    have hne : rs ≠ [] := by
      rintro rfl
      have hnil := List.forall₂_nil_right_iff.mp hrs
      exact List.filter_eq_nil_iff.mp hnil f hf hsavable
    rw [show BeNode.list ([] ++ rs.map SenderRecord.node) = recordsNode rs from rfl,
      if_pos (two_lt_recordsNode.mpr hne)] at h
    cases io <;> cases h

/-- A transfer to a friend who was purged stands before one that could be saved: `savesender.dat` is
removed. -/
theorem transfer_behind_purged_friend_lost :
    ¬ KeepsSavable [somebody 1] [someTransfer 7, someTransfer 1] := fun h =>
  h.removed (fun _ => 0) .complete [] 0 rfl (someTransfer 1) (by simp) (by decide)

end ToxSuite.File
