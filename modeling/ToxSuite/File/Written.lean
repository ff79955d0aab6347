import ToxSuite.File.Blocks
import ToxSuite.File.Saving

/-!
# The blocks of a tree that is written

`dump_shrlist` and `save_senders` build a tree, encode it into a message and give the tree
back before they write. The builders of `bencode.c` take a block for each node, array,
string and key; what is added to a list or a dictionary belongs to it from then on.

`savers_release`: whatever is written, all blocks are given back, with one exception. When
there is something to write and the file does not open, both functions return before they
give the message back, and the block of the message is what stays.
-/

namespace ToxSuite.File

open ToxSuite.Lib ToxSuite.Bencode ToxSuite.Friend

/-! ### The builders -/

section

variable (place : Placement)

/-- `be_create_dict`, which decodes `"de"`. -/
def beCreateDictAt (L : Ledger) : BeBlocks × Ledger :=
  let (node, L) := alloc place L
  let (arr, L) := alloc place L
  (.dict node arr [], L)

/-- `be_create_list`, which decodes `"le"`. -/
def beCreateListAt (L : Ledger) : BeBlocks × Ledger :=
  let (node, L) := alloc place L
  let (arr, L) := alloc place L
  (.list node arr [], L)

/-- `be_create_str_wlen`: the copy is allocated before the node. -/
def beCreateStrWlenAt (str : Bytes) (len : ℕ) (L : Ledger) : Except Fault (BeBlocks × Ledger) := do
  let len ← toCInt len
  if len ≤ str.length then
    let (s, L) := alloc place L
    let (node, L) := alloc place L
    pure (.str node (some (s, str.take len)), L)
  else .error .overread

/-- `be_create_int`. -/
def beCreateIntAt (num : Int64) (L : Ledger) : BeBlocks × Ledger :=
  let (node, L) := alloc place L
  (.int node num, L)

/-- `be_add_keypair`. -/
def beAddKeypairAt (dict : BeBlocks) (str : Bytes) (node : BeBlocks) (L : Ledger) : Except Fault (BeBlocks × Ledger) :=
  match dict with
  | .dict n arr d => do
    let (arr, L) ← realloc place (some arr) L
    let (key, L) := alloc place L
    pure (.dict n arr (d ++ [(some (key, cstr str), node)]), L)
  | other => pure (other, L)

/-- `be_add_list`. -/
def beAddListAt (list node : BeBlocks) (L : Ledger) : Except Fault (BeBlocks × Ledger) :=
  match list with
  | .list n arr l => do
    let (arr, L) ← realloc place (some arr) L
    pure (.list n arr (l ++ [node]), L)
  | other => pure (other, L)

/-! ### What is built -/

/-- `encode_FileNode`. -/
def encodeFileNodeAt (info : BeBlocks) (fn : FileNode) (L : Ledger) : Except Fault (BeBlocks × Ledger) :=
  match fn.file, fn.blake2b with
  | some file, some blake2b => do
    let (name, L) ← beCreateStrWlenAt place file.bytes file.bytes.length L
    let (length, L) := beCreateIntAt place fn.length L
    let (hash, L) ← beCreateStrWlenAt place blake2b.1 TOX_FILE_ID_LENGTH L
    let (info, L) ← beAddKeypairAt place info (ascii "name") name L
    let (info, L) ← beAddKeypairAt place info (ascii "length") length L
    beAddKeypairAt place info (ascii "hash") hash L
  | _, _ => .error .null

/-- The loop of `dump_shrlist`. -/
def shrlistRootAt (root : BeBlocks) : List FileNode → Ledger → Except Fault (BeBlocks × Ledger)
  | [], L => pure (root, L)
  | fn :: shrlist, L => do
    let (info, L) := beCreateDictAt place L
    let (info, L) ← encodeFileNodeAt place info fn L
    let (root, L) ← beAddListAt place root info L
    shrlistRootAt root shrlist L

/-- The record `save_senders` builds for an entry. -/
def senderNodeAt (friendsInfo : List FriendInfo) (f : FileSender) (L : Ledger) :
    Except Fault (Option BeBlocks × Ledger) :=
  match f.pathname, friendInfoByFriendNumber friendsInfo f.friendNumber with
  | some pathname, some fr => do
    let (filesend, L) := beCreateDictAt place L
    let (toxid, L) ← beCreateStrWlenAt place fr.toxIdBin.1 TOX_PUBLIC_KEY_SIZE L
    let (path, L) ← beCreateStrWlenAt place pathname.bytes pathname.bytes.length L
    let (info, L) := beCreateDictAt place L
    let (info, L) ← encodeFileNodeAt place info f.info L
    let (filesend, L) ← beAddKeypairAt place filesend (ascii "toxid") toxid L
    let (filesend, L) ← beAddKeypairAt place filesend (ascii "path") path L
    let (filesend, L) ← beAddKeypairAt place filesend (ascii "info") info L
    pure (some filesend, L)
  | _, _ => pure (none, L)

/-- The loop of `save_senders`. -/
def sendersRootAt (friendsInfo : List FriendInfo) (root : BeBlocks) :
    List FileSender → Ledger → Except Fault (BeBlocks × Ledger)
  | [], L => pure (root, L)
  | f :: fileQueue, L => do
    match ← senderNodeAt place friendsInfo f L with
    | (none, L) => pure (root, L)
    | (some filesend, L) => do
      let (root, L) ← beAddListAt place root filesend L
      sendersRootAt friendsInfo root fileQueue L

/-- `be_node_len`, `malloc`, `be_encode` and `be_free`: the message, its block and what is allocated then. -/
def encodeRootAt (heap : ℕ → UInt8) (root : BeBlocks) (L : Ledger) : Except Fault (Bytes × ℕ × Ledger) := do
  let (msg, L) := alloc place L
  let text ← encodeRoot heap root.tree
  let L ← beFree root L
  pure (text, msg, L)

/-- The first half of `dump_shrlist`: the message, and its block. -/
def dumpMessageAt (heap : ℕ → UInt8) (shrlist : List FileNode) (L : Ledger) : Except Fault (Bytes × ℕ × Ledger) := do
  let (root, L) := beCreateListAt place L
  let (root, L) ← shrlistRootAt place root shrlist L
  encodeRootAt place heap root L

/-- `dump_shrlist`. -/
def dumpShrlistAt (heap : ℕ → UInt8) (io : WriteIO) (shrlist : List FileNode) (old : Option Bytes) (L : Ledger) :
    Except Fault (Option Bytes × Ledger) := do
  let (text, msg, L) ← dumpMessageAt place heap shrlist L
  if text.length > 2 then
    match io.write old text with
    | (true, file) => do
      let L ← release msg L
      pure (file, L)
    -- it returns with the message still allocated
    | (false, file) => pure (file, L)
  else do
    let L ← release msg L
    pure (old, L)

/-- The first half of `save_senders`. -/
def saveMessageAt (heap : ℕ → UInt8) (fileQueue : List FileSender) (friendsInfo : List FriendInfo) (L : Ledger) :
    Except Fault (Bytes × ℕ × Ledger) := do
  let (root, L) := beCreateListAt place L
  let (root, L) ← sendersRootAt place friendsInfo root fileQueue L
  encodeRootAt place heap root L

/-- `save_senders`. -/
def saveSendersAt (heap : ℕ → UInt8) (io : WriteIO) (fileQueue : List FileSender) (friendsInfo : List FriendInfo)
    (old : Option Bytes) (L : Ledger) : Except Fault ((ℤ × Option Bytes) × Ledger) := do
  let (text, msg, L) ← saveMessageAt place heap fileQueue friendsInfo L
  if text.length > 2 then
    match io.write old text with
    | (true, file) => do
      let L ← release msg L
      pure ((0, file), L)
    | (false, file) => pure ((-1, file), L)
  else do
    let L ← release msg L
    pure ((0, none), L)

end

example : beDecodenAt above (ascii "de" ++ [0]) 2 ∅ =
    .ok (some (beCreateDictAt above ∅).1, (beCreateDictAt above ∅).2) := rfl

/-! ### They build what they build without blocks -/

/-- A builder makes, of blocks that it took, the tree that `r` is; what was owned is still there. -/
def Builds (own base : Multiset ℕ) (r : Except Fault BeNode) (r' : Except Fault (BeBlocks × Ledger)) : Prop :=
  match r with
  | .error f => r' = .error f
  | .ok n => ∃ b L', r' = .ok (b, L') ∧ b.tree = n ∧ Owns L' (b.blocks + own) base

section

variable {place : Placement} {L : Ledger} {own base : Multiset ℕ}

/-- Building on: the second builder owns what the first made. -/
theorem Builds.bind {r : Except Fault BeNode} {r' : Except Fault (BeBlocks × Ledger)} {f : BeNode → Except Fault BeNode}
    {f' : BeBlocks × Ledger → Except Fault (BeBlocks × Ledger)} {own' : Multiset ℕ} (h : Builds own base r r')
    (hf : ∀ b L', Owns L' (b.blocks + own) base → Builds own' base (f b.tree) (f' (b, L'))) :
    Builds own' base (r >>= f) (r' >>= f') := by
  cases r with
  | error e =>
    rw [show r' = .error e from h]
    rfl
  | ok n =>
    obtain ⟨b, L', rfl, rfl, ho⟩ := h
    exact hf b L' ho

theorem beCreateDictAt_spec (hplace : place.Sound) (h : Owns L own base) : ∃ b L', beCreateDictAt place L = (b, L') ∧
    b.tree = .dict [] ∧ Owns L' (b.blocks + own) base :=
  ⟨_, _, rfl, rfl, ((h.alloc hplace).alloc hplace).congr (by simp only [BeBlocks.blocks, entryBlocks, alloc]; abel)⟩

theorem beCreateListAt_spec (hplace : place.Sound) (h : Owns L own base) : ∃ b L', beCreateListAt place L = (b, L') ∧
    b.tree = .list [] ∧ Owns L' (b.blocks + own) base :=
  ⟨_, _, rfl, rfl, ((h.alloc hplace).alloc hplace).congr (by simp only [BeBlocks.blocks, blocksOf, alloc]; abel)⟩

theorem beCreateIntAt_spec (hplace : place.Sound) (h : Owns L own base) (num : Int64) :
    ∃ b L', beCreateIntAt place num L = (b, L') ∧ b.tree = beCreateInt num ∧ Owns L' (b.blocks + own) base :=
  ⟨_, _, rfl, rfl, h.alloc hplace⟩

theorem beCreateStrWlenAt_spec (hplace : place.Sound) (h : Owns L own base) (str : Bytes) (len : ℕ) :
    Builds own base (beCreateStrWlen str len) (beCreateStrWlenAt place str len L) := by
  unfold beCreateStrWlen beCreateStrWlenAt
  cases toCInt len with
  | error e => rfl
  | ok len =>
    rw [ok_bind, ok_bind]
    split_ifs with hlen
    · refine ⟨_, _, rfl, rfl, ((h.alloc hplace).alloc hplace).congr ?_⟩
      simp only [BeBlocks.blocks, strBlock, block, Option.map_some, alloc]
      abel
    · rfl

/-- **What is added to a dictionary belongs to it.** -/
theorem beAddKeypairAt_spec (hplace : place.Sound) {dict node : BeBlocks} {ds : List (Bytes × BeNode)}
    (hd : dict.tree = .dict ds) (h : Owns L (dict.blocks + (node.blocks + own)) base) (str : Bytes) :
    ∃ b L', beAddKeypairAt place dict str node L = .ok (b, L') ∧ b.tree = .dict (ds ++ [(cstr str, node.tree)]) ∧
      Owns L' (b.blocks + own) base := by
  cases dict with
  | str _ _ => cases hd
  | int _ _ => cases hd
  | list _ _ _ => cases hd
  | dict n arr d =>
    cases hd
    have hgrow : (BeBlocks.dict n arr d).blocks + (node.blocks + own) =
        block (some arr) + (entryBlocks d + ({n} + (node.blocks + own))) := by
      simp only [BeBlocks.blocks, block]
      abel
    obtain ⟨arr', L₁, hre, h₁⟩ := Owns.realloc hplace (h.congr hgrow)
    refine ⟨.dict n arr' (d ++ [(some (place L₁, cstr str), node)]), (alloc place L₁).2, ?_, ?_,
      (h₁.alloc hplace).congr ?_⟩
    · rw [beAddKeypairAt, hre]
      rfl
    · simp only [BeBlocks.tree, entriesOf_append, entriesOf]
      rfl
    · simp only [BeBlocks.blocks, entryBlocks_append, entryBlocks, strBlock, block, Option.map_some]
      abel

/-- **What is added to a list belongs to it.** -/
theorem beAddListAt_spec (hplace : place.Sound) {list node : BeBlocks} {l : List BeNode} (hl : list.tree = .list l)
    (h : Owns L (list.blocks + (node.blocks + own)) base) :
    ∃ b L', beAddListAt place list node L = .ok (b, L') ∧ b.tree = .list (l ++ [node.tree]) ∧
      Owns L' (b.blocks + own) base := by
  cases list with
  | str _ _ => cases hl
  | int _ _ => cases hl
  | dict _ _ _ => cases hl
  | list n arr l' =>
    cases hl
    have hgrow : (BeBlocks.list n arr l').blocks + (node.blocks + own) =
        block (some arr) + (blocksOf l' + ({n} + (node.blocks + own))) := by
      simp only [BeBlocks.blocks, block]
      abel
    obtain ⟨arr', L₁, hre, h₁⟩ := Owns.realloc hplace (h.congr hgrow)
    refine ⟨.list n arr' (l' ++ [node]), L₁, ?_, ?_, h₁.congr ?_⟩
    · rw [beAddListAt, hre]
      rfl
    · simp only [BeBlocks.tree, treesOf_append, treesOf]
    · simp only [BeBlocks.blocks, blocksOf_append, blocksOf]
      abel

theorem encodeFileNodeAt_spec (hplace : place.Sound) {info : BeBlocks} {ds : List (Bytes × BeNode)}
    (hd : info.tree = .dict ds) (h : Owns L (info.blocks + own) base) (fn : FileNode) :
    Builds own base (encodeFileNode info.tree fn) (encodeFileNodeAt place info fn L) := by
  unfold encodeFileNode encodeFileNodeAt
  cases fn.file with
  | none => rfl
  | some file =>
    cases fn.blake2b with
    | none => rfl
    | some blake2b =>
      refine (beCreateStrWlenAt_spec hplace h _ _).bind fun name L₁ h₁ => ?_
      obtain ⟨length, L₂, hlength, htree, h₂⟩ := beCreateIntAt_spec hplace h₁ fn.length
      dsimp only
      rw [hlength, ← htree]
      refine (beCreateStrWlenAt_spec hplace h₂ _ _).bind fun hash L₃ h₃ => ?_
      dsimp only
      obtain ⟨info₁, L₄, hadd₁, ht₁, h₄⟩ := @beAddKeypairAt_spec place L₃ (hash.blocks + (length.blocks + own)) base
        hplace info name ds hd (h₃.congr (by abel)) (ascii "name")
      obtain ⟨info₂, L₅, hadd₂, ht₂, h₅⟩ := @beAddKeypairAt_spec place L₄ (hash.blocks + own) base hplace info₁ length _
        ht₁ (h₄.congr (by abel)) (ascii "length")
      obtain ⟨info₃, L₆, hadd₃, ht₃, h₆⟩ := beAddKeypairAt_spec hplace ht₂ h₅ (ascii "hash")
      refine ⟨info₃, L₆, ?_, ?_, h₆⟩
      · rw [hadd₁, ok_bind]
        dsimp only
        rw [hadd₂, ok_bind]
        exact hadd₃
      · rw [ht₃, hd]
        rfl

theorem shrlistRootAt_spec (hplace : place.Sound) (shrlist : List FileNode) :
    ∀ {root : BeBlocks} {l : List BeNode} {L : Ledger}, root.tree = .list l → Owns L (root.blocks + own) base →
      Builds own base (shrlistRoot root.tree shrlist) (shrlistRootAt place root shrlist L) := by
  induction shrlist with
  | nil => exact fun _ h => ⟨_, _, rfl, rfl, h⟩
  | cons fn shrlist ih =>
    intro root l L hl h
    rw [shrlistRoot, shrlistRootAt]
    obtain ⟨info, L₁, hinfo, htree, h₁⟩ := beCreateDictAt_spec hplace h
    rw [hinfo, beCreateDict, ← htree]
    refine (encodeFileNodeAt_spec hplace htree h₁ fn).bind fun info L₂ h₂ => ?_
    obtain ⟨root', L₃, hadd, ht, h₃⟩ := @beAddListAt_spec place L₂ own base hplace root info l hl (h₂.congr (by abel))
    have heq : beAddList root.tree info.tree = root'.tree := by
      rw [ht, hl]
      rfl
    dsimp only
    rw [hadd, heq]
    exact ih ht h₃

/-- The record of an entry is built, or there is none. -/
theorem senderNodeAt_spec (hplace : place.Sound) (h : Owns L own base) (friendsInfo : List FriendInfo)
    (f : FileSender) :
    match senderNode friendsInfo f with
    | .error e => senderNodeAt place friendsInfo f L = .error e
    | .ok none => senderNodeAt place friendsInfo f L = .ok (none, L)
    | .ok (some n) => ∃ b L', senderNodeAt place friendsInfo f L = .ok (some b, L') ∧ b.tree = n ∧
        Owns L' (b.blocks + own) base := by
  unfold senderNode senderNodeAt
  cases f.pathname with
  | none => rfl
  | some pathname =>
    cases friendInfoByFriendNumber friendsInfo f.friendNumber with
    | none => rfl
    | some fr =>
      dsimp only
      obtain ⟨filesend, L₁, hfilesend, htree, h₁⟩ := beCreateDictAt_spec hplace h
      rw [hfilesend]
      dsimp only
      have htoxid := beCreateStrWlenAt_spec hplace h₁ fr.toxIdBin.1 TOX_PUBLIC_KEY_SIZE
      cases hr₁ : beCreateStrWlen fr.toxIdBin.1 TOX_PUBLIC_KEY_SIZE with
      | error e =>
        rw [hr₁] at htoxid
        rw [show beCreateStrWlenAt place _ _ _ = _ from htoxid]
        rfl
      | ok toxid =>
        rw [hr₁] at htoxid
        obtain ⟨toxid, L₂, htoxid, rfl, h₂⟩ := htoxid
        rw [htoxid, ok_bind, ok_bind]
        have hpath := beCreateStrWlenAt_spec hplace h₂ pathname.bytes pathname.bytes.length
        cases hr₂ : beCreateStrWlen pathname.bytes pathname.bytes.length with
        | error e =>
          rw [hr₂] at hpath
          dsimp only
          rw [show beCreateStrWlenAt place _ _ _ = _ from hpath]
          rfl
        | ok path =>
          rw [hr₂] at hpath
          obtain ⟨path, L₃, hpath, rfl, h₃⟩ := hpath
          dsimp only
          rw [hpath, ok_bind, ok_bind]
          obtain ⟨info, L₄, hinfo, htree', h₄⟩ := beCreateDictAt_spec hplace h₃
          dsimp only
          rw [hinfo]
          have hencode := encodeFileNodeAt_spec hplace htree' h₄ f.info
          rw [htree'] at hencode
          cases hr₃ : encodeFileNode beCreateDict f.info with
          | error e =>
            rw [beCreateDict] at hr₃
            rw [hr₃] at hencode
            dsimp only
            rw [show encodeFileNodeAt place _ _ _ = _ from hencode]
            rfl
          | ok infoTree =>
            rw [beCreateDict] at hr₃
            rw [hr₃] at hencode
            obtain ⟨info, L₅, hinfo', rfl, h₅⟩ := hencode
            dsimp only
            rw [hinfo', ok_bind, ok_bind]
            obtain ⟨b₁, L₆, hadd₁, ht₁, h₆⟩ := @beAddKeypairAt_spec place L₅ (info.blocks + (path.blocks + own)) base
              hplace filesend toxid [] htree (h₅.congr (by abel)) (ascii "toxid")
            obtain ⟨b₂, L₇, hadd₂, ht₂, h₇⟩ := @beAddKeypairAt_spec place L₆ (info.blocks + own) base hplace b₁ path _
              ht₁ (h₆.congr (by abel)) (ascii "path")
            obtain ⟨b₃, L₈, hadd₃, ht₃, h₈⟩ := beAddKeypairAt_spec hplace ht₂ h₇ (ascii "info")
            refine ⟨b₃, L₈, ?_, ?_, h₈⟩
            · dsimp only
              rw [hadd₁, ok_bind]
              dsimp only
              rw [hadd₂, ok_bind]
              dsimp only
              rw [hadd₃, ok_bind]
              rfl
            · rw [ht₃]
              rfl

theorem sendersRootAt_spec (hplace : place.Sound) (friendsInfo : List FriendInfo) (fileQueue : List FileSender) :
    ∀ {root : BeBlocks} {l : List BeNode} {L : Ledger}, root.tree = .list l → Owns L (root.blocks + own) base →
      Builds own base (sendersRoot friendsInfo root.tree fileQueue)
        (sendersRootAt place friendsInfo root fileQueue L) := by
  induction fileQueue with
  | nil => exact fun _ h => ⟨_, _, rfl, rfl, h⟩
  | cons f fileQueue ih =>
    intro root l L hl h
    rw [sendersRoot, sendersRootAt]
    have hnode := senderNodeAt_spec hplace h friendsInfo f
    cases hr : senderNode friendsInfo f with
    | error e =>
      rw [hr] at hnode
      rw [show senderNodeAt place friendsInfo f L = _ from hnode]
      rfl
    | ok n =>
      rw [hr] at hnode
      cases n with
      | none =>
        rw [show senderNodeAt place friendsInfo f L = _ from hnode]
        exact ⟨root, L, rfl, rfl, h⟩
      | some n =>
        obtain ⟨filesend, L₁, hfilesend, rfl, h₁⟩ := hnode
        rw [hfilesend, ok_bind, ok_bind]
        obtain ⟨root', L₂, hadd, ht, h₂⟩ := @beAddListAt_spec place L₁ own base hplace root filesend l hl
          (h₁.congr (by abel))
        have heq : beAddList root.tree filesend.tree = root'.tree := by
          rw [ht, hl]
          rfl
        dsimp only
        rw [hadd, heq]
        exact ih ht h₂

/-- A message is made of a text: its block is all that is taken. -/
def Encodes (base : Multiset ℕ) (r : Except Fault Bytes) (r' : Except Fault (Bytes × ℕ × Ledger)) : Prop :=
  match r with
  | .error f => r' = .error f
  | .ok text => ∃ msg L', r' = .ok (text, msg, L') ∧ Owns L' {msg} base

/-- The message is a block of its own, and the tree is given back. -/
theorem encodeRootAt_spec (hplace : place.Sound) {root : BeBlocks} (h : Owns L root.blocks base) (heap : ℕ → UInt8) :
    Encodes base (encodeRoot heap root.tree) (encodeRootAt place heap root L) := by
  unfold encodeRootAt
  cases encodeRoot heap root.tree with
  | error f => rfl
  | ok text =>
    obtain ⟨L', hfree, ho⟩ := beFree_spec root ((h.alloc hplace).congr (add_comm _ _))
    refine ⟨place L, L', ?_, ho⟩
    change (beFree root (alloc place L).2 >>= _) = _
    rw [hfree]
    rfl

/-- A tree that was built is encoded. -/
theorem Builds.encode (hplace : place.Sound) {r : Except Fault BeNode} {r' : Except Fault (BeBlocks × Ledger)}
    (h : Builds 0 base r r') (heap : ℕ → UInt8) :
    Encodes base (r >>= encodeRoot heap) (r' >>= fun b => encodeRootAt place heap b.1 b.2) := by
  cases r with
  | error e =>
    rw [show r' = .error e from h]
    rfl
  | ok n =>
    obtain ⟨b, L', rfl, rfl, ho⟩ := h
    exact encodeRootAt_spec hplace (ho.congr (add_zero _)) heap

theorem dumpMessageAt_spec (hplace : place.Sound) (heap : ℕ → UInt8) (shrlist : List FileNode) :
    Encodes L.val (shrlistRoot beCreateList shrlist >>= encodeRoot heap) (dumpMessageAt place heap shrlist L) := by
  obtain ⟨root, L₁, hcreate, htree, h₁⟩ := beCreateListAt_spec hplace (Owns.nothing (L := L))
  have hroot := (shrlistRootAt_spec hplace shrlist htree h₁).encode hplace heap
  rw [htree] at hroot
  rw [dumpMessageAt, hcreate]
  exact hroot

theorem saveMessageAt_spec (hplace : place.Sound) (heap : ℕ → UInt8) (fileQueue : List FileSender)
    (friendsInfo : List FriendInfo) :
    Encodes L.val (sendersRoot friendsInfo beCreateList fileQueue >>= encodeRoot heap)
      (saveMessageAt place heap fileQueue friendsInfo L) := by
  obtain ⟨root, L₁, hcreate, htree, h₁⟩ := beCreateListAt_spec hplace (Owns.nothing (L := L))
  have hroot := (sendersRootAt_spec hplace friendsInfo fileQueue htree h₁).encode hplace heap
  rw [htree] at hroot
  rw [saveMessageAt, hcreate]
  exact hroot

end

/-! ### What is left when it is written -/

theorem shrlistRoot_length (shrlist : List FileNode) : ∀ {l : List BeNode} {root : BeNode},
    shrlistRoot (.list l) shrlist = .ok root → ∃ l', root = .list l' ∧ l'.length = l.length + shrlist.length := by
  induction shrlist with
  | nil =>
    intro l root h
    cases h
    exact ⟨l, rfl, rfl⟩
  | cons fn shrlist ih =>
    intro l root h
    obtain ⟨info, -, h⟩ := bind_eq_ok.mp h
    obtain ⟨l', rfl, hlen⟩ := ih (l := l ++ [info]) h
    exact ⟨l', rfl, by rw [hlen, List.length_append, List.length_cons, List.length_cons, List.length_nil]; omega⟩

/-- Something is written if and only if there is something in the list. -/
theorem two_lt_shrlistRoot {heap : ℕ → UInt8} {shrlist : List FileNode} {root : BeNode} {text : Bytes}
    (hroot : shrlistRoot beCreateList shrlist = .ok root) (htext : encodeRoot heap root = .ok text) :
    2 < text.length ↔ shrlist ≠ [] := by
  obtain ⟨l, rfl, hlen⟩ := shrlistRoot_length shrlist hroot
  rw [(encodeRoot_ok htext).1, two_lt_length_text_list, ← List.length_pos_iff, ← List.length_pos_iff, hlen,
    List.length_nil, Nat.zero_add]

theorem write_eq_false {io : WriteIO} {old : Option Bytes} {text : Bytes} {file : Option Bytes}
    (h : io.write old text = (false, file)) : io = .fails := by
  cases io with
  | fails => rfl
  | cut n => cases h
  | complete => cases h

theorem write_eq_true {io : WriteIO} {old : Option Bytes} {text : Bytes} {file : Option Bytes}
    (h : io.write old text = (true, file)) : io ≠ .fails := by
  rintro rfl
  cases h

/-- The loop of `save_senders` ends only at an entry that cannot be saved. -/
theorem not_savable_of_senderNode {friendsInfo : List FriendInfo} {f : FileSender}
    (h : senderNode friendsInfo f = .ok none) : ¬ Savable friendsInfo f = true := by
  intro hsavable
  obtain ⟨hpath, hfr⟩ := Bool.and_eq_true_iff.mp hsavable
  obtain ⟨pathname, hpath⟩ := Option.isSome_iff_exists.mp hpath
  obtain ⟨fr, hfr⟩ := Option.isSome_iff_exists.mp hfr
  simp only [senderNode, hpath, hfr] at h
  obtain ⟨toxid, -, h⟩ := bind_eq_ok.mp h
  obtain ⟨path, -, h⟩ := bind_eq_ok.mp h
  obtain ⟨info, -, h⟩ := bind_eq_ok.mp h
  cases h

/-- Something is saved if and only if the first entry can be. -/
theorem two_lt_sendersRoot {heap : ℕ → UInt8} {friendsInfo : List FriendInfo} {fileQueue : List FileSender}
    {root : BeNode} {text : Bytes} (hroot : sendersRoot friendsInfo beCreateList fileQueue = .ok root)
    (htext : encodeRoot heap root = .ok text) :
    2 < text.length ↔ ∃ f ∈ fileQueue.head?, Savable friendsInfo f = true := by
  rw [(encodeRoot_ok htext).1, sendersRoot_ok fileQueue hroot, two_lt_length_text_list, List.nil_append, ne_eq,
    List.map_eq_nil_iff]
  cases fileQueue with
  | nil => simp [savedRecords]
  | cons f fileQueue =>
    obtain ⟨n, hn, -⟩ := bind_eq_ok.mp hroot
    simp only [List.head?_cons, Option.mem_some_iff, exists_eq_left', savedRecords]
    rcases senderNode_ok hn with ⟨rfl, hrec⟩ | ⟨r, rfl, hrec⟩
    · simp [hrec, not_savable_of_senderNode hn]
    · simp [hrec, (savable_of_senderNode hn).1]

/-- A function that writes a message comes to what `r` is. It gives back all that it took, the message too unless
`stays`; then the message, and nothing else, is left. -/
def Settles {α : Type} (base : Multiset ℕ) (message : Except Fault (Bytes × ℕ × Ledger)) (r : Except Fault α)
    (r' : Except Fault (α × Ledger)) (stays : Prop) : Prop :=
  match r with
  | .error f => r' = .error f
  | .ok a => ∃ text msg L₁ L', message = .ok (text, msg, L₁) ∧ r' = .ok (a, L') ∧
      (stays → Owns L' {msg} base) ∧ (¬ stays → Owns L' 0 base)

theorem dumpShrlistAt_settles {place : Placement} (hplace : place.Sound) (heap : ℕ → UInt8) (io : WriteIO)
    (shrlist : List FileNode) (old : Option Bytes) (L : Ledger) :
    Settles L.val (dumpMessageAt place heap shrlist L) (dumpShrlist heap io shrlist old)
      (dumpShrlistAt place heap io shrlist old L) (io = .fails ∧ shrlist ≠ []) := by
  have hmessage := dumpMessageAt_spec (L := L) hplace heap shrlist
  rw [dumpShrlist, dumpShrlistAt, ← bind_assoc]
  cases hr : shrlistRoot beCreateList shrlist >>= encodeRoot heap with
  | error f =>
    rw [hr] at hmessage
    rw [show dumpMessageAt place heap shrlist L = _ from hmessage]
    rfl
  | ok text =>
    rw [hr] at hmessage
    obtain ⟨msg, L₁, hmsg, h₁⟩ := hmessage
    obtain ⟨root, hroot, htext⟩ := bind_eq_ok.mp hr
    obtain ⟨L₂, hrel, h₂⟩ := (h₁.congr (add_zero _).symm).release
    have htwo := two_lt_shrlistRoot hroot htext
    rw [hmsg, ok_bind, ok_bind]
    dsimp only
    split_ifs with hlen
    · rcases hw : io.write old text with ⟨opened, file⟩
      cases opened with
      | true =>
        refine ⟨text, msg, L₁, L₂, rfl, ?_, fun h => absurd h.1 (write_eq_true hw), fun _ => h₂⟩
        dsimp only
        rw [hrel]
        rfl
      | false => exact ⟨text, msg, L₁, L₁, rfl, rfl, fun _ => h₁, fun h => absurd ⟨write_eq_false hw, htwo.mp hlen⟩ h⟩
    · refine ⟨text, msg, L₁, L₂, rfl, ?_, fun h => absurd (htwo.mpr h.2) hlen, fun _ => h₂⟩
      rw [hrel]
      rfl

theorem saveSendersAt_settles {place : Placement} (hplace : place.Sound) (heap : ℕ → UInt8) (io : WriteIO)
    (fileQueue : List FileSender) (friendsInfo : List FriendInfo) (old : Option Bytes) (L : Ledger) :
    Settles L.val (saveMessageAt place heap fileQueue friendsInfo L) (saveSenders heap io fileQueue friendsInfo old)
      (saveSendersAt place heap io fileQueue friendsInfo old L)
      (io = .fails ∧ ∃ f ∈ fileQueue.head?, Savable friendsInfo f = true) := by
  have hmessage := saveMessageAt_spec (L := L) hplace heap fileQueue friendsInfo
  rw [saveSenders, saveSendersAt, ← bind_assoc]
  cases hr : sendersRoot friendsInfo beCreateList fileQueue >>= encodeRoot heap with
  | error f =>
    rw [hr] at hmessage
    rw [show saveMessageAt place heap fileQueue friendsInfo L = _ from hmessage]
    rfl
  | ok text =>
    rw [hr] at hmessage
    obtain ⟨msg, L₁, hmsg, h₁⟩ := hmessage
    obtain ⟨root, hroot, htext⟩ := bind_eq_ok.mp hr
    obtain ⟨L₂, hrel, h₂⟩ := (h₁.congr (add_zero _).symm).release
    have htwo := two_lt_sendersRoot hroot htext
    rw [hmsg, ok_bind, ok_bind]
    dsimp only
    split_ifs with hlen
    · rcases hw : io.write old text with ⟨opened, file⟩
      cases opened with
      | true =>
        refine ⟨text, msg, L₁, L₂, rfl, ?_, fun h => absurd h.1 (write_eq_true hw), fun _ => h₂⟩
        dsimp only
        rw [hrel]
        rfl
      | false => exact ⟨text, msg, L₁, L₁, rfl, rfl, fun _ => h₁, fun h => absurd ⟨write_eq_false hw, htwo.mp hlen⟩ h⟩
    · refine ⟨text, msg, L₁, L₂, rfl, ?_, fun h => absurd (htwo.mpr h.2) hlen, fun _ => h₂⟩
      rw [hrel]
      rfl

/-- **The savers give back what they take**: `dump_shrlist` and `save_senders` come to what they come to without
the blocks, and afterwards what is allocated is what was allocated before. Only when there is something to write,
for `save_senders` if the first entry can be saved, and the file does not open, then the message stays. -/
theorem savers_release {place : Placement} (hplace : place.Sound) (heap : ℕ → UInt8) (io : WriteIO)
    (shrlist : List FileNode) (fileQueue : List FileSender) (friendsInfo : List FriendInfo) (old : Option Bytes)
    (L : Ledger) :
    Settles L.val (dumpMessageAt place heap shrlist L) (dumpShrlist heap io shrlist old)
        (dumpShrlistAt place heap io shrlist old L) (io = .fails ∧ shrlist ≠ []) ∧
      Settles L.val (saveMessageAt place heap fileQueue friendsInfo L) (saveSenders heap io fileQueue friendsInfo old)
        (saveSendersAt place heap io fileQueue friendsInfo old L)
        (io = .fails ∧ ∃ f ∈ fileQueue.head?, Savable friendsInfo f = true) :=
  ⟨dumpShrlistAt_settles hplace heap io shrlist old L, saveSendersAt_settles hplace heap io fileQueue friendsInfo old L⟩

/-- A transfer that is not saved. -/
theorem saveSenders_unopened :
    saveSenders (fun _ => 0) .fails [someTransfer 1] [somebody 1] none = .ok (-1, none) := by
  obtain ⟨root, hroot⟩ := sendersRoot_eq [somebody 1] [someTransfer 1] [] fun f hf => by
    rw [List.mem_singleton.mp hf]
    exact ⟨⟨someKey 5, .ofBytes (ascii "/a"), sharedFile⟩, rfl, by decide +kernel, by decide +kernel⟩
  have hrecords : root = recordsNode (savedRecords [somebody 1] [someTransfer 1]) := sendersRoot_ok _ hroot
  have hmessage := encodeRoot_eq (fun _ => 0)
    (show (recordsNode (savedRecords [somebody 1] [someTransfer 1])).text.length < INT_MAX by decide +kernel)
  rw [saveSenders, show sendersRoot [somebody 1] beCreateList [someTransfer 1] = .ok root from hroot, ok_bind,
    hrecords, hmessage, ok_bind, if_pos (two_lt_recordsNode.mpr (by decide))]
  rfl

/-- A list of one file is not written, nor is a transfer: in both cases the message stays. -/
theorem savers_release_unopened :
    (∃ text msg L₁ L', dumpMessageAt above (fun _ => 0) oneShared ∅ = .ok (text, msg, L₁) ∧
        dumpShrlistAt above (fun _ => 0) .fails oneShared none ∅ = .ok (none, L') ∧ Owns L' {msg} 0) ∧
      ∃ text msg L₁ L', saveMessageAt above (fun _ => 0) [someTransfer 1] [somebody 1] ∅ = .ok (text, msg, L₁) ∧
        saveSendersAt above (fun _ => 0) .fails [someTransfer 1] [somebody 1] none ∅ = .ok ((-1, none), L') ∧
        Owns L' {msg} 0 := by
  have hshared : shrlistRoot beCreateList oneShared = .ok (filesNode [sharedFile]) :=
    @shrlistRoot_eq [sharedFile] [] _ rfl (by decide +kernel)
  have hfiles := encodeRoot_eq (fun _ => 0) (show (filesNode [sharedFile]).text.length < INT_MAX by decide +kernel)
  have hdump : dumpShrlist (fun _ => 0) .fails oneShared none = .ok none := by
    rw [dumpShrlist, hshared, ok_bind, hfiles, ok_bind]
    exact congrArg Except.ok (ite_self none)
  have hboth := savers_release above_sound (fun _ => 0) .fails oneShared [someTransfer 1] [somebody 1] none ∅
  rw [hdump, saveSenders_unopened] at hboth
  obtain ⟨h, h'⟩ := hboth
  obtain ⟨text, msg, L₁, L', hmsg, hat, hstays, -⟩ := h
  obtain ⟨text', msg', L₂, L'', hmsg', hat', hstays', -⟩ := h'
  exact ⟨⟨text, msg, L₁, L', hmsg, hat, hstays ⟨rfl, List.cons_ne_nil _ _⟩⟩,
    text', msg', L₂, L'', hmsg', hat', hstays' ⟨rfl, someTransfer 1, rfl, by decide⟩⟩

end ToxSuite.File
