import ToxSuite.Lib.Ledger
import ToxSuite.File.Bounds

/-!
# The blocks of a decoded tree

`Bencode.Decode` says what tree the decoder makes; this module says of what. A node is a
block, the array of a list or of a dictionary another, which `realloc` moves whenever it
grows, and every string and every key a third. When a part is given up, what was made of it
so far is handed to `be_free`.

`decode_owns`: a tree that is returned consists of new blocks only, and `be_free` gives
back each of them and no other. When `NULL` is returned instead, what stays allocated are
keys: `be_free` stops at the first entry without a value, and so passes over the key of the
entry whose value was refused. `Refused` describes the inputs that are given up, as a
grammar, with the number of these keys.
-/

namespace ToxSuite.File

open ToxSuite.Lib ToxSuite.Bencode

/-- A tree in memory, with the addresses of its blocks. A key has a block of its own; an entry without a
key occurs on the way to `be_free` only. -/
inductive BeBlocks where
  | str (node : ℕ) (s : Option (ℕ × Bytes))
  | int (node : ℕ) (i : Int64)
  | list (node arr : ℕ) (l : List BeBlocks)
  | dict (node arr : ℕ) (d : List (Option (ℕ × Bytes) × BeBlocks))

mutual

/-- The tree, without the addresses. -/
def BeBlocks.tree : BeBlocks → BeNode
  | .str _ s => .str (s.map Prod.snd)
  | .int _ i => .int i
  | .list _ _ l => .list (treesOf l)
  | .dict _ _ d => .dict (entriesOf d)

/-- The elements of a list. -/
def treesOf : List BeBlocks → List BeNode
  | [] => []
  | n :: l => n.tree :: treesOf l

/-- The entries of a dictionary. -/
def entriesOf : List (Option (ℕ × Bytes) × BeBlocks) → List (Bytes × BeNode)
  | [] => []
  | (key, n) :: d => ((key.map Prod.snd).getD [], n.tree) :: entriesOf d

end

/-- The block of a string. -/
def strBlock (s : Option (ℕ × Bytes)) : Multiset ℕ := block (s.map Prod.fst)

mutual

/-- The blocks of a tree. -/
def BeBlocks.blocks : BeBlocks → Multiset ℕ
  | .str node s => strBlock s + {node}
  | .int node _ => {node}
  | .list node arr l => blocksOf l + ({arr} + {node})
  | .dict node arr d => entryBlocks d + ({arr} + {node})

/-- Those of the elements of a list. -/
def blocksOf : List BeBlocks → Multiset ℕ
  | [] => 0
  | n :: l => n.blocks + blocksOf l

/-- Those of the entries of a dictionary. -/
def entryBlocks : List (Option (ℕ × Bytes) × BeBlocks) → Multiset ℕ
  | [] => 0
  | (key, n) :: d => strBlock key + (n.blocks + entryBlocks d)

end

theorem treesOf_append (l l' : List BeBlocks) : treesOf (l ++ l') = treesOf l ++ treesOf l' := by
  induction l with
  | nil => rfl
  | cons n l ih => rw [List.cons_append, treesOf, treesOf, ih, List.cons_append]

theorem entriesOf_append (d d' : List (Option (ℕ × Bytes) × BeBlocks)) :
    entriesOf (d ++ d') = entriesOf d ++ entriesOf d' := by
  induction d with
  | nil => rfl
  | cons e d ih => rw [List.cons_append, entriesOf, entriesOf, ih, List.cons_append]

theorem blocksOf_append (l l' : List BeBlocks) : blocksOf (l ++ l') = blocksOf l + blocksOf l' := by
  induction l with
  | nil => exact (zero_add _).symm
  | cons n l ih => rw [List.cons_append, blocksOf, blocksOf, ih, add_assoc]

theorem entryBlocks_append (d d' : List (Option (ℕ × Bytes) × BeBlocks)) :
    entryBlocks (d ++ d') = entryBlocks d + entryBlocks d' := by
  induction d with
  | nil => exact (zero_add _).symm
  | cons e d ih => simp only [List.cons_append, entryBlocks, ih, add_assoc]

/-! ### `be_free` -/

/-- `_be_free_str`. -/
def beFreeStr (s : Option (ℕ × Bytes)) (L : Ledger) : Except Fault Ledger := releaseOpt (s.map Prod.fst) L

mutual

/-- `be_free`. -/
def beFree : BeBlocks → Ledger → Except Fault Ledger
  | .str node s, L => do
    let L ← beFreeStr s L
    release node L
  | .int node _, L => release node L
  | .list node arr l, L => do
    let L ← beFreeList l L
    let L ← release arr L
    release node L
  | .dict node arr d, L => do
    let L ← beFreeDict d L
    let L ← release arr L
    release node L

/-- Its loop over a list. -/
def beFreeList : List BeBlocks → Ledger → Except Fault Ledger
  | [], L => pure L
  | n :: l, L => do
    let L ← beFree n L
    beFreeList l L

/-- Its loop over a dictionary. -/
def beFreeDict : List (Option (ℕ × Bytes) × BeBlocks) → Ledger → Except Fault Ledger
  | [], L => pure L
  | (key, n) :: d, L => do
    let L ← beFreeStr key L
    let L ← beFree n L
    beFreeDict d L

end

theorem beFreeStr_spec {s : Option (ℕ × Bytes)} {L : Ledger} {own base : Multiset ℕ}
    (h : Owns L (strBlock s + own) base) : ∃ L', beFreeStr s L = .ok L' ∧ Owns L' own base := h.releaseOpt

mutual

/-- **`be_free` gives back the blocks of a tree**, and no others. -/
theorem beFree_spec : ∀ (n : BeBlocks) {L : Ledger} {own base : Multiset ℕ}, Owns L (n.blocks + own) base →
    ∃ L', beFree n L = .ok L' ∧ Owns L' own base
  | .str node s, L, own, base, h => by
    rw [BeBlocks.blocks, add_assoc] at h
    obtain ⟨L₁, h₁, ho₁⟩ := beFreeStr_spec h
    obtain ⟨L₂, h₂, ho₂⟩ := ho₁.release
    exact ⟨L₂, by rw [beFree, h₁]; exact h₂, ho₂⟩
  | .int node i, L, own, base, h => by
    rw [BeBlocks.blocks] at h
    exact h.release
  | .list node arr l, L, own, base, h => by
    rw [BeBlocks.blocks, add_assoc, add_assoc] at h
    obtain ⟨L₁, h₁, ho₁⟩ := beFreeList_spec l h
    obtain ⟨L₂, h₂, ho₂⟩ := ho₁.release
    obtain ⟨L₃, h₃, ho₃⟩ := ho₂.release
    exact ⟨L₃, by rw [beFree, h₁, ok_bind, h₂, ok_bind, h₃], ho₃⟩
  | .dict node arr d, L, own, base, h => by
    rw [BeBlocks.blocks, add_assoc, add_assoc] at h
    obtain ⟨L₁, h₁, ho₁⟩ := beFreeDict_spec d h
    obtain ⟨L₂, h₂, ho₂⟩ := ho₁.release
    obtain ⟨L₃, h₃, ho₃⟩ := ho₂.release
    exact ⟨L₃, by rw [beFree, h₁, ok_bind, h₂, ok_bind, h₃], ho₃⟩

theorem beFreeList_spec : ∀ (l : List BeBlocks) {L : Ledger} {own base : Multiset ℕ}, Owns L (blocksOf l + own) base →
    ∃ L', beFreeList l L = .ok L' ∧ Owns L' own base
  | [], L, own, base, h => ⟨L, rfl, h.congr (zero_add own)⟩
  | n :: l, L, own, base, h => by
    rw [blocksOf, add_assoc] at h
    obtain ⟨L₁, h₁, ho₁⟩ := beFree_spec n h
    obtain ⟨L₂, h₂, ho₂⟩ := beFreeList_spec l ho₁
    exact ⟨L₂, by rw [beFreeList, h₁]; exact h₂, ho₂⟩

theorem beFreeDict_spec : ∀ (d : List (Option (ℕ × Bytes) × BeBlocks)) {L : Ledger} {own base : Multiset ℕ},
    Owns L (entryBlocks d + own) base → ∃ L', beFreeDict d L = .ok L' ∧ Owns L' own base
  | [], L, own, base, h => ⟨L, rfl, h.congr (zero_add own)⟩
  | (key, n) :: d, L, own, base, h => by
    rw [entryBlocks, add_assoc, add_assoc] at h
    obtain ⟨L₁, h₁, ho₁⟩ := beFreeStr_spec h
    obtain ⟨L₂, h₂, ho₂⟩ := beFree_spec n ho₁
    obtain ⟨L₃, h₃, ho₃⟩ := beFreeDict_spec d ho₂
    exact ⟨L₃, by rw [beFreeDict, h₁, ok_bind, h₂]; exact h₃, ho₃⟩

end

/-! ### The decoder -/

section

variable (place : Placement)

/-- `_be_decode_str`: the copy has the length in front of it, in one block. -/
def beDecodeStrAt (c : Cursor) (L : Ledger) : Except Fault (Option (ℕ × Bytes) × Cursor × Ledger) := do
  let (s, c) ← beDecodeStr c
  match s with
  | none => pure (none, c, L)
  | some s =>
    let (a, L) := alloc place L
    pure (some (a, s), c, L)

mutual

/-- `_be_decode`. -/
def beDecodeAt : ℕ → Cursor → Ledger → Except Fault (Option BeBlocks × Cursor × Ledger)
  | 0, _, _ => .error .fuel
  | fuel + 1, c, L =>
    if c.len = 0 then pure (none, c, L)
    else match c.data with
      | [] => .error .overread
      | x :: rest =>
        if x = 108 then
          let (node, L) := alloc place L
          beDecodeListAt fuel node none [] ⟨rest, c.len - 1⟩ L
        else if x = 100 then
          let (node, L) := alloc place L
          beDecodeDictAt fuel node none [] ⟨rest, c.len - 1⟩ L
        else if x = 105 then do
          let (node, L) := alloc place L
          let (i, c) ← beDecodeInt ⟨rest, c.len - 1⟩
          match c.data with
          | [] => .error .overread
          | y :: rest =>
            if y = 101 then pure (some (.int node (Int64.ofInt i)), ⟨rest, c.len - 1⟩, L)
            else do
              let L ← beFree (.int node (Int64.ofInt i)) L
              pure (none, c, L)
        else if isDigit x then do
          let (node, L) := alloc place L
          let (s, c, L) ← beDecodeStrAt place c L
          pure (some (.str node s), c, L)
        else pure (none, c, L)

/-- Its loop over the elements of a list: `done` are those that are in the array. -/
def beDecodeListAt : ℕ → ℕ → Option ℕ → List BeBlocks → Cursor → Ledger →
    Except Fault (Option BeBlocks × Cursor × Ledger)
  | 0, _, _, _, _, _ => .error .fuel
  | fuel + 1, node, arr, done, c, L => match c.data with
    | [] => .error .overread
    | x :: rest =>
      if x = 101 then
        match arr with
        | some arr => pure (some (.list node arr done), ⟨rest, c.len - 1⟩, L)
        -- the empty list has no array yet
        | none => do
          let (arr, L) ← realloc place none L
          pure (some (.list node arr done), ⟨rest, c.len - 1⟩, L)
      else do
        let (arr, L) ← realloc place arr L
        let (n, c, L) ← beDecodeAt fuel c L
        match n with
        | none => do
          let L ← beFree (.list node arr done) L
          pure (none, c, L)
        | some n => beDecodeListAt fuel node (some arr) (done ++ [n]) c L

/-- Its loop over the entries of a dictionary. -/
def beDecodeDictAt : ℕ → ℕ → Option ℕ → List (Option (ℕ × Bytes) × BeBlocks) → Cursor → Ledger →
    Except Fault (Option BeBlocks × Cursor × Ledger)
  | 0, _, _, _, _, _ => .error .fuel
  | fuel + 1, node, arr, done, c, L => match c.data with
    | [] => .error .overread
    | x :: rest =>
      if x = 101 then
        match arr with
        | some arr => pure (some (.dict node arr done), ⟨rest, c.len - 1⟩, L)
        | none => do
          let (arr, L) ← realloc place none L
          pure (some (.dict node arr done), ⟨rest, c.len - 1⟩, L)
      else do
        let (arr, L) ← realloc place arr L
        let (key, c, L) ← beDecodeStrAt place c L
        let (n, c, L) ← beDecodeAt fuel c L
        match key, n with
        | some key, some n => beDecodeDictAt fuel node (some arr) (done ++ [(some key, n)]) c L
        -- without a value, the loop of `be_free` does not come to this entry
        | _, none => do
          let L ← beFree (.dict node arr done) L
          pure (none, c, L)
        | none, some n => do
          let L ← beFree (.dict node arr (done ++ [(none, n)])) L
          pure (none, c, L)

end

/-- `be_decoden`. -/
def beDecodenAt (data : Bytes) (len : ℤ) (L : Ledger) : Except Fault (Option BeBlocks × Ledger) := do
  let (n, _, L) ← beDecodeAt place (2 * data.length + 2) ⟨data, len⟩ L
  pure (n, L)

/-- `be_node_loadfile`: the bytes of the file are in a block of their own, up to the end of the decode. -/
def beNodeLoadfileAt (file : Option Bytes) (L : Ledger) : Except Fault (Option BeBlocks × Ledger) :=
  match file with
  | none => pure (none, L)
  | some data => do
    let (msg, L) := alloc place L
    -- `fread` of an object of no bytes reads no object
    if data = [] then
      let L ← release msg L
      pure (none, L)
    else
      let (root, L) ← beDecodenAt place data data.length L
      let L ← release msg L
      pure (root, L)

end

/-! ### What is given up -/

/-- `s` starts with a part that is given up; `k` of the dictionaries that are open there have the key of
an entry and not its value. -/
inductive Refused : Part → Bytes → ℕ → Prop where
  | nothing : Refused .node [] 0
  | int {s t : Bytes} {i : ℤ} {c : UInt8} : strtoll s = .ok (i, c :: t) → c ≠ 101 → Refused .node (105 :: s) 0
  | other {c : UInt8} {s : Bytes} : c ≠ 108 → c ≠ 100 → c ≠ 105 → isDigit c = false → Refused .node (c :: s) 0
  | list {s : Bytes} {k : ℕ} : Refused .list s k → Refused .node (108 :: s) k
  | dict {s : Bytes} {k : ℕ} : Refused .dict s k → Refused .node (100 :: s) k
  | element {c : UInt8} {s : Bytes} {k : ℕ} : c ≠ 101 → Refused .node (c :: s) k → Refused .list (c :: s) k
  | elements {c : UInt8} {s t : Bytes} {k : ℕ} : c ≠ 101 → Makes .node (c :: s) t → Refused .list t k →
      Refused .list (c :: s) k
  /-- The key is refused; its value is decoded all the same. -/
  | key {c : UInt8} {s t u : Bytes} : c ≠ 101 → StrAt (c :: s) false t → Makes .node t u → Refused .dict (c :: s) 0
  | both {c : UInt8} {s t : Bytes} {k : ℕ} : c ≠ 101 → StrAt (c :: s) false t → Refused .node t k →
      Refused .dict (c :: s) k
  | value {c : UInt8} {s t : Bytes} {k : ℕ} : c ≠ 101 → StrAt (c :: s) true t → Refused .node t k →
      Refused .dict (c :: s) (k + 1)
  | entries {c : UInt8} {s t u : Bytes} {k : ℕ} : c ≠ 101 → StrAt (c :: s) true t → Makes .node t u →
      Refused .dict u k → Refused .dict (c :: s) k

/-- What is given up by the grammar is given up by the decoder. -/
theorem Refused.decode {part : Part} {s : Bytes} {k : ℕ} (h : Refused part s k) :
    ∀ fuel, 2 * s.length + part.slack ≤ fuel → ∃ c, decodePart part fuel (full s) = .ok (false, c) := by
  induction h with
  | nothing =>
    intro fuel hfuel
    obtain ⟨fuel, rfl⟩ := Part.fuel_succ hfuel
    exact ⟨_, decodePart_nil fuel⟩
  | int hs hc =>
    intro fuel hfuel
    obtain ⟨fuel, rfl⟩ := Part.fuel_succ hfuel
    exact ⟨_, by rw [decodePart_int fuel _ hs, if_neg hc]⟩
  | other hl hd hi hdig =>
    intro fuel hfuel
    obtain ⟨fuel, rfl⟩ := Part.fuel_succ hfuel
    exact ⟨_, decodePart_other fuel _ hl hd hi hdig⟩
  | list _ ih =>
    intro fuel hfuel
    obtain ⟨fuel, rfl⟩ := Part.fuel_succ hfuel
    simp only [List.length_cons, Part.slack] at hfuel ih
    rw [decodePart_list]
    exact ih fuel (by omega)
  | dict _ ih =>
    intro fuel hfuel
    obtain ⟨fuel, rfl⟩ := Part.fuel_succ hfuel
    simp only [List.length_cons, Part.slack] at hfuel ih
    rw [decodePart_dict]
    exact ih fuel (by omega)
  | element hc _ ih =>
    intro fuel hfuel
    obtain ⟨fuel, rfl⟩ := Part.fuel_succ hfuel
    simp only [Part.slack] at hfuel ih
    obtain ⟨c, hdec⟩ := ih fuel (by omega)
    exact ⟨c, by rw [decodePart_element fuel _ hc, hdec]; rfl⟩
  | elements hc hmade _ ih =>
    intro fuel hfuel
    have hlt := hmade.length_lt
    obtain ⟨fuel, rfl⟩ := Part.fuel_succ hfuel
    simp only [Part.slack] at hfuel ih
    rw [decodePart_element fuel _ hc, hmade.decode fuel (by simp only [Part.slack]; omega), ok_bind, if_pos rfl]
    exact ih fuel (by omega)
  | key hc hstr hmade =>
    intro fuel hfuel
    have hle := hstr.length_le.2
    obtain ⟨fuel, rfl⟩ := Part.fuel_succ hfuel
    simp only [Part.slack] at hfuel
    obtain ⟨key, hkey, hb⟩ := beDecodeStr_full hstr
    have hnode := hmade.decode fuel (by simp only [Part.slack]; omega)
    exact ⟨_, by rw [decodePart_entry fuel _ hc, hkey, ok_bind, hnode, ok_bind, if_neg (by simp [hb])]⟩
  | both hc hstr _ ih =>
    intro fuel hfuel
    have hle := hstr.length_le.2
    obtain ⟨fuel, rfl⟩ := Part.fuel_succ hfuel
    simp only [Part.slack] at hfuel ih
    obtain ⟨key, hkey, -⟩ := beDecodeStr_full hstr
    obtain ⟨c, hdec⟩ := ih fuel (by omega)
    exact ⟨c, by rw [decodePart_entry fuel _ hc, hkey, ok_bind, hdec, ok_bind, if_neg (by simp)]⟩
  | value hc hstr _ ih =>
    intro fuel hfuel
    have hle := hstr.length_le.2
    obtain ⟨fuel, rfl⟩ := Part.fuel_succ hfuel
    simp only [Part.slack] at hfuel ih
    obtain ⟨key, hkey, -⟩ := beDecodeStr_full hstr
    obtain ⟨c, hdec⟩ := ih fuel (by omega)
    exact ⟨c, by rw [decodePart_entry fuel _ hc, hkey, ok_bind, hdec, ok_bind, if_neg (by simp)]⟩
  | entries hc hstr hmade _ ih =>
    intro fuel hfuel
    have hle := hstr.length_le.2
    have hlt := hmade.length_lt
    obtain ⟨fuel, rfl⟩ := Part.fuel_succ hfuel
    simp only [Part.slack] at hfuel ih
    obtain ⟨key, hkey, hb⟩ := beDecodeStr_full hstr
    rw [decodePart_entry fuel _ hc, hkey, ok_bind, hmade.decode fuel (by simp only [Part.slack]; omega), ok_bind,
      if_pos ⟨hb, rfl⟩]
    exact ih fuel (by omega)

theorem StrAt.unique {s t t' : Bytes} {b b' : Bool} (h : StrAt s b t) (h' : StrAt s b' t') : b = b' ∧ t = t' := by
  obtain ⟨key, hkey, rfl⟩ := beDecodeStr_full h
  obtain ⟨key', hkey', rfl⟩ := beDecodeStr_full h'
  obtain ⟨rfl, hfull⟩ := Prod.mk.inj (Except.ok.inj (hkey.symm.trans hkey'))
  exact ⟨rfl, congrArg Cursor.data hfull⟩

theorem Makes.unique {part : Part} {s t t' : Bytes} (h : Makes part s t) (h' : Makes part s t') : t = t' := by
  have heq := (h.decode _ le_rfl).symm.trans (h'.decode _ le_rfl)
  exact congrArg Cursor.data (Prod.mk.inj (Except.ok.inj heq)).2

/-- What is made is not given up. -/
theorem Makes.not_refused {part : Part} {s t : Bytes} {k : ℕ} (h : Makes part s t) : ¬ Refused part s k := by
  intro h'
  obtain ⟨c, hdec⟩ := h'.decode _ le_rfl
  cases (h.decode _ le_rfl).symm.trans hdec

/-- The number of keys is determined by the input. -/
theorem Refused.unique {part : Part} {s : Bytes} {k : ℕ} (h : Refused part s k) :
    ∀ {k' : ℕ}, Refused part s k' → k = k' := by
  induction h with
  | nothing =>
    intro k' h'
    cases h'
    rfl
  | int hs hc =>
    intro k' h'
    cases h' with
    | int => rfl
    | other hl hd hi => exact absurd rfl hi
  | other hl hd hi hdig =>
    intro k' h'
    cases h' with
    | int => exact absurd rfl hi
    | other => rfl
    | list => exact absurd rfl hl
    | dict => exact absurd rfl hd
  | list _ ih =>
    intro k' h'
    cases h' with
    | other hl => exact absurd rfl hl
    | list h' => exact ih h'
  | dict _ ih =>
    intro k' h'
    cases h' with
    | other hl hd => exact absurd rfl hd
    | dict h' => exact ih h'
  | element hc h ih =>
    intro k' h'
    cases h' with
    | element _ h' => exact ih h'
    | elements _ hmade => exact absurd h hmade.not_refused
  | elements hc hmade _ ih =>
    intro k' h'
    cases h' with
    | element _ h' => exact absurd h' hmade.not_refused
    | elements _ hmade' h' =>
      cases hmade.unique hmade'
      exact ih h'
  | key hc hstr hmade =>
    intro k' h'
    cases h' with
    | key => rfl
    | both _ hstr' h' =>
      obtain ⟨-, rfl⟩ := hstr.unique hstr'
      exact absurd h' hmade.not_refused
    | value _ hstr' => cases (hstr.unique hstr').1
    | entries _ hstr' => cases (hstr.unique hstr').1
  | both hc hstr h ih =>
    intro k' h'
    cases h' with
    | key _ hstr' hmade =>
      obtain ⟨-, rfl⟩ := hstr.unique hstr'
      exact absurd h hmade.not_refused
    | both _ hstr' h' =>
      obtain ⟨-, rfl⟩ := hstr.unique hstr'
      exact ih h'
    | value _ hstr' => cases (hstr.unique hstr').1
    | entries _ hstr' => cases (hstr.unique hstr').1
  | value hc hstr h ih =>
    intro k' h'
    cases h' with
    | key _ hstr' => cases (hstr.unique hstr').1
    | both _ hstr' => cases (hstr.unique hstr').1
    | value _ hstr' h' =>
      obtain ⟨-, rfl⟩ := hstr.unique hstr'
      rw [ih h']
    | entries _ hstr' hmade =>
      obtain ⟨-, rfl⟩ := hstr.unique hstr'
      exact absurd h hmade.not_refused
  | entries hc hstr hmade _ ih =>
    intro k' h'
    cases h' with
    | key _ hstr' => cases (hstr.unique hstr').1
    | both _ hstr' => cases (hstr.unique hstr').1
    | value _ hstr' h' =>
      obtain ⟨-, rfl⟩ := hstr.unique hstr'
      exact absurd h' hmade.not_refused
    | entries _ hstr' hmade' h' =>
      obtain ⟨-, rfl⟩ := hstr.unique hstr'
      cases hmade.unique hmade'
      exact ih h'

/-! ### The decoder and its blocks -/

theorem makes_of_decode {fuel : ℕ} {s : Bytes} {n : BeNode} {c : Cursor}
    (h : beDecodeNode fuel (full s) = .ok (some n, c)) : ∃ t, c = full t ∧ Makes .node s t := by
  have hpart : decodePart .node fuel (full s) = .ok (true, c) := by
    rw [decodePart, h]
    rfl
  cases comes fuel .node s with
  | fuel h' => cases hpart.symm.trans h'
  | past h' => cases hpart.symm.trans h'
  | @made t h' hmade => exact ⟨t, (Prod.mk.inj (Except.ok.inj (hpart.symm.trans h'))).2, hmade⟩
  | dropped h' => cases hpart.symm.trans h'

section

variable {place : Placement} {fuel : ℕ} {s t : Bytes} {L : Ledger} {own base : Multiset ℕ}

/-- What the decoder makes with blocks, where it makes `r` without: the same tree, of blocks that it took; or
nothing, and then what it leaves behind is what the grammar says. -/
def Follows (part : Part) (s : Bytes) (base : Multiset ℕ) (r : Except Fault (Option BeNode × Cursor))
    (r' : Except Fault (Option BeBlocks × Cursor × Ledger)) : Prop :=
  match r with
  | .error f => r' = .error f
  | .ok (none, c) => ∃ L' keys, r' = .ok (none, c, L') ∧ Owns L' keys base ∧ Refused part s keys.card
  | .ok (some n, c) => ∃ b L', r' = .ok (some b, c, L') ∧ b.tree = n ∧ Owns L' b.blocks base

theorem Follows.mono {part part' : Part} {s' : Bytes} {r : Except Fault (Option BeNode × Cursor)}
    {r' : Except Fault (Option BeBlocks × Cursor × Ledger)} (h : Follows part s base r r')
    (hpart : ∀ k, Refused part s k → Refused part' s' k) : Follows part' s' base r r' := by
  match r, h with
  | .error f, h => exact h
  | .ok (some n, c), h => exact h
  | .ok (none, c), ⟨L', keys, hr, ho, hk⟩ => exact ⟨L', keys, hr, ho, hpart _ hk⟩

theorem beDecodeStrAt_spec (hplace : place.Sound) {b : Bool} (hstr : StrAt s b t) (h : Owns L own base) :
    ∃ key L', beDecodeStrAt place (full s) L = .ok (key, full t, L') ∧
      beDecodeStr (full s) = .ok (key.map Prod.snd, full t) ∧ key.isSome = b ∧ Owns L' (strBlock key + own) base := by
  obtain ⟨key, hkey, rfl⟩ := beDecodeStr_full hstr
  rw [beDecodeStrAt, hkey, ok_bind]
  cases key with
  | none => exact ⟨none, L, rfl, rfl, rfl, h.congr (zero_add own).symm⟩
  | some key => exact ⟨some (place L, key), (alloc place L).2, rfl, rfl, rfl, h.alloc hplace⟩

/-- With this fuel the decoder does with blocks what it does without. -/
structure Sim (place : Placement) (fuel : ℕ) : Prop where
  node : ∀ s L, Follows .node s L.val (beDecodeNode fuel (full s)) (beDecodeAt place fuel (full s) L)
  list : ∀ s L base node arr done, (arr = none → done = []) → Owns L (blocksOf done + (block arr + {node})) base →
    Follows .list s base ((beDecodeList fuel (full s)).map fun r => (r.1.map fun l => .list (treesOf done ++ l), r.2))
      (beDecodeListAt place fuel node arr done (full s) L)
  dict : ∀ s L base node arr done, (arr = none → done = []) → Owns L (entryBlocks done + (block arr + {node})) base →
    Follows .dict s base ((beDecodeDict fuel (full s)).map fun r => (r.1.map fun d => .dict (entriesOf done ++ d), r.2))
      (beDecodeDictAt place fuel node arr done (full s) L)

/-- A node: a block is allocated for it as soon as its first byte is accepted. -/
theorem Sim.node_succ (hplace : place.Sound) (ih : Sim place fuel) (s : Bytes) (L : Ledger) :
    Follows .node s L.val (beDecodeNode (fuel + 1) (full s)) (beDecodeAt place (fuel + 1) (full s) L) := by
  have hnode := (Owns.nothing (L := L)).alloc hplace
  cases s with
  | nil => exact ⟨L, 0, rfl, .nothing, .nothing⟩
  | cons x s =>
    have hlen : (full (x :: s)).len ≠ 0 := by simp only [full, List.length_cons]; omega
    rw [beDecodeNode, beDecodeAt, if_neg hlen, if_neg hlen]
    change Follows .node (x :: s) _ (if x = 108 then _ else _) (if x = 108 then _ else _)
    by_cases hl : x = 108
    · subst hl
      have hlist := ih.list s _ L.val (place L) none [] (fun _ => rfl) (hnode.congr (by simp [blocksOf, block]))
      rw [if_pos rfl, if_pos rfl, full_tail]
      refine @Follows.mono s L.val .list .node _ _ _ ?_ fun k => .list
      change Follows .list s _ _ (beDecodeListAt place fuel (place L) none [] (full s) (alloc place L).2)
      cases hr : beDecodeList fuel (full s) <;> rw [hr] at hlist <;> exact hlist
    rw [if_neg hl, if_neg hl]
    by_cases hd : x = 100
    · subst hd
      have hdict := ih.dict s _ L.val (place L) none [] (fun _ => rfl) (hnode.congr (by simp [entryBlocks, block]))
      rw [if_pos rfl, if_pos rfl, full_tail]
      refine @Follows.mono s L.val .dict .node _ _ _ ?_ fun k => .dict
      change Follows .dict s _ _ (beDecodeDictAt place fuel (place L) none [] (full s) (alloc place L).2)
      cases hr : beDecodeDict fuel (full s) <;> rw [hr] at hdict <;> exact hdict
    rw [if_neg hd, if_neg hd]
    by_cases hi : x = 105
    · subst hi
      rw [if_pos rfl, if_pos rfl, full_tail]
      rcases strtoll_cases s with h | ⟨i, endp, h, -⟩
      · rw [beDecodeInt_unended (strtoll_overread_iff.mp h)]
        rfl
      · cases endp with
        | nil => exact absurd rfl (strtoll_ne_nil h)
        | cons y t =>
          rw [beDecodeInt_full h, ok_bind]
          change Follows _ _ _ (if y = 101 then _ else _) (if y = 101 then _ else _)
          by_cases hy : y = 101
          · subst hy
            rw [if_pos rfl, if_pos rfl]
            exact ⟨.int (place L) (Int64.ofInt i), _, rfl, rfl, hnode.congr (add_zero _)⟩
          · rw [if_neg hy, if_neg hy]
            obtain ⟨L', hfree, ho⟩ := beFree_spec (.int (place L) (Int64.ofInt i)) hnode
            refine ⟨L', 0, ?_, ho, .int h hy⟩
            change (beFree _ (alloc place L).2 >>= _) = _
            rw [hfree]
            rfl
    rw [if_neg hi, if_neg hi]
    cases hdig : isDigit x with
    | true =>
      rw [if_pos rfl, if_pos rfl]
      rcases strAt_total (x :: s) with hun | ⟨b, t, hstr⟩
      · have hover := beDecodeStr_unended hun
        rw [hover]
        change (beDecodeStrAt place _ _ >>= _) = _
        rw [beDecodeStrAt, hover]
        rfl
      · obtain ⟨key, L', hat, hkey, -, ho⟩ := beDecodeStrAt_spec hplace hstr hnode
        rw [hkey]
        refine ⟨.str (place L) key, L', ?_, rfl, ho.congr (by rw [BeBlocks.blocks, add_zero])⟩
        change (beDecodeStrAt place _ (alloc place L).2 >>= _) = _
        rw [hat]
        rfl
    | false => exact ⟨L, 0, rfl, .nothing, .other hl hd hi hdig⟩

/-- A list: the array is reallocated before each element. -/
theorem Sim.list_succ (hplace : place.Sound) (ih : Sim place fuel) (s : Bytes) (L : Ledger) (base : Multiset ℕ)
    (node : ℕ) (arr : Option ℕ) (done : List BeBlocks) (harr : arr = none → done = [])
    (h : Owns L (blocksOf done + (block arr + {node})) base) :
    Follows .list s base
      ((beDecodeList (fuel + 1) (full s)).map fun r => (r.1.map fun l => .list (treesOf done ++ l), r.2))
      (beDecodeListAt place (fuel + 1) node arr done (full s) L) := by
  rw [beDecodeList, beDecodeListAt]
  cases s with
  | nil => rfl
  | cons x s =>
    change Follows .list (x :: s) base (Except.map _ (if x = 101 then _ else _)) (if x = 101 then _ else _)
    have hgrow : blocksOf done + (block arr + {node}) = block arr + (blocksOf done + {node}) := by abel
    obtain ⟨arr', L₁, hre, h₁⟩ := Owns.realloc hplace (h.congr hgrow)
    by_cases hx : x = 101
    · subst hx
      rw [if_pos rfl, if_pos rfl, full_tail]
      cases arr with
      | some arr => exact ⟨.list node arr done, L, rfl, by simp [BeBlocks.tree], h⟩
      | none =>
        cases harr rfl
        refine ⟨.list node arr' [], L₁, ?_, rfl, h₁.congr ?_⟩
        · change (realloc place none L >>= _) = _
          rw [hre]
          rfl
        · rw [BeBlocks.blocks]
          abel
    rw [if_neg hx, if_neg hx, hre]
    change Follows _ _ _ (Except.map _ (beDecodeNode fuel (full (x :: s)) >>= _))
      (beDecodeAt place fuel (full (x :: s)) L₁ >>= _)
    have hnode := ih.node (x :: s) L₁
    cases hn : beDecodeNode fuel (full (x :: s)) with
    | error f =>
      rw [hn] at hnode
      rw [show beDecodeAt place fuel (full (x :: s)) L₁ = _ from hnode]
      rfl
    | ok r =>
      obtain ⟨n, c⟩ := r
      rw [hn] at hnode
      cases n with
      | none =>
        obtain ⟨L₂, keys, hat, ho, hk⟩ := hnode
        rw [hat]
        -- what the element left behind stays, the rest of the list is given back
        have hall : Owns L₂ ((BeBlocks.list node arr' done).blocks + keys) base :=
          (h₁.trans ho).congr (by rw [BeBlocks.blocks]; abel)
        obtain ⟨L₃, hfree, ho₃⟩ := beFree_spec _ hall
        refine ⟨L₃, keys, ?_, ho₃, .element hx hk⟩
        change (beFree _ _ >>= _) = _
        rw [hfree]
        rfl
      | some n =>
        obtain ⟨b, L₂, hat, rfl, ho⟩ := hnode
        obtain ⟨t, rfl, hmade⟩ := makes_of_decode hn
        rw [hat]
        have hall : Owns L₂ (blocksOf (done ++ [b]) + (block (some arr') + {node})) base :=
          (h₁.trans ho).congr (by simp only [blocksOf_append, blocksOf, block]; abel)
        have hrest := (ih.list t L₂ base node (some arr') (done ++ [b]) nofun hall).mono fun k => .elements hx hmade
        refine Eq.mp (congrArg (Follows .list (x :: s) base · _) ?_) hrest
        change _ = Except.map _ (beDecodeList fuel (full t) >>= _)
        cases beDecodeList fuel (full t) with
        | error f => rfl
        | ok r => simp [Except.map, treesOf_append, treesOf, Function.comp_def]

/-- A dictionary: the value is decoded whatever became of its key. -/
theorem Sim.dict_succ (hplace : place.Sound) (ih : Sim place fuel) (s : Bytes) (L : Ledger) (base : Multiset ℕ)
    (node : ℕ) (arr : Option ℕ) (done : List (Option (ℕ × Bytes) × BeBlocks)) (harr : arr = none → done = [])
    (h : Owns L (entryBlocks done + (block arr + {node})) base) :
    Follows .dict s base
      ((beDecodeDict (fuel + 1) (full s)).map fun r => (r.1.map fun d => .dict (entriesOf done ++ d), r.2))
      (beDecodeDictAt place (fuel + 1) node arr done (full s) L) := by
  rw [beDecodeDict, beDecodeDictAt]
  cases s with
  | nil => rfl
  | cons x s =>
    change Follows .dict (x :: s) base (Except.map _ (if x = 101 then _ else _)) (if x = 101 then _ else _)
    have hgrow : entryBlocks done + (block arr + {node}) = block arr + (entryBlocks done + {node}) := by abel
    obtain ⟨arr', L₁, hre, h₁⟩ := Owns.realloc hplace (h.congr hgrow)
    by_cases hx : x = 101
    · subst hx
      rw [if_pos rfl, if_pos rfl, full_tail]
      cases arr with
      | some arr => exact ⟨.dict node arr done, L, rfl, by simp [BeBlocks.tree], h⟩
      | none =>
        cases harr rfl
        refine ⟨.dict node arr' [], L₁, ?_, rfl, h₁.congr ?_⟩
        · change (realloc place none L >>= _) = _
          rw [hre]
          rfl
        · rw [BeBlocks.blocks]
          abel
    rw [if_neg hx, if_neg hx, hre]
    change Follows _ _ _ (Except.map _ (beDecodeStr (full (x :: s)) >>= _))
      (beDecodeStrAt place (full (x :: s)) L₁ >>= _)
    rcases strAt_total (x :: s) with hun | ⟨b, t, hstr⟩
    · have hover := beDecodeStr_unended hun
      rw [beDecodeStrAt, hover]
      rfl
    obtain ⟨key, L₂, hat, hkey, hb, h₂⟩ := beDecodeStrAt_spec hplace hstr h₁
    rw [hat, hkey]
    change Follows _ _ _ (Except.map _ (beDecodeNode fuel (full t) >>= _)) (beDecodeAt place fuel (full t) L₂ >>= _)
    have hnode := ih.node t L₂
    cases hn : beDecodeNode fuel (full t) with
    | error f =>
      rw [hn] at hnode
      rw [show beDecodeAt place fuel (full t) L₂ = _ from hnode]
      rfl
    | ok r =>
      obtain ⟨n, c⟩ := r
      rw [hn] at hnode
      cases n with
      | none =>
        obtain ⟨L₃, keys, hat', ho, hk⟩ := hnode
        rw [hat']
        -- the loop of `be_free` does not come to the key
        have hall : Owns L₃ ((BeBlocks.dict node arr' done).blocks + (strBlock key + keys)) base :=
          (h₂.trans ho).congr (by rw [BeBlocks.blocks]; abel)
        obtain ⟨L₄, hfree, ho₄⟩ := beFree_spec _ hall
        have hok : (beFree (BeBlocks.dict node arr' done) L₃ >>= fun L => pure (none, c, L)) =
            (.ok (none, c, L₄) : Except Fault (Option BeBlocks × Cursor × Ledger)) := by
          rw [hfree]
          rfl
        cases key with
        | none =>
          subst hb
          exact ⟨L₄, keys, hok, ho₄.congr (zero_add keys), .both hx hstr hk⟩
        | some key =>
          subst hb
          refine ⟨L₄, _, hok, ho₄, ?_⟩
          have hcard : (strBlock (some key) + keys).card = keys.card + 1 := by simp [strBlock, block, add_comm]
          rw [hcard]
          exact .value hx hstr hk
      | some n =>
        obtain ⟨b', L₃, hat', rfl, ho⟩ := hnode
        obtain ⟨u, rfl, hmade⟩ := makes_of_decode hn
        rw [hat']
        cases key with
        | none =>
          subst hb
          have hall : Owns L₃ ((BeBlocks.dict node arr' (done ++ [(none, b')])).blocks + 0) base :=
            (h₂.trans ho).congr (by simp only [BeBlocks.blocks, entryBlocks_append, entryBlocks]; abel)
          obtain ⟨L₄, hfree, ho₄⟩ := beFree_spec _ hall
          refine ⟨L₄, 0, ?_, ho₄, .key hx hstr hmade⟩
          change (beFree _ _ >>= _) = _
          rw [hfree]
          rfl
        | some key =>
          subst hb
          have hall : Owns L₃ (entryBlocks (done ++ [(some key, b')]) + (block (some arr') + {node})) base :=
            (h₂.trans ho).congr (by simp only [entryBlocks_append, entryBlocks, block]; abel)
          have hrest := (ih.dict u L₃ base node (some arr') (done ++ [(some key, b')]) nofun hall).mono
            fun k => .entries hx hstr hmade
          refine Eq.mp (congrArg (Follows .dict (x :: s) base · _) ?_) hrest
          change _ = Except.map _ (beDecodeDict fuel (full u) >>= _)
          cases beDecodeDict fuel (full u) with
          | error f => rfl
          | ok r => simp [Except.map, entriesOf_append, entriesOf, Function.comp_def]

theorem sim (hplace : place.Sound) (fuel : ℕ) : Sim place fuel := by
  induction fuel with
  | zero => exact ⟨fun s L => rfl, fun _ _ _ _ _ _ _ _ => rfl, fun _ _ _ _ _ _ _ _ => rfl⟩
  | succ fuel ih => exact ⟨ih.node_succ hplace, ih.list_succ hplace, ih.dict_succ hplace⟩

end

/-! ### Loading a file -/

/-- **A load leaves nothing behind but the tree it returns**, and the keys whose values it refused.
`be_node_loadfile` comes to what it comes to without the blocks. A tree that it returns consists of new blocks,
and `be_free` gives back these and no others; where it returns `NULL`, as many blocks stay allocated as there were
keys without a value when the decode was given up. -/
theorem loadfile_owns {place : Placement} (hplace : place.Sound) (file : Option Bytes) (L : Ledger) :
    match beNodeLoadfile file with
    | .error f => beNodeLoadfileAt place file L = .error f
    | .ok (some root) => ∃ b L', beNodeLoadfileAt place file L = .ok (some b, L') ∧ b.tree = root ∧
        Owns L' b.blocks L.val ∧ beFree b L' = .ok L
    | .ok none => ∃ L' keys, beNodeLoadfileAt place file L = .ok (none, L') ∧ Owns L' keys L.val ∧
        (file = none → keys = 0) ∧ ∀ data, file = some data → ∀ k, Refused .node data k ↔ k = keys.card := by
  cases file with
  | none => exact ⟨L, 0, rfl, .nothing, fun _ => rfl, by simp⟩
  | some data =>
    have hmsg := (Owns.nothing (L := L)).alloc hplace
    by_cases hdata : data = []
    · subst hdata
      obtain ⟨L', hrel, ho⟩ := hmsg.release
      refine ⟨L', 0, ?_, ho, by simp, ?_⟩
      · change (release _ (alloc place L).2 >>= _) = _
        rw [hrel]
        rfl
      · rintro _ ⟨⟩ k
        exact ⟨fun h => h.unique .nothing, fun h => h ▸ .nothing⟩
    have hnode := (sim hplace (2 * data.length + 2)).node data (alloc place L).2
    have hload : beNodeLoadfileAt place (some data) L =
        (beDecodeAt place (2 * data.length + 2) (full data) (alloc place L).2 >>= fun r => do
          let L ← release (place L) r.2.2
          pure (r.1, L)) := by
      unfold beNodeLoadfileAt beDecodenAt
      simp only [if_neg hdata]
      change ((beDecodeAt place _ (full data) _ >>= _) >>= _) = _
      cases beDecodeAt place (2 * data.length + 2) (full data) (alloc place L).2 <;> rfl
    have hpure : beNodeLoadfile (some data) =
        (beDecodeNode (2 * data.length + 2) (full data)).map Prod.fst := by
      rw [beNodeLoadfile_eq, beDecoden]
      change (beDecodeNode (2 * data.length + 2) (full data) >>= _) = _
      cases beDecodeNode (2 * data.length + 2) (full data) <;> rfl
    rw [hpure, hload]
    cases hn : beDecodeNode (2 * data.length + 2) (full data) with
    | error f =>
      rw [hn] at hnode
      rw [show beDecodeAt place _ _ _ = _ from hnode]
      rfl
    | ok r =>
      obtain ⟨n, c⟩ := r
      rw [hn] at hnode
      cases n with
      | none =>
        obtain ⟨L₁, keys, hat, ho, hk⟩ := hnode
        have hall : Owns L₁ ({place L} + keys) L.val := (hmsg.trans ho).congr (by abel)
        obtain ⟨L₂, hrel, ho₂⟩ := hall.release
        refine ⟨L₂, keys, ?_, ho₂, by simp, ?_⟩
        · rw [hat, ok_bind]
          change (release (place L) L₁ >>= _) = _
          rw [hrel]
          rfl
        · rintro _ ⟨⟩ k
          exact ⟨fun h => h.unique hk, fun h => h ▸ hk⟩
      | some n =>
        obtain ⟨b, L₁, hat, htree, ho⟩ := hnode
        have hall : Owns L₁ ({place L} + b.blocks) L.val := (hmsg.trans ho).congr (by abel)
        obtain ⟨L₂, hrel, ho₂⟩ := hall.release
        obtain ⟨L₃, hfree, ho₃⟩ := beFree_spec b (ho₂.congr (add_zero _).symm)
        refine ⟨b, L₂, ?_, htree, ho₂, ?_⟩
        · rw [hat, ok_bind]
          change (release (place L) L₁ >>= _) = _
          rw [hrel]
          rfl
        · rw [hfree, ho₃.all_released]

/-- A file that is refused loads as `NULL`. -/
theorem Refused.loadfile {data : Bytes} {k : ℕ} (h : Refused .node data k) : beNodeLoadfile (some data) = .ok none := by
  obtain ⟨c, hdec⟩ := h.decode (2 * data.length + 2) (by simp [Part.slack])
  obtain ⟨⟨n, c'⟩, hnode, heq⟩ := map_eq_ok.mp hdec
  cases n with
  | some n => cases heq
  | none =>
    rw [beNodeLoadfile_eq, beDecoden]
    change (beDecodeNode _ (full data) >>= _) = _
    rw [hnode]
    rfl

/-- Two dictionaries are open when a value is refused, and the keys of both stay allocated. -/
theorem loadfile_owns_two : ∃ data L' keys, beNodeLoadfileAt above (some data) ∅ = .ok (none, L') ∧
    Owns L' keys 0 ∧ keys.card = 2 := by
  have ha : StrAt (ascii "1:ad1:bx") true (ascii "d1:bx") := @StrAt.good _ (ascii "ad1:bx") 1 rfl (by decide)
  have hb : StrAt (ascii "1:bx") true (ascii "x") := @StrAt.good _ (ascii "bx") 1 rfl (by decide)
  have hx : Refused .node (ascii "x") 0 := .other (by decide) (by decide) (by decide) rfl
  have hrefused : Refused .node (ascii "d1:ad1:bx") 2 :=
    .dict (.value (by decide) ha (.dict (.value (by decide) hb hx)))
  generalize ascii "d1:ad1:bx" = data at hrefused
  have h := loadfile_owns above_sound (some data) ∅
  rw [hrefused.loadfile] at h
  obtain ⟨L', keys, hload, ho, -, hk⟩ := h
  exact ⟨data, L', keys, hload, ho, ((hk _ rfl 2).mp hrefused).symm⟩

end ToxSuite.File
