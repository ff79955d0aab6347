import ToxSuite.Lib.CText

/-!
# Bencode trees and their encoder

`bencode.c` keeps a bencoded value as a tree of `be_node`, a tagged union. This
module gives the tree, the functions that build one, `be_node_len` (which
`tsfiles.c` adds) and `be_encode`, which writes into a buffer of the caller's.

`BeNode.text` is what the encoding of a tree should be. `beNodeLen_eq` and
`beEncode_spec` say that the code agrees with it: `be_node_len` predicts its
length, and `be_encode` writes it when the buffer has room for it and a
terminator.
-/

namespace ToxSuite.Bencode

open ToxSuite.Lib

/-- `be_node`: the type tag and the union are one; `str none` is a string node whose
pointer is `NULL`. -/
inductive BeNode where
  /-- `BE_STR`: the bytes, which carry their length in front of them. -/
  | str (s : Option Bytes)
  /-- `BE_INT`. -/
  | int (i : Int64)
  /-- `BE_LIST`: up to the `NULL` that ends the array. -/
  | list (l : List BeNode)
  /-- `BE_DICT`: up to the entry whose value is `NULL`. -/
  | dict (d : List (Bytes × BeNode))

/-! ### Building a tree -/

/-- `be_create_dict`, which decodes `"de"`. -/
def beCreateDict : BeNode := .dict []

/-- `be_create_list`, which decodes `"le"`. -/
def beCreateList : BeNode := .list []

/-- `be_create_str_wlen` on the first `len` bytes of `str`; the length is an `int`. -/
def beCreateStrWlen (str : Bytes) (len : ℕ) : Except Fault BeNode := do
  let len ← toCInt len
  if len ≤ str.length then pure (.str (some (str.take len))) else .error .overread

/-- `be_create_int`. -/
def beCreateInt (num : Int64) : BeNode := .int num

/-- `be_add_keypair`: at the end of the dictionary, only if it is one. -/
def beAddKeypair (dict : BeNode) (str : Bytes) (node : BeNode) : BeNode :=
  match dict with
  | .dict d => .dict (d ++ [(cstr str, node)])
  | other => other

/-- `be_add_list`: at the end of the list, only if it is one. -/
def beAddList (list node : BeNode) : BeNode :=
  match list with
  | .list l => .list (l ++ [node])
  | other => other

theorem beCreateStrWlen_eq {str : Bytes} (h : str.length ≤ INT_MAX) :
    beCreateStrWlen str str.length = .ok (.str (some str)) := by
  simp [beCreateStrWlen, toCInt_of_le h]

/-! ### The text of a tree -/

/-- The text of a byte string: its length, a colon, its bytes. -/
def strText (s : Bytes) : Bytes := decNat s.length ++ 58 :: s

mutual

/-- The text of a tree. -/
def BeNode.text : BeNode → Bytes
  | .str s => strText (s.getD [])
  | .int i => 105 :: (decInt i.toInt ++ [101])
  | .list l => 108 :: (listText l ++ [101])
  | .dict d => 100 :: (dictText d ++ [101])

/-- The texts of the elements of a list. -/
def listText : List BeNode → Bytes
  | [] => []
  | n :: l => n.text ++ listText l

/-- The texts of the entries of a dictionary; a key ends at its first NUL. -/
def dictText : List (Bytes × BeNode) → Bytes
  | [] => []
  | (k, n) :: d => strText (cstr k) ++ (n.text ++ dictText d)

end

theorem listText_eq_flatMap (l : List BeNode) : listText l = l.flatMap BeNode.text := by
  induction l with
  | nil => rfl
  | cons n l ih => simp [listText, ih]

/-- A text starts with a digit, an `i`, an `l` or a `d`. -/
theorem text_ne_nil (n : BeNode) : n.text ≠ [] := by
  cases n <;> simp [BeNode.text, strText]

theorem length_text_list (l : List BeNode) : (BeNode.list l).text.length = (listText l).length + 2 := by
  simp [BeNode.text]

/-- The text of a list is longer than the texts of its elements. -/
theorem length_text_lt_of_mem {n : BeNode} {l : List BeNode} (h : n ∈ l) :
    n.text.length < (BeNode.list l).text.length := by
  have hle : n.text.length ≤ (listText l).length := by
    rw [listText_eq_flatMap, List.flatMap_def]
    exact (List.sublist_flatten_of_mem (List.mem_map_of_mem h)).length_le
  rw [length_text_list]
  omega

/-- The empty list alone has a text of two bytes. -/
theorem two_lt_length_text_list {l : List BeNode} : 2 < (BeNode.list l).text.length ↔ l ≠ [] := by
  rw [length_text_list]
  cases l with
  | nil => simp [listText]
  | cons n l =>
    have hpos := List.length_pos_iff.mpr (text_ne_nil n)
    refine iff_of_true ?_ (List.cons_ne_nil n l)
    rw [listText, List.length_append]
    omega

/-! ### `be_node_len` -/

/-- `NumDigits`: what `sprintf("%lld")` returns. -/
def numDigits (x : ℤ) : ℕ := (decInt x).length

/-- `be_str_len`: the length kept in front of the bytes, `0` without bytes. -/
def beStrLen : Option Bytes → ℕ
  | some s => s.length
  | none => 0

mutual

/-- `be_node_len`. -/
def beNodeLen : BeNode → ℕ
  | .str s => beStrLen s + numDigits (beStrLen s) + 1
  | .int i => numDigits i.toInt + 2
  | .list l => beNodeLenList l + 2
  | .dict d => beNodeLenDict d + 2

/-- Its loop over a list. -/
def beNodeLenList : List BeNode → ℕ
  | [] => 0
  | n :: l => beNodeLen n + beNodeLenList l

/-- Its loop over a dictionary. -/
def beNodeLenDict : List (Bytes × BeNode) → ℕ
  | [] => 0
  | (k, n) :: d => beNodeLen n + ((cstr k).length + numDigits (cstr k).length + 1) + beNodeLenDict d

end

theorem length_strText (s : Bytes) : (strText s).length = s.length + numDigits s.length + 1 := by
  rw [strText, numDigits, decInt_natCast, List.length_append, List.length_cons]
  omega

mutual

/-- `be_node_len` is the length of the text. -/
theorem beNodeLen_eq : ∀ n : BeNode, beNodeLen n = n.text.length
  | .str s => by cases s <;> simp [beNodeLen, BeNode.text, beStrLen, length_strText]
  | .int i => by simp [beNodeLen, BeNode.text, numDigits]
  | .list l => by simp [beNodeLen, BeNode.text, beNodeLenList_eq l]
  | .dict d => by simp [beNodeLen, BeNode.text, beNodeLenDict_eq d]

theorem beNodeLenList_eq : ∀ l : List BeNode, beNodeLenList l = (listText l).length
  | [] => rfl
  | n :: l => by simp [beNodeLenList, listText, beNodeLen_eq n, beNodeLenList_eq l]

theorem beNodeLenDict_eq : ∀ d : List (Bytes × BeNode), beNodeLenDict d = (dictText d).length
  | [] => rfl
  | (k, n) :: d => by
    simp only [beNodeLenDict, dictText, beNodeLen_eq n, beNodeLenDict_eq d, List.length_append,
      length_strText]
    omega

end

/-! ### `be_encode` -/

mutual

/-- `be_encode(node, buf + off, len)`: the buffer afterwards and the returned `loc`. -/
def beEncode : BeNode → Bytes → ℕ → ℤ → Except Fault (Bytes × ℕ)
  | .str s, buf, off, len => do
    let buf ← snprintf buf off len (decInt (beStrLen s) ++ [58])
    let loc ← strlenAt buf off
    -- the copy is not bounded by `len`
    let buf ← poke buf (off + loc) (s.getD [])
    pure (buf, loc + beStrLen s)
  | .int i, buf, off, len => do
    let buf ← snprintf buf off len (105 :: (decInt i.toInt ++ [101]))
    let loc ← strlenAt buf off
    pure (buf, loc)
  | .list l, buf, off, len => do
    let buf ← snprintf buf off len [108]
    let (buf, loc) ← beEncodeList l buf off len 1
    let buf ← snprintf buf (off + loc) (len - loc) [101]
    pure (buf, loc + 1)
  | .dict d, buf, off, len => do
    let buf ← snprintf buf off len [100]
    let (buf, loc) ← beEncodeDict d buf off len 1
    let buf ← snprintf buf (off + loc) (len - loc) [101]
    pure (buf, loc + 1)

/-- Its loop over a list, from `loc` on. -/
def beEncodeList : List BeNode → Bytes → ℕ → ℤ → ℕ → Except Fault (Bytes × ℕ)
  | [], buf, _, _, loc => pure (buf, loc)
  | n :: l, buf, off, len, loc => do
    let (buf, k) ← beEncode n buf (off + loc) (len - loc)
    beEncodeList l buf off len (loc + k)

/-- Its loop over a dictionary, from `loc` on. -/
def beEncodeDict : List (Bytes × BeNode) → Bytes → ℕ → ℤ → ℕ → Except Fault (Bytes × ℕ)
  | [], buf, _, _, loc => pure (buf, loc)
  | (key, n) :: d, buf, off, len, loc => do
    let buf ← snprintf buf (off + loc) (len - loc) (decInt (cstr key).length ++ 58 :: cstr key)
    let k ← strlenAt buf (off + loc)
    let (buf, j) ← beEncode n buf (off + loc + k) (len - (loc + k : ℕ))
    beEncodeDict d buf off len (loc + k + j)

end

/-! ### The pieces it writes -/

/-- What one call of the encoder writes. -/
inductive Piece where
  /-- `snprintf(buf + off, size, ..)` of a format that prints `text`. -/
  | printed (off : ℕ) (size : ℤ) (text : Bytes)
  /-- `memcpy`. -/
  | copied (off : ℕ) (bytes : Bytes)

/-- Where it writes. -/
def Piece.off : Piece → ℕ
  | .printed off _ _ => off
  | .copied off _ => off

/-- The bytes it writes, a terminator included. -/
def Piece.written : Piece → Bytes
  | .printed _ size text =>
    if size = 0 then [] else (if size < 0 then text else text.take (size.toNat - 1)) ++ [0]
  | .copied _ bytes => bytes

/-- It is not truncated. -/
def Piece.Whole : Piece → Prop
  | .printed _ size text => (text.length : ℤ) < size
  | .copied .. => True

mutual

/-- `be_encode`, with the pieces it writes. -/
def beEncodePieces : BeNode → Bytes → ℕ → ℤ → Except Fault (Bytes × ℕ × List Piece)
  | .str s, buf, off, len => do
    let text := decInt (beStrLen s) ++ [58]
    let buf ← snprintf buf off len text
    let loc ← strlenAt buf off
    let buf ← poke buf (off + loc) (s.getD [])
    pure (buf, loc + beStrLen s, [.printed off len text, .copied (off + loc) (s.getD [])])
  | .int i, buf, off, len => do
    let text := 105 :: (decInt i.toInt ++ [101])
    let buf ← snprintf buf off len text
    let loc ← strlenAt buf off
    pure (buf, loc, [.printed off len text])
  | .list l, buf, off, len => do
    let buf ← snprintf buf off len [108]
    let (buf, loc, pieces) ← beEncodePiecesList l buf off len 1
    let buf ← snprintf buf (off + loc) (len - loc) [101]
    pure (buf, loc + 1, .printed off len [108] :: pieces ++ [.printed (off + loc) (len - loc) [101]])
  | .dict d, buf, off, len => do
    let buf ← snprintf buf off len [100]
    let (buf, loc, pieces) ← beEncodePiecesDict d buf off len 1
    let buf ← snprintf buf (off + loc) (len - loc) [101]
    pure (buf, loc + 1, .printed off len [100] :: pieces ++ [.printed (off + loc) (len - loc) [101]])

/-- Its loop over a list. -/
def beEncodePiecesList : List BeNode → Bytes → ℕ → ℤ → ℕ → Except Fault (Bytes × ℕ × List Piece)
  | [], buf, _, _, loc => pure (buf, loc, [])
  | n :: l, buf, off, len, loc => do
    let (buf, k, pieces) ← beEncodePieces n buf (off + loc) (len - loc)
    let (buf, loc, rest) ← beEncodePiecesList l buf off len (loc + k)
    pure (buf, loc, pieces ++ rest)

/-- Its loop over a dictionary. -/
def beEncodePiecesDict : List (Bytes × BeNode) → Bytes → ℕ → ℤ → ℕ → Except Fault (Bytes × ℕ × List Piece)
  | [], buf, _, _, loc => pure (buf, loc, [])
  | (key, n) :: d, buf, off, len, loc => do
    let text := decInt (cstr key).length ++ 58 :: cstr key
    let buf ← snprintf buf (off + loc) (len - loc) text
    let k ← strlenAt buf (off + loc)
    let (buf, j, pieces) ← beEncodePieces n buf (off + loc + k) (len - (loc + k : ℕ))
    let (buf, loc', rest) ← beEncodePiecesDict d buf off len (loc + k + j)
    pure (buf, loc', .printed (off + loc) (len - loc) text :: pieces ++ rest)

end

/-- A result without the pieces. -/
def forget (r : Bytes × ℕ × List Piece) : Bytes × ℕ := (r.1, r.2.1)

mutual

/-- **The pieces are those of `be_encode`**: without them the two are the same. -/
theorem forget_beEncodePieces : ∀ (n : BeNode) (buf : Bytes) (off : ℕ) (len : ℤ),
    (beEncodePieces n buf off len).map forget = beEncode n buf off len
  | .str s, buf, off, len => by
    rw [beEncodePieces, beEncode]
    cases snprintf buf off len (decInt (beStrLen s) ++ [58]) with
    | error e => rfl
    | ok b =>
      cases h : strlenAt b off with
      | error e => simp only [ok_bind, h, error_bind, Except.map]
      | ok loc =>
        simp only [ok_bind, h]
        cases poke b (off + loc) (s.getD []) <;> rfl
  | .int i, buf, off, len => by
    rw [beEncodePieces, beEncode]
    cases snprintf buf off len (105 :: (decInt i.toInt ++ [101])) with
    | error e => rfl
    | ok b =>
      simp only [ok_bind]
      cases strlenAt b off <;> rfl
  | .list l, buf, off, len => by
    rw [beEncodePieces, beEncode]
    cases snprintf buf off len [108] with
    | error e => rfl
    | ok b =>
      simp only [ok_bind]
      rw [← forget_beEncodePiecesList l b off len 1]
      cases beEncodePiecesList l b off len 1 with
      | error e => rfl
      | ok r =>
        simp only [ok_bind, Except.map, forget]
        cases snprintf r.1 (off + r.2.1) (len - r.2.1) [101] <;> rfl
  | .dict d, buf, off, len => by
    rw [beEncodePieces, beEncode]
    cases snprintf buf off len [100] with
    | error e => rfl
    | ok b =>
      simp only [ok_bind]
      rw [← forget_beEncodePiecesDict d b off len 1]
      cases beEncodePiecesDict d b off len 1 with
      | error e => rfl
      | ok r =>
        simp only [ok_bind, Except.map, forget]
        cases snprintf r.1 (off + r.2.1) (len - r.2.1) [101] <;> rfl

theorem forget_beEncodePiecesList : ∀ (l : List BeNode) (buf : Bytes) (off : ℕ) (len : ℤ) (loc : ℕ),
    (beEncodePiecesList l buf off len loc).map forget = beEncodeList l buf off len loc
  | [], _, _, _, _ => rfl
  | n :: l, buf, off, len, loc => by
    rw [beEncodePiecesList, beEncodeList, ← forget_beEncodePieces n buf (off + loc) (len - loc)]
    cases beEncodePieces n buf (off + loc) (len - loc) with
    | error e => rfl
    | ok r =>
      simp only [ok_bind, Except.map, forget]
      rw [← forget_beEncodePiecesList l r.1 off len (loc + r.2.1)]
      cases beEncodePiecesList l r.1 off len (loc + r.2.1) <;> rfl

theorem forget_beEncodePiecesDict : ∀ (d : List (Bytes × BeNode)) (buf : Bytes) (off : ℕ) (len : ℤ) (loc : ℕ),
    (beEncodePiecesDict d buf off len loc).map forget = beEncodeDict d buf off len loc
  | [], _, _, _, _ => rfl
  | (key, n) :: d, buf, off, len, loc => by
    rw [beEncodePiecesDict, beEncodeDict]
    cases snprintf buf (off + loc) (len - loc) (decInt (cstr key).length ++ 58 :: cstr key) with
    | error e => rfl
    | ok b =>
      simp only [ok_bind]
      cases strlenAt b (off + loc) with
      | error e => rfl
      | ok k =>
        simp only [ok_bind]
        rw [← forget_beEncodePieces n b (off + loc + k) (len - (loc + k : ℕ))]
        cases beEncodePieces n b (off + loc + k) (len - (loc + k : ℕ)) with
        | error e => rfl
        | ok r =>
          simp only [ok_bind, Except.map, forget]
          rw [← forget_beEncodePiecesDict d r.1 off len (loc + k + r.2.1)]
          cases beEncodePiecesDict d r.1 off len (loc + k + r.2.1) <;> rfl

end

/-- A buffer now holds `t` at `off`, is as long as before and keeps what was before `off`. -/
structure Wrote (buf : Bytes) (off : ℕ) (t buf' : Bytes) : Prop where
  length : buf'.length = buf.length
  take : buf'.take (off + t.length) = buf.take off ++ t

theorem Wrote.nil (buf : Bytes) (off : ℕ) : Wrote buf off [] buf := ⟨rfl, by simp⟩

/-- Two writes, the second where the first ended. -/
theorem Wrote.append {buf buf' buf'' : Bytes} {off : ℕ} {t u : Bytes} (h : Wrote buf off t buf')
    (h' : Wrote buf' (off + t.length) u buf'') : Wrote buf off (t ++ u) buf'' := by
  refine ⟨h'.length.trans h.length, ?_⟩
  rw [List.length_append, ← Nat.add_assoc, h'.take, h.take, List.append_assoc]

/-- The pieces have laid `t` down at `off`: none of them is truncated, and none writes outside the
text and its terminator. -/
structure Lays (buf : Bytes) (off : ℕ) (t buf' : Bytes) (pieces : List Piece) : Prop where
  wrote : Wrote buf off t buf'
  rest : buf'.drop (off + t.length + 1) = buf.drop (off + t.length + 1)
  inside : ∀ p ∈ pieces, off ≤ p.off ∧ p.off + p.written.length ≤ off + t.length + 1
  whole : ∀ p ∈ pieces, p.Whole

theorem Lays.nil (buf : Bytes) (off : ℕ) : Lays buf off [] buf [] :=
  ⟨.nil buf off, rfl, by simp, by simp⟩

/-- What stays behind an index stays behind a later one. -/
theorem drop_eq_of_le {buf buf' : Bytes} {i j : ℕ} (h : buf'.drop i = buf.drop i) (hij : i ≤ j) :
    buf'.drop j = buf.drop j := by
  obtain ⟨k, rfl⟩ := Nat.exists_eq_add_of_le hij
  rw [← List.drop_drop, h, List.drop_drop]

theorem Lays.append {buf buf' buf'' : Bytes} {off : ℕ} {t u : Bytes} {pieces rest : List Piece}
    (h : Lays buf off t buf' pieces) (h' : Lays buf' (off + t.length) u buf'' rest) :
    Lays buf off (t ++ u) buf'' (pieces ++ rest) := by
  refine ⟨h.wrote.append h'.wrote, ?_, fun p hp => ?_, fun p hp => ?_⟩
  · rw [List.length_append, ← Nat.add_assoc, h'.rest]
    exact drop_eq_of_le h.rest (by omega)
  · rw [List.length_append]
    rcases List.mem_append.mp hp with hp | hp
    · have := h.inside p hp
      omega
    · have := h'.inside p hp
      omega
  · exact (List.mem_append.mp hp).elim (h.whole p) (h'.whole p)

/-- A formatted piece that has room. -/
theorem snprintf_lays (buf : Bytes) (off : ℕ) (len : ℤ) {t : Bytes} (ht : (0 : UInt8) ∉ t)
    (hlen : (t.length : ℤ) + 1 ≤ len) (hroom : off + len ≤ buf.length) :
    ∃ buf', snprintf buf off len t = .ok buf' ∧ Lays buf off t buf' [.printed off len t] ∧
      strlenAt buf' off = .ok t.length := by
  obtain ⟨buf', hw, h₁, h₂, h₃⟩ := snprintf_spec ht hlen hroom
  have hwritten : (Piece.printed off len t).written = t ++ [0] := by
    rw [Piece.written, if_neg (by omega), if_neg (by omega), List.take_of_length_le (by omega)]
  have hpoke : poke buf off (t ++ [0]) = .ok buf' := by
    rwa [snprintf, if_neg (by omega), if_neg (by omega), List.take_of_length_le (by omega)] at hw
  have hfit : off + (t ++ [0]).length ≤ buf.length := by simp; omega
  obtain ⟨b, hb, -, -, hdrop⟩ := poke_spec hfit
  cases hpoke.symm.trans hb
  refine ⟨buf', hw, ⟨⟨h₁, h₂⟩, ?_, fun p hp => ?_, fun p hp => ?_⟩, h₃⟩
  · simpa [Nat.add_assoc] using hdrop
  · obtain rfl := List.mem_singleton.mp hp
    rw [hwritten]
    simp [Piece.off, Nat.add_assoc]
  · obtain rfl := List.mem_singleton.mp hp
    simp only [Piece.Whole]
    omega

/-- A copied piece that has room. -/
theorem poke_lays (buf : Bytes) (off : ℕ) {t : Bytes} (h : off + t.length ≤ buf.length) :
    ∃ buf', poke buf off t = .ok buf' ∧ Lays buf off t buf' [.copied off t] := by
  obtain ⟨buf', hw, h₁, h₂, h₃⟩ := poke_spec h
  refine ⟨buf', hw, ⟨h₁, h₂⟩, drop_eq_of_le h₃ (by omega), fun p hp => ?_, fun p hp => ?_⟩
  · obtain rfl := List.mem_singleton.mp hp
    simp [Piece.off, Piece.written, Nat.add_assoc]
  · obtain rfl := List.mem_singleton.mp hp
    trivial

mutual

/-- **The pieces of the encoder lay the text down**, and its length is returned, when the buffer has
room for it and a terminator. -/
theorem beEncodePieces_spec : ∀ (n : BeNode) (buf : Bytes) (off : ℕ) (len : ℤ),
    (n.text.length : ℤ) + 1 ≤ len → off + len ≤ buf.length →
    ∃ buf' pieces, beEncodePieces n buf off len = .ok (buf', n.text.length, pieces) ∧
      Lays buf off n.text buf' pieces
  | .str s, buf, off, len => by
    intro hlen hroom
    have hs : beStrLen s = (s.getD []).length := by cases s <;> rfl
    simp only [BeNode.text, strText, List.length_append, List.length_cons] at hlen ⊢
    obtain ⟨b₁, h₁, w₁, l₁⟩ := snprintf_lays buf off len
      (t := decNat (s.getD []).length ++ [58])
      (by simpa using zero_notMem_decNat _) (by simp; omega) hroom
    obtain ⟨b₂, h₂, w₂⟩ := poke_lays b₁
      (off + (decNat (s.getD []).length ++ [58]).length) (t := s.getD [])
      (by rw [w₁.wrote.length]; simp; omega)
    have hall := w₁.append w₂
    refine ⟨b₂, _, ?_, by simpa using hall⟩
    rw [beEncodePieces, hs, decInt_natCast, h₁, ok_bind, l₁, ok_bind, h₂, ok_bind]
    simp [Nat.add_assoc, Nat.add_comm 1]
  | .int i, buf, off, len => by
    intro hlen hroom
    obtain ⟨b₁, h₁, w₁, l₁⟩ := snprintf_lays buf off len
      (t := (BeNode.int i).text) (by simpa [BeNode.text] using zero_notMem_decInt _) hlen hroom
    refine ⟨b₁, _, ?_, w₁⟩
    rw [BeNode.text] at h₁
    rw [beEncodePieces, h₁, ok_bind, l₁, ok_bind, pure_eq_ok]
    rfl
  | .list l, buf, off, len => by
    intro hlen hroom
    simp only [BeNode.text, List.length_cons, List.length_append, List.length_nil] at hlen ⊢
    obtain ⟨b₁, h₁, w₁, -⟩ := snprintf_lays buf off len
      (t := [108]) (by decide) (by simp; omega) hroom
    obtain ⟨b₂, pieces, h₂, w₂⟩ := beEncodePiecesList_spec l b₁ off len 1 (by omega)
      (by rw [w₁.wrote.length]; omega)
    obtain ⟨b₃, h₃, w₃, -⟩ := snprintf_lays b₂ (off + (1 + (listText l).length))
      (len - (1 + (listText l).length : ℕ)) (t := [101]) (by decide) (by simp; omega)
      (by rw [w₂.wrote.length, w₁.wrote.length]; push_cast; omega)
    rw [← Nat.add_assoc] at w₃
    refine ⟨b₃, _, ?_, w₁.append (w₂.append w₃)⟩
    simp only [beEncodePieces, h₁, ok_bind, h₂, h₃, pure_eq_ok, Except.ok.injEq, Prod.mk.injEq, true_and]
    exact ⟨by omega, by simp [Nat.add_assoc]⟩
  | .dict d, buf, off, len => by
    intro hlen hroom
    simp only [BeNode.text, List.length_cons, List.length_append, List.length_nil] at hlen ⊢
    obtain ⟨b₁, h₁, w₁, -⟩ := snprintf_lays buf off len
      (t := [100]) (by decide) (by simp; omega) hroom
    obtain ⟨b₂, pieces, h₂, w₂⟩ := beEncodePiecesDict_spec d b₁ off len 1 (by omega)
      (by rw [w₁.wrote.length]; omega)
    obtain ⟨b₃, h₃, w₃, -⟩ := snprintf_lays b₂ (off + (1 + (dictText d).length))
      (len - (1 + (dictText d).length : ℕ)) (t := [101]) (by decide) (by simp; omega)
      (by rw [w₂.wrote.length, w₁.wrote.length]; push_cast; omega)
    rw [← Nat.add_assoc] at w₃
    refine ⟨b₃, _, ?_, w₁.append (w₂.append w₃)⟩
    simp only [beEncodePieces, h₁, ok_bind, h₂, h₃, pure_eq_ok, Except.ok.injEq, Prod.mk.injEq, true_and]
    exact ⟨by omega, by simp [Nat.add_assoc]⟩

theorem beEncodePiecesList_spec : ∀ (l : List BeNode) (buf : Bytes) (off : ℕ) (len : ℤ) (loc : ℕ),
    (loc + (listText l).length : ℤ) + 2 ≤ len → off + len ≤ buf.length →
    ∃ buf' pieces, beEncodePiecesList l buf off len loc = .ok (buf', loc + (listText l).length, pieces) ∧
      Lays buf (off + loc) (listText l) buf' pieces
  | [], buf, off, len, loc => by
    intro _ _
    exact ⟨buf, [], by simp [beEncodePiecesList, listText], .nil _ _⟩
  | n :: l, buf, off, len, loc => by
    intro hlen hroom
    simp only [listText, List.length_append] at hlen ⊢
    obtain ⟨b₁, pieces, h₁, w₁⟩ := beEncodePieces_spec n buf (off + loc) (len - loc) (by omega) (by omega)
    obtain ⟨b₂, rest, h₂, w₂⟩ := beEncodePiecesList_spec l b₁ off len (loc + n.text.length) (by omega)
      (by rw [w₁.wrote.length]; omega)
    rw [← Nat.add_assoc] at w₂
    refine ⟨b₂, _, ?_, w₁.append w₂⟩
    simp only [beEncodePiecesList, h₁, ok_bind, h₂, pure_eq_ok]
    simp only [Nat.add_assoc]

theorem beEncodePiecesDict_spec : ∀ (d : List (Bytes × BeNode)) (buf : Bytes) (off : ℕ) (len : ℤ) (loc : ℕ),
    (loc + (dictText d).length : ℤ) + 2 ≤ len → off + len ≤ buf.length →
    ∃ buf' pieces, beEncodePiecesDict d buf off len loc = .ok (buf', loc + (dictText d).length, pieces) ∧
      Lays buf (off + loc) (dictText d) buf' pieces
  | [], buf, off, len, loc => by
    intro _ _
    exact ⟨buf, [], by simp [beEncodePiecesDict, dictText], .nil _ _⟩
  | (k, n) :: d, buf, off, len, loc => by
    intro hlen hroom
    simp only [dictText, List.length_append] at hlen ⊢
    obtain ⟨b₁, h₁, w₁, l₁⟩ := snprintf_lays buf (off + loc) (len - loc)
      (t := strText (cstr k)) (by simp [strText, zero_notMem_decNat, zero_notMem_cstr])
      (by omega) (by omega)
    obtain ⟨b₂, pieces, h₂, w₂⟩ := beEncodePieces_spec n b₁ (off + loc + (strText (cstr k)).length)
      (len - (loc + (strText (cstr k)).length : ℕ)) (by push_cast; omega)
      (by rw [w₁.wrote.length]; push_cast; omega)
    obtain ⟨b₃, rest, h₃, w₃⟩ := beEncodePiecesDict_spec d b₂ off len
      (loc + (strText (cstr k)).length + n.text.length) (by push_cast; omega)
      (by rw [w₂.wrote.length, w₁.wrote.length]; omega)
    have w₃' : Lays b₂ (off + loc + (strText (cstr k)).length + n.text.length) (dictText d) b₃ rest := by
      simpa [Nat.add_assoc] using w₃
    refine ⟨b₃, _, ?_, w₁.append (w₂.append w₃')⟩
    rw [strText] at h₁
    simp only [beEncodePiecesDict, decInt_natCast, h₁, ok_bind, l₁, h₂, h₃, pure_eq_ok]
    simp [strText, Nat.add_assoc]

end

/-- **The encoder writes the text**, and returns its length, when the buffer has room
for it and a terminator. -/
theorem beEncode_spec (n : BeNode) (buf : Bytes) (off : ℕ) (len : ℤ) (hlen : (n.text.length : ℤ) + 1 ≤ len)
    (hroom : off + len ≤ buf.length) :
    ∃ buf', beEncode n buf off len = .ok (buf', n.text.length) ∧ Wrote buf off n.text buf' := by
  obtain ⟨buf', pieces, hw, w⟩ := beEncodePieces_spec n buf off len hlen hroom
  rw [← forget_beEncodePieces, hw]
  exact ⟨buf', rfl, w.wrote⟩

/-- Encoding into a fresh allocation of `be_node_len + 1` bytes, as the callers do: the
first `be_node_len` bytes are the text. -/
theorem beEncode_fresh (n : BeNode) {buf : Bytes} (h : buf.length = beNodeLen n + 1) :
    ∃ buf', beEncode n buf 0 (beNodeLen n + 1 : ℕ) = .ok (buf', n.text.length) ∧
      buf'.take n.text.length = n.text := by
  obtain ⟨buf', hw, w⟩ := beEncode_spec n buf 0 (beNodeLen n + 1 : ℕ)
    (by rw [beNodeLen_eq]; push_cast; omega) (by rw [h]; push_cast; omega)
  refine ⟨buf', hw, ?_⟩
  have := w.take
  simpa using this

end ToxSuite.Bencode
