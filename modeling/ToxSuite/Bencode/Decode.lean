import ToxSuite.Bencode.Node

/-!
# The bencode decoder

`_be_decode` walks a buffer with a pointer and a count of the bytes left. The
pointer is modelled by the bytes from it to the end of the allocation, so that
following it at the end is a fault; the count is kept as the code keeps it, an
integer of its own.

* `beDecodeNode_text` — **the decoder reads back the text of a tree**, whatever
  follows it in the buffer.
* `beDecoden_append` — what the decoder makes of a buffer does not depend on what
  is behind it, if it gets through the buffer alone.
* `beDecoden_ne_fuel` — the decoder always comes to an end: the fuel the
  definition gives it is enough on every buffer.
-/

namespace ToxSuite.Bencode

open ToxSuite.Lib

/-- `*data` and `*data_len`. -/
structure Cursor where
  /-- What the pointer points to, up to the end of the allocation. -/
  data : Bytes
  /-- The count of bytes left. -/
  len : ℤ

/-- `_be_decode_int`. -/
def beDecodeInt (c : Cursor) : Except Fault (ℤ × Cursor) := do
  let (ret, endp) ← strtoll c.data
  pure (ret, ⟨endp, c.len - (c.data.length - endp.length : ℕ)⟩)

/-- `_be_decode_str`; `none` is `NULL`. -/
def beDecodeStr (c : Cursor) : Except Fault (Option Bytes × Cursor) := do
  let (sllen, c) ← beDecodeInt c
  -- negative values get rejected, and lengths that go past the count
  if sllen < 0 ∨ c.len - 1 < sllen then pure (none, c)
  else match c.data with
    | [] => .error .overread
    | x :: rest =>
      if x = 58 then
        if rest.length < sllen.toNat then .error .overread
        else pure (some (rest.take sllen.toNat), ⟨rest.drop sllen.toNat, c.len - (sllen.toNat + 1 : ℕ)⟩)
      else pure (none, c)

mutual

/-- `_be_decode`; `none` is `NULL`. -/
def beDecodeNode : ℕ → Cursor → Except Fault (Option BeNode × Cursor)
  | 0, _ => .error .fuel
  | fuel + 1, c =>
    if c.len = 0 then pure (none, c)
    else match c.data with
      | [] => .error .overread
      | x :: rest =>
        if x = 108 then do
          let (l, c) ← beDecodeList fuel ⟨rest, c.len - 1⟩
          pure (l.map .list, c)
        else if x = 100 then do
          let (d, c) ← beDecodeDict fuel ⟨rest, c.len - 1⟩
          pure (d.map .dict, c)
        else if x = 105 then do
          let (i, c) ← beDecodeInt ⟨rest, c.len - 1⟩
          match c.data with
          | [] => .error .overread
          | y :: rest =>
            if y = 101 then pure (some (.int (Int64.ofInt i)), ⟨rest, c.len - 1⟩) else pure (none, c)
        else if isDigit x then do
          -- a string that is rejected leaves a node without bytes
          let (s, c) ← beDecodeStr c
          pure (some (.str s), c)
        else pure (none, c)

/-- Its loop over the elements of a list. -/
def beDecodeList : ℕ → Cursor → Except Fault (Option (List BeNode) × Cursor)
  | 0, _ => .error .fuel
  | fuel + 1, c => match c.data with
    | [] => .error .overread
    | x :: rest =>
      if x = 101 then pure (some [], ⟨rest, c.len - 1⟩)
      else do
        let (n, c) ← beDecodeNode fuel c
        match n with
        | none => pure (none, c)
        | some n =>
          let (l, c) ← beDecodeList fuel c
          pure (l.map (n :: ·), c)

/-- Its loop over the entries of a dictionary. -/
def beDecodeDict : ℕ → Cursor → Except Fault (Option (List (Bytes × BeNode)) × Cursor)
  | 0, _ => .error .fuel
  | fuel + 1, c => match c.data with
    | [] => .error .overread
    | x :: rest =>
      if x = 101 then pure (some [], ⟨rest, c.len - 1⟩)
      else do
        -- the value is decoded even when the key was rejected
        let (key, c) ← beDecodeStr c
        let (n, c) ← beDecodeNode fuel c
        match key, n with
        | some key, some n =>
          let (d, c) ← beDecodeDict fuel c
          pure (d.map ((key, n) :: ·), c)
        | _, _ => pure (none, c)

end

/-- `be_decoden` on an allocation and a count. -/
def beDecoden (data : Bytes) (len : ℤ) : Except Fault (Option BeNode) := do
  let (n, _) ← beDecodeNode (2 * data.length + 2) ⟨data, len⟩
  pure n

/-- `be_create_dict` and `be_create_list` as `be_decode` makes them. -/
example : beDecoden (ascii "de") 2 = .ok (some beCreateDict) := rfl

example : beDecoden (ascii "le") 2 = .ok (some beCreateList) := rfl

/-! ### Reading back a text -/

mutual

/-- A tree the encoder loses nothing of: no string is `NULL` and no key has a NUL in it. -/
def BeNode.Wf : BeNode → Prop
  | .str s => s.isSome
  | .int _ => True
  | .list l => listWf l
  | .dict d => dictWf d

/-- Every element is well formed. -/
def listWf : List BeNode → Prop
  | [] => True
  | n :: l => n.Wf ∧ listWf l

/-- Every key and every value is well formed. -/
def dictWf : List (Bytes × BeNode) → Prop
  | [] => True
  | (k, n) :: d => (0 : UInt8) ∉ k ∧ n.Wf ∧ dictWf d

end

theorem listWf_of_forall {l : List BeNode} (h : ∀ n ∈ l, n.Wf) : listWf l := by
  induction l with
  | nil => trivial
  | cons n l ih => exact ⟨h n (by simp), ih fun m hm => h m (by simp [hm])⟩

/-- A byte string is read back, whatever follows it. -/
theorem beDecodeStr_strText {s : Bytes} (rest : Bytes) (len : ℤ) (hs : (s.length : ℤ) ≤ LLONG_MAX)
    (hlen : ((strText s).length : ℤ) ≤ len) :
    beDecodeStr ⟨strText s ++ rest, len⟩ = .ok (some s, ⟨rest, len - (strText s).length⟩) := by
  have hread : strtoll (strText s ++ rest) = .ok ((s.length : ℤ), 58 :: (s ++ rest)) := by
    rw [strText, List.append_assoc]
    exact strtoll_decNat hs (by decide) _
  have hused : (strText s ++ rest).length - (58 :: (s ++ rest)).length = (decNat s.length).length := by
    simp [strText]
  have htext : (strText s).length = (decNat s.length).length + 1 + s.length := by
    simp [strText]; omega
  simp only [beDecodeStr, beDecodeInt, hread, ok_bind, pure_eq_ok, hused]
  rw [if_neg (by omega), if_pos trivial, Int.toNat_natCast, if_neg (by simp), List.take_left,
    List.drop_left, htext]
  simp only [Except.ok.injEq, Prod.mk.injEq, Cursor.mk.injEq, true_and]
  push_cast
  omega

/-- A string node is read back. -/
theorem beDecodeNode_strText {s : Bytes} (fuel : ℕ) (rest : Bytes) {len : ℤ}
    (hs : (s.length : ℤ) ≤ LLONG_MAX) (hlen : ((strText s).length : ℤ) ≤ len) :
    beDecodeNode (fuel + 1) ⟨strText s ++ rest, len⟩ =
      .ok (some (.str (some s)), ⟨rest, len - (strText s).length⟩) := by
  obtain ⟨c, t, hc, hdig⟩ := decNat_head s.length
  have hhead : strText s ++ rest = c :: (t ++ 58 :: s ++ rest) := by rw [strText, hc]; simp
  have hpos : 0 < (strText s).length := List.length_pos_iff.mpr (text_ne_nil (.str (some s)))
  have hne : ∀ y : UInt8, isDigit y = false → c ≠ y := by
    rintro y hy rfl
    rw [hy] at hdig
    cases hdig
  have hstr := beDecodeStr_strText rest len hs hlen
  have hlen0 : len ≠ 0 := by omega
  rw [hhead] at hstr ⊢
  rw [beDecodeNode]
  dsimp only
  rw [if_neg hlen0, if_neg (hne 108 (by decide)), if_neg (hne 100 (by decide)), if_neg (hne 105 (by decide)),
    if_pos hdig, hstr, ok_bind, pure_eq_ok]

/-- No text starts with the `e` that ends a list. -/
theorem text_head (n : BeNode) : ∃ c t, n.text = c :: t ∧ c ≠ 101 := by
  cases n with
  | str s =>
    obtain ⟨c, t, hc, hdig⟩ := decNat_head (s.getD []).length
    refine ⟨c, t ++ 58 :: s.getD [], by rw [BeNode.text, strText, hc]; rfl, ?_⟩
    rintro rfl
    exact absurd hdig (by decide)
  | int i => exact ⟨105, _, rfl, by decide⟩
  | list l => exact ⟨108, _, rfl, by decide⟩
  | dict d => exact ⟨100, _, rfl, by decide⟩

theorem strText_head (s : Bytes) : ∃ c t, strText s = c :: t ∧ c ≠ 101 := text_head (.str (some s))

mutual

/-- **The decoder reads back the text of a tree**, whatever follows it in the buffer. -/
theorem beDecodeNode_text : ∀ (n : BeNode) (fuel : ℕ) (rest : Bytes) (len : ℤ), n.Wf →
    2 * n.text.length ≤ fuel → (n.text.length : ℤ) ≤ LLONG_MAX → (n.text.length : ℤ) ≤ len →
    beDecodeNode fuel ⟨n.text ++ rest, len⟩ = .ok (some n, ⟨rest, len - n.text.length⟩)
  | n, 0, rest, len => by
    intro _ hfuel _ _
    have := List.length_pos_iff.mpr (text_ne_nil n)
    omega
  | .str none, fuel + 1, rest, len => by
    intro hwf
    cases hwf
  | .str (some s), fuel + 1, rest, len => by
    intro _ _ hmax hlen
    have hs : (s.length : ℤ) ≤ LLONG_MAX := by simp [BeNode.text, strText] at hmax; omega
    exact beDecodeNode_strText fuel rest hs hlen
  | .int i, fuel + 1, rest, len => by
    intro _ _ _ hlen
    have h₁ : LLONG_MIN ≤ i.toInt := i.le_toInt
    have h₂ : i.toInt ≤ LLONG_MAX := by have := i.toInt_lt; unfold LLONG_MAX; omega
    have hread : strtoll (decInt i.toInt ++ 101 :: rest) = .ok (i.toInt, 101 :: rest) :=
      strtoll_decInt h₁ h₂ (by decide) rest
    simp only [BeNode.text, List.length_cons, List.length_append, List.length_nil] at hlen
    simp only [BeNode.text, List.cons_append, List.append_assoc, List.nil_append, beDecodeNode,
      beDecodeInt, hread, ok_bind, pure_eq_ok]
    rw [if_neg (by omega), if_neg (by decide), if_neg (by decide), if_pos trivial]
    simp only [if_true, Int64.ofInt_toInt, Except.ok.injEq, Prod.mk.injEq, Cursor.mk.injEq, true_and,
      List.length_cons, List.length_append, List.length_nil]
    omega
  | .list l, fuel + 1, rest, len => by
    intro hwf hfuel hmax hlen
    simp only [BeNode.text, List.length_cons, List.length_append, List.length_nil] at hfuel hmax hlen
    have hloop := beDecodeList_text l fuel rest (len - 1) hwf (by omega) (by omega) (by omega)
    simp only [BeNode.text, List.cons_append, List.append_assoc, List.nil_append, beDecodeNode, hloop,
      ok_bind, pure_eq_ok, Option.map_some]
    rw [if_neg (by omega), if_pos trivial]
    simp only [Except.ok.injEq, Prod.mk.injEq, Cursor.mk.injEq, true_and, List.length_cons,
      List.length_append, List.length_nil]
    omega
  | .dict d, fuel + 1, rest, len => by
    intro hwf hfuel hmax hlen
    simp only [BeNode.text, List.length_cons, List.length_append, List.length_nil] at hfuel hmax hlen
    have hloop := beDecodeDict_text d fuel rest (len - 1) hwf (by omega) (by omega) (by omega)
    simp only [BeNode.text, List.cons_append, List.append_assoc, List.nil_append, beDecodeNode, hloop,
      ok_bind, pure_eq_ok, Option.map_some]
    rw [if_neg (by omega), if_neg (by decide), if_pos trivial]
    simp only [Except.ok.injEq, Prod.mk.injEq, Cursor.mk.injEq, true_and, List.length_cons,
      List.length_append, List.length_nil]
    omega

theorem beDecodeList_text : ∀ (l : List BeNode) (fuel : ℕ) (rest : Bytes) (len : ℤ), listWf l →
    2 * (listText l).length + 1 ≤ fuel → ((listText l).length : ℤ) ≤ LLONG_MAX →
    ((listText l).length : ℤ) + 1 ≤ len →
    beDecodeList fuel ⟨listText l ++ 101 :: rest, len⟩ =
      .ok (some l, ⟨rest, len - (listText l).length - 1⟩)
  | l, 0, rest, len => by
    intro _ hfuel
    omega
  | [], fuel + 1, rest, len => by
    intro _ _ _ _
    simp [beDecodeList, listText]
  | n :: l, fuel + 1, rest, len => by
    intro hwf hfuel hmax hlen
    simp only [listText, List.length_append] at hfuel hmax hlen
    have hpos := List.length_pos_iff.mpr (text_ne_nil n)
    have hn := beDecodeNode_text n fuel (listText l ++ 101 :: rest) len hwf.1 (by omega) (by omega)
      (by omega)
    have hl := beDecodeList_text l fuel rest (len - n.text.length) hwf.2 (by omega) (by omega)
      (by omega)
    obtain ⟨c, t, hc, hne⟩ := text_head n
    have hhead : listText (n :: l) ++ 101 :: rest = c :: (t ++ (listText l ++ 101 :: rest)) := by
      simp [listText, hc]
    have hsplit : c :: (t ++ (listText l ++ 101 :: rest)) = n.text ++ (listText l ++ 101 :: rest) := by
      rw [hc]; rfl
    rw [hhead, beDecodeList]
    dsimp only
    rw [if_neg hne, hsplit, hn, ok_bind]
    dsimp only
    rw [hl, ok_bind, pure_eq_ok]
    simp only [Option.map_some, listText, List.length_append, Except.ok.injEq, Prod.mk.injEq,
      Cursor.mk.injEq, true_and]
    push_cast
    omega

theorem beDecodeDict_text : ∀ (d : List (Bytes × BeNode)) (fuel : ℕ) (rest : Bytes) (len : ℤ),
    dictWf d → 2 * (dictText d).length + 1 ≤ fuel → ((dictText d).length : ℤ) ≤ LLONG_MAX →
    ((dictText d).length : ℤ) + 1 ≤ len →
    beDecodeDict fuel ⟨dictText d ++ 101 :: rest, len⟩ =
      .ok (some d, ⟨rest, len - (dictText d).length - 1⟩)
  | d, 0, rest, len => by
    intro _ hfuel
    omega
  | [], fuel + 1, rest, len => by
    intro _ _ _ _
    simp [beDecodeDict, dictText]
  | (k, n) :: d, fuel + 1, rest, len => by
    intro hwf hfuel hmax hlen
    have hk : cstr k = k := cstr_of_notMem hwf.1
    simp only [dictText, hk, List.length_append] at hfuel hmax hlen
    have hpos := List.length_pos_iff.mpr (text_ne_nil n)
    have hklen : k.length < (strText k).length := by simp [strText]; omega
    have hkey := beDecodeStr_strText (s := k) (n.text ++ (dictText d ++ 101 :: rest)) len
      (by omega) (by omega)
    have hn := beDecodeNode_text n fuel (dictText d ++ 101 :: rest) (len - (strText k).length) hwf.2.1
      (by omega) (by omega) (by omega)
    have hd := beDecodeDict_text d fuel rest (len - (strText k).length - n.text.length) hwf.2.2
      (by omega) (by omega) (by omega)
    obtain ⟨c, t, hc, hne⟩ := strText_head k
    have hhead : dictText ((k, n) :: d) ++ 101 :: rest
        = c :: (t ++ (n.text ++ (dictText d ++ 101 :: rest))) := by
      simp [dictText, hk, hc]
    have hsplit : c :: (t ++ (n.text ++ (dictText d ++ 101 :: rest)))
        = strText k ++ (n.text ++ (dictText d ++ 101 :: rest)) := by
      rw [hc]; rfl
    rw [hhead, beDecodeDict]
    dsimp only
    rw [if_neg hne, hsplit, hkey, ok_bind]
    dsimp only
    rw [hn, ok_bind]
    dsimp only
    rw [hd, ok_bind, pure_eq_ok]
    simp only [Option.map_some, dictText, hk, List.length_append, Except.ok.injEq, Prod.mk.injEq,
      Cursor.mk.injEq, true_and]
    push_cast
    omega

end

/-- **Round trip**: an allocation that holds the text of a tree decodes to the tree. -/
theorem beDecoden_text {n : BeNode} (hwf : n.Wf) (hmax : (n.text.length : ℤ) ≤ LLONG_MAX) :
    beDecoden n.text n.text.length = .ok (some n) := by
  have h := beDecodeNode_text n (2 * n.text.length + 2) [] n.text.length hwf (by omega) hmax le_rfl
  rw [List.append_nil] at h
  simp only [beDecoden, h, ok_bind, pure_eq_ok]

/-! ### Bytes behind the buffer -/

/-- The same pointer in an allocation with more bytes behind it; the count is the same. -/
def Cursor.append (c : Cursor) (behind : Bytes) : Cursor := { c with data := c.data ++ behind }

theorem beDecodeInt_append (behind : Bytes) (c : Cursor) (i : ℤ) (c' : Cursor)
    (h : beDecodeInt c = .ok (i, c')) : beDecodeInt (c.append behind) = .ok (i, c'.append behind) := by
  obtain ⟨⟨v, endp⟩, hs, h⟩ := bind_eq_ok.mp h
  cases h
  simp only [beDecodeInt, Cursor.append, strtoll_append hs behind, ok_bind, pure_eq_ok, List.length_append,
    Nat.add_sub_add_right]

theorem beDecodeStr_append (behind : Bytes) (c : Cursor) (s : Option Bytes) (c' : Cursor)
    (h : beDecodeStr c = .ok (s, c')) : beDecodeStr (c.append behind) = .ok (s, c'.append behind) := by
  obtain ⟨⟨n, ⟨data, len⟩⟩, hn, h⟩ := bind_eq_ok.mp h
  rw [beDecodeStr, beDecodeInt_append behind c _ _ hn, ok_bind]
  dsimp only [Cursor.append] at h ⊢
  split_ifs at h ⊢ with hrej
  · cases h
    rfl
  cases data with
  | nil => cases h
  | cons x rest =>
    dsimp only [List.cons_append] at h ⊢
    split_ifs at h with hx hshort
    · cases h
      have hle : n.toNat ≤ rest.length := not_lt.mp hshort
      rw [if_pos hx, if_neg (by rw [List.length_append]; omega), List.take_append_of_le_length hle,
        List.drop_append_of_le_length hle]
      rfl
    · cases h
      rw [if_neg hx]
      rfl

/-- What an evaluation comes to inside its buffer, another comes to with more bytes behind it. -/
def Stays {α : Type} (behind : Bytes) (r r' : Except Fault (α × Cursor)) : Prop :=
  ∀ a c, r = .ok (a, c) → r' = .ok (a, c.append behind)

section

variable {α β : Type} {behind : Bytes}

theorem Stays.error {e : Fault} {r' : Except Fault (α × Cursor)} : Stays behind (.error e) r' :=
  fun a c h => by cases h

theorem Stays.made (a : α) (c : Cursor) : Stays behind (.ok (a, c)) (.ok (a, c.append behind)) := by
  intro b c' h
  cases h
  rfl

/-- Sequencing: the second part goes on from where the first stopped. -/
theorem Stays.bind {r r' : Except Fault (α × Cursor)} {f f' : α × Cursor → Except Fault (β × Cursor)}
    (hr : Stays behind r r') (hf : ∀ a c, Stays behind (f (a, c)) (f' (a, c.append behind))) :
    Stays behind (r >>= f) (r' >>= f') := by
  intro b c h
  obtain ⟨⟨a, c₁⟩, ha, h⟩ := bind_eq_ok.mp h
  rw [hr a c₁ ha, ok_bind]
  exact hf a c₁ b c h

end

/-- The decoder does not depend on what is behind the buffer, as long as it stays inside. -/
structure Unmoved (behind : Bytes) (fuel fuel' : ℕ) : Prop where
  node : ∀ c : Cursor, Stays behind (beDecodeNode fuel c) (beDecodeNode fuel' (c.append behind))
  list : ∀ c : Cursor, Stays behind (beDecodeList fuel c) (beDecodeList fuel' (c.append behind))
  dict : ∀ c : Cursor, Stays behind (beDecodeDict fuel c) (beDecodeDict fuel' (c.append behind))

section

variable {behind : Bytes} {fuel fuel' : ℕ}

theorem Unmoved.node_succ (ih : Unmoved behind fuel fuel') (c : Cursor) :
    Stays behind (beDecodeNode (fuel + 1) c) (beDecodeNode (fuel' + 1) (c.append behind)) := by
  obtain ⟨data, len⟩ := c
  rw [beDecodeNode, beDecodeNode, Cursor.append]
  dsimp only
  split_ifs with hlen
  · exact .made _ _
  cases data with
  | nil => exact .error
  | cons x rest =>
    dsimp only [List.cons_append]
    split_ifs with hl hd hi hdig
    · exact (ih.list ⟨rest, len - 1⟩).bind fun l c => .made _ _
    · exact (ih.dict ⟨rest, len - 1⟩).bind fun d c => .made _ _
    · refine Stays.bind (beDecodeInt_append behind ⟨rest, len - 1⟩) fun i c => ?_
      obtain ⟨data, len'⟩ := c
      cases data with
      | nil => exact .error
      | cons y t =>
        dsimp only [Cursor.append, List.cons_append]
        split_ifs with hy
        · exact .made _ _
        · exact .made none ⟨y :: t, len'⟩
    · exact Stays.bind (beDecodeStr_append behind ⟨x :: rest, len⟩) fun s c => .made _ _
    · exact .made none ⟨x :: rest, len⟩

theorem Unmoved.list_succ (ih : Unmoved behind fuel fuel') (c : Cursor) :
    Stays behind (beDecodeList (fuel + 1) c) (beDecodeList (fuel' + 1) (c.append behind)) := by
  obtain ⟨data, len⟩ := c
  rw [beDecodeList, beDecodeList, Cursor.append]
  cases data with
  | nil => exact .error
  | cons x rest =>
    dsimp only [List.cons_append]
    split_ifs with hx
    · exact .made _ _
    · refine (ih.node ⟨x :: rest, len⟩).bind fun n c => ?_
      cases n with
      | none => exact .made _ _
      | some n => exact (ih.list c).bind fun l c => .made _ _

theorem Unmoved.dict_succ (ih : Unmoved behind fuel fuel') (c : Cursor) :
    Stays behind (beDecodeDict (fuel + 1) c) (beDecodeDict (fuel' + 1) (c.append behind)) := by
  obtain ⟨data, len⟩ := c
  rw [beDecodeDict, beDecodeDict, Cursor.append]
  cases data with
  | nil => exact .error
  | cons x rest =>
    dsimp only [List.cons_append]
    split_ifs with hx
    · exact .made _ _
    · refine Stays.bind (beDecodeStr_append behind ⟨x :: rest, len⟩) fun key c => ?_
      refine (ih.node c).bind fun n c => ?_
      cases key with
      | none => exact .made _ _
      | some key => cases n with
        | none => exact .made _ _
        | some n => exact (ih.dict c).bind fun d c => .made _ _

end

theorem unmoved (behind : Bytes) (fuel : ℕ) : ∀ fuel', fuel ≤ fuel' → Unmoved behind fuel fuel' := by
  induction fuel with
  | zero => exact fun _ _ => ⟨fun _ => .error, fun _ => .error, fun _ => .error⟩
  | succ fuel ih =>
    intro fuel' h
    cases fuel' with
    | zero => omega
    | succ fuel' =>
      have ih' := ih fuel' (Nat.le_of_succ_le_succ h)
      exact ⟨ih'.node_succ, ih'.list_succ, ih'.dict_succ⟩

/-- **What the decoder makes of a buffer does not depend on what is behind it**, if it gets through
the buffer alone. -/
theorem beDecoden_append {data : Bytes} {len : ℤ} {n : Option BeNode} (h : beDecoden data len = .ok n)
    (behind : Bytes) : beDecoden (data ++ behind) len = .ok n := by
  obtain ⟨⟨n, c⟩, hn, h⟩ := bind_eq_ok.mp h
  cases h
  have hfuel : 2 * data.length + 2 ≤ 2 * (data ++ behind).length + 2 := by
    rw [List.length_append]
    omega
  exact bind_eq_ok.mpr ⟨_, (unmoved behind _ _ hfuel).node ⟨data, len⟩ _ c hn, rfl⟩

/-! ### The decoder comes to an end -/

/-- What an evaluation on `d` bytes with enough fuel comes to: not out of fuel, and
with fewer bytes left when it made something. -/
def Progress {α : Type} (d : ℕ) (r : Except Fault (Option α × Cursor)) : Prop :=
  r ≠ .error .fuel ∧ ∀ a c', r = .ok (some a, c') → c'.data.length < d

theorem Progress.error {α : Type} {d : ℕ} {f : Fault} (h : f ≠ .fuel) :
    Progress (α := α) d (.error f) := by
  refine ⟨by simpa using h, fun a c' h' => by cases h'⟩

theorem Progress.null {α : Type} (d : ℕ) (c : Cursor) : Progress (α := α) d (.ok (none, c)) := by
  refine ⟨by simp, fun a c' h' => by cases h'⟩

theorem Progress.made {α : Type} {d : ℕ} {c : Cursor} (a : α) (h : c.data.length < d) :
    Progress d (.ok (some a, c)) := by
  refine ⟨by simp, fun b c' h' => ?_⟩
  cases h'
  exact h

/-- Sequencing: the second part goes on where the first stopped, if it made something. -/
theorem Progress.bind {α β : Type} {d d' : ℕ} {r : Except Fault (Option α × Cursor)}
    {f : Option α × Cursor → Except Fault (Option β × Cursor)} (hr : Progress d r)
    (hnone : ∀ c, Progress d' (f (none, c)))
    (hsome : ∀ a c, c.data.length < d → Progress d' (f (some a, c))) : Progress d' (r >>= f) := by
  cases hr' : r with
  | error e =>
    refine .error ?_
    rintro rfl
    exact hr.1 hr'
  | ok v =>
    obtain ⟨a, c⟩ := v
    cases a with
    | none => exact hnone c
    | some a => exact hsome a c (hr.2 a c hr')

theorem beDecodeInt_cases (c : Cursor) :
    beDecodeInt c = .error .overread ∨
      ∃ i c', beDecodeInt c = .ok (i, c') ∧ c'.data.length ≤ c.data.length := by
  rcases strtoll_cases c.data with h | ⟨v, endp, h, hsuf⟩
  · exact .inl (by rw [beDecodeInt, h]; rfl)
  · exact .inr ⟨v, _, by rw [beDecodeInt, h]; rfl, hsuf.length_le⟩

theorem beDecodeInt_lt {x : UInt8} (hx : isDigit x = true) {t : Bytes} {len i : ℤ} {c' : Cursor}
    (h : beDecodeInt ⟨x :: t, len⟩ = .ok (i, c')) : c'.data.length < (x :: t).length := by
  obtain ⟨⟨v, endp⟩, hs, h⟩ := bind_eq_ok.mp h
  cases h
  exact strtoll_lt hx hs

/-- What `_be_decode_str` does after the length: it fails, or stops no earlier. -/
theorem beDecodeStr_cases (c : Cursor) :
    beDecodeStr c = .error .overread ∨ ∃ i c₁ s c', beDecodeInt c = .ok (i, c₁) ∧
      beDecodeStr c = .ok (s, c') ∧ c'.data.length ≤ c₁.data.length := by
  rcases beDecodeInt_cases c with h | ⟨i, c₁, h, -⟩
  · exact .inl (by rw [beDecodeStr, h]; rfl)
  · rw [beDecodeStr, h, ok_bind]
    dsimp only
    split_ifs with hrej
    · exact .inr ⟨i, c₁, none, c₁, rfl, rfl, le_rfl⟩
    · cases hd : c₁.data with
      | nil => exact .inl rfl
      | cons x rest =>
        dsimp only
        split_ifs with hx hshort
        · exact .inl rfl
        · exact .inr ⟨i, c₁, _, _, rfl, rfl, by rw [hd]; simp; omega⟩
        · exact .inr ⟨i, c₁, none, c₁, rfl, rfl, by rw [hd]⟩

/-- Decoding a string never runs out of fuel, and leaves no more bytes than there were. -/
theorem beDecodeStr_le (c : Cursor) :
    beDecodeStr c = .error .overread ∨
      ∃ s c', beDecodeStr c = .ok (s, c') ∧ c'.data.length ≤ c.data.length := by
  rcases beDecodeStr_cases c with h | ⟨i, c₁, s, c', hi, hs, hle⟩
  · exact .inl h
  · rcases beDecodeInt_cases c with h' | ⟨i', c₂, hi', hle'⟩
    · rw [h'] at hi
      cases hi
    · rw [hi'] at hi
      cases hi
      exact .inr ⟨s, c', hs, hle.trans hle'⟩

/-- A string node consumes the digits of its length at least. -/
theorem beDecodeStr_lt {x : UInt8} (hx : isDigit x = true) (t : Bytes) (len : ℤ) :
    beDecodeStr ⟨x :: t, len⟩ = .error .overread ∨
      ∃ s c', beDecodeStr ⟨x :: t, len⟩ = .ok (s, c') ∧ c'.data.length < (x :: t).length := by
  rcases beDecodeStr_cases ⟨x :: t, len⟩ with h | ⟨i, c₁, s, c', hi, hs, hle⟩
  · exact .inl h
  · exact .inr ⟨s, c', hs, lt_of_le_of_lt hle (beDecodeInt_lt hx hi)⟩

/-- With this much fuel, no evaluation on few enough bytes runs out: two units for each byte
left, and one more for the loops. -/
structure Enough (fuel : ℕ) : Prop where
  node : ∀ c : Cursor, 2 * c.data.length + 1 ≤ fuel → Progress c.data.length (beDecodeNode fuel c)
  list : ∀ c : Cursor, 2 * c.data.length + 2 ≤ fuel → Progress c.data.length (beDecodeList fuel c)
  dict : ∀ c : Cursor, 2 * c.data.length + 2 ≤ fuel → Progress c.data.length (beDecodeDict fuel c)

/-- A node: its loops start one byte further on. -/
theorem Enough.node_succ {fuel : ℕ} (ih : Enough fuel) (c : Cursor)
    (hfuel : 2 * c.data.length + 1 ≤ fuel + 1) : Progress c.data.length (beDecodeNode (fuel + 1) c) := by
  obtain ⟨data, len⟩ := c
  rw [beDecodeNode]
  dsimp only at hfuel ⊢
  split_ifs with hlen
  · exact .null _ _
  cases data with
  | nil => exact .error (by decide)
  | cons x rest =>
    rw [List.length_cons] at hfuel ⊢
    dsimp only
    split_ifs with hl hd hi hdig
    · refine (ih.list ⟨rest, len - 1⟩ (by dsimp only; omega)).bind (fun c => .null _ _) ?_
      exact fun a c hc => .made _ (by dsimp only at hc ⊢; omega)
    · refine (ih.dict ⟨rest, len - 1⟩ (by dsimp only; omega)).bind (fun c => .null _ _) ?_
      exact fun a c hc => .made _ (by dsimp only at hc ⊢; omega)
    · rcases beDecodeInt_cases ⟨rest, len - 1⟩ with h | ⟨i, c', h, hle⟩
      · rw [h]
        exact .error (by decide)
      · rw [h, ok_bind]
        dsimp only at hle ⊢
        cases hc' : c'.data with
        | nil => exact .error (by decide)
        | cons y t =>
          rw [hc', List.length_cons] at hle
          dsimp only
          split_ifs with hy
          · exact .made _ (by dsimp only; omega)
          · exact .null _ _
    · rcases beDecodeStr_lt hdig rest len with h | ⟨s, c', h, hlt⟩
      · rw [h]
        exact .error (by decide)
      · rw [h, ok_bind]
        exact .made _ (by simpa using hlt)
    · exact .null _ _

/-- A list: an element leaves fewer bytes. -/
theorem Enough.list_succ {fuel : ℕ} (ih : Enough fuel) (c : Cursor)
    (hfuel : 2 * c.data.length + 2 ≤ fuel + 1) : Progress c.data.length (beDecodeList (fuel + 1) c) := by
  obtain ⟨data, len⟩ := c
  rw [beDecodeList]
  cases data with
  | nil => exact .error (by decide)
  | cons x rest =>
    dsimp only at hfuel ⊢
    split_ifs with hx
    · exact .made _ (by simp)
    · refine (ih.node ⟨x :: rest, len⟩ (by dsimp only; omega)).bind (fun c => .null _ _) ?_
      intro n c hc
      dsimp only at hc ⊢
      refine (ih.list c (by omega)).bind (fun c => .null _ _) ?_
      exact fun l c' hc' => .made _ (by dsimp only; omega)

/-- A dictionary: a key leaves no more bytes, its value fewer. -/
theorem Enough.dict_succ {fuel : ℕ} (ih : Enough fuel) (c : Cursor)
    (hfuel : 2 * c.data.length + 2 ≤ fuel + 1) : Progress c.data.length (beDecodeDict (fuel + 1) c) := by
  obtain ⟨data, len⟩ := c
  rw [beDecodeDict]
  cases data with
  | nil => exact .error (by decide)
  | cons x rest =>
    dsimp only at hfuel ⊢
    split_ifs with hx
    · exact .made _ (by simp)
    · rcases beDecodeStr_le ⟨x :: rest, len⟩ with h | ⟨key, c₁, h, hle⟩
      · rw [h]
        exact .error (by decide)
      · rw [h, ok_bind]
        dsimp only at hle ⊢
        refine (ih.node c₁ (by omega)).bind (fun c => ?_) ?_
        · cases key <;> exact .null _ _
        · intro n c hc
          cases key with
          | none => exact .null _ _
          | some key =>
            dsimp only
            refine (ih.dict c (by omega)).bind (fun c => .null _ _) ?_
            exact fun d c' hc' => .made _ (by dsimp only; omega)

theorem enough (fuel : ℕ) : Enough fuel := by
  induction fuel with
  | zero => refine ⟨fun c h => ?_, fun c h => ?_, fun c h => ?_⟩ <;> omega
  | succ fuel ih => exact ⟨ih.node_succ, ih.list_succ, ih.dict_succ⟩

/-- **The decoder comes to an end** on every buffer and every count: the fuel of the
definition is enough. -/
theorem beDecoden_ne_fuel (data : Bytes) (len : ℤ) : beDecoden data len ≠ .error .fuel := by
  have h := ((enough (2 * data.length + 2)).node ⟨data, len⟩ (by dsimp only; omega)).1
  unfold beDecoden
  cases hr : beDecodeNode (2 * data.length + 2) ⟨data, len⟩ with
  | error e =>
    rw [hr] at h
    simpa using h
  | ok v => simp

end ToxSuite.Bencode
