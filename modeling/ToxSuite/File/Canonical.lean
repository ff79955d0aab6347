import ToxSuite.File.Bounds

/-!
# What is saved again

The decoder reads more than the encoder writes: numerals with spaces and signs in front of them and zeros, strings
and keys whose length is refused or left out, keys with a NUL in them. What it makes of that is written back in one
way only. `BeNode.normal` is the tree that the encoder can tell from another: without `NULL` strings, and with keys
that end at their first NUL.

* `messages_prefix_free` — two trees are written as the same bytes if and only if they have the same normal
  form, and no message is the beginning of another.
* `resaved_once` — a file that loads and is saved again is at most twice as long, loads as the
  normal form of what it was, and does not change any more.
-/

namespace ToxSuite.File

open ToxSuite.Lib ToxSuite.Bencode

/-! ### Normal forms -/

mutual

/-- What the encoder writes of a tree. -/
def normal : BeNode → BeNode
  | .str s => .str (some (s.getD []))
  | .int i => .int i
  | .list l => .list (listNormal l)
  | .dict d => .dict (dictNormal d)

/-- Of the elements of a list. -/
def listNormal : List BeNode → List BeNode
  | [] => []
  | n :: l => normal n :: listNormal l

/-- Of the entries of a dictionary. -/
def dictNormal : List (Bytes × BeNode) → List (Bytes × BeNode)
  | [] => []
  | (k, n) :: d => (cstr k, normal n) :: dictNormal d

end

mutual

/-- The normal form has the text of the tree. -/
theorem text_normal : ∀ n : BeNode, (normal n).text = n.text
  | .str s => rfl
  | .int i => rfl
  | .list l => by rw [normal, BeNode.text, BeNode.text, listText_normal l]
  | .dict d => by rw [normal, BeNode.text, BeNode.text, dictText_normal d]

theorem listText_normal : ∀ l : List BeNode, listText (listNormal l) = listText l
  | [] => rfl
  | n :: l => by rw [listNormal, listText, listText, text_normal n, listText_normal l]

theorem dictText_normal : ∀ d : List (Bytes × BeNode), dictText (dictNormal d) = dictText d
  | [] => rfl
  | (k, n) :: d => by
    rw [dictNormal, dictText, dictText, cstr_of_notMem (zero_notMem_cstr k), text_normal n, dictText_normal d]

end

mutual

theorem wf_normal : ∀ n : BeNode, (normal n).Wf
  | .str _ => rfl
  | .int _ => trivial
  | .list l => listWf_normal l
  | .dict d => dictWf_normal d

theorem listWf_normal : ∀ l : List BeNode, listWf (listNormal l)
  | [] => trivial
  | n :: l => ⟨wf_normal n, listWf_normal l⟩

theorem dictWf_normal : ∀ d : List (Bytes × BeNode), dictWf (dictNormal d)
  | [] => trivial
  | (k, n) :: d => ⟨zero_notMem_cstr k, wf_normal n, dictWf_normal d⟩

end

/-! ### How long a numeral is -/

theorem digitVal_lt {c : UInt8} (h : isDigit c = true) : digitVal c < 10 := by
  simp only [isDigit, Bool.and_eq_true, decide_eq_true_eq, UInt8.le_iff_toNat_le] at h
  have h57 : (57 : UInt8).toNat = 57 := rfl
  unfold digitVal
  omega

theorem digitsVal_lt {ds : Bytes} (hds : ∀ c ∈ ds, isDigit c = true) : digitsVal ds < 10 ^ ds.length := by
  have hlt := Nat.ofDigits_lt_base_pow_length (b := 10) (l := ds.reverse.map digitVal) (by norm_num) ?_
  · simpa [digitsVal] using hlt
  · intro d hd
    obtain ⟨c, hc, rfl⟩ := List.mem_map.mp hd
    exact digitVal_lt (hds c (List.mem_reverse.mp hc))

/-- A number is printed with no more digits than a larger one was written with. -/
theorem length_decNat_digits {ds : Bytes} (hne : ds ≠ []) (hds : ∀ c ∈ ds, isDigit c = true) {n : ℕ}
    (hn : n ≤ digitsVal ds) : (decNat n).length ≤ ds.length :=
  length_decNat_le (List.length_pos_iff.mpr hne) (lt_of_le_of_lt hn (digitsVal_lt hds))

theorem length_decInt_le (i : ℤ) : (decInt i).length ≤ 1 + (decNat i.natAbs).length := by
  unfold decInt
  split_ifs
  · rw [List.length_cons]
    omega
  · omega

/-- What `strtoll` reads is printed with as many bytes as it took, or it took none. -/
theorem length_decInt_strtoll {s endp : Bytes} {i : ℤ} (h : strtoll s = .ok (i, endp)) :
    (decInt i).length + endp.length ≤ s.length ∨ i = 0 ∧ endp = s := by
  have hsign : (takeSign (s.dropWhile isSpace)).1.toNat + (takeSign (s.dropWhile isSpace)).2.length ≤ s.length := by
    have hle := (List.dropWhile_suffix (l := s) isSpace).length_le
    unfold takeSign
    split
    · next heq => rw [heq, List.length_cons] at hle; simpa [add_comm] using hle
    · next heq => rw [heq, List.length_cons] at hle; simp; omega
    · simpa using hle
  unfold strtoll at h
  generalize takeSign (s.dropWhile isSpace) = r at h hsign
  obtain ⟨minus, t⟩ := r
  dsimp only at h hsign
  have htd : (t.takeWhile isDigit).length + (t.dropWhile isDigit).length = t.length := by
    rw [← List.length_append, List.takeWhile_append_dropWhile]
  have hds : ∀ c ∈ t.takeWhile isDigit, isDigit c = true := fun c hc => (List.mem_takeWhile_imp hc)
  split at h
  · cases h
  · next c rest heq =>
    rw [heq] at htd
    split_ifs at h with hnone hminus
    · cases h
      exact .inr ⟨rfl, rfl⟩
    · cases h
      left
      have habs : (clampLL (-(digitsVal (t.takeWhile isDigit) : ℤ))).natAbs ≤ digitsVal (t.takeWhile isDigit) := by
        unfold clampLL LLONG_MIN LLONG_MAX
        omega
      have hlen := length_decNat_digits hnone hds habs
      have hdec := (length_decInt_le _).trans (Nat.add_le_add_left hlen 1)
      subst hminus
      simp only [Bool.toNat_true] at hsign
      omega
    · cases h
      left
      have hpos : 0 ≤ clampLL (digitsVal (t.takeWhile isDigit) : ℤ) := by
        unfold clampLL LLONG_MIN LLONG_MAX
        omega
      have habs : (clampLL (digitsVal (t.takeWhile isDigit) : ℤ)).natAbs ≤ digitsVal (t.takeWhile isDigit) := by
        unfold clampLL LLONG_MIN LLONG_MAX
        omega
      have hlen := length_decNat_digits hnone hds habs
      rw [decInt, if_neg (by omega)]
      omega

theorem strtoll_range {s endp : Bytes} {i : ℤ} (h : strtoll s = .ok (i, endp)) : LLONG_MIN ≤ i ∧ i ≤ LLONG_MAX := by
  unfold strtoll at h
  dsimp only at h
  split at h
  · cases h
  · split_ifs at h
    · cases h
      decide
    all_goals
      cases h
      unfold clampLL LLONG_MIN LLONG_MAX
      omega

/-! ### How long a tree is -/

/-- A string that is read, and what is left of it: it is printed with no more bytes, or its length was left out. -/
theorem length_strText_decode {c c' : Cursor} {key : Bytes} (h : beDecodeStr c = .ok (some key, c')) :
    (strText key).length + 2 * c'.data.length ≤ 2 * c.data.length := by
  unfold beDecodeStr at h
  obtain ⟨⟨sllen, c₁⟩, hint, h⟩ := bind_eq_ok.mp h
  obtain ⟨⟨i, endp⟩, hs, hint⟩ := bind_eq_ok.mp hint
  cases hint
  dsimp only at h
  split_ifs at h with hrej
  · cases h
  · cases endp with
    | nil => cases h
    | cons x rest =>
      dsimp only at h
      split_ifs at h with hx hshort
      · cases h
        obtain ⟨n, rfl⟩ := Int.eq_ofNat_of_zero_le (not_lt.mp (not_or.mp hrej).1)
        have htake : (rest.take n).length = n := by simpa using hshort
        have hsuf := (strtoll_suffix hs).length_le
        have hdrop : (rest.drop n).length + n = rest.length := by
          rw [List.length_drop]
          simp only [Int.toNat_natCast, not_lt] at hshort
          omega
        have htext : (strText (rest.take n)).length = (decNat n).length + 1 + n := by
          simp only [strText, List.length_append, List.length_cons, htake]
          omega
        simp only [Int.toNat_natCast]
        rw [htext]
        rw [List.length_cons] at hsuf
        rcases length_decInt_strtoll hs with hlen | ⟨h0, heq⟩
        · rw [decInt_natCast, List.length_cons] at hlen
          omega
        · obtain rfl : n = 0 := by exact_mod_cast h0
          have hone : (decNat 0).length = 1 := rfl
          omega
      · cases h

theorem length_strText_cstr (k : Bytes) : (strText (cstr k)).length ≤ (strText k).length := by
  have hle : (cstr k).length ≤ k.length := (List.takeWhile_prefix _).length_le
  have hdec : (decNat (cstr k).length).length ≤ (decNat k.length).length := by
    refine length_decNat_digits (decNat_ne_nil _) (fun c hc => isDigit_of_mem_decNat hc) ?_
    rw [digitsVal_decNat]
    exact hle
  simp only [strText, List.length_append, List.length_cons]
  omega

/-- With this much fuel, what is read takes at most two bytes for each that was read. -/
structure Doubles (fuel : ℕ) : Prop where
  node : ∀ c c' n, beDecodeNode fuel c = .ok (some n, c') → n.text.length + 2 * c'.data.length ≤ 2 * c.data.length
  list : ∀ c c' l, beDecodeList fuel c = .ok (some l, c') →
    (listText l).length + 2 + 2 * c'.data.length ≤ 2 * c.data.length
  dict : ∀ c c' d, beDecodeDict fuel c = .ok (some d, c') →
    (dictText d).length + 2 + 2 * c'.data.length ≤ 2 * c.data.length

theorem Doubles.node_succ {fuel : ℕ} (ih : Doubles fuel) (c c' : Cursor) (n : BeNode)
    (h : beDecodeNode (fuel + 1) c = .ok (some n, c')) : n.text.length + 2 * c'.data.length ≤ 2 * c.data.length := by
  obtain ⟨data, len⟩ := c
  rw [beDecodeNode] at h
  dsimp only at h ⊢
  split_ifs at h with hlen
  · cases h
  cases data with
  | nil => cases h
  | cons x rest =>
    dsimp only at h
    rw [List.length_cons]
    split_ifs at h with hl hd hi hdig
    · obtain ⟨⟨l, c₁⟩, hlist, h⟩ := bind_eq_ok.mp h
      cases l with
      | none => cases h
      | some l =>
        cases h
        have hle := ih.list _ _ _ hlist
        rw [length_text_list]
        dsimp only at hle ⊢
        omega
    · obtain ⟨⟨d, c₁⟩, hdict, h⟩ := bind_eq_ok.mp h
      cases d with
      | none => cases h
      | some d =>
        cases h
        have hle := ih.dict _ _ _ hdict
        simp only [BeNode.text, List.length_cons, List.length_append, List.length_nil]
        dsimp only at hle ⊢
        omega
    · obtain ⟨⟨i, c₁⟩, hint, h⟩ := bind_eq_ok.mp h
      obtain ⟨⟨v, endp⟩, hs, hint⟩ := bind_eq_ok.mp hint
      cases hint
      dsimp only at h hs
      cases endp with
      | nil => cases h
      | cons y t =>
        dsimp only at h
        split_ifs at h with hy
        swap
        · cases h
        cases h
        have hrange := strtoll_range hs
        have hvalue : (Int64.ofInt i).toInt = i := Int64.toInt_ofInt_of_le hrange.1 (Int.lt_add_one_of_le hrange.2)
        simp only [BeNode.text, hvalue, List.length_cons, List.length_append, List.length_nil]
        rcases length_decInt_strtoll hs with hlen | ⟨rfl, heq⟩
        · rw [List.length_cons] at hlen
          omega
        · have hone : (decInt 0).length = 1 := rfl
          rw [← heq, List.length_cons]
          omega
    · obtain ⟨⟨s, c₁⟩, hstr, h⟩ := bind_eq_ok.mp h
      cases h
      cases s with
      | some s => exact length_strText_decode hstr
      | none =>
        -- a node without bytes, for the digits of the length that was refused
        rcases beDecodeStr_lt hdig rest len with herr | ⟨s, c', hok, hlt⟩
        · rw [herr] at hstr
          cases hstr
        · rw [hok] at hstr
          cases hstr
          have htwo : (BeNode.str none).text.length = 2 := rfl
          rw [List.length_cons] at hlt
          dsimp only
          omega
    · cases h

theorem Doubles.list_succ {fuel : ℕ} (ih : Doubles fuel) (c c' : Cursor) (l : List BeNode)
    (h : beDecodeList (fuel + 1) c = .ok (some l, c')) :
    (listText l).length + 2 + 2 * c'.data.length ≤ 2 * c.data.length := by
  obtain ⟨data, len⟩ := c
  rw [beDecodeList] at h
  cases data with
  | nil => cases h
  | cons x rest =>
    dsimp only at h ⊢
    split_ifs at h with hx
    · cases h
      rw [List.length_cons, listText, List.length_nil]
      dsimp only
      omega
    · obtain ⟨⟨n, c₁⟩, hnode, h⟩ := bind_eq_ok.mp h
      cases n with
      | none => cases h
      | some n =>
        obtain ⟨⟨l', c₂⟩, hlist, h⟩ := bind_eq_ok.mp h
        cases l' with
        | none => cases h
        | some l' =>
          cases h
          have hfirst := ih.node _ _ _ hnode
          have hrest := ih.list _ _ _ hlist
          rw [listText, List.length_append]
          dsimp only at hfirst hrest ⊢
          omega

theorem Doubles.dict_succ {fuel : ℕ} (ih : Doubles fuel) (c c' : Cursor) (d : List (Bytes × BeNode))
    (h : beDecodeDict (fuel + 1) c = .ok (some d, c')) :
    (dictText d).length + 2 + 2 * c'.data.length ≤ 2 * c.data.length := by
  obtain ⟨data, len⟩ := c
  rw [beDecodeDict] at h
  cases data with
  | nil => cases h
  | cons x rest =>
    dsimp only at h ⊢
    split_ifs at h with hx
    · cases h
      rw [List.length_cons, dictText, List.length_nil]
      dsimp only
      omega
    · obtain ⟨⟨key, c₁⟩, hstr, h⟩ := bind_eq_ok.mp h
      obtain ⟨⟨n, c₂⟩, hnode, h⟩ := bind_eq_ok.mp h
      cases key with
      | none => cases n <;> cases h
      | some key =>
        cases n with
        | none => cases h
        | some n =>
          obtain ⟨⟨d', c₃⟩, hdict, h⟩ := bind_eq_ok.mp h
          cases d' with
          | none => cases h
          | some d' =>
            cases h
            have hkey := length_strText_decode hstr
            have hcut := length_strText_cstr key
            have hvalue := ih.node _ _ _ hnode
            have hrest := ih.dict _ _ _ hdict
            rw [dictText, List.length_append, List.length_append]
            dsimp only at hkey hvalue hrest ⊢
            omega

/-- **A tree that is read** is written with at most two bytes for each of the input. -/
theorem doubles (fuel : ℕ) : Doubles fuel := by
  induction fuel with
  | zero =>
    refine ⟨fun c c' n h => ?_, fun c c' l h => ?_, fun c c' d h => ?_⟩
    · rw [beDecodeNode] at h
      cases h
    · rw [beDecodeList] at h
      cases h
    · rw [beDecodeDict] at h
      cases h
  | succ fuel ih => exact ⟨ih.node_succ, ih.list_succ, ih.dict_succ⟩

/-! ### Messages -/

/-- What the decoder makes of the text of a tree, whatever follows it. -/
theorem decode_text_append {n : BeNode} (hmax : (n.text.length : ℤ) ≤ LLONG_MAX) (rest : Bytes) {fuel : ℕ}
    (hfuel : 2 * n.text.length ≤ fuel) :
    beDecodeNode fuel (full (n.text ++ rest)) = .ok (some (normal n), full rest) := by
  have h := beDecodeNode_text (normal n) fuel rest (n.text ++ rest).length (wf_normal n)
  rw [text_normal] at h
  rw [full, h hfuel hmax (by simp)]
  simp [full]

/-- **Messages are prefix-free.** What two trees are written as, and what follows it, is the same if and only if the
trees have one normal form, and the same follows. -/
theorem messages_prefix_free {heap heap' : ℕ → UInt8} {n m : BeNode} {msg msg' : Bytes}
    (hn : encodeRoot heap n = .ok msg) (hm : encodeRoot heap' m = .ok msg') (rest rest' : Bytes) :
    msg ++ rest = msg' ++ rest' ↔ normal n = normal m ∧ rest = rest' := by
  obtain ⟨rfl, hnlen⟩ := encodeRoot_ok hn
  obtain ⟨rfl, hmlen⟩ := encodeRoot_ok hm
  have hint : (INT_MAX : ℤ) ≤ LLONG_MAX := by decide
  constructor
  · intro h
    have hdn := decode_text_append (n := n) (by omega) rest (le_max_left _ (2 * m.text.length))
    have hdm := decode_text_append (n := m) (by omega) rest' (le_max_right (2 * n.text.length) _)
    rw [h, hdm] at hdn
    obtain ⟨hnode, hrest⟩ := Prod.mk.inj (Except.ok.inj hdn)
    exact ⟨(Option.some.inj hnode).symm, congrArg Cursor.data hrest.symm⟩
  · rintro ⟨hnormal, rfl⟩
    rw [← text_normal n, ← text_normal m, hnormal]

/-- A `NULL` string is written as one without bytes. -/
theorem messages_prefix_free_null :
    encodeRoot (fun _ => 0) (.str none) = .ok (ascii "0:") ∧
      encodeRoot (fun _ => 0) (.str (some [])) = .ok (ascii "0:") ∧
      normal (.str none) = normal (.str (some [])) := by
  have hnull : encodeRoot (fun _ => 0) (.str none) = .ok (ascii "0:") := rfl
  have hempty : encodeRoot (fun _ => 0) (.str (some [])) = .ok (ascii "0:") := rfl
  exact ⟨hnull, hempty, ((messages_prefix_free hnull hempty [] []).mp rfl).1⟩

/-- **A file that is saved again** is at most twice as long, loads as the normal form of what it was, and is
saved as it is from then on. -/
theorem resaved_once {data : Bytes} {root : BeNode} (hload : beNodeLoadfile (some data) = .ok (some root))
    (hsize : 2 * data.length < INT_MAX) (heap : ℕ → UInt8) :
    ∃ msg, encodeRoot heap root = .ok msg ∧ msg.length ≤ 2 * data.length ∧
      beNodeLoadfile (some msg) = .ok (some (normal root)) ∧ ∀ heap', encodeRoot heap' (normal root) = .ok msg := by
  have hlen : root.text.length ≤ 2 * data.length := by
    rw [beNodeLoadfile_eq, beDecoden] at hload
    obtain ⟨⟨n, c⟩, hnode, heq⟩ := bind_eq_ok.mp hload
    cases heq
    have hle := (doubles _).node _ _ _ hnode
    dsimp only at hle
    omega
  have hmsg : ∀ n : BeNode, n.text = root.text → ∀ heap, encodeRoot heap n = .ok root.text := fun n hn heap =>
    hn ▸ encodeRoot_eq heap (by rw [hn]; omega)
  refine ⟨root.text, hmsg root rfl heap, hlen, ?_, hmsg _ (text_normal root)⟩
  have h := beNodeLoadfile_text (wf_normal root) (by rw [text_normal]; omega)
  rwa [text_normal] at h

/-- An integer without digits: what is saved is longer. -/
theorem resaved_once_longer : ∃ root, beNodeLoadfile (some (ascii "ie")) = .ok (some root) ∧
    beNodeLoadfile (some (ascii "i0e")) = .ok (some (normal root)) := by
  have hload : beNodeLoadfile (some (ascii "ie")) = .ok (some (.int 0)) := rfl
  obtain ⟨msg, hmsg, -, hagain, -⟩ := resaved_once hload (by decide) fun _ => 0
  have htext : encodeRoot (fun _ => 0) (.int 0) = .ok (ascii "i0e") := rfl
  cases hmsg.symm.trans htext
  exact ⟨_, hload, hagain⟩

end ToxSuite.File
