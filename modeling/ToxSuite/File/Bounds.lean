import ToxSuite.File.FileNode

/-!
# Where a load stops reading

`be_node_loadfile` gives the decoder a buffer with the bytes of the file and
nothing after them. The decoder looks at its count in two places only, at the
start of a value and before it copies a string; `strtoll` and the loops over lists
and dictionaries look at the byte that comes next, whether or not there is one.

`CutOff` describes the files that end where another byte is looked for, as a
grammar: complete values, and then an end inside a numeral, a list or a
dictionary. `loadfile_inside_iff`: those are the files that are read past their
end. Inside the file the count is right all along.
-/

namespace ToxSuite.File

open ToxSuite.Lib ToxSuite.Bencode

/-! ### The grammar of what is read -/

/-- What the decoder is in the middle of: a value, the elements of a list, the entries of a
dictionary. -/
inductive Part where
  | node
  | list
  | dict

/-- The string at the head of `s`, whether it is accepted, and what is left after it. -/
inductive StrAt : Bytes → Bool → Bytes → Prop where
  /-- A length, a colon and as many bytes. -/
  | good {s t : Bytes} {n : ℕ} : strtoll s = .ok (n, 58 :: t) → n ≤ t.length → StrAt s true (t.drop n)
  /-- A length that is refused, or no colon: what follows the length is left. -/
  | bad {s t : Bytes} {n : ℤ} {c : UInt8} : strtoll s = .ok (n, c :: t) →
      (n < 0 ∨ (t.length : ℤ) < n ∨ c ≠ 58) → StrAt s false (c :: t)

/-- `s` starts with a complete part, and `t` is left after it. -/
inductive Makes : Part → Bytes → Bytes → Prop where
  | int {s t : Bytes} {i : ℤ} : strtoll s = .ok (i, 101 :: t) → Makes .node (105 :: s) t
  /-- A string that is refused makes a node as well. -/
  | str {c : UInt8} {s t : Bytes} {b : Bool} : isDigit c = true → StrAt (c :: s) b t → Makes .node (c :: s) t
  | list {s t : Bytes} : Makes .list s t → Makes .node (108 :: s) t
  | dict {s t : Bytes} : Makes .dict s t → Makes .node (100 :: s) t
  | listEnd {s : Bytes} : Makes .list (101 :: s) s
  | element {c : UInt8} {s t u : Bytes} : c ≠ 101 → Makes .node (c :: s) t → Makes .list t u →
      Makes .list (c :: s) u
  | dictEnd {s : Bytes} : Makes .dict (101 :: s) s
  | entry {c : UInt8} {s t u v : Bytes} : c ≠ 101 → StrAt (c :: s) true t → Makes .node t u →
      Makes .dict u v → Makes .dict (c :: s) v

/-- `s` ends inside a part. -/
inductive CutOff : Part → Bytes → Prop where
  | int {s : Bytes} : Unended s → CutOff .node (105 :: s)
  | str {c : UInt8} {s : Bytes} : isDigit c = true → Unended (c :: s) → CutOff .node (c :: s)
  | list {s : Bytes} : CutOff .list s → CutOff .node (108 :: s)
  | dict {s : Bytes} : CutOff .dict s → CutOff .node (100 :: s)
  | listEnd : CutOff .list []
  | element {c : UInt8} {s : Bytes} : c ≠ 101 → CutOff .node (c :: s) → CutOff .list (c :: s)
  | elements {c : UInt8} {s t : Bytes} : c ≠ 101 → Makes .node (c :: s) t → CutOff .list t →
      CutOff .list (c :: s)
  | dictEnd : CutOff .dict []
  | key {c : UInt8} {s : Bytes} : c ≠ 101 → Unended (c :: s) → CutOff .dict (c :: s)
  /-- The value is decoded even when the key was refused. -/
  | value {c : UInt8} {s t : Bytes} {b : Bool} : c ≠ 101 → StrAt (c :: s) b t → CutOff .node t →
      CutOff .dict (c :: s)
  | entries {c : UInt8} {s t u : Bytes} : c ≠ 101 → StrAt (c :: s) true t → Makes .node t u →
      CutOff .dict u → CutOff .dict (c :: s)

/-! ### The count -/

/-- A pointer and the count that belongs to it. -/
def full (s : Bytes) : Cursor := ⟨s, s.length⟩

theorem full_tail (c : UInt8) (s : Bytes) : (⟨s, (full (c :: s)).len - 1⟩ : Cursor) = full s := by
  simp [full]

/-- Reading a numeral keeps the count. -/
theorem beDecodeInt_full {s endp : Bytes} {i : ℤ} (h : strtoll s = .ok (i, endp)) :
    beDecodeInt (full s) = .ok (i, full endp) := by
  have hle := (strtoll_suffix h).length_le
  simp only [beDecodeInt, full, h, ok_bind, pure_eq_ok, Except.ok.injEq, Prod.mk.injEq, Cursor.mk.injEq,
    true_and]
  omega

theorem beDecodeInt_unended {s : Bytes} (h : Unended s) : beDecodeInt (full s) = .error .overread := by
  rw [beDecodeInt, full, strtoll_overread_iff.mpr h]
  rfl

theorem beDecodeStr_unended {s : Bytes} (h : Unended s) : beDecodeStr (full s) = .error .overread := by
  rw [beDecodeStr, beDecodeInt_unended h]
  rfl

/-- Reading a string keeps the count. -/
theorem beDecodeStr_full {s t : Bytes} {b : Bool} (h : StrAt s b t) :
    ∃ key, beDecodeStr (full s) = .ok (key, full t) ∧ key.isSome = b := by
  cases h with
  | @good t n hs hn =>
    refine ⟨some (t.take n), ?_, rfl⟩
    have hsmall : ¬((n : ℤ) < 0 ∨ (full (58 :: t)).len - 1 < n) := by
      simp only [full, List.length_cons]
      omega
    rw [beDecodeStr, beDecodeInt_full hs, ok_bind]
    dsimp only
    rw [if_neg hsmall]
    simp only [full, if_true, Int.toNat_natCast, if_neg (not_lt.mpr hn), List.length_cons, List.length_drop,
      pure_eq_ok, Except.ok.injEq, Prod.mk.injEq, Cursor.mk.injEq, true_and]
    omega
  | @bad t n c hs hbad =>
    refine ⟨none, ?_, rfl⟩
    rw [beDecodeStr, beDecodeInt_full hs, ok_bind]
    dsimp only
    split_ifs with hrej
    · rfl
    · have hc : c ≠ 58 := by
        simp only [full, List.length_cons] at hrej
        rcases hbad with h | h | h
        · omega
        · omega
        · exact h
      simp only [full, if_neg hc, pure_eq_ok]

/-- A numeral that ends is the length of a string, accepted or refused. -/
theorem strAt_total (s : Bytes) : Unended s ∨ ∃ b t, StrAt s b t := by
  rcases strtoll_cases s with h | ⟨n, endp, h, -⟩
  · exact .inl (strtoll_overread_iff.mp h)
  · right
    cases endp with
    | nil => exact absurd rfl (strtoll_ne_nil h)
    | cons c t =>
      by_cases hbad : n < 0 ∨ (t.length : ℤ) < n ∨ c ≠ 58
      · exact ⟨false, _, .bad h hbad⟩
      · push Not at hbad
        obtain ⟨hn, hlen, rfl⟩ := hbad
        obtain ⟨m, rfl⟩ := Int.eq_ofNat_of_zero_le hn
        exact ⟨true, _, .good h (by omega)⟩

/-! ### The decoder and the grammar -/

/-- The decoder on a part: whether it made something of it, and the cursor it leaves. -/
def decodePart (part : Part) (fuel : ℕ) (c : Cursor) : Except Fault (Bool × Cursor) :=
  match part with
  | .node => (beDecodeNode fuel c).map fun r => (r.1.isSome, r.2)
  | .list => (beDecodeList fuel c).map fun r => (r.1.isSome, r.2)
  | .dict => (beDecodeDict fuel c).map fun r => (r.1.isSome, r.2)

section Equations

variable (fuel : ℕ) (s : Bytes)

theorem decodePart_nil : decodePart .node (fuel + 1) (full []) = .ok (false, full []) := rfl

theorem decodePart_list : decodePart .node (fuel + 1) (full (108 :: s)) = decodePart .list fuel (full s) := by
  have hlen : (full (108 :: s)).len ≠ 0 := by simp only [full, List.length_cons]; omega
  rw [decodePart, beDecodeNode, if_neg hlen]
  change (beDecodeList fuel ⟨s, (full (108 :: s)).len - 1⟩ >>= fun r => pure (r.1.map BeNode.list, r.2)).map _ = _
  rw [full_tail]
  change _ = (beDecodeList fuel (full s)).map _
  cases beDecodeList fuel (full s) with
  | error e => rfl
  | ok r =>
    obtain ⟨l, c⟩ := r
    cases l <;> rfl

theorem decodePart_dict : decodePart .node (fuel + 1) (full (100 :: s)) = decodePart .dict fuel (full s) := by
  have hlen : (full (100 :: s)).len ≠ 0 := by simp only [full, List.length_cons]; omega
  rw [decodePart, beDecodeNode, if_neg hlen]
  change (beDecodeDict fuel ⟨s, (full (100 :: s)).len - 1⟩ >>= fun r => pure (r.1.map BeNode.dict, r.2)).map _ = _
  rw [full_tail]
  change _ = (beDecodeDict fuel (full s)).map _
  cases beDecodeDict fuel (full s) with
  | error e => rfl
  | ok r =>
    obtain ⟨l, c⟩ := r
    cases l <;> rfl

theorem decodePart_unended (h : Unended s) :
    decodePart .node (fuel + 1) (full (105 :: s)) = .error .overread := by
  have hlen : (full (105 :: s)).len ≠ 0 := by simp only [full, List.length_cons]; omega
  rw [decodePart, beDecodeNode, if_neg hlen]
  change (beDecodeInt ⟨s, (full (105 :: s)).len - 1⟩ >>= _).map _ = _
  rw [full_tail, beDecodeInt_unended h]
  rfl

theorem decodePart_int {i : ℤ} {c : UInt8} {t : Bytes} (h : strtoll s = .ok (i, c :: t)) :
    decodePart .node (fuel + 1) (full (105 :: s)) =
      .ok (if c = 101 then (true, full t) else (false, full (c :: t))) := by
  have hlen : (full (105 :: s)).len ≠ 0 := by simp only [full, List.length_cons]; omega
  rw [decodePart, beDecodeNode, if_neg hlen]
  change (beDecodeInt ⟨s, (full (105 :: s)).len - 1⟩ >>= _).map _ = _
  rw [full_tail, beDecodeInt_full h, ok_bind]
  simp only [full]
  split_ifs with hc
  · simp [Except.map]
  · simp [Except.map]

theorem decodePart_str {c : UInt8} (hc : isDigit c = true) :
    decodePart .node (fuel + 1) (full (c :: s)) =
      (beDecodeStr (full (c :: s))).map fun r => (true, r.2) := by
  have hlen : (full (c :: s)).len ≠ 0 := by simp only [full, List.length_cons]; omega
  have hne : ∀ y : UInt8, isDigit y = false → c ≠ y := by
    rintro y hy rfl
    rw [hy] at hc
    cases hc
  rw [decodePart, beDecodeNode, if_neg hlen]
  change (if c = 108 then _ else _ : Except Fault (Option BeNode × Cursor)).map _ = _
  rw [if_neg (hne 108 (by decide)), if_neg (hne 100 (by decide)), if_neg (hne 105 (by decide)), if_pos hc]
  cases beDecodeStr (full (c :: s)) with
  | error e => rfl
  | ok r => rfl

theorem decodePart_other {c : UInt8} (hl : c ≠ 108) (hd : c ≠ 100) (hi : c ≠ 105)
    (hc : isDigit c = false) : decodePart .node (fuel + 1) (full (c :: s)) = .ok (false, full (c :: s)) := by
  have hlen : (full (c :: s)).len ≠ 0 := by simp only [full, List.length_cons]; omega
  rw [decodePart, beDecodeNode, if_neg hlen]
  change (if c = 108 then _ else _ : Except Fault (Option BeNode × Cursor)).map _ = _
  rw [if_neg hl, if_neg hd, if_neg hi, if_neg (by simp [hc])]
  rfl

theorem decodePart_listNil : decodePart .list (fuel + 1) (full []) = .error .overread := rfl

theorem decodePart_dictNil : decodePart .dict (fuel + 1) (full []) = .error .overread := rfl

theorem decodePart_listEnd : decodePart .list (fuel + 1) (full (101 :: s)) = .ok (true, full s) := by
  rw [decodePart, beDecodeList]
  change (Except.ok (some [], (⟨s, (full (101 :: s)).len - 1⟩ : Cursor))).map _ = _
  rw [full_tail]
  rfl

theorem decodePart_dictEnd : decodePart .dict (fuel + 1) (full (101 :: s)) = .ok (true, full s) := by
  rw [decodePart, beDecodeDict]
  change (Except.ok (some [], (⟨s, (full (101 :: s)).len - 1⟩ : Cursor))).map _ = _
  rw [full_tail]
  rfl

theorem decodePart_element {c : UInt8} (hc : c ≠ 101) :
    decodePart .list (fuel + 1) (full (c :: s)) =
      decodePart .node fuel (full (c :: s)) >>= fun r =>
        if r.1 = true then decodePart .list fuel r.2 else .ok (false, r.2) := by
  change (beDecodeList (fuel + 1) (full (c :: s))).map _ = _
  rw [beDecodeList]
  change (if c = 101 then _ else _ : Except Fault (Option (List BeNode) × Cursor)).map _ = _
  rw [if_neg hc]
  change _ = (beDecodeNode fuel (full (c :: s))).map _ >>= _
  cases beDecodeNode fuel (full (c :: s)) with
  | error e => rfl
  | ok r =>
    obtain ⟨n, c'⟩ := r
    cases n with
    | none => rfl
    | some n =>
      change (beDecodeList fuel c' >>= _).map _ = (beDecodeList fuel c').map _
      cases beDecodeList fuel c' with
      | error e => rfl
      | ok r =>
        obtain ⟨l, c''⟩ := r
        cases l <;> rfl

theorem decodePart_entry {c : UInt8} (hc : c ≠ 101) :
    decodePart .dict (fuel + 1) (full (c :: s)) =
      beDecodeStr (full (c :: s)) >>= fun k => decodePart .node fuel k.2 >>= fun r =>
        if k.1.isSome = true ∧ r.1 = true then decodePart .dict fuel r.2 else .ok (false, r.2) := by
  change (beDecodeDict (fuel + 1) (full (c :: s))).map _ = _
  rw [beDecodeDict]
  change (if c = 101 then _ else _ : Except Fault (Option (List (Bytes × BeNode)) × Cursor)).map _ = _
  rw [if_neg hc]
  cases beDecodeStr (full (c :: s)) with
  | error e => rfl
  | ok k =>
    obtain ⟨key, c₁⟩ := k
    change (beDecodeNode fuel c₁ >>= _).map _ = (beDecodeNode fuel c₁).map _ >>= _
    cases beDecodeNode fuel c₁ with
    | error e => rfl
    | ok r =>
      obtain ⟨n, c₂⟩ := r
      cases key with
      | none => cases n <;> rfl
      | some key =>
        cases n with
        | none => rfl
        | some n =>
          change (beDecodeDict fuel c₂ >>= _).map _ = (beDecodeDict fuel c₂).map _
          cases beDecodeDict fuel c₂ with
          | error e => rfl
          | ok r =>
            obtain ⟨d, c₃⟩ := r
            cases d <;> rfl

end Equations

/-- What the decoder comes to on a part that starts at `s`; the count is right in each case. -/
inductive Comes (part : Part) (fuel : ℕ) (s : Bytes) : Prop where
  | fuel (h : decodePart part fuel (full s) = .error .fuel)
  /-- Past the end of a part that is cut off. -/
  | past (h : decodePart part fuel (full s) = .error .overread) (hcut : CutOff part s)
  /-- Behind a complete part. -/
  | made {t : Bytes} (h : decodePart part fuel (full s) = .ok (true, full t)) (hmade : Makes part s t)
  /-- To a part that it gives up. -/
  | dropped {t : Bytes} (h : decodePart part fuel (full s) = .ok (false, full t))

/-- The integer at the head of a value. -/
theorem comes_int (fuel : ℕ) (s : Bytes) : Comes .node (fuel + 1) (105 :: s) := by
  rcases strtoll_cases s with h | ⟨i, endp, h, -⟩
  · have hun := strtoll_overread_iff.mp h
    exact .past (decodePart_unended fuel s hun) (.int hun)
  · cases endp with
    | nil => exact absurd rfl (strtoll_ne_nil h)
    | cons x t =>
      have heq := decodePart_int fuel s h
      by_cases hx : x = 101
      · subst hx
        exact .made (heq.trans (congrArg _ (if_pos rfl))) (.int h)
      · exact .dropped (heq.trans (congrArg _ (if_neg hx)))

/-- The string at the head of a value. -/
theorem comes_str (fuel : ℕ) (s : Bytes) {c : UInt8} (hdig : isDigit c = true) :
    Comes .node (fuel + 1) (c :: s) := by
  have heq := decodePart_str fuel s hdig
  rcases strAt_total (c :: s) with hun | ⟨b, t, hstr⟩
  · rw [beDecodeStr_unended hun] at heq
    exact .past heq (.str hdig hun)
  · obtain ⟨key, hkey, -⟩ := beDecodeStr_full hstr
    rw [hkey] at heq
    exact .made heq (.str hdig hstr)

section Step

variable {fuel : ℕ} (ih : ∀ (part : Part) (s : Bytes), Comes part fuel s)
include ih

/-- What `_be_decode` comes to, by the first byte. -/
theorem comes_node (s : Bytes) : Comes .node (fuel + 1) s := by
  cases s with
  | nil => exact .dropped (decodePart_nil fuel)
  | cons c s =>
    by_cases hl : c = 108
    · subst hl
      have heq := decodePart_list fuel s
      cases ih .list s with
      | fuel h => exact .fuel (heq.trans h)
      | past h hcut => exact .past (heq.trans h) (.list hcut)
      | made h hmade => exact .made (heq.trans h) (.list hmade)
      | dropped h => exact .dropped (heq.trans h)
    by_cases hd : c = 100
    · subst hd
      have heq := decodePart_dict fuel s
      cases ih .dict s with
      | fuel h => exact .fuel (heq.trans h)
      | past h hcut => exact .past (heq.trans h) (.dict hcut)
      | made h hmade => exact .made (heq.trans h) (.dict hmade)
      | dropped h => exact .dropped (heq.trans h)
    by_cases hi : c = 105
    · subst hi
      exact comes_int fuel s
    cases hdig : isDigit c with
    | true => exact comes_str fuel s hdig
    | false => exact .dropped (decodePart_other fuel s hl hd hi hdig)

/-- What the loop over a list comes to: its end, or an element and the rest. -/
theorem comes_list (s : Bytes) : Comes .list (fuel + 1) s := by
  cases s with
  | nil => exact .past (decodePart_listNil fuel) .listEnd
  | cons c s =>
    by_cases hc : c = 101
    · subst hc
      exact .made (decodePart_listEnd fuel s) .listEnd
    have heq := decodePart_element fuel s hc
    cases ih .node (c :: s) with
    | fuel h =>
      rw [h] at heq
      exact .fuel heq
    | past h hcut =>
      rw [h] at heq
      exact .past heq (.element hc hcut)
    | @made t h hmade =>
      rw [h, ok_bind, if_pos rfl] at heq
      cases ih .list t with
      | fuel h => exact .fuel (heq.trans h)
      | past h hcut => exact .past (heq.trans h) (.elements hc hmade hcut)
      | made h hrest => exact .made (heq.trans h) (.element hc hmade hrest)
      | dropped h => exact .dropped (heq.trans h)
    | dropped h =>
      rw [h] at heq
      exact .dropped heq

/-- What the loop over a dictionary comes to: its end, or a key, a value and the rest. -/
theorem comes_dict (s : Bytes) : Comes .dict (fuel + 1) s := by
  cases s with
  | nil => exact .past (decodePart_dictNil fuel) .dictEnd
  | cons c s =>
    by_cases hc : c = 101
    · subst hc
      exact .made (decodePart_dictEnd fuel s) .dictEnd
    have heq := decodePart_entry fuel s hc
    rcases strAt_total (c :: s) with hun | ⟨b, t, hstr⟩
    · rw [beDecodeStr_unended hun] at heq
      exact .past heq (.key hc hun)
    obtain ⟨key, hkey, hb⟩ := beDecodeStr_full hstr
    rw [hkey, ok_bind] at heq
    -- the value is decoded whatever became of the key
    cases ih .node t with
    | fuel h =>
      rw [h] at heq
      exact .fuel heq
    | past h hcut =>
      rw [h] at heq
      exact .past heq (.value hc hstr hcut)
    | @made u h hmade =>
      rw [h, ok_bind] at heq
      cases b with
      | true =>
        rw [if_pos ⟨hb, rfl⟩] at heq
        cases ih .dict u with
        | fuel h => exact .fuel (heq.trans h)
        | past h hcut => exact .past (heq.trans h) (.entries hc hstr hmade hcut)
        | made h hrest => exact .made (heq.trans h) (.entry hc hstr hmade hrest)
        | dropped h => exact .dropped (heq.trans h)
      | false =>
        rw [if_neg (by simp [hb])] at heq
        exact .dropped heq
    | dropped h =>
      rw [h, ok_bind, if_neg (by simp)] at heq
      exact .dropped heq

end Step

/-- **The decoder comes to something** on every part, by induction on the fuel. -/
theorem comes (fuel : ℕ) : ∀ (part : Part) (s : Bytes), Comes part fuel s := by
  induction fuel with
  | zero =>
    intro part s
    cases part <;> exact .fuel rfl
  | succ fuel ih =>
    intro part s
    cases part with
    | node => exact comes_node ih s
    | list => exact comes_list ih s
    | dict => exact comes_dict ih s

theorem StrAt.length_le {s t : Bytes} {b : Bool} (h : StrAt s b t) :
    (∃ n endp, strtoll s = .ok (n, endp) ∧ t.length ≤ endp.length) ∧ t.length ≤ s.length := by
  cases h with
  | @good t n hs hn =>
    have hle := (strtoll_suffix hs).length_le
    rw [List.length_cons] at hle
    exact ⟨⟨_, _, hs, by rw [List.length_drop, List.length_cons]; omega⟩, by rw [List.length_drop]; omega⟩
  | bad hs hbad => exact ⟨⟨_, _, hs, le_rfl⟩, (strtoll_suffix hs).length_le⟩

theorem StrAt.length_lt {c : UInt8} {s t : Bytes} {b : Bool} (hc : isDigit c = true) (h : StrAt (c :: s) b t) :
    t.length < (c :: s).length := by
  obtain ⟨⟨n, endp, hs, hle⟩, -⟩ := h.length_le
  exact lt_of_le_of_lt hle (strtoll_lt hc hs)

/-- A complete part takes bytes. -/
theorem Makes.length_lt {part : Part} {s t : Bytes} (h : Makes part s t) : t.length < s.length := by
  induction h with
  | @int s t i hs =>
    have hle := (strtoll_suffix hs).length_le
    simp only [List.length_cons] at hle ⊢
    omega
  | str hc hstr => exact hstr.length_lt hc
  | list _ ih => exact ih.trans (by simp)
  | dict _ ih => exact ih.trans (by simp)
  | listEnd => simp
  | element _ _ _ ih₁ ih₂ => exact ih₂.trans ih₁
  | dictEnd => simp
  | entry _ hstr _ _ ih₁ ih₂ => exact (ih₂.trans ih₁).trans_le hstr.length_le.2

/-- The fuel that a part needs beyond two units for a byte. -/
def Part.slack : Part → ℕ
  | .node => 1
  | _ => 2

/-- What is enough for a part is not nothing. -/
theorem Part.fuel_succ {part : Part} {n fuel : ℕ} (h : 2 * n + part.slack ≤ fuel) : ∃ k, fuel = k + 1 := by
  apply Nat.exists_eq_succ_of_ne_zero
  cases part <;> simp only [Part.slack] at h <;> omega

/-- A complete part is read as one. -/
theorem Makes.decode {part : Part} {s t : Bytes} (h : Makes part s t) :
    ∀ fuel, 2 * s.length + part.slack ≤ fuel → decodePart part fuel (full s) = .ok (true, full t) := by
  induction h with
  | int hs =>
    intro fuel hfuel
    obtain ⟨fuel, rfl⟩ := Part.fuel_succ hfuel
    rw [decodePart_int fuel _ hs, if_pos rfl]
  | str hc hstr =>
    intro fuel hfuel
    obtain ⟨fuel, rfl⟩ := Part.fuel_succ hfuel
    obtain ⟨key, hkey, -⟩ := beDecodeStr_full hstr
    rw [decodePart_str fuel _ hc, hkey]
    rfl
  | list _ ih =>
    intro fuel hfuel
    obtain ⟨fuel, rfl⟩ := Part.fuel_succ hfuel
    simp only [List.length_cons, Part.slack] at hfuel ih
    rw [decodePart_list]
    exact ih fuel (by omega)
  | dict _ ih =>
    intro fuel hfuel
    obtain ⟨fuel, rfl⟩ := Part.fuel_succ hfuel
    simp only [List.length_cons, Part.slack] at hfuel ih
    rw [decodePart_dict]
    exact ih fuel (by omega)
  | listEnd =>
    intro fuel hfuel
    obtain ⟨fuel, rfl⟩ := Part.fuel_succ hfuel
    exact decodePart_listEnd fuel _
  | element hc hmade _ ih₁ ih₂ =>
    intro fuel hfuel
    have hlt := hmade.length_lt
    obtain ⟨fuel, rfl⟩ := Part.fuel_succ hfuel
    simp only [Part.slack] at hfuel ih₁ ih₂
    rw [decodePart_element fuel _ hc, ih₁ fuel (by omega), ok_bind, if_pos rfl]
    exact ih₂ fuel (by omega)
  | dictEnd =>
    intro fuel hfuel
    obtain ⟨fuel, rfl⟩ := Part.fuel_succ hfuel
    exact decodePart_dictEnd fuel _
  | entry hc hstr hmade _ ih₁ ih₂ =>
    intro fuel hfuel
    have hle := hstr.length_le.2
    have hlt := hmade.length_lt
    obtain ⟨fuel, rfl⟩ := Part.fuel_succ hfuel
    simp only [Part.slack] at hfuel ih₁ ih₂
    obtain ⟨key, hkey, hb⟩ := beDecodeStr_full hstr
    rw [decodePart_entry fuel _ hc, hkey, ok_bind, ih₁ fuel (by omega), ok_bind, if_pos ⟨hb, rfl⟩]
    exact ih₂ fuel (by omega)

/-- A part that is cut off is read past its end. -/
theorem CutOff.decode {part : Part} {s : Bytes} (h : CutOff part s) :
    ∀ fuel, 2 * s.length + part.slack ≤ fuel → decodePart part fuel (full s) = .error .overread := by
  induction h with
  | int hun =>
    intro fuel hfuel
    obtain ⟨fuel, rfl⟩ := Part.fuel_succ hfuel
    exact decodePart_unended fuel _ hun
  | str hc hun =>
    intro fuel hfuel
    obtain ⟨fuel, rfl⟩ := Part.fuel_succ hfuel
    rw [decodePart_str fuel _ hc, beDecodeStr_unended hun]
    rfl
  | list _ ih =>
    intro fuel hfuel
    obtain ⟨fuel, rfl⟩ := Part.fuel_succ hfuel
    simp only [List.length_cons, Part.slack] at hfuel ih
    rw [decodePart_list]
    exact ih fuel (by omega)
  | dict _ ih =>
    intro fuel hfuel
    obtain ⟨fuel, rfl⟩ := Part.fuel_succ hfuel
    simp only [List.length_cons, Part.slack] at hfuel ih
    rw [decodePart_dict]
    exact ih fuel (by omega)
  | listEnd =>
    intro fuel hfuel
    obtain ⟨fuel, rfl⟩ := Part.fuel_succ hfuel
    exact decodePart_listNil fuel
  | element hc _ ih =>
    intro fuel hfuel
    obtain ⟨fuel, rfl⟩ := Part.fuel_succ hfuel
    simp only [Part.slack] at hfuel ih
    rw [decodePart_element fuel _ hc, ih fuel (by omega)]
    rfl
  | elements hc hmade _ ih =>
    intro fuel hfuel
    have hlt := hmade.length_lt
    obtain ⟨fuel, rfl⟩ := Part.fuel_succ hfuel
    simp only [Part.slack] at hfuel ih
    rw [decodePart_element fuel _ hc, hmade.decode fuel (by simp only [Part.slack]; omega), ok_bind, if_pos rfl]
    exact ih fuel (by omega)
  | dictEnd =>
    intro fuel hfuel
    obtain ⟨fuel, rfl⟩ := Part.fuel_succ hfuel
    exact decodePart_dictNil fuel
  | key hc hun =>
    intro fuel hfuel
    obtain ⟨fuel, rfl⟩ := Part.fuel_succ hfuel
    simp only [Part.slack] at hfuel
    rw [decodePart_entry fuel _ hc, beDecodeStr_unended hun]
    rfl
  | value hc hstr _ ih =>
    intro fuel hfuel
    have hle := hstr.length_le.2
    obtain ⟨fuel, rfl⟩ := Part.fuel_succ hfuel
    simp only [Part.slack] at hfuel ih
    obtain ⟨key, hkey, -⟩ := beDecodeStr_full hstr
    rw [decodePart_entry fuel _ hc, hkey, ok_bind, ih fuel (by omega)]
    rfl
  | entries hc hstr hmade _ ih =>
    intro fuel hfuel
    have hle := hstr.length_le.2
    have hlt := hmade.length_lt
    obtain ⟨fuel, rfl⟩ := Part.fuel_succ hfuel
    simp only [Part.slack] at hfuel ih
    obtain ⟨key, hkey, hb⟩ := beDecodeStr_full hstr
    rw [decodePart_entry fuel _ hc, hkey, ok_bind, hmade.decode fuel (by simp only [Part.slack]; omega), ok_bind,
      if_pos ⟨hb, rfl⟩]
    exact ih fuel (by omega)

/-! ### The moments of a decode -/

/-- What the pointer and the count come to be while `be_decoden` goes through the bytes `s`: where a
part starts, and, without a part, in between. -/
inductive Moment (s : Bytes) : Option Part → Cursor → Prop where
  | start : Moment s (some .node) (full s)
  | list {c : Cursor} {t : Bytes} : Moment s (some .node) c → c.data = 108 :: t →
      Moment s (some .list) ⟨t, c.len - 1⟩
  | dict {c : Cursor} {t : Bytes} : Moment s (some .node) c → c.data = 100 :: t →
      Moment s (some .dict) ⟨t, c.len - 1⟩
  | int {c : Cursor} {t : Bytes} : Moment s (some .node) c → c.data = 105 :: t → Moment s none ⟨t, c.len - 1⟩
  | numeral {c c' : Cursor} {i : ℤ} : Moment s none c → beDecodeInt c = .ok (i, c') → Moment s none c'
  /-- The `e` of an integer, a list or a dictionary. -/
  | stop {part : Option Part} {c : Cursor} {t : Bytes} : Moment s part c → c.data = 101 :: t →
      Moment s none ⟨t, c.len - 1⟩
  | length {part : Part} {c c' : Cursor} {i : ℤ} : Moment s (some part) c → beDecodeInt c = .ok (i, c') →
      Moment s none c'
  | str {c c' : Cursor} {key : Option Bytes} : Moment s (some .node) c → beDecodeStr c = .ok (key, c') →
      Moment s none c'
  | element {c : Cursor} : Moment s (some .list) c → Moment s (some .node) c
  | elements {c c' : Cursor} {fuel : ℕ} {n : BeNode} : Moment s (some .list) c →
      beDecodeNode fuel c = .ok (some n, c') → Moment s (some .list) c'
  | value {c c' : Cursor} {key : Option Bytes} : Moment s (some .dict) c → beDecodeStr c = .ok (key, c') →
      Moment s (some .node) c'
  | entries {c c' c'' : Cursor} {fuel : ℕ} {key : Bytes} {n : BeNode} : Moment s (some .dict) c →
      beDecodeStr c = .ok (some key, c') → beDecodeNode fuel c' = .ok (some n, c'') →
      Moment s (some .dict) c''

theorem beDecodeInt_eq_full {s : Bytes} {i : ℤ} {c : Cursor} (h : beDecodeInt (full s) = .ok (i, c)) :
    ∃ t, c = full t := by
  obtain ⟨⟨v, endp⟩, hs, -⟩ := bind_eq_ok.mp h
  rw [beDecodeInt_full (s := s) hs] at h
  cases h
  exact ⟨endp, rfl⟩

theorem beDecodeStr_eq_full {s : Bytes} {key : Option Bytes} {c : Cursor}
    (h : beDecodeStr (full s) = .ok (key, c)) : ∃ t, c = full t := by
  rcases strAt_total s with hun | ⟨b, t, hstr⟩
  · rw [beDecodeStr_unended hun] at h
    cases h
  · obtain ⟨key', hkey, -⟩ := beDecodeStr_full hstr
    rw [hkey] at h
    cases h
    exact ⟨t, rfl⟩

theorem beDecodeNode_eq_full {s : Bytes} {fuel : ℕ} {n : Option BeNode} {c : Cursor}
    (h : beDecodeNode fuel (full s) = .ok (n, c)) : ∃ t, c = full t := by
  have hpart : decodePart .node fuel (full s) = .ok (n.isSome, c) := by
    rw [decodePart, h]
    rfl
  cases comes fuel .node s with
  | fuel h' => cases hpart.symm.trans h'
  | past h' => cases hpart.symm.trans h'
  | @made t h' => exact ⟨t, (Prod.mk.inj (Except.ok.inj (hpart.symm.trans h'))).2⟩
  | @dropped t h' => exact ⟨t, (Prod.mk.inj (Except.ok.inj (hpart.symm.trans h'))).2⟩

/-- **The count is right at every moment**: it is the number of bytes that are left. -/
theorem Moment.full {s : Bytes} {part : Option Part} {c : Cursor} (h : Moment s part c) :
    ∃ t, c = full t := by
  induction h with
  | start => exact ⟨s, rfl⟩
  | list _ hc ih =>
    obtain ⟨t, rfl⟩ := ih
    cases (show t = _ from hc)
    exact ⟨_, full_tail 108 _⟩
  | dict _ hc ih =>
    obtain ⟨t, rfl⟩ := ih
    cases (show t = _ from hc)
    exact ⟨_, full_tail 100 _⟩
  | int _ hc ih =>
    obtain ⟨t, rfl⟩ := ih
    cases (show t = _ from hc)
    exact ⟨_, full_tail 105 _⟩
  | numeral _ hi ih =>
    obtain ⟨t, rfl⟩ := ih
    exact beDecodeInt_eq_full hi
  | stop _ hc ih =>
    obtain ⟨t, rfl⟩ := ih
    cases (show t = _ from hc)
    exact ⟨_, full_tail 101 _⟩
  | length _ hi ih =>
    obtain ⟨t, rfl⟩ := ih
    exact beDecodeInt_eq_full hi
  | str _ hs ih =>
    obtain ⟨t, rfl⟩ := ih
    exact beDecodeStr_eq_full hs
  | element _ ih => exact ih
  | elements _ hn ih =>
    obtain ⟨t, rfl⟩ := ih
    exact beDecodeNode_eq_full hn
  | value _ hs ih =>
    obtain ⟨t, rfl⟩ := ih
    exact beDecodeStr_eq_full hs
  | entries _ hs hn ih =>
    obtain ⟨t, rfl⟩ := ih
    obtain ⟨u, rfl⟩ := beDecodeStr_eq_full hs
    exact beDecodeNode_eq_full hn

/-! ### Loading a file -/

/-- A load comes to an end and stays inside the bytes of the file, and its count does not become
negative. -/
structure StaysInside (data : Bytes) : Prop where
  ends : ∃ root, beNodeLoadfile (some data) = .ok root
  counts : ∀ part c, Moment data part c → 0 ≤ c.len

theorem beNodeLoadfile_eq (data : Bytes) :
    beNodeLoadfile (some data) = beDecoden data data.length := by
  cases data <;> rfl

/-- The decoder gets to an end of a buffer that is not cut off. -/
theorem beDecoden_isOk_iff (data : Bytes) :
    (∃ root, beDecoden data data.length = .ok root) ↔ ¬ CutOff .node data := by
  have hpart : decodePart .node (2 * data.length + 2) (full data) =
      (beDecodeNode (2 * data.length + 2) (full data)).map fun r => (r.1.isSome, r.2) := rfl
  constructor
  · rintro ⟨root, hroot⟩ hcut
    obtain ⟨⟨n, c⟩, hn, -⟩ := bind_eq_ok.mp hroot
    have hover := hcut.decode (2 * data.length + 2) (by simp [Part.slack])
    rw [hpart, full, hn] at hover
    cases hover
  · intro hcut
    have hfuel := beDecoden_ne_fuel data data.length
    unfold beDecoden at hfuel ⊢
    change (beDecodeNode _ (full data) >>= _) ≠ _ at hfuel
    change ∃ root, (beDecodeNode _ (full data) >>= _) = _
    cases hn : beDecodeNode (2 * data.length + 2) (full data) with
    | ok r => exact ⟨_, rfl⟩
    | error e =>
      rw [hn] at hpart hfuel
      cases comes (2 * data.length + 2) .node data with
      | fuel h =>
        rw [hpart] at h
        cases h
        exact absurd rfl hfuel
      | past h hcut' => exact absurd hcut' hcut
      | made h => cases hpart.symm.trans h
      | dropped h => cases hpart.symm.trans h

/-- The files that the program writes are not cut off. -/
theorem not_cutOff_text {root : BeNode} (hwf : root.Wf) (h : root.text.length < INT_MAX) :
    ¬ CutOff .node root.text := by
  rw [← beDecoden_isOk_iff, ← beNodeLoadfile_eq]
  exact ⟨_, beNodeLoadfile_text hwf h⟩

/-- **A load stays inside the file** if and only if the file is not cut off. -/
theorem loadfile_inside_iff (data : Bytes) : StaysInside data ↔ ¬ CutOff .node data := by
  rw [← beDecoden_isOk_iff, ← beNodeLoadfile_eq]
  constructor
  · exact StaysInside.ends
  · intro h
    refine ⟨h, fun part c hc => ?_⟩
    obtain ⟨t, rfl⟩ := hc.full
    exact Int.natCast_nonneg t.length

/-- A list that is opened and not closed. -/
theorem open_list_overread : ¬ StaysInside (ascii "l") := by
  rintro ⟨⟨root, h⟩, -⟩
  rw [show beNodeLoadfile (some (ascii "l")) = .error .overread from rfl] at h
  cases h

end ToxSuite.File
