import ToxSuite.Friend.Tox

/-!
# `misc.c`: a stream to a friend

`friend_message` writes its answer into a stream, whose buffer `toxstream_write` sends to the
friend. Tox takes a limited number of bytes at once, so the buffer is sent in slices, one after
the other, until one of them fails. No sum of offset and length wraps around, since none is
more than the size of the buffer.

Whatever Tox answers, nothing is lost or sent twice before the first failure
(`toxstreamWrite_splits`).
-/

namespace ToxSuite.Command

open ToxSuite.Lib ToxSuite.Friend

/-! ### The code -/

/-- A call of `tox_friend_send_message`: what is sent, and whether the error is
`TOX_ERR_FRIEND_SEND_MESSAGE_OK`. -/
structure Send where
  message : Bytes
  ok : Bool
  deriving DecidableEq

/-- What `tox_friend_send_message` reads. -/
def slice (message : Bytes) (offset length : ℕ) : Except Fault Bytes :=
  if offset + length ≤ message.length then pure ((message.drop offset).take length) else .error .overread

/-- The `for` of `toxstream_write` from an offset on, its next call being the `k`-th: the calls, and
what is returned. -/
def streamFrom (message : Bytes) (size : ℕ) (sends : ℕ → Bool) (offset k : ℕ) : Except Fault (List Send × ℕ) :=
  if offset < size then do
    let length := if size - offset > TOX_MAX_MESSAGE_LENGTH then TOX_MAX_MESSAGE_LENGTH else size - offset
    let sent ← slice message offset length
    if sends k then do
      let (calls, rc) ← streamFrom message size sends (offset + length) (k + 1)
      pure (⟨sent, true⟩ :: calls, rc)
    else pure ([⟨sent, false⟩], 0)
  else pure ([], offset)
termination_by size - offset
decreasing_by
  unfold TOX_MAX_MESSAGE_LENGTH
  split <;> omega

/-- `toxstream_write`. The `k`-th call of `tox_friend_send_message` succeeds if `sends k`. -/
def toxstreamWrite (message : Bytes) (size : ℕ) (sends : ℕ → Bool) : Except Fault (List Send × ℕ) :=
  streamFrom message size sends 0 0

/-! ### Slices -/

/-- The calls split what there is to send, up to a failure; `total` is returned if there is none. -/
structure Splits (bytes : Bytes) (total : ℕ) (calls : List Send) (rc : ℕ) : Prop where
  /-- Each call has something to send, and no more than Tox takes. -/
  bounded : ∀ c ∈ calls, c.message ≠ [] ∧ c.message.length ≤ TOX_MAX_MESSAGE_LENGTH
  /-- They are consecutive slices, from the beginning on. -/
  consecutive : (calls.map Send.message).flatten <+: bytes
  /-- If they all succeed, everything is sent. -/
  whole : (∀ c ∈ calls, c.ok = true) → (calls.map Send.message).flatten = bytes ∧ rc = total
  /-- The first that fails is the last one, and `0` is returned. -/
  stops : ∀ before c after, calls = before ++ c :: after → c.ok = false →
    (∀ b ∈ before, b.ok = true) ∧ after = [] ∧ rc = 0
  /-- What is sent is a beginning. -/
  delivered : ((calls.filter Send.ok).map Send.message).flatten <+: bytes
  /-- There are not more of them than it takes. -/
  few : calls.length ≤ (bytes.length + TOX_MAX_MESSAGE_LENGTH - 1) / TOX_MAX_MESSAGE_LENGTH

/-- Nothing is left. -/
theorem splits_nil (total : ℕ) : Splits [] total [] total where
  bounded := by simp
  consecutive := List.prefix_refl _
  whole := by simp
  stops := by simp
  delivered := List.prefix_refl _
  few := by simp

/-- A slice fails. -/
theorem splits_fail {sent rest : Bytes} (total : ℕ) (hne : sent ≠ []) (hle : sent.length ≤ TOX_MAX_MESSAGE_LENGTH) :
    Splits (sent ++ rest) total [⟨sent, false⟩] 0 where
  bounded := by simpa using ⟨hne, hle⟩
  consecutive := by simp
  whole := by simp
  stops := by
    intro before c after h _
    cases before with
    | nil =>
      cases h
      exact ⟨by simp, rfl, rfl⟩
    | cons b before =>
      have := (List.cons.inj h).2
      cases before <;> cases this
  delivered := by simp
  few := by
    have : 0 < sent.length := List.length_pos_iff.mpr hne
    rw [List.length_singleton, Nat.le_div_iff_mul_le (by decide), List.length_append]
    omega

/-- A slice is sent, and the rest is split. -/
theorem splits_cons {sent rest : Bytes} {total rc : ℕ} {calls : List Send} (hne : sent ≠ [])
    (hle : sent.length ≤ TOX_MAX_MESSAGE_LENGTH)
    (hfull : rest ≠ [] → sent.length = TOX_MAX_MESSAGE_LENGTH) (h : Splits rest total calls rc) :
    Splits (sent ++ rest) total (⟨sent, true⟩ :: calls) rc where
  bounded := List.forall_mem_cons.mpr ⟨⟨hne, hle⟩, h.bounded⟩
  consecutive := by
    rw [List.map_cons, List.flatten_cons]
    exact (List.prefix_append_right_inj sent).mpr h.consecutive
  whole := by
    intro hok
    obtain ⟨hall, hrc⟩ := h.whole (List.forall_mem_cons.mp hok).2
    rw [List.map_cons, List.flatten_cons, hall]
    exact ⟨rfl, hrc⟩
  stops := by
    intro before c after hcalls hc
    cases before with
    | nil =>
      cases hcalls
      cases hc
    | cons b before =>
      obtain ⟨rfl, htail⟩ := List.cons.inj hcalls
      obtain ⟨hbefore, hafter, hrc⟩ := h.stops before c after htail hc
      exact ⟨List.forall_mem_cons.mpr ⟨rfl, hbefore⟩, hafter, hrc⟩
  delivered := by
    rw [List.filter_cons_of_pos rfl, List.map_cons, List.flatten_cons]
    exact (List.prefix_append_right_inj sent).mpr h.delivered
  few := by
    have hpos : 0 < sent.length := List.length_pos_iff.mpr hne
    have hfew := h.few
    have hrest : rest.length ≠ 0 → sent.length = TOX_MAX_MESSAGE_LENGTH := by
      intro hlen
      apply hfull
      rintro rfl
      exact hlen rfl
    rw [List.length_cons, List.length_append]
    unfold TOX_MAX_MESSAGE_LENGTH at hfew hrest ⊢
    omega

/-- A slice inside the buffer is what comes next of it. -/
theorem slice_spec {message : Bytes} {size offset length : ℕ} (hsize : size ≤ message.length)
    (hend : offset + length ≤ size) :
    ∃ sent, slice message offset length = .ok sent ∧ sent.length = length ∧
      (message.take size).drop offset = sent ++ (message.take size).drop (offset + length) := by
  refine ⟨_, if_pos (hend.trans hsize), ?_, ?_⟩
  · rw [List.length_take, List.length_drop]
    omega
  · rw [← List.drop_drop, List.drop_take]
    conv_lhs => rw [← List.take_append_drop length ((message.drop offset).take (size - offset))]
    rw [List.take_take, min_eq_left (by omega)]

/-- The length of the next slice: it is full if it is not the last one. -/
theorem slice_length {size offset length : ℕ} (hlt : offset < size) (hlength : length =
    if size - offset > TOX_MAX_MESSAGE_LENGTH then TOX_MAX_MESSAGE_LENGTH else size - offset) :
    0 < length ∧ length ≤ TOX_MAX_MESSAGE_LENGTH ∧ offset + length ≤ size ∧
      (offset + length < size → length = TOX_MAX_MESSAGE_LENGTH) := by
  unfold TOX_MAX_MESSAGE_LENGTH at hlength ⊢
  split_ifs at hlength <;> omega

/-- From any offset on, what is left is split. -/
theorem streamFrom_spec {message : Bytes} {size : ℕ} (hsize : size ≤ message.length) (sends : ℕ → Bool) :
    ∀ (n offset k : ℕ), offset ≤ size → size - offset = n →
      ∃ calls rc, streamFrom message size sends offset k = .ok (calls, rc) ∧
        (∀ j c, calls[j]? = some c → c.ok = sends (k + j)) ∧
        Splits ((message.take size).drop offset) size calls rc := by
  intro n
  induction n using Nat.strong_induction_on with
  | _ n ih =>
    intro offset k hoffset hn
    rw [streamFrom]
    by_cases hlt : offset < size
    · rw [if_pos hlt]
      obtain ⟨length, hlength⟩ : ∃ length, length =
          if size - offset > TOX_MAX_MESSAGE_LENGTH then TOX_MAX_MESSAGE_LENGTH else size - offset := ⟨_, rfl⟩
      obtain ⟨hpos, hle, hend, hfull⟩ := slice_length hlt hlength
      obtain ⟨sent, hslice, hlen, hsplit⟩ := slice_spec hsize hend
      have hne : sent ≠ [] := List.length_pos_iff.mp (hlen.symm ▸ hpos)
      simp only [← hlength, hslice, ok_bind]
      rw [hsplit]
      by_cases hsend : sends k = true
      · obtain ⟨calls, rc, hrun, hok, hsplits⟩ := ih _ (by omega) (offset + length) (k + 1) hend rfl
        refine ⟨⟨sent, true⟩ :: calls, rc, by rw [if_pos hsend, hrun]; rfl, ?_, ?_⟩
        · intro j c hc
          cases j with
          | zero =>
            cases hc
            exact hsend.symm
          | succ j =>
            rw [Nat.add_succ, ← Nat.succ_add]
            exact hok j c hc
        · refine splits_cons hne (hlen.trans_le hle) (fun hrest => hlen.trans (hfull ?_)) hsplits
          by_contra hlast
          exact hrest (List.drop_of_length_le (by rw [List.length_take]; omega))
      · refine ⟨[⟨sent, false⟩], 0, if_neg hsend, ?_, splits_fail size hne (hlen.trans_le hle)⟩
        intro j c hc
        cases j with
        | zero =>
          cases hc
          simpa using Eq.symm (Bool.eq_false_iff.mpr hsend)
        | succ j => cases hc
    · rw [if_neg hlt]
      have hall : (message.take size).drop offset = [] := List.drop_of_length_le (by rw [List.length_take]; omega)
      refine ⟨[], offset, rfl, by simp, ?_⟩
      rw [hall, Nat.le_antisymm hoffset (Nat.le_of_not_lt hlt)]
      exact splits_nil size

/-- **The buffer is split without loss**, whatever Tox answers: the calls are consecutive slices of
it; if all succeed they are the whole of it and its size is returned; and none comes after one
that fails. -/
theorem toxstreamWrite_splits {message : Bytes} {size : ℕ} (hsize : size ≤ message.length) (sends : ℕ → Bool) :
    ∃ calls rc, toxstreamWrite message size sends = .ok (calls, rc) ∧
      (∀ k c, calls[k]? = some c → c.ok = sends k) ∧ Splits (message.take size) size calls rc := by
  obtain ⟨calls, rc, h, hok, hsplits⟩ := streamFrom_spec hsize sends _ 0 0 (Nat.zero_le _) rfl
  simp only [Nat.zero_add] at hok
  exact ⟨calls, rc, h, hok, hsplits⟩

/-- A buffer of twice what Tox takes is sent in two slices, if both succeed. -/
theorem toxstreamWrite_splits_twice :
    ∃ calls, toxstreamWrite (List.replicate 2744 97) 2744 (fun _ => true) = .ok (calls, 2744) ∧
      (calls.map Send.message).flatten = List.replicate 2744 97 ∧ calls.length ≤ 2 := by
  obtain ⟨calls, rc, h, hok, hsplits⟩ :=
    @toxstreamWrite_splits (List.replicate 2744 97) 2744 (by rw [List.length_replicate]) fun _ => true
  have hall : ∀ c ∈ calls, c.ok = true := by
    intro c hc
    obtain ⟨k, hk⟩ := List.mem_iff_getElem?.mp hc
    exact hok k c hk
  obtain ⟨hwhole, rfl⟩ := hsplits.whole hall
  refine ⟨calls, h, hwhole.trans (List.take_of_length_le (by rw [List.length_replicate])), ?_⟩
  have hfew := hsplits.few
  rwa [List.length_take, List.length_replicate] at hfew

end ToxSuite.Command
