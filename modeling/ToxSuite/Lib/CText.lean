import Mathlib.Data.Nat.Digits.Lemmas
import Mathlib.Data.List.TakeWhile
import Mathlib.Tactic.IntervalCases

/-!
# C strings, numerals and buffers

What a C program may do with text, as functions on lists of bytes: strings end
at their first NUL (`cstr`), `"%lld"` prints a numeral (`decInt`) and `strtoll`
reads one, `snprintf` and `memcpy` write inside an allocation and `strlen` looks
for a NUL in it. An allocation is the list of its bytes; a pointer into it is an
offset, or the bytes from the pointer to the allocation's end. Reading or
writing outside an allocation, following a null pointer and the like have no
meaning in C: a computation that does so ends in a `Fault`.

`strtoll_decInt` is the round trip of numerals; `snprintf_spec` and `poke_spec`
say what a write that has room leaves in the buffer.
-/

namespace ToxSuite.Lib

/-- A sequence of bytes. -/
abbrev Bytes := List UInt8

/-- An array of `n` bytes. -/
abbrev Vec (n : ℕ) := {b : Bytes // b.length = n}

/-- Why a C computation has no further meaning. -/
inductive Fault where
  /-- A read outside an allocation. -/
  | overread
  /-- A write outside an allocation. -/
  | overflow
  /-- A null pointer was followed. -/
  | null
  /-- A union was read as another variant than the one it holds. -/
  | variant
  /-- A size that does not fit an `int` was stored in one. -/
  | intRange
  /-- A signed 64-bit operation left its type. -/
  | longRange
  /-- A division by zero. -/
  | divZero
  /-- An allocation was used after it was given back. -/
  | released
  /-- The evaluation ran out of fuel (no C behaviour). -/
  | fuel
  deriving DecidableEq, Repr

/-! ### Sequencing -/

section Except

variable {ε α β : Type}

@[simp] theorem ok_bind (a : α) (f : α → Except ε β) : (Except.ok a >>= f) = f a := rfl

@[simp] theorem error_bind (e : ε) (f : α → Except ε β) : (Except.error e >>= f) = Except.error e := rfl

@[simp] theorem pure_eq_ok (a : α) : (pure a : Except ε α) = Except.ok a := rfl

/-- A sequence succeeds when both of its parts do. -/
theorem bind_eq_ok {x : Except ε α} {f : α → Except ε β} {b : β} :
    (x >>= f) = .ok b ↔ ∃ a, x = .ok a ∧ f a = .ok b := by
  cases x with
  | error e => simp
  | ok a => simp

/-- A sequence fails with its first part or with its second. -/
theorem bind_eq_error {x : Except ε α} {f : α → Except ε β} {e : ε} :
    (x >>= f) = .error e ↔ x = .error e ∨ ∃ a, x = .ok a ∧ f a = .error e := by
  cases x with
  | error e' => simp
  | ok a => simp

theorem map_eq_ok {x : Except ε α} {f : α → β} {b : β} : x.map f = .ok b ↔ ∃ a, x = .ok a ∧ f a = b := by
  cases x <;> simp [Except.map]

/-- A sequence has a result when both of its parts have. -/
theorem bind_isOk {x : Except ε α} {f : α → Except ε β} :
    (∃ b, (x >>= f) = .ok b) ↔ ∃ a, x = .ok a ∧ ∃ b, f a = .ok b := by
  simp only [bind_eq_ok]
  rw [exists_comm]
  simp only [exists_and_left]

/-- A branch on a test that may itself fail. -/
theorem bind_ite_eq_ok {x : Except ε Bool} {y z : Except ε β} {b : β} :
    (x >>= fun c => if c = true then y else z) = .ok b ↔
      (x = .ok true ∧ y = .ok b) ∨ (x = .ok false ∧ z = .ok b) := by
  cases x with
  | error e => simp
  | ok c => cases c <;> simp

theorem toOption_eq_some {x : Except ε α} {a : α} : x.toOption = some a ↔ x = .ok a := by
  cases x <;> simp [Except.toOption]

end Except

/-! ### Strings -/

/-- The ASCII bytes of a literal. -/
def ascii (s : String) : Bytes := s.toList.map fun c => UInt8.ofNat c.toNat

/-- The string a pointer to these bytes denotes: everything before the first NUL. -/
def cstr (b : Bytes) : Bytes := b.takeWhile (· ≠ 0)

/-- A C string: bytes without a NUL. -/
structure CStr where
  /-- The bytes before the terminator. -/
  bytes : Bytes
  /-- None of them is the terminator. -/
  noNul : (0 : UInt8) ∉ bytes
  deriving DecidableEq

theorem zero_notMem_cstr (b : Bytes) : (0 : UInt8) ∉ cstr b := by
  intro h
  have := List.mem_takeWhile_imp h
  simp at this

/-- `strdup`. -/
def CStr.ofBytes (b : Bytes) : CStr := ⟨cstr b, zero_notMem_cstr b⟩

theorem cstr_append_nul {b : Bytes} (h : (0 : UInt8) ∉ b) (rest : Bytes) : cstr (b ++ 0 :: rest) = b := by
  induction b with
  | nil => simp [cstr]
  | cons x b ih =>
    simp only [List.mem_cons, not_or] at h
    simp only [cstr, List.cons_append] at ih ⊢
    rw [List.takeWhile_cons_of_pos (by simpa using Ne.symm h.1), ih h.2]

theorem cstr_of_notMem {b : Bytes} (h : (0 : UInt8) ∉ b) : cstr b = b := by
  rw [cstr, List.takeWhile_eq_self_iff]
  intro x hx
  simp only [ne_eq, decide_eq_true_eq]
  rintro rfl
  exact h hx

@[simp] theorem CStr.ofBytes_bytes (s : CStr) : CStr.ofBytes s.bytes = s := by
  cases s with
  | mk b h => simp [CStr.ofBytes, cstr_of_notMem h]

/-! ### Numerals -/

/-- `isdigit`. -/
def isDigit (c : UInt8) : Bool := 48 ≤ c && c ≤ 57

/-- `isspace`, in the C locale. -/
def isSpace (c : UInt8) : Bool := (9 ≤ c && c ≤ 13) || c == 32

/-- The digit `d`. -/
def digitChar (d : ℕ) : UInt8 := UInt8.ofNat (48 + d)

/-- The value of a digit. -/
def digitVal (c : UInt8) : ℕ := c.toNat - 48

/-- The value of a sequence of digits, the first the most significant. -/
def digitsVal (ds : Bytes) : ℕ := Nat.ofDigits 10 (ds.reverse.map digitVal)

/-- The decimal numeral of a natural number. -/
def decNat (n : ℕ) : Bytes := if n = 0 then [48] else (Nat.digits 10 n).reverse.map digitChar

/-- What `"%lld"` prints. -/
def decInt (i : ℤ) : Bytes := if i < 0 then 45 :: decNat i.natAbs else decNat i.natAbs

theorem decInt_natCast (n : ℕ) : decInt (n : ℤ) = decNat n := by
  rw [decInt, if_neg (by omega), Int.natAbs_natCast]

theorem isDigit_digitChar {d : ℕ} (h : d < 10) : isDigit (digitChar d) = true := by
  interval_cases d <;> decide

theorem digitVal_digitChar {d : ℕ} (h : d < 10) : digitVal (digitChar d) = d := by
  interval_cases d <;> decide

theorem isDigit_of_mem_decNat {n : ℕ} {c : UInt8} (h : c ∈ decNat n) : isDigit c = true := by
  unfold decNat at h
  split_ifs at h with hn
  · rw [List.mem_singleton] at h
    subst h
    decide
  · rw [List.map_reverse, List.mem_reverse, List.mem_map] at h
    obtain ⟨d, hd, rfl⟩ := h
    exact isDigit_digitChar (Nat.digits_lt_base (by norm_num) hd)

theorem decNat_ne_nil (n : ℕ) : decNat n ≠ [] := by
  unfold decNat
  split_ifs with hn
  · simp
  · rw [ne_eq, List.map_eq_nil_iff, List.reverse_eq_nil_iff, Nat.digits_eq_nil_iff_eq_zero]
    exact hn

theorem digitsVal_decNat (n : ℕ) : digitsVal (decNat n) = n := by
  unfold decNat
  split_ifs with hn
  · subst hn
    decide
  · rw [digitsVal, ← List.map_reverse, List.reverse_reverse, List.map_map]
    have hmap : (Nat.digits 10 n).map (digitVal ∘ digitChar) = Nat.digits 10 n := by
      conv_rhs => rw [← List.map_id (Nat.digits 10 n)]
      apply List.map_congr_left
      intro d hd
      exact digitVal_digitChar (Nat.digits_lt_base (by norm_num) hd)
    rw [hmap, Nat.ofDigits_digits]

theorem decNat_injective : Function.Injective decNat := fun m n h => by
  rw [← digitsVal_decNat m, h, digitsVal_decNat]

/-- A numeral has as many digits as it needs. -/
theorem length_decNat_le {n k : ℕ} (hk : 0 < k) (h : n < 10 ^ k) : (decNat n).length ≤ k := by
  unfold decNat
  split_ifs with h0
  · exact hk
  · rw [List.length_map, List.length_reverse]
    exact (Nat.digits_length_le_iff (by norm_num) _).mpr h

theorem digitVal_lt {c : UInt8} (h : isDigit c = true) : digitVal c < 10 := by
  simp only [isDigit, decide_eq_true_eq, Bool.and_eq_true] at h
  unfold digitVal
  have h₁ := UInt8.le_iff_toNat_le.mp h.1
  have h₂ := UInt8.le_iff_toNat_le.mp h.2
  simp at h₁ h₂ ⊢
  omega

/-- The beginning of a numeral is a smaller number. -/
theorem digitsVal_lt_of_prefix {n : ℕ} {ds es : Bytes} (h : decNat n = ds ++ es) (hds : ds ≠ []) (hes : es ≠ []) :
    digitsVal ds < n := by
  have hval : digitsVal (ds ++ es) = digitsVal es + 10 ^ es.length * digitsVal ds := by
    simp [digitsVal, Nat.ofDigits_append]
  have hn : n = digitsVal es + 10 ^ es.length * digitsVal ds := by
    rw [← hval, ← h, digitsVal_decNat]
  have hpos : 0 < digitsVal ds := by
    by_contra hzero
    have hlt : digitsVal es < 10 ^ es.length := by
      have := Nat.ofDigits_lt_base_pow_length (b := 10) (l := es.reverse.map digitVal) (by norm_num) ?_
      · simpa [digitsVal] using this
      · intro d hd
        obtain ⟨c, hc, rfl⟩ := List.mem_map.mp hd
        exact digitVal_lt (isDigit_of_mem_decNat (h ▸ List.mem_append_right ds (List.mem_reverse.mp hc)))
    have hlen := length_decNat_le (List.length_pos_iff.mpr hes) (show n < 10 ^ es.length by
      rw [hn, Nat.eq_zero_of_not_pos hzero]
      simpa using hlt)
    rw [h, List.length_append] at hlen
    have := List.length_pos_iff.mpr hds
    omega
  have hten : 10 ≤ 10 ^ es.length := Nat.le_self_pow (List.length_pos_iff.mpr hes).ne' 10
  calc digitsVal ds < 10 * digitsVal ds := by omega
    _ ≤ 10 ^ es.length * digitsVal ds := Nat.mul_le_mul_right _ hten
    _ ≤ n := hn ▸ Nat.le_add_left _ _

/-- A numeral is not empty, and its first digit is no space and no sign. -/
theorem decNat_head (n : ℕ) : ∃ c t, decNat n = c :: t ∧ isDigit c = true := by
  cases h : decNat n with
  | nil => exact absurd h (decNat_ne_nil n)
  | cons c t => exact ⟨c, t, rfl, isDigit_of_mem_decNat (n := n) (by simp [h])⟩

theorem isSpace_of_isDigit {c : UInt8} (h : isDigit c = true) : isSpace c = false := by
  simp only [isDigit, isSpace, Bool.and_eq_true, decide_eq_true_eq, Bool.or_eq_false_iff,
    Bool.and_eq_false_iff, decide_eq_false_iff_not, beq_eq_false_iff_ne, UInt8.le_iff_toNat_le] at h ⊢
  have h13 : (13 : UInt8).toNat = 13 := rfl
  have h48 : (48 : UInt8).toNat = 48 := rfl
  refine ⟨.inr (by omega), ?_⟩
  rintro rfl
  simp at h

theorem ne_zero_of_isDigit {c : UInt8} (h : isDigit c = true) : c ≠ 0 := by
  rintro rfl
  exact absurd h (by decide)

theorem zero_notMem_decNat (n : ℕ) : (0 : UInt8) ∉ decNat n :=
  fun h => ne_zero_of_isDigit (isDigit_of_mem_decNat h) rfl

theorem zero_notMem_decInt (i : ℤ) : (0 : UInt8) ∉ decInt i := by
  unfold decInt
  split_ifs
  · simpa using zero_notMem_decNat i.natAbs
  · exact zero_notMem_decNat i.natAbs

/-- The digits at the head of a text that goes on with something else. -/
theorem takeWhile_isDigit {ds : Bytes} (hds : ∀ c ∈ ds, isDigit c = true) {c : UInt8}
    (hc : isDigit c = false) (rest : Bytes) :
    (ds ++ c :: rest).takeWhile isDigit = ds ∧ (ds ++ c :: rest).dropWhile isDigit = c :: rest := by
  induction ds with
  | nil => simp [hc]
  | cons d ds ih =>
    have hd : isDigit d = true := hds d (by simp)
    have ih := ih fun x hx => hds x (by simp [hx])
    simp [hd, ih.1, ih.2]

/-- The largest `long long`. -/
def LLONG_MAX : ℤ := 2 ^ 63 - 1

/-- The smallest `long long`. -/
def LLONG_MIN : ℤ := -2 ^ 63

/-- `strtoll` saturates. -/
def clampLL (i : ℤ) : ℤ := max LLONG_MIN (min LLONG_MAX i)

theorem clampLL_of_range {i : ℤ} (h₁ : LLONG_MIN ≤ i) (h₂ : i ≤ LLONG_MAX) : clampLL i = i := by
  unfold clampLL
  rw [min_eq_right h₂, max_eq_right h₁]

/-- An optional sign: whether it is a minus, and what follows it. -/
def takeSign : Bytes → Bool × Bytes
  | 45 :: t => (true, t)
  | 43 :: t => (false, t)
  | s => (false, s)

theorem takeSign_of_isDigit {c : UInt8} (h : isDigit c = true) (t : Bytes) :
    takeSign (c :: t) = (false, c :: t) := by
  unfold takeSign
  split
  · next heq => cases heq; exact absurd h (by decide)
  · next heq => cases heq; exact absurd h (by decide)
  · rfl

/-- `strtoll(s, &end, 10)` on a pointer to `s`, the rest of an allocation: the value
and what `end` points to. Spaces are skipped, a sign is optional; without a
digit nothing is consumed and the value is `0`. The scan reads the byte after
the last digit, so an allocation that ends with the digits is read past its end. -/
def strtoll (s : Bytes) : Except Fault (ℤ × Bytes) :=
  let (minus, t) := takeSign (s.dropWhile isSpace)
  let ds := t.takeWhile isDigit
  match t.dropWhile isDigit with
  | [] => .error .overread
  | c :: rest =>
    if ds = [] then .ok (0, s)
    else .ok (clampLL (if minus then -(digitsVal ds : ℤ) else digitsVal ds), c :: rest)

theorem takeSign_suffix (s : Bytes) : (takeSign s).2 <:+ s := by
  unfold takeSign
  split
  · exact List.suffix_cons _ _
  · exact List.suffix_cons _ _
  · exact List.suffix_refl _

/-- `strtoll` runs out of an allocation or stops inside it, where it started or later. -/
theorem strtoll_cases (s : Bytes) :
    strtoll s = .error .overread ∨ ∃ v endp, strtoll s = .ok (v, endp) ∧ endp <:+ s := by
  have hdrop : (takeSign (s.dropWhile isSpace)).2.dropWhile isDigit <:+ s :=
    (List.dropWhile_suffix _).trans ((takeSign_suffix _).trans (List.dropWhile_suffix _))
  unfold strtoll
  dsimp only
  split
  · exact .inl rfl
  · next c rest heq =>
    rw [heq] at hdrop
    split_ifs with hds
    · exact .inr ⟨_, _, rfl, List.suffix_refl _⟩
    · exact .inr ⟨_, _, rfl, hdrop⟩
    · exact .inr ⟨_, _, rfl, hdrop⟩

/-- What is left after a numeral is the end of what there was. -/
theorem strtoll_suffix {s endp : Bytes} {v : ℤ} (h : strtoll s = .ok (v, endp)) : endp <:+ s := by
  rcases strtoll_cases s with h' | ⟨v', endp', h', hsuf⟩
  · rw [h] at h'
    cases h'
  · rw [h] at h'
    cases h'
    exact hsuf

/-- A numeral that an allocation ends with: spaces, an optional sign, digits, and nothing after
them. -/
def Unended (s : Bytes) : Prop :=
  ∃ sp sg ds : Bytes, s = sp ++ (sg ++ ds) ∧ (∀ c ∈ sp, isSpace c = true) ∧ (sg = [] ∨ sg = [45] ∨ sg = [43]) ∧
    ∀ c ∈ ds, isDigit c = true

theorem takeSign_digits {ds : Bytes} (h : ∀ c ∈ ds, isDigit c = true) : takeSign ds = (false, ds) := by
  cases ds with
  | nil => rfl
  | cons c ds => exact takeSign_of_isDigit (h c List.mem_cons_self) ds

theorem takeSign_split (s : Bytes) : ∃ sg : Bytes, (sg = [] ∨ sg = [45] ∨ sg = [43]) ∧ s = sg ++ (takeSign s).2 := by
  unfold takeSign
  split
  · exact ⟨[45], by simp, rfl⟩
  · exact ⟨[43], by simp, rfl⟩
  · exact ⟨[], by simp, rfl⟩

/-- What `strtoll` makes of a numeral that ends with the allocation. -/
theorem dropWhile_isDigit_eq_nil {s : Bytes} :
    (takeSign (s.dropWhile isSpace)).2.dropWhile isDigit = [] ↔ Unended s := by
  constructor
  · intro h
    obtain ⟨sg, hsg, hsplit⟩ := takeSign_split (s.dropWhile isSpace)
    refine ⟨s.takeWhile isSpace, sg, _, ?_, fun c hc => List.mem_takeWhile_imp hc, hsg,
      List.dropWhile_eq_nil_iff.mp h⟩
    rw [← hsplit, List.takeWhile_append_dropWhile]
  · rintro ⟨sp, sg, ds, rfl, hsp, hsg, hds⟩
    have hhead : ∀ c t, sg ++ ds = c :: t → isSpace c = false := by
      intro c t h
      rcases hsg with rfl | rfl | rfl
      · exact isSpace_of_isDigit (hds c (by rw [show ds = c :: t from h]; exact List.mem_cons_self))
      · cases h
        rfl
      · cases h
        rfl
    have hskip : (sp ++ (sg ++ ds)).dropWhile isSpace = sg ++ ds := by
      rw [List.dropWhile_append_of_pos hsp]
      cases hrest : sg ++ ds with
      | nil => rfl
      | cons c t => exact List.dropWhile_cons_of_neg (by simp [hhead c t hrest])
    have hsign : (takeSign (sg ++ ds)).2 = ds := by
      rcases hsg with rfl | rfl | rfl
      · exact congrArg Prod.snd (takeSign_digits hds)
      · rfl
      · rfl
    rw [hskip, hsign]
    exact List.dropWhile_eq_nil_iff.mpr hds

/-- **`strtoll` reads past an allocation** if and only if the numeral in it does not end. -/
theorem strtoll_overread_iff {s : Bytes} : strtoll s = .error .overread ↔ Unended s := by
  rw [← dropWhile_isDigit_eq_nil]
  unfold strtoll
  dsimp only
  split
  · next h => simp [h]
  · next c rest h =>
    rw [h]
    split_ifs <;> simp

/-- Where `strtoll` stops, there is a byte. -/
theorem strtoll_ne_nil {s : Bytes} {v : ℤ} {endp : Bytes} (h : strtoll s = .ok (v, endp)) : endp ≠ [] := by
  unfold strtoll at h
  dsimp only at h
  split at h
  · cases h
  · next c rest heq =>
    split_ifs at h
    · cases h
      rintro rfl
      cases heq
    · cases h
      exact List.cons_ne_nil _ _
    · cases h
      exact List.cons_ne_nil _ _

theorem takeSign_append {s : Bytes} (h : s ≠ []) (t : Bytes) :
    takeSign (s ++ t) = ((takeSign s).1, (takeSign s).2 ++ t) := by
  obtain ⟨c, s, rfl⟩ := List.exists_cons_of_ne_nil h
  by_cases hminus : c = 45
  · subst hminus
    rfl
  · by_cases hplus : c = 43
    · subst hplus
      rfl
    · have hno : ∀ u : Bytes, takeSign (c :: u) = (false, c :: u) := by
        intro u
        unfold takeSign
        split
        · next heq => cases heq; exact absurd rfl hminus
        · next heq => cases heq; exact absurd rfl hplus
        · rfl
      rw [List.cons_append, hno, hno]
      rfl

/-- A numeral that ends is read the same, whatever stands behind it. -/
theorem strtoll_append {s endp : Bytes} {v : ℤ} (h : strtoll s = .ok (v, endp)) (t : Bytes) :
    strtoll (s ++ t) = .ok (v, endp ++ t) := by
  unfold strtoll at h ⊢
  dsimp only at h ⊢
  split at h
  · cases h
  · next c rest heq =>
    have hskip : s.dropWhile isSpace ≠ [] := by
      intro hnil
      rw [hnil] at heq
      cases heq
    have hdrop : (s ++ t).dropWhile isSpace = s.dropWhile isSpace ++ t := by
      rw [List.dropWhile_append, if_neg (by simpa [List.isEmpty_iff] using hskip)]
    have hnum : ((takeSign (s.dropWhile isSpace)).2 ++ t).dropWhile isDigit = c :: (rest ++ t) := by
      rw [List.dropWhile_append, heq]
      rfl
    have hds : ((takeSign (s.dropWhile isSpace)).2 ++ t).takeWhile isDigit =
        (takeSign (s.dropWhile isSpace)).2.takeWhile isDigit := by
      have hshort : ((takeSign (s.dropWhile isSpace)).2.takeWhile isDigit).length ≠
          (takeSign (s.dropWhile isSpace)).2.length := by
        have hsum := congrArg List.length
          (List.takeWhile_append_dropWhile (p := isDigit) (l := (takeSign (s.dropWhile isSpace)).2))
        rw [heq, List.length_append, List.length_cons] at hsum
        omega
      rw [List.takeWhile_append, if_neg hshort]
    rw [hdrop, takeSign_append hskip, hnum, hds]
    dsimp only
    split_ifs at h ⊢ <;> cases h <;> rfl

/-- On a digit, `strtoll` consumes. -/
theorem strtoll_lt {c : UInt8} (hc : isDigit c = true) {t : Bytes} {v : ℤ} {endp : Bytes}
    (h : strtoll (c :: t) = .ok (v, endp)) : endp.length < (c :: t).length := by
  have hskip : (c :: t).dropWhile isSpace = c :: t := by
    rw [List.dropWhile_cons_of_neg (by simp [isSpace_of_isDigit hc])]
  have htake : (c :: t).takeWhile isDigit = c :: t.takeWhile isDigit := List.takeWhile_cons_of_pos hc
  have hdrop : (c :: t).dropWhile isDigit = t.dropWhile isDigit := List.dropWhile_cons_of_pos hc
  have hle := (List.dropWhile_suffix (l := t) isDigit).length_le
  rw [strtoll, hskip, takeSign_of_isDigit hc] at h
  simp only [htake, hdrop] at h
  split at h
  · cases h
  · next heq =>
    rw [heq] at hle
    simp only [reduceCtorEq, if_false, Except.ok.injEq, Prod.mk.injEq] at h
    obtain ⟨-, rfl⟩ := h
    have hlen : (c :: t).length = t.length + 1 := List.length_cons
    omega

/-- A text begins with a number: spaces, an optional sign, and digits, which go on for as long as they can. -/
def Spells (text : Bytes) (i : ℤ) : Prop :=
  ∃ sp sg ds rest : Bytes, text = sp ++ (sg ++ (ds ++ rest)) ∧ (∀ c ∈ sp, isSpace c = true) ∧
    (sg = [] ∨ sg = [45] ∨ sg = [43]) ∧ ds ≠ [] ∧ (∀ c ∈ ds, isDigit c = true) ∧
    (∀ c, rest.head? = some c → isDigit c = false) ∧ i = if sg = [45] then -(digitsVal ds : ℤ) else digitsVal ds

/-- `strtoll` reads the number a text begins with. -/
theorem strtoll_parts {sp sg ds rest : Bytes} {c : UInt8} (hsp : ∀ c ∈ sp, isSpace c = true)
    (hsg : sg = [] ∨ sg = [45] ∨ sg = [43]) (hne : ds ≠ []) (hds : ∀ c ∈ ds, isDigit c = true)
    (hc : isDigit c = false) :
    strtoll (sp ++ (sg ++ (ds ++ c :: rest))) =
      .ok (clampLL (if sg = [45] then -(digitsVal ds : ℤ) else digitsVal ds), c :: rest) := by
  obtain ⟨htake, hdrop⟩ := takeWhile_isDigit hds hc rest
  obtain ⟨d, ds', rfl⟩ := List.exists_cons_of_ne_nil hne
  have hd := hds d List.mem_cons_self
  have hskip : (sp ++ (sg ++ (d :: ds' ++ c :: rest))).dropWhile isSpace = sg ++ (d :: ds' ++ c :: rest) := by
    rw [List.dropWhile_append_of_pos hsp]
    rcases hsg with rfl | rfl | rfl
    · exact List.dropWhile_cons_of_neg (by simp [isSpace_of_isDigit hd])
    · exact List.dropWhile_cons_of_neg (by decide)
    · exact List.dropWhile_cons_of_neg (by decide)
  have hsign : takeSign (sg ++ (d :: ds' ++ c :: rest)) = (decide (sg = [45]), d :: ds' ++ c :: rest) := by
    rcases hsg with rfl | rfl | rfl
    · exact takeSign_of_isDigit hd _
    · rfl
    · rfl
  unfold strtoll
  rw [hskip, hsign]
  simp only [htake, hdrop, if_neg hne, decide_eq_true_eq]

/-- `strtoll` reads back an unsigned numeral and stops after it. -/
theorem strtoll_decNat {n : ℕ} (hn : (n : ℤ) ≤ LLONG_MAX) {c : UInt8} (hc : isDigit c = false)
    (rest : Bytes) : strtoll (decNat n ++ c :: rest) = .ok (n, c :: rest) := by
  have hparts := @strtoll_parts [] [] (decNat n) rest c (by simp) (.inl rfl) (decNat_ne_nil n)
    (fun x hx => isDigit_of_mem_decNat hx) hc
  rw [List.nil_append, List.nil_append] at hparts
  rw [hparts, if_neg (by decide), digitsVal_decNat, clampLL_of_range (by unfold LLONG_MIN; omega) hn]

/-- **Numerals round-trip**: `strtoll` reads back what `"%lld"` printed and stops
after it. -/
theorem strtoll_decInt {i : ℤ} (h₁ : LLONG_MIN ≤ i) (h₂ : i ≤ LLONG_MAX) {c : UInt8}
    (hc : isDigit c = false) (rest : Bytes) :
    strtoll (decInt i ++ c :: rest) = .ok (i, c :: rest) := by
  by_cases hi : i < 0
  · have hparts := @strtoll_parts [] [45] (decNat i.natAbs) rest c (by simp) (.inr (.inl rfl)) (decNat_ne_nil _)
      (fun x hx => isDigit_of_mem_decNat hx) hc
    rw [List.nil_append] at hparts
    rw [decInt, if_pos hi, List.cons_append, ← List.singleton_append, hparts, if_pos rfl, digitsVal_decNat,
      Int.ofNat_natAbs_of_nonpos (by omega), neg_neg, clampLL_of_range h₁ h₂]
  · have habs : (i.natAbs : ℤ) = i := Int.natAbs_of_nonneg (by omega)
    have := strtoll_decNat (n := i.natAbs) (by omega) hc rest
    rw [decInt, if_neg hi, this, habs]

theorem strtoll_of_spells {text : Bytes} {i : ℤ} (h : Spells text i) :
    ∃ endp, strtoll (text ++ [0]) = .ok (clampLL i, endp) := by
  obtain ⟨sp, sg, ds, rest, rfl, hsp, hsg, hne, hds, hrest, rfl⟩ := h
  obtain ⟨c, rest', hc, heq⟩ : ∃ c rest', isDigit c = false ∧ rest ++ [0] = c :: rest' := by
    cases rest with
    | nil => exact ⟨0, [], rfl, rfl⟩
    | cons c rest => exact ⟨c, rest ++ [0], hrest c rfl, rfl⟩
  refine ⟨c :: rest', ?_⟩
  rw [← strtoll_parts hsp hsg hne hds hc, ← heq]
  simp only [List.append_assoc]

/-- A text that begins with no number reads as `0`. -/
theorem strtoll_of_not_spells {text : Bytes} (h : ∀ i, ¬ Spells text i) :
    ∃ endp, strtoll (text ++ [0]) = .ok (0, endp) := by
  obtain ⟨sg, hsg, hsplit⟩ := takeSign_split ((text ++ [0]).dropWhile isSpace)
  generalize hsp : (text ++ [0]).takeWhile isSpace = sp
  generalize ht : (takeSign ((text ++ [0]).dropWhile isSpace)).2 = t at hsplit
  generalize hds : t.takeWhile isDigit = ds
  generalize hrest : t.dropWhile isDigit = rest
  have hspace : ∀ c ∈ sp, isSpace c = true := fun c hc => List.mem_takeWhile_imp (hsp ▸ hc)
  have hdigit : ∀ c ∈ ds, isDigit c = true := fun c hc => List.mem_takeWhile_imp (hds ▸ hc)
  have hwhole : text ++ [0] = sp ++ (sg ++ (ds ++ rest)) := by
    rw [← hds, ← hrest, List.takeWhile_append_dropWhile, ← hsplit, ← hsp, List.takeWhile_append_dropWhile]
  rcases List.eq_nil_or_concat rest with rfl | ⟨rest', last, hconcat⟩
  · -- the terminator is no part of a number
    have h0 : (0 : UInt8) ∈ sp ++ (sg ++ (ds ++ [])) := by
      rw [← hwhole]
      simp
    rw [List.append_nil, List.mem_append, List.mem_append] at h0
    rcases h0 with h0 | h0 | h0
    · exact absurd (hspace 0 h0) (by decide)
    · rcases hsg with rfl | rfl | rfl <;> exact absurd h0 (by decide)
    · exact absurd (hdigit 0 h0) (by decide)
  · rw [List.concat_eq_append] at hconcat
    subst hconcat
    have hnext : ∀ c, (rest' ++ [last]).head? = some c → isDigit c = false := by
      intro c hc
      have := List.head?_dropWhile_not isDigit t
      rw [hrest, hc] at this
      simpa using this
    have htext : text = sp ++ (sg ++ (ds ++ rest')) := by
      have : text ++ [0] = (sp ++ (sg ++ (ds ++ rest'))) ++ [last] := by simpa using hwhole
      exact (List.append_inj' this rfl).1
    have hnone : ds = [] := by
      by_contra hne
      refine h _ ⟨sp, sg, ds, rest', htext, hspace, hsg, hne, hdigit, fun c hc => hnext c ?_, rfl⟩
      rw [List.head?_append, hc]
      rfl
    refine ⟨text ++ [0], ?_⟩
    unfold strtoll
    dsimp only
    rw [ht, hrest, hds, hnone]
    obtain ⟨c, rest, heq⟩ :=
      List.exists_cons_of_ne_nil (List.append_ne_nil_of_right_ne_nil rest' (List.cons_ne_nil last []))
    rw [heq]
    rfl

/-- `atoi`, an `int` cut from what `strtoll` reads; the terminator ends the scan. -/
def atoi (s : CStr) : ℤ :=
  match strtoll (s.bytes ++ [0]) with
  | .ok (v, _) => Int.bmod v (2 ^ 32)
  | .error _ => 0

/-- **What `atoi` makes of a text**: the number it begins with, saturated at a `long` and then cut
to an `int`; `0` if it begins with none. -/
theorem atoi_eq_iff {s : CStr} {v : ℤ} (hv : v ≠ 0) :
    atoi s = v ↔ ∃ i, Spells s.bytes i ∧ v = Int.bmod (clampLL i) (2 ^ 32) := by
  have hspelled : ∀ i, Spells s.bytes i → atoi s = Int.bmod (clampLL i) (2 ^ 32) := by
    intro i hi
    obtain ⟨endp, h⟩ := strtoll_of_spells hi
    rw [atoi, h]
  constructor
  · intro h
    by_contra hnone
    apply hv
    have hnot : ∀ i, ¬ Spells s.bytes i := fun i hi => hnone ⟨i, hi, by rw [← hspelled i hi, h]⟩
    obtain ⟨endp, hread⟩ := strtoll_of_not_spells hnot
    rw [← h, atoi, hread]
    rfl
  · rintro ⟨i, hi, rfl⟩
    exact hspelled i hi

/-- The numeral of an `int` reads as it is. -/
theorem atoi_decNat {s : CStr} {n : ℕ} (hn : n < 2 ^ 31) (hs : s.bytes = decNat n) : atoi s = n := by
  rw [atoi, hs, strtoll_decNat (by unfold LLONG_MAX; omega) (show isDigit 0 = false from rfl)]
  show Int.bmod (n : ℤ) (2 ^ 32) = n
  rw [Int.bmod_eq_of_le] <;> omega

/-! ### Writing into an allocation -/

/-- The largest `int`. -/
def INT_MAX : ℕ := 2 ^ 31 - 1

/-- A size stored in an `int`. -/
def toCInt (n : ℕ) : Except Fault ℕ := if n ≤ INT_MAX then .ok n else .error .intRange

theorem toCInt_of_le {n : ℕ} (h : n ≤ INT_MAX) : toCInt n = .ok n := if_pos h

/-- Write `bs` at offset `off` (`memcpy`). -/
def poke (buf : Bytes) (off : ℕ) (bs : Bytes) : Except Fault Bytes :=
  if off + bs.length ≤ buf.length then .ok (buf.take off ++ bs ++ buf.drop (off + bs.length))
  else .error .overflow

/-- `snprintf(buf + off, size, …)` of a format that prints `text`: at most `size - 1`
bytes and a terminator, nothing when `size` is `0`. A negative `size` becomes a
huge `size_t`. -/
def snprintf (buf : Bytes) (off : ℕ) (size : ℤ) (text : Bytes) : Except Fault Bytes :=
  if size = 0 then .ok buf
  else poke buf off ((if size < 0 then text else text.take (size.toNat - 1)) ++ [0])

/-- `strlen(buf + off)`. -/
def strlenAt (buf : Bytes) (off : ℕ) : Except Fault ℕ :=
  if 0 ∈ buf.drop off then .ok (cstr (buf.drop off)).length else .error .overread

/-- What a write that has room leaves: the bytes before it, and its own. -/
theorem poke_spec {buf : Bytes} {off : ℕ} {bs : Bytes} (h : off + bs.length ≤ buf.length) :
    ∃ buf', poke buf off bs = .ok buf' ∧ buf'.length = buf.length ∧
      buf'.take (off + bs.length) = buf.take off ++ bs ∧
      buf'.drop (off + bs.length) = buf.drop (off + bs.length) := by
  have hlen : (buf.take off ++ bs).length = off + bs.length := by simp; omega
  refine ⟨_, if_pos h, by simp; omega, ?_, ?_⟩
  · rw [← hlen, List.take_left]
  · rw [← hlen, List.drop_left]

/-- A write over as many bytes in the middle. -/
theorem poke_append (pre : Bytes) {old bs : Bytes} (post : Bytes) (h : bs.length = old.length) :
    poke (pre ++ (old ++ post)) pre.length bs = .ok (pre ++ (bs ++ post)) := by
  have hfit : pre.length + bs.length ≤ (pre ++ (old ++ post)).length := by simp; omega
  have hrest : (pre ++ (old ++ post)).drop (pre.length + bs.length) = post := by
    rw [h, ← List.append_assoc, ← List.length_append, List.drop_left]
  rw [poke, if_pos hfit, List.take_left, hrest, List.append_assoc]

/-- What a formatted write that has room leaves, and that `strlen` finds its length. -/
theorem snprintf_spec {buf : Bytes} {off : ℕ} {size : ℤ} {text : Bytes} (htext : (0 : UInt8) ∉ text)
    (hsize : (text.length : ℤ) + 1 ≤ size) (hroom : off + size ≤ buf.length) :
    ∃ buf', snprintf buf off size text = .ok buf' ∧ buf'.length = buf.length ∧
      buf'.take (off + text.length) = buf.take off ++ text ∧ strlenAt buf' off = .ok text.length := by
  have hfit : off + (text ++ [0]).length ≤ buf.length := by simp; omega
  obtain ⟨buf', hpoke, hlen, htake, -⟩ := poke_spec hfit
  have hnot : text.take (size.toNat - 1) = text := List.take_of_length_le (by omega)
  have hoff : (buf.take off).length = off := by simp; omega
  have htake' : buf'.take (off + text.length) = buf.take off ++ text := by
    have := congrArg (List.take (off + text.length)) htake
    rw [List.take_take, min_eq_left (by simp)] at this
    rw [this, ← List.append_assoc]
    exact List.take_left' (by simp; omega)
  have hdrop : buf'.drop off = text ++ 0 :: buf'.drop (off + text.length + 1) := by
    have hsplit := List.take_append_drop (off + (text ++ [0]).length) buf'
    rw [htake] at hsplit
    have := congrArg (List.drop off) hsplit.symm
    rw [List.append_assoc, List.drop_left' hoff] at this
    rw [this]
    simp [Nat.add_assoc]
  refine ⟨buf', ?_, hlen, htake', ?_⟩
  · rw [snprintf, if_neg (by omega), if_neg (by omega), hnot, hpoke]
  · rw [strlenAt, hdrop, if_pos (by simp), cstr_append_nul htext]

/-- A formatted write that takes the whole allocation. -/
theorem snprintf_full {buf text : Bytes} {n : ℕ} (hbuf : buf.length = n) (htext : n = text.length + 1) :
    snprintf buf 0 n text = .ok (text ++ [0]) := by
  have hfit : 0 + (text ++ [0]).length ≤ buf.length := by simp; omega
  have hall : text.take ((n : ℤ).toNat - 1) = text := List.take_of_length_le (by omega)
  have hrest : buf.drop (0 + (text ++ [0]).length) = [] := List.drop_of_length_le (by simp; omega)
  rw [snprintf, if_neg (by omega), if_neg (by omega), hall, poke, if_pos hfit, hrest]
  simp

/-! ### Lines -/

/-- The lines `getline` gives of a file, each with the newline that ends it. -/
def getlines : Bytes → List Bytes
  | [] => []
  | c :: s =>
    if c = 10 then [c] :: getlines s
    else match getlines s with
      | [] => [[c]]
      | line :: lines => (c :: line) :: lines

/-- A line that is ended is given as it is. -/
theorem getlines_append {line : Bytes} (h : (10 : UInt8) ∉ line) (rest : Bytes) :
    getlines (line ++ 10 :: rest) = (line ++ [10]) :: getlines rest := by
  induction line with
  | nil => rfl
  | cons c line ih =>
    rw [List.mem_cons, not_or] at h
    rw [List.cons_append, getlines, if_neg (Ne.symm h.1), ih h.2]
    rfl

/-- The pieces `fgets(line, size, fp)` gives of a file, one after the other: a piece ends behind a newline,
with the file, or when it has `size - 1` bytes. The piece that is being read has room for `room` more. -/
def fgetsPieces (size : ℕ) : ℕ → Bytes → List Bytes
  | _, [] => []
  | room, c :: s =>
    if c = 10 ∨ room ≤ 1 then [c] :: fgetsPieces size (size - 1) s
    else match fgetsPieces size (room - 1) s with
      | [] => [[c]]
      | piece :: pieces => (c :: piece) :: pieces

/-- A newline can only be the last byte of a piece. -/
theorem newline_of_mem_fgetsPieces {size : ℕ} {s : Bytes} : ∀ {room : ℕ} {p : Bytes}, p ∈ fgetsPieces size room s →
    ∃ l, (10 : UInt8) ∉ l ∧ (p = l ∨ p = l ++ [10]) := by
  induction s with
  | nil => simp [fgetsPieces]
  | cons c s ih =>
    intro room p hp
    unfold fgetsPieces at hp
    split_ifs at hp with hends
    · rcases List.mem_cons.mp hp with rfl | hp
      · by_cases hc : c = 10
        · exact ⟨[], by simp, .inr (by rw [hc]; rfl)⟩
        · exact ⟨[c], by simpa using Ne.symm hc, .inl rfl⟩
      · exact ih hp
    · rw [not_or] at hends
      have hcons : ∀ l : Bytes, (10 : UInt8) ∉ l → (10 : UInt8) ∉ c :: l := fun l hl h =>
        (List.mem_cons.mp h).elim (fun h => hends.1 h.symm) hl
      cases hrest : fgetsPieces size (room - 1) s with
      | nil =>
        rw [hrest] at hp
        exact ⟨[c], hcons [] (by simp), .inl (List.mem_singleton.mp hp)⟩
      | cons piece pieces =>
        rw [hrest] at hp
        rcases List.mem_cons.mp hp with rfl | hp
        · obtain ⟨l, hl, hpiece⟩ := ih (hrest ▸ List.mem_cons_self : piece ∈ fgetsPieces size (room - 1) s)
          refine ⟨c :: l, hcons l hl, ?_⟩
          rcases hpiece with rfl | rfl
          · exact .inl rfl
          · exact .inr rfl
        · exact ih (hrest ▸ List.mem_cons_of_mem _ hp)

/-- A line for which there is room is one piece. -/
theorem fgetsPieces_append {size : ℕ} {line : Bytes} (h : (10 : UInt8) ∉ line) (rest : Bytes) :
    ∀ {room : ℕ}, line.length < room →
      fgetsPieces size room (line ++ 10 :: rest) = (line ++ [10]) :: fgetsPieces size (size - 1) rest := by
  induction line with
  | nil =>
    intro room _
    rw [List.nil_append, fgetsPieces, if_pos (.inl rfl)]
    rfl
  | cons c line ih =>
    intro room hroom
    rw [List.mem_cons, not_or] at h
    rw [List.length_cons] at hroom
    rw [List.cons_append, fgetsPieces, if_neg (by rintro (hc | hc); exacts [h.1 hc.symm, by omega]), ih h.2 (by omega)]
    rfl

/-- So is the rest of a file without a newline. -/
theorem fgetsPieces_last {size : ℕ} {line : Bytes} (h : (10 : UInt8) ∉ line) (hne : line ≠ []) :
    ∀ {room : ℕ}, line.length ≤ room → fgetsPieces size room line = [line] := by
  induction line with
  | nil => exact absurd rfl hne
  | cons c line ih =>
    intro room hroom
    rw [List.mem_cons, not_or] at h
    rw [List.length_cons] at hroom
    cases line with
    | nil =>
      rw [fgetsPieces]
      split_ifs
      · rfl
      · rfl
    | cons d line =>
      rw [List.length_cons] at hroom
      rw [fgetsPieces, if_neg (by rintro (hc | hc); exacts [h.1 hc.symm, by omega]),
        ih h.2 (by simp) (by rw [List.length_cons]; omega)]

/-- A line for which there is no room is cut. -/
theorem fgetsPieces_cut {size : ℕ} {piece : Bytes} (h : (10 : UInt8) ∉ piece) (hne : piece ≠ []) (s : Bytes) :
    fgetsPieces size piece.length (piece ++ s) = piece :: fgetsPieces size (size - 1) s := by
  induction piece with
  | nil => exact absurd rfl hne
  | cons c piece ih =>
    rw [List.mem_cons, not_or] at h
    rw [List.cons_append, List.length_cons, fgetsPieces]
    cases piece with
    | nil =>
      rw [if_pos (.inr le_rfl)]
      rfl
    | cons d piece =>
      rw [if_neg (by rw [List.length_cons]; rintro (hc | hc); exacts [h.1 hc.symm, by omega]),
        Nat.add_sub_cancel, ih h.2 (by simp)]

/-! ### Files -/

/-- What comes of writing a file. -/
inductive WriteIO where
  /-- It does not open. -/
  | fails
  /-- It is cut after `n` bytes. -/
  | cut (n : ℕ)
  | complete

/-- `fopen(filename, "w")`, `fwrite` and `fclose`: whether the file opened, and what it holds
afterwards. -/
def WriteIO.write (io : WriteIO) (old : Option Bytes) (msg : Bytes) : Bool × Option Bytes :=
  match io with
  | .fails => (false, old)
  | .cut n => (true, some (msg.take n))
  | .complete => (true, some msg)

/-- A file that opens takes `n` bytes. -/
def WriteIO.Takes (n : ℕ) : WriteIO → Prop
  | .cut k => n ≤ k
  | _ => True

end ToxSuite.Lib
