import Mathlib.Data.List.TakeWhile
import ToxSuite.Lib.CText

/-!
# Cutting strings up

Functions of `string.h` that cut a string up in its buffer: `strchr` looks for a byte,
`strcpy` copies a string into another buffer, and `strtok` gives one word after the other,
each ended in place where the byte that separates it from the next one was.

A string has fields between single separators (`List.splitOn`); its words are the fields
that are not empty. `strtok_spec` says that `strtok` gives the words.
-/

namespace ToxSuite.Lib

/-! ### Searching and copying -/

/-- How many bytes from an offset on are neither this one nor the end of the string. -/
def strcspn (buf : Bytes) (off : ℕ) (c : UInt8) : ℕ :=
  ((buf.drop off).takeWhile fun b => b ≠ c && b ≠ 0).length

/-- How many bytes from an offset on are this one. -/
def strspn (buf : Bytes) (off : ℕ) (c : UInt8) : ℕ := ((buf.drop off).takeWhile (· = c)).length

/-- `strchr(buf + off, c)`. -/
def strchr (buf : Bytes) (off : ℕ) (c : UInt8) : Except Fault (Option ℕ) :=
  let i := off + strcspn buf off c
  match buf[i]? with
  | none => .error .overread
  | some b => pure (if b = c then some i else none)

/-- `strcpy(dst + i, buf + off)`. -/
def strcpy (dst : Bytes) (i : ℕ) (buf : Bytes) (off : ℕ) : Except Fault Bytes :=
  if 0 ∈ buf.drop off then poke dst i (cstr (buf.drop off) ++ [0]) else .error .overread

/-- A string up to a byte that it does not have before, and from it on. -/
theorem takeWhile_ne {c : UInt8} {f : Bytes} (hc : c ∉ f) (t : Bytes) :
    (f ++ c :: t).takeWhile (· ≠ c) = f ∧ (f ++ c :: t).dropWhile (· ≠ c) = c :: t := by
  have hpos : ∀ b ∈ f, decide (b ≠ c) = true := fun b hb => decide_eq_true fun h => hc (h ▸ hb)
  constructor
  · rw [List.takeWhile_append_of_pos hpos, List.takeWhile_cons_of_neg (by simp), List.append_nil]
  · rw [List.dropWhile_append_of_pos hpos, List.dropWhile_cons_of_neg (by simp)]

/-- The first separator is at one place. -/
theorem append_sep_inj {c : UInt8} {f g s t : Bytes} (hf : c ∉ f) (hg : c ∉ g) :
    f ++ c :: s = g ++ c :: t ↔ f = g ∧ s = t := by
  constructor
  · intro h
    have hfg : f = g := by rw [← (takeWhile_ne hf s).1, h, (takeWhile_ne hg t).1]
    subst hfg
    exact ⟨rfl, (List.cons.inj (List.append_cancel_left h)).2⟩
  · rintro ⟨rfl, rfl⟩
    rfl

/-- A space does not end a string. -/
theorem space_ne_zero : (32 : UInt8) ≠ 0 := by decide

/-- A string up to its first separator or to its end. -/
theorem exists_field {s : Bytes} (h : (0 : UInt8) ∈ s) (c : UInt8) :
    ∃ f b t, s = f ++ b :: t ∧ (b = c ∨ b = 0) ∧ c ∉ f ∧ (0 : UInt8) ∉ f := by
  induction s with
  | nil => cases h
  | cons x s ih =>
    by_cases hx : x = c ∨ x = 0
    · exact ⟨[], x, s, rfl, hx, by simp, by simp⟩
    · rw [not_or] at hx
      obtain ⟨f, b, t, rfl, hb, hc, h0⟩ := ih ((List.mem_cons.mp h).resolve_left (Ne.symm hx.2))
      exact ⟨x :: f, b, t, rfl, hb, by simp [hc, Ne.symm hx.1], by simp [h0, Ne.symm hx.2]⟩

/-- Where a field ends. -/
theorem strcspn_eq {pre f t : Bytes} {b c : UInt8} (hb : b = c ∨ b = 0) (hc : c ∉ f) (h0 : (0 : UInt8) ∉ f) :
    strcspn (pre ++ (f ++ b :: t)) pre.length c = f.length := by
  have hf : ∀ x ∈ f, (decide (x ≠ c) && decide (x ≠ 0)) = true := by
    intro x hx
    simp only [Bool.and_eq_true, decide_eq_true_eq]
    refine ⟨?_, ?_⟩
    · rintro rfl
      exact hc hx
    · rintro rfl
      exact h0 hx
  rw [strcspn, List.drop_left, List.takeWhile_append_of_pos hf,
    List.takeWhile_cons_of_neg (by rcases hb with rfl | rfl <;> simp), List.append_nil]

theorem strchr_eq {pre f t : Bytes} {b c : UInt8} (hb : b = c ∨ b = 0) (hc : c ∉ f) (h0 : (0 : UInt8) ∉ f) :
    strchr (pre ++ (f ++ b :: t)) pre.length c = .ok (if b = c then some (pre.length + f.length) else none) := by
  have hget : (pre ++ (f ++ b :: t))[pre.length + f.length]? = some b := by simp
  unfold strchr
  simp only [strcspn_eq hb hc h0, hget, pure_eq_ok]

theorem strcpy_eq {dst pre f t : Bytes} {i : ℕ} (h0 : (0 : UInt8) ∉ f) :
    strcpy dst i (pre ++ (f ++ 0 :: t)) pre.length = poke dst i (f ++ [0]) := by
  rw [strcpy, List.drop_left, if_pos (by simp), cstr_append_nul h0]

/-! ### Fields and words -/

/-- The fields of a string, between single separators. -/
def fields (c : UInt8) (s : Bytes) : List Bytes := (cstr s).splitOn c

/-- The words of a string: its fields that are not empty. -/
def words (c : UInt8) (s : Bytes) : List Bytes := (fields c s).filter (· ≠ [])

theorem fields_ne_nil (c : UInt8) (s : Bytes) : fields c s ≠ [] := List.splitOn_ne_nil _ _

/-- A field is made of bytes of its string. -/
theorem mem_of_mem_splitOn {c : UInt8} {xs : Bytes} : ∀ {f : Bytes} {b : UInt8}, f ∈ xs.splitOn c → b ∈ f → b ∈ xs := by
  induction xs with
  | nil =>
    intro f b hf hb
    rw [List.splitOn_nil, List.mem_singleton] at hf
    rwa [hf] at hb
  | cons x xs ih =>
    intro f b hf hb
    rw [List.splitOn_cons_eq_if_modifyHead] at hf
    cases hsplit : xs.splitOn c with
    | nil => exact absurd hsplit (List.splitOn_ne_nil c xs)
    | cons g gs =>
      rw [hsplit] at hf ih
      split_ifs at hf
      · rcases List.mem_cons.mp hf with rfl | hf
        · cases hb
        · exact List.mem_cons_of_mem _ (ih hf hb)
      · rw [List.modifyHead_cons] at hf
        rcases List.mem_cons.mp hf with rfl | hf
        · rcases List.mem_cons.mp hb with rfl | hb
          · exact List.mem_cons_self
          · exact List.mem_cons_of_mem _ (ih List.mem_cons_self hb)
        · exact List.mem_cons_of_mem _ (ih (List.mem_cons_of_mem _ hf) hb)

theorem zero_notMem_of_mem_fields {c : UInt8} {s f : Bytes} (h : f ∈ fields c s) : (0 : UInt8) ∉ f :=
  fun h0 => zero_notMem_cstr s (mem_of_mem_splitOn h h0)

/-- The last field of a string. -/
theorem fields_last {c : UInt8} {f : Bytes} (hc : c ∉ f) (h0 : (0 : UInt8) ∉ f) (t : Bytes) :
    fields c (f ++ 0 :: t) = [f] := by
  rw [fields, cstr_append_nul h0, List.splitOn_eq_singleton hc]

/-- A string goes on behind a separator. -/
theorem cstr_append_cons {c : UInt8} (hc0 : c ≠ 0) {f : Bytes} (h0 : (0 : UInt8) ∉ f) (t : Bytes) :
    cstr (f ++ c :: t) = f ++ c :: cstr t := by
  unfold cstr
  rw [List.takeWhile_append_of_pos, List.takeWhile_cons_of_pos (by simpa using hc0)]
  intro x hx
  simp only [ne_eq, decide_eq_true_eq]
  rintro rfl
  exact h0 hx

/-- The first of several fields. -/
theorem fields_cons {c : UInt8} (hc0 : c ≠ 0) {f : Bytes} (hc : c ∉ f) (h0 : (0 : UInt8) ∉ f) (t : Bytes) :
    fields c (f ++ c :: t) = f :: fields c t := by
  rw [fields, cstr_append_cons hc0 h0, List.splitOn_append_cons_self_of_not_mem hc]
  rfl

/-! ### One word after the other -/

/-- `strtok(buf + s, delim)`, and with `s` where the last call ended, `strtok(NULL, delim)`: the buffer,
where the word starts, and where the next call begins. -/
def strtok (buf : Bytes) (s : ℕ) (delim : UInt8) : Except Fault (Bytes × Option ℕ × ℕ) :=
  let s := s + strspn buf s delim
  match buf[s]? with
  | none => .error .overread
  | some b =>
    if b = 0 then pure (buf, none, s)
    else
      let e := s + strcspn buf s delim
      match buf[e]? with
      | none => .error .overread
      | some b =>
        if b = 0 then pure (buf, some s, e)
        else pure (buf.set e 0, some s, e + 1)

section

variable {c : UInt8} (hc0 : c ≠ 0)

include hc0

/-- Separators before a word are no words. -/
theorem words_skip {ds : Bytes} (hds : ∀ d ∈ ds, d = c) (t : Bytes) : words c (ds ++ t) = words c t := by
  induction ds with
  | nil => rfl
  | cons d ds ih =>
    rw [List.forall_mem_cons] at hds
    obtain ⟨rfl, hds⟩ := hds
    have hfields := fields_cons hc0 (f := []) (by simp) (by simp) (ds ++ t)
    rw [List.nil_append] at hfields
    rw [List.cons_append, words, hfields, List.filter_cons_of_neg (by simp)]
    exact ih hds

omit hc0 in
/-- Separators are skipped up to the first other byte. -/
theorem strspn_eq (pre : Bytes) {ds r : Bytes} (hds : ∀ d ∈ ds, d = c) (hr : r.head? ≠ some c) :
    strspn (pre ++ (ds ++ r)) pre.length c = ds.length := by
  have hnone : r.takeWhile (· = c) = [] := by
    cases r with
    | nil => rfl
    | cons x r => exact List.takeWhile_cons_of_neg (by simpa using hr)
  rw [strspn, List.drop_left, List.takeWhile_append_of_pos (by simpa using hds), hnone, List.append_nil]

/-- A string is separators, a word, and what ends the word: a separator, or the end of the string. -/
theorem exists_word {t : Bytes} (ht : (0 : UInt8) ∈ t) :
    ∃ ds f b t', t = ds ++ (f ++ b :: t') ∧ (∀ d ∈ ds, d = c) ∧ c ∉ f ∧ (0 : UInt8) ∉ f ∧
      (f = [] ∧ b = 0 ∨ f ≠ [] ∧ b = 0 ∨ f ≠ [] ∧ b = c ∧ (0 : UInt8) ∈ t') := by
  obtain ⟨ds, r, rfl, hds, hr⟩ : ∃ ds r, t = ds ++ r ∧ (∀ d ∈ ds, d = c) ∧ r.head? ≠ some c := by
    refine ⟨t.takeWhile (· = c), t.dropWhile (· = c), (List.takeWhile_append_dropWhile ..).symm, ?_, ?_⟩
    · intro d hd
      simpa using List.mem_takeWhile_imp hd
    · intro h
      have := List.head?_dropWhile_not (· = c) t
      simp [h] at this
  have h0r : (0 : UInt8) ∈ r := (List.mem_append.mp ht).resolve_left fun h => hc0 (hds 0 h).symm
  obtain ⟨f, b, t, rfl, hb, hcf, h0f⟩ := exists_field h0r c
  refine ⟨ds, f, b, t, rfl, hds, hcf, h0f, ?_⟩
  by_cases hb0 : b = 0
  · by_cases hf : f = []
    · exact .inl ⟨hf, hb0⟩
    · exact .inr (.inl ⟨hf, hb0⟩)
  · have hbc : b = c := hb.resolve_right hb0
    refine .inr (.inr ⟨?_, hbc, ?_⟩)
    · rintro rfl
      exact hr (congrArg some hbc)
    · exact (List.mem_cons.mp ((List.mem_append.mp h0r).resolve_left h0f)).resolve_left (Ne.symm hb0)

/-- `strtok` finds nothing but separators. -/
theorem strtok_none (pre : Bytes) {ds : Bytes} (hds : ∀ d ∈ ds, d = c) (t : Bytes) :
    strtok (pre ++ (ds ++ 0 :: t)) pre.length c = .ok (pre ++ (ds ++ 0 :: t), none, (pre ++ ds).length) := by
  have hskip := strspn_eq pre hds (r := 0 :: t) (by simpa using Ne.symm hc0)
  have hstart : (pre ++ (ds ++ 0 :: t))[pre.length + ds.length]? = some 0 := by simp
  unfold strtok
  simp only [hskip, hstart]
  simp

omit hc0

section

variable (pre : Bytes) {ds f : Bytes} (hds : ∀ d ∈ ds, d = c) (hne : f ≠ []) (hc : c ∉ f) (h0 : (0 : UInt8) ∉ f)

include hds hne hc h0

/-- Where a word starts and ends. -/
theorem strtok_word {b : UInt8} (hb : b = c ∨ b = 0) (t : Bytes) :
    strtok (pre ++ (ds ++ (f ++ b :: t))) pre.length c =
      if b = 0 then .ok (pre ++ (ds ++ (f ++ b :: t)), some (pre ++ ds).length, (pre ++ (ds ++ f)).length)
      else .ok ((pre ++ (ds ++ (f ++ b :: t))).set (pre ++ (ds ++ f)).length 0, some (pre ++ ds).length,
        (pre ++ (ds ++ f)).length + 1) := by
  obtain ⟨x, f, rfl⟩ := List.exists_cons_of_ne_nil hne
  rw [List.mem_cons, not_or] at hc h0
  have hskip := strspn_eq pre hds (r := x :: f ++ b :: t) (by simpa using Ne.symm hc.1)
  have hstart : (pre ++ (ds ++ (x :: f ++ b :: t)))[pre.length + ds.length]? = some x := by simp
  have hspan : strcspn (pre ++ (ds ++ (x :: f ++ b :: t))) (pre.length + ds.length) c = (x :: f).length := by
    rw [← List.append_assoc, ← List.length_append]
    exact strcspn_eq hb (by simp [hc]) (by simp [h0])
  have hend : (pre ++ (ds ++ (x :: f ++ b :: t)))[pre.length + ds.length + (x :: f).length]? = some b := by
    simp [Nat.add_assoc]
  unfold strtok
  simp only [hskip, hstart, if_neg (Ne.symm h0.1), hspan, hend]
  simp [Nat.add_assoc]

/-- `strtok` on the last word. -/
theorem strtok_last (t : Bytes) :
    strtok (pre ++ (ds ++ (f ++ 0 :: t))) pre.length c =
      .ok (pre ++ (ds ++ (f ++ 0 :: t)), some (pre ++ ds).length, (pre ++ (ds ++ f)).length) := by
  rw [strtok_word pre hds hne hc h0 (.inr rfl), if_pos rfl]

/-- `strtok` ends a word in place. -/
theorem strtok_cut (hc0 : c ≠ 0) (t : Bytes) :
    strtok (pre ++ (ds ++ (f ++ c :: t))) pre.length c =
      .ok (pre ++ (ds ++ (f ++ 0 :: t)), some (pre ++ ds).length, (pre ++ (ds ++ (f ++ [0]))).length) := by
  rw [strtok_word pre hds hne hc h0 (.inl rfl), if_neg hc0]
  simp [Nat.add_assoc]

end

/-- **`strtok` gives the words** of a string, one after the other. -/
theorem strtok_spec (hc0 : c ≠ 0) (pre : Bytes) {t : Bytes} (ht : (0 : UInt8) ∈ t) :
    (words c t = [] ∧ ∃ save, strtok (pre ++ t) pre.length c = .ok (pre ++ t, none, save)) ∨
      ∃ w ws pre' t' s, words c t = w :: ws ∧
        strtok (pre ++ t) pre.length c = .ok (pre' ++ t', some s, pre'.length) ∧
        (0 : UInt8) ∈ t' ∧ words c t' = ws ∧ (0 : UInt8) ∈ (pre' ++ t').drop s ∧ cstr ((pre' ++ t').drop s) = w := by
  have hnil : ∀ t, words c (0 :: t) = [] := fun t => by simp [words, fields, cstr]
  have hdrop : ∀ ds r : Bytes, (pre ++ (ds ++ r)).drop (pre ++ ds).length = r := fun ds r => by
    rw [← List.append_assoc, List.drop_left]
  obtain ⟨ds, f, b, t, rfl, hds, hcf, h0f, ⟨rfl, rfl⟩ | ⟨hf, rfl⟩ | ⟨hf, rfl, ht'⟩⟩ := exists_word hc0 ht
  · exact .inl ⟨by rw [words_skip hc0 hds]; exact hnil t, _, strtok_none hc0 pre hds t⟩
  · -- the last word
    have hwords : words c (ds ++ (f ++ 0 :: t)) = [f] := by
      rw [words_skip hc0 hds, words, fields_last hcf h0f, List.filter_cons_of_pos (by simpa using hf),
        List.filter_nil]
    refine .inr ⟨f, [], pre ++ (ds ++ f), 0 :: t, (pre ++ ds).length, hwords, ?_, by simp, hnil t, ?_, ?_⟩
    · rw [strtok_last pre hds hf hcf h0f]
      simp
    · rw [List.append_assoc, List.append_assoc, hdrop]
      simp
    · rw [List.append_assoc, List.append_assoc, hdrop, cstr_append_nul h0f]
  · -- a word that is ended in place
    have hwords : words b (ds ++ (f ++ b :: t)) = f :: words b t := by
      rw [words_skip hc0 hds, words, fields_cons hc0 hcf h0f, List.filter_cons_of_pos (by simpa using hf)]
      rfl
    refine .inr ⟨f, words b t, pre ++ (ds ++ (f ++ [0])), t, (pre ++ ds).length, hwords, ?_, ht', rfl, ?_, ?_⟩
    · rw [strtok_cut pre hds hf hcf h0f hc0]
      simp
    · rw [List.append_assoc, List.append_assoc, List.append_assoc, hdrop]
      simp
    · rw [List.append_assoc, List.append_assoc, List.append_assoc, hdrop, List.singleton_append,
        cstr_append_nul h0f]

end

end ToxSuite.Lib
