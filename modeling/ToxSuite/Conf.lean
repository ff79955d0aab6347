import ToxSuite.Lib.Keyed
import ToxSuite.Lib.Tokens

/-!
# `conf.c`: numbers in a configuration file

`get_conf_str` reads the file in pieces of up to 4095 bytes, and has `strtok` cut a key and a value
out of each; `get_conf_int` has `atoi` read the value. A line `key=value` should give its number to
its key. What the code takes for such a line is not always one: a `=` at the start of a line is
skipped, a line with an empty value is passed over, and a long line is cut, so that a part of it may
pass for a line of the key (`Passes`). What it takes for a number is not always the value either:
`atoi` reads what a text begins with, and wraps (`Means`, `Void`).

`getConfInt_contract_iff`: `get_conf_int` returns the number on the key's line, and `-1` if there is
none, if and only if no line before the key's passes for it with another number, and the key's line
has room or, without a numeral, nothing that is read as a number. In a file of plain lines it does if
and only if the key's value is a numeral or void (`readsRight_iff_of_plain`).
-/

namespace ToxSuite.Conf

open ToxSuite.Lib

/-! ### The code -/

/-- `sizeof(line)`. -/
def LINE_SIZE : ℕ := 4096

/-- The body of the `while` of `get_conf_str`, on what `fgets` has put into `line`. The `=` is `61`,
the newline `10`, the `#` `35`. -/
def confLine (keyname : CStr) (line : Bytes) : Except Fault (Option CStr) := do
  let (line, key, save) ← strtok line 0 61
  let (line, value, _) ← strtok line save 10
  match key, value with
  | some key, some value =>
    if keyname.bytes ≠ cstr (line.drop key) then pure none
    else match ← strchr line key 35 with
      | some _ => pure none
      | none => pure (some (CStr.ofBytes (line.drop value)))
  | _, _ => pure none

/-- The `while` of `get_conf_str`, over the pieces that are left. -/
def confLines (keyname : CStr) : List Bytes → Except Fault (Option CStr)
  | [] => pure none
  | line :: lines => do
    match ← confLine keyname (line ++ [0]) with
    | some value => pure (some value)
    | none => confLines keyname lines

/-- `get_conf_str` on a file with this content; `none` is `NULL`. -/
def getConfStr (fp : Option Bytes) (keyname : CStr) : Except Fault (Option CStr) :=
  match fp with
  | none => pure none
  | some content => confLines keyname (fgetsPieces LINE_SIZE (LINE_SIZE - 1) content)

/-- `get_conf_int`. -/
def getConfInt (fp : Option Bytes) (keyname : CStr) : Except Fault ℤ := do
  match ← getConfStr fp keyname with
  | none => pure (-1)
  | some strnum =>
    let number := atoi strnum
    if number = 0 ∧ strnum.bytes ≠ ascii "0" then pure (-1) else pure number

/-! ### The file -/

/-- A name for a number: a string without `=`, `#` and newlines. -/
structure Key extends CStr where
  noEq : (61 : UInt8) ∉ bytes
  noHash : (35 : UInt8) ∉ bytes
  noNewline : (10 : UInt8) ∉ bytes

/-- There is a `#` before the first `=` of the line. -/
def Commented (line : Bytes) : Prop := (35 : UInt8) ∈ line.takeWhile (· ≠ 61)

instance (line : Bytes) : Decidable (Commented line) := inferInstanceAs (Decidable (_ ∈ _))

/-- An uncommented line with the key before its first `=`, and this behind it. -/
def Assigns (key line value : Bytes) : Prop :=
  ¬ Commented line ∧ line.takeWhile (· ≠ 61) = key ∧ line.dropWhile (· ≠ 61) = 61 :: value

instance (key line value : Bytes) : Decidable (Assigns key line value) := inferInstanceAs (Decidable (_ ∧ _ ∧ _))

/-- The first uncommented line of the key has this value. -/
def Assigned (content : Bytes) (key : Key) (value : Bytes) : Prop :=
  First (Assigns key.bytes) (content.splitOn 10) value

/-- `get_conf_int` returns a number if and only if the key has its numeral as value, and otherwise
`-1`. -/
def Contract (content : Bytes) (key : Key) : Prop :=
  ∃ r, getConfInt (some content) key.toCStr = .ok r ∧ -1 ≤ r ∧
    ∀ n : ℕ, r = n ↔ n ≤ INT_MAX ∧ Assigned content key (decNat n)

/-- The text of a piece, up to its newline or a NUL. -/
def pieceText (piece : Bytes) : Bytes := piece.takeWhile fun b => b ≠ 10 && b ≠ 0

/-- What is taken for a line of the key: behind any `=` that it begins with, it reads as the key, a `=`
and a value that is not empty. -/
def Entry (key piece value : Bytes) : Prop :=
  value ≠ [] ∧ (pieceText piece).dropWhile (· = 61) = key ++ 61 :: value

/-- The part of a line between a multiple of 4095 and the next. -/
def part (line : Bytes) (n : ℕ) : Bytes := (line.drop ((LINE_SIZE - 1) * n)).take (LINE_SIZE - 1)

/-- A line passes for one of the key: this is the value in its first part that is taken for such a line. -/
def Passes (key line value : Bytes) : Prop :=
  ∃ n, Entry key (part line n) value ∧ ∀ m < n, ∀ value', ¬ Entry key (part line m) value'

/-- The first line that passes for one of the key has this value. -/
def Passed (content : Bytes) (key : Key) (value : Bytes) : Prop :=
  First (Passes key.bytes) (content.splitOn 10) value

/-- A text that is read as this number: its numeral, or for another number than `0` a text that begins with
a number which wraps to it. -/
def Means (text : Bytes) (k : ℕ) : Prop :=
  text = decNat k ∨ k ≠ 0 ∧ ∃ i, Spells text i ∧ LLONG_MIN ≤ i ∧ i ≤ LLONG_MAX ∧ i % 2 ^ 32 = k

/-- A text that is read as no number: it is not `0`, and any number that it begins with is out of the range of
a `long` or wraps to `0` or `-1`. -/
def Void (text : Bytes) : Prop :=
  text ≠ ascii "0" ∧
    ∀ i, Spells text i → LLONG_MIN ≤ i → i ≤ LLONG_MAX → i % 2 ^ 32 = 0 ∨ i % 2 ^ 32 = 2 ^ 32 - 1

/-- **A file in which the number of the key is read right**. Where the key's line has a numeral, the key is
not empty, the line fits into the buffer and no line before it passes for one of the key, or the first that
does means the same number. Where it has none, the first line that passes for one of the key is void. -/
structure ReadsRight (content : Bytes) (key : Key) : Prop where
  numeral : ∀ k ≤ INT_MAX, ∀ pre line post, content.splitOn 10 = pre ++ line :: post →
    (∀ l ∈ pre, ∀ value, ¬ Assigns key.bytes l value) → Assigns key.bytes line (decNat k) →
    (key.bytes ≠ [] ∧ line.length < LINE_SIZE ∧ ∀ l ∈ pre, ∀ text, ¬ Passes key.bytes l text) ∨
      ∃ text, First (Passes key.bytes) pre text ∧ Means text k
  other : (∀ k ≤ INT_MAX, ¬ Assigned content key (decNat k)) →
    ∀ text, Passed content key text → Void text

/-! ### One piece -/

theorem eq_ne_zero : (61 : UInt8) ≠ 0 := by decide

theorem newline_ne_zero : (10 : UInt8) ≠ 0 := by decide

theorem newline_ne_eq : (10 : UInt8) ≠ 61 := by decide

theorem newline_notMem_decNat (k : ℕ) : (10 : UInt8) ∉ decNat k := fun h =>
  absurd (isDigit_of_mem_decNat h) (by decide)

theorem assigns_iff (key : Key) {line value : Bytes} :
    Assigns key.bytes line value ↔ line = key.bytes ++ 61 :: value := by
  constructor
  · rintro ⟨-, hkey, hvalue⟩
    rw [← hkey, ← hvalue, List.takeWhile_append_dropWhile]
  · rintro rfl
    obtain ⟨htake, hdrop⟩ := takeWhile_ne key.noEq value
    refine ⟨?_, htake, hdrop⟩
    rw [Commented, htake]
    exact key.noHash

/-- What is behind a NUL is not in the text. -/
theorem pieceText_append_nul (s rest : Bytes) : pieceText (s ++ 0 :: rest) = pieceText s := by
  induction s with
  | nil => rfl
  | cons b s ih =>
    unfold pieceText at ih ⊢
    rw [List.cons_append, List.takeWhile_cons, List.takeWhile_cons, ih]

/-- Bytes that do not end a text. -/
theorem pieceText_append {s : Bytes} (h10 : (10 : UInt8) ∉ s) (h0 : (0 : UInt8) ∉ s) (rest : Bytes) :
    pieceText (s ++ rest) = s ++ pieceText rest := by
  refine List.takeWhile_append_of_pos fun b hb => ?_
  simp only [ne_eq, Bool.and_eq_true, decide_eq_true_eq]
  refine ⟨?_, ?_⟩
  · rintro rfl
    exact h10 hb
  · rintro rfl
    exact h0 hb

/-- Behind the newline of a piece there is nothing. -/
theorem eq_of_newline {l p : Bytes} (hl : (10 : UInt8) ∉ l) (hp : p = l ∨ p = l ++ [10]) (before rest : Bytes)
    (h : p ++ [0] = before ++ 10 :: rest) : rest = [0] := by
  have hmem : (10 : UInt8) ∈ p ++ [0] := by
    rw [h]
    simp
  rcases hp with rfl | rfl
  · simp [hl] at hmem
  · rw [List.append_assoc, List.singleton_append] at h
    rcases List.append_eq_append_iff.mp h with ⟨c, rfl, hc⟩ | ⟨c, rfl, hc⟩
    · cases c with
      | nil =>
        cases hc
        rfl
      | cons x c =>
        rw [List.cons_append, List.cons.injEq] at hc
        have : (10 : UInt8) ∈ [0] := by
          rw [hc.2]
          simp
        simp at this
    · cases c with
      | nil =>
        cases hc
        rfl
      | cons x c =>
        rw [List.cons_append, List.cons.injEq] at hc
        obtain ⟨rfl, -⟩ := hc
        simp at hl

/-- A text with nothing but `=` before the first word and no `=` behind it is no entry. -/
theorem not_entry {key p ds f t value : Bytes} (hds : ∀ d ∈ ds, d = 61) (hf : (61 : UInt8) ∉ f)
    (hp : p ++ [0] = ds ++ (f ++ 0 :: t)) : ¬ Entry key p value := by
  rintro ⟨-, h⟩
  have htext : pieceText p = ds ++ pieceText f := by
    have h10 : (10 : UInt8) ∉ ds := fun h => newline_ne_eq (hds 10 h)
    have h0 : (0 : UInt8) ∉ ds := fun h => eq_ne_zero (hds 0 h).symm
    rw [← pieceText_append_nul p [], hp, pieceText_append h10 h0, pieceText_append_nul]
  rw [htext, List.dropWhile_append_of_pos (by simpa using hds)] at h
  have hmem : (61 : UInt8) ∈ (pieceText f).dropWhile (· = 61) := by
    rw [h]
    simp
  have htail : (61 : UInt8) ∈ pieceText f := (List.dropWhile_suffix _).subset hmem
  exact hf ((List.takeWhile_prefix _).subset htail)

/-- What a piece is an entry for. -/
theorem entry_iff {key p ds f text value : Bytes} (hds : ∀ d ∈ ds, d = 61) (hne : f ≠ []) (hf : (61 : UInt8) ∉ f)
    (hkey : (61 : UInt8) ∉ key) (hp : pieceText p = ds ++ (f ++ 61 :: text)) :
    Entry key p value ↔ value ≠ [] ∧ f = key ∧ text = value := by
  have hdrop : (pieceText p).dropWhile (· = 61) = f ++ 61 :: text := by
    obtain ⟨b, f, rfl⟩ := List.exists_cons_of_ne_nil hne
    rw [List.mem_cons, not_or] at hf
    rw [hp, List.dropWhile_append_of_pos (by simpa using hds)]
    exact List.dropWhile_cons_of_neg (by simpa using Ne.symm hf.1)
  rw [Entry, hdrop, append_sep_inj hf hkey]

/-- A line of which both words were cut off. -/
theorem confLine_eq (key : Key) {line line' ds f g t : Bytes} {save save' : ℕ} (h0f : (0 : UInt8) ∉ f)
    (h0g : (0 : UInt8) ∉ g) (hkey : strtok line 0 61 = .ok (line', some ds.length, save))
    (hvalue : strtok line' save 10 =
      .ok (ds ++ (f ++ 0 :: (g ++ 0 :: t)), some (ds ++ (f ++ [0])).length, save')) :
    confLine key.toCStr line = .ok (if f = key.bytes then some ⟨g, h0g⟩ else none) := by
  have hword : cstr ((ds ++ (f ++ 0 :: (g ++ 0 :: t))).drop ds.length) = f := by
    rw [List.drop_left, cstr_append_nul h0f]
  have hrest : (ds ++ (f ++ 0 :: (g ++ 0 :: t))).drop (ds ++ (f ++ [0])).length = g ++ 0 :: t := by
    rw [show ds ++ (f ++ 0 :: (g ++ 0 :: t)) = ds ++ (f ++ [0]) ++ (g ++ 0 :: t) by simp, List.drop_left]
  have hdup : CStr.ofBytes (g ++ 0 :: t) = ⟨g, h0g⟩ := by
    simp only [CStr.ofBytes, cstr_append_nul h0g]
  unfold confLine
  simp only [hkey, hvalue, ok_bind, hword, hrest, hdup]
  by_cases hf : f = key.bytes
  · -- the key has no `#`
    have hhash : strchr (ds ++ (f ++ 0 :: (g ++ 0 :: t))) ds.length 35 = .ok none :=
      strchr_eq (.inr rfl) (hf ▸ key.noHash) h0f
    rw [if_neg (not_not.mpr hf.symm), hhash, if_pos hf]
    rfl
  · rw [if_pos (Ne.symm hf), if_neg hf]
    rfl

/-- A line without a key, or without a `=` behind it. -/
theorem confLine_noEq (keyname : CStr) {ds f t : Bytes} (hds : ∀ d ∈ ds, d = 61) (hcf : (61 : UInt8) ∉ f)
    (h0f : (0 : UInt8) ∉ f) : confLine keyname (ds ++ (f ++ 0 :: t)) = .ok none := by
  have hvalue : strtok (ds ++ (f ++ 0 :: t)) (ds ++ f).length 10 =
      .ok (ds ++ (f ++ 0 :: t), none, (ds ++ f ++ []).length) := by
    have := @strtok_none 10 newline_ne_zero (ds ++ f) [] (by simp) t
    rwa [List.nil_append, List.append_assoc ds f (0 :: t)] at this
  unfold confLine
  by_cases hf : f = []
  · subst hf
    have hkey : strtok (ds ++ ([] ++ 0 :: t)) 0 61 = .ok (ds ++ ([] ++ 0 :: t), none, (ds ++ []).length) := by
      rw [List.append_nil]
      exact strtok_none eq_ne_zero [] hds t
    simp only [hkey, hvalue, ok_bind, pure_eq_ok]
  · have hkey : strtok (ds ++ (f ++ 0 :: t)) 0 61 =
        .ok (ds ++ (f ++ 0 :: t), some ds.length, (ds ++ f).length) := strtok_last [] hds hf hcf h0f t
    simp only [hkey, hvalue, ok_bind, pure_eq_ok]

section

variable (key : Key) {ds f : Bytes} (hds : ∀ d ∈ ds, d = 61) (hne : f ≠ []) (hcf : (61 : UInt8) ∉ f)
  (h0f : (0 : UInt8) ∉ f)

include hds hne hcf h0f

/-- The first `strtok` ends the key in place. -/
theorem strtok_key (t : Bytes) : strtok (ds ++ (f ++ 61 :: t)) 0 61 =
    .ok (ds ++ (f ++ [0]) ++ t, some ds.length, (ds ++ (f ++ [0])).length) := by
  have hcut := strtok_cut [] hds hne hcf h0f eq_ne_zero t
  simpa using hcut

/-- A line with nothing behind the `=`. -/
theorem confLine_noValue {ns : Bytes} (hns : ∀ n ∈ ns, n = 10) (t : Bytes) :
    confLine key.toCStr (ds ++ (f ++ 61 :: (ns ++ 0 :: t))) = .ok none := by
  have hkey := strtok_key hds hne hcf h0f (ns ++ 0 :: t)
  have hvalue := strtok_none newline_ne_zero (ds ++ (f ++ [0])) hns t
  unfold confLine
  simp only [hkey, ok_bind, hvalue, pure_eq_ok]

/-- A line with a value behind the `=`. -/
theorem confLine_value {g : Bytes} (hg : g ≠ []) (hcg : (10 : UInt8) ∉ g) (h0g : (0 : UInt8) ∉ g) {b : UInt8}
    (hb : b = 0 ∨ b = 10) (t : Bytes) : confLine key.toCStr (ds ++ (f ++ 61 :: (g ++ b :: t))) =
      .ok (if f = key.bytes then some ⟨g, h0g⟩ else none) := by
  obtain ⟨save, hvalue⟩ : ∃ save, strtok (ds ++ (f ++ [0]) ++ (g ++ b :: t)) (ds ++ (f ++ [0])).length 10 =
      .ok (ds ++ (f ++ 0 :: (g ++ 0 :: t)), some (ds ++ (f ++ [0])).length, save) := by
    have hbuf : ds ++ (f ++ 0 :: (g ++ 0 :: t)) = ds ++ (f ++ [0]) ++ (g ++ 0 :: t) := by simp
    rw [hbuf]
    rcases hb with rfl | rfl
    · have hlast := @strtok_last 10 (ds ++ (f ++ [0])) [] g (by simp) hg hcg h0g t
      rw [List.append_nil] at hlast
      exact ⟨_, hlast⟩
    · have hcut := @strtok_cut 10 (ds ++ (f ++ [0])) [] g (by simp) hg hcg h0g newline_ne_zero t
      rw [List.append_nil] at hcut
      exact ⟨_, hcut⟩
  exact confLine_eq key h0f h0g (strtok_key hds hne hcf h0f (g ++ b :: t)) hvalue

/-- A line with a key and a `=`: the value is what is behind the `=`, up to the end of the line. -/
theorem confLine_cut {t : Bytes} (ht : (0 : UInt8) ∈ t) (hnewline : ∀ rest, t = 10 :: rest → rest = [0]) :
    ∃ r, confLine key.toCStr (ds ++ (f ++ 61 :: t)) = .ok r ∧
      ∀ v, r = some v ↔ v.bytes ≠ [] ∧ f = key.bytes ∧ pieceText t = v.bytes := by
  obtain ⟨ns, g, b, t, rfl, hns, hcg, h0g, hends⟩ := exists_word newline_ne_zero ht
  have hends' : g = [] ∧ b = 0 ∨ g ≠ [] ∧ (b = 0 ∨ b = 10) := by
    rcases hends with h | ⟨hg, h⟩ | ⟨hg, h, -⟩
    · exact .inl h
    · exact .inr ⟨hg, .inl h⟩
    · exact .inr ⟨hg, .inr h⟩
  rcases hends' with ⟨rfl, rfl⟩ | ⟨hg, hb⟩
  · have hnone : pieceText (ns ++ 0 :: t) = [] := by
      rw [pieceText_append_nul]
      cases ns with
      | nil => rfl
      | cons n ns =>
        rw [hns n List.mem_cons_self]
        rfl
    refine ⟨none, confLine_noValue key hds hne hcf h0f hns t, fun v => ⟨by simp, fun ⟨hv, _, hempty⟩ => ?_⟩⟩
    exact absurd (hempty.symm.trans hnone) hv
  · -- no newline is before the value
    obtain rfl : ns = [] := by
      cases ns with
      | nil => rfl
      | cons n ns =>
        obtain rfl := hns n List.mem_cons_self
        have hlen := congrArg List.length (hnewline (ns ++ (g ++ b :: t)) rfl)
        rw [List.length_append, List.length_append, List.length_cons, List.length_singleton] at hlen
        have hpos := List.length_pos_iff.mpr hg
        omega
    have hsome : pieceText ([] ++ (g ++ b :: t)) = g := by
      rw [List.nil_append, pieceText_append hcg h0g]
      rcases hb with rfl | rfl
      · exact List.append_nil g
      · exact List.append_nil g
    refine ⟨_, confLine_value key hds hne hcf h0f hg hcg h0g hb t, fun v => ?_⟩
    rw [hsome]
    constructor
    · intro h
      split_ifs at h with hf
      cases h
      exact ⟨hg, hf, rfl⟩
    · rintro ⟨-, hf, rfl⟩
      rw [if_pos hf]

end

/-- **One piece**: the value of an entry is found, and nothing else. -/
theorem confLine_spec (key : Key) {l p : Bytes} (hl : (10 : UInt8) ∉ l) (hp : p = l ∨ p = l ++ [10]) :
    ∃ r, confLine key.toCStr (p ++ [0]) = .ok r ∧ ∀ v, r = some v ↔ Entry key.bytes p v.bytes := by
  obtain ⟨ds, f, b, t, hsplit, hds, hcf, h0f, hends⟩ := exists_word eq_ne_zero (show (0 : UInt8) ∈ p ++ [0] by simp)
  have hnoEq : b = 0 → ∃ r, confLine key.toCStr (p ++ [0]) = .ok r ∧ ∀ v, r = some v ↔ Entry key.bytes p v.bytes := by
    rintro rfl
    refine ⟨none, ?_, fun v => ⟨by simp, fun hv => absurd hv (not_entry hds hcf hsplit)⟩⟩
    rw [hsplit]
    exact confLine_noEq key.toCStr hds hcf h0f
  rcases hends with ⟨-, h0⟩ | ⟨-, h0⟩ | ⟨hne, rfl, ht⟩
  · exact hnoEq h0
  · exact hnoEq h0
  · have h10f : (10 : UInt8) ∉ f := by
      intro h
      obtain ⟨f₁, f₂, rfl⟩ := List.append_of_mem h
      have hrest := eq_of_newline hl hp (ds ++ f₁) (f₂ ++ 61 :: t) (by rw [hsplit]; simp)
      have : (61 : UInt8) ∈ [0] := by
        rw [← hrest]
        simp
      simp at this
    have htext : pieceText p = ds ++ (f ++ 61 :: pieceText t) := by
      have h := @pieceText_append (ds ++ (f ++ [61])) ?_ ?_ t
      · rw [← pieceText_append_nul p [], hsplit]
        simpa using h
      · simp only [List.mem_append, List.mem_singleton, not_or]
        exact ⟨fun h => newline_ne_eq (hds 10 h), h10f, newline_ne_eq⟩
      · simp only [List.mem_append, List.mem_singleton, not_or]
        exact ⟨fun h => eq_ne_zero (hds 0 h).symm, h0f, eq_ne_zero.symm⟩
    have hnewline : ∀ rest, t = 10 :: rest → rest = [0] := by
      rintro rest rfl
      exact eq_of_newline hl hp (ds ++ (f ++ [61])) rest (by rw [hsplit]; simp)
    obtain ⟨r, hline, hr⟩ := confLine_cut key hds hne hcf h0f ht hnewline
    refine ⟨r, ?_, fun v => ?_⟩
    · rw [hsplit]
      exact hline
    · rw [hr, entry_iff hds hne hcf key.noEq htext]

theorem pieceText_line {line : Bytes} (h10 : (10 : UInt8) ∉ line) (h0 : (0 : UInt8) ∉ line) :
    pieceText line = line ∧ pieceText (line ++ [10]) = line := by
  have hnil := pieceText_append h10 h0 []
  rw [List.append_nil] at hnil
  exact ⟨hnil.trans (List.append_nil line), (pieceText_append h10 h0 [10]).trans (List.append_nil line)⟩

/-- A line that gives a value, and begins with no `=`, is taken for what it is. -/
theorem entry_iff_assigns (key : Key) {line p value : Bytes} (hnoEq : line.head? ≠ some 61)
    (hvalue : line ≠ key.bytes ++ [61]) (hp : pieceText p = line) :
    Entry key.bytes p value ↔ Assigns key.bytes line value := by
  have hdrop : line.dropWhile (· = 61) = line := by
    cases line with
    | nil => rfl
    | cons b line => exact List.dropWhile_cons_of_neg (by simpa using hnoEq)
  rw [assigns_iff, Entry, hp, hdrop, and_iff_right_iff_imp]
  rintro rfl rfl
  exact hvalue rfl

/-- The key, a `=` and a value are taken for the line they are. -/
theorem entry_self (key : Key) (hkey : key.bytes ≠ []) {value : Bytes} (hne : value ≠ []) (h10 : (10 : UInt8) ∉ value)
    (h0 : (0 : UInt8) ∉ value) : Entry key.bytes (key.bytes ++ 61 :: value) value := by
  have htext : pieceText (key.bytes ++ 61 :: value) = key.bytes ++ 61 :: value := by
    refine (pieceText_line ?_ ?_).1
    · simp [key.noNewline, h10]
    · simp [key.noNul, h0]
  refine (entry_iff_assigns key ?_ ?_ htext).mpr ((assigns_iff key).mpr rfl)
  · obtain ⟨b, bs, hb⟩ := List.exists_cons_of_ne_nil hkey
    have hnoEq := key.noEq
    rw [hb, List.mem_cons, not_or] at hnoEq
    simpa [hb] using Ne.symm hnoEq.1
  · intro h
    exact hne (List.cons.inj (List.append_cancel_left h)).2

/-- What is taken for a line of the key is longer than the key and a `=`. -/
theorem Entry.length_lt {key p value : Bytes} (h : Entry key p value) : key ≠ [] ∧ key.length + 1 < p.length := by
  obtain ⟨hne, h⟩ := h
  constructor
  · rintro rfl
    have hhead := List.head?_dropWhile_not (fun b : UInt8 => decide (b = 61)) (pieceText p)
    simp [h] at hhead
  · have hpos := List.length_pos_iff.mpr hne
    have hlen := congrArg List.length h
    have hle := (List.dropWhile_suffix (fun b : UInt8 => decide (b = 61)) (l := pieceText p)).length_le
    have hle' : (pieceText p).length ≤ p.length := (List.takeWhile_prefix _).length_le
    rw [List.length_append, List.length_cons] at hlen
    omega

/-! ### The whole file -/

theorem Entry.noNul {key p value : Bytes} (h : Entry key p value) : (0 : UInt8) ∉ value := by
  intro h0
  have hmem : (0 : UInt8) ∈ (pieceText p).dropWhile (· = 61) := by
    rw [h.2]
    simp [h0]
  have htext : (0 : UInt8) ∈ pieceText p := (List.dropWhile_suffix _).subset hmem
  have := List.mem_takeWhile_imp htext
  simp at this

theorem Entry.unique {key p value value' : Bytes} (h : Entry key p value) (h' : Entry key p value') :
    value = value' :=
  (List.cons.inj (List.append_cancel_left (h.2.symm.trans h'.2))).2

theorem confLines_spec (key : Key) {pieces : List Bytes}
    (hpieces : ∀ p ∈ pieces, ∃ l, (10 : UInt8) ∉ l ∧ (p = l ∨ p = l ++ [10])) :
    ∃ r, confLines key.toCStr pieces = .ok r ∧ ∀ v, r = some v ↔ First (Entry key.bytes) pieces v.bytes := by
  induction pieces with
  | nil => exact ⟨none, rfl, fun v => ⟨by simp, fun h => absurd h not_first_nil⟩⟩
  | cons p pieces ih =>
    rw [List.forall_mem_cons] at hpieces
    obtain ⟨⟨l, hl, hp⟩, hpieces⟩ := hpieces
    obtain ⟨r, hline, hr⟩ := confLine_spec key hl hp
    cases r with
    | none =>
      obtain ⟨r, hlines, hr'⟩ := ih hpieces
      have hnot : ∀ value, ¬ Entry key.bytes p value := fun value hv => by
        cases (hr ⟨value, hv.noNul⟩).mpr hv
      refine ⟨r, ?_, fun v => (hr' v).trans (first_cons_of_not_rel hnot).symm⟩
      rw [confLines, hline, ok_bind]
      exact hlines
    | some value =>
      refine ⟨some value, ?_, fun v => (hr v).trans (first_cons_of_rel ((hr value).mp rfl)).symm⟩
      rw [confLines, hline, ok_bind]
      rfl

/-- A text is taken for a number: for `0` if it is `0`, and for another one if it begins with a number
that as an `int` is this one. -/
def Counts (text : Bytes) (n : ℤ) : Prop :=
  n = 0 ∧ text = ascii "0" ∨ n ≠ 0 ∧ ∃ i, Spells text i ∧ n = Int.bmod (clampLL i) (2 ^ 32)

theorem counts_iff {s : CStr} {n : ℤ} : Counts s.bytes n ↔ atoi s = n ∧ (n = 0 → s.bytes = ascii "0") := by
  by_cases hn : n = 0
  · subst hn
    have hzero : s.bytes = ascii "0" → atoi s = 0 := fun h => atoi_decNat (n := 0) (by decide) h
    simp only [Counts, true_and, ne_eq, not_true_eq_false, false_and, or_false, forall_true_left]
    exact ⟨fun h => ⟨hzero h, h⟩, And.right⟩
  · simp only [Counts, hn, false_and, false_or, ne_eq, not_false_eq_true, true_and, false_imp_iff, and_true]
    exact (atoi_eq_iff hn).symm

/-! ### Pieces and lines -/

/-- Bytes before the first newline belong to the first line. -/
theorem splitOn_append_of_notMem {p : Bytes} (h : (10 : UInt8) ∉ p) (rest : Bytes) :
    (p ++ rest).splitOn 10 = (rest.splitOn 10).modifyHead (p ++ ·) := by
  induction p with
  | nil =>
    rw [List.nil_append]
    exact List.modifyHead_id.symm ▸ rfl
  | cons b p ih =>
    rw [List.mem_cons, not_or] at h
    rw [List.cons_append, List.splitOn_cons_eq_if_modifyHead, if_neg (by simpa using Ne.symm h.1), ih h.2,
      List.modifyHead_modifyHead]
    rfl

theorem pieceText_newline (line : Bytes) : pieceText (line ++ [10]) = pieceText line := by
  induction line with
  | nil => rfl
  | cons b line ih =>
    unfold pieceText at ih ⊢
    rw [List.cons_append, List.takeWhile_cons, List.takeWhile_cons, ih]

theorem not_entry_nil {key value : Bytes} : ¬ Entry key [] value := by
  rintro ⟨-, h⟩
  simp [pieceText] at h

section

variable {key line p value : Bytes}

theorem part_append (hp : p.length = LINE_SIZE - 1) (n : ℕ) : part (p ++ line) (n + 1) = part line n := by
  unfold part
  rw [Nat.mul_succ, Nat.add_comm, ← List.drop_drop, ← hp, List.drop_left]

/-- A line that fits is its own part. -/
theorem passes_of_le (h : line.length ≤ LINE_SIZE - 1) : Passes key line value ↔ Entry key line value := by
  have hzero : part line 0 = line := List.take_of_length_le h
  have hsucc : ∀ n, part line (n + 1) = [] := by
    intro n
    have hlong : line.length ≤ (LINE_SIZE - 1) * (n + 1) := h.trans (Nat.le_mul_of_pos_right _ (Nat.succ_pos n))
    rw [part, List.drop_eq_nil_of_le hlong, List.take_nil]
  constructor
  · rintro ⟨n, hn, -⟩
    cases n with
    | zero => rwa [hzero] at hn
    | succ n =>
      rw [hsucc] at hn
      exact absurd hn not_entry_nil
  · intro h
    exact ⟨0, by rwa [hzero], fun m hm => absurd hm (Nat.not_lt_zero m)⟩

/-- Of a longer line the first part is looked at first. -/
theorem passes_append_of_entry (hp : p.length = LINE_SIZE - 1) {value' : Bytes} (h : Entry key p value') :
    Passes key (p ++ line) value ↔ Entry key p value := by
  have hzero : part (p ++ line) 0 = p := List.take_left' hp
  constructor
  · rintro ⟨n, hn, hfirst⟩
    cases n with
    | zero => rwa [hzero] at hn
    | succ n => exact absurd (hzero.symm ▸ h) (hfirst 0 (Nat.succ_pos n) value')
  · intro h
    exact ⟨0, by rwa [hzero], fun m hm => absurd hm (Nat.not_lt_zero m)⟩

theorem passes_append_of_not_entry (hp : p.length = LINE_SIZE - 1) (h : ∀ value', ¬ Entry key p value') :
    Passes key (p ++ line) value ↔ Passes key line value := by
  have hzero : part (p ++ line) 0 = p := List.take_left' hp
  constructor
  · rintro ⟨n, hn, hfirst⟩
    cases n with
    | zero => exact absurd (hzero ▸ hn) (h value)
    | succ n =>
      rw [part_append hp] at hn
      refine ⟨n, hn, fun m hm => ?_⟩
      rw [← part_append hp]
      exact hfirst (m + 1) (Nat.succ_lt_succ hm)
  · rintro ⟨n, hn, hfirst⟩
    refine ⟨n + 1, by rwa [part_append hp], fun m hm => ?_⟩
    cases m with
    | zero => rwa [hzero]
    | succ m =>
      rw [part_append hp]
      exact hfirst m (Nat.lt_of_succ_lt_succ hm)

end

/-- The buffer is full before the line ends: the rest of the line goes on from there. -/
theorem first_entry_cut {key p rest : Bytes} (hp : p.length = LINE_SIZE - 1) (h10 : (10 : UInt8) ∉ p)
    (ih : ∀ v, First (Entry key) (fgetsPieces LINE_SIZE (LINE_SIZE - 1) rest) v ↔
      First (Passes key) (rest.splitOn 10) v) (value : Bytes) :
    First (Entry key) (fgetsPieces LINE_SIZE (LINE_SIZE - 1) (p ++ rest)) value ↔
      First (Passes key) ((p ++ rest).splitOn 10) value := by
  have hpne : p ≠ [] := by
    rintro rfl
    cases hp
  obtain ⟨line, lines, hlines⟩ := List.exists_cons_of_ne_nil (List.splitOn_ne_nil 10 rest)
  have hsplit : (p ++ rest).splitOn 10 = (p ++ line) :: lines := by
    rw [splitOn_append_of_notMem h10, hlines]
    rfl
  rw [hlines] at ih
  have hpieces : fgetsPieces LINE_SIZE (LINE_SIZE - 1) (p ++ rest) =
      p :: fgetsPieces LINE_SIZE (LINE_SIZE - 1) rest := by
    have hcut := @fgetsPieces_cut LINE_SIZE p h10 hpne rest
    rwa [hp] at hcut
  rw [hpieces, hsplit]
  by_cases hentry : ∃ value', Entry key p value'
  · obtain ⟨value', hvalue'⟩ := hentry
    rw [first_cons_of_rel hvalue', first_cons_of_rel ((passes_append_of_entry hp hvalue').mpr hvalue'),
      passes_append_of_entry hp hvalue']
  · rw [not_exists] at hentry
    rw [first_cons_of_not_rel hentry, ih]
    exact first_cons_congr (fun v => (passes_append_of_not_entry hp hentry).symm) fun v => Iff.rfl

/-- The line and its newline fit into the buffer. -/
theorem first_entry_line {key line rest : Bytes} (hl : (10 : UInt8) ∉ line) (hroom : line.length < LINE_SIZE - 1)
    (ih : ∀ v, First (Entry key) (fgetsPieces LINE_SIZE (LINE_SIZE - 1) rest) v ↔
      First (Passes key) (rest.splitOn 10) v) (value : Bytes) :
    First (Entry key) (fgetsPieces LINE_SIZE (LINE_SIZE - 1) (line ++ 10 :: rest)) value ↔
      First (Passes key) ((line ++ 10 :: rest).splitOn 10) value := by
  have hlines : (line ++ 10 :: rest).splitOn 10 = line :: rest.splitOn 10 :=
    List.splitOn_append_cons_self_of_not_mem hl rest
  rw [hlines, fgetsPieces_append hl rest hroom]
  refine first_cons_congr (fun v => ?_) ih
  rw [passes_of_le hroom.le, Entry, Entry, pieceText_newline]

/-- The last line, without a newline. -/
theorem first_entry_last {key content : Bytes} (h10 : (10 : UInt8) ∉ content)
    (hroom : content.length ≤ LINE_SIZE - 1) (value : Bytes) :
    First (Entry key) (fgetsPieces LINE_SIZE (LINE_SIZE - 1) content) value ↔
      First (Passes key) (content.splitOn 10) value := by
  rw [List.splitOn_eq_singleton h10]
  by_cases hne : content = []
  · subst hne
    have hnone : ∀ v, ¬ Passes key [] v := fun v h => not_entry_nil ((passes_of_le (Nat.zero_le _)).mp h)
    rw [first_cons_of_not_rel hnone]
    exact iff_of_false not_first_nil not_first_nil
  · rw [fgetsPieces_last h10 hne hroom]
    exact first_cons_congr (fun v => (passes_of_le hroom).symm) fun v => iff_of_false not_first_nil not_first_nil

/-- **The first piece that is taken for a line of the key** is in the first line that passes for one. -/
theorem first_entry_iff (key : Bytes) (content value : Bytes) :
    First (Entry key) (fgetsPieces LINE_SIZE (LINE_SIZE - 1) content) value ↔
      First (Passes key) (content.splitOn 10) value := by
  induction hlen : content.length using Nat.strong_induction_on generalizing content value with
  | _ n ih =>
    by_cases hlong : LINE_SIZE - 1 ≤ content.length ∧ (10 : UInt8) ∉ content.take (LINE_SIZE - 1)
    · obtain ⟨hle, h10⟩ := hlong
      obtain ⟨p, rest, hp, rfl⟩ : ∃ p rest : Bytes, p.length = LINE_SIZE - 1 ∧ content = p ++ rest :=
        ⟨_, _, List.length_take_of_le hle, (List.take_append_drop (LINE_SIZE - 1) content).symm⟩
      rw [List.take_left' hp] at h10
      have hrest : rest.length < n := by
        rw [← hlen, List.length_append, hp]
        exact Nat.lt_add_of_pos_left (by decide)
      exact first_entry_cut hp h10 (fun v => ih _ hrest rest v rfl) value
    · by_cases h10 : (10 : UInt8) ∈ content
      · obtain ⟨line, rest, rfl, hl⟩ := List.eq_append_cons_of_mem h10
        have hroom : line.length < LINE_SIZE - 1 := by
          by_contra hfull
          rw [not_lt] at hfull
          refine hlong ⟨?_, ?_⟩
          · rw [List.length_append]
            omega
          · rw [List.take_append_of_le_length hfull]
            exact fun h => hl (List.mem_of_mem_take h)
        have hrest : rest.length < n := by
          rw [← hlen, List.length_append, List.length_cons]
          omega
        exact first_entry_line hl hroom (fun v => ih _ hrest rest v rfl) value
      · have hroom : content.length ≤ LINE_SIZE - 1 := by
          by_contra hfull
          exact hlong ⟨(not_le.mp hfull).le, fun h => h10 (List.mem_of_mem_take h)⟩
        exact first_entry_last h10 hroom value

/-! ### Numbers -/

/-- Which numbers wrap to a positive `int`, and which to `0` or `-1`. -/
theorem eq_bmod_clampLL_iff {i : ℤ} {k : ℕ} (h0 : k ≠ 0) (hk : k ≤ INT_MAX) :
    (k : ℤ) = Int.bmod (clampLL i) (2 ^ 32) ↔ LLONG_MIN ≤ i ∧ i ≤ LLONG_MAX ∧ i % 2 ^ 32 = k := by
  unfold clampLL LLONG_MIN LLONG_MAX
  unfold INT_MAX at hk
  rw [Int.bmod_def]
  split <;> omega

theorem bmod_clampLL_void_iff {i : ℤ} :
    (Int.bmod (clampLL i) (2 ^ 32) = 0 ∨ Int.bmod (clampLL i) (2 ^ 32) = -1) ↔
      (LLONG_MIN ≤ i → i ≤ LLONG_MAX → i % 2 ^ 32 = 0 ∨ i % 2 ^ 32 = 2 ^ 32 - 1) := by
  unfold clampLL LLONG_MIN LLONG_MAX
  rw [Int.bmod_def]
  split <;> omega

/-- The digits of a text that has nothing else spell its number. -/
theorem spells_digits {ds : Bytes} (hne : ds ≠ []) (hds : ∀ c ∈ ds, isDigit c = true) : Spells ds (digitsVal ds) :=
  ⟨[], [], ds, [], by simp, by simp, .inl rfl, hne, hds, by simp, by simp⟩

/-- What is taken for a number is read as it. -/
theorem counts_iff_means {text : Bytes} {k : ℕ} (hk : k ≤ INT_MAX) : Counts text k ↔ Means text k := by
  by_cases h0 : k = 0
  · subst h0
    simp only [Counts, Means, Nat.cast_zero, true_and, ne_eq, not_true_eq_false, false_and, or_false]
    exact Iff.rfl
  · have hne : (k : ℤ) ≠ 0 := Int.natCast_ne_zero.mpr h0
    simp only [Counts, Means, hne, h0, false_and, false_or, ne_eq, not_false_eq_true, true_and,
      eq_bmod_clampLL_iff h0 hk]
    refine (or_iff_right_of_imp ?_).symm
    rintro rfl
    refine ⟨k, ?_, (eq_bmod_clampLL_iff h0 hk).mp ?_⟩
    · have hspells := spells_digits (decNat_ne_nil k) fun c hc => isDigit_of_mem_decNat hc
      rwa [digitsVal_decNat] at hspells
    · exact ((eq_bmod_clampLL_iff h0 hk).mpr (by unfold LLONG_MIN LLONG_MAX; unfold INT_MAX at hk; omega))

/-- A numeral is taken for its number. -/
theorem counts_decNat {k : ℕ} (hk : k ≤ INT_MAX) : Counts (decNat k) k := by
  have hatoi : atoi ⟨decNat k, zero_notMem_decNat k⟩ = k := atoi_decNat (by unfold INT_MAX at hk; omega) rfl
  refine counts_iff.mpr ⟨hatoi, fun h => ?_⟩
  rw [Int.natCast_eq_zero.mp h]
  rfl

/-- A void text is taken for no number. -/
theorem void_iff {text : Bytes} : Void text ↔ ∀ n, n ≠ -1 → ¬ Counts text n := by
  simp only [Void, ← bmod_clampLL_void_iff]
  constructor
  · rintro ⟨hzero, hvoid⟩ n hn (⟨rfl, h⟩ | ⟨h0, i, hi, rfl⟩)
    · exact hzero h
    · exact (hvoid i hi).elim h0 hn
  · intro h
    refine ⟨fun hzero => h 0 (by decide) (.inl ⟨rfl, hzero⟩), fun i hi => ?_⟩
    by_contra hnot
    rw [not_or] at hnot
    exact h _ hnot.2 (.inr ⟨hnot.1, i, hi, rfl⟩)

/-- A part of a numeral is not taken for its number. -/
theorem not_counts_of_prefix {k : ℕ} (hk : k ≤ INT_MAX) {ds es : Bytes} (h : decNat k = ds ++ es) (hds : ds ≠ [])
    (hes : es ≠ []) : ¬ Counts ds k := by
  have hlt := digitsVal_lt_of_prefix h hds hes
  have hdigits : ∀ c ∈ ds, isDigit c = true := fun c hc => isDigit_of_mem_decNat (h ▸ List.mem_append_left es hc)
  have h0 : (0 : UInt8) ∉ ds := fun hc => absurd (hdigits 0 hc) (by decide)
  intro hcounts
  obtain ⟨endp, hread⟩ := strtoll_of_spells (spells_digits hds hdigits)
  have hatoi : (k : ℤ) = Int.bmod (clampLL (digitsVal ds)) (2 ^ 32) := by
    rw [← ((counts_iff (s := ⟨ds, h0⟩)).mp hcounts).1, atoi, hread]
  have hmod := ((eq_bmod_clampLL_iff (by omega) hk).mp hatoi).2.2
  unfold INT_MAX at hk
  omega

/-- **What `get_conf_int` returns** other than `-1`: the number that the value of the first line that
passes for one of the key is taken for. -/
theorem getConfInt_spec (content : Bytes) (key : Key) : ∃ r, getConfInt (some content) key.toCStr = .ok r ∧
    ∀ n, n ≠ -1 → (r = n ↔ ∃ text, Passed content key text ∧ Counts text n) := by
  obtain ⟨found, hlines, hfound⟩ := confLines_spec key fun p (hp : p ∈ fgetsPieces LINE_SIZE (LINE_SIZE - 1) content) =>
    newline_of_mem_fgetsPieces hp
  simp only [first_entry_iff] at hfound
  have hentered : ∀ text, Passed content key text → ∃ v : CStr, found = some v ∧ v.bytes = text := by
    rintro text h
    obtain ⟨pre, line, post, -, -, n, hentry, -⟩ := id h
    exact ⟨⟨text, hentry.noNul⟩, (hfound _).mpr h, rfl⟩
  unfold getConfInt getConfStr
  simp only [hlines, ok_bind]
  cases found with
  | none =>
    refine ⟨-1, rfl, fun n hn => ⟨fun h => absurd h.symm hn, ?_⟩⟩
    rintro ⟨text, htext, -⟩
    obtain ⟨v, hv, -⟩ := hentered text htext
    cases hv
  | some v =>
    have hv : ∀ n, (∃ text, Passed content key text ∧ Counts text n) ↔ Counts v.bytes n := by
      intro n
      constructor
      · rintro ⟨text, htext, hcounts⟩
        obtain ⟨v', hv', rfl⟩ := hentered text htext
        cases hv'
        exact hcounts
      · exact fun h => ⟨v.bytes, (hfound v).mp rfl, h⟩
    simp only [hv, counts_iff]
    by_cases h0 : atoi v = 0 ∧ v.bytes ≠ ascii "0"
    · refine ⟨-1, by rw [if_pos h0]; rfl, fun n hn => ⟨fun h => absurd h.symm hn, ?_⟩⟩
      rintro ⟨rfl, h⟩
      exact absurd (h h0.1) h0.2
    · refine ⟨atoi v, by rw [if_neg h0]; rfl, fun n hn => ⟨fun h => ⟨h, fun hz => ?_⟩, And.left⟩⟩
      by_contra hne
      exact h0 ⟨h.trans hz, hne⟩

theorem assigned_unique {content : Bytes} {key : Key} {value value' : Bytes} (h : Assigned content key value)
    (h' : Assigned content key value') : value = value' :=
  First.unique (fun _ _ _ hv hv' => (List.cons.inj (hv.2.2.symm.trans hv'.2.2)).2) h h'

/-- The key's line passes for itself if it fits, and otherwise for none with its number. -/
theorem passed_numeral_iff (key : Key) {k : ℕ} (hk : k ≤ INT_MAX) {line : Bytes}
    (hline : Assigns key.bytes line (decNat k)) (post : List Bytes) :
    (∃ text, First (Passes key.bytes) (line :: post) text ∧ Counts text k) ↔
      key.bytes ≠ [] ∧ line.length < LINE_SIZE := by
  obtain rfl := (assigns_iff key).mp hline
  constructor
  · rintro ⟨text, hfirst, hcounts⟩
    obtain ⟨l, -, text', n, hentry, -⟩ := hfirst.exists_rel
    obtain ⟨hkey, hroom⟩ := hentry.length_lt
    have hpart : (part l n).length ≤ LINE_SIZE - 1 := List.length_take_le _ _
    refine ⟨hkey, ?_⟩
    by_contra hlong
    -- the line is cut inside its numeral
    obtain ⟨m, hm⟩ : ∃ m, LINE_SIZE - 1 = key.bytes.length + 1 + (m + 1) :=
      ⟨LINE_SIZE - 1 - (key.bytes.length + 2), by omega⟩
    rw [List.length_append, List.length_cons, not_lt] at hlong
    have hcut : m + 1 < (decNat k).length := by omega
    have hne : (decNat k).take (m + 1) ≠ [] :=
      List.ne_nil_of_length_pos (by rw [List.length_take]; omega)
    have hline : key.bytes ++ 61 :: decNat k =
        (key.bytes ++ 61 :: (decNat k).take (m + 1)) ++ (decNat k).drop (m + 1) := by simp
    have hp : (key.bytes ++ 61 :: (decNat k).take (m + 1)).length = LINE_SIZE - 1 := by
      rw [List.length_append, List.length_cons, List.length_take_of_le hcut.le]
      omega
    have hself := entry_self key hkey hne (fun h => newline_notMem_decNat k (List.mem_of_mem_take h))
      fun h => zero_notMem_decNat k (List.mem_of_mem_take h)
    rw [hline, first_cons_of_rel ((passes_append_of_entry hp hself).mpr hself),
      passes_append_of_entry hp hself] at hfirst
    rw [hfirst.unique hself] at hcounts
    refine not_counts_of_prefix hk (List.take_append_drop (m + 1) (decNat k)).symm hne ?_ hcounts
    exact List.ne_nil_of_length_pos (by rw [List.length_drop]; omega)
  · rintro ⟨hkey, hfits⟩
    have hself := entry_self key hkey (decNat_ne_nil k) (newline_notMem_decNat k) (zero_notMem_decNat k)
    have hpasses := (passes_of_le (Nat.le_sub_one_of_lt hfits)).mpr hself
    exact ⟨decNat k, (first_cons_of_rel hpasses).mpr hpasses, counts_decNat hk⟩

/-- **The documented number**: `get_conf_int` returns the number that is the value on the first line of
the key, and `-1` if there is none, if and only if the file is one in which it is read right. -/
theorem getConfInt_contract_iff (content : Bytes) (key : Key) : Contract content key ↔ ReadsRight content key := by
  obtain ⟨r, hr, hspec⟩ := getConfInt_spec content key
  -- a numeral on the key's line is returned where the line passes for itself, or another means it
  have hnumeral : ∀ k ≤ INT_MAX, ∀ pre line post, content.splitOn 10 = pre ++ line :: post →
      Assigns key.bytes line (decNat k) → (r = k ↔
        (key.bytes ≠ [] ∧ line.length < LINE_SIZE ∧ ∀ l ∈ pre, ∀ text, ¬ Passes key.bytes l text) ∨
          ∃ text, First (Passes key.bytes) pre text ∧ Means text k) := by
    intro k hk pre line post hsplit hline
    rw [hspec k (by omega)]
    unfold Passed
    rw [hsplit]
    by_cases hpasses : ∃ l ∈ pre, ∃ text, Passes key.bytes l text
    · simp only [first_append_of_rel hpasses, counts_iff_means hk]
      refine (or_iff_right ?_).symm
      rintro ⟨-, -, hnone⟩
      obtain ⟨l, hl, text, htext⟩ := hpasses
      exact hnone l hl text htext
    · have hnone : ∀ l ∈ pre, ∀ text, ¬ Passes key.bytes l text := fun l hl text h => hpasses ⟨l, hl, text, h⟩
      simp only [first_append_of_not_rel hnone]
      rw [passed_numeral_iff key hk hline post, or_iff_left fun ⟨text, h, _⟩ => hpasses h.exists_rel]
      exact ⟨fun h => ⟨h.1, h.2, hnone⟩, fun h => ⟨h.1, h.2.1⟩⟩
  constructor
  · rintro ⟨r', hr', hge, hn⟩
    cases hr.symm.trans hr'
    constructor
    · intro k hk pre line post hsplit hpre hline
      exact (hnumeral k hk pre line post hsplit hline).mp ((hn k).mpr ⟨hk, pre, line, post, hsplit, hpre, hline⟩)
    · intro hnone text htext
      refine void_iff.mpr fun n hne hcounts => ?_
      have hrn : r = n := (hspec n hne).mpr ⟨text, htext, hcounts⟩
      obtain ⟨k, hk⟩ := Int.eq_ofNat_of_zero_le (show 0 ≤ r by omega)
      obtain ⟨hle, hassigned⟩ := (hn k).mp hk
      exact hnone k hle hassigned
  · rintro ⟨hnum, hother⟩
    by_cases hassigned : ∃ k ≤ INT_MAX, Assigned content key (decNat k)
    · obtain ⟨k, hk, pre, line, post, hsplit, hpre, hline⟩ := hassigned
      have hrk : r = k := (hnumeral k hk pre line post hsplit hline).mpr (hnum k hk pre line post hsplit hpre hline)
      refine ⟨r, hr, by omega, fun n => ⟨fun hn => ?_, fun ⟨hn, hassigned⟩ => ?_⟩⟩
      · cases Int.ofNat.inj (hrk.symm.trans hn)
        exact ⟨hk, pre, line, post, hsplit, hpre, hline⟩
      · have hsame := assigned_unique hassigned ⟨pre, line, post, hsplit, hpre, hline⟩
        rw [hrk, decNat_injective hsame]
    · have hnone : ∀ k ≤ INT_MAX, ¬ Assigned content key (decNat k) := fun k hk h => hassigned ⟨k, hk, h⟩
      have hminus : r = -1 := by
        by_contra hne
        obtain ⟨text, htext, hcounts⟩ := (hspec r hne).mp rfl
        exact void_iff.mp (hother hnone text htext) r hne hcounts
      exact ⟨r, hr, by omega, fun n => ⟨fun hn => by omega, fun ⟨hn, h⟩ => absurd h (hnone n hn)⟩⟩

/-- The key `port`. -/
def portKey : Key := ⟨⟨ascii "port", by decide⟩, by decide, by decide, by decide⟩

/-- A negative number is returned as it is, and so is one with something behind it. -/
theorem negative_number_returned :
    ¬ Contract (ascii "port=-5\n") portKey ∧ ¬ Contract (ascii "port=12abc\n") portKey := by
  constructor
  · rintro ⟨r, hr, hge, -⟩
    have hcode : getConfInt (some (ascii "port=-5\n")) portKey.toCStr = .ok (-5) := by rfl
    cases hcode.symm.trans hr
    omega
  · rintro ⟨r, hr, -, hn⟩
    have hcode : getConfInt (some (ascii "port=12abc\n")) portKey.toCStr = .ok 12 := by rfl
    cases hcode.symm.trans hr
    have hline : Assigns portKey.bytes (ascii "port=12abc") (ascii "12abc") := by decide
    have hassigned := (first_cons_of_rel hline).mp ((hn 12).mp rfl).2
    exact absurd (hassigned.2.2.symm.trans hline.2.2) (by decide)

/-! ### Plain files -/

/-- A line that fits into the buffer and is a string, does not begin with a `=`, and gives the key a value
if it is for it at all. -/
structure Plain (key line : Bytes) : Prop where
  length : line.length + 1 < LINE_SIZE
  noNul : (0 : UInt8) ∉ line
  noEq : line.head? ≠ some 61
  value : line ≠ key ++ [61]

/-- A line has no newline. -/
theorem notMem_of_mem_splitOn {content : Bytes} : ∀ line ∈ content.splitOn 10, (10 : UInt8) ∉ line := by
  induction content with
  | nil => simp
  | cons b content ih =>
    intro line hline
    rw [List.splitOn_cons_eq_if_modifyHead] at hline
    split_ifs at hline with hb
    · rcases List.mem_cons.mp hline with rfl | hline
      · simp
      · exact ih line hline
    · cases hlines : content.splitOn 10 with
      | nil => simp [hlines] at hline
      | cons l lines =>
        rw [hlines] at hline ih
        rw [List.forall_mem_cons] at ih
        rcases List.mem_cons.mp hline with rfl | hline
        · rw [List.mem_cons, not_or]
          exact ⟨fun h => hb (beq_iff_eq.mpr h.symm), ih.1⟩
        · exact ih.2 line hline

/-- A plain line passes for what it is. -/
theorem passes_iff_assigns (key : Key) {line value : Bytes} (h10 : (10 : UInt8) ∉ line)
    (hplain : Plain key.bytes line) : Passes key.bytes line value ↔ Assigns key.bytes line value := by
  rw [passes_of_le (Nat.le_sub_of_add_le hplain.length.le),
    entry_iff_assigns key hplain.noEq hplain.value (pieceText_line h10 hplain.noNul).1]

/-- In a file of plain lines the number is read right if and only if the value of the key, if there is one, is
a numeral or void. -/
theorem readsRight_iff_of_plain (key : Key) {content : Bytes}
    (hplain : ∀ line ∈ content.splitOn 10, Plain key.bytes line) :
    ReadsRight content key ↔
      ∀ value, Assigned content key value → (∃ k ≤ INT_MAX, value = decNat k) ∨ Void value := by
  have hpasses : ∀ line ∈ content.splitOn 10, ∀ value,
      Passes key.bytes line value ↔ Assigns key.bytes line value := fun line hline value =>
    passes_iff_assigns key (notMem_of_mem_splitOn line hline) (hplain line hline)
  have hpassed : ∀ value, Passed content key value ↔ Assigned content key value := fun value =>
    first_congr hpasses
  constructor
  · rintro ⟨-, hother⟩ value hvalue
    by_cases hnum : ∃ k ≤ INT_MAX, value = decNat k
    · exact .inl hnum
    · refine .inr (hother (fun k hk h => hnum ⟨k, hk, assigned_unique hvalue h⟩) value ((hpassed value).mpr hvalue))
  · intro h
    refine ⟨fun k hk pre line post hsplit hpre hline => .inl ⟨?_, ?_, ?_⟩, fun hnone text htext => ?_⟩
    · -- the line of an empty key begins with its `=`
      intro hempty
      have hhead := (hplain line (by rw [hsplit]; simp)).noEq
      rw [(assigns_iff key).mp hline, hempty] at hhead
      exact hhead rfl
    · exact (Nat.lt_succ_self _).trans (hplain line (by rw [hsplit]; simp)).length
    · intro l hl text htext
      exact hpre l hl text ((hpasses l (by rw [hsplit]; exact List.mem_append_left _ hl) text).mp htext)
    · have hvalue := (hpassed text).mp htext
      rcases h text hvalue with ⟨k, hk, rfl⟩ | hvoid
      · exact absurd hvalue (hnone k hk)
      · exact hvoid

end ToxSuite.Conf
