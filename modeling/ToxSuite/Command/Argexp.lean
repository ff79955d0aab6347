import ToxSuite.Lib.Tokens

/-!
# `command.c`: the words of a command

A friend's message that begins with a delimiter is a command. `argexp` cuts it up at its spaces,
for `getopt_long`: what follows the delimiter is written into a buffer after `"arg0 --"`, and
`strtok` gives one word of the buffer after the other. `malloc` and `realloc` are taken to
succeed; what a new allocation holds is the argument `heap`.

The words are all there, in order and uncut (`argexp_words`): the buffer is as long as what is
written into it, to the byte.
-/

namespace ToxSuite.Command

open ToxSuite.Lib

/-! ### The code -/

/-- `prefix`: `getopt_long` expects that the actual arguments start at `argv[1]`. -/
def argPrefix : Bytes := ascii "arg0 "

/-- The `while (p)` of `argexp`: `p` is copied to the end of `argv`, and `strtok` gives the next
word. -/
def appendTokens : ℕ → Bytes → Option ℕ → ℕ → ℕ → List CStr → Except Fault (ℕ × List CStr)
  | _, _, none, _, cnt, argv => pure (cnt, argv)
  | 0, _, some _, _, _, _ => .error .fuel
  | fuel + 1, lineStr, some p, save, cnt, argv => do
    let cnt := cnt + 1
    let _ ← strlenAt lineStr p
    -- `realloc` to `cnt` pointers, the last of them to the copy
    let argv := argv.take (cnt - 1) ++ [CStr.ofBytes (lineStr.drop p)]
    let (lineStr, p, save) ← strtok lineStr save 32
    appendTokens fuel lineStr p save cnt argv

/-- `argexp`: what it returns, and `*local_argv` and `*local_argc` afterwards. -/
def argexp (heap : ∀ n, Vec n) (command : Bytes) (length : ℕ) (argv : List CStr) (argc : ℤ) (delim : Int8) :
    Except Fault (ℤ × List CStr × ℤ) :=
  let lineLen := argPrefix.length + length + 2
  match command with
  | [] => .error .overread
  | c :: command =>
    if (c.toNat : ℤ) ≠ delim.toInt then pure (-1, argv, argc)
    else do
      let _ ← strlenAt command 0
      let lineStr ← snprintf (heap lineLen).1 0 lineLen (argPrefix ++ ascii "--" ++ cstr command)
      let (lineStr, p, save) ← strtok lineStr 0 32
      -- a line has no more words than bytes
      let (cnt, argv) ← appendTokens lineLen lineStr p save 0 argv
      pure (0, argv, cnt)

/-! ### The words -/

/-- A string has no more words than bytes. -/
theorem words_length_le (c : UInt8) (xs : Bytes) : ((xs.splitOn c).filter (· ≠ [])).length ≤ xs.length := by
  induction xs with
  | nil => simp
  | cons x xs ih =>
    rw [List.splitOn_cons_eq_if_modifyHead]
    cases hsplit : xs.splitOn c with
    | nil => exact absurd hsplit (List.splitOn_ne_nil c xs)
    | cons f fs =>
      rw [hsplit] at ih
      have htail : (fs.filter (· ≠ [])).length ≤ ((f :: fs).filter (· ≠ [])).length :=
        ((List.sublist_cons_self f fs).filter _).length_le
      split_ifs
      · rw [List.filter_cons_of_neg (by simp), List.length_cons]
        omega
      · rw [List.modifyHead_cons, List.filter_cons_of_pos (by simp), List.length_cons, List.length_cons]
        omega

/-- What is left of the line after a word is appended word by word. -/
theorem appendTokens_spec {ws : List Bytes} : ∀ {fuel : ℕ} {pre t w : Bytes} {s cnt : ℕ} (argv : List CStr),
    ws.length < fuel → (0 : UInt8) ∈ t → words 32 t = ws → (0 : UInt8) ∈ (pre ++ t).drop s →
    cstr ((pre ++ t).drop s) = w → cnt ≤ argv.length →
    ∃ argv', appendTokens fuel (pre ++ t) (some s) pre.length cnt argv = .ok (cnt + 1 + ws.length, argv') ∧
      argv'.map CStr.bytes = (argv.take cnt).map CStr.bytes ++ w :: ws := by
  induction ws with
  | nil =>
    intro fuel pre t w s cnt argv hfuel ht hws hnul hw hcnt
    obtain ⟨fuel, rfl⟩ := Nat.exists_eq_add_of_lt hfuel
    rcases strtok_spec space_ne_zero pre ht with ⟨-, save, htok⟩ | ⟨w', ws', pre', t', s', hwords, -⟩
    · refine ⟨argv.take cnt ++ [CStr.ofBytes ((pre ++ t).drop s)], ?_, by simp [CStr.ofBytes, hw]⟩
      unfold appendTokens
      simp only [strlenAt, if_pos hnul, ok_bind, htok, Nat.add_sub_cancel]
      cases fuel <;> rfl
    · rw [hws] at hwords
      cases hwords
  | cons w' ws ih =>
    intro fuel pre t w s cnt argv hfuel ht hws hnul hw hcnt
    obtain ⟨fuel, rfl⟩ : ∃ n, fuel = n + 1 := ⟨fuel - 1, by omega⟩
    rcases strtok_spec space_ne_zero pre ht with ⟨hnone, -⟩ | ⟨w'', ws', pre', t', s', hwords, htok, h⟩
    · rw [hws] at hnone
      cases hnone
    · rw [hws] at hwords
      cases hwords
      obtain ⟨ht', hws', hnul', hw'⟩ := h
      -- the array has grown by the word
      have hgrown : (argv.take cnt ++ [CStr.ofBytes ((pre ++ t).drop s)]).length = cnt + 1 := by
        simp [List.length_take, min_eq_left hcnt]
      have hfuel' : ws.length < fuel := Nat.lt_of_succ_lt_succ hfuel
      obtain ⟨argv', hrun, hargv⟩ := ih _ hfuel' ht' hws' hnul' hw' hgrown.ge
      refine ⟨argv', ?_, ?_⟩
      · unfold appendTokens
        simp only [strlenAt, if_pos hnul, ok_bind, htok, Nat.add_sub_cancel]
        rw [hrun, List.length_cons, Nat.add_assoc (cnt + 1), Nat.add_comm 1]
      · rw [hargv, List.take_of_length_le hgrown.le]
        simp [CStr.ofBytes, hw]

/-- A line has the words of its prefix, and at least two of them. -/
theorem line_words {rest : Bytes} (h0 : (0 : UInt8) ∉ rest) :
    words 32 (argPrefix ++ ascii "--" ++ rest ++ [0]) =
        ((ascii "arg0 --" ++ rest).splitOn 32).filter (· ≠ []) ∧
      2 ≤ (words 32 (argPrefix ++ ascii "--" ++ rest ++ [0])).length := by
  have hnul : (0 : UInt8) ∉ ascii "arg0 --" ++ rest := by
    rw [List.mem_append, not_or]
    exact ⟨by decide, h0⟩
  refine ⟨?_, ?_⟩
  · show ((cstr (ascii "arg0 --" ++ rest ++ [0])).splitOn 32).filter (· ≠ []) = _
    rw [cstr_append_nul hnul]
  · show 2 ≤ (words 32 (ascii "arg0" ++ 32 :: (ascii "--" ++ rest ++ [0]))).length
    have hfirst := fields_cons space_ne_zero (f := ascii "arg0") (by decide) (by decide)
      (ascii "--" ++ rest ++ [0])
    obtain ⟨f, b, t, hsplit, hb, hc, hf⟩ := exists_field (s := ascii "--" ++ rest ++ [0]) (by simp) 32
    have hf0 : f ≠ [] := by
      rintro rfl
      have : b = 45 := (List.cons.inj hsplit).1.symm
      subst this
      rcases hb with hb | hb <;> revert hb <;> decide
    have hsecond : f ∈ fields 32 (ascii "--" ++ rest ++ [0]) := by
      rw [hsplit]
      rcases hb with rfl | rfl
      · rw [fields_cons space_ne_zero hc hf]
        exact List.mem_cons_self
      · rw [fields_last hc hf]
        exact List.mem_cons_self
    have hword : f ∈ words 32 (ascii "--" ++ rest ++ [0]) := List.mem_filter.mpr ⟨hsecond, by simpa using hf0⟩
    rw [words, hfirst, List.filter_cons_of_pos (by decide), List.length_cons]
    have := List.length_pos_of_mem hword
    unfold words at this
    omega

/-- **A command is cut up into its words**: for a message that begins with the delimiter `argexp`
gives the words of `"arg0 --"` and what follows the delimiter, all of them and as they are, and
their number; any other message it leaves alone. -/
theorem argexp_words (heap : ∀ n, Vec n) {message : Bytes} (h0 : (0 : UInt8) ∉ message) (delim : Int8)
    (argv : List CStr) (argc : ℤ) :
    (∀ c rest, message = c :: rest → (c.toNat : ℤ) = delim.toInt →
      ∃ argv', argexp heap (message ++ [0]) message.length argv argc delim = .ok (0, argv', argv'.length) ∧
        argv'.map CStr.bytes = ((ascii "arg0 --" ++ rest).splitOn 32).filter (· ≠ []) ∧ 2 ≤ argv'.length) ∧
      ∀ c rest, message ++ [0] = c :: rest → (c.toNat : ℤ) ≠ delim.toInt →
        argexp heap (message ++ [0]) message.length argv argc delim = .ok (-1, argv, argc) := by
  constructor
  · rintro c rest rfl hdelim
    rw [List.mem_cons, not_or] at h0
    obtain ⟨hwords, htwo⟩ := line_words h0.2
    have hlen : argPrefix.length + (c :: rest).length + 2 = (argPrefix ++ ascii "--" ++ rest).length + 1 := by
      simp only [List.length_append, List.length_cons, show (ascii "--").length = 2 from rfl]
      omega
    have hline := snprintf_full (heap (argPrefix.length + (c :: rest).length + 2)).2 hlen
    have hfuel : (words 32 (argPrefix ++ ascii "--" ++ rest ++ [0])).length <
        argPrefix.length + (c :: rest).length + 2 := by
      rw [hlen, hwords]
      exact Nat.lt_succ_of_le (words_length_le 32 _)
    rcases strtok_spec space_ne_zero [] (t := argPrefix ++ ascii "--" ++ rest ++ [0]) (by simp) with
      ⟨hnone, -⟩ | ⟨w, ws, pre, t, s, hws, htok, ht, hrest, hnul, hw⟩
    · rw [hnone] at htwo
      cases htwo
    · rw [hws, List.length_cons] at hfuel
      obtain ⟨argv', hrun, hargv⟩ := appendTokens_spec argv (Nat.lt_of_succ_lt hfuel) ht hrest hnul hw
        (Nat.zero_le _)
      rw [← hwords, hws]
      rw [List.take_zero, List.map_nil, List.nil_append] at hargv
      have hcount : argv'.length = 0 + 1 + ws.length := by
        have := congrArg List.length hargv
        simp only [List.length_map, List.length_cons] at this
        omega
      refine ⟨argv', ?_, hargv, by rw [hws, List.length_cons] at htwo; omega⟩
      have hmsg : strlenAt (rest ++ [0]) 0 = .ok rest.length := by
        simp [strlenAt, cstr_append_nul h0.2]
      unfold argexp
      simp only [List.cons_append, hdelim, ne_eq, not_true_eq_false, if_false, hmsg, ok_bind,
        cstr_append_nul h0.2, hline]
      rw [List.nil_append, List.length_nil] at htok
      simp only [htok, ok_bind, hrun, hcount, pure_eq_ok]
  · intro c rest hmsg hdelim
    rw [hmsg, argexp]
    simp only [if_pos hdelim, pure_eq_ok]

/-- `!info  3`, with two spaces. -/
theorem argexp_words_info :
    ∃ argv', argexp (fun n => ⟨List.replicate n 7, List.length_replicate⟩) (ascii "!info  3" ++ [0]) 8 [] 0 33 =
        .ok (0, argv', argv'.length) ∧
      argv'.map CStr.bytes = [ascii "arg0", ascii "--info", ascii "3"] := by
  have hwords := @argexp_words (fun n => ⟨List.replicate n 7, List.length_replicate⟩) (ascii "!info  3")
    (by decide) 33 [] 0
  obtain ⟨argv', hrun, hargv, -⟩ := hwords.1 33 (ascii "info  3") rfl (by decide)
  exact ⟨argv', hrun, hargv.trans (by decide)⟩

end ToxSuite.Command
