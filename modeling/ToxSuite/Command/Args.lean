import ToxSuite.Friend.Tox
import ToxSuite.Lib.Tokens

/-!
# `callbacks.c`: the arguments of a pack command

With the xdcc mode on, every message of a friend goes through `execute`. It has `parse_command`
copy the fields of the message, which single spaces separate, into the rows of the table `args`,
and calls the command that the first of them names. The table is modelled as it lies in memory,
one row after the other.

A message should not be able to get `parse_command` out of the table or to leave a row without
its terminator. One whose first fields fit into the rows cannot; every other does
(`parseCommand_staysInside_iff`).
-/

namespace ToxSuite.Command

open ToxSuite.Lib ToxSuite.Friend

/-! ### The code -/

def MAX_ARGS_SIZE : ℕ := 20

def MAX_ARGS_NUM : ℕ := 3

/-- The `while` of `parse_command`, with `rows` rows left: the buffer of the command, the table,
and the number of rows that were filled. -/
def parseRows : ℕ → Bytes → ℕ → Bytes → ℕ → Except Fault (Bytes × Bytes × ℕ)
  | 0, buf, _, args, numArgs => pure (buf, args, numArgs)
  | rows + 1, buf, cmd, args, numArgs => do
    match ← strchr buf cmd 32 with
    | none =>
      let args ← strcpy args (numArgs * MAX_ARGS_SIZE) buf cmd
      pure (buf, args, numArgs + 1)
    | some e =>
      -- the space ends the argument
      let buf ← poke buf e [0]
      let args ← strcpy args (numArgs * MAX_ARGS_SIZE) buf cmd
      parseRows rows buf (e + 1) args (numArgs + 1)

/-- `parse_command`. -/
def parseCommand (cmd args : Bytes) : Except Fault (Bytes × Bytes × ℕ) := parseRows MAX_ARGS_NUM cmd 0 args 0

/-- `args` after `memset`. -/
def noArgs : Bytes := List.replicate (MAX_ARGS_NUM * MAX_ARGS_SIZE) 0

/-- The functions of `bot_commands`. -/
inductive BotCommand where
  | invite
  | help
  | info
  | send
  deriving DecidableEq

/-- `bot_commands`. -/
def botCommands : List (Bytes × BotCommand) :=
  [(ascii "invite", .invite), (ascii "help", .help), (ascii "info", .info), (ascii "send", .send)]

/-- A call of a function of `bot_commands`. -/
structure Call where
  func : BotCommand
  argc : ℕ
  argv : Bytes

/-- The strings from `argv[1]` on. -/
def Call.args (c : Call) : List CStr :=
  (List.range c.argc).map fun k => CStr.ofBytes (c.argv.drop ((k + 1) * MAX_ARGS_SIZE))

/-- `execute`: the buffer of the command afterwards, and the function that is called, if any. -/
def execute (cmd : Bytes) : Except Fault (Bytes × Option Call) := do
  let (cmd, args, numArgs) ← parseCommand cmd noArgs
  match botCommands.find? fun c => cstr args = c.1 with
  | none => pure (cmd, none)
  | some c => pure (cmd, some ⟨c.2, numArgs - 1, args⟩)

/-! ### What is written -/

/-- A row of the table. -/
def row (args : Bytes) (k : ℕ) : Bytes := (args.drop (k * MAX_ARGS_SIZE)).take MAX_ARGS_SIZE

/-- What comes of writing strings into the rows from the `k`-th on. -/
def fillRows : Bytes → ℕ → List Bytes → Except Fault Bytes
  | args, _, [] => pure args
  | args, k, f :: fs => do
    let args ← poke args (k * MAX_ARGS_SIZE) (f ++ [0])
    fillRows args (k + 1) fs

/-- A string whose first `n` spaces were overwritten. -/
def cutSpaces : ℕ → Bytes → Bytes
  | 0, s => s
  | _ + 1, [] => []
  | n + 1, b :: s =>
    if b = 0 then b :: s
    else if b = 32 then 0 :: cutSpaces n s
    else b :: cutSpaces (n + 1) s

theorem cutSpaces_field {f : Bytes} (hc : (32 : UInt8) ∉ f) (h0 : (0 : UInt8) ∉ f) (n : ℕ) (t : Bytes) :
    cutSpaces (n + 1) (f ++ 32 :: t) = f ++ 0 :: cutSpaces n t := by
  induction f with
  | nil => rfl
  | cons b f ih =>
    rw [List.mem_cons, not_or] at hc h0
    rw [List.cons_append, cutSpaces, if_neg (Ne.symm h0.1), if_neg (Ne.symm hc.1), ih hc.2 h0.2]
    rfl

theorem cutSpaces_last {f : Bytes} (hc : (32 : UInt8) ∉ f) (h0 : (0 : UInt8) ∉ f) (n : ℕ) (t : Bytes) :
    cutSpaces n (f ++ 0 :: t) = f ++ 0 :: t := by
  cases n with
  | zero => rw [cutSpaces]
  | succ n =>
    induction f with
    | nil => rfl
    | cons b f ih =>
      rw [List.mem_cons, not_or] at hc h0
      rw [List.cons_append, cutSpaces, if_neg (Ne.symm h0.1), if_neg (Ne.symm hc.1), ih hc.2 h0.2]

/-- **`parse_command` writes the first fields** into the rows, whether they fit or not. -/
theorem parseRows_eq (n : ℕ) : ∀ (pre : Bytes) {s : Bytes} (args : Bytes) (k : ℕ), (0 : UInt8) ∈ s →
    parseRows n (pre ++ s) pre.length args k =
      (fillRows args k ((fields 32 s).take n)).map fun args' =>
        (pre ++ cutSpaces n s, args', k + ((fields 32 s).take n).length) := by
  induction n with
  | zero =>
    intro pre s args k _
    rw [List.take_zero, cutSpaces]
    rfl
  | succ n ih =>
    intro pre s args k h0
    obtain ⟨f, b, t, rfl, hb, hc, hf⟩ := exists_field h0 32
    have hchr := @strchr_eq pre f t b 32 hb hc hf
    unfold parseRows
    by_cases hspace : b = 32
    · subst hspace
      have ht : (0 : UInt8) ∈ t := by
        rcases List.mem_append.mp h0 with h | h
        · exact absurd h hf
        · exact (List.mem_cons.mp h).resolve_left (by decide)
      have hpoke : poke (pre ++ (f ++ 32 :: t)) (pre.length + f.length) [0] = .ok (pre ++ (f ++ 0 :: t)) := by
        have := poke_append (pre ++ f) t (show [(0 : UInt8)].length = [(32 : UInt8)].length from rfl)
        simpa using this
      have hnext : pre ++ (f ++ 0 :: t) = (pre ++ (f ++ [0])) ++ t := by simp
      have hlen : pre.length + f.length + 1 = (pre ++ (f ++ [0])).length := by simp; omega
      simp only [hchr, if_true, ok_bind, hpoke, strcpy_eq hf]
      rw [fields_cons space_ne_zero hc hf, List.take_succ_cons, fillRows, cutSpaces_field hc hf]
      cases poke args (k * MAX_ARGS_SIZE) (f ++ [0]) with
      | error e => rfl
      | ok args' =>
        simp only [ok_bind]
        rw [hnext, hlen, ih _ _ _ ht]
        cases fillRows args' (k + 1) ((fields 32 t).take n) with
        | error e => rfl
        | ok args'' =>
          simp only [Except.map, List.length_cons, Except.ok.injEq, Prod.mk.injEq]
          refine ⟨by simp, trivial, by omega⟩
    · obtain rfl := hb.resolve_left hspace
      simp only [hchr, if_neg hspace, ok_bind, strcpy_eq hf]
      rw [fields_last hc hf, cutSpaces_last hc hf]
      show (poke args (k * MAX_ARGS_SIZE) (f ++ [0]) >>= fun args' => _) =
        ((poke args (k * MAX_ARGS_SIZE) (f ++ [0]) >>= fun args' => _).map _)
      cases poke args (k * MAX_ARGS_SIZE) (f ++ [0]) with
      | error e => rfl
      | ok args' => simp [fillRows, Except.map]

/-! ### What the rows hold -/

/-- Strings that end inside the table can be written. -/
theorem fillRows_isOk {fs : List Bytes} : ∀ {args : Bytes} {k : ℕ},
    (∀ f ∈ fs, f.length < MAX_ARGS_SIZE) → (k + fs.length) * MAX_ARGS_SIZE ≤ args.length →
    ∃ args', fillRows args k fs = .ok args' := by
  induction fs with
  | nil => exact fun _ _ => ⟨_, rfl⟩
  | cons f fs ih =>
    intro args k hfs hroom
    rw [List.forall_mem_cons] at hfs
    rw [List.length_cons] at hroom
    have hfit : k * MAX_ARGS_SIZE + (f ++ [0]).length ≤ args.length := by
      simp only [MAX_ARGS_SIZE, List.length_append, List.length_singleton] at hfs hroom ⊢
      omega
    obtain ⟨args', hpoke, hlen, -, -⟩ := poke_spec hfit
    rw [fillRows, hpoke, ok_bind]
    apply ih hfs.2
    rw [hlen]
    simp only [MAX_ARGS_SIZE] at hroom ⊢
    omega

/-- A row is what lies before the next one. -/
theorem row_eq (args : Bytes) (k : ℕ) :
    row args k = (args.take ((k + 1) * MAX_ARGS_SIZE)).drop (k * MAX_ARGS_SIZE) := by
  rw [row, List.drop_take, Nat.succ_mul, Nat.add_sub_cancel_left]

/-- Every row begins with what was written into it last: the string, as far as the row takes it. -/
theorem fillRows_rows {fs : List Bytes} : ∀ {args args' : Bytes} {k : ℕ}, fillRows args k fs = .ok args' →
    args'.length = args.length ∧ args'.take (k * MAX_ARGS_SIZE) = args.take (k * MAX_ARGS_SIZE) ∧
      ∀ i f, fs[i]? = some f → (f ++ [0]).take MAX_ARGS_SIZE <+: row args' (k + i) := by
  induction fs with
  | nil =>
    intro args args' k h
    cases h
    exact ⟨rfl, rfl, fun i f hi => by cases hi⟩
  | cons f fs ih =>
    intro args args' k h
    obtain ⟨args₁, hpoke, hrest⟩ := bind_eq_ok.mp h
    unfold poke at hpoke
    split_ifs at hpoke with hfit
    obtain ⟨hlen, hbefore, hrows⟩ := ih hrest
    have hargs₁ : args₁ = args.take (k * MAX_ARGS_SIZE) ++
        ((f ++ [0]) ++ args.drop (k * MAX_ARGS_SIZE + (f ++ [0]).length)) := by
      cases hpoke
      rw [List.append_assoc]
    have hstart : (args.take (k * MAX_ARGS_SIZE)).length = k * MAX_ARGS_SIZE :=
      List.length_take_of_le ((Nat.le_add_right _ _).trans hfit)
    have hlen₁ : args₁.length = args.length := by
      rw [hargs₁, List.length_append, List.length_append, hstart, List.length_drop]
      omega
    refine ⟨hlen.trans hlen₁, ?_, ?_⟩
    · have hle : k * MAX_ARGS_SIZE ≤ (k + 1) * MAX_ARGS_SIZE := Nat.mul_le_mul_right _ (Nat.le_succ k)
      have := congrArg (List.take (k * MAX_ARGS_SIZE)) hbefore
      rw [List.take_take, List.take_take, min_eq_left hle] at this
      rw [this, hargs₁, List.take_left' hstart]
    · intro i g hi
      cases i with
      | zero =>
        cases hi
        rw [Nat.add_zero, row_eq, hbefore, ← row_eq, row, hargs₁, List.drop_left' hstart]
        exact List.prefix_take_iff.mpr ⟨(List.take_prefix _ _).trans (List.prefix_append _ _), List.length_take_le _ _⟩
      | succ i =>
        rw [Nat.add_succ, ← Nat.succ_add]
        exact hrows i g hi

/-! ### Inside the table -/

/-- `parse_command` stays inside the table: it fills at least one row and at most all, each with
a string that ends in it, and with the field of the message that has its number if the field
fits. -/
def StaysInside (message : Bytes) : Prop :=
  ∃ cmd args numArgs, parseCommand (message ++ [0]) noArgs = .ok (cmd, args, numArgs) ∧
    1 ≤ numArgs ∧ numArgs ≤ MAX_ARGS_NUM ∧
    (∀ k < numArgs, (0 : UInt8) ∈ row args k) ∧
    ∀ k < numArgs, ∀ f, (fields 32 (message ++ [0]))[k]? = some f → f.length < MAX_ARGS_SIZE → cstr (row args k) = f

/-- The fields `parse_command` copies. -/
def copied (message : Bytes) : List Bytes := (fields 32 (message ++ [0])).take MAX_ARGS_NUM

theorem parseCommand_eq (message args : Bytes) :
    parseCommand (message ++ [0]) args =
      (fillRows args 0 (copied message)).map fun args' =>
        (cutSpaces MAX_ARGS_NUM (message ++ [0]), args', (copied message).length) := by
  have := parseRows_eq MAX_ARGS_NUM [] (s := message ++ [0]) args 0 (by simp)
  simpa only [parseCommand, copied, List.nil_append, List.length_nil, Nat.zero_add] using this

/-- **The table is kept to exactly by short fields**: `parse_command` stays inside it if and only
if each of the first three fields of the message, which single spaces separate, is shorter than a
row. -/
theorem parseCommand_staysInside_iff (message : Bytes) :
    StaysInside message ↔ ∀ f ∈ (fields 32 (message ++ [0])).take MAX_ARGS_NUM, f.length < MAX_ARGS_SIZE := by
  show _ ↔ ∀ f ∈ copied message, f.length < MAX_ARGS_SIZE
  have hnum : (copied message).length ≤ MAX_ARGS_NUM := List.length_take_le _ _
  constructor
  · rintro ⟨cmd, args, numArgs, hparse, -, -, hnul, -⟩ f hf
    rw [parseCommand_eq] at hparse
    obtain ⟨args', hfill, hargs⟩ := map_eq_ok.mp hparse
    cases hargs
    obtain ⟨k, hk, rfl⟩ := List.mem_iff_getElem.mp hf
    by_contra hlong
    -- the row is full of the field
    have hprefix := (fillRows_rows hfill).2.2 k _ (List.getElem?_eq_getElem hk)
    rw [Nat.zero_add, List.take_append_of_le_length (by omega)] at hprefix
    have hrow : ((copied message)[k]).take MAX_ARGS_SIZE = row args k := by
      apply hprefix.eq_of_length_le
      rw [row, List.length_take, List.length_take]
      omega
    have hmem := hnul k hk
    rw [← hrow] at hmem
    exact zero_notMem_of_mem_fields (List.mem_of_mem_take hf) (List.mem_of_mem_take hmem)
  · intro hshort
    obtain ⟨args, hfill⟩ := @fillRows_isOk _ noArgs 0 hshort
      (by simp only [noArgs, List.length_replicate, Nat.zero_add]; exact Nat.mul_le_mul_right _ hnum)
    have hrow : ∀ k f, (copied message)[k]? = some f → ∃ rest, row args k = f ++ 0 :: rest := by
      intro k f hk
      obtain ⟨rest, hrest⟩ := (fillRows_rows hfill).2.2 k f hk
      have hlen := hshort f (List.mem_of_getElem? hk)
      rw [Nat.zero_add, List.take_of_length_le (by rw [List.length_append]; exact hlen)] at hrest
      exact ⟨rest, by rw [← hrest, List.append_assoc]; rfl⟩
    refine ⟨_, args, (copied message).length, by rw [parseCommand_eq, hfill]; rfl, ?_, hnum, ?_, ?_⟩
    · exact List.length_pos_iff.mpr fun h => fields_ne_nil _ _ (by simpa [copied, MAX_ARGS_NUM] using h)
    · intro k hk
      obtain ⟨rest, hrest⟩ := hrow k _ (List.getElem?_eq_getElem hk)
      rw [hrest]
      simp
    · intro k hk f hf _
      have hcopied : (copied message)[k]? = some f := by
        rw [copied, List.getElem?_take_of_lt (hk.trans_le hnum), hf]
      obtain ⟨rest, hrest⟩ := hrow k f hcopied
      rw [hrest, cstr_append_nul (zero_notMem_of_mem_fields (List.mem_of_getElem? hf))]

/-- Sixty bytes without a space: the terminator is written behind the table. -/
theorem sixty_bytes_overflow :
    (List.replicate 60 97).length ≤ TOX_MAX_MESSAGE_LENGTH ∧
      execute (List.replicate 60 97 ++ [0]) = .error .overflow ∧ ¬ StaysInside (List.replicate 60 97) := by
  have hparse : parseCommand (List.replicate 60 97 ++ [0]) noArgs = .error .overflow := rfl
  refine ⟨by decide, by rw [execute, hparse]; rfl, ?_⟩
  rintro ⟨cmd, args, numArgs, h, -⟩
  rw [hparse] at h
  cases h

end ToxSuite.Command
