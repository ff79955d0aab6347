import ToxSuite.Lib.Tokens

/-!
# `ylog.c`: which messages are logged

Every source file has a `ylog_file`, with a level that is not determined until the file
logs for the first time. It is then tied in front of the list `ylog_files`, and its level is
read off the pattern given to `ylog_set_level`; a new pattern is read for all files of the
list. A message goes to the handler if its level is not above that of its file.

The pattern is read in its buffer: a pattern of it is ended in place for `fnmatch`, and
the colon is put back. What the text means is `Config.levelFor`: the first item of the list
that has no colon, or whose pattern matches the name of the file, gives the level, and if
what it gives is no level then the default does. In every run, each file of the list has
the level of the configuration in force, and the handler gets the messages up to that level
and no others (`messages_follow_config`).
-/

namespace ToxSuite.Ylog

open ToxSuite.Lib

/-! ### The code -/

/-- `YLOG_WARN`. -/
abbrev YLOG_WARN : ℤ := 2

/-- `YLOG_MAX`. -/
abbrev YLOG_MAX : ℕ := 9999

/-- `YLOG_DEFAULT`. -/
abbrev YLOG_DEFAULT : ℤ := YLOG_WARN

/-- `YLOG_UNINITIALIZED`. -/
abbrev YLOG_UNINITIALIZED : ℤ := YLOG_MAX + 1

/-- `YLOG_STACK_MSG_SIZE`. -/
abbrev YLOG_STACK_MSG_SIZE : ℕ := 256

/-- `fnmatch` with no flags: whether a string is of a pattern. -/
abbrev Fnmatch := Bytes → Bytes → Bool

/-- `struct ylog_file_t`. -/
structure YlogFile where
  level : ℤ
  name : Option Bytes
  next : Option ℕ

/-- The `ylog_file` of a source file before it logs. -/
def YlogFile.new : YlogFile := ⟨YLOG_UNINITIALIZED, none, none⟩

/-- The static variables of `ylog.c`, and the `ylog_file` of each source file by its address. -/
structure Log where
  files : ℕ → YlogFile
  ylogFiles : Option ℕ
  defaultLevel : ℤ
  /-- `ylog_pattern`, with its NUL. -/
  pattern : Option Bytes
  /-- `ylog_handler`, by its address. -/
  handler : ℕ

/-- The start of the program. -/
def Log.start (defaultHandler : ℕ) : Log := ⟨fun _ => .new, none, YLOG_DEFAULT, none, defaultHandler⟩

variable (fnmatch : Fnmatch)

/-- The loop of `ylog_match`, from `f` on. The `/` is `47`. -/
def ylogMatchFrom (pat : Bytes) : Bytes → Bool
  | [] => false
  | c :: f => (c == 47 && f.head? != some 47 && fnmatch pat f) || ylogMatchFrom pat f

/-- `ylog_match`. -/
def ylogMatch (pat fn : Bytes) : Bool := fnmatch pat fn || ylogMatchFrom fnmatch pat fn

/-- `while(*pat && *pat != ':' && *pat != ',')`: how far it goes. The `:` is `58`, the `,` is `44`. -/
def patternLen (rest : Bytes) : ℕ := (rest.takeWhile fun b => b ≠ 0 && b ≠ 58 && b ≠ 44).length

/-- `while(*pat && pat[-1] != ',')`, with `pat[-1]` and what is at `pat`: how far it goes. -/
def skipLevel : UInt8 → Bytes → Except Fault ℕ
  | _, [] => .error .overread
  | prev, b :: rest => if b ≠ 0 ∧ prev ≠ 44 then do pure ((← skipLevel b rest) + 1) else pure 0

/-- The first loop of `ylog_set_file_level`: the buffer, and `pat` where the loop is left. -/
def findItem (name : Bytes) : ℕ → Bytes → ℕ → Except Fault (Bytes × ℕ)
  | 0, _, _ => .error .fuel
  | fuel + 1, buf, pat =>
    match buf[pat]? with
    | none => .error .overread
    | some b =>
      if b = 0 then pure (buf, pat)
      else
        let start := pat
        let pat := pat + patternLen (buf.drop pat)
        match buf[pat]? with
        | none => .error .overread
        | some b =>
          -- no colon: this is the level of all files
          if b ≠ 58 then pure (buf, start)
          else do
            let buf := buf.set pat 0
            let val := ylogMatch fnmatch (cstr (buf.drop start)) name
            let buf := buf.set pat 58
            let pat := pat + 1
            if val then pure (buf, pat)
            else
              let skipped ← skipLevel 58 (buf.drop pat)
              findItem name fuel buf (pat + skipped)

/-- `while(val < YLOG_MAX && *pat >= '0' && *pat <= '9')`: the number, and what is at `pat` after it. -/
def readLevel : ℕ → Bytes → Except Fault (ℕ × Bytes)
  | val, [] => if val < YLOG_MAX then .error .overread else pure (val, [])
  | val, b :: rest =>
    if val < YLOG_MAX ∧ isDigit b = true then readLevel (val * 10 + digitVal b) rest else pure (val, b :: rest)

/-- The second part of `ylog_set_file_level`: the level at `pat`, if there is one. -/
def levelAt (rest : Bytes) : Except Fault (Option ℕ) :=
  match rest with
  | [] => .error .overread
  | b :: _ =>
    if b = 0 then pure none
    else do
      let (val, after) ← readLevel 0 rest
      if val ≤ YLOG_MAX ∧ after.length ≠ rest.length then
        match after with
        | [] => .error .overread
        | b :: _ => pure (if b = 0 ∨ b = 44 then some val else none)
      else pure none

/-- A field of `*file` changes. -/
def Log.modifyFile (s : Log) (file : ℕ) (f : YlogFile → YlogFile) : Log :=
  { s with files := Function.update s.files file (f (s.files file)) }

/-- `ylog_set_file_level`. -/
def Log.setFileLevel (s : Log) (file : ℕ) : Except Fault Log :=
  match s.pattern with
  | none => pure (s.modifyFile file fun f => { f with level := s.defaultLevel })
  | some buf => do
    let name ← ((s.files file).name.elim (.error .null) .ok : Except Fault Bytes)
    let (buf, pat) ← findItem fnmatch name (buf.length + 1) buf 0
    let level ← levelAt (buf.drop pat)
    pure ({ s with pattern := some buf }.modifyFile file fun f =>
      { f with level := level.elim s.defaultLevel Nat.cast })

/-- `f[l-i]`, which is read where `l > i` only. -/
def back (f : Bytes) (i : ℕ) : UInt8 := f.getD (f.length - i) 0

/-- What `ylog_set_file_name` makes of a file name. -/
def fileName (f : Bytes) : Bytes :=
  let l := f.length
  if l > 2 ∧ (back f 1 = 99 ∨ back f 1 = 104) ∧ back f 2 = 46 then f.take (l - 2)
  else if l > 3 ∧ back f 1 = 99 ∧ back f 2 = 99 ∧ back f 3 = 46 then f.take (l - 3)
  else if l > 4 ∧ back f 1 = 112 ∧ back f 2 = 112 ∧ (back f 3 = 99 ∨ back f 3 = 104) ∧ back f 4 = 46 then
    f.take (l - 4)
  else f

/-- `ylog_set_file_name`; `named`: its `malloc` succeeds. -/
def Log.setFileName (s : Log) (file : ℕ) (filename : Bytes) (named : Bool) : Log :=
  s.modifyFile file fun f => { f with name := some (if named then fileName filename else filename) }

/-- What a handler is called with. -/
structure Entry where
  handler : ℕ
  file : CStr
  line : ℤ
  level : ℤ
  message : Bytes
  deriving DecidableEq

/-- A message that is logged: `msg` is what the format makes of its arguments; `named` and `copied`: the
`malloc`s of `ylog_set_file_name` and of `ylog_impl` succeed. -/
structure Message where
  file : ℕ
  level : ℤ
  line : ℤ
  filename : CStr
  msg : Bytes
  named : Bool
  copied : Bool

/-- `ylog_impl`. -/
def Log.impl (s : Log) (m : Message) : Except Fault (Log × Option Entry) := do
  let fresh := (s.files m.file).level = YLOG_UNINITIALIZED
  let s ← if fresh then do
      let s ← (s.setFileName m.file m.filename.bytes m.named).setFileLevel fnmatch m.file
      let s := s.modifyFile m.file fun f => { f with next := s.ylogFiles }
      pure { s with ylogFiles := some m.file }
    else pure s
  if fresh ∧ m.level > (s.files m.file).level then pure (s, none)
  else if m.msg.length ≥ YLOG_STACK_MSG_SIZE ∧ m.copied = false then pure (s, none)
  else pure (s, some ⟨s.handler, m.filename, m.line, m.level, m.msg⟩)

/-- The macro `ylog`. -/
def Log.log (s : Log) (m : Message) : Except Fault (Log × Option Entry) :=
  if m.level ≤ (s.files m.file).level then s.impl fnmatch m else pure (s, none)

/-- The loop of `ylog_set_level`, from `f` on. -/
def Log.setFileLevels : ℕ → Log → Option ℕ → Except Fault Log
  | _, s, none => pure s
  | 0, _, some _ => .error .fuel
  | fuel + 1, s, some f => do
    let s ← s.setFileLevel fnmatch f
    Log.setFileLevels fuel s (s.files f).next

/-- `ylog_set_level`; `copied`: its `malloc` succeeds. -/
def Log.setLevel (fuel : ℕ) (s : Log) (defaultLevel : ℤ) (pattern : Option CStr) (copied : Bool) :
    Except Fault Log :=
  Log.setFileLevels fnmatch fuel
    { s with defaultLevel, pattern := if copied then pattern.map fun p => p.bytes ++ [0] else none } s.ylogFiles

/-- What a program does with the log. -/
inductive LogEvent where
  | setLevel (defaultLevel : ℤ) (pattern : Option CStr) (copied : Bool)
  /-- `ylog_set_handler`. -/
  | setHandler (cb : ℕ)
  | log (m : Message)

/-- What an event does, and what the handler gets. -/
def Log.event (fuel : ℕ) (s : Log) : LogEvent → Except Fault (Log × Option Entry)
  | .setLevel defaultLevel pattern copied => do pure (← s.setLevel fnmatch fuel defaultLevel pattern copied, none)
  | .setHandler cb => pure ({ s with handler := cb }, none)
  | .log m => s.log fnmatch m

/-- The events one after the other, and what the handlers get. -/
def Log.events (fuel : ℕ) : Log → List LogEvent → Except Fault (Log × List Entry)
  | s, [] => pure (s, [])
  | s, e :: es => do
    let (s, entry) ← s.event fnmatch fuel e
    let (s, entries) ← Log.events fuel s es
    pure (s, entry.toList ++ entries)

/-! ### What `ylog.h` says -/

/-- The number that a text gives as a level. -/
def levelOf (text : Bytes) : Option ℕ :=
  if text ≠ [] ∧ text.all isDigit = true ∧ digitsVal text ≤ YLOG_MAX then some (digitsVal text) else none

/-- A pattern matches a file name, or the name in some directory. -/
def Matches (pat fn : Bytes) : Prop :=
  fnmatch pat fn = true ∨ ∃ dir f, fn = dir ++ 47 :: f ∧ f.head? ≠ some 47 ∧ fnmatch pat f = true

theorem matches_iff_tails {pat fn : Bytes} : (fnmatch pat fn = true ∨ ∃ t ∈ fn.tails, t.head? = some 47 ∧
    t.tail.head? ≠ some 47 ∧ fnmatch pat t.tail = true) ↔ Matches fnmatch pat fn := by
  refine or_congr_right ⟨?_, ?_⟩
  · rintro ⟨t, ht, hslash, hhead, hmatch⟩
    obtain ⟨dir, rfl⟩ := (List.mem_tails _ _).mp ht
    obtain ⟨f, rfl⟩ := List.head?_eq_some_iff.mp hslash
    exact ⟨dir, f, rfl, hhead, hmatch⟩
  · rintro ⟨dir, f, rfl, hhead, hmatch⟩
    exact ⟨47 :: f, (List.mem_tails _ _).mpr (List.suffix_append _ _), rfl, hhead, hmatch⟩

instance (pat fn : Bytes) : Decidable (Matches fnmatch pat fn) := decidable_of_iff _ (matches_iff_tails fnmatch)

/-- The part of an item that gives the level of a file, if the item is for that file. -/
def itemLevel (name item : Bytes) : Option Bytes :=
  if 58 ∈ item then
    if Matches fnmatch (item.takeWhile (· ≠ 58)) name then some (item.dropWhile (· ≠ 58)).tail else none
  else some item

/-- What `ylog_set_level` is given. -/
structure Config where
  defaultLevel : ℤ
  pattern : Option CStr

/-- The level of a file. -/
def Config.levelFor (c : Config) (name : Bytes) : ℤ :=
  match c.pattern with
  | none => c.defaultLevel
  | some p => (((p.bytes.splitOn 44).findSome? (itemLevel fnmatch name)).bind levelOf).elim c.defaultLevel Nat.cast

/-! ### Reading the pattern -/

variable {fnmatch}

theorem ylogMatchFrom_iff {pat fn : Bytes} :
    ylogMatchFrom fnmatch pat fn = true ↔
      ∃ dir f, fn = dir ++ 47 :: f ∧ f.head? ≠ some 47 ∧ fnmatch pat f = true := by
  induction fn with
  | nil => simp [ylogMatchFrom]
  | cons c fn ih =>
    rw [ylogMatchFrom, Bool.or_eq_true, ih]
    simp only [Bool.and_eq_true, beq_iff_eq, bne_iff_ne]
    constructor
    · rintro (⟨⟨rfl, hhead⟩, hmatch⟩ | ⟨dir, f, rfl, hhead, hmatch⟩)
      · exact ⟨[], fn, rfl, hhead, hmatch⟩
      · exact ⟨c :: dir, f, rfl, hhead, hmatch⟩
    · rintro ⟨dir, f, heq, hhead, hmatch⟩
      cases dir with
      | nil =>
        cases heq
        exact .inl ⟨⟨rfl, hhead⟩, hmatch⟩
      | cons d dir =>
        cases heq
        exact .inr ⟨dir, f, rfl, hhead, hmatch⟩

/-- `ylog_match` passes over the directories that a pattern does not mention. -/
theorem ylogMatch_iff {pat fn : Bytes} : ylogMatch fnmatch pat fn = true ↔ Matches fnmatch pat fn := by
  rw [ylogMatch, Bool.or_eq_true, ylogMatchFrom_iff, Matches]

theorem digitsVal_cons (b : UInt8) (ds : Bytes) :
    digitsVal (b :: ds) = digitVal b * 10 ^ ds.length + digitsVal ds := by
  rw [digitsVal, List.reverse_cons, List.map_append, Nat.ofDigits_append]
  simp [digitsVal]
  ring

/-- What the digits are read to, and where: the number if it is a level, and otherwise something that is not
taken for one. -/
theorem readLevel_spec {c : UInt8} (hc : c = 0 ∨ c = 44) (t : Bytes) {b : Bytes} (h0 : (0 : UInt8) ∉ b)
    (h44 : (44 : UInt8) ∉ b) : ∀ val, ∃ val' b', readLevel val (b ++ c :: t) = .ok (val', b' ++ c :: t) ∧
      b' <:+ b ∧ (b' ≠ [] → ¬ ((∀ x ∈ b, isDigit x = true) ∧ val * 10 ^ b.length + digitsVal b ≤ YLOG_MAX)) ∧
      (b' = [] → (∀ x ∈ b, isDigit x = true) ∧ val' = val * 10 ^ b.length + digitsVal b) := by
  have hdigit : isDigit c = false := by rcases hc with rfl | rfl <;> decide
  induction b with
  | nil =>
    intro val
    refine ⟨val, [], ?_, List.suffix_rfl, by simp, fun _ => ⟨by simp, by simp [digitsVal]⟩⟩
    simp [readLevel, hdigit]
  | cons x b ih =>
    intro val
    rw [List.mem_cons, not_or] at h0 h44
    by_cases hread : val < YLOG_MAX ∧ isDigit x = true
    · obtain ⟨val', b', hok, hsuf, hne, hnil⟩ := ih h0.2 h44.2 (val * 10 + digitVal x)
      have hval : (val * 10 + digitVal x) * 10 ^ b.length + digitsVal b =
          val * 10 ^ (x :: b).length + digitsVal (x :: b) := by
        rw [digitsVal_cons, List.length_cons]
        ring
      refine ⟨val', b', ?_, hsuf.trans (List.suffix_cons x b), ?_, ?_⟩
      · rw [List.cons_append, readLevel, if_pos hread]
        exact hok
      · rw [← hval]
        exact fun hb' hall => hne hb' ⟨fun y hy => hall.1 y (List.mem_cons_of_mem x hy), hall.2⟩
      · rw [← hval]
        exact fun hb' => ⟨List.forall_mem_cons.mpr ⟨hread.2, (hnil hb').1⟩, (hnil hb').2⟩
    · refine ⟨val, x :: b, ?_, List.suffix_rfl, fun _ hall => hread ⟨?_, hall.1 x List.mem_cons_self⟩,
        fun h => (by simp at h)⟩
      · rw [List.cons_append, readLevel, if_neg hread]
        rfl
      · -- a number that goes on behind `YLOG_MAX` is above it
        by_contra hmax
        have hpow : 10 ≤ 10 ^ (x :: b).length := by
          rw [List.length_cons, pow_succ]
          exact Nat.le_mul_of_pos_left 10 (by positivity)
        have hten := Nat.mul_le_mul (not_lt.mp hmax) hpow
        exact absurd ((hten.trans (Nat.le_add_right _ _)).trans hall.2) (by decide)

/-- The level that stands at a place, up to a comma or to the end. -/
theorem levelAt_spec {c : UInt8} (hc : c = 0 ∨ c = 44) (t : Bytes) {b : Bytes} (h0 : (0 : UInt8) ∉ b)
    (h44 : (44 : UInt8) ∉ b) : levelAt (b ++ c :: t) = .ok (levelOf b) := by
  cases b with
  | nil => rcases hc with rfl | rfl <;> simp [levelAt, levelOf, readLevel, isDigit]
  | cons x b =>
    obtain ⟨val, b', hok, ⟨pre, hpre⟩, hne, hnil⟩ := readLevel_spec hc t h0 h44 0
    rw [List.mem_cons, not_or] at h0 h44
    rw [zero_mul, zero_add] at hne hnil
    rw [List.cons_append] at hok ⊢
    rw [levelAt, if_neg (Ne.symm h0.1), hok, ok_bind]
    dsimp only
    cases b' with
    | nil =>
      obtain ⟨hall, rfl⟩ := hnil rfl
      have hlen : (c :: t).length ≠ (x :: (b ++ c :: t)).length := by simp; omega
      by_cases hmax : digitsVal (x :: b) ≤ YLOG_MAX
      · rw [List.nil_append, if_pos ⟨hmax, hlen⟩, levelOf, if_pos ⟨by simp, List.all_eq_true.mpr hall, hmax⟩]
        simp [hc]
      · rw [if_neg fun h => hmax h.1, levelOf, if_neg fun h => hmax h.2.2]
        rfl
    | cons y b' =>
      have hy : ¬ (y = 0 ∨ y = 44) := by
        have hmem : y ∈ x :: b := hpre ▸ List.mem_append_right pre List.mem_cons_self
        rintro (rfl | rfl)
        · exact (List.mem_cons.mp hmem).elim h0.1 h0.2
        · exact (List.mem_cons.mp hmem).elim h44.1 h44.2
      have hno : levelOf (x :: b) = none := if_neg fun h =>
        hne (by simp) ⟨List.all_eq_true.mp h.2.1, h.2.2⟩
      rw [hno]
      split_ifs
      · exact congrArg Except.ok (if_neg hy)
      · rfl

/-- A pattern ends before its colon, or where the item does. -/
theorem patternLen_eq {a t : Bytes} {b : UInt8} (hb : b = 0 ∨ b = 58 ∨ b = 44) (h0 : (0 : UInt8) ∉ a)
    (h58 : (58 : UInt8) ∉ a) (h44 : (44 : UInt8) ∉ a) : patternLen (a ++ b :: t) = a.length := by
  have ha : ∀ x ∈ a, (decide (x ≠ 0) && decide (x ≠ 58) && decide (x ≠ 44)) = true := by
    intro x hx
    simp only [Bool.and_eq_true, decide_eq_true_eq]
    refine ⟨⟨?_, ?_⟩, ?_⟩ <;> rintro rfl <;> contradiction
  rw [patternLen, List.takeWhile_append_of_pos ha,
    List.takeWhile_cons_of_neg (by rcases hb with rfl | rfl | rfl <;> simp), List.append_nil]

/-- The level of an item is skipped with the comma behind it, if there is one. -/
theorem skipLevel_eq {b t : Bytes} {c : UInt8} (hc : c = 0 ∨ c = 44) (h0 : (0 : UInt8) ∉ b)
    (h44 : (44 : UInt8) ∉ b) (ht : c = 44 → t ≠ []) : ∀ prev, prev ≠ 44 →
      skipLevel prev (b ++ c :: t) = .ok (b.length + if c = 0 then 0 else 1) := by
  induction b with
  | nil =>
    intro prev hprev
    rcases hc with rfl | rfl
    · simp [skipLevel]
    · obtain ⟨y, t, rfl⟩ := List.exists_cons_of_ne_nil (ht rfl)
      simp [skipLevel, hprev]
  | cons x b ih =>
    intro prev hprev
    rw [List.mem_cons, not_or] at h0 h44
    rw [List.cons_append, skipLevel, if_pos ⟨Ne.symm h0.1, hprev⟩, ih h0.2 h44.2 x (Ne.symm h44.1), ok_bind,
      pure_eq_ok, List.length_cons, Nat.add_right_comm]

/-- An item with a colon is for the files that its pattern matches. -/
theorem itemLevel_colon {a b name : Bytes} (h58 : (58 : UInt8) ∉ a) :
    itemLevel fnmatch name (a ++ 58 :: b) = if ylogMatch fnmatch a name then some b else none := by
  obtain ⟨htake, hdrop⟩ := takeWhile_ne h58 b
  simp only [itemLevel, if_pos (show (58 : UInt8) ∈ a ++ 58 :: b by simp), htake, hdrop, List.tail_cons,
    ylogMatch_iff]

/-- The level that an item gives is a part of the item. -/
theorem subset_of_itemLevel {name item text : Bytes} (h : itemLevel fnmatch name item = some text) :
    text ⊆ item := by
  by_cases h58 : (58 : UInt8) ∈ item
  · obtain ⟨a, b, rfl, ha⟩ := List.eq_append_cons_of_mem h58
    rw [itemLevel_colon ha] at h
    split_ifs at h
    cases h
    exact fun x hx => List.mem_append_right a (List.mem_cons_of_mem 58 hx)
  · rw [itemLevel, if_neg h58] at h
    cases h
    exact fun x hx => hx

/-- **One item of the pattern**, with a comma or the end behind it: the loop is left where its level begins if
it is for the file, and goes on behind it if not. The buffer is as it was. -/
theorem findItem_item (name : Bytes) (fuel : ℕ) (pre : Bytes) {f t : Bytes} {c : UInt8} (h0 : (0 : UInt8) ∉ f)
    (h44 : (44 : UInt8) ∉ f) (hc : c = 0 ∨ c = 44) (ht : c = 44 → t ≠ []) :
    match itemLevel fnmatch name f with
    | some text => ∃ pat, findItem fnmatch name (fuel + 1) (pre ++ (f ++ c :: t)) pre.length =
        .ok (pre ++ (f ++ c :: t), pat) ∧ (pre ++ (f ++ c :: t)).drop pat = text ++ c :: t
    | none => findItem fnmatch name (fuel + 1) (pre ++ (f ++ c :: t)) pre.length =
        findItem fnmatch name fuel (pre ++ (f ++ c :: t))
          ((pre ++ f).length + if c = 0 then 0 else 1) := by
  by_cases h58 : (58 : UInt8) ∈ f
  · obtain ⟨a, b, rfl, ha⟩ := List.eq_append_cons_of_mem h58
    simp only [List.mem_append, List.mem_cons, not_or] at h0 h44
    have hbuf : pre ++ (a ++ 58 :: b ++ c :: t) = (pre ++ a) ++ 58 :: (b ++ c :: t) := by simp
    have hlen : patternLen ((pre ++ (a ++ 58 :: b ++ c :: t)).drop pre.length) = a.length := by
      rw [List.drop_left, List.append_assoc, List.cons_append]
      exact patternLen_eq (.inr (.inl rfl)) h0.1 ha h44.1
    obtain ⟨x, hx, hx0⟩ : ∃ x, (pre ++ (a ++ 58 :: b ++ c :: t))[pre.length]? = some x ∧ x ≠ 0 := by
      cases a with
      | nil => exact ⟨58, by simp, by decide⟩
      | cons x a => exact ⟨x, by simp, fun h => h0.1 (h ▸ List.mem_cons_self)⟩
    have hcolon : (pre ++ (a ++ 58 :: b ++ c :: t))[pre.length + a.length]? = some 58 := by simp
    have hcut : cstr (((pre ++ (a ++ 58 :: b ++ c :: t)).set (pre.length + a.length) 0).drop pre.length) = a := by
      rw [hbuf, ← List.length_append, List.set_append_right _ _ le_rfl, Nat.sub_self, List.set_cons_zero,
        List.append_assoc, List.drop_left, cstr_append_nul h0.1]
    have hback : ((pre ++ (a ++ 58 :: b ++ c :: t)).set (pre.length + a.length) 0).set (pre.length + a.length) 58 =
        pre ++ (a ++ 58 :: b ++ c :: t) := by
      rw [List.set_set, hbuf, ← List.length_append, List.set_append_right _ _ le_rfl, Nat.sub_self, List.set_cons_zero]
    have hrest : (pre ++ (a ++ 58 :: b ++ c :: t)).drop (pre.length + a.length + 1) = b ++ c :: t := by
      rw [hbuf, ← List.length_append, ← List.drop_drop, List.drop_left, List.drop_one, List.tail_cons]
    rw [itemLevel_colon ha, findItem]
    simp only [hx, if_neg hx0, hlen, hcolon, hcut, hback, hrest]
    by_cases hmatch : ylogMatch fnmatch a name = true
    · rw [if_pos hmatch]
      exact ⟨_, if_pos hmatch, hrest⟩
    · rw [if_neg hmatch]
      dsimp only
      rw [if_neg (by decide), if_neg hmatch, skipLevel_eq hc h0.2.2 h44.2.2 ht 58 (by decide), ok_bind]
      congr 1
      simp only [List.length_append, List.length_cons]
      omega
  · have hitem : itemLevel fnmatch name f = some f := if_neg h58
    rw [hitem]
    have hlen : patternLen ((pre ++ (f ++ c :: t)).drop pre.length) = f.length := by
      rw [List.drop_left]
      exact patternLen_eq (by tauto) h0 h58 h44
    have hend : (pre ++ (f ++ c :: t))[pre.length + f.length]? = some c := by simp
    refine ⟨pre.length, ?_, List.drop_left ..⟩
    obtain ⟨x, hx⟩ : ∃ x, (pre ++ (f ++ c :: t))[pre.length]? = some x :=
      ⟨_, List.getElem?_eq_getElem (by simp)⟩
    have hc58 : c ≠ 58 := by rcases hc with rfl | rfl <;> decide
    rw [findItem]
    simp only [hx, hlen, hend]
    rw [if_pos hc58, ite_self]
    rfl

/-- **Reading the pattern** comes to the level that its first item for the file gives, and leaves the
pattern as it was. -/
theorem findItem_spec (name : Bytes) : ∀ (fuel : ℕ) (pre : Bytes) {p : Bytes}, (0 : UInt8) ∉ p → p.length < fuel →
    ∃ pat, findItem fnmatch name fuel (pre ++ (p ++ [0])) pre.length = .ok (pre ++ (p ++ [0]), pat) ∧
      levelAt ((pre ++ (p ++ [0])).drop pat) =
        .ok (((p.splitOn 44).findSome? (itemLevel fnmatch name)).bind levelOf) := by
  intro fuel
  induction fuel with
  | zero => exact fun pre p h0 hlen => absurd hlen (by omega)
  | succ fuel ih =>
    intro pre p h0 hlen
    by_cases h44 : (44 : UInt8) ∈ p
    · obtain ⟨f, p, rfl, hf⟩ := List.eq_append_cons_of_mem h44
      simp only [List.mem_append, List.mem_cons, not_or] at h0
      have hitem := @findItem_item fnmatch name fuel pre f (p ++ [0]) 44 h0.1 hf (.inr rfl) (fun _ => by simp)
      rw [List.splitOn_append_cons_self_of_not_mem hf, List.findSome?_cons, List.append_assoc, List.cons_append]
      cases hlevel : itemLevel fnmatch name f with
      | some text =>
        rw [hlevel] at hitem
        obtain ⟨pat, hok, hdrop⟩ := hitem
        have hsub := subset_of_itemLevel hlevel
        refine ⟨pat, hok, ?_⟩
        rw [hdrop]
        exact levelAt_spec (.inr rfl) _ (fun h => h0.1 (hsub h)) fun h => hf (hsub h)
      | none =>
        rw [hlevel] at hitem
        have hbuf : pre ++ (f ++ 44 :: (p ++ [0])) = pre ++ f ++ [44] ++ (p ++ [0]) := by simp
        dsimp only at hitem
        rw [if_neg (by decide), hbuf] at hitem
        rw [hbuf, hitem]
        have hpat : (pre ++ f).length + 1 = (pre ++ f ++ [44]).length := by
          simp only [List.length_append, List.length_singleton]
        rw [hpat]
        exact ih _ h0.2.2 (by simp only [List.length_append, List.length_cons] at hlen; omega)
    · have hitem := @findItem_item fnmatch name fuel pre p [] 0 h0 h44 (.inl rfl) nofun
      rw [List.splitOn_eq_singleton h44, List.findSome?_singleton]
      cases hlevel : itemLevel fnmatch name p with
      | some text =>
        rw [hlevel] at hitem
        obtain ⟨pat, hok, hdrop⟩ := hitem
        have hsub := subset_of_itemLevel hlevel
        refine ⟨pat, hok, ?_⟩
        rw [hdrop]
        exact levelAt_spec (.inl rfl) _ (fun h => h0 (hsub h)) fun h => h44 (hsub h)
      | none =>
        rw [hlevel] at hitem
        dsimp only at hitem
        rw [if_pos rfl, Nat.add_zero] at hitem
        have hne : p ≠ [] := by
          rintro rfl
          simp [itemLevel] at hlevel
        obtain ⟨fuel, rfl⟩ : ∃ n, fuel = n + 1 :=
          ⟨fuel - 1, by have := List.length_pos_iff.mpr hne; omega⟩
        rw [hitem, ← List.append_assoc]
        refine ⟨(pre ++ p).length, ?_, by rw [List.drop_left]; rfl⟩
        simp [findItem]

/-! ### The levels of the files -/

/-- The level of a file with a name is read off the configuration. -/
def Config.relevel (fnmatch : Fnmatch) (c : Config) (f : YlogFile) : YlogFile :=
  { f with level := f.name.elim f.level (c.levelFor fnmatch) }

/-- The configuration is in force. -/
structure Config.InForce (c : Config) (s : Log) : Prop where
  defaultLevel : s.defaultLevel = c.defaultLevel
  pattern : s.pattern = c.pattern.map fun p => p.bytes ++ [0]

theorem Config.relevel_eq {c : Config} {f : YlogFile} {name : Bytes} (hname : f.name = some name) :
    c.relevel fnmatch f = { f with level := c.levelFor fnmatch name } := by
  cases f
  cases hname
  rfl

/-- `ylog_set_file_level` gives a file that has a name its level. -/
theorem setFileLevel_spec {c : Config} {s : Log} (hc : c.InForce s) {file : ℕ} {name : Bytes}
    (hname : (s.files file).name = some name) :
    s.setFileLevel fnmatch file = .ok (s.modifyFile file (c.relevel fnmatch)) := by
  have hmod := @Config.relevel_eq fnmatch c _ name hname
  cases hp : c.pattern with
  | none =>
    have hpattern : s.pattern = none := by rw [hc.pattern, hp]; rfl
    rw [Log.setFileLevel, hpattern, Log.modifyFile, Log.modifyFile, hmod, Config.levelFor, hp, hc.defaultLevel]
    rfl
  | some p =>
    have hpattern : s.pattern = some (p.bytes ++ [0]) := by rw [hc.pattern, hp]; rfl
    obtain ⟨pat, hfind, hlevel⟩ := @findItem_spec fnmatch name ((p.bytes ++ [0]).length + 1) [] p.bytes p.noNul
      (Nat.lt_succ_of_le (by simp))
    rw [Log.setFileLevel, hpattern]
    dsimp only
    rw [hname]
    rw [List.nil_append, List.length_nil] at hfind
    rw [Option.elim_some, ok_bind, hfind, ok_bind]
    dsimp only
    rw [List.nil_append] at hlevel
    rw [hlevel, ok_bind, Log.modifyFile, Log.modifyFile, hmod, Config.levelFor, hp, ← hc.defaultLevel]
    rw [← hpattern]
    rfl

/-- The entries of the list from `p` on. -/
def Listed (files : ℕ → YlogFile) : Option ℕ → List ℕ → Prop
  | p, [] => p = none
  | p, f :: l => p = some f ∧ Listed files (files f).next l

theorem Listed.congr {files files' : ℕ → YlogFile} {l : List ℕ} (hnext : ∀ f ∈ l, (files' f).next = (files f).next) :
    ∀ {p : Option ℕ}, Listed files p l → Listed files' p l := by
  induction l with
  | nil => exact fun h => h
  | cons f l ih =>
    rintro p ⟨rfl, h⟩
    rw [List.forall_mem_cons] at hnext
    exact ⟨rfl, hnext.1 ▸ ih hnext.2 h⟩

/-- **The loop of `ylog_set_level`** gives every file of the list its level, and changes nothing else. -/
theorem setFileLevels_spec {c : Config} {l : List ℕ} : ∀ {fuel : ℕ} {s : Log} {p : Option ℕ}, l.length ≤ fuel →
    c.InForce s → Listed s.files p l → (∀ f ∈ l, (s.files f).name.isSome = true) →
      Log.setFileLevels fnmatch fuel s p =
        .ok { s with files := fun f => if f ∈ l then c.relevel fnmatch (s.files f) else s.files f } := by
  induction l with
  | nil =>
    rintro fuel s p - - rfl -
    cases fuel <;> simp [Log.setFileLevels]
  | cons f l ih =>
    rintro fuel s p hfuel hc ⟨rfl, hlist⟩ hnamed
    obtain ⟨fuel, rfl⟩ : ∃ n, fuel = n + 1 := ⟨fuel - 1, by rw [List.length_cons] at hfuel; omega⟩
    rw [List.forall_mem_cons] at hnamed
    obtain ⟨name, hname⟩ := Option.isSome_iff_exists.mp hnamed.1
    have hfiles : ∀ x, ((s.modifyFile f (c.relevel fnmatch)).files x).next = (s.files x).next ∧
        ((s.modifyFile f (c.relevel fnmatch)).files x).name = (s.files x).name := by
      intro x
      by_cases hx : x = f
      · subst hx
        simp [Log.modifyFile, Config.relevel]
      · simp [Log.modifyFile, hx]
    have hrest := @ih fuel (s.modifyFile f (c.relevel fnmatch)) _ (Nat.le_of_succ_le_succ hfuel)
      ⟨hc.defaultLevel, hc.pattern⟩ (hlist.congr fun x _ => (hfiles x).1)
      fun x hx => (congrArg Option.isSome (hfiles x).2).trans (hnamed.2 x hx)
    rw [Log.setFileLevels, setFileLevel_spec hc hname, ok_bind, (hfiles f).1, hrest]
    congr 2
    funext x
    by_cases hx : x = f
    · subst hx
      simp [Log.modifyFile, Config.relevel, hname]
    · simp [Log.modifyFile, hx]

/-! ### What the log should do -/

/-- The file extensions that are taken off a file name. -/
def extensions : List Bytes := [ascii ".c", ascii ".h", ascii ".cc", ascii ".cpp", ascii ".hpp"]

/-- A file name without its extension, if it is more than an extension. -/
def baseName (f : Bytes) : Bytes :=
  match extensions.find? fun ext => ext.isSuffixOf f && decide (ext.length < f.length) with
  | some ext => f.take (f.length - ext.length)
  | none => f

/-- What matters of the log: the configuration and the handler in force, and the names of the files that
have logged. -/
structure Duty where
  config : Config
  handler : ℕ
  names : ℕ → Option Bytes

/-- The start of the program. -/
def Duty.start (defaultHandler : ℕ) : Duty := ⟨⟨YLOG_DEFAULT, none⟩, defaultHandler, fun _ => none⟩

/-- The name of the file that logs. -/
def Duty.nameOf (w : Duty) (m : Message) : Bytes :=
  (w.names m.file).getD (if m.named then baseName m.filename.bytes else m.filename.bytes)

/-- What an event should do, and what the handler should get. -/
def Duty.event (fnmatch : Fnmatch) (w : Duty) : LogEvent → Duty × Option Entry
  | .setLevel defaultLevel pattern copied =>
    ({ w with config := ⟨defaultLevel, if copied then pattern else none⟩ }, none)
  | .setHandler cb => ({ w with handler := cb }, none)
  | .log m =>
    ({ w with names := Function.update w.names m.file (some (w.nameOf m)) },
      if m.level ≤ w.config.levelFor fnmatch (w.nameOf m) ∧ (m.msg.length < YLOG_STACK_MSG_SIZE ∨ m.copied = true) then
        some ⟨w.handler, m.filename, m.line, m.level, m.msg⟩
      else none)

/-- The events one after the other. -/
def Duty.events (fnmatch : Fnmatch) : Duty → List LogEvent → Duty × List Entry
  | w, [] => (w, [])
  | w, e :: es =>
    let (w, entry) := w.event fnmatch e
    let (w, entries) := Duty.events fnmatch w es
    (w, entry.toList ++ entries)

/-- The levels that a program may use. -/
def LogEvent.InRange : LogEvent → Prop
  | .setLevel defaultLevel .. => defaultLevel ≤ YLOG_MAX
  | .setHandler _ => True
  | .log m => m.level ≤ YLOG_MAX

/-- The end of a list, byte by byte. -/
theorem drop_back (f : Bytes) : ∀ k, k ≤ f.length →
    f.drop (f.length - k) = (List.range k).reverse.map fun i => back f (i + 1) := by
  intro k
  induction k with
  | zero => simp
  | succ k ih =>
    intro hk
    have hlt : f.length - (k + 1) < f.length := by omega
    have hnext : f.length - (k + 1) + 1 = f.length - k := by omega
    have hback : back f (k + 1) = f[f.length - (k + 1)] := by
      rw [back, List.getD_eq_getElem?_getD, List.getElem?_eq_getElem hlt, Option.getD_some]
    rw [List.drop_eq_getElem_cons hlt, hnext, ih (by omega), List.range_succ, List.reverse_append,
      List.reverse_singleton, List.singleton_append, List.map_cons, hback]

/-- When a file name is more than an extension. -/
theorem ends_iff {f g ext : Bytes} : g ≠ [] ∧ f = g ++ ext ↔ f.length > ext.length ∧
    g = f.take (f.length - ext.length) ∧ (List.range ext.length).reverse.map (fun i => back f (i + 1)) = ext := by
  constructor
  · rintro ⟨hg, rfl⟩
    have hpos := List.length_pos_iff.mpr hg
    have hlen : (g ++ ext).length - ext.length = g.length := by simp
    refine ⟨by simp only [List.length_append]; omega, ?_, ?_⟩
    · rw [hlen, List.take_left]
    · rw [← drop_back _ _ (by simp), hlen, List.drop_left]
  · rintro ⟨hlt, rfl, hext⟩
    refine ⟨?_, ?_⟩
    · rw [ne_eq, List.take_eq_nil_iff, not_or]
      refine ⟨by omega, fun h => ?_⟩
      rw [h] at hlt
      cases hlt
    · have hdrop : f.drop (f.length - ext.length) = ext := (drop_back f _ hlt.le).trans hext
      calc f = f.take (f.length - ext.length) ++ f.drop (f.length - ext.length) := (List.take_append_drop ..).symm
        _ = f.take (f.length - ext.length) ++ ext := by rw [hdrop]

/-- **`ylog_set_file_name`** takes one of these extensions off a name that is more than the extension. -/
theorem fileName_spec (f : Bytes) :
    (∃ ext ∈ extensions, fileName f ≠ [] ∧ f = fileName f ++ ext) ∨
      (fileName f = f ∧ ∀ ext ∈ extensions, ∀ g ≠ [], f ≠ g ++ ext) := by
  unfold fileName
  dsimp only
  split_ifs with h1 h2 h3
  · refine .inl ⟨[46, back f 1], ?_, ends_iff.mpr ⟨h1.1, rfl, by simp [List.range_succ, h1.2.2]⟩⟩
    rcases h1.2.1 with h | h <;> rw [h] <;> decide
  · exact .inl ⟨[46, 99, 99], by decide, ends_iff.mpr ⟨h2.1, rfl, by simp [List.range_succ, h2.2]⟩⟩
  · refine .inl ⟨[46, back f 3, 112, 112], ?_, ends_iff.mpr ⟨h3.1, rfl, by simp [List.range_succ, h3.2]⟩⟩
    rcases h3.2.2.2.1 with h | h <;> rw [h] <;> decide
  · refine .inr ⟨rfl, fun ext hext g hg heq => ?_⟩
    obtain ⟨hlen, -, hends⟩ := ends_iff.mp ⟨hg, heq⟩
    simp only [extensions, List.mem_cons, List.not_mem_nil, or_false] at hext
    rcases hext with rfl | rfl | rfl | rfl | rfl <;> simp_all [List.range_succ, ascii]

/-- No extension ends with another. -/
theorem extensions_suffix : ∀ ext ∈ extensions, ∀ ext' ∈ extensions, ext <:+ ext' → ext = ext' := by
  decide

/-- The name that a file is given is its name without the extension. -/
theorem fileName_eq_baseName (f : Bytes) : fileName f = baseName f := by
  unfold baseName
  rcases fileName_spec f with ⟨ext, hext, hne, hf⟩ | ⟨hf, hnone⟩
  · have hpos := List.length_pos_iff.mpr hne
    have hlen := congrArg List.length hf
    rw [List.length_append] at hlen
    cases hfind : extensions.find? fun ext => ext.isSuffixOf f && decide (ext.length < f.length) with
    | none =>
      have hnot := List.find?_eq_none.mp hfind ext hext
      simp only [Bool.and_eq_true, List.isSuffixOf_iff_suffix, decide_eq_true_eq, not_and, not_lt] at hnot
      have hle := hnot ⟨fileName f, hf.symm⟩
      omega
    | some ext' =>
      have hext' := List.mem_of_find?_eq_some hfind
      have hends := List.find?_some hfind
      simp only [Bool.and_eq_true, List.isSuffixOf_iff_suffix] at hends
      have hsame : ext = ext' := by
        rcases List.suffix_or_suffix_of_suffix (⟨fileName f, hf.symm⟩ : ext <:+ f) hends.1 with h | h
        · exact extensions_suffix ext hext ext' hext' h
        · exact (extensions_suffix ext' hext' ext hext h).symm
      dsimp only
      rw [← hsame]
      conv_rhs => rw [hf]
      rw [List.length_append, Nat.add_sub_cancel, List.take_left]
  · have hfind : extensions.find? (fun ext => ext.isSuffixOf f && decide (ext.length < f.length)) = none := by
      refine List.find?_eq_none.mpr fun ext hext => ?_
      simp only [Bool.and_eq_true, List.isSuffixOf_iff_suffix, decide_eq_true_eq, not_and, not_lt]
      rintro ⟨g, rfl⟩
      by_contra hlt
      rw [not_le, List.length_append] at hlt
      exact hnone ext hext g (List.ne_nil_of_length_pos (by omega)) rfl
    rw [hfind]
    exact hf

/-- The log does its duty: the configuration is in force, and the files that have logged are those of the
list, each with its level. -/
structure Does (fnmatch : Fnmatch) (w : Duty) (s : Log) (l : List ℕ) : Prop where
  config : w.config.InForce s
  range : w.config.defaultLevel ≤ YLOG_MAX
  handler : s.handler = w.handler
  listed : Listed s.files s.ylogFiles l
  fresh : ∀ f ∉ l, s.files f = .new ∧ w.names f = none
  level : ∀ f ∈ l, ∃ name, w.names f = some name ∧ (s.files f).name = some name ∧
    (s.files f).level = w.config.levelFor fnmatch name

/-- A level that is read is in the range. -/
theorem Config.levelFor_le {c : Config} (h : c.defaultLevel ≤ YLOG_MAX) (name : Bytes) :
    c.levelFor fnmatch name ≤ YLOG_MAX := by
  unfold Config.levelFor
  cases c.pattern with
  | none => exact h
  | some p =>
    dsimp only
    cases hlevel : ((p.bytes.splitOn 44).findSome? (itemLevel fnmatch name)).bind levelOf with
    | none => exact h
    | some val =>
      obtain ⟨text, -, htext⟩ := Option.bind_eq_some_iff.mp hlevel
      unfold levelOf at htext
      split_ifs at htext with hval
      cases htext
      exact Nat.cast_le.mpr hval.2.2

/-- A new configuration is read for every file of the list. -/
theorem setLevel_spec {fuel : ℕ} {w : Duty} {s : Log} {l : List ℕ} (h : Does fnmatch w s l) (hfuel : l.length ≤ fuel)
    {defaultLevel : ℤ} (hrange : defaultLevel ≤ YLOG_MAX) (pattern : Option CStr) (copied : Bool) :
    ∃ s', s.setLevel fnmatch fuel defaultLevel pattern copied = .ok s' ∧
      Does fnmatch { w with config := ⟨defaultLevel, if copied then pattern else none⟩ } s' l := by
  have hforce : Config.InForce ⟨defaultLevel, if copied then pattern else none⟩
      { s with defaultLevel, pattern := if copied then pattern.map fun p => p.bytes ++ [0] else none } :=
    ⟨rfl, by cases copied <;> rfl⟩
  have hnamed : ∀ f ∈ l, (s.files f).name.isSome = true := by
    intro f hf
    obtain ⟨name, -, hname, -⟩ := h.level f hf
    rw [hname]
    rfl
  refine ⟨_, @setFileLevels_spec fnmatch _ l fuel _ _ hfuel hforce h.listed hnamed,
    ⟨⟨rfl, hforce.pattern⟩, hrange, h.handler, ?_, ?_, ?_⟩⟩
  · refine h.listed.congr fun f hf => ?_
    dsimp only
    rw [if_pos hf]
    rfl
  · intro f hf
    dsimp only
    rw [if_neg hf]
    exact h.fresh f hf
  · intro f hf
    obtain ⟨name, hnames, hname, -⟩ := h.level f hf
    dsimp only
    rw [if_pos hf, Config.relevel_eq hname]
    exact ⟨name, hnames, hname, rfl⟩

/-- A message is handed over when there is room for it. -/
theorem handed_eq (s : Log) (m : Message) :
    (if m.msg.length ≥ YLOG_STACK_MSG_SIZE ∧ m.copied = false then pure (s, none)
      else pure (s, some ⟨s.handler, m.filename, m.line, m.level, m.msg⟩) : Except Fault (Log × Option Entry)) =
      .ok (s, if m.msg.length < YLOG_STACK_MSG_SIZE ∨ m.copied = true then
        some ⟨s.handler, m.filename, m.line, m.level, m.msg⟩ else none) := by
  by_cases hcopied : m.msg.length < YLOG_STACK_MSG_SIZE ∨ m.copied = true
  · have hroom : ¬ (m.msg.length ≥ YLOG_STACK_MSG_SIZE ∧ m.copied = false) := fun h =>
      hcopied.elim (not_lt.mpr h.1) (by simp [h.2])
    rw [if_neg hroom, if_pos hcopied]
    rfl
  · rw [if_neg hcopied, not_or, Bool.not_eq_true, not_lt] at *
    rw [if_pos hcopied]
    rfl

/-- A message of a file that has logged before. -/
theorem log_known {w : Duty} {s : Log} {l : List ℕ} (h : Does fnmatch w s l) {m : Message} (hm : m.file ∈ l) :
    s.log fnmatch m = .ok (s, (w.event fnmatch (.log m)).2) ∧ Does fnmatch (w.event fnmatch (.log m)).1 s l := by
  obtain ⟨name, hnames, hname, hlevel⟩ := h.level m.file hm
  have hof : w.nameOf m = name := by rw [Duty.nameOf, hnames, Option.getD_some]
  have hsame : (w.event fnmatch (.log m)).1 = w := by
    rw [Duty.event, hof, ← hnames, Function.update_eq_self]
  refine ⟨?_, by rwa [hsame]⟩
  have hknown : ¬ (s.files m.file).level = YLOG_UNINITIALIZED := by
    rw [hlevel]
    exact ((Config.levelFor_le h.range name).trans_lt (by decide)).ne
  rw [Log.log, Duty.event, hof, hlevel]
  by_cases hlog : m.level ≤ w.config.levelFor fnmatch name
  · rw [if_pos hlog, Log.impl, if_neg hknown, pure_eq_ok, ok_bind]
    dsimp only
    rw [if_neg fun hfresh => hknown hfresh.1, handed_eq, h.handler]
    simp only [hlog, true_and]
  · rw [if_neg hlog, if_neg fun h => hlog h.1]
    rfl

/-- A message of a file that has not logged before: the file is tied in. -/
theorem log_fresh {w : Duty} {s : Log} {l : List ℕ} (h : Does fnmatch w s l) {m : Message} (hm : m.file ∉ l)
    (hrange : m.level ≤ YLOG_MAX) :
    ∃ s', s.log fnmatch m = .ok (s', (w.event fnmatch (.log m)).2) ∧
      Does fnmatch (w.event fnmatch (.log m)).1 s' (m.file :: l) := by
  obtain ⟨hfile, hnames⟩ := h.fresh m.file hm
  have hnamed : s.setFileName m.file m.filename.bytes m.named =
      s.modifyFile m.file fun f => { f with name := some (w.nameOf m) } := by
    rw [Log.setFileName, Duty.nameOf, hnames, fileName_eq_baseName]
    rfl
  have hset : (s.setFileName m.file m.filename.bytes m.named).setFileLevel fnmatch m.file =
      .ok (s.modifyFile m.file fun _ => ⟨w.config.levelFor fnmatch (w.nameOf m), some (w.nameOf m), none⟩) := by
    have hname : ((s.modifyFile m.file fun f => { f with name := some (w.nameOf m) }).files m.file).name =
        some (w.nameOf m) := by simp [Log.modifyFile]
    have hforce : w.config.InForce (s.modifyFile m.file fun f => { f with name := some (w.nameOf m) }) :=
      ⟨h.config.defaultLevel, h.config.pattern⟩
    rw [hnamed, setFileLevel_spec hforce hname]
    simp [Log.modifyFile, hfile, Config.relevel, YlogFile.new]
  have hfresh : (s.files m.file).level = YLOG_UNINITIALIZED := by rw [hfile]; rfl
  refine ⟨{ s with
    files := Function.update s.files m.file ⟨w.config.levelFor fnmatch (w.nameOf m), some (w.nameOf m), s.ylogFiles⟩
    ylogFiles := some m.file }, ?_, ⟨h.config.defaultLevel, h.config.pattern⟩, h.range, h.handler, ?_, ?_, ?_⟩
  · rw [Log.log, if_pos (by rw [hfresh]; exact hrange.trans (by decide)), Log.impl, if_pos hfresh, hset]
    simp only [ok_bind, pure_eq_ok, Log.modifyFile, Function.update_self, Function.update_idem, hfresh, true_and,
      Duty.event, ← h.handler]
    by_cases hlog : m.level ≤ w.config.levelFor fnmatch (w.nameOf m)
    · rw [if_neg (not_lt.mpr hlog)]
      simp only [hlog, true_and]
      exact handed_eq _ m
    · rw [if_pos (not_le.mp hlog), if_neg fun h => hlog h.1]
  · refine ⟨rfl, ?_⟩
    dsimp only
    rw [Function.update_self]
    refine h.listed.congr fun f hf => ?_
    have hne : f ≠ m.file := fun heq => hm (heq ▸ hf)
    rw [Function.update_of_ne hne]
  · intro f hf
    rw [List.mem_cons, not_or] at hf
    dsimp only [Duty.event]
    rw [Function.update_of_ne hf.1, Function.update_of_ne hf.1]
    exact h.fresh f hf.2
  · intro f hf
    dsimp only [Duty.event]
    by_cases heq : f = m.file
    · subst heq
      rw [Function.update_self, Function.update_self]
      exact ⟨_, rfl, rfl, rfl⟩
    · rw [Function.update_of_ne heq, Function.update_of_ne heq]
      exact h.level f ((List.mem_cons.mp hf).resolve_left heq)

/-- **One event**. -/
theorem event_spec {fuel : ℕ} {w : Duty} {s : Log} {l : List ℕ} (h : Does fnmatch w s l) (hfuel : l.length ≤ fuel)
    {e : LogEvent} (hrange : e.InRange) :
    ∃ s' l', s.event fnmatch fuel e = .ok (s', (w.event fnmatch e).2) ∧ Does fnmatch (w.event fnmatch e).1 s' l' ∧
      l'.length ≤ l.length + 1 := by
  cases e with
  | setHandler cb =>
    exact ⟨_, l, rfl, ⟨⟨h.config.defaultLevel, h.config.pattern⟩, h.range, rfl, h.listed, h.fresh, h.level⟩,
      Nat.le_succ _⟩
  | setLevel defaultLevel pattern copied =>
    obtain ⟨s', hok, hdoes⟩ := setLevel_spec h hfuel hrange pattern copied
    refine ⟨s', l, ?_, hdoes, Nat.le_succ _⟩
    rw [Log.event, hok]
    rfl
  | log m =>
    by_cases hm : m.file ∈ l
    · obtain ⟨hok, hdoes⟩ := log_known h hm
      exact ⟨s, l, hok, hdoes, Nat.le_succ _⟩
    · obtain ⟨s', hok, hdoes⟩ := log_fresh h hm hrange
      exact ⟨s', m.file :: l, hok, hdoes, le_rfl⟩

/-- **A run**. -/
theorem events_spec {fuel : ℕ} {es : List LogEvent} : ∀ {w : Duty} {s : Log} {l : List ℕ}, Does fnmatch w s l →
    l.length + es.length ≤ fuel → (∀ e ∈ es, e.InRange) →
      ∃ s' l', s.events fnmatch fuel es = .ok (s', (w.events fnmatch es).2) ∧
        Does fnmatch (w.events fnmatch es).1 s' l' := by
  induction es with
  | nil => exact fun {w s l} h _ _ => ⟨s, l, rfl, h⟩
  | cons e es ih =>
    intro w s l h hfuel hrange
    rw [List.forall_mem_cons] at hrange
    rw [List.length_cons] at hfuel
    obtain ⟨s₁, l₁, hok₁, h₁, hlen₁⟩ := @event_spec fnmatch fuel w s l h (by omega) e hrange.1
    obtain ⟨s₂, l₂, hok₂, h₂⟩ := ih h₁ (by omega) hrange.2
    refine ⟨s₂, l₂, ?_, h₂⟩
    rw [Log.events, hok₁, ok_bind]
    dsimp only
    rw [hok₂]
    rfl

/-- **The configuration is followed.** In every run of a program whose levels are in the range, the handler gets
the messages that are not above the level of their file, in their order and with their texts, and no others; and
each file that has logged has the level that the configuration in force gives to its name. -/
theorem messages_follow_config (fnmatch : Fnmatch) (defaultHandler : ℕ) {fuel : ℕ} {es : List LogEvent}
    (hrange : ∀ e ∈ es, e.InRange) (hfuel : es.length ≤ fuel) :
    ∃ s, (Log.start defaultHandler).events fnmatch fuel es =
        .ok (s, ((Duty.start defaultHandler).events fnmatch es).2) ∧
      ∀ f, (s.files f).level = (((Duty.start defaultHandler).events fnmatch es).1.names f).elim YLOG_UNINITIALIZED
        (((Duty.start defaultHandler).events fnmatch es).1.config.levelFor fnmatch) := by
  have hstart : Does fnmatch (.start defaultHandler) (.start defaultHandler) [] :=
    ⟨⟨rfl, rfl⟩, show YLOG_DEFAULT ≤ YLOG_MAX by decide, rfl, rfl, fun f _ => ⟨rfl, rfl⟩, nofun⟩
  obtain ⟨s, l, hok, h⟩ := @events_spec fnmatch fuel es _ _ _ hstart (by simpa using hfuel) hrange
  refine ⟨s, hok, fun f => ?_⟩
  by_cases hf : f ∈ l
  · obtain ⟨name, hnames, -, hlevel⟩ := h.level f hf
    rw [hnames, hlevel]
    rfl
  · obtain ⟨hfile, hnames⟩ := h.fresh f hf
    rw [hnames, hfile]
    rfl

/-- A string, of the characters of a pattern. -/
def literal : Fnmatch := fun pat s => pat == s

/-- A message of `main.c` and one of `call.c`. -/
def twoMessages : List LogEvent := [
  .log ⟨7, 2, 10, .ofBytes (ascii "src/main.c"), ascii "quiet", true, true⟩,
  .log ⟨8, 2, 11, .ofBytes (ascii "src/call.c"), ascii "loud", true, true⟩]

/-- `main:1,2` lets `main.c` say less than the others, in whatever directory it is. -/
theorem messages_follow_config_main :
    ∃ s, (Log.start 0).events literal 3 (.setLevel 3 (some (.ofBytes (ascii "main:1,2"))) true :: twoMessages) =
        .ok (s, [⟨0, .ofBytes (ascii "src/call.c"), 11, 2, ascii "loud"⟩]) ∧
      (s.files 7).level = 1 ∧ (s.files 8).level = 2 ∧ (s.files 9).level = YLOG_UNINITIALIZED := by
  have hrange : ∀ e ∈ LogEvent.setLevel 3 (some (.ofBytes (ascii "main:1,2"))) true :: twoMessages, e.InRange := by
    simp only [twoMessages, List.forall_mem_cons]
    exact ⟨show (3 : ℤ) ≤ YLOG_MAX by decide, show (2 : ℤ) ≤ YLOG_MAX by decide, show (2 : ℤ) ≤ YLOG_MAX by decide,
      nofun⟩
  have hhanded : ((Duty.start 0).events literal
      (.setLevel 3 (some (.ofBytes (ascii "main:1,2"))) true :: twoMessages)).2 =
        [⟨0, .ofBytes (ascii "src/call.c"), 11, 2, ascii "loud"⟩] := by decide +kernel
  obtain ⟨s, hok, hlevel⟩ := messages_follow_config literal 0 hrange le_rfl
  rw [hhanded] at hok
  exact ⟨s, hok, (hlevel 7).trans (by decide +kernel), (hlevel 8).trans (by decide +kernel),
    (hlevel 9).trans (by decide +kernel)⟩

end ToxSuite.Ylog
