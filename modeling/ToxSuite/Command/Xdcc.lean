import ToxSuite.Command.Args
import ToxSuite.Command.Argexp

/-!
# `command.c`: a message that is read twice

With the flag `xdcc` on, `friend_message` gives a message to `execute` before it looks for a
command of its own in it, in the same buffer. `execute` ends the arguments it finds in place, so
what `argexp` gets to see may be cut.

The flag makes no difference just where there is nothing to end: for a message without a space
(`readsAlike_iff`), so long as it does not overflow the table of `execute`.
-/

namespace ToxSuite.Command

open ToxSuite.Lib

/-! ### The code -/

/-- The beginning of `friend_message`: what `argexp` returns, and `argv` and `argc` afterwards. -/
def friendMessageArgs (heap : ∀ n, Vec n) (xdcc : Bool) (message : Bytes) (length : ℕ) (argc : ℤ) :
    Except Fault (ℤ × List CStr × ℤ) := do
  let message ← if xdcc then do
      let (message, _) ← execute message
      pure message
    else pure message
  -- `'!'`
  argexp heap message length [] argc 33

/-! ### Both modes -/

/-- `execute` leaves a message as it is, and `friend_message` has the same arguments of it with
the flag on as with the flag off. -/
def ReadsAlike (message : Bytes) : Prop :=
  (∃ call, execute (message ++ [0]) = .ok (message ++ [0], call)) ∧
    ∀ heap argc, friendMessageArgs heap true (message ++ [0]) message.length argc =
      friendMessageArgs heap false (message ++ [0]) message.length argc

/-- `execute` fails with `parse_command` only. -/
theorem execute_eq_ok {cmd cmd' : Bytes} :
    (∃ call, execute cmd = .ok (cmd', call)) ↔ ∃ args numArgs, parseCommand cmd noArgs = .ok (cmd', args, numArgs) := by
  unfold execute
  cases parseCommand cmd noArgs with
  | error e => simp
  | ok r =>
    obtain ⟨cmd₁, args, numArgs⟩ := r
    simp only [ok_bind]
    cases botCommands.find? fun c => cstr args = c.1 <;> simp

/-- A message is left as it is if its one field fits into the table. -/
theorem execute_unchanged_iff (message : Bytes) :
    (∃ call, execute (message ++ [0]) = .ok (message ++ [0], call)) ↔
      (32 : UInt8) ∉ cstr (message ++ [0]) ∧ (cstr (message ++ [0])).length < MAX_ARGS_NUM * MAX_ARGS_SIZE := by
  rw [execute_eq_ok, parseCommand_eq, copied]
  obtain ⟨f, b, t, hsplit, hb, hc, hf⟩ := exists_field (s := message ++ [0]) (by simp) 32
  rw [hsplit]
  rcases hb with rfl | rfl
  · -- the first space is overwritten
    refine iff_of_false ?_ ?_
    · rintro ⟨args, numArgs, h⟩
      obtain ⟨args', -, h⟩ := map_eq_ok.mp h
      have hcut := congrArg Prod.fst h
      rw [show MAX_ARGS_NUM = 2 + 1 from rfl, cutSpaces_field hc hf] at hcut
      have := (List.cons.inj (List.append_cancel_left hcut)).1
      exact absurd this (by decide)
    · rintro ⟨h, -⟩
      rw [cstr_append_cons space_ne_zero hf] at h
      simp at h
  · have hone : [f].length ≤ MAX_ARGS_NUM := by simp [MAX_ARGS_NUM]
    rw [fields_last hc hf, cutSpaces_last hc hf, cstr_append_nul hf, List.take_of_length_le hone]
    constructor
    · rintro ⟨args, numArgs, h⟩
      obtain ⟨args', hfill, -⟩ := map_eq_ok.mp h
      obtain ⟨args₁, hpoke, -⟩ := bind_eq_ok.mp hfill
      unfold poke at hpoke
      split_ifs at hpoke with hfit
      simp only [Nat.zero_mul, Nat.zero_add, List.length_append, List.length_singleton, noArgs,
        List.length_replicate] at hfit
      exact ⟨hc, hfit⟩
    · rintro ⟨-, hlen⟩
      have hfit : 0 * MAX_ARGS_SIZE + (f ++ [0]).length ≤ noArgs.length := by
        simp only [Nat.zero_mul, Nat.zero_add, List.length_append, List.length_singleton, noArgs,
          List.length_replicate]
        exact hlen
      obtain ⟨args, hpoke, -⟩ := poke_spec hfit
      exact ⟨args, _, map_eq_ok.mpr ⟨args, bind_eq_ok.mpr ⟨args, hpoke, rfl⟩, rfl⟩⟩

/-- **Nothing but one short word is read alike**: with the flag on, a message is left as it is and
cut up as with the flag off if and only if there is no space in it and it fits into the table of
`execute`. -/
theorem readsAlike_iff (message : Bytes) :
    ReadsAlike message ↔
      (32 : UInt8) ∉ cstr (message ++ [0]) ∧ (cstr (message ++ [0])).length < MAX_ARGS_NUM * MAX_ARGS_SIZE := by
  rw [← execute_unchanged_iff]
  refine ⟨And.left, fun h => ⟨h, fun heap argc => ?_⟩⟩
  obtain ⟨call, hexecute⟩ := h
  simp only [friendMessageArgs, if_true, hexecute, ok_bind, pure_eq_ok, Bool.false_eq_true, if_false]

/-- `!info 3` loses its argument. -/
theorem info_loses_argument :
    (∃ call, execute (ascii "!info 3" ++ [0]) = .ok (ascii "!info" ++ 0 :: ascii "3" ++ [0], call)) ∧
      (friendMessageArgs (fun n => ⟨List.replicate n 0, List.length_replicate⟩) false (ascii "!info 3" ++ [0]) 7 0).map
          (fun r => r.2.1.map CStr.bytes) = .ok [ascii "arg0", ascii "--info", ascii "3"] ∧
      (friendMessageArgs (fun n => ⟨List.replicate n 0, List.length_replicate⟩) true (ascii "!info 3" ++ [0]) 7 0).map
          (fun r => r.2.1.map CStr.bytes) = .ok [ascii "arg0", ascii "--info"] ∧
      ¬ ReadsAlike (ascii "!info 3") := by
  refine ⟨⟨_, rfl⟩, by decide, by decide, ?_⟩
  rintro ⟨⟨call, h⟩, -⟩
  have hcut : (execute (ascii "!info 3" ++ [0])).map Prod.fst = .ok (ascii "!info" ++ 0 :: ascii "3" ++ [0]) := rfl
  rw [h] at hcut
  have : ascii "!info 3" ++ [0] = ascii "!info" ++ 0 :: ascii "3" ++ [0] := Except.ok.inj hcut
  revert this
  decide

end ToxSuite.Command
