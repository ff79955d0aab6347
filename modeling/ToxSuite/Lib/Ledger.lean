import Mathlib.Data.Finset.Basic
import Mathlib.Algebra.Order.Group.Multiset
import Mathlib.Order.Lattice.Nat
import Mathlib.Tactic.Abel
import ToxSuite.Lib.CText

/-!
# The blocks that are allocated

`malloc` and `free` seen from the outside: the addresses of the blocks that are
allocated, and nothing of what is in them. A block that is given back twice, or that was
never allocated, is a fault.

`Owns L own base` says who answers for the blocks of a ledger: those of `own` belong to
whoever speaks, those of `base` were there before. An operation is described by what it
does to `own`, whatever `base` is; a computation that ends with `Owns L 0 base` has given
back all it took, one that ends with `Owns L own base` has left `own` behind.
-/

namespace ToxSuite.Lib

/-- The addresses of the blocks that are allocated. -/
abbrev Ledger := Finset ℕ

/-- Where `malloc` puts a block when these are allocated. -/
abbrev Placement := Ledger → ℕ

/-- `malloc` puts a block where none is. -/
def Placement.Sound (place : Placement) : Prop := ∀ L, place L ∉ L

section

variable (place : Placement)

/-- `malloc`. -/
def alloc (L : Ledger) : ℕ × Ledger := (place L, insert (place L) L)

/-- `free`. -/
def release (a : ℕ) (L : Ledger) : Except Fault Ledger := if a ∈ L then pure (L.erase a) else .error .released

/-- `free` on a pointer that may be `NULL`. -/
def releaseOpt : Option ℕ → Ledger → Except Fault Ledger
  | none, L => pure L
  | some a, L => release a L

/-- `realloc`: the block may stay where it is or move. -/
def realloc (a : Option ℕ) (L : Ledger) : Except Fault (ℕ × Ledger) := do
  let L ← releaseOpt a L
  pure (alloc place L)

end

/-- The block at an address that may be `NULL`. -/
def block : Option ℕ → Multiset ℕ
  | none => 0
  | some a => {a}

/-- The allocated blocks are `own` and `base`, each once. -/
def Owns (L : Ledger) (own base : Multiset ℕ) : Prop := L.val = own + base

section

variable {place : Placement} {L L' : Ledger} {own own' base : Multiset ℕ} {a : ℕ}

theorem Owns.nothing : Owns L 0 L.val := (zero_add _).symm

theorem Owns.congr (h : Owns L own base) (heq : own = own') : Owns L own' base := heq ▸ h

/-- Where nothing is owned, all was given back. -/
theorem Owns.all_released (h : Owns L' 0 L.val) : L' = L := by
  unfold Owns at h
  exact Finset.val_injective (h.trans (zero_add _))

/-- What a computation took on top of what was owned before it. -/
theorem Owns.trans (h : Owns L own base) (h' : Owns L' own' L.val) : Owns L' (own' + own) base := by
  unfold Owns at *
  rw [h', h, add_assoc]

theorem Owns.alloc (hplace : place.Sound) (h : Owns L own base) : Owns (alloc place L).2 ({place L} + own) base := by
  unfold Owns at *
  rw [Lib.alloc, Finset.insert_val_of_notMem (hplace L), h, ← Multiset.singleton_add, add_assoc]

/-- **What is owned can be given back.** -/
theorem Owns.release (h : Owns L ({a} + own) base) : ∃ L', Lib.release a L = .ok L' ∧ Owns L' own base := by
  unfold Owns at *
  rw [add_assoc, Multiset.singleton_add] at h
  have hmem : a ∈ L := by
    rw [← Finset.mem_val, h]
    exact Multiset.mem_cons_self a _
  refine ⟨L.erase a, if_pos hmem, ?_⟩
  rw [Finset.erase_val, h, Multiset.erase_cons_head]

theorem Owns.releaseOpt {a : Option ℕ} (h : Owns L (block a + own) base) :
    ∃ L', Lib.releaseOpt a L = .ok L' ∧ Owns L' own base := by
  cases a with
  | none => exact ⟨L, rfl, h.congr (zero_add own)⟩
  | some a => exact h.release

/-- A block that is reallocated is owned before and after. -/
theorem Owns.realloc (hplace : place.Sound) {a : Option ℕ} (h : Owns L (block a + own) base) :
    ∃ b L', Lib.realloc place a L = .ok (b, L') ∧ Owns L' ({b} + own) base := by
  obtain ⟨L₁, hok, h₁⟩ := h.releaseOpt
  exact ⟨place L₁, (Lib.alloc place L₁).2, by rw [Lib.realloc, hok]; rfl, h₁.alloc hplace⟩

end

/-- Blocks are put above those that are allocated. -/
def above : Placement := fun L => L.sup id + 1

theorem above_sound : above.Sound := by
  intro L h
  have := Finset.le_sup (f := id) h
  simp only [id, above] at this
  omega

end ToxSuite.Lib
