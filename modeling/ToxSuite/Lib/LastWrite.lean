import Mathlib.Data.List.Perm.Basic

/-!
# Fields that are written more than once

A loop over a list writes `f a` to a field at the elements `a` that have one. The field
holds what was written last (`lastWrite`). It does not depend on the order of the list if
and only if all that is written is the same (`Agree`): one direction is `lastWrite_perm`,
the other `agree_of_perm`, for a field read through a function that tells values apart.
-/

namespace ToxSuite.Lib

universe u v w

variable {α : Type u} {β : Type v} {γ : Type w}

/-- What a loop over the list writes last. -/
def lastWrite (f : α → Option β) (l : List α) : Option β := l.reverse.findSome? f

/-- All that a loop over the list writes is the same. -/
def Agree (f : α → Option β) (l : List α) : Prop :=
  ∀ a ∈ l, ∀ b ∈ l, ∀ x y, f a = some x → f b = some y → x = y

variable {f : α → Option β} {l l' : List α} {a : α} {x : β}

theorem lastWrite_cons : lastWrite f (a :: l) = (lastWrite f l).or (f a) := by
  simp [lastWrite]

theorem lastWrite_concat (h : f a = some x) : lastWrite f (l ++ [a]) = some x := by
  simp [lastWrite, h]

/-- What was written last was written. -/
theorem exists_of_lastWrite (h : lastWrite f l = some x) : ∃ a ∈ l, f a = some x := by
  obtain ⟨a, ha, hx⟩ := List.exists_of_findSome?_eq_some h
  exact ⟨a, List.mem_reverse.mp ha, hx⟩

theorem lastWrite_isSome : (lastWrite f l).isSome ↔ ∃ a ∈ l, (f a).isSome := by
  simp [lastWrite, List.findSome?_isSome_iff]

/-- What is written is what was written last, if all that is written is the same. -/
theorem lastWrite_of_agree (h : Agree f l) (ha : a ∈ l) (hx : f a = some x) : lastWrite f l = some x := by
  have hsome : (lastWrite f l).isSome := lastWrite_isSome.mpr ⟨a, ha, by simp [hx]⟩
  obtain ⟨y, hy⟩ := Option.isSome_iff_exists.mp hsome
  obtain ⟨b, hb, hby⟩ := exists_of_lastWrite hy
  rw [hy, h a ha b hb x y hx hby]

/-- The order does not matter where all that is written is the same. -/
theorem lastWrite_perm (hl : l'.Perm l) (h : Agree f l) : lastWrite f l' = lastWrite f l := by
  cases hlast : lastWrite f l' with
  | some x =>
    obtain ⟨a, ha, hx⟩ := exists_of_lastWrite hlast
    exact (lastWrite_of_agree h (hl.mem_iff.mp ha) hx).symm
  | none =>
    refine (Option.not_isSome_iff_eq_none.mp fun hsome => ?_).symm
    obtain ⟨a, ha, hx⟩ := lastWrite_isSome.mp hsome
    have hsome' := lastWrite_isSome.mpr ⟨a, hl.mem_iff.mpr ha, hx⟩
    simp [hlast] at hsome'

/-- An element can be put last. -/
theorem exists_perm_concat (ha : a ∈ l) : ∃ m, (m ++ [a]).Perm l := by
  obtain ⟨s, t, rfl⟩ := List.append_of_mem ha
  refine ⟨s ++ t, ?_⟩
  rw [List.append_assoc]
  exact List.Perm.append_left s (List.perm_append_singleton a t)

/-- If the order does not matter, all that is written is the same. -/
theorem agree_of_perm {g : Option β → γ} (hg : ∀ x y, g (some x) = g (some y) → x = y)
    (h : ∀ l', l'.Perm l → g (lastWrite f l') = g (lastWrite f l)) : Agree f l := by
  have hlast : ∀ a ∈ l, ∀ x, f a = some x → g (some x) = g (lastWrite f l) := by
    intro a ha x hx
    obtain ⟨m, hm⟩ := exists_perm_concat ha
    rw [← h _ hm, lastWrite_concat hx]
  intro a ha b hb x y hx hy
  exact hg x y ((hlast a ha x hx).trans (hlast b hb y hy).symm)

end ToxSuite.Lib
