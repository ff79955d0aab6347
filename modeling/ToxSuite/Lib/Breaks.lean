import Mathlib.Data.List.Basic

/-!
# Loops that break

A loop over a list that does its work on the elements with `p` should pass over the
others. A loop that breaks at the first of the others does its work on all elements with
`p` if and only if the list is in order (`Orderly`, `dropWhile_eq_filter_iff`): nothing
without `p` stands before an element with `p`.
-/

namespace ToxSuite.Lib

universe u

variable {α : Type u}

/-- Nothing without `p` stands before an element with `p`. -/
def Orderly (p : α → Bool) (l : List α) : Prop := l.Pairwise fun a b => p b → p a

variable {p : α → Bool} {a : α} {l : List α}

@[simp] theorem orderly_nil : Orderly p [] := List.Pairwise.nil

theorem orderly_cons_of_pos (ha : p a) : Orderly p (a :: l) ↔ Orderly p l := by
  simp [Orderly, ha]

theorem orderly_of_forall_not (hl : ∀ b ∈ l, ¬ p b) : Orderly p l :=
  List.Pairwise.imp_of_mem (fun _ hb _ h => absurd h (hl _ hb)) (List.pairwise_of_forall fun _ _ => trivial)

theorem orderly_cons_of_neg (ha : ¬ p a) : Orderly p (a :: l) ↔ ∀ b ∈ l, ¬ p b := by
  constructor
  · intro h b hb hp
    exact ha ((List.pairwise_cons.mp h).1 b hb hp)
  · intro hl
    exact orderly_of_forall_not fun b hb => by
      rcases List.mem_cons.mp hb with rfl | hb
      · exact ha
      · exact hl b hb

/-- Where the loop breaks, everything with `p` is behind it. -/
theorem filter_eq_nil_of_orderly_cons (h : Orderly p (a :: l)) (ha : ¬ p a) : l.filter p = [] :=
  List.filter_eq_nil_iff.mpr ((orderly_cons_of_neg ha).mp h)

/-- What such a loop leaves is what it should leave if and only if the list is in order. -/
theorem dropWhile_eq_filter_iff : l.dropWhile p = l.filter (fun b => !p b) ↔ Orderly p l := by
  induction l with
  | nil => simp
  | cons a l ih =>
    by_cases ha : p a
    · simpa [ha, orderly_cons_of_pos] using ih
    · rw [orderly_cons_of_neg ha, List.dropWhile_cons_of_neg ha]
      rw [List.filter_cons_of_pos (by simpa using ha), List.cons.injEq, and_iff_right rfl, eq_comm,
        List.filter_eq_self]
      simp

/-- On a list in order, such a loop does its work on all elements with `p`. -/
theorem takeWhile_eq_filter_of_orderly (h : Orderly p l) : l.takeWhile p = l.filter p := by
  induction l with
  | nil => rfl
  | cons a l ih =>
    by_cases ha : p a
    · rw [List.takeWhile_cons_of_pos ha, List.filter_cons_of_pos ha, ih ((orderly_cons_of_pos ha).mp h)]
    · rw [List.takeWhile_cons_of_neg ha, List.filter_cons_of_neg ha, filter_eq_nil_of_orderly_cons h ha]

end ToxSuite.Lib
