import Mathlib.Data.List.Basic

/-!
# Histories

A history is a list of what has happened, which grows at its end. `Precedes P Q h`
says that wherever the history has an entry with `P`, what stands before that entry
satisfies `Q`; it is kept when an entry is added before which `Q` holds, and
`Q` often is that some entry is there. An order between the entries of a history that
no entry with `P` has to another bounds how many entries with `P` there are.
-/

namespace ToxSuite.Lib

universe u

variable {α : Type u}

/-- What stands before an entry with `P` satisfies `Q`. -/
def Precedes (P : α → Prop) (Q : List α → Prop) (h : List α) : Prop :=
  ∀ before a after, h = before ++ a :: after → P a → Q before

variable {P : α → Prop} {Q : List α → Prop} {h : List α} {a : α}

theorem precedes_nil : Precedes P Q [] := by
  intro before a after hcut
  simp at hcut

/-- A cut of a history with one entry more is at that entry or in the older part. -/
theorem cut_concat {before after : List α} {b : α} (hcut : h ++ [a] = before ++ b :: after) :
    (before = h ∧ b = a ∧ after = []) ∨ ∃ after', h = before ++ b :: after' := by
  rcases List.eq_nil_or_concat after with rfl | ⟨after', c, rfl⟩
  · obtain ⟨rfl, hlast⟩ := List.append_inj' hcut rfl
    exact .inl ⟨rfl, (List.singleton_inj.mp hlast).symm, rfl⟩
  · have hcut' : h ++ [a] = (before ++ b :: after') ++ [c] := by simpa using hcut
    exact .inr ⟨after', (List.append_inj' hcut' rfl).1⟩

/-- An entry may be added before which `Q` holds. -/
theorem Precedes.concat (hh : Precedes P Q h) (ha : P a → Q h) : Precedes P Q (h ++ [a]) := by
  intro before b after hcut hb
  rcases cut_concat hcut with ⟨rfl, rfl, -⟩ | ⟨after', hcut'⟩
  · exact ha hb
  · exact hh before b after' hcut' hb

/-- If no two entries with `p` are in the order of the history, there is at most one. -/
theorem countP_le_one {R : α → α → Prop} {p : α → Bool} (hh : h.Pairwise R)
    (hp : ∀ a ∈ h, ∀ b ∈ h, p a → p b → ¬ R a b) : h.countP p ≤ 1 := by
  induction hh with
  | nil => simp
  | @cons a h hR hh ih =>
    rw [List.countP_cons]
    split_ifs with ha
    · have hzero : h.countP p = 0 := List.countP_eq_zero.mpr fun b hb hpb =>
        hp a List.mem_cons_self b (List.mem_cons_of_mem a hb) ha hpb (hR b hb)
      omega
    · exact ih fun b hb c hc => hp b (List.mem_cons_of_mem a hb) c (List.mem_cons_of_mem a hc)

end ToxSuite.Lib
