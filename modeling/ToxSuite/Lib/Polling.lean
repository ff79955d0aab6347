import Mathlib.Data.List.FinRange
import Mathlib.Order.Interval.Finset.Fin

/-!
# Polling by priority

A loop looks at the clock and takes the first of `n` timed branches that is due: one that was
taken last as long ago as it is to wait, or longer. How long a branch waits may change from
pass to pass.

Two passes that take one branch are as far apart as the branch waits (`taken_spaced`). A
branch that is due is taken if the branches before it are not due twice while the loop goes
round once more than there are of them (`taken_within`).
-/

namespace ToxSuite.Lib

variable {n : ℕ}

/-- What a pass meets: the time, and how long each branch waits. -/
structure Poll (n : ℕ) where
  now : ℤ
  delay : Fin n → ℤ

/-- A branch that was taken last at this time is due. -/
def Poll.Due (p : Poll n) (last : Fin n → ℤ) (i : Fin n) : Prop := p.delay i ≤ p.now - last i

instance (p : Poll n) (last : Fin n → ℤ) : DecidablePred (p.Due last) := fun _ => Int.decLe ..

/-- The branch that a pass takes. -/
def Poll.first (p : Poll n) (last : Fin n → ℤ) : Option (Fin n) := (List.finRange n).find? fun i => p.Due last i

/-- When the branches were taken last, after a pass. -/
def Poll.after (p : Poll n) (last : Fin n → ℤ) : Fin n → ℤ :=
  (p.first last).elim last fun i => Function.update last i p.now

/-- The branches that are taken pass by pass. -/
def taken : (Fin n → ℤ) → List (Poll n) → List (Option (Fin n))
  | _, [] => []
  | last, p :: ps => p.first last :: taken (p.after last) ps

theorem first_eq_some {p : Poll n} {last : Fin n → ℤ} {i : Fin n} :
    p.first last = some i ↔ p.Due last i ∧ ∀ j < i, ¬ p.Due last j := by
  rw [Poll.first, List.find?_eq_some_iff_getElem, decide_eq_true_iff]
  refine and_congr_right fun _ => ⟨?_, fun h => ⟨i, by simp, by simp, fun j hj => ?_⟩⟩
  · rintro ⟨k, hk, rfl, h⟩ j hj
    rw [List.getElem_finRange, Fin.lt_def] at hj
    simpa using h j hj
  · simpa using h ⟨j, by omega⟩ hj

theorem first_eq_none {p : Poll n} {last : Fin n → ℤ} : p.first last = none ↔ ∀ i, ¬ p.Due last i := by
  simp [Poll.first]

@[simp] theorem length_taken (ps : List (Poll n)) : ∀ last, (taken last ps).length = ps.length := by
  induction ps with
  | nil => exact fun _ => rfl
  | cons p ps ih => exact fun last => congrArg Nat.succ (ih _)

/-- A branch was not taken last before some time, if it was not and the clock has not gone back. -/
theorem le_after {p : Poll n} {last : Fin n → ℤ} {t : ℤ} {i : Fin n} (hlast : t ≤ last i) (hnow : t ≤ p.now) :
    t ≤ p.after last i := by
  unfold Poll.after
  cases p.first last with
  | none => exact hlast
  | some j =>
    by_cases hj : i = j
    · subst hj
      simpa using hnow
    · simpa [hj] using hlast

/-- A branch that has been taken is not taken again before it has waited. -/
theorem taken_later {t : ℤ} {i : Fin n} {ps : List (Poll n)} (hnow : ∀ p ∈ ps, t ≤ p.now) :
    ∀ {last : Fin n → ℤ}, t ≤ last i → ∀ b ∈ ps.zip (taken last ps), b.2 = some i → b.1.delay i ≤ b.1.now - t := by
  induction ps with
  | nil => simp [taken]
  | cons p ps ih =>
    intro last hlast b hb hi
    rw [List.forall_mem_cons] at hnow
    rw [taken, List.zip_cons_cons, List.mem_cons] at hb
    rcases hb with rfl | hb
    · have hdue := (first_eq_some.mp hi).1
      unfold Poll.Due at hdue
      dsimp only
      omega
    · exact ih hnow.2 (le_after hlast hnow.1) b hb hi

/-- **Two passes that take one branch** are as far apart as it waits. -/
theorem taken_spaced {ps : List (Poll n)} (hmono : ps.Pairwise fun p q => p.now ≤ q.now) :
    ∀ last : Fin n → ℤ, (ps.zip (taken last ps)).Pairwise fun a b =>
      ∀ i, a.2 = some i → b.2 = some i → b.1.delay i ≤ b.1.now - a.1.now := by
  induction ps with
  | nil => simp [taken]
  | cons p ps ih =>
    intro last
    rw [List.pairwise_cons] at hmono
    rw [taken, List.zip_cons_cons, List.pairwise_cons]
    refine ⟨fun b hb i hp hi => ?_, ih hmono.2 _⟩
    refine taken_later hmono.1 (le_of_eq ?_) b hb hi
    have hfirst : p.first last = some i := hp
    rw [Poll.after, hfirst, Option.elim_some, Function.update_self]

/-- While a branch that is due is not taken, those before it are. -/
theorem before_of_not_taken {i : Fin n} {ps : List (Poll n)} : ∀ {last : Fin n → ℤ}, (∀ p ∈ ps, p.Due last i) →
    some i ∉ taken last ps → ∀ o ∈ taken last ps, ∃ j < i, o = some j := by
  induction ps with
  | nil => simp [taken]
  | cons p ps ih =>
    intro last hdue hnot o ho
    rw [List.forall_mem_cons] at hdue
    rw [taken, List.mem_cons, not_or] at hnot
    obtain ⟨j, hj⟩ : ∃ j, p.first last = some j := by
      cases hfirst : p.first last with
      | none => exact absurd hdue.1 (first_eq_none.mp hfirst i)
      | some j => exact ⟨j, rfl⟩
    have hji : j < i := by
      have hne : j ≠ i := fun heq => hnot.1 (heq ▸ hj.symm)
      exact lt_of_le_of_ne (not_lt.mp fun hlt => (first_eq_some.mp hj).2 i hlt hdue.1) hne
    have hsame : p.after last i = last i := by
      rw [Poll.after, hj, Option.elim_some, Function.update_of_ne hji.ne']
    rcases List.mem_cons.mp ho with rfl | ho
    · exact ⟨j, hji, hj⟩
    · refine ih (fun q hq => ?_) hnot.2 o ho
      have hq := hdue.2 q hq
      unfold Poll.Due at hq ⊢
      rwa [hsame]

/-- **A branch that is due is taken** within as many passes as there are branches up to it, if each of those before
it waits longer than these passes take. -/
theorem taken_within {i : Fin n} {ps : List (Poll n)} (hlen : i.val < ps.length)
    (hmono : ps.Pairwise fun p q => p.now ≤ q.now)
    (hbefore : ps.Pairwise fun p q => ∀ j < i, q.now - p.now < q.delay j) {last : Fin n → ℤ}
    (hdue : ∀ p ∈ ps, p.Due last i) : some i ∈ taken last ps := by
  by_contra hnot
  have hall := before_of_not_taken hdue hnot
  have hlength := length_taken ps last
  -- no branch before it is taken twice
  have hnodup : (taken last ps).Nodup := by
    have hsnd : (ps.zip (taken last ps)).map Prod.snd = taken last ps := List.map_snd_zip hlength.le
    have hfst : (ps.zip (taken last ps)).map Prod.fst = ps := List.map_fst_zip hlength.ge
    rw [← hsnd, List.Nodup, List.pairwise_map]
    have hwait := List.pairwise_map.mp (hfst.symm ▸ hbefore)
    refine ((taken_spaced hmono last).and hwait).imp_of_mem fun {a b} ha _ h heq => ?_
    obtain ⟨j, hj, ha⟩ := hall a.2 (hsnd ▸ List.mem_map_of_mem ha)
    exact absurd (h.1 j ha (heq ▸ ha)) (not_le.mpr (h.2 j hj))
  have hsub : (taken last ps).toFinset ⊆ (Finset.Iio i).map Function.Embedding.some := by
    intro o ho
    obtain ⟨j, hj, rfl⟩ := hall o (List.mem_toFinset.mp ho)
    exact Finset.mem_map.mpr ⟨j, Finset.mem_Iio.mpr hj, rfl⟩
  have hcard := Finset.card_le_card hsub
  rw [List.toFinset_card_of_nodup hnodup, Finset.card_map, Fin.card_Iio, hlength] at hcard
  omega

end ToxSuite.Lib
