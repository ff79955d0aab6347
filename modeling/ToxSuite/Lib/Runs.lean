import Mathlib.Data.List.Basic

/-!
# Runs of a labelled machine

A machine is a state type `σ`, an event type `ε` and a partial step
`step : σ → ε → Option σ`; an event that has no step ends the machine. A run is
a list of events. `Always Q` says that every state of a run satisfies `Q`, the
first included; `Along C` says that every step the run takes meets `C`. A step
lemma about `Q` and `C` becomes a run lemma by `always_of_along`, and a step
lemma that is exact (`Q` after the step if and only if the step meets `C`)
becomes an exact run lemma by `always_iff_along`.
-/

namespace ToxSuite.Lib

universe u v

variable {σ : Type u} {ε : Type v} (step : σ → ε → Option σ)

/-- The state after the events `es`; `none` when one of them ends the machine. -/
def runEvents : σ → List ε → Option σ
  | s, [] => some s
  | s, e :: es => (step s e).bind fun s' => runEvents s' es

/-- Every state of the run satisfies `Q`. -/
def Always (Q : σ → Prop) : σ → List ε → Prop
  | s, [] => Q s
  | s, e :: es => Q s ∧ ∀ s', step s e = some s' → Always Q s' es

/-- Every step the run takes meets `C`. -/
def Along (C : σ → ε → Prop) : σ → List ε → Prop
  | _, [] => True
  | s, e :: es => ∀ s', step s e = some s' → C s e ∧ Along C s' es

variable {step}

theorem runEvents_cons (s : σ) (e : ε) (es : List ε) :
    runEvents step s (e :: es) = (step s e).bind fun s' => runEvents step s' es := rfl

/-- A run of one event more is a step and then a run. -/
theorem runEvents_cons_eq_some {s t : σ} {e : ε} {es : List ε} :
    runEvents step s (e :: es) = some t ↔ ∃ s', step s e = some s' ∧ runEvents step s' es = some t := by
  rw [runEvents_cons, Option.bind_eq_some_iff]

/-- The first state of a run satisfies what all of them do. -/
theorem Always.head {Q : σ → Prop} {s : σ} {es : List ε} (h : Always step Q s es) : Q s := by
  cases es with
  | nil => exact h
  | cons e es => exact h.1

/-- The last state of a run satisfies what all of them do. -/
theorem Always.last {Q : σ → Prop} {es : List ε} : ∀ {s t : σ}, Always step Q s es →
    runEvents step s es = some t → Q t := by
  induction es with
  | nil =>
    intro s t h ht
    cases ht
    exact h
  | cons e es ih =>
    intro s t h ht
    obtain ⟨s', hs', ht'⟩ := runEvents_cons_eq_some.mp ht
    exact ih (h.2 s' hs') ht'

theorem Always.mono {P Q : σ → Prop} (hPQ : ∀ s, P s → Q s) {es : List ε} :
    ∀ {s : σ}, Always step P s es → Always step Q s es := by
  induction es with
  | nil => intro s h; exact hPQ s h
  | cons e es ih => intro s h; exact ⟨hPQ s h.1, fun s' hs' => ih (h.2 s' hs')⟩

/-- Two conditions that agree on the steps there are. -/
theorem along_congr {C D : σ → ε → Prop} (hCD : ∀ s e s', step s e = some s' → (C s e ↔ D s e))
    {es : List ε} : ∀ {s : σ}, Along step C s es ↔ Along step D s es := by
  induction es with
  | nil => intro s; exact Iff.rfl
  | cons e es ih =>
    intro s
    constructor
    · intro h s' hs'
      exact ⟨(hCD s e s' hs').mp (h s' hs').1, ih.mp (h s' hs').2⟩
    · intro h s' hs'
      exact ⟨(hCD s e s' hs').mpr (h s' hs').1, ih.mpr (h s' hs').2⟩

/-- What every step of a run meets, the one after its first events does. -/
theorem Along.next {C : σ → ε → Prop} {es : List ε} {e : ε} : ∀ {s t t' : σ}, Along step C s (es ++ [e]) →
    runEvents step s es = some t → step t e = some t' → C t e := by
  induction es with
  | nil =>
    intro s t t' h ht ht'
    cases ht
    exact (h t' ht').1
  | cons e' es ih =>
    intro s t t' h ht ht'
    obtain ⟨s', hs', ht⟩ := runEvents_cons_eq_some.mp ht
    exact ih (h s' hs').2 ht ht'

theorem always_and {P Q : σ → Prop} {es : List ε} :
    ∀ {s : σ}, Always step (fun s => P s ∧ Q s) s es ↔ Always step P s es ∧ Always step Q s es := by
  induction es with
  | nil => intro s; exact Iff.rfl
  | cons e es ih =>
    intro s
    constructor
    · rintro ⟨hs, h⟩
      exact ⟨⟨hs.1, fun s' hs' => (ih.mp (h s' hs')).1⟩, ⟨hs.2, fun s' hs' => (ih.mp (h s' hs')).2⟩⟩
    · rintro ⟨⟨hP, h₁⟩, ⟨hQ, h₂⟩⟩
      exact ⟨⟨hP, hQ⟩, fun s' hs' => ih.mpr ⟨h₁ s' hs', h₂ s' hs'⟩⟩

theorem along_and {C D : σ → ε → Prop} {es : List ε} :
    ∀ {s : σ}, Along step (fun s e => C s e ∧ D s e) s es ↔ Along step C s es ∧ Along step D s es := by
  induction es with
  | nil => intro s; exact ⟨fun _ => ⟨trivial, trivial⟩, fun _ => trivial⟩
  | cons e es ih =>
    intro s
    constructor
    · intro h
      exact ⟨fun s' hs' => ⟨(h s' hs').1.1, (ih.mp (h s' hs').2).1⟩,
        fun s' hs' => ⟨(h s' hs').1.2, (ih.mp (h s' hs').2).2⟩⟩
    · rintro ⟨h₁, h₂⟩ s' hs'
      exact ⟨⟨(h₁ s' hs').1, (h₂ s' hs').1⟩, ih.mpr ⟨(h₁ s' hs').2, (h₂ s' hs').2⟩⟩

/-- **The run rule**: what a step meeting `C` preserves, a run meeting `C` preserves. -/
theorem always_of_along {Q : σ → Prop} {C : σ → ε → Prop}
    (hstep : ∀ s e s', step s e = some s' → Q s → C s e → Q s') {es : List ε} :
    ∀ {s : σ}, Q s → Along step C s es → Always step Q s es := by
  induction es with
  | nil => intro s hs _; exact hs
  | cons e es ih =>
    intro s hs h
    exact ⟨hs, fun s' hs' => ih (hstep s e s' hs' hs (h s' hs').1) (h s' hs').2⟩

/-- **The exact run rule**: when a step keeps `Q` if and only if it meets `C`, all
states of a run satisfy `Q` if and only if all its steps meet `C`. -/
theorem always_iff_along {Q : σ → Prop} {C : σ → ε → Prop}
    (hstep : ∀ s e s', step s e = some s' → Q s → (Q s' ↔ C s e)) {es : List ε} :
    ∀ {s : σ}, Q s → (Always step Q s es ↔ Along step C s es) := by
  induction es with
  | nil => intro s hs; exact ⟨fun _ => trivial, fun _ => hs⟩
  | cons e es ih =>
    intro s hs
    constructor
    · rintro ⟨-, h⟩ s' hs'
      have hQ : Q s' := (h s' hs').head
      exact ⟨(hstep s e s' hs' hs).mp hQ, (ih hQ).mp (h s' hs')⟩
    · intro h
      refine ⟨hs, fun s' hs' => ?_⟩
      have hQ : Q s' := (hstep s e s' hs' hs).mpr (h s' hs').1
      exact (ih hQ).mpr (h s' hs').2

/-- The exact run rule under an invariant that a step meeting `C` preserves. -/
theorem always_iff_along_of_inv {I Q : σ → Prop} {C : σ → ε → Prop} (hIQ : ∀ s, I s → Q s)
    (hstep : ∀ s e s', step s e = some s' → I s → (Q s' ↔ C s e))
    (hkeep : ∀ s e s', step s e = some s' → I s → C s e → I s') {es : List ε} :
    ∀ {s : σ}, I s → (Always step Q s es ↔ Along step C s es) := by
  induction es with
  | nil => intro s hs; exact ⟨fun _ => trivial, fun _ => hIQ s hs⟩
  | cons e es ih =>
    intro s hs
    constructor
    · rintro ⟨-, h⟩ s' hs'
      have hC : C s e := (hstep s e s' hs' hs).mp (h s' hs').head
      exact ⟨hC, (ih (hkeep s e s' hs' hs hC)).mp (h s' hs')⟩
    · intro h
      refine ⟨hIQ s hs, fun s' hs' => ?_⟩
      exact (ih (hkeep s e s' hs' hs (h s' hs').1)).mpr (h s' hs').2

/-- Two conditions that agree on the steps there are, where the state fits the events that are still to
come, and a step meeting the second keeps it so. -/
theorem along_congr_of_ahead {I : σ → List ε → Prop} {C D : σ → ε → Prop}
    (hkeep : ∀ s e es s', step s e = some s' → I s (e :: es) → D s e → I s' es)
    (hCD : ∀ s e es s', step s e = some s' → I s (e :: es) → (C s e ↔ D s e)) {es : List ε} :
    ∀ {s : σ}, I s es → (Along step C s es ↔ Along step D s es) := by
  induction es with
  | nil => intro s _; exact Iff.rfl
  | cons e es ih =>
    intro s hs
    constructor
    · intro h s' hs'
      have hD : D s e := (hCD s e es s' hs' hs).mp (h s' hs').1
      exact ⟨hD, (ih (hkeep s e es s' hs' hs hD)).mp (h s' hs').2⟩
    · intro h s' hs'
      have hD : D s e := (h s' hs').1
      exact ⟨(hCD s e es s' hs' hs).mpr hD, (ih (hkeep s e es s' hs' hs hD)).mpr (h s' hs').2⟩

/-- Two conditions that agree on the steps there are from states with an invariant that a step meeting
the second keeps. -/
theorem along_congr_of_inv {I : σ → Prop} {C D : σ → ε → Prop}
    (hkeep : ∀ s e s', step s e = some s' → I s → D s e → I s')
    (hCD : ∀ s e s', step s e = some s' → I s → (C s e ↔ D s e)) {es : List ε} {s : σ} (hs : I s) :
    Along step C s es ↔ Along step D s es :=
  along_congr_of_ahead (I := fun s _ => I s) (fun s e _ s' => hkeep s e s') (fun s e _ s' => hCD s e s') hs

/-- What every step meeting `C` meets from the states with an invariant that such a step keeps. -/
theorem along_of_along {I : σ → Prop} {C D : σ → ε → Prop}
    (hkeep : ∀ s e s', step s e = some s' → I s → C s e → I s')
    (hCD : ∀ s e s', step s e = some s' → I s → C s e → D s e) {es : List ε} :
    ∀ {s : σ}, I s → Along step C s es → Along step D s es := by
  induction es with
  | nil => intro s _ _; trivial
  | cons e es ih =>
    intro s hs h s' hs'
    exact ⟨hCD s e s' hs' hs (h s' hs').1, ih (hkeep s e s' hs' hs (h s' hs').1) (h s' hs').2⟩

/-- A condition on every event as such is met along every run. -/
theorem along_of_forall {C : σ → ε → Prop} {es : List ε} (h : ∀ s, ∀ e ∈ es, C s e) :
    ∀ {s : σ}, Along step C s es := by
  induction es with
  | nil => intro s; trivial
  | cons e es ih =>
    intro s s' _
    exact ⟨h s e (by simp), ih fun s e' he' => h s e' (by simp [he'])⟩

end ToxSuite.Lib
