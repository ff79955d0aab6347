import Mathlib.Data.List.Sort

/-!
# Lists searched by a key

The C lists of this program are searched for the first entry under a key, cut at
that entry and, where they are ordered, extended before the first greater entry
(`List.orderedInsert`). The searches and cuts are those of Lean's `List`; this
module says what they do to a list whose keys are distinct, and when an ordered
insertion keeps a list strictly ordered.
-/

namespace ToxSuite.Lib

universe u v w

variable {α : Type u} {κ : Type v} [DecidableEq κ] (key : α → κ)

/-! ### Searching -/

/-- An entry found under a key is in the list and has the key. -/
theorem mem_of_find?_key {l : List α} {k : κ} {a : α} (h : l.find? (fun x => key x = k) = some a) :
    a ∈ l ∧ key a = k :=
  ⟨List.mem_of_find?_eq_some h, by simpa using List.find?_some h⟩

/-- Nothing is found if and only if the key is absent. -/
theorem find?_key_eq_none {l : List α} {k : κ} :
    l.find? (fun x => key x = k) = none ↔ k ∉ l.map key := by
  simp only [List.find?_eq_none, decide_eq_true_eq, List.mem_map, not_exists, not_and]

/-- **The search is exact** on distinct keys: it finds each entry under its key. -/
theorem find?_key_eq_some {l : List α} (h : (l.map key).Nodup) {k : κ} {a : α} :
    l.find? (fun x => key x = k) = some a ↔ a ∈ l ∧ key a = k := by
  refine ⟨mem_of_find?_key key, ?_⟩
  rintro ⟨ha, rfl⟩
  cases hf : l.find? fun x => key x = key a with
  | none => exact absurd (List.mem_map_of_mem ha) ((find?_key_eq_none key).mp hf)
  | some b =>
    obtain ⟨hb, hkey⟩ := mem_of_find?_key key hf
    rw [List.inj_on_of_nodup_map h hb ha hkey]

/-- A key that is present is found. -/
theorem exists_find?_key {l : List α} {k : κ} (h : k ∈ l.map key) :
    ∃ a, l.find? (fun x => key x = k) = some a := by
  cases hf : l.find? fun x => key x = k with
  | none => exact absurd h ((find?_key_eq_none key).mp hf)
  | some a => exact ⟨a, rfl⟩

/-! ### Cutting -/

/-- On distinct keys, cutting the entry found cuts all entries under the key. -/
theorem eraseP_key_eq_filter {l : List α} (h : (l.map key).Nodup) (k : κ) :
    l.eraseP (fun x => key x = k) = l.filter fun x => key x ≠ k := by
  induction l with
  | nil => rfl
  | cons b l ih =>
    obtain ⟨hb, hl⟩ := List.nodup_cons.mp (List.map_cons ▸ h)
    by_cases hk : key b = k
    · -- `b` is cut, and no entry after it has its key
      rw [List.eraseP_cons_of_pos (by simpa using hk), List.filter_cons_of_neg (by simpa using hk)]
      refine (List.filter_eq_self.mpr fun a ha => ?_).symm
      have hne : key a ≠ k := fun hak => hb (hk ▸ hak ▸ List.mem_map_of_mem ha)
      simpa using hne
    · rw [List.eraseP_cons_of_neg (by simpa using hk), List.filter_cons_of_pos (by simpa using hk), ih hl]

theorem mem_eraseP_key {l : List α} (h : (l.map key).Nodup) {k : κ} {a : α} :
    a ∈ l.eraseP (fun x => key x = k) ↔ a ∈ l ∧ key a ≠ k := by
  rw [eraseP_key_eq_filter key h, List.mem_filter, decide_eq_true_eq]

omit [DecidableEq κ] in
/-- A cut keeps keys distinct. -/
theorem nodup_eraseP {l : List α} (h : (l.map key).Nodup) (p : α → Bool) :
    ((l.eraseP p).map key).Nodup :=
  h.sublist (List.eraseP_sublist.map key)

/-! ### Ordered insertion -/

/-- **Ordered insertion** keeps a list strictly ordered if the new entry compares with
each of its entries. -/
theorem pairwise_orderedInsert {r : α → α → Prop} [DecidableRel r]
    (htrans : ∀ a b c, r a b → r b c → r a c) {a : α} {l : List α} (hl : l.Pairwise r)
    (hcmp : ∀ b ∈ l, r a b ∨ r b a) : (l.orderedInsert r a).Pairwise r := by
  induction l with
  | nil => simp
  | cons b l ih =>
    obtain ⟨hb, hl'⟩ := List.pairwise_cons.mp hl
    by_cases hab : r a b
    · rw [List.orderedInsert_cons_of_le _ _ hab, List.pairwise_cons]
      refine ⟨fun c hc => ?_, hl⟩
      rcases List.mem_cons.mp hc with rfl | hc
      · exact hab
      · exact htrans a b c hab (hb c hc)
    · have hba : r b a := (hcmp b List.mem_cons_self).resolve_left hab
      rw [List.orderedInsert_of_not_le _ _ hab, List.pairwise_cons]
      refine ⟨fun c hc => ?_, ih hl' fun c hc => hcmp c (List.mem_cons_of_mem b hc)⟩
      rcases (List.mem_orderedInsert r).mp hc with rfl | hc
      · exact hba
      · exact hb c hc

/-- Conversely an entry next to which the list is still strictly ordered compares with
each of its entries. -/
theorem compares_of_pairwise_orderedInsert {r : α → α → Prop} [DecidableRel r] {a : α} {l : List α}
    (h : (l.orderedInsert r a).Pairwise r) : ∀ b ∈ l, r a b ∨ r b a := by
  induction l with
  | nil => simp
  | cons b l ih =>
    by_cases hab : r a b
    · rw [List.orderedInsert_cons_of_le _ _ hab, List.pairwise_cons] at h
      exact fun c hc => .inl (h.1 c hc)
    · rw [List.orderedInsert_of_not_le _ _ hab, List.pairwise_cons] at h
      intro c hc
      rcases List.mem_cons.mp hc with rfl | hc
      · exact .inr (h.1 a ((List.mem_orderedInsert r).mpr (.inl rfl)))
      · exact ih h.2 c hc

/-! ### The first that has something -/

section

variable {β : Type v} {γ : Type w}

/-- The first element that has anything has this. -/
def First (R : α → β → Prop) (l : List α) (b : β) : Prop :=
  ∃ pre a post, l = pre ++ a :: post ∧ (∀ x ∈ pre, ∀ b', ¬ R x b') ∧ R a b

variable {R : α → β → Prop} {a : α} {l : List α} {b b' : β}

theorem not_first_nil : ¬ First R [] b := by
  rintro ⟨pre, a, post, h, -⟩
  simp at h

theorem first_cons_of_rel (h : R a b') : First R (a :: l) b ↔ R a b := by
  constructor
  · rintro ⟨pre, a', post, hl, hpre, hb⟩
    cases pre with
    | nil =>
      cases hl
      exact hb
    | cons x pre =>
      cases hl
      exact absurd h (hpre a List.mem_cons_self b')
  · exact fun hb => ⟨[], a, l, rfl, by simp, hb⟩

theorem first_cons_of_not_rel (h : ∀ b', ¬ R a b') : First R (a :: l) b ↔ First R l b := by
  constructor
  · rintro ⟨pre, a', post, hl, hpre, hb⟩
    cases pre with
    | nil =>
      cases hl
      exact absurd hb (h b)
    | cons x pre =>
      cases hl
      exact ⟨pre, a', post, rfl, fun x hx => hpre x (List.mem_cons_of_mem _ hx), hb⟩
  · rintro ⟨pre, a', post, rfl, hpre, hb⟩
    exact ⟨a :: pre, a', post, rfl, List.forall_mem_cons.mpr ⟨h, hpre⟩, hb⟩

theorem first_cons_congr {S : γ → β → Prop} {c : γ} {m : List γ} (h : ∀ b, R a b ↔ S c b)
    (hl : ∀ b, First R l b ↔ First S m b) : First R (a :: l) b ↔ First S (c :: m) b := by
  by_cases ha : ∃ b, R a b
  · obtain ⟨b', hb'⟩ := ha
    rw [first_cons_of_rel hb', first_cons_of_rel ((h b').mp hb'), h]
  · rw [not_exists] at ha
    rw [first_cons_of_not_rel ha, first_cons_of_not_rel fun b' hb' => ha b' ((h b').mpr hb'), hl]

theorem first_append_of_not_rel {m : List α} (h : ∀ a ∈ l, ∀ b', ¬ R a b') : First R (l ++ m) b ↔ First R m b := by
  induction l with
  | nil => rfl
  | cons a l ih =>
    rw [List.forall_mem_cons] at h
    rw [List.cons_append, first_cons_of_not_rel h.1, ih h.2]

theorem first_append_of_rel {m : List α} (h : ∃ a ∈ l, ∃ b', R a b') : First R (l ++ m) b ↔ First R l b := by
  induction l with
  | nil => simp at h
  | cons a l ih =>
    rw [List.cons_append]
    by_cases ha : ∃ b', R a b'
    · obtain ⟨b', hb'⟩ := ha
      rw [first_cons_of_rel hb', first_cons_of_rel hb']
    · obtain ⟨x, hx, hrel⟩ := h
      have hmem : x ∈ l := (List.mem_cons.mp hx).resolve_left fun heq => ha (heq ▸ hrel)
      rw [not_exists] at ha
      rw [first_cons_of_not_rel ha, first_cons_of_not_rel ha, ih ⟨x, hmem, hrel⟩]

theorem first_congr {S : α → β → Prop} (h : ∀ a ∈ l, ∀ b, R a b ↔ S a b) : First R l b ↔ First S l b := by
  induction l generalizing b with
  | nil => exact iff_of_false not_first_nil not_first_nil
  | cons a l ih =>
    rw [List.forall_mem_cons] at h
    exact first_cons_congr h.1 fun _ => ih h.2

/-- What is first was had. -/
theorem First.exists_rel (h : First R l b) : ∃ a ∈ l, ∃ b', R a b' := by
  obtain ⟨pre, a, post, rfl, -, hb⟩ := h
  exact ⟨a, by simp, b, hb⟩

/-- There is one first, where no element has two things. -/
theorem First.unique (hR : ∀ a b b', R a b → R a b' → b = b') (h : First R l b) (h' : First R l b') : b = b' := by
  induction l with
  | nil => exact absurd h not_first_nil
  | cons a l ih =>
    by_cases ha : ∃ b, R a b
    · obtain ⟨b₀, hb₀⟩ := ha
      exact hR a b b' ((first_cons_of_rel hb₀).mp h) ((first_cons_of_rel hb₀).mp h')
    · rw [not_exists] at ha
      exact ih ((first_cons_of_not_rel ha).mp h) ((first_cons_of_not_rel ha).mp h')

end

end ToxSuite.Lib
