import ToxSuite.Lib.RingOps

/-!
# Several rings in one memory

Heads, each with a ring of its own, and no address in two rings (`Rings`). An operation on
one or two of the rings leaves the others alone; each has a lemma that says which lists the
rings hold afterwards. What is neither a head nor an entry of a ring (`Free`) may be tied in
anywhere, or made a head. A head whose ring was tied into another one, or that is tied in
itself, is the head of no ring (`none`) until it is initialised again.
-/

namespace ToxSuite.Lib

variable {m m' : Heads} {lists : ℕ → Option (List ℕ)}

/-- The rings at the heads hold these lists, and share nothing. -/
structure Rings (m : Heads) (lists : ℕ → Option (List ℕ)) : Prop where
  ring : ∀ i l, lists i = some l → ListRing m i l
  apart : ∀ i j l l', lists i = some l → lists j = some l' → i ≠ j → ∀ x ∈ i :: l, x ∉ j :: l'

/-- It is neither a head nor an entry of a ring. -/
def Free (lists : ℕ → Option (List ℕ)) (x : ℕ) : Prop := ∀ j l, lists j = some l → x ∉ j :: l

/-- What is of no ring but one is free once that one is given up. -/
theorem free_forget_iff {i x : ℕ} :
    Free (Function.update lists i none) x ↔ ∀ j l, lists j = some l → j ≠ i → x ∉ j :: l := by
  constructor
  · intro h j l hl hj
    exact h j l (by rw [Function.update_of_ne hj, hl])
  · intro h j l hl
    rw [Function.update_apply] at hl
    split_ifs at hl with hj
    exact h j l hl hj

theorem Free.forget {x : ℕ} (h : Free lists x) (i : ℕ) : Free (Function.update lists i none) x :=
  free_forget_iff.mpr fun j l hl _ => h j l hl

/-- What belongs to a ring is of no other. -/
theorem Rings.free_of_mem (h : Rings m lists) {i : ℕ} {l : List ℕ} (hl : lists i = some l) {x : ℕ} (hx : x ∈ i :: l) :
    Free (Function.update lists i none) x :=
  free_forget_iff.mpr fun j l' hl' hj => h.apart i j l l' hl hl' hj.symm x hx

/-- A head that is given up is the head of no ring. -/
theorem Rings.forget (h : Rings m lists) (i : ℕ) : Rings m (Function.update lists i none) := by
  have hsome {j : ℕ} {l : List ℕ} (hl : Function.update lists i none j = some l) : lists j = some l := by
    rw [Function.update_apply] at hl
    split_ifs at hl
    exact hl
  exact ⟨fun j l hl => h.ring j l (hsome hl), fun j k l l' hl hl' => h.apart j k l l' (hsome hl) (hsome hl')⟩

/-- Links that are written to in an entry of no ring. -/
theorem Rings.write (h : Rings m lists) {a : ℕ} (ha : Free lists a) (hlive : (m a).isSome = true)
    (next prev : ℕ) : ∃ m₁ m', modifyHead m a (fun h => { h with next }) = .ok m₁ ∧
      modifyHead m₁ a (fun h => { h with prev }) = .ok m' ∧ (∀ x, (m' x).isSome = (m x).isSome) ∧ Rings m' lists := by
  obtain ⟨m₁, h₁, hw₁⟩ := modifyHead_next hlive next
  obtain ⟨m', h₂, hw₂⟩ := modifyHead_prev ((hw₁.live a).trans hlive) prev
  have he : Edited m m' [a] := by
    refine ⟨fun x => (hw₂.live x).trans (hw₁.live x), fun x hx => ?_, fun x hx => ?_⟩
    · rw [hw₂.next, hw₁.next, if_neg (by simpa using hx)]
    · rw [hw₂.prev, if_neg (by simpa using hx), hw₁.prev]
  refine ⟨m₁, m', h₁, h₂, he.live, fun j l hl => ?_, h.apart⟩
  refine he.ring (h.ring j l hl) fun x hx hxa => ?_
  exact ha j l hl (List.mem_singleton.mp hxa ▸ hx)

/-- **A ring changes and the others stay**, as long as what is written to, and what the ring holds then, is
of no other. -/
theorem Rings.set (h : Rings m lists) {i : ℕ} {l' t : List ℕ} (he : Edited m m' t) (hring : ListRing m' i l')
    (hl' : ∀ x ∈ i :: l', Free (Function.update lists i none) x)
    (ht : ∀ x ∈ t, x ∈ i :: l' ∨ Free (Function.update lists i none) x) :
    Rings m' (Function.update lists i (some l')) := by
  have hout : ∀ x ∈ t, ∀ j l, lists j = some l → j ≠ i → x ∉ j :: l :=
    fun x hx => free_forget_iff.mp ((ht x hx).elim (hl' x) id)
  refine ⟨fun j l hl => ?_, fun j k l l₂ hl hl₂ hne => ?_⟩
  · rw [Function.update_apply] at hl
    split_ifs at hl with hj
    · cases hl
      exact hj ▸ hring
    · exact he.ring (h.ring j l hl) fun x hx hxt => hout x hxt j l hl hj hx
  · rw [Function.update_apply] at hl hl₂
    split_ifs at hl hl₂ with hj hk hk
    · exact absurd (hj.trans hk.symm) hne
    · cases hl
      subst hj
      exact fun x hx => free_forget_iff.mp (hl' x hx) k l₂ hl₂ hk
    · cases hl₂
      subst hk
      exact fun x hx hx' => free_forget_iff.mp (hl' x hx') j l hl hj hx
    · exact h.apart j k l l₂ hl hl₂ hne

/-- **Any link of a ring may be taken for its head.** -/
theorem Rings.turn (h : Rings m lists) {i a : ℕ} {pre post : List ℕ} (hl : lists i = some (pre ++ a :: post)) :
    Rings m (Function.update (Function.update lists i none) a (some (post ++ i :: pre))) := by
  refine (h.forget i).set (Edited.refl m []) (h.ring i _ hl).turn (fun x hx => ?_) (by simp)
  exact (h.free_of_mem hl (by grind)).forget a

/-! ### One ring changes -/

/-- `INIT_LIST_HEAD`. -/
theorem Rings.init (h : Rings m lists) {i : ℕ} (hlive : (m i).isSome = true)
    (hfree : Free (Function.update lists i none) i) : ∃ m', initListHead m i = .ok m' ∧
      (∀ x, (m' x).isSome = (m x).isSome) ∧ Rings m' (Function.update lists i (some [])) := by
  obtain ⟨m', hok, he, hr⟩ := initListHead_ring hlive
  refine ⟨m', hok, he.live, h.set he hr (fun x hx => ?_) fun x hx => .inl hx⟩
  exact List.mem_singleton.mp hx ▸ hfree

/-- `__list_add` at a place of a ring. -/
theorem Rings.insert (h : Rings m lists) {i : ℕ} {pre post : List ℕ} {new p n : ℕ}
    (hl : lists i = some (pre ++ post)) (hg : Gap i pre post p n) (hnew : (m new).isSome = true)
    (hfree : Free lists new) : ∃ m', listAddBetween m new p n = .ok m' ∧
      (∀ x, (m' x).isSome = (m x).isSome) ∧ Rings m' (Function.update lists i (some (pre ++ new :: post))) := by
  obtain ⟨m', hok, he, hr⟩ := (h.ring i _ hl).insert hg hnew (hfree i _ hl)
  refine ⟨m', hok, he.live, h.set he hr (fun x hx => ?_) fun x hx => .inl (by grind)⟩
  by_cases hnew : x = new
  · exact hnew ▸ hfree.forget i
  · exact h.free_of_mem hl (by grind)

/-- `list_add` behind a head. -/
theorem Rings.add (h : Rings m lists) {i : ℕ} {l : List ℕ} {new : ℕ} (hl : lists i = some l)
    (hnew : (m new).isSome = true) (hfree : Free lists new) : ∃ m', listAdd m new i = .ok m' ∧
      (∀ x, (m' x).isSome = (m x).isSome) ∧ Rings m' (Function.update lists i (some (new :: l))) := by
  obtain ⟨hd, hhead, hnext, -⟩ := (h.ring i l hl).head_eq
  obtain ⟨m', hok, hm'⟩ := @Rings.insert _ _ h i [] l new _ _ hl
    ⟨rfl, hnext, (h.ring i l hl).nodup⟩ hnew hfree
  refine ⟨m', ?_, hm'⟩
  unfold listAdd
  simp only [headAt_eq_ok.mpr hhead, ok_bind]
  exact hok

/-- `list_add_tail` before a head. -/
theorem Rings.addTail (h : Rings m lists) {i : ℕ} {l : List ℕ} {new : ℕ} (hl : lists i = some l)
    (hnew : (m new).isSome = true) (hfree : Free lists new) : ∃ m', listAddTail m new i = .ok m' ∧
      (∀ x, (m' x).isSome = (m x).isSome) ∧ Rings m' (Function.update lists i (some (l ++ [new]))) := by
  obtain ⟨hd, hhead, -, hprev⟩ := (h.ring i l hl).head_eq
  obtain ⟨m', hok, hm'⟩ := @Rings.insert _ _ h i l [] new _ _ (by rwa [List.append_nil])
    ⟨hprev, rfl, by simpa using (h.ring i l hl).nodup⟩ hnew hfree
  refine ⟨m', ?_, hm'⟩
  unfold listAddTail
  simp only [headAt_eq_ok.mpr hhead, ok_bind]
  exact hok

/-- `list_add` behind an entry. -/
theorem Rings.addAfter (h : Rings m lists) {i : ℕ} {pre post : List ℕ} {pos new : ℕ}
    (hl : lists i = some (pre ++ pos :: post)) (hnew : (m new).isSome = true) (hfree : Free lists new) :
    ∃ m', listAdd m new pos = .ok m' ∧ (∀ x, (m' x).isSome = (m x).isSome) ∧
      Rings m' (Function.update lists i (some (pre ++ pos :: new :: post))) := by
  obtain ⟨hd, hpos, hnext, -⟩ := (h.ring i _ hl).entry_eq
  rw [List.append_cons] at hl
  obtain ⟨m', hok, hm'⟩ := h.insert hl
    ⟨by rw [List.getLast_cons (by simp), List.getLast_append_singleton], hnext, (h.ring i _ hl).nodup⟩ hnew hfree
  refine ⟨m', ?_, by rw [List.append_cons]; exact hm'⟩
  unfold listAdd
  simp only [headAt_eq_ok.mpr hpos, ok_bind]
  exact hok

/-- `list_add_tail` before an entry. -/
theorem Rings.addBefore (h : Rings m lists) {i : ℕ} {pre post : List ℕ} {pos new : ℕ}
    (hl : lists i = some (pre ++ pos :: post)) (hnew : (m new).isSome = true) (hfree : Free lists new) :
    ∃ m', listAddTail m new pos = .ok m' ∧ (∀ x, (m' x).isSome = (m x).isSome) ∧
      Rings m' (Function.update lists i (some (pre ++ new :: pos :: post))) := by
  obtain ⟨hd, hpos, -, hprev⟩ := (h.ring i _ hl).entry_eq
  obtain ⟨m', hok, hm'⟩ := h.insert hl ⟨hprev, rfl, (h.ring i _ hl).nodup⟩ hnew hfree
  refine ⟨m', ?_, hm'⟩
  unfold listAddTail
  simp only [headAt_eq_ok.mpr hpos, ok_bind]
  exact hok

/-- An entry that was cut out is in no ring. -/
theorem Rings.freed (h : Rings m lists) {i : ℕ} {pre post : List ℕ} {a : ℕ} (hl : lists i = some (pre ++ a :: post)) :
    Free (Function.update lists i (some (pre ++ post))) a := by
  intro j l hlj
  rw [Function.update_apply] at hlj
  split_ifs at hlj with hj
  · cases hlj
    have := (h.ring i _ hl).nodup
    grind
  · exact free_forget_iff.mp (h.free_of_mem hl (by simp)) j l hlj hj

/-- `__list_del_entry`. -/
theorem Rings.delEntry (h : Rings m lists) {i : ℕ} {pre post : List ℕ} {a : ℕ}
    (hl : lists i = some (pre ++ a :: post)) : ∃ m', listDelEntry m a = .ok m' ∧
      (∀ x, (m' x).isSome = (m x).isSome) ∧ Rings m' (Function.update lists i (some (pre ++ post))) := by
  have hr := h.ring i _ hl
  obtain ⟨hd, ha, hnext, hprev⟩ := hr.entry_eq
  obtain ⟨m', hok, he, hr'⟩ := hr.unlink ⟨hprev, hnext, by have := hr.nodup; grind⟩
  refine ⟨m', ?_, he.live, h.set he hr' (fun x hx => h.free_of_mem hl (by grind)) fun x hx => .inl hx⟩
  unfold listDelEntry
  simp only [headAt_eq_ok.mpr ha, ok_bind]
  exact hok

/-- `list_del`. -/
theorem Rings.del (h : Rings m lists) {i : ℕ} {pre post : List ℕ} {a : ℕ}
    (hl : lists i = some (pre ++ a :: post)) : ∃ m', listDel m a = .ok m' ∧
      (∀ x, (m' x).isSome = (m x).isSome) ∧ Rings m' (Function.update lists i (some (pre ++ post))) := by
  have hr := h.ring i _ hl
  obtain ⟨hd, ha, -⟩ := hr.entry_eq
  obtain ⟨m₁, h₁, hlive₁, hr₁⟩ := h.delEntry hl
  obtain ⟨m₂, m', h₂, h₃, hlive₂, hr₂⟩ := hr₁.write (h.freed hl)
    ((hlive₁ a).trans (hr.isSome (by simp))) LIST_POISON1 LIST_POISON2
  refine ⟨m', ?_, fun x => (hlive₂ x).trans (hlive₁ x), hr₂⟩
  unfold listDelEntry at h₁
  unfold listDel
  simp only [headAt_eq_ok.mpr ha, ok_bind] at h₁ ⊢
  simp only [h₁, ok_bind, h₂, h₃]

/-- `list_del_init`: the entry is the head of a ring of its own then. -/
theorem Rings.delInit (h : Rings m lists) {i : ℕ} {pre post : List ℕ} {a : ℕ}
    (hl : lists i = some (pre ++ a :: post)) : ∃ m', listDelInit m a = .ok m' ∧
      (∀ x, (m' x).isSome = (m x).isSome) ∧
      Rings m' (Function.update (Function.update lists i (some (pre ++ post))) a (some [])) := by
  obtain ⟨m₁, h₁, hlive₁, hr₁⟩ := h.delEntry hl
  obtain ⟨m', h₂, hlive₂, hr₂⟩ := hr₁.init ((hlive₁ a).trans ((h.ring i _ hl).isSome (by simp)))
    ((h.freed hl).forget a)
  refine ⟨m', ?_, fun x => (hlive₂ x).trans (hlive₁ x), hr₂⟩
  unfold listDelInit
  rw [h₁, ok_bind, h₂]

/-- `list_replace`. -/
theorem Rings.replace (h : Rings m lists) {i : ℕ} {pre post : List ℕ} {old new : ℕ}
    (hl : lists i = some (pre ++ old :: post)) (hnew : (m new).isSome = true) (hfree : Free lists new) :
    ∃ m', listReplace m old new = .ok m' ∧ (∀ x, (m' x).isSome = (m x).isSome) ∧
      Rings m' (Function.update lists i (some (pre ++ new :: post))) := by
  obtain ⟨m', hok, he, hr⟩ := (h.ring i _ hl).replace hnew (by have := hfree i _ hl; grind)
  refine ⟨m', hok, he.live, h.set he hr (fun x hx => ?_) fun x hx => .inl (by grind)⟩
  by_cases hnew : x = new
  · exact hnew ▸ hfree.forget i
  · exact h.free_of_mem hl (by grind)

/-- The entry that was replaced is in no ring. -/
theorem Rings.replaced (h : Rings m lists) {i : ℕ} {pre post : List ℕ} {old new : ℕ}
    (hl : lists i = some (pre ++ old :: post)) (hfree : Free lists new) :
    Free (Function.update lists i (some (pre ++ new :: post))) old := by
  intro j l hlj
  rw [Function.update_apply] at hlj
  split_ifs at hlj with hj
  · cases hlj
    have := (h.ring i _ hl).nodup
    have := hfree i _ hl
    grind
  · exact free_forget_iff.mp (h.free_of_mem hl (by simp)) j l hlj hj

/-- `list_replace_init`: the old entry is the head of a ring of its own then. -/
theorem Rings.replaceInit (h : Rings m lists) {i : ℕ} {pre post : List ℕ} {old new : ℕ}
    (hl : lists i = some (pre ++ old :: post)) (hnew : (m new).isSome = true) (hfree : Free lists new) :
    ∃ m', listReplaceInit m old new = .ok m' ∧ (∀ x, (m' x).isSome = (m x).isSome) ∧
      Rings m' (Function.update (Function.update lists i (some (pre ++ new :: post))) old (some [])) := by
  obtain ⟨m₁, h₁, hlive₁, hr₁⟩ := h.replace hl hnew hfree
  obtain ⟨m', h₂, hlive₂, hr₂⟩ := hr₁.init ((hlive₁ old).trans ((h.ring i _ hl).isSome (by simp)))
    ((h.replaced hl hfree).forget old)
  refine ⟨m', ?_, fun x => (hlive₂ x).trans (hlive₁ x), hr₂⟩
  unfold listReplaceInit
  rw [h₁, ok_bind, h₂]

/-- `list_replace` of a head without entries. -/
theorem Rings.replaceEmpty (h : Rings m lists) {old new : ℕ} (hl : lists old = some [])
    (hnew : (m new).isSome = true) (hfree : Free lists new) : ∃ m', listReplace m old new = .ok m' ∧
      (∀ x, (m' x).isSome = (m x).isSome) ∧
      Rings m' (Function.update (Function.update lists old none) new (some [])) := by
  obtain ⟨m', hok, he, hr⟩ := (h.ring old [] hl).replaceEmpty hnew
  refine ⟨m', hok, he.live, (h.forget old).set he hr (fun x hx => ?_) fun x hx => ?_⟩
  · exact List.mem_singleton.mp hx ▸ (hfree.forget old).forget new
  · rcases List.mem_cons.mp hx with rfl | hx
    · exact .inl List.mem_cons_self
    · exact .inr (List.mem_singleton.mp hx ▸ (h.free_of_mem hl List.mem_cons_self).forget new)

/-- `list_replace_init` of a head without entries: it is one still. -/
theorem Rings.replaceInitEmpty (h : Rings m lists) {old new : ℕ} (hl : lists old = some [])
    (hnew : (m new).isSome = true) (hfree : Free lists new) : ∃ m', listReplaceInit m old new = .ok m' ∧
      (∀ x, (m' x).isSome = (m x).isSome) ∧ Rings m' (Function.update lists new (some [])) := by
  have hne : new ≠ old := fun heq => hfree old [] hl (heq ▸ List.mem_cons_self)
  obtain ⟨m₁, h₁, hlive₁, hr₁⟩ := h.replaceEmpty hl hnew hfree
  have hold : Free (Function.update (Function.update (Function.update lists old none) new (some [])) old none) old := by
    refine free_forget_iff.mpr fun j l hlj hj => ?_
    rw [Function.update_apply] at hlj
    split_ifs at hlj with hjn
    · cases hlj
      subst hjn
      simpa using hj.symm
    · exact h.free_of_mem hl List.mem_cons_self j l hlj
  obtain ⟨m', h₂, hlive₂, hr₂⟩ := hr₁.init ((hlive₁ old).trans ((h.ring old _ hl).isSome List.mem_cons_self)) hold
  have hsame : Function.update lists old (some []) = lists := Function.update_eq_self_iff.mpr hl.symm
  rw [Function.update_comm hne, Function.update_idem, hsame] at hr₂
  refine ⟨m', ?_, fun x => (hlive₂ x).trans (hlive₁ x), hr₂⟩
  unfold listReplaceInit
  rw [h₁, ok_bind, h₂]

/-- `list_move`. -/
theorem Rings.move (h : Rings m lists) {i j : ℕ} {pre post l : List ℕ} {a : ℕ}
    (hl : lists j = some (pre ++ a :: post)) (hi : Function.update lists j (some (pre ++ post)) i = some l) :
    ∃ m', listMove m a i = .ok m' ∧ (∀ x, (m' x).isSome = (m x).isSome) ∧
      Rings m' (Function.update (Function.update lists j (some (pre ++ post))) i (some (a :: l))) := by
  obtain ⟨m₁, h₁, hlive₁, hr₁⟩ := h.delEntry hl
  obtain ⟨m', h₂, hlive₂, hr₂⟩ := hr₁.add hi ((hlive₁ a).trans ((h.ring j _ hl).isSome (by simp))) (h.freed hl)
  refine ⟨m', ?_, fun x => (hlive₂ x).trans (hlive₁ x), hr₂⟩
  unfold listMove
  simp only [h₁, ok_bind, h₂]

/-- `list_move_tail`. -/
theorem Rings.moveTail (h : Rings m lists) {i j : ℕ} {pre post l : List ℕ} {a : ℕ}
    (hl : lists j = some (pre ++ a :: post)) (hi : Function.update lists j (some (pre ++ post)) i = some l) :
    ∃ m', listMoveTail m a i = .ok m' ∧ (∀ x, (m' x).isSome = (m x).isSome) ∧
      Rings m' (Function.update (Function.update lists j (some (pre ++ post))) i (some (l ++ [a]))) := by
  obtain ⟨m₁, h₁, hlive₁, hr₁⟩ := h.delEntry hl
  obtain ⟨m', h₂, hlive₂, hr₂⟩ := hr₁.addTail hi ((hlive₁ a).trans ((h.ring j _ hl).isSome (by simp))) (h.freed hl)
  refine ⟨m', ?_, fun x => (hlive₂ x).trans (hlive₁ x), hr₂⟩
  unfold listMoveTail
  simp only [h₁, ok_bind, h₂]

/-! ### What is asked of a ring -/

/-- `list_empty`. -/
theorem Rings.empty (h : Rings m lists) {i : ℕ} {l : List ℕ} (hl : lists i = some l) :
    listEmpty m i = .ok (decide (l = [])) := by
  obtain ⟨hd, hhead, hnext, -⟩ := (h.ring i l hl).head_eq
  have hnodup := (h.ring i l hl).nodup
  unfold listEmpty
  simp only [headAt_eq_ok.mpr hhead, ok_bind, pure_eq_ok, hnext]
  cases l with
  | nil => simp
  | cons x l =>
    have hx : x ≠ i := by grind
    simp [hx]

/-- `list_empty`, asked of an entry. -/
theorem Rings.empty_entry (h : Rings m lists) {i : ℕ} {pre post : List ℕ} {a : ℕ}
    (hl : lists i = some (pre ++ a :: post)) : listEmpty m a = .ok false := by
  obtain ⟨hd, ha, hnext, -⟩ := (h.ring i _ hl).entry_eq
  have hnodup := (h.ring i _ hl).nodup
  have hne : hd.next ≠ a := by
    have hmem : hd.next ∈ post ++ [i] := hnext ▸ List.head_mem _
    grind
  unfold listEmpty
  simp only [headAt_eq_ok.mpr ha, ok_bind, pure_eq_ok, decide_eq_false hne]

/-- `list_empty_careful` is `list_empty` where no one else writes. -/
theorem emptyCareful_eq {m : Heads} {a : ℕ} {hd : ListHead} (ha : m a = some hd) (hlink : hd.next = a → hd.prev = a) :
    listEmptyCareful m a = listEmpty m a := by
  unfold listEmptyCareful listEmpty
  simp only [headAt_eq_ok.mpr ha, ok_bind, pure_eq_ok]
  by_cases hnext : hd.next = a
  · simp [hnext, hlink hnext]
  · simp [hnext]

/-- `list_empty_careful`. -/
theorem Rings.emptyCareful (h : Rings m lists) {i : ℕ} {l : List ℕ} (hl : lists i = some l) :
    listEmptyCareful m i = .ok (decide (l = [])) := by
  obtain ⟨hd, hhead, hnext, hprev⟩ := (h.ring i l hl).head_eq
  have hnodup := (h.ring i l hl).nodup
  rw [emptyCareful_eq hhead fun hself => ?_, h.empty hl]
  cases l with
  | nil => exact hprev
  | cons x l =>
    have hx : x = i := hnext.symm.trans hself
    grind

/-- `list_empty_careful`, asked of an entry. -/
theorem Rings.emptyCareful_entry (h : Rings m lists) {i : ℕ} {pre post : List ℕ} {a : ℕ}
    (hl : lists i = some (pre ++ a :: post)) : listEmptyCareful m a = .ok false := by
  obtain ⟨hd, ha, hnext, -⟩ := (h.ring i _ hl).entry_eq
  have hnodup := (h.ring i _ hl).nodup
  have hmem : hd.next ∈ post ++ [i] := hnext ▸ List.head_mem _
  rw [emptyCareful_eq ha fun hself => by grind, h.empty_entry hl]

/-- `list_is_singular`. -/
theorem Rings.singular (h : Rings m lists) {i : ℕ} {l : List ℕ} (hl : lists i = some l) :
    listIsSingular m i = .ok (decide (l.length = 1)) := by
  obtain ⟨hd, hhead, hnext, hprev⟩ := (h.ring i l hl).head_eq
  have hnodup := (h.ring i l hl).nodup
  unfold listIsSingular
  rw [h.empty hl]
  simp only [headAt_eq_ok.mpr hhead, ok_bind, pure_eq_ok, hnext, hprev]
  cases l with
  | nil => rfl
  | cons x l =>
    cases l with
    | nil => simp
    | cons y l =>
      -- the last entry is not the first one
      have hlast : (y :: l).getLast (by simp) ∈ y :: l := List.getLast_mem _
      have hne : x ≠ (y :: l).getLast (by simp) := by
        rintro heq
        rw [← heq] at hlast
        grind
      simp [hne]

/-- `list_is_last`, asked of an entry. -/
theorem Rings.isLast (h : Rings m lists) {i : ℕ} {pre post : List ℕ} {a : ℕ}
    (hl : lists i = some (pre ++ a :: post)) : listIsLast m a i = .ok (decide (post = [])) := by
  obtain ⟨hd, ha, hnext, -⟩ := (h.ring i _ hl).entry_eq
  have hnodup := (h.ring i _ hl).nodup
  unfold listIsLast
  simp only [headAt_eq_ok.mpr ha, ok_bind, pure_eq_ok, hnext]
  cases post with
  | nil => simp
  | cons x post =>
    have hx : x ≠ i := by grind
    simp [hx]

/-- `list_rotate_left`. -/
theorem Rings.rotateLeft (h : Rings m lists) {i : ℕ} {l : List ℕ} (hl : lists i = some l) :
    ∃ m', listRotateLeft m i = .ok m' ∧ (∀ x, (m' x).isSome = (m x).isSome) ∧
      Rings m' (Function.update lists i (some (l.rotate 1))) := by
  obtain ⟨hd, hhead, hnext, -⟩ := (h.ring i l hl).head_eq
  unfold listRotateLeft
  rw [h.empty hl]
  cases l with
  | nil =>
    refine ⟨m, rfl, fun _ => rfl, ?_⟩
    rwa [List.rotate_nil, Function.update_eq_self_iff.mpr hl.symm]
  | cons x l =>
    obtain ⟨m', hok, hlive, hr⟩ := @Rings.moveTail _ _ h i i [] l l x hl (Function.update_self ..)
    rw [Function.update_idem] at hr
    refine ⟨m', ?_, hlive, by simpa using hr⟩
    simp only [headAt_eq_ok.mpr hhead, ok_bind, hnext]
    simpa using hok

/-! ### Two rings change -/

/-- `list_cut_position` at an entry of the ring. -/
theorem Rings.cutPosition (h : Rings m lists) {i j : ℕ} {l rest : List ℕ} (hij : j ≠ i) (hlive : (m j).isSome = true)
    (hfree : Free (Function.update lists j none) j) (hl : lists i = some (l ++ rest)) (hne : l ≠ []) :
    ∃ m', listCutPosition m j i (l.getLast hne) = .ok m' ∧ (∀ x, (m' x).isSome = (m x).isSome) ∧
      Rings m' (Function.update (Function.update lists j (some l)) i (some rest)) := by
  have hr := h.ring i _ hl
  obtain ⟨m', hok, he, hrl, hrrest⟩ := hr.cutPosition hne hlive (free_forget_iff.mp hfree i _ hl hij.symm)
  have hmem : l.getLast hne ∈ l := List.getLast_mem hne
  have hentry : l.getLast hne ≠ i := by
    have := hr.nodup
    grind
  refine ⟨m', ?_, he.live, ?_⟩
  · obtain ⟨hd, hhead, hnext, -⟩ := hr.head_eq
    -- the only entry is the one the ring is cut at
    have hsingular : ¬ (decide ((l ++ rest).length = 1) = true ∧ hd.next ≠ l.getLast hne ∧ i ≠ l.getLast hne) := by
      rintro ⟨hlen, hnext', -⟩
      obtain ⟨x, hx⟩ := List.length_eq_one_iff.mp (of_decide_eq_true hlen)
      obtain ⟨rfl, rfl⟩ : l = [x] ∧ rest = [] := by
        cases l with
        | nil => exact absurd rfl hne
        | cons y l => simpa [and_assoc] using hx
      exact hnext' (by rw [hnext]; rfl)
    unfold listCutPosition
    rw [h.empty hl, h.singular hl]
    simp only [headAt_eq_ok.mpr hhead, ok_bind]
    rw [if_neg (by simp [hne]), if_neg hsingular, if_neg hentry]
    exact hok
  · -- the ring at `i` first, with what `j` led to forgotten
    have hj := h.forget j
    have hi : Function.update lists j none i = some (l ++ rest) := by rw [Function.update_of_ne hij.symm, hl]
    have hmemFree {x : ℕ} (hx : x ∈ i :: (l ++ rest)) := hj.free_of_mem hi hx
    have hset := hj.set he hrrest (fun x hx => hmemFree (by grind)) fun x hx => ?_
    · rw [← @Function.update_idem _ _ _ j none (some l) lists, Function.update_comm hij]
      refine hset.set (Edited.refl m' []) hrl (fun x hx => free_forget_iff.mpr fun k l' hl' hkj => ?_) (by simp)
      rw [Function.update_apply] at hl'
      split_ifs at hl' with hki
      · cases hl'
        subst hki
        have hjfree := free_forget_iff.mp hfree k _ hl hkj
        have := hr.nodup
        grind
      · rcases List.mem_cons.mp hx with rfl | hx
        · exact hfree k l' hl'
        · exact free_forget_iff.mp (hmemFree (by grind)) k l' hl' hki
    · by_cases hxj : x = j
      · exact .inr (hxj ▸ hfree.forget i)
      · exact .inr (hmemFree (by grind))

/-- `list_cut_position` at the head: there is nothing to cut off. -/
theorem Rings.cutPosition_head (h : Rings m lists) {i j : ℕ} {l : List ℕ} (hl : lists i = some l)
    (hlive : (m j).isSome = true) (hfree : Free (Function.update lists j none) j) :
    ∃ m', listCutPosition m j i i = .ok m' ∧ (∀ x, (m' x).isSome = (m x).isSome) ∧
      Rings m' (if l = [] then lists else Function.update lists j (some [])) := by
  obtain ⟨hd, hhead, -⟩ := (h.ring i l hl).head_eq
  unfold listCutPosition
  rw [h.empty hl, h.singular hl]
  by_cases hne : l = []
  · exact ⟨m, by simp [hne], fun _ => rfl, by simpa [hne] using h⟩
  · obtain ⟨m', hok, hlive, hr⟩ := h.init hlive hfree
    refine ⟨m', ?_, hlive, by simpa [hne] using hr⟩
    simp only [headAt_eq_ok.mpr hhead, ok_bind]
    simpa [hne] using hok

/-- `__list_splice` at a place of another ring. -/
theorem Rings.spliceBetween (h : Rings m lists) {i j : ℕ} {l pre post : List ℕ} {p n : ℕ} (hij : j ≠ i)
    (hj : lists j = some l) (hi : lists i = some (pre ++ post)) (hg : Gap i pre post p n) (hne : l ≠ []) :
    ∃ m', listSpliceBetween m j p n = .ok m' ∧ (∀ x, (m' x).isSome = (m x).isSome) ∧
      Rings m' (Function.update (Function.update lists j none) i (some (pre ++ (l ++ post)))) := by
  have hfree {x : ℕ} (hx : x ∈ j :: l) := h.free_of_mem hj hx
  have hi' : Function.update lists j none i = some (pre ++ post) := by rw [Function.update_of_ne hij.symm, hi]
  obtain ⟨m', hok, he, hr⟩ := (h.ring i _ hi).splice hg (h.ring j l hj) hne
    fun x hx => hfree (List.mem_cons_of_mem j hx) i _ hi'
  have hforget := h.forget j
  refine ⟨m', hok, he.live, hforget.set he hr (fun x hx => ?_) fun x hx => .inl (by grind)⟩
  by_cases hxl : x ∈ l
  · exact (hfree (List.mem_cons_of_mem j hxl)).forget i
  · exact hforget.free_of_mem hi' (by grind)

/-- The head of a ring that was tied into another one is free. -/
theorem Rings.free_spliced (h : Rings m lists) {i j : ℕ} {l l' tied : List ℕ} (hij : j ≠ i) (hj : lists j = some l)
    (hi : lists i = some l') (htied : ∀ x ∈ tied, x ∈ l ∨ x ∈ l') :
    Free (Function.update (Function.update (Function.update lists j none) i (some tied)) j none) j := by
  refine free_forget_iff.mpr fun k l₂ hl₂ hkj => ?_
  have hfree := h.free_of_mem hj List.mem_cons_self
  rw [Function.update_apply] at hl₂
  split_ifs at hl₂ with hki
  · cases hl₂
    subst hki
    have hl' := free_forget_iff.mp hfree k l' hi hkj
    have := (h.ring j l hj).nodup
    grind
  · exact hfree k l₂ hl₂

/-- `list_splice`. -/
theorem Rings.splice (h : Rings m lists) {i j : ℕ} {l l' : List ℕ} (hij : j ≠ i) (hj : lists j = some l)
    (hi : lists i = some l') : ∃ m', listSplice m j i = .ok m' ∧ (∀ x, (m' x).isSome = (m x).isSome) ∧
      Rings m' (if l = [] then lists else Function.update (Function.update lists j none) i (some (l ++ l'))) := by
  obtain ⟨hd, hhead, hnext, -⟩ := (h.ring i l' hi).head_eq
  unfold listSplice
  rw [h.empty hj]
  by_cases hne : l = []
  · exact ⟨m, by simp [hne], fun _ => rfl, by simpa [hne] using h⟩
  · obtain ⟨m', hok, hlive, hr⟩ := @Rings.spliceBetween _ _ h i j l [] l' _ _ hij hj hi
      ⟨rfl, hnext, (h.ring i l' hi).nodup⟩ hne
    refine ⟨m', ?_, hlive, by simpa [hne] using hr⟩
    simp only [headAt_eq_ok.mpr hhead, ok_bind]
    simpa [hne] using hok

/-- `list_splice_tail`. -/
theorem Rings.spliceTail (h : Rings m lists) {i j : ℕ} {l l' : List ℕ} (hij : j ≠ i) (hj : lists j = some l)
    (hi : lists i = some l') : ∃ m', listSpliceTail m j i = .ok m' ∧
      (∀ x, (m' x).isSome = (m x).isSome) ∧
      Rings m' (if l = [] then lists else Function.update (Function.update lists j none) i (some (l' ++ l))) := by
  obtain ⟨hd, hhead, -, hprev⟩ := (h.ring i l' hi).head_eq
  unfold listSpliceTail
  rw [h.empty hj]
  by_cases hne : l = []
  · exact ⟨m, by simp [hne], fun _ => rfl, by simpa [hne] using h⟩
  · obtain ⟨m', hok, hlive, hr⟩ := @Rings.spliceBetween _ _ h i j l l' [] _ _ hij hj (by rwa [List.append_nil])
      ⟨hprev, rfl, by simpa using (h.ring i l' hi).nodup⟩ hne
    refine ⟨m', ?_, hlive, by simpa [hne] using hr⟩
    simp only [headAt_eq_ok.mpr hhead, ok_bind]
    simpa [hne] using hok

/-- `list_splice_init`. -/
theorem Rings.spliceInit (h : Rings m lists) {i j : ℕ} {l l' : List ℕ} (hij : j ≠ i) (hj : lists j = some l)
    (hi : lists i = some l') : ∃ m', listSpliceInit m j i = .ok m' ∧
      (∀ x, (m' x).isSome = (m x).isSome) ∧
      Rings m' (Function.update (Function.update lists i (some (l ++ l'))) j (some [])) := by
  obtain ⟨hd, hhead, hnext, -⟩ := (h.ring i l' hi).head_eq
  unfold listSpliceInit
  rw [h.empty hj]
  by_cases hne : l = []
  · refine ⟨m, by simp [hne], fun _ => rfl, ?_⟩
    have hi' : Function.update lists i (some l') = lists := Function.update_eq_self_iff.mpr hi.symm
    rwa [hne, List.nil_append, hi', Function.update_eq_self_iff.mpr (hne ▸ hj).symm]
  · obtain ⟨m₁, h₁, hlive₁, hr₁⟩ := @Rings.spliceBetween _ _ h i j l [] l' _ _ hij hj hi
      ⟨rfl, hnext, (h.ring i l' hi).nodup⟩ hne
    obtain ⟨m', h₂, hlive₂, hr₂⟩ := hr₁.init ((hlive₁ j).trans ((h.ring j l hj).isSome List.mem_cons_self))
      (h.free_spliced hij hj hi (by simp))
    rw [Function.update_comm hij, Function.update_idem] at hr₂
    refine ⟨m', ?_, fun x => (hlive₂ x).trans (hlive₁ x), hr₂⟩
    simp only [headAt_eq_ok.mpr hhead, ok_bind]
    rw [if_neg (by simp [hne])]
    exact bind_eq_ok.mpr ⟨m₁, h₁, h₂⟩

/-- `list_splice_tail_init`. -/
theorem Rings.spliceTailInit (h : Rings m lists) {i j : ℕ} {l l' : List ℕ} (hij : j ≠ i) (hj : lists j = some l)
    (hi : lists i = some l') : ∃ m', listSpliceTailInit m j i = .ok m' ∧
      (∀ x, (m' x).isSome = (m x).isSome) ∧
      Rings m' (Function.update (Function.update lists i (some (l' ++ l))) j (some [])) := by
  obtain ⟨hd, hhead, -, hprev⟩ := (h.ring i l' hi).head_eq
  unfold listSpliceTailInit
  rw [h.empty hj]
  by_cases hne : l = []
  · refine ⟨m, by simp [hne], fun _ => rfl, ?_⟩
    have hi' : Function.update lists i (some l') = lists := Function.update_eq_self_iff.mpr hi.symm
    rwa [hne, List.append_nil, hi', Function.update_eq_self_iff.mpr (hne ▸ hj).symm]
  · obtain ⟨m₁, h₁, hlive₁, hr₁⟩ := @Rings.spliceBetween _ _ h i j l l' [] _ _ hij hj (by rwa [List.append_nil])
      ⟨hprev, rfl, by simpa using (h.ring i l' hi).nodup⟩ hne
    obtain ⟨m', h₂, hlive₂, hr₂⟩ := hr₁.init ((hlive₁ j).trans ((h.ring j l hj).isSome List.mem_cons_self))
      (h.free_spliced hij hj hi (by simp [or_comm]))
    rw [Function.update_comm hij, Function.update_idem, List.append_nil] at hr₂
    refine ⟨m', ?_, fun x => (hlive₂ x).trans (hlive₁ x), hr₂⟩
    simp only [headAt_eq_ok.mpr hhead, ok_bind]
    rw [if_neg (by simp [hne])]
    exact bind_eq_ok.mpr ⟨m₁, h₁, h₂⟩

end ToxSuite.Lib
