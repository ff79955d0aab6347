import Mathlib.Data.List.Basic
import Mathlib.Logic.Function.Basic
import ToxSuite.Lib.CText

/-!
# Doubly linked rings

Lists that are kept as a ring of links: a head and the entries each know the address of
the next and of the previous one (`ListRing`). `listDel` cuts an entry out of its ring
(`ListRing.cut`), and `listForEachSafe` walks over a ring while the body of the loop may
cut out and give back the entry it is at: it looks up the next entry before the body runs.

`listForEachSafe_rule` is the rule for such a loop: an invariant that the body carries from
one entry to the next, as long as what is left of the ring is in it, holds when the loop is
over, and the loop is over after as many rounds as there were entries.
-/

namespace ToxSuite.Lib

/-! ### Links in memory -/

/-- The links of an entry, or of the head of a ring. -/
structure ListHead where
  next : ℕ
  prev : ℕ
  deriving DecidableEq

/-- The links in memory, by address; `none` where nothing is allocated. -/
abbrev Heads := ℕ → Option ListHead

/-- Read the links at an address. -/
def headAt (m : Heads) (a : ℕ) : Except Fault ListHead :=
  match m a with
  | none => .error .released
  | some h => pure h

/-- Write to the links at an address. -/
def modifyHead (m : Heads) (a : ℕ) (g : ListHead → ListHead) : Except Fault Heads := do
  let h ← headAt m a
  pure (Function.update m a (some (g h)))

/-- `LIST_POISON1`. -/
abbrev LIST_POISON1 : ℕ := 0x00100100

/-- `LIST_POISON2`. -/
abbrev LIST_POISON2 : ℕ := 0x00200200

/-- `__list_del`. -/
def listDelBetween (m : Heads) (prev next : ℕ) : Except Fault Heads := do
  let m ← modifyHead m next fun h => { h with prev }
  modifyHead m prev fun h => { h with next }

/-- `list_del`. -/
def listDel (m : Heads) (entry : ℕ) : Except Fault Heads := do
  let h ← headAt m entry
  let m ← listDelBetween m h.prev h.next
  let m ← modifyHead m entry fun h => { h with next := LIST_POISON1 }
  modifyHead m entry fun h => { h with prev := LIST_POISON2 }

/-- What an entry knows as the next one. -/
def nextOf (m : Heads) (a : ℕ) : Option ℕ := (m a).map ListHead.next

/-- What an entry knows as the previous one. -/
def prevOf (m : Heads) (a : ℕ) : Option ℕ := (m a).map ListHead.prev

/-- Two entries follow one another. -/
def Linked (m : Heads) (a b : ℕ) : Prop := nextOf m a = some b ∧ prevOf m b = some a

theorem headAt_eq_ok {m : Heads} {a : ℕ} {h : ListHead} : headAt m a = .ok h ↔ m a = some h := by
  unfold headAt
  cases m a with
  | none => simp
  | some g => simp

/-- What is in memory, and what is written nowhere else. -/
structure Writes (m m' : Heads) (next prev : ℕ → Option ℕ) : Prop where
  live : ∀ x, (m' x).isSome = (m x).isSome
  next : ∀ x, nextOf m' x = next x
  prev : ∀ x, prevOf m' x = prev x

/-- Writing to an allocation. -/
theorem modifyHead_writes {m : Heads} {a : ℕ} (ha : (m a).isSome = true) (g : ListHead → ListHead) :
    ∃ h m', m a = some h ∧ modifyHead m a g = .ok m' ∧
      Writes m m' (fun x => if x = a then some (g h).next else nextOf m x)
        (fun x => if x = a then some (g h).prev else prevOf m x) := by
  obtain ⟨h, ha⟩ := Option.isSome_iff_exists.mp ha
  refine ⟨h, Function.update m a (some (g h)), ha, ?_, fun x => ?_, fun x => ?_, fun x => ?_⟩
  · unfold modifyHead
    rw [headAt_eq_ok.mpr ha]
    rfl
  · rw [Function.update_apply]
    split_ifs with hx
    · rw [hx, ha]
      rfl
    · rfl
  · unfold nextOf
    rw [Function.update_apply]
    split_ifs <;> rfl
  · unfold prevOf
    rw [Function.update_apply]
    split_ifs <;> rfl

/-- `entry->next = next`. -/
theorem modifyHead_next {m : Heads} {a : ℕ} (ha : (m a).isSome = true) (next : ℕ) :
    ∃ m', modifyHead m a (fun h => { h with next }) = .ok m' ∧
      Writes m m' (fun x => if x = a then some next else nextOf m x) (prevOf m) := by
  obtain ⟨h, m', ha, hok, hw⟩ := modifyHead_writes ha fun h => { h with next }
  refine ⟨m', hok, hw.live, hw.next, fun x => ?_⟩
  rw [hw.prev]
  split_ifs with hx
  · rw [hx, prevOf, ha]
    rfl
  · rfl

/-- `entry->prev = prev`. -/
theorem modifyHead_prev {m : Heads} {a : ℕ} (ha : (m a).isSome = true) (prev : ℕ) :
    ∃ m', modifyHead m a (fun h => { h with prev }) = .ok m' ∧
      Writes m m' (nextOf m) (fun x => if x = a then some prev else prevOf m x) := by
  obtain ⟨h, m', ha, hok, hw⟩ := modifyHead_writes ha fun h => { h with prev }
  refine ⟨m', hok, hw.live, fun x => ?_, hw.prev⟩
  rw [hw.next]
  split_ifs with hx
  · rw [hx, nextOf, ha]
    rfl
  · rfl

/-! ### Segments and rings -/

/-- The entries `l` lead from `a` to `b`, in both directions. -/
def Segment (m : Heads) (a : ℕ) : List ℕ → ℕ → Prop
  | [], b => Linked m a b
  | x :: l, b => Linked m a x ∧ Segment m x l b

/-- The entries of a ring, from its head to its head, each once. -/
structure ListRing (m : Heads) (head : ℕ) (l : List ℕ) : Prop where
  segment : Segment m head l head
  nodup : (head :: l).Nodup

/-- A segment is cut at an entry. -/
theorem segment_append {m : Heads} {x b : ℕ} {r : List ℕ} (l : List ℕ) : ∀ {a : ℕ},
    Segment m a (l ++ x :: r) b ↔ Segment m a l x ∧ Segment m x r b := by
  induction l with
  | nil => intro a; rfl
  | cons y l ih =>
    intro a
    simp only [List.cons_append, Segment, ih, and_assoc]

/-- The first entry after `a` and what leads on from it. -/
theorem Segment.first {m : Heads} {a b : ℕ} {l : List ℕ} (h : Segment m a l b) :
    nextOf m a = some ((l ++ [b]).head (by simp)) := by
  cases l with
  | nil => exact h.1
  | cons x l => exact h.1.1

/-- The last entry before `b`. -/
theorem Segment.last {m : Heads} {b : ℕ} {l : List ℕ} : ∀ {a : ℕ}, Segment m a l b →
    prevOf m b = some ((a :: l).getLast (by simp)) := by
  induction l with
  | nil => intro a h; exact h.2
  | cons x l ih => intro a h; exact ih h.2

/-- A segment stays when its links do: those to the next from all but the end, those to the
previous from all but the beginning. -/
theorem Segment.frame {m m' : Heads} {b : ℕ} {l : List ℕ} : ∀ {a : ℕ}, Segment m a l b →
    (∀ x ∈ a :: l, nextOf m' x = nextOf m x) → (∀ x ∈ l ++ [b], prevOf m' x = prevOf m x) →
      Segment m' a l b := by
  induction l with
  | nil =>
    intro a h hnext hprev
    exact ⟨(hnext a (by simp)).trans h.1, (hprev b (by simp)).trans h.2⟩
  | cons x l ih =>
    intro a h hnext hprev
    refine ⟨⟨(hnext a (by simp)).trans h.1.1, (hprev x (by simp)).trans h.1.2⟩, ih h.2 ?_ ?_⟩
    · exact fun y hy => hnext y (List.mem_cons_of_mem _ hy)
    · exact fun y hy => hprev y (List.mem_cons_of_mem _ hy)

/-- All that is on a segment is in memory. -/
theorem Segment.live {m : Heads} {b : ℕ} {l : List ℕ} : ∀ {a : ℕ}, Segment m a l b →
    ∀ x ∈ a :: (l ++ [b]), ∃ h, m x = some h := by
  have hnext {x y : ℕ} (h : nextOf m x = some y) : ∃ h, m x = some h := by
    unfold nextOf at h
    obtain ⟨hd, hx, -⟩ := Option.map_eq_some_iff.mp h
    exact ⟨hd, hx⟩
  have hprev {x y : ℕ} (h : prevOf m x = some y) : ∃ h, m x = some h := by
    unfold prevOf at h
    obtain ⟨hd, hx, -⟩ := Option.map_eq_some_iff.mp h
    exact ⟨hd, hx⟩
  induction l with
  | nil =>
    intro a h x hx
    simp only [List.nil_append, List.mem_cons, List.not_mem_nil, or_false] at hx
    rcases hx with rfl | rfl
    · exact hnext h.1
    · exact hprev h.2
  | cons y l ih =>
    intro a h x hx
    rcases List.mem_cons.mp hx with rfl | hx
    · exact hnext h.1.1
    · exact ih h.2 x hx

/-- The last link before an entry and the first after it are tied together: the entry is cut out of
the segment. -/
theorem Segment.cut {m m' : Heads} {a t p n : ℕ} {pre post : List ℕ} : ∀ {s : ℕ},
    Segment m s pre a → Segment m a post t → (s :: (pre ++ post)).Nodup → t ∉ pre → t ∉ post →
      p = (s :: pre).getLast (by simp) → n = (post ++ [t]).head (by simp) → Linked m' p n →
      (∀ x ∈ s :: (pre ++ post), x ≠ p → nextOf m' x = nextOf m x) →
      (∀ x ∈ pre ++ post ++ [t], x ≠ n → prevOf m' x = prevOf m x) →
      Segment m' s (pre ++ post) t := by
  induction pre with
  | nil =>
    intro s _ hpost hnodup _ htpost hp hn hlink hnext hprev
    cases hp
    cases post with
    | nil =>
      cases hn
      exact hlink
    | cons x post =>
      cases hn
      simp only [List.nil_append, List.nodup_cons, List.mem_cons, not_or] at hnodup htpost
      refine ⟨hlink, hpost.2.frame (fun y hy => ?_) fun y hy => ?_⟩
      · apply hnext y (by simpa using .inr (List.mem_cons.mp hy))
        rintro rfl
        rcases List.mem_cons.mp hy with rfl | hy
        · exact hnodup.1.1 rfl
        · exact hnodup.1.2 hy
      · apply hprev y (by simpa using .inr (by simpa using hy))
        rintro rfl
        rcases List.mem_append.mp hy with hy | hy
        · exact hnodup.2.1 hy
        · exact htpost.1 (List.mem_singleton.mp hy).symm
  | cons x pre ih =>
    intro s hpre hpost hnodup htpre htpost hp hn hlink hnext hprev
    rw [List.getLast_cons (by simp)] at hp
    rw [List.cons_append, List.nodup_cons] at hnodup
    rw [List.mem_cons, not_or] at htpre
    have hmem : n ∈ post ++ [t] := hn ▸ List.head_mem _
    have hxn : x ≠ n := by
      rintro rfl
      rcases List.mem_append.mp hmem with hmem | hmem
      · exact (List.nodup_cons.mp hnodup.2).1 (List.mem_append_right _ hmem)
      · exact htpre.1 (List.mem_singleton.mp hmem).symm
    have hsp : s ≠ p := by
      rintro rfl
      have hlast : s ∈ x :: pre := hp ▸ List.getLast_mem _
      exact hnodup.1 (List.mem_append_left post hlast)
    refine ⟨⟨(hnext s (by simp) hsp).trans hpre.1.1, (hprev x (by simp) hxn).trans hpre.1.2⟩, ?_⟩
    refine ih hpre.2 hpost hnodup.2 htpre.2 htpost hp hn hlink (fun y hy => ?_) fun y hy => ?_
    · exact hnext y (List.mem_cons_of_mem _ hy)
    · exact hprev y (List.mem_cons_of_mem _ hy)

theorem ListRing.live {m : Heads} {head x : ℕ} {l : List ℕ} (h : ListRing m head l) (hx : x ∈ head :: l) :
    ∃ hd, m x = some hd := by
  apply h.segment.live x
  rcases List.mem_cons.mp hx with rfl | hx
  · exact List.mem_cons_self
  · exact List.mem_cons_of_mem _ (List.mem_append_left _ hx)

/-! ### Cutting an entry out -/

/-- What `list_del` writes, when the entry and its neighbours are in memory. -/
theorem listDel_writes {m : Heads} {a : ℕ} {h : ListHead} (ha : m a = some h) (hp : (m h.prev).isSome = true)
    (hn : (m h.next).isSome = true) : ∃ m', listDel m a = .ok m' ∧
      Writes m m' (fun x => if x = a then some LIST_POISON1 else if x = h.prev then some h.next else nextOf m x)
        (fun x => if x = a then some LIST_POISON2 else if x = h.next then some h.prev else prevOf m x) := by
  obtain ⟨m₁, h₁, hw₁⟩ := modifyHead_prev hn h.prev
  obtain ⟨m₂, h₂, hw₂⟩ := modifyHead_next ((hw₁.live _).trans hp) h.next
  have hlive : (m₂ a).isSome = true := by rw [hw₂.live, hw₁.live, ha, Option.isSome_some]
  obtain ⟨m₃, h₃, hw₃⟩ := modifyHead_next hlive LIST_POISON1
  obtain ⟨m₄, h₄, hw₄⟩ := modifyHead_prev ((hw₃.live _).trans hlive) LIST_POISON2
  refine ⟨m₄, ?_, fun x => ?_, fun x => ?_, fun x => ?_⟩
  · unfold listDel listDelBetween
    simp only [headAt_eq_ok.mpr ha, ok_bind, h₁, h₂, h₃, h₄]
  · rw [hw₄.live, hw₃.live, hw₂.live, hw₁.live]
  · rw [hw₄.next, hw₃.next, hw₂.next, hw₁.next]
  · rw [hw₄.prev, hw₃.prev, hw₂.prev, hw₁.prev]

/-- **`list_del` cuts the entry out of its ring**, also when it is the only one, and the ring is a ring
without the memory of the entry. -/
theorem ListRing.cut {m : Heads} {head a : ℕ} {pre post : List ℕ} (h : ListRing m head (pre ++ a :: post)) :
    ∃ m', listDel m a = .ok m' ∧ (∀ x, (m' x).isSome = (m x).isSome) ∧
      ListRing (Function.update m' a none) head (pre ++ post) := by
  obtain ⟨hpre, hpost⟩ := (segment_append pre).mp h.segment
  obtain ⟨hd, ha⟩ := h.live (show a ∈ head :: (pre ++ a :: post) by simp)
  have hprev : hd.prev = (head :: pre).getLast (by simp) := by
    have := hpre.last
    rwa [prevOf, ha, Option.map_some, Option.some.injEq] at this
  have hnext : hd.next = (post ++ [head]).head (by simp) := by
    have := hpost.first
    rwa [nextOf, ha, Option.map_some, Option.some.injEq] at this
  have hnodup : (head :: (pre ++ post)).Nodup ∧ a ∉ head :: (pre ++ post) := by
    have := h.nodup
    simp only [List.nodup_cons, List.nodup_append, List.mem_append, List.mem_cons, not_or] at this ⊢
    grind
  have hmemp : hd.prev ∈ head :: (pre ++ post) := by
    have := List.getLast_mem (l := head :: pre) (by simp)
    rw [hprev]
    grind
  have hmemn : hd.next ∈ head :: (pre ++ post) := by
    have := List.head_mem (l := post ++ [head]) (by simp)
    rw [hnext]
    grind
  have hlive : ∀ x ∈ head :: (pre ++ post), (m x).isSome = true := by
    intro x hx
    exact Option.isSome_iff_exists.mpr (h.live (by grind))
  obtain ⟨m', hok, hw⟩ := listDel_writes ha (hlive _ hmemp) (hlive _ hmemn)
  have hne {x : ℕ} (hx : x ∈ head :: (pre ++ post)) : x ≠ a := fun heq => hnodup.2 (heq ▸ hx)
  have hnextOf {x : ℕ} (hx : x ∈ head :: (pre ++ post)) :
      nextOf (Function.update m' a none) x = if x = hd.prev then some hd.next else nextOf m x := by
    rw [nextOf, Function.update_of_ne (hne hx), ← nextOf, hw.next, if_neg (hne hx)]
  have hprevOf {x : ℕ} (hx : x ∈ head :: (pre ++ post)) :
      prevOf (Function.update m' a none) x = if x = hd.next then some hd.prev else prevOf m x := by
    rw [prevOf, Function.update_of_ne (hne hx), ← prevOf, hw.prev, if_neg (hne hx)]
  have hhead := List.nodup_cons.mp hnodup.1
  rw [List.mem_append, not_or] at hhead
  refine ⟨m', hok, hw.live, hpre.cut hpost hnodup.1 hhead.1.1 hhead.1.2 hprev hnext ⟨?_, ?_⟩ ?_ ?_, hnodup.1⟩
  · rw [hnextOf hmemp, if_pos rfl]
  · rw [hprevOf hmemn, if_pos rfl]
  · intro x hx hxp
    rw [hnextOf hx, if_neg hxp]
  · intro x hx hxn
    rw [hprevOf (by grind), if_neg hxn]

/-! ### A loop that cuts out what it is at -/

section

variable {σ : Type} (heads : σ → Heads) (body : σ → ℕ → Except Fault σ) (head : ℕ)

/-- The loop of `list_for_each_entry_safe` with the cursor at `pos` and the next entry looked up. -/
def forEachSafeFrom : ℕ → σ → ℕ → ℕ → Except Fault σ
  | fuel, s, pos, n =>
    if pos = head then pure s
    else match fuel with
      | 0 => .error .fuel
      | fuel + 1 => do
        let s ← body s pos
        let h ← headAt (heads s) n
        forEachSafeFrom fuel s n h.next

/-- `list_for_each_entry_safe`. -/
def listForEachSafe (fuel : ℕ) (s : σ) : Except Fault σ := do
  let h ← headAt (heads s) head
  let pos := h.next
  let h ← headAt (heads s) pos
  forEachSafeFrom heads body head fuel s pos h.next

variable {heads body head}

/-- The entry the walk comes to. -/
theorem headAt_segment {m : Heads} {a b : ℕ} {l : List ℕ} (h : Segment m a l b) :
    ∃ hd, headAt m a = .ok hd ∧ hd.next = (l ++ [b]).head (by simp) := by
  obtain ⟨hd, hm, hnext⟩ := Option.map_eq_some_iff.mp h.first
  exact ⟨hd, headAt_eq_ok.mpr hm, hnext⟩

theorem headAt_ring {m : Heads} {done rest : List ℕ} (h : ListRing m head (done ++ rest)) :
    ∃ hd, headAt m ((rest ++ [head]).head (by simp)) = .ok hd ∧
      ∀ a rest', rest = a :: rest' → hd.next = (rest' ++ [head]).head (by simp) := by
  cases rest with
  | nil =>
    obtain ⟨hd, hm, -⟩ := headAt_segment h.segment
    exact ⟨hd, hm, fun a rest' heq => by cases heq⟩
  | cons a rest =>
    obtain ⟨hd, hm, hnext⟩ := headAt_segment ((segment_append done).mp h.segment).2
    refine ⟨hd, hm, fun a' rest' heq => ?_⟩
    cases heq
    exact hnext

section

variable {I : List ℕ → List ℕ → σ → Prop}
  (hring : ∀ done rest s, I done rest s → ListRing (heads s) head (done ++ rest))
  (hbody : ∀ done a rest s, I done (a :: rest) s → ∃ s' done', body s a = .ok s' ∧ I done' rest s')

include hring hbody

/-- The rounds that are left, the next entry looked up before each. -/
theorem forEachSafeFrom_rule (rest : List ℕ) : ∀ {done : List ℕ} {s : σ} {fuel pos n : ℕ}, I done rest s →
    rest.length ≤ fuel → pos = (rest ++ [head]).head (by simp) →
    (∀ a rest', rest = a :: rest' → n = (rest' ++ [head]).head (by simp)) →
      ∃ s' done', forEachSafeFrom heads body head fuel s pos n = .ok s' ∧ I done' [] s' := by
  induction rest with
  | nil =>
    intro done s fuel pos n h _ hpos _
    refine ⟨s, done, ?_, h⟩
    cases fuel <;> simp [forEachSafeFrom, hpos]
  | cons a rest ih =>
    intro done s fuel pos n h hfuel hpos hn
    obtain ⟨fuel, rfl⟩ := Nat.exists_eq_add_one.mpr (Nat.lt_of_lt_of_le (Nat.succ_pos _) hfuel)
    obtain rfl : pos = a := hpos
    have hne : pos ≠ head := by
      rintro rfl
      exact (List.nodup_cons.mp (hring _ _ _ h).nodup).1 (by simp)
    obtain ⟨s₁, done₁, hs₁, h₁⟩ := hbody done pos rest s h
    obtain ⟨hd, hhead, hnext⟩ := headAt_ring (hring _ _ _ h₁)
    rw [forEachSafeFrom, if_neg hne]
    simp only [hs₁, ok_bind, hn pos rest rfl, hhead]
    exact ih h₁ (by simpa using hfuel) rfl hnext

/-- **The rule of the safe loop**: what the body carries from one entry of a ring to the next holds
when the loop is over, and the loop is over after as many rounds as there were entries. -/
theorem listForEachSafe_rule {l : List ℕ} {s : σ} {fuel : ℕ} (h : I [] l s) (hfuel : l.length ≤ fuel) :
    ∃ s' done', listForEachSafe heads body head fuel s = .ok s' ∧ I done' [] s' := by
  have hr : ListRing (heads s) head l := hring [] l s h
  obtain ⟨hd, hhead, hpos⟩ := headAt_segment hr.segment
  obtain ⟨hd', hhead', hn⟩ := @headAt_ring _ _ [] _ hr
  unfold listForEachSafe
  simp only [hhead, ok_bind, hpos, hhead']
  exact forEachSafeFrom_rule hring hbody l h hfuel rfl hn

end

end

end ToxSuite.Lib
