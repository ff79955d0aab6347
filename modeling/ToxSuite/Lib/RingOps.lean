import Mathlib.Logic.Function.Basic
import ToxSuite.Lib.Ring

/-!
# What else is done to a ring

The operations of a doubly linked ring besides cutting an entry out: a new entry is tied
in between two neighbours, an entry takes the place of another, a ring is tied into
another one, its first entries are tied to a head of their own. Each is a few writes to
links. A segment whose last link leads elsewhere, or whose first link comes from elsewhere
(`Segment.relast`, `Segment.refirst`), is what all of them are made of.

`Edited` says which links an operation may have written to; the rings that have none of
them stay as they are (`Edited.ring`). A walk over a ring that stays as it is goes over the
list of its entries (`listForEach_eq`, `listForEachPrev_eq`, `listFind_eq`).
-/

namespace ToxSuite.Lib

/-! ### The operations -/

/-- `INIT_LIST_HEAD`. -/
def initListHead (m : Heads) (list : ℕ) : Except Fault Heads := do
  let m ← modifyHead m list fun h => { h with next := list }
  modifyHead m list fun h => { h with prev := list }

/-- `__list_add`. -/
def listAddBetween (m : Heads) (new prev next : ℕ) : Except Fault Heads := do
  let m ← modifyHead m next fun h => { h with prev := new }
  let m ← modifyHead m new fun h => { h with next }
  let m ← modifyHead m new fun h => { h with prev }
  modifyHead m prev fun h => { h with next := new }

/-- `list_add`. -/
def listAdd (m : Heads) (new head : ℕ) : Except Fault Heads := do
  let h ← headAt m head
  listAddBetween m new head h.next

/-- `list_add_tail`. -/
def listAddTail (m : Heads) (new head : ℕ) : Except Fault Heads := do
  let h ← headAt m head
  listAddBetween m new h.prev head

/-- `__list_del_entry`. -/
def listDelEntry (m : Heads) (entry : ℕ) : Except Fault Heads := do
  let h ← headAt m entry
  listDelBetween m h.prev h.next

/-- `list_replace`. -/
def listReplace (m : Heads) (old new : ℕ) : Except Fault Heads := do
  let o ← headAt m old
  let m ← modifyHead m new fun h => { h with next := o.next }
  let n ← headAt m new
  let m ← modifyHead m n.next fun h => { h with prev := new }
  let o ← headAt m old
  let m ← modifyHead m new fun h => { h with prev := o.prev }
  let n ← headAt m new
  modifyHead m n.prev fun h => { h with next := new }

/-- `list_replace_init`. -/
def listReplaceInit (m : Heads) (old new : ℕ) : Except Fault Heads := do
  let m ← listReplace m old new
  initListHead m old

/-- `list_del_init`. -/
def listDelInit (m : Heads) (entry : ℕ) : Except Fault Heads := do
  let m ← listDelEntry m entry
  initListHead m entry

/-- `list_move`. -/
def listMove (m : Heads) (list head : ℕ) : Except Fault Heads := do
  let m ← listDelEntry m list
  listAdd m list head

/-- `list_move_tail`. -/
def listMoveTail (m : Heads) (list head : ℕ) : Except Fault Heads := do
  let m ← listDelEntry m list
  listAddTail m list head

/-- `list_is_last`. -/
def listIsLast (m : Heads) (list head : ℕ) : Except Fault Bool := do
  let h ← headAt m list
  pure (h.next = head)

/-- `list_empty`. -/
def listEmpty (m : Heads) (head : ℕ) : Except Fault Bool := do
  let h ← headAt m head
  pure (h.next = head)

/-- `list_empty_careful`. -/
def listEmptyCareful (m : Heads) (head : ℕ) : Except Fault Bool := do
  let h ← headAt m head
  let next := h.next
  pure (next = head ∧ next = h.prev)

/-- `list_is_singular`. -/
def listIsSingular (m : Heads) (head : ℕ) : Except Fault Bool := do
  if ← listEmpty m head then pure false
  else
    let h ← headAt m head
    pure (h.next = h.prev)

/-- `list_rotate_left`. -/
def listRotateLeft (m : Heads) (head : ℕ) : Except Fault Heads := do
  if ← listEmpty m head then pure m
  else
    let h ← headAt m head
    listMoveTail m h.next head

/-- `__list_cut_position`. -/
def listCutPositionAt (m : Heads) (list head entry : ℕ) : Except Fault Heads := do
  let e ← headAt m entry
  let newFirst := e.next
  let h ← headAt m head
  let m ← modifyHead m list fun l => { l with next := h.next }
  let l ← headAt m list
  let m ← modifyHead m l.next fun n => { n with prev := list }
  let m ← modifyHead m list fun l => { l with prev := entry }
  let m ← modifyHead m entry fun e => { e with next := list }
  let m ← modifyHead m head fun h => { h with next := newFirst }
  modifyHead m newFirst fun n => { n with prev := head }

/-- `list_cut_position`. -/
def listCutPosition (m : Heads) (list head entry : ℕ) : Except Fault Heads := do
  if ← listEmpty m head then pure m
  else
    let singular ← listIsSingular m head
    let h ← headAt m head
    if singular ∧ h.next ≠ entry ∧ head ≠ entry then pure m
    else if entry = head then initListHead m list
    else listCutPositionAt m list head entry

/-- `__list_splice`. -/
def listSpliceBetween (m : Heads) (list prev next : ℕ) : Except Fault Heads := do
  let h ← headAt m list
  let first := h.next
  let last := h.prev
  let m ← modifyHead m first fun h => { h with prev }
  let m ← modifyHead m prev fun h => { h with next := first }
  let m ← modifyHead m last fun h => { h with next }
  modifyHead m next fun h => { h with prev := last }

/-- `list_splice`. -/
def listSplice (m : Heads) (list head : ℕ) : Except Fault Heads := do
  if ← listEmpty m list then pure m
  else
    let h ← headAt m head
    listSpliceBetween m list head h.next

/-- `list_splice_tail`. -/
def listSpliceTail (m : Heads) (list head : ℕ) : Except Fault Heads := do
  if ← listEmpty m list then pure m
  else
    let h ← headAt m head
    listSpliceBetween m list h.prev head

/-- `list_splice_init`. -/
def listSpliceInit (m : Heads) (list head : ℕ) : Except Fault Heads := do
  if ← listEmpty m list then pure m
  else
    let h ← headAt m head
    let m ← listSpliceBetween m list head h.next
    initListHead m list

/-- `list_splice_tail_init`. -/
def listSpliceTailInit (m : Heads) (list head : ℕ) : Except Fault Heads := do
  if ← listEmpty m list then pure m
  else
    let h ← headAt m head
    let m ← listSpliceBetween m list h.prev head
    initListHead m list

/-! ### Segments that lead elsewhere -/

/-- The link between the two parts of a segment belongs to both. -/
theorem segment_halves {m : Heads} {b : ℕ} {post : List ℕ} (pre : List ℕ) : ∀ {a : ℕ},
    Segment m a (pre ++ post) b ↔
      Segment m a pre ((post ++ [b]).head (by simp)) ∧ Segment m ((a :: pre).getLast (by simp)) post b := by
  induction pre with
  | nil =>
    intro a
    cases post with
    | nil => exact ⟨fun h => ⟨h, h⟩, fun h => h.1⟩
    | cons x post => exact ⟨fun h => ⟨h.1, h⟩, fun h => h.2⟩
  | cons x pre ih =>
    intro a
    rw [List.cons_append, Segment, ih, Segment, and_assoc, List.getLast_cons (List.cons_ne_nil x pre)]

/-- The last link of a segment leads elsewhere now. -/
theorem Segment.relast {m m' : Heads} {b c : ℕ} {l : List ℕ} : ∀ {a : ℕ}, Segment m a l b →
    (∀ x ∈ (a :: l).dropLast, nextOf m' x = nextOf m x) → (∀ x ∈ l, prevOf m' x = prevOf m x) →
      Linked m' ((a :: l).getLast (by simp)) c → Segment m' a l c := by
  induction l with
  | nil => intro a _ _ _ hlink; exact hlink
  | cons x l ih =>
    intro a h hnext hprev hlink
    rw [List.dropLast_cons_of_ne_nil (by simp)] at hnext
    rw [List.getLast_cons (by simp)] at hlink
    refine ⟨⟨(hnext a (by simp)).trans h.1.1, (hprev x (by simp)).trans h.1.2⟩, ih h.2 ?_ ?_ hlink⟩
    · exact fun y hy => hnext y (List.mem_cons_of_mem _ hy)
    · exact fun y hy => hprev y (List.mem_cons_of_mem _ hy)

/-- The first link of a segment comes from elsewhere now. -/
theorem Segment.refirst {m m' : Heads} {a b c : ℕ} {l : List ℕ} (h : Segment m a l b)
    (hnext : ∀ x ∈ l, nextOf m' x = nextOf m x) (hprev : ∀ x ∈ (l ++ [b]).tail, prevOf m' x = prevOf m x)
    (hlink : Linked m' c ((l ++ [b]).head (by simp))) : Segment m' c l b := by
  cases l with
  | nil => exact hlink
  | cons x l => exact ⟨hlink, h.2.frame hnext hprev⟩

/-- Both ends of a segment are tied elsewhere now. -/
theorem Segment.reends {m m' : Heads} {a b c d : ℕ} {l : List ℕ} (hl : l ≠ []) (h : Segment m a l b)
    (hnext : ∀ x ∈ l.dropLast, nextOf m' x = nextOf m x) (hprev : ∀ x ∈ l.tail, prevOf m' x = prevOf m x)
    (hfirst : Linked m' c (l.head hl)) (hlast : Linked m' (l.getLast hl) d) : Segment m' c l d := by
  cases l with
  | nil => exact absurd rfl hl
  | cons x l => exact ⟨hfirst, h.2.relast hnext hprev hlast⟩

/-- Distinct entries: the last is not among the others. -/
theorem ne_getLast_of_mem_dropLast {l : List ℕ} (hl : l ≠ []) (h : l.Nodup) {x : ℕ} (hx : x ∈ l.dropLast) :
    x ≠ l.getLast hl := by
  rintro rfl
  rw [← List.dropLast_append_getLast hl, List.nodup_append] at h
  exact h.2.2 _ hx _ (by simp) rfl

/-- Distinct entries: the first is not among the others. -/
theorem ne_head_of_mem_tail {l : List ℕ} (hl : l ≠ []) (h : l.Nodup) {x : ℕ} (hx : x ∈ l.tail) : x ≠ l.head hl := by
  rintro rfl
  rw [← List.cons_head_tail hl, List.nodup_cons] at h
  exact h.1 hx

/-! ### What is not written to -/

/-- Links are written to at these addresses at most, and nothing is allocated or given back. -/
structure Edited (m m' : Heads) (touched : List ℕ) : Prop where
  live : ∀ x, (m' x).isSome = (m x).isSome
  next : ∀ x, x ∉ touched → nextOf m' x = nextOf m x
  prev : ∀ x, x ∉ touched → prevOf m' x = prevOf m x

theorem Edited.refl (m : Heads) (touched : List ℕ) : Edited m m touched :=
  ⟨fun _ => rfl, fun _ _ => rfl, fun _ _ => rfl⟩

/-- A segment none of whose links are written to. -/
theorem Edited.segment {m m' : Heads} {t l : List ℕ} {a b : ℕ} (h : Edited m m' t) (hs : Segment m a l b)
    (hnext : ∀ x ∈ a :: l, x ∉ t) (hprev : ∀ x ∈ l ++ [b], x ∉ t) : Segment m' a l b :=
  hs.frame (fun x hx => h.next x (hnext x hx)) fun x hx => h.prev x (hprev x hx)

/-- **A ring none of whose links are written to is the ring it was.** -/
theorem Edited.ring {m m' : Heads} {t l : List ℕ} {head : ℕ} (h : Edited m m' t) (hr : ListRing m head l)
    (ht : ∀ x ∈ head :: l, x ∉ t) : ListRing m' head l := by
  refine ⟨h.segment hr.segment ht fun x hx => ht x ?_, hr.nodup⟩
  simpa [or_comm] using hx

/-! ### A place in a ring -/

/-- The place in a ring between its entries `pre` and its entries `post`: `p` is what comes before it and
`n` what comes behind it. -/
structure Gap (head : ℕ) (pre post : List ℕ) (p n : ℕ) : Prop where
  last : p = (head :: pre).getLast (by simp)
  first : n = (post ++ [head]).head (by simp)
  nodup : (head :: (pre ++ post)).Nodup

namespace Gap

variable {head p n : ℕ} {pre post : List ℕ} (h : Gap head pre post p n)

include h

theorem last_mem : p ∈ head :: pre := h.last ▸ List.getLast_mem _

theorem first_mem : n ∈ post ++ [head] := h.first ▸ List.head_mem _

theorem last_mem_ring : p ∈ head :: (pre ++ post) := by
  have := h.last_mem
  grind

theorem first_mem_ring : n ∈ head :: (pre ++ post) := by
  have := h.first_mem
  grind

/-- The last before the place is none of the others before it. -/
theorem ne_last {x : ℕ} (hx : x ∈ (head :: pre).dropLast) : x ≠ p := by
  rw [h.last]
  refine ne_getLast_of_mem_dropLast _ ?_ hx
  have := h.nodup
  grind

/-- The last before the place is none of those behind it. -/
theorem ne_last_of_post {x : ℕ} (hx : x ∈ post) : x ≠ p := by
  have := h.last_mem
  have := h.nodup
  grind

/-- The first behind the place is none of the others behind it. -/
theorem ne_first {x : ℕ} (hx : x ∈ (post ++ [head]).tail) : x ≠ n := by
  rw [h.first]
  refine ne_head_of_mem_tail _ ?_ hx
  have := h.nodup
  grind

/-- The first behind the place is none of those before it. -/
theorem ne_first_of_pre {x : ℕ} (hx : x ∈ pre) : x ≠ n := by
  have := h.first_mem
  have := h.nodup
  grind

end Gap

theorem ListRing.gap {m : Heads} {head : ℕ} {pre post : List ℕ} (h : ListRing m head (pre ++ post)) :
    ∃ p n, Gap head pre post p n ∧ Segment m head pre n ∧ Segment m p post head := by
  obtain ⟨hpre, hpost⟩ := (segment_halves pre).mp h.segment
  exact ⟨_, _, ⟨rfl, rfl, h.nodup⟩, hpre, hpost⟩

theorem ListRing.isSome {m : Heads} {head x : ℕ} {l : List ℕ} (h : ListRing m head l) (hx : x ∈ head :: l) :
    (m x).isSome = true := Option.isSome_iff_exists.mpr (h.live hx)

/-- The head of a ring knows the first and the last entry. -/
theorem ListRing.head_eq {m : Heads} {head : ℕ} {l : List ℕ} (h : ListRing m head l) :
    ∃ hd, m head = some hd ∧ hd.next = (l ++ [head]).head (by simp) ∧ hd.prev = (head :: l).getLast (by simp) := by
  obtain ⟨hd, hm⟩ := h.live (List.mem_cons_self)
  have hnext := h.segment.first
  have hprev := h.segment.last
  rw [nextOf, hm] at hnext
  rw [prevOf, hm] at hprev
  exact ⟨hd, hm, Option.some.inj hnext, Option.some.inj hprev⟩

/-- An entry of a ring knows the one before it and the one behind it. -/
theorem ListRing.entry_eq {m : Heads} {head a : ℕ} {pre post : List ℕ} (h : ListRing m head (pre ++ a :: post)) :
    ∃ hd, m a = some hd ∧ hd.next = (post ++ [head]).head (by simp) ∧ hd.prev = (head :: pre).getLast (by simp) := by
  obtain ⟨hpre, hpost⟩ := (segment_append pre).mp h.segment
  obtain ⟨hd, hm⟩ := h.live (show a ∈ head :: (pre ++ a :: post) by simp)
  have hnext := hpost.first
  have hprev := hpre.last
  rw [nextOf, hm] at hnext
  rw [prevOf, hm] at hprev
  exact ⟨hd, hm, Option.some.inj hnext, Option.some.inj hprev⟩

/-- A ring seen from one of its entries, which is the head then. -/
theorem ListRing.turn {m : Heads} {head a : ℕ} {pre post : List ℕ} (h : ListRing m head (pre ++ a :: post)) :
    ListRing m a (post ++ head :: pre) := by
  obtain ⟨hpre, hpost⟩ := (segment_append pre).mp h.segment
  refine ⟨(segment_append post).mpr ⟨hpost, hpre⟩, ?_⟩
  have := h.nodup
  grind

/-! ### What the operations do to a ring -/

/-- What `INIT_LIST_HEAD` makes of a head. -/
theorem initListHead_ring {m : Heads} {list : ℕ} (hlist : (m list).isSome = true) :
    ∃ m', initListHead m list = .ok m' ∧ Edited m m' [list] ∧ ListRing m' list [] := by
  obtain ⟨m₁, h₁, hw₁⟩ := modifyHead_next hlist list
  obtain ⟨m₂, h₂, hw₂⟩ := modifyHead_prev ((hw₁.live _).trans hlist) list
  refine ⟨m₂, ?_, ⟨fun x => ?_, fun x hx => ?_, fun x hx => ?_⟩, ⟨⟨?_, ?_⟩, by simp⟩⟩
  · unfold initListHead
    simp only [h₁, ok_bind, h₂]
  · rw [hw₂.live, hw₁.live]
  · rw [hw₂.next, hw₁.next, if_neg (by simpa using hx)]
  · rw [hw₂.prev, if_neg (by simpa using hx), hw₁.prev]
  · rw [hw₂.next, hw₁.next, if_pos rfl]
  · rw [hw₂.prev, if_pos rfl]

/-- What is written at other addresses leaves the links at these as they were. -/
theorem Writes.edited {m m' : Heads} {next prev : ℕ → Option ℕ} {t : List ℕ} (h : Writes m m' next prev)
    (hnext : ∀ x, x ∉ t → next x = nextOf m x) (hprev : ∀ x, x ∉ t → prev x = prevOf m x) : Edited m m' t :=
  ⟨h.live, fun x hx => (h.next x).trans (hnext x hx), fun x hx => (h.prev x).trans (hprev x hx)⟩

/-- What `__list_add` writes. -/
theorem listAddBetween_writes {m : Heads} {new prev next : ℕ} (hnew : (m new).isSome = true)
    (hp : (m prev).isSome = true) (hn : (m next).isSome = true) :
    ∃ m', listAddBetween m new prev next = .ok m' ∧
      Writes m m' (fun x => if x = prev then some new else if x = new then some next else nextOf m x)
        (fun x => if x = new then some prev else if x = next then some new else prevOf m x) := by
  obtain ⟨m₁, h₁, hw₁⟩ := modifyHead_prev hn new
  have hlive₁ := (hw₁.live new).trans hnew
  obtain ⟨m₂, h₂, hw₂⟩ := modifyHead_next hlive₁ next
  have hlive₂ := (hw₂.live new).trans hlive₁
  obtain ⟨m₃, h₃, hw₃⟩ := modifyHead_prev hlive₂ prev
  have hlive (x : ℕ) : (m₃ x).isSome = (m x).isSome := by rw [hw₃.live, hw₂.live, hw₁.live]
  obtain ⟨m₄, h₄, hw₄⟩ := modifyHead_next ((hlive prev).trans hp) new
  refine ⟨m₄, ?_, fun x => (hw₄.live x).trans (hlive x), fun x => ?_, fun x => ?_⟩
  · unfold listAddBetween
    simp only [h₁, h₂, h₃, h₄, ok_bind]
  · rw [hw₄.next, hw₃.next, hw₂.next, hw₁.next]
  · rw [hw₄.prev, hw₃.prev, hw₂.prev, hw₁.prev]

/-- A new entry between what comes before a place and what comes behind it: its links lead there, and
theirs lead to it. -/
theorem Gap.tieIn {m m' : Heads} {head new p n a b : ℕ} {pre post : List ℕ} (hg : Gap head pre post p n)
    (hpre : Segment m head pre a) (hpost : Segment m b post head) (hfree : new ∉ head :: (pre ++ post))
    (hw : Writes m m' (fun x => if x = p then some new else if x = new then some n else nextOf m x)
      (fun x => if x = new then some p else if x = n then some new else prevOf m x)) :
    Edited m m' (new :: head :: (pre ++ post)) ∧ ListRing m' head (pre ++ new :: post) := by
  have hne {x : ℕ} (hx : x ∈ head :: (pre ++ post)) : x ≠ new := fun heq => hfree (heq ▸ hx)
  refine ⟨hw.edited (fun x hx => ?_) (fun x hx => ?_), ?_, ?_⟩
  · rw [List.mem_cons, not_or] at hx
    rw [if_neg (ne_of_mem_of_not_mem hg.last_mem_ring hx.2).symm, if_neg hx.1]
  · rw [List.mem_cons, not_or] at hx
    rw [if_neg hx.1, if_neg (ne_of_mem_of_not_mem hg.first_mem_ring hx.2).symm]
  · refine (segment_append pre).mpr ⟨hpre.relast (fun x hx => ?_) (fun x hx => ?_) ?_, ?_⟩
    · rw [hw.next, if_neg (hg.ne_last hx), if_neg (hne (by have := List.mem_of_mem_dropLast hx; grind))]
    · rw [hw.prev, if_neg (hne (by simp [hx])), if_neg (hg.ne_first_of_pre hx)]
    · rw [← hg.last]
      exact ⟨by rw [hw.next, if_pos rfl], by rw [hw.prev, if_pos rfl]⟩
    · refine hpost.refirst (fun x hx => ?_) (fun x hx => ?_) ?_
      · rw [hw.next, if_neg (hg.ne_last_of_post hx), if_neg (hne (by simp [hx]))]
      · rw [hw.prev, if_neg (hne (by have := List.mem_of_mem_tail hx; grind)), if_neg (hg.ne_first hx)]
      · rw [← hg.first]
        refine ⟨by rw [hw.next, if_neg (hne hg.last_mem_ring).symm, if_pos rfl], ?_⟩
        rw [hw.prev, if_neg (hne hg.first_mem_ring), if_pos rfl]
  · have := hg.nodup
    grind

/-- **`__list_add` ties a new entry in** at a place of a ring. -/
theorem ListRing.insert {m : Heads} {head new p n : ℕ} {pre post : List ℕ} (h : ListRing m head (pre ++ post))
    (hg : Gap head pre post p n) (hnew : (m new).isSome = true) (hfree : new ∉ head :: (pre ++ post)) :
    ∃ m', listAddBetween m new p n = .ok m' ∧ Edited m m' (new :: head :: (pre ++ post)) ∧
      ListRing m' head (pre ++ new :: post) := by
  obtain ⟨hpre, hpost⟩ := (segment_halves pre).mp h.segment
  obtain ⟨m', hok, hw⟩ := listAddBetween_writes hnew (h.isSome hg.last_mem_ring) (h.isSome hg.first_mem_ring)
  exact ⟨m', hok, hg.tieIn hpre hpost hfree hw⟩

/-- `list_add_tail` before an entry, or before the head. -/
theorem ListRing.addTail {m : Heads} {head new : ℕ} {pre post : List ℕ} (h : ListRing m head (pre ++ post))
    (hnew : (m new).isSome = true) (hfree : new ∉ head :: (pre ++ post)) :
    ∃ m', listAddTail m new ((post ++ [head]).head (by simp)) = .ok m' ∧ (∀ x, (m' x).isSome = (m x).isSome) ∧
      ListRing m' head (pre ++ new :: post) := by
  obtain ⟨p, n, hg, hpre, -⟩ := h.gap
  obtain ⟨hd, hn⟩ := h.live hg.first_mem_ring
  have hprev : hd.prev = p := by
    have := hpre.last
    rwa [prevOf, hn, Option.map_some, Option.some.injEq, ← hg.last] at this
  obtain ⟨m', hok, he, hr⟩ := h.insert hg hnew hfree
  refine ⟨m', ?_, he.live, hr⟩
  unfold listAddTail
  rw [← hg.first]
  simp only [headAt_eq_ok.mpr hn, ok_bind, hprev]
  exact hok

/-- A ring where only what is in no link of it was allocated, given back or written to. -/
theorem ListRing.congr {m m' : Heads} {head : ℕ} {l : List ℕ} (h : ListRing m head l)
    (hm : ∀ x ∈ head :: l, m' x = m x) : ListRing m' head l := by
  refine ⟨h.segment.frame (fun x hx => ?_) (fun x hx => ?_), h.nodup⟩
  · rw [nextOf, hm x hx, nextOf]
  · rw [prevOf, hm x (by simpa [or_comm] using hx), prevOf]

/-- **`__list_del` cuts an entry out**; its own links stay as they are. -/
theorem ListRing.unlink {m : Heads} {head a p n : ℕ} {pre post : List ℕ} (h : ListRing m head (pre ++ a :: post))
    (hg : Gap head pre post p n) :
    ∃ m', listDelBetween m p n = .ok m' ∧ Edited m m' (head :: (pre ++ post)) ∧ ListRing m' head (pre ++ post) := by
  obtain ⟨hpre, hpost⟩ := (segment_append pre).mp h.segment
  have hlive {x : ℕ} (hx : x ∈ head :: (pre ++ post)) : (m x).isSome = true := h.isSome (by grind)
  obtain ⟨m₁, h₁, hw₁⟩ := modifyHead_prev (hlive hg.first_mem_ring) p
  obtain ⟨m', h₂, hw₂⟩ := modifyHead_next ((hw₁.live p).trans (hlive hg.last_mem_ring)) n
  have hw : Writes m m' (fun x => if x = p then some n else nextOf m x)
      (fun x => if x = n then some p else prevOf m x) :=
    ⟨fun x => (hw₂.live x).trans (hw₁.live x), fun x => by rw [hw₂.next, hw₁.next],
      fun x => by rw [hw₂.prev, hw₁.prev]⟩
  refine ⟨m', ?_, hw.edited (fun x hx => ?_) (fun x hx => ?_), (segment_halves pre).mpr ⟨?_, ?_⟩, hg.nodup⟩
  · unfold listDelBetween
    simp only [h₁, h₂, ok_bind]
  · rw [if_neg (ne_of_mem_of_not_mem hg.last_mem_ring hx).symm]
  · rw [if_neg (ne_of_mem_of_not_mem hg.first_mem_ring hx).symm]
  · rw [← hg.first]
    refine hpre.relast (fun x hx => ?_) (fun x hx => ?_) ?_
    · rw [hw.next, if_neg (hg.ne_last hx)]
    · rw [hw.prev, if_neg (hg.ne_first_of_pre hx)]
    · rw [← hg.last]
      exact ⟨by rw [hw.next, if_pos rfl], by rw [hw.prev, if_pos rfl]⟩
  · rw [← hg.last]
    refine hpost.refirst (fun x hx => ?_) (fun x hx => ?_) ?_
    · rw [hw.next, if_neg (hg.ne_last_of_post hx)]
    · rw [hw.prev, if_neg (hg.ne_first hx)]
    · rw [← hg.first]
      exact ⟨by rw [hw.next, if_pos rfl], by rw [hw.prev, if_pos rfl]⟩

/-- What `list_replace` writes. What it reads again is what it read, or wrote, before. -/
theorem listReplace_writes {m : Heads} {old new : ℕ} {h : ListHead} (hold : m old = some h)
    (hnew : (m new).isSome = true) (hp : (m h.prev).isSome = true) (hn : (m h.next).isSome = true)
    (hne : old ≠ h.next) : ∃ m', listReplace m old new = .ok m' ∧
      Writes m m' (fun x => if x = h.prev then some new else if x = new then some h.next else nextOf m x)
        (fun x => if x = new then some h.prev else if x = h.next then some new else prevOf m x) := by
  obtain ⟨m₁, h₁, hw₁⟩ := modifyHead_next hnew h.next
  obtain ⟨n₁, hn₁⟩ := Option.isSome_iff_exists.mp ((hw₁.live new).trans hnew)
  have hnext₁ : n₁.next = h.next := by
    have := hw₁.next new
    rwa [if_pos rfl, nextOf, hn₁, Option.map_some, Option.some.injEq] at this
  obtain ⟨m₂, h₂, hw₂⟩ := modifyHead_prev ((hw₁.live _).trans hn) new
  have hlive₂ (x : ℕ) : (m₂ x).isSome = (m x).isSome := by rw [hw₂.live, hw₁.live]
  obtain ⟨o₂, ho₂⟩ := Option.isSome_iff_exists.mp ((hlive₂ old).trans (by rw [hold, Option.isSome_some]))
  have hprev₂ : o₂.prev = h.prev := by
    have := hw₂.prev old
    rw [if_neg hne, hw₁.prev, prevOf, prevOf, ho₂, hold] at this
    exact Option.some.inj this
  obtain ⟨m₃, h₃, hw₃⟩ := modifyHead_prev ((hlive₂ new).trans hnew) h.prev
  have hlive₃ (x : ℕ) : (m₃ x).isSome = (m x).isSome := by rw [hw₃.live, hlive₂]
  obtain ⟨n₃, hn₃⟩ := Option.isSome_iff_exists.mp ((hlive₃ new).trans hnew)
  have hprev₃ : n₃.prev = h.prev := by
    have := hw₃.prev new
    rwa [if_pos rfl, prevOf, hn₃, Option.map_some, Option.some.injEq] at this
  obtain ⟨m', h₄, hw₄⟩ := modifyHead_next ((hlive₃ _).trans hp) new
  refine ⟨m', ?_, fun x => (hw₄.live x).trans (hlive₃ x), fun x => ?_, fun x => ?_⟩
  · unfold listReplace
    simp only [headAt_eq_ok.mpr hold, headAt_eq_ok.mpr hn₁, headAt_eq_ok.mpr ho₂, headAt_eq_ok.mpr hn₃, ok_bind, h₁,
      hnext₁, h₂, hprev₂, h₃, hprev₃, h₄]
  · rw [hw₄.next, hw₃.next, hw₂.next, hw₁.next]
  · rw [hw₄.prev, hw₃.prev, hw₂.prev, hw₁.prev]

/-- **`list_replace` puts a new entry in the place of an old one.** -/
theorem ListRing.replace {m : Heads} {head old new : ℕ} {pre post : List ℕ} (h : ListRing m head (pre ++ old :: post))
    (hnew : (m new).isSome = true) (hfree : new ∉ head :: (pre ++ post)) :
    ∃ m', listReplace m old new = .ok m' ∧ Edited m m' (new :: head :: (pre ++ post)) ∧
      ListRing m' head (pre ++ new :: post) := by
  obtain ⟨hpre, hpost⟩ := (segment_append pre).mp h.segment
  obtain ⟨hd, hold, hnext, hprev⟩ := h.entry_eq
  have hg : Gap head pre post hd.prev hd.next := ⟨hprev, hnext, by have := h.nodup; grind⟩
  have hlive {x : ℕ} (hx : x ∈ head :: (pre ++ post)) : (m x).isSome = true := h.isSome (by grind)
  have hne : old ≠ hd.next := by
    have := hg.first_mem
    have := h.nodup
    grind
  obtain ⟨m', hok, hw⟩ := listReplace_writes hold hnew (hlive hg.last_mem_ring) (hlive hg.first_mem_ring) hne
  exact ⟨m', hok, hg.tieIn hpre hpost hfree hw⟩

/-- **`list_replace` overwrites a head without entries**: what takes its place is one, too. -/
theorem ListRing.replaceEmpty {m : Heads} {old new : ℕ} (h : ListRing m old []) (hnew : (m new).isSome = true) :
    ∃ m', listReplace m old new = .ok m' ∧ Edited m m' [new, old] ∧ ListRing m' new [] := by
  obtain ⟨hd, hold, hnext, -⟩ := h.head_eq
  replace hnext : hd.next = old := hnext
  obtain ⟨m₁, h₁, hw₁⟩ := modifyHead_next hnew old
  obtain ⟨n₁, hn₁⟩ := Option.isSome_iff_exists.mp ((hw₁.live new).trans hnew)
  have hnext₁ : n₁.next = old := by
    have := hw₁.next new
    rwa [if_pos rfl, nextOf, hn₁, Option.map_some, Option.some.injEq] at this
  obtain ⟨m₂, h₂, hw₂⟩ := modifyHead_prev ((hw₁.live old).trans (h.isSome List.mem_cons_self)) new
  have hlive₂ (x : ℕ) : (m₂ x).isSome = (m x).isSome := by rw [hw₂.live, hw₁.live]
  obtain ⟨o₂, ho₂⟩ := Option.isSome_iff_exists.mp ((hlive₂ old).trans (h.isSome List.mem_cons_self))
  -- the link that is read here was written one step before
  have hprev₂ : o₂.prev = new := by
    have := hw₂.prev old
    rwa [if_pos rfl, prevOf, ho₂, Option.map_some, Option.some.injEq] at this
  obtain ⟨m₃, h₃, hw₃⟩ := modifyHead_prev ((hlive₂ new).trans hnew) new
  have hlive₃ (x : ℕ) : (m₃ x).isSome = (m x).isSome := by rw [hw₃.live, hlive₂]
  obtain ⟨n₃, hn₃⟩ := Option.isSome_iff_exists.mp ((hlive₃ new).trans hnew)
  have hprev₃ : n₃.prev = new := by
    have := hw₃.prev new
    rwa [if_pos rfl, prevOf, hn₃, Option.map_some, Option.some.injEq] at this
  obtain ⟨m', h₄, hw₄⟩ := modifyHead_next ((hlive₃ new).trans hnew) new
  refine ⟨m', ?_, ⟨fun x => (hw₄.live x).trans (hlive₃ x), fun x hx => ?_, fun x hx => ?_⟩, ⟨⟨?_, ?_⟩, by simp⟩⟩
  · unfold listReplace
    simp only [headAt_eq_ok.mpr hold, headAt_eq_ok.mpr hn₁, headAt_eq_ok.mpr ho₂, headAt_eq_ok.mpr hn₃, ok_bind, hnext,
      h₁, hnext₁, h₂, hprev₂, h₃, hprev₃, h₄]
  · rw [hw₄.next, hw₃.next, hw₂.next, hw₁.next, if_neg (by grind), if_neg (by grind)]
  · rw [hw₄.prev, hw₃.prev, hw₂.prev, hw₁.prev, if_neg (by grind), if_neg (by grind)]
  · rw [hw₄.next, if_pos rfl]
  · rw [hw₄.prev, hw₃.prev, if_pos rfl]

/-- What `__list_splice` writes. -/
theorem listSpliceBetween_writes {m : Heads} {list prev next : ℕ} {h : ListHead} (hlist : m list = some h)
    (hfirst : (m h.next).isSome = true) (hlast : (m h.prev).isSome = true) (hp : (m prev).isSome = true)
    (hn : (m next).isSome = true) : ∃ m', listSpliceBetween m list prev next = .ok m' ∧
      Writes m m' (fun x => if x = h.prev then some next else if x = prev then some h.next else nextOf m x)
        (fun x => if x = next then some h.prev else if x = h.next then some prev else prevOf m x) := by
  obtain ⟨m₁, h₁, hw₁⟩ := modifyHead_prev hfirst prev
  obtain ⟨m₂, h₂, hw₂⟩ := modifyHead_next ((hw₁.live prev).trans hp) h.next
  have hlive₂ (x : ℕ) : (m₂ x).isSome = (m x).isSome := by rw [hw₂.live, hw₁.live]
  obtain ⟨m₃, h₃, hw₃⟩ := modifyHead_next ((hlive₂ _).trans hlast) next
  have hlive₃ (x : ℕ) : (m₃ x).isSome = (m x).isSome := by rw [hw₃.live, hlive₂]
  obtain ⟨m', h₄, hw₄⟩ := modifyHead_prev ((hlive₃ next).trans hn) h.prev
  refine ⟨m', ?_, fun x => (hw₄.live x).trans (hlive₃ x), fun x => ?_, fun x => ?_⟩
  · unfold listSpliceBetween
    simp only [headAt_eq_ok.mpr hlist, ok_bind, h₁, h₂, h₃, h₄]
  · rw [hw₄.next, hw₃.next, hw₂.next, hw₁.next]
  · rw [hw₄.prev, hw₃.prev, hw₂.prev, hw₁.prev]

/-- **`__list_splice` ties the entries of a ring in** at a place of another one; the head that they come from
still leads to them. -/
theorem ListRing.splice {m : Heads} {list head p n : ℕ} {l pre post : List ℕ} (h : ListRing m head (pre ++ post))
    (hg : Gap head pre post p n) (hl : ListRing m list l) (hne : l ≠ [])
    (hdisj : ∀ x ∈ l, x ∉ head :: (pre ++ post)) :
    ∃ m', listSpliceBetween m list p n = .ok m' ∧ Edited m m' (l ++ head :: (pre ++ post)) ∧
      ListRing m' head (pre ++ (l ++ post)) := by
  obtain ⟨hpre, hpost⟩ := (segment_halves pre).mp h.segment
  rw [← hg.first] at hpre
  rw [← hg.last] at hpost
  obtain ⟨hd, hlist, hfirst, hlast⟩ := hl.head_eq
  have hfirst : hd.next = l.head hne := by rw [hfirst, List.head_append_of_ne_nil]
  have hlast : hd.prev = l.getLast hne := by rw [hlast, List.getLast_cons hne]
  have hnodup : l.Nodup := (List.nodup_cons.mp hl.nodup).2
  have hf : hd.next ∈ l := hfirst ▸ List.head_mem _
  have he : hd.prev ∈ l := hlast ▸ List.getLast_mem _
  have hout {x y : ℕ} (hx : x ∈ head :: (pre ++ post)) (hy : y ∈ l) : x ≠ y := fun heq => hdisj y hy (heq ▸ hx)
  obtain ⟨m', hok, hw⟩ := listSpliceBetween_writes hlist (hl.isSome (List.mem_cons_of_mem _ hf))
    (hl.isSome (List.mem_cons_of_mem _ he)) (h.isSome hg.last_mem_ring) (h.isSome hg.first_mem_ring)
  refine ⟨m', hok, hw.edited (fun x hx => ?_) (fun x hx => ?_), ?_, ?_⟩
  · rw [List.mem_append, not_or] at hx
    rw [if_neg (ne_of_mem_of_not_mem he hx.1).symm, if_neg (ne_of_mem_of_not_mem hg.last_mem_ring hx.2).symm]
  · rw [List.mem_append, not_or] at hx
    rw [if_neg (ne_of_mem_of_not_mem hg.first_mem_ring hx.2).symm, if_neg (ne_of_mem_of_not_mem hf hx.1).symm]
  · -- what comes before the place, the entries that are tied in, and what comes behind
    have hhead : ((l ++ post) ++ [head]).head (by simp) = hd.next := by simp [hfirst, hne]
    refine (segment_halves pre).mpr ⟨?_, (segment_halves l).mpr ⟨?_, ?_⟩⟩
    · rw [hhead]
      refine hpre.relast (fun x hx => ?_) (fun x hx => ?_) ?_
      · rw [hw.next, if_neg (hout (by have := List.mem_of_mem_dropLast hx; grind) he), if_neg (hg.ne_last hx)]
      · rw [hw.prev, if_neg (hg.ne_first_of_pre hx), if_neg (hout (by simp [hx]) hf)]
      · rw [← hg.last]
        refine ⟨by rw [hw.next, if_neg (hout hg.last_mem_ring he), if_pos rfl], ?_⟩
        rw [hw.prev, if_neg (hout hg.first_mem_ring hf).symm, if_pos rfl]
    · rw [← hg.first, ← hg.last]
      refine hl.segment.reends hne (fun x hx => ?_) (fun x hx => ?_) ?_ ?_
      · rw [hw.next, if_neg (hlast ▸ ne_getLast_of_mem_dropLast hne hnodup hx),
          if_neg (hout hg.last_mem_ring (List.mem_of_mem_dropLast hx)).symm]
      · rw [hw.prev, if_neg (hout hg.first_mem_ring (List.mem_of_mem_tail hx)).symm,
          if_neg (hfirst ▸ ne_head_of_mem_tail hne hnodup hx)]
      · rw [← hfirst]
        refine ⟨by rw [hw.next, if_neg (hout hg.last_mem_ring he), if_pos rfl], ?_⟩
        rw [hw.prev, if_neg (hout hg.first_mem_ring hf).symm, if_pos rfl]
      · rw [← hlast]
        exact ⟨by rw [hw.next, if_pos rfl], by rw [hw.prev, if_pos rfl]⟩
    · rw [List.getLast_cons hne, ← hlast]
      refine hpost.refirst (fun x hx => ?_) (fun x hx => ?_) ?_
      · rw [hw.next, if_neg (hout (by simp [hx]) he), if_neg (hg.ne_last_of_post hx)]
      · rw [hw.prev, if_neg (hg.ne_first hx), if_neg (hout (by have := List.mem_of_mem_tail hx; grind) hf)]
      · rw [← hg.first]
        exact ⟨by rw [hw.next, if_pos rfl], by rw [hw.prev, if_pos rfl]⟩
  · have := h.nodup
    grind

/-- What `__list_cut_position` writes. -/
theorem listCutPositionAt_writes {m : Heads} {list head entry : ℕ} {e h : ListHead} (hentry : m entry = some e)
    (hhead : m head = some h) (hlist : (m list).isSome = true) (hf : (m h.next).isSome = true)
    (hn : (m e.next).isSome = true) :
    ∃ m', listCutPositionAt m list head entry = .ok m' ∧
      Writes m m' (fun x => if x = head then some e.next else if x = entry then some list
          else if x = list then some h.next else nextOf m x)
        (fun x => if x = e.next then some head else if x = list then some entry
          else if x = h.next then some list else prevOf m x) := by
  obtain ⟨m₁, h₁, hw₁⟩ := modifyHead_next hlist h.next
  obtain ⟨l₁, hl₁⟩ := Option.isSome_iff_exists.mp ((hw₁.live list).trans hlist)
  have hnext₁ : l₁.next = h.next := by
    have := hw₁.next list
    rwa [if_pos rfl, nextOf, hl₁, Option.map_some, Option.some.injEq] at this
  obtain ⟨m₂, h₂, hw₂⟩ := modifyHead_prev ((hw₁.live _).trans hf) list
  have hlive₂ (x : ℕ) : (m₂ x).isSome = (m x).isSome := by rw [hw₂.live, hw₁.live]
  obtain ⟨m₃, h₃, hw₃⟩ := modifyHead_prev ((hlive₂ list).trans hlist) entry
  have hlive₃ (x : ℕ) : (m₃ x).isSome = (m x).isSome := by rw [hw₃.live, hlive₂]
  obtain ⟨m₄, h₄, hw₄⟩ := modifyHead_next ((hlive₃ entry).trans (by rw [hentry, Option.isSome_some])) list
  have hlive₄ (x : ℕ) : (m₄ x).isSome = (m x).isSome := by rw [hw₄.live, hlive₃]
  obtain ⟨m₅, h₅, hw₅⟩ := modifyHead_next ((hlive₄ head).trans (by rw [hhead, Option.isSome_some])) e.next
  have hlive₅ (x : ℕ) : (m₅ x).isSome = (m x).isSome := by rw [hw₅.live, hlive₄]
  obtain ⟨m', h₆, hw₆⟩ := modifyHead_prev ((hlive₅ e.next).trans hn) head
  refine ⟨m', ?_, fun x => (hw₆.live x).trans (hlive₅ x), fun x => ?_, fun x => ?_⟩
  · unfold listCutPositionAt
    simp only [headAt_eq_ok.mpr hentry, headAt_eq_ok.mpr hhead, headAt_eq_ok.mpr hl₁, ok_bind, h₁, hnext₁, h₂, h₃, h₄,
      h₅, h₆]
  · rw [hw₆.next, hw₅.next, hw₄.next, hw₃.next, hw₂.next, hw₁.next]
  · rw [hw₆.prev, hw₅.prev, hw₄.prev, hw₃.prev, hw₂.prev, hw₁.prev]

/-- **`__list_cut_position` ties the first entries of a ring to a head of their own.** -/
theorem ListRing.cutPosition {m : Heads} {list head : ℕ} {l rest : List ℕ} (h : ListRing m head (l ++ rest))
    (hne : l ≠ []) (hlist : (m list).isSome = true) (hfree : list ∉ head :: (l ++ rest)) :
    ∃ m', listCutPositionAt m list head (l.getLast hne) = .ok m' ∧ Edited m m' (list :: head :: (l ++ rest)) ∧
      ListRing m' list l ∧ ListRing m' head rest := by
  obtain ⟨hl, hrest⟩ := (segment_halves l).mp h.segment
  rw [List.getLast_cons hne] at hrest
  obtain ⟨hd, hhead, hfirst, -⟩ := h.head_eq
  have hfirst : hd.next = l.head hne := by rw [hfirst]; simp [hne]
  have he : l.getLast hne ∈ l := List.getLast_mem hne
  obtain ⟨en, hentry⟩ := h.live (List.mem_cons_of_mem _ (List.mem_append_left _ he))
  have hn : en.next = (rest ++ [head]).head (by simp) := by
    have := hrest.first
    rwa [nextOf, hentry, Option.map_some, Option.some.injEq] at this
  have hnmem : en.next ∈ rest ++ [head] := hn ▸ List.head_mem _
  have hfmem : hd.next ∈ l := hfirst ▸ List.head_mem _
  have hnodup := h.nodup
  have hfl : list ≠ hd.next := by grind
  have hnl : list ≠ en.next := by grind
  obtain ⟨m', hok, hw⟩ := listCutPositionAt_writes hentry hhead hlist (h.isSome (by grind)) (h.isSome (by grind))
  refine ⟨m', hok, hw.edited (fun x hx => ?_) (fun x hx => ?_), ⟨?_, by grind⟩, ⟨?_, by grind⟩⟩
  · rw [if_neg (by grind), if_neg (by grind), if_neg (by grind)]
  · rw [if_neg (by grind), if_neg (by grind), if_neg (by grind)]
  · refine hl.reends hne (fun x hx => ?_) (fun x hx => ?_) ?_ ?_
    · have hxl : x ∈ l := List.mem_of_mem_dropLast hx
      rw [hw.next, if_neg (by grind), if_neg (ne_getLast_of_mem_dropLast hne (by grind) hx), if_neg (by grind)]
    · have hxl : x ∈ l := List.mem_of_mem_tail hx
      rw [hw.prev, if_neg (by grind), if_neg (by grind), if_neg (hfirst ▸ ne_head_of_mem_tail hne (by grind) hx)]
    · rw [← hfirst]
      refine ⟨by rw [hw.next, if_neg (by grind), if_neg (by grind), if_pos rfl], ?_⟩
      rw [hw.prev, if_neg (by grind), if_neg hfl.symm, if_pos rfl]
    · refine ⟨by rw [hw.next, if_neg (by grind), if_pos rfl], ?_⟩
      rw [hw.prev, if_neg hnl, if_pos rfl]
  · refine hrest.refirst (fun x hx => ?_) (fun x hx => ?_) ?_
    · rw [hw.next, if_neg (by grind), if_neg (by grind), if_neg (by grind)]
    · have hxr : x ∈ rest ++ [head] := List.mem_of_mem_tail hx
      rw [hw.prev, if_neg (hn ▸ ne_head_of_mem_tail (by simp) (by grind) hx), if_neg (by grind), if_neg (by grind)]
    · rw [← hn]
      exact ⟨by rw [hw.next, if_pos rfl], by rw [hw.prev, if_pos rfl]⟩

/-! ### Walks over a ring that stays as it is -/

section

variable {σ : Type} (m : Heads) (head : ℕ)

/-- The loop of `list_for_each` from an entry on. -/
def forEachFrom (body : σ → ℕ → Except Fault σ) : ℕ → σ → ℕ → Except Fault σ
  | fuel, s, pos =>
    if pos = head then pure s
    else match fuel with
      | 0 => .error .fuel
      | fuel + 1 => do
        let s ← body s pos
        let h ← headAt m pos
        forEachFrom body fuel s h.next

/-- `list_for_each` and `list_for_each_entry`, with a body that changes no links. -/
def listForEach (body : σ → ℕ → Except Fault σ) (fuel : ℕ) (s : σ) : Except Fault σ := do
  let h ← headAt m head
  forEachFrom m head body fuel s h.next

/-- The loop of `list_for_each_prev` from an entry on. -/
def forEachPrevFrom (body : σ → ℕ → Except Fault σ) : ℕ → σ → ℕ → Except Fault σ
  | fuel, s, pos =>
    if pos = head then pure s
    else match fuel with
      | 0 => .error .fuel
      | fuel + 1 => do
        let s ← body s pos
        let h ← headAt m pos
        forEachPrevFrom body fuel s h.prev

/-- `list_for_each_prev`, with a body that changes no links. -/
def listForEachPrev (body : σ → ℕ → Except Fault σ) (fuel : ℕ) (s : σ) : Except Fault σ := do
  let h ← headAt m head
  forEachPrevFrom m head body fuel s h.prev

/-- A loop of `list_for_each` that returns at the first entry it looks for, from an entry on. -/
def findFrom (test : ℕ → Except Fault Bool) : ℕ → ℕ → Except Fault (Option ℕ)
  | fuel, pos =>
    if pos = head then pure none
    else match fuel with
      | 0 => .error .fuel
      | fuel + 1 => do
        if ← test pos then pure (some pos)
        else
          let h ← headAt m pos
          findFrom test fuel h.next

/-- `list_for_each` with a `return` at the first entry that is looked for. -/
def listFind (test : ℕ → Except Fault Bool) (fuel : ℕ) : Except Fault (Option ℕ) := do
  let h ← headAt m head
  findFrom m head test fuel h.next

variable {m head}

/-- The entry a walk is at, and what it knows as the next one. -/
theorem ListRing.at {done rest : List ℕ} {a : ℕ} (h : ListRing m head (done ++ a :: rest)) :
    a ≠ head ∧ ∃ hd, headAt m a = .ok hd ∧ hd.next = (rest ++ [head]).head (by simp) ∧
      hd.prev = (head :: done).getLast (by simp) := by
  obtain ⟨hd, ha, hnext, hprev⟩ := h.entry_eq
  exact ⟨by have := h.nodup; grind, hd, headAt_eq_ok.mpr ha, hnext, hprev⟩

theorem forEachFrom_eq (body : σ → ℕ → Except Fault σ) (rest : List ℕ) : ∀ {done : List ℕ} {s : σ} {fuel pos : ℕ},
    ListRing m head (done ++ rest) → rest.length ≤ fuel → pos = (rest ++ [head]).head (by simp) →
      forEachFrom m head body fuel s pos = rest.foldlM body s := by
  induction rest with
  | nil =>
    intro done s fuel pos _ _ hpos
    cases fuel <;> simp [forEachFrom, hpos]
  | cons a rest ih =>
    intro done s fuel pos h hfuel hpos
    obtain ⟨fuel, rfl⟩ := Nat.exists_eq_add_one.mpr (Nat.lt_of_lt_of_le (Nat.succ_pos _) hfuel)
    obtain rfl : pos = a := hpos
    obtain ⟨hne, hd, hhead, hnext, -⟩ := h.at
    rw [forEachFrom, if_neg hne, List.foldlM_cons]
    refine congrArg _ (funext fun s' => ?_)
    simp only [hhead, ok_bind]
    refine @ih (done ++ [pos]) s' fuel hd.next ?_ (by simpa using hfuel) hnext
    rwa [List.append_assoc, List.singleton_append]

/-- **A walk over a ring is a walk over the list** of its entries. -/
theorem listForEach_eq {l : List ℕ} (h : ListRing m head l) (body : σ → ℕ → Except Fault σ) {fuel : ℕ}
    (hfuel : l.length ≤ fuel) (s : σ) : listForEach m head body fuel s = l.foldlM body s := by
  obtain ⟨hd, hhead, hnext, -⟩ := h.head_eq
  unfold listForEach
  simp only [headAt_eq_ok.mpr hhead, ok_bind]
  exact @forEachFrom_eq _ _ _ body l [] _ _ _ h hfuel hnext

theorem forEachPrevFrom_eq (body : σ → ℕ → Except Fault σ) (rest : List ℕ) : ∀ {done : List ℕ} {s : σ} {fuel pos : ℕ},
    ListRing m head (rest.reverse ++ done) → rest.length ≤ fuel → pos = (rest ++ [head]).head (by simp) →
      forEachPrevFrom m head body fuel s pos = rest.foldlM body s := by
  induction rest with
  | nil =>
    intro done s fuel pos _ _ hpos
    cases fuel <;> simp [forEachPrevFrom, hpos]
  | cons a rest ih =>
    intro done s fuel pos h hfuel hpos
    obtain ⟨fuel, rfl⟩ := Nat.exists_eq_add_one.mpr (Nat.lt_of_lt_of_le (Nat.succ_pos _) hfuel)
    obtain rfl : pos = a := hpos
    rw [List.reverse_cons, List.append_assoc, List.singleton_append] at h
    obtain ⟨hne, hd, hhead, -, hprev⟩ := h.at
    have hlast : (head :: rest.reverse).getLast (by simp) = (rest ++ [head]).head (by simp) := by
      rw [List.getLast_eq_head_reverse]
      simp
    rw [forEachPrevFrom, if_neg hne, List.foldlM_cons]
    refine congrArg _ (funext fun s' => ?_)
    simp only [hhead, ok_bind]
    exact ih h (by simpa using hfuel) (hprev.trans hlast)

/-- A walk backwards is a walk over the entries from the last to the first. -/
theorem listForEachPrev_eq {l : List ℕ} (h : ListRing m head l) (body : σ → ℕ → Except Fault σ) {fuel : ℕ}
    (hfuel : l.length ≤ fuel) (s : σ) : listForEachPrev m head body fuel s = l.reverse.foldlM body s := by
  obtain ⟨hd, hhead, -, hprev⟩ := h.head_eq
  have hlast : (head :: l).getLast (by simp) = (l.reverse ++ [head]).head (by simp) := by
    rw [List.getLast_eq_head_reverse]
    simp
  unfold listForEachPrev
  simp only [headAt_eq_ok.mpr hhead, ok_bind]
  exact @forEachPrevFrom_eq _ _ _ body l.reverse [] _ _ _ (by simpa using h) (by simpa using hfuel)
    (hprev.trans hlast)

theorem findFrom_eq {test : ℕ → Except Fault Bool} {p : ℕ → Bool} (rest : List ℕ) :
    ∀ {done : List ℕ} {fuel pos : ℕ}, ListRing m head (done ++ rest) → (∀ x ∈ rest, test x = .ok (p x)) →
      rest.length ≤ fuel → pos = (rest ++ [head]).head (by simp) →
        findFrom m head test fuel pos = .ok (rest.find? p) := by
  induction rest with
  | nil =>
    intro done fuel pos _ _ _ hpos
    cases fuel <;> simp [findFrom, hpos]
  | cons a rest ih =>
    intro done fuel pos h htest hfuel hpos
    obtain ⟨fuel, rfl⟩ := Nat.exists_eq_add_one.mpr (Nat.lt_of_lt_of_le (Nat.succ_pos _) hfuel)
    obtain rfl : pos = a := hpos
    obtain ⟨hne, hd, hhead, hnext, -⟩ := h.at
    rw [findFrom, if_neg hne, htest pos (by simp), ok_bind]
    cases hp : p pos with
    | true => simp [hp]
    | false =>
      simp only [Bool.false_eq_true, if_false, hhead, ok_bind]
      rw [List.find?_cons_of_neg (by simp [hp])]
      refine @ih (done ++ [pos]) fuel hd.next ?_ (fun x hx => htest x (by simp [hx])) (by simpa using hfuel) hnext
      rwa [List.append_assoc, List.singleton_append]

/-- **A search in a ring is a search in the list** of its entries. -/
theorem listFind_eq {l : List ℕ} (h : ListRing m head l) {test : ℕ → Except Fault Bool} {p : ℕ → Bool}
    (htest : ∀ x ∈ l, test x = .ok (p x)) {fuel : ℕ} (hfuel : l.length ≤ fuel) :
    listFind m head test fuel = .ok (l.find? p) := by
  obtain ⟨hd, hhead, hnext, -⟩ := h.head_eq
  unfold listFind
  simp only [headAt_eq_ok.mpr hhead, ok_bind]
  exact @findFrom_eq _ _ _ _ l [] _ _ h htest hfuel hnext

end

end ToxSuite.Lib
