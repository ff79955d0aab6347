import ToxSuite.Lib.Rings

/-!
# `list.h`

The lists of the program are the rings of `list.h`: the lists of friends and of call
testers, the two send queues. This module takes the header as a whole. `ListOp` is a call
of one of its functions, `ListOp.exec` what the call does to links in memory, `Does` what
it should do to lists, under the conditions that the comments of the header state.

The links of a head and those of an entry are of one type, and the header makes the one
out of the other: an entry that `list_del_init` takes out is the head of an empty list,
and may be asked whether it is in one. Lists are therefore given by the address of their
head, and any of their links may be taken for it (`DoesAll.turn`): so a head is replaced,
and a list is tied in behind an entry.

Whatever calls are made that keep to these conditions, on any number of lists in one
memory, the memory holds the lists they should make, forwards and backwards, and no call
follows a link that is not there (`listOps_simulate`).
-/

namespace ToxSuite.Lists

open ToxSuite.Lib

/-- A call of a function of `list.h`. -/
inductive ListOp where
  | init (list : ℕ)
  | add (new head : ℕ)
  | addTail (new head : ℕ)
  | del (entry : ℕ)
  | delInit (entry : ℕ)
  | replace (old new : ℕ)
  | replaceInit (old new : ℕ)
  | move (list head : ℕ)
  | moveTail (list head : ℕ)
  | rotateLeft (head : ℕ)
  | cutPosition (list head entry : ℕ)
  | splice (list head : ℕ)
  | spliceTail (list head : ℕ)
  | spliceInit (list head : ℕ)
  | spliceTailInit (list head : ℕ)
  | isEmpty (head : ℕ)
  | isEmptyCareful (head : ℕ)
  | isSingular (head : ℕ)
  | isLast (list head : ℕ)

/-- A function that returns nothing. -/
def noAnswer (m : Except Fault Heads) : Except Fault (Heads × Option Bool) := m.map fun m => (m, none)

/-- A test. -/
def withAnswer (m : Heads) (b : Except Fault Bool) : Except Fault (Heads × Option Bool) :=
  b.map fun b => (m, some b)

/-- What a call does to the links in memory, and what it returns. -/
def ListOp.exec (m : Heads) : ListOp → Except Fault (Heads × Option Bool)
  | .init list => noAnswer (initListHead m list)
  | .add new head => noAnswer (listAdd m new head)
  | .addTail new head => noAnswer (listAddTail m new head)
  | .del entry => noAnswer (listDel m entry)
  | .delInit entry => noAnswer (listDelInit m entry)
  | .replace old new => noAnswer (listReplace m old new)
  | .replaceInit old new => noAnswer (listReplaceInit m old new)
  | .move list head => noAnswer (listMove m list head)
  | .moveTail list head => noAnswer (listMoveTail m list head)
  | .rotateLeft head => noAnswer (listRotateLeft m head)
  | .cutPosition list head entry => noAnswer (listCutPosition m list head entry)
  | .splice list head => noAnswer (listSplice m list head)
  | .spliceTail list head => noAnswer (listSpliceTail m list head)
  | .spliceInit list head => noAnswer (listSpliceInit m list head)
  | .spliceTailInit list head => noAnswer (listSpliceTailInit m list head)
  | .isEmpty head => withAnswer m (listEmpty m head)
  | .isEmptyCareful head => withAnswer m (listEmptyCareful m head)
  | .isSingular head => withAnswer m (listIsSingular m head)
  | .isLast list head => withAnswer m (listIsLast m list head)

/-- Calls, one after the other, and what they return. -/
def execAll : Heads → List ListOp → Except Fault (Heads × List (Option Bool))
  | m, [] => pure (m, [])
  | m, op :: ops => do
    let (m, answer) ← op.exec m
    let (m, answers) ← execAll m ops
    pure (m, answer :: answers)

/-! ### What they should do -/

/-- The lists by their heads; `none` for what is the head of no list. -/
abbrev Contents := ℕ → Option (List ℕ)

/-- The list at a head holds this. -/
def Contents.with (lists : Contents) (head : ℕ) (l : List ℕ) : Contents := Function.update lists head (some l)

/-- A head is given up. -/
def Contents.without (lists : Contents) (head : ℕ) : Contents := Function.update lists head none

/-- What a call should do to the lists and what it should return, and when it may be made. `live`: the
addresses of the links that there are. -/
inductive Does (live : ℕ → Prop) : Contents → ListOp → Contents → Option Bool → Prop
  /-- What is initialised is in no list, but may be the head of one. -/
  | init {lists : Contents} {list : ℕ} (hlist : live list) (hfree : Free (lists.without list) list) :
      Does live lists (.init list) (lists.with list []) none
  /-- What is added is in no list; the head of one is its head no longer. -/
  | add {lists : Contents} {head new : ℕ} {l : List ℕ} (hl : lists.without new head = some l) (hnew : live new)
      (hfree : Free (lists.without new) new) :
      Does live lists (.add new head) ((lists.without new).with head (new :: l)) none
  | addTail {lists : Contents} {head new : ℕ} {l : List ℕ} (hl : lists.without new head = some l) (hnew : live new)
      (hfree : Free (lists.without new) new) :
      Does live lists (.addTail new head) ((lists.without new).with head (l ++ [new])) none
  /-- `list_add` on an entry in place of a head. -/
  | addAfter {lists : Contents} {head new pos : ℕ} {pre post : List ℕ}
      (hl : lists.without new head = some (pre ++ pos :: post)) (hnew : live new)
      (hfree : Free (lists.without new) new) :
      Does live lists (.add new pos) ((lists.without new).with head (pre ++ pos :: new :: post)) none
  /-- `list_add_tail` on an entry in place of a head. -/
  | addBefore {lists : Contents} {head new pos : ℕ} {pre post : List ℕ}
      (hl : lists.without new head = some (pre ++ pos :: post)) (hnew : live new)
      (hfree : Free (lists.without new) new) :
      Does live lists (.addTail new pos) ((lists.without new).with head (pre ++ new :: pos :: post)) none
  | del {lists : Contents} {head entry : ℕ} {pre post : List ℕ} (hl : lists head = some (pre ++ entry :: post)) :
      Does live lists (.del entry) (lists.with head (pre ++ post)) none
  /-- The entry is an empty list then. -/
  | delInit {lists : Contents} {head entry : ℕ} {pre post : List ℕ} (hl : lists head = some (pre ++ entry :: post)) :
      Does live lists (.delInit entry) ((lists.with head (pre ++ post)).with entry []) none
  | replace {lists : Contents} {head old new : ℕ} {pre post : List ℕ}
      (hl : lists.without new head = some (pre ++ old :: post)) (hnew : live new)
      (hfree : Free (lists.without new) new) :
      Does live lists (.replace old new) ((lists.without new).with head (pre ++ new :: post)) none
  /-- The old entry is an empty list then. -/
  | replaceInit {lists : Contents} {head old new : ℕ} {pre post : List ℕ}
      (hl : lists.without new head = some (pre ++ old :: post)) (hnew : live new)
      (hfree : Free (lists.without new) new) :
      Does live lists (.replaceInit old new) (((lists.without new).with head (pre ++ new :: post)).with old []) none
  /-- An old list that is empty is overwritten. -/
  | replaceEmpty {lists : Contents} {old new : ℕ} (hl : lists.without new old = some []) (hnew : live new)
      (hfree : Free (lists.without new) new) :
      Does live lists (.replace old new) (((lists.without new).without old).with new []) none
  | replaceInitEmpty {lists : Contents} {old new : ℕ} (hl : lists.without new old = some []) (hnew : live new)
      (hfree : Free (lists.without new) new) :
      Does live lists (.replaceInit old new) ((lists.without new).with new []) none
  /-- From the list it is in, which may be the list it moves to. -/
  | move {lists : Contents} {head head' list : ℕ} {pre post l : List ℕ}
      (hl : lists head' = some (pre ++ list :: post)) (hhead : lists.with head' (pre ++ post) head = some l) :
      Does live lists (.move list head) ((lists.with head' (pre ++ post)).with head (list :: l)) none
  | moveTail {lists : Contents} {head head' list : ℕ} {pre post l : List ℕ}
      (hl : lists head' = some (pre ++ list :: post)) (hhead : lists.with head' (pre ++ post) head = some l) :
      Does live lists (.moveTail list head) ((lists.with head' (pre ++ post)).with head (l ++ [list])) none
  | rotateLeft {lists : Contents} {head : ℕ} {l : List ℕ} (hl : lists head = some l) :
      Does live lists (.rotateLeft head) (lists.with head (l.rotate 1)) none
  /-- The initial part up to the entry moves to `list`, whatever was there. -/
  | cutPosition {lists : Contents} {list head entry : ℕ} {pre rest : List ℕ} (hne : list ≠ head) (hlist : live list)
      (hfree : Free (lists.without list) list) (hl : lists head = some (pre ++ entry :: rest)) :
      Does live lists (.cutPosition list head entry) ((lists.with list (pre ++ [entry])).with head rest) none
  /-- With the head in place of an entry nothing is cut off; a list that is empty returns before `list` is
  initialised. -/
  | cutHead {lists : Contents} {list head : ℕ} {l : List ℕ} (hl : lists head = some l) (hlist : live list)
      (hfree : Free (lists.without list) list) :
      Does live lists (.cutPosition list head head) (if l = [] then lists else lists.with list []) none
  /-- The head that the entries come from leads to them still, unless there are none. -/
  | splice {lists : Contents} {list head : ℕ} {l l' : List ℕ} (hne : list ≠ head) (hlist : lists list = some l)
      (hhead : lists head = some l') :
      Does live lists (.splice list head) (if l = [] then lists else (lists.without list).with head (l ++ l')) none
  | spliceTail {lists : Contents} {list head : ℕ} {l l' : List ℕ} (hne : list ≠ head) (hlist : lists list = some l)
      (hhead : lists head = some l') :
      Does live lists (.spliceTail list head) (if l = [] then lists else (lists.without list).with head (l' ++ l))
        none
  | spliceInit {lists : Contents} {list head : ℕ} {l l' : List ℕ} (hne : list ≠ head) (hlist : lists list = some l)
      (hhead : lists head = some l') :
      Does live lists (.spliceInit list head) ((lists.with head (l ++ l')).with list []) none
  | spliceTailInit {lists : Contents} {list head : ℕ} {l l' : List ℕ} (hne : list ≠ head)
      (hlist : lists list = some l) (hhead : lists head = some l') :
      Does live lists (.spliceTailInit list head) ((lists.with head (l' ++ l)).with list []) none
  | isEmpty {lists : Contents} {head : ℕ} {l : List ℕ} (hl : lists head = some l) :
      Does live lists (.isEmpty head) lists (some (decide (l = [])))
  /-- Asked of an entry: it is in a list. -/
  | isEmptyEntry {lists : Contents} {head entry : ℕ} {pre post : List ℕ}
      (hl : lists head = some (pre ++ entry :: post)) : Does live lists (.isEmpty entry) lists (some false)
  | isEmptyCareful {lists : Contents} {head : ℕ} {l : List ℕ} (hl : lists head = some l) :
      Does live lists (.isEmptyCareful head) lists (some (decide (l = [])))
  | isEmptyCarefulEntry {lists : Contents} {head entry : ℕ} {pre post : List ℕ}
      (hl : lists head = some (pre ++ entry :: post)) : Does live lists (.isEmptyCareful entry) lists (some false)
  | isSingular {lists : Contents} {head : ℕ} {l : List ℕ} (hl : lists head = some l) :
      Does live lists (.isSingular head) lists (some (decide (l.length = 1)))
  | isLast {lists : Contents} {list head : ℕ} {pre post : List ℕ} (hl : lists head = some (pre ++ list :: post)) :
      Does live lists (.isLast list head) lists (some (decide (post = [])))

/-- What calls should do, one after the other. -/
inductive DoesAll (live : ℕ → Prop) : Contents → List ListOp → Contents → List (Option Bool) → Prop
  /-- Any entry of a list may be taken for its head, and the head for an entry. -/
  | turn {lists lists' : Contents} {head entry : ℕ} {pre post : List ℕ} {ops : List ListOp}
      {answers : List (Option Bool)} (hl : lists head = some (pre ++ entry :: post))
      (hs : DoesAll live ((lists.without head).with entry (post ++ head :: pre)) ops lists' answers) :
      DoesAll live lists ops lists' answers
  | nil {lists : Contents} : DoesAll live lists [] lists []
  | cons {lists lists₁ lists₂ : Contents} {op : ListOp} {ops : List ListOp} {answer : Option Bool}
      {answers : List (Option Bool)} (h : Does live lists op lists₁ answer)
      (hs : DoesAll live lists₁ ops lists₂ answers) : DoesAll live lists (op :: ops) lists₂ (answer :: answers)

/-! ### What they do -/

variable {live : ℕ → Prop} {m : Heads} {lists lists' : Contents}

/-- A function that returns nothing does what it should. -/
theorem exists_noAnswer {x : Except Fault Heads}
    (h : ∃ m', x = .ok m' ∧ (∀ a, (m' a).isSome = (m a).isSome) ∧ Rings m' lists') :
    ∃ m', noAnswer x = .ok (m', none) ∧ (∀ a, (m' a).isSome = (m a).isSome) ∧ Rings m' lists' := by
  obtain ⟨m', rfl, h⟩ := h
  exact ⟨m', rfl, h⟩

/-- A test answers as it should. -/
theorem exists_withAnswer (hm : Rings m lists) {x : Except Fault Bool} {b : Bool} (h : x = .ok b) :
    ∃ m', withAnswer m x = .ok (m', some b) ∧ (∀ a, (m' a).isSome = (m a).isSome) ∧ Rings m' lists :=
  ⟨m, by rw [h]; rfl, fun _ => rfl, hm⟩

/-- **One call**: the links change as the lists should. -/
theorem exec_of_does (hm : Rings m lists) (hlive : ∀ x, live x → (m x).isSome = true) {op : ListOp}
    {answer : Option Bool} (h : Does live lists op lists' answer) :
    ∃ m', op.exec m = .ok (m', answer) ∧ (∀ x, (m' x).isSome = (m x).isSome) ∧ Rings m' lists' := by
  cases h with
  | init hlist hfree => exact exists_noAnswer (hm.init (hlive _ hlist) hfree)
  | add hl hnew hfree => exact exists_noAnswer ((hm.forget _).add hl (hlive _ hnew) hfree)
  | addTail hl hnew hfree => exact exists_noAnswer ((hm.forget _).addTail hl (hlive _ hnew) hfree)
  | addAfter hl hnew hfree => exact exists_noAnswer ((hm.forget _).addAfter hl (hlive _ hnew) hfree)
  | addBefore hl hnew hfree => exact exists_noAnswer ((hm.forget _).addBefore hl (hlive _ hnew) hfree)
  | del hl => exact exists_noAnswer (hm.del hl)
  | delInit hl => exact exists_noAnswer (hm.delInit hl)
  | replace hl hnew hfree => exact exists_noAnswer ((hm.forget _).replace hl (hlive _ hnew) hfree)
  | replaceInit hl hnew hfree => exact exists_noAnswer ((hm.forget _).replaceInit hl (hlive _ hnew) hfree)
  | replaceEmpty hl hnew hfree => exact exists_noAnswer ((hm.forget _).replaceEmpty hl (hlive _ hnew) hfree)
  | replaceInitEmpty hl hnew hfree => exact exists_noAnswer ((hm.forget _).replaceInitEmpty hl (hlive _ hnew) hfree)
  | move hl hhead => exact exists_noAnswer (hm.move hl hhead)
  | moveTail hl hhead => exact exists_noAnswer (hm.moveTail hl hhead)
  | rotateLeft hl => exact exists_noAnswer (hm.rotateLeft hl)
  | cutPosition hne hlist hfree hl =>
    rw [List.append_cons] at hl
    have hcut := hm.cutPosition hne (hlive _ hlist) hfree hl (by simp)
    rw [List.getLast_append_singleton] at hcut
    exact exists_noAnswer hcut
  | cutHead hl hlist hfree => exact exists_noAnswer (hm.cutPosition_head hl (hlive _ hlist) hfree)
  | splice hne hlist hhead => exact exists_noAnswer (hm.splice hne hlist hhead)
  | spliceTail hne hlist hhead => exact exists_noAnswer (hm.spliceTail hne hlist hhead)
  | spliceInit hne hlist hhead => exact exists_noAnswer (hm.spliceInit hne hlist hhead)
  | spliceTailInit hne hlist hhead => exact exists_noAnswer (hm.spliceTailInit hne hlist hhead)
  | isEmpty hl => exact exists_withAnswer hm (hm.empty hl)
  | isEmptyEntry hl => exact exists_withAnswer hm (hm.empty_entry hl)
  | isEmptyCareful hl => exact exists_withAnswer hm (hm.emptyCareful hl)
  | isEmptyCarefulEntry hl => exact exists_withAnswer hm (hm.emptyCareful_entry hl)
  | isSingular hl => exact exists_withAnswer hm (hm.singular hl)
  | isLast hl => exact exists_withAnswer hm (hm.isLast hl)

/-- Any number of calls. -/
theorem execAll_of_doesAll {ops : List ListOp} {answers : List (Option Bool)}
    (h : DoesAll live lists ops lists' answers) : ∀ {m : Heads}, Rings m lists →
      (∀ x, live x → (m x).isSome = true) → ∃ m', execAll m ops = .ok (m', answers) ∧ Rings m' lists' := by
  induction h with
  | turn hl _ ih =>
    intro m hm hlive
    exact ih (hm.turn hl) hlive
  | nil => intro m hm _; exact ⟨m, rfl, hm⟩
  | cons h _ ih =>
    intro m hm hlive
    obtain ⟨m₁, hok₁, hlive₁, hm₁⟩ := exec_of_does hm hlive h
    obtain ⟨m', hok', hm'⟩ := ih hm₁ fun x hx => (hlive₁ x).trans (hlive x hx)
    refine ⟨m', ?_, hm'⟩
    rw [execAll]
    simp only [hok₁, hok', ok_bind, pure_eq_ok]

/-- The entries that a walk over a list comes to, one after the other. -/
def listEntries (m : Heads) (head fuel : ℕ) : Except Fault (List ℕ) :=
  listForEach m head (fun l x => pure (l ++ [x])) fuel []

/-- The entries that a walk backwards comes to. -/
def listEntriesPrev (m : Heads) (head fuel : ℕ) : Except Fault (List ℕ) :=
  listForEachPrev m head (fun l x => pure (l ++ [x])) fuel []

theorem foldlM_append_singleton (l : List ℕ) : ∀ acc : List ℕ,
    l.foldlM (fun l x => (pure (l ++ [x]) : Except Fault (List ℕ))) acc = .ok (acc ++ l) := by
  induction l with
  | nil => intro acc; simp
  | cons x l ih => intro acc; rw [List.foldlM_cons, pure_eq_ok, ok_bind, ih, List.append_assoc, List.singleton_append]

/-- **The header implements lists.** Calls that keep to its conditions come back, return what they should,
and a walk over any list then comes to the entries it should have, forwards and backwards. -/
theorem listOps_simulate (hm : Rings m lists) (hlive : ∀ x, live x → (m x).isSome = true) {ops : List ListOp}
    {answers : List (Option Bool)} (h : DoesAll live lists ops lists' answers) :
    ∃ m', execAll m ops = .ok (m', answers) ∧ ∀ head l, lists' head = some l → ∀ fuel, l.length ≤ fuel →
      listEntries m' head fuel = .ok l ∧ listEntriesPrev m' head fuel = .ok l.reverse := by
  obtain ⟨m', hok, hm'⟩ := execAll_of_doesAll h hm hlive
  refine ⟨m', hok, fun head l hl fuel hfuel => ⟨?_, ?_⟩⟩
  · rw [listEntries, listForEach_eq (hm'.ring head l hl) _ hfuel, foldlM_append_singleton, List.nil_append]
  · rw [listEntriesPrev, listForEachPrev_eq (hm'.ring head l hl) _ hfuel, foldlM_append_singleton, List.nil_append]

/-! ### Two lists and three entries -/

/-- Links at five addresses, with nothing in them yet. -/
def fiveLinks : Heads := fun a => if a < 5 then some ⟨0, 0⟩ else none

theorem rings_fiveLinks : Rings fiveLinks fun _ => none :=
  ⟨fun i l hl => (by cases hl), fun i j l l' hl => (by cases hl)⟩

/-- A queue of three is rotated, cut in two behind its first entry, and tied together the other way round. The entry
that is taken out of it then is in no list, and is added again. -/
def queueOps : List ListOp :=
  [.init 0, .init 1, .addTail 2 0, .addTail 3 0, .add 4 0, .rotateLeft 0, .cutPosition 1 0 2, .isSingular 1,
    .spliceTailInit 1 0, .isEmpty 1, .delInit 4, .isEmptyCareful 4, .addTail 4 1, .isEmpty 4]

theorem listOps_simulate_queue : ∃ m', execAll fiveLinks queueOps = .ok (m',
    [none, none, none, none, none, none, none, some true, none, some true, none, some true, none, some false]) ∧
      (listEntries m' 0 3 = .ok [3, 2] ∧ listEntriesPrev m' 0 3 = .ok [2, 3]) ∧
      listEntries m' 1 1 = .ok [4] := by
  have hlive : ∀ x, x < 5 → (fiveLinks x).isSome = true := by
    intro x hx
    rw [fiveLinks, if_pos hx]
    rfl
  have hdoes : ∃ lists', (lists' 0 = some [3, 2] ∧ lists' 1 = some [4]) ∧
      DoesAll (· < 5) (fun _ => none) queueOps lists'
        [none, none, none, none, none, none, none, some true, none, some true, none, some true, none, some false] := by
    refine ⟨_, ?_, .cons (.init (by decide) ?_) (.cons (.init (by decide) ?_) (.cons (.addTail rfl (by decide) ?_)
      (.cons (.addTail rfl (by decide) ?_) (.cons (.add rfl (by decide) ?_) (.cons (.rotateLeft rfl)
      (.cons (@Does.cutPosition _ _ _ _ _ [] [3, 4] (by decide) (by decide) ?_ rfl)
      (.cons (@Does.isSingular _ _ _ [2] rfl)
      (.cons (@Does.spliceTailInit _ _ _ _ [2] [3, 4] (by decide) rfl rfl)
      (.cons (@Does.isEmpty _ _ _ [] rfl)
      (.cons (@Does.delInit _ _ 0 _ [3] [2] rfl)
      (.cons (@Does.isEmptyCareful _ _ _ [] rfl)
      (.cons (@Does.addTail _ _ _ _ [] rfl (by decide) ?_)
      (.cons (@Does.isEmptyEntry _ _ 1 _ [] [] rfl) .nil)))))))))))))⟩
    · exact ⟨rfl, rfl⟩
    all_goals
      intro j l hl
      simp only [Contents.with, Contents.without, Function.update_apply] at hl
      split_ifs at hl <;> cases hl <;> subst_vars <;> decide
  obtain ⟨lists', ⟨hl₀, hl₁⟩, hdoes⟩ := hdoes
  obtain ⟨m', hok, hentries⟩ := listOps_simulate rings_fiveLinks hlive hdoes
  exact ⟨m', hok, hentries 0 _ hl₀ 3 (by decide), (hentries 1 _ hl₁ 1 le_rfl).1⟩

end ToxSuite.Lists
