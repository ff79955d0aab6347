import ToxSuite.Lib.Breaks
import ToxSuite.File.Transfer

/-!
# Resuming

The transfers read at start-up wait in `FileQueueLoaded` until their friend connects;
`resume_send` should then hand all of this friend's entries to `add_filesender` and leave
the others. Its loop breaks at the first entry of another friend. It resumes exactly what
it should if and only if nobody else's entry waits before one of the friend's, and each
entry of the friend whose file opens has a name (`Ready`, `resumes_exactly_iff`).

The machine `Resuming` watches a run: what was handed over, and who connected.
-/

namespace ToxSuite.File

open ToxSuite.Lib ToxSuite.Friend

/-! ### What `resume_send` hands over -/

/-- The entry belongs to the friend. -/
def FileSender.isOf (friendNumber : UInt32) (f : FileSender) : Bool := f.friendNumber == friendNumber

/-- `resume_send`, and the entries it handed to `add_filesender`. -/
def resumeSendPassing (o : Outbox) (friendNumber : UInt32) :
    List FileSender → (ℕ → Answer) → Except Fault (Outbox × List FileSender × List FileSender)
  | [], _ => pure (o, [], [])
  | f :: fileQueueLoad, answers =>
    if f.friendNumber ≠ friendNumber then pure (o, f :: fileQueueLoad, [])
    else do
      let (o, _) ← o.create f.addr (.resume f) (answers 0)
      let (o, fileQueueLoad, passed) ← resumeSendPassing o friendNumber fileQueueLoad fun k => answers (k + 1)
      pure (o, fileQueueLoad, f :: passed)

/-- The watched loop is the loop. -/
theorem resumeSendPassing_forget {n : UInt32} (q : List FileSender) : ∀ (o : Outbox) (answers : ℕ → Answer),
    (resumeSendPassing o n q answers).map (fun r => (r.1, r.2.1)) = resumeSend o n q answers := by
  induction q with
  | nil => intro o answers; rfl
  | cons f q ih =>
    intro o answers
    unfold resumeSendPassing resumeSend
    split_ifs with hf
    · rfl
    · cases o.create f.addr (.resume f) (answers 0) with
      | error e => rfl
      | ok r =>
        simp only [ok_bind]
        rw [← ih]
        cases resumeSendPassing r.1 n q fun k => answers (k + 1) with
        | error e => rfl
        | ok r => rfl

theorem resumeSendPassing_eq_ok {o o' : Outbox} {n : UInt32} {q q' : List FileSender} {answers : ℕ → Answer} :
    resumeSend o n q answers = .ok (o', q') ↔
      ∃ passed, resumeSendPassing o n q answers = .ok (o', q', passed) := by
  rw [← resumeSendPassing_forget]
  cases resumeSendPassing o n q answers with
  | error e => simp [Except.map]
  | ok r =>
    obtain ⟨o₁, q₁, passed⟩ := r
    simp [Except.map]

/-- `add_filesender` on an entry of the queue: it is a step of the loop. -/
theorem Outbox.create_resume {o o' : Outbox} {f : FileSender} {answer : Answer} :
    (∃ failed, o.create f.addr (.resume f) answer = .ok (o', failed)) ↔ ∃ k, o.add f answer = .ok (o', k) := by
  constructor
  · rintro ⟨failed, h⟩
    rcases create_cases h with ⟨hnone, -⟩ | ⟨g, k, hentry, hadd, -⟩
    · cases hnone
    · cases hentry
      exact ⟨k, hadd⟩
  · rintro ⟨k, hadd⟩
    exact ⟨_, bind_eq_ok.mpr ⟨some f, rfl, bind_eq_ok.mpr ⟨(o', k), hadd, rfl⟩⟩⟩

/-- The watched loop ends at an entry of somebody else. -/
theorem resumeSendPassing_stop {o : Outbox} {n : UInt32} {f : FileSender} {q : List FileSender}
    {answers : ℕ → Answer} (hf : ¬ f.isOf n) :
    resumeSendPassing o n (f :: q) answers = .ok (o, f :: q, []) := by
  have hne : f.friendNumber ≠ n := by simpa [FileSender.isOf] using hf
  simp [resumeSendPassing, hne]

/-- The watched loop takes an entry of the friend. -/
theorem resumeSendPassing_take {o : Outbox} {n : UInt32} {f : FileSender} {q : List FileSender}
    {answers : ℕ → Answer} (hf : f.isOf n) {r : Outbox × List FileSender × List FileSender} :
    resumeSendPassing o n (f :: q) answers = .ok r ↔
      ∃ o₁ k passed, o.add f (answers 0) = .ok (o₁, k) ∧
        resumeSendPassing o₁ n q (fun i => answers (i + 1)) = .ok (r.1, r.2.1, passed) ∧
        r.2.2 = f :: passed := by
  have heq : f.friendNumber = n := by simpa [FileSender.isOf] using hf
  rw [resumeSendPassing, if_neg (not_not.mpr heq), bind_eq_ok]
  constructor
  · rintro ⟨⟨o₁, failed⟩, hcreate, h⟩
    obtain ⟨⟨o₂, q₂, passed⟩, hrest, h⟩ := bind_eq_ok.mp h
    cases h
    obtain ⟨k, hadd⟩ := Outbox.create_resume.mp ⟨failed, hcreate⟩
    exact ⟨o₁, k, passed, hadd, hrest, rfl⟩
  · rintro ⟨o₁, k, passed, hadd, hrest, hpassed⟩
    obtain ⟨failed, hcreate⟩ := Outbox.create_resume.mpr ⟨k, hadd⟩
    refine ⟨(o₁, failed), hcreate, bind_eq_ok.mpr ⟨_, hrest, ?_⟩⟩
    dsimp only
    rw [← hpassed]
    rfl

/-- An entry as the queue holds it after `add_filesender`. -/
def Moved (f f' : FileSender) : Prop := ∃ disk, Handed disk f f'

/-- **What `resume_send` does**: the entries of the friend at the front of the queue are handed
over, one by one, and stand at the front of `FilesSender` then, sent or not. -/
theorem resumeSendPassing_spec {n : UInt32} (q : List FileSender) :
    ∀ {o o' : Outbox} {q' passed : List FileSender} {answers : ℕ → Answer},
      resumeSendPassing o n q answers = .ok (o', q', passed) →
        passed = q.takeWhile (·.isOf n) ∧ q' = q.dropWhile (·.isOf n) ∧
          ∃ moved, List.Forall₂ Moved passed moved ∧ o'.filesSender = moved.reverse ++ o.filesSender := by
  induction q with
  | nil =>
    intro o o' q' passed answers h
    cases h
    exact ⟨rfl, rfl, [], .nil, rfl⟩
  | cons f q ih =>
    intro o o' q' passed answers h
    by_cases hf : f.isOf n
    · obtain ⟨o₁, k, passed', hadd, hrest, rfl⟩ := (resumeSendPassing_take hf).mp h
      obtain ⟨rfl, rfl, moved, hmoved, hsent⟩ := ih hrest
      obtain ⟨f', hf', -, hhead⟩ := Outbox.add_head hadd
      refine ⟨by simp [hf], by simp [hf], f' :: moved, .cons ⟨_, hf'⟩ hmoved, ?_⟩
      rw [hsent, hhead, List.reverse_cons, List.append_assoc, List.singleton_append]
    · rw [resumeSendPassing_stop hf] at h
      cases h
      exact ⟨by simp [hf], by simp [hf], [], .nil, rfl⟩

/-- `add_filesender` can ask for the length of the name. -/
def FileSender.Named (f : FileSender) (answer : Answer) : Prop :=
  (f.stream answer.disk).isSome → f.info.file.isSome

theorem Outbox.add_isOk {o : Outbox} {f : FileSender} {answer : Answer} :
    (∃ o' k, o.add f answer = .ok (o', k)) ↔ f.Named answer := by
  unfold Outbox.add addFilesender FileSender.Named
  cases f.stream answer.disk with
  | none => simp
  | some stream =>
    cases f.info.file with
    | none => simp
    | some name =>
      simp only [pure_eq_ok, ok_bind, Option.isSome_some, imp_self, iff_true]
      split_ifs
      · exact ⟨_, _, rfl⟩
      · exact ⟨_, _, rfl⟩

/-- `resume_send` comes back if and only if all entries it gets to can be handed over. -/
theorem resumeSendPassing_isOk {n : UInt32} (q : List FileSender) : ∀ {o : Outbox} {answers : ℕ → Answer},
    (∃ r, resumeSendPassing o n q answers = .ok r) ↔
      ∀ (i : ℕ) (f : FileSender), (q.takeWhile (·.isOf n))[i]? = some f → f.Named (answers i) := by
  induction q with
  | nil =>
    intro o answers
    simp [resumeSendPassing]
  | cons f q ih =>
    intro o answers
    by_cases hf : f.isOf n
    · rw [List.takeWhile_cons_of_pos hf]
      constructor
      · rintro ⟨r, h⟩ i g hg
        obtain ⟨o₁, k, passed, hadd, hrest, -⟩ := (resumeSendPassing_take hf).mp h
        cases i with
        | zero =>
          cases hg
          exact Outbox.add_isOk.mp ⟨o₁, k, hadd⟩
        | succ i => exact ih.mp ⟨_, hrest⟩ i g hg
      · intro h
        obtain ⟨o₁, k, hadd⟩ := (Outbox.add_isOk (o := o)).mpr (h 0 f rfl)
        obtain ⟨⟨o₂, q', passed⟩, hrest⟩ := (ih (o := o₁)).mpr fun i g hg => h (i + 1) g hg
        exact ⟨(o₂, q', f :: passed), (resumeSendPassing_take hf).mpr ⟨o₁, k, passed, hadd, hrest, rfl⟩⟩
    · simp [resumeSendPassing_stop hf, hf]

/-! ### All and only the friend's -/

/-- `resume_send` takes all and only the friend's entries: it comes back, the others are left in
their order, each entry of the friend was handed over once and stands in `FilesSender`, before
those that were there. -/
def ResumesExactly (o : Outbox) (n : UInt32) (q : List FileSender) (answers : ℕ → Answer) : Prop :=
  ∃ o' passed moved,
    resumeSendPassing o n q answers = .ok (o', q.filter (fun f => !f.isOf n), passed) ∧
      passed = q.filter (·.isOf n) ∧ List.Forall₂ Moved passed moved ∧
      o'.filesSender = moved.reverse ++ o.filesSender

/-- No entry of somebody else is before one of the friend's, and each of the friend's whose file
opens has a name. -/
def Ready (n : UInt32) (q : List FileSender) (answers : ℕ → Answer) : Prop :=
  Orderly (·.isOf n) q ∧ ∀ (i : ℕ) (f : FileSender), q[i]? = some f → f.isOf n → f.Named (answers i)

/-- In a queue in order, the entries of the friend are at the front. -/
theorem getElem?_takeWhile_of_orderly {n : UInt32} {q : List FileSender} (h : Orderly (·.isOf n) q)
    {i : ℕ} {f : FileSender} :
    (q.takeWhile (·.isOf n))[i]? = some f ↔ q[i]? = some f ∧ f.isOf n := by
  have hrest : q.dropWhile (·.isOf n) = q.filter fun f => !f.isOf n := dropWhile_eq_filter_iff.mpr h
  have hsplit : q[i]? = (q.takeWhile (·.isOf n) ++ q.dropWhile (·.isOf n))[i]? := by
    rw [List.takeWhile_append_dropWhile]
  rw [hsplit, List.getElem?_append]
  split_ifs with hi
  · exact ⟨fun hf => ⟨hf, List.mem_takeWhile_imp (List.mem_of_getElem? hf)⟩, And.left⟩
  · rw [List.getElem?_eq_none (not_lt.mp hi)]
    refine iff_of_false (by simp) fun ⟨hf, hof⟩ => ?_
    have hmem := List.mem_of_getElem? hf
    rw [hrest] at hmem
    simp [hof] at hmem

/-- Where `resume_send` comes back, the order decides. -/
theorem ready_iff_orderly {o : Outbox} {n : UInt32} {q : List FileSender} {answers : ℕ → Answer}
    {r : Outbox × List FileSender × List FileSender} (h : resumeSendPassing o n q answers = .ok r) :
    Ready n q answers ↔ Orderly (·.isOf n) q := by
  refine ⟨And.left, fun horder => ⟨horder, fun i f hf hof => ?_⟩⟩
  exact (resumeSendPassing_isOk q).mp ⟨r, h⟩ i f ((getElem?_takeWhile_of_orderly horder).mpr ⟨hf, hof⟩)

/-- **One call** of `resume_send`. -/
theorem resumesExactly_iff_ready {o : Outbox} {n : UInt32} {q : List FileSender} {answers : ℕ → Answer} :
    ResumesExactly o n q answers ↔ Ready n q answers := by
  constructor
  · rintro ⟨o', passed, moved, h, -, -, -⟩
    obtain ⟨-, hrest, -⟩ := resumeSendPassing_spec q h
    exact (ready_iff_orderly h).mpr (dropWhile_eq_filter_iff.mp hrest.symm)
  · rintro ⟨horder, hnamed⟩
    have hnamed' : ∀ (i : ℕ) (f : FileSender), (q.takeWhile (·.isOf n))[i]? = some f → f.Named (answers i) := by
      intro i f hf
      obtain ⟨hf, hof⟩ := (getElem?_takeWhile_of_orderly horder).mp hf
      exact hnamed i f hf hof
    obtain ⟨⟨o', q', passed⟩, h⟩ := (resumeSendPassing_isOk q (o := o)).mpr hnamed'
    obtain ⟨rfl, rfl, moved, hmoved, hsent⟩ := resumeSendPassing_spec q h
    refine ⟨o', _, moved, ?_, takeWhile_eq_filter_of_orderly horder, hmoved, hsent⟩
    rw [← dropWhile_eq_filter_iff.mpr horder]
    exact h

/-! ### Runs -/

/-- The transfers, what `resume_send` handed over so far, and who connected. -/
structure Resuming where
  transfers : Transfers
  passed : List FileSender
  connected : List UInt32

/-- Nothing is handed over yet. -/
def Resuming.start (friendsInfo : List FriendInfo) (fileQueueLoaded : List FileSender) (nextAddr : ℕ) :
    Resuming :=
  ⟨.start friendsInfo fileQueueLoaded nextAddr, [], []⟩

/-- The friend who connects in an event, and what their entries meet. -/
def TransferEvent.online : TransferEvent → Option (UInt32 × (ℕ → Answer))
  | .connectionStatus n .tcp answers => some (n, answers)
  | .connectionStatus n .udp answers => some (n, answers)
  | _ => none

/-- A step, watched. -/
def resumingStep (s : Resuming) (e : TransferEvent) : Option Resuming := do
  let transfers ← transferStep s.transfers e
  match e.online with
  | none => some { s with transfers }
  | some (n, answers) =>
    let (_, _, passed) ←
      (resumeSendPassing s.transfers.outbox n s.transfers.fileQueueLoaded answers).toOption
    some ⟨transfers, s.passed ++ passed, n :: s.connected⟩

/-- An event in which nobody connects leaves the loaded transfers. -/
theorem fileQueueLoaded_offline {s s' : Transfers} {e : TransferEvent} (h : transferStep s e = some s')
    (he : e.online = none) : s'.fileQueueLoaded = s.fileQueueLoaded := by
  cases does_transferStep h with
  | created he hcreate =>
    obtain ⟨r, -, hcreate⟩ := bind_eq_ok.mp hcreate
    cases hcreate
    rfl
  | @online n status answers friendsInfo outbox fileQueueLoaded hstatus hinfo hresume =>
    cases status with
    | none => exact absurd rfl hstatus
    | tcp | udp => cases he
  | offline | served | completed | ignored | noted | cancelled => rfl

/-- The transfers of a friend who connects go through `resume_send`. -/
theorem resumeSend_online {s s' : Transfers} {e : TransferEvent} {n : UInt32} {answers : ℕ → Answer}
    (h : transferStep s e = some s') (he : e.online = some (n, answers)) :
    resumeSend s.outbox n s.fileQueueLoaded answers = .ok (s'.outbox, s'.fileQueueLoaded) := by
  cases does_transferStep h with
  | @online n status answers friendsInfo outbox fileQueueLoaded hstatus hinfo hresume =>
    cases status with
    | none => exact absurd rfl hstatus
    | tcp | udp =>
      cases he
      exact hresume
  | @created e c answer _ hc =>
    cases e with
    | connectionStatus => cases hc
    | _ => cases he
  | offline | served | completed | ignored | noted | cancelled => cases he

/-- Watching changes nothing. -/
theorem transfers_resumingStep (s : Resuming) (e : TransferEvent) :
    (resumingStep s e).map Resuming.transfers = transferStep s.transfers e := by
  unfold resumingStep
  cases h : transferStep s.transfers e with
  | none => rfl
  | some t =>
    cases he : e.online with
    | none => rfl
    | some r =>
      obtain ⟨passed, hpassed⟩ := resumeSendPassing_eq_ok.mp (resumeSend_online h he)
      simp [hpassed, Except.toOption]

/-- **A watched step**: nobody connects and all is kept, or somebody does and what `resume_send`
takes off the queue goes to what was handed over. -/
theorem resumingStep_cases {s s' : Resuming} {e : TransferEvent} (h : resumingStep s e = some s') :
    (e.online = none ∧ s'.passed = s.passed ∧ s'.connected = s.connected ∧
        s'.transfers.fileQueueLoaded = s.transfers.fileQueueLoaded) ∨
      ∃ n answers r, e.online = some (n, answers) ∧
        resumeSendPassing s.transfers.outbox n s.transfers.fileQueueLoaded answers = .ok r ∧
        s'.passed = s.passed ++ s.transfers.fileQueueLoaded.takeWhile (·.isOf n) ∧
        s'.connected = n :: s.connected ∧
        s'.transfers.fileQueueLoaded = s.transfers.fileQueueLoaded.dropWhile (·.isOf n) := by
  obtain ⟨t, ht, h⟩ := Option.bind_eq_some_iff.mp h
  cases he : e.online with
  | none =>
    rw [he] at h
    cases h
    exact .inl ⟨rfl, rfl, rfl, fileQueueLoaded_offline ht he⟩
  | some r =>
    obtain ⟨n, answers⟩ := r
    rw [he] at h
    obtain ⟨⟨o', q', passed⟩, hr, h⟩ := Option.bind_eq_some_iff.mp h
    cases h
    have hpassing := toOption_eq_some.mp hr
    obtain ⟨rfl, rfl, -⟩ := resumeSendPassing_spec _ hpassing
    refine .inr ⟨n, answers, _, rfl, hpassing, rfl, rfl, ?_⟩
    have hresume := (resumeSend_online ht he).symm.trans (resumeSendPassing_eq_ok.mpr ⟨_, hpassing⟩)
    exact congrArg Prod.snd (Except.ok.inj hresume)

/-- Each of the loaded transfers was handed over once or is still to be, in their order. -/
def AtMostOnce (loaded : List FileSender) (s : Resuming) : Prop :=
  s.passed ++ s.transfers.fileQueueLoaded = loaded

/-- The loaded transfers still to be resumed are those of the friends who have not connected. -/
def ResumedOnConnect (loaded : List FileSender) (s : Resuming) : Prop :=
  s.transfers.fileQueueLoaded = loaded.filter fun f => f.friendNumber ∉ s.connected

/-- If a friend connects, the queue is ready for them. -/
def ReadyNow (s : Resuming) (e : TransferEvent) : Prop :=
  ∀ n answers, e.online = some (n, answers) → Ready n s.transfers.fileQueueLoaded answers

theorem atMostOnce_resumingStep {loaded : List FileSender} {s s' : Resuming} {e : TransferEvent}
    (h : resumingStep s e = some s') (hs : AtMostOnce loaded s) : AtMostOnce loaded s' := by
  unfold AtMostOnce at hs ⊢
  rcases resumingStep_cases h with ⟨-, hpassed, -, hqueue⟩ | ⟨n, answers, r, -, -, hpassed, -, hqueue⟩
  · rw [hpassed, hqueue, hs]
  · rw [hpassed, hqueue, List.append_assoc, List.takeWhile_append_dropWhile, hs]

/-- **The step**: the queue is what it should be after a friend connected if and only if it was
ready for them. -/
theorem resumedOnConnect_resumingStep {loaded : List FileSender} {s s' : Resuming} {e : TransferEvent}
    (h : resumingStep s e = some s') (hs : ResumedOnConnect loaded s) :
    ResumedOnConnect loaded s' ↔ ReadyNow s e := by
  unfold ResumedOnConnect at hs ⊢
  rcases resumingStep_cases h with ⟨he, -, hconn, hqueue⟩ | ⟨n, answers, r, he, hr, -, hconn, hqueue⟩
  · rw [hconn, hqueue]
    apply iff_of_true hs
    intro n answers he'
    cases he.symm.trans he'
  · have hready : ReadyNow s e ↔ Ready n s.transfers.fileQueueLoaded answers := by
      simp [ReadyNow, he]
    have hrest : (loaded.filter fun f => f.friendNumber ∉ s'.connected) =
        s.transfers.fileQueueLoaded.filter fun f => !f.isOf n := by
      rw [hconn, hs, List.filter_filter]
      apply List.filter_congr
      intro f _
      by_cases hn : f.friendNumber = n <;> simp [FileSender.isOf, hn]
    rw [hready, ready_iff_orderly hr, hqueue, hrest]
    exact dropWhile_eq_filter_iff

/-- **All and only the friend's transfers are resumed** by a call of `resume_send` if and only if
the queue is ready for the friend. Over a run from any loaded transfers, none is resumed twice,
and those still to be resumed are always those of the friends who have not connected if and only
if the queue is ready for each friend who connects. -/
theorem resumes_exactly_iff (o : Outbox) (n : UInt32) (q : List FileSender) (answers : ℕ → Answer)
    (friendsInfo : List FriendInfo) (loaded : List FileSender) (nextAddr : ℕ) (es : List TransferEvent) :
    (ResumesExactly o n q answers ↔ Ready n q answers) ∧
      Always resumingStep (AtMostOnce loaded) (.start friendsInfo loaded nextAddr) es ∧
      (Always resumingStep (ResumedOnConnect loaded) (.start friendsInfo loaded nextAddr) es ↔
        Along resumingStep ReadyNow (.start friendsInfo loaded nextAddr) es) := by
  refine ⟨resumesExactly_iff_ready, ?_, ?_⟩
  · apply always_of_along (fun _ _ _ h hs _ => atMostOnce_resumingStep h hs)
    · show [] ++ loaded = loaded
      rfl
    · exact along_of_forall fun _ _ _ => trivial
  · apply always_iff_along fun _ _ _ => resumedOnConnect_resumingStep
    show loaded = loaded.filter fun f => f.friendNumber ∉ []
    simp

/-- A transfer of a friend that waits. -/
def waiting (friendNumber : UInt32) : FileSender :=
  { FileSender.zero friendNumber.toNat with
    friendNumber
    pathname := some packlistFilename
    info := { FileNode.zero with file := some packlistFilename } }

/-- Behind a transfer for friend 1, the one for friend 0 is not resumed when friend 0 connects. -/
theorem resume_stops_at_other_friend :
    ¬ ResumesExactly ⟨[], [], []⟩ 0 [waiting 1, waiting 0] (fun _ => consent 5) ∧
      resumeSend ⟨[], [], []⟩ 0 [waiting 1, waiting 0] (fun _ => consent 5) =
        .ok (⟨[], [], []⟩, [waiting 1, waiting 0]) := by
  refine ⟨fun h => ?_, rfl⟩
  have horder := (orderly_cons_of_neg (by decide)).mp (resumesExactly_iff_ready.mp h).1
  exact horder (waiting 0) List.mem_cons_self (by decide)

end ToxSuite.File
