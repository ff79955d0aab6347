import ToxSuite.Lib.Runs
import ToxSuite.Share.Converge
import ToxSuite.Share.Server

/-!
# Recheck requests

`file_recheck_callback` sets a flag, and a walk of the directory starts in the
next call of `file_do` that has nothing else to do. The flag is cleared when a
walk finds nothing, and when the last file of a batch has been hashed: a request
made after the walk of the batch is cleared as well, and no walk follows it.

A request is lost exactly where a batch ends with one outstanding
(`requests_kept_iff`); none is, when requests are only made while there is nothing
to hash.
-/

namespace ToxSuite.Share

open ToxSuite.Lib ToxSuite.File

variable {generichash : Bytes → FileId}

/-- While the flag is clear, a walk has started since the last request. -/
def Server.Kept (s : Server) : Prop := s.shared.fileRecheck = false → s.outstanding = false

/-- A file is being hashed, and the next call of `file_checksumcalc_noblock` is the last for
it: it does not open, or there is nothing left to read. -/
def FileOp.RoundEnds (s : FileOp) (v : Visit) : Prop :=
  s.hashing.isSome ∧ ∃ f, s.shrList.entries[s.last]? = some f ∧
    ∀ stream, s.openStream v f.file = some stream →
      (v.fread stream.path stream.pos).take HASHING_BUFSIZE = []

/-- The call is the last for the last file of a batch. -/
def FileOp.EndsBatch (s : FileOp) (v : Visit) : Prop :=
  ∃ s₁ taken freed, s.take v = .ok (s₁, taken, freed, true) ∧ s₁.newList.entries = [] ∧ s₁.RoundEnds v

/-- No batch ends with a request outstanding that was made after its walk. -/
def EndsServed (s : Server) : ServerEvent → Prop
  | .fileDo v => s.outstanding = true → ¬ s.shared.Due → ¬ s.shared.EndsBatch v
  | _ => True

/-- A request is made while there is nothing to hash. -/
def RequestsIdle (s : Server) : ServerEvent → Prop
  | .recheck => s.shared.newList.entries = [] ∧ s.shared.hashing = none
  | _ => True

/-- A recheck that does not walk leaves the request. -/
theorem Rechecks.due {s s' : FileOp} {v : Visit} {walked : Bool} (h : Rechecks s v s' walked) (hdue : s.Due)
    (hwalked : walked = false) : s'.Due := by
  cases h with
  | notDue hnot => exact absurd hdue hnot
  | walked => cases hwalked
  | nowhere => exact hdue

/-- A call that is due but does not walk is due again. -/
theorem due_of_not_walked {s s' : FileOp} {v : Visit} {r : Report} (hdue : s.Due)
    (h : fileDo generichash s v = .ok (s', r)) (hr : r.walked = false) : s'.Due := by
  obtain ⟨s₁, s₂, ok, hrecheck, htake, hrest⟩ := fileDo_cases h
  have hs₁ : s₁.Due := hrecheck.due hdue hr
  obtain ⟨rfl, -, -, hok⟩ := htake.eq_of_nothing (.inl hs₁.2.1)
  rcases hrest with ⟨hfalse, -⟩ | ⟨-, hhash⟩
  · rw [hok] at hfalse
    cases hfalse
  · rw [(hhash.eq_of_idle hs₁.2.2).1]
    exact hs₁

/-- Hashing clears the flag if and only if it is done with the last file. -/
theorem Hashes.fileRecheck_iff {s s' : FileOp} {v : Visit} {rc : Option ℤ}
    {announced : Option (SharedFile × ℕ)} (h : Hashes generichash s v s' rc announced)
    (hflag : s.fileRecheck = true) :
    s'.fileRecheck = true ↔ ¬ (s.newList.entries = [] ∧ s.RoundEnds v) := by
  cases h with
  | idle hidle => simp [hflag, FileOp.RoundEnds, hidle]
  | block hbusy hf hs hblock hne =>
    have hnot : ¬ s.RoundEnds v := by
      rintro ⟨-, f, hf', hend⟩
      cases hf.symm.trans hf'
      rw [hblock] at hne
      exact hne (hend _ hs)
    simp [hflag, hnot]
  | done hbusy hf hb hs hend =>
    have hround : s.RoundEnds v := by
      refine ⟨by simp [hbusy], _, hf, fun stream hs' => ?_⟩
      cases hs.symm.trans hs'
      exact hend
    by_cases hnil : s.newList.entries = []
    · simp [hnil, hround]
    · simp [hnil, hflag]
  | failed hbusy hf hs =>
    have hround : s.RoundEnds v := by
      refine ⟨by simp [hbusy], _, hf, fun stream hs' => ?_⟩
      rw [hs] at hs'
      cases hs'
    by_cases hnil : s.newList.entries = []
    · simp [hnil, hround]
    · simp [hnil, hflag]

/-- A call that is not due clears the flag if and only if it ends a batch. -/
theorem fileRecheck_of_not_due {s s' : FileOp} {v : Visit} {r : Report} (hdue : ¬ s.Due)
    (hflag : s.fileRecheck = true) (h : fileDo generichash s v = .ok (s', r)) :
    s'.fileRecheck = true ↔ ¬ s.EndsBatch v := by
  obtain ⟨s₁, s₂, ok, hrecheck, htake, hrest⟩ := fileDo_eq_ok h
  have hs₁ : s₁ = s := by
    have heq : s.recheck v = .ok (s, false) := if_neg hdue
    exact (congrArg Prod.fst (Except.ok.inj (heq.symm.trans hrecheck))).symm
  subst hs₁
  have hflag₂ : s₂.fileRecheck = true := (FileOp.take_cases htake).same.1.trans hflag
  -- what the call takes is what a batch would end with
  have hends : s₁.EndsBatch v ↔ ok = true ∧ s₂.newList.entries = [] ∧ s₂.RoundEnds v := by
    constructor
    · rintro ⟨s₃, taken, freed, htake', hnil, hround⟩
      have heq := Except.ok.inj (htake.symm.trans htake')
      simp only [Prod.mk.injEq] at heq
      obtain ⟨rfl, -, -, rfl⟩ := heq
      exact ⟨rfl, hnil, hround⟩
    · rintro ⟨rfl, hnil, hround⟩
      exact ⟨s₂, _, _, htake, hnil, hround⟩
  rw [hends]
  rcases hrest with ⟨rfl, rfl, -⟩ | ⟨rfl, hhash⟩
  · simp [hflag₂]
  · rw [(FileOp.hash_cases hhash).fileRecheck_iff hflag₂]
    simp

/-- Only `file_do` and the requests touch the flag. -/
theorem ServerDoes.flag {s s' : Server} {e : ServerEvent} {pack : Option ℕ}
    (h : ServerDoes generichash s e s' pack) (hdo : ∀ v, e ≠ .fileDo v) (hrecheck : e ≠ .recheck) :
    s'.shared.fileRecheck = s.shared.fileRecheck ∧ s'.outstanding = s.outstanding ∧
      (s'.shared.Due ↔ s.shared.Due) := by
  cases h with
  | fileDo => exact absurd rfl (hdo _)
  | recheck => exact absurd rfl hrecheck
  | _ => exact ⟨rfl, rfl, Iff.rfl⟩

/-- **The step**: a step loses a request if and only if it ends a batch with one outstanding. -/
theorem kept_serverEvent {s s' : Server} {e : ServerEvent} {pack : Option ℕ}
    (h : serverEvent generichash s e = .ok (s', pack)) (hs : s.Kept) : s'.Kept ↔ EndsServed s e := by
  cases e with
  | fileDo v =>
    obtain ⟨⟨shared, r⟩, hdo, h⟩ := bind_eq_ok.mp h
    cases h
    unfold Server.Kept EndsServed
    cases hout : s.outstanding with
    | false => simp
    | true =>
      have hflag : s.shared.fileRecheck = true := by
        by_contra hclear
        have := hs (by simpa using hclear)
        rw [hout] at this
        cases this
      by_cases hdue : s.shared.Due
      · refine iff_of_true (fun hclear => ?_) fun _ hnot => absurd hdue hnot
        by_contra hwait
        have hnot : r.walked = false := by simpa using hwait
        have := (due_of_not_walked hdue hdo hnot).1
        rw [hclear] at this
        cases this
      · have hwalked : r.walked = false := by
          obtain ⟨s₁, s₂, ok, hrecheck, -⟩ := fileDo_eq_ok hdo
          have heq : s.shared.recheck v = .ok (s.shared, false) := if_neg hdue
          exact (congrArg Prod.snd (Except.ok.inj (heq.symm.trans hrecheck))).symm
        have hclears := fileRecheck_of_not_due hdue hflag hdo
        dsimp only
        rw [hwalked, ← hclears]
        simp [hdue]
  | recheck =>
    cases h
    exact iff_of_true (fun hclear => by cases hclear) trivial
  | _ =>
    obtain ⟨hflag, hout, -⟩ := (does_serverEvent h).flag (fun v hv => by cases hv) (fun hv => by cases hv)
    refine iff_of_true (fun hclear => ?_) trivial
    rw [hout]
    exact hs (hflag ▸ hclear)

/-- A request stays due until its walk. -/
def Server.Waiting (s : Server) : Prop := s.outstanding = true → s.shared.Due

theorem waiting_serverEvent {s s' : Server} {e : ServerEvent} {pack : Option ℕ}
    (h : serverEvent generichash s e = .ok (s', pack)) (hs : s.Waiting) (he : RequestsIdle s e) :
    s'.Waiting := by
  cases e with
  | fileDo v =>
    obtain ⟨⟨shared, r⟩, hdo, h⟩ := bind_eq_ok.mp h
    cases h
    intro hout
    have hout : s.outstanding = true ∧ r.walked = false := by simpa using hout
    exact due_of_not_walked (hs hout.1) hdo hout.2
  | recheck =>
    cases h
    exact fun _ => ⟨rfl, he.1, he.2⟩
  | _ =>
    obtain ⟨-, hout, hdue⟩ := (does_serverEvent h).flag (fun v hv => by cases hv) (fun hv => by cases hv)
    intro hwait
    rw [hdue]
    exact hs (hout ▸ hwait)

/-- **A recheck request is never lost** in a run if and only if no batch ends in it with a
request outstanding that was made after the walk of the batch; and none is lost when requests
are only made while there is nothing to hash. -/
theorem requests_kept_iff (generichash : Bytes → FileId) (fileNewC : Bool) (contents : ℕ → FileId)
    (es : List ServerEvent) :
    (Always (serverStep generichash) Server.Kept (.start fileNewC contents) es ↔
      Along (serverStep generichash) EndsServed (.start fileNewC contents) es) ∧
    (Along (serverStep generichash) RequestsIdle (.start fileNewC contents) es →
      Always (serverStep generichash) Server.Kept (.start fileNewC contents) es) := by
  constructor
  · refine always_iff_along (fun s e s' hstep hs => ?_) (fun _ => rfl)
    obtain ⟨pack, h⟩ := serverStep_eq_some.mp hstep
    exact kept_serverEvent h hs
  · intro hidle
    have hwaiting : Always (serverStep generichash) Server.Waiting (.start fileNewC contents) es := by
      refine always_of_along (fun s e s' hstep hs he => ?_) (fun hout => by cases hout) hidle
      obtain ⟨pack, h⟩ := serverStep_eq_some.mp hstep
      exact waiting_serverEvent h hs he
    apply hwaiting.mono
    intro s hs hclear
    by_contra hout
    have := (hs (by simpa using hout)).1
    rw [hclear] at this
    cases this

/-- A request made after the walk, while the second of two files is still to be hashed, is
cleared with the end of the batch. -/
theorem request_lost :
    ∃ s, runEvents (serverStep fun _ => someHash) (.start true fun _ => someHash)
        [.recheck, .fileDo twoFiles.visit, .recheck, .fileDo twoFiles.visit] = some s ∧
      s.shared.fileRecheck = false ∧ s.outstanding = true :=
  ⟨_, rfl, rfl, rfl⟩

end ToxSuite.Share
