import ToxSuite.Lib.Runs
import ToxSuite.Share.Converge
import ToxSuite.Share.Server

/-!
# Which hashes are seen

The hash of a pack is seen by others when `file_new_c` announces the pack, when
`cmd_info` tells of it and when `file_sender_new` gives it to Tox as the id of a
transfer. `file_do` announces a pack also when its file did not open, and nothing
keeps a command from a pack that is being hashed or did not open: `exists` is true
all the time.

A run shows finished hashes only if and only if no file fails to open when its
hashing begins, as long as there is a callback, and no command takes a pack that
is being hashed or did not open (`visible_iff`).
-/

namespace ToxSuite.Share

open ToxSuite.Lib ToxSuite.File

variable {generichash : Bytes → FileId}

/-! ### How far the hashing is -/

/-- The history of the rounds agrees with the state: what is being hashed is unfinished, and
nothing else that has a hash buffer is. -/
structure Tracked (s : FileOp) (rounds : ℕ → Round) : Prop where
  busy : ∀ i, s.hashing = some i → i = s.last ∧ rounds i = .unfinished
  idle : ∀ i f b, s.shrList.entries[i]? = some f → f.blake2b = some b → rounds i = .unfinished →
    s.hashing = some i
  pending : ∀ f ∈ s.newList.entries, f.blake2b = none

theorem Rechecks.tracked {s s' : FileOp} {v : Visit} {walked : Bool} {rounds : ℕ → Round}
    (h : Rechecks s v s' walked) (hs : Tracked s rounds) : Tracked s' rounds := by
  have hidle : ∀ (i : ℕ) f b, (s.shrList.entries.map (SharedFile.checked v))[i]? = some f →
      f.blake2b = some b → rounds i = .unfinished → s.hashing = some i := by
    intro i f b hf hb hround
    obtain ⟨f', hf', rfl⟩ := getElem?_map_checked hf
    exact hs.idle i f' b hf' hb hround
  cases h with
  | notDue => exact hs
  | nowhere => exact ⟨hs.busy, hidle, hs.pending⟩
  | walked hdue hv hnew =>
    subst hnew
    exact ⟨hs.busy, hidle, ftw_blake2b _ v _ _ hs.pending⟩

/-- While nothing is hashed, what has a hash buffer is not unfinished. -/
theorem Tracked.not_unfinished {s : FileOp} {rounds : ℕ → Round} (hs : Tracked s rounds)
    (hidle : s.hashing = none) {i b : ℕ} {f : SharedFile} (hf : s.shrList.entries[i]? = some f)
    (hb : f.blake2b = some b) : rounds i ≠ .unfinished := by
  intro hround
  have := hs.idle i f b hf hb hround
  rw [hidle] at this
  cases this

theorem Takes.tracked {s s' : FileOp} {v : Visit} {taken freed : Option ℕ} {ok : Bool} {rounds : ℕ → Round}
    (h : Takes s v s' taken freed ok) (hs : Tracked s rounds) : Tracked s' (placedRounds taken rounds) := by
  -- an entry other than the one placed is as before
  have hother : ∀ {node : SharedFile} {placed : List SharedFile} {last i b : ℕ} {freed : Option ℕ}
      {f : SharedFile}, s.hashing = none → Places s.shrList.entries node last freed placed → i ≠ last →
      placed[i]? = some f → f.blake2b = some b →
      Function.update rounds last .unfinished i ≠ .unfinished := by
    intro node placed last i b freed f hidle hp hi hf hb
    rw [Function.update_of_ne hi]
    rw [hp.other hi] at hf
    exact hs.not_unfinished hidle hf hb
  have hrest : ∀ {node : SharedFile} {rest : List SharedFile}, s.newList.entries = rest ++ [node] →
      (∀ f ∈ rest, f.blake2b = none) ∧ node.blake2b = none := by
    intro node rest hnew
    exact ⟨fun f hf => hs.pending f (by simp [hnew, hf]), hs.pending node (by simp [hnew])⟩
  cases h with
  | nothing => exact hs
  | noRoom => exact ⟨hs.busy, hs.idle, hs.pending⟩
  | noShrink hidle hnew hp hv =>
    next node rest placed last =>
    refine ⟨fun i hi => ?_, fun i f b hf hb hround => ?_, (hrest hnew).1⟩
    · rw [show s.hashing = none from hidle] at hi
      cases hi
    · by_cases hi : i = last
      · subst hi
        cases hp.self.symm.trans hf
        rw [(hrest hnew).2] at hb
        cases hb
      · exact absurd hround (hother hidle hp hi hf hb)
  | noHash hidle hnew hp hv =>
    next node rest placed last =>
    have hp' := hp.setHash none
    refine ⟨fun i hi => ?_, fun i f b hf hb hround => ?_, (hrest hnew).1⟩
    · rw [show s.hashing = none from hidle] at hi
      cases hi
    · by_cases hi : i = last
      · subst hi
        cases hp'.self.symm.trans hf
        cases hb
      · exact absurd hround (hother hidle hp' hi hf hb)
  | begun hidle hnew hp =>
    next node rest placed last =>
    have hp' := hp.setHash (some s.nextBuf)
    refine ⟨fun i hi => ?_, fun i f b hf hb hround => ?_, (hrest hnew).1⟩
    · cases hi
      exact ⟨rfl, Function.update_self ..⟩
    · by_cases hi : i = last
      · subst hi
        rfl
      · exact absurd hround (hother hidle hp' hi hf hb)

theorem Hashes.tracked {s s' : FileOp} {v : Visit} {rc : Option ℤ} {announced : Option (SharedFile × ℕ)}
    {rounds : ℕ → Round} (h : Hashes generichash s v s' rc announced) (hs : Tracked s rounds) :
    Tracked s' (hashedRounds rc s'.last rounds) := by
  -- only the file that was hashed was unfinished
  have hdone : ∀ {i : ℕ} {round : Round}, s.hashing = some i → round ≠ .unfinished →
      ∀ j f b, s.shrList.entries[j]? = some f → f.blake2b = some b →
        Function.update rounds s.last round j ≠ .unfinished := by
    intro i round hbusy hround j f b hf hb hj
    by_cases hlast : j = s.last
    · subst hlast
      rw [Function.update_self] at hj
      exact hround hj
    · rw [Function.update_of_ne hlast] at hj
      exact hlast (hs.busy j (hs.idle j f b hf hb hj)).1
  cases h with
  | idle => exact hs
  | block hbusy hf hstream hblock hne =>
    next i f stream block =>
    have hrounds : hashedRounds (some (block.length : ℤ)) s.last rounds = rounds := by
      have := List.length_pos_iff.mpr hne
      unfold hashedRounds
      dsimp only
      rw [if_neg (by omega), if_neg (by omega)]
    show Tracked _ (hashedRounds (some (block.length : ℤ)) s.last rounds)
    rw [hrounds]
    exact ⟨hs.busy, hs.idle, hs.pending⟩
  | done hbusy =>
    refine ⟨fun i hi => ?_, fun j f b hf hb hround => ?_, hs.pending⟩
    · cases hi
    · exact absurd hround (hdone hbusy (by decide) j f b hf hb)
  | failed hbusy =>
    refine ⟨fun i hi => ?_, fun j f b hf hb hround => ?_, hs.pending⟩
    · cases hi
    · exact absurd hround (hdone hbusy (by decide) j f b hf hb)

theorem tracked_fileDo {s s' : FileOp} {v : Visit} {r : Report} {rounds : ℕ → Round}
    (h : fileDo generichash s v = .ok (s', r)) (hs : Tracked s rounds) :
    Tracked s' (r.rounds s'.last rounds) := by
  unfold Report.rounds
  obtain ⟨s₁, s₂, ok, hrecheck, htake, ⟨-, rfl, hrc, -⟩ | ⟨-, hhash⟩⟩ := fileDo_cases h
  · rw [hrc]
    exact htake.tracked (hrecheck.tracked hs)
  · exact hhash.tracked (htake.tracked (hrecheck.tracked hs))

/-! ### What a step shows -/

/-- A hash that an event makes visible is complete. -/
def OnlyComplete (generichash : Bytes → FileId) (s : Server) (e : ServerEvent) : Prop :=
  ∀ s' i, serverEvent generichash s e = .ok (s', some i) → s'.rounds i = .complete

/-- The file whose hashing begins with this call opens. -/
def FileOp.OpensNext (s : FileOp) (v : Visit) : Prop :=
  ∀ s₁ walked s₂ taken freed f, s.recheck v = .ok (s₁, walked) → s₁.take v = .ok (s₂, taken, freed, true) →
    s₂.hashing.isSome → s₂.stream = none → s₂.shrList.entries[s₂.last]? = some f → v.opens f.file = true

/-- The pack is not being hashed, and its file did not fail to open. -/
def Server.Settled (s : Server) (i : ℕ) : Prop := s.shared.hashing ≠ some i ∧ s.rounds i ≠ .unopened

/-- A file that is to be hashed opens while there is a callback, and commands take settled
packs. -/
structure TakesSettled (s : Server) (e : ServerEvent) : Prop where
  opens : ∀ v, e = .fileDo v → s.shared.fileNewC = true → s.shared.OpensNext v
  info : ∀ arg packn, e = .info [arg] → packArgument s.shared.shrList 0 arg = .ok (some packn) →
    s.Settled packn.toNat
  /-- A sender whose file opens. -/
  send : ∀ n (i : ℕ) answer f, Calls s e n i answer → s.shared.shrList.entries[i]? = some f →
    (answer.disk.fopen f.file .read).isSome → s.Settled i

/-- The history of a server agrees with its state. -/
def Server.Tracks (s : Server) : Prop := Tracked s.shared s.rounds

theorem tracks_serverEvent {s s' : Server} {e : ServerEvent} {pack : Option ℕ}
    (h : serverEvent generichash s e = .ok (s', pack)) (hs : s.Tracks) : s'.Tracks := by
  cases does_serverEvent h with
  | fileDo hdo => exact tracked_fileDo hdo hs
  | recheck | listSent => exact ⟨hs.busy, hs.idle, hs.pending⟩
  | told | unopened | packSent | ended | nothing => exact hs

/-- A pack with a hash buffer is settled if and only if its hash is complete. -/
theorem Tracked.settled_iff {s : Server} (hs : s.Tracks) {i b : ℕ} {f : SharedFile}
    (hf : s.shared.shrList.entries[i]? = some f) (hb : f.blake2b = some b) :
    s.Settled i ↔ s.rounds i = .complete := by
  constructor
  · rintro ⟨hbusy, hopen⟩
    cases hround : s.rounds i with
    | unfinished => exact absurd (hs.idle i f b hf hb hround) hbusy
    | complete => rfl
    | unopened => exact absurd hround hopen
  · intro hround
    constructor
    · intro hbusy
      have := (hs.busy i hbusy).2
      rw [hround] at this
      cases this
    · rw [hround]
      decide

/-- The last part of a call announces a finished hash only, if and only if the file opens. -/
theorem Hashes.complete_iff {s s' : FileOp} {v : Visit} {rc : Option ℤ}
    {announced : Option (SharedFile × ℕ)} (h : Hashes generichash s v s' rc announced) (rounds : ℕ → Round) :
    (∀ a ∈ announced, hashedRounds rc s'.last rounds a.2 = .complete) ↔
      (s.fileNewC = true → ∀ f, s.hashing.isSome → s.stream = none → s.shrList.entries[s.last]? = some f →
        v.opens f.file = true) := by
  cases h with
  | idle hidle => simp [hidle]
  | block hbusy hf hs hblock hne =>
    refine iff_of_true (by simp) fun _ g _ hstream hg => ?_
    cases hf.symm.trans hg
    by_contra hopen
    simp [FileOp.openStream, hstream, hopen] at hs
  | done hbusy hf hb hs hend =>
    refine iff_of_true (fun a ha => ?_) fun _ g _ hstream hg => ?_
    · split_ifs at ha with hc
      · cases ha
        simp [hashedRounds]
      · cases ha
    · cases hf.symm.trans hg
      by_contra hopen
      simp [FileOp.openStream, hstream, hopen] at hs
  | failed hbusy hf hs =>
    next i f =>
    have hnone : s.stream = none ∧ v.opens f.file = false := by
      unfold FileOp.openStream at hs
      cases hstream : s.stream with
      | some stream => simp [hstream] at hs
      | none => simpa [hstream] using hs
    cases hc : s.fileNewC with
    | false => simp
    | true =>
      refine iff_of_false (fun hall => ?_) fun hall => ?_
      · have := hall (f, s.last) (by simp)
        simp [hashedRounds] at this
      · have := hall rfl f (by simp [hbusy]) hnone.1 hf
        rw [hnone.2] at this
        cases this

/-- An event shows what its step says. -/
theorem onlyComplete_iff {s s' : Server} {e : ServerEvent} {pack : Option ℕ}
    (h : serverEvent generichash s e = .ok (s', pack)) :
    OnlyComplete generichash s e ↔ ∀ i ∈ pack, s'.rounds i = .complete := by
  constructor
  · intro honly i hi
    rw [Option.mem_def.mp hi] at h
    exact honly _ _ h
  · intro hall s'' i h''
    obtain ⟨rfl, hi⟩ := Prod.mk.inj (Except.ok.inj (h.symm.trans h''))
    exact hall i hi

/-- A call of `file_do` announces a finished hash only, if and only if the file opens. -/
theorem announced_iff {s s' : FileOp} {v : Visit} {r : Report} (h : fileDo generichash s v = .ok (s', r))
    (rounds : ℕ → Round) :
    (∀ i ∈ r.announced.map Prod.snd, r.rounds s'.last rounds i = .complete) ↔
      (s.fileNewC = true → s.OpensNext v) := by
  obtain ⟨s₁, s₂, ok, hrecheck, htake, hrest⟩ := fileDo_eq_ok h
  have hcallback : s₂.fileNewC = s.fileNewC :=
    (FileOp.take_cases htake).same.2.2.trans (FileOp.recheck_cases hrecheck).fileNewC_eq
  -- the parts of the call are the only ones there are
  have hopens : s.OpensNext v ↔ (ok = true → ∀ f, s₂.hashing.isSome → s₂.stream = none →
      s₂.shrList.entries[s₂.last]? = some f → v.opens f.file = true) := by
    constructor
    · rintro hopens rfl f
      exact hopens s₁ _ s₂ _ _ f hrecheck htake
    · intro hall s₁' walked s₂' taken freed f hrecheck' htake'
      obtain ⟨rfl, -⟩ := Prod.mk.inj (Except.ok.inj (hrecheck.symm.trans hrecheck'))
      obtain ⟨rfl, hrest'⟩ := Prod.mk.inj (Except.ok.inj (htake.symm.trans htake'))
      exact hall (congrArg (fun p : Option ℕ × Option ℕ × Bool => p.2.2) hrest') f
  have hmap : (∀ i ∈ r.announced.map Prod.snd, r.rounds s'.last rounds i = .complete) ↔
      ∀ a ∈ r.announced, r.rounds s'.last rounds a.2 = .complete := by
    constructor
    · intro hall a ha
      exact hall a.2 (Option.mem_map.mpr ⟨a, ha, rfl⟩)
    · intro hall i hi
      obtain ⟨a, ha, rfl⟩ := Option.mem_map.mp hi
      exact hall a ha
  rw [hmap, hopens, ← hcallback]
  rcases hrest with ⟨rfl, -, -, hnone⟩ | ⟨rfl, hhash⟩
  · simp [hnone]
  · have hiff := (FileOp.hash_cases hhash).complete_iff (placedRounds r.taken rounds)
    simpa [Report.rounds] using hiff

/-- **The step**: a step shows a finished hash only if and only if the file it hashes opens and
the pack it takes is settled. -/
theorem onlyComplete_serverEvent {s s' : Server} {e : ServerEvent} {pack : Option ℕ}
    (h : serverEvent generichash s e = .ok (s', pack)) (hs : s.Tracks) :
    OnlyComplete generichash s e ↔ TakesSettled s e := by
  rw [onlyComplete_iff h]
  cases does_serverEvent h with
  | fileDo hdo =>
    next v shared r =>
    rw [announced_iff hdo s.rounds]
    constructor
    · intro hopens
      refine ⟨fun v' hv' => ?_, fun arg packn he => ?_, fun n i answer f hcall => ?_⟩
      · cases hv'
        exact hopens
      · cases he
      · cases hcall
    · intro htakes
      exact htakes.opens v rfl
  | recheck =>
    refine iff_of_true (by simp) ⟨fun v he => ?_, fun arg packn he => ?_, fun n i answer f hcall => ?_⟩
    · cases he
    · cases he
    · cases hcall
  | told harg hf hb =>
    next arg packn f b =>
    have hiff := Tracked.settled_iff hs hf hb
    constructor
    · intro hall
      refine ⟨fun v he => ?_, fun arg' packn' he harg' => ?_, fun n i answer f hcall => ?_⟩
      · cases he
      · cases he
        cases harg.symm.trans harg'
        exact hiff.mpr (hall _ rfl)
      · cases hcall
    · intro htakes i hi
      cases hi
      exact hiff.mp (htakes.info arg packn rfl harg)
  | unopened hcall hf hb hopen =>
    obtain ⟨hdo, hinfo, -⟩ := hcall.not_other
    refine iff_of_true (by simp) ⟨fun v he => absurd he (hdo v), fun arg _ he => absurd he (hinfo _),
      fun n i answer f hcall' hf' hopen' => ?_⟩
    obtain ⟨-, hi, rfl⟩ := hcall.det hcall'
    cases Int.ofNat.inj hi
    cases hf.symm.trans hf'
    simp [hopen] at hopen'
  | packSent hcall hf hb hopen hg hpack =>
    next n i b answer f g =>
    obtain ⟨hdo, hinfo, -⟩ := hcall.not_other
    have hiff := Tracked.settled_iff hs hf hb
    constructor
    · intro hall
      refine ⟨fun v he => absurd he (hdo v), fun arg _ he => absurd he (hinfo _),
        fun n' i' answer' f' hcall' hf' hopen' => ?_⟩
      obtain ⟨-, hi, -⟩ := hcall.det hcall'
      cases Int.ofNat.inj hi
      exact hiff.mpr (hall _ rfl)
    · intro htakes j hj
      cases hj
      exact hiff.mp (htakes.send n i answer f hcall hf hopen)
  | listSent hcall hlow =>
    obtain ⟨hdo, hinfo, -⟩ := hcall.not_other
    refine iff_of_true (by simp) ⟨fun v he => absurd he (hdo v), fun arg _ he => absurd he (hinfo _),
      fun n i answer f hcall' => ?_⟩
    obtain ⟨-, hi, -⟩ := hcall.det hcall'
    omega
  | ended he =>
    refine iff_of_true (by simp) ⟨fun v hv => ?_, fun arg packn hv => ?_, fun n i answer f hcall => ?_⟩
    · subst hv
      cases he
    · subst hv
      cases he
    · exact absurd he (hcall.not_other.2.2 _ _)
  | nothing hdo hinfo hcall hend =>
    refine iff_of_true (by simp) ⟨fun v he => absurd he (hdo v),
      fun arg packn he harg => absurd harg (hinfo arg packn he), fun n i answer f hcall' => ?_⟩
    have := hcall n i answer hcall'
    omega

/-- **Only finished hashes are seen** in a run if and only if every file that is to be hashed
opens, as long as there is a callback, and commands take settled packs only. A hash is finished when
`file_checksumcalc_noblock` came to the end of the file after the entry was placed. -/
theorem visible_iff (generichash : Bytes → FileId) (fileNewC : Bool) (contents : ℕ → FileId)
    (es : List ServerEvent) :
    Along (serverStep generichash) (OnlyComplete generichash) (.start fileNewC contents) es ↔
      Along (serverStep generichash) TakesSettled (.start fileNewC contents) es := by
  refine along_congr_of_inv (I := Server.Tracks) (fun s e s' hstep hs _ => ?_) (fun s e s' hstep hs => ?_) ?_
  · obtain ⟨pack, h⟩ := serverStep_eq_some.mp hstep
    exact tracks_serverEvent h hs
  · obtain ⟨pack, h⟩ := serverStep_eq_some.mp hstep
    exact onlyComplete_serverEvent h hs
  · refine ⟨fun i hi => ?_, fun i f b hf => ?_, fun f hf => ?_⟩
    · cases hi
    · cases hf
    · cases hf

/-- The files of the directory are there, but do not open. -/
def unreadable : Visit := { twoFiles.visit with opens := fun _ => false }

/-- A file that does not open is announced; without a callback `cmd_info` still tells of it. -/
theorem unopened_shown :
    ¬ Along (serverStep fun _ => someHash) (OnlyComplete fun _ => someHash) (.start true fun _ => someHash)
        ([.recheck] ++ [.fileDo unreadable]) ∧
      ¬ Along (serverStep fun _ => someHash) (OnlyComplete fun _ => someHash)
        (.start false fun _ => someHash)
        ([.recheck, .fileDo unreadable] ++ [.info [.ofBytes (ascii "0")]]) := by
  constructor
  · intro h
    have honly := h.next rfl rfl
    exact absurd (honly _ 0 rfl) (by decide)
  · intro h
    have honly := h.next rfl rfl
    exact absurd (honly _ 0 rfl) (by decide)

end ToxSuite.Share
