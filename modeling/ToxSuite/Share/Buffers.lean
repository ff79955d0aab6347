import ToxSuite.Lib.Runs
import ToxSuite.Share.Converge
import ToxSuite.Share.Server

/-!
# Who owns a hash buffer

`file_sender_new` copies the pointer to a pack's hash, so the pack's entry and its
senders have one buffer. `FileSender_destroy` frees it when one of them ends, or
when the file does not open, and `file_do` frees it when it replaces the entry.

A run gives no buffer back twice and leaves none in use that was given back if and
only if no file of a pack fails to open in `file_sender_new`, no transfer of a pack
ends, and no entry is replaced while a sender of the pack is on the queue
(`owners_iff`).
-/

namespace ToxSuite.Share

open ToxSuite.Lib ToxSuite.File

variable {generichash : Bytes → FileId}

/-- No buffer was given back twice, and none that was is in use. -/
structure Server.Unspoilt (s : Server) : Prop where
  once : s.released.Nodup
  entries : ∀ f ∈ s.shared.shrList.entries, ∀ b, f.blake2b = some b → b ∉ s.released
  senders : ∀ g ∈ s.filesSender, ∀ b, g.info.blake2b = some b → b ∉ s.released

/-- Whose buffers are whose: a sender of a pack has that of its entry, and one of the pack
list its own. -/
structure Server.Shares (s : Server) : Prop where
  unspoilt : s.Unspoilt
  blank : s.shared.Blank
  entries_lt : ∀ i b, s.shared.buf i = some b → b < s.shared.nextBuf
  senders_lt : ∀ g ∈ s.filesSender, ∀ b, g.info.blake2b = some b → b < s.shared.nextBuf
  released_lt : ∀ b ∈ s.released, b < s.shared.nextBuf
  distinct : ∀ i j b, s.shared.buf i = some b → s.shared.buf j = some b → i = j
  pack : ∀ g ∈ s.filesSender, ∀ i, g.pack = some i →
    ∃ b, s.shared.buf i = some b ∧ g.info.blake2b = some b
  list : ∀ g ∈ s.filesSender, g.pack = none → ∀ i b, g.info.blake2b = some b → s.shared.buf i ≠ some b
  alone : s.filesSender.Pairwise fun g h => ∀ b, g.pack = none ∨ h.pack = none →
    g.info.blake2b = some b → h.info.blake2b ≠ some b

/-- Senders of packs are made and last, and their packs are not replaced. -/
structure KeepsOwners (s : Server) (e : ServerEvent) : Prop where
  /-- The entry that a call of `file_do` replaces has no sender. -/
  replaced : ∀ v s₁ walked s₂ t freed ok, e = .fileDo v → s.shared.recheck v = .ok (s₁, walked) →
    s₁.take v = .ok (s₂, some t, freed, ok) → ∀ g ∈ s.filesSender, g.pack ≠ some t
  /-- The file of a pack opens in `file_sender_new`. -/
  opened : ∀ n (i : ℕ) answer f, Calls s e n i answer → s.shared.shrList.entries[i]? = some f →
    (answer.disk.fopen f.file .read).isSome
  /-- A transfer that ends is one of the pack list. -/
  ended : ∀ n m g, Ends e n m → s.filesSender.find? (·.hasKey n m) = some g → g.pack = none

/-- Only `file_do` replaces entries. -/
theorem KeepsOwners.of_other {s : Server} {e : ServerEvent} (hdo : ∀ v, e ≠ .fileDo v)
    (hopened : ∀ n (i : ℕ) answer f, Calls s e n i answer → s.shared.shrList.entries[i]? = some f →
      (answer.disk.fopen f.file .read).isSome)
    (hended : ∀ n m g, Ends e n m → s.filesSender.find? (·.hasKey n m) = some g → g.pack = none) :
    KeepsOwners s e where
  replaced v _ _ _ _ _ _ he := absurd he (hdo v)
  opened := hopened
  ended := hended

/-- The buffers in use by entries, by their index. -/
theorem entries_iff_buf {s : FileOp} {p : ℕ → Prop} :
    (∀ f ∈ s.shrList.entries, ∀ b, f.blake2b = some b → p b) ↔ ∀ i b, s.buf i = some b → p b := by
  constructor
  · intro h i b hb
    obtain ⟨f, hf, hb⟩ := Option.bind_eq_some_iff.mp hb
    exact h f (List.mem_of_getElem? hf) b hb
  · intro h f hf b hb
    obtain ⟨i, hi⟩ := List.getElem?_of_mem hf
    exact h i b (by rw [FileOp.buf, hi]; exact hb)

/-- `Unspoilt` by the index of entries. -/
theorem Server.unspoilt_iff {s : Server} : s.Unspoilt ↔ s.released.Nodup ∧
    (∀ i b, s.shared.buf i = some b → b ∉ s.released) ∧
    ∀ g ∈ s.filesSender, ∀ b, g.info.blake2b = some b → b ∉ s.released := by
  constructor
  · rintro ⟨h₁, h₂, h₃⟩
    exact ⟨h₁, entries_iff_buf.mp h₂, h₃⟩
  · rintro ⟨h₁, h₂, h₃⟩
    exact ⟨h₁, entries_iff_buf.mpr h₂, h₃⟩

/-! ### `file_do` -/

/-- A sender's buffer is that of no entry other than its pack's. -/
theorem Server.Shares.buf_ne {s : Server} (hs : s.Shares) {g : PackSender} (hg : g ∈ s.filesSender) {t b : ℕ}
    (ht : g.pack ≠ some t) (hb : g.info.blake2b = some b) : s.shared.buf t ≠ some b := by
  intro hbuf
  cases hpack : g.pack with
  | none => exact hs.list g hg hpack t b hb hbuf
  | some i =>
    obtain ⟨b', hi, hb'⟩ := hs.pack g hg i hpack
    cases hb.symm.trans hb'
    exact ht (hpack.trans (congrArg some (hs.distinct i t b hi hbuf)))

section FileDo

variable (rounds : ℕ → Round) (outstanding : Bool)

/-- The state after a call of `file_do` that freed a buffer or none. -/
def Server.afterDo (s : Server) (shared : FileOp) (freed : Option ℕ) : Server :=
  { s with shared, released := s.released ++ freed.toList, rounds, outstanding }

/-- A call of `file_do` spoils nothing if and only if the entry it replaces has no sender. -/
theorem unspoilt_afterDo {s : Server} (hs : s.Shares) {shared : FileOp} {taken freed : Option ℕ}
    (h : Rebuffers s.shared shared taken freed) :
    (s.afterDo rounds outstanding shared freed).Unspoilt ↔
      ∀ t ∈ taken, ∀ g ∈ s.filesSender, g.pack ≠ some t := by
  obtain ⟨hnodup, hentries, hsenders⟩ := Server.unspoilt_iff.mp hs.unspoilt
  cases h with
  | same hbuf hnext =>
    refine iff_of_true (Server.unspoilt_iff.mpr ⟨?_, ?_, ?_⟩) (by simp)
    · simpa [Server.afterDo] using hnodup
    · intro i b hb
      have hb : s.shared.buf i = some b := by rw [← hbuf]; exact hb
      simpa [Server.afterDo] using hentries i b hb
    · intro g hg b hb
      simpa [Server.afterDo] using hsenders g hg b hb
  | replaced hbuf hnext hx =>
    next t x =>
    constructor
    · intro hun t' ht' g hg hpack
      cases ht'
      obtain ⟨b, hb, hgb⟩ := hs.pack g hg t hpack
      apply hun.senders g hg b hgb
      simp [Server.afterDo, hb]
    · intro hkeep
      -- the buffer that is freed is still there, and of no other entry or sender
      have hfreed : ∀ b ∈ (s.shared.buf t).toList, b ∉ s.released ∧ b < s.shared.nextBuf := by
        intro b hb
        have hb : s.shared.buf t = some b := by simpa using hb
        exact ⟨hentries t b hb, hs.entries_lt t b hb⟩
      refine Server.unspoilt_iff.mpr ⟨?_, ?_, ?_⟩
      · refine List.nodup_append.mpr ⟨hnodup, ?_, fun a ha b hb hab => ?_⟩
        · cases s.shared.buf t <;> simp
        · exact (hfreed b hb).1 (hab ▸ ha)
      · intro i b hb hmem
        have hb : Function.update s.shared.buf t x i = some b := by rw [← hbuf]; exact hb
        rcases List.mem_append.mp hmem with hold | hnew
        · by_cases hi : i = t
          · rw [hi, Function.update_self] at hb
            have := hs.released_lt b hold
            have := (hx b hb).1
            omega
          · rw [Function.update_of_ne hi] at hb
            exact hentries i b hb hold
        · by_cases hi : i = t
          · rw [hi, Function.update_self] at hb
            have := (hfreed b hnew).2
            have := (hx b hb).1
            omega
          · rw [Function.update_of_ne hi] at hb
            exact hi (hs.distinct i t b hb (by simpa using hnew))
      · intro g hg b hb hmem
        rcases List.mem_append.mp hmem with hold | hnew
        · exact hsenders g hg b hb hold
        · exact hs.buf_ne hg (hkeep t rfl g hg) hb (by simpa using hnew)

/-- What a replaced entry without senders leaves of the sharing. -/
theorem shares_afterDo {s : Server} (hs : s.Shares) {shared : FileOp} {taken freed : Option ℕ}
    (h : Rebuffers s.shared shared taken freed) (hblank : shared.Blank)
    (hkeep : ∀ t ∈ taken, ∀ g ∈ s.filesSender, g.pack ≠ some t) :
    (s.afterDo rounds outstanding shared freed).Shares := by
  have hun := (unspoilt_afterDo rounds outstanding hs h).mpr hkeep
  cases h with
  | same hbuf hnext =>
    refine ⟨hun, hblank, ?_, ?_, ?_, ?_, ?_, ?_, hs.alone⟩
    · intro i b hb
      exact hnext ▸ hs.entries_lt i b (hbuf ▸ hb)
    · intro g hg b hb
      exact hnext ▸ hs.senders_lt g hg b hb
    · intro b hb
      exact hnext ▸ hs.released_lt b (by simpa [Server.afterDo] using hb)
    · intro i j b hi hj
      exact hs.distinct i j b (hbuf ▸ hi) (hbuf ▸ hj)
    · intro g hg i hpack
      obtain ⟨b, hb, hgb⟩ := hs.pack g hg i hpack
      exact ⟨b, (congrFun hbuf i).trans hb, hgb⟩
    · intro g hg hpack i b hb hbuf'
      exact hs.list g hg hpack i b hb (hbuf ▸ hbuf')
  | replaced hbuf hnext hx =>
    next t x =>
    have hcase : ∀ i b, shared.buf i = some b → (i = t ∧ x = some b) ∨ (i ≠ t ∧ s.shared.buf i = some b) := by
      intro i b hb
      rw [hbuf] at hb
      by_cases hi : i = t
      · subst hi
        rw [Function.update_self] at hb
        exact .inl ⟨rfl, hb⟩
      · rw [Function.update_of_ne hi] at hb
        exact .inr ⟨hi, hb⟩
    refine ⟨hun, hblank, ?_, ?_, ?_, ?_, ?_, ?_, hs.alone⟩
    · intro i b hb
      rcases hcase i b hb with ⟨-, hb⟩ | ⟨-, hb⟩
      · exact (hx b hb).2
      · exact (hs.entries_lt i b hb).trans_le hnext
    · intro g hg b hb
      exact (hs.senders_lt g hg b hb).trans_le hnext
    · intro b hb
      rcases List.mem_append.mp hb with hb | hb
      · exact (hs.released_lt b hb).trans_le hnext
      · exact (hs.entries_lt t b (by simpa using hb)).trans_le hnext
    · intro i j b hi hj
      rcases hcase i b hi with ⟨hit, hbx⟩ | ⟨-, hbi⟩
      · rcases hcase j b hj with ⟨hjt, -⟩ | ⟨-, hbj⟩
        · rw [hit, hjt]
        · have := (hx b hbx).1
          have := hs.entries_lt j b hbj
          omega
      · rcases hcase j b hj with ⟨-, hbx⟩ | ⟨-, hbj⟩
        · have := (hx b hbx).1
          have := hs.entries_lt i b hbi
          omega
        · exact hs.distinct i j b hbi hbj
    · intro g hg i hpack
      obtain ⟨b, hb, hgb⟩ := hs.pack g hg i hpack
      refine ⟨b, ?_, hgb⟩
      have hi : i ≠ t := by
        rintro rfl
        exact hkeep i rfl g hg hpack
      show shared.buf i = some b
      rw [hbuf, Function.update_of_ne hi, hb]
    · intro g hg hpack i b hb hbuf'
      rcases hcase i b hbuf' with ⟨-, hbx⟩ | ⟨-, hbi⟩
      · have := (hx b hbx).1
        have := hs.senders_lt g hg b hb
        omega
      · exact hs.list g hg hpack i b hb hbi

end FileDo

/-! ### Senders -/

/-- A key names the entry that is cut, and what stays is the rest. -/
theorem eraseP_hasKey {l : List PackSender} {n m : UInt32} {g : PackSender}
    (h : l.find? (·.hasKey n m) = some g) :
    ∃ l₁ l₂, l = l₁ ++ g :: l₂ ∧ l.eraseP (·.hasKey n m) = l₁ ++ l₂ := by
  obtain ⟨hkey, l₁, l₂, rfl, hfirst⟩ := List.find?_eq_some_iff_append.mp h
  refine ⟨l₁, l₂, rfl, ?_⟩
  rw [List.eraseP_append_right _ (by simpa using hfirst), List.eraseP_cons_of_pos hkey]

/-- The end of a transfer spoils nothing if and only if it is one of the pack list. -/
theorem unspoilt_destroy {s : Server} (hs : s.Shares) {n m : UInt32} {g : PackSender}
    (hget : s.filesSender.find? (·.hasKey n m) = some g) : (s.destroy g n m).Unspoilt ↔ g.pack = none := by
  obtain ⟨hnodup, hentries, hsenders⟩ := Server.unspoilt_iff.mp hs.unspoilt
  have hg : g ∈ s.filesSender := List.mem_of_find?_eq_some hget
  obtain ⟨l₁, l₂, hl, herase⟩ := eraseP_hasKey hget
  constructor
  · intro hun
    by_contra hpack
    obtain ⟨i, hi⟩ := Option.ne_none_iff_exists'.mp hpack
    obtain ⟨b, hb, hgb⟩ := hs.pack g hg i hi
    apply (Server.unspoilt_iff.mp hun).2.1 i b hb
    simp [Server.destroy, hgb]
  · intro hpack
    refine Server.unspoilt_iff.mpr ⟨?_, ?_, ?_⟩
    · refine List.nodup_append.mpr ⟨hnodup, ?_, fun a ha b hb hab => ?_⟩
      · cases g.info.blake2b <;> simp
      · exact hsenders g hg b (by simpa using hb) (hab ▸ ha)
    · intro i b hb hmem
      rcases List.mem_append.mp hmem with hold | hnew
      · exact hentries i b hb hold
      · exact hs.list g hg hpack i b (by simpa using hnew) hb
    · intro h hh b hb hmem
      have hh : h ∈ l₁ ++ l₂ := herase ▸ hh
      rcases List.mem_append.mp hmem with hold | hnew
      · refine hsenders h ?_ b hb hold
        rw [hl]
        rcases List.mem_append.mp hh with hh | hh
        · exact List.mem_append_left _ hh
        · exact List.mem_append_right _ (List.mem_cons_of_mem _ hh)
      · have hgb : g.info.blake2b = some b := by simpa using hnew
        have halone := hs.alone
        rw [hl, List.pairwise_append] at halone
        obtain ⟨-, htail, hcross⟩ := halone
        rcases List.mem_append.mp hh with hh | hh
        · exact hcross h hh g List.mem_cons_self b (.inr hpack) hb hgb
        · exact (List.pairwise_cons.mp htail).1 h hh b (.inl hpack) hgb hb

theorem shares_destroy {s : Server} (hs : s.Shares) {n m : UInt32} {g : PackSender}
    (hget : s.filesSender.find? (·.hasKey n m) = some g) (hpack : g.pack = none) : (s.destroy g n m).Shares := by
  have hg : g ∈ s.filesSender := List.mem_of_find?_eq_some hget
  have hsub : (s.destroy g n m).filesSender.Sublist s.filesSender := List.eraseP_sublist
  refine ⟨(unspoilt_destroy hs hget).mpr hpack, hs.blank, hs.entries_lt, ?_, ?_, hs.distinct, ?_, ?_,
    hs.alone.sublist hsub⟩
  · exact fun h hh => hs.senders_lt h (hsub.subset hh)
  · intro b hb
    rcases List.mem_append.mp hb with hb | hb
    · exact hs.released_lt b hb
    · exact hs.senders_lt g hg b (by simpa using hb)
  · exact fun h hh => hs.pack h (hsub.subset hh)
  · exact fun h hh => hs.list h (hsub.subset hh)

/-- A sender of a pack shares the buffer of its entry. -/
theorem shares_packSent {s : Server} (hs : s.Shares) {i b : ℕ} {f : SharedFile} {g : PackSender}
    (hf : s.shared.shrList.entries[i]? = some f) (hb : f.blake2b = some b) (hg : g.info.blake2b = some b)
    (hpack : g.pack = some i) : Server.Shares { s with filesSender := g :: s.filesSender } := by
  obtain ⟨hnodup, hentries, hsenders⟩ := Server.unspoilt_iff.mp hs.unspoilt
  have hbuf : s.shared.buf i = some b := by rw [FileOp.buf, hf, Option.bind_some, hb]
  refine ⟨Server.unspoilt_iff.mpr ⟨hnodup, hentries, ?_⟩, hs.blank, hs.entries_lt, ?_, hs.released_lt,
    hs.distinct, ?_, ?_, ?_⟩
  · refine List.forall_mem_cons.mpr ⟨fun b' hb' => ?_, hsenders⟩
    cases hg.symm.trans hb'
    exact hentries i b hbuf
  · refine List.forall_mem_cons.mpr ⟨fun b' hb' => ?_, hs.senders_lt⟩
    cases hg.symm.trans hb'
    exact hs.entries_lt i b hbuf
  · refine List.forall_mem_cons.mpr ⟨fun j hj => ?_, hs.pack⟩
    cases hpack.symm.trans hj
    exact ⟨b, hbuf, hg⟩
  · refine List.forall_mem_cons.mpr ⟨fun hnone => ?_, hs.list⟩
    rw [hpack] at hnone
    cases hnone
  · refine List.pairwise_cons.mpr ⟨fun h hh b' hnone hgb hhb => ?_, hs.alone⟩
    cases hg.symm.trans hgb
    rcases hnone with hnone | hnone
    · rw [hpack] at hnone
      cases hnone
    · exact hs.list h hh hnone i b hhb hbuf

/-- A sender of the pack list has a new buffer. -/
theorem shares_listSent {s : Server} (hs : s.Shares) {g : PackSender} (contents : ℕ → FileId)
    (hg : g.info.blake2b = some s.shared.nextBuf) (hpack : g.pack = none) :
    Server.Shares
      { s with
        filesSender := g :: s.filesSender
        shared := { s.shared with nextBuf := s.shared.nextBuf + 1, contents } } := by
  obtain ⟨hnodup, hentries, hsenders⟩ := Server.unspoilt_iff.mp hs.unspoilt
  refine ⟨Server.unspoilt_iff.mpr ⟨hnodup, hentries, ?_⟩, hs.blank, ?_, ?_, ?_, hs.distinct, ?_, ?_, ?_⟩
  · refine List.forall_mem_cons.mpr ⟨fun b hb hmem => ?_, hsenders⟩
    cases hg.symm.trans hb
    exact lt_irrefl _ (hs.released_lt _ hmem)
  · exact fun i b hb => (hs.entries_lt i b hb).trans (Nat.lt_succ_self _)
  · refine List.forall_mem_cons.mpr ⟨fun b hb => ?_, fun h hh b hb => ?_⟩
    · cases hg.symm.trans hb
      exact Nat.lt_succ_self _
    · exact (hs.senders_lt h hh b hb).trans (Nat.lt_succ_self _)
  · exact fun b hb => (hs.released_lt b hb).trans (Nat.lt_succ_self _)
  · refine List.forall_mem_cons.mpr ⟨fun i hi => ?_, hs.pack⟩
    rw [hpack] at hi
    cases hi
  · refine List.forall_mem_cons.mpr ⟨fun _ i b hb hbuf => ?_, hs.list⟩
    cases hg.symm.trans hb
    exact lt_irrefl _ (hs.entries_lt i _ hbuf)
  · refine List.pairwise_cons.mpr ⟨fun h hh b _ hgb hhb => ?_, hs.alone⟩
    cases hg.symm.trans hgb
    exact lt_irrefl _ (hs.senders_lt h hh _ hhb)

/-! ### Runs -/

/-- An event ends one transfer at most. -/
theorem Ends.det {e : ServerEvent} {n m n' m' : UInt32} (h : Ends e n m) (h' : Ends e n' m') :
    n' = n ∧ m' = m := by
  cases h <;> cases h' <;> exact ⟨rfl, rfl⟩

/-- The end of a transfer is no other event. -/
theorem Ends.not_other {s : Server} {e : ServerEvent} {n m : UInt32} (h : Ends e n m) :
    (∀ v, e ≠ .fileDo v) ∧ ∀ n packn answer, ¬ Calls s e n packn answer := by
  cases h with
  | complete | cancel =>
    refine ⟨fun v hv => ?_, fun n packn answer hcall => ?_⟩
    · cases hv
    · cases hcall

/-- **The step**: a step spoils nothing if and only if it keeps the owners, and then it keeps
the sharing. -/
theorem shares_serverEvent {s s' : Server} {e : ServerEvent} {pack : Option ℕ}
    (h : serverEvent generichash s e = .ok (s', pack)) (hs : s.Shares) :
    (s'.Unspoilt ↔ KeepsOwners s e) ∧ (KeepsOwners s e → s'.Shares) := by
  -- a step after which the buffers are shared as they should be
  have hgood : ∀ {t : Server}, t.Shares → KeepsOwners s e → (t.Unspoilt ↔ KeepsOwners s e) ∧
      (KeepsOwners s e → t.Shares) := fun ht hk => ⟨iff_of_true ht.unspoilt hk, fun _ => ht⟩
  cases does_serverEvent h with
  | fileDo hdo =>
    next v shared r =>
    obtain ⟨hre, hblank⟩ := fileDo_rebuffers hdo hs.blank
    have hun := unspoilt_afterDo (r.rounds shared.last s.rounds) (s.outstanding && !r.walked) hs hre
    have hkeeps : KeepsOwners s (.fileDo v) ↔ ∀ t ∈ r.taken, ∀ g ∈ s.filesSender, g.pack ≠ some t := by
      obtain ⟨s₁, s₂, ok, hrecheck, htake, -⟩ := fileDo_eq_ok hdo
      constructor
      · intro hk t ht
        exact hk.replaced v s₁ _ s₂ t _ ok rfl hrecheck (Option.mem_def.mp ht ▸ htake)
      · intro hall
        refine ⟨fun v' s₁' walked s₂' t freed ok' he hrecheck' htake' => ?_, fun n i answer f hcall => ?_,
          fun n m g hend => ?_⟩
        · cases he
          obtain ⟨rfl, -⟩ := Prod.mk.inj (Except.ok.inj (hrecheck.symm.trans hrecheck'))
          obtain ⟨-, hrest⟩ := Prod.mk.inj (Except.ok.inj (htake.symm.trans htake'))
          exact hall t (congrArg Prod.fst hrest)
        · cases hcall
        · cases hend
    refine ⟨hun.trans hkeeps.symm, fun hk => ?_⟩
    exact shares_afterDo _ _ hs hre hblank (hkeeps.mp hk)
  | recheck =>
    have hshares : Server.Shares { s with shared := fileRecheckCallback s.shared, outstanding := true } :=
      ⟨⟨hs.unspoilt.once, hs.unspoilt.entries, hs.unspoilt.senders⟩, hs.blank, hs.entries_lt, hs.senders_lt,
        hs.released_lt, hs.distinct, hs.pack, hs.list, hs.alone⟩
    refine hgood hshares (.of_other (fun v hv => ?_) (fun n i answer f hcall => ?_) fun n m g hend => ?_)
    · cases hv
    · cases hcall
    · cases hend
  | told =>
    refine hgood hs (.of_other (fun v hv => ?_) (fun n i answer f hcall => ?_) fun n m g hend => ?_)
    · cases hv
    · cases hcall
    · cases hend
  | unopened hcall hf hb hopen =>
    next n i b answer f =>
    have hnot : ¬ KeepsOwners s e := by
      intro hk
      have := hk.opened n i answer f hcall hf
      rw [hopen] at this
      cases this
    refine ⟨iff_of_false (fun hun => ?_) hnot, fun hk => absurd hk hnot⟩
    exact hun.entries f (List.mem_of_getElem? hf) b hb (by simp)
  | packSent hcall hf hb hopen hg hpack =>
    obtain ⟨hdo, -, hend⟩ := hcall.not_other
    refine hgood (shares_packSent hs hf hb hg hpack) (.of_other hdo (fun n' i' answer' f' hcall' hf' => ?_)
      fun n m g he => absurd he (hend n m))
    obtain ⟨-, hi, rfl⟩ := hcall.det hcall'
    cases Int.ofNat.inj hi
    cases hf.symm.trans hf'
    exact hopen
  | listSent hcall hlow hg hpack =>
    obtain ⟨hdo, -, hend⟩ := hcall.not_other
    refine hgood (shares_listSent hs _ hg hpack) (.of_other hdo (fun n i answer f hcall' => ?_)
      fun n m g he => absurd he (hend n m))
    obtain ⟨-, hi, -⟩ := hcall.det hcall'
    omega
  | ended he hget =>
    next n m g =>
    obtain ⟨hdo, hcall⟩ := he.not_other
    have hkeeps : KeepsOwners s e ↔ g.pack = none := by
      constructor
      · intro hk
        exact hk.ended n m g he hget
      · intro hpack
        refine .of_other hdo (fun n i answer f hcall' => absurd hcall' (hcall n i answer))
          fun n' m' g' he' hget' => ?_
        obtain ⟨rfl, rfl⟩ := he.det he'
        cases hget.symm.trans hget'
        exact hpack
    exact ⟨(unspoilt_destroy hs hget).trans hkeeps.symm, fun hk => shares_destroy hs hget (hkeeps.mp hk)⟩
  | nothing hdo hinfo hcall hend =>
    refine hgood hs (.of_other hdo (fun n i answer f hcall' => ?_) fun n m g he hget => ?_)
    · have := hcall n i answer hcall'
      omega
    · rw [hend n m he] at hget
      cases hget

/-- **Hash buffers have one owner** throughout a run if and only if the file of a pack always
opens in `file_sender_new`, only transfers of the pack list end and no pack that is being
sent is replaced. -/
theorem owners_iff (generichash : Bytes → FileId) (fileNewC : Bool) (contents : ℕ → FileId)
    (es : List ServerEvent) :
    Always (serverStep generichash) Server.Unspoilt (.start fileNewC contents) es ↔
      Along (serverStep generichash) KeepsOwners (.start fileNewC contents) es := by
  refine always_iff_along_of_inv (I := Server.Shares) (fun s hs => hs.unspoilt)
    (fun s e s' hstep hs => ?_) (fun s e s' hstep hs hk => ?_) ?_
  · obtain ⟨pack, h⟩ := serverStep_eq_some.mp hstep
    exact (shares_serverEvent h hs).1
  · obtain ⟨pack, h⟩ := serverStep_eq_some.mp hstep
    exact (shares_serverEvent h hs).2 hk
  · have hnone : ∀ i, (Server.start fileNewC contents).shared.buf i = none := fun i => rfl
    refine ⟨⟨List.nodup_nil, ?_, ?_⟩, ?_, ?_, ?_, ?_, ?_, ?_, ?_, List.Pairwise.nil⟩
    · intro f hf
      cases hf
    · intro g hg
      cases hg
    · intro f hf
      cases hf
    · intro i b hb
      rw [hnone] at hb
      cases hb
    · intro g hg
      cases hg
    · intro b hb
      cases hb
    · intro i j b hb
      rw [hnone] at hb
      cases hb
    · intro g hg
      cases hg
    · intro g hg
      cases hg

/-- A pack is sent to a friend twice, and both transfers complete: its hash buffer is given
back twice, and the pack still has it. -/
theorem buffer_released_twice :
    ∃ s, runEvents (serverStep fun _ => someHash) (.start true fun _ => someHash)
        [.recheck, .fileDo twoFiles.visit, .send 0 [.ofBytes (ascii "0")] (consent 5),
          .send 0 [.ofBytes (ascii "0")] (consent 6), .chunkRequest 0 5 0, .chunkRequest 0 6 0] = some s ∧
      ¬ s.released.Nodup ∧ ∃ f ∈ s.shared.shrList.entries, ∃ b ∈ f.blake2b, b ∈ s.released := by
  refine ⟨_, rfl, ?_, _, List.mem_cons_self, 0, rfl, ?_⟩
  · decide
  · decide

end ToxSuite.Share
