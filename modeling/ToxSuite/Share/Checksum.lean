import ToxSuite.Share.Converge

/-!
# Hashing a file block by block

`file_checksumcalc_noblock` reads one block of its file in each call and feeds it to the
streaming hash of libsodium, of which the result depends only on what was fed, one after the
other. It feeds the whole buffer whatever `fread` returned, so after a last block that is
shorter the rest of the buffer is hashed too: the bytes the stack happened to hold.

The hash is that of the file if and only if the file is a whole number of blocks long
(`hashes_file_iff`).
-/

namespace ToxSuite.Share

open ToxSuite.Lib ToxSuite.File

/-! ### The calls for a file -/

/-- The calls of `file_checksumcalc_noblock` up to the one that returns `0`, and what those before
it return; `none` where there are too few. -/
def checksumCalls (generichash : Bytes → FileId) (blake2b : ℕ) (filename : CStr) :
    FileOp → List Visit → Except Fault (Option (FileOp × List ℤ))
  | _, [] => pure none
  | s, v :: visits => do
    let (s, rc) ← fileChecksumcalcNoblock generichash s v (some blake2b) filename
    if rc = 0 then pure (some (s, []))
    else do
      let rest ← checksumCalls generichash blake2b filename s visits
      pure (rest.map (Prod.map id (rc :: ·)))

/-- A call finds this content in the file. -/
structure Visit.Reads (v : Visit) (filename : CStr) (content : Bytes) : Prop where
  opens : v.opens filename = true
  fread : ∀ pos, v.fread filename pos = content.drop pos

/-- Whatever the hash is and whatever the stack holds, the calls for a file of this content, from a
fresh start, come to an end, they have counted its bytes, and they leave its hash. -/
def HashesFile (content : Bytes) : Prop :=
  ∀ (generichash : Bytes → FileId) (s : FileOp) (blake2b : ℕ) (filename : CStr) (visits : ℕ → Visit),
    s.stream = none → (∀ n, (visits n).Reads filename content) →
      ∃ n s' counts,
        checksumCalls generichash blake2b filename s ((List.range n).map visits) = .ok (some (s', counts)) ∧
        s'.contents blake2b = generichash content ∧ counts.sum = content.length

variable {generichash : Bytes → FileId}

/-- The call that finds the end of the file. -/
theorem checksumCalls_end {s : FileOp} {v : Visit} {visits : List Visit} {blake2b pos : ℕ} {filename : CStr}
    {content fed : Bytes} (hv : v.Reads filename content)
    (hopen : s.openStream v filename = some ⟨filename, pos, fed⟩) (hend : blocksFrom content pos = 0) :
    checksumCalls generichash blake2b filename s (v :: visits) = .ok (some
      ({ s with stream := none, contents := Function.update s.contents blake2b (generichash fed) }, [])) := by
  have hblock : (v.fread filename pos).take HASHING_BUFSIZE = [] := by
    rw [hv.fread, blocksFrom_zero hend]
  unfold checksumCalls fileChecksumcalcNoblock
  simp only [hopen, hblock, ne_eq, not_true_eq_false, if_false, pure_eq_ok, ok_bind, if_true]

/-- A call that reads a block: it feeds the block and what lies behind it in the buffer. -/
theorem checksumCalls_block {s : FileOp} {v : Visit} {visits : List Visit} {blake2b pos : ℕ} {filename : CStr}
    {content fed block : Bytes} (hv : v.Reads filename content)
    (hopen : s.openStream v filename = some ⟨filename, pos, fed⟩)
    (hblock : (content.drop pos).take HASHING_BUFSIZE = block) (hne : block ≠ []) :
    checksumCalls generichash blake2b filename s (v :: visits) =
      (checksumCalls generichash blake2b filename
        { s with stream := some ⟨filename, pos + block.length, fed ++ block ++ v.stack.1.drop block.length⟩ }
        visits).map (Option.map (Prod.map id ((block.length : ℤ) :: ·))) := by
  have hread : (v.fread filename pos).take HASHING_BUFSIZE = block := by rw [hv.fread, hblock]
  have hpos : (block.length : ℤ) ≠ 0 := by
    have := List.length_pos_iff.mpr hne
    omega
  conv_lhs => unfold checksumCalls fileChecksumcalcNoblock
  simp only [hopen, hread, ne_eq, hne, not_false_eq_true, if_true, pure_eq_ok, ok_bind, hpos, if_false]
  cases checksumCalls generichash blake2b filename _ visits with
  | error e => rfl
  | ok r => rfl

/-- **What the calls leave**: the hash of what was fed, of the bytes that were left, and of as many
bytes of the stack as the last block is short of a whole one. -/
theorem checksumCalls_spec (generichash : Bytes → FileId) (blake2b : ℕ) {filename : CStr} {content : Bytes} (n : ℕ) :
    ∀ {s : FileOp} {visits : List Visit} {pos : ℕ} {fed : Bytes},
      (∀ v ∈ visits, v.Reads filename content) → visits.length = n + 1 →
      (∀ v ∈ visits, s.openStream v filename = some ⟨filename, pos, fed⟩) → pos ≤ content.length →
      blocksFrom content pos = n →
      ∃ s' counts junk, checksumCalls generichash blake2b filename s visits = .ok (some (s', counts)) ∧
        s'.contents blake2b = generichash (fed ++ content.drop pos ++ junk) ∧
        counts.sum = (content.length - pos : ℕ) ∧
        junk.length = n * HASHING_BUFSIZE - (content.length - pos) := by
  induction n with
  | zero =>
    intro s visits pos fed hreads hlen hopen hpos hblocks
    obtain ⟨v, rfl⟩ := List.length_eq_one_iff.mp hlen
    have hrest : content.length - pos = 0 := by
      unfold blocksFrom HASHING_BUFSIZE at hblocks
      omega
    refine ⟨_, [], [], checksumCalls_end (hreads v (by simp)) (hopen v (by simp)) hblocks, ?_, ?_, ?_⟩
    · rw [List.drop_of_length_le (by omega), List.append_nil, List.append_nil]
      exact Function.update_self ..
    · rw [hrest]
      rfl
    · simp
  | succ n ih =>
    intro s visits pos fed hreads hlen hopen hpos hblocks
    obtain ⟨v, visits, rfl⟩ := List.exists_cons_of_length_eq_add_one hlen
    obtain ⟨hne, hblocks'⟩ := blocksFrom_succ hblocks
    have hblock : ((content.drop pos).take HASHING_BUFSIZE).length = min HASHING_BUFSIZE (content.length - pos) := by
      simp
    generalize hb : (content.drop pos).take HASHING_BUFSIZE = block at hne hblocks' hblock
    obtain ⟨s', counts, junk, hcalls, hhash, hsum, hjunk⟩ := ih
      (s := { s with stream := some ⟨filename, pos + block.length, fed ++ block ++ v.stack.1.drop block.length⟩ })
      (fun w hw => hreads w (List.mem_cons_of_mem _ hw)) (by simpa using hlen) (fun w _ => rfl)
      (by omega) hblocks'
    refine ⟨s', (block.length : ℤ) :: counts, v.stack.1.drop block.length ++ junk, ?_, ?_, ?_, ?_⟩
    · rw [checksumCalls_block (hreads v (by simp)) (hopen v (by simp)) hb hne, hcalls]
      rfl
    · -- a block that is not whole is the last one
      have hstack := v.stack.2
      have hsplit : content.drop pos = block ++ content.drop (pos + block.length) := by
        obtain ⟨rest, hrest⟩ : block <+: content.drop pos := hb ▸ List.take_prefix _ _
        rw [← List.drop_drop, ← hrest, List.drop_left]
      have hjunk_or : v.stack.1.drop block.length = [] ∨ content.drop (pos + block.length) = [] := by
        rcases le_total HASHING_BUFSIZE (content.length - pos) with h | h
        · exact .inl (List.drop_of_length_le (by omega))
        · exact .inr (List.drop_of_length_le (by omega))
      rw [hhash, hsplit]
      rcases hjunk_or with h | h
      · simp only [h, List.append_nil, List.nil_append, List.append_assoc]
      · simp only [h, List.append_nil, List.append_assoc]
    · rw [List.sum_cons, hsum]
      omega
    · have hstack := v.stack.2
      rw [List.length_append, List.length_drop, hjunk, hstack]
      unfold blocksFrom at hblocks hblocks'
      unfold HASHING_BUFSIZE at *
      omega

/-- The calls for a file, from a fresh start: as many as it has blocks, and one more. -/
theorem checksumCalls_fresh (generichash : Bytes → FileId) {s : FileOp} (hs : s.stream = none) (blake2b : ℕ)
    {filename : CStr} {content : Bytes} {visits : ℕ → Visit} (h : ∀ n, (visits n).Reads filename content) :
    ∃ s' counts junk, checksumCalls generichash blake2b filename s
        ((List.range (blocksFrom content 0 + 1)).map visits) = .ok (some (s', counts)) ∧
      s'.contents blake2b = generichash (content ++ junk) ∧ counts.sum = content.length ∧
      junk.length = blocksFrom content 0 * HASHING_BUFSIZE - content.length := by
  have hreads : ∀ v ∈ (List.range (blocksFrom content 0 + 1)).map visits, v.Reads filename content := by
    intro v hv
    obtain ⟨n, -, rfl⟩ := List.mem_map.mp hv
    exact h n
  have hopen : ∀ v ∈ (List.range (blocksFrom content 0 + 1)).map visits,
      s.openStream v filename = some ⟨filename, 0, []⟩ := by
    intro v hv
    simp [FileOp.openStream, hs, (hreads v hv).opens]
  obtain ⟨s', counts, junk, hcalls, hhash, hsum, hjunk⟩ :=
    checksumCalls_spec generichash blake2b (blocksFrom content 0) hreads
      (by simp) hopen (Nat.zero_le _) rfl
  exact ⟨s', counts, junk, hcalls, hhash, hsum, hjunk⟩

/-- The calls that end are the same however many more there could be. -/
theorem checksumCalls_append {blake2b : ℕ} {filename : CStr} {visits : List Visit} (more : List Visit) :
    ∀ {s : FileOp} {r : FileOp × List ℤ},
      checksumCalls generichash blake2b filename s visits = .ok (some r) →
      checksumCalls generichash blake2b filename s (visits ++ more) = .ok (some r) := by
  induction visits with
  | nil =>
    intro s r h
    cases h
  | cons v visits ih =>
    intro s r h
    rw [List.cons_append]
    unfold checksumCalls at h ⊢
    obtain ⟨⟨s₁, rc⟩, hcall, h⟩ := bind_eq_ok.mp h
    rw [hcall, ok_bind]
    dsimp only at h ⊢
    split_ifs at h ⊢ with hrc
    · exact h
    · obtain ⟨rest, hrest, h⟩ := bind_eq_ok.mp h
      cases rest with
      | none => cases h
      | some rest =>
        rw [ih hrest]
        exact h

theorem checksumCalls_range {s : FileOp} {blake2b n : ℕ} {filename : CStr} {visits : ℕ → Visit}
    {r : FileOp × List ℤ} (m : ℕ)
    (h : checksumCalls generichash blake2b filename s ((List.range n).map visits) = .ok (some r)) :
    checksumCalls generichash blake2b filename s ((List.range (n + m)).map visits) = .ok (some r) := by
  rw [List.range_add, List.map_append]
  exact checksumCalls_append _ h

/-! ### The hash of the file -/

theorem hashesFile_of_dvd {content : Bytes} (h : HASHING_BUFSIZE ∣ content.length) : HashesFile content := by
  intro generichash s blake2b filename visits hs hreads
  obtain ⟨s', counts, junk, hcalls, hhash, hsum, hjunk⟩ := checksumCalls_fresh generichash hs blake2b hreads
  have hnil : junk = [] := by
    apply List.length_eq_zero_iff.mp
    unfold blocksFrom HASHING_BUFSIZE at hjunk
    unfold HASHING_BUFSIZE at h
    omega
  rw [hnil, List.append_nil] at hhash
  exact ⟨_, s', counts, hcalls, hhash, hsum⟩

/-- A call where every file has this content. -/
def readingVisit (content : Bytes) : Visit :=
  { twoFiles.visit with fread := fun _ pos => content.drop pos }

/-- What is fed after the end of a file shows in the hash, for one hash at least. -/
theorem not_hashesFile_of_not_dvd {content : Bytes} (h : ¬ HASHING_BUFSIZE ∣ content.length) :
    ¬ HashesFile content := by
  intro hall
  -- a hash that tells this file from every other
  let generichash : Bytes → FileId := fun fed => if fed = content then ⟨List.replicate 32 1, rfl⟩ else someHash
  have hs : (FileOp.start false fun _ => someHash).stream = none := rfl
  have hreads (n : ℕ) : ((fun _ => readingVisit content) n : Visit).Reads (.ofBytes []) content :=
    ⟨rfl, fun _ => rfl⟩
  obtain ⟨n, s', counts, hcalls, hhash, -⟩ := hall generichash _ 0 _ _ hs hreads
  obtain ⟨s'', counts', junk, hcalls', hhash', -, hjunk⟩ := checksumCalls_fresh generichash hs 0 hreads
  have hne : junk ≠ [] := by
    intro hnil
    rw [hnil] at hjunk
    unfold blocksFrom HASHING_BUFSIZE at hjunk
    unfold HASHING_BUFSIZE at h
    simp only [List.length_nil] at hjunk
    omega
  have hsame : s' = s'' := by
    have hmore := checksumCalls_range (blocksFrom content 0 + 1) hcalls
    have hmore' := checksumCalls_range n hcalls'
    rw [Nat.add_comm, hmore'] at hmore
    cases hmore
    rfl
  have hfed : ¬ content ++ junk = content := fun heq => hne (List.append_right_eq_self.mp heq)
  rw [← hsame, hhash] at hhash'
  simp only [generichash, if_true, if_neg hfed] at hhash'
  exact absurd hhash' (by decide)

/-- **The hash is that of the file** if and only if the file is a whole number of blocks long. -/
theorem hashes_file_iff (content : Bytes) : HashesFile content ↔ HASHING_BUFSIZE ∣ content.length := by
  constructor
  · intro h
    by_contra hdvd
    exact not_hashesFile_of_not_dvd hdvd h
  · exact hashesFile_of_dvd

/-- A file of one byte. -/
theorem one_byte_hashed_padded : ¬ HashesFile [1] := by
  apply not_hashesFile_of_not_dvd
  unfold HASHING_BUFSIZE
  decide

end ToxSuite.Share
