import ToxSuite.Call.Tester

/-!
# `call.c`: playback of a recording

A greeter, and later what a friend has said, is played back frame by frame: each call of
`audio_playback` hands the next frame to ToxAV, until one returns `0`. A call that fails leaves
the place where it is.

`audio_playback` looks at where a frame begins. All its frames are inside the recording just for
recordings that are a whole number of frames long (`playback_inside_iff`).
-/

namespace ToxSuite.Call

open ToxSuite.Lib ToxSuite.Suit

/-! ### Calls one after the other -/

/-- `sample_count` of `audio_playback`: the length of a frame. -/
def Record.frameSize (rec : Record) : ℕ := (rec.samplerate * AUDIO_LENGTH / 1000).toNat

/-- A call of `audio_playback`: the frame, and what is returned. -/
structure Played where
  frame : Option Frame
  ret : ℕ

/-- Calls of `audio_playback`, one for each outcome of `toxav_audio_send_frame`. -/
def playback (rec : Record) : CallTester → List Bool → Except Fault (List Played)
  | _, [] => pure []
  | ct, sends :: outcomes => do
    let (ct, frame, ret) ← audioPlayback ct rec sends
    let calls ← playback rec ct outcomes
    pure (⟨frame, ret⟩ :: calls)

/-- The frames that were sent. -/
def sentFrames (calls : List Played) : List Frame := (calls.filterMap Played.frame).filter Frame.sent

/-- A tester that has sent nothing. -/
def freshTester : CallTester := .new 0 0 ⟨1, 8000, 0, ⟨0, 0⟩, ⟨[], by simp⟩⟩

/-- The calls stay inside the recording. -/
structure PlaysInside (rec : Record) (calls : List Played) : Prop where
  /-- Every sample of a frame is one of the recording. -/
  inside : ∀ c ∈ calls, ∀ f, c.frame = some f → ∀ i < f.sampleCount * f.channels.toNat, f.first + i < rec.pcm.length
  /-- What is sent is one frame after the other, from the beginning on. -/
  consecutive : ∀ (k : ℕ) (f : Frame), (sentFrames calls)[k]? = some f →
    f.first = k * (f.sampleCount * f.channels.toNat) ∧ f.sampleCount = rec.frameSize ∧ f.channels = rec.channels
  /-- `0` is returned as soon as there are as many frames as it takes. -/
  ends : 0 < rec.frameSize → (∀ c ∈ calls, c.ret ≠ 0) →
    calls.length ≤ (rec.samplesCount + rec.frameSize - 1) / rec.frameSize

/-! ### What a call does -/

section

variable {rec : Record} (hrate : 0 < rec.samplerate)

include hrate

/-- A frame that begins inside the recording is handed over; then the place is behind it, if it
was sent. -/
theorem audioPlayback_lt {ct : CallTester} (hlt : ct.samplesSend < rec.samplesCount) (sends : Bool) :
    ∃ ct', audioPlayback ct rec sends = .ok (ct',
        some ⟨ct.samplesSend * rec.channels.toNat, rec.frameSize, rec.channels, rec.samplerate, sends⟩,
        if sends then rec.frameSize else 0) ∧
      ct'.samplesSend = ct.samplesSend + if sends then rec.frameSize else 0 := by
  have hne : rec.samplerate ≠ 0 := (UInt32.ne_of_lt hrate).symm
  unfold audioPlayback
  cases sends with
  | true =>
    simp only [if_neg hne, if_pos hlt, if_true]
    exact ⟨_, rfl, rfl⟩
  | false =>
    simp only [if_neg hne, if_pos hlt, Bool.false_eq_true, if_false]
    exact ⟨_, rfl, rfl⟩

/-- At the end there is nothing more to hand over. -/
theorem audioPlayback_ge {ct : CallTester} (hge : ¬ ct.samplesSend < rec.samplesCount) (sends : Bool) :
    ∃ ct', audioPlayback ct rec sends = .ok (ct', none, 0) ∧ ct'.samplesSend = ct.samplesSend := by
  have hne : rec.samplerate ≠ 0 := (UInt32.ne_of_lt hrate).symm
  unfold audioPlayback
  simp only [if_neg hne, if_neg hge]
  exact ⟨_, rfl, rfl⟩

/-- What calls after `m` frames were sent come to: they hand over frames that begin inside the
recording at a multiple of the frame size, the next one after each that is sent. -/
theorem playback_spec (outcomes : List Bool) : ∀ {ct : CallTester} {m : ℕ}, ct.samplesSend = m * rec.frameSize →
    ∃ calls, playback rec ct outcomes = .ok calls ∧
      (∀ c ∈ calls, ∀ f, c.frame = some f → ∃ k, k * rec.frameSize < rec.samplesCount ∧
        f.first = k * rec.frameSize * rec.channels.toNat ∧ f.sampleCount = rec.frameSize ∧ f.channels = rec.channels) ∧
      (∀ k f, (sentFrames calls)[k]? = some f → f.first = (m + k) * rec.frameSize * rec.channels.toNat) ∧
      ((∀ c ∈ calls, c.ret ≠ 0) → calls ≠ [] →
        (m + calls.length) * rec.frameSize < rec.samplesCount + rec.frameSize) := by
  induction outcomes with
  | nil => exact fun _ => ⟨[], rfl, by simp, by simp [sentFrames], by simp⟩
  | cons sends outcomes ih =>
    intro ct m hm
    by_cases hlt : ct.samplesSend < rec.samplesCount
    · obtain ⟨ct', hplay, hplace⟩ := audioPlayback_lt hrate hlt sends
      rw [hm] at hlt
      have hfirst :
          (⟨ct.samplesSend * rec.channels.toNat, rec.frameSize, rec.channels, rec.samplerate, sends⟩ : Frame) =
            ⟨m * rec.frameSize * rec.channels.toNat, rec.frameSize, rec.channels, rec.samplerate, sends⟩ := by rw [hm]
      rw [hfirst] at hplay
      have hplace' : ct'.samplesSend = (m + if sends then 1 else 0) * rec.frameSize := by
        rw [hplace, hm, Nat.add_mul]
        cases sends <;> simp
      obtain ⟨calls, hrun, hframes, hsent, hends⟩ := ih hplace'
      refine ⟨_, by rw [playback, hplay, ok_bind]; simp only [hrun, ok_bind, pure_eq_ok]; rfl, ?_, ?_, ?_⟩
      · rw [List.forall_mem_cons]
        refine ⟨fun f hf => ?_, hframes⟩
        cases hf
        exact ⟨m, hlt, rfl, rfl, rfl⟩
      · intro k f hk
        cases sends with
        | true =>
          cases k with
          | zero =>
            cases hk
            rfl
          | succ k =>
            rw [hsent k f hk, if_pos rfl, Nat.add_assoc, Nat.add_comm 1]
        | false => exact hsent k f hk
      · intro hret _
        rw [List.forall_mem_cons] at hret
        cases sends with
        | false => exact absurd rfl hret.1
        | true =>
          rw [if_pos rfl] at hends
          rw [List.length_cons]
          by_cases hnil : calls = []
          · rw [hnil, List.length_nil, Nat.zero_add, Nat.succ_mul]
            omega
          · have := hends hret.2 hnil
            rwa [Nat.add_assoc, Nat.add_comm 1] at this
    · obtain ⟨ct', hplay, hplace⟩ := audioPlayback_ge hrate hlt sends
      obtain ⟨calls, hrun, hframes, hsent, -⟩ := ih (hplace.trans hm)
      refine ⟨⟨none, 0⟩ :: calls, ?_, ?_, hsent, ?_⟩
      · rw [playback, hplay, ok_bind]
        simp only [hrun, ok_bind, pure_eq_ok]
      · rw [List.forall_mem_cons]
        exact ⟨fun f hf => (by cases hf), hframes⟩
      · intro hret
        exact absurd rfl (List.forall_mem_cons.mp hret).1

/-- While all frames are sent, the next one is handed over. -/
theorem playback_reaches (n : ℕ) : ∀ {ct : CallTester} {m : ℕ}, ct.samplesSend = m * rec.frameSize →
    (m + n) * rec.frameSize < rec.samplesCount → ∃ calls, playback rec ct (List.replicate (n + 1) true) = .ok calls ∧
      ∃ c ∈ calls, c.frame = some
        ⟨(m + n) * rec.frameSize * rec.channels.toNat, rec.frameSize, rec.channels, rec.samplerate, true⟩ := by
  induction n with
  | zero =>
    intro ct m hm hlt
    obtain ⟨ct', hplay, -⟩ := audioPlayback_lt hrate (hm.trans_lt hlt) true
    rw [hm] at hplay
    exact ⟨_, by rw [List.replicate_one, playback, hplay]; rfl, _, List.mem_cons_self, rfl⟩
  | succ n ih =>
    intro ct m hm hlt
    have hle : m * rec.frameSize ≤ (m + (n + 1)) * rec.frameSize := Nat.mul_le_mul_right _ (Nat.le_add_right _ _)
    obtain ⟨ct', hplay, hplace⟩ := @audioPlayback_lt _ hrate ct (by omega) true
    have hplace' : ct'.samplesSend = (m + 1) * rec.frameSize := by
      rw [hplace, hm, Nat.succ_mul, if_pos rfl]
    have hnext : m + (n + 1) = m + 1 + n := by omega
    rw [hnext] at hlt ⊢
    obtain ⟨calls, hrun, c, hc, hframe⟩ := ih hplace' hlt
    refine ⟨_, by rw [List.replicate_succ, playback, hplay, ok_bind]; simp only [hrun, ok_bind, pure_eq_ok]; rfl, c,
      List.mem_cons_of_mem _ hc, hframe⟩

omit hrate in
/-- In a recording of whole frames, a frame that begins inside ends inside. -/
theorem frame_inside (hF : rec.frameSize = 0 ∨ rec.frameSize ∣ rec.samplesCount) {k i : ℕ}
    (hk : k * rec.frameSize < rec.samplesCount) (hi : i < rec.frameSize * rec.channels.toNat) :
    k * rec.frameSize * rec.channels.toNat + i < rec.samplesCount * rec.channels.toNat := by
  rcases hF with hF | ⟨q, hq⟩
  · rw [hF, Nat.zero_mul] at hi
    cases hi
  · have hkq : k < q := by
      rw [hq, Nat.mul_comm] at hk
      exact Nat.lt_of_mul_lt_mul_left hk
    calc k * rec.frameSize * rec.channels.toNat + i
        < k * rec.frameSize * rec.channels.toNat + rec.frameSize * rec.channels.toNat := Nat.add_lt_add_left hi _
      _ = (k + 1) * rec.frameSize * rec.channels.toNat := by rw [← Nat.add_mul, Nat.succ_mul]
      _ ≤ q * rec.frameSize * rec.channels.toNat := Nat.mul_le_mul_right _ (Nat.mul_le_mul_right _ hkq)
      _ = rec.samplesCount * rec.channels.toNat := by rw [hq, Nat.mul_comm q]

omit hrate in
/-- In any other the last frame begins inside, and its last sample is outside. -/
theorem frame_outside (hF : rec.frameSize ≠ 0) (hdvd : ¬ rec.frameSize ∣ rec.samplesCount)
    (hch : 0 < rec.channels.toNat) :
    rec.samplesCount / rec.frameSize * rec.frameSize < rec.samplesCount ∧
      rec.samplesCount * rec.channels.toNat ≤ rec.samplesCount / rec.frameSize * rec.frameSize * rec.channels.toNat +
        (rec.frameSize * rec.channels.toNat - 1) := by
  have hpos : 0 < rec.frameSize := Nat.pos_of_ne_zero hF
  constructor
  · apply Nat.lt_of_le_of_ne (Nat.div_mul_le_self _ _)
    intro heq
    exact hdvd (Dvd.intro_left _ heq)
  · have hend : rec.samplesCount < rec.samplesCount / rec.frameSize * rec.frameSize + rec.frameSize :=
      Nat.lt_div_mul_add hpos
    have hover : (rec.samplesCount + 1) * rec.channels.toNat ≤
        (rec.samplesCount / rec.frameSize * rec.frameSize + rec.frameSize) * rec.channels.toNat :=
      Nat.mul_le_mul_right _ hend
    have hsize : 0 < rec.frameSize * rec.channels.toNat := Nat.mul_pos hpos hch
    rw [Nat.succ_mul, Nat.add_mul] at hover
    omega

/-- **Playback stays inside a recording** if and only if that is a whole number of frames long, or
has so low a sample rate that its frames are empty. -/
theorem playback_inside_iff (hchannels : 0 < rec.channels)
    (hpcm : rec.pcm.length = rec.samplesCount * rec.channels.toNat) :
    (∀ ct outcomes, ct.samplesSend = 0 → ∃ calls, playback rec ct outcomes = .ok calls ∧ PlaysInside rec calls) ↔
      rec.frameSize = 0 ∨ rec.frameSize ∣ rec.samplesCount := by
  have hch : 0 < rec.channels.toNat := by simpa using UInt8.lt_iff_toNat_lt.mp hchannels
  constructor
  · intro h
    by_contra hnot
    rw [not_or] at hnot
    obtain ⟨hF, hdvd⟩ := hnot
    obtain ⟨hlast, hover⟩ := frame_outside hF hdvd hch
    obtain ⟨calls, hrun, c, hc, hframe⟩ := @playback_reaches _ hrate
      (rec.samplesCount / rec.frameSize) freshTester 0 (Nat.zero_mul _).symm (by rwa [Nat.zero_add])
    obtain ⟨calls', hrun', hplays⟩ := h freshTester _ rfl
    cases hrun.symm.trans hrun'
    have hpos : 0 < rec.frameSize * rec.channels.toNat := Nat.mul_pos (Nat.pos_of_ne_zero hF) hch
    have hread : (0 + rec.samplesCount / rec.frameSize) * rec.frameSize * rec.channels.toNat +
        (rec.frameSize * rec.channels.toNat - 1) < rec.pcm.length :=
      hplays.inside c hc _ hframe _ (Nat.sub_one_lt hpos.ne')
    rw [hpcm, Nat.zero_add] at hread
    exact absurd hread (Nat.not_lt.mpr hover)
  · intro hF ct outcomes hct
    obtain ⟨calls, hrun, hframes, hsent, hends⟩ := playback_spec hrate outcomes (m := 0) (by rw [hct, Nat.zero_mul])
    refine ⟨calls, hrun, ?_, ?_, ?_⟩
    · intro c hc f hf i hi
      obtain ⟨k, hk, hfirst, hcount, hchan⟩ := hframes c hc f hf
      rw [hcount, hchan] at hi
      rw [hfirst, hpcm]
      exact frame_inside hF hk hi
    · intro k f hk
      have hmem : f ∈ calls.filterMap Played.frame := List.mem_of_mem_filter (List.mem_of_getElem? hk)
      obtain ⟨c, hc, hf⟩ := List.mem_filterMap.mp hmem
      obtain ⟨-, -, -, hcount, hchan⟩ := hframes c hc f hf
      have hfirst := hsent k f hk
      rw [Nat.zero_add, Nat.mul_assoc] at hfirst
      exact ⟨by rw [hfirst, hcount, hchan], hcount, hchan⟩
    · intro hpos hret
      by_cases hnil : calls = []
      · rw [hnil]
        exact Nat.zero_le _
      · have hlt := hends hret hnil
        rw [Nat.zero_add] at hlt
        rw [Nat.le_div_iff_mul_le hpos]
        omega

end

/-- A recording of 200 samples at 8 kHz, of which 160 are a frame. -/
def oddRecord : Record := ⟨List.replicate 200 (some 0), 1, 200, 8000⟩

/-- A recording of two frames. -/
def evenRecord : Record := ⟨List.replicate 320 (some 0), 1, 320, 8000⟩

/-- The first frame fails at first; then two are sent, and no more. -/
theorem playback_inside_even :
    ∃ calls, playback evenRecord freshTester [false, true, true, true] = .ok calls ∧ PlaysInside evenRecord calls :=
  (playback_inside_iff (by decide) (by decide) List.length_replicate).mpr (.inr (by decide)) freshTester _ rfl

/-- The second frame begins at sample 160 and ends before sample 320, of 200. -/
theorem second_frame_outside :
    freshTester.samplesSend = 0 ∧ ∃ calls, playback oddRecord freshTester [true, true] = .ok calls ∧
      (∃ c ∈ calls, c.frame = some ⟨160, 160, 1, 8000, true⟩) ∧ ¬ PlaysInside oddRecord calls := by
  have hrun : playback oddRecord freshTester [true, true] =
      .ok [⟨some ⟨0, 160, 1, 8000, true⟩, 160⟩, ⟨some ⟨160, 160, 1, 8000, true⟩, 160⟩] := rfl
  refine ⟨rfl, _, hrun, ⟨_, List.mem_cons_of_mem _ List.mem_cons_self, rfl⟩, fun h => ?_⟩
  have hread : 160 + 159 < (List.replicate 200 (some (0 : Int16))).length :=
    h.inside _ (List.mem_cons_of_mem _ List.mem_cons_self) _ rfl 159 (by decide)
  rw [List.length_replicate] at hread
  exact absurd hread (by decide)

end ToxSuite.Call
