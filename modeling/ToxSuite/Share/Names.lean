import ToxSuite.Lib.Runs
import ToxSuite.Share.Converge
import ToxSuite.Share.Server

/-!
# Pack numbers are names

A pack number is an index of `shr_list`. A changed file replaces its entry in
place and a new one goes to the end, so whatever happens to the directory, no path
is in the list twice and the path under a number never changes
(`pack_numbers_stable`).
-/

namespace ToxSuite.Share

open ToxSuite.Lib ToxSuite.File

variable {generichash : Bytes → FileId}

/-- A step only appends paths, and none that is there already. -/
theorem ServerDoes.paths {s s' : Server} {e : ServerEvent} {pack : Option ℕ}
    (h : ServerDoes generichash s e s' pack) :
    s.shared.paths <+: s'.shared.paths ∧ (s.shared.paths.Nodup → s'.shared.paths.Nodup) := by
  cases h with
  | fileDo hdo => exact fileDo_paths hdo
  | _ => exact ⟨List.prefix_rfl, id⟩

theorem runEvents_paths {es : List ServerEvent} : ∀ {s s' : Server},
    runEvents (serverStep generichash) s es = some s' →
      s.shared.paths <+: s'.shared.paths ∧ (s.shared.paths.Nodup → s'.shared.paths.Nodup) := by
  induction es with
  | nil =>
    intro s s' h
    cases h
    exact ⟨List.prefix_rfl, id⟩
  | cons e es ih =>
    intro s s' h
    obtain ⟨s₁, hstep, hrun⟩ := runEvents_cons_eq_some.mp h
    obtain ⟨pack, hstep⟩ := serverStep_eq_some.mp hstep
    obtain ⟨hgrow, hnodup⟩ := (does_serverEvent hstep).paths
    obtain ⟨hgrow', hnodup'⟩ := ih hrun
    exact ⟨hgrow.trans hgrow', fun hs => hnodup' (hnodup hs)⟩

/-- `file_sender_new` sends the file at the path of the pack. -/
theorem packEntry_pathname {s : FileOp} {n : UInt32} {i : ℕ} {disk : Disk} {g : PackSender}
    (h : packEntry s.shrList n i disk = .ok (some g)) : s.paths[i]? = some g.pathname := by
  unfold packEntry at h
  rw [if_neg (by omega)] at h
  obtain ⟨l, hread, h⟩ := bind_eq_ok.mp h
  obtain ⟨rfl, -⟩ := NodeList.read_eq_ok hread
  rw [Int.toNat_natCast] at h
  cases hf : s.shrList.entries[i]? with
  | none => simp [hf] at h
  | some f =>
    cases hb : f.blake2b with
    | none => simp [hf, hb] at h
    | some b =>
      simp only [hf, hb] at h
      cases hopen : disk.fopen f.file .read with
      | none =>
        simp only [hopen] at h
        cases h
      | some file =>
        simp only [hopen] at h
        cases h
        simp [FileOp.paths, hf]

/-- `cmd_info` tells of the file at the path of the pack. -/
theorem cmdInfo_filename {s : FileOp} {args : List CStr} {info : PackInfo}
    (h : cmdInfo s args = .ok (.pack info)) :
    ∃ p, s.paths[info.packn]? = some p ∧ info.filename = gnuBasename p := by
  unfold cmdInfo at h
  split at h
  · obtain ⟨packn, harg, h⟩ := bind_eq_ok.mp h
    cases packn with
    | none => cases h
    | some packn =>
      dsimp only at h
      split at h
      · cases h
      · next fn hfn =>
        split at h
        · cases h
        · cases h
          exact ⟨fn.file, by simp [FileOp.paths, hfn], rfl⟩
  · cases h

/-- What `file_new_c` is called with is the entry under its number. -/
theorem fileDo_announced {s s' : FileOp} {v : Visit} {r : Report} {f : SharedFile} {i : ℕ}
    (h : fileDo generichash s v = .ok (s', r)) (hr : r.announced = some (f, i)) :
    s'.paths[i]? = some f.file := by
  obtain ⟨s₁, s₂, ok, -, -, ⟨-, -, -, hnone⟩ | ⟨-, hhash⟩⟩ := fileDo_cases h
  · rw [hr] at hnone
    cases hnone
  · rw [hr] at hhash
    have hf := hhash.announced_eq.1
    rw [FileOp.paths, hhash.lists.1, List.getElem?_map, hf, Option.map_some]

/-- **Pack numbers are stable names.** In every state of a run no path is in the list twice;
from there on the list never shrinks, and a number that has a path has it in every later
state, where `send` and `info` use it. The number a file is announced under has its path. -/
theorem pack_numbers_stable (fileNewC : Bool) (contents : ℕ → FileId) {es fs : List ServerEvent}
    {s s' : Server} (hs : runEvents (serverStep generichash) (.start fileNewC contents) es = some s)
    (hs' : runEvents (serverStep generichash) s fs = some s') :
    s.shared.paths.Nodup ∧ s.shared.shrList.entries.length ≤ s'.shared.shrList.entries.length ∧
      (∀ (i : ℕ) (p : CStr), s.shared.paths[i]? = some p → s'.shared.paths[i]? = some p ∧
        (∀ n disk g, packEntry s'.shared.shrList n i disk = .ok (some g) → g.pathname = p) ∧
        ∀ args info, cmdInfo s'.shared args = .ok (.pack info) → info.packn = i →
          info.filename = gnuBasename p) ∧
      ∀ v shared r f i, fileDo generichash s.shared v = .ok (shared, r) → r.announced = some (f, i) →
        shared.paths[i]? = some f.file := by
  obtain ⟨hgrow, -⟩ := runEvents_paths hs'
  refine ⟨(runEvents_paths hs).2 List.nodup_nil, ?_, fun i p hp => ?_, fun v shared r f i hdo hr => ?_⟩
  · simpa [FileOp.paths] using hgrow.length_le
  · have hp' : s'.shared.paths[i]? = some p := by
      obtain ⟨t, ht⟩ := hgrow
      obtain ⟨hi, -⟩ := List.getElem?_eq_some_iff.mp hp
      rw [← ht, List.getElem?_append_left hi, hp]
    refine ⟨hp', fun n disk g hg => ?_, fun args info hinfo hi => ?_⟩
    · exact Option.some.inj ((packEntry_pathname hg).symm.trans hp')
    · obtain ⟨q, hq, hname⟩ := cmdInfo_filename hinfo
      rw [hi] at hq
      cases hq.symm.trans hp'
      exact hname
  · exact fileDo_announced hdo hr

/-- Two files are found, and then one of them is hashed and announced. -/
theorem pack_numbers_stable_twoFiles :
    ∃ s s' : Server, runEvents (serverStep fun _ => someHash) (.start true fun _ => someHash)
          [.recheck, .fileDo twoFiles.visit] = some s ∧
        runEvents (serverStep fun _ => someHash) s [.fileDo twoFiles.visit] = some s' ∧
      s.shared.paths.Nodup ∧
      s.shared.shrList.entries.length ≤ s'.shared.shrList.entries.length ∧
      (∀ (i : ℕ) (p : CStr), s.shared.paths[i]? = some p → s'.shared.paths[i]? = some p ∧
        (∀ n disk g, packEntry s'.shared.shrList n i disk = .ok (some g) → g.pathname = p) ∧
        ∀ args info, cmdInfo s'.shared args = .ok (.pack info) → info.packn = i →
          info.filename = gnuBasename p) ∧
      ∀ v shared r f i, fileDo (fun _ => someHash) s.shared v = .ok (shared, r) → r.announced = some (f, i) →
        shared.paths[i]? = some f.file :=
  ⟨_, _, rfl, rfl, @pack_numbers_stable (fun _ => someHash) true (fun _ => someHash)
    [.recheck, .fileDo twoFiles.visit] [.fileDo twoFiles.visit] _ _ rfl rfl⟩

end ToxSuite.Share
