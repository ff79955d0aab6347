import ToxSuite.File.Serve
import ToxSuite.File.Slots

/-!
# `filesend.c`: the pack list, and what senders serve

`file_sender_new` queues a shared file, which it opens for reading, or the list of the
shared files, which `file_list_create` writes and leaves open for writing. Both are served
by `file_chunk_request_cb`.

A sender should serve the bytes of its file, whatever is asked of it and of the others in
between. A shared file is served so; the pack list, which cannot be read through the
stream it was written to, is never (`serves_file_iff`).
-/

namespace ToxSuite.File

open ToxSuite.Lib ToxSuite.Friend

/-! ### The pack list -/

/-- `unit_letter` of `human_readable_filesize`. -/
def unitLetter : Bytes := ascii " KMGTPEZY"

/-- The loop of `human_readable_filesize`. -/
def scaleFilesize : ℤ → Bytes → Except Fault (ℤ × UInt8)
  | _, [] => .error .overread
  | size, letter :: letters =>
    if 9999 < size then scaleFilesize (size / 1024) letters else pure (size, letter)

/-- `human_readable_filesize`: what the eight bytes of `dest` hold. -/
def humanReadableFilesize (size : Int64) : Except Fault Bytes := do
  let (size, letter) ← scaleFilesize size.toInt unitLetter
  -- `%lu`
  pure ((decNat (size % 2 ^ 64).toNat ++ [32, letter, 98]).take 7)

/-- `"%-10i"`. -/
def padInt (i : ℕ) : Bytes := decNat i ++ List.replicate (10 - (decNat i).length) 32

/-- The lines of `file_list_create`, from the `i`-th shared file on. -/
def packLines : ℕ → List FileNode → Except Fault Bytes
  | _, [] => pure []
  | i, fn :: fnode =>
    if fn.present then do
      let huSize ← humanReadableFilesize fn.length
      match fn.file with
      | none => .error .null
      | some file => do
        let lines ← packLines (i + 1) fnode
        pure (ascii "#" ++ padInt i ++ ascii " [" ++ huSize ++ ascii "] " ++ (gnuBasename file).bytes ++
          10 :: lines)
    else packLines (i + 1) fnode

/-- What `file_list_create` writes. -/
def fileListCreate (fnode : List FileNode) (filesSender : List FileSender) : Except Fault Bytes := do
  let (packsAvail, slots) := fileListCounts fnode filesSender
  let lines ← packLines 0 fnode
  pure (ascii "** " ++ decNat packsAvail ++ ascii " Packs ** " ++ decInt slots ++ ascii "/" ++
    decNat NUM_FILE_SENDERS ++ ascii " Slots open **" ++ 10 :: ascii "** #pack_num  [size]  filename **" ++
    10 :: lines)

/-- The loop stops at the first unit in which the size has no more than four digits, and successive
divisions come to one. -/
theorem scaleFilesize_spec {letters : Bytes} : ∀ {size : ℤ}, letters ≠ [] →
    size ≤ 9999 * 1024 ^ (letters.length - 1) → ∃ k letter, letters[k]? = some letter ∧
      scaleFilesize size letters = .ok (size / 1024 ^ k, letter) ∧ size / 1024 ^ k ≤ 9999 ∧
      ∀ j < k, 9999 < size / 1024 ^ j := by
  induction letters with
  | nil => exact fun h => absurd rfl h
  | cons letter letters ih =>
    intro size _ hsize
    by_cases hlarge : 9999 < size
    · cases letters with
      | nil =>
        simp only [List.length_cons, List.length_nil] at hsize
        omega
      | cons next letters =>
        have hnext : size / 1024 ≤ 9999 * 1024 ^ ((next :: letters).length - 1) := by
          simp only [List.length_cons, Nat.add_sub_cancel] at hsize ⊢
          rw [pow_succ] at hsize
          exact Int.ediv_le_of_le_mul (by norm_num) (by linarith)
        obtain ⟨k, c, hletter, hscale, hsmall, hleast⟩ := ih (by simp) hnext
        have hdiv (j : ℕ) : size / 1024 / 1024 ^ j = size / 1024 ^ (j + 1) := by
          rw [Int.ediv_ediv_of_nonneg (by norm_num), pow_succ, mul_comm]
        refine ⟨k + 1, c, hletter, ?_, hdiv k ▸ hsmall, fun j hj => ?_⟩
        · rw [scaleFilesize, if_pos hlarge, hscale, hdiv]
        · cases j with
          | zero => simpa using hlarge
          | succ j => exact hdiv j ▸ hleast j (Nat.lt_of_succ_lt_succ hj)
    · refine ⟨0, letter, rfl, ?_, by simpa using hlarge, fun j hj => absurd hj (Nat.not_lt_zero j)⟩
      rw [scaleFilesize, if_neg hlarge, pow_zero, Int.ediv_one]
      rfl

/-- No size has more units than there are letters. -/
theorem toInt_le_units (size : Int64) : size.toInt ≤ 9999 * 1024 ^ (unitLetter.length - 1) := by
  have hmax : size.toInt < 2 ^ 63 := Int64.toInt_lt size
  have hlen : unitLetter.length - 1 = 8 := by decide
  rw [hlen]
  norm_num at hmax ⊢
  linarith

theorem humanReadableFilesize_isOk (size : Int64) : ∃ text, humanReadableFilesize size = .ok text := by
  obtain ⟨k, letter, -, h, -⟩ := scaleFilesize_spec (by decide) (toInt_le_units size)
  exact ⟨_, bind_eq_ok.mpr ⟨_, h, rfl⟩⟩

/-- **A size is exact to its unit, and its text fits**: it is divided just until it has four digits,
and what is printed is not cut off by the eight bytes it is printed to. -/
theorem humanReadableFilesize_exact {size : Int64} (h : 0 ≤ size.toInt) :
    ∃ k letter, unitLetter[k]? = some letter ∧ size.toInt / 1024 ^ k ≤ 9999 ∧
      (∀ j < k, 9999 < size.toInt / 1024 ^ j) ∧
      ∃ text, text = decNat (size.toInt / 1024 ^ k).toNat ++ [32, letter, 98] ∧
        humanReadableFilesize size = .ok text ∧ text.length + 1 ≤ 8 ∧
        ∀ dest : Vec 8, ∃ dest', snprintf dest.1 0 8 text = .ok dest' ∧ dest'.length = 8 ∧
          dest'.take text.length = text ∧ strlenAt dest' 0 = .ok text.length := by
  obtain ⟨k, letter, hletter, hscale, hsmall, hleast⟩ := scaleFilesize_spec (by decide) (toInt_le_units size)
  have hnonneg : 0 ≤ size.toInt / 1024 ^ k := Int.ediv_nonneg h (by positivity)
  have hdigits : (decNat (size.toInt / 1024 ^ k).toNat).length ≤ 4 := length_decNat_le (by norm_num) (by omega)
  have hlen : (decNat (size.toInt / 1024 ^ k).toNat ++ [32, letter, 98]).length ≤ 7 := by
    rw [List.length_append]
    simp only [List.length_cons, List.length_nil]
    omega
  have hletter0 : letter ≠ 0 := by
    rintro rfl
    exact absurd (List.mem_of_getElem? hletter) (by decide)
  have hnul : (0 : UInt8) ∉ decNat (size.toInt / 1024 ^ k).toNat ++ [32, letter, 98] := by
    simp [zero_notMem_decNat, Ne.symm hletter0]
  refine ⟨k, letter, hletter, hsmall, hleast, _, rfl, ?_, by omega, fun dest => ?_⟩
  · have hmod : size.toInt / 1024 ^ k % 2 ^ 64 = size.toInt / 1024 ^ k := Int.emod_eq_of_lt hnonneg (by omega)
    rw [humanReadableFilesize, hscale, ok_bind]
    dsimp only
    rw [hmod, List.take_of_length_le hlen, pure_eq_ok]
  · obtain ⟨dest', hprint, hlen', htake, hstrlen⟩ := @snprintf_spec dest.1 0 8 _ hnul (by omega)
      (by rw [dest.2]; norm_num)
    refine ⟨dest', hprint, hlen'.trans dest.2, ?_, hstrlen⟩
    simpa using htake

/-- The largest file there can be: 8191 petabytes. -/
theorem humanReadableFilesize_exact_max :
    ∃ k letter, unitLetter[k]? = some letter ∧ (9223372036854775807 : Int64).toInt / 1024 ^ k ≤ 9999 ∧
      (∀ j < k, 9999 < (9223372036854775807 : Int64).toInt / 1024 ^ j) ∧
      ∃ text, text = decNat ((9223372036854775807 : Int64).toInt / 1024 ^ k).toNat ++ [32, letter, 98] ∧
        humanReadableFilesize 9223372036854775807 = .ok text ∧ text.length + 1 ≤ 8 ∧
        ∀ dest : Vec 8, ∃ dest', snprintf dest.1 0 8 text = .ok dest' ∧ dest'.length = 8 ∧
          dest'.take text.length = text ∧ strlenAt dest' 0 = .ok text.length :=
  humanReadableFilesize_exact (by decide)

/-- There is always something in the list. -/
theorem fileListCreate_ne_nil {fnode : List FileNode} {filesSender : List FileSender} {text : Bytes}
    (h : fileListCreate fnode filesSender = .ok text) : 0 < text.length := by
  obtain ⟨lines, -, h⟩ := bind_eq_ok.mp h
  cases h
  simp only [List.length_append, List.length_cons]
  omega

/-! ### Serving -/

/-- A chunk Tox asks for. -/
structure Request where
  friendNumber : UInt32
  fileNumber : UInt32
  position : UInt64
  length : UInt64

/-- The request is for the transfer of a sender. -/
def Request.names (r : Request) (f : FileSender) : Bool := f.hasKey r.friendNumber r.fileNumber

/-- The request is for bytes the file has. -/
def Request.Within (r : Request) (content : Bytes) : Prop :=
  0 < r.length ∧ r.position.toNat + r.length.toNat ≤ content.length

/-- The bytes the request is for. -/
def Request.of (r : Request) (content : Bytes) : Bytes :=
  (content.drop r.position.toNat).take r.length.toNat

/-- The requests of Tox, one after the other, and what is sent on each. -/
def Senders.serve (files : FileContents) : Senders → List Request → List (Request × Option Chunk)
  | _, [] => []
  | s, r :: requests =>
    let (s, chunk) := s.fileChunkRequestCb files r.friendNumber r.fileNumber r.position r.length
    (r, chunk) :: s.serve files requests

/-- What the files hold when `file_sender_new` has called `file_list_create` for a pack list that can
be opened. -/
def filesWithList (files : FileContents) (fnode : List FileNode) (filesSender : List FileSender) (packn : ℤ)
    (disk : Disk) : Except Fault FileContents :=
  if packn < 0 ∧ (disk.fopen packlistFilename .write).isSome then do
    let text ← fileListCreate fnode filesSender
    pure (Function.update files packlistFilename text)
  else pure files

/-- `file_sender_new`, with what the files hold: `file_list_create` writes one of them, and
`add_filesender` measures them. -/
def fileSenderNewOn (files : FileContents) (fnode : List FileNode) (o : Outbox) (addr : ℕ) (friendNumber : UInt32)
    (shrfiles : List FileNode) (packn : ℤ) (answer : Answer) : Except Fault (Outbox × FileSend × FileContents) := do
  let files ← filesWithList files fnode o.filesSender packn answer.disk
  let size := fun path => Int64.ofNat (files path).length
  let (o, rc) ← fileSenderNew o addr friendNumber shrfiles packn
    { answer with disk := { answer.disk with size } }
  pure (o, rc, files)

/-- The sender at the head of the queue serves its file: the size it announced is the file's, and of
whatever is asked of it and of others, wherever the streams stand, each request for bytes of the
file is answered with them. -/
def ServesFile (files : FileContents) (filesSender : List FileSender) : Prop :=
  ∃ f rest path, filesSender = f :: rest ∧ f.pathname = some path ∧
    f.info.length.toInt = (files path).length ∧
    ∀ (position : ℕ → ℕ) (requests : List Request),
      (∀ r ∈ requests, r.names f → r.Within (files path)) →
        ∀ rc ∈ Senders.serve files ⟨filesSender, position⟩ requests, rc.1.names f →
          rc.2 = some ⟨f.friendNumber, f.fileNumber, rc.1.position, rc.1.of (files path)⟩

/-- What a search finds is found after a cut elsewhere. -/
theorem fileSenderGet_destroy_ne {q : List FileSender} {f : FileSender} {n m n' m' : UInt32}
    (hget : fileSenderGet q n m = some f) (hne : f.hasKey n' m' = false) :
    fileSenderGet (fileSenderDestroy q n' m') n m = some f := by
  induction q with
  | nil => cases hget
  | cons g q ih =>
    unfold fileSenderGet fileSenderDestroy at *
    by_cases hg : g.hasKey n m = true
    · rw [List.find?_cons_of_pos hg] at hget
      cases hget
      rw [List.eraseP_cons_of_neg (by simp [hne]), List.find?_cons_of_pos hg]
    · rw [List.find?_cons_of_neg hg] at hget
      by_cases hg' : g.hasKey n' m' = true
      · rw [List.eraseP_cons_of_pos hg']
        exact hget
      · rw [List.eraseP_cons_of_neg hg', List.find?_cons_of_neg hg]
        exact ih hget

theorem Request.names_iff {r : Request} {f : FileSender} :
    r.names f = true ↔ r.friendNumber = f.friendNumber ∧ r.fileNumber = f.fileNumber := by
  simp only [names, FileSender.hasKey, Bool.and_eq_true, beq_iff_eq]
  exact and_congr eq_comm eq_comm

/-- The entry of a transfer stays where it is found, unless Tox is done with it. -/
theorem Senders.get_of_request {files : FileContents} {s : Senders} {f : FileSender} {r : Request}
    (hget : fileSenderGet s.filesSender f.friendNumber f.fileNumber = some f)
    (hr : r.names f → 0 < r.length) :
    fileSenderGet
      (s.fileChunkRequestCb files r.friendNumber r.fileNumber r.position r.length).1.filesSender
      f.friendNumber f.fileNumber = some f := by
  rw [fileChunkRequestCb_filesSender]
  unfold File.fileChunkRequestCb
  cases hname : r.names f with
  | true =>
    obtain ⟨hn, hm⟩ := Request.names_iff.mp hname
    have hlength : r.length.toNat ≠ 0 := Nat.pos_iff_ne_zero.mp (hr hname)
    rw [hn, hm, hget]
    simp only [hlength, if_false, ite_self]
    exact hget
  | false =>
    split
    · exact hget
    · split_ifs
      · exact hget
      · exact fileSenderGet_destroy_ne hget hname
      · exact hget

/-- **A request for bytes of a file that can be read** is answered with them. -/
theorem Senders.chunk_of_request {files : FileContents} {s : Senders} {f : FileSender} {r : Request} {path : CStr}
    (hget : fileSenderGet s.filesSender f.friendNumber f.fileNumber = some f)
    (hfile : f.file = some ⟨path, .read⟩) (hlen : (files path).length ≤ INT64_MAX)
    (hname : r.names f = true) (hr : r.Within (files path)) :
    (s.fileChunkRequestCb files r.friendNumber r.fileNumber r.position r.length).2 =
      some ⟨f.friendNumber, f.fileNumber, r.position, r.of (files path)⟩ := by
  obtain ⟨hn, hm⟩ := Request.names_iff.mp hname
  obtain ⟨hpos, hend⟩ := hr
  have hlength : r.length ≠ 0 := by
    rintro h
    rw [h] at hpos
    exact absurd hpos (by decide)
  have hposition : ¬ INT64_MAX < r.position.toNat := by omega
  unfold fileChunkRequestCb
  rw [hn, hm, hget]
  simp only [hfile, hlength, hposition, if_false]
  simp [seek, Stream.fread, Request.of]

/-- **A run of requests**: those for bytes of a file that can be read are answered with them. -/
theorem Senders.serve_read {files : FileContents} {f : FileSender} {path : CStr} (hfile : f.file = some ⟨path, .read⟩)
    (hlen : (files path).length ≤ INT64_MAX) (requests : List Request) : ∀ {s : Senders},
      fileSenderGet s.filesSender f.friendNumber f.fileNumber = some f →
      (∀ r ∈ requests, r.names f → r.Within (files path)) →
      ∀ rc ∈ s.serve files requests, rc.1.names f →
        rc.2 = some ⟨f.friendNumber, f.fileNumber, rc.1.position, rc.1.of (files path)⟩ := by
  induction requests with
  | nil =>
    intro s _ _ rc hrc
    cases hrc
  | cons r requests ih =>
    intro s hget hall rc hrc hname
    rw [List.forall_mem_cons] at hall
    rcases List.mem_cons.mp hrc with rfl | hrc
    · exact chunk_of_request hget hfile hlen hname (hall.1 hname)
    · exact ih (get_of_request hget fun h => (hall.1 h).1) hall.2 rc hrc hname

theorem fileSenderGet_head {f : FileSender} {rest : List FileSender} :
    fileSenderGet (f :: rest) f.friendNumber f.fileNumber = some f := by
  simp [fileSenderGet, FileSender.hasKey]

/-- A sender whose stream reads its file serves it. -/
theorem servesFile_of_read {files : FileContents} {f : FileSender} {rest : List FileSender} {path : CStr}
    (hfile : f.file = some ⟨path, .read⟩) (hpath : f.pathname = some path)
    (hlen : f.info.length.toInt = (files path).length) : ServesFile files (f :: rest) := by
  have hmax : (files path).length ≤ INT64_MAX := by
    have hlt := Int64.toInt_lt f.info.length
    rw [hlen] at hlt
    unfold INT64_MAX
    omega
  exact ⟨f, rest, path, rfl, hpath, hlen,
    fun position requests => Senders.serve_read hfile hmax requests fileSenderGet_head⟩

/-- A sender whose stream writes its file does not serve it, if there is something in it. -/
theorem not_servesFile_of_write {files : FileContents} {f : FileSender} {rest : List FileSender} {path path' : CStr}
    (hfile : f.file = some ⟨path', .write⟩) (hpath : f.pathname = some path) (hlen : 0 < (files path).length) :
    ¬ ServesFile files (f :: rest) := by
  rintro ⟨g, rest', path', heq, hpath', -, hserve⟩
  cases heq
  cases hpath.symm.trans hpath'
  have hname : Request.names ⟨f.friendNumber, f.fileNumber, 0, 1⟩ f = true := Request.names_iff.mpr ⟨rfl, rfl⟩
  have hchunk := hserve (fun _ => 0) [⟨f.friendNumber, f.fileNumber, 0, 1⟩]
    (fun r hr _ => by
      rw [List.mem_singleton] at hr
      subst hr
      exact ⟨(by decide : (0 : UInt64) < 1), hlen⟩) _ List.mem_cons_self hname
  -- nothing was read, but the file has a first byte
  have hempty : Request.of ⟨f.friendNumber, f.fileNumber, 0, 1⟩ (files path) = [] := by
    have hlarge : ¬ INT64_MAX < (0 : UInt64).toNat := by decide
    simp only [fileSenderGet_head, hfile, hlarge, if_false, Stream.fread, Option.some.injEq, Chunk.mk.injEq,
      (by decide : (1 : UInt64) ≠ 0)] at hchunk
    exact hchunk.2.2.2.symm
  have hone := congrArg List.length hempty
  simp only [Request.of, List.length_take, List.length_drop, List.length_nil] at hone
  have hzero : (0 : UInt64).toNat = 0 := rfl
  have hone' : (1 : UInt64).toNat = 1 := rfl
  omega

/-! ### What `file_sender_new` queues -/

/-- **The pack list**: its entry writes to it. -/
theorem fileSenderEntry_neg {addr : ℕ} {shrfiles : List FileNode} {packn : ℤ} {disk : Disk} {f : FileSender}
    (hpackn : packn < 0) (h : fileSenderEntry addr shrfiles packn disk = .ok (some f)) :
    (disk.fopen packlistFilename .write).isSome ∧ f.file = some ⟨packlistFilename, .write⟩ ∧
      f.pathname = some packlistFilename := by
  unfold fileSenderEntry at h
  rw [if_pos hpackn] at h
  unfold Disk.fopen at h ⊢
  split_ifs at h with hopen
  · cases h
    rw [if_pos hopen]
    exact ⟨rfl, rfl, rfl⟩
  · cases h

/-- **A shared file**: its entry reads it, and has the length that was recorded. -/
theorem fileSenderEntry_nonneg {addr : ℕ} {shrfiles : List FileNode} {packn : ℤ} {disk : Disk}
    {f : FileSender} (hpackn : ¬ packn < 0) (h : fileSenderEntry addr shrfiles packn disk = .ok (some f)) :
    ∃ info path, shrfiles[packn.toNat]? = some info ∧ info.file = some path ∧
      f.file = some ⟨path, .read⟩ ∧ f.pathname = some path ∧ f.info.length = info.length := by
  unfold fileSenderEntry at h
  rw [if_neg hpackn] at h
  cases hinfo : shrfiles[packn.toNat]? with
  | none => simp [hinfo] at h
  | some info =>
    cases hfile : info.file with
    | none => simp [hinfo, hfile] at h
    | some path =>
      cases hhash : info.blake2b with
      | none => simp [hinfo, hfile, hhash] at h
      | some hash =>
        simp only [hinfo, hfile, hhash, Disk.fopen] at h
        split_ifs at h
        · cases h
          exact ⟨info, path, rfl, hfile, rfl, rfl, rfl⟩
        · cases h

/-- The shared file is as it was when it was recorded. -/
def Unchanged (files : FileContents) (shrfiles : List FileNode) (packn : ℤ) : Prop :=
  ∀ info path, shrfiles[packn.toNat]? = some info → info.file = some path →
    info.length.toInt = (files path).length

/-- **A queued sender serves its file** if and only if it is not the pack list. -/
theorem serves_file_iff {files files' : FileContents} {fnode : List FileNode} {o o' : Outbox} {addr : ℕ}
    {friendNumber : UInt32} {shrfiles : List FileNode} {packn : ℤ} {answer : Answer}
    (h : fileSenderNewOn files fnode o addr friendNumber shrfiles packn answer = .ok (o', .ok, files'))
    (hrecorded : 0 ≤ packn → Unchanged files shrfiles packn) :
    ServesFile files' o'.filesSender ↔ 0 ≤ packn := by
  obtain ⟨written, hfiles, h⟩ := bind_eq_ok.mp h
  unfold filesWithList at hfiles
  obtain ⟨⟨o₁, rc⟩, hnew, h⟩ := bind_eq_ok.mp h
  cases h
  obtain ⟨entry, hentry, hnew⟩ := bind_eq_ok.mp hnew
  cases entry with
  | none => cases hnew
  | some f =>
    obtain ⟨⟨o₂, k⟩, hadd, hnew⟩ := bind_eq_ok.mp hnew
    obtain rfl : o₂ = o' := congrArg Prod.fst (Except.ok.inj hnew)
    by_cases hpackn : packn < 0
    · refine iff_of_false ?_ (not_le.mpr hpackn)
      obtain ⟨hopen, hfile, hpath⟩ := fileSenderEntry_neg hpackn hentry
      rw [if_pos ⟨hpackn, hopen⟩] at hfiles
      obtain ⟨text, htext, hfiles⟩ := bind_eq_ok.mp hfiles
      cases hfiles
      obtain ⟨f', hf', hfile', hq⟩ := Outbox.add_head hadd
      rw [hq]
      apply not_servesFile_of_write (hfile'.trans (FileSender.stream_of_file hfile)) (hf'.pathname.trans hpath)
      rw [Function.update_self]
      exact fileListCreate_ne_nil htext
    · refine iff_of_true ?_ (not_lt.mp hpackn)
      rw [if_neg fun hneg => hpackn hneg.1] at hfiles
      cases hfiles
      obtain ⟨info, path, hinfo, hname, hfile, hpath, hlength⟩ := fileSenderEntry_nonneg hpackn hentry
      have hsize := hrecorded (not_lt.mp hpackn) info path hinfo hname
      obtain ⟨f', hf', hfile', hq⟩ := Outbox.add_head hadd
      rw [hq]
      apply servesFile_of_read (hfile'.trans (FileSender.stream_of_file hfile)) (hf'.pathname.trans hpath)
      rcases hf'.length with hkept | ⟨hzero, stream, hstream, hmeasured⟩
      · rw [hkept]
        exact (congrArg Int64.toInt hlength).trans hsize
      · -- a file of no bytes is measured again
        have hinfo0 : info.length = 0 := hlength.symm.trans hzero
        have hempty : (files path).length = 0 := by
          rw [hinfo0, Int64.toInt_zero] at hsize
          exact_mod_cast hsize.symm
        have hpath' : stream = ⟨path, .read⟩ :=
          Option.some.inj (hstream.symm.trans (FileSender.stream_of_file hfile))
        have hzero' : Int64.toInt (Int64.ofNat (files path).length) = (files path).length := by
          rw [hempty]
          rfl
        rw [hmeasured, hpath']
        exact hzero'

/-- A shared file of two bytes. -/
def sharedPair : FileNode := ⟨some (.ofBytes (ascii "/a")), some (someKey 58), 0, 2, true⟩

/-- What the files hold when every file is one of two bytes. -/
def pairs : FileContents := fun _ => ascii "ab"

/-- A shared file is sent to a friend. -/
theorem serves_file_iff_shared :
    ∃ o' files', fileSenderNewOn pairs [sharedPair] ⟨[], [], []⟩ 0 1 [sharedPair] 0 (consent 5) =
        .ok (o', .ok, files') ∧
      (ServesFile files' o'.filesSender ↔ (0 : ℤ) ≤ 0) := by
  have hnew : ∃ o' files', fileSenderNewOn pairs [sharedPair] ⟨[], [], []⟩ 0 1 [sharedPair] 0 (consent 5) =
      .ok (o', .ok, files') := ⟨_, _, rfl⟩
  obtain ⟨o', files', hnew⟩ := hnew
  refine ⟨o', files', hnew, serves_file_iff hnew fun _ info path hinfo hpath => ?_⟩
  cases hinfo
  rfl

/-- The pack list is sent to a friend, who gets none of its bytes. -/
theorem packlist_not_served :
    ∃ o' files', fileSenderNewOn pairs [] ⟨[], [], []⟩ 0 1 [] (-1) (consent 5) = .ok (o', .ok, files') ∧
      ¬ ServesFile files' o'.filesSender := by
  refine ⟨_, _, rfl, @not_servesFile_of_write _ _ _ packlistFilename packlistFilename rfl rfl ?_⟩
  decide +kernel

end ToxSuite.File
