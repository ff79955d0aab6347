import ToxSuite.Command.Args
import ToxSuite.File.Packlist
import ToxSuite.Share.Server

/-!
# `callbacks.c`: the packs a friend can name

`info` and `send` take the number of a pack, as `file_list_create` shows it; `send` also takes
`-1`, for the list itself. The argument is read by `atoi`, and only for `0` is it looked at what
it was. What is shown are the files that exist (`fileListCreate_prints`).

Every number that is shown should be taken, and nothing else. Where the argument begins with a
number that `atoi` makes a shown one of, and is not the numeral of it, the commands act on that
pack nevertheless; for all other arguments they are exact (`packs_exact_iff`).
-/

namespace ToxSuite.Command

open ToxSuite.Lib ToxSuite.File ToxSuite.Share

/-! ### The list -/

/-- The shared list as the commands find it: it is there, and its length is an `int`. -/
structure Listed (list : NodeList) (fnode : List SharedFile) : Prop where
  read : list.read = .ok fnode
  length_lt : fnode.length < 2 ^ 31

/-- The list has this pack, and its file exists. -/
def Shown (fnode : List SharedFile) (i : ℕ) : Prop := ∃ f, fnode[i]? = some f ∧ f.present = true

theorem Shown.lt {fnode : List SharedFile} {i : ℕ} (h : Shown fnode i) : i < fnode.length := by
  obtain ⟨f, hf, -⟩ := h
  exact (List.getElem?_eq_some_iff.mp hf).1

theorem Listed.entries {list : NodeList} {fnode : List SharedFile} (h : Listed list fnode) :
    list.entries = fnode := by
  have hread := h.read
  unfold NodeList.read at hread
  split_ifs at hread
  exact Except.ok.inj hread

/-- What is printed is two lines of heading and then a line for each pack that is shown, in order, with
its number first. -/
def Prints (fnode : List SharedFile) (text : Bytes) : Prop :=
  ∃ (counts columns : Bytes) (packs : List (ℕ × Bytes)), (10 : UInt8) ∉ counts ∧ (10 : UInt8) ∉ columns ∧
    text = counts ++ 10 :: columns ++ 10 :: (packs.map fun p => ascii "#" ++ padInt p.1 ++ p.2 ++ [10]).flatten ∧
    (packs.map Prod.fst).Pairwise (· < ·) ∧ ∀ i, i ∈ packs.map Prod.fst ↔ Shown fnode i

/-- The first pack is shown, or one of the others. -/
theorem shown_cons (f : SharedFile) (fnode : List SharedFile) (k i : ℕ) :
    (∃ j, i = k + j ∧ Shown (f :: fnode) j) ↔
      (i = k ∧ f.present = true) ∨ ∃ j, i = k + 1 + j ∧ Shown fnode j := by
  constructor
  · rintro ⟨j, rfl, g, hg, hpresent⟩
    cases j with
    | zero =>
      cases hg
      exact .inl ⟨rfl, hpresent⟩
    | succ j => exact .inr ⟨j, by omega, g, hg, hpresent⟩
  · rintro (⟨rfl, hpresent⟩ | ⟨j, rfl, g, hg, hpresent⟩)
    · exact ⟨0, rfl, f, rfl, hpresent⟩
    · exact ⟨j + 1, by omega, g, hg, hpresent⟩

/-- The loop of `file_list_create` prints a line for each pack that is shown, from the `k`-th on. -/
theorem packLines_shown (contents : ℕ → FileId) (fnode : List SharedFile) : ∀ k, ∃ packs : List (ℕ × Bytes),
    packLines k (fnode.map (SharedFile.view contents)) =
        .ok (packs.map fun p => ascii "#" ++ padInt p.1 ++ p.2 ++ [10]).flatten ∧
      (packs.map Prod.fst).Pairwise (· < ·) ∧ ∀ i, i ∈ packs.map Prod.fst ↔ ∃ j, i = k + j ∧ Shown fnode j := by
  induction fnode with
  | nil => exact fun k => ⟨[], rfl, List.Pairwise.nil, fun i => by simp [Shown]⟩
  | cons f fnode ih =>
    intro k
    obtain ⟨packs, hpacks, hordered, hshown⟩ := ih (k + 1)
    rw [List.map_cons, packLines]
    split_ifs with hpresent
    · obtain ⟨huSize, hsize⟩ := humanReadableFilesize_isOk f.length
      refine ⟨(k, ascii " [" ++ huSize ++ ascii "] " ++ (gnuBasename f.file).bytes) :: packs, ?_, ?_, fun i => ?_⟩
      · simp only [SharedFile.view, hsize, hpacks, ok_bind, pure_eq_ok]
        simp
      · rw [List.map_cons, List.pairwise_cons]
        refine ⟨fun i hi => ?_, hordered⟩
        obtain ⟨j, rfl, -⟩ := (hshown i).mp hi
        omega
      · rw [shown_cons, List.map_cons, List.mem_cons, hshown]
        exact or_congr ⟨fun h => ⟨h, hpresent⟩, And.left⟩ Iff.rfl
    · refine ⟨packs, hpacks, hordered, fun i => ?_⟩
      rw [shown_cons, hshown]
      exact ⟨.inr, Or.rec (fun h => absurd h.2 hpresent) id⟩

/-- **`file_list_create`** writes its list, whatever is shared, and shows what is there. -/
theorem fileListCreate_prints (contents : ℕ → FileId) (fnode : List SharedFile) (filesSender : List FileSender) :
    ∃ text, fileListCreate (fnode.map (SharedFile.view contents)) filesSender = .ok text ∧ Prints fnode text := by
  obtain ⟨packs, hpacks, hordered, hshown⟩ := packLines_shown contents fnode 0
  refine ⟨_, by rw [fileListCreate, hpacks]; rfl, _, _, packs, ?_, ?_, rfl, hordered, fun i => ?_⟩
  · have hnat (n : ℕ) : (10 : UInt8) ∉ decNat n := fun h => absurd (isDigit_of_mem_decNat h) (by decide)
    have hint (i : ℤ) : (10 : UInt8) ∉ decInt i := by
      unfold decInt
      split_ifs <;> simp [hnat]
    simp only [List.mem_append, hnat, hint, or_false]
    decide
  · decide
  · simpa using hshown i

/-! ### The argument -/

/-- What an argument may name: a pack that is shown, or by `-1` the list where that is not too
low. -/
def Named (fnode : List SharedFile) (lowest v : ℤ) : Prop :=
  (v = -1 ∧ lowest = -1) ∨ ∃ i : ℕ, v = i ∧ Shown fnode i

/-- The argument is taken. -/
def Taken (fnode : List SharedFile) (lowest : ℤ) (arg : CStr) : Prop :=
  Named fnode lowest (atoi arg) ∧ (atoi arg = 0 → arg.bytes = decNat 0)

/-- **What the commands take**: what `atoi` makes of the argument, if it is something to be named;
for `0` the argument has to be the numeral. -/
theorem packArgument_spec {list : NodeList} {fnode : List SharedFile} (h : Listed list fnode) {lowest : ℤ}
    (hlow : lowest = 0 ∨ lowest = -1) (arg : CStr) :
    (Taken fnode lowest arg ∧ packArgument list lowest arg = .ok (some (atoi arg))) ∨
      (¬ Taken fnode lowest arg ∧ packArgument list lowest arg = .ok none) := by
  unfold packArgument Taken
  rw [h.entries, h.read, show ascii "0" = decNat 0 from rfl]
  generalize atoi arg = v
  by_cases hout : (v = 0 ∧ arg.bytes ≠ decNat 0) ∨ v < lowest ∨ v ≥ fnode.length
  · refine .inr ⟨?_, by simp only [if_pos hout, pure_eq_ok]⟩
    rintro ⟨hnamed, hzero⟩
    rcases hnamed with ⟨rfl, rfl⟩ | ⟨i, rfl, hshown⟩
    · omega
    · have := hshown.lt
      rcases hout with ⟨hv, hne⟩ | hout
      · exact hne (hzero hv)
      · omega
  · have hzero : v = 0 → arg.bytes = decNat 0 := by
      intro hv
      by_contra hne
      exact hout (.inl ⟨hv, hne⟩)
    simp only [if_neg hout, pure_eq_ok, ok_bind]
    by_cases hlist : v = -1
    · refine .inl ⟨⟨.inl ⟨hlist, ?_⟩, hzero⟩, if_pos hlist⟩
      omega
    · rw [if_neg hlist]
      obtain ⟨i, rfl⟩ : ∃ i : ℕ, v = i := ⟨v.toNat, by omega⟩
      have hi : i < fnode.length := by omega
      rw [Int.toNat_natCast, List.getElem?_eq_getElem hi]
      dsimp only
      by_cases hpresent : (fnode[i]).present = true
      · rw [if_pos hpresent]
        exact .inl ⟨⟨.inr ⟨i, rfl, _, List.getElem?_eq_getElem hi, hpresent⟩, hzero⟩, rfl⟩
      · rw [if_neg hpresent]
        refine .inr ⟨?_, rfl⟩
        rintro ⟨⟨hv, -⟩ | ⟨j, hj, f, hf, hshown⟩, -⟩
        · omega
        · cases Int.ofNat.inj hj
          rw [List.getElem?_eq_getElem hi] at hf
          cases hf
          exact hpresent hshown

/-! ### The commands -/

/-- What `cmd_info` tells of an entry. -/
def tell (s : FileOp) (i : ℕ) (fn : SharedFile) : Except Fault InfoReply :=
  match fn.blake2b with
  | none => .error .null
  | some b => pure (.pack ⟨i, gnuBasename fn.file, fn.length, fn.mtime, s.contents b⟩)

/-- What `cmd_send` does with what it may send. -/
def queue (s : Server) (friendNumber : UInt32) (packn : ℤ) (answer : Answer) :
    Except Fault (Server × Option String × Option ℕ) := do
  let (s, rc, pack) ← s.fileSenderNew friendNumber packn answer
  pure (s, sendMessage rc, pack)

/-- The commands are exact with an argument: they act on the pack it is the numeral of, if that is
shown, and `send` on the list if it is `-1`; else they answer that there is no such pack, and
nothing happens. -/
structure Exact (s : Server) (fnode : List SharedFile) (friendNumber : UInt32) (answer : Answer) (arg : CStr) :
    Prop where
  /-- The packs that are shown are those of the list `file_list_create` prints, whatever is sent. -/
  prints : ∀ filesSender, ∃ text,
    fileListCreate (fnode.map (SharedFile.view s.shared.contents)) filesSender = .ok text ∧ Prints fnode text
  info : ∀ i f, fnode[i]? = some f → f.present = true → arg.bytes = decNat i →
    cmdInfo s.shared [arg] = tell s.shared i f
  infoElse : (∀ i, Shown fnode i → arg.bytes ≠ decNat i) → cmdInfo s.shared [arg] = .ok (.message NOTFND_ERR_MSG)
  send : ∀ i, Shown fnode i → arg.bytes = decNat i → s.cmdSend friendNumber [arg] answer = queue s friendNumber i answer
  sendList : arg.bytes = ascii "-1" → s.cmdSend friendNumber [arg] answer = queue s friendNumber (-1) answer
  sendElse : (∀ i, Shown fnode i → arg.bytes ≠ decNat i) → arg.bytes ≠ ascii "-1" →
    s.cmdSend friendNumber [arg] answer = .ok (s, some NOTFND_ERR_MSG, none)

/-- The argument begins with a number, other than `0`, that is cut to something that may be named,
and it is not the numeral of that. -/
def Mistakable (fnode : List SharedFile) (arg : CStr) : Prop :=
  ∃ n v, Spells arg.bytes n ∧ v = Int.bmod (clampLL n) (2 ^ 32) ∧ v ≠ 0 ∧ Named fnode (-1) v ∧ arg.bytes ≠ decInt v

section

variable {s : Server} {fnode : List SharedFile} (h : Listed s.shared.shrList fnode)

include h

theorem cmdInfo_spec (arg : CStr) :
    (∀ (i : ℕ) f, fnode[i]? = some f → f.present = true → atoi arg = i → (atoi arg = 0 → arg.bytes = decNat 0) →
        cmdInfo s.shared [arg] = tell s.shared i f) ∧
      (¬ Taken fnode 0 arg → cmdInfo s.shared [arg] = .ok (.message NOTFND_ERR_MSG)) := by
  constructor
  · intro i f hf hpresent hi hzero
    have htaken : Taken fnode 0 arg := ⟨.inr ⟨i, hi, f, hf, hpresent⟩, hzero⟩
    rcases packArgument_spec h (.inl rfl) arg with ⟨-, harg⟩ | ⟨hnot, -⟩
    · simp only [cmdInfo, harg, ok_bind, hi, Int.toNat_natCast, h.entries, hf]
      rfl
    · exact absurd htaken hnot
  · intro hnot
    rcases packArgument_spec h (.inl rfl) arg with ⟨htaken, -⟩ | ⟨-, harg⟩
    · exact absurd htaken hnot
    · simp only [cmdInfo, harg, ok_bind, pure_eq_ok]

theorem cmdSend_spec (friendNumber : UInt32) (answer : Answer) (arg : CStr) :
    (Taken fnode (-1) arg → s.cmdSend friendNumber [arg] answer = queue s friendNumber (atoi arg) answer) ∧
      (¬ Taken fnode (-1) arg → s.cmdSend friendNumber [arg] answer = .ok (s, some NOTFND_ERR_MSG, none)) := by
  rcases packArgument_spec h (.inr rfl) arg with ⟨htaken, harg⟩ | ⟨hnot, harg⟩
  · refine ⟨fun _ => ?_, fun hnot => absurd htaken hnot⟩
    simp only [Server.cmdSend, harg, ok_bind]
    rfl
  · refine ⟨fun htaken => absurd htaken hnot, fun _ => ?_⟩
    simp only [Server.cmdSend, harg, ok_bind, pure_eq_ok]

end

/-- What `cmd_send` does with what it may send is not that there is no such pack. -/
theorem queue_ne (s : Server) (friendNumber : UInt32) (packn : ℤ) (answer : Answer) :
    queue s friendNumber packn answer ≠ .ok (s, some NOTFND_ERR_MSG, none) := by
  intro h
  obtain ⟨⟨s', rc, pack⟩, -, h⟩ := bind_eq_ok.mp h
  have hmsg : sendMessage rc = some NOTFND_ERR_MSG := (Prod.mk.inj (Prod.mk.inj (Except.ok.inj h)).2).1
  revert hmsg
  cases rc <;> decide

/-! ### Exactness -/

theorem atoi_minus_one {arg : CStr} (h : arg.bytes = ascii "-1") : atoi arg = -1 := by
  obtain ⟨bytes, hnul⟩ := arg
  cases h
  rfl

/-- The numeral of a pack that is shown is taken for that pack. -/
theorem atoi_shown {fnode : List SharedFile} (hlen : fnode.length < 2 ^ 31) {arg : CStr} {i : ℕ}
    (hi : Shown fnode i) (harg : arg.bytes = decNat i) :
    atoi arg = i ∧ (atoi arg = 0 → arg.bytes = decNat 0) := by
  have h := atoi_decNat (hi.lt.trans hlen) harg
  refine ⟨h, fun hzero => ?_⟩
  rw [h] at hzero
  rw [harg, Int.natCast_eq_zero.mp hzero]

/-- What is taken and is no mistake names its pack by the numeral. -/
theorem named_of_taken {fnode : List SharedFile} {arg : CStr} (htaken : Taken fnode (-1) arg)
    (hmistake : ¬ Mistakable fnode arg) : (∃ i, Shown fnode i ∧ arg.bytes = decNat i) ∨ arg.bytes = ascii "-1" := by
  obtain ⟨hnamed, hzero⟩ := htaken
  by_cases h0 : atoi arg = 0
  · rw [h0] at hnamed
    rcases hnamed with ⟨h, -⟩ | ⟨i, hi, hshown⟩
    · cases h
    · cases Int.natCast_eq_zero.mp hi.symm
      exact .inl ⟨0, hshown, hzero h0⟩
  · obtain ⟨n, hspells, hv⟩ := (atoi_eq_iff h0).mp rfl
    have hnumeral : arg.bytes = decInt (atoi arg) := by
      by_contra hne
      exact hmistake ⟨n, _, hspells, hv, h0, hnamed, hne⟩
    rcases hnamed with ⟨h, -⟩ | ⟨i, hi, hshown⟩
    · rw [h] at hnumeral
      exact .inr hnumeral
    · rw [hi, decInt_natCast] at hnumeral
      exact .inl ⟨i, hshown, hnumeral⟩

/-- **The commands take just what is shown** from an argument that begins with no number, or with
one that names nothing, or that is the numeral of what it names; and from no other. -/
theorem packs_exact_iff {s : Server} {fnode : List SharedFile} (h : Listed s.shared.shrList fnode)
    (friendNumber : UInt32) (answer : Answer) (arg : CStr) :
    Exact s fnode friendNumber answer arg ↔ ¬ Mistakable fnode arg := by
  obtain ⟨hinfo, hinfoElse⟩ := cmdInfo_spec h arg
  obtain ⟨hsend, hsendElse⟩ := cmdSend_spec h friendNumber answer arg
  constructor
  · rintro hexact ⟨n, v, hspells, hv, h0, hnamed, hne⟩
    have hatoi : atoi arg = v := (atoi_eq_iff h0).mpr ⟨n, hspells, hv⟩
    subst hatoi
    -- `cmd_send` acts where it should not
    have hqueue := hsend ⟨hnamed, fun hzero => absurd hzero h0⟩
    refine queue_ne s friendNumber (atoi arg) answer (hqueue.symm.trans (hexact.sendElse ?_ ?_))
    · intro i hi harg
      rw [(atoi_shown h.length_lt hi harg).1, decInt_natCast] at hne
      exact hne harg
    · intro harg
      rw [atoi_minus_one harg] at hne
      exact hne harg
  · intro hmistake
    refine ⟨fileListCreate_prints _ _, fun i f hf hpresent harg => ?_, fun hnone => ?_, fun i hi harg => ?_,
      fun harg => ?_, fun hnone hlist => ?_⟩
    · obtain ⟨hatoi, hzero⟩ := atoi_shown h.length_lt ⟨f, hf, hpresent⟩ harg
      exact hinfo i f hf hpresent hatoi hzero
    · apply hinfoElse
      rintro ⟨⟨-, hlow⟩ | ⟨i, hi, hshown⟩, hzero⟩
      · cases hlow
      · rcases named_of_taken ⟨.inr ⟨i, hi, hshown⟩, hzero⟩ hmistake with ⟨j, hj, harg⟩ | harg
        · exact hnone j hj harg
        · rw [atoi_minus_one harg] at hi
          omega
    · obtain ⟨hatoi, hzero⟩ := atoi_shown h.length_lt hi harg
      rw [hsend ⟨.inr ⟨i, hatoi, hi⟩, hzero⟩, hatoi]
    · have hatoi := atoi_minus_one harg
      rw [hsend ⟨.inl ⟨hatoi, rfl⟩, fun hzero => by rw [hatoi] at hzero; cases hzero⟩, hatoi]
    · apply hsendElse
      intro htaken
      rcases named_of_taken htaken hmistake with ⟨i, hi, harg⟩ | harg
      · exact hnone i hi harg
      · exact hlist harg

/-- Two files. -/
def twoPacks : List SharedFile :=
  [⟨⟨ascii "a", by decide⟩, some 0, 0, 7, true⟩, ⟨⟨ascii "b", by decide⟩, some 1, 0, 9, true⟩]

/-- A server of the two files. -/
def twoServer : Server :=
  let start := Server.start false fun _ => refusal.fileId
  { start with shared := { start.shared with shrList := ⟨twoPacks, false⟩ } }

/-- `1` is the second file. -/
theorem packs_exact_one : Exact twoServer twoPacks 5 (consent 3) ⟨ascii "1", by decide⟩ := by
  refine (packs_exact_iff ⟨rfl, by decide⟩ 5 (consent 3) _).mpr ?_
  rintro ⟨n, v, hspells, hv, h0, -, hne⟩
  have hatoi : (1 : ℤ) = v := (atoi_eq_iff (s := ⟨ascii "1", by decide⟩) h0).mpr ⟨n, hspells, hv⟩
  subst hatoi
  exact hne rfl

/-- `1x` is taken for it, too. -/
theorem trailing_characters_taken :
    (execute (ascii "info 1x" ++ [0])).map (fun r => r.2.map fun c => (c.func, c.args.map CStr.bytes)) =
        .ok (some (.info, [ascii "1x"])) ∧
      cmdInfo twoServer.shared [⟨ascii "1x", by decide⟩] =
        .ok (.pack ⟨1, ⟨ascii "b", by decide⟩, 9, 0, twoServer.shared.contents 1⟩) ∧
      ¬ Exact twoServer twoPacks 5 (consent 3) ⟨ascii "1x", by decide⟩ := by
  have hinfo : cmdInfo twoServer.shared [⟨ascii "1x", by decide⟩] =
      .ok (.pack ⟨1, ⟨ascii "b", by decide⟩, 9, 0, twoServer.shared.contents 1⟩) := rfl
  refine ⟨by decide, hinfo, fun hexact => ?_⟩
  have hrefused := hexact.infoElse fun i _ harg => ?_
  · rw [hinfo] at hrefused
    cases hrefused
  · have := isDigit_of_mem_decNat (n := i) (c := 120) (by rw [← harg]; decide)
    revert this
    decide

end ToxSuite.Command
