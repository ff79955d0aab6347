import Mathlib.Data.List.Forall2
import Mathlib.Data.List.ReduceOption
import ToxSuite.File.Shapes

/-!
# Whom a loaded transfer is addressed to

`load_senders` puts an entry of zeros on the queue and fills it key by key: what is not
under a key stays zero, and what is there twice is what was there last. An entry that was
made of a record has the number of the friend whose key is the record's `toxid`, and a
path, and does not depend on the order of the record's keys, if and only if the record
has a `toxid` and a path, and nothing that is there more than once differs (`Settled`,
`loaded_for_named_friend_iff`). Records do not depend on one another.
-/

namespace ToxSuite.File

open ToxSuite.Lib ToxSuite.Bencode ToxSuite.Friend

/-! ### What a record writes -/

/-- The number of the friend whose key a string node holds. -/
def readFriend (friendsInfo : List FriendInfo) (toxid : BeNode) : Option UInt32 :=
  match lookupToxid friendsInfo toxid with
  | .ok (some fr) => some fr.friendNumber
  | _ => none

theorem FileNode.overlay_overlay (f : FileNode) (name name' : Option CStr) (length length' : Option Int64)
    (hash hash' : Option FileId) : (f.overlay name length hash).overlay name' length' hash' =
      f.overlay (name'.or name) (length'.or length) (hash'.or hash) := by
  cases name' <;> cases length' <;> cases hash' <;> simp [overlay]

theorem decodeFileNode_typed {n : BeNode} (h : fileTyped n = true) (g : FileNode) :
    decodeFileNode g n = .ok (g.overlay (readField "name" readStr n) (readField "length" readInt n)
      (readField "hash" readHash n)) := by
  cases n with
  | dict d => exact decodeFileNodeLoop_typed g h
  | _ => cases h

/-- An entry with what a record writes to it. -/
def FileSender.written (f : FileSender) (friendsInfo : List FriendInfo) (d : List (Bytes × BeNode)) :
    FileSender :=
  { f with
    friendNumber := (lastWrite (under "toxid" (readFriend friendsInfo)) d).getD f.friendNumber
    pathname := (lastWrite (under "path" readStr) d).or f.pathname
    info := f.info.overlay (lastWrite (under "info" (readField "name" readStr)) d)
      (lastWrite (under "info" (readField "length" readInt)) d)
      (lastWrite (under "info" (readField "hash" readHash)) d) }

/-- **What `load_senders` makes of a record** that is typed and names no stranger: what was written
last under each key. -/
theorem loadSender_typed {friendsInfo : List FriendInfo} {d : List (Bytes × BeNode)} :
    ∀ (f : FileSender), d.all entryTyped = true → d.any (stranger friendsInfo) = false →
      loadSender friendsInfo f d = .ok (some (f.written friendsInfo d)) := by
  induction d with
  | nil => intro f _ _; rfl
  | cons e d ih =>
    intro f h hs
    obtain ⟨key, val⟩ := e
    rw [List.all_cons, Bool.and_eq_true, entryTyped] at h
    rw [List.any_cons, Bool.or_eq_false_iff] at hs
    obtain ⟨he, hd⟩ := h
    obtain ⟨hse, hsd⟩ := hs
    unfold FileSender.written
    simp only [lastWrite_cons]
    rw [loadSender]
    dsimp only at he
    split_ifs at he with htoxid hpath hinfo
    · obtain ⟨fr, hfr⟩ := lookupToxid_friend htoxid hse he
      dsimp only at hfr
      rw [if_pos htoxid, hfr, ok_bind]
      dsimp only
      rw [ih _ hd hsd]
      simp only [FileSender.written, under, htoxid, path_ne_toxid.symm, info_ne_toxid.symm, if_true, if_false]
      cases lastWrite (under "toxid" (readFriend friendsInfo)) d <;> simp [readFriend, hfr]
    · obtain ⟨s, rfl⟩ := isStr_iff.mp he
      rw [if_neg htoxid, if_pos hpath, strVal, pure_eq_ok, ok_bind, ih _ hd hsd]
      simp only [FileSender.written, under, hpath, path_ne_toxid, info_ne_path.symm, if_true, if_false]
      cases lastWrite (under "path" readStr) d <;> simp [readStr]
    · rw [if_neg htoxid, if_neg hpath, if_pos hinfo, decodeFileNode_typed he, ok_bind, ih _ hd hsd]
      simp [FileSender.written, FileNode.overlay_overlay, under, hinfo, info_ne_toxid, info_ne_path]
    · rw [if_neg htoxid, if_neg hpath, if_neg hinfo, ih _ hd hsd]
      simp [FileSender.written, under, htoxid, hpath, hinfo]

/-- A record that is typed and names a stranger is given up. -/
theorem loadSender_stranger {friendsInfo : List FriendInfo} {d : List (Bytes × BeNode)} (f : FileSender)
    (h : d.all entryTyped = true) (hs : d.any (stranger friendsInfo) = true) :
    loadSender friendsInfo f d = .ok none := by
  rcases (loadSender_of_reads f (recordReads_of_shaped h)).2 with ⟨-, hnone⟩ | ⟨hno, -⟩
  · exact hnone
  · rw [hs] at hno
    cases hno

/-! ### One record -/

/-- The entry a record leaves, if it leaves one, is the transfer the record names: it is addressed to
the friend whose key each `toxid` of the record is, and has a path; a record without a `toxid`, with
the key of a stranger or without a path leaves none; and so it is for the record on its own,
with its keys in any order. -/
structure Addressed (friendsInfo : List FriendInfo) (d : List (Bytes × BeNode)) (r : Option FileSender) :
    Prop where
  friend : ∀ f, r = some f → ∀ e ∈ d, cstr e.1 = ascii "toxid" → ∃ s, e.2 = .str (some s) ∧
    ∃ fr ∈ friendsInfo, fr.toxIdBin.1 = s.take TOX_PUBLIC_KEY_SIZE ∧ f.friendNumber = fr.friendNumber
  path : ∀ f, r = some f → f.pathname.isSome
  refused : hasKey "toxid" d = false ∨ d.any (stranger friendsInfo) = true ∨ hasKey "path" d = false →
    r = none
  alone : ∀ d' : List (Bytes × BeNode), d'.Perm d →
    loadSendersLoop friendsInfo [] 0 [.dict d'] = .ok ((r.map FileSender.contents).toList, 1)

/-- Nothing that a record has more than once differs: all keys are of friends of one number, all paths
are one path, and all files have one name, one length and one hash. -/
structure Settled (friendsInfo : List FriendInfo) (d : List (Bytes × BeNode)) : Prop where
  friend : Agree (under "toxid" (readFriend friendsInfo)) d
  path : Agree (under "path" readStr) d
  name : Agree (under "info" (readField "name" readStr)) d
  length : Agree (under "info" (readField "length" readInt)) d
  hash : Agree (under "info" (readField "hash" readHash)) d

/-- A record names a stranger, or has a `toxid` and a path and nothing in it differs. -/
def Definite (friendsInfo : List FriendInfo) (d : List (Bytes × BeNode)) : Prop :=
  d.any (stranger friendsInfo) = true ∨
    (hasKey "toxid" d = true ∧ hasKey "path" d = true ∧ Settled friendsInfo d)

/-- What the friend that is found has as key. -/
theorem lookupToxid_some {friendsInfo : List FriendInfo} {s : Bytes} {fr : FriendInfo}
    (hlen : TOX_FILE_ID_LENGTH ≤ s.length) (h : lookupToxid friendsInfo (.str (some s)) = .ok (some fr)) :
    fr ∈ friendsInfo ∧ fr.toxIdBin.1 = s.take TOX_PUBLIC_KEY_SIZE := by
  cases friendsInfo with
  | nil => cases h
  | cons g gs =>
    obtain ⟨v, hv, h⟩ := bind_eq_ok.mp h
    have hfind : friendInfoByPublicKeybin (g :: gs) v = some fr := by simpa using h
    obtain ⟨hmem, hkey⟩ := mem_of_find?_key FriendInfo.toxIdBin hfind
    exact ⟨hmem, by rw [hkey, copy32_held hlen hv]⟩

/-- Whatever is the same does not depend on the order. -/
theorem FileSender.written_perm {friendsInfo : List FriendInfo} {d d' : List (Bytes × BeNode)}
    (hd : d'.Perm d) (h : Settled friendsInfo d) (f : FileSender) :
    f.written friendsInfo d' = f.written friendsInfo d := by
  unfold FileSender.written
  rw [lastWrite_perm hd h.friend, lastWrite_perm hd h.path, lastWrite_perm hd h.name,
    lastWrite_perm hd h.length, lastWrite_perm hd h.hash]

/-- A tree of one record. -/
theorem loadSendersLoop_singleton {friendsInfo : List FriendInfo} {d : List (Bytes × BeNode)}
    {r : Option FileSender} (h : loadSender friendsInfo (.zero 0) d = .ok r) :
    loadSendersLoop friendsInfo [] 0 [.dict d] = .ok (r.toList, 1) := by
  rw [loadSendersLoop, h, ok_bind]
  cases r <;> rfl

/-- A tree of one record that is typed and names no stranger, with its keys in another order. -/
theorem loadSendersLoop_perm {friendsInfo : List FriendInfo} {d d' : List (Bytes × BeNode)}
    (h : d.all entryTyped = true) (hs : d.any (stranger friendsInfo) = false) (hd : d'.Perm d) :
    loadSendersLoop friendsInfo [] 0 [.dict d'] = .ok ([(FileSender.zero 0).written friendsInfo d'], 1) := by
  have htyped : d'.all entryTyped = true := by rw [hd.all_eq, h]
  have hknown : d'.any (stranger friendsInfo) = false := by rw [hd.any_eq, hs]
  exact loadSendersLoop_singleton (loadSender_typed _ htyped hknown)

/-- **A definite record** leaves the transfer it names, or nothing. -/
theorem addressed_of_definite {friendsInfo : List FriendInfo} {d : List (Bytes × BeNode)} {addr : ℕ}
    {r : Option FileSender} (h : d.all entryTyped = true) (hr : loadSender friendsInfo (.zero addr) d = .ok r)
    (hdef : Definite friendsInfo d) : Addressed friendsInfo d r := by
  have hmem := List.all_eq_true.mp h
  by_cases hs : d.any (stranger friendsInfo) = true
  · rw [loadSender_stranger _ h hs] at hr
    cases hr
    refine Addressed.mk ?_ ?_ (fun _ => rfl) fun d' hd' => ?_
    · rintro f ⟨⟩
    · rintro f ⟨⟩
    · exact loadSendersLoop_singleton
        (loadSender_stranger _ (by rw [hd'.all_eq, h]) (by rw [hd'.any_eq, hs]))
  · obtain ⟨htoxid, hpath, hsettled⟩ := hdef.resolve_left hs
    rw [Bool.not_eq_true] at hs
    rw [loadSender_typed _ h hs] at hr
    cases hr
    refine ⟨?_, ?_, ?_, fun d' hd' => ?_⟩
    · rintro f ⟨⟩ e he hkey
      have htyped := hmem e he
      rw [entryTyped, if_pos hkey] at htyped
      obtain ⟨s, hval, hlen⟩ := holds32_iff.mp htyped
      have hknown : stranger friendsInfo e = false := Bool.eq_false_iff.mpr (List.any_eq_false.mp hs e he)
      obtain ⟨fr, hfr⟩ := lookupToxid_friend hkey hknown htyped
      have hread : under "toxid" (readFriend friendsInfo) e = some fr.friendNumber := by
        rw [under, if_pos hkey, readFriend, hfr]
      obtain ⟨hfriend, hbin⟩ := lookupToxid_some hlen (hval ▸ hfr)
      refine ⟨s, hval, fr, hfriend, hbin, ?_⟩
      simp [FileSender.written, lastWrite_of_agree hsettled.friend he hread]
    · rintro f ⟨⟩
      have hwritten : (lastWrite (under "path" readStr) d).isSome :=
        lastWrite_under_isSome hpath fun e he hkey => by
          have htyped := hmem e he
          rw [entryTyped, if_neg (hkey ▸ path_ne_toxid), if_pos hkey] at htyped
          exact readStr_isSome htyped
      obtain ⟨path, hlast⟩ := Option.isSome_iff_exists.mp hwritten
      simp [FileSender.written, hlast]
    · rintro (hno | hno | hno)
      · rw [htoxid] at hno
        cases hno
      · rw [hs] at hno
        cases hno
      · rw [hpath] at hno
        cases hno
    · rw [loadSendersLoop_perm h hs hd', FileSender.written_perm hd' hsettled]
      rfl

/-- **A record that leaves the transfer it names** in whatever order its keys are is definite. -/
theorem definite_of_addressed {friendsInfo : List FriendInfo} {d : List (Bytes × BeNode)}
    {r : Option FileSender} (h : d.all entryTyped = true) (hr : Addressed friendsInfo d r) :
    Definite friendsInfo d := by
  by_cases hs : d.any (stranger friendsInfo) = true
  · exact .inl hs
  · rw [Bool.not_eq_true] at hs
    have hwritten : ∀ d', d'.Perm d →
        r.map FileSender.contents = some ((FileSender.zero 0).written friendsInfo d') := by
      intro d' hd'
      have halone := hr.alone d' hd'
      rw [loadSendersLoop_perm h hs hd'] at halone
      have hlist := congrArg Prod.fst (Except.ok.inj halone)
      cases r with
      | none => cases hlist
      | some f => exact congrArg some (List.cons.inj hlist).1.symm
    have hsome : r ≠ none := by
      rintro rfl
      cases hwritten d (List.Perm.refl d)
    have hsame : ∀ d', d'.Perm d →
        (FileSender.zero 0).written friendsInfo d' = (FileSender.zero 0).written friendsInfo d := by
      intro d' hd'
      exact Option.some.inj ((hwritten d' hd').symm.trans (hwritten d (List.Perm.refl d)))
    refine .inr ⟨?_, ?_, ?_, ?_, ?_, ?_, ?_⟩
    · by_contra hno
      exact hsome (hr.refused (.inl (Bool.eq_false_iff.mpr hno)))
    · by_contra hno
      exact hsome (hr.refused (.inr (.inr (Bool.eq_false_iff.mpr hno))))
    · exact agree_of_perm (g := fun o => o.getD 0) (fun x y hxy => hxy) fun d' hd' =>
        congrArg FileSender.friendNumber (hsame d' hd')
    · exact agree_of_perm (g := fun o => o.or none) (fun x y hxy => Option.some.inj hxy) fun d' hd' =>
        congrArg FileSender.pathname (hsame d' hd')
    · exact agree_of_perm (g := fun o => o <|> none) (fun x y hxy => Option.some.inj hxy) fun d' hd' =>
        congrArg (fun f => f.info.file) (hsame d' hd')
    · exact agree_of_perm (g := fun o => o.getD 0) (fun x y hxy => hxy) fun d' hd' =>
        congrArg (fun f => f.info.length) (hsame d' hd')
    · exact agree_of_perm (g := fun o => o <|> none) (fun x y hxy => Option.some.inj hxy) fun d' hd' =>
        congrArg (fun f => f.info.blake2b) (hsame d' hd')

/-! ### All records -/

/-- The loop makes of each record what the record makes on its own, but for where it is put. -/
theorem loadSendersLoop_outcomes {friendsInfo : List FriendInfo} {ds : List (List (Bytes × BeNode))} :
    ∀ (q : List FileSender) (addr : ℕ), (∀ d ∈ ds, d.all entryTyped = true) →
      ∃ outcomes : List (Option FileSender),
        List.Forall₂ (fun d r => ∃ addr, loadSender friendsInfo (.zero addr) d = .ok r) ds outcomes ∧
        loadSendersLoop friendsInfo q addr (ds.map .dict) =
          .ok (outcomes.reduceOption.reverse ++ q, addr + ds.length) := by
  induction ds with
  | nil => intro q addr _; exact ⟨[], .nil, rfl⟩
  | cons d ds ih =>
    intro q addr h
    rw [List.forall_mem_cons] at h
    obtain ⟨r, hr⟩ : ∃ r, loadSender friendsInfo (.zero addr) d = .ok r := by
      rcases (loadSender_of_reads (.zero addr) (recordReads_of_shaped h.1)).2 with ⟨-, hr⟩ | ⟨-, -, g, hr⟩
      · exact ⟨_, hr⟩
      · exact ⟨_, hr⟩
    have haddr : addr + (d :: ds).length = addr + 1 + ds.length := by
      rw [List.length_cons]
      omega
    rw [List.map_cons, loadSendersLoop, hr, ok_bind, haddr]
    cases r with
    | none =>
      obtain ⟨outcomes, hout, hloop⟩ := ih q (addr + 1) h.2
      exact ⟨none :: outcomes, .cons ⟨addr, hr⟩ hout, hloop⟩
    | some f =>
      obtain ⟨outcomes, hout, hloop⟩ := ih (f :: q) (addr + 1) h.2
      refine ⟨some f :: outcomes, .cons ⟨addr, hr⟩ hout, ?_⟩
      simp [hloop, List.reduceOption_cons_of_some]

/-- `load_senders` adds the entries that the records leave, the last record's first, and each is the
transfer its record names. -/
def LoadsAddressed (fileQueue : List FileSender) (friendsInfo : List FriendInfo) (addr : ℕ)
    (file : Option Bytes) (ds : List (List (Bytes × BeNode))) : Prop :=
  ∃ outcomes addr', loadSenders fileQueue friendsInfo addr file =
      .ok (0, outcomes.reduceOption.reverse ++ fileQueue, addr') ∧
    List.Forall₂ (Addressed friendsInfo) ds outcomes

/-- **A loaded transfer is for the friend its record names**, for records whose values are of the types
their keys stand for, if and only if every record is definite. -/
theorem loaded_for_named_friend_iff {file : Option Bytes} {ds : List (List (Bytes × BeNode))}
    (h : beNodeLoadfile file = .ok (some (.list (ds.map .dict)))) (htyped : ∀ d ∈ ds, d.all entryTyped = true)
    (fileQueue : List FileSender) (friendsInfo : List FriendInfo) (addr : ℕ) :
    LoadsAddressed fileQueue friendsInfo addr file ds ↔ ∀ d ∈ ds, Definite friendsInfo d := by
  constructor
  · rintro ⟨outcomes, addr', -, hout⟩
    have hdef : List.Forall₂ (fun d r => Definite friendsInfo d ∧ Addressed friendsInfo d r) ds outcomes := by
      refine List.Forall₂.imp ?_ ((List.forall₂_and_left _ _).mpr ⟨htyped, hout⟩)
      exact fun d r hd => ⟨definite_of_addressed hd.1 hd.2, hd.2⟩
    exact ((List.forall₂_and_left _ _).mp hdef).1
  · intro hdef
    obtain ⟨outcomes, hout, hloop⟩ := @loadSendersLoop_outcomes friendsInfo ds fileQueue addr htyped
    refine ⟨outcomes, addr + ds.length, ?_, ?_⟩
    · rw [loadSenders, h, ok_bind]
      dsimp only
      rw [hloop]
      rfl
    · have hall : ∀ d ∈ ds, d.all entryTyped = true ∧ Definite friendsInfo d :=
        fun d hd => ⟨htyped d hd, hdef d hd⟩
      refine List.Forall₂.imp ?_ ((List.forall₂_and_left _ _).mpr ⟨hall, hout⟩)
      rintro d r ⟨⟨htyped, hdef⟩, addr, hr⟩
      exact addressed_of_definite htyped hr hdef

/-- A saved transfer. -/
def savedTransfer : SenderRecord := ⟨someKey 5, .ofBytes (ascii "/a"), sharedFile⟩

/-- A saved transfer to a friend. -/
theorem loaded_for_named_friend_saved :
    LoadsAddressed [] [somebody 1] 0 (some (recordsNode [savedTransfer]).text) [entries savedTransfer.node] ↔
      ∀ d ∈ [entries savedTransfer.node], Definite [somebody 1] d := by
  have hload : beNodeLoadfile (some (recordsNode [savedTransfer]).text) =
      .ok (some (.list ([entries savedTransfer.node].map .dict))) :=
    beNodeLoadfile_text (recordsNode_wf [savedTransfer]) (by decide +kernel)
  exact loaded_for_named_friend_iff hload (by decide +kernel) [] [somebody 1] 0

/-- A record with a path only leaves a transfer to friend 0. -/
theorem record_without_toxid_addressed :
    beNodeLoadfile (some (ascii "ld4:path2:/aee")) =
        .ok (some (.list ([[(ascii "path", .str (some (ascii "/a")))]].map .dict))) ∧
      (∀ d ∈ [[(ascii "path", .str (some (ascii "/a")))]], d.all entryTyped = true) ∧
      ¬ LoadsAddressed [] [somebody 1] 0 (some (ascii "ld4:path2:/aee"))
        [[(ascii "path", .str (some (ascii "/a")))]] := by
  have htext : (BeNode.list [.dict [(ascii "path", .str (some (ascii "/a")))]]).text =
      ascii "ld4:path2:/aee" := by
    decide +kernel
  have hload : beNodeLoadfile (some (ascii "ld4:path2:/aee")) =
      .ok (some (.list ([[(ascii "path", .str (some (ascii "/a")))]].map .dict))) := by
    rw [← htext]
    exact beNodeLoadfile_text ⟨⟨by decide, rfl, trivial⟩, trivial⟩ (by decide +kernel)
  refine ⟨hload, by decide, fun h => ?_⟩
  obtain ⟨outcomes, addr', -, hout⟩ := h
  cases hout with
  | cons hr _ =>
    rcases definite_of_addressed (by decide) hr with hs | ⟨htoxid, -⟩
    · exact absurd hs (by decide)
    · exact absurd htoxid (by decide)

end ToxSuite.File
