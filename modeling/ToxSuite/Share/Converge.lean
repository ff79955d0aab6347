import Mathlib.Algebra.BigOperators.Group.List.Basic
import Mathlib.Data.List.Induction
import ToxSuite.Lib.Keyed
import ToxSuite.Share.Steps

/-!
# The scan converges

With a directory that does not change, a recheck is over after finitely many
calls of `file_do`: one for each block of each file that is new or changed, one
more for each of these files to find its end, and one if there are none. The list
then has every file of the directory exactly once, in its current version
(`scan_converges`).

The calls hash one file after the other, from the end of `new_list`. A round is
the calls for one file (`calls_round`); what rounds do to `shr_list` composes
(`Installs`).
-/

namespace ToxSuite.Share

open ToxSuite.Lib ToxSuite.File

/-! ### The directory -/

/-- A file of the directory. -/
structure TreeFile where
  path : CStr
  mtime : Int64
  content : Bytes
  /-- Its size is an `off_t`. -/
  size_lt : content.length < 2 ^ 63

/-- `st_size`. -/
def TreeFile.size (f : TreeFile) : Int64 := Int64.ofNat f.content.length

/-- What `ftw` reports of the file. -/
def TreeFile.entry (f : TreeFile) : FtwEntry := ⟨f.path, f.mtime, f.size, .f⟩

/-- The number of blocks the file is read in. -/
def TreeFile.blocks (f : TreeFile) : ℕ := (f.content.length + (HASHING_BUFSIZE - 1)) / HASHING_BUFSIZE

/-- A directory, in the order of the walk, each path once, and which paths can be read, those
of its files among them. -/
structure Tree where
  files : List TreeFile
  nodup : (files.map TreeFile.path).Nodup
  readable : CStr → Bool
  readable_files : ∀ f ∈ files, readable f.path = true

/-- A call finds this directory, and allocations succeed. -/
structure Visit.Finds (v : Visit) (tree : Tree) : Prop where
  canonicalizes : v.canonicalizes = true
  entries : v.entries.filter (·.type = .f) = tree.files.map TreeFile.entry
  access : v.access = tree.readable
  opens : ∀ f ∈ tree.files, v.opens f.path = true
  fread : ∀ f ∈ tree.files, ∀ pos, v.fread f.path pos = f.content.drop pos
  grow : ∀ n, v.alloc.grow n = true
  node : ∀ n, v.alloc.node n = true
  shared : v.alloc.shared = true
  shrink : v.alloc.shrink = true
  hash : v.alloc.hash = true

/-- The files that are new or changed. -/
def Tree.fresh (tree : Tree) (shrList : List SharedFile) : List TreeFile :=
  tree.files.filter fun f => !shrList.any (·.matches f.entry)

/-- The calls a recheck takes. -/
def Tree.calls (tree : Tree) (shrList : List SharedFile) : ℕ :=
  max 1 ((tree.fresh shrList).map fun f => f.blocks + 1).sum

/-- One call of `file_do` after the other. -/
def calls (generichash : Bytes → FileId) : FileOp → List Visit → Except Fault (FileOp × List Report)
  | s, [] => pure (s, [])
  | s, v :: vs => do
    let (s, r) ← fileDo generichash s v
    let (s, rs) ← calls generichash s vs
    pure (s, r :: rs)

/-- The calls of `file_new_c`. -/
def announcements (rs : List Report) : List (SharedFile × ℕ) := rs.filterMap Report.announced

/-! ### The walk -/

theorem any_matches_checked (v : Visit) (l : List SharedFile) (e : FtwEntry) :
    (l.map (SharedFile.checked v)).any (·.matches e) = l.any (·.matches e) := by
  rw [List.any_map]
  rfl

/-- The walk appends what is new or changed. -/
theorem ftw_finds {tree : Tree} {v : Visit} (hv : v.Finds tree) (shrList : List SharedFile)
    (es : List FtwEntry) : ∀ newList : NodeList, (newList.entries ≠ [] → newList.null = false) →
      (ftw shrList v newList es).1.entries = newList.entries ++
          (((es.filter (·.type = .f)).filter fun e => !shrList.any (·.matches e)).map FtwEntry.node) ∧
        ((ftw shrList v newList es).1.entries ≠ [] → (ftw shrList v newList es).1.null = false) := by
  induction es with
  | nil =>
    intro newList hnull
    simpa [ftw] using hnull
  | cons e es ih =>
    intro newList hnull
    unfold ftw fileWalkCallback
    by_cases htype : e.type = .f
    · by_cases hmatch : shrList.any (·.matches e) = true
      · simp only [htype, hmatch, if_true]
        rw [List.filter_cons_of_pos (by simpa using htype), List.filter_cons_of_neg (by simp [hmatch])]
        exact ih newList hnull
      · simp only [htype, hmatch, hv.grow, hv.node, if_true, if_false, Bool.false_eq_true, Bool.true_eq_false]
        rw [List.filter_cons_of_pos (by simpa using htype), List.filter_cons_of_pos (by simpa using hmatch)]
        have := ih ⟨newList.entries ++ [e.node], false⟩ fun _ => rfl
        simpa using this
    · simp only [htype, if_false]
      rw [List.filter_cons_of_neg (by simpa using htype)]
      exact ih newList hnull

/-- What the walk finds new or changed in a directory. -/
theorem ftw_fresh {tree : Tree} {v : Visit} (hv : v.Finds tree) (shrList : List SharedFile)
    {newList : NodeList} (hnew : newList.entries = []) :
    (ftw (shrList.map (SharedFile.checked v)) v newList v.entries).1.entries =
        (tree.fresh shrList).map (·.entry.node) ∧
      ((ftw (shrList.map (SharedFile.checked v)) v newList v.entries).1.entries ≠ [] →
        (ftw (shrList.map (SharedFile.checked v)) v newList v.entries).1.null = false) := by
  obtain ⟨hentries, hnull⟩ := ftw_finds hv (shrList.map (SharedFile.checked v)) v.entries newList
    (fun h => absurd hnew h)
  refine ⟨?_, hnull⟩
  rw [hentries, hnew, hv.entries, List.nil_append, List.filter_map, List.map_map]
  simp only [any_matches_checked]
  rfl

/-! ### A round -/

/-- Nothing is being hashed, and the lists can be read. -/
structure FileOp.Ready (s : FileOp) : Prop where
  hashing : s.hashing = none
  stream : s.stream = none
  shrList : s.shrList.entries ≠ [] → s.shrList.null = false
  newList : s.newList.entries ≠ [] → s.newList.null = false
  /-- The hash buffers of the list were allocated before the next one. -/
  bufs : ∀ e ∈ s.shrList.entries, ∀ b, e.blake2b = some b → b < s.nextBuf

/-- The hash buffers that there are keep what they hold. -/
structure FileOp.Spares (s s' : FileOp) : Prop where
  nextBuf : s.nextBuf ≤ s'.nextBuf
  contents : ∀ b < s.nextBuf, s'.contents b = s.contents b

theorem FileOp.Spares.refl (s : FileOp) : s.Spares s := ⟨le_rfl, fun _ _ => rfl⟩

theorem FileOp.Spares.trans {s s₁ s' : FileOp} (h : s.Spares s₁) (h' : s₁.Spares s') : s.Spares s' :=
  ⟨h.nextBuf.trans h'.nextBuf, fun b hb => (h'.contents b (hb.trans_le h.nextBuf)).trans (h.contents b hb)⟩

theorem NodeList.read_of {l : NodeList} (h : l.entries ≠ [] → l.null = false) : l.read = .ok l.entries := by
  unfold NodeList.read
  rw [if_neg]
  · rfl
  · rintro ⟨hnull, hne⟩
    rw [h hne] at hnull
    cases hnull

/-- While a file is hashed, a call does nothing else. -/
theorem fileDo_of_hashing {generichash : Bytes → FileId} {s s' : FileOp} {v : Visit} {rc : Option ℤ}
    {announced : Option (SharedFile × ℕ)} (hs : s.hashing ≠ none)
    (h : s.hash generichash v = .ok (s', rc, announced)) :
    ∃ r, fileDo generichash s v = .ok (s', r) ∧ r.announced = announced := by
  have hdue : ¬ s.Due := fun hdue => hs hdue.2.2
  have hwork : ¬ (s.newList.entries ≠ [] ∧ s.hashing = none) := fun hwork => hs hwork.2
  refine ⟨⟨false, none, none, rc, announced, if rc.any (· < 0) then -1 else 0⟩, ?_, rfl⟩
  unfold fileDo FileOp.recheck FileOp.take
  rw [if_neg hdue]
  simp only [pure_eq_ok, ok_bind]
  rw [if_neg hwork]
  simp only [ok_bind, Bool.true_eq_false, if_false, h]

/-- A call that walks the directory goes on like one that does not have to. -/
theorem fileDo_of_recheck {generichash : Bytes → FileId} {s s₁ s' : FileOp} {v : Visit} {walked : Bool}
    {r : Report} (hrecheck : s.recheck v = .ok (s₁, walked)) (hs₁ : ¬ s₁.Due)
    (h : fileDo generichash s₁ v = .ok (s', r)) :
    ∃ r', fileDo generichash s v = .ok (s', r') ∧ r'.announced = r.announced := by
  have hrecheck₁ : s₁.recheck v = .ok (s₁, false) := if_neg hs₁
  unfold fileDo at h ⊢
  simp only [hrecheck₁, ok_bind] at h
  obtain ⟨⟨s₂, taken, freed, ok⟩, htake, h⟩ := bind_eq_ok.mp h
  simp only [hrecheck, ok_bind, htake]
  cases ok with
  | false =>
    cases h
    exact ⟨_, rfl, rfl⟩
  | true =>
    obtain ⟨⟨s₃, rc, announced⟩, hhash, h⟩ := bind_eq_ok.mp h
    cases h
    simp only [Bool.true_eq_false, if_false, hhash, ok_bind, pure_eq_ok]
    exact ⟨_, rfl, rfl⟩

/-- A call that begins a round goes on like one in the middle of it. -/
theorem fileDo_of_take {generichash : Bytes → FileId} {s s₁ s' : FileOp} {v : Visit}
    {taken freed : Option ℕ} {r : Report} (hs : ¬ s.Due) (htake : s.take v = .ok (s₁, taken, freed, true))
    (hs₁ : s₁.hashing ≠ none) (h : fileDo generichash s₁ v = .ok (s', r)) :
    ∃ r', fileDo generichash s v = .ok (s', r') ∧ r'.announced = r.announced := by
  have hrecheck : s.recheck v = .ok (s, false) := if_neg hs
  have hrecheck₁ : s₁.recheck v = .ok (s₁, false) := if_neg fun hdue => hs₁ hdue.2.2
  have htake₁ : s₁.take v = .ok (s₁, none, none, true) := if_neg fun hwork => hs₁ hwork.2
  unfold fileDo at h ⊢
  simp only [hrecheck₁, ok_bind, htake₁, Bool.true_eq_false, if_false] at h
  obtain ⟨⟨s₂, rc, announced⟩, hhash, h⟩ := bind_eq_ok.mp h
  cases h
  simp only [hrecheck, ok_bind, htake, Bool.true_eq_false, if_false, hhash, pure_eq_ok]
  exact ⟨_, rfl, rfl⟩

/-- Calls that start like others are like them. -/
theorem calls_of_fileDo {generichash : Bytes → FileId} {s s₁ s' : FileOp} {v : Visit} {vs : List Visit}
    {rs : List Report}
    (h : ∀ s₂ r, fileDo generichash s₁ v = .ok (s₂, r) →
      ∃ r', fileDo generichash s v = .ok (s₂, r') ∧ r'.announced = r.announced)
    (hcalls : calls generichash s₁ (v :: vs) = .ok (s', rs)) :
    ∃ rs', calls generichash s (v :: vs) = .ok (s', rs') ∧ announcements rs' = announcements rs := by
  obtain ⟨⟨s₂, r⟩, hdo, hcalls⟩ := bind_eq_ok.mp hcalls
  obtain ⟨⟨s₃, rs₂⟩, hrest, hcalls⟩ := bind_eq_ok.mp hcalls
  cases hcalls
  obtain ⟨r', hdo', hr'⟩ := h s₂ r hdo
  refine ⟨r' :: rs₂, ?_, ?_⟩
  · simp only [calls, hdo', ok_bind, hrest, pure_eq_ok]
  · simp only [announcements, List.filterMap_cons, hr']

theorem calls_append {generichash : Bytes → FileId} (vs : List Visit) :
    ∀ {s s₁ s' : FileOp} {ws : List Visit} {rs rs' : List Report},
      calls generichash s vs = .ok (s₁, rs) → calls generichash s₁ ws = .ok (s', rs') →
        calls generichash s (vs ++ ws) = .ok (s', rs ++ rs') := by
  induction vs with
  | nil =>
    intro s s₁ s' ws rs rs' h h'
    cases h
    exact h'
  | cons v vs ih =>
    intro s s₁ s' ws rs rs' h h'
    obtain ⟨⟨s₂, r⟩, hdo, h⟩ := bind_eq_ok.mp h
    obtain ⟨⟨s₃, rs₂⟩, hrest, h⟩ := bind_eq_ok.mp h
    cases h
    simp only [List.cons_append, calls, hdo, ok_bind, ih hrest h', pure_eq_ok]

/-- The blocks that are left from a position on. -/
def blocksFrom (content : Bytes) (pos : ℕ) : ℕ :=
  (content.length - pos + (HASHING_BUFSIZE - 1)) / HASHING_BUFSIZE

/-- A block is read while some are left. -/
theorem blocksFrom_succ {content : Bytes} {pos n : ℕ} (h : blocksFrom content pos = n + 1) :
    (content.drop pos).take HASHING_BUFSIZE ≠ [] ∧
      blocksFrom content (pos + ((content.drop pos).take HASHING_BUFSIZE).length) = n := by
  have hlen : ((content.drop pos).take HASHING_BUFSIZE).length =
      min HASHING_BUFSIZE (content.length - pos) := by simp
  unfold blocksFrom HASHING_BUFSIZE at *
  constructor
  · intro hnil
    rw [hnil] at hlen
    simp only [List.length_nil] at hlen
    omega
  · rw [hlen]
    omega

theorem blocksFrom_zero {content : Bytes} {pos : ℕ} (h : blocksFrom content pos = 0) :
    (content.drop pos).take HASHING_BUFSIZE = [] := by
  have hlen : content.length ≤ pos := by
    unfold blocksFrom HASHING_BUFSIZE at h
    omega
  rw [List.drop_of_length_le hlen, List.take_nil]

/-- **The rest of a round**: the calls that read the blocks left and the one that finds the
end of the file. -/
theorem calls_hashing (generichash : Bytes → FileId) {tree : Tree} {f : TreeFile} (hf : f ∈ tree.files)
    (n : ℕ) : ∀ {s : FileOp} {i b : ℕ} {node : SharedFile} {stream : HashStream} {vs : List Visit},
      (∀ v ∈ vs, v.Finds tree) → vs.length = n + 1 → s.hashing = some i →
      (s.shrList.entries ≠ [] → s.shrList.null = false) → s.shrList.entries[s.last]? = some node →
      node.blake2b = some b → stream.path = f.path →
      (∀ v ∈ vs, s.openStream v node.file = some stream) →
      blocksFrom f.content stream.pos = n →
      ∃ contents rs, calls generichash s vs = .ok
          ({ s with
            stream := none, contents, hashing := none
            fileRecheck := if s.newList.entries = [] then false else s.fileRecheck }, rs) ∧
        announcements rs = (if s.fileNewC = true then [(node, s.last)] else []) ∧
        ∀ b' ≠ b, contents b' = s.contents b' := by
  induction n with
  | zero =>
    intro s i b node stream vs hvs hlen hhashing hnull hnode hb hpath hopen hblocks
    obtain ⟨v, rfl⟩ := List.length_eq_one_iff.mp hlen
    have hv : v.Finds tree := hvs v (by simp)
    have hend : (v.fread stream.path stream.pos).take HASHING_BUFSIZE = [] := by
      rw [hpath, hv.fread f hf, blocksFrom_zero hblocks]
    have hhash : s.hash generichash v = .ok
        ({ s with
          stream := none
          contents := Function.update s.contents b (generichash stream.fed)
          hashing := none
          fileRecheck := if s.newList.entries = [] then false else s.fileRecheck },
          some 0, if s.fileNewC = true then some (node, s.last) else none) := by
      unfold FileOp.hash fileChecksumcalcNoblock
      simp only [hhashing, NodeList.read_of hnull, ok_bind, hnode, hopen v (by simp), hb, hend, ne_eq,
        not_true_eq_false, if_false, pure_eq_ok, le_refl, if_true]
    obtain ⟨r, hdo, hr⟩ := fileDo_of_hashing (by simp [hhashing]) hhash
    refine ⟨Function.update s.contents b (generichash stream.fed), [r], ?_, ?_, fun b' hb' => ?_⟩
    · simp only [calls, hdo, ok_bind, pure_eq_ok]
    · unfold announcements
      split_ifs at hr ⊢ with hc <;> simp [hr]
    · exact Function.update_of_ne hb' _ _
  | succ n ih =>
    intro s i b node stream vs hvs hlen hhashing hnull hnode hb hpath hopen hblocks
    obtain ⟨v, vs, rfl⟩ := List.exists_cons_of_length_eq_add_one hlen
    have hv : v.Finds tree := hvs v (by simp)
    have hread : v.fread stream.path stream.pos = f.content.drop stream.pos := by rw [hpath, hv.fread f hf]
    obtain ⟨hne, hrest⟩ := blocksFrom_succ hblocks
    have hpos : ¬ (((f.content.drop stream.pos).take HASHING_BUFSIZE).length : ℤ) ≤ 0 := by
      have := List.length_pos_iff.mpr hne
      omega
    let stream' : HashStream :=
      ⟨stream.path, stream.pos + ((f.content.drop stream.pos).take HASHING_BUFSIZE).length,
        stream.fed ++ (f.content.drop stream.pos).take HASHING_BUFSIZE ++
          v.stack.1.drop ((f.content.drop stream.pos).take HASHING_BUFSIZE).length⟩
    have hhash : s.hash generichash v = .ok ({ s with stream := some stream' },
        some (((f.content.drop stream.pos).take HASHING_BUFSIZE).length : ℤ), none) := by
      unfold FileOp.hash fileChecksumcalcNoblock
      simp only [hhashing, NodeList.read_of hnull, ok_bind, hnode, hopen v (by simp), hread, hne, ne_eq,
        not_false_eq_true, if_true, pure_eq_ok, hpos, if_false]
      rfl
    obtain ⟨r, hdo, hr⟩ := fileDo_of_hashing (by simp [hhashing]) hhash
    have hvs' : ∀ v ∈ vs, v.Finds tree := fun v hv => hvs v (List.mem_cons_of_mem _ hv)
    have hopen' : ∀ v ∈ vs, FileOp.openStream { s with stream := some stream' } v node.file = some stream' :=
      fun v _ => rfl
    have hpath' : stream'.path = f.path := hpath
    have hblocks' : blocksFrom f.content stream'.pos = n := hrest
    obtain ⟨contents, rs, hcalls, hrs, hkept⟩ := ih (s := { s with stream := some stream' }) hvs'
      (by simpa using hlen) hhashing hnull hnode hb hpath' hopen' hblocks'
    refine ⟨contents, r :: rs, ?_, ?_, hkept⟩
    · simp only [calls, hdo, ok_bind, hcalls, pure_eq_ok]
    · rw [← hrs, announcements, List.filterMap_cons_none hr]
      rfl

/-- An entry is taken when allocations succeed. -/
theorem FileOp.take_of_ready {s : FileOp} (h : s.Ready) {rest : List SharedFile} {node : SharedFile}
    (hnew : s.newList.entries = rest ++ [node]) {tree : Tree} {v : Visit} (hv : v.Finds tree) :
    ∃ last freed placed, Places s.shrList.entries node last freed placed ∧
      s.take v = .ok
        ({ s with
          shrList := NodeList.setHash ⟨placed, false⟩ last (some s.nextBuf)
          last
          newList := ⟨rest, false⟩
          nextBuf := s.nextBuf + 1
          hashing := some last }, some last, freed, true) := by
  have hne : s.newList.entries ≠ [] := by simp [hnew]
  have hnewest : s.newList.newest = .ok node := by
    unfold NodeList.newest
    simp [h.newList hne, hnew]
  have hpath : ∃ t, s.samePath = .ok t := by
    unfold FileOp.samePath
    rw [NodeList.read_of h.shrList, ok_bind, hnewest]
    split_ifs
    · exact ⟨_, rfl⟩
    · exact ⟨_, rfl⟩
  have hplace : ∃ r, s.place v = .ok r := by
    obtain ⟨t, hpath⟩ := hpath
    unfold FileOp.place
    rw [hpath, ok_bind]
    cases t with
    | none =>
      simp only [hv.shared, Bool.true_eq_false, if_false, hnewest, ok_bind]
      exact ⟨_, rfl⟩
    | some t =>
      simp only [hnewest, ok_bind]
      exact ⟨_, rfl⟩
  obtain ⟨⟨s₁, r⟩, hplace⟩ := hplace
  rcases FileOp.place_cases hplace with ⟨-, hshared, -⟩ | ⟨node', rest', last, freed, placed, rfl, hnew', hp, rfl⟩
  · rw [hv.shared] at hshared
    cases hshared
  · obtain ⟨rfl, heq⟩ := List.append_inj' (hnew.symm.trans hnew') rfl
    cases heq
    refine ⟨last, freed, placed, hp, ?_⟩
    unfold FileOp.take
    rw [if_pos ⟨hne, h.hashing⟩, hplace, ok_bind]
    simp only [FileOp.begin, hv.shrink, hv.hash, Bool.true_eq_false, false_and, if_false, hnew,
      List.dropLast_concat, pure_eq_ok]

/-- **A round**: the calls for the last file of `new_list`. -/
theorem calls_round (generichash : Bytes → FileId) {tree : Tree} {f : TreeFile} (hf : f ∈ tree.files)
    {s : FileOp} (h : s.Ready) {rest : List SharedFile} (hnew : s.newList.entries = rest ++ [f.entry.node])
    {vs : List Visit} (hvs : ∀ v ∈ vs, v.Finds tree) (hlen : vs.length = f.blocks + 1) :
    ∃ s' rs last freed b, calls generichash s vs = .ok (s', rs) ∧ s'.Ready ∧
      Places s.shrList.entries { f.entry.node with blake2b := some b } last freed s'.shrList.entries ∧
      s'.newList.entries = rest ∧ s'.fileNewC = s.fileNewC ∧
      s'.fileRecheck = (if rest = [] then false else s.fileRecheck) ∧ s.Spares s' ∧
      announcements rs =
        if s.fileNewC = true then [({ f.entry.node with blake2b := some b }, last)] else [] := by
  obtain ⟨v, vs, rfl⟩ := List.exists_cons_of_length_eq_add_one hlen
  have hdue : ¬ s.Due := by
    rintro ⟨-, hnil, -⟩
    simp [hnew] at hnil
  obtain ⟨last, freed, placed, hp, htake⟩ := FileOp.take_of_ready h hnew (hvs v (by simp))
  have hp' := hp.setHash (some s.nextBuf)
  let s₁ : FileOp :=
    { s with
      shrList := NodeList.setHash ⟨placed, false⟩ last (some s.nextBuf)
      last
      newList := ⟨rest, false⟩
      nextBuf := s.nextBuf + 1
      hashing := some last }
  have hopen : ∀ v' ∈ v :: vs, s₁.openStream v' f.path = some ⟨f.path, 0, []⟩ := by
    intro v' hv'
    simp [s₁, FileOp.openStream, h.stream, (hvs v' hv').opens f hf]
  have hblocks : blocksFrom f.content (⟨f.path, 0, []⟩ : HashStream).pos = f.blocks := rfl
  obtain ⟨contents, rs, hcalls, hrs, hkept⟩ := calls_hashing generichash hf f.blocks (s := s₁) hvs hlen rfl
    (fun _ => rfl) hp'.self rfl rfl hopen hblocks
  obtain ⟨rs', hcalls', hrs'⟩ := calls_of_fileDo
    (fun s₂ r hdo => fileDo_of_take hdue htake (by simp) hdo) hcalls
  refine ⟨_, rs', last, freed, s.nextBuf, hcalls', ⟨rfl, rfl, fun _ => rfl, fun _ => rfl, fun e he b hb => ?_⟩, hp',
    rfl, rfl, rfl, ⟨Nat.le_succ _, fun b hb => hkept b hb.ne⟩, ?_⟩
  · obtain ⟨i, hi⟩ := List.getElem?_of_mem he
    by_cases hlast : i = last
    · subst hlast
      obtain rfl := Option.some.inj (hp'.self.symm.trans hi)
      cases hb
      exact Nat.lt_succ_self _
    · have hold := hi
      rw [hp'.other hlast] at hold
      exact Nat.lt_succ_of_lt (h.bufs e (List.mem_of_getElem? hold) b hb)
  · rw [hrs', hrs]

/-! ### All rounds of a recheck -/

/-- What the rounds for the files `pending` do to `shr_list`, and the entries they announce. -/
structure Installs (l pending l' : List SharedFile) (ann : List (SharedFile × ℕ)) : Prop where
  nodup : (l'.map SharedFile.file).Nodup
  placed : ∀ node ∈ pending, ∃ (i b : ℕ), l'[i]? = some { node with blake2b := some b }
  kept : ∀ (i : ℕ) e, l[i]? = some e → (∀ node ∈ pending, node.file ≠ e.file) → l'[i]? = some e
  named : ann.map (·.1.file) = (pending.map SharedFile.file).reverse
  found : ∀ a ∈ ann, l'[a.2]? = some a.1

theorem Installs.nil {l : List SharedFile} (h : (l.map SharedFile.file).Nodup) : Installs l [] l [] where
  nodup := h
  placed := by simp
  kept := fun i e he _ => he
  named := rfl
  found := by simp

/-- A round, and then the others. -/
theorem Installs.round {l l₁ l' rest : List SharedFile} {node : SharedFile} {last b : ℕ} {freed : Option ℕ}
    {ann : List (SharedFile × ℕ)} (hp : Places l { node with blake2b := some b } last freed l₁)
    (hnode : ∀ other ∈ rest, other.file ≠ node.file) (h : Installs l₁ rest l' ann) :
    Installs l (rest ++ [node]) l' (({ node with blake2b := some b }, last) :: ann) where
  nodup := h.nodup
  placed := by
    intro other hother
    rcases List.mem_append.mp hother with hother | hother
    · exact h.placed other hother
    · rw [List.mem_singleton] at hother
      subst hother
      exact ⟨last, b, h.kept _ _ hp.self hnode⟩
  kept := by
    intro i e he hpending
    have hi : i ≠ last := by
      rintro rfl
      exact hpending node (by simp) (hp.path_eq he).symm
    apply h.kept i e
    · rw [hp.other hi]
      exact he
    · exact fun other hother => hpending other (by simp [hother])
  named := by simp [h.named]
  found := by
    intro a ha
    rcases List.mem_cons.mp ha with rfl | ha
    · exact h.kept _ _ hp.self hnode
    · exact h.found a ha

/-- **All rounds**: the calls for everything in `new_list`. -/
theorem calls_rounds (generichash : Bytes → FileId) {tree : Tree} (pending : List TreeFile) :
    ∀ {s : FileOp} {vs : List Visit}, (∀ f ∈ pending, f ∈ tree.files) → (pending.map TreeFile.path).Nodup →
      s.Ready → s.newList.entries = pending.map (·.entry.node) → (s.shrList.entries.map SharedFile.file).Nodup →
      (∀ v ∈ vs, v.Finds tree) → vs.length = (pending.map fun f => f.blocks + 1).sum →
      ∃ s' rs ann, calls generichash s vs = .ok (s', rs) ∧ s'.Ready ∧
        Installs s.shrList.entries (pending.map (·.entry.node)) s'.shrList.entries ann ∧
        s'.newList.entries = [] ∧
        s'.fileRecheck = (if pending = [] then s.fileRecheck else false) ∧ s.Spares s' ∧
        announcements rs = if s.fileNewC = true then ann else [] := by
  induction pending using List.reverseRecOn with
  | nil =>
    intro s vs _ _ hs hnew hpaths _ hlen
    obtain rfl := List.length_eq_zero_iff.mp hlen
    exact ⟨s, [], [], rfl, hs, .nil hpaths, hnew, rfl, .refl s, by simp [announcements]⟩
  | append_singleton pending f ih =>
    intro s vs hsub hnodup hs hnew hpaths hvs hlen
    rw [List.map_append, List.map_singleton] at hnew
    -- the first calls are the round of `f`
    have hsplit : vs = vs.take (f.blocks + 1) ++ vs.drop (f.blocks + 1) := (List.take_append_drop _ _).symm
    have hlen' : vs.length = (pending.map fun f => f.blocks + 1).sum + (f.blocks + 1) := by
      simpa using hlen
    obtain ⟨s₁, rs₁, last, freed, b, hcalls₁, hs₁, hp, hnew₁, hnewC, hrecheck₁, hspares₁, hann₁⟩ :=
      calls_round generichash (hsub f (by simp)) hs hnew
        (fun v hv => hvs v (List.mem_of_mem_take hv))
        (show (vs.take (f.blocks + 1)).length = f.blocks + 1 by rw [List.length_take]; omega)
    obtain ⟨hnodup', -, hdisj⟩ := List.nodup_append.mp (List.map_append ▸ hnodup)
    obtain ⟨s', rs', ann, hcalls', hs', hinst, hnew', hrecheck', hspares', hann'⟩ :=
      ih (fun g hg => hsub g (by simp [hg])) hnodup' hs₁ hnew₁ (hp.nodup hpaths)
        (fun v hv => hvs v (List.mem_of_mem_drop hv))
        (show (vs.drop (f.blocks + 1)).length = _ by rw [List.length_drop]; omega)
    have hothers : ∀ other ∈ pending.map (·.entry.node), other.file ≠ f.entry.node.file := by
      intro other hother
      obtain ⟨g, hg, rfl⟩ := List.mem_map.mp hother
      exact hdisj g.path (List.mem_map_of_mem hg) f.path (by simp)
    refine ⟨s', rs₁ ++ rs', ({ f.entry.node with blake2b := some b }, last) :: ann, ?_, hs', ?_, hnew', ?_,
      hspares₁.trans hspares', ?_⟩
    · rw [hsplit]
      exact calls_append _ hcalls₁ hcalls'
    · rw [List.map_append, List.map_singleton]
      exact hinst.round hp hothers
    · rw [hrecheck', hrecheck₁]
      by_cases hnil : pending = []
      · simp [hnil]
      · simp [hnil]
    · have happend : announcements (rs₁ ++ rs') = announcements rs₁ ++ announcements rs' := List.filterMap_append
      rw [happend, hann₁, hann', hnewC]
      split_ifs <;> rfl

/-! ### A recheck -/

/-- The walk of a recheck: entries are checked, and what is new or changed is pending. -/
theorem FileOp.recheck_of_due {s : FileOp} (hdue : s.Due) (h : s.Ready) {tree : Tree} {v : Visit}
    (hv : v.Finds tree) : ∃ s₁, s.recheck v = .ok (s₁, true) ∧ s₁.Ready ∧
      s₁.shrList.entries = s.shrList.entries.map (SharedFile.checked v) ∧
      s₁.newList.entries = (tree.fresh s.shrList.entries).map (·.entry.node) ∧
      s₁.fileRecheck = decide (tree.fresh s.shrList.entries ≠ []) ∧ s₁.fileNewC = s.fileNewC ∧ s.Spares s₁ := by
  have hok : ∃ r, s.recheck v = .ok r := by
    unfold FileOp.recheck
    have hchecked : (s.shrList.entries.map (SharedFile.checked v) ≠ [] → s.shrList.null = false) := by
      simpa using h.shrList
    rw [if_pos hdue]
    simp only [fileExistsShared, NodeList.read_of h.shrList, ok_bind, pure_eq_ok, fileWalkShared,
      hv.canonicalizes, Bool.true_eq_false, if_false]
    rw [NodeList.read_of (l := ⟨_, _⟩) hchecked]
    exact ⟨_, rfl⟩
  obtain ⟨⟨s₁, walked⟩, hok⟩ := hok
  obtain ⟨hfresh, hnull⟩ := ftw_fresh hv s.shrList.entries hdue.2.1
  cases FileOp.recheck_cases hok with
  | notDue hnot => exact absurd hdue hnot
  | nowhere _ hno =>
    rw [hv.canonicalizes] at hno
    cases hno
  | walked _ _ hnew =>
    subst hnew
    refine ⟨_, hok, ⟨h.hashing, h.stream, fun hne => ?_, hnull, fun e he b hb => ?_⟩, rfl, hfresh, ?_, rfl,
      ⟨le_rfl, fun _ _ => rfl⟩⟩
    · apply h.shrList
      simpa using hne
    · obtain ⟨e₀, he₀, rfl⟩ := List.mem_map.mp he
      exact h.bufs e₀ he₀ b hb
    · simp only [hfresh, ne_eq, List.map_eq_nil_iff]

/-- **The calls of a recheck**. -/
theorem calls_recheck (generichash : Bytes → FileId) {tree : Tree} {s : FileOp} (hdue : s.Due) (h : s.Ready)
    (hpaths : (s.shrList.entries.map SharedFile.file).Nodup) {vs : List Visit} (hvs : ∀ v ∈ vs, v.Finds tree)
    (hlen : vs.length = tree.calls s.shrList.entries) :
    ∃ v s' rs ann, v.Finds tree ∧ calls generichash s vs = .ok (s', rs) ∧ s'.Ready ∧
      Installs (s.shrList.entries.map (SharedFile.checked v))
        ((tree.fresh s.shrList.entries).map (·.entry.node)) s'.shrList.entries ann ∧
      s'.newList.entries = [] ∧ s'.fileRecheck = false ∧ s.Spares s' ∧
      announcements rs = if s.fileNewC = true then ann else [] := by
  obtain ⟨v, vs, rfl⟩ : ∃ v vs', vs = v :: vs' := by
    apply List.exists_cons_of_ne_nil
    rintro rfl
    have := le_max_left 1 ((tree.fresh s.shrList.entries).map fun f => f.blocks + 1).sum
    unfold Tree.calls at hlen
    simp only [List.length_nil] at hlen
    omega
  have hv : v.Finds tree := hvs v (by simp)
  obtain ⟨s₁, hrecheck, hs₁, hshr, hnew, hflag, hnewC, hspares₁⟩ := FileOp.recheck_of_due hdue h hv
  have hpaths₁ : (s₁.shrList.entries.map SharedFile.file).Nodup := by
    rw [hshr, List.map_map]
    exact hpaths
  have hdue₁ : ¬ s₁.Due := by
    rintro ⟨hflag', hnil, -⟩
    rw [hnew, List.map_eq_nil_iff] at hnil
    simp [hflag, hnil] at hflag'
  refine ⟨v, ?_⟩
  by_cases hnil : tree.fresh s.shrList.entries = []
  · -- nothing to hash: the call that walks is the only one
    obtain rfl : vs = [] := by
      rw [Tree.calls, hnil] at hlen
      simpa using hlen
    have hdo : fileDo generichash s₁ v = .ok (s₁, ⟨false, none, none, none, none, 0⟩) := by
      have hnone : s₁.newList.entries = [] := by rw [hnew, hnil, List.map_nil]
      unfold fileDo FileOp.recheck FileOp.take FileOp.hash
      rw [if_neg hdue₁]
      simp [hnone, hs₁.hashing]
    obtain ⟨r, hdo', hr⟩ := fileDo_of_recheck hrecheck hdue₁ hdo
    refine ⟨s₁, [r], [], hv, ?_, hs₁, ?_, ?_, ?_, hspares₁, ?_⟩
    · simp only [calls, hdo', ok_bind, pure_eq_ok]
    · rw [hnil, ← hshr]
      exact .nil hpaths₁
    · rw [hnew, hnil, List.map_nil]
    · simp [hflag, hnil]
    · simp [announcements, hr]
  · have hlen' : (v :: vs).length = ((tree.fresh s.shrList.entries).map fun f => f.blocks + 1).sum := by
      rw [hlen, Tree.calls, max_eq_right]
      obtain ⟨f, fs, hfs⟩ := List.exists_cons_of_ne_nil hnil
      rw [hfs, List.map_cons, List.sum_cons]
      omega
    have hsub : ∀ f ∈ tree.fresh s.shrList.entries, f ∈ tree.files := fun f hf => (List.mem_filter.mp hf).1
    have hnodup : ((tree.fresh s.shrList.entries).map TreeFile.path).Nodup :=
      tree.nodup.sublist (List.filter_sublist.map _)
    obtain ⟨s', rs, ann, hcalls, hs', hinst, hnew', hflag', hspares, hann⟩ :=
      calls_rounds generichash _ hsub hnodup hs₁ hnew hpaths₁ hvs hlen'
    obtain ⟨rs', hcalls', hrs'⟩ := calls_of_fileDo (fun _ _ hdo => fileDo_of_recheck hrecheck hdue₁ hdo) hcalls
    refine ⟨s', rs', ann, hv, hcalls', hs', ?_, hnew', ?_, hspares₁.trans hspares, ?_⟩
    · rw [← hshr]
      exact hinst
    · rw [hflag', if_neg hnil]
    · rw [hrs', hann, hnewC]

/-- What a recheck of the directory makes of the list `l` and of what the hash buffers hold, and what it
announces. -/
structure Converged (tree : Tree) (l l' : List SharedFile) (contents contents' : ℕ → FileId)
    (ann : List (SharedFile × ℕ)) : Prop where
  /-- Every file has one entry, with its path, time and size. -/
  once : ∀ f ∈ tree.files, ∃ (i : ℕ) (e : SharedFile), l'[i]? = some e ∧ e.file = f.path ∧
    e.mtime = f.mtime ∧ e.length = f.size ∧ e.present = true ∧
    ∀ (j : ℕ) (e' : SharedFile), l'[j]? = some e' → e'.file = f.path → j = i
  /-- The entry of an unchanged file stays as it was, except that the file is there. -/
  unchanged : ∀ (i : ℕ) e, l[i]? = some e → ∀ f ∈ tree.files, e.matches f.entry = true →
    l'[i]? = some { e with present := true }
  /-- And so does its hash, in the buffer. -/
  hash : ∀ e ∈ l, ∀ f ∈ tree.files, e.matches f.entry = true → ∀ b, e.blake2b = some b → contents' b = contents b
  gone : ∀ (i : ℕ) e, l[i]? = some e → tree.readable e.file = false →
    l'[i]? = some { e with present := false }
  /-- Each new or changed file is announced once, nothing else is. -/
  announced : (ann.map (·.1.file)).Perm ((tree.fresh l).map TreeFile.path)
  /-- It is announced with its entry and the index of that. -/
  index : ∀ a ∈ ann, l'[a.2]? = some a.1

theorem SharedFile.matches_iff {e : SharedFile} {f : TreeFile} :
    e.matches f.entry = true ↔ f.path = e.file ∧ f.mtime = e.mtime ∧ f.size = e.length := by
  simp only [SharedFile.matches, Bool.and_eq_true, decide_eq_true_eq, and_assoc]
  exact Iff.rfl

/-- A file is new or changed if and only if no entry is its own in this version. -/
theorem Tree.mem_fresh {tree : Tree} {l : List SharedFile} {f : TreeFile} :
    f ∈ tree.fresh l ↔ f ∈ tree.files ∧ ∀ e ∈ l, ¬ e.matches f.entry = true := by
  simp [Tree.fresh]

/-- Rounds for what is new or changed leave the list as a recheck should. -/
theorem Installs.converged {tree : Tree} {v : Visit} (hv : v.Finds tree) {l l' : List SharedFile}
    {contents contents' : ℕ → FileId} {ann : List (SharedFile × ℕ)}
    (h : Installs (l.map (SharedFile.checked v)) ((tree.fresh l).map (·.entry.node)) l' ann)
    (hhash : ∀ e ∈ l, ∀ b, e.blake2b = some b → contents' b = contents b) :
    Converged tree l l' contents contents' ann := by
  have hchecked : ∀ (i : ℕ) e, l[i]? = some e → (l.map (SharedFile.checked v))[i]? = some (e.checked v) := by
    intro i e he
    rw [List.getElem?_map, he, Option.map_some]
  -- the path of an unchanged file is not pending
  have hold : ∀ (i : ℕ) e, l[i]? = some e → ∀ f ∈ tree.files, e.matches f.entry = true →
      l'[i]? = some { e with present := true } := by
    intro i e he f hf hmatch
    have hpath := (SharedFile.matches_iff.mp hmatch).1
    have hkept := h.kept i _ (hchecked i e he) fun node hnode heq => by
      obtain ⟨g, hg, rfl⟩ := List.mem_map.mp hnode
      obtain ⟨hgf, hno⟩ := Tree.mem_fresh.mp hg
      have hgpath : g.path = f.path := heq.trans hpath.symm
      obtain rfl := List.inj_on_of_nodup_map tree.nodup hgf hf hgpath
      exact hno e (List.mem_of_getElem? he) hmatch
    rw [hkept, SharedFile.checked, hv.access, ← hpath, tree.readable_files f hf]
  refine ⟨?_, hold, fun e he _ _ _ => hhash e he, ?_, ?_, h.found⟩
  · intro f hf
    have hone : ∃ (i : ℕ) (e : SharedFile), l'[i]? = some e ∧ e.file = f.path ∧ e.mtime = f.mtime ∧
        e.length = f.size ∧ e.present = true := by
      by_cases hfresh : f ∈ tree.fresh l
      · obtain ⟨i, b, hi⟩ := h.placed _ (List.mem_map_of_mem hfresh)
        exact ⟨i, _, hi, rfl, rfl, rfl, rfl⟩
      · rw [Tree.mem_fresh] at hfresh
        push Not at hfresh
        obtain ⟨e, he, hmatch⟩ := hfresh hf
        obtain ⟨i, hi⟩ := List.getElem?_of_mem he
        obtain ⟨h₁, h₂, h₃⟩ := SharedFile.matches_iff.mp hmatch
        exact ⟨i, _, hold i e hi f hf hmatch, h₁.symm, h₂.symm, h₃.symm, rfl⟩
    obtain ⟨i, e, hi, h₁, h₂, h₃, h₄⟩ := hone
    refine ⟨i, e, hi, h₁, h₂, h₃, h₄, fun j e' hj he' => ?_⟩
    have hi' : (l'.map SharedFile.file)[i]? = some f.path := by simp [hi, h₁]
    have hj' : (l'.map SharedFile.file)[j]? = some f.path := by simp [hj, he']
    obtain ⟨hilt, -⟩ := List.getElem?_eq_some_iff.mp hi'
    exact ((List.getElem?_inj hilt h.nodup).mp (hi'.trans hj'.symm)).symm
  · intro i e he hgone
    have hkept := h.kept i _ (hchecked i e he) fun node hnode heq => by
      obtain ⟨g, hg, rfl⟩ := List.mem_map.mp hnode
      have hpath : g.path = e.file := heq
      rw [← hpath, tree.readable_files g (Tree.mem_fresh.mp hg).1] at hgone
      cases hgone
    rw [hkept, SharedFile.checked, hv.access, hgone]
  · rw [h.named, List.map_map]
    exact List.reverse_perm _

/-- **The scan converges.** With a directory that stays as it is, after a recheck request
exactly `tree.calls` calls of `file_do` end with nothing left to do; the list then has
every file once, in its current version, exactly the new and changed files were
announced, and the unchanged ones still have their hashes. -/
theorem scan_converges (generichash : Bytes → FileId) (tree : Tree) {s : FileOp} (h : s.Ready)
    (hnew : s.newList.entries = []) (hpaths : (s.shrList.entries.map SharedFile.file).Nodup)
    {vs : List Visit} (hvs : ∀ v ∈ vs, v.Finds tree) (hlen : vs.length = tree.calls s.shrList.entries) :
    ∃ s' rs ann, calls generichash (fileRecheckCallback s) vs = .ok (s', rs) ∧ s'.fileRecheck = false ∧
      s'.newList.entries = [] ∧ s'.hashing = none ∧
      Converged tree s.shrList.entries s'.shrList.entries s.contents s'.contents ann ∧
      announcements rs = if s.fileNewC = true then ann else [] := by
  have hready : (fileRecheckCallback s).Ready := ⟨h.hashing, h.stream, h.shrList, h.newList, h.bufs⟩
  obtain ⟨v, s', rs, ann, hv, hcalls, hs', hinst, hnew', hflag, hspares, hann⟩ :=
    calls_recheck generichash (s := fileRecheckCallback s) ⟨rfl, hnew, h.hashing⟩ hready hpaths hvs hlen
  have hhash : ∀ e ∈ s.shrList.entries, ∀ b, e.blake2b = some b → s'.contents b = s.contents b :=
    fun e he b hb => hspares.contents b (h.bufs e he b hb)
  exact ⟨s', rs, ann, hcalls, hflag, hnew', hs'.hashing, hinst.converged hv hhash, hann⟩

/-- A call that finds a directory. -/
def Tree.visit (tree : Tree) : Visit where
  canonicalizes := true
  entries := tree.files.map TreeFile.entry
  ftwRc := 0
  access := tree.readable
  opens _ := true
  fread path pos := ((tree.files.find? fun f => f.path = path).elim [] TreeFile.content).drop pos
  stack := ⟨List.replicate _ 0, List.length_replicate⟩
  alloc := ⟨fun _ => true, fun _ => true, true, true, true⟩

/-- Every directory can be found. -/
theorem Tree.visit_finds (tree : Tree) : tree.visit.Finds tree where
  canonicalizes := rfl
  entries := by
    apply List.filter_eq_self.mpr
    intro e he
    obtain ⟨f, -, rfl⟩ := List.mem_map.mp he
    rfl
  access := rfl
  opens _ _ := rfl
  fread := by
    intro f hf pos
    have hfind := (find?_key_eq_some TreeFile.path tree.nodup).mpr ⟨hf, rfl⟩
    simp only [Tree.visit, hfind, Option.elim_some]
  grow _ := rfl
  node _ := rfl
  shared := rfl
  shrink := rfl
  hash := rfl

/-- Some hash. -/
def someHash : FileId := ⟨List.replicate 32 0, rfl⟩

/-- A directory with two empty files. -/
def twoFiles : Tree where
  files := [⟨.ofBytes (ascii "/s/a"), 7, [], by decide⟩, ⟨.ofBytes (ascii "/s/b"), 7, [], by decide⟩]
  nodup := by decide
  readable path := path = .ofBytes (ascii "/s/a") || path = .ofBytes (ascii "/s/b")
  readable_files := by decide

/-- A list in which the first of them is older, the second was not there at the last check,
and a third is gone. -/
def staleList : FileOp :=
  { FileOp.start true fun _ => someHash with
    shrList := ⟨[⟨.ofBytes (ascii "/s/a"), some 0, 6, 0, true⟩, ⟨.ofBytes (ascii "/s/b"), some 1, 7, 0, false⟩,
      ⟨.ofBytes (ascii "/s/c"), some 2, 7, 0, true⟩], false⟩
    nextBuf := 3 }

/-- One call is enough for them. -/
theorem scan_converges_twoFiles :
    ∃ s' rs ann,
      calls (fun _ => someHash) (fileRecheckCallback staleList) [twoFiles.visit] = .ok (s', rs) ∧
      s'.fileRecheck = false ∧ s'.newList.entries = [] ∧ s'.hashing = none ∧
      Converged twoFiles staleList.shrList.entries s'.shrList.entries staleList.contents s'.contents ann ∧
      announcements rs = if staleList.fileNewC = true then ann else [] :=
  scan_converges _ twoFiles ⟨rfl, rfl, fun _ => rfl, fun h => absurd rfl h, by decide⟩ rfl (by decide)
    (fun v hv => by rw [List.mem_singleton.mp hv]; exact twoFiles.visit_finds) (by decide)

/-- An entry of an unchanged file that was marked as gone is not left as it was. -/
theorem unchanged_entry_marked :
    ∃ s' rs e,
      calls (fun _ => someHash) (fileRecheckCallback staleList) [twoFiles.visit] = .ok (s', rs) ∧
      staleList.shrList.entries[1]? = some e ∧
      (∃ f ∈ twoFiles.files, e.matches f.entry = true) ∧ s'.shrList.entries[1]? ≠ some e := by
  refine ⟨_, _, _, rfl, rfl, ⟨_, List.mem_cons_of_mem _ List.mem_cons_self, by decide⟩, ?_⟩
  decide

end ToxSuite.Share
