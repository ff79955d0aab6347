import ToxSuite.Share.FileOp

/-!
# What a call of `file_do` can do

The inversion of `file_do`: its three parts, each with its cases (`Rechecks`,
`Takes`, `Hashes`). From these comes what a call does to the paths of `shr_list`
(`fileDo_paths`) and to its hash buffers (`fileDo_rebuffers`).
-/

namespace ToxSuite.Share

open ToxSuite.Lib ToxSuite.File

/-! ### What a call can do -/

/-- The first part does nothing, or checks the entries and walks the directory if that has a
name. -/
inductive Rechecks (s : FileOp) (v : Visit) : FileOp → Bool → Prop
  | notDue (h : ¬ s.Due) : Rechecks s v s false
  | nowhere (h : s.Due) (hv : v.canonicalizes = false) :
      Rechecks s v
        { s with shrList := { s.shrList with entries := s.shrList.entries.map (.checked v) } } false
  | walked (h : s.Due) (hv : v.canonicalizes = true) {newList : NodeList}
      (hnew : newList = (ftw (s.shrList.entries.map (.checked v)) v s.newList v.entries).1) :
      Rechecks s v
        { s with
          shrList := { s.shrList with entries := s.shrList.entries.map (.checked v) }
          newList
          fileRecheck := decide (newList.entries ≠ []) } true

theorem NodeList.read_eq_ok {l : NodeList} {entries : List SharedFile} (h : l.read = .ok entries) :
    entries = l.entries ∧ ¬ (l.null = true ∧ l.entries ≠ []) := by
  unfold NodeList.read at h
  split_ifs at h with hnull
  cases h
  exact ⟨rfl, hnull⟩

theorem NodeList.newest_eq_ok {l : NodeList} {node : SharedFile} (h : l.newest = .ok node) :
    l.null = false ∧ ∃ rest, l.entries = rest ++ [node] := by
  unfold NodeList.newest at h
  split at h
  · next node' hnull hlast =>
    cases h
    exact ⟨hnull, List.getLast?_eq_some_iff.mp hlast⟩
  · cases h

theorem FileOp.recheck_cases {s s' : FileOp} {v : Visit} {walked : Bool}
    (h : s.recheck v = .ok (s', walked)) : Rechecks s v s' walked := by
  unfold FileOp.recheck at h
  by_cases hdue : s.Due
  · rw [if_pos hdue] at h
    obtain ⟨s₁, hexists, h⟩ := bind_eq_ok.mp h
    obtain ⟨⟨s₂, rc⟩, hwalk, h⟩ := bind_eq_ok.mp h
    cases h
    obtain ⟨shrList, hread, hexists⟩ := bind_eq_ok.mp hexists
    cases hexists
    obtain ⟨rfl, -⟩ := NodeList.read_eq_ok hread
    unfold fileWalkShared at hwalk
    by_cases hv : v.canonicalizes = false
    · rw [if_pos hv] at hwalk
      cases hwalk
      rw [hv]
      exact .nowhere hdue hv
    · rw [if_neg hv] at hwalk
      obtain ⟨shrList, hread', hwalk⟩ := bind_eq_ok.mp hwalk
      obtain ⟨rfl, -⟩ := NodeList.read_eq_ok hread'
      cases hwalk
      have hv' : v.canonicalizes = true := by simpa using hv
      rw [hv']
      convert Rechecks.walked hdue hv' rfl using 2
      simp only [hdue.1]
      split_ifs with hnil <;> simp [hnil]
  · rw [if_neg hdue] at h
    cases h
    exact .notDue hdue

/-- An entry goes into a list: the index it gets, the buffer of the entry it replaces and the
list after it. -/
inductive Places (l : List SharedFile) (node : SharedFile) : ℕ → Option ℕ → List SharedFile → Prop
  | new (h : ∀ f ∈ l, f.file ≠ node.file) : Places l node l.length none (l ++ [node])
  | again {t : ℕ} {f : SharedFile} (hf : l[t]? = some f) (h : f.file = node.file) :
      Places l node t f.blake2b (l.set t node)

/-- An entry that is placed is at the index it got. -/
theorem Places.self {l placed : List SharedFile} {node : SharedFile} {last : ℕ} {freed : Option ℕ}
    (h : Places l node last freed placed) : placed[last]? = some node := by
  cases h with
  | new hnew => simp
  | again hf hfile =>
    obtain ⟨ht, -⟩ := List.getElem?_eq_some_iff.mp hf
    rw [List.getElem?_set_self ht]

/-- The other entries stay where they are. -/
theorem Places.other {l placed : List SharedFile} {node : SharedFile} {last i : ℕ} {freed : Option ℕ}
    (h : Places l node last freed placed) (hi : i ≠ last) : placed[i]? = l[i]? := by
  cases h with
  | new hnew =>
    by_cases hlt : i < l.length
    · exact List.getElem?_append_left hlt
    · rw [List.getElem?_eq_none (by simp; omega), List.getElem?_eq_none (by omega)]
  | again hf hfile => exact List.getElem?_set_ne (Ne.symm hi)

/-- Only the entry of the path that is placed is replaced. -/
theorem Places.path_eq {l placed : List SharedFile} {node e : SharedFile} {last : ℕ} {freed : Option ℕ}
    (h : Places l node last freed placed) (he : l[last]? = some e) : e.file = node.file := by
  cases h with
  | new hnew => simp at he
  | again hf hfile =>
    cases hf.symm.trans he
    exact hfile

/-- The paths stay, and a new one goes to the end. -/
theorem Places.paths {l placed : List SharedFile} {node : SharedFile} {last : ℕ} {freed : Option ℕ}
    (h : Places l node last freed placed) :
    placed.map SharedFile.file = l.map SharedFile.file ∨
      node.file ∉ l.map SharedFile.file ∧
        placed.map SharedFile.file = l.map SharedFile.file ++ [node.file] := by
  cases h with
  | new hnew =>
    right
    constructor
    · simpa using fun f hf => hnew f hf
    · rw [List.map_append, List.map_singleton]
  | again hf hfile =>
    left
    obtain ⟨ht, hget⟩ := List.getElem?_eq_some_iff.mp hf
    rw [List.map_set, ← hfile]
    apply List.ext_getElem?
    intro i
    rw [List.getElem?_set]
    split_ifs with hi hlt
    · subst hi
      simp [hf]
    · subst hi
      simp [ht] at hlt
    · rfl

/-- Distinct paths stay distinct. -/
theorem Places.nodup {l placed : List SharedFile} {node : SharedFile} {last : ℕ} {freed : Option ℕ}
    (h : Places l node last freed placed) (hl : (l.map SharedFile.file).Nodup) :
    (placed.map SharedFile.file).Nodup := by
  rcases h.paths with heq | ⟨hnew, heq⟩
  · rw [heq]
    exact hl
  · rw [heq, List.nodup_append]
    refine ⟨hl, List.nodup_singleton _, fun a ha b hb => ?_⟩
    rw [List.mem_singleton] at hb
    rintro rfl
    exact hnew (hb ▸ ha)

/-- The same place with a hash buffer set. -/
theorem Places.setHash {l placed : List SharedFile} {node : SharedFile} {last : ℕ} {freed : Option ℕ}
    (h : Places l node last freed placed) (b : Option ℕ) :
    Places l { node with blake2b := b } last freed (NodeList.setHash ⟨placed, false⟩ last b).entries := by
  have hmodify : ∀ i, (placed.modify last fun f => { f with blake2b := b })[i]? =
      if last = i then some { node with blake2b := b } else l[i]? := by
    intro i
    rw [List.getElem?_modify]
    split_ifs with hi
    · subst hi
      simp [h.self]
    · simp [h.other (Ne.symm hi)]
  cases h with
  | new hnew =>
    convert @Places.new l { node with blake2b := b } hnew using 1
    apply List.ext_getElem?
    intro i
    rw [NodeList.setHash, hmodify]
    split_ifs with hi
    · subst hi
      simp
    · by_cases hlt : i < l.length
      · rw [List.getElem?_append_left hlt]
      · rw [List.getElem?_eq_none (by omega), List.getElem?_eq_none (by simp; omega)]
  | again hf hfile =>
    convert @Places.again l { node with blake2b := b } _ _ hf hfile using 1
    apply List.ext_getElem?
    intro i
    obtain ⟨ht, -⟩ := List.getElem?_eq_some_iff.mp hf
    rw [NodeList.setHash, hmodify, List.getElem?_set]
    simp [ht]

theorem FileOp.samePath_eq_ok {s : FileOp} {r : Option ℕ} (h : s.samePath = .ok r) :
    (r = none ∧ ∀ node, s.newList.newest = .ok node → ∀ f ∈ s.shrList.entries, f.file ≠ node.file) ∨
      ∃ t f node, r = some t ∧ s.newList.newest = .ok node ∧ s.shrList.entries[t]? = some f ∧
        f.file = node.file := by
  obtain ⟨shrList, hread, h⟩ := bind_eq_ok.mp h
  obtain ⟨rfl, -⟩ := NodeList.read_eq_ok hread
  by_cases hnil : s.shrList.entries = []
  · rw [if_pos hnil] at h
    cases h
    exact .inl ⟨rfl, by simp [hnil]⟩
  · rw [if_neg hnil] at h
    obtain ⟨node, hnode, h⟩ := bind_eq_ok.mp h
    cases h
    cases hfind : s.shrList.entries.findIdx? (·.file = node.file) with
    | none =>
      refine .inl ⟨rfl, fun node' hnode' f hf => ?_⟩
      cases hnode.symm.trans hnode'
      simpa using List.findIdx?_eq_none_iff.mp hfind f hf
    | some t =>
      obtain ⟨ht, hfile, -⟩ := List.findIdx?_eq_some_iff_getElem.mp hfind
      exact .inr ⟨t, _, node, rfl, hnode, List.getElem?_eq_getElem ht, by simpa using hfile⟩

/-- The second part of a call: nothing to take, no room for it, or an entry is placed and its
hashing begins unless an allocation fails. -/
inductive Takes (s : FileOp) (v : Visit) : FileOp → Option ℕ → Option ℕ → Bool → Prop
  | nothing (h : ¬ (s.newList.entries ≠ [] ∧ s.hashing = none)) : Takes s v s none none true
  | noRoom (hne : s.newList.entries ≠ []) (hidle : s.hashing = none) (hv : v.alloc.shared = false) :
      Takes s v { s with shrList := { s.shrList with null := true } } none none false
  | noShrink {node : SharedFile} {rest placed : List SharedFile} {last : ℕ} {freed : Option ℕ}
      (hidle : s.hashing = none) (hnew : s.newList.entries = rest ++ [node])
      (hplace : Places s.shrList.entries node last freed placed) (hv : v.alloc.shrink = false) :
      Takes s v { s with shrList := ⟨placed, false⟩, last, newList := ⟨rest, true⟩ } (some last) freed
        false
  | noHash {node : SharedFile} {rest placed : List SharedFile} {last : ℕ} {freed : Option ℕ}
      (hidle : s.hashing = none) (hnew : s.newList.entries = rest ++ [node])
      (hplace : Places s.shrList.entries node last freed placed) (hv : v.alloc.hash = false) :
      Takes s v
        { s with shrList := NodeList.setHash ⟨placed, false⟩ last none, last, newList := ⟨rest, false⟩ }
        (some last) freed false
  | begun {node : SharedFile} {rest placed : List SharedFile} {last : ℕ} {freed : Option ℕ}
      (hidle : s.hashing = none) (hnew : s.newList.entries = rest ++ [node])
      (hplace : Places s.shrList.entries node last freed placed) :
      Takes s v
        { s with
          shrList := NodeList.setHash ⟨placed, false⟩ last (some s.nextBuf)
          last
          newList := ⟨rest, false⟩
          nextBuf := s.nextBuf + 1
          hashing := some last } (some last) freed true

theorem FileOp.place_cases {s s' : FileOp} {v : Visit} {r : Option (ℕ × Option ℕ)}
    (h : s.place v = .ok (s', r)) :
    (r = none ∧ v.alloc.shared = false ∧ s' = { s with shrList := { s.shrList with null := true } }) ∨
      ∃ node rest last freed placed, r = some (last, freed) ∧ s.newList.entries = rest ++ [node] ∧
        Places s.shrList.entries node last freed placed ∧
        s' = { s with shrList := ⟨placed, false⟩, last } := by
  obtain ⟨t, hpath, h⟩ := bind_eq_ok.mp h
  rcases FileOp.samePath_eq_ok hpath with ⟨rfl, hnew⟩ | ⟨t, f, node, rfl, hnode, hf, hfile⟩
  · dsimp only at h
    split_ifs at h with hv
    · cases h
      exact .inl ⟨rfl, hv, rfl⟩
    · obtain ⟨node, hnode, h⟩ := bind_eq_ok.mp h
      cases h
      obtain ⟨-, rest, hrest⟩ := NodeList.newest_eq_ok hnode
      exact .inr ⟨node, rest, _, _, _, rfl, hrest, .new (hnew node hnode), rfl⟩
  · dsimp only at h
    rw [hnode, ok_bind, hf] at h
    cases h
    obtain ⟨-, rest, hrest⟩ := NodeList.newest_eq_ok hnode
    exact .inr ⟨node, rest, _, _, _, rfl, hrest, .again hf hfile, rfl⟩

theorem FileOp.take_cases {s s' : FileOp} {v : Visit} {taken freed : Option ℕ} {ok : Bool}
    (h : s.take v = .ok (s', taken, freed, ok)) : Takes s v s' taken freed ok := by
  unfold FileOp.take at h
  by_cases hwork : s.newList.entries ≠ [] ∧ s.hashing = none
  · rw [if_pos hwork] at h
    obtain ⟨⟨s₁, r⟩, hplace, h⟩ := bind_eq_ok.mp h
    rcases FileOp.place_cases hplace with ⟨rfl, hv, rfl⟩ | ⟨node, rest, last, freed', placed, rfl, hnew, hp, rfl⟩
    · cases h
      exact .noRoom hwork.1 hwork.2 hv
    · have hdrop : s.newList.entries.dropLast = rest := by rw [hnew, List.dropLast_concat]
      simp only [pure_eq_ok, Except.ok.injEq, Prod.mk.injEq, FileOp.begin, hdrop] at h
      obtain ⟨rfl, rfl, rfl, rfl⟩ := h
      split_ifs with hshrink hhash
      · exact .noShrink hwork.2 hnew hp hshrink.1
      · exact .noHash hwork.2 hnew hp hhash
      · exact .begun hwork.2 hnew hp
  · rw [if_neg hwork] at h
    cases h
    exact .nothing hwork

/-- The last part of a call: nothing is hashed, a block is, or the round ends, because the
file was read to its end or did not open. -/
inductive Hashes (generichash : Bytes → FileId) (s : FileOp) (v : Visit) :
    FileOp → Option ℤ → Option (SharedFile × ℕ) → Prop
  | idle (h : s.hashing = none) : Hashes generichash s v s none none
  | block {i : ℕ} {f : SharedFile} {stream : HashStream} {block : Bytes} (h : s.hashing = some i)
      (hf : s.shrList.entries[s.last]? = some f) (hs : s.openStream v f.file = some stream)
      (hblock : block = (v.fread stream.path stream.pos).take HASHING_BUFSIZE) (hne : block ≠ []) :
      Hashes generichash s v
        { s with
          stream := some ⟨stream.path, stream.pos + block.length,
            stream.fed ++ block ++ v.stack.1.drop block.length⟩ } (some block.length) none
  | done {i b : ℕ} {f : SharedFile} {stream : HashStream} (h : s.hashing = some i)
      (hf : s.shrList.entries[s.last]? = some f) (hb : f.blake2b = some b)
      (hs : s.openStream v f.file = some stream)
      (hend : (v.fread stream.path stream.pos).take HASHING_BUFSIZE = []) :
      Hashes generichash s v
        { s with
          stream := none
          contents := Function.update s.contents b (generichash stream.fed)
          hashing := none
          fileRecheck := if s.newList.entries = [] then false else s.fileRecheck }
        (some 0) (if s.fileNewC = true then some (f, s.last) else none)
  | failed {i : ℕ} {f : SharedFile} (h : s.hashing = some i)
      (hf : s.shrList.entries[s.last]? = some f) (hs : s.openStream v f.file = none) :
      Hashes generichash s v
        { s with
          hashing := none
          fileRecheck := if s.newList.entries = [] then false else s.fileRecheck }
        (some (-1)) (if s.fileNewC = true then some (f, s.last) else none)

theorem FileOp.hash_cases {generichash : Bytes → FileId} {s s' : FileOp} {v : Visit} {rc : Option ℤ}
    {announced : Option (SharedFile × ℕ)} (h : s.hash generichash v = .ok (s', rc, announced)) :
    Hashes generichash s v s' rc announced := by
  unfold FileOp.hash at h
  cases hhash : s.hashing with
  | none =>
    simp only [hhash] at h
    cases h
    exact .idle hhash
  | some i =>
    simp only [hhash] at h
    obtain ⟨shrList, hread, h⟩ := bind_eq_ok.mp h
    obtain ⟨rfl, -⟩ := NodeList.read_eq_ok hread
    cases hf : s.shrList.entries[s.last]? with
    | none => simp [hf] at h
    | some f =>
      simp only [hf] at h
      obtain ⟨⟨s₁, r⟩, hsum, h⟩ := bind_eq_ok.mp h
      unfold fileChecksumcalcNoblock at hsum
      cases hs : s.openStream v f.file with
      | none =>
        simp only [hs] at hsum
        cases hsum
        cases h
        exact .failed hhash hf hs
      | some stream =>
        simp only [hs] at hsum
        split_ifs at hsum with hblock
        · cases hsum
          have hpos : ¬ (((v.fread stream.path stream.pos).take HASHING_BUFSIZE).length : ℤ) ≤ 0 := by
            have := List.length_pos_iff.mpr hblock
            omega
          rw [if_neg hpos] at h
          cases h
          exact .block hhash hf hs rfl hblock
        · cases hb : f.blake2b with
          | none => simp [hb] at hsum
          | some b =>
            simp only [hb] at hsum
            cases hsum
            cases h
            exact .done hhash hf hb hs (not_not.mp hblock)

/-- Hashing leaves the lists as they are. -/
theorem Hashes.lists {generichash : Bytes → FileId} {s s' : FileOp} {v : Visit} {rc : Option ℤ}
    {announced : Option (SharedFile × ℕ)} (h : Hashes generichash s v s' rc announced) :
    s'.shrList = s.shrList ∧ s'.newList = s.newList ∧ s'.last = s.last ∧ s'.nextBuf = s.nextBuf ∧
      s'.fileNewC = s.fileNewC := by
  cases h <;> exact ⟨rfl, rfl, rfl, rfl, rfl⟩

/-- What is announced is an entry, under its index. -/
theorem Hashes.announced_eq {generichash : Bytes → FileId} {s s' : FileOp} {v : Visit} {rc : Option ℤ}
    {f : SharedFile} {i : ℕ} (h : Hashes generichash s v s' rc (some (f, i))) :
    s.shrList.entries[i]? = some f ∧ i = s.last ∧ s.fileNewC = true ∧ ∃ r, rc = some r ∧ r ≤ 0 := by
  generalize ha : (some (f, i) : Option (SharedFile × ℕ)) = announced at h
  cases h with
  | idle | block => cases ha
  | done _ hf =>
    split_ifs at ha with hc
    cases ha
    exact ⟨hf, rfl, hc, 0, rfl, le_rfl⟩
  | failed _ hf =>
    split_ifs at ha with hc
    cases ha
    exact ⟨hf, rfl, hc, -1, rfl, by decide⟩

/-- A call is its three parts, the last of which is skipped after a failed allocation. -/
theorem fileDo_eq_ok {generichash : Bytes → FileId} {s s' : FileOp} {v : Visit} {r : Report}
    (h : fileDo generichash s v = .ok (s', r)) :
    ∃ s₁ s₂ ok, s.recheck v = .ok (s₁, r.walked) ∧ s₁.take v = .ok (s₂, r.taken, r.freed, ok) ∧
      ((ok = false ∧ s' = s₂ ∧ r.rc = none ∧ r.announced = none) ∨
        ok = true ∧ s₂.hash generichash v = .ok (s', r.rc, r.announced)) := by
  obtain ⟨⟨s₁, walked⟩, hrecheck, h⟩ := bind_eq_ok.mp h
  obtain ⟨⟨s₂, taken, freed, ok⟩, htake, h⟩ := bind_eq_ok.mp h
  cases ok with
  | false =>
    cases h
    exact ⟨s₁, _, false, hrecheck, htake, .inl ⟨rfl, rfl, rfl, rfl⟩⟩
  | true =>
    obtain ⟨⟨s₃, rc, announced⟩, hhash, h⟩ := bind_eq_ok.mp h
    cases h
    exact ⟨s₁, s₂, true, hrecheck, htake, .inr ⟨rfl, hhash⟩⟩

/-- **The inversion of a call**. -/
theorem fileDo_cases {generichash : Bytes → FileId} {s s' : FileOp} {v : Visit} {r : Report}
    (h : fileDo generichash s v = .ok (s', r)) :
    ∃ s₁ s₂ ok, Rechecks s v s₁ r.walked ∧ Takes s₁ v s₂ r.taken r.freed ok ∧
      ((ok = false ∧ s' = s₂ ∧ r.rc = none ∧ r.announced = none) ∨
        ok = true ∧ Hashes generichash s₂ v s' r.rc r.announced) := by
  obtain ⟨s₁, s₂, ok, hrecheck, htake, hrest⟩ := fileDo_eq_ok h
  refine ⟨s₁, s₂, ok, FileOp.recheck_cases hrecheck, FileOp.take_cases htake, ?_⟩
  exact hrest.imp_right fun ⟨hok, hhash⟩ => ⟨hok, FileOp.hash_cases hhash⟩

/-- With nothing pending, or while a file is hashed, nothing is taken. -/
theorem Takes.eq_of_nothing {s s' : FileOp} {v : Visit} {taken freed : Option ℕ} {ok : Bool}
    (h : Takes s v s' taken freed ok) (hs : s.newList.entries = [] ∨ s.hashing ≠ none) :
    s' = s ∧ taken = none ∧ freed = none ∧ ok = true := by
  have hno : ¬ (s.newList.entries ≠ [] ∧ s.hashing = none) := by
    rintro ⟨hne, hidle⟩
    rcases hs with hnil | hbusy
    · exact hne hnil
    · exact hbusy hidle
  cases h with
  | nothing => exact ⟨rfl, rfl, rfl, rfl⟩
  | noRoom hne hidle => exact absurd ⟨hne, hidle⟩ hno
  | noShrink hidle hnew | noHash hidle hnew | begun hidle hnew => exact absurd ⟨by simp [hnew], hidle⟩ hno

/-- With nothing to hash, nothing is hashed. -/
theorem Hashes.eq_of_idle {generichash : Bytes → FileId} {s s' : FileOp} {v : Visit} {rc : Option ℤ}
    {announced : Option (SharedFile × ℕ)} (h : Hashes generichash s v s' rc announced)
    (hs : s.hashing = none) : s' = s ∧ rc = none ∧ announced = none := by
  cases h with
  | idle => exact ⟨rfl, rfl, rfl⟩
  | block hbusy | done hbusy | failed hbusy =>
    rw [hs] at hbusy
    cases hbusy

/-- Taking an entry leaves the recheck flag and the stream as they are. -/
theorem Takes.same {s s' : FileOp} {v : Visit} {taken freed : Option ℕ} {ok : Bool}
    (h : Takes s v s' taken freed ok) :
    s'.fileRecheck = s.fileRecheck ∧ s'.stream = s.stream ∧ s'.fileNewC = s.fileNewC := by
  cases h <;> exact ⟨rfl, rfl, rfl⟩

/-- A recheck keeps the callback. -/
theorem Rechecks.fileNewC_eq {s s' : FileOp} {v : Visit} {walked : Bool} (h : Rechecks s v s' walked) :
    s'.fileNewC = s.fileNewC := by
  cases h <;> rfl

/-! ### Hash buffers -/

/-- What the walk finds has no hash buffer. -/
theorem ftw_blake2b (shrList : List SharedFile) (v : Visit) (es : List FtwEntry) :
    ∀ newList : NodeList, (∀ f ∈ newList.entries, f.blake2b = none) →
      ∀ f ∈ (ftw shrList v newList es).1.entries, f.blake2b = none := by
  induction es with
  | nil =>
    intro newList h
    exact h
  | cons e es ih =>
    intro newList h
    unfold ftw fileWalkCallback
    by_cases htype : e.type = .f
    · rw [if_pos htype]
      split_ifs with hmatch hgrow hnode
      · exact ih newList h
      · exact h
      · exact h
      · apply ih _
        intro f hf
        rcases List.mem_append.mp hf with hf | hf
        · exact h f hf
        · rw [List.mem_singleton.mp hf]
          rfl
    · rw [if_neg htype]
      exact ih newList h

theorem getElem?_map_checked {l : List SharedFile} {v : Visit} {i : ℕ} {f : SharedFile}
    (h : (l.map (SharedFile.checked v))[i]? = some f) : ∃ f', l[i]? = some f' ∧ f = f'.checked v := by
  rw [List.getElem?_map, Option.map_eq_some_iff] at h
  obtain ⟨f', hf', rfl⟩ := h
  exact ⟨f', hf', rfl⟩

/-- The hash buffer of the entry at an index. -/
def FileOp.buf (s : FileOp) (i : ℕ) : Option ℕ := s.shrList.entries[i]?.bind SharedFile.blake2b

/-- What is pending has no hash buffer yet. -/
def FileOp.Blank (s : FileOp) : Prop := ∀ f ∈ s.newList.entries, f.blake2b = none

theorem Rechecks.buf {s s' : FileOp} {v : Visit} {walked : Bool} (h : Rechecks s v s' walked) :
    s'.buf = s.buf ∧ s'.nextBuf = s.nextBuf ∧ (s.Blank → s'.Blank) := by
  have hbuf : ∀ i, ((s.shrList.entries.map (SharedFile.checked v))[i]?).bind SharedFile.blake2b = s.buf i := by
    intro i
    unfold FileOp.buf
    rw [List.getElem?_map]
    cases s.shrList.entries[i]? <;> rfl
  cases h with
  | notDue => exact ⟨rfl, rfl, id⟩
  | nowhere => exact ⟨funext hbuf, rfl, id⟩
  | walked _ _ hnew =>
    subst hnew
    exact ⟨funext hbuf, rfl, fun hs => ftw_blake2b _ v _ _ hs⟩

/-- The buffer freed is that of the entry replaced. -/
theorem Places.freed_eq {l placed : List SharedFile} {node : SharedFile} {last : ℕ} {freed : Option ℕ}
    (h : Places l node last freed placed) : freed = l[last]?.bind SharedFile.blake2b := by
  cases h with
  | new => simp
  | again hf => simp [hf]

/-- What a call does to the hash buffers of the list: nothing, or the one at an index is freed
and replaced, by none or by a new one. -/
inductive Rebuffers (s s' : FileOp) : Option ℕ → Option ℕ → Prop
  | same (hbuf : s'.buf = s.buf) (hnext : s'.nextBuf = s.nextBuf) : Rebuffers s s' none none
  | replaced {t : ℕ} {x : Option ℕ} (hbuf : s'.buf = Function.update s.buf t x)
      (hnext : s.nextBuf ≤ s'.nextBuf) (hx : ∀ b ∈ x, s.nextBuf ≤ b ∧ b < s'.nextBuf) :
      Rebuffers s s' (some t) (s.buf t)

/-- The buffers after an entry was placed. -/
theorem Places.bufs {l placed : List SharedFile} {node : SharedFile} {last : ℕ} {freed : Option ℕ}
    (h : Places l node last freed placed) :
    (fun i : ℕ => placed[i]?.bind SharedFile.blake2b) =
      Function.update (fun i : ℕ => l[i]?.bind SharedFile.blake2b) last node.blake2b := by
  funext i
  by_cases hi : i = last
  · subst hi
    rw [h.self, Function.update_self]
    rfl
  · rw [h.other hi, Function.update_of_ne hi]

theorem Takes.rebuffers {s s' : FileOp} {v : Visit} {taken freed : Option ℕ} {ok : Bool}
    (h : Takes s v s' taken freed ok) (hs : s.Blank) : Rebuffers s s' taken freed ∧ s'.Blank := by
  have hrest : ∀ {node : SharedFile} {rest : List SharedFile}, s.newList.entries = rest ++ [node] →
      (∀ f ∈ rest, f.blake2b = none) ∧ node.blake2b = none := by
    intro node rest hnew
    exact ⟨fun f hf => hs f (by simp [hnew, hf]), hs node (by simp [hnew])⟩
  cases h with
  | nothing => exact ⟨.same rfl rfl, hs⟩
  | noRoom => exact ⟨.same rfl rfl, hs⟩
  | noShrink hidle hnew hp =>
    refine ⟨?_, (hrest hnew).1⟩
    rw [hp.freed_eq]
    exact .replaced hp.bufs le_rfl (by simp [(hrest hnew).2])
  | noHash hidle hnew hp =>
    refine ⟨?_, (hrest hnew).1⟩
    rw [hp.freed_eq]
    exact .replaced (hp.setHash none).bufs le_rfl (by simp)
  | begun hidle hnew hp =>
    refine ⟨?_, (hrest hnew).1⟩
    rw [hp.freed_eq]
    exact .replaced (hp.setHash (some s.nextBuf)).bufs (Nat.le_succ _) (by simp)

/-- **A call frees at most the buffer of the entry it replaces.** -/
theorem fileDo_rebuffers {generichash : Bytes → FileId} {s s' : FileOp} {v : Visit} {r : Report}
    (h : fileDo generichash s v = .ok (s', r)) (hs : s.Blank) :
    Rebuffers s s' r.taken r.freed ∧ s'.Blank := by
  obtain ⟨s₁, s₂, ok, hrecheck, htake, hrest⟩ := fileDo_cases h
  obtain ⟨hbuf, hnext, hblank⟩ := hrecheck.buf
  obtain ⟨hre, hblank₂⟩ := htake.rebuffers (hblank hs)
  have hlast : s'.buf = s₂.buf ∧ s'.nextBuf = s₂.nextBuf ∧ s'.newList = s₂.newList := by
    rcases hrest with ⟨-, rfl, -⟩ | ⟨-, hhash⟩
    · exact ⟨rfl, rfl, rfl⟩
    · obtain ⟨hshr, hnew, -, hnextBuf, -⟩ := hhash.lists
      exact ⟨by unfold FileOp.buf; rw [hshr], hnextBuf, hnew⟩
  obtain ⟨hbuf', hnext', hnew'⟩ := hlast
  refine ⟨?_, fun f hf => hblank₂ f (hnew' ▸ hf)⟩
  generalize r.taken = taken at hre
  generalize r.freed = freed at hre
  cases hre with
  | same hb hn => exact .same (by rw [hbuf', hb, hbuf]) (by rw [hnext', hn, hnext])
  | replaced hb hn hx =>
    rw [hbuf] at hb ⊢
    rw [hnext] at hn hx
    rw [← hnext'] at hn hx
    exact .replaced (hbuf'.trans hb) hn hx

/-! ### The paths of the list -/

/-- The paths of `shr_list`, by pack number. -/
def FileOp.paths (s : FileOp) : List CStr := s.shrList.entries.map SharedFile.file

theorem Rechecks.paths {s s' : FileOp} {v : Visit} {walked : Bool} (h : Rechecks s v s' walked) :
    s'.paths = s.paths := by
  cases h with
  | notDue => rfl
  | nowhere | walked =>
    unfold FileOp.paths
    rw [List.map_map]
    rfl

theorem NodeList.map_setHash (l : NodeList) (last : ℕ) (b : Option ℕ) :
    (l.setHash last b).entries.map SharedFile.file = l.entries.map SharedFile.file := by
  apply List.ext_getElem?
  intro i
  simp only [NodeList.setHash, List.getElem?_map, List.getElem?_modify]
  cases l.entries[i]? with
  | none => rfl
  | some f =>
    by_cases hi : last = i
    · simp [hi]
    · simp [hi]

/-- The list is extended, and stays without a path twice. -/
theorem Takes.paths {s s' : FileOp} {v : Visit} {taken freed : Option ℕ} {ok : Bool}
    (h : Takes s v s' taken freed ok) : s.paths <+: s'.paths ∧ (s.paths.Nodup → s'.paths.Nodup) := by
  have hgrow : ∀ {node : SharedFile} {placed : List SharedFile} {last : ℕ} {freed : Option ℕ},
      Places s.shrList.entries node last freed placed → s.paths <+: placed.map SharedFile.file := by
    intro node placed last freed hp
    rcases hp.paths with heq | ⟨-, heq⟩
    · rw [heq]
      exact List.prefix_rfl
    · rw [heq]
      exact List.prefix_append _ _
  cases h with
  | nothing | noRoom => exact ⟨List.prefix_rfl, id⟩
  | noShrink _ _ hp => exact ⟨hgrow hp, hp.nodup⟩
  | noHash _ _ hp | begun _ _ hp =>
    unfold FileOp.paths
    rw [NodeList.map_setHash]
    exact ⟨hgrow hp, hp.nodup⟩

/-- **A call only appends paths**, and none that is there already. -/
theorem fileDo_paths {generichash : Bytes → FileId} {s s' : FileOp} {v : Visit} {r : Report}
    (h : fileDo generichash s v = .ok (s', r)) :
    s.paths <+: s'.paths ∧ (s.paths.Nodup → s'.paths.Nodup) := by
  obtain ⟨s₁, s₂, ok, hrecheck, htake, ⟨-, rfl, -⟩ | ⟨-, hhash⟩⟩ := fileDo_cases h
  · rw [← hrecheck.paths]
    exact htake.paths
  · have heq : s'.paths = s₂.paths := by rw [FileOp.paths, hhash.lists.1, FileOp.paths]
    rw [heq, ← hrecheck.paths]
    exact htake.paths

end ToxSuite.Share
