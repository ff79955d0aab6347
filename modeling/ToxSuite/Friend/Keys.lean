import ToxSuite.File.Owner

/-!
# Key files

`export_keys` writes the public keys of the friends to a file, one in each line, as
upper-case hexadecimal. `import_keys` and `remove_keys` read such a file; a line is
taken for a key if it has 65 characters. `import_keys` decodes the line with
`sodium_hex2bin`, into a buffer that it uses again for every line, and
`remove_keys` compares the line with the text in the entries.

* `imported_keys_exported`: what was exported is imported, each key once.
* `remove_undoes_import_iff`: removing the keys of a file undoes importing it if and
  only if every key that Tox accepts is also spelled in upper case by a line.
-/

namespace ToxSuite.Friend

open ToxSuite.Lib
open ToxSuite.File (Carries carries_add carries_remove)

/-! ### `sodium_hex2bin` -/

/-- The value of a hexadecimal digit, of either case. -/
def hexVal (c : UInt8) : Option ℕ :=
  if 48 ≤ c ∧ c ≤ 57 then some (c.toNat - 48)
  else if 65 ≤ c ∧ c ≤ 70 then some (c.toNat - 55)
  else if 97 ≤ c ∧ c ≤ 102 then some (c.toNat - 87)
  else none

/-- The bytes of the digits at the head of a text, up to the first other character; a digit
without its second half gives none. -/
def decodeHex : Bytes → Bytes
  | a :: b :: text =>
    match hexVal a, hexVal b with
    | some x, some y => UInt8.ofNat (16 * x + y) :: decodeHex text
    | _, _ => []
  | _ => []

/-- What a buffer of the size of a key holds after the digits of a text were written to it. -/
def hexInto : Hex2Bin := fun buf text =>
  ⟨((decodeHex text).take TOX_PUBLIC_KEY_SIZE ++ buf.1.drop (decodeHex text).length).take
      TOX_PUBLIC_KEY_SIZE, by
    have := buf.2
    simp only [List.length_take, List.length_append, List.length_drop]
    omega⟩

/-- `sodium_hex2bin` writes the bytes of the leading digits and leaves the rest of the buffer. -/
def DecodesHex (hex2bin : Hex2Bin) : Prop := ∀ buf text, hex2bin buf text = hexInto buf text

theorem hexVal_upperHexDigit : ∀ d < 16, hexVal (upperHexDigit d) = some d := by
  decide

/-- Upper-case hexadecimal is decoded, and the decoding goes on after it. -/
theorem decodeHex_upperHex (bin rest : Bytes) : decodeHex (upperHex bin ++ rest) = bin ++ decodeHex rest := by
  induction bin with
  | nil => rfl
  | cons b bin ih =>
    have hb := b.toNat_lt
    have hhigh := hexVal_upperHexDigit (b.toNat / 16) (by omega)
    have hlow := hexVal_upperHexDigit (b.toNat % 16) (by omega)
    have hbyte : UInt8.ofNat (16 * (b.toNat / 16) + b.toNat % 16) = b := by
      rw [Nat.div_add_mod, UInt8.ofNat_toNat]
    simp only [upperHex, List.flatMap_cons, List.cons_append, List.nil_append, decodeHex, hhigh, hlow,
      hbyte] at ih ⊢
    rw [ih]

theorem upperHex_injective : Function.Injective upperHex := by
  intro a b h
  have ha := decodeHex_upperHex a []
  rw [h, decodeHex_upperHex] at ha
  exact (List.append_cancel_right ha).symm

theorem length_upperHex (bin : Bytes) : (upperHex bin).length = bin.length * 2 := by
  induction bin with
  | nil => rfl
  | cons b bin ih =>
    rw [upperHex, List.flatMap_cons, List.length_append, ← upperHex, ih]
    simp only [List.length_cons, List.length_nil]
    omega

/-- Only digits are written. -/
theorem hexVal_of_mem_upperHex {bin : Bytes} {c : UInt8} (h : c ∈ upperHex bin) : ∃ d, hexVal c = some d := by
  obtain ⟨b, -, hc⟩ := List.mem_flatMap.mp h
  have hb := b.toNat_lt
  simp only [List.mem_cons, List.not_mem_nil, or_false] at hc
  rcases hc with rfl | rfl
  · exact ⟨_, hexVal_upperHexDigit _ (by omega)⟩
  · exact ⟨_, hexVal_upperHexDigit _ (by omega)⟩

theorem notMem_upperHex {c : UInt8} (hc : hexVal c = none) (bin : Bytes) : c ∉ upperHex bin := by
  intro h
  obtain ⟨d, hd⟩ := hexVal_of_mem_upperHex h
  rw [hc] at hd
  cases hd

/-- The bytes of a whole key are all that the buffer holds afterwards. -/
theorem hexInto_eq {buf key : PublicKey} {text : Bytes}
    (h : (decodeHex text).take TOX_PUBLIC_KEY_SIZE = key.1) : hexInto buf text = key := by
  apply Subtype.ext
  change (List.take _ _ ++ _).take _ = _
  rw [h, List.take_left' key.2]

/-- A key that is spelled in upper case is decoded, whatever follows it and whatever the buffer
held. -/
theorem hexInto_upperHex (buf key : PublicKey) (rest : Bytes) : hexInto buf (upperHex key.1 ++ rest) = key := by
  apply hexInto_eq
  rw [decodeHex_upperHex, List.take_left' key.2]

/-! ### Lines and keys -/

/-- The keys of Tox's friends. -/
def Tox.keys (tox : Tox) : List PublicKey := tox.friends.map ToxFriend.publicKey

section

variable (hex2bin : Hex2Bin)

/-- The keys `import_keys` decodes the lines of a file to, each into what is left of the one
before. -/
def fileKeys (buf : PublicKey) : List Bytes → List PublicKey
  | [] => []
  | text :: lines =>
    if isPublickeyLine text then hex2bin buf (cstr text) :: fileKeys (hex2bin buf (cstr text)) lines
    else fileKeys buf lines

/-- Those of them that Tox accepts. -/
def acceptedKeys (tox : Tox) (buf : PublicKey) : List ImportLine → List PublicKey
  | [] => []
  | line :: lines =>
    if isPublickeyLine line.text then
      let key := hex2bin buf (cstr line.text)
      match toxFriendAddNorequest tox key line.reply with
      | (tox, none) => acceptedKeys tox key lines
      | (tox, some _) => key :: acceptedKeys tox key lines
    else acceptedKeys tox buf lines

/-- Tox accepts every key that is neither its own nor that of a friend. -/
def AcceptsKeys (own : PublicKey) (tox : Tox) (buf : PublicKey) : List ImportLine → Prop
  | [] => True
  | line :: lines =>
    if isPublickeyLine line.text then
      let key := hex2bin buf (cstr line.text)
      (key ≠ own → key ∉ tox.keys → ∃ n data, line.reply = some (n, data) ∧ n ∉ tox.numbers) ∧
        (key = own → line.reply = none) ∧
        AcceptsKeys own (toxFriendAddNorequest tox key line.reply).1 key lines
    else AcceptsKeys own tox buf lines

end

/-- A line that spells a key in upper case. -/
def Spells (text : Bytes) (key : PublicKey) : Prop :=
  isPublickeyLine text = true ∧ (cstr text).take (TOX_PUBLIC_KEY_SIZE * 2) = upperHex key.1

/-- Whoever reads a line that spells a key decodes it. -/
theorem Spells.decode {text : Bytes} {key : PublicKey} (h : Spells text key) (buf : PublicKey) :
    hexInto buf (cstr text) = key := by
  rw [← List.take_append_drop (TOX_PUBLIC_KEY_SIZE * 2) (cstr text), h.2]
  exact hexInto_upperHex buf key _

theorem Spells.mem_fileKeys {hex2bin : Hex2Bin} (hhex : DecodesHex hex2bin) {texts : List Bytes} {text : Bytes}
    {key : PublicKey} (h : Spells text key) : ∀ buf, text ∈ texts → key ∈ fileKeys hex2bin buf texts := by
  induction texts with
  | nil =>
    intro buf hmem
    cases hmem
  | cons line texts ih =>
    intro buf hmem
    unfold fileKeys
    rcases List.mem_cons.mp hmem with rfl | hmem
    · rw [if_pos h.1, hhex, h.decode buf]
      exact List.mem_cons_self
    · split_ifs
      · exact List.mem_cons_of_mem _ (ih _ hmem)
      · exact ih _ hmem

/-! ### The two lists have the same keys -/

/-- `friends_info` mirrors Tox's list, and its entries carry the keys. -/
structure Reflects (c : Contacts) : Prop extends Mirror c where
  carries : Carries c

/-- An entry carries a key if and only if a friend has it. -/
theorem Reflects.mem_keys {c : Contacts} (h : Reflects c) {key : PublicKey} :
    key ∈ c.friendsInfo.map FriendInfo.toxIdBin ↔ key ∈ c.tox.keys := by
  simp only [Tox.keys, List.mem_map]
  constructor
  · rintro ⟨f, hf, rfl⟩
    obtain ⟨t, ht, -, hkey, -⟩ := h.carries f hf
    exact ⟨t, ht, hkey.symm⟩
  · rintro ⟨t, ht, rfl⟩
    obtain ⟨f, hf, hn⟩ := List.mem_map.mp ((h.numbers t.number).mpr (List.mem_map_of_mem ht))
    obtain ⟨u, hu, hun, hkey, -⟩ := h.carries f hf
    have hut : u = t := List.inj_on_of_nodup_map c.tox.numbers_nodup hu ht (hun.trans hn)
    exact ⟨f, hf, hut ▸ hkey⟩

/-- No two entries carry the same key. -/
theorem Reflects.keys_inj {c : Contacts} (h : Reflects c) {f g : FriendInfo} (hf : f ∈ c.friendsInfo)
    (hg : g ∈ c.friendsInfo) (hkey : f.toxIdBin = g.toxIdBin) : f = g := by
  obtain ⟨t, ht, htn, htk, -⟩ := h.carries f hf
  obtain ⟨u, hu, hun, huk, -⟩ := h.carries g hg
  have htu : t = u := List.inj_on_of_nodup_map c.tox.keys_nodup ht hu (by rw [← htk, ← huk, hkey])
  apply List.inj_on_of_nodup_map h.increasing.nodup hf hg
  rw [← htn, ← hun, htu]

theorem Reflects.keys_nodup {c : Contacts} (h : Reflects c) : (c.friendsInfo.map FriendInfo.toxIdBin).Nodup :=
  h.increasing.nodup.of_map.map_on fun _ hf _ hg => h.keys_inj hf hg

/-- The entries carry the keys of the friends, each once. -/
theorem Reflects.keys_perm {c : Contacts} (h : Reflects c) :
    (c.friendsInfo.map FriendInfo.toxIdBin).Perm c.tox.keys :=
  (List.perm_ext_iff_of_nodup h.keys_nodup c.tox.keys_nodup).mpr fun _ => h.mem_keys

/-- A friend with an entry that carries its key is added. -/
theorem Reflects.add {c : Contacts} (h : Reflects c) {tox : Tox} {t : ToxFriend} {f : FriendInfo}
    (htox : tox.friends = c.tox.friends ++ [t]) (hfree : t.number ∉ c.tox.numbers)
    (hf : f.friendNumber = t.number) (hkey : f.toxIdBin = t.publicKey) (hhex : f.toxIdHex = hexOf t.publicKey) :
    Reflects ⟨tox, friendInfoAddEntry c.friendsInfo f⟩ := by
  refine ⟨h.toMirror.add htox hfree hf, (carries_add h.carries htox hfree hf).mpr ⟨hkey, ?_⟩⟩
  rw [hhex, hexOf_eq]

/-- A friend is removed together with its entry. -/
theorem Reflects.remove {c : Contacts} (h : Reflects c) {f : FriendInfo} (hf : f ∈ c.friendsInfo) :
    Reflects ⟨(toxFriendDelete c.tox f.friendNumber).1, friendInfoDestroy c.friendsInfo f⟩ :=
  ⟨h.toMirror.remove hf, carries_remove h.carries h.toMirror hf⟩

/-- The keys of the friends that stay. -/
theorem Reflects.mem_keys_remove {c : Contacts} (h : Reflects c) {f : FriendInfo} (hf : f ∈ c.friendsInfo)
    {key : PublicKey} :
    key ∈ (toxFriendDelete c.tox f.friendNumber).1.keys ↔ key ∈ c.tox.keys ∧ key ≠ f.toxIdBin := by
  obtain ⟨u, hu, hun, huk, -⟩ := h.carries f hf
  simp only [Tox.keys, List.mem_map, mem_toxFriendDelete]
  constructor
  · rintro ⟨t, ⟨ht, hne⟩, rfl⟩
    refine ⟨⟨t, ht, rfl⟩, fun heq => hne ?_⟩
    have htu : t = u := List.inj_on_of_nodup_map c.tox.keys_nodup ht hu (heq.trans huk)
    rw [htu, hun]
  · rintro ⟨⟨t, ht, rfl⟩, hne⟩
    refine ⟨t, ⟨ht, fun hn => hne ?_⟩, rfl⟩
    have htu : t = u := List.inj_on_of_nodup_map c.tox.numbers_nodup ht hu (hn.trans hun.symm)
    rw [htu, huk]

/-! ### Importing -/

/-- **What `import_keys` adds** are the keys that Tox accepts, to both lists. -/
theorem importKeys_keys {hex2bin : Hex2Bin} (lines : List ImportLine) : ∀ {c : Contacts} {buf : PublicKey},
    Reflects c → ∃ c', importKeys hex2bin c buf lines = .ok c' ∧ Reflects c' ∧
      c'.tox.keys = c.tox.keys ++ acceptedKeys hex2bin c.tox buf lines := by
  induction lines with
  | nil =>
    intro c buf h
    exact ⟨c, rfl, h, by simp [acceptedKeys]⟩
  | cons line lines ih =>
    intro c buf h
    unfold acceptedKeys
    split_ifs with htext
    · rcases @importKeys_key hex2bin line htext c buf lines with
        ⟨hadd, himport⟩ | ⟨tox, t, f, hadd, htox, hfree, hkey, hf, hbin, hhex, himport⟩
      · simp only [himport, hadd]
        exact ih h
      · obtain ⟨c', hc', hr, hkeys⟩ := ih (h.add htox hfree hf hbin hhex)
        refine ⟨c', himport.trans hc', hr, ?_⟩
        have hold : tox.keys = c.tox.keys ++ [hex2bin buf (cstr line.text)] := by
          rw [Tox.keys, htox, List.map_append, List.map_cons, List.map_nil, hkey]
          rfl
        rw [hkeys, hold, List.append_assoc]
        simp only [hadd, List.singleton_append]
    · rw [importKeys, if_neg htext]
      exact ih h

/-- Tox adds a new key under a free number. -/
theorem toxFriendAddNorequest_some {tox : Tox} {key : PublicKey} {n : UInt32} (hn : n ∉ tox.numbers)
    (hkey : key ∉ tox.keys) (data : FriendData) : ∃ tox',
      toxFriendAddNorequest tox key (some (n, data)) = (tox', some n) ∧ tox'.keys = tox.keys ++ [key] := by
  refine ⟨tox.append ⟨n, key, data⟩ hn hkey, ?_, ?_⟩
  · unfold toxFriendAddNorequest
    dsimp only
    rw [dif_pos hn, dif_pos (show key ∉ tox.friends.map ToxFriend.publicKey from hkey)]
  · simp [Tox.keys, Tox.append]

/-- Tox adds no key twice. -/
theorem toxFriendAddNorequest_twice {tox : Tox} {key : PublicKey} (hkey : key ∈ tox.keys) (reply : AddReply) :
    toxFriendAddNorequest tox key reply = (tox, none) := by
  unfold toxFriendAddNorequest
  rcases reply with - | ⟨n, data⟩
  · rfl
  · have hkey' : ¬ key ∉ tox.friends.map ToxFriend.publicKey := not_not.mpr hkey
    dsimp only
    split_ifs
    · rfl
    · rfl

/-- The keys that Tox accepts, if it accepts all that it can. -/
theorem mem_acceptedKeys {hex2bin : Hex2Bin} {own : PublicKey} (lines : List ImportLine) :
    ∀ {tox : Tox} {buf : PublicKey}, AcceptsKeys hex2bin own tox buf lines → ∀ key : PublicKey,
      key ∈ acceptedKeys hex2bin tox buf lines ↔
        key ∈ fileKeys hex2bin buf (lines.map ImportLine.text) ∧ key ≠ own ∧ key ∉ tox.keys := by
  induction lines with
  | nil => simp [acceptedKeys, fileKeys]
  | cons line lines ih =>
    intro tox buf h key
    unfold AcceptsKeys at h
    rw [List.map_cons]
    unfold acceptedKeys fileKeys
    split_ifs at h ⊢ with htext
    · obtain ⟨haccept, hrefuse, h⟩ := h
      dsimp only
      generalize hex2bin buf (cstr line.text) = new at haccept hrefuse h ⊢
      by_cases hrefused : new = own ∨ new ∈ tox.keys
      · have hadd : toxFriendAddNorequest tox new line.reply = (tox, none) := by
          rcases hrefused with hown | hold
          · rw [hrefuse hown]
            rfl
          · exact toxFriendAddNorequest_twice hold line.reply
        rw [hadd] at h ⊢
        dsimp only at h ⊢
        rw [ih h, List.mem_cons]
        constructor
        · rintro ⟨hmem, hne⟩
          exact ⟨.inr hmem, hne⟩
        · rintro ⟨hmem, hne⟩
          refine ⟨hmem.resolve_left ?_, hne⟩
          rintro rfl
          exact hrefused.elim hne.1 hne.2
      obtain ⟨hown, hold⟩ := not_or.mp hrefused
      obtain ⟨n, data, hreply, hn⟩ := haccept hown hold
      obtain ⟨tox', hadd, hkeys⟩ := toxFriendAddNorequest_some hn hold data
      rw [hreply, hadd] at h
      rw [hreply, hadd]
      dsimp only at h ⊢
      rw [List.mem_cons, ih h, hkeys, List.mem_cons, List.mem_append, List.mem_singleton]
      by_cases hkey : key = new
      · subst hkey
        simp [hown, hold]
      · simp [hkey]
    · exact ih h key

/-! ### Exporting -/

/-- The loop of `export_keys`: what it writes. -/
def exportText : List FriendInfo → Except Fault Bytes
  | [] => pure []
  | f :: friendsInfo => do
    let len ← strlenAt f.toxIdHex.1 0
    let text ← exportText friendsInfo
    pure (f.toxIdHex.1.take len ++ 10 :: text)

/-- `export_keys`: what it returns, and the file afterwards. -/
def exportKeys (io : WriteIO) (friendsInfo : List FriendInfo) (old : Option Bytes) :
    Except Fault (ℤ × Option Bytes) :=
  match io with
  | .fails => pure (-1, old)
  | io => do
    let text ← exportText friendsInfo
    pure (0, (io.write old text).2)

/-- The line `export_keys` writes for a key. -/
def keyLine (key : PublicKey) : Bytes := upperHex key.1 ++ [10]

theorem cstr_keyLine (key : PublicKey) : cstr (keyLine key) = keyLine key := by
  apply cstr_of_notMem
  rw [keyLine, List.mem_append, not_or]
  exact ⟨notMem_upperHex (by decide) key.1, by decide⟩

theorem spells_keyLine (key : PublicKey) : Spells (keyLine key) key := by
  have hlen : (upperHex key.1).length = TOX_PUBLIC_KEY_SIZE * 2 := by rw [length_upperHex, key.2]
  refine ⟨?_, ?_⟩
  · rw [isPublickeyLine, cstr_keyLine, keyLine, List.length_append, hlen]
    decide
  · rw [cstr_keyLine, keyLine, List.take_left' hlen]

/-- Entries that carry their keys give a line for each. -/
theorem exportText_eq {tox : Tox} {friendsInfo : List FriendInfo} (h : ∀ f ∈ friendsInfo, CarriesKey tox f) :
    exportText friendsInfo = .ok ((friendsInfo.map FriendInfo.toxIdBin).flatMap keyLine) := by
  induction friendsInfo with
  | nil => rfl
  | cons f friendsInfo ih =>
    rw [List.forall_mem_cons] at h
    obtain ⟨t, -, -, hkey, hhex⟩ := h.1
    have hcstr : cstr (f.toxIdHex.1.drop 0) = upperHex t.publicKey.1 := by
      rw [List.drop_zero, hhex]
      exact cstr_append_nul (notMem_upperHex (by decide) _) []
    have hlen : strlenAt f.toxIdHex.1 0 = .ok (upperHex t.publicKey.1).length := by
      rw [strlenAt, if_pos (by rw [List.drop_zero, hhex]; simp), hcstr]
    rw [exportText, hlen, ok_bind, ih h.2, ok_bind, hhex, List.take_left, List.map_cons, List.flatMap_cons, hkey]
    simp [keyLine]

theorem getlines_keyLines (keys : List PublicKey) : getlines (keys.flatMap keyLine) = keys.map keyLine := by
  induction keys with
  | nil => rfl
  | cons key keys ih =>
    have hline : keyLine key ++ keys.flatMap keyLine = upperHex key.1 ++ 10 :: keys.flatMap keyLine := by
      simp [keyLine]
    rw [List.flatMap_cons, hline, getlines_append (notMem_upperHex (by decide) key.1), ih]
    rfl

/-- What was written for keys is decoded to them. -/
theorem fileKeys_keyLines {hex2bin : Hex2Bin} (hhex : DecodesHex hex2bin) (keys : List PublicKey) :
    ∀ buf, fileKeys hex2bin buf (keys.map keyLine) = keys := by
  induction keys with
  | nil =>
    intro buf
    rfl
  | cons key keys ih =>
    intro buf
    have hspells := spells_keyLine key
    rw [List.map_cons, fileKeys, if_pos hspells.1, hhex, hspells.decode buf, ih]

theorem reflects_empty : Reflects ⟨.empty, []⟩ :=
  ⟨⟨.nil, fun n => by simp [Tox.empty, Tox.numbers]⟩, fun f hf => absurd hf List.not_mem_nil⟩

/-- **Exporting and importing** moves the keys of the friends to a profile without friends, each
once, if Tox accepts the keys and none is its own. -/
theorem imported_keys_exported {hex2bin : Hex2Bin} (hhex : DecodesHex hex2bin) {c : Contacts} (hc : Reflects c)
    (old : Option Bytes) {own : PublicKey} (hown : own ∉ c.tox.keys) (buf : PublicKey) :
    ∃ file, exportKeys .complete c.friendsInfo old = .ok (0, some file) ∧
      ∀ lines : List ImportLine, lines.map ImportLine.text = getlines file →
        AcceptsKeys hex2bin own .empty buf lines →
          ∃ c', importKeys hex2bin ⟨.empty, []⟩ buf lines = .ok c' ∧ Reflects c' ∧
            c'.tox.keys.Perm c.tox.keys ∧ (c'.friendsInfo.map FriendInfo.toxIdBin).Perm c.tox.keys := by
  refine ⟨(c.friendsInfo.map FriendInfo.toxIdBin).flatMap keyLine, ?_, fun lines htexts haccepts => ?_⟩
  · change (exportText c.friendsInfo >>= fun text => pure (0, some text)) = _
    rw [exportText_eq hc.carries]
    rfl
  · obtain ⟨c', himport, hr, hkeys⟩ := importKeys_keys lines reflects_empty
    have hmem (key : PublicKey) : key ∈ c'.tox.keys ↔ key ∈ c.tox.keys := by
      rw [getlines_keyLines] at htexts
      have hnone : key ∉ Tox.empty.keys := List.not_mem_nil
      rw [hkeys, List.mem_append, mem_acceptedKeys lines haccepts, htexts, fileKeys_keyLines hhex, hc.mem_keys]
      constructor
      · rintro (h | ⟨h, -⟩)
        · exact absurd h hnone
        · exact h
      · intro h
        refine .inr ⟨h, ?_, hnone⟩
        rintro rfl
        exact hown h
    have hperm : c'.tox.keys.Perm c.tox.keys :=
      (List.perm_ext_iff_of_nodup c'.tox.keys_nodup c.tox.keys_nodup).mpr hmem
    exact ⟨c', himport, hr, hperm, hr.keys_perm.trans hperm⟩

/-- The entry of the friend with this number and key. -/
def keyEntry (friendNumber : UInt32) (key : PublicKey) : FriendInfo :=
  { zeroEntry with friendNumber, toxIdBin := key, toxIdHex := hexOf key }

/-- The entries of two friends. -/
def twoKeyEntries : List FriendInfo := [keyEntry 0 (someKey 1), keyEntry 1 (someKey 2)]

theorem reflects_twoFriends : Reflects ⟨twoFriends, twoKeyEntries⟩ where
  increasing := List.pairwise_pair.mpr (by decide)
  numbers n := by simp [twoFriends, twoKeyEntries, Tox.numbers, keyEntry, zeroEntry]
  carries f hf := by
    rcases List.mem_cons.mp hf with rfl | hf
    · exact ⟨_, List.mem_cons_self, rfl, rfl, hexOf_eq (someKey 1)⟩
    · rw [List.mem_singleton.mp hf]
      exact ⟨_, List.mem_cons_of_mem _ (List.mem_singleton.mpr rfl), rfl, rfl, hexOf_eq (someKey 2)⟩

/-- A profile with two friends, whose numbers are given anew. -/
theorem imported_keys_exported_two :
    ∃ file c', exportKeys .complete twoKeyEntries none = .ok (0, some file) ∧
      importKeys hexInto ⟨.empty, []⟩ (someKey 0) [⟨keyLine (someKey 1), some (1, unseen), zeroEntry⟩,
        ⟨keyLine (someKey 2), some (0, unseen), zeroEntry⟩] = .ok c' ∧
      c'.tox.keys.Perm [someKey 1, someKey 2] ∧
      (c'.friendsInfo.map FriendInfo.toxIdBin).Perm [someKey 1, someKey 2] := by
  obtain ⟨file, hexport, himport⟩ := imported_keys_exported (fun _ _ => rfl) reflects_twoFriends none
    (show someKey 3 ∉ twoFriends.keys by decide) (someKey 0)
  have hfile : exportKeys .complete twoKeyEntries none =
      .ok (0, some (keyLine (someKey 1) ++ keyLine (someKey 2))) := by decide +kernel
  have heq : file = keyLine (someKey 1) ++ keyLine (someKey 2) := by
    rw [hfile] at hexport
    cases hexport
    rfl
  obtain ⟨c', hc', -, hkeys, hentries⟩ := himport [⟨keyLine (someKey 1), some (1, unseen), zeroEntry⟩,
      ⟨keyLine (someKey 2), some (0, unseen), zeroEntry⟩] (by rw [heq]; decide) (by
    unfold AcceptsKeys
    rw [if_pos (by decide)]
    refine ⟨fun _ _ => ⟨1, unseen, rfl, by decide⟩, fun h => absurd h (by decide), ?_⟩
    unfold AcceptsKeys
    rw [if_pos (by decide)]
    exact ⟨fun _ _ => ⟨0, unseen, rfl, by decide⟩, fun h => absurd h (by decide), trivial⟩)
  exact ⟨file, c', hexport, hc', hkeys, hentries⟩

/-! ### Removing -/

/-- What `friend_info_by_public_keyhex` compares. -/
theorem strncmpEq_iff_spells {tox : Tox} {f : FriendInfo} (hf : CarriesKey tox f) {text : Bytes}
    (htext : isPublickeyLine text = true) :
    strncmpEq f.toxIdHex.1 text (TOX_PUBLIC_KEY_SIZE * 2) = true ↔ Spells text f.toxIdBin := by
  obtain ⟨t, -, -, hkey, hhex⟩ := hf
  have hcstr : cstr f.toxIdHex.1 = upperHex f.toxIdBin.1 := by
    rw [hhex, hkey]
    exact cstr_append_nul (notMem_upperHex (by decide) _) []
  have hlen : (upperHex f.toxIdBin.1).length = TOX_PUBLIC_KEY_SIZE * 2 := by
    rw [length_upperHex, f.toxIdBin.2]
  rw [strncmpEq, hcstr, List.take_of_length_le hlen.le, beq_iff_eq, Spells]
  constructor
  · intro h
    exact ⟨htext, h.symm⟩
  · rintro ⟨-, h⟩
    exact h.symm

/-- **What `remove_keys` does with a line**: the friend whose key it spells in upper case goes. -/
theorem removeKey_keys {c : Contacts} (h : Reflects c) (text : Bytes) :
    Reflects (removeKey c text) ∧
      ∀ key : PublicKey, key ∈ (removeKey c text).tox.keys ↔ key ∈ c.tox.keys ∧ ¬ Spells text key := by
  unfold removeKey
  split_ifs with htext
  · cases hf : friendInfoByPublicKeyhex c.friendsInfo text with
    | none =>
      refine ⟨h, fun key => ⟨fun hkey => ⟨hkey, fun hspells => ?_⟩, And.left⟩⟩
      obtain ⟨f, hmem, rfl⟩ := List.mem_map.mp (h.mem_keys.mpr hkey)
      exact List.find?_eq_none.mp hf f hmem ((strncmpEq_iff_spells (h.carries f hmem) htext).mpr hspells)
    | some f =>
      have hmem : f ∈ c.friendsInfo := List.mem_of_find?_eq_some hf
      have hspells : Spells text f.toxIdBin := by
        apply (strncmpEq_iff_spells (h.carries f hmem) htext).mp
        unfold friendInfoByPublicKeyhex at hf
        simpa only using List.find?_some hf
      have hn : f.friendNumber ∈ c.tox.numbers := (h.numbers _).mp (List.mem_map_of_mem hmem)
      have hdelete : toxFriendDelete c.tox f.friendNumber =
          ((toxFriendDelete c.tox f.friendNumber).1, true) := by
        simp only [toxFriendDelete, if_pos hn]
      dsimp only
      rw [hdelete]
      refine ⟨h.remove hmem, fun key => ?_⟩
      dsimp only
      rw [h.mem_keys_remove hmem]
      refine and_congr_right fun _ => not_congr ⟨?_, fun hkey => ?_⟩
      · rintro rfl
        exact hspells
      · exact Subtype.ext (upperHex_injective (hkey.2.symm.trans hspells.2))
  · exact ⟨h, fun key => ⟨fun hkey => ⟨hkey, fun hspells => htext hspells.1⟩, And.left⟩⟩

/-- **What `remove_keys` removes** are the friends whose keys the lines spell in upper case. -/
theorem removeKeys_keys (texts : List Bytes) : ∀ {c : Contacts}, Reflects c →
    Reflects (removeKeys c texts) ∧ ∀ key : PublicKey, key ∈ (removeKeys c texts).tox.keys ↔
      key ∈ c.tox.keys ∧ ∀ text ∈ texts, ¬ Spells text key := by
  induction texts with
  | nil =>
    intro c h
    exact ⟨h, by simp [removeKeys]⟩
  | cons text texts ih =>
    intro c h
    obtain ⟨h₁, hkeys₁⟩ := removeKey_keys h text
    obtain ⟨h₂, hkeys₂⟩ := ih h₁
    refine ⟨h₂, fun key => ?_⟩
    rw [List.forall_mem_cons, ← and_assoc, ← hkeys₁]
    exact hkeys₂ key

/-- Both lists have the keys they had before. -/
structure SameKeys (c c' : Contacts) : Prop where
  tox : ∀ key, key ∈ c'.tox.keys ↔ key ∈ c.tox.keys
  entries : ∀ key, key ∈ c'.friendsInfo.map FriendInfo.toxIdBin ↔
    key ∈ c.friendsInfo.map FriendInfo.toxIdBin

/-- **Removing a key file undoes importing it** if and only if every key of the file that Tox accepts
is spelled in upper case by a line of the file. -/
theorem remove_undoes_import_iff {hex2bin : Hex2Bin} (hhex : DecodesHex hex2bin) {c : Contacts}
    (hc : Reflects c) (buf : PublicKey) {file : Bytes} {lines : List ImportLine}
    (htexts : lines.map ImportLine.text = getlines file)
    (hnew : ∀ key ∈ fileKeys hex2bin buf (lines.map ImportLine.text), key ∉ c.tox.keys) :
    ∃ c', importKeys hex2bin c buf lines = .ok c' ∧
      (SameKeys c (removeKeys c' (getlines file)) ↔
        ∀ key ∈ acceptedKeys hex2bin c.tox buf lines, ∃ text ∈ getlines file, Spells text key) := by
  obtain ⟨c', himport, hr', hkeys'⟩ := @importKeys_keys hex2bin lines c buf hc
  obtain ⟨hr'', hkeys''⟩ := removeKeys_keys (getlines file) hr'
  refine ⟨c', himport, ?_⟩
  have hmem (key : PublicKey) : key ∈ (removeKeys c' (getlines file)).tox.keys ↔
      (key ∈ c.tox.keys ∨ key ∈ acceptedKeys hex2bin c.tox buf lines) ∧
        ∀ text ∈ getlines file, ¬ Spells text key := by
    rw [hkeys'', hkeys', List.mem_append]
  -- what Tox accepts is new, and what a line spells is decoded from it
  have hfresh : ∀ key ∈ acceptedKeys hex2bin c.tox buf lines, key ∉ c.tox.keys := by
    intro key hkey hold
    have hnodup : (c.tox.keys ++ acceptedKeys hex2bin c.tox buf lines).Nodup := by
      rw [← hkeys']
      exact c'.tox.keys_nodup
    exact (List.nodup_append.mp hnodup).2.2 key hold key hkey rfl
  have hspelled : ∀ key ∈ c.tox.keys, ∀ text ∈ getlines file, ¬ Spells text key := by
    intro key hkey text htext hspells
    rw [htexts] at hnew
    exact hnew key (hspells.mem_fileKeys hhex buf htext) hkey
  constructor
  · intro hsame key hkey
    by_contra hnone
    push Not at hnone
    exact hfresh key hkey ((hsame.tox key).mp ((hmem key).mpr ⟨.inr hkey, hnone⟩))
  · intro hall
    have htox (key : PublicKey) : key ∈ (removeKeys c' (getlines file)).tox.keys ↔ key ∈ c.tox.keys := by
      rw [hmem]
      constructor
      · rintro ⟨hkey | hkey, hnone⟩
        · exact hkey
        · obtain ⟨text, htext, hspells⟩ := hall key hkey
          exact absurd hspells (hnone text htext)
      · intro hkey
        exact ⟨.inl hkey, hspelled key hkey⟩
    refine ⟨htox, fun key => ?_⟩
    rw [hr''.mem_keys, hc.mem_keys]
    exact htox key

/-- A key file of two lines in upper case, with keys that are new, imported beside two friends. -/
theorem remove_undoes_import_upper :
    ∃ c', importKeys hexInto ⟨twoFriends, twoKeyEntries⟩ (someKey 0)
        [⟨keyLine (someKey 170), some (2, unseen), zeroEntry⟩,
          ⟨keyLine (someKey 187), some (3, unseen), zeroEntry⟩] = .ok c' ∧
      SameKeys ⟨twoFriends, twoKeyEntries⟩
        (removeKeys c' (getlines (keyLine (someKey 170) ++ keyLine (someKey 187)))) := by
  obtain ⟨c', himport, hiff⟩ := @remove_undoes_import_iff hexInto (fun _ _ => rfl) _ reflects_twoFriends
    (someKey 0) (keyLine (someKey 170) ++ keyLine (someKey 187))
    [⟨keyLine (someKey 170), some (2, unseen), zeroEntry⟩, ⟨keyLine (someKey 187), some (3, unseen), zeroEntry⟩]
    (by decide) (by decide)
  refine ⟨c', himport, hiff.mpr fun key hkey => ⟨keyLine key, ?_, spells_keyLine key⟩⟩
  have htwo : acceptedKeys hexInto twoFriends (someKey 0)
      [⟨keyLine (someKey 170), some (2, unseen), zeroEntry⟩,
        ⟨keyLine (someKey 187), some (3, unseen), zeroEntry⟩] = [someKey 170, someKey 187] := by decide
  rw [htwo] at hkey
  rcases List.mem_cons.mp hkey with rfl | hkey
  · decide
  · rw [List.mem_singleton.mp hkey]
    decide

/-- The key of 32 bytes `aa`, in lower case. -/
def lowerLine : Bytes := List.replicate (TOX_PUBLIC_KEY_SIZE * 2) 97 ++ [10]

/-- A line in lower case is imported and not removed. -/
theorem lower_case_stays :
    ∃ c', importKeys hexInto ⟨.empty, []⟩ (someKey 0) [⟨lowerLine, some (0, unseen), zeroEntry⟩] = .ok c' ∧
      getlines lowerLine = [lowerLine] ∧ ¬ SameKeys ⟨.empty, []⟩ (removeKeys c' [lowerLine]) := by
  refine ⟨_, rfl, by decide, fun h => ?_⟩
  have hgone := (h.tox (someKey 170)).mp (by decide)
  exact absurd hgone (by decide)

end ToxSuite.Friend
