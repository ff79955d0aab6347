import ToxSuite.Friend.Keys

/-!
# What `import_keys` adds

A key file has a key in each line, 64 hexadecimal digits. `import_keys` looks at the
length of a line only and does not ask `sodium_hex2bin` whether it found digits. A line
of the right length with another character in it gives Tox the bytes before that
character, and after them what the buffer held, from the line before or from the stack.

So the keys passed to `tox_friend_add_norequest` are those written in the file if and only
if every line of the right length writes a key (`import_adds_written_iff`).
-/

namespace ToxSuite.Friend

open ToxSuite.Lib

/-! ### The keys passed to Tox -/

section

variable (hex2bin : Hex2Bin)

/-- `import_keys`, and the keys it passes to `tox_friend_add_norequest`, each with its line. -/
def importKeysPassing (c : Contacts) (toxIdBin : PublicKey) :
    List ImportLine → Except Fault (Contacts × List (Bytes × PublicKey))
  | [] => pure (c, [])
  | line :: lines =>
    if isPublickeyLine line.text then
      let toxIdBin := hex2bin toxIdBin (cstr line.text)
      match toxFriendAddNorequest c.tox toxIdBin line.reply with
      | (tox, none) => do
        let (c, passed) ← importKeysPassing { c with tox } toxIdBin lines
        pure (c, (line.text, toxIdBin) :: passed)
      | (tox, some friendNumber) => do
        let f := FriendInfo.init line.heap friendNumber
        let f ← friendInfoUpdate tox { f with name := some (ascii "_IMPORTED_KEY_") }
        let (c, passed) ← importKeysPassing ⟨tox, friendInfoAddEntry c.friendsInfo f⟩ toxIdBin lines
        pure (c, (line.text, toxIdBin) :: passed)
    else importKeysPassing c toxIdBin lines

/-- The keys of `fileKeys`, each with its line. -/
def passedKeys (buf : PublicKey) : List Bytes → List (Bytes × PublicKey)
  | [] => []
  | text :: texts =>
    if isPublickeyLine text then
      (text, hex2bin buf (cstr text)) :: passedKeys (hex2bin buf (cstr text)) texts
    else passedKeys buf texts

variable {hex2bin}

/-- **What is passed**: a key for every line of the right length. -/
theorem importKeysPassing_eq (lines : List ImportLine) : ∀ (c : Contacts) (buf : PublicKey),
    importKeysPassing hex2bin c buf lines =
      (importKeys hex2bin c buf lines).map (·, passedKeys hex2bin buf (lines.map ImportLine.text)) := by
  induction lines with
  | nil => intro c buf; rfl
  | cons line lines ih =>
    intro c buf
    rw [List.map_cons]
    unfold importKeysPassing importKeys passedKeys
    split_ifs with htext
    · dsimp only
      rcases hadd : toxFriendAddNorequest c.tox (hex2bin buf (cstr line.text)) line.reply with ⟨tox, - | n⟩
      · simp only [ih]
        cases importKeys hex2bin ⟨tox, c.friendsInfo⟩ (hex2bin buf (cstr line.text)) lines <;> rfl
      · simp only [ih]
        cases friendInfoUpdate tox _ with
        | error e => rfl
        | ok f =>
          simp only [ok_bind]
          cases importKeys hex2bin ⟨tox, friendInfoAddEntry c.friendsInfo f⟩ (hex2bin buf (cstr line.text)) lines <;>
            rfl
    · exact ih c buf

/-- A key is passed for the lines of the right length and for no others. -/
theorem mem_passedKeys {text : Bytes} (texts : List Bytes) : ∀ {buf : PublicKey},
    (∃ key, (text, key) ∈ passedKeys hex2bin buf texts) ↔ text ∈ texts ∧ isPublickeyLine text = true := by
  induction texts with
  | nil => intro buf; simp [passedKeys]
  | cons line texts ih =>
    intro buf
    unfold passedKeys
    split_ifs with hline
    · simp only [List.mem_cons, exists_or, Prod.mk.injEq, ih, or_and_right]
      refine or_congr ⟨?_, ?_⟩ Iff.rfl
      · rintro ⟨-, rfl, -⟩
        exact ⟨rfl, hline⟩
      · rintro ⟨rfl, -⟩
        exact ⟨_, rfl, rfl⟩
    · rw [ih, List.mem_cons]
      constructor
      · rintro ⟨hmem, htext⟩
        exact ⟨.inr hmem, htext⟩
      · rintro ⟨rfl | hmem, htext⟩
        · exact absurd htext hline
        · exact ⟨hmem, htext⟩

/-- What is passed for a line was decoded from it, into whatever the buffer held. -/
theorem exists_of_mem_passedKeys {text : Bytes} {key : PublicKey} (texts : List Bytes) : ∀ {buf : PublicKey},
    (text, key) ∈ passedKeys hex2bin buf texts → ∃ buf', key = hex2bin buf' (cstr text) := by
  induction texts with
  | nil => intro buf h; cases h
  | cons line texts ih =>
    intro buf h
    unfold passedKeys at h
    split_ifs at h
    · rcases List.mem_cons.mp h with heq | h
      · cases heq
        exact ⟨buf, rfl⟩
      · exact ih h
    · exact ih h

end

/-- The loop comes to its end. -/
theorem importKeys_isOk {hex2bin : Hex2Bin} (lines : List ImportLine) : ∀ (c : Contacts) (buf : PublicKey),
    ∃ c', importKeys hex2bin c buf lines = .ok c' := by
  induction lines with
  | nil => intro c buf; exact ⟨c, rfl⟩
  | cons line lines ih =>
    intro c buf
    by_cases htext : isPublickeyLine line.text = true
    · rcases @importKeys_key hex2bin line htext c buf lines with ⟨-, h⟩ | ⟨_, _, _, -, -, -, -, -, -, -, h⟩
      · rw [h]
        exact ih _ _
      · rw [h]
        exact ih _ _
    · rw [importKeys, if_neg htext]
      exact ih _ _

/-! ### Lines that write a key -/

/-- The line is 64 hexadecimal digits and a newline, and the digits are those of the key. -/
def WritesKey (text : Bytes) (key : PublicKey) : Prop :=
  ∃ digits, text = digits ++ [10] ∧ digits.length = TOX_PUBLIC_KEY_SIZE * 2 ∧
    (∀ c ∈ digits, (hexVal c).isSome) ∧ decodeHex digits = key.1

/-- Pairs of digits are decoded, and the decoding goes on after them. -/
theorem decodeHex_append {n : ℕ} : ∀ {digits : Bytes} (rest : Bytes), digits.length = n * 2 →
    (∀ c ∈ digits, (hexVal c).isSome) →
      (decodeHex digits).length = n ∧ decodeHex (digits ++ rest) = decodeHex digits ++ decodeHex rest := by
  induction n with
  | zero =>
    intro digits rest hlen _
    cases List.length_eq_zero_iff.mp (by omega : digits.length = 0)
    exact ⟨rfl, rfl⟩
  | succ n ih =>
    intro digits rest hlen hdigits
    rw [Nat.succ_mul] at hlen
    obtain ⟨a, digits, rfl⟩ := List.exists_cons_of_length_eq_add_one hlen
    obtain ⟨b, digits, rfl⟩ := List.exists_cons_of_length_eq_add_one (Nat.succ.inj hlen)
    rw [List.forall_mem_cons, List.forall_mem_cons] at hdigits
    obtain ⟨x, hx⟩ := Option.isSome_iff_exists.mp hdigits.1
    obtain ⟨y, hy⟩ := Option.isSome_iff_exists.mp hdigits.2.1
    obtain ⟨hlen', happend⟩ := ih rest (Nat.succ.inj (Nat.succ.inj hlen)) hdigits.2.2
    simp only [List.cons_append, decodeHex, hx, hy, happend, List.length_cons, hlen', and_self]

/-- A line that writes a key has the right length, and whoever reads it decodes the key. -/
theorem WritesKey.reads {text : Bytes} {key : PublicKey} (h : WritesKey text key) :
    isPublickeyLine text = true ∧ ∀ buf, hexInto buf (cstr text) = key := by
  obtain ⟨digits, rfl, hlen, hdigits, hkey⟩ := h
  have hnul : (0 : UInt8) ∉ digits ++ [10] := by
    rw [List.mem_append, not_or]
    refine ⟨fun hmem => ?_, by decide⟩
    exact absurd (hdigits 0 hmem) (by decide)
  rw [isPublickeyLine, cstr_of_notMem hnul]
  refine ⟨by simp [hlen], fun buf => hexInto_eq ?_⟩
  rw [(decodeHex_append [10] hlen hdigits).2, hkey, List.take_left' key.2]

/-- A line that `export_keys` writes is one. -/
theorem writesKey_keyLine (key : PublicKey) : WritesKey (keyLine key) key := by
  refine ⟨upperHex key.1, rfl, ?_, fun c hc => ?_, ?_⟩
  · rw [length_upperHex, key.2]
  · exact Option.isSome_iff_exists.mpr (hexVal_of_mem_upperHex hc)
  · have h := decodeHex_upperHex key.1 []
    rw [List.append_nil] at h
    rw [h]
    exact List.append_nil _

/-! ### The keys of a file -/

/-- The keys passed to Tox are those written in the file, and no other line has one passed. -/
structure PassesWritten (passed : List (Bytes × PublicKey)) (texts : List Bytes) : Prop where
  keys : ∀ key, key ∈ passed.map Prod.snd ↔ ∃ text ∈ texts, WritesKey text key
  lines : ∀ text key, (text, key) ∈ passed → ∃ key, WritesKey text key

/-- `import_keys` adds the keys written in the file. -/
def AddsWritten (hex2bin : Hex2Bin) (c : Contacts) (buf : PublicKey) (lines : List ImportLine) : Prop :=
  ∃ c' passed, importKeysPassing hex2bin c buf lines = .ok (c', passed) ∧
    PassesWritten passed (lines.map ImportLine.text)

/-- **`import_keys` adds the keys written in the file** if and only if every line that has the
length of a key writes one. -/
theorem import_adds_written_iff {hex2bin : Hex2Bin} (hhex : DecodesHex hex2bin) (c : Contacts) (buf : PublicKey)
    (lines : List ImportLine) :
    AddsWritten hex2bin c buf lines ↔
      ∀ line ∈ lines, isPublickeyLine line.text = true → ∃ key, WritesKey line.text key := by
  obtain ⟨c', himport⟩ := importKeys_isOk lines c buf
  have hpassing : importKeysPassing hex2bin c buf lines =
      .ok (c', passedKeys hex2bin buf (lines.map ImportLine.text)) := by
    rw [importKeysPassing_eq, himport]
    rfl
  constructor
  · rintro ⟨c'', passed, h, hwritten⟩ line hline htext
    cases hpassing.symm.trans h
    obtain ⟨key, hkey⟩ := (mem_passedKeys _).mpr ⟨List.mem_map_of_mem hline, htext⟩
    exact hwritten.lines line.text key hkey
  · intro h
    refine ⟨c', _, hpassing, fun key => ⟨fun hkey => ?_, ?_⟩, fun text key hkey => ?_⟩
    · obtain ⟨⟨text, key⟩, hpassed, rfl⟩ := List.mem_map.mp hkey
      obtain ⟨hmem, htext⟩ := (mem_passedKeys _).mp ⟨key, hpassed⟩
      obtain ⟨line, hline, rfl⟩ := List.mem_map.mp hmem
      obtain ⟨key', hwrites⟩ := h line hline htext
      -- whatever the buffer held, the key that was passed is the one the line writes
      obtain ⟨buf', rfl⟩ := exists_of_mem_passedKeys _ hpassed
      refine ⟨line.text, hmem, ?_⟩
      rw [hhex, hwrites.reads.2 buf']
      exact hwrites
    · rintro ⟨text, hmem, hwrites⟩
      obtain ⟨key', hpassed⟩ := (@mem_passedKeys hex2bin text _ _).mpr ⟨hmem, hwrites.reads.1⟩
      obtain ⟨buf', rfl⟩ := exists_of_mem_passedKeys _ hpassed
      rw [hhex, hwrites.reads.2 buf'] at hpassed
      exact List.mem_map_of_mem hpassed
    · obtain ⟨hmem, htext⟩ := (mem_passedKeys _).mp ⟨key, hkey⟩
      obtain ⟨line, hline, rfl⟩ := List.mem_map.mp hmem
      exact h line hline htext

/-- Two keys in upper case, with a line between them that is too short. -/
theorem import_adds_written_upper :
    AddsWritten hexInto ⟨.empty, []⟩ (someKey 0) [⟨keyLine (someKey 170), some (0, unseen), zeroEntry⟩,
      ⟨ascii "AB" ++ [10], some (1, unseen), zeroEntry⟩, ⟨keyLine (someKey 187), some (1, unseen), zeroEntry⟩] := by
  refine (import_adds_written_iff (fun _ _ => rfl) _ _ _).mpr fun line hline htext => ?_
  simp only [List.mem_cons, List.not_mem_nil, or_false] at hline
  rcases hline with rfl | rfl | rfl
  · exact ⟨someKey 170, writesKey_keyLine _⟩
  · exact absurd htext (by decide)
  · exact ⟨someKey 187, writesKey_keyLine _⟩

/-- 16 bytes `11`, and then no digits. -/
def brokenLine : Bytes := List.replicate 32 49 ++ List.replicate 32 103 ++ [10]

/-- The key of 16 bytes `11` and 16 bytes `aa`. -/
def mixedKey : PublicKey := ⟨List.replicate 16 17 ++ List.replicate 16 170, by decide⟩

/-- A line that is no key, after one that is: a key made of both is passed to Tox. -/
theorem broken_line_passed :
    ∃ c', importKeysPassing hexInto ⟨.empty, []⟩ (someKey 0)
        [⟨keyLine (someKey 170), some (0, unseen), zeroEntry⟩, ⟨brokenLine, some (1, unseen), zeroEntry⟩] =
          .ok (c', [(keyLine (someKey 170), someKey 170), (brokenLine, mixedKey)]) ∧
      ¬ AddsWritten hexInto ⟨.empty, []⟩ (someKey 0)
        [⟨keyLine (someKey 170), some (0, unseen), zeroEntry⟩, ⟨brokenLine, some (1, unseen), zeroEntry⟩] := by
  have hpassing : ∃ c', importKeysPassing hexInto ⟨.empty, []⟩ (someKey 0)
      [⟨keyLine (someKey 170), some (0, unseen), zeroEntry⟩, ⟨brokenLine, some (1, unseen), zeroEntry⟩] =
        .ok (c', [(keyLine (someKey 170), someKey 170), (brokenLine, mixedKey)]) := ⟨_, rfl⟩
  obtain ⟨c', hpassing⟩ := hpassing
  refine ⟨c', hpassing, ?_⟩
  rintro ⟨c'', passed, h, hwritten⟩
  cases hpassing.symm.trans h
  obtain ⟨key, digits, heq, -, hdigits, -⟩ := hwritten.lines brokenLine mixedKey (by simp)
  have hmem : (103 : UInt8) ∈ digits ++ [10] := by
    rw [← heq]
    decide
  rcases List.mem_append.mp hmem with h | h
  · exact absurd (hdigits 103 h) (by decide)
  · exact absurd h (by decide)

end ToxSuite.Friend
