import ToxSuite.Lib.CText

/-!
# `toxdata.c`: the profile on disk

`save_profile` writes what `tox_get_savedata` returns to the profile, encrypted if
there is a passphrase, and `load_profile` reads it back and hands it to `tox_new`.
The encryption is `toxencryptsave`'s, a parameter here (`Encryption`), of which the
program can rely on `Encryption.Lawful`.

`save_profile` truncates the old profile when it opens it and does not ask how much `fwrite`
wrote. It is all or nothing, and honest about it, if and only if the disk takes all the
bytes there are to write (`save_all_or_nothing_iff`).

`load_profile` announces the size of the file as the size of the savedata. That is
right for a clear profile; after a decryption the last
`TOX_PASS_ENCRYPTION_EXTRA_LENGTH` bytes of the buffer were never written. So
`tox_new` gets what was saved, and no more, if and only if there is no passphrase
(`profile_round_trip_iff`).
-/

namespace ToxSuite.Profile

open ToxSuite.Lib

/-- `TOX_PASS_ENCRYPTION_EXTRA_LENGTH`. -/
abbrev TOX_PASS_ENCRYPTION_EXTRA_LENGTH : ℕ := 80

/-- `TOX_ERR_ENCRYPTION`, without `TOX_ERR_ENCRYPTION_OK`. -/
inductive EncryptionError where
  | null
  | keyDerivationFailed
  | failed
  deriving DecidableEq

/-- The value of the enumerator. -/
def EncryptionError.code : EncryptionError → ℤ
  | .null => 1
  | .keyDerivationFailed => 2
  | .failed => 3

/-- `toxencryptsave`. -/
structure Encryption where
  /-- `tox_pass_encrypt`, with the salt it draws. -/
  encrypt : Bytes → Bytes → CStr → Except EncryptionError Bytes
  /-- `tox_pass_decrypt`; `none` is an error. -/
  decrypt : Bytes → CStr → Option Bytes
  /-- `tox_is_data_encrypted`. -/
  isEncrypted : Bytes → Bool

/-- What `toxencryptsave` documents. -/
structure Encryption.Lawful (enc : Encryption) : Prop where
  inverts : ∀ salt d p c, enc.encrypt salt d p = .ok c → enc.decrypt c p = some d
  extra : ∀ salt d p c, enc.encrypt salt d p = .ok c → c.length = d.length + TOX_PASS_ENCRYPTION_EXTRA_LENGTH
  recognises : ∀ c, enc.isEncrypted c ↔ ∃ salt d p, enc.encrypt salt d p = .ok c

variable (enc : Encryption)

/-- `save_profile` on what `tox_get_savedata` returns: what it returns, and the profile
afterwards. -/
def saveProfile (io : WriteIO) (savedata : Bytes) (passphrase : Option CStr) (salt : Bytes)
    (old : Option Bytes) : ℤ × Option Bytes :=
  let data : Except EncryptionError Bytes := match passphrase with
    | none => .ok savedata
    | some p => enc.encrypt salt savedata p
  match data with
  | .error err => (err.code, old)
  | .ok data =>
    match io.write old data with
    | (false, file) => (-1, file)
    | (true, file) => (0, file)

/-- What `load_profile` sets of `struct Tox_Options`. -/
structure ToxOptions where
  /-- What `savedata_data` points to. -/
  savedataData : Bytes
  savedataLength : ℕ
  deriving DecidableEq

/-- How reading the profile comes out. -/
inductive ReadIO where
  /-- `stat` fails. -/
  | noStat
  /-- `fread` returns less than the file. -/
  | short
  | complete
  deriving DecidableEq

/-- `EXIT_FAILURE`. -/
abbrev EXIT_FAILURE : ℤ := 1

/-- `tox_new` on the options, as `load_profile` ends. -/
def startTox (toxNew : ToxOptions → Bool) (options : ToxOptions) : ℤ × Option ToxOptions :=
  (if toxNew options then 0 else EXIT_FAILURE, some options)

/-- `load_profile`: what it returns, and the options it calls `tox_new` with, if it does.
`heap` is what the buffer for the clear data held before, and `toxNew` whether `tox_new`
succeeds. -/
def loadProfile (io : ReadIO) (heap : ℕ → UInt8) (toxNew : ToxOptions → Bool) (file : Option Bytes)
    (passphrase : Option CStr) : Except Fault (ℤ × Option ToxOptions) :=
  match file, io with
  | none, _ => pure (-1, none)
  | some _, .noStat => pure (-1, none)
  | some _, .short => pure (EXIT_FAILURE, none)
  | some data, .complete =>
    let fileSize := data.length
    if enc.isEncrypted data then
      match passphrase with
      | none => pure (EXIT_FAILURE, none)
      | some p =>
        match enc.decrypt data p with
        | none => pure (EXIT_FAILURE, none)
        | some clear => do
          let cypherData ← poke ((List.range fileSize).map heap) 0 clear
          pure (startTox toxNew ⟨cypherData, fileSize⟩)
    else pure (startTox toxNew ⟨data, fileSize⟩)

variable {enc}

/-- What a save that returns `0` with all bytes written leaves on disk. -/
theorem saveProfile_complete {savedata salt : Bytes} {passphrase : Option CStr} {old file : Option Bytes}
    (h : saveProfile enc .complete savedata passphrase salt old = (0, file)) :
    (passphrase = none ∧ file = some savedata) ∨
      ∃ p c, passphrase = some p ∧ enc.encrypt salt savedata p = .ok c ∧ file = some c := by
  cases passphrase with
  | none =>
    cases h
    exact .inl ⟨rfl, rfl⟩
  | some p =>
    unfold saveProfile at h
    cases hc : enc.encrypt salt savedata p with
    | error err =>
      simp only [hc, Prod.mk.injEq] at h
      cases err <;> exact absurd h.1 (by decide)
    | ok c =>
      simp only [hc, WriteIO.write, Prod.mk.injEq, true_and] at h
      exact .inr ⟨p, c, rfl, hc, h.symm⟩

/-- **What an encrypted profile loads as**: what was saved, and then as many bytes of the
heap as the encryption added. -/
theorem loadProfile_encrypted (h : enc.Lawful) {salt d c : Bytes} {p : CStr}
    (hc : enc.encrypt salt d p = .ok c) (heap : ℕ → UInt8) (toxNew : ToxOptions → Bool) :
    ∃ junk, junk.length = TOX_PASS_ENCRYPTION_EXTRA_LENGTH ∧
      loadProfile enc .complete heap toxNew (some c) (some p) =
        .ok (startTox toxNew ⟨d ++ junk, c.length⟩) := by
  have hlen := h.extra salt d p c hc
  have hrec : enc.isEncrypted c = true := (h.recognises c).mpr ⟨salt, d, p, hc⟩
  have hdec := h.inverts salt d p c hc
  have hpoke : poke ((List.range c.length).map heap) 0 d =
      .ok (d ++ ((List.range c.length).map heap).drop d.length) := by
    unfold poke
    rw [if_pos (by simp; omega)]
    simp
  refine ⟨((List.range c.length).map heap).drop d.length, ?_, ?_⟩
  · simp only [List.length_drop, List.length_map, List.length_range]
    omega
  · simp only [loadProfile, hrec, if_true, hdec, hpoke, ok_bind, pure_eq_ok]

/-- **Profiles round-trip** if and only if there is no passphrase: after a complete save
`tox_new` is called, and gets the bytes that were saved as its savedata, with their number
as the length, exactly then. -/
theorem profile_round_trip_iff (h : enc.Lawful) {d salt : Bytes} {passphrase : Option CStr}
    {old file : Option Bytes} (heap : ℕ → UInt8) (toxNew : ToxOptions → Bool)
    (hclear : enc.isEncrypted d = false)
    (hsave : saveProfile enc .complete d passphrase salt old = (0, file)) :
    ∃ ret options, loadProfile enc .complete heap toxNew file passphrase = .ok (ret, some options) ∧
      (options = ⟨d, d.length⟩ ↔ passphrase = none) := by
  rcases saveProfile_complete hsave with ⟨rfl, rfl⟩ | ⟨p, c, rfl, hc, rfl⟩
  · have hload : loadProfile enc .complete heap toxNew (some d) none =
        .ok (startTox toxNew ⟨d, d.length⟩) := by
      simp only [loadProfile, hclear, Bool.false_eq_true, if_false, pure_eq_ok]
    exact ⟨_, _, hload, iff_of_true rfl rfl⟩
  · obtain ⟨junk, hjunk, hload⟩ := loadProfile_encrypted h hc heap toxNew
    refine ⟨_, _, hload, iff_of_false (fun heq => ?_) (by simp)⟩
    -- the buffer is longer than what was saved
    have hsame : d ++ junk = d := congrArg ToxOptions.savedataData heq
    rw [List.append_right_eq_self.mp hsame] at hjunk
    cases hjunk

/-- The header of an encrypted profile. -/
def header : Bytes := ascii "toxEsave" ++ List.replicate 72 0

/-- An encryption that hides nothing. -/
def plain : Encryption where
  encrypt _ d _ := .ok (header ++ d)
  decrypt c _ := if header.isPrefixOf c then some (c.drop header.length) else none
  isEncrypted c := header.isPrefixOf c

theorem plain_lawful : plain.Lawful where
  inverts salt d p c hc := by
    cases hc
    simp [plain]
  extra salt d p c hc := by
    cases hc
    rw [List.length_append, Nat.add_comm]
    rfl
  recognises c := by
    simp only [plain, List.isPrefixOf_iff_prefix, Except.ok.injEq]
    constructor
    · rintro ⟨d, hd⟩
      exact ⟨[], d, .ofBytes [], hd⟩
    · rintro ⟨-, d, -, hd⟩
      exact ⟨d, hd⟩

/-- A profile of two bytes with a passphrase. -/
theorem profile_round_trip_iff_plain :
    ∃ ret options, loadProfile plain .complete (fun _ => 9) (fun _ => true)
        (some (header ++ [1, 2])) (some (.ofBytes (ascii "secret"))) = .ok (ret, some options) ∧
      (options = ⟨[1, 2], [1, 2].length⟩ ↔ some (CStr.ofBytes (ascii "secret")) = none) :=
  profile_round_trip_iff plain_lawful _ _ (by decide) (show saveProfile plain .complete [1, 2]
    (some (.ofBytes (ascii "secret"))) [] none = (0, some (header ++ [1, 2])) from rfl)

/-- An encrypted profile of two bytes is loaded as one of 82. -/
theorem encrypted_profile_grows :
    ∃ file options, saveProfile plain .complete [1, 2] (some (.ofBytes (ascii "secret"))) [] none =
        (0, file) ∧
      loadProfile plain .complete (fun _ => 9) (fun _ => true) file (some (.ofBytes (ascii "secret"))) =
        .ok (0, some options) ∧
      options.savedataLength = 82 ∧ options.savedataData = [1, 2] ++ List.replicate 80 9 :=
  ⟨_, _, rfl, rfl, rfl, rfl⟩

/-! ### All or nothing -/

/-- The bytes `save_profile` is to write. -/
def profileData (enc : Encryption) (savedata : Bytes) (passphrase : Option CStr) (salt : Bytes) :
    Except EncryptionError Bytes :=
  match passphrase with
  | none => .ok savedata
  | some p => enc.encrypt salt savedata p

/-- After a save that returns `0` the profile holds all it should, after any other what it held, and in
no case anything else. -/
structure AllOrNothing (enc : Encryption) (savedata : Bytes) (passphrase : Option CStr) (salt : Bytes)
    (old : Option Bytes) (r : ℤ × Option Bytes) : Prop where
  saved : r.1 = 0 → ∃ data, profileData enc savedata passphrase salt = .ok data ∧ r.2 = some data
  kept : r.1 ≠ 0 → r.2 = old
  whole : r.2 = old ∨ ∃ data, profileData enc savedata passphrase salt = .ok data ∧ r.2 = some data

/-- What `save_profile` does with the bytes it is to write, if it comes to have them. -/
theorem saveProfile_eq {io : WriteIO} {savedata salt : Bytes} {passphrase : Option CStr} {old : Option Bytes} :
    saveProfile enc io savedata passphrase salt old =
      match profileData enc savedata passphrase salt with
      | .error err => (err.code, old)
      | .ok data => (if (io.write old data).1 then 0 else -1, (io.write old data).2) := by
  unfold saveProfile profileData
  cases passphrase with
  | none => cases io <;> rfl
  | some p =>
    dsimp only
    cases enc.encrypt salt savedata p with
    | error err => rfl
    | ok data => cases io <;> rfl

theorem EncryptionError.code_ne_zero (err : EncryptionError) : err.code ≠ 0 := by
  cases err <;> decide

/-- **A save is all or nothing**, and says which, if and only if the disk takes all the bytes there are to
write, where the profile opens at all. -/
theorem save_all_or_nothing_iff (io : WriteIO) (savedata : Bytes) (passphrase : Option CStr) (salt : Bytes)
    (old : Option Bytes) :
    AllOrNothing enc savedata passphrase salt old (saveProfile enc io savedata passphrase salt old) ↔
      ∀ data, profileData enc savedata passphrase salt = .ok data → io.Takes data.length := by
  rw [saveProfile_eq]
  cases hdata : profileData enc savedata passphrase salt with
  | error err =>
    -- the profile is not opened
    refine iff_of_true ⟨fun h => absurd h err.code_ne_zero, fun _ => rfl, .inl rfl⟩ fun data h => ?_
    cases h
  | ok data =>
    simp only [Except.ok.injEq, forall_eq']
    cases io with
    | fails => exact iff_of_true ⟨fun h => (by cases h), fun _ => rfl, .inl rfl⟩ trivial
    | complete =>
      exact iff_of_true ⟨fun _ => ⟨data, hdata, rfl⟩, fun h => absurd rfl h, .inr ⟨data, hdata, rfl⟩⟩ trivial
    | cut k =>
      constructor
      · intro h
        obtain ⟨data', hdata', hfile⟩ := h.saved rfl
        cases hdata.symm.trans hdata'
        have hlen := congrArg List.length (Option.some.inj hfile)
        rw [List.length_take] at hlen
        exact min_eq_right_iff.mp hlen
      · intro h
        have hfile : data.take k = data := List.take_of_length_le h
        have hsome : some (data.take k) = some data := congrArg some hfile
        exact ⟨fun _ => ⟨data, hdata, hsome⟩, fun h => absurd rfl h, .inr ⟨data, hdata, hsome⟩⟩

/-- The disk is full after the first of two bytes: the old profile is gone, and the save returns `0`. -/
theorem full_disk_truncates :
    saveProfile plain (.cut 1) [1, 2] none [] (some [3, 4]) = (0, some [1]) ∧
      ¬ AllOrNothing plain [1, 2] none [] (some [3, 4]) (saveProfile plain (.cut 1) [1, 2] none [] (some [3, 4])) := by
  refine ⟨rfl, fun h => ?_⟩
  obtain ⟨data, hdata, hfile⟩ := h.saved rfl
  cases hdata
  cases hfile

end ToxSuite.Profile
