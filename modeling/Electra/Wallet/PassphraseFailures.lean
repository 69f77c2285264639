import Electra.Wallet.Passphrase

/-!
# What a failing passphrase operation leaves

The loops over the master keys are searches in the order of their numbers.  A failing operation leaves
the wallet as it was except on the exits after its first write.
-/

namespace Electra.Wallet

open Electra.Foundations
open Std (TreeMap)

variable (C : KeyCrypto) (F : KeyFaults)

namespace CWallet

/-- Whether `CCryptoKeyStore::Unlock` takes a master key. -/
def fits (w : CWallet) (vMasterKey : CKeyingMaterial) : Bool :=
  (w.fUseCrypto || w.mapKeys.isEmpty) && checkCryptedKeys C vMasterKey w.mapCryptedKeys.toList

/-- What a master key record is to a passphrase. -/
def probeMasterKey (w : CWallet) (pass : SecureString) (pMasterKey : CMasterKey) :
    Probe CKeyingMaterial :=
  match tryKeyFromPassphrase C F pass pMasterKey.vchSalt pMasterKey.nDeriveIterations
      pMasterKey.nDerivationMethod with
  | none => .stop
  | some crypter =>
      match C.decrypt crypter pMasterKey.vchCryptedKey with
      | none => .stop
      | some vMasterKey => if w.fits C vMasterKey then .found vMasterKey else .next

/-- The wallet with this master key in memory. -/
def opened (w : CWallet) (vMasterKey : CKeyingMaterial) : CWallet :=
  { w with fUseCrypto := true, vMasterKey := vMasterKey }

variable {C F} (w : CWallet)

theorem setCrypted_eq :
    w.setCrypted = (w.fUseCrypto || w.mapKeys.isEmpty,
      { w with fUseCrypto := w.fUseCrypto || w.mapKeys.isEmpty }) := by
  obtain ⟨mapKeys, mapCryptedKeys, vMasterKey, fUseCrypto, mapMasterKeys, nMasterKeyMaxID⟩ := w
  cases fUseCrypto with
  | true => rfl
  | false =>
      cases hkeys : mapKeys.isEmpty with
      | true => simp [setCrypted, hkeys]
      | false => simp [setCrypted, hkeys]

theorem lock_snd :
    w.lock.2 = if w.fUseCrypto || w.mapKeys.isEmpty then w.opened [] else w := by
  rw [lock, setCrypted_eq]
  obtain ⟨mapKeys, mapCryptedKeys, vMasterKey, fUseCrypto, mapMasterKeys, nMasterKeyMaxID⟩ := w
  cases fUseCrypto with
  | true => rfl
  | false => cases hkeys : mapKeys.isEmpty <;> simp [opened]

theorem isLocked_eq : w.isLocked = (w.fUseCrypto && w.vMasterKey.isEmpty) := by
  cases hcrypted : w.fUseCrypto <;> simp [isLocked, isCrypted, hcrypted]

theorem unlockStore_eq (vMasterKey : CKeyingMaterial) :
    w.unlockStore C vMasterKey =
      if w.fits C vMasterKey then (true, w.opened vMasterKey) else (false, w.setCrypted.2) := by
  rw [unlockStore, fits, setCrypted_eq]
  cases hcrypted : w.fUseCrypto || w.mapKeys.isEmpty with
  | true =>
      simp only [Bool.true_and]
      cases checkCryptedKeys C vMasterKey w.mapCryptedKeys.toList <;> rfl
  | false => rfl

/-- After `Lock` another `SetCrypted` changes nothing. -/
theorem setCrypted_lock : w.lock.2.setCrypted.2 = w.lock.2 := by
  rw [lock_snd]
  cases hcrypted : w.fUseCrypto || w.mapKeys.isEmpty with
  | true => rfl
  | false =>
      rw [Bool.or_eq_false_iff] at hcrypted
      simp [setCrypted, hcrypted.1, hcrypted.2]

theorem fits_lock (vMasterKey : CKeyingMaterial) :
    w.lock.2.fits C vMasterKey = w.fits C vMasterKey := by
  rw [lock_snd]
  cases hcrypted : w.fUseCrypto || w.mapKeys.isEmpty with
  | true => simp [fits, opened, hcrypted]
  | false => rfl

theorem isLocked_lock : w.lock.2.isLocked = (w.fUseCrypto || w.mapKeys.isEmpty) := by
  rw [isLocked_eq, lock_snd]
  cases hcrypted : w.fUseCrypto || w.mapKeys.isEmpty with
  | true => rfl
  | false =>
      rw [Bool.or_eq_false_iff] at hcrypted
      simp [hcrypted.1]

end CWallet

namespace FileWallet

variable {C F} {w : FileWallet} {pass : SecureString}

/-- The wallet with this master key in memory. -/
def opened (w : FileWallet) (vMasterKey : CKeyingMaterial) : FileWallet :=
  { w with toCWallet := w.toCWallet.opened vMasterKey }

theorem unlockEach_eq (hset : w.setCrypted.2 = w.toCWallet) (items : List (BitVec 32 × CMasterKey)) :
    unlockEach C F pass items w =
      match search (w.probeMasterKey C F pass) items with
      | none => (false, w)
      | some (_, _, vMasterKey) => (true, w.opened vMasterKey) := by
  induction items with
  | nil => rfl
  | cons item items ih =>
      obtain ⟨id, pMasterKey⟩ := item
      rw [unlockEach, search, CWallet.probeMasterKey]
      cases tryKeyFromPassphrase C F pass pMasterKey.vchSalt pMasterKey.nDeriveIterations
          pMasterKey.nDerivationMethod with
      | none => rfl
      | some crypter =>
          cases hdecrypt : C.decrypt crypter pMasterKey.vchCryptedKey with
          | none => simp only [hdecrypt]
          | some vMasterKey =>
              simp only [hdecrypt, CWallet.unlockStore_eq, hset]
              cases w.fits C vMasterKey with
              | true => rfl
              | false => exact ih

theorem changeEach_eq {new : SecureString} {nMeasured : BitVec 32} {fWasLocked : Bool}
    (hset : w.setCrypted.2 = w.toCWallet) (items : List (BitVec 32 × CMasterKey)) :
    changeEach C F pass new nMeasured fWasLocked items w =
      match search (w.probeMasterKey C F pass) items with
      | none => (false, w)
      | some (id, pMasterKey, vMasterKey) =>
          (w.opened vMasterKey).rewrap C F id pMasterKey vMasterKey new nMeasured fWasLocked := by
  induction items with
  | nil => rfl
  | cons item items ih =>
      obtain ⟨id, pMasterKey⟩ := item
      rw [changeEach, search, CWallet.probeMasterKey]
      cases tryKeyFromPassphrase C F pass pMasterKey.vchSalt pMasterKey.nDeriveIterations
          pMasterKey.nDerivationMethod with
      | none => rfl
      | some crypter =>
          cases hdecrypt : C.decrypt crypter pMasterKey.vchCryptedKey with
          | none => simp only [hdecrypt]
          | some vMasterKey =>
              simp only [hdecrypt, CWallet.unlockStore_eq, hset]
              cases w.fits C vMasterKey with
              | true => rfl
              | false => exact ih

/-- Some stored master key is unwrapped by the passphrase. -/
def IsUnwrapped (C : KeyCrypto) (F : KeyFaults) (w : FileWallet) (pass : SecureString) : Prop :=
  ∃ (id : BitVec 32) (pMasterKey : CMasterKey) (vMasterKey : CKeyingMaterial),
    w.mapMasterKeys[id]? = some pMasterKey ∧
      w.probeMasterKey C F pass pMasterKey = .found vMasterKey

/-- The passphrase unwraps this master key, and decrypts those with a smaller number. -/
abbrev Reaches (C : KeyCrypto) (F : KeyFaults) (w : FileWallet) (pass : SecureString)
    (id : BitVec 32) (pMasterKey : CMasterKey) (vMasterKey : CKeyingMaterial) : Prop :=
  MapAnswers (w.probeMasterKey C F pass) w.mapMasterKeys id pMasterKey vMasterKey

theorem unlock_eq (w : FileWallet) (pass : SecureString) :
    w.unlock C F pass =
      if w.isLocked then
        match search (w.probeMasterKey C F pass) w.mapMasterKeys.toList with
        | none => (false, w)
        | some (_, _, vMasterKey) => (true, w.opened vMasterKey)
      else (false, w) := by
  rw [unlock]
  cases hlocked : w.isLocked with
  | false => rfl
  | true =>
      rw [CWallet.isLocked_eq, Bool.and_eq_true] at hlocked
      have hset : w.setCrypted.2 = w.toCWallet := by
        rw [CWallet.setCrypted_of_fUseCrypto hlocked.1]
      rw [unlockEach_eq hset]
      rfl

/-- `Unlock` needs a locked wallet and a master key that the search reaches. -/
theorem unlock_fst_iff (w : FileWallet) (pass : SecureString) :
    (w.unlock C F pass).1 = true ↔
      w.isLocked = true ∧ ∃ id pMasterKey vMasterKey, w.Reaches C F pass id pMasterKey vMasterKey := by
  rw [unlock_eq]
  cases w.isLocked with
  | false => simp
  | true =>
      cases hsearch : search (w.probeMasterKey C F pass) w.mapMasterKeys.toList with
      | none => simpa using search_toList_eq_none_iff.mp hsearch
      | some answer =>
          obtain ⟨id, pMasterKey, vMasterKey⟩ := answer
          have hreaches := search_toList_eq_some_iff.mp hsearch
          exact ⟨fun _ ↦ ⟨rfl, id, pMasterKey, vMasterKey, hreaches⟩, fun _ ↦ rfl⟩

/-- What a failing operation leaves as it was. -/
structure Unchanged (w w' : FileWallet) : Prop where
  mapKeys : w'.mapKeys = w.mapKeys
  mapCryptedKeys : w'.mapCryptedKeys = w.mapCryptedKeys
  mapMasterKeys : ∀ id : BitVec 32, w'.mapMasterKeys[id]? = w.mapMasterKeys[id]?
  nMasterKeyMaxID : w'.nMasterKeyMaxID = w.nMasterKeyMaxID
  pwalletdbEncryption : w'.pwalletdbEncryption = w.pwalletdbEncryption
  isLocked : w'.isLocked = w.isLocked

theorem Unchanged.refl (w : FileWallet) : w.Unchanged w :=
  ⟨rfl, rfl, fun _ ↦ rfl, rfl, rfl, rfl⟩

/-- The wallet after `Lock`. -/
def locked (w : FileWallet) : FileWallet := { w with toCWallet := w.lock.2 }

theorem changeWalletPassphrase_eq (w : FileWallet) (old new : SecureString) (nMeasured : BitVec 32) :
    w.changeWalletPassphrase C F old new nMeasured =
      match search (w.probeMasterKey C F old) w.mapMasterKeys.toList with
      | none => (false, w.locked)
      | some (id, pMasterKey, vMasterKey) =>
          (w.locked.opened vMasterKey).rewrap C F id pMasterKey vMasterKey new nMeasured
            w.isLocked := by
  have hmap : w.locked.mapMasterKeys = w.mapMasterKeys := by
    rw [locked, CWallet.lock_snd]
    cases w.fUseCrypto || w.mapKeys.isEmpty <;> rfl
  have hprobe : w.locked.probeMasterKey C F old = w.probeMasterKey C F old := by
    funext pMasterKey
    simp only [CWallet.probeMasterKey, locked, CWallet.fits_lock]
  calc w.changeWalletPassphrase C F old new nMeasured
      = changeEach C F old new nMeasured w.isLocked w.locked.mapMasterKeys.toList w.locked := rfl
    _ = _ := by rw [changeEach_eq w.setCrypted_lock, hprobe, hmap]

/-- `Lock` alone leaves a wallet that was locked, and one that is not encrypted and has a key. -/
theorem unchanged_locked (w : FileWallet) :
    w.Unchanged w.locked ↔
      w.isLocked = true ∨ w.isCrypted = false ∧ w.mapKeys.isEmpty = false := by
  have hstate : w.locked.isLocked = w.isLocked ↔
      w.isLocked = true ∨ w.isCrypted = false ∧ w.mapKeys.isEmpty = false := by
    rw [locked, CWallet.isLocked_lock, CWallet.isLocked_eq, CWallet.isCrypted]
    cases w.fUseCrypto <;> cases w.vMasterKey.isEmpty <;> cases w.mapKeys.isEmpty <;> simp
  refine ⟨fun h ↦ hstate.mp h.isLocked, fun h ↦ ?_⟩
  have hlocked := hstate.mpr h
  rw [locked, CWallet.lock_snd] at hlocked ⊢
  cases hcrypted : w.fUseCrypto || w.mapKeys.isEmpty with
  | true =>
      rw [hcrypted] at hlocked
      exact ⟨rfl, rfl, fun _ ↦ rfl, rfl, rfl, hlocked⟩
  | false => exact .refl w

variable {pMasterKey : CMasterKey} {vMasterKey : CKeyingMaterial}

/-- A master key record written back leaves the wallet when it is the old one and the master key left in
memory does not change the lock. -/
theorem unchanged_setMasterKey {id : BitVec 32} (hstored : w.mapMasterKeys[id]? = some pMasterKey)
    (pMasterKey' : CMasterKey) (vMasterKey : CKeyingMaterial) :
    w.Unchanged ((w.locked.opened vMasterKey).setMasterKey id pMasterKey') ↔
      w.isLocked = vMasterKey.isEmpty ∧ pMasterKey' = pMasterKey := by
  have hopened : (w.locked.opened vMasterKey) = w.opened vMasterKey := by
    rw [opened, opened, locked, CWallet.lock_snd]
    cases w.fUseCrypto || w.mapKeys.isEmpty <;> rfl
  rw [hopened]
  constructor
  · intro h
    refine ⟨h.isLocked.symm, ?_⟩
    have hid := h.mapMasterKeys id
    rw [hstored] at hid
    simpa [setMasterKey, opened, CWallet.opened] using hid
  · rintro ⟨hlocked, rfl⟩
    refine ⟨rfl, rfl, fun id' ↦ ?_, rfl, rfl, hlocked.symm⟩
    simp only [setMasterKey, opened, CWallet.opened, TreeMap.getElem?_insert]
    split
    · rename_i heq
      rw [← Std.LawfulEqCmp.eq_of_compare heq, hstored]
    · rfl

/-- The cipher encrypts the master key again under the new passphrase. -/
def Rewraps (C : KeyCrypto) (F : KeyFaults) (pMasterKey : CMasterKey) (vMasterKey : CKeyingMaterial)
    (new : SecureString) (nMeasured : BitVec 32) : Prop :=
  F.derives pMasterKey.nDerivationMethod new pMasterKey.vchSalt
      (CWallet.deriveIterations nMeasured) = true ∧
    F.encryptLeaves (C.bytesToKey pMasterKey.nDerivationMethod new pMasterKey.vchSalt
      (CWallet.deriveIterations nMeasured)) vMasterKey = none

/-- The cipher fails with the old number of rounds, and with the old text in its buffer if it has got
so far. -/
def LeavesRecord (C : KeyCrypto) (F : KeyFaults) (pMasterKey : CMasterKey)
    (vMasterKey : CKeyingMaterial) (new : SecureString) (nMeasured : BitVec 32) : Prop :=
  CWallet.deriveIterations nMeasured = pMasterKey.nDeriveIterations ∧
    (F.derives pMasterKey.nDerivationMethod new pMasterKey.vchSalt
        (CWallet.deriveIterations nMeasured) = false ∨
      F.encryptLeaves (C.bytesToKey pMasterKey.nDerivationMethod new pMasterKey.vchSalt
        (CWallet.deriveIterations nMeasured)) vMasterKey = some pMasterKey.vchCryptedKey)

/-- `TxnBegin` fails when the new master key is in the map. -/
structure StopsAtTxnBegin (C : KeyCrypto) (F : KeyFaults) (w : FileWallet) (pass : SecureString)
    (drawn : CWallet.EncryptionDraw) : Prop where
  isCrypted : w.isCrypted = false
  fFileBacked : w.fFileBacked = true
  beginsTxn : F.beginsTxn = false
  derives : F.derives (CWallet.derivationMethod drawn.nDerivationMethodIndex) pass
    (List.ofFn drawn.vchSalt) (CWallet.deriveIterations drawn.nMeasured) = true
  encrypts : F.encryptLeaves (C.bytesToKey (CWallet.derivationMethod drawn.nDerivationMethodIndex)
    pass (List.ofFn drawn.vchSalt) (CWallet.deriveIterations drawn.nMeasured))
    (List.ofFn drawn.vMasterKey) = none

/-- On parameters that `SetKeyFromPassphrase` takes, only the library can fail. -/
theorem tryKeyFromPassphrase_eq {chSalt : List UInt8} {nDerivationMethod : BitVec 32}
    (hsalt : chSalt.length = WALLET_CRYPTO_SALT_SIZE)
    (hmethod : nDerivationMethod = 0 ∨ nDerivationMethod = 1) (pass : SecureString)
    (nMeasured : BitVec 32) :
    tryKeyFromPassphrase C F pass chSalt (CWallet.deriveIterations nMeasured) nDerivationMethod =
      if F.derives nDerivationMethod pass chSalt (CWallet.deriveIterations nMeasured) then
        some (C.bytesToKey nDerivationMethod pass chSalt (CWallet.deriveIterations nMeasured))
      else none := by
  have hchecks : ¬ (CWallet.deriveIterations nMeasured < 1 ∨
      chSalt.length ≠ WALLET_CRYPTO_SALT_SIZE) := by
    rintro (hrounds | hne)
    · exact CWallet.Sealed.deriveIterations_pos nMeasured hrounds
    · exact hne hsalt
  rw [tryKeyFromPassphrase, setKeyFromPassphrase, if_neg hchecks, if_pos hmethod]

/-- A record that some passphrase opens has a salt and a method that the cipher takes. -/
theorem form_of_found (h : w.probeMasterKey C F pass pMasterKey = .found vMasterKey) :
    pMasterKey.vchSalt.length = WALLET_CRYPTO_SALT_SIZE ∧
      (pMasterKey.nDerivationMethod = 0 ∨ pMasterKey.nDerivationMethod = 1) := by
  rw [CWallet.probeMasterKey, tryKeyFromPassphrase, setKeyFromPassphrase] at h
  by_cases hchecks : pMasterKey.nDeriveIterations < 1 ∨
      pMasterKey.vchSalt.length ≠ WALLET_CRYPTO_SALT_SIZE
  · rw [if_pos hchecks] at h
    cases h
  · by_cases hmethod : pMasterKey.nDerivationMethod = 0 ∨ pMasterKey.nDerivationMethod = 1
    · exact ⟨not_not.mp fun hne ↦ hchecks (.inr hne), hmethod⟩
    · rw [if_neg hchecks, if_neg hmethod] at h
      cases h

theorem eq_record_iff {vchCryptedKey : List UInt8} {nDeriveIterations : BitVec 32} :
    { pMasterKey with
      vchCryptedKey := vchCryptedKey
      nDeriveIterations := nDeriveIterations } = pMasterKey ↔
      nDeriveIterations = pMasterKey.nDeriveIterations ∧ vchCryptedKey = pMasterKey.vchCryptedKey := by
  cases pMasterKey
  simp [and_comm]

theorem rewrap_unchanged_iff {id : BitVec 32} (hreaches : w.Reaches C F pass id pMasterKey vMasterKey)
    (new : SecureString) (nMeasured : BitVec 32) (fWasLocked : Bool) :
    (∀ w', (w.locked.opened vMasterKey).rewrap C F id pMasterKey vMasterKey new nMeasured
        fWasLocked = (false, w') → w.Unchanged w') ↔
      Rewraps C F pMasterKey vMasterKey new nMeasured ∨
        w.isLocked = vMasterKey.isEmpty ∧ LeavesRecord C F pMasterKey vMasterKey new nMeasured := by
  obtain ⟨hsalt, hmethod⟩ := form_of_found hreaches.found
  have hrecord (pMasterKey' : CMasterKey) :=
    unchanged_setMasterKey hreaches.stored pMasterKey' vMasterKey
  simp only [rewrap, tryKeyFromPassphrase_eq hsalt hmethod, Rewraps, LeavesRecord, tryEncrypt]
  cases F.derives pMasterKey.nDerivationMethod new pMasterKey.vchSalt
      (CWallet.deriveIterations nMeasured) with
  | false =>
      simp only [Bool.false_eq_true, if_false, Prod.mk.injEq, true_and, forall_eq', hrecord,
        eq_record_iff, and_true, false_and, false_or, true_or]
  | true =>
      simp only [if_true]
      cases hleaves : F.encryptLeaves (C.bytesToKey pMasterKey.nDerivationMethod new
          pMasterKey.vchSalt (CWallet.deriveIterations nMeasured)) vMasterKey with
      | some vchCiphertext =>
          simp only [Prod.mk.injEq, true_and, forall_eq', hrecord, eq_record_iff,
            Option.some_inj, reduceCtorEq, false_or]
      | none => cases fWasLocked <;> simp

theorem changeWalletPassphrase_unchanged_iff (w : FileWallet) (old new : SecureString)
    (nMeasured : BitVec 32) :
    (∀ w', w.changeWalletPassphrase C F old new nMeasured = (false, w') → w.Unchanged w') ↔
      (∀ id pMasterKey vMasterKey, w.Reaches C F old id pMasterKey vMasterKey →
        Rewraps C F pMasterKey vMasterKey new nMeasured ∨
          w.isLocked = vMasterKey.isEmpty ∧
            LeavesRecord C F pMasterKey vMasterKey new nMeasured) ∧
      ((∃ id pMasterKey vMasterKey, w.Reaches C F old id pMasterKey vMasterKey) ∨
        w.isLocked = true ∨ w.isCrypted = false ∧ w.mapKeys.isEmpty = false) := by
  rw [changeWalletPassphrase_eq]
  cases hsearch : search (w.probeMasterKey C F old) w.mapMasterKeys.toList with
  | none =>
      have hnone := search_toList_eq_none_iff.mp hsearch
      have hnot : ¬ ∃ id pMasterKey vMasterKey, w.Reaches C F old id pMasterKey vMasterKey :=
        fun ⟨id, pMasterKey, vMasterKey, hreaches⟩ ↦ hnone id pMasterKey vMasterKey hreaches
      have hvacuous : ∀ id pMasterKey vMasterKey, w.Reaches C F old id pMasterKey vMasterKey →
          Rewraps C F pMasterKey vMasterKey new nMeasured ∨ w.isLocked = vMasterKey.isEmpty ∧
            LeavesRecord C F pMasterKey vMasterKey new nMeasured :=
        fun id pMasterKey vMasterKey hreaches ↦ absurd hreaches (hnone id pMasterKey vMasterKey)
      calc (∀ w', (false, w.locked) = (false, w') → w.Unchanged w')
          ↔ w.Unchanged w.locked := by simp only [Prod.mk.injEq, true_and, forall_eq']
        _ ↔ w.isLocked = true ∨ w.isCrypted = false ∧ w.mapKeys.isEmpty = false := w.unchanged_locked
        _ ↔ _ := ⟨fun h ↦ ⟨hvacuous, .inr h⟩, fun h ↦ h.2.resolve_left hnot⟩
  | some answer =>
      obtain ⟨id, pMasterKey, vMasterKey⟩ := answer
      have hreaches : w.Reaches C F old id pMasterKey vMasterKey :=
        search_toList_eq_some_iff.mp hsearch
      rw [rewrap_unchanged_iff hreaches]
      constructor
      · intro h
        refine ⟨fun id' pMasterKey' vMasterKey' hreaches' ↦ ?_,
          .inl ⟨id, pMasterKey, vMasterKey, hreaches⟩⟩
        have hsame := search_toList_eq_some_iff.mpr hreaches'
        rw [hsearch] at hsame
        cases hsame
        exact h
      · intro h
        exact h.1 id pMasterKey vMasterKey hreaches

theorem encryptStore_ne_false {w w' : FileWallet} {newKeys : List CKey} :
    w.encryptStore C F pass vMasterKey newKeys ≠ .ok (false, w') := by
  intro h
  rw [encryptStore] at h
  split at h
  · cases h
  · split at h
    · cases h
    · split at h
      · cases h
      · dsimp only at h
        split at h <;> cases h

theorem encryptWallet_unchanged_iff (w : FileWallet) (pass : SecureString)
    (drawn : CWallet.EncryptionDraw) (newKeys : List CKey) :
    (∀ w', w.encryptWallet C F pass drawn newKeys = .ok (false, w') → w.Unchanged w') ↔
      ¬ w.StopsAtTxnBegin C F pass drawn := by
  have hsalt : (List.ofFn drawn.vchSalt).length = WALLET_CRYPTO_SALT_SIZE := List.length_ofFn
  have hmethod : CWallet.derivationMethod drawn.nDerivationMethodIndex = 0 ∨
      CWallet.derivationMethod drawn.nDerivationMethodIndex = 1 := by
    rw [CWallet.derivationMethod]
    split
    · exact .inr rfl
    · exact .inl rfl
  constructor
  · rintro h ⟨hcrypted, hfile, htxn, hderives, hencrypts⟩
    simp only [encryptWallet, hcrypted, tryKeyFromPassphrase_eq hsalt hmethod, hderives, if_true,
      tryEncrypt, hencrypts, setMasterKey, hfile, htxn, Bool.false_eq_true, if_false, Except.ok.injEq,
      Prod.mk.injEq, true_and, forall_eq'] at h
    have hid : w.nMasterKeyMaxID + 1 = w.nMasterKeyMaxID := h.nMasterKeyMaxID
    bv_omega
  · intro hstops w' h
    rw [encryptWallet] at h
    cases hcrypted : w.isCrypted with
    | true =>
        rw [hcrypted] at h
        cases h
        exact .refl w
    | false =>
        simp only [hcrypted, Bool.false_eq_true, if_false, tryKeyFromPassphrase_eq hsalt hmethod,
          tryEncrypt] at h
        cases hderives : F.derives (CWallet.derivationMethod drawn.nDerivationMethodIndex) pass
            (List.ofFn drawn.vchSalt) (CWallet.deriveIterations drawn.nMeasured) with
        | false =>
            rw [hderives] at h
            cases h
            exact .refl w
        | true =>
            simp only [hderives, if_true] at h
            cases hencrypts : F.encryptLeaves (C.bytesToKey
                (CWallet.derivationMethod drawn.nDerivationMethodIndex) pass
                (List.ofFn drawn.vchSalt) (CWallet.deriveIterations drawn.nMeasured))
                (List.ofFn drawn.vMasterKey) with
            | some vchCiphertext =>
                simp only [hencrypts] at h
                cases h
                exact .refl w
            | none =>
                -- past the cipher the wallet is written, and only `TxnBegin` returns false
                simp only [hencrypts] at h
                split at h
                · rename_i hfile
                  split at h
                  · exact absurd h encryptStore_ne_false
                  · rename_i htxn
                    exact absurd ⟨hcrypted, hfile, Bool.not_eq_true _ ▸ htxn, hderives, hencrypts⟩
                      hstops
                · exact absurd h encryptStore_ne_false

/-- For every wallet and every failure of the libraries, the exact inputs on which each operation keeps
its promise. -/
theorem passphraseCalls_iff (C : KeyCrypto) (F : KeyFaults) (w : FileWallet)
    (pass : SecureString) (drawn : CWallet.EncryptionDraw) (newKeys : List CKey)
    (old new : SecureString) (nMeasured : BitVec 32) :
    ((∀ w', w.encryptWallet C F pass drawn newKeys = .ok (false, w') → w.Unchanged w') ↔
      ¬ w.StopsAtTxnBegin C F pass drawn) ∧
    ((∀ w', w.changeWalletPassphrase C F old new nMeasured = (false, w') → w.Unchanged w') ↔
      (∀ id pMasterKey vMasterKey, w.Reaches C F old id pMasterKey vMasterKey →
        Rewraps C F pMasterKey vMasterKey new nMeasured ∨
          w.isLocked = vMasterKey.isEmpty ∧
            LeavesRecord C F pMasterKey vMasterKey new nMeasured) ∧
      ((∃ id pMasterKey vMasterKey, w.Reaches C F old id pMasterKey vMasterKey) ∨
        w.isLocked = true ∨ w.isCrypted = false ∧ w.mapKeys.isEmpty = false)) ∧
    ((w.IsUnwrapped C F pass → (w.unlock C F pass).1 = true) ↔
      (w.IsUnwrapped C F pass → w.isLocked = true ∧
        ∃ id pMasterKey vMasterKey, w.Reaches C F pass id pMasterKey vMasterKey)) :=
  ⟨w.encryptWallet_unchanged_iff pass drawn newKeys,
    w.changeWalletPassphrase_unchanged_iff old new nMeasured,
    imp_congr_right fun _ ↦ w.unlock_fst_iff pass⟩

namespace PassphraseExample

/-- The cipher that tags its texts, which finds a wrong padding under another key. -/
def padCrypto : KeyCrypto :=
  { tagCrypto with
    decrypt := fun crypter text ↦
      if crypter.chKey <+: text then some (text.drop crypter.chKey.length) else none }

def drawn : CWallet.EncryptionDraw := ⟨fun _ ↦ 7, fun _ ↦ 9, 0, 30000⟩

def noTxn : KeyFaults := { KeyFaults.none with beginsTxn := false }

def result (outcome : Except String (Bool × FileWallet)) : Bool × FileWallet :=
  match outcome with
  | .error _ => (false, .new)
  | .ok result => result

/-- A wallet with one key. -/
def keyed : FileWallet :=
  { FileWallet.new with toCWallet := (CWallet.new.addKey padCrypto (keyOfByte 1 false)).2 }

/-- After an `EncryptWallet` that could not begin its transaction. -/
def half : FileWallet := (result (keyed.encryptWallet padCrypto noTxn [97] drawn [])).2

/-- After a second `EncryptWallet`, under another passphrase. -/
def again : FileWallet := (result (half.encryptWallet padCrypto .none [98] drawn [])).2

/-- Encrypted at once, and unlocked. -/
def unlocked : FileWallet :=
  ((result (keyed.encryptWallet padCrypto .none [97] drawn [])).2.unlock padCrypto .none [97]).2

theorem encryptWallet_half :
    keyed.encryptWallet padCrypto noTxn [97] drawn [] = .ok (false, half) := rfl

theorem isUnwrapped_again : again.IsUnwrapped padCrypto .none [98] :=
  ⟨2, ⟨98 :: List.replicate 32 7, List.replicate 8 9, 0, 30000⟩, List.replicate 32 7,
    by decide, by decide⟩

/-- The failed encryption leaves a master key and an open handle, so that the passphrase of the next one
does not unlock the wallet; and a wrong passphrase locks an unlocked wallet. -/
theorem not_unchanged :
    (keyed.encryptWallet padCrypto noTxn [97] drawn [] = .ok (false, half) ∧
      ¬ keyed.Unchanged half) ∧
    (again.IsUnwrapped padCrypto .none [98] ∧ again.isLocked = true ∧
      (again.unlock padCrypto .none [98]).1 = false) ∧
    ∃ w', unlocked.changeWalletPassphrase padCrypto .none [98] [99] 30000 = (false, w') ∧
      ¬ unlocked.Unchanged w' := by
  refine ⟨⟨encryptWallet_half, fun h ↦ ?_⟩,
    ⟨isUnwrapped_again, by decide, by decide⟩, unlocked.locked, rfl, fun h ↦ ?_⟩
  · have hid : half.nMasterKeyMaxID ≠ keyed.nMasterKeyMaxID := by decide
    exact hid h.nMasterKeyMaxID
  · have hlock : unlocked.locked.isLocked ≠ unlocked.isLocked := by decide
    exact hlock h.isLocked

end PassphraseExample

end FileWallet

end Electra.Wallet
