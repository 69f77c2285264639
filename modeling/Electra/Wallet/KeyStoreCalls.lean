import Electra.Wallet.KeyStoreSeal

/-!
# The calls on a key store

What `AddKey`, `GetKey`, `ChangeWalletPassphrase` and `EncryptWallet` do to a wallet that is sealed, or
not encrypted yet.
-/

namespace Electra.Wallet

open Electra.Foundations
open Std (TreeMap)

variable {C : KeyCrypto}

namespace CWallet

namespace Plain

variable {keys : List CKey} {w : CWallet}

theorem addKey (h : w.Plain C keys) {key : CKey}
    (hinj : ∀ other ∈ keys, other.keyID C = key.keyID C → other = key) :
    ∃ w', w.addKey C key = (true, w') ∧ w'.Plain C (key :: keys) := by
  refine ⟨{ w with mapKeys := w.mapKeys.insert (key.keyID C) key.plain }, ?_, ?_⟩
  · simp only [CWallet.addKey, isCrypted, h.fUseCrypto, Bool.not_false, if_true]
    rfl
  · exact ⟨h.fUseCrypto, h.vMasterKey, h.mapCryptedKeys, h.mapMasterKeys, h.mapKeys.insert hinj⟩

theorem getKey (h : w.Plain C keys) {key : CKey} (hkey : key ∈ keys) :
    w.getKey C (key.keyID C) false = some key := by
  simp only [CWallet.getKey, isCrypted, h.fUseCrypto, Bool.not_false, if_true,
    h.mapKeys.getElem? hkey, CKey.plain, dif_pos key.size_vchSecret, setSecret, Bool.or_false]

end Plain

namespace Sealed

variable {passphrases : Set SecureString} {pass : SecureString} {vMasterKey : CKeyingMaterial}
  {keys : List CKey} {w : CWallet}

theorem vMasterKey_ne_nil (h : w.Sealed C pass vMasterKey keys) : vMasterKey ≠ [] := by
  intro hnil
  have hsize := h.size_vMasterKey
  rw [hnil] at hsize
  cases hsize

theorem isLocked_open (h : w.Sealed C pass vMasterKey keys) (hopen : w.vMasterKey = vMasterKey) :
    w.isLocked = false := by
  rw [isLocked_of_fUseCrypto h.fUseCrypto, hopen, List.isEmpty_eq_false_iff]
  exact h.vMasterKey_ne_nil

theorem isLocked_shut (h : w.Sealed C pass vMasterKey keys) (hlocked : w.vMasterKey = []) :
    w.isLocked = true := by
  rw [isLocked_of_fUseCrypto h.fUseCrypto, hlocked, List.isEmpty_nil]

theorem addKey_open (h : w.Sealed C pass vMasterKey keys) (hopen : w.vMasterKey = vMasterKey)
    {key : CKey} (hinj : ∀ other ∈ keys, other.keyID C = key.keyID C → other = key) :
    ∃ w', w.addKey C key = (true, w') ∧ w'.Sealed C pass vMasterKey (key :: keys) ∧
      w'.vMasterKey = vMasterKey := by
  subst hopen
  refine ⟨{ w with
    mapCryptedKeys := w.mapCryptedKeys.insert (key.keyID C) (key.crypted C w.vMasterKey) }, ?_, ?_, rfl⟩
  · simp only [addKey, isCrypted, h.fUseCrypto, h.isLocked_open rfl, encryptSecret_eq h.size_vMasterKey,
      addCryptedKey, setCrypted_of_fUseCrypto h.fUseCrypto, Bool.not_true, Bool.false_eq_true, if_false]
    rfl
  · exact ⟨h.fUseCrypto, h.mapKeys, h.size_vMasterKey, h.mapMasterKeys, h.mapCryptedKeys.insert hinj⟩

theorem addKey_shut (h : w.Sealed C pass vMasterKey keys) (hlocked : w.vMasterKey = [])
    (key : CKey) : w.addKey C key = (false, w) := by
  simp only [addKey, isCrypted, h.fUseCrypto, h.isLocked_shut hlocked, Bool.not_true,
    Bool.false_eq_true, if_false, if_true]

theorem getKey_open (hC : C.Lawful passphrases) (h : w.Sealed C pass vMasterKey keys)
    (hopen : w.vMasterKey = vMasterKey) {key : CKey} (hkey : key ∈ keys) :
    ∃ key', w.getKey C (key.keyID C) false = some key' ∧ key'.vchSecret = key.vchSecret ∧
      key'.getPubKey C = key.getPubKey C := by
  obtain ⟨key', hdecrypt, hsame⟩ := hC.decryptKey_crypted h.size_vMasterKey key
  refine ⟨key', ?_, hsame⟩
  simp only [getKey, isCrypted, h.fUseCrypto, Bool.not_true, Bool.false_eq_true, if_false,
    h.mapCryptedKeys.getElem? hkey, hopen]
  exact hdecrypt

theorem getKey_shut (h : w.Sealed C pass vMasterKey keys) (hlocked : w.vMasterKey = [])
    (address : CKeyID) (fCompressedPubKey : Bool) :
    w.getKey C address fCompressedPubKey = none := by
  simp only [getKey, isCrypted, h.fUseCrypto, Bool.not_true, Bool.false_eq_true, if_false, hlocked]
  split
  · rfl
  · exact decryptKey_nil _ _ _

theorem deriveIterations_pos (nMeasured : BitVec 32) : ¬ deriveIterations nMeasured < 1 := by
  simp only [deriveIterations]
  split
  · decide
  · bv_omega

/-- The master key record after `ChangeWalletPassphrase`. -/
theorem wraps_change {pMasterKey : CMasterKey} (h : pMasterKey.Wraps C pass vMasterKey)
    (new : SecureString) (nMeasured : BitVec 32) :
    CMasterKey.Wraps C { pMasterKey with
      nDeriveIterations := deriveIterations nMeasured
      vchCryptedKey := C.encrypt (C.bytesToKey pMasterKey.nDerivationMethod new pMasterKey.vchSalt
        (deriveIterations nMeasured)) vMasterKey } new vMasterKey :=
  ⟨h.size_vchSalt, h.method, deriveIterations_pos nMeasured, rfl⟩

theorem rewrap (h : w.Sealed C pass vMasterKey keys) (hopen : w.vMasterKey = vMasterKey)
    {id : BitVec 32} {pMasterKey : CMasterKey} (htoList : w.mapMasterKeys.toList = [(id, pMasterKey)])
    (hwraps : pMasterKey.Wraps C pass vMasterKey) (new : SecureString) (nMeasured : BitVec 32)
    (fWasLocked : Bool) :
    ∃ w', w.rewrap C id pMasterKey vMasterKey new nMeasured fWasLocked = (true, w') ∧
      w'.Sealed C new vMasterKey keys ∧ w'.vMasterKey = if fWasLocked then [] else vMasterKey := by
  have hchecks : ¬ (deriveIterations nMeasured < 1 ∨
      pMasterKey.vchSalt.length ≠ WALLET_CRYPTO_SALT_SIZE) := by
    rintro (hrounds | hsalt)
    · exact deriveIterations_pos nMeasured hrounds
    · exact hsalt hwraps.size_vchSalt
  have hcrypter : setKeyFromPassphrase C new pMasterKey.vchSalt (deriveIterations nMeasured)
      pMasterKey.nDerivationMethod = some (C.bytesToKey pMasterKey.nDerivationMethod new
        pMasterKey.vchSalt (deriveIterations nMeasured)) := by
    rw [setKeyFromPassphrase, if_neg hchecks, if_pos hwraps.method]
  let pMasterKey' : CMasterKey := { pMasterKey with
    nDeriveIterations := deriveIterations nMeasured
    vchCryptedKey := C.encrypt (C.bytesToKey pMasterKey.nDerivationMethod new pMasterKey.vchSalt
      (deriveIterations nMeasured)) vMasterKey }
  have hsealed : CWallet.Sealed C new vMasterKey keys
      { w with mapMasterKeys := w.mapMasterKeys.insert id pMasterKey' } :=
    ⟨h.fUseCrypto, h.mapKeys, h.size_vMasterKey,
      ⟨id, pMasterKey', toList_insert_of_single htoList pMasterKey',
        wraps_change hwraps new nMeasured⟩, h.mapCryptedKeys⟩
  cases fWasLocked with
  | false =>
      refine ⟨_, ?_, hsealed, hopen⟩
      simp only [CWallet.rewrap, hcrypter, Bool.false_eq_true, if_false]
      rfl
  | true =>
      refine ⟨_, ?_, hsealed.withMasterKey [], rfl⟩
      simp only [CWallet.rewrap, hcrypter, if_true]
      exact congrArg (Prod.mk true) (congrArg Prod.snd (lock_of_fUseCrypto hsealed.fUseCrypto))

theorem changeWalletPassphrase_self (hC : C.Lawful passphrases)
    (h : w.Sealed C pass vMasterKey keys) (hpass : pass ∈ passphrases) (new : SecureString)
    (nMeasured : BitVec 32) :
    ∃ w', w.changeWalletPassphrase C pass new nMeasured = (true, w') ∧
      w'.Sealed C new vMasterKey keys ∧ w'.vMasterKey = if w.isLocked then [] else vMasterKey := by
  obtain ⟨id, pMasterKey, htoList, hwraps⟩ := h.mapMasterKeys
  obtain ⟨crypter, hcrypter, hdecrypt, -⟩ := hC.decrypt_wraps hwraps h.size_vMasterKey hpass hpass
  have hstore := unlockStore_self hC (h.withMasterKey [])
  obtain ⟨w', hw', hsealed, hmaster⟩ :=
    (h.withMasterKey vMasterKey).rewrap rfl htoList hwraps new nMeasured w.isLocked
  refine ⟨w', ?_, hsealed, hmaster⟩
  simp only [changeWalletPassphrase, lock_of_fUseCrypto h.fUseCrypto, htoList, changeEach, hcrypter,
    hdecrypt rfl, hstore]
  exact hw'

theorem changeWalletPassphrase_other (hC : C.Lawful passphrases)
    (h : w.Sealed C pass vMasterKey keys) (hkeys : keys ≠ []) (hpass : pass ∈ passphrases)
    {old : SecureString} (hold : old ∈ passphrases) (hne : old ≠ pass) (new : SecureString)
    (nMeasured : BitVec 32) :
    w.changeWalletPassphrase C old new nMeasured = (false, { w with vMasterKey := [] }) := by
  obtain ⟨id, pMasterKey, htoList, hwraps⟩ := h.mapMasterKeys
  obtain ⟨crypter, hcrypter, -, hdecrypt⟩ := hC.decrypt_wraps hwraps h.size_vMasterKey hpass hold
  cases hopened : C.decrypt crypter pMasterKey.vchCryptedKey with
  | none =>
      simp only [changeWalletPassphrase, lock_of_fUseCrypto h.fUseCrypto, htoList, changeEach, hcrypter,
        hopened]
  | some wrong =>
      have hwrong : wrong ≠ vMasterKey := fun heq ↦ hdecrypt hne (heq ▸ hopened)
      simp only [changeWalletPassphrase, lock_of_fUseCrypto h.fUseCrypto, htoList, changeEach, hcrypter,
        hopened, unlockStore_wrong hC (h.withMasterKey []) hkeys hwrong]

end Sealed

section Encrypt

variable {passphrases : Set SecureString} {allKeys : Set CKey} (hid : Set.InjOn (CKey.keyID C) allKeys)
  {keys : List CKey} {w : CWallet}

include hid in
/-- The loop over the keys adds them to those already encrypted. -/
theorem encryptEach_map {vMasterKey : CKeyingMaterial}
    (hsize : vMasterKey.length = WALLET_CRYPTO_KEY_SIZE) {ordered done : List CKey}
    (hw : w.fUseCrypto = true) (hordered : ∀ key ∈ ordered, key ∈ allKeys)
    (hdone : ∀ key ∈ done, key ∈ allKeys)
    (hdir : Directory (CKey.keyID C) (CKey.crypted C vMasterKey) done w.mapCryptedKeys) :
    ∃ map, encryptEach C vMasterKey (ordered.map (fun key ↦ (key.keyID C, key.plain))) w =
        (true, { w with mapCryptedKeys := map }) ∧
      Directory (CKey.keyID C) (CKey.crypted C vMasterKey) (ordered.reverse ++ done) map := by
  induction ordered generalizing w done with
  | nil => exact ⟨w.mapCryptedKeys, rfl, hdir⟩
  | cons key ordered ih =>
      obtain ⟨hkey, hrest⟩ := List.forall_mem_cons.mp hordered
      have hinj : ∀ other ∈ done, other.keyID C = key.keyID C → other = key :=
        fun other hother haddress ↦ hid (hdone other hother) hkey haddress
      have hinsert := hdir.insert hinj
      obtain ⟨map, hmap, hdirMap⟩ := ih (w := { w with
          mapCryptedKeys := w.mapCryptedKeys.insert (key.keyID C) (key.crypted C vMasterKey) })
        hw hrest (List.forall_mem_cons.mpr ⟨hkey, hdone⟩) hinsert
      refine ⟨map, ?_, ?_⟩
      · rw [← hmap]
        simp only [List.map_cons, CKey.plain, encryptEach, encryptSecret_eq hsize, addCryptedKey,
          setCrypted_of_fUseCrypto hw]
        rfl
      · rw [List.reverse_cons, List.append_assoc]
        exact hdirMap

include hid in
theorem encryptKeys_eq {vMasterKey : CKeyingMaterial}
    (hsize : vMasterKey.length = WALLET_CRYPTO_KEY_SIZE) (hw : w.fUseCrypto = false)
    (hcrypted : w.mapCryptedKeys.isEmpty = true) (hkeys : ∀ key ∈ keys, key ∈ allKeys)
    (hdir : Directory (CKey.keyID C) CKey.plain keys w.mapKeys) :
    ∃ map, w.encryptKeys C vMasterKey =
        (true, { w with fUseCrypto := true, mapKeys := ∅, mapCryptedKeys := map }) ∧
      Directory (CKey.keyID C) (CKey.crypted C vMasterKey) keys map := by
  obtain ⟨ordered, htoList, hordered⟩ := hdir.exists_toList
  obtain ⟨map, hmap, hdirMap⟩ := encryptEach_map hid hsize (w := { w with fUseCrypto := true }) rfl
    (fun key hkey ↦ hkeys key (hordered key hkey)) (by simp) (Directory.of_isEmpty hcrypted)
  refine ⟨map, ?_, hdirMap.congr ?_⟩
  · simp only [encryptKeys, hcrypted, isCrypted, hw, htoList, hmap, Bool.not_true, Bool.or_false,
      Bool.false_eq_true, if_false]
  · intro key
    rw [List.append_nil, List.mem_reverse]
    refine ⟨hordered key, fun hkey ↦ hdir.mem_of_toList htoList ?_ hkey⟩
    intro other hother item hitem haddress
    exact hid (hkeys other (hordered other hother)) (hkeys item hitem) haddress

include hid in
/-- The new keys of the pool are added to an open wallet. -/
theorem generateKeys_eq {pass : SecureString} {vMasterKey : CKeyingMaterial} {newKeys : List CKey}
    (h : w.Sealed C pass vMasterKey keys) (hopen : w.vMasterKey = vMasterKey)
    (hkeys : ∀ key ∈ keys, key ∈ allKeys) (hnew : ∀ key ∈ newKeys, key ∈ allKeys) :
    ∃ w', generateKeys C newKeys w = .ok w' ∧ w'.Sealed C pass vMasterKey (newKeys.reverse ++ keys) := by
  induction newKeys generalizing w keys with
  | nil => exact ⟨w, rfl, h⟩
  | cons key newKeys ih =>
      obtain ⟨hkey, hrest⟩ := List.forall_mem_cons.mp hnew
      obtain ⟨w₁, hadd, hsealed, hopen₁⟩ := h.addKey_open hopen
        fun other hother haddress ↦ hid (hkeys other hother) hkey haddress
      obtain ⟨w', hw', hsealed'⟩ := ih hsealed hopen₁ (List.forall_mem_cons.mpr ⟨hkey, hkeys⟩) hrest
      refine ⟨w', ?_, ?_⟩
      · rw [generateKeys, hadd]
        exact hw'
      · rw [List.reverse_cons, List.append_assoc]
        exact hsealed'

theorem encryptWallet_of {pass : SecureString} {drawn : EncryptionDraw} {newKeys : List CKey}
    {crypter : CCrypter} {w₁ w' : CWallet} (hw : w.isCrypted = false)
    (hcrypter : setKeyFromPassphrase C pass (List.ofFn drawn.vchSalt)
      (deriveIterations drawn.nMeasured) (derivationMethod drawn.nDerivationMethodIndex) = some crypter)
    (hkeys : encryptKeys C { w with
        nMasterKeyMaxID := w.nMasterKeyMaxID + 1
        mapMasterKeys := w.mapMasterKeys.insert (w.nMasterKeyMaxID + 1)
          ⟨C.encrypt crypter (List.ofFn drawn.vMasterKey), List.ofFn drawn.vchSalt,
            derivationMethod drawn.nDerivationMethodIndex, deriveIterations drawn.nMeasured⟩ }
      (List.ofFn drawn.vMasterKey) = (true, w₁))
    (hpool : newKeyPool C (w₁.lock.2.unlock C pass).2 newKeys = .ok w') :
    w.encryptWallet C pass drawn newKeys = .ok (true, w'.lock.2) := by
  simp only [encryptWallet, hw, Bool.false_eq_true, if_false, hcrypter, hkeys, hpool]

include hid in
/-- Encryption seals the wallet with its keys and those of the new pool, and leaves it locked. -/
theorem encryptWallet_plain (hC : C.Lawful passphrases) (h : w.Plain C keys) {pass : SecureString}
    (hpass : pass ∈ passphrases) (drawn : EncryptionDraw) (newKeys : List CKey)
    (hkeys : ∀ key ∈ keys, key ∈ allKeys) (hnew : ∀ key ∈ newKeys, key ∈ allKeys) :
    ∃ w', w.encryptWallet C pass drawn newKeys = .ok (true, w') ∧
      w'.Sealed C pass (List.ofFn drawn.vMasterKey) (newKeys ++ keys) ∧ w'.vMasterKey = [] := by
  let vMasterKey := List.ofFn drawn.vMasterKey
  let vchSalt := List.ofFn drawn.vchSalt
  let nDerivationMethod := derivationMethod drawn.nDerivationMethodIndex
  let nDeriveIterations := deriveIterations drawn.nMeasured
  let kMasterKey : CMasterKey := ⟨C.encrypt
    (C.bytesToKey nDerivationMethod pass vchSalt nDeriveIterations) vMasterKey, vchSalt,
    nDerivationMethod, nDeriveIterations⟩
  have hsize : vMasterKey.length = WALLET_CRYPTO_KEY_SIZE := List.length_ofFn
  have hsalt : vchSalt.length = WALLET_CRYPTO_SALT_SIZE := List.length_ofFn
  have hmethod : nDerivationMethod = 0 ∨ nDerivationMethod = 1 := by
    simp only [nDerivationMethod, derivationMethod]
    split
    · exact .inr rfl
    · exact .inl rfl
  have hwraps : kMasterKey.Wraps C pass vMasterKey :=
    ⟨hsalt, hmethod, Sealed.deriveIterations_pos drawn.nMeasured, rfl⟩
  have hcrypter : setKeyFromPassphrase C pass vchSalt nDeriveIterations nDerivationMethod =
      some (C.bytesToKey nDerivationMethod pass vchSalt nDeriveIterations) := by
    have hchecks : ¬ (nDeriveIterations < 1 ∨ vchSalt.length ≠ WALLET_CRYPTO_SALT_SIZE) := by
      rintro (hrounds | hne)
      · exact Sealed.deriveIterations_pos drawn.nMeasured hrounds
      · exact hne hsalt
    rw [setKeyFromPassphrase, if_neg hchecks, if_pos hmethod]
  -- the keys that are there
  obtain ⟨map, hmap, hdir⟩ := encryptKeys_eq hid hsize (w := { w with
      nMasterKeyMaxID := w.nMasterKeyMaxID + 1
      mapMasterKeys := w.mapMasterKeys.insert (w.nMasterKeyMaxID + 1) kMasterKey })
    h.fUseCrypto h.mapCryptedKeys hkeys h.mapKeys
  let w₁ : CWallet := ⟨∅, map, w.vMasterKey, true,
    w.mapMasterKeys.insert (w.nMasterKeyMaxID + 1) kMasterKey, w.nMasterKeyMaxID + 1⟩
  have hsealed : w₁.Sealed C pass vMasterKey keys :=
    ⟨rfl, TreeMap.isEmpty_emptyc, hsize,
      ⟨_, kMasterKey, toList_insert_of_isEmpty h.mapMasterKeys _ kMasterKey, hwraps⟩, hdir⟩
  -- lock, unlock, and the keys of the pool
  have hlock : w₁.lock.2 = { w₁ with vMasterKey := [] } :=
    congrArg Prod.snd (lock_of_fUseCrypto rfl)
  have hshut := hsealed.withMasterKey []
  have hunlock := hshut.unlock_self hC rfl hpass
  have hopened := hsealed.withMasterKey vMasterKey
  obtain ⟨w', hw', hsealed'⟩ := generateKeys_eq hid hopened rfl hkeys hnew
  refine ⟨{ w' with vMasterKey := [] }, ?_, (hsealed'.congr ?_).withMasterKey [], rfl⟩
  · have hpool : CWallet.newKeyPool C (w₁.lock.2.unlock C pass).2 newKeys = .ok w' := by
      rw [hlock, hunlock, newKeyPool, hopened.isLocked_open rfl]
      exact hw'
    have hlast : w'.lock.2 = { w' with vMasterKey := [] } :=
      congrArg Prod.snd (lock_of_fUseCrypto hsealed'.fUseCrypto)
    rw [← hlast]
    exact encryptWallet_of h.fUseCrypto hcrypter hmap hpool
  · intro key
    simp only [List.mem_append, List.mem_reverse]

end Encrypt

end CWallet

end Electra.Wallet
