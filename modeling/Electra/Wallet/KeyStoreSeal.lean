import Electra.Foundations.Directory
import Electra.Wallet.KeyStore

/-!
# A sealed key store

An encrypted wallet is sealed by its passphrase: one master key record, from which the passphrase
yields the master key, under which every key is encrypted.  `UnlockStore` recognises the master key by
the first crypted key, so that it needs one.
-/

namespace Electra.Wallet

open Electra.Foundations
open Std (TreeMap)

/-- What the libraries promise: public keys are read back and tell their form, decryption undoes
encryption, a wrong key never yields the secret of the public key, and none of these passphrases
derives the key of another. -/
structure KeyCrypto.Lawful (C : KeyCrypto) (passphrases : Set SecureString) : Prop where
  readsPublicKey : ∀ key : CKey,
    C.readsPublicKey (C.publicKey key.vchSecret key.fCompressedPubKey) = true
  publicKey_form : ∀ key : CKey,
    C.publicKey key.vchSecret
        ((C.publicKey key.vchSecret key.fCompressedPubKey).vchPubKey.length == 33) =
      C.publicKey key.vchSecret key.fCompressedPubKey
  decrypt_encrypt : ∀ crypter text, C.decrypt crypter (C.encrypt crypter text) = some text
  decrypt_wrong : ∀ crypter wrong vchSecret vchSecret' fCompressed fCompressed',
    wrong.chKey ≠ crypter.chKey → vchSecret.length = 32 → vchSecret'.length = 32 →
      C.decrypt wrong (C.encrypt crypter vchSecret) = some vchSecret' →
        C.publicKey vchSecret' fCompressed' ≠ C.publicKey vchSecret fCompressed
  bytesToKey_inj : ∀ pass ∈ passphrases, ∀ pass' ∈ passphrases, ∀ method salt rounds,
    (C.bytesToKey method pass salt rounds).chKey = (C.bytesToKey method pass' salt rounds).chKey →
      pass = pass'

variable (C : KeyCrypto)

/-- The address of a key. -/
def CKey.keyID (key : CKey) : CKeyID := C.getID (key.getPubKey C)

def CKey.plain (key : CKey) : CSecret × Bool := (key.vchSecret, key.fCompressedPubKey)

/-- The entry of a key in `mapCryptedKeys`. -/
def CKey.crypted (vMasterKey : CKeyingMaterial) (key : CKey) : CPubKey × List UInt8 :=
  (key.getPubKey C,
    C.encrypt ⟨vMasterKey, List.ofFn (C.getHash (key.getPubKey C))⟩ key.vchSecret)

/-- A master key record from which the passphrase yields the master key. -/
structure CMasterKey.Wraps (pMasterKey : CMasterKey) (pass : SecureString)
    (vMasterKey : CKeyingMaterial) : Prop where
  size_vchSalt : pMasterKey.vchSalt.length = WALLET_CRYPTO_SALT_SIZE
  method : pMasterKey.nDerivationMethod = 0 ∨ pMasterKey.nDerivationMethod = 1
  rounds : ¬ pMasterKey.nDeriveIterations < 1
  vchCryptedKey : pMasterKey.vchCryptedKey =
    C.encrypt (C.bytesToKey pMasterKey.nDerivationMethod pass pMasterKey.vchSalt
      pMasterKey.nDeriveIterations) vMasterKey

/-- A wallet that holds these keys and is not encrypted. -/
structure CWallet.Plain (keys : List CKey) (w : CWallet) : Prop where
  fUseCrypto : w.fUseCrypto = false
  vMasterKey : w.vMasterKey = []
  mapCryptedKeys : w.mapCryptedKeys.isEmpty = true
  mapMasterKeys : w.mapMasterKeys.isEmpty = true
  mapKeys : Directory (CKey.keyID C) CKey.plain keys w.mapKeys

/-- A wallet that holds these keys under this master key, wrapped by this passphrase. -/
structure CWallet.Sealed (pass : SecureString) (vMasterKey : CKeyingMaterial) (keys : List CKey)
    (w : CWallet) : Prop where
  fUseCrypto : w.fUseCrypto = true
  mapKeys : w.mapKeys.isEmpty = true
  size_vMasterKey : vMasterKey.length = WALLET_CRYPTO_KEY_SIZE
  mapMasterKeys : ∃ id pMasterKey, w.mapMasterKeys.toList = [(id, pMasterKey)] ∧
    pMasterKey.Wraps C pass vMasterKey
  mapCryptedKeys : Directory (CKey.keyID C) (CKey.crypted C vMasterKey) keys w.mapCryptedKeys

variable {C}

variable {vMasterKey : CKeyingMaterial}

theorem setKey_ofFn (hsize : vMasterKey.length = WALLET_CRYPTO_KEY_SIZE) (nIV : Fin 32 → UInt8) :
    setKey vMasterKey (List.ofFn nIV) = some ⟨vMasterKey, List.ofFn nIV⟩ := by
  simp [setKey, hsize, WALLET_CRYPTO_KEY_SIZE]

theorem encryptSecret_eq (hsize : vMasterKey.length = WALLET_CRYPTO_KEY_SIZE) (vchSecret : CSecret)
    (nIV : Fin 32 → UInt8) :
    encryptSecret C vMasterKey vchSecret nIV =
      some (C.encrypt ⟨vMasterKey, List.ofFn nIV⟩ vchSecret) := by
  simp only [encryptSecret, setKey_ofFn hsize]

/-- Without a master key nothing is decrypted. -/
theorem decryptKey_nil (fCompressedPubKey : Bool) (vchPubKey : CPubKey)
    (vchCryptedSecret : List UInt8) :
    decryptKey C [] fCompressedPubKey vchPubKey vchCryptedSecret = none := by
  simp [decryptKey, decryptSecret, setKey, WALLET_CRYPTO_KEY_SIZE]

namespace KeyCrypto.Lawful

variable {passphrases : Set SecureString} (hC : C.Lawful passphrases)

include hC in
/-- The master key yields every key with its secret and its public key. -/
theorem decryptKey_crypted (hsize : vMasterKey.length = WALLET_CRYPTO_KEY_SIZE) (key : CKey) :
    ∃ key', decryptKey C vMasterKey false (key.crypted C vMasterKey).1
        (key.crypted C vMasterKey).2 = some key' ∧
      key'.vchSecret = key.vchSecret ∧ key'.getPubKey C = key.getPubKey C := by
  have hsecret : decryptSecret C vMasterKey (key.crypted C vMasterKey).2
      (C.getHash (key.crypted C vMasterKey).1) = some key.vchSecret := by
    simp only [decryptSecret, setKey_ofFn hsize, CKey.crypted]
    exact hC.decrypt_encrypt _ _
  refine ⟨setSecret (setPubKey C false (key.crypted C vMasterKey).1) key.vchSecret false
    key.size_vchSecret, ?_, rfl, ?_⟩
  · simp only [decryptKey, hsecret, dif_pos key.size_vchSecret]
  · have hform : setPubKey C false (key.getPubKey C) =
        ((key.getPubKey C).vchPubKey.length == 33) := by
      simp only [setPubKey, CKey.getPubKey, hC.readsPublicKey, if_true, Bool.false_or]
    simp only [CKey.crypted, setSecret, hform, Bool.false_or]
    exact hC.publicKey_form key

include hC in
/-- Another master key does not yield a key with the stored public key. -/
theorem decryptKey_wrong {wrong : CKeyingMaterial} (hwrong : wrong ≠ vMasterKey) (key : CKey)
    {key' : CKey} (hkey' : decryptKey C wrong false (key.crypted C vMasterKey).1
      (key.crypted C vMasterKey).2 = some key') :
    key'.getPubKey C ≠ key.getPubKey C := by
  simp only [decryptKey] at hkey'
  split at hkey'
  · cases hkey'
  · rename_i vchSecret hsecret
    split at hkey'
    · rename_i hlength
      cases hkey'
      simp only [decryptSecret] at hsecret
      split at hsecret
      · cases hsecret
      · rename_i crypter hcrypter
        have hchKey : crypter.chKey = wrong := by
          simp only [setKey] at hcrypter
          split at hcrypter
          · cases hcrypter
          · cases hcrypter
            rfl
        exact hC.decrypt_wrong _ crypter key.vchSecret vchSecret _ _ (by rw [hchKey]; exact hwrong)
          key.size_vchSecret hlength hsecret
    · cases hkey'

include hC in
/-- A passphrase opens the master key record when it is the one that wraps it. -/
theorem decrypt_wraps {pMasterKey : CMasterKey} {pass : SecureString}
    (hwraps : pMasterKey.Wraps C pass vMasterKey) (hsize : vMasterKey.length = WALLET_CRYPTO_KEY_SIZE)
    (hpass : pass ∈ passphrases) {pass' : SecureString} (hpass' : pass' ∈ passphrases) :
    ∃ crypter, setKeyFromPassphrase C pass' pMasterKey.vchSalt pMasterKey.nDeriveIterations
        pMasterKey.nDerivationMethod = some crypter ∧
      (pass' = pass → C.decrypt crypter pMasterKey.vchCryptedKey = some vMasterKey) ∧
      (pass' ≠ pass → C.decrypt crypter pMasterKey.vchCryptedKey ≠ some vMasterKey) := by
  have hchecks : ¬ (pMasterKey.nDeriveIterations < 1 ∨
      pMasterKey.vchSalt.length ≠ WALLET_CRYPTO_SALT_SIZE) := by
    rintro (hrounds | hsalt)
    · exact hwraps.rounds hrounds
    · exact hsalt hwraps.size_vchSalt
  refine ⟨C.bytesToKey pMasterKey.nDerivationMethod pass' pMasterKey.vchSalt
    pMasterKey.nDeriveIterations, ?_, ?_, ?_⟩
  · rw [setKeyFromPassphrase, if_neg hchecks, if_pos hwraps.method]
  · rintro rfl
    rw [hwraps.vchCryptedKey]
    exact hC.decrypt_encrypt _ _
  · intro hne hdecrypt
    rw [hwraps.vchCryptedKey] at hdecrypt
    refine hC.decrypt_wrong _ _ vMasterKey vMasterKey true true ?_ hsize hsize hdecrypt rfl
    intro hchKey
    exact hne (hC.bytesToKey_inj pass' hpass' pass hpass _ _ _ hchKey)

end KeyCrypto.Lawful

namespace CWallet

variable {w : CWallet}

@[simp]
theorem setCrypted_of_fUseCrypto (h : w.fUseCrypto = true) :
    w.setCrypted = (true, w) := by
  simp [setCrypted, h]

theorem lock_of_fUseCrypto (h : w.fUseCrypto = true) :
    w.lock = (true, { w with vMasterKey := [] }) := by
  simp [lock, h]

theorem isLocked_of_fUseCrypto (h : w.fUseCrypto = true) :
    w.isLocked = w.vMasterKey.isEmpty := by
  simp [isLocked, isCrypted, h]

namespace Sealed

variable {passphrases : Set SecureString} (hC : C.Lawful passphrases)
  {pass : SecureString} {vMasterKey : CKeyingMaterial} {keys : List CKey} {w : CWallet}

/-- The seal does not depend on whether the master key is in memory. -/
theorem withMasterKey (h : w.Sealed C pass vMasterKey keys) (vMasterKey' : CKeyingMaterial) :
    CWallet.Sealed C pass vMasterKey keys { w with vMasterKey := vMasterKey' } :=
  ⟨h.fUseCrypto, h.mapKeys, h.size_vMasterKey, h.mapMasterKeys, h.mapCryptedKeys⟩

theorem congr {keys' : List CKey} (h : w.Sealed C pass vMasterKey keys)
    (hkeys : ∀ key, key ∈ keys ↔ key ∈ keys') : w.Sealed C pass vMasterKey keys' :=
  ⟨h.fUseCrypto, h.mapKeys, h.size_vMasterKey, h.mapMasterKeys, h.mapCryptedKeys.congr hkeys⟩

include hC in
theorem checkCryptedKeys_self (h : w.Sealed C pass vMasterKey keys) :
    checkCryptedKeys C vMasterKey w.mapCryptedKeys.toList = true := by
  obtain ⟨ordered, hordered, -⟩ := h.mapCryptedKeys.exists_toList
  rw [hordered]
  cases ordered with
  | nil => rfl
  | cons key ordered =>
      obtain ⟨key', hkey', -, hpub⟩ := hC.decryptKey_crypted h.size_vMasterKey key
      simp only [List.map_cons, checkCryptedKeys, hkey', beq_iff_eq]
      exact hpub

include hC in
theorem checkCryptedKeys_wrong (h : w.Sealed C pass vMasterKey keys) (hkeys : keys ≠ [])
    {wrong : CKeyingMaterial} (hwrong : wrong ≠ vMasterKey) :
    checkCryptedKeys C wrong w.mapCryptedKeys.toList = false := by
  have hnil := h.mapCryptedKeys.toList_ne_nil hkeys
  obtain ⟨ordered, hordered, -⟩ := h.mapCryptedKeys.exists_toList
  rw [hordered] at hnil ⊢
  cases ordered with
  | nil => exact absurd rfl hnil
  | cons key ordered =>
      cases hdecrypt : decryptKey C wrong false (key.crypted C vMasterKey).1
          (key.crypted C vMasterKey).2 with
      | none => simp only [List.map_cons, checkCryptedKeys, hdecrypt]
      | some key' =>
          simp only [List.map_cons, checkCryptedKeys, hdecrypt, beq_eq_false_iff_ne]
          exact hC.decryptKey_wrong hwrong key hdecrypt

include hC in
theorem unlockStore_self (h : w.Sealed C pass vMasterKey keys) :
    w.unlockStore C vMasterKey = (true, { w with vMasterKey := vMasterKey }) := by
  simp only [unlockStore, setCrypted_of_fUseCrypto h.fUseCrypto, checkCryptedKeys_self hC h, if_true]

include hC in
theorem unlockStore_wrong (h : w.Sealed C pass vMasterKey keys) (hkeys : keys ≠ [])
    {wrong : CKeyingMaterial} (hwrong : wrong ≠ vMasterKey) :
    w.unlockStore C wrong = (false, w) := by
  simp only [unlockStore, setCrypted_of_fUseCrypto h.fUseCrypto, checkCryptedKeys_wrong hC h hkeys hwrong,
    Bool.false_eq_true, if_false]

include hC in
/-- Unlocking with the passphrase. -/
theorem unlock_self (h : w.Sealed C pass vMasterKey keys) (hlocked : w.vMasterKey = [])
    (hpass : pass ∈ passphrases) :
    w.unlock C pass = (true, { w with vMasterKey := vMasterKey }) := by
  obtain ⟨id, pMasterKey, htoList, hwraps⟩ := h.mapMasterKeys
  obtain ⟨crypter, hcrypter, hdecrypt, -⟩ := hC.decrypt_wraps hwraps h.size_vMasterKey hpass hpass
  have hisLocked : w.isLocked = true := by
    rw [isLocked_of_fUseCrypto h.fUseCrypto, hlocked, List.isEmpty_nil]
  simp only [unlock, hisLocked, htoList, unlockEach, hcrypter, hdecrypt rfl, unlockStore_self hC h,
    Bool.not_true, Bool.false_eq_true, if_false]

include hC in
/-- Unlocking with any other one, when there is a key to check the master key against. -/
theorem unlock_other (h : w.Sealed C pass vMasterKey keys) (hkeys : keys ≠ [])
    (hpass : pass ∈ passphrases) {pass' : SecureString} (hpass' : pass' ∈ passphrases)
    (hne : pass' ≠ pass) : w.unlock C pass' = (false, w) := by
  obtain ⟨id, pMasterKey, htoList, hwraps⟩ := h.mapMasterKeys
  obtain ⟨crypter, hcrypter, -, hdecrypt⟩ := hC.decrypt_wraps hwraps h.size_vMasterKey hpass hpass'
  cases hopened : C.decrypt crypter pMasterKey.vchCryptedKey with
  | none => simp only [unlock, htoList, unlockEach, hcrypter, hopened, ite_self]
  | some wrong =>
      have hwrong : wrong ≠ vMasterKey := fun heq ↦ hdecrypt hne (heq ▸ hopened)
      simp only [unlock, htoList, unlockEach, hcrypter, hopened, unlockStore_wrong hC h hkeys hwrong,
        ite_self]

include hC in
/-- Without a key, any passphrase unlocks the wallet for which the cipher finds no wrong padding. -/
theorem unlock_noKeys (h : w.Sealed C pass vMasterKey []) (hlocked : w.vMasterKey = [])
    (hpass : pass ∈ passphrases) {pass' : SecureString} (hpass' : pass' ∈ passphrases)
    (hpadding : ∀ crypter text, (C.decrypt crypter text).isSome = true) :
    ∃ wrong, w.unlock C pass' = (true, { w with vMasterKey := wrong }) := by
  obtain ⟨id, pMasterKey, htoList, hwraps⟩ := h.mapMasterKeys
  obtain ⟨crypter, hcrypter, -, -⟩ := hC.decrypt_wraps hwraps h.size_vMasterKey hpass hpass'
  obtain ⟨wrong, hwrong⟩ := Option.isSome_iff_exists.mp (hpadding crypter pMasterKey.vchCryptedKey)
  have hcheck : checkCryptedKeys C wrong w.mapCryptedKeys.toList = true := by
    obtain ⟨ordered, hordered, hmem⟩ := h.mapCryptedKeys.exists_toList
    rw [hordered, List.eq_nil_iff_forall_not_mem.mpr fun key hkey ↦ List.not_mem_nil (hmem key hkey)]
    rfl
  have hisLocked : w.isLocked = true := by
    rw [isLocked_of_fUseCrypto h.fUseCrypto, hlocked, List.isEmpty_nil]
  refine ⟨wrong, ?_⟩
  simp only [unlock, hisLocked, htoList, unlockEach, hcrypter, hwrong, unlockStore,
    setCrypted_of_fUseCrypto h.fUseCrypto, hcheck, Bool.not_true, Bool.false_eq_true, if_false, if_true]

theorem unlock_of_not_isLocked (hlocked : w.isLocked = false) (pass' : SecureString) :
    w.unlock C pass' = (false, w) := by
  simp only [unlock, hlocked, Bool.not_false, if_true]

end Sealed

end CWallet

end Electra.Wallet
