import Electra.Foundations.OrderedSearch
import Electra.Wallet.KeyStoreRun

/-!
# Passphrase operations that fail

The key store of a wallet with a file.  Where a call of the cipher or of the database can fail, the
answer is a parameter, and the operation has the exit that the source has there.
-/

namespace Electra.Wallet

open Electra.Foundations
open Std (TreeMap)

/-- What the libraries answer where a call of them can fail. -/
structure KeyFaults where
  /-- Whether `EVP_BytesToKey` returns 32 bytes. -/
  derives : BitVec 32 → SecureString → List UInt8 → BitVec 32 → Bool
  /-- What a failing cipher leaves in its buffer. -/
  encryptLeaves : CCrypter → List UInt8 → Option (List UInt8)
  beginsTxn : Bool
  commitsTxn : Bool
  writesCryptedKey : CPubKey → Bool

def KeyFaults.none : KeyFaults := ⟨fun _ _ _ _ ↦ true, fun _ _ ↦ Option.none, true, true, fun _ ↦ true⟩

/-- An open wallet database. -/
structure CWalletDB where
  activeTxn : Bool
deriving DecidableEq

structure FileWallet extends CWallet where
  fFileBacked : Bool
  pwalletdbEncryption : Option CWalletDB

/-- `CWallet(strWalletFile)`. -/
def FileWallet.new : FileWallet := ⟨CWallet.new, true, none⟩

variable (C : KeyCrypto) (F : KeyFaults)

def tryKeyFromPassphrase (strKeyData : SecureString) (chSalt : List UInt8)
    (nRounds nDerivationMethod : BitVec 32) : Option CCrypter :=
  match setKeyFromPassphrase C strKeyData chSalt nRounds nDerivationMethod with
  | none => none
  | some crypter =>
      if F.derives nDerivationMethod strKeyData chSalt nRounds then some crypter else none

/-- `Encrypt` of a crypter with a key: whether it succeeds, and what is in the buffer. -/
def tryEncrypt (crypter : CCrypter) (vchPlaintext : List UInt8) : Bool × List UInt8 :=
  match F.encryptLeaves crypter vchPlaintext with
  | some vchCiphertext => (false, vchCiphertext)
  | none => (true, C.encrypt crypter vchPlaintext)

/-- Whether `EncryptSecret` and `WriteCryptedKey` succeed for a key. -/
def storesSecret (fFileBacked : Bool) (vMasterKey : CKeyingMaterial) (vchPubKey : CPubKey)
    (vchSecret : CSecret) : Bool :=
  (F.encryptLeaves ⟨vMasterKey, List.ofFn (C.getHash vchPubKey)⟩ vchSecret).isNone &&
    (!fFileBacked || F.writesCryptedKey vchPubKey)

namespace FileWallet

/-- The loop of `Unlock` over the master keys. -/
def unlockEach (strWalletPassphrase : SecureString) :
    List (BitVec 32 × CMasterKey) → FileWallet → Bool × FileWallet
  | [], w => (false, w)
  | (_, pMasterKey) :: masterKeys, w =>
      match tryKeyFromPassphrase C F strWalletPassphrase pMasterKey.vchSalt
          pMasterKey.nDeriveIterations pMasterKey.nDerivationMethod with
      | none => (false, w)
      | some crypter =>
          match C.decrypt crypter pMasterKey.vchCryptedKey with
          | none => (false, w)
          | some vMasterKey =>
              match w.unlockStore C vMasterKey with
              | (true, store) => (true, { w with toCWallet := store })
              | (false, store) =>
                  unlockEach strWalletPassphrase masterKeys { w with toCWallet := store }

def unlock (w : FileWallet) (strWalletPassphrase : SecureString) : Bool × FileWallet :=
  if !w.isLocked then (false, w)
  else unlockEach C F strWalletPassphrase w.mapMasterKeys.toList w

def setMasterKey (w : FileWallet) (id : BitVec 32) (pMasterKey : CMasterKey) : FileWallet :=
  { w with mapMasterKeys := w.mapMasterKeys.insert id pMasterKey }

/-- Encrypt the master key under a new passphrase.  Each failure leaves the record as far as it is
written. -/
def rewrap (w : FileWallet) (id : BitVec 32) (pMasterKey : CMasterKey) (vMasterKey : CKeyingMaterial)
    (strNewWalletPassphrase : SecureString) (nMeasured : BitVec 32) (fWasLocked : Bool) :
    Bool × FileWallet :=
  let pMasterKey := { pMasterKey with nDeriveIterations := CWallet.deriveIterations nMeasured }
  match tryKeyFromPassphrase C F strNewWalletPassphrase pMasterKey.vchSalt
      pMasterKey.nDeriveIterations pMasterKey.nDerivationMethod with
  | none => (false, w.setMasterKey id pMasterKey)
  | some crypter =>
      match tryEncrypt C F crypter vMasterKey with
      | (false, vchCryptedKey) =>
          (false, w.setMasterKey id { pMasterKey with vchCryptedKey := vchCryptedKey })
      | (true, vchCryptedKey) =>
          let w := w.setMasterKey id { pMasterKey with vchCryptedKey := vchCryptedKey }
          if fWasLocked then (true, { w with toCWallet := w.lock.2 }) else (true, w)

/-- The loop of `ChangeWalletPassphrase` over the master keys. -/
def changeEach (strOldWalletPassphrase strNewWalletPassphrase : SecureString)
    (nMeasured : BitVec 32) (fWasLocked : Bool) :
    List (BitVec 32 × CMasterKey) → FileWallet → Bool × FileWallet
  | [], w => (false, w)
  | (id, pMasterKey) :: masterKeys, w =>
      match tryKeyFromPassphrase C F strOldWalletPassphrase pMasterKey.vchSalt
          pMasterKey.nDeriveIterations pMasterKey.nDerivationMethod with
      | none => (false, w)
      | some crypter =>
          match C.decrypt crypter pMasterKey.vchCryptedKey with
          | none => (false, w)
          | some vMasterKey =>
              match w.unlockStore C vMasterKey with
              | (true, store) =>
                  rewrap C F { w with toCWallet := store } id pMasterKey vMasterKey
                    strNewWalletPassphrase nMeasured fWasLocked
              | (false, store) =>
                  changeEach strOldWalletPassphrase strNewWalletPassphrase nMeasured fWasLocked
                    masterKeys { w with toCWallet := store }

def changeWalletPassphrase (w : FileWallet)
    (strOldWalletPassphrase strNewWalletPassphrase : SecureString) (nMeasured : BitVec 32) :
    Bool × FileWallet :=
  let fWasLocked := w.isLocked
  let w := { w with toCWallet := w.lock.2 }
  changeEach C F strOldWalletPassphrase strNewWalletPassphrase nMeasured fWasLocked
    w.mapMasterKeys.toList w

/-- `NewKeyPool` of an encrypted wallet, whose `GenerateNewKey` throws when a key cannot be stored. -/
def newKeyPool (w : FileWallet) (newKeys : List CKey) : Except String FileWallet :=
  if w.isLocked then .ok w
  else if newKeys.any fun key ↦
      !storesSecret C F w.fFileBacked w.vMasterKey (key.getPubKey C) key.vchSecret then
    .error "CWallet::GenerateNewKey() : AddKey failed"
  else
    match w.toCWallet.newKeyPool C newKeys with
    | .error text => .error text
    | .ok store => .ok { w with toCWallet := store }

/-- What `EncryptWallet` does after `TxnBegin`. -/
def encryptStore (w : FileWallet) (strWalletPassphrase : SecureString) (vMasterKey : CKeyingMaterial)
    (newKeys : List CKey) : Except String (Bool × FileWallet) :=
  if w.mapKeys.toList.any fun (_, vchSecret, fCompressed) ↦
      !storesSecret C F w.fFileBacked vMasterKey (C.publicKey vchSecret fCompressed) vchSecret then
    .error "exit(1)"
  else
    match w.encryptKeys C vMasterKey with
    | (false, _) => .error "exit(1)"
    | (true, store) =>
        if w.fFileBacked && !F.commitsTxn then .error "exit(1)"
        else
          let w := { w with
            toCWallet := store.lock.2
            pwalletdbEncryption := if w.fFileBacked then none else w.pwalletdbEncryption }
          match (w.unlock C F strWalletPassphrase).2.newKeyPool C F newKeys with
          | .error text => .error text
          | .ok w => .ok (true, { w with toCWallet := w.lock.2 })

/-- `EncryptWallet`, with the keys its key pool gets. -/
def encryptWallet (w : FileWallet) (strWalletPassphrase : SecureString)
    (drawn : CWallet.EncryptionDraw) (newKeys : List CKey) : Except String (Bool × FileWallet) :=
  if w.isCrypted then .ok (false, w)
  else
    let vMasterKey := List.ofFn drawn.vMasterKey
    let vchSalt := List.ofFn drawn.vchSalt
    let nDerivationMethod := CWallet.derivationMethod drawn.nDerivationMethodIndex
    let nDeriveIterations := CWallet.deriveIterations drawn.nMeasured
    match tryKeyFromPassphrase C F strWalletPassphrase vchSalt nDeriveIterations
        nDerivationMethod with
    | none => .ok (false, w)
    | some crypter =>
        match tryEncrypt C F crypter vMasterKey with
        | (false, _) => .ok (false, w)
        | (true, vchCryptedKey) =>
            let nMasterKeyMaxID := w.nMasterKeyMaxID + 1
            let w := { w with nMasterKeyMaxID := nMasterKeyMaxID }.setMasterKey nMasterKeyMaxID
              ⟨vchCryptedKey, vchSalt, nDerivationMethod, nDeriveIterations⟩
            if w.fFileBacked then
              let w := { w with pwalletdbEncryption := some ⟨F.beginsTxn⟩ }
              if F.beginsTxn then w.encryptStore C F strWalletPassphrase vMasterKey newKeys
              else .ok (false, w)
            else w.encryptStore C F strWalletPassphrase vMasterKey newKeys

/-- A result of the key store in a wallet with a file. -/
def withStore (w : FileWallet) (result : Bool × CWallet) : Bool × FileWallet :=
  (result.1, { w with toCWallet := result.2 })

variable {C}

theorem tryKeyFromPassphrase_none (pass : SecureString) (chSalt : List UInt8)
    (nRounds nDerivationMethod : BitVec 32) :
    tryKeyFromPassphrase C .none pass chSalt nRounds nDerivationMethod =
      setKeyFromPassphrase C pass chSalt nRounds nDerivationMethod := by
  rw [tryKeyFromPassphrase]
  cases setKeyFromPassphrase C pass chSalt nRounds nDerivationMethod <;> rfl

theorem unlockEach_none (pass : SecureString) (items : List (BitVec 32 × CMasterKey))
    (w : FileWallet) :
    unlockEach C .none pass items w = w.withStore (CWallet.unlockEach C pass items w.toCWallet) := by
  induction items generalizing w with
  | nil => rfl
  | cons item items ih =>
      obtain ⟨id, pMasterKey⟩ := item
      rw [unlockEach, CWallet.unlockEach, tryKeyFromPassphrase_none]
      cases setKeyFromPassphrase C pass pMasterKey.vchSalt pMasterKey.nDeriveIterations
          pMasterKey.nDerivationMethod with
      | none => rfl
      | some crypter =>
          cases hdecrypt : C.decrypt crypter pMasterKey.vchCryptedKey with
          | none => simp only [hdecrypt]; rfl
          | some vMasterKey =>
              simp only [hdecrypt]
              cases w.unlockStore C vMasterKey with
              | mk fFits store =>
                  cases fFits with
                  | true => rfl
                  | false => exact ih _

/-- Then `Unlock` is that of the key store. -/
theorem unlock_none (w : FileWallet) (pass : SecureString) :
    w.unlock C .none pass = w.withStore (w.toCWallet.unlock C pass) := by
  rw [unlock, CWallet.unlock]
  cases w.isLocked with
  | false => rfl
  | true => exact unlockEach_none pass _ w

theorem rewrap_none (w : FileWallet) (id : BitVec 32) (pMasterKey : CMasterKey)
    (vMasterKey : CKeyingMaterial) (new : SecureString) (nMeasured : BitVec 32) (fWasLocked : Bool) :
    w.rewrap C .none id pMasterKey vMasterKey new nMeasured fWasLocked =
      w.withStore (w.toCWallet.rewrap C id pMasterKey vMasterKey new nMeasured fWasLocked) := by
  simp only [rewrap, CWallet.rewrap, tryKeyFromPassphrase_none]
  cases setKeyFromPassphrase C new pMasterKey.vchSalt (CWallet.deriveIterations nMeasured)
      pMasterKey.nDerivationMethod with
  | none => rfl
  | some crypter => cases fWasLocked <;> rfl

theorem changeEach_none (old new : SecureString) (nMeasured : BitVec 32) (fWasLocked : Bool)
    (items : List (BitVec 32 × CMasterKey)) (w : FileWallet) :
    changeEach C .none old new nMeasured fWasLocked items w =
      w.withStore (CWallet.changeEach C old new nMeasured fWasLocked items w.toCWallet) := by
  induction items generalizing w with
  | nil => rfl
  | cons item items ih =>
      obtain ⟨id, pMasterKey⟩ := item
      rw [changeEach, CWallet.changeEach, tryKeyFromPassphrase_none]
      cases setKeyFromPassphrase C old pMasterKey.vchSalt pMasterKey.nDeriveIterations
          pMasterKey.nDerivationMethod with
      | none => rfl
      | some crypter =>
          cases hdecrypt : C.decrypt crypter pMasterKey.vchCryptedKey with
          | none => simp only [hdecrypt]; rfl
          | some vMasterKey =>
              simp only [hdecrypt]
              cases w.unlockStore C vMasterKey with
              | mk fFits store =>
                  cases fFits with
                  | true => exact rewrap_none _ id pMasterKey vMasterKey new nMeasured fWasLocked
                  | false => exact ih _

theorem changeWalletPassphrase_none (w : FileWallet) (old new : SecureString) (nMeasured : BitVec 32) :
    w.changeWalletPassphrase C .none old new nMeasured =
      w.withStore (w.toCWallet.changeWalletPassphrase C old new nMeasured) :=
  changeEach_none old new nMeasured w.isLocked _ _

theorem storesSecret_none (fFileBacked : Bool) (vMasterKey : CKeyingMaterial) (vchPubKey : CPubKey)
    (vchSecret : CSecret) : storesSecret C .none fFileBacked vMasterKey vchPubKey vchSecret = true := by
  cases fFileBacked <;> rfl

theorem newKeyPool_none (w : FileWallet) (newKeys : List CKey) :
    w.newKeyPool C .none newKeys =
      (w.toCWallet.newKeyPool C newKeys).map fun store ↦ { w with toCWallet := store } := by
  have hstores : (newKeys.any fun key ↦
      !storesSecret C .none w.fFileBacked w.vMasterKey (key.getPubKey C) key.vchSecret) = false := by
    simp only [storesSecret_none, Bool.not_true, List.any_eq_false, Bool.false_eq_true, not_false_iff,
      implies_true]
  rw [newKeyPool, hstores, if_neg Bool.false_ne_true]
  cases hlocked : w.isLocked with
  | true => rw [CWallet.newKeyPool, hlocked]; rfl
  | false => cases w.toCWallet.newKeyPool C newKeys <;> rfl

theorem encryptStore_none (w : FileWallet) (pass : SecureString) (vMasterKey : CKeyingMaterial)
    (newKeys : List CKey) :
    w.encryptStore C .none pass vMasterKey newKeys =
      match w.toCWallet.encryptKeys C vMasterKey with
      | (false, _) => .error "exit(1)"
      | (true, store) =>
          ((store.lock.2.unlock C pass).2.newKeyPool C newKeys).map fun store ↦
            (true, { w with
              toCWallet := store.lock.2
              pwalletdbEncryption := if w.fFileBacked then none else w.pwalletdbEncryption }) := by
  have hstores : (w.mapKeys.toList.any fun (_, vchSecret, fCompressed) ↦
      !storesSecret C .none w.fFileBacked vMasterKey (C.publicKey vchSecret fCompressed) vchSecret) =
        false := by
    simp only [storesSecret_none, Bool.not_true, List.any_eq_false, Bool.false_eq_true, not_false_iff,
      implies_true]
  rw [encryptStore, hstores, if_neg Bool.false_ne_true]
  cases w.toCWallet.encryptKeys C vMasterKey with
  | mk fEncrypted store =>
      cases fEncrypted with
      | false => rfl
      | true =>
          have hcommits : KeyFaults.none.commitsTxn = true := rfl
          simp only [unlock_none, newKeyPool_none, withStore, hcommits, Bool.not_true, Bool.and_false,
            Bool.false_eq_true, if_false]
          cases (store.lock.2.unlock C pass).2.newKeyPool C newKeys <;> rfl

/-- `EncryptWallet` is then that of the key store, and leaves no handle. -/
theorem encryptWallet_none (w : FileWallet) (hclosed : w.pwalletdbEncryption = none)
    (pass : SecureString) (drawn : CWallet.EncryptionDraw) (newKeys : List CKey) :
    w.encryptWallet C .none pass drawn newKeys =
      (w.toCWallet.encryptWallet C pass drawn newKeys).map w.withStore := by
  rw [encryptWallet, CWallet.encryptWallet]
  cases w.isCrypted with
  | true => rfl
  | false =>
      simp only [Bool.false_eq_true, if_false, tryKeyFromPassphrase_none]
      cases setKeyFromPassphrase C pass (List.ofFn drawn.vchSalt)
          (CWallet.deriveIterations drawn.nMeasured)
          (CWallet.derivationMethod drawn.nDerivationMethodIndex) with
      | none => rfl
      | some crypter =>
          have hbegins : KeyFaults.none.beginsTxn = true := rfl
          have hencrypt : tryEncrypt C .none crypter (List.ofFn drawn.vMasterKey) =
              (true, C.encrypt crypter (List.ofFn drawn.vMasterKey)) := rfl
          simp only [hencrypt, hbegins, if_true, encryptStore_none, setMasterKey]
          have hhandle : w = { w with pwalletdbEncryption := none } := by
            rw [← hclosed]
          rw [hhandle]
          cases w.fFileBacked with
          | false =>
              simp only [Bool.false_eq_true, if_false]
              rcases CWallet.encryptKeys C _ _ with ⟨_ | _, store⟩
              · rfl
              · dsimp only
                cases (store.lock.2.unlock C pass).2.newKeyPool C newKeys <;> rfl
          | true =>
              simp only [if_true]
              rcases CWallet.encryptKeys C _ _ with ⟨_ | _, store⟩
              · rfl
              · dsimp only
                cases (store.lock.2.unlock C pass).2.newKeyPool C newKeys <;> rfl

end FileWallet

end Electra.Wallet
