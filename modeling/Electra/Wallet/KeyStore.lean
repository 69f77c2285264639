import Electra.Wallet.KeyPool
import Std.Data.TreeMap.Lemmas

/-!
# The key store and its encryption

Secrets are in `mapKeys` until the wallet is encrypted, and then in `mapCryptedKeys` under a random
master key.  The master key is kept only encrypted under a passphrase; a wallet that is not locked has
it in `vMasterKey`.  Elliptic curves, hashes and the cipher are parameters.
-/

namespace Electra.Wallet

open Std (TreeMap)

abbrev CSecret := List UInt8
abbrev CKeyingMaterial := List UInt8
abbrev SecureString := List UInt8
abbrev CKeyID := BitVec 160

instance : LawfulBEq CKeyID := inferInstance

def WALLET_CRYPTO_KEY_SIZE : ℕ := 32
def WALLET_CRYPTO_SALT_SIZE : ℕ := 8

/-- A key that has a secret. -/
structure CKey where
  vchSecret : CSecret
  fCompressedPubKey : Bool
  size_vchSecret : vchSecret.length = 32
deriving DecidableEq

/-- Key and initialisation vector of a cipher. -/
structure CCrypter where
  chKey : List UInt8
  chIV : List UInt8
deriving DecidableEq

/-- What the wallet takes from its libraries.  `decrypt` finds a wrong padding or returns a text;
`encrypt` and `bytesToKey` do not fail. -/
structure KeyCrypto where
  /-- `i2o_ECPublicKey` of the key with a secret, compressed or not. -/
  publicKey : CSecret → Bool → CPubKey
  /-- Whether `o2i_ECPublicKey` reads a public key. -/
  readsPublicKey : CPubKey → Bool
  getID : CPubKey → CKeyID
  getHash : CPubKey → Fin 32 → UInt8
  bytesToKey : BitVec 32 → SecureString → List UInt8 → BitVec 32 → CCrypter
  encrypt : CCrypter → List UInt8 → List UInt8
  decrypt : CCrypter → List UInt8 → Option (List UInt8)

structure CMasterKey where
  vchCryptedKey : List UInt8
  vchSalt : List UInt8
  nDerivationMethod : BitVec 32
  nDeriveIterations : BitVec 32
deriving DecidableEq

structure CWallet where
  mapKeys : TreeMap CKeyID (CSecret × Bool)
  mapCryptedKeys : TreeMap CKeyID (CPubKey × List UInt8)
  vMasterKey : CKeyingMaterial
  fUseCrypto : Bool
  mapMasterKeys : TreeMap (BitVec 32) CMasterKey
  nMasterKeyMaxID : BitVec 32

def CWallet.new : CWallet := ⟨∅, ∅, [], false, ∅, 0⟩

section Crypter

variable (C : KeyCrypto)

def CKey.getPubKey (key : CKey) : CPubKey := C.publicKey key.vchSecret key.fCompressedPubKey

/-- The flag of a key object after `SetPubKey`, which resets it when the public key cannot be read. -/
def setPubKey (fCompressedPubKey : Bool) (vchPubKey : CPubKey) : Bool :=
  if C.readsPublicKey vchPubKey then
    fCompressedPubKey || vchPubKey.vchPubKey.length == 33
  else false

/-- `SetSecret` on a key object with this flag, which it can only raise. -/
def setSecret (fCompressedPubKey : Bool) (vchSecret : CSecret) (fCompressed : Bool)
    (hsize : vchSecret.length = 32) : CKey :=
  ⟨vchSecret, fCompressed || fCompressedPubKey, hsize⟩

def setKeyFromPassphrase (strKeyData : SecureString) (chSalt : List UInt8)
    (nRounds nDerivationMethod : BitVec 32) : Option CCrypter :=
  if nRounds < 1 ∨ chSalt.length ≠ WALLET_CRYPTO_SALT_SIZE then none
  else if nDerivationMethod = 0 ∨ nDerivationMethod = 1 then
    some (C.bytesToKey nDerivationMethod strKeyData chSalt nRounds)
  else none

def setKey (chNewKey : CKeyingMaterial) (chNewIV : List UInt8) : Option CCrypter :=
  if chNewKey.length ≠ WALLET_CRYPTO_KEY_SIZE ∨ chNewIV.length ≠ WALLET_CRYPTO_KEY_SIZE then none
  else some ⟨chNewKey, chNewIV⟩

def encryptSecret (vMasterKey : CKeyingMaterial) (vchPlaintext : CSecret)
    (nIV : Fin 32 → UInt8) : Option (List UInt8) :=
  match setKey vMasterKey (List.ofFn nIV) with
  | none => none
  | some cKeyCrypter => some (C.encrypt cKeyCrypter vchPlaintext)

def decryptSecret (vMasterKey : CKeyingMaterial) (vchCiphertext : List UInt8)
    (nIV : Fin 32 → UInt8) : Option CSecret :=
  match setKey vMasterKey (List.ofFn nIV) with
  | none => none
  | some cKeyCrypter => C.decrypt cKeyCrypter vchCiphertext

/-- The secret of a crypted key, as a key object with this flag takes it. -/
def decryptKey (vMasterKey : CKeyingMaterial) (fCompressedPubKey : Bool) (vchPubKey : CPubKey)
    (vchCryptedSecret : List UInt8) : Option CKey :=
  match decryptSecret C vMasterKey vchCryptedSecret (C.getHash vchPubKey) with
  | none => none
  | some vchSecret =>
      if hsize : vchSecret.length = 32 then
        some (setSecret (setPubKey C fCompressedPubKey vchPubKey) vchSecret false hsize)
      else none

end Crypter

namespace CWallet

variable (C : KeyCrypto)

def isCrypted (w : CWallet) : Bool := w.fUseCrypto

def isLocked (w : CWallet) : Bool :=
  if !w.isCrypted then false else w.vMasterKey.isEmpty

def setCrypted (w : CWallet) : Bool × CWallet :=
  if w.fUseCrypto then (true, w)
  else if !w.mapKeys.isEmpty then (false, w)
  else (true, { w with fUseCrypto := true })

def lock (w : CWallet) : Bool × CWallet :=
  match w.setCrypted with
  | (false, w) => (false, w)
  | (true, w) => (true, { w with vMasterKey := [] })

/-- The loop over the crypted keys, which ends with the first of them. -/
def checkCryptedKeys (vMasterKeyIn : CKeyingMaterial) :
    List (CKeyID × CPubKey × List UInt8) → Bool
  | [] => true
  | (_, vchPubKey, vchCryptedSecret) :: _ =>
      match decryptKey C vMasterKeyIn false vchPubKey vchCryptedSecret with
      | none => false
      | some key => key.getPubKey C == vchPubKey

/-- `CCryptoKeyStore::Unlock`. -/
def unlockStore (w : CWallet) (vMasterKeyIn : CKeyingMaterial) : Bool × CWallet :=
  match w.setCrypted with
  | (false, w) => (false, w)
  | (true, w) =>
      if checkCryptedKeys C vMasterKeyIn w.mapCryptedKeys.toList then
        (true, { w with vMasterKey := vMasterKeyIn })
      else (false, w)

def addCryptedKey (w : CWallet) (vchPubKey : CPubKey) (vchCryptedSecret : List UInt8) :
    Bool × CWallet :=
  match w.setCrypted with
  | (false, w) => (false, w)
  | (true, w) =>
      (true, { w with
        mapCryptedKeys := w.mapCryptedKeys.insert (C.getID vchPubKey) (vchPubKey, vchCryptedSecret) })

def addKey (w : CWallet) (key : CKey) : Bool × CWallet :=
  if !w.isCrypted then
    (true, { w with
      mapKeys := w.mapKeys.insert (C.getID (key.getPubKey C)) (key.vchSecret, key.fCompressedPubKey) })
  else if w.isLocked then (false, w)
  else
    match encryptSecret C w.vMasterKey key.vchSecret (C.getHash (key.getPubKey C)) with
    | none => (false, w)
    | some vchCryptedSecret => w.addCryptedKey C (key.getPubKey C) vchCryptedSecret

/-- `GetKey` into a key object with this flag.  A secret in `mapKeys` has 32 bytes. -/
def getKey (w : CWallet) (address : CKeyID) (fCompressedPubKey : Bool) : Option CKey :=
  if !w.isCrypted then
    match w.mapKeys[address]? with
    | none => none
    | some (vchSecret, fCompressed) =>
        if hsize : vchSecret.length = 32 then some (setSecret false vchSecret fCompressed hsize)
        else none
  else
    match w.mapCryptedKeys[address]? with
    | none => none
    | some (vchPubKey, vchCryptedSecret) =>
        decryptKey C w.vMasterKey fCompressedPubKey vchPubKey vchCryptedSecret

/-- The loop of `EncryptKeys` over the keys. -/
def encryptEach (vMasterKeyIn : CKeyingMaterial) :
    List (CKeyID × CSecret × Bool) → CWallet → Bool × CWallet
  | [], w => (true, w)
  | (_, vchSecret, fCompressed) :: keys, w =>
      let vchPubKey := C.publicKey vchSecret fCompressed
      match encryptSecret C vMasterKeyIn vchSecret (C.getHash vchPubKey) with
      | none => (false, w)
      | some vchCryptedSecret =>
          match w.addCryptedKey C vchPubKey vchCryptedSecret with
          | (false, w) => (false, w)
          | (true, w) => encryptEach vMasterKeyIn keys w

def encryptKeys (w : CWallet) (vMasterKeyIn : CKeyingMaterial) : Bool × CWallet :=
  if !w.mapCryptedKeys.isEmpty || w.isCrypted then (false, w)
  else
    match encryptEach C vMasterKeyIn w.mapKeys.toList { w with fUseCrypto := true } with
    | (false, w) => (false, w)
    | (true, w) => (true, { w with mapKeys := ∅ })

/-- The loop of `Unlock` over the master keys. -/
def unlockEach (strWalletPassphrase : SecureString) :
    List (BitVec 32 × CMasterKey) → CWallet → Bool × CWallet
  | [], w => (false, w)
  | (_, pMasterKey) :: masterKeys, w =>
      match setKeyFromPassphrase C strWalletPassphrase pMasterKey.vchSalt
          pMasterKey.nDeriveIterations pMasterKey.nDerivationMethod with
      | none => (false, w)
      | some crypter =>
          match C.decrypt crypter pMasterKey.vchCryptedKey with
          | none => (false, w)
          | some vMasterKey =>
              match w.unlockStore C vMasterKey with
              | (true, w) => (true, w)
              | (false, w) => unlockEach strWalletPassphrase masterKeys w

def unlock (w : CWallet) (strWalletPassphrase : SecureString) : Bool × CWallet :=
  if !w.isLocked then (false, w)
  else unlockEach C strWalletPassphrase w.mapMasterKeys.toList w

/-- The number of rounds that the timings give, at least 25000. -/
def deriveIterations (nMeasured : BitVec 32) : BitVec 32 :=
  if nMeasured < 25000 then 25000 else nMeasured

/-- Encrypt the master key under a new passphrase. -/
def rewrap (w : CWallet) (id : BitVec 32) (pMasterKey : CMasterKey) (vMasterKey : CKeyingMaterial)
    (strNewWalletPassphrase : SecureString) (nMeasured : BitVec 32) (fWasLocked : Bool) :
    Bool × CWallet :=
  let pMasterKey := { pMasterKey with nDeriveIterations := deriveIterations nMeasured }
  match setKeyFromPassphrase C strNewWalletPassphrase pMasterKey.vchSalt
      pMasterKey.nDeriveIterations pMasterKey.nDerivationMethod with
  | none => (false, { w with mapMasterKeys := w.mapMasterKeys.insert id pMasterKey })
  | some crypter =>
      let pMasterKey := { pMasterKey with vchCryptedKey := C.encrypt crypter vMasterKey }
      let w := { w with mapMasterKeys := w.mapMasterKeys.insert id pMasterKey }
      if fWasLocked then (true, w.lock.2) else (true, w)

/-- The loop of `ChangeWalletPassphrase` over the master keys. -/
def changeEach (strOldWalletPassphrase strNewWalletPassphrase : SecureString)
    (nMeasured : BitVec 32) (fWasLocked : Bool) :
    List (BitVec 32 × CMasterKey) → CWallet → Bool × CWallet
  | [], w => (false, w)
  | (id, pMasterKey) :: masterKeys, w =>
      match setKeyFromPassphrase C strOldWalletPassphrase pMasterKey.vchSalt
          pMasterKey.nDeriveIterations pMasterKey.nDerivationMethod with
      | none => (false, w)
      | some crypter =>
          match C.decrypt crypter pMasterKey.vchCryptedKey with
          | none => (false, w)
          | some vMasterKey =>
              match w.unlockStore C vMasterKey with
              | (true, w) =>
                  w.rewrap C id pMasterKey vMasterKey strNewWalletPassphrase nMeasured fWasLocked
              | (false, w) =>
                  changeEach strOldWalletPassphrase strNewWalletPassphrase nMeasured fWasLocked
                    masterKeys w

def changeWalletPassphrase (w : CWallet)
    (strOldWalletPassphrase strNewWalletPassphrase : SecureString) (nMeasured : BitVec 32) :
    Bool × CWallet :=
  let fWasLocked := w.isLocked
  let w := w.lock.2
  changeEach C strOldWalletPassphrase strNewWalletPassphrase nMeasured fWasLocked
    w.mapMasterKeys.toList w

/-- `GenerateNewKey` for each of the new keys; it throws when a key cannot be added. -/
def generateKeys : List CKey → CWallet → Except String CWallet
  | [], w => .ok w
  | key :: keys, w =>
      match w.addKey C key with
      | (false, _) => .error "CWallet::GenerateNewKey() : AddKey failed"
      | (true, w) => generateKeys keys w

/-- The keys that `NewKeyPool` adds, which does nothing to a locked wallet. -/
def newKeyPool (w : CWallet) (newKeys : List CKey) : Except String CWallet :=
  if w.isLocked then .ok w else generateKeys C newKeys w

/-- What `EncryptWallet` draws and measures. -/
structure EncryptionDraw where
  vMasterKey : Fin 32 → UInt8
  vchSalt : Fin 8 → UInt8
  nDerivationMethodIndex : BitVec 32
  nMeasured : BitVec 32

/-- The constructor of `CMasterKey` knows two methods and takes the first one for any other index. -/
def derivationMethod (nDerivationMethodIndex : BitVec 32) : BitVec 32 :=
  if nDerivationMethodIndex = 1 then 1 else 0

/-- `EncryptWallet`, with the keys its key pool gets.  The process exits when a key cannot be
encrypted. -/
def encryptWallet (w : CWallet) (strWalletPassphrase : SecureString) (drawn : EncryptionDraw)
    (newKeys : List CKey) : Except String (Bool × CWallet) :=
  if w.isCrypted then .ok (false, w)
  else
    let vMasterKey := List.ofFn drawn.vMasterKey
    let vchSalt := List.ofFn drawn.vchSalt
    let nDerivationMethod := derivationMethod drawn.nDerivationMethodIndex
    let nDeriveIterations := deriveIterations drawn.nMeasured
    match setKeyFromPassphrase C strWalletPassphrase vchSalt nDeriveIterations nDerivationMethod with
    | none => .ok (false, w)
    | some crypter =>
        let kMasterKey : CMasterKey :=
          ⟨C.encrypt crypter vMasterKey, vchSalt, nDerivationMethod, nDeriveIterations⟩
        let nMasterKeyMaxID := w.nMasterKeyMaxID + 1
        let w := { w with nMasterKeyMaxID := nMasterKeyMaxID,
                          mapMasterKeys := w.mapMasterKeys.insert nMasterKeyMaxID kMasterKey }
        match w.encryptKeys C vMasterKey with
        | (false, _) => .error "exit(1)"
        | (true, w) =>
            match ((w.lock.2.unlock C strWalletPassphrase).2).newKeyPool C newKeys with
            | .error text => .error text
            | .ok w => .ok (true, w.lock.2)

end CWallet

end Electra.Wallet
