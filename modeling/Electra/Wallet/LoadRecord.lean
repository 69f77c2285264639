import Electra.Wallet.DumpFile
import Electra.Wallet.RecordInto

/-!
# Loading a record of the wallet

`ReadKeyValue` reads the type of a record and then what the type says, from the key and from the value,
and changes the wallet while it reads.  An exception is a failure like `return false`; what was changed
before stays.
-/

namespace Electra.Wallet

open Chain Net Foundations.ReadOnlyRun
open Records (cStr ofString readChar readAccountingEntry)

/-- An entry of `mapWallet`: the transaction, and whether it points to the wallet. -/
structure WalletEntry where
  tx : Records.CWalletTx
  fBound : Bool
deriving DecidableEq

structure CKeyMetadata where
  nVersion : ℤ
  nCreateTime : ℤ
deriving DecidableEq

/-- The wallet that is loaded. -/
structure LoadedWallet where
  mapWallet : Uint256 → Option WalletEntry
  mapAddressBook : CTxDestination → Option (List UInt8)
  keystore : CWallet
  mapScripts : CKeyID → Option CScript
  setKeyPool : Finset ℤ
  mapKeyMetadata : CKeyID → Option CKeyMetadata
  nTimeFirstKey : ℤ
  vchDefaultKey : List UInt8
  nOrderPosNext : ℤ

structure CWalletScanState where
  nKeys : ℕ
  nCKeys : ℕ
  nKeyMeta : ℕ
  fIsEncrypted : Bool
  fAnyUnordered : Bool
  nFileVersion : ℤ
  vWalletUpgrade : List Uint256

def CWalletScanState.empty : CWalletScanState := ⟨0, 0, 0, false, false, 0, []⟩

/-- The wallet, the static counter, and the arguments of the call. -/
structure LoadState where
  wallet : LoadedWallet
  nAccountingEntryNumber : ℕ
  ssKey : ReadState
  ssValue : ReadState
  wss : CWalletScanState
  strType : List UInt8
  strErr : String

/-- Keys and hashes, what the database makes of a crypted key, and the clock. -/
structure LoadEnv where
  P : ChainParams
  fTestNet : Bool
  hash : List UInt8 → Uint256
  C : KeyCrypto
  /-- `SetPubKey` and `SetPrivKey` on a fresh key. -/
  setPrivKey : List UInt8 → List UInt8 → Option CKey
  isValid : CKey → Bool
  scriptID : CScript → CKeyID
  hashToString : Uint256 → String
  fFileBacked : Bool
  writeCryptedKey : CPubKey → List UInt8 → Bool
  nAdjustedTime : ℕ
  sizes : Records.RecordSizes

/-- A computation that may end with `return false` or with an exception. -/
abbrev Load := ExceptT Unit (StateM LoadState)

variable {α : Type} (env : LoadEnv)

namespace Load

def fail (strErr : String) : Load α := do
  modify fun s ↦ { s with strErr }
  throw ()

def fromKey (read : Reader α) : Load α := do
  let s ← get
  match read.run s.ssKey with
  | .error _ => throw ()
  | .ok (a, ssKey) => do
      modify fun s ↦ { s with ssKey }
      return a

def fromValue (read : Reader α) : Load α := do
  let s ← get
  match read.run s.ssValue with
  | .error _ => throw ()
  | .ok (a, ssValue) => do
      modify fun s ↦ { s with ssValue }
      return a

def onWallet (f : LoadedWallet → LoadedWallet) : Load Unit := modify fun s ↦ { s with wallet := f s.wallet }

def onScan (f : CWalletScanState → CWalletScanState) : Load Unit := modify fun s ↦ { s with wss := f s.wss }

end Load

open Load

/-- The bytes behind a transaction of an old version: two flags and the account. -/
def readUpgrade (strFromAccount : List UInt8) (is : ReadState) :
    Except (List UInt8) (UInt8 × List UInt8 × ReadState) :=
  match readChar.run is with
  | .error _ => .error strFromAccount
  | .ok (fTmp, is) =>
      match readChar.run is with
      | .error _ => .error strFromAccount
      | .ok (_, is) =>
          match readStringInto strFromAccount is with
          | .error torn => .error torn
          | .ok (strFromAccount, is) => .ok (fTmp, strFromAccount, is)

def readAddress (strAddress : List UInt8) : CTxDestination :=
  CElectraAddress.get env.fTestNet (CElectraAddress.setString env.hash (cStr strAddress)).2

def putLabel (address : CTxDestination) (label : List UInt8) : Load Unit :=
  onWallet fun w ↦ { w with mapAddressBook := Function.update w.mapAddressBook address (some label) }

/-- The lookup inserts an empty label. -/
def readLabel (address : CTxDestination) : Load Unit := do
  let s ← get
  match readStringInto ((s.wallet.mapAddressBook address).getD []) s.ssValue with
  | .error torn => do
      putLabel address torn
      throw ()
  | .ok (label, ssValue) => do
      modify fun s ↦ { s with ssValue }
      putLabel address label

def readName : Load Unit := do
  let strAddress ← fromKey Records.readString
  readLabel (readAddress env strAddress)

/-- A fresh transaction object. -/
def nullWalletTx : Records.CWalletTx := initWalletTx (nullMerkleTx env.nAdjustedTime)

def putEntry (hash : Uint256) (entry : Option WalletEntry) : Load Unit :=
  onWallet fun w ↦ { w with mapWallet := Function.update w.mapWallet hash entry }

/-- `wtx.CheckTransaction() && wtx.GetHash() == hash`. -/
def isGoodTx (hash : Uint256) (wtx : Records.CWalletTx) : Bool :=
  wtx.toCTransaction.checkTransaction.isOk && decide (env.P.hashTx wtx.toCTransaction = hash)

/-- `%d` of a `char`. -/
def charToInt (c : UInt8) : ℤ := if c.toNat < 128 then c.toNat else c.toNat - 256

/-- The transaction of an old version with the account behind it, or without. -/
def rewriteTx (hash : Uint256) (wtx : Records.CWalletTx) : Load Unit := do
  let s ← get
  if s.ssValue.unread = [] then do
    modify fun s ↦ { s with strErr := "LoadWallet() repairing tx ver=" ++ toString wtx.fTimeReceivedIsTxTime ++
      " " ++ env.hashToString hash }
    putEntry hash (some ⟨{ wtx with fTimeReceivedIsTxTime := 0 }, true⟩)
  else
    match readUpgrade wtx.strFromAccount s.ssValue with
    | .error torn => do
        putEntry hash (some ⟨{ wtx with strFromAccount := torn }, true⟩)
        throw ()
    | .ok (fTmp, strFromAccount, ssValue) => do
        modify fun s ↦ { s with
          ssValue
          strErr := "LoadWallet() upgrading tx ver=" ++ toString wtx.fTimeReceivedIsTxTime ++ " " ++
            toString (charToInt fTmp) ++ " '" ++ String.ofList (cStr strFromAccount) ++ "' " ++
            env.hashToString hash }
        putEntry hash (some ⟨{ wtx with
          strFromAccount
          fTimeReceivedIsTxTime := (charToInt fTmp % 2 ^ 32).toNat }, true⟩)

/-- Versions that were serialized otherwise. -/
def isOldTx (wtx : Records.CWalletTx) : Bool :=
  decide (31404 ≤ wtx.fTimeReceivedIsTxTime ∧ wtx.fTimeReceivedIsTxTime ≤ 31703)

/-- Undo serialize changes in 31600. -/
def upgradeTx (hash : Uint256) (wtx : Records.CWalletTx) : Load Unit :=
  if isOldTx wtx then do
    rewriteTx env hash wtx
    onScan fun wss ↦ { wss with vWalletUpgrade := wss.vWalletUpgrade ++ [hash] }
  else return ()

def noteOrderPos (nOrderPos : ℤ) : Load Unit :=
  if nOrderPos = -1 then onScan fun wss ↦ { wss with fAnyUnordered := true } else return ()

/-- What was read is checked, and bound to the wallet or erased. -/
def keepTx (hash : Uint256) (wtx : Records.CWalletTx) : Load Unit :=
  if isGoodTx env hash wtx then do
    putEntry hash (some ⟨wtx, true⟩)
    upgradeTx env hash wtx
    noteOrderPos wtx.nOrderPos
  else do
    putEntry hash none
    throw ()

/-- The lookup inserts a fresh transaction. -/
def readTxValue (hash : Uint256) : Load Unit := do
  let s ← get
  let wtx := ((s.wallet.mapWallet hash).map WalletEntry.tx).getD (nullWalletTx env)
  match readWalletTxInto env.sizes env.nAdjustedTime wtx s.ssValue with
  | .error torn => do
      putEntry hash (some ⟨torn, false⟩)
      throw ()
  | .ok (wtx, ssValue) => do
      modify fun s ↦ { s with ssValue }
      putEntry hash (some ⟨wtx, false⟩)
      keepTx env hash wtx

def readTxRecord : Load Unit := do
  let hash ← fromKey readUint256
  readTxValue env hash

def readAcentry : Load Unit := do
  let _ ← fromKey Records.readString
  let nNumber ← fromKey (readUInt 8)
  modify fun s ↦ { s with nAccountingEntryNumber := max s.nAccountingEntryNumber nNumber }
  let s ← get
  if s.wss.fAnyUnordered then return ()
  else do
    let acentry ← fromValue (readAccountingEntry SER_DISK .null)
    noteOrderPos acentry.nOrderPos

/-- Version, private key, times and comment; the private key is used. -/
def readWalletKey : Reader (List UInt8) := do
  let _ ← readInt 4
  let vchPrivKey ← readBytes
  let _ ← readInt 8
  let _ ← readInt 8
  let _ ← Records.readString
  return vchPrivKey

/-- The texts of the failures of a record with a private key. -/
structure KeyTexts where
  inconsistency : String
  invalid : String

def keyTexts : KeyTexts where
  inconsistency := "Error reading wallet database: CPrivKey pubkey inconsistency"
  invalid := "Error reading wallet database: invalid CPrivKey"

def wkeyTexts : KeyTexts where
  inconsistency := "Error reading wallet database: CWalletKey pubkey inconsistency"
  invalid := "Error reading wallet database: invalid CWalletKey"

def checkKey (texts : KeyTexts) (vchPubKey vchPrivKey : List UInt8) : Load CKey :=
  match env.setPrivKey vchPubKey vchPrivKey with
  | none => fail "Error reading wallet database: CPrivKey corrupt"
  | some key =>
      if key.getPubKey env.C ≠ ⟨vchPubKey⟩ then fail texts.inconsistency
      else if env.isValid key = false then fail texts.invalid
      else return key

def putKeystore (keystore : CWallet) : Load Unit := onWallet fun w ↦ { w with keystore }

/-- The lookup of metadata inserts unknown ones. -/
def noteMetadata (id : CKeyID) (metadata : CKeyMetadata) : Load Unit :=
  onWallet fun w ↦ if (w.mapKeyMetadata id).isSome then w
    else { w with mapKeyMetadata := Function.update w.mapKeyMetadata id (some metadata) }

/-- The record of a crypted key. -/
def writeKey (vchPubKey : CPubKey) (vchCryptedSecret : List UInt8) : Load Unit :=
  if env.fFileBacked then do
    noteMetadata (env.C.getID vchPubKey) ⟨1, 0⟩
    if env.writeCryptedKey vchPubKey vchCryptedSecret then return ()
    else fail "Error reading wallet database: LoadKey failed"
  else return ()

/-- `CWallet::AddCryptedKey`, which also writes the key. -/
def addCryptedKey (vchPubKey : CPubKey) (vchCryptedSecret : List UInt8) : Load Unit := do
  let s ← get
  match s.wallet.keystore.addCryptedKey env.C vchPubKey vchCryptedSecret with
  | (false, _) => fail "Error reading wallet database: LoadKey failed"
  | (true, keystore) => do
      putKeystore keystore
      writeKey env vchPubKey vchCryptedSecret

/-- `LoadKey`: a wallet that is crypted takes the key only while it is unlocked. -/
def loadKey (key : CKey) : Load Unit := do
  let s ← get
  let keystore := s.wallet.keystore
  if !keystore.isCrypted then putKeystore (keystore.addKey env.C key).2
  else if keystore.isLocked then fail "Error reading wallet database: LoadKey failed"
  else
    match encryptSecret env.C keystore.vMasterKey key.vchSecret (env.C.getHash (key.getPubKey env.C)) with
    | none => fail "Error reading wallet database: LoadKey failed"
    | some vchCryptedSecret => addCryptedKey env (key.getPubKey env.C) vchCryptedSecret

def readKeyRecord : Load Unit := do
  let vchPubKey ← fromKey readBytes
  onScan fun wss ↦ { wss with nKeys := wss.nKeys + 1 }
  let vchPrivKey ← fromValue readBytes
  let key ← checkKey env keyTexts vchPubKey vchPrivKey
  loadKey env key

def readWkeyRecord : Load Unit := do
  let vchPubKey ← fromKey readBytes
  let vchPrivKey ← fromValue readWalletKey
  let key ← checkKey env wkeyTexts vchPubKey vchPrivKey
  loadKey env key

/-- Other parameters of the derivation are not used. -/
def readMasterKey : Reader CMasterKey := do
  let vchCryptedKey ← readBytes
  let vchSalt ← readBytes
  let nDerivationMethod ← readUInt 4
  let nDeriveIterations ← readUInt 4
  let _ ← readBytes
  return ⟨vchCryptedKey, vchSalt, BitVec.ofNat 32 nDerivationMethod, BitVec.ofNat 32 nDeriveIterations⟩

def readMkey : Load Unit := do
  let nID ← fromKey (readUInt 4)
  let nID : BitVec 32 := BitVec.ofNat 32 nID
  let kMasterKey ← fromValue readMasterKey
  let s ← get
  if s.wallet.keystore.mapMasterKeys.contains nID then
    fail ("Error reading wallet database: duplicate CMasterKey id " ++ toString nID.toNat)
  else
    onWallet fun w ↦ { w with keystore := { w.keystore with
      mapMasterKeys := w.keystore.mapMasterKeys.insert nID kMasterKey
      nMasterKeyMaxID := if w.keystore.nMasterKeyMaxID < nID then nID else w.keystore.nMasterKeyMaxID } }

def readCkey : Load Unit := do
  onScan fun wss ↦ { wss with nCKeys := wss.nCKeys + 1 }
  let vchPubKey ← fromKey readBytes
  let vchPrivKey ← fromValue readBytes
  let s ← get
  match s.wallet.keystore.addCryptedKey env.C ⟨vchPubKey⟩ vchPrivKey with
  | (false, _) => fail "Error reading wallet database: LoadCryptedKey failed"
  | (true, keystore) => do
      putKeystore keystore
      onScan fun wss ↦ { wss with fIsEncrypted := true }

def readMetadata : Reader CKeyMetadata := do
  let nVersion ← readInt 4
  let nCreateTime ← readInt 8
  return ⟨nVersion, nCreateTime⟩

/-- `LoadKeyMetadata`, and the earliest key creation time as wallet birthday. -/
def loadKeyMetadata (id : CKeyID) (keyMeta : CKeyMetadata) (w : LoadedWallet) : LoadedWallet :=
  let nTimeFirstKey :=
    if keyMeta.nCreateTime ≠ 0 ∧ (w.nTimeFirstKey = 0 ∨ keyMeta.nCreateTime < w.nTimeFirstKey) then
      keyMeta.nCreateTime
    else w.nTimeFirstKey
  { w with
    mapKeyMetadata := Function.update w.mapKeyMetadata id (some keyMeta)
    nTimeFirstKey :=
      if nTimeFirstKey = 0 ∨ keyMeta.nCreateTime < nTimeFirstKey then keyMeta.nCreateTime else nTimeFirstKey }

def readKeymeta : Load Unit := do
  let vchPubKey ← fromKey readBytes
  let keyMeta ← fromValue readMetadata
  onScan fun wss ↦ { wss with nKeyMeta := wss.nKeyMeta + 1 }
  onWallet (loadKeyMetadata (env.C.getID ⟨vchPubKey⟩) keyMeta)

def readDefaultkey : Load Unit := do
  let s ← get
  match readBytesInto s.ssValue with
  | .error torn => do
      onWallet fun w ↦ { w with vchDefaultKey := torn }
      throw ()
  | .ok (vchDefaultKey, ssValue) => do
      modify fun s ↦ { s with ssValue }
      onWallet fun w ↦ { w with vchDefaultKey }

/-- Version, time and public key. -/
def readKeyPool : Reader CKeyPool := do
  let _ ← readInt 4
  let nTime ← readInt 8
  let vchPubKey ← readBytes
  return ⟨nTime, ⟨vchPubKey⟩⟩

/-- A key of the pool without metadata gets its creation time from the pool. -/
def readPool : Load Unit := do
  let nIndex ← fromKey (readInt 8)
  let keypool ← fromValue readKeyPool
  onWallet fun w ↦ { w with setKeyPool := insert nIndex w.setKeyPool }
  noteMetadata (env.C.getID keypool.vchPubKey) ⟨1, keypool.nTime⟩

def readVersionRecord : Load Unit := do
  let nFileVersion ← fromValue (readInt 4)
  onScan fun wss ↦ { wss with nFileVersion := if nFileVersion = 10300 then 300 else nFileVersion }

def readCscript : Load Unit := do
  let _ ← fromKey (readUInt 20)
  let script ← fromValue readBytes
  onWallet fun w ↦ { w with mapScripts := Function.update w.mapScripts (env.scriptID script) (some script) }

def readOrderposnext : Load Unit := do
  let nOrderPosNext ← fromValue (readInt 8)
  onWallet fun w ↦ { w with nOrderPosNext }

/-- What each type says; a record of another type is skipped. -/
def recordTypes : List (String × Load Unit) :=
  [("name", readName env), ("tx", readTxRecord env), ("acentry", readAcentry), ("key", readKeyRecord env),
    ("wkey", readWkeyRecord env), ("mkey", readMkey), ("ckey", readCkey env), ("keymeta", readKeymeta env),
    ("defaultkey", readDefaultkey), ("pool", readPool env), ("version", readVersionRecord),
    ("cscript", readCscript env), ("orderposnext", readOrderposnext)]

def readTyped (strType : List UInt8) : Load Unit :=
  match (recordTypes env).find? fun entry ↦ ofString entry.1 = strType with
  | none => return ()
  | some (_, read) => read

def readType : Load (List UInt8) := do
  let s ← get
  match readStringInto s.strType s.ssKey with
  | .error torn => do
      modify fun s ↦ { s with strType := torn }
      throw ()
  | .ok (strType, ssKey) => do
      modify fun s ↦ { s with ssKey, strType }
      return strType

/-- `ReadKeyValue`, and everything it leaves. -/
def readKeyValue (s : LoadState) : Bool × LoadState :=
  match runOn (do let strType ← readType; readTyped env strType) s with
  | (.ok _, s) => (true, s)
  | (.error _, s) => (false, s)

end Electra.Wallet
