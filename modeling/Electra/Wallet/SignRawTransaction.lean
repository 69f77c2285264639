import Electra.Text.Hex
import Electra.Wallet.RpcValue
import Electra.Wallet.SpendMine

/-!
# Signing a raw transaction

`signrawtransaction` takes one or more versions of a transaction, which parties have signed in part.  It
signs the first one as far as it can, and merges in the signatures that the versions have at the same
index.
-/

namespace Electra.Wallet

open Chain Net Script Text Foundations.Outcome

/-! ## Decoding -/

section Decode

variable (sizes : ElementSizes)

/-- The loop that decodes; the fuel is the number of bytes, of which each transaction takes some. -/
def decodeFrom : ℕ → ReadState → Option (List CTransaction)
  | 0, _ => some []
  | fuel + 1, ssData =>
      if ssData.unread.isEmpty then some []
      else
        match (readTx sizes).run ssData with
        | .error _ => none
        | .ok (tx, ssData) => (decodeFrom fuel ssData).map (tx :: ·)

def decodeVariants (txData : List UInt8) : Option (List CTransaction) :=
  decodeFrom sizes txData.length ⟨CDataStream.ofBytes txData, []⟩

end Decode

/-! ## The call -/

/-- What the call uses besides the keys of the wallet: the block files and the node, how secrets and
scripts are written, and what an evaluation that fails leaves. -/
structure RawEnv (Key : Type) extends SignEnv Key where
  sizes : ElementSizes
  files : BlockFiles
  node : NodeState
  /-- `CElectraSecret::SetString`, with the key of the secret. -/
  keyOfSecret : List UInt8 → Option Key
  scriptToString : CScript → String
  eval : LeftStack (toSignEnv.crypto ⟨1, 0, [], [], 0⟩ 0 0)

structure RpcWallet (Key : Type) where
  keystore : SigningStore Key
  isLocked : Bool
  fWalletUnlockStakingOnly : Bool

abbrev MapPrevOut := COutPoint → Option CScript

variable {Key : Type} (env : RawEnv Key) (wallet : RpcWallet Key)

section Prepare

/-- `FetchInputs` for one input.  A previous transaction that is not found has no outputs. -/
def fetchPrevOut (prevout : COutPoint) : Option CScript :=
  match fetchInput env.files env.node.txdb env.node.mempool.mapTx.lookup ∅ false false (fun _ ↦ none)
      prevout with
  | .error _ => none
  | .ok mapPrevTx => do
      let (_, txPrev) ← mapPrevTx prevout.hash
      let txout ← txPrev.vout[prevout.n]?
      return txout.scriptPubKey

def addFetched (mapPrevOut : MapPrevOut) (txin : CTxIn) : MapPrevOut :=
  match fetchPrevOut env txin.prevout with
  | none => mapPrevOut
  | some scriptPubKey => Function.update mapPrevOut txin.prevout (some scriptPubKey)

def fetchPrevOuts (vin : List CTxIn) : MapPrevOut := vin.foldl (addFetched env) fun _ ↦ none

/-- A previous output that is given in the call. -/
def parsePrevOut (p : Value) : Except RpcFailure (COutPoint × CScript) :=
  match p with
  | .obj prevOut => do
      typeCheckFields prevOut [("scriptPubKey", .str), ("txid", .str), ("vout", .int)] false
      let txidHex ← (findValue prevOut "txid").getStr
      rejectIf (isHex txidHex = false) (.jsonRpc RPC_DESERIALIZATION_ERROR "txid must be hexadecimal")
      let nOut ← (findValue prevOut "vout").getInt
      rejectIf (nOut < 0) (.jsonRpc RPC_DESERIALIZATION_ERROR "vout must be positive")
      let pkHex ← (findValue prevOut "scriptPubKey").getStr
      rejectIf (isHex pkHex = false) (.jsonRpc RPC_DESERIALIZATION_ERROR "scriptPubKey must be hexadecimal")
      return (⟨setHex txidHex, nOut.toInt.toNat⟩, parseHex pkHex)
  | _ => .error (.jsonRpc RPC_DESERIALIZATION_ERROR
      "expected object with \x7b\"txid'\",\"vout\",\"scriptPubKey\"\x7d")

def addPrevOut (mapPrevOut : MapPrevOut) (p : Value) : Except RpcFailure MapPrevOut := do
  let (outpoint, scriptPubKey) ← parsePrevOut p
  match mapPrevOut outpoint with
  | some known => do
      -- Complain if scriptPubKey doesn't match
      rejectIf (known ≠ scriptPubKey) (.jsonRpc RPC_DESERIALIZATION_ERROR
        ("Previous output scriptPubKey mismatch:\n" ++ env.scriptToString known ++ "\nvs:\n" ++
          env.scriptToString scriptPubKey))
      return mapPrevOut
  | none => return Function.update mapPrevOut outpoint (some scriptPubKey)

/-- The previous outputs that are given. -/
def prevTxs (params : List Value) : Except RpcFailure (List Value) :=
  match optionalParam params 1 with
  | none => .ok []
  | some v => v.getArray

def parseKey (k : Value) : Except RpcFailure Key := do
  let secret ← k.getStr
  require (env.keyOfSecret secret) (.jsonRpc RPC_INVALID_ADDRESS_OR_KEY "Invalid private key")

/-- A key store that has the keys only. -/
def tempKeystore (keys : List Key) : SigningStore Key :=
  let getKey := fun keyID ↦ keys.reverse.find? fun key ↦ env.getID (env.getPubKey key) = keyID
  { mapKeys := (keys.map fun key ↦ env.getID (env.getPubKey key)).toFinset
    mapScripts := ∅
    getKey
    getPubKey := fun keyID ↦ (getKey keyID).map env.getPubKey }

def chooseKeystore (params : List Value) : Except RpcFailure (SigningStore Key) :=
  match optionalParam params 2 with
  | none => do
      rejectIf (wallet.isLocked = true) (.jsonRpc RPC_WALLET_UNLOCK_NEEDED
        "Error: Please enter the wallet passphrase with walletpassphrase first.")
      rejectIf (wallet.fWalletUnlockStakingOnly = true)
        (.jsonRpc RPC_WALLET_UNLOCK_NEEDED "Error: Wallet is unlocked for staking only.")
      return wallet.keystore
  | some v => do
      let values ← v.getArray
      let keys ← values.mapM (parseKey env)
      return tempKeystore env keys

def mapSigHashValues : List (String × BitVec 32) :=
  [("ALL", SIGHASH_ALL), ("ALL|ANYONECANPAY", SIGHASH_ALL ||| SIGHASH_ANYONECANPAY),
    ("NONE", SIGHASH_NONE), ("NONE|ANYONECANPAY", SIGHASH_NONE ||| SIGHASH_ANYONECANPAY),
    ("SINGLE", SIGHASH_SINGLE), ("SINGLE|ANYONECANPAY", SIGHASH_SINGLE ||| SIGHASH_ANYONECANPAY)]

def chooseHashType (params : List Value) : Except RpcFailure (BitVec 32) :=
  match optionalParam params 3 with
  | none => .ok SIGHASH_ALL
  | some v => do
      let strHashType ← v.getStr
      let entry ← require (mapSigHashValues.find? fun entry ↦ Records.ofString entry.1 = strHashType)
        (.jsonRpc RPC_INVALID_PARAMETER "Invalid sighash param")
      return entry.2

/-- A call whose parameters have passed their checks. -/
structure RawCall (Key : Type) where
  first : CTransaction
  others : List CTransaction
  mapPrevOut : MapPrevOut
  keystore : SigningStore Key
  nHashType : BitVec 32

def RawCall.txVariants (call : RawCall Key) : List CTransaction := call.first :: call.others

/-- What comes before the inputs are signed. -/
def prepare (params : List Value) : Except RpcFailure (RawCall Key) := do
  rejectIf (params.length < 1 ∨ params.length > 4) (.runtimeError "signrawtransaction")
  typeCheck params [.str, .array, .array, .str] true
  let hex ← (params.headD .null).getStr
  let txVariants ← require (decodeVariants env.sizes (parseHex hex))
    (.jsonRpc RPC_DESERIALIZATION_ERROR "TX decode failed")
  match txVariants with
  | [] => .error (.jsonRpc RPC_DESERIALIZATION_ERROR "Missing transaction")
  | first :: others => do
      let values ← prevTxs params
      let mapPrevOut ← values.foldlM (addPrevOut env) (fetchPrevOuts env first.vin)
      let keystore ← chooseKeystore env wallet params
      let nHashType ← chooseHashType params
      return { first, others, mapPrevOut, keystore, nHashType }

end Prepare

section Sign

/-- `CombineSignatures` with the signature that a version has at the index. -/
def mergeVariant (prevPubKey : CScript) (i : ℕ) (mergedTx txv : CTransaction) :
    Except RpcFailure CTransaction := do
  let txin ← require mergedTx.vin[i]? .outOfRange
  let theirs ← require txv.vin[i]? .outOfRange
  return setScriptSig mergedTx i (combineSignatures (env.crypto mergedTx i 0) env.eval prevPubKey
    txin.scriptSig theirs.scriptSig)

/-- Only sign `SIGHASH_SINGLE` if there's a corresponding output. -/
def signWhere (call : RawCall Key) (prevPubKey : CScript) (mergedTx : CTransaction) (i : ℕ) :
    Except RpcFailure CTransaction :=
  if call.nHashType &&& ~~~SIGHASH_ANYONECANPAY ≠ SIGHASH_SINGLE ∨ i < mergedTx.vout.length then do
    let signed ← require (call.keystore.signSignature env.toSignEnv prevPubKey mergedTx i call.nHashType)
      .outOfRange
    return signed.2
  else return mergedTx

/-- One turn of the loop, with the transaction and whether it is complete so far. -/
def signRawInput (call : RawCall Key) (s : CTransaction × Bool) (i : ℕ) :
    Except RpcFailure (CTransaction × Bool) := do
  let txin ← require s.1.vin[i]? .outOfRange
  match call.mapPrevOut txin.prevout with
  | none => return (s.1, false)
  | some prevPubKey => do
      let mergedTx ← signWhere env call prevPubKey (setScriptSig s.1 i []) i
      let mergedTx ← call.txVariants.foldlM (mergeVariant env prevPubKey i) mergedTx
      let txin ← require mergedTx.vin[i]? .outOfRange
      return (mergedTx, s.2 && env.verifyScript txin.scriptSig prevPubKey mergedTx i 0)

def signCall (call : RawCall Key) : Except RpcFailure (CTransaction × Bool) :=
  (List.range call.first.vin.length).foldlM (signRawInput env call) (call.first, true)

/-- The transaction in hexadecimal form, and whether it is completely signed. -/
def signrawtransaction (params : List Value) : Except RpcFailure (List UInt8 × Bool) := do
  let call ← prepare env wallet params
  let (mergedTx, fComplete) ← signCall env call
  return (hexStr (writeTx mergedTx), fComplete)

end Sign

end Electra.Wallet
