import Electra.Wallet.Payments

/-!
# Cached amounts

A wallet transaction remembers its debit, its credit, the part of the credit that is available, and its
change.  The amounts depend on the keys, the scripts, the address book and the other transactions of the
wallet.
-/

namespace Electra.Wallet

open Chain Script

/-- The hash of public keys and of scripts. -/
structure OwnerEnv where
  P : ChainParams
  getID : Valtype → CKeyID
  getScriptID : CScript → CKeyID

structure OwnerStore where
  mapKeys : Finset CKeyID
  mapScripts : AList fun _ : CKeyID ↦ CScript

namespace OwnerStore

variable (env : OwnerEnv) (keystore : OwnerStore)

def haveKey (keyID : CKeyID) : Bool := decide (keyID ∈ keystore.mapKeys)

def haveKeys (pubkeys : List Valtype) : ℕ := pubkeys.countP fun pubkey ↦ keystore.haveKey (env.getID pubkey)

/-- A script behind a script hash is looked up in turn. -/
def isMineFuel : ℕ → CScript → Bool
  | 0, _ => false
  | depth + 1, scriptPubKey =>
      let (fSolved, whichType, vSolutions) := solver scriptPubKey .nonstandard []
      if !fSolved then false
      else
        match whichType with
        | .nonstandard => false
        | .pubkey => keystore.haveKey (env.getID (vSolutions.headD []))
        | .pubkeyhash => keystore.haveKey (uint160 (vSolutions.headD []))
        | .scripthash =>
            match keystore.mapScripts.lookup (uint160 (vSolutions.headD [])) with
            | none => false
            | some subscript => isMineFuel depth subscript
        | .multisig =>
            let keys := (vSolutions.drop 1).dropLast
            decide (keystore.haveKeys env keys = keys.length)

/-- Each lookup goes to another script of the store. -/
def isMine (scriptPubKey : CScript) : Bool :=
  keystore.isMineFuel env (keystore.mapScripts.entries.length + 1) scriptPubKey

def isMineAddress : CTxDestination → Bool
  | .noDestination => false
  | .keyID id => keystore.haveKey id
  | .scriptID id => (keystore.mapScripts.lookup id).isSome

end OwnerStore

/-- The amounts that are remembered. -/
structure CachingTx extends CWalletTx where
  nDebitCached : Option ℤ
  nCreditCached : Option ℤ
  nAvailableCreditCached : Option ℤ
  nChangeCached : Option ℤ

structure CachingWallet where
  keystore : OwnerStore
  mapAddressBook : Finset CTxDestination
  vchDefaultKey : CKeyID
  mapWallet : Uint256 → Option CachingTx

/-- A sum of amounts that has to stay in the range of money. -/
def sumOfMoney (amounts : List (Option ℤ)) : Option ℤ :=
  amounts.foldlM (fun nSum amount ↦ do
    let nValue ← amount
    if moneyRange (nSum + nValue) then some (nSum + nValue) else none) 0

namespace CachingWallet

variable (env : OwnerEnv) (wallet : CachingWallet)

def isMine (txout : CTxOut) : Bool := wallet.keystore.isMine env txout.scriptPubKey

/-- Any payment to an address that is ours but isn't in the address book is change. -/
def isChange (txout : CTxOut) : Bool :=
  match extractDestination env.getID txout.scriptPubKey with
  | none => false
  | some address => wallet.keystore.isMineAddress address && decide (address ∉ wallet.mapAddressBook)

def output (prevout : COutPoint) : Option CTxOut := do
  let prev ← wallet.mapWallet prevout.hash
  prev.vout[prevout.n]?

def debitOf (txin : CTxIn) : ℤ :=
  match wallet.output txin.prevout with
  | none => 0
  | some txout => if wallet.isMine env txout then txout.nValue else 0

def creditOf (txout : CTxOut) : Option ℤ :=
  if moneyRange txout.nValue then some (if wallet.isMine env txout then txout.nValue else 0) else none

def changeOf (txout : CTxOut) : Option ℤ :=
  if moneyRange txout.nValue then some (if wallet.isChange env txout then txout.nValue else 0) else none

def getDebit (tx : CTransaction) : Option ℤ := sumOfMoney (tx.vin.map fun txin ↦ some (wallet.debitOf env txin))

def getCredit (tx : CTransaction) : Option ℤ := sumOfMoney (tx.vout.map (wallet.creditOf env))

def getChange (tx : CTransaction) : Option ℤ := sumOfMoney (tx.vout.map (wallet.changeOf env))

/-- The outputs that are not spent. -/
def unspent (wtx : CWalletTx) : List CTxOut :=
  (wtx.vout.zipIdx.filter fun output ↦ !wtx.isSpent output.2).map Prod.fst

def getAvailableCredit (wtx : CWalletTx) : Option ℤ := sumOfMoney ((unspent wtx).map (wallet.creditOf env))

def update (hash : Uint256) (wtx : CachingTx) : CachingWallet :=
  { wallet with mapWallet := Function.update wallet.mapWallet hash (some wtx) }

/-- Change one transaction of the wallet. -/
def modify (hash : Uint256) (f : CachingTx → CachingTx) : CachingWallet :=
  match wallet.mapWallet hash with
  | none => wallet
  | some wtx => wallet.update hash (f wtx)

end CachingWallet

namespace CachingTx

variable (env : OwnerEnv) (wallet : CachingWallet) (wtx : CachingTx)

def markDirty : CachingTx := ⟨wtx.toCWalletTx, none, none, none, none⟩

/-- A flag that changes makes the available credit unknown. -/
def markSpent (nOut : ℕ) : CachingTx :=
  if nOut < wtx.vout.length then
    { wtx with
      toCWalletTx := wtx.toCWalletTx.markSpent nOut
      nAvailableCreditCached := if wtx.isSpent nOut then wtx.nAvailableCreditCached else none }
  else wtx

def markUnspent (nOut : ℕ) : CachingTx :=
  if nOut < wtx.vout.length then
    { wtx with
      toCWalletTx := wtx.toCWalletTx.markUnspent nOut
      nAvailableCreditCached := if wtx.isSpent nOut then none else wtx.nAvailableCreditCached }
  else wtx

def updateSpent (vfNewSpent : List Bool) : CachingTx :=
  { wtx with
    toCWalletTx := wtx.toCWalletTx.updateSpent vfNewSpent
    nAvailableCreditCached :=
      if (wtx.toCWalletTx.updateSpent vfNewSpent).vfSpent = wtx.vfSpent then wtx.nAvailableCreditCached
      else none }

/-- Must wait until coinbase is safely deep enough in the chain before valuing it. -/
def isImmature (nBlocksToMaturity : ℤ) : Bool :=
  (wtx.isCoinBase || wtx.isCoinStake) && decide (nBlocksToMaturity > 0)

/-! An amount that is asked for, if it does not throw, and what is remembered then. -/

def getDebit : Option ℤ :=
  if wtx.vin.isEmpty then some 0 else wtx.nDebitCached.or (wallet.getDebit env wtx.toCTransaction)

def rememberDebit : CachingTx :=
  if wtx.vin.isEmpty then wtx
  else { wtx with nDebitCached := wtx.nDebitCached.or (wallet.getDebit env wtx.toCTransaction) }

def getCredit (nBlocksToMaturity : ℤ) (fUseCache : Bool) : Option ℤ :=
  if wtx.isImmature nBlocksToMaturity then some 0
  else if fUseCache then wtx.nCreditCached.or (wallet.getCredit env wtx.toCTransaction)
  else wallet.getCredit env wtx.toCTransaction

def rememberCredit (nBlocksToMaturity : ℤ) (fUseCache : Bool) : CachingTx :=
  if wtx.isImmature nBlocksToMaturity then wtx
  else { wtx with nCreditCached :=
    if fUseCache then wtx.nCreditCached.or (wallet.getCredit env wtx.toCTransaction)
    else (wallet.getCredit env wtx.toCTransaction).or wtx.nCreditCached }

def getAvailableCredit (nBlocksToMaturity : ℤ) (fUseCache : Bool) : Option ℤ :=
  if wtx.isImmature nBlocksToMaturity then some 0
  else if fUseCache then
    wtx.nAvailableCreditCached.or (wallet.getAvailableCredit env wtx.toCWalletTx)
  else wallet.getAvailableCredit env wtx.toCWalletTx

def rememberAvailableCredit (nBlocksToMaturity : ℤ) (fUseCache : Bool) : CachingTx :=
  if wtx.isImmature nBlocksToMaturity then wtx
  else { wtx with nAvailableCreditCached :=
    if fUseCache then wtx.nAvailableCreditCached.or (wallet.getAvailableCredit env wtx.toCWalletTx)
    else (wallet.getAvailableCredit env wtx.toCWalletTx).or wtx.nAvailableCreditCached }

def getChange : Option ℤ := wtx.nChangeCached.or (wallet.getChange env wtx.toCTransaction)

def rememberChange : CachingTx :=
  { wtx with nChangeCached := wtx.nChangeCached.or (wallet.getChange env wtx.toCTransaction) }

end CachingTx

/-- What changes the keys, the scripts or the address book.  A key is not added when the wallet is locked. -/
inductive OwnerEvent
  | addKey (fLocked : Bool) (keyID : CKeyID)
  | addCScript (redeemScript : CScript)
  | setAddressBookName (address : CTxDestination)
  | delAddressBookName (address : CTxDestination)
  | setDefaultKey (keyID : CKeyID)

/-- What `GetKeyFromPool` does: the keys that it generates and the key that it finds. -/
structure PoolKey where
  generated : List CKeyID
  result : Option CKeyID

/-- What a call of `AddToWallet` meets: whether the record is written, the keys from the pool for the
outputs that pay to the default key, of which there is none in the graphical program, and the depths. -/
structure AddCall where
  fWritten : Bool
  poolKey : ℕ → PoolKey
  nBlocksToMaturity : CWalletTx → ℤ

inductive AmountEvent
  | owner (event : OwnerEvent)
  | addToWallet (wtxIn : CachingTx) (call : AddCall)
  | markSpent (hash : Uint256) (nOut : ℕ)
  | markUnspent (hash : Uint256) (nOut : ℕ)
  | updateSpent (hash : Uint256) (vfNewSpent : List Bool)
  | markDirty
  | getDebit (hash : Uint256)
  | getCredit (hash : Uint256) (nBlocksToMaturity : ℤ) (fUseCache : Bool)
  | getAvailableCredit (hash : Uint256) (nBlocksToMaturity : ℤ) (fUseCache : Bool)
  | getChange (hash : Uint256)

namespace CachingWallet

variable (env : OwnerEnv)

def changeOwner (wallet : CachingWallet) : OwnerEvent → CachingWallet
  | .addKey fLocked keyID =>
      if fLocked then wallet
      else { wallet with keystore.mapKeys := insert keyID wallet.keystore.mapKeys }
  | .addCScript redeemScript =>
      { wallet with keystore.mapScripts :=
          wallet.keystore.mapScripts.insert (env.getScriptID redeemScript) redeemScript }
  | .setAddressBookName address => { wallet with mapAddressBook := insert address wallet.mapAddressBook }
  | .delAddressBookName address => { wallet with mapAddressBook := wallet.mapAddressBook.erase address }
  | .setDefaultKey keyID => { wallet with vchDefaultKey := keyID }

/-- One input of `WalletUpdateSpent`, which logs the credit before it sets the flag, and the loop ends when
this throws. -/
def updateSpentInput (nBlocksToMaturity : CWalletTx → ℤ) (s : CachingWallet × Bool)
    (prevout : COutPoint) : CachingWallet × Bool :=
  if s.2 then s
  else
    match s.1.mapWallet prevout.hash with
    | none => s
    | some wtx =>
        match wtx.vout[prevout.n]? with
        | none => s
        | some txout =>
            if !wtx.isSpent prevout.n && s.1.isMine env txout then
              let n := nBlocksToMaturity wtx.toCWalletTx
              match wtx.getCredit env s.1 n true with
              | none => (s.1, true)
              | some _ =>
                  (s.1.update prevout.hash ((wtx.rememberCredit env s.1 n true).markSpent prevout.n), false)
            else s

def refreshOutput (hash : Uint256) (wallet : CachingWallet) (output : CTxOut × ℕ) : CachingWallet :=
  if wallet.isMine env output.1 then wallet.modify hash fun wtx ↦ wtx.markUnspent output.2 else wallet

def walletUpdateSpent (nBlocksToMaturity : CWalletTx → ℤ) (wallet : CachingWallet) (tx : CTransaction)
    (fBlock : Bool) : CachingWallet :=
  let s := (tx.vin.map CTxIn.prevout).foldl (updateSpentInput env nBlocksToMaturity) (wallet, false)
  if s.2 then s.1
  else if fBlock then tx.vout.zipIdx.foldl (refreshOutput env (env.P.hashTx tx)) s.1
  else s.1

/-- The transaction that is inserted, or found and merged. -/
def inserted (wallet : CachingWallet) (wtxIn : CachingTx) : CachingTx :=
  match wallet.mapWallet (env.P.hashTx wtxIn.toCTransaction) with
  | none => wtxIn.markDirty
  | some wtx => ⟨CWallet.mergeTx wtx.toCWalletTx wtxIn.toCWalletTx, none, none, none, none⟩

/-- `fInsertedNew || fUpdated`. -/
def isChanged (wallet : CachingWallet) (wtxIn : CachingTx) : Bool :=
  match wallet.mapWallet (env.P.hashTx wtxIn.toCTransaction) with
  | none => true
  | some wtx => decide (CWallet.mergeTx wtx.toCWalletTx wtxIn.toCWalletTx ≠ wtx.toCWalletTx)

/-- If the default receiving address gets used, replace it with a new one. -/
def defaultKeyEvents (wallet : CachingWallet) (wtx : CWalletTx) (poolKey : ℕ → PoolKey) : List OwnerEvent :=
  (wtx.vout.zipIdx.filter fun output ↦
    decide (output.1.scriptPubKey = scriptFor (.keyID wallet.vchDefaultKey))).flatMap fun output ↦
      (poolKey output.2).generated.map (OwnerEvent.addKey false) ++
        (poolKey output.2).result.toList.flatMap fun keyID ↦
          [.setDefaultKey keyID, .setAddressBookName (.keyID keyID)]

def insertTx (wallet : CachingWallet) (wtxIn : CachingTx) : CachingWallet :=
  wallet.update (env.P.hashTx wtxIn.toCTransaction) (wallet.inserted env wtxIn)

def addToWallet (wallet : CachingWallet) (wtxIn : CachingTx) (call : AddCall) : CachingWallet :=
  let wtx := wallet.inserted env wtxIn
  let bound := wallet.insertTx env wtxIn
  -- Write to disk
  if wallet.isChanged env wtxIn && !call.fWritten then bound
  else
    let replaced := (bound.defaultKeyEvents wtx.toCWalletTx call.poolKey).foldl (changeOwner env) bound
    replaced.walletUpdateSpent env call.nBlocksToMaturity wtx.toCTransaction
      (decide (wtxIn.hashBlock ≠ 0))

def step (wallet : CachingWallet) : AmountEvent → CachingWallet
  | .owner event => wallet.changeOwner env event
  | .addToWallet wtxIn call => wallet.addToWallet env wtxIn call
  | .markSpent hash nOut => wallet.modify hash fun wtx ↦ wtx.markSpent nOut
  | .markUnspent hash nOut => wallet.modify hash fun wtx ↦ wtx.markUnspent nOut
  | .updateSpent hash vfNewSpent => wallet.modify hash fun wtx ↦ wtx.updateSpent vfNewSpent
  | .markDirty => { wallet with mapWallet := fun hash ↦ (wallet.mapWallet hash).map CachingTx.markDirty }
  | .getDebit hash => wallet.modify hash fun wtx ↦ wtx.rememberDebit env wallet
  | .getCredit hash nBlocksToMaturity fUseCache =>
      wallet.modify hash fun wtx ↦ wtx.rememberCredit env wallet nBlocksToMaturity fUseCache
  | .getAvailableCredit hash nBlocksToMaturity fUseCache =>
      wallet.modify hash fun wtx ↦ wtx.rememberAvailableCredit env wallet nBlocksToMaturity fUseCache
  | .getChange hash => wallet.modify hash fun wtx ↦ wtx.rememberChange env wallet

def run (wallet : CachingWallet) (events : List AmountEvent) : CachingWallet := events.foldl (step env) wallet

end CachingWallet

end Electra.Wallet
