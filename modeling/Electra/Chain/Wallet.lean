import Electra.Chain.Block

/-!
# Wallets and the block chain

The part of a wallet that connecting and disconnecting blocks changes: its transactions, the block
each of them is in, and the spent flags of their outputs.
-/

namespace Electra.Chain

structure CWalletTx extends CTransaction where
  hashBlock : Uint256
  vMerkleBranch : List Uint256
  nIndex : ℤ
  fFromMe : Bool
  vfSpent : List Bool
deriving DecidableEq

structure CWallet where
  isMine : CScript → Bool
  nMinimumInputValue : ℤ
  mapWallet : Uint256 → Option CWalletTx

namespace CWalletTx

def isSpent (wtx : CWalletTx) (nOut : ℕ) : Bool := wtx.vfSpent.getD nOut false

/-- Set one spent flag, after bringing the flags to the number of outputs. -/
def mark (wtx : CWalletTx) (nOut : ℕ) (fSpent : Bool) : CWalletTx :=
  { wtx with vfSpent :=
      ((List.range wtx.vout.length).map fun i ↦ wtx.vfSpent.getD i false).set nOut fSpent }

def markSpent (wtx : CWalletTx) (nOut : ℕ) : CWalletTx := wtx.mark nOut true

def markUnspent (wtx : CWalletTx) (nOut : ℕ) : CWalletTx := wtx.mark nOut false

/-- Take over the spent flags of another copy of the transaction. -/
def updateSpent (wtx : CWalletTx) (vfNewSpent : List Bool) : CWalletTx :=
  { wtx with vfSpent := wtx.vfSpent.mapIdx fun i fSpent ↦ fSpent || vfNewSpent.getD i false }

end CWalletTx

namespace CWallet

variable (P : ChainParams)

/-- The output an outpoint names, if the wallet has its transaction and the output is its own. -/
def ownOutput (wallet : CWallet) (prevout : COutPoint) : Option CTxOut := do
  let prev ← wallet.mapWallet prevout.hash
  let txout ← prev.vout[prevout.n]?
  if wallet.isMine txout.scriptPubKey then some txout else none

def getDebit (wallet : CWallet) (tx : CTransaction) : ℤ :=
  (tx.vin.map fun txin ↦ ((wallet.ownOutput txin.prevout).map CTxOut.nValue).getD 0).sum

def isFromMe (wallet : CWallet) (tx : CTransaction) : Bool := decide (0 < wallet.getDebit tx)

def paysToMe (wallet : CWallet) (tx : CTransaction) : Bool :=
  tx.vout.any fun txout ↦
    wallet.isMine txout.scriptPubKey && decide (txout.nValue ≥ wallet.nMinimumInputValue)

def update (wallet : CWallet) (hash : Uint256) (wtx : CWalletTx) : CWallet :=
  { wallet with mapWallet := Function.update wallet.mapWallet hash (some wtx) }

/-- Set the spent flag of an own output that does not have it yet. -/
def updateSpentInput (wallet : CWallet) (prevout : COutPoint) : CWallet :=
  match wallet.mapWallet prevout.hash, wallet.ownOutput prevout with
  | some wtx, some _ =>
      if wtx.isSpent prevout.n then wallet else wallet.update prevout.hash (wtx.markSpent prevout.n)
  | _, _ => wallet

/-- Clear the spent flag of one output of a transaction that is now in a block. -/
def refreshOutput (hash : Uint256) (wallet : CWallet) (output : CTxOut × ℕ) : CWallet :=
  match wallet.mapWallet hash with
  | some wtx =>
      if wallet.isMine output.1.scriptPubKey then wallet.update hash (wtx.markUnspent output.2)
      else wallet
  | none => wallet

def walletUpdateSpent (wallet : CWallet) (tx : CTransaction) (fBlock : Bool) : CWallet :=
  let wallet := (tx.vin.map CTxIn.prevout).foldl updateSpentInput wallet
  if fBlock then tx.vout.zipIdx.foldl (refreshOutput (P.hashTx tx)) wallet else wallet

/-- Merge a copy of a transaction into the one the wallet has. -/
def mergeTx (wtx wtxIn : CWalletTx) : CWalletTx :=
  let wtx := if wtxIn.hashBlock ≠ 0 then { wtx with hashBlock := wtxIn.hashBlock } else wtx
  let wtx := if wtxIn.nIndex ≠ -1 then
      { wtx with vMerkleBranch := wtxIn.vMerkleBranch, nIndex := wtxIn.nIndex }
    else wtx
  let wtx := if wtxIn.fFromMe then { wtx with fFromMe := true } else wtx
  wtx.updateSpent wtxIn.vfSpent

def addToWallet (wallet : CWallet) (wtxIn : CWalletTx) : CWallet :=
  let hash := P.hashTx wtxIn.toCTransaction
  let wtx := match wallet.mapWallet hash with
    | none => wtxIn
    | some wtx => mergeTx wtx wtxIn
  (wallet.update hash wtx).walletUpdateSpent P wtx.toCTransaction (decide (wtxIn.hashBlock ≠ 0))

/-- A wallet copy of a transaction that was found in a block. -/
def walletTxInBlock (tx : CTransaction) (block : CBlock) : CWalletTx where
  toCTransaction := tx
  hashBlock := block.getHash P
  vMerkleBranch :=
    if tx ∈ block.vtx then getMerkleBranch P block (block.vtx.idxOf tx) else []
  nIndex := if tx ∈ block.vtx then block.vtx.idxOf tx else -1
  fFromMe := false
  vfSpent := []

def addToWalletIfInvolvingMe (wallet : CWallet) (tx : CTransaction) (block : CBlock)
    (fUpdate : Bool) : CWallet :=
  let fExisted := (wallet.mapWallet (P.hashTx tx)).isSome
  if fExisted && !fUpdate then wallet
  else if fExisted || wallet.paysToMe tx || wallet.isFromMe tx then
    wallet.addToWallet P (walletTxInBlock P tx block)
  else wallet.walletUpdateSpent P tx false

/-- Clear the spent flag of an own output. -/
def refundInput (wallet : CWallet) (prevout : COutPoint) : CWallet :=
  match wallet.mapWallet prevout.hash, wallet.ownOutput prevout with
  | some prev, some _ => wallet.update prevout.hash (prev.markUnspent prevout.n)
  | _, _ => wallet

/-- Only a disconnected coinstake gets its inputs back. -/
def disableTransaction (wallet : CWallet) (tx : CTransaction) : CWallet :=
  if tx.isCoinStake && wallet.isFromMe tx then
    (tx.vin.map CTxIn.prevout).foldl refundInput wallet
  else wallet

end CWallet

/-- Tell every registered wallet about a transaction of a connected or disconnected block. -/
def syncWithWallets (P : ChainParams) (wallets : List CWallet) (tx : CTransaction) (block : CBlock)
    (fUpdate fConnect : Bool) : List CWallet :=
  if fConnect then wallets.map fun wallet ↦ wallet.addToWalletIfInvolvingMe P tx block fUpdate
  else if tx.isCoinStake then
    wallets.map fun wallet ↦ if wallet.isFromMe tx then wallet.disableTransaction tx else wallet
  else wallets

end Electra.Chain
