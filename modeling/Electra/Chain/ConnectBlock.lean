import Electra.Chain.MemPool
import Electra.Chain.Wallet

/-!
# Connecting and disconnecting a block

The state of a node, and the two operations that move its transaction index along a chain.  The
fields of a block index entry that change after its creation (`pnext`, `nMint`, `nMoneySupply`) are
maps from pointers.
-/

namespace Electra.Chain

open Foundations.Outcome Foundations.WriteBatch Foundations.SpendIndex

structure NodeState where
  mapBlockIndex : Uint256 → Option PIndex
  pnext : PIndex → Option PIndex
  nMint : PIndex → ℤ
  nMoneySupply : PIndex → ℤ
  pindexGenesisBlock : PIndex
  pindexBest : PIndex
  hashBestChain : Uint256
  nBestHeight : ℤ
  nBestChainTrust : Uint256
  nBestInvalidTrust : Uint256
  mempool : CTxMemPool
  setpwalletRegistered : List CWallet
  txdb : CTxDB

/-- What one call meets outside the node's memory: the block files as they can be read, whether the
commit that makes a block the best one is written, the clock while a block is checked, and the
verdicts of the stake kernel and of the synchronized checkpoint. -/
structure Env where
  files : BlockFiles
  fCommitted : Uint256 → Bool
  fIndexCommitted : Bool
  nAdjustedTime : Uint256 → ℤ
  stakeModifier : Option (ℕ × Bool)
  hashProofOfStake : Option Uint256
  fCheckSync : Bool
  written : Option (ℕ × ℕ)

variable (P : ChainParams)

namespace NodeState

/-- `WriteBlockIndex(CDiskBlockIndex(pindex))` with a given `hashNext`; nothing for a null pointer. -/
def writeBlockIndex (st : NodeState) (pindex : PIndex) (hashNext : Uint256) : NodeState :=
  match pindex with
  | [] => st
  | index :: pprev =>
      let blockindex : CDiskBlockIndex := {
        index
        nHeight := PIndex.nHeight (index :: pprev)
        nMint := st.nMint (index :: pprev)
        nMoneySupply := st.nMoneySupply (index :: pprev)
        hashPrev := PIndex.getBlockHash pprev
        hashNext }
      { st with txdb := st.txdb.writeBlockIndex blockindex }

/-- Hash of the block that follows on the best chain, zero if there is none. -/
def hashNext (st : NodeState) (pindex : PIndex) : Uint256 :=
  (st.pnext pindex).elim 0 PIndex.getBlockHash

end NodeState

/-! ## Connecting -/

/-- The accumulators of the loop in `ConnectBlock`. -/
structure ConnectSums where
  mapQueuedChanges : MapTxIndex
  nFees : ℤ
  nValueIn : ℤ
  nValueOut : ℤ
  nStakeReward : ℤ
  nSigOps : ℕ

def ConnectSums.init : ConnectSums := ⟨∅, 0, 0, 0, 0, 0⟩

/-- An older transaction of the same hash has an output that is not spent. -/
def overwritesUnspent (txdb : CTxDB) (hashTx : Uint256) : Bool :=
  match txdb.readTxIndex hashTx with
  | some txindexOld => txindexOld.vSpent.any Option.isNone
  | none => false

/-- The part of the loop body for a transaction with inputs. -/
def connectSpending (files : BlockFiles) (st : NodeState) (pindex : PIndex) (sums : ConnectSums)
    (tx : CTransaction) (posThisTx : CDiskTxPos) : Except Reject ConnectSums := do
  let inputs ← (fetchInputs files st.txdb st.mempool.mapTx.lookup sums.mapQueuedChanges true false tx).mapError
    Prod.snd
  let nP2SHSigOps ← getP2SHSigOpCount P inputs tx
  let nSigOps := sums.nSigOps + nP2SHSigOps
  rejectIf (nSigOps > MAX_BLOCK_SIGOPS) (dos 100 "ConnectBlock() : too many sigops")
  let nTxValueIn ← getValueIn inputs tx
  let nTxValueOut ← tx.getValueOut
  let mapQueuedChanges ← connectInputs P st.nBestHeight inputs sums.mapQueuedChanges posThisTx pindex
    true false tx
  return {
    mapQueuedChanges
    nFees := if tx.isCoinStake then sums.nFees else sums.nFees + (nTxValueIn - nTxValueOut)
    nValueIn := sums.nValueIn + nTxValueIn
    nValueOut := sums.nValueOut + nTxValueOut
    nStakeReward := if tx.isCoinStake then nTxValueOut - nTxValueIn else sums.nStakeReward
    nSigOps }

/-- The loop body over the transactions in `ConnectBlock`. -/
def connectTx (files : BlockFiles) (st : NodeState) (pindex : PIndex) (sums : ConnectSums)
    (entry : CTransaction × CDiskTxPos) : Except Reject ConnectSums := do
  let (tx, posThisTx) := entry
  let hashTx := P.hashTx tx
  rejectIf (overwritesUnspent st.txdb hashTx) silent
  let nSigOps := sums.nSigOps + getLegacySigOpCount P tx
  rejectIf (nSigOps > MAX_BLOCK_SIGOPS) (dos 100 "ConnectBlock() : too many sigops")
  let sums := { sums with nSigOps }
  let sums ← if tx.isCoinBase then do
      let nTxValueOut ← tx.getValueOut
      pure { sums with nValueOut := sums.nValueOut + nTxValueOut }
    else connectSpending P files st pindex sums tx posThisTx
  let txindex : CTxIndex := ⟨posThisTx, List.replicate tx.vout.length none⟩
  return { sums with mapQueuedChanges := sums.mapQueuedChanges.insert hashTx txindex }

/-- The reward checks, against the height of `pindexBest`. -/
def checkReward (files : BlockFiles) (st : NodeState) (block : CBlock) (sums : ConnectSums) :
    Except Reject Unit := do
  if block.isProofOfStake then
    let tx ← require block.vtx[1]? (error "vtx[1]")
    let nCoinAge ← (getCoinAge P files st.pindexBest.nHeight st.txdb tx).mapError fun _ ↦
      error "ConnectBlock() : unable to get coin age for coinstake"
    rejectIf (sums.nStakeReward > getProofOfStakeReward P st.pindexBest.nHeight nCoinAge sums.nFees)
      (dos 100 "ConnectBlock() : coinstake pays too much")
  else
    let tx ← require block.vtx.head? (error "vtx[0]")
    let nValueOut ← tx.getValueOut
    rejectIf (nValueOut > getProofOfWorkReward P st.pindexBest.nHeight sums.nFees)
      (dos 50 "ConnectBlock() : coinbase reward exceeded")

/-- The transactions of a block with the positions `ConnectBlock` gives them. -/
def CBlock.located (block : CBlock) (pindex : PIndex) (fJustCheck : Bool) :
    List (CTransaction × CDiskTxPos) :=
  let index := pindex.head?
  let nFile := (index.map CBlockIndex.nFile).getD 0
  let nBlockPos := (index.map CBlockIndex.nBlockPos).getD 0
  if fJustCheck then block.vtx.map fun tx ↦ (tx, ⟨nFile, nBlockPos, 1⟩)
  else locate nFile nBlockPos (firstTxPos nBlockPos block.vtx) block.vtx

/-- All the checks of `ConnectBlock`, with the sums they leave. -/
def connectChecks (env : Env) (st : NodeState) (block : CBlock) (pindex : PIndex)
    (fJustCheck : Bool) : Except Reject ConnectSums := do
  checkBlock P (env.nAdjustedTime (block.getHash P)) block (!fJustCheck) (!fJustCheck) false
  let sums ← (block.located pindex fJustCheck).foldlM (connectTx P env.files st pindex) .init
  checkReward P env.files st block sums
  return sums

/-- Write the pending changes of the transaction index. -/
def writeQueuedChanges (txdb : CTxDB) (mapQueuedChanges : MapTxIndex) : CTxDB :=
  mapQueuedChanges.entries.foldl (fun txdb change ↦ txdb.updateTxIndex change.1 change.2) txdb

/-- Note the mint and the money supply of a block, in memory and on disk. -/
def recordMint (st : NodeState) (pindex : PIndex) (sums : ConnectSums) : NodeState :=
  let nMint := sums.nValueOut - sums.nValueIn + sums.nFees
  let nPrevSupply := if pindex.tail = [] then 0 else st.nMoneySupply pindex.tail
  let nMoneySupply := nPrevSupply + sums.nValueOut - sums.nValueIn
  let st := { st with
    nMint := Function.update st.nMint pindex nMint
    nMoneySupply := Function.update st.nMoneySupply pindex nMoneySupply }
  st.writeBlockIndex pindex (st.hashNext pindex)

/-- Write the changes of the transaction index, link the block on disk, tell the wallets. -/
def enterBlock (st : NodeState) (block : CBlock) (pindex : PIndex) (sums : ConnectSums) : NodeState :=
  let st := { st with txdb := writeQueuedChanges st.txdb sums.mapQueuedChanges }
  let st := st.writeBlockIndex pindex.tail pindex.getBlockHash
  let setpwalletRegistered := block.vtx.foldl
    (fun wallets tx ↦ syncWithWallets P wallets tx block true true) st.setpwalletRegistered
  { st with setpwalletRegistered }

/-- A failure leaves the state as it was. -/
def connectBlock (env : Env) (st : NodeState) (block : CBlock) (pindex : PIndex)
    (fJustCheck : Bool) : Except Reject NodeState := do
  let sums ← connectChecks P env st block pindex fJustCheck
  let st := recordMint st pindex sums
  return if fJustCheck then st else enterBlock P st block pindex sums

/-! ## Disconnecting -/

/-- Unlink the block on disk and tell the wallets, once its transactions are out of the index. -/
def leaveBlock (st : NodeState) (block : CBlock) (pindex : PIndex) : NodeState :=
  let st := st.writeBlockIndex pindex.tail 0
  let setpwalletRegistered := block.vtx.foldl
    (fun wallets tx ↦ syncWithWallets P wallets tx block false false) st.setpwalletRegistered
  { st with setpwalletRegistered }

/-- A failure leaves the writes it got to in the open batch. -/
def disconnectBlock (st : NodeState) (block : CBlock) (pindex : PIndex) :
    Except (Reject × NodeState) NodeState := do
  let txdb ← (block.vtx.reverse.foldlM (disconnectInputs P) st.txdb).mapError fun failure ↦
    (failure.1, { st with txdb := failure.2 })
  return leaveBlock P { st with txdb } block pindex

end Electra.Chain
