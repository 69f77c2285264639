import Electra.Chain.ConnectBlock

/-!
# The best chain

Adding a block to the index and moving the best chain to it: a direct extension, or a
reorganisation in one database transaction up to the first block with more trust than the old tip,
followed by the postponed rest of the new branch, one database transaction a block.
-/

namespace Electra.Chain

open Foundations.Outcome Foundations.WriteBatch Foundations.SpendIndex

variable (P : ChainParams)

/-- Go back from the longer branch to a given height. -/
def lowerTo (nHeight : ℤ) : PIndex → PIndex
  | [] => []
  | index :: pprev =>
      if PIndex.nHeight (index :: pprev) > nHeight then lowerTo nHeight pprev else index :: pprev

/-- The last entry that both branches share; `none` when a branch runs out. -/
def findFork : PIndex → PIndex → Option PIndex
  | [], _ => none
  | index :: pprev, plonger =>
      if index :: pprev = plonger then some plonger
      else
        match lowerTo (PIndex.nHeight (index :: pprev)) plonger with
        | [] => none
        | lowered => if index :: pprev = lowered then some lowered else findFork pprev lowered

/-- The entries from a tip back to an ancestor, which is left out. -/
def branchFrom (pfork : PIndex) : PIndex → List PIndex
  | [] => []
  | index :: pprev =>
      if index :: pprev = pfork then [] else (index :: pprev) :: branchFrom pfork pprev

def disconnectTip (env : Env) (progress : NodeState × List CTransaction) (pindex : PIndex) :
    Except (Reject × NodeState) (NodeState × List CTransaction) := do
  let (st, vResurrect) := progress
  let index ← require pindex.head? (error "pindex", st)
  let block ← (readFromDisk P env.files index).mapError fun _ ↦
    (error "Reorganize() : ReadFromDisk for disconnect failed", st)
  let st ← (disconnectBlock P st block pindex).mapError fun failure ↦
    (error "Reorganize() : DisconnectBlock failed", failure.2)
  return (st, vResurrect ++ block.vtx.filter fun tx ↦ !(tx.isCoinBase || tx.isCoinStake))

def connectNext (env : Env) (progress : NodeState × List CTransaction) (pindex : PIndex) :
    Except (Reject × NodeState) (NodeState × List CTransaction) := do
  let (st, vDelete) := progress
  let index ← require pindex.head? (error "pindex", st)
  let block ← (readFromDisk P env.files index).mapError fun _ ↦
    (error "Reorganize() : ReadFromDisk for connect failed", st)
  let st ← (connectBlock P env st block pindex false).mapError fun _ ↦
    (error "Reorganize() : ConnectBlock failed", st)
  return (st, vDelete ++ block.vtx)

/-- `pindex->pprev->pnext = next`, if there is a previous entry. -/
def setPrevNext (next : Option PIndex) (pnext : PIndex → Option PIndex) (pindex : PIndex) :
    PIndex → Option PIndex :=
  if pindex.tail = [] then pnext else Function.update pnext pindex.tail next

/-- `pindex->pprev->pnext = pindex`, if there is a previous entry. -/
def linkFromPrev (pnext : PIndex → Option PIndex) (pindex : PIndex) : PIndex → Option PIndex :=
  setPrevNext (some pindex) pnext pindex

/-- A resurrected transaction that the pool does not accept is dropped. -/
def resurrect (files : BlockFiles) (txdb : CTxDB) (pindexBest : PIndex) (pool : CTxMemPool)
    (tx : CTransaction) : CTxMemPool :=
  match pool.accept P files txdb pindexBest tx false with
  | .ok pool => pool
  | .error _ => pool

def deleteWithConflicts (pool : CTxMemPool) (tx : CTransaction) : CTxMemPool :=
  (pool.remove P tx false).removeConflicts P tx

/-- The changes of memory after the commit of a reorganisation. -/
def switchBranch (env : Env) (st : NodeState) (vDisconnect vConnect : List PIndex)
    (vResurrect vDelete : List CTransaction) : NodeState :=
  let pnext := vDisconnect.foldl (setPrevNext none) st.pnext
  let pnext := vConnect.foldl linkFromPrev pnext
  let mempool := vResurrect.foldl (resurrect P env.files st.txdb st.pindexBest) st.mempool
  let mempool := vDelete.foldl (deleteWithConflicts P) mempool
  { st with pnext, mempool }

/-- A failure leaves the open batch and what was changed in memory up to there. -/
def reorganize (env : Env) (st : NodeState) (pindexNew : PIndex) :
    Except (Reject × NodeState) NodeState := do
  let pfork ← require (findFork st.pindexBest pindexNew) (error "Reorganize() : pprev is null", st)
  let vDisconnect := branchFrom pfork st.pindexBest
  let vConnect := (branchFrom pfork pindexNew).reverse
  let (st, vResurrect) ← vDisconnect.foldlM (disconnectTip P env) (st, [])
  let (st, vDelete) ← vConnect.foldlM (connectNext P env) (st, [])
  let txdb := st.txdb.writeHashBestChain pindexNew.getBlockHash
  let (fCommitted, txdb) := txdb.txnCommit (env.fCommitted pindexNew.getBlockHash)
  let st := { st with txdb }
  rejectIf (!fCommitted) (error "Reorganize() : TxnCommit failed", st)
  return switchBranch P env st vDisconnect vConnect vResurrect vDelete

/-- Note the trust of an invalid chain, in memory and directly on disk. -/
def invalidChainFound (st : NodeState) (pindexNew : PIndex) : NodeState :=
  if pindexNew.nChainTrust > st.nBestInvalidTrust then
    { st with
      nBestInvalidTrust := pindexNew.nChainTrust
      txdb := st.txdb.writeBestInvalidTrust pindexNew.nChainTrust }
  else st

def txnAbort (st : NodeState) : NodeState := { st with txdb := st.txdb.txnAbort }

/-- Attach a block to the new best chain being built. -/
def setBestChainInner (env : Env) (st : NodeState) (block : CBlock) (pindexNew : PIndex) :
    Bool × NodeState :=
  match connectBlock P env st block pindexNew false with
  | .error _ => (false, invalidChainFound (txnAbort st) pindexNew)
  | .ok st =>
      let txdb := st.txdb.writeHashBestChain (block.getHash P)
      let (fCommitted, txdb) := txdb.txnCommit (env.fCommitted (block.getHash P))
      let st := { st with txdb }
      if fCommitted then
        (true, { st with
          pnext := linkFromPrev st.pnext pindexNew
          mempool := block.vtx.foldl (fun pool tx ↦ pool.remove P tx false) st.mempool })
      else (false, st)

/-- The first block that makes the new chain the better one, and the later ones, latest first. -/
def splitSecondary (nBestTrust : Uint256) : PIndex → PIndex × List PIndex
  | [] => ([], [])
  | index :: pprev =>
      if pprev ≠ [] ∧ PIndex.nChainTrust pprev > nBestTrust then
        let (pindexIntermediate, vpindexSecondary) := splitSecondary nBestTrust pprev
        (pindexIntermediate, (index :: pprev) :: vpindexSecondary)
      else (index :: pprev, [])

/-- Connect one postponed block. -/
def connectPostponed (env : Env) (st : NodeState) (pindex : PIndex) : Bool × NodeState :=
  match pindex with
  | [] => (false, st)
  | index :: _ =>
      match readFromDisk P env.files index with
      | .error _ => (false, st)
      | .ok block => setBestChainInner P env { st with txdb := st.txdb.txnBegin } block pindex

/-- Connect the postponed blocks up to the first that fails; a failure is not fatal. -/
def connectSecondary (env : Env) : NodeState → List PIndex → NodeState
  | st, [] => st
  | st, pindex :: rest =>
      match connectPostponed P env st pindex with
      | (true, st) => connectSecondary env st rest
      | (false, st) => st

/-- The part of `SetBestChain` that moves the chain; `hashBestChain` and the like follow. -/
def moveBestChain (env : Env) (st : NodeState) (block : CBlock) (pindexNew : PIndex) :
    Bool × NodeState :=
  let hash := block.getHash P
  let st := { st with txdb := st.txdb.txnBegin }
  if st.pindexGenesisBlock = [] ∧ hash = P.genesisHash then
    let (fCommitted, txdb) := (st.txdb.writeHashBestChain hash).txnCommit (env.fCommitted hash)
    let st := { st with txdb }
    if fCommitted then (true, { st with pindexGenesisBlock := pindexNew }) else (false, st)
  else if block.hashPrevBlock = st.hashBestChain then setBestChainInner P env st block pindexNew
  else
    let (pindexIntermediate, vpindexSecondary) := splitSecondary st.pindexBest.nChainTrust pindexNew
    match reorganize P env st pindexIntermediate with
    | .error failure => (false, invalidChainFound (txnAbort failure.2) pindexNew)
    | .ok st => (true, connectSecondary P env st vpindexSecondary.reverse)

def setBestChain (env : Env) (st : NodeState) (block : CBlock) (pindexNew : PIndex) :
    Bool × NodeState :=
  match moveBestChain P env st block pindexNew with
  | (false, st) => (false, st)
  | (true, st) =>
      (true, { st with
        hashBestChain := block.getHash P
        pindexBest := pindexNew
        nBestHeight := pindexNew.nHeight
        nBestChainTrust := pindexNew.nChainTrust })

/-- The index entry `AddToBlockIndex` makes for a block. -/
def newBlockIndex (block : CBlock) (nFile nBlockPos : ℕ) (hashProofOfStake : Uint256)
    (stakeModifier : ℕ × Bool) : CBlockIndex where
  phashBlock := block.getHash P
  nFile
  nBlockPos
  fProofOfStake := block.isProofOfStake
  prevoutStake := if block.isProofOfStake then
      block.vtx[1]?.bind fun tx ↦ tx.vin.head?.map CTxIn.prevout else none
  nStakeTime := if block.isProofOfStake then (block.vtx[1]?.map CTransaction.nTime).getD 0 else 0
  hashProofOfStake
  nStakeModifier := stakeModifier.1
  fGeneratedStakeModifier := stakeModifier.2
  nVersion := block.nVersion
  hashMerkleRoot := block.hashMerkleRoot
  nTime := block.nTime
  nBits := block.nBits
  nNonce := block.nNonce

/-- A fresh entry has no successor, no mint and no supply yet. -/
def insertBlockIndex (st : NodeState) (pindexNew : PIndex) : NodeState :=
  { st with
    mapBlockIndex := Function.update st.mapBlockIndex pindexNew.getBlockHash (some pindexNew)
    pnext := Function.update st.pnext pindexNew none
    nMint := Function.update st.nMint pindexNew 0
    nMoneySupply := Function.update st.nMoneySupply pindexNew 0 }

/-- Enter a new entry into the block index, in memory and on disk. -/
def indexNewBlock (env : Env) (st : NodeState) (pindexNew : PIndex) : Bool × NodeState :=
  let st := insertBlockIndex st pindexNew
  let st := { st with txdb := st.txdb.txnBegin }
  let st := st.writeBlockIndex pindexNew 0
  let (fCommitted, txdb) := st.txdb.txnCommit env.fIndexCommitted
  (fCommitted, { st with txdb })

def addToBlockIndex (env : Env) (st : NodeState) (block : CBlock) (nFile nBlockPos : ℕ)
    (hashProofOfStake : Uint256) : Bool × NodeState :=
  if (st.mapBlockIndex (block.getHash P)).isSome then (false, st)
  else
    match env.stakeModifier with
    | none => (false, st)
    | some stakeModifier =>
        let pprev := (st.mapBlockIndex block.hashPrevBlock).getD []
        let pindexNew := newBlockIndex P block nFile nBlockPos hashProofOfStake stakeModifier :: pprev
        match indexNewBlock env st pindexNew with
        | (false, st) => (false, st)
        | (true, st) =>
            if PIndex.nChainTrust pindexNew > st.nBestChainTrust then
              setBestChain P env st block pindexNew
            else (true, st)

/-- `CBigNum::getvch`: little-endian digits, the sign in the top bit of the last one. -/
def getvch (n : ℤ) : List UInt8 :=
  let nSize := mpiSize n.natAbs
  (List.range nSize).map fun i ↦
    UInt8.ofNat (n.natAbs / 256 ^ i % 256 + if n < 0 ∧ i + 1 = nSize then 0x80 else 0)

/-- `CScript::operator<<` for a byte vector. -/
def pushBytes (script : CScript) (b : List UInt8) : CScript :=
  if b.length < 0x4c then script ++ [UInt8.ofNat b.length] ++ b
  else if b.length ≤ 0xff then script ++ [0x4c, UInt8.ofNat b.length] ++ b
  else if b.length ≤ 0xffff then
    script ++ [0x4d, UInt8.ofNat b.length, UInt8.ofNat (b.length / 256)] ++ b
  else script ++ 0x4e :: ((List.range 4).map fun i ↦ UInt8.ofNat (b.length / 256 ^ i)) ++ b

/-- `CScript::push_int64`; `OP_1` is 0x51. -/
def pushInt64 (script : CScript) (n : ℤ) : CScript :=
  if n = -1 ∨ (1 ≤ n ∧ n ≤ 16) then script ++ [UInt8.ofNat (n + 0x50).toNat]
  else pushBytes script (getvch n)

/-- The coinbase starts with the serialized height of its block. -/
def startsWithHeight (nHeight : ℤ) (block : CBlock) : Bool :=
  (pushInt64 [] nHeight).isPrefixOf ((block.vtx.head?.map CTransaction.scriptSig0).getD [])

/-- The checks of `AcceptBlock` on a block and its previous entry. -/
def acceptBlockChecks (env : Env) (nBestHeight : ℤ) (pindexPrev : PIndex) (block : CBlock) :
    Except Reject Unit := do
  let hash := block.getHash P
  let nHeight := pindexPrev.nHeight + 1
  rejectIf (block.isProofOfWork ∧
      nHeight > if P.fTestNet then LAST_POW_BLOCK_TEST else LAST_POW_BLOCK)
    (dos 100 "AcceptBlock() : reject proof-of-work")
  rejectIf (block.isProofOfStake ∧ !P.fTestNet ∧ nHeight < MODIFIER_INTERVAL_SWITCH)
    (dos 100 "AcceptBlock() : reject proof-of-stake")
  rejectIf (block.nBits ≠ getNextTargetRequired P pindexPrev block.isProofOfStake)
    (dos 100 "AcceptBlock() : incorrect proof-of-work or proof-of-stake")
  rejectIf ((block.nTime : ℤ) ≤ pindexPrev.getMedianTimePast ∨
      futureDrift block.nTime < pindexPrev.nTime)
    (error "AcceptBlock() : block's timestamp is too early")
  rejectIf (block.vtx.any fun tx ↦ !tx.isFinal nBestHeight (env.nAdjustedTime hash) nHeight block.nTime)
    (dos 10 "AcceptBlock() : contains a non-final transaction")
  rejectIf (!checkHardened P nHeight hash)
    (dos 100 "AcceptBlock() : rejected by hardened checkpoint lock-in")
  rejectIf (block.isProofOfStake ∧ env.hashProofOfStake = none) silent
  rejectIf (!env.fCheckSync) (error "AcceptBlock() : rejected by synchronized checkpoint")
  rejectIf (!startsWithHeight nHeight block) (dos 100 "AcceptBlock() : block height mismatch in coinbase")

def acceptBlock (env : Env) (st : NodeState) (block : CBlock) : Bool × NodeState :=
  if (st.mapBlockIndex (block.getHash P)).isSome then (false, st)
  else
    match st.mapBlockIndex block.hashPrevBlock with
    | none => (false, st)
    | some pindexPrev =>
        match acceptBlockChecks P env st.nBestHeight pindexPrev block, env.written with
        | .ok _, some (nFile, nBlockPos) =>
            addToBlockIndex P env st block nFile nBlockPos
              (if block.isProofOfStake then env.hashProofOfStake.getD 0 else 0)
        | _, _ => (false, st)

end Electra.Chain
