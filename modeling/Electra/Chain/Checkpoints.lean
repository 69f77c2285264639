import Electra.Chain.Node

/-!
# Synchronized checkpoints

Checkpoint messages name a block that has to be in the best chain.  A message that arrives before
its block is pending until `AcceptBlock` finds the block in the index.
-/

namespace Electra.Chain

open Foundations.Outcome Foundations.WriteBatch

/-- `CheckpointsMode`: what a violation of the synchronized checkpoint leads to. -/
inductive CPMode
  | strict
  | advisory
  | permissive
deriving DecidableEq

/-- A node with its synchronized checkpoint. -/
structure SyncState where
  node : NodeState
  hashSyncCheckpoint : Uint256
  hashPendingCheckpoint : Uint256
  hashInvalidCheckpoint : Uint256

/-- What a call meets outside of memory, and whether a new checkpoint is written to disk. -/
structure SyncEnv extends Env where
  fCheckpointWritten : Bool

variable (P : ChainParams)

namespace SyncState

/-- Whether the index has a block. -/
def indexed (s : SyncState) (hash : Uint256) : Bool := (s.node.mapBlockIndex hash).isSome

end SyncState

def getLastSyncCheckpoint (s : SyncState) : Option PIndex := s.node.mapBlockIndex s.hashSyncCheckpoint

/-- Only a descendant of the current checkpoint is valid; one that conflicts with it is noted. -/
def validateSyncCheckpoint (s : SyncState) (hashCheckpoint : Uint256) : Bool × SyncState :=
  match s.node.mapBlockIndex s.hashSyncCheckpoint, s.node.mapBlockIndex hashCheckpoint with
  | some pindexSyncCheckpoint, some pindexCheckpointRecv =>
      if pindexCheckpointRecv.nHeight ≤ pindexSyncCheckpoint.nHeight then
        match lowerTo pindexCheckpointRecv.nHeight pindexSyncCheckpoint with
        | [] => (false, s)
        | pindex =>
            if pindex.getBlockHash ≠ hashCheckpoint then
              (false, { s with hashInvalidCheckpoint := hashCheckpoint })
            else (false, s)
      else
        match lowerTo pindexSyncCheckpoint.nHeight pindexCheckpointRecv with
        | [] => (false, s)
        | pindex =>
            if pindex.getBlockHash ≠ s.hashSyncCheckpoint then
              (false, { s with hashInvalidCheckpoint := hashCheckpoint })
            else (true, s)
  | _, _ => (false, s)

/-- `CheckSync`: whether a new block agrees with the synchronized checkpoint. -/
def checkSync (s : SyncState) (hashBlock : Uint256) (pindexPrev : PIndex) : Bool :=
  if P.fTestNet then true
  else
    match s.node.mapBlockIndex s.hashSyncCheckpoint with
    | none => false -- assert(mapBlockIndex.count(hashSyncCheckpoint))
    | some pindexSync =>
        let nHeight := pindexPrev.nHeight + 1
        let pindex := lowerTo pindexSync.nHeight pindexPrev
        if nHeight > pindexSync.nHeight ∧ (pindex = [] ∨ pindex.nHeight < pindexSync.nHeight ∨
            pindex.getBlockHash ≠ s.hashSyncCheckpoint) then false
        else if nHeight = pindexSync.nHeight ∧ hashBlock ≠ s.hashSyncCheckpoint then false
        else if nHeight < pindexSync.nHeight ∧ !s.indexed hashBlock then false
        else true

def writeSyncCheckpoint (env : SyncEnv) (s : SyncState) (hashCheckpoint : Uint256) : Bool × SyncState :=
  let txdb := CTxDB.writeSyncCheckpoint s.node.txdb.txnBegin hashCheckpoint
  let (fCommitted, txdb) := txdb.txnCommit env.fCheckpointWritten
  let s := { s with node := { s.node with txdb } }
  if fCommitted then (true, { s with hashSyncCheckpoint := hashCheckpoint }) else (false, s)

/-- The branch of a checkpoint becomes the best chain; a block that does not connect is noted. -/
def setBestChainToCheckpoint (env : SyncEnv) (s : SyncState) (hashCheckpoint : Uint256) :
    PIndex → Bool × SyncState
  | [] => (false, s)
  | index :: pprev =>
      match readFromDisk P env.files index with
      | .error _ => (false, s)
      | .ok block =>
          match setBestChain P env.toEnv s.node block (index :: pprev) with
          | (true, node) => (true, { s with node })
          | (false, node) => (false, { s with node, hashInvalidCheckpoint := hashCheckpoint })

/-- A valid checkpoint takes its place in the best chain and becomes the synchronized one. -/
def enforceSyncCheckpoint (env : SyncEnv) (s : SyncState) (hashCheckpoint : Uint256) : Bool × SyncState :=
  match s.node.mapBlockIndex hashCheckpoint with
  | none => (false, s)
  | some pindexCheckpoint =>
      if isInMainChain s.node pindexCheckpoint then writeSyncCheckpoint env s hashCheckpoint
      else
        match setBestChainToCheckpoint P env s hashCheckpoint pindexCheckpoint with
        | (true, s) => writeSyncCheckpoint env s hashCheckpoint
        | (false, s) => (false, s)

def acceptPendingSyncCheckpoint (env : SyncEnv) (s : SyncState) : Bool × SyncState :=
  if s.hashPendingCheckpoint ≠ 0 ∧ s.indexed s.hashPendingCheckpoint then
    match validateSyncCheckpoint s s.hashPendingCheckpoint with
    | (false, s) => (false, { s with hashPendingCheckpoint := 0 })
    | (true, s) =>
        match enforceSyncCheckpoint P env s s.hashPendingCheckpoint with
        | (false, s) => (false, s)
        | (true, s) => (true, { s with hashPendingCheckpoint := 0 })
  else (false, s)

/-- `CSyncCheckpoint::ProcessSyncCheckpoint` for a message whose signature is good or bad. -/
def processSyncCheckpoint (env : SyncEnv) (s : SyncState) (fSignature : Bool)
    (hashCheckpoint : Uint256) : Bool × SyncState :=
  if !fSignature then (false, s)
  else if !s.indexed hashCheckpoint then (false, { s with hashPendingCheckpoint := hashCheckpoint })
  else
    match validateSyncCheckpoint s hashCheckpoint with
    | (false, s) => (false, s)
    | (true, s) =>
        match enforceSyncCheckpoint P env s hashCheckpoint with
        | (false, s) => (false, s)
        | (true, s) => (true, { s with hashPendingCheckpoint := 0 })

/-- The last hardened checkpoint of the main chain, newest first. -/
def lastCheckpointInMainChain (node : NodeState) : Option Uint256 :=
  (mapCheckpoints.reverse.map Prod.snd).find? fun hash ↦
    (node.mapBlockIndex hash).any (isInMainChain node)

/-- `ResetSyncCheckpoint`: back to the last hardened checkpoint, which may still be pending. -/
def resetSyncCheckpoint (env : SyncEnv) (s : SyncState) : Bool × SyncState :=
  let hash := (mapCheckpoints.getLast?.map Prod.snd).getD 0
  let (fMoved, s) := match s.node.mapBlockIndex hash with
    | some pindex =>
        if isInMainChain s.node pindex then (true, s)
        else
          match setBestChainToCheckpoint P env s hash pindex with
          | (fOk, s') => (fOk, { s' with hashInvalidCheckpoint := s.hashInvalidCheckpoint })
    | none => (true, { s with hashPendingCheckpoint := hash })
  if !fMoved then (false, s)
  else
    match lastCheckpointInMainChain s.node with
    | none => (false, s)
    | some hash => writeSyncCheckpoint env s hash

/-- `LoadBlockIndex` on an empty database: the genesis block is the first checkpoint. -/
def startSync (env : SyncEnv) (setpwalletRegistered : List CWallet) (block : CBlock)
    (nFile nBlockPos : ℕ) : Bool × SyncState :=
  let (fStarted, node) := startNode P env.toEnv setpwalletRegistered block nFile nBlockPos
  let s : SyncState := ⟨node, 0, 0, 0⟩
  if !fStarted then (false, s)
  else
    match writeSyncCheckpoint env s P.genesisHash with
    | (false, s) => (false, s)
    | (true, s) => if P.fTestNet then (true, s) else resetSyncCheckpoint P env s

/-- `AcceptBlock` with the synchronized checkpoint: the block has to agree with it, and a pending one
may take effect afterwards. -/
def acceptBlockSync (mode : CPMode) (env : SyncEnv) (s : SyncState) (block : CBlock) :
    Bool × SyncState :=
  let pindexPrev := (s.node.mapBlockIndex block.hashPrevBlock).getD []
  let cpSatisfies := checkSync P s (block.getHash P) pindexPrev
  match acceptBlock P { env.toEnv with fCheckSync := decide (mode ≠ .strict) || cpSatisfies }
      s.node block with
  | (false, node) => (false, { s with node })
  | (true, node) => (true, (acceptPendingSyncCheckpoint P env { s with node }).2)

inductive SyncEvent
  | acceptBlock (env : SyncEnv) (block : CBlock)
  | checkpoint (env : SyncEnv) (fSignature : Bool) (hashCheckpoint : Uint256)
  | acceptTx (env : Env) (tx : CTransaction)
  | removeTx (tx : CTransaction) (fRecursive : Bool)

def handleSyncEvent (mode : CPMode) (s : SyncState) : SyncEvent → SyncState
  | .acceptBlock env block => (acceptBlockSync P mode env s block).2
  | .checkpoint env fSignature hashCheckpoint =>
      (processSyncCheckpoint P env s fSignature hashCheckpoint).2
  | .acceptTx env tx => { s with node := handleEvent P s.node (.acceptTx env tx) }
  | .removeTx tx fRecursive => { s with node := handleEvent P s.node (.removeTx tx fRecursive) }

end Electra.Chain
