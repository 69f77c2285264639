import Electra.Chain.Checkpoints
import Electra.Foundations.WorkQueue

/-!
# Arriving blocks

A block whose predecessor is missing waits in a holding area, by its hash and by the hash of its
predecessor.  An accepted block is followed by the orphans that wait for it, and by those that wait
for them.
-/

namespace Electra.Chain

open Foundations.Outcome Foundations

/-- The output a stake comes from and the time of the coinstake. -/
abbrev ProofOfStake := COutPoint × ℕ

def nullOutPoint : COutPoint := ⟨0, uintMax⟩

def CBlock.getProofOfStake (block : CBlock) : ProofOfStake :=
  match block.isProofOfStake, block.vtx[1]? with
  | true, some tx => ((tx.vin.head?.map CTxIn.prevout).getD nullOutPoint, tx.nTime)
  | _, _ => (nullOutPoint, 0)

/-- The stake of an index entry. -/
def CBlockIndex.proofOfStake (index : CBlockIndex) : ProofOfStake :=
  (index.prevoutStake.getD nullOutPoint, index.nStakeTime)

/-- Blocks that wait for their predecessors. -/
structure OrphanBlocks where
  mapOrphanBlocks : AList fun _ : Uint256 ↦ CBlock
  mapOrphanBlocksByPrev : List (Uint256 × CBlock)
  setStakeSeenOrphan : Finset ProofOfStake

def OrphanBlocks.empty : OrphanBlocks := ⟨∅, [], ∅⟩

/-- A node with its checkpoint, the stakes of its index, and the blocks in its holding area. -/
structure BlockState where
  sync : SyncState
  setStakeSeen : Finset ProofOfStake
  orphans : OrphanBlocks

/-- What the processing of one arriving block meets: the clock of its `CheckBlock`, and for each block
that is then accepted what its acceptance meets. -/
structure ProcessEnv where
  nAdjustedTime : ℤ
  accept : Uint256 → SyncEnv

variable (P : ChainParams) (mode : CPMode)

namespace OrphanBlocks

/-- The orphans that wait for a block, in the order of the multimap. -/
def waitingFor (orphans : OrphanBlocks) (hashPrev : Uint256) : List CBlock :=
  (orphans.mapOrphanBlocksByPrev.filter fun entry ↦ entry.1 == hashPrev).map Prod.snd

/-- Walk back through the holding area to the first block that is missing. -/
def wantedFuel (orphans : OrphanBlocks) : ℕ → CBlock → Uint256
  | 0, block => block.hashPrevBlock
  | nDepth + 1, block =>
      match orphans.mapOrphanBlocks.lookup block.hashPrevBlock with
      | none => block.hashPrevBlock
      | some prev => orphans.wantedFuel nDepth prev

def wantedByOrphan (orphans : OrphanBlocks) (block : CBlock) : Uint256 :=
  orphans.wantedFuel orphans.mapOrphanBlocks.entries.length block

/-- Store an orphan. -/
def insert (orphans : OrphanBlocks) (block : CBlock) : OrphanBlocks where
  mapOrphanBlocks := orphans.mapOrphanBlocks.insert (block.getHash P) block
  mapOrphanBlocksByPrev := orphans.mapOrphanBlocksByPrev ++ [(block.hashPrevBlock, block)]
  setStakeSeenOrphan :=
    if block.isProofOfStake then Insert.insert block.getProofOfStake orphans.setStakeSeenOrphan
    else orphans.setStakeSeenOrphan

/-- Drop an orphan that was tried; its entry in the multimap goes with those of its siblings. -/
def dropTried (orphans : OrphanBlocks) (block : CBlock) : OrphanBlocks :=
  { orphans with
    mapOrphanBlocks := orphans.mapOrphanBlocks.erase (block.getHash P)
    setStakeSeenOrphan := orphans.setStakeSeenOrphan.erase block.getProofOfStake }

def eraseByPrev (orphans : OrphanBlocks) (hashPrev : Uint256) : OrphanBlocks :=
  { orphans with mapOrphanBlocksByPrev :=
      orphans.mapOrphanBlocksByPrev.filter fun entry ↦ !(entry.1 == hashPrev) }

end OrphanBlocks

def wantedByPendingSyncCheckpoint (s : BlockState) (hashBlock : Uint256) : Bool :=
  let hashPending := s.sync.hashPendingCheckpoint
  if hashPending = 0 then false
  else if hashBlock = hashPending then true
  else
    match s.orphans.mapOrphanBlocks.lookup hashPending with
    | none => false
    | some block => hashBlock == s.orphans.wantedByOrphan block

/-- `AcceptBlock` with the set of stakes that `AddToBlockIndex` keeps. -/
def acceptBlockSeen (env : SyncEnv) (s : BlockState) (block : CBlock) : Bool × BlockState :=
  let hash := block.getHash P
  let (fAccepted, sync) := acceptBlockSync P mode env s.sync block
  let setStakeSeen := match s.sync.node.mapBlockIndex hash, sync.node.mapBlockIndex hash with
    | none, some (index :: _) =>
        if index.fProofOfStake then insert index.proofOfStake s.setStakeSeen else s.setStakeSeen
    | _, _ => s.setStakeSeen
  (fAccepted, { s with sync, setStakeSeen })

/-- One orphan that waits for an accepted block: it is tried and dropped. -/
def acceptOrphanBlock (env : ProcessEnv) (s : BlockState) (block : CBlock) :
    BlockState × Option Uint256 :=
  let hash := block.getHash P
  let (fAccepted, s) := acceptBlockSeen P mode (env.accept hash) s block
  ({ s with orphans := s.orphans.dropTried P block }, if fAccepted then some hash else none)

/-- The loop over the work queue of accepted blocks. -/
def orphanLoop (env : ProcessEnv) : WorkQueue.Loop BlockState Uint256 CBlock where
  enter s _ := s
  items s hashPrev := s.orphans.waitingFor hashPrev
  visit := acceptOrphanBlock P mode env
  leave s hashPrev := { s with orphans := s.orphans.eraseByPrev hashPrev }

/-- Every turn but the first is owed to an orphan that was dropped, so the number of orphans bounds
the turns. -/
def processOrphans (env : ProcessEnv) (s : BlockState) (hash : Uint256) : BlockState :=
  ((orphanLoop P mode env).run (s.orphans.mapOrphanBlocks.entries.length + 1) s [hash]).1

/-- The bound on the target of a block that does not extend the tip, from the last checkpoint. -/
def spamLimit (pcheckpoint : PIndex) (block : CBlock) : ℤ :=
  let deltaTime : ℤ := (block.nTime : ℤ) - pcheckpoint.nTime
  let nBase := ((getLastBlockIndex block.isProofOfStake pcheckpoint).head?.map CBlockIndex.nBits).getD 0
  setCompact (if block.isProofOfStake then computeMinStake nBase deltaTime
    else computeMinWork P.fTestNet nBase deltaTime)

/-- The checks of `ProcessBlock` before the block is stored anywhere. -/
def processBlockChecks (env : ProcessEnv) (s : BlockState) (block : CBlock) : Except Reject Unit := do
  let hash := block.getHash P
  rejectIf (s.sync.indexed hash) (error "ProcessBlock() : already have block")
  rejectIf (s.orphans.mapOrphanBlocks.lookup hash).isSome
    (error "ProcessBlock() : already have block (orphan)")
  rejectIf (block.isProofOfStake ∧ block.getProofOfStake ∈ s.setStakeSeen ∧
      s.orphans.waitingFor hash = [] ∧ !wantedByPendingSyncCheckpoint s hash)
    (error "ProcessBlock() : duplicate proof-of-stake")
  (checkBlock P env.nAdjustedTime block true true true).mapError fun _ ↦
    error "ProcessBlock() : CheckBlock FAILED"
  match getLastSyncCheckpoint s.sync with
  | none => pure ()
  | some pcheckpoint =>
      rejectIf (block.hashPrevBlock ≠ s.sync.node.hashBestChain ∧
          !wantedByPendingSyncCheckpoint s hash ∧ setCompact block.nBits > spamLimit P pcheckpoint block)
        (error "ProcessBlock() : block with too little proof-of-stake or proof-of-work")

/-- A block without its predecessor goes to the holding area, unless its stake is a duplicate. -/
def holdOrphan (s : BlockState) (block : CBlock) : Bool × BlockState :=
  let hash := block.getHash P
  if block.isProofOfStake ∧ block.getProofOfStake ∈ s.orphans.setStakeSeenOrphan ∧
      s.orphans.waitingFor hash = [] ∧ !wantedByPendingSyncCheckpoint s hash then (false, s)
  else (true, { s with orphans := s.orphans.insert P block })

def processBlock (env : ProcessEnv) (s : BlockState) (block : CBlock) : Bool × BlockState :=
  match processBlockChecks P env s block with
  | .error _ => (false, s)
  | .ok _ =>
      if !s.sync.indexed block.hashPrevBlock then holdOrphan P s block
      else
        match acceptBlockSeen P mode (env.accept (block.getHash P)) s block with
        | (false, s) => (false, s)
        | (true, s) => (true, processOrphans P mode env s (block.getHash P))

inductive BlockEvent
  | processBlock (env : ProcessEnv) (block : CBlock)
  | checkpoint (env : SyncEnv) (fSignature : Bool) (hashCheckpoint : Uint256)
  | acceptTx (env : Env) (tx : CTransaction)
  | removeTx (tx : CTransaction) (fRecursive : Bool)

def handleBlockEvent (s : BlockState) : BlockEvent → BlockState
  | .processBlock env block => (processBlock P mode env s block).2
  | .checkpoint env fSignature hashCheckpoint =>
      { s with sync := handleSyncEvent P mode s.sync (.checkpoint env fSignature hashCheckpoint) }
  | .acceptTx env tx => { s with sync := handleSyncEvent P mode s.sync (.acceptTx env tx) }
  | .removeTx tx fRecursive => { s with sync := handleSyncEvent P mode s.sync (.removeTx tx fRecursive) }

end Electra.Chain
