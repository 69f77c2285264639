import Electra.Chain.Staking

/-!
# Stake modifiers and kernels

Each block has a stake modifier, taken over from its predecessor or, once an interval, put together
from one bit of each of up to 64 selected blocks.  The kernel of a coinstake is hashed with the
modifier of a block that follows the block of its coin.
-/

namespace Electra.Chain

open Foundations.Outcome

/-- Double SHA-256 of serialized values: of a proof hash with a modifier, and of a modifier with the
time of the coin's block, the position and time of its transaction, its output number and the time of
the coinstake. -/
structure KernelHashes where
  hashSelection : Uint256 → ℕ → Uint256
  hashKernel : ℕ → ℕ → ℕ → ℕ → ℕ → ℕ → Uint256

def nModifierInterval : ℤ := 10 * 60
def MODIFIER_INTERVAL_RATIO : ℤ := 3

def getStakeModifierSelectionIntervalSection (nSection : ℕ) : ℤ :=
  nModifierInterval * 63 / (63 + (63 - (nSection : ℤ)) * ( MODIFIER_INTERVAL_RATIO - 1))

def getStakeModifierSelectionInterval : ℤ :=
  ((List.range 64).map getStakeModifierSelectionIntervalSection).sum

/-- The flag that `AddToBlockIndex` sets: the last bit of the block hash. -/
def CBlockIndex.getStakeEntropyBit (index : CBlockIndex) : ℕ := index.phashBlock.toNat % 2

/-- The hash that a block is selected by; a block with proof-of-stake is favoured. -/
def CBlockIndex.hashSelection (H : KernelHashes) (nStakeModifierPrev : ℕ) (index : CBlockIndex) : Uint256 :=
  let hashProof := if index.fProofOfStake then index.hashProofOfStake else index.phashBlock
  let hashSelection := H.hashSelection hashProof nStakeModifierPrev
  if index.fProofOfStake then hashSelection >>> 32 else hashSelection

namespace PIndex

def generatedStakeModifier (pindex : PIndex) : Bool :=
  pindex.head?.any CBlockIndex.fGeneratedStakeModifier

def nStakeModifier (pindex : PIndex) : ℕ := (pindex.head?.map CBlockIndex.nStakeModifier).getD 0

def getStakeEntropyBit (pindex : PIndex) : ℕ := (pindex.head?.map CBlockIndex.getStakeEntropyBit).getD 0

def hashSelection (H : KernelHashes) (nStakeModifierPrev : ℕ) (pindex : PIndex) : Uint256 :=
  (pindex.head?.map (CBlockIndex.hashSelection H nStakeModifierPrev)).getD 0

end PIndex

/-- The last modifier that was generated and the time of its block. -/
def getLastStakeModifier : PIndex → Except Reject (ℕ × ℤ)
  | [] => .error (error "GetLastStakeModifier: null pindex")
  | index :: pprev =>
      if pprev ≠ [] ∧ !index.fGeneratedStakeModifier then getLastStakeModifier pprev
      else if !index.fGeneratedStakeModifier then
        .error (error "GetLastStakeModifier: no generation at genesis block")
      else .ok (index.nStakeModifier, index.nTime)

/-- Go back from the previous block to the first one before the selection interval. -/
def selectionCandidates (nSelectionIntervalStart : ℤ) : PIndex → List PIndex
  | [] => []
  | index :: pprev =>
      if (index.nTime : ℤ) ≥ nSelectionIntervalStart then
        (index :: pprev) :: selectionCandidates nSelectionIntervalStart pprev
      else []

/-- The order of `pair<int64_t, uint256>`. -/
def timestampLE (a b : ℤ × Uint256) : Prop := a.1 < b.1 ∨ a.1 = b.1 ∧ a.2 ≤ b.2

instance : DecidableRel timestampLE := fun a b ↦
  inferInstanceAs (Decidable (a.1 < b.1 ∨ a.1 = b.1 ∧ a.2 ≤ b.2))

def sortByTimestamp (candidates : List PIndex) : List (ℤ × Uint256) :=
  ((candidates.map fun pindex ↦ (pindex.nTime, pindex.getBlockHash)).reverse).insertionSort timestampLE

variable (H : KernelHashes) (mapBlockIndex : Uint256 → Option PIndex)

/-- The loop over the candidates, with the best hash and its block once something is selected. -/
def selectBlockFromCandidates (mapSelectedBlocks : List PIndex) (nSelectionIntervalStop : ℤ)
    (nStakeModifierPrev : ℕ) :
    Option (Uint256 × PIndex) → List (ℤ × Uint256) → Except Reject (Option (Uint256 × PIndex))
  | selected, [] => .ok selected
  | selected, item :: rest =>
      match mapBlockIndex item.2 with
      | none =>
          .error (error "SelectBlockFromCandidates: failed to find block index for candidate block")
      | some pindex =>
          if selected.isSome && decide (pindex.nTime > nSelectionIntervalStop) then .ok selected
          else if mapSelectedBlocks.any fun other ↦ other.getBlockHash == pindex.getBlockHash then
            selectBlockFromCandidates mapSelectedBlocks nSelectionIntervalStop nStakeModifierPrev selected
              rest
          else
            let hashSelection := pindex.hashSelection H nStakeModifierPrev
            let selected := match selected with
              | none => (hashSelection, pindex)
              | some (hashBest, pindexSelected) =>
                  if hashSelection < hashBest then (hashSelection, pindex)
                  else (hashBest, pindexSelected)
            selectBlockFromCandidates mapSelectedBlocks nSelectionIntervalStop nStakeModifierPrev
              (some selected) rest

/-- The variables of the loop over the rounds. -/
structure ModifierRounds where
  nStakeModifierNew : ℕ
  nSelectionIntervalStop : ℤ
  mapSelectedBlocks : List PIndex

/-- One round selects a block and takes its entropy bit. -/
def selectRound (nStakeModifier : ℕ) (vSortedByTimestamp : List (ℤ × Uint256)) (s : ModifierRounds)
    (nRound : ℕ) : Except Reject ModifierRounds := do
  let nSelectionIntervalStop :=
    s.nSelectionIntervalStop + getStakeModifierSelectionIntervalSection nRound
  let selected ← selectBlockFromCandidates H mapBlockIndex s.mapSelectedBlocks nSelectionIntervalStop
    nStakeModifier none vSortedByTimestamp
  let (_, pindex) ← require selected (error "ComputeNextStakeModifier: unable to select block")
  return {
    nStakeModifierNew := s.nStakeModifierNew ||| pindex.getStakeEntropyBit <<< nRound
    nSelectionIntervalStop
    mapSelectedBlocks := s.mapSelectedBlocks ++ [pindex] }

/-- Where the selection interval of a block starts. -/
def selectionIntervalStart (pindexPrev : PIndex) : ℤ :=
  pindexPrev.nTime / nModifierInterval * nModifierInterval - getStakeModifierSelectionInterval

/-- A new modifier, or the last one with `false`. -/
def computeNextStakeModifier (pindexPrev : PIndex) : Except Reject (ℕ × Bool) :=
  if pindexPrev = [] then .ok (0, true)
  else do
    let (nStakeModifier, nModifierTime) ← (getLastStakeModifier pindexPrev).mapError fun _ ↦
      error "ComputeNextStakeModifier: unable to get last modifier"
    if nModifierTime / nModifierInterval ≥ pindexPrev.nTime / nModifierInterval then
      return (nStakeModifier, false)
    else
      let nSelectionIntervalStart := selectionIntervalStart pindexPrev
      let vSortedByTimestamp :=
        sortByTimestamp (selectionCandidates nSelectionIntervalStart pindexPrev)
      let s ← (List.range (min 64 vSortedByTimestamp.length)).foldlM
        (selectRound H mapBlockIndex nStakeModifier vSortedByTimestamp) ⟨0, nSelectionIntervalStart, []⟩
      return (s.nStakeModifierNew, true)

/-- A modifier with the height and the time of the block that generated it. -/
structure KernelModifier where
  nStakeModifier : ℕ
  nStakeModifierHeight : ℤ
  nStakeModifierTime : ℤ
deriving DecidableEq

/-- The loop that looks for a modifier generated no earlier than a given time. -/
def findKernelModifier (pnext : PIndex → Option PIndex) (reachedBest : PIndex → Reject) (nEnd : ℤ) :
    ℕ → PIndex → ℤ × ℤ → Except Reject KernelModifier
  | 0, pindex, _ => .error (reachedBest pindex)
  | nSteps + 1, pindex, (nStakeModifierHeight, nStakeModifierTime) =>
      if nStakeModifierTime < nEnd then
        match pnext pindex with
        | none => .error (reachedBest pindex)
        | some next => findKernelModifier pnext reachedBest nEnd nSteps next
            (if next.generatedStakeModifier then (next.nHeight, next.nTime)
              else (nStakeModifierHeight, nStakeModifierTime))
      else .ok ⟨pindex.nStakeModifier, nStakeModifierHeight, nStakeModifierTime⟩

variable (P : ChainParams)

/-- What the kernel checks meet outside the node: the block files, the clock and the debug switch. -/
structure KernelEnv where
  files : BlockFiles
  nAdjustedTime : ℤ
  fDebug : Bool

/-- The end of the best chain is an error unless the node just lags behind. -/
def reachedBest (env : KernelEnv) (fPrintProofOfStake : Bool) (pindex : PIndex) : Reject :=
  let nMinAge := stakeMinAge P (decide (pindex.nHeight ≥ P.hardForkBlock))
  if fPrintProofOfStake ||
      decide (pindex.nTime + nMinAge - getStakeModifierSelectionInterval > env.nAdjustedTime) then
    error "GetKernelStakeModifier() : reached best block"
  else silent

/-- The walk goes along the best chain, whose length bounds it. -/
def getKernelStakeModifier (env : KernelEnv) (st : NodeState) (hashBlockFrom : Uint256)
    (fPrintProofOfStake : Bool) : Except Reject KernelModifier := do
  let pindexFrom ← require (st.mapBlockIndex hashBlockFrom)
    (error "GetKernelStakeModifier() : block not indexed")
  findKernelModifier st.pnext (reachedBest P env fPrintProofOfStake)
    (pindexFrom.nTime + getStakeModifierSelectionInterval) (st.pindexBest.length + 1) pindexFrom
    (pindexFrom.nHeight, pindexFrom.nTime)

/-- The hash of a kernel and the target it meets. -/
def checkStakeKernelHash (env : KernelEnv) (st : NodeState) (nBits : ℕ) (blockFrom : CBlockHeader)
    (nTxPrevOffset : ℕ) (txPrev : CTransaction) (prevout : COutPoint) (nTimeTx : ℕ)
    (fPrintProofOfStake : Bool) : Except Reject (Uint256 × Uint256) := do
  rejectIf (nTimeTx < txPrev.nTime) (error "CheckStakeKernelHash() : nTime violation")
  let nTimeBlockFrom := blockFrom.nTime
  let hashBlockFrom := P.hashHeader blockFrom
  let pindexFrom ← require (st.mapBlockIndex hashBlockFrom) (error "mapBlockIndex[blockFrom.GetHash()]")
  let newStakeAge := decide (pindexFrom.nHeight ≥ P.hardForkBlock)
  rejectIf (((nTimeBlockFrom : ℤ) + stakeMinAge P newStakeAge) % 2 ^ 32 > nTimeTx)
    (error "CheckStakeKernelHash() : min age violation")
  let bnTargetPerCoinDay := setCompact nBits
  let txout ← require txPrev.vout[prevout.n]? (error "txPrev.vout[prevout.n]")
  let bnCoinDayWeight :=
    ((txout.nValue * getWeight P txPrev.nTime nTimeTx newStakeAge).tdiv COIN).tdiv (24 * 60 * 60)
  let targetProofOfStake : Uint256 := BitVec.ofNat 256 (bnCoinDayWeight * bnTargetPerCoinDay).natAbs
  let modifier ← getKernelStakeModifier P env st hashBlockFrom fPrintProofOfStake
  let hashProofOfStake := H.hashKernel modifier.nStakeModifier nTimeBlockFrom nTxPrevOffset txPrev.nTime
    prevout.n nTimeTx
  rejectIf ((hashProofOfStake.toNat : ℤ) > bnCoinDayWeight * bnTargetPerCoinDay) silent
  return (hashProofOfStake, targetProofOfStake)

def checkProofOfStake (env : KernelEnv) (st : NodeState) (tx : CTransaction) (nBits : ℕ) :
    Except Reject (Uint256 × Uint256) := do
  rejectIf (!tx.isCoinStake) (error "CheckProofOfStake() : called on non-coinstake")
  let txin ← require tx.vin.head? (error "tx.vin[0]")
  -- the previous transaction is looked up in the best chain
  let (txPrev, txindex, _) ← require (readPrevTx env.files st.txdb txin.prevout)
    (dos 1 "CheckProofOfStake() : INFO: read txPrev failed")
  rejectIf (!P.verifySignature txPrev tx 0)
    (dos 100 "CheckProofOfStake() : VerifySignature failed on coinstake")
  let block ← require (env.files.readHeader txindex.pos.nFile txindex.pos.nBlockPos)
    (if env.fDebug then error "CheckProofOfStake() : read block failed" else silent)
  (checkStakeKernelHash H P env st nBits block (txindex.pos.nTxPos - txindex.pos.nBlockPos) txPrev
    txin.prevout tx.nTime env.fDebug).mapError fun _ ↦
      dos 1 "CheckProofOfStake() : INFO: check kernel failed on coinstake"

end Electra.Chain
