import Electra.Chain.CompactTarget
import Mathlib.Data.List.Sort

/-!
# Blocks and the block index

A block index entry and what its `pprev` leads to form a list: the entry first, the genesis entry
last, the empty list for a null pointer.  Height and chain trust are read off that list.

`vMerkleTree` holds all levels of the tree one after another, and the loops find a level by its offset
`j` and its size.  The second argument of a loop bounds its turns.
-/

namespace Electra.Chain

open Foundations.Outcome

section

structure CBlockHeader where
  nVersion : ℤ
  hashPrevBlock : Uint256
  hashMerkleRoot : Uint256
  nTime : ℕ
  nBits : ℕ
  nNonce : ℕ
deriving DecidableEq

structure CBlock extends CBlockHeader where
  vtx : List CTransaction
  vchBlockSig : List UInt8
deriving DecidableEq

/-- The network and the functions the block chain code takes from elsewhere: hashes, scripts,
signatures. -/
structure ChainParams where
  fTestNet : Bool
  hashTx : CTransaction → Uint256
  hashHeader : CBlockHeader → Uint256
  hashPair : Uint256 → Uint256 → Uint256
  scriptSigOpCount : CScript → ℕ
  p2shSigOpCount : CScript → CScript → ℕ
  verifySignature : CTransaction → CTransaction → ℕ → Bool
  checkBlockSignature : CBlock → Bool
  isStandard : CTransaction → Bool
  areInputsStandard : CTransaction → List CTxOut → Bool

def LAST_POW_BLOCK : ℤ := 13815
def LAST_POW_BLOCK_TEST : ℤ := 290
def MODIFIER_INTERVAL_SWITCH : ℤ := 11811
def LAST_OLD_POS_BLOCK : ℤ := 17100
def HARD_FORK_BLOCK : ℤ := 112200
def HARD_FORK_BLOCK_TEST : ℤ := 350

def hashGenesisBlock : Uint256 :=
  0x00000f98da995de0ef1665c7d3338687923c1199230a44ecbdb5cec9306e4f4e

def hashGenesisBlockTestNet : Uint256 :=
  0x00003892b5c64b1ef04b95e06bb019731ffc9d4031706d8a993e6103e7fc4a2d

variable (P : ChainParams)

def ChainParams.genesisHash : Uint256 :=
  if P.fTestNet then hashGenesisBlockTestNet else hashGenesisBlock

def ChainParams.hardForkBlock : ℤ := if P.fTestNet then HARD_FORK_BLOCK_TEST else HARD_FORK_BLOCK

def ChainParams.nTargetSpacing : ℤ := if P.fTestNet then 45 else 150

def ChainParams.nTargetSpacingOld : ℤ := if P.fTestNet then 30 else 300

def nTargetTimespan : ℤ := 15 * 60

def nCoinbaseMaturity : ℤ := 10

def futureDrift (nTime : ℤ) : ℤ := nTime + 10 * 60

def mapCheckpoints : List (ℤ × Uint256) :=
  [(0, hashGenesisBlock),
    (10, 0x000000510a92dcd0364d79ace286a8d44c060f96eff907f649c00b120901fa69),
    (11810, 0x000000000011a409fad375babe9e521e31095de1707e261ca783242c95827593),
    (11816, 0x3f90dc9f885df3e167a4ad3a665ffc5282e3d4cd2291b616abc3ddc8b623ffdc),
    (11920, 0x000000000949e8afa1fc49b5faf29bdf3b7ed39ea7f230637fafbb7cf7b04956),
    (15160, 0xe31d9b1163cb7193f35c5716dfc22e86fdabb7206b3c5a27967c8f3a83892633)]

def mapCheckpointsTestnet : List (ℤ × Uint256) := [(0, hashGenesisBlockTestNet)]

def ChainParams.checkpoints : List (ℤ × Uint256) :=
  if P.fTestNet then mapCheckpointsTestnet else mapCheckpoints

def checkHardened (nHeight : ℤ) (hash : Uint256) : Bool :=
  match P.checkpoints.lookup nHeight with
  | none => true
  | some hashCheckpoint => decide (hash = hashCheckpoint)

def getTotalBlocksEstimate : ℤ := (P.checkpoints.getLast?.map Prod.fst).getD 0

/-- The hash of a block is the hash of its header. -/
def CBlock.getHash (block : CBlock) : Uint256 := P.hashHeader block.toCBlockHeader

namespace CBlock

/-- The transaction at index 1 decides the kind of a block. -/
def isProofOfStake (block : CBlock) : Bool :=
  match block.vtx with
  | _ :: tx :: _ => tx.isCoinStake
  | _ => false

def isProofOfWork (block : CBlock) : Bool := !block.isProofOfStake

def getSerializeSize (block : CBlock) : ℕ :=
  80 + (getSizeOfCompactSize block.vtx.length + (block.vtx.map CTransaction.getSerializeSize).sum) +
    (getSizeOfCompactSize block.vchBlockSig.length + block.vchBlockSig.length)

end CBlock

/-- One level of the merkle tree above another one; an odd last hash is paired with itself. -/
def merkleLevel : List Uint256 → List Uint256
  | [] => []
  | [hash] => [P.hashPair hash hash]
  | hash :: hash' :: rest => P.hashPair hash hash' :: merkleLevel rest

/-- The levels of the merkle tree one after another; the fuel bounds the number of levels. -/
def merkleTree : ℕ → List Uint256 → List Uint256
  | 0, level => level
  | nLevels + 1, level =>
      if level.length > 1 then level ++ merkleTree nLevels (merkleLevel P level) else level

def buildMerkleTree (block : CBlock) : Uint256 :=
  ((merkleTree P block.vtx.length (block.vtx.map P.hashTx)).getLast?).getD 0

def merkleBranch : ℕ → List Uint256 → ℕ → List Uint256
  | 0, _, _ => []
  | nLevels + 1, level, nIndex =>
      if level.length > 1 then
        level.getD (min (nIndex ^^^ 1) (level.length - 1)) 0 ::
          merkleBranch nLevels (merkleLevel P level) (nIndex / 2)
      else []

def getMerkleBranch (block : CBlock) (nIndex : ℕ) : List Uint256 :=
  merkleBranch P block.vtx.length (block.vtx.map P.hashTx) nIndex

def getLegacySigOpCount (tx : CTransaction) : ℕ :=
  (tx.vin.map fun txin ↦ P.scriptSigOpCount txin.scriptSig).sum +
    (tx.vout.map fun txout ↦ P.scriptSigOpCount txout.scriptPubKey).sum

/-- `GetBlockTime() > FutureDrift(vtx[0].nTime)`. -/
def coinbaseTooEarly (block : CBlock) : Bool :=
  block.vtx.head?.any fun tx ↦ decide ((block.nTime : ℤ) > futureDrift tx.nTime)

/-- The part of `CheckBlock` for proof-of-stake blocks. -/
def checkCoinStake (block : CBlock) (fCheckSig : Bool) : Except Reject Unit := do
  rejectIf (!block.vtx.head?.any fun tx ↦ tx.vout.length == 1 && tx.vout.all CTxOut.isEmpty)
    (dos 100 "CheckBlock() : coinbase output not empty for proof-of-stake block")
  rejectIf (!(block.vtx[1]?).any CTransaction.isCoinStake)
    (dos 100 "CheckBlock() : second tx is not coinstake")
  rejectIf ((block.vtx.drop 2).any CTransaction.isCoinStake)
    (dos 100 "CheckBlock() : more than one coinstake")
  rejectIf (!(block.vtx[1]?).any fun tx ↦ block.nTime == tx.nTime)
    (dos 50 "CheckBlock() : coinstake timestamp violation")
  rejectIf (fCheckSig && !P.checkBlockSignature block)
    (dos 100 "CheckBlock() : bad proof-of-stake block signature")

/-- The loop body over the transactions in `CheckBlock`. -/
def checkBlockTx (block : CBlock) (tx : CTransaction) : Except Reject Unit := do
  tx.checkTransaction.mapError fun reject ↦
    dos reject.nDoS "CheckBlock() : CheckTransaction failed"
  rejectIf (block.nTime < tx.nTime)
    (dos 50 "CheckBlock() : block timestamp earlier than transaction timestamp")

def checkBlock (nAdjustedTime : ℤ) (block : CBlock) (fCheckPOW fCheckMerkleRoot fCheckSig : Bool) :
    Except Reject Unit := do
  rejectIf (block.vtx.isEmpty ∨ block.vtx.length > MAX_BLOCK_SIZE ∨
      block.getSerializeSize > MAX_BLOCK_SIZE)
    (dos 100 "CheckBlock() : size limits failed")
  checkWhen (fCheckPOW && block.isProofOfWork)
    ((checkProofOfWork P.fTestNet (block.getHash P) block.nBits).mapError fun _ ↦
      dos 50 "CheckBlock() : proof of work failed")
  rejectIf ((block.nTime : ℤ) > futureDrift nAdjustedTime)
    (error "CheckBlock() : block timestamp too far in the future")
  rejectIf (!block.vtx.head?.any CTransaction.isCoinBase)
    (dos 100 "CheckBlock() : first tx is not coinbase")
  rejectIf (block.vtx.tail.any CTransaction.isCoinBase)
    (dos 100 "CheckBlock() : more than one coinbase")
  rejectIf (coinbaseTooEarly block) (dos 50 "CheckBlock() : coinbase timestamp is too early")
  checkWhen block.isProofOfStake (checkCoinStake P block fCheckSig)
  block.vtx.forM (checkBlockTx block)
  rejectIf (¬ (block.vtx.map P.hashTx).Nodup) (dos 100 "CheckBlock() : duplicate transaction")
  rejectIf ((block.vtx.map (getLegacySigOpCount P)).sum > MAX_BLOCK_SIGOPS)
    (dos 100 "CheckBlock() : out-of-bounds SigOpCount")
  rejectIf (fCheckMerkleRoot && decide (block.hashMerkleRoot ≠ buildMerkleTree P block))
    (dos 100 "CheckBlock() : hashMerkleRoot mismatch")

/-- The facts about a block that passed its checks. -/
structure CBlock.Checked (block : CBlock) : Prop where
  head_isCoinBase : ∃ tx, block.vtx.head? = some tx ∧ tx.isCoinBase
  tail_not_coinBase : ∀ tx ∈ block.vtx.tail, tx.isCoinBase = false
  coinbase_empty : block.isProofOfStake → ∀ tx, block.vtx.head? = some tx →
    tx.vout.length = 1 ∧ tx.vout.all CTxOut.isEmpty
  one_coinStake : block.isProofOfStake → ∀ tx ∈ block.vtx.drop 2, tx.isCoinStake = false
  tx_checked : ∀ tx ∈ block.vtx, tx.Checked
  txids_nodup : (block.vtx.map P.hashTx).Nodup

variable {block : CBlock} {u : Unit}

theorem checkBlockTx_eq_ok {tx : CTransaction} (h : checkBlockTx block tx = .ok u) : tx.Checked := by
  simp only [checkBlockTx, bind_eq_ok, mapError_eq_ok] at h
  obtain ⟨v, hcheck, -⟩ := h
  exact CTransaction.checked_of_checkTransaction hcheck

variable {P} in
theorem checkCoinStake_eq_ok {fCheckSig : Bool} (h : checkCoinStake P block fCheckSig = .ok u) :
    (∀ tx, block.vtx.head? = some tx → tx.vout.length = 1 ∧ tx.vout.all CTxOut.isEmpty) ∧
      ∀ tx ∈ block.vtx.drop 2, tx.isCoinStake = false := by
  simp only [checkCoinStake, bind_eq_ok, rejectIf_eq_ok, exists_const] at h
  obtain ⟨hempty, -, hrest, -, -⟩ := h
  refine ⟨?_, by simpa using hrest⟩
  intro tx htx
  simpa [htx] using hempty

variable {P} in
theorem checked_of_checkBlock {nAdjustedTime : ℤ} {fCheckPOW fCheckMerkleRoot fCheckSig : Bool}
    (h : checkBlock P nAdjustedTime block fCheckPOW fCheckMerkleRoot fCheckSig = .ok u) :
    block.Checked P := by
  simp only [checkBlock, bind_eq_ok, rejectIf_eq_ok, checkWhen_eq_ok, exists_const] at h
  obtain ⟨-, -, -, -, hhead, htail, -, v, hstake, w, htx, hnodup, -⟩ := h
  have hcoinStake := fun hkind ↦ checkCoinStake_eq_ok (hstake hkind)
  refine ⟨?_, ?_, fun hkind ↦ (hcoinStake hkind).1, fun hkind ↦ (hcoinStake hkind).2, ?_,
    not_not.mp hnodup⟩
  · cases hvtx : block.vtx.head? with
    | none => simp [hvtx] at hhead
    | some tx => exact ⟨tx, rfl, by simpa [hvtx] using hhead⟩
  · simpa using htail
  · exact fun tx hmem ↦ checkBlockTx_eq_ok (forM_eq_ok htx tx hmem)

structure CBlockIndex where
  phashBlock : Uint256
  nFile : ℕ
  nBlockPos : ℕ
  fProofOfStake : Bool
  prevoutStake : Option COutPoint
  nStakeTime : ℕ
  hashProofOfStake : Uint256
  nStakeModifier : ℕ
  fGeneratedStakeModifier : Bool
  nVersion : ℤ
  hashMerkleRoot : Uint256
  nTime : ℕ
  nBits : ℕ
  nNonce : ℕ
deriving DecidableEq

/-- A pointer into the block index: an entry followed by its ancestors. -/
abbrev PIndex := List CBlockIndex

namespace PIndex

def nHeight (pindex : PIndex) : ℤ := (pindex.length : ℤ) - 1

/-- Trust of the chain that ends here, modulo 2^256. -/
def nChainTrust : PIndex → Uint256
  | [] => 0
  | index :: pprev => nChainTrust pprev + getBlockTrust index.nBits

def getBlockHash (pindex : PIndex) : Uint256 := (pindex.head?.map CBlockIndex.phashBlock).getD 0

def nTime (pindex : PIndex) : ℤ := (pindex.head?.map fun index ↦ (index.nTime : ℤ)).getD 0

def nMedianTimeSpan : ℕ := 11

/-- Median of the last eleven block times. -/
def getMedianTimePast (pindex : PIndex) : ℤ :=
  let times := ((pindex.take nMedianTimeSpan).map fun index ↦ (index.nTime : ℤ)).insertionSort (· ≤ ·)
  times.getD (times.length / 2) 0

end PIndex

/-- Go back to the last entry of one kind, or to genesis. -/
def getLastBlockIndex (fProofOfStake : Bool) : PIndex → PIndex
  | [] => []
  | [index] => [index]
  | index :: pprev =>
      if index.fProofOfStake = fProofOfStake then index :: pprev
      else getLastBlockIndex fProofOfStake pprev

/-- One retarget step, with the spacing in force at this height. -/
def retarget (bnTargetLimit : ℤ) (nSpacing : ℤ) (nBits : ℕ) (nActualSpacing : ℤ) : ℕ :=
  let nInterval := nTargetTimespan / nSpacing
  let bnNew := (setCompact nBits * ((nInterval - 1) * nSpacing + nActualSpacing + nActualSpacing)).tdiv
    ((nInterval + 1) * nSpacing)
  getCompact (if bnNew ≤ 0 ∨ bnNew > bnTargetLimit then bnTargetLimit else bnNew)

def targetLimit (fProofOfStake : Bool) : ℤ :=
  if fProofOfStake then bnProofOfStakeLimit else bnProofOfWorkLimit P.fTestNet

def spacingAt (nHeight : ℤ) : ℤ :=
  if nHeight ≥ P.hardForkBlock then P.nTargetSpacing else P.nTargetSpacingOld

def getNextTargetRequired (pindexLast : PIndex) (fProofOfStake : Bool) : ℕ :=
  let bnTargetLimit := targetLimit P fProofOfStake
  if pindexLast = [] then getCompact bnTargetLimit
  else if pindexLast.nHeight = 11816 then getCompact bnTargetLimit
  else
    match getLastBlockIndex fProofOfStake pindexLast with
    | [] => getCompact bnTargetLimit
    | [_] => getCompact bnTargetLimit
    | indexPrev :: pprev =>
      match getLastBlockIndex fProofOfStake pprev with
      | [] => getCompact bnTargetLimit
      | [_] => getCompact bnTargetLimit
      | indexPrevPrev :: _ =>
          let nSpacing := spacingAt P (pindexLast.nHeight + 1)
          let nActualSpacing : ℤ := (indexPrev.nTime : ℤ) - indexPrevPrev.nTime
          retarget bnTargetLimit nSpacing indexPrev.nBits
            (if nActualSpacing < 0 then nSpacing else nActualSpacing)

end

variable (P : ChainParams)

/-- The inner loop of `BuildMerkleTree`: the level above the one of size `nSize` at `j`. -/
def pushMerkleLevel (nSize j : ℕ) (vMerkleTree : List Uint256) : List Uint256 :=
  (List.range ((nSize + 1) / 2)).foldl (fun v k ↦
    let i := 2 * k
    let i2 := min (i + 1) (nSize - 1)
    v ++ [P.hashPair (v.getD (j + i) 0) (v.getD (j + i2) 0)]) vMerkleTree

def buildMerkleTreeLoop : ℕ → ℕ → ℕ → List Uint256 → List Uint256
  | 0, _, _, vMerkleTree => vMerkleTree
  | nTurns + 1, nSize, j, vMerkleTree =>
      if nSize > 1 then
        buildMerkleTreeLoop nTurns ((nSize + 1) / 2) (j + nSize) (pushMerkleLevel P nSize j vMerkleTree)
      else vMerkleTree

/-- The tree that `BuildMerkleTree` leaves in the block. -/
def vMerkleTree (block : CBlock) : List Uint256 :=
  buildMerkleTreeLoop P block.vtx.length block.vtx.length 0 (block.vtx.map P.hashTx)

def getMerkleBranchLoop (vMerkleTree : List Uint256) : ℕ → ℕ → ℕ → ℕ → List Uint256
  | 0, _, _, _ => []
  | nTurns + 1, nSize, j, nIndex =>
      if nSize > 1 then
        let i := min (nIndex ^^^ 1) (nSize - 1)
        vMerkleTree.getD (j + i) 0 ::
          getMerkleBranchLoop vMerkleTree nTurns ((nSize + 1) / 2) (j + nSize) (nIndex / 2)
      else []

/-- `nIndex & 1` and `nIndex >> 1` of a signed number. -/
def checkMerkleBranchLoop : Uint256 → List Uint256 → ℤ → Uint256
  | hash, [], _ => hash
  | hash, otherside :: vMerkleBranch, nIndex =>
      checkMerkleBranchLoop
        (if nIndex % 2 = 1 then P.hashPair otherside hash else P.hashPair hash otherside)
        vMerkleBranch (nIndex / 2)

def checkMerkleBranch (hash : Uint256) (vMerkleBranch : List Uint256) (nIndex : ℤ) : Uint256 :=
  if nIndex = -1 then 0 else checkMerkleBranchLoop P hash vMerkleBranch nIndex

end Electra.Chain
