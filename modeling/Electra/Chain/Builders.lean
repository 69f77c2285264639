import Electra.Chain.BestChain

/-!
# Building transactions, blocks and nodes

Chains are built from a few numbers: a transaction is named by its version, a block by its nonce,
and both hashes are these names.  Signatures always verify and scripts have no signature operations.
-/

namespace Electra.Chain.Builders

/-- A network whose hashes are names; the block without a predecessor is the genesis block. -/
def network (fTestNet : Bool) : ChainParams where
  fTestNet
  hashTx tx := BitVec.ofInt 256 tx.nVersion
  hashHeader header :=
    if header.hashPrevBlock = 0 then
      if fTestNet then hashGenesisBlockTestNet else hashGenesisBlock
    else BitVec.ofNat 256 header.nNonce
  hashPair hash hash' := hash + hash' + hash'
  scriptSigOpCount _ := 0
  p2shSigOpCount _ _ := 0
  verifySignature _ _ _ := true
  checkBlockSignature _ := true
  isStandard _ := true
  areInputsStandard _ _ := true

/-- A script that marks whose output it is. -/
def payTo (owner : UInt8) : CScript := [owner]

def output (nValue : ℤ) : CTxOut := ⟨nValue, payTo 1⟩

def coinbase (name : ℤ) (nTime : ℕ) (nHeight : ℤ) (vout : List CTxOut) : CTransaction where
  nVersion := name
  nTime
  vin := [⟨⟨0, uintMax⟩, pushInt64 [] nHeight ++ [0], uintMax⟩]
  vout
  nLockTime := 0

def spending (name : ℤ) (nTime : ℕ) (prevouts : List COutPoint) (vout : List CTxOut) :
    CTransaction where
  nVersion := name
  nTime
  vin := prevouts.map fun prevout ↦ ⟨prevout, [], uintMax⟩
  vout
  nLockTime := 0

/-- A coinstake pays to its second output. -/
def coinstake (name : ℤ) (nTime : ℕ) (prevouts : List COutPoint) (nValue : ℤ) : CTransaction :=
  spending name nTime prevouts [⟨0, []⟩, output nValue]

/-- A block with the merkle root of its transactions. -/
def blockOf (P : ChainParams) (name : ℕ) (hashPrevBlock : Uint256) (nTime nBits : ℕ)
    (vtx : List CTransaction) : CBlock :=
  let header : CBlock := ⟨⟨6, hashPrevBlock, 0, nTime, nBits, name⟩, vtx, []⟩
  { header with hashMerkleRoot := buildMerkleTree P header }

/-- The compact form of the easiest proof-of-work target. -/
def easiestBits (P : ChainParams) : ℕ := getCompact (bnProofOfWorkLimit P.fTestNet)

/-- The index entry of a block in a file of its own. -/
def indexOf (P : ChainParams) (block : CBlock) (nFile nBlockPos : ℕ) : CBlockIndex :=
  newBlockIndex P block nFile nBlockPos 0 (0, false)

/-! ## Quiet chains -/

/-- A block with nothing but its coinbase `nHeight + 1`, which takes the one large subsidy at height 2.
Blocks are 300 seconds apart, so that the target stays the easiest one. -/
def quietBlock (P : ChainParams) (nHeight : ℕ) : CBlock :=
  let hashPrevBlock := match nHeight with
    | 0 => 0
    | 1 => P.genesisHash
    | nHeight + 1 => BitVec.ofNat 256 nHeight
  blockOf P nHeight hashPrevBlock (300 * (nHeight + 1)) (easiestBits P)
    [coinbase (nHeight + 1) (300 * (nHeight + 1)) nHeight
      [output (if nHeight = 2 then 1000000019 * COIN else 0)]]

/-- The blocks below a height, each in a file of its own. -/
def quietFiles (P : ChainParams) (nHeight : ℕ) : List (ℕ × ℕ × CBlock) :=
  (List.range nHeight).map fun h ↦ (h + 1, 8, quietBlock P h)

def quietIndex (P : ChainParams) (nHeight : ℕ) : PIndex :=
  ((List.range nHeight).map fun h ↦ indexOf P (quietBlock P h) (h + 1) 8).reverse

/-- The coinbases below a height but that of genesis, none of them spent. -/
def quietRecords (nHeight : ℕ) : List (Uint256 × CTxIndex) :=
  (List.range (nHeight - 1)).map fun h ↦ (BitVec.ofNat 256 (h + 2), ⟨⟨h + 2, 8, 89⟩, [none]⟩)

/-! ## Files and nodes -/

/-- Block files that hold some blocks at positions. -/
def filesOf (blocks : List (ℕ × ℕ × CBlock)) : BlockFiles where
  readTx nFile nTxPos := blocks.findSome? fun entry ↦
    (locate entry.1 entry.2.1 (firstTxPos entry.2.1 entry.2.2.vtx) entry.2.2.vtx).findSome? fun located ↦
      if located.2.nFile = nFile ∧ located.2.nTxPos = nTxPos then some located.1 else none
  readBlock nFile nBlockPos := blocks.findSome? fun entry ↦
    if entry.1 = nFile ∧ entry.2.1 = nBlockPos then some entry.2.2 else none
  readHeader nFile nBlockPos := blocks.findSome? fun entry ↦
    if entry.1 = nFile ∧ entry.2.1 = nBlockPos then some entry.2.2.toCBlockHeader else none

/-- Files hold no other blocks than those they were built from. -/
theorem mem_of_readBlock {blocks : List (ℕ × ℕ × CBlock)} {nFile nBlockPos : ℕ} {block : CBlock}
    (h : (filesOf blocks).readBlock nFile nBlockPos = some block) : block ∈ blocks.map (·.2.2) := by
  obtain ⟨entry, hentry, hread⟩ := List.exists_of_findSome?_eq_some h
  split at hread
  · exact Option.some.inj hread ▸ List.mem_map_of_mem hentry
  · cases hread

/-- Surroundings in which reads and commits succeed. -/
def surroundings (files : BlockFiles) (nAdjustedTime : ℤ) : Env where
  files
  fCommitted _ := true
  fIndexCommitted := true
  nAdjustedTime _ := nAdjustedTime
  stakeModifier := some (0, false)
  hashProofOfStake := some 0
  fCheckSync := true
  written := none

/-- A node at a tip, with an empty pool and no wallet. -/
def nodeAt (pindexBest : PIndex) (txdb : CTxDB) : NodeState where
  mapBlockIndex hash := pindexBest.tails.find? fun pindex ↦ pindex.getBlockHash == hash && pindex != []
  pnext pindex := pindexBest.tails.find? fun next ↦ next.tail == pindex && pindex != []
  nMint _ := 0
  nMoneySupply _ := 0
  pindexGenesisBlock := pindexBest.drop (pindexBest.length - 1)
  pindexBest
  hashBestChain := pindexBest.getBlockHash
  nBestHeight := pindexBest.nHeight
  nBestChainTrust := pindexBest.nChainTrust
  nBestInvalidTrust := 0
  mempool := .empty
  setpwalletRegistered := []
  txdb

/-- A database that holds some records of the transaction index. -/
def txdbOf (records : List (Uint256 × CTxIndex)) : CTxDB where
  pdb key := match key with
    | .tx hash => (records.lookup hash).map .txIndex
    | _ => none
  activeBatch := none

/-- The node after a block was connected. -/
def connected (P : ChainParams) (env : Env) (st : NodeState) (block : CBlock) (pindex : PIndex) :
    NodeState :=
  match connectBlock P env st block pindex false with
  | .ok st' => st'
  | .error _ => st

theorem connected_eq {P : ChainParams} {env : Env} {st : NodeState} {block : CBlock} {pindex : PIndex}
    (h : (connectBlock P env st block pindex false).isOk = true) :
    connectBlock P env st block pindex false = .ok (connected P env st block pindex) := by
  obtain ⟨st', heq⟩ := Foundations.Outcome.exists_eq_ok h
  simp [connected, heq]

end Electra.Chain.Builders
