import Electra.Chain.Node
import Electra.Foundations.ReadyQueue

/-!
# Block templates

`CreateNewBlock` fills a block with transactions of the pool, highest priority first and, once the
part for priority is full, highest fee first.  A transaction that spends outputs of other pool
transactions waits until these are in the block.
-/

namespace Electra.Chain

open Foundations Foundations.Outcome Foundations.ReadyQueue Foundations.SpendIndex

/-- The miner's command line options; one that is not given is `none`.  `mintxfee` is what
`ParseMoney` makes of the option. -/
structure MinerArgs where
  blockmaxsize : Option ℤ
  blockprioritysize : Option ℤ
  blockminsize : Option ℤ
  mintxfee : Option ℤ

/-- An option that is stored in an `unsigned int`. -/
def getArg (arg : Option ℤ) (nDefault : ℕ) : ℕ := (arg.map fun n ↦ (n % 2 ^ 32).toNat).getD nDefault

namespace MinerArgs

variable (args : MinerArgs)

/-- Largest block the miner is willing to create, between 1K and one K below the block limit. -/
def nBlockMaxSize : ℕ :=
  max 1000 (min (MAX_BLOCK_SIZE - 1000) (getArg args.blockmaxsize (MAX_BLOCK_SIZE_GEN / 2)))

/-- How much of the block goes to transactions of high priority whatever they pay. -/
def nBlockPrioritySize : ℕ := min args.nBlockMaxSize (getArg args.blockprioritysize 27000)

/-- The block is filled with free transactions up to this size. -/
def nBlockMinSize : ℕ := min args.nBlockMaxSize (getArg args.blockminsize 0)

def nMinTxFee : ℤ := args.mintxfee.getD MIN_TX_FEE

end MinerArgs

def CKeyID := {bytes : List UInt8 // bytes.length = 20}

/-- What one call of `CreateNewBlock` takes from outside the node: the block files, the options, the
key of the coinbase, and the clock each time it is read, when the coinbase is made, when a pool
transaction is tested for finality and for its timestamp, and when the block time is updated. -/
structure MinerEnv where
  files : BlockFiles
  args : MinerArgs
  keyID : CKeyID
  nCoinbaseTime : ℕ
  nFinalTime : Uint256 → ℤ
  nLimitTime : Uint256 → ℤ
  nUpdateTime : ℤ

/-- The arithmetic of the type `double`. -/
class Double (D : Type) extends Zero D, Add D, Mul D, Div D, IntCast D, BEq D, LT D where
  decidableLT : DecidableLT D

attribute [reducible, instance] Double.decidableLT

instance : Double Float where
  zero := 0
  intCast := Float.ofInt
  decidableLT := inferInstance

/-- Exact arithmetic. -/
instance : Double ℚ where
  decidableLT := inferInstance

/-- A transaction with its priority and its fee per kilobyte. -/
structure TxPriority (D : Type) where
  dPriority : D
  dFeePerKb : D
  ptx : CTransaction

/-- `vecPriority` with `vOrphan` and `mapDependers`; a pointer to an orphan is the hash of its
transaction. -/
abbrev TxQueue (D : Type) := ReadyQueue Uint256 (TxPriority D)

variable (P : ChainParams) {D : Type} [Double D]

/-- Whether one transaction ranks below another one. -/
def txPriorityCompare (byFee : Bool) (a b : TxPriority D) : Bool :=
  if byFee then
    if a.dFeePerKb == b.dFeePerKb then decide (a.dPriority < b.dPriority)
    else decide (a.dFeePerKb < b.dFeePerKb)
  else
    if a.dPriority == b.dPriority then decide (a.dFeePerKb < b.dFeePerKb)
    else decide (a.dPriority < b.dPriority)

/-- Confirmations of the block a transaction is in, zero outside of the main chain. -/
def getDepthInMainChain (files : BlockFiles) (st : NodeState) (txindex : CTxIndex) : ℤ :=
  match files.readHeader txindex.pos.nFile txindex.pos.nBlockPos with
  | none => 0
  | some header =>
      match st.mapBlockIndex (P.hashHeader header) with
      | none => 0
      | some pindex => if isInMainChain st pindex then 1 + st.nBestHeight - pindex.nHeight else 0

/-- The variables of the loop over the inputs of one pool transaction. -/
structure InputScan (D : Type) where
  queue : TxQueue D
  setDependsOn : Finset Uint256
  dPriority : D
  nTotalIn : ℤ

/-- The loop over the inputs; it stops with `fMissingInputs` at one that is neither in the chain nor
in the pool. -/
def scanInputs (files : BlockFiles) (st : NodeState) (hash : Uint256) :
    InputScan D → List COutPoint → Except Reject (Bool × InputScan D)
  | scan, [] => .ok (false, scan)
  | scan, prevout :: prevouts =>
      match readPrevTx files st.txdb prevout with
      | some (_, txindex, txout) =>
          let nConf := getDepthInMainChain P files st txindex
          scanInputs files st hash { scan with
            dPriority := scan.dPriority + (txout.nValue : D) * (nConf : D)
            nTotalIn := scan.nTotalIn + txout.nValue } prevouts
      | none =>
          match st.mempool.mapTx.lookup prevout.hash with
          | none => .ok (true, scan)
          | some txPrev => do
              -- the source indexes the outputs of the previous transaction without a check
              let txout ← require txPrev.vout[prevout.n]? (error "vout[txin.prevout.n]")
              scanInputs files st hash { scan with
                queue := scan.queue.noteDepender prevout.hash hash
                setDependsOn := insert prevout.hash scan.setDependsOn
                nTotalIn := scan.nTotalIn + txout.nValue } prevouts

/-- The loop body over the pool: a final transaction becomes ready or an orphan. -/
def queueTx (env : MinerEnv) (st : NodeState) (queue : TxQueue D)
    (entry : Σ _ : Uint256, CTransaction) : Except Reject (TxQueue D) := do
  let ⟨hash, tx⟩ := entry
  if tx.isCoinBase || tx.isCoinStake || !tx.isFinal st.nBestHeight (env.nFinalTime hash) 0 0 then
    return queue
  let (fMissingInputs, scan) ← scanInputs P env.files st hash ⟨queue, ∅, 0, 0⟩
    (tx.vin.map CTxIn.prevout)
  if fMissingInputs then
    return scan.queue
  let nTxSize : ℤ := tx.getSerializeSize
  let nValueOut ← tx.getValueOut
  let priority : TxPriority D := {
    dPriority := scan.dPriority / (nTxSize : D)
    dFeePerKb := ((scan.nTotalIn - nValueOut : ℤ) : D) / ((nTxSize : D) / ((1000 : ℤ) : D))
    ptx := tx }
  return if scan.setDependsOn = ∅ then scan.queue.push priority
    else scan.queue.hold hash ⟨scan.setDependsOn, priority⟩

/-- The variables of the loop that collects transactions into the block. -/
structure CollectState (D : Type) where
  queue : TxQueue D
  fSortedByFee : Bool
  mapTestPool : MapTxIndex
  vtx : List CTransaction
  nBlockSize : ℕ
  nBlockTx : ℕ
  nBlockSigOps : ℕ
  nFees : ℤ

def CollectState.init (args : MinerArgs) (queue : TxQueue D) : CollectState D where
  queue
  fSortedByFee := decide (args.nBlockPrioritySize ≤ 0)
  mapTestPool := ∅
  vtx := []
  nBlockSize := 1000
  nBlockTx := 0
  nBlockSigOps := 100
  nFees := 0

/-- The limits on size, signature operations and time, and the one on free transactions. -/
def exceedsLimits (env : MinerEnv) (fProofOfStake : Bool) (s : CollectState D)
    (next : TxPriority D) : Bool :=
  let tx := next.ptx
  let nTxSize := tx.getSerializeSize
  decide (s.nBlockSize + nTxSize ≥ env.args.nBlockMaxSize) ||
    decide (s.nBlockSigOps + getLegacySigOpCount P tx ≥ MAX_BLOCK_SIGOPS) ||
    (decide ((tx.nTime : ℤ) > env.nLimitTime (P.hashTx tx)) ||
      (fProofOfStake && decide (tx.nTime > env.nCoinbaseTime))) ||
    (s.fSortedByFee && decide (next.dFeePerKb < (env.args.nMinTxFee : D)) &&
      decide (s.nBlockSize + nTxSize ≥ env.args.nBlockMinSize))

/-- Past the part for priority, or without transactions of high priority, the fee decides. -/
def prioritize (args : MinerArgs) (s : CollectState D) (next : TxPriority D) : CollectState D :=
  if !s.fSortedByFee && (decide (s.nBlockSize + next.ptx.getSerializeSize ≥ args.nBlockPrioritySize) ||
      decide (next.dPriority < ((COIN * 144 / 250 : ℤ) : D))) then
    { s with fSortedByFee := true }
  else s

/-- Connect a transaction to the test pool, add it to the block, and release what waits for it. -/
def includeTx (env : MinerEnv) (st : NodeState) (s : CollectState D) (tx : CTransaction) :
    Except Reject (CollectState D) :=
  let nMinFee := tx.getMinFee s.nBlockSize .gmfBlock 0
  match fetchInputs env.files st.txdb st.mempool.mapTx.lookup s.mapTestPool false true tx with
  | .error _ => .ok s
  | .ok inputs => do
      let nValueIn ← getValueIn inputs tx
      let nValueOut ← tx.getValueOut
      let nTxFees := nValueIn - nValueOut
      if nTxFees < nMinFee then
        return s
      let nP2SHSigOps ← getP2SHSigOpCount P inputs tx
      let nTxSigOps := getLegacySigOpCount P tx + nP2SHSigOps
      if s.nBlockSigOps + nTxSigOps ≥ MAX_BLOCK_SIGOPS then
        return s
      match connectInputs P st.nBestHeight inputs s.mapTestPool .memoryPool st.pindexBest false true tx with
      | .error _ => return s
      | .ok mapTestPool => do
          let hash := P.hashTx tx
          -- an orphan that was dropped for a missing input has left a pointer behind
          let queue ← require (s.queue.release hash) (error "mapDependers: no such orphan")
          return { s with
            queue
            mapTestPool := mapTestPool.insert hash ⟨.memoryPool, List.replicate tx.vout.length none⟩
            vtx := s.vtx ++ [tx]
            nBlockSize := s.nBlockSize + tx.getSerializeSize
            nBlockTx := s.nBlockTx + 1
            nBlockSigOps := s.nBlockSigOps + nTxSigOps
            nFees := s.nFees + nTxFees }

/-- The loop body for the transaction that was taken off the queue. -/
def collectTx (env : MinerEnv) (st : NodeState) (fProofOfStake : Bool) (s : CollectState D)
    (next : TxPriority D) : Except Reject (CollectState D) :=
  if exceedsLimits P env fProofOfStake s next then .ok s
  else includeTx P env st (prioritize env.args s next) next.ptx

/-- The loop over the queue, for a number of turns. -/
def collectTxs (heap : Heap (TxPriority D)) (env : MinerEnv) (st : NodeState) (fProofOfStake : Bool) :
    ℕ → CollectState D → Except Reject (CollectState D)
  | 0, s => .ok s
  | nTurns + 1, s =>
      match s.queue.take heap (txPriorityCompare s.fSortedByFee) with
      | none => .ok s
      | some (next, queue) => do
          let s ← collectTx P env st fProofOfStake { s with queue } next
          collectTxs heap env st fProofOfStake nTurns s

/-- Nothing sets the flags. -/
def COINBASE_FLAGS : CScript := []

/-- `OP_DUP OP_HASH160 <keyID> OP_EQUALVERIFY OP_CHECKSIG`. -/
def setDestination (keyID : CKeyID) : CScript :=
  pushBytes [0x76, 0xa9] keyID.1 ++ [0x88, 0xac]

/-- The coinbase before its value is known. -/
def minerCoinbase (env : MinerEnv) (pindexPrev : PIndex) (fProofOfStake : Bool) : CTransaction where
  nVersion := 1
  nTime := env.nCoinbaseTime
  vin := [⟨⟨0, uintMax⟩, if fProofOfStake then pushInt64 [] (pindexPrev.nHeight + 1) ++ COINBASE_FLAGS
    else [], uintMax⟩]
  vout := [if fProofOfStake then ⟨0, []⟩ else ⟨-1, setDestination env.keyID⟩]
  nLockTime := 0

def CBlock.getMaxTransactionTime (block : CBlock) : ℤ :=
  block.vtx.foldl (fun maxTransactionTime tx ↦ max maxTransactionTime tx.nTime) 0

def pastDrift (nTime : ℤ) : ℤ := nTime - 10 * 60

/-- A new block, with the fees and the numbers that `CreateNewBlock` notes. -/
structure BlockTemplate where
  block : CBlock
  nFees : ℤ
  nLastBlockTx : ℕ
  nLastBlockSize : ℕ

/-- The time of a new block. -/
def templateTime (env : MinerEnv) (pindexPrev : PIndex) (fProofOfStake : Bool)
    (nMaxTransactionTime : ℤ) : ℤ :=
  let nTime := max (pindexPrev.getMedianTimePast + 1) nMaxTransactionTime
  let nTime := max nTime (pastDrift pindexPrev.nTime)
  if fProofOfStake then nTime else max nTime env.nUpdateTime

/-- The coinbase of a proof-of-work block collects the reward. -/
def payReward (st : NodeState) (fProofOfStake : Bool) (nFees : ℤ) (txNew : CTransaction) :
    CTransaction :=
  if fProofOfStake then txNew
  else { txNew with vout := txNew.vout.map fun txout ↦
    { txout with nValue := getProofOfWorkReward P st.pindexBest.nHeight nFees } }

/-- Fill in the value of the coinbase and the header. -/
def finishBlock (env : MinerEnv) (st : NodeState) (fProofOfStake : Bool) (txNew : CTransaction)
    (s : CollectState D) : BlockTemplate :=
  let pindexPrev := st.pindexBest
  let txNew := payReward P st fProofOfStake s.nFees txNew
  let block : CBlock := {
    nVersion := 6
    hashPrevBlock := pindexPrev.getBlockHash
    hashMerkleRoot := 0
    nTime := 0
    nBits := getNextTargetRequired P pindexPrev fProofOfStake
    nNonce := 0
    vtx := txNew :: s.vtx
    vchBlockSig := [] }
  let nTime := (templateTime env pindexPrev fProofOfStake block.getMaxTransactionTime).toNat
  { block := { block with nTime }
    nFees := s.nFees
    nLastBlockTx := s.nBlockTx
    nLastBlockSize := s.nBlockSize }

/-- The number of pool transactions bounds the turns of the loop. -/
def createNewBlock (heap : Heap (TxPriority D)) (env : MinerEnv) (st : NodeState)
    (fProofOfStake : Bool) : Except Reject BlockTemplate := do
  let txNew := minerCoinbase env st.pindexBest fProofOfStake
  rejectIf (txNew.scriptSig0.length > 100) (error "assert(txNew.vin[0].scriptSig.size() <= 100)")
  let queue ← st.mempool.mapTx.entries.foldlM (queueTx P env st) (.empty : TxQueue D)
  let s ← collectTxs P heap env st fProofOfStake st.mempool.mapTx.entries.length
    (.init env.args queue)
  return finishBlock P env st fProofOfStake txNew s

theorem le_foldl_max (vtx : List CTransaction) (nTime : ℤ) :
    nTime ≤ vtx.foldl (fun maxTransactionTime tx ↦ max maxTransactionTime (tx.nTime : ℤ)) nTime := by
  induction vtx generalizing nTime with
  | nil => exact le_refl nTime
  | cons tx vtx ih => exact (le_max_left _ _).trans (ih _)

/-- No transaction of a block is later than the latest one. -/
theorem CBlock.le_getMaxTransactionTime {block : CBlock} {tx : CTransaction} (htx : tx ∈ block.vtx) :
    (tx.nTime : ℤ) ≤ block.getMaxTransactionTime := by
  obtain ⟨pre, post, hvtx⟩ := List.append_of_mem htx
  rw [getMaxTransactionTime, hvtx, List.foldl_append, List.foldl_cons]
  exact (le_max_right _ _).trans (le_foldl_max post _)

theorem CBlock.getMaxTransactionTime_le {block : CBlock} {nTime : ℤ} (hnonneg : 0 ≤ nTime)
    (h : ∀ tx ∈ block.vtx, (tx.nTime : ℤ) ≤ nTime) : block.getMaxTransactionTime ≤ nTime := by
  unfold getMaxTransactionTime
  generalize (0 : ℤ) = nFirst at hnonneg
  generalize block.vtx = vtx at h
  induction vtx generalizing nFirst with
  | nil => exact hnonneg
  | cons tx vtx ih =>
    apply ih
    · exact max_le hnonneg (h tx List.mem_cons_self)
    · exact fun tx' htx' ↦ h tx' (List.mem_cons_of_mem tx htx')

end Electra.Chain
