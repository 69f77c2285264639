import Electra.Chain.Miner

/-!
# Signing a stake block

The wallet searches back in time for a coin whose kernel meets the target, makes a coinstake of it and
puts it into a block template.
-/

namespace Electra.Chain

open Foundations.Outcome Foundations.SpendIndex

/-- An output of a wallet transaction. -/
structure StakeCoin where
  wtx : CWalletTx
  n : ℕ
  inRange : n < wtx.vout.length

def StakeCoin.txout (coin : StakeCoin) : CTxOut := coin.wtx.vout.get ⟨coin.n, coin.inRange⟩

inductive TxnOutType
  | pubKey
  | pubKeyHash
  | other
deriving DecidableEq

structure CKey where
  vchSecret : List UInt8
deriving DecidableEq

/-- What the wallet does for a coinstake: it selects coins by value, time and depth, and it solves
scripts and signs with its keys. -/
structure StakeWallet where
  nBalance : ℤ
  selectCoinsSimple : ℤ → ℕ → ℤ → Option (List StakeCoin)
  solver : CScript → Option (TxnOutType × List UInt8)
  hash160 : List UInt8 → List UInt8
  getKey : List UInt8 → Option CKey
  getPubKey : CKey → List UInt8
  signSignature : CWalletTx → CTransaction → ℕ → Option CScript
  sign : CKey → Uint256 → Option (List UInt8)

/-- What a search takes from outside the node: the block files, the wallet and its reserve, the clock
when the search starts, and the verdict on a kernel.  The node neither shuts down nor changes its tip
meanwhile. -/
structure StakeEnv where
  files : BlockFiles
  wallet : StakeWallet
  nReserveBalance : ℤ
  nSearchTime : ℕ
  checkStakeKernelHash : ℕ → CBlockHeader → ℕ → CTransaction → COutPoint → ℕ → Bool

variable (P : ChainParams) (env : StakeEnv) (st : NodeState)

def nMaxStakeSearchInterval : ℕ := 60
def nStakeMaxAge : ℤ := 30 * 24 * 60 * 60
def nStakeMaxAgeOld : ℤ := 2 ^ 32 - 1
def nStakeSplitAge : ℤ := 10 * 24 * 60 * 60
def nStakeCombineThreshold : ℤ := 25000 * COIN

def stakeMinAge (newStakeAge : Bool) : ℤ :=
  if newStakeAge then P.nStakeMinAge else P.nStakeMinAgeOld

def getWeight (nIntervalBeginning nIntervalEnd : ℤ) (newStakeAge : Bool) : ℤ :=
  min (nIntervalEnd - nIntervalBeginning - stakeMinAge P newStakeAge)
    (if newStakeAge then nStakeMaxAge else nStakeMaxAgeOld)

/-- The next block is under the stake rules of the hard fork. -/
def newStakeAge (pindexPrev : PIndex) : Bool := decide (pindexPrev.nHeight + 1 ≥ P.hardForkBlock)

def StakeCoin.prevout (coin : StakeCoin) : COutPoint := ⟨P.hashTx coin.wtx.toCTransaction, coin.n⟩

/-- The script a stake is paid to and the key that signs for it. -/
def stakeKey (wallet : StakeWallet) (scriptPubKeyKernel : CScript) : Option (CScript × CKey) :=
  match wallet.solver scriptPubKeyKernel with
  | some (.pubKeyHash, solution) =>
      -- pay to address is converted to pay to public key
      (wallet.getKey solution).map fun key ↦ (pushBytes [] (wallet.getPubKey key) ++ [0xac], key)
  | some (.pubKey, vchPubKey) =>
      match wallet.getKey (wallet.hash160 vchPubKey) with
      | some key => if wallet.getPubKey key = vchPubKey then some (scriptPubKeyKernel, key) else none
      | none => none
  | _ => none

/-- A coin whose kernel meets the target, with the time of its coinstake. -/
structure StakeKernel where
  coin : StakeCoin
  header : CBlockHeader
  nTime : ℕ
  scriptPubKeyOut : CScript
  key : CKey

/-- Search backward in time for the kernel of one coin; the first hit decides. -/
def searchKernel (nBits : ℕ) (nSearchInterval : ℤ) (coin : StakeCoin) : Option StakeKernel := do
  let txindex ← st.txdb.readTxIndex (P.hashTx coin.wtx.toCTransaction)
  let header ← env.files.readHeader txindex.pos.nFile txindex.pos.nBlockPos
  -- only coins of the minimum age count
  if (header.nTime : ℤ) + stakeMinAge P (newStakeAge P st.pindexBest) >
      (env.nSearchTime : ℤ) - nMaxStakeSearchInterval then none
  else
    let nSteps := (min nSearchInterval nMaxStakeSearchInterval).toNat
    let n ← (List.range nSteps).find? fun n ↦ env.checkStakeKernelHash nBits header
      (txindex.pos.nTxPos - txindex.pos.nBlockPos) coin.wtx.toCTransaction (coin.prevout P)
      (env.nSearchTime - n)
    let (scriptPubKeyOut, key) ← stakeKey env.wallet coin.txout.scriptPubKey
    return { coin, header, nTime := env.nSearchTime - n, scriptPubKeyOut, key }

/-- The inputs of a coinstake; `fDone` once the search for more of them has stopped. -/
structure StakeInputs where
  vwtxPrev : List StakeCoin
  nCredit : ℤ
  fDone : Bool

/-- One more input with the key of the kernel, unless it is too large or too young. -/
def addStakeInput (kernel : StakeKernel) (inputs : StakeInputs) (coin : StakeCoin) : StakeInputs :=
  let script := coin.txout.scriptPubKey
  let fNew := newStakeAge P st.pindexBest
  if inputs.fDone then inputs
  else if (script = kernel.coin.txout.scriptPubKey ∨ script = kernel.scriptPubKeyOut) ∧
      P.hashTx coin.wtx.toCTransaction ≠ P.hashTx kernel.coin.wtx.toCTransaction then
    if inputs.vwtxPrev.length ≥ 100 ∨ inputs.nCredit ≥ nStakeCombineThreshold ∨
        inputs.nCredit + coin.txout.nValue > env.wallet.nBalance - env.nReserveBalance then
      { inputs with fDone := true }
    else if coin.txout.nValue ≥ nStakeCombineThreshold ∨
        getWeight P coin.wtx.nTime kernel.nTime fNew < stakeMinAge P fNew then inputs
    else { inputs with
      vwtxPrev := inputs.vwtxPrev ++ [coin]
      nCredit := inputs.nCredit + coin.txout.nValue }
  else inputs

/-- A young stake is split into two outputs. -/
def splitStake (kernel : StakeKernel) : Bool :=
  decide (getWeight P kernel.header.nTime kernel.nTime (newStakeAge P st.pindexBest) < nStakeSplitAge)

/-- The inputs of a coinstake; only one that is not split collects more than its kernel. -/
def stakeInputs (kernel : StakeKernel) (setCoins : List StakeCoin) : StakeInputs :=
  let inputs : StakeInputs := ⟨[kernel.coin], kernel.coin.txout.nValue, false⟩
  if splitStake P st kernel then inputs else setCoins.foldl (addStakeInput P env st kernel) inputs

/-- The outputs of a coinstake: the mark, and its credit in one or two parts. -/
def stakeOutputs (scriptPubKeyOut : CScript) (fSplit : Bool) (nCredit : ℤ) : List CTxOut :=
  let nHalf := (nCredit.tdiv 2).tdiv CENT * CENT
  ⟨0, []⟩ :: if fSplit then [⟨nHalf, scriptPubKeyOut⟩, ⟨nCredit - nHalf, scriptPubKeyOut⟩]
    else [⟨nCredit, scriptPubKeyOut⟩]

/-- Sign one input. -/
def signStakeInput (tx : CTransaction) (input : StakeCoin × ℕ) : Option CTransaction :=
  (env.wallet.signSignature input.1.wtx tx input.2).map fun scriptSig ↦
    { tx with vin := tx.vin.modify input.2 fun txin ↦ { txin with scriptSig } }

def createCoinStake (nBits : ℕ) (nSearchInterval nFees : ℤ) : Option (CTransaction × CKey) := do
  let nAvailable := env.wallet.nBalance - env.nReserveBalance
  if nAvailable ≤ 0 then none
  else
    let setCoins ← env.wallet.selectCoinsSimple nAvailable env.nSearchTime (nCoinbaseMaturity + 10)
    let kernel ← setCoins.findSome? (searchKernel P env st nBits nSearchInterval)
    if kernel.coin.txout.nValue = 0 ∨ kernel.coin.txout.nValue > nAvailable then none
    else
      let fSplit := splitStake P st kernel
      let inputs := stakeInputs P env st kernel setCoins
      let txNew : CTransaction := {
        nVersion := 1
        nTime := kernel.nTime
        vin := inputs.vwtxPrev.map fun coin ↦ ⟨coin.prevout P, [], uintMax⟩
        vout := stakeOutputs kernel.scriptPubKeyOut fSplit 0
        nLockTime := 0 }
      let nCoinAge ← (getCoinAge P env.files st.pindexBest.nHeight st.txdb txNew).toOption
      let nReward := getProofOfStakeReward P st.pindexBest.nHeight nCoinAge nFees
      if nReward ≤ 0 then none
      else
        let vout := stakeOutputs kernel.scriptPubKeyOut fSplit (inputs.nCredit + nReward)
        let txNew ← inputs.vwtxPrev.zipIdx.foldlM (signStakeInput env) { txNew with vout }
        if txNew.getSerializeSize ≥ MAX_BLOCK_SIZE_GEN / 5 then none else some (txNew, kernel.key)

/-- The static variables of the search. -/
structure StakeSearch where
  nLastCoinStakeSearchTime : ℤ
  nLastCoinStakeSearchInterval : ℤ

/-- The earliest time of a block on the tip. -/
def earliestBlockTime (pindexBest : PIndex) : ℤ :=
  max (pindexBest.getMedianTimePast + 1) (pastDrift pindexBest.nTime)

/-- The template and its coinbase get the time of the coinstake. -/
def stampBlock (txCoinStake : CTransaction) (block : CBlock) : CBlock :=
  { block with
    vtx := match block.vtx with
      | [] => []
      | txNew :: rest => { txNew with nTime := txCoinStake.nTime } :: rest
    nTime := txCoinStake.nTime }

/-- Set the time of a stamped template, drop what is later, and put the coinstake in. -/
def stakeBlock (pindexBest : PIndex) (txCoinStake : CTransaction) (block : CBlock) : CBlock :=
  let block := stampBlock txCoinStake block
  let nTime := max (pindexBest.getMedianTimePast + 1) block.getMaxTransactionTime
  let nTime := (max nTime (pastDrift pindexBest.nTime)).toNat
  let vtx := block.vtx.filter fun tx ↦ !decide (tx.nTime > nTime)
  let block := { block with nTime, vtx := vtx.take 1 ++ txCoinStake :: vtx.drop 1 }
  { block with hashMerkleRoot := buildMerkleTree P block }

def signBlock (search : StakeSearch) (block : CBlock) (nFees : ℤ) : Bool × CBlock × StakeSearch :=
  let fTemplate := block.vtx.head?.any fun tx ↦ tx.vout.head?.any CTxOut.isEmpty
  if !fTemplate then (false, block, search)
  else if block.isProofOfStake then (true, block, search)
  else
    let nSearchTime : ℤ := env.nSearchTime
    if nSearchTime > search.nLastCoinStakeSearchTime then
      let failed : StakeSearch := ⟨nSearchTime, nSearchTime - search.nLastCoinStakeSearchTime⟩
      match createCoinStake P env st block.nBits (nSearchTime - search.nLastCoinStakeSearchTime) nFees with
      | none => (false, block, failed)
      | some (txCoinStake, key) =>
          if (txCoinStake.nTime : ℤ) ≥ earliestBlockTime st.pindexBest then
            let block := stakeBlock P st.pindexBest txCoinStake block
            match env.wallet.sign key (block.getHash P) with
            | some vchBlockSig => (true, { block with vchBlockSig }, search)
            | none => (false, block, search)
          else (false, block, failed)
    else (false, block, search)

end Electra.Chain
