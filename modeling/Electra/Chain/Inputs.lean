import Electra.Chain.TxDb
import Electra.Foundations.MachineInt

/-!
# Inputs and rewards

Fetching the previous transactions, checking and marking their outputs, taking the marks back, and
the coin age of a transaction.  While a block is connected the marks go to a map of pending changes
(`mapTestPool`) that shadows the database.

The reward limits depend on the height of `pindexBest`, whichever block is being connected.
-/

namespace Electra.Chain

open Foundations.SpendIndex Foundations.Outcome

section

/-- Previous transactions with their index records, by hash. -/
abbrev MapPrevTx := Uint256 → Option (CTxIndex × CTransaction)

/-- Pending changes to the transaction index. -/
abbrev MapTxIndex := AList fun _ : Uint256 ↦ CTxIndex

variable (P : ChainParams)

section Fetch

variable (files : BlockFiles) (txdb : CTxDB) (mapTx : Uint256 → Option CTransaction)
  (mapTestPool : MapTxIndex) (fBlock fMiner : Bool)

/-- The index record of a previous transaction: from the pending changes, else from the database. -/
def findTxIndex (hash : Uint256) : Option CTxIndex :=
  if fBlock || fMiner then
    match mapTestPool.lookup hash with
    | some txindex => some txindex
    | none => txdb.readTxIndex hash
  else txdb.readTxIndex hash

/-- The loop body over the inputs in `FetchInputs`; a failure carries `fInvalid`. -/
def fetchInput (inputs : MapPrevTx) (prevout : COutPoint) : Except (Bool × Reject) MapPrevTx :=
  if (inputs prevout.hash).isSome then .ok inputs
  else
    match findTxIndex txdb mapTestPool fBlock fMiner prevout.hash with
    | none =>
        if fBlock || fMiner then
          .error (false, if fMiner then silent else error "FetchInputs() : prev tx index entry not found")
        else do
          let txPrev ← require (mapTx prevout.hash) (false, error "FetchInputs() : mempool Tx prev not found")
          return Function.update inputs prevout.hash
            (some (⟨.null, List.replicate txPrev.vout.length none⟩, txPrev))
    | some txindex =>
        if txindex.pos = .memoryPool then do
          let txPrev ← require (mapTx prevout.hash) (false, error "FetchInputs() : mempool Tx prev not found")
          return Function.update inputs prevout.hash (some (txindex, txPrev))
        else do
          let txPrev ← require (files.readTx txindex.pos.nFile txindex.pos.nTxPos)
            (false, error "FetchInputs() : ReadFromDisk prev tx failed")
          return Function.update inputs prevout.hash (some (txindex, txPrev))

/-- An input refers to an output that its previous transaction and its index record have. -/
def prevoutInRange (inputs : MapPrevTx) (prevout : COutPoint) : Bool :=
  match inputs prevout.hash with
  | none => false
  | some (txindex, txPrev) =>
      decide (prevout.n < txPrev.vout.length) && decide (prevout.n < txindex.vSpent.length)

def fetchInputs (tx : CTransaction) : Except (Bool × Reject) MapPrevTx := do
  if tx.isCoinBase then
    return fun _ ↦ none
  let inputs ← (tx.vin.map CTxIn.prevout).foldlM
    (fetchInput files txdb mapTx mapTestPool fBlock fMiner) fun _ ↦ none
  rejectIf (!(tx.vin.map CTxIn.prevout).all (prevoutInRange inputs))
    (true, dos 100 "FetchInputs() : prevout.n out of range")
  return inputs

end Fetch

def getOutputFor (inputs : MapPrevTx) (prevout : COutPoint) : Except Reject CTxOut := do
  let prev ← require (inputs prevout.hash) (error "CTransaction::GetOutputFor() : prevout.hash not found")
  require prev.2.vout[prevout.n]? (error "CTransaction::GetOutputFor() : prevout.n out of range")

def getValueIn (inputs : MapPrevTx) (tx : CTransaction) : Except Reject ℤ :=
  if tx.isCoinBase then .ok 0
  else (tx.vin.map CTxIn.prevout).foldlM (fun nResult prevout ↦ do
    let txout ← getOutputFor inputs prevout
    return nResult + txout.nValue) 0

def isPayToScriptHash (script : CScript) : Bool :=
  script.length == 23 && script[0]? == some 0xa9 && script[1]? == some 0x14 && script[22]? == some 0x87

def getP2SHSigOpCount (inputs : MapPrevTx) (tx : CTransaction) : Except Reject ℕ :=
  if tx.isCoinBase then .ok 0
  else tx.vin.foldlM (fun nSigOps txin ↦ do
    let prevout ← getOutputFor inputs txin.prevout
    return nSigOps + if isPayToScriptHash prevout.scriptPubKey then
      P.p2shSigOpCount prevout.scriptPubKey txin.scriptSig else 0) 0

/-- A coinbase or coinstake among the last blocks, by the position of its block. -/
def spendsImmature (pindexBlock : PIndex) (pos : CDiskTxPos) : Bool :=
  (pindexBlock.take nCoinbaseMaturity.toNat).any fun index ↦
    index.nBlockPos == pos.nBlockPos && index.nFile == pos.nFile

/-- The inexpensive checks on one input in `ConnectInputs`, with the sum of the input values. -/
def checkInput (inputs : MapPrevTx) (pindexBlock : PIndex) (tx : CTransaction) (nValueIn : ℤ)
    (prevout : COutPoint) : Except Reject ℤ := do
  let (txindex, txPrev) ← require (inputs prevout.hash) (error "assert(inputs.count(prevout.hash) > 0)")
  rejectIf (prevout.n ≥ txPrev.vout.length ∨ prevout.n ≥ txindex.vSpent.length)
    (dos 100 "ConnectInputs() : prevout.n out of range")
  rejectIf ((txPrev.isCoinBase || txPrev.isCoinStake) && spendsImmature pindexBlock txindex.pos)
    (error "ConnectInputs() : tried to spend coinbase or coinstake too early")
  rejectIf (txPrev.nTime > tx.nTime)
    (dos 100 "ConnectInputs() : transaction timestamp earlier than input transaction")
  let txout ← require txPrev.vout[prevout.n]? (dos 100 "ConnectInputs() : prevout.n out of range")
  let nValueIn := nValueIn + txout.nValue
  rejectIf (!moneyRange txout.nValue || !moneyRange nValueIn)
    (dos 100 "ConnectInputs() : txin values out of range")
  return nValueIn

/-- Signatures are not verified in blocks while the best height is below the last checkpoint. -/
def skipSignatures (nBestHeight : ℤ) (fBlock : Bool) : Bool :=
  fBlock && decide (nBestHeight < getTotalBlocksEstimate P)

/-- Check one input for a double spend and verify its signature, then mark its output. -/
def spendInput (nBestHeight : ℤ) (fBlock fMiner : Bool) (tx : CTransaction) (posThisTx : CDiskTxPos)
    (state : MapPrevTx × MapTxIndex) (input : CTxIn × ℕ) : Except Reject (MapPrevTx × MapTxIndex) := do
  let (inputs, mapTestPool) := state
  let prevout := input.1.prevout
  let (txindex, txPrev) ← require (inputs prevout.hash) (error "assert(inputs.count(prevout.hash) > 0)")
  rejectIf (txindex.vSpent[prevout.n]? ≠ some none)
    (if fMiner then silent else error "ConnectInputs() : prev tx already used")
  rejectIf (!skipSignatures P nBestHeight fBlock && !P.verifySignature txPrev tx input.2)
    (dos 100 "ConnectInputs() : VerifySignature failed")
  let txindex := { txindex with vSpent := txindex.vSpent.set prevout.n (some posThisTx) }
  return (Function.update inputs prevout.hash (some (txindex, txPrev)),
    if fBlock || fMiner then mapTestPool.insert prevout.hash txindex else mapTestPool)

/-- An ordinary transaction spends no more than its inputs and pays the least fee. -/
def checkFee (fBlock : Bool) (tx : CTransaction) (nValueIn : ℤ) : Except Reject Unit := do
  let nValueOut ← tx.getValueOut
  rejectIf (nValueIn < nValueOut) (dos 100 "ConnectInputs() : value in < value out")
  let nTxFee := nValueIn - nValueOut
  rejectIf (nTxFee < 0) (dos 100 "ConnectInputs() : nTxFee < 0")
  rejectIf (nTxFee < tx.getMinFee 1 .gmfBlock 0)
    (if fBlock then dos 100 "ConnectInputs() : not paying required fee" else silent)
  rejectIf (!moneyRange nTxFee) (dos 100 "ConnectInputs() : nFees out of range")

def connectInputs (nBestHeight : ℤ) (inputs : MapPrevTx) (mapTestPool : MapTxIndex)
    (posThisTx : CDiskTxPos) (pindexBlock : PIndex) (fBlock fMiner : Bool) (tx : CTransaction) :
    Except Reject MapTxIndex := do
  if tx.isCoinBase then
    return mapTestPool
  let nValueIn ← (tx.vin.map CTxIn.prevout).foldlM (checkInput inputs pindexBlock tx) 0
  let (_, mapTestPool) ← tx.vin.zipIdx.foldlM (spendInput P nBestHeight fBlock fMiner tx posThisTx)
    (inputs, mapTestPool)
  checkWhen (!tx.isCoinStake) (checkFee fBlock tx nValueIn)
  return mapTestPool

/-- Take one mark back; a failure leaves the database as far as it got. -/
def disconnectInput (txdb : CTxDB) (prevout : COutPoint) : Except (Reject × CTxDB) CTxDB := do
  let txindex ← require (txdb.readTxIndex prevout.hash)
    (error "DisconnectInputs() : ReadTxIndex failed", txdb)
  rejectIf (prevout.n ≥ txindex.vSpent.length)
    (error "DisconnectInputs() : prevout.n out of range", txdb)
  return txdb.updateTxIndex prevout.hash
    { txindex with vSpent := txindex.vSpent.set prevout.n none }

def disconnectInputs (txdb : CTxDB) (tx : CTransaction) : Except (Reject × CTxDB) CTxDB := do
  let txdb ← tx.spends.foldlM disconnectInput txdb
  return txdb.eraseTxIndex (P.hashTx tx)

def ChainParams.nStakeMinAge : ℤ := if P.fTestNet then 360 else 12 * 60 * 60
def ChainParams.nStakeMinAgeOld : ℤ := if P.fTestNet then 1800 else 24 * 60 * 60

/-- The previous transaction of an outpoint with its index record, if it has that output. -/
def readPrevTx (files : BlockFiles) (txdb : CTxDB) (prevout : COutPoint) :
    Option (CTransaction × CTxIndex × CTxOut) := do
  let txindex ← txdb.readTxIndex prevout.hash
  let txPrev ← files.readTx txindex.pos.nFile txindex.pos.nTxPos
  let txout ← txPrev.vout[prevout.n]?
  return (txPrev, txindex, txout)

/-- The loop body over the inputs in `GetCoinAge`: cent-seconds of the coins that are old enough. -/
def addCoinAge (files : BlockFiles) (nBestHeight : ℤ) (txdb : CTxDB) (tx : CTransaction)
    (bnCentSecond : ℤ) (prevout : COutPoint) : Except Reject ℤ :=
  match readPrevTx files txdb prevout with
  | none => .ok bnCentSecond -- previous transaction not in main chain
  | some (txPrev, txindex, txout) => do
      rejectIf (tx.nTime < txPrev.nTime) silent
      let header ← require (files.readHeader txindex.pos.nFile txindex.pos.nBlockPos) silent
      let nMinAge := if nBestHeight + 1 ≥ P.hardForkBlock then P.nStakeMinAge else P.nStakeMinAgeOld
      if (header.nTime : ℤ) + nMinAge > tx.nTime then return bnCentSecond
      else return bnCentSecond + (txout.nValue * ((tx.nTime : ℤ) - txPrev.nTime)).tdiv CENT

/-- `CBigNum::getuint64`: the low digits of the absolute value. -/
def getuint64 (n : ℤ) : ℤ := (n.natAbs % 2 ^ 64 : ℕ)

/-- Coin age in coin-days; it depends on the height of `pindexBest`. -/
def getCoinAge (files : BlockFiles) (nBestHeight : ℤ) (txdb : CTxDB) (tx : CTransaction) :
    Except Reject ℤ := do
  if tx.isCoinBase then
    return 0
  let bnCentSecond ← (tx.vin.map CTxIn.prevout).foldlM (addCoinAge P files nBestHeight txdb tx) 0
  if P.fTestNet || decide (nBestHeight > LAST_OLD_POS_BLOCK) then
    return getuint64 (((bnCentSecond * CENT).tdiv COIN).tdiv (24 * 60 * 60))
  else return getuint64 ((bnCentSecond * CENT).tdiv (24 * 60 * 60))

end

open Foundations.MachineInt

variable (P : ChainParams)

def MAX_MINT_PROOF_OF_STAKE_OLD : ℤ := 50 * CENT
def MAX_MINT_PROOF_OF_STAKE_OLD_TEST : ℤ := 50 * CENT

/-- Subsidy of a proof-of-work block while the best block has the given height. -/
def proofOfWorkSubsidy (nBestHeight : ℤ) : ℤ :=
  if P.fTestNet then
    if nBestHeight > 1 then 1000 * COIN else if nBestHeight = 1 then 1000000019 * COIN else 0
  else if nBestHeight ≥ 11811 then 1 * COIN
  else if nBestHeight ≥ 11522 then 65972222 * COIN
  else if nBestHeight > 1 then 390625 -- 0.00390625 * COIN
  else if nBestHeight = 1 then 1000000019 * COIN
  else 0

def getProofOfWorkReward (nBestHeight nFees : ℤ) : ℤ := proofOfWorkSubsidy P nBestHeight + nFees

/-- Blocks of one year after the hard fork. -/
def nBlocksPerYear : ℤ := 210384

/-- Yearly interest while the best block has the given height. -/
def rewardCoinYear (nBestHeight : ℤ) : ℤ :=
  if P.fTestNet then
    if nBestHeight ≥ HARD_FORK_BLOCK_TEST then 25 * CENT else MAX_MINT_PROOF_OF_STAKE_OLD_TEST
  else if nBestHeight ≥ HARD_FORK_BLOCK then
    if nBestHeight < HARD_FORK_BLOCK + nBlocksPerYear then 2500000 -- 2.5 * CENT
    else if nBestHeight < HARD_FORK_BLOCK + nBlocksPerYear * 2 then 1250000 -- 1.25 * CENT
    else if nBestHeight < HARD_FORK_BLOCK + nBlocksPerYear * 3 then 630000 -- 0.63 * CENT
    else if nBestHeight < HARD_FORK_BLOCK + nBlocksPerYear * 4 then 310000 -- 0.31 * CENT
    else if nBestHeight < HARD_FORK_BLOCK + nBlocksPerYear * 5 then 160000 -- 0.16 * CENT
    else if nBestHeight < HARD_FORK_BLOCK + nBlocksPerYear * 6 then 80000 -- 0.08 * CENT
    else if nBestHeight < HARD_FORK_BLOCK + nBlocksPerYear * 7 then 40000 -- 0.04 * CENT
    else 20000 -- 0.02 * CENT
  else MAX_MINT_PROOF_OF_STAKE_OLD

/-- Up to `LAST_OLD_POS_BLOCK` the main network takes the coin age in units of 1/COIN days. -/
def oldProofOfStake (nBestHeight : ℤ) : Bool :=
  !P.fTestNet && decide (nBestHeight ≤ LAST_OLD_POS_BLOCK)

/-- The stake reward without fees, over unbounded integers. -/
def proofOfStakeFormula (nBestHeight nCoinAge : ℤ) : ℤ :=
  let nSubsidy := (nCoinAge * rewardCoinYear P nBestHeight).tdiv 365
  if oldProofOfStake P nBestHeight then nSubsidy.tdiv COIN else nSubsidy

/-- The product and the sum are those of `int64_t`, as which the coin age is passed. -/
def getProofOfStakeReward (nBestHeight nCoinAge nFees : ℤ) : ℤ :=
  let nSubsidy := (int64 (int64 nCoinAge * rewardCoinYear P nBestHeight)).tdiv 365
  int64 ((if oldProofOfStake P nBestHeight then nSubsidy.tdiv COIN else nSubsidy) + nFees)

/-- The reward beyond the fees does not depend on the fees. -/
theorem getProofOfWorkReward_eq (nBestHeight nFees : ℤ) :
    getProofOfWorkReward P nBestHeight nFees = getProofOfWorkReward P nBestHeight 0 + nFees := by
  simp [getProofOfWorkReward]

end Electra.Chain
