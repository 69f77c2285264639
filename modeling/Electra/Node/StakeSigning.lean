import Electra.Chain.Staking
import Electra.Node.BlockTemplate

/-!
# The times of a signed stake block

A signed block takes its time from the coinstake and from the transactions that are already in it, so
that transactions later than the coinstake are not dropped but move the block's time past it.
-/

namespace Electra.Node

open Chain Ledger Foundations Foundations.Outcome Foundations.ReadyQueue

variable {P : ChainParams} {D : Type} [Double D] {heap : Heap (TxPriority D)} {miner : MinerEnv}
  {env : StakeEnv} {st : NodeState} {template : BlockTemplate}

/-- Nothing but ordinary transactions follows the coinbase of a template. -/
theorem isOrdinary_of_createNewBlock {fProofOfStake : Bool}
    (h : createNewBlock P heap miner st fProofOfStake = .ok template) :
    ∃ s : CollectState D, (∀ tx ∈ s.vtx, isOrdinary tx = true) ∧
      template = finishBlock P miner st fProofOfStake
        (minerCoinbase miner st.pindexBest fProofOfStake) s := by
  simp only [createNewBlock, bind_eq_ok, rejectIf_eq_ok, pure_eq_ok, exists_const] at h
  obtain ⟨-, queue, hqueue, s, hcollect, rfl⟩ := h
  obtain ⟨l, -, hperm, hqueued⟩ := (queueTxs_spec st.mempool.mapTx.nodupKeys hqueue).pending
  have hinit : ∀ tx ∈ offered (.init miner.args queue : CollectState D), isOrdinary tx = true := by
    intro tx htx
    obtain ⟨entry, hentry, rfl⟩ := List.mem_map.mp (hperm.mem_iff.mp htx)
    have hfinal := hqueued entry hentry
    rw [isQueued, Bool.and_eq_true] at hfinal
    exact hfinal.1
  have hbase : ∀ tx, isOrdinary tx = true → tx.isCoinBase = false := by
    intro tx htx
    rw [isOrdinary, Bool.and_eq_true] at htx
    simpa using htx.1
  refine ⟨s, fun tx htx ↦ ?_, rfl⟩
  exact forall_offered_of_collectTxs hbase hinit hcollect tx (List.mem_append_left _ htx)

/-- The timestamp rules of `CheckBlock`, by any clock that does not show an earlier time than the
search, and those of `AcceptBlock` on the tip. -/
structure TimestampsValid (env : StakeEnv) (st : NodeState) (block : CBlock) : Prop where
  coinStake : ∃ tx, block.vtx[1]? = some tx ∧ block.nTime = tx.nTime
  transactions : ∀ tx ∈ block.vtx, tx.nTime ≤ block.nTime
  coinbase : coinbaseTooEarly block = false
  future : ∀ nAdjustedTime : ℤ, env.nSearchTime ≤ nAdjustedTime →
    (block.nTime : ℤ) ≤ futureDrift nAdjustedTime
  pastLimit : st.pindexBest.getMedianTimePast < block.nTime
  drift : st.pindexBest.nTime ≤ futureDrift block.nTime

variable {tx : CTransaction} {nBits : ℕ} {nSearchInterval nFees : ℤ}

theorem nTime_signStakeInputs {inputs : List (StakeCoin × ℕ)} {tx' : CTransaction}
    (h : inputs.foldlM (signStakeInput env) tx = some tx') : tx'.nTime = tx.nTime := by
  induction inputs generalizing tx with
  | nil =>
    obtain rfl := Option.some.inj h
    rfl
  | cons input inputs ih =>
    rw [List.foldlM_cons, Option.bind_eq_bind, Option.bind_eq_some_iff] at h
    obtain ⟨tx₁, hone, hrest⟩ := h
    obtain ⟨scriptSig, -, rfl⟩ := Option.map_eq_some_iff.mp hone
    have hsame := ih hrest
    exact hsame

theorem nTime_searchKernel {coin : StakeCoin} {kernel : StakeKernel}
    (h : searchKernel P env st nBits nSearchInterval coin = some kernel) :
    kernel.nTime ≤ env.nSearchTime := by
  simp only [searchKernel, Option.bind_eq_bind, Option.bind_eq_some_iff, Option.ite_none_left_eq_some,
    pure, Option.some.injEq] at h
  obtain ⟨txindex, -, header, -, -, n, -, signing, -, rfl⟩ := h
  exact Nat.sub_le _ _

/-- The search only goes back in time. -/
theorem nTime_createCoinStake {key : CKey}
    (h : createCoinStake P env st nBits nSearchInterval nFees = some (tx, key)) :
    tx.nTime ≤ env.nSearchTime := by
  simp only [createCoinStake, Option.bind_eq_bind, Option.bind_eq_some_iff,
    Option.ite_none_left_eq_some] at h
  obtain ⟨-, setCoins, -, kernel, hkernel, -, nCoinAge, -, -, txNew, hsign, -, heq⟩ := h
  obtain ⟨coin, -, hsearch⟩ := List.exists_of_findSome?_eq_some hkernel
  obtain ⟨rfl, -⟩ := Prod.mk.inj (Option.some.inj heq)
  rw [nTime_signStakeInputs hsign]
  exact nTime_searchKernel hsearch

section StakeBlock

variable {pindexBest : PIndex} {txCoinStake txNew : CTransaction} {rest : List CTransaction}
  {block : CBlock}

theorem vtx_stampBlock (hvtx : block.vtx = txNew :: rest) :
    (stampBlock txCoinStake block).vtx = { txNew with nTime := txCoinStake.nTime } :: rest := by
  rw [stampBlock, hvtx]

/-- The coinbase alone makes a stamped block as late as its coinstake. -/
theorem le_getMaxTransactionTime_stampBlock (hvtx : block.vtx = txNew :: rest) :
    (txCoinStake.nTime : ℤ) ≤ (stampBlock txCoinStake block).getMaxTransactionTime := by
  have hmem : { txNew with nTime := txCoinStake.nTime } ∈ (stampBlock txCoinStake block).vtx := by
    rw [vtx_stampBlock hvtx]
    exact List.mem_cons_self
  have hlate := CBlock.le_getMaxTransactionTime hmem
  exact hlate

variable (P pindexBest) in
/-- The block is as late as its latest transaction and as the tip demands. -/
theorem nTime_stakeBlock (hvtx : block.vtx = txNew :: rest) :
    ((stakeBlock P pindexBest txCoinStake block).nTime : ℤ) =
      max (stampBlock txCoinStake block).getMaxTransactionTime (earliestBlockTime pindexBest) := by
  have hmax : (txCoinStake.nTime : ℤ) ≤ (stampBlock txCoinStake block).getMaxTransactionTime :=
    le_getMaxTransactionTime_stampBlock hvtx
  have htime : (stakeBlock P pindexBest txCoinStake block).nTime =
      (max (max (pindexBest.getMedianTimePast + 1)
        (stampBlock txCoinStake block).getMaxTransactionTime) (pastDrift pindexBest.nTime)).toNat := rfl
  rw [htime, Int.toNat_of_nonneg (by omega), earliestBlockTime, max_comm (_ + 1), max_assoc]

/-- Nothing is dropped: the block is no earlier than its latest transaction. -/
theorem vtx_stakeBlock (hvtx : block.vtx = txNew :: rest) :
    (stakeBlock P pindexBest txCoinStake block).vtx =
      { txNew with nTime := txCoinStake.nTime } :: txCoinStake :: rest := by
  have hkept : (stampBlock txCoinStake block).vtx.filter (fun tx ↦
      !decide (tx.nTime > (stakeBlock P pindexBest txCoinStake block).nTime)) =
        (stampBlock txCoinStake block).vtx := by
    rw [List.filter_eq_self]
    intro tx htx
    have hlate := CBlock.le_getMaxTransactionTime htx
    have htime : ((stakeBlock P pindexBest txCoinStake block).nTime : ℤ) = _ :=
      nTime_stakeBlock P pindexBest hvtx
    have hle : tx.nTime ≤ (stakeBlock P pindexBest txCoinStake block).nTime := by omega
    simpa using hle
  have hsplit : (stakeBlock P pindexBest txCoinStake block).vtx =
      ((stampBlock txCoinStake block).vtx.filter fun tx ↦
        !decide (tx.nTime > (stakeBlock P pindexBest txCoinStake block).nTime)).take 1 ++
      txCoinStake :: ((stampBlock txCoinStake block).vtx.filter fun tx ↦
        !decide (tx.nTime > (stakeBlock P pindexBest txCoinStake block).nTime)).drop 1 := rfl
  rw [hsplit, hkept, vtx_stampBlock hvtx]
  rfl

variable (P) in
/-- The block has the time of its coinstake if and only if no transaction is later. -/
theorem nTime_stakeBlock_iff (hvtx : block.vtx = txNew :: rest)
    (hearliest : earliestBlockTime pindexBest ≤ txCoinStake.nTime) :
    (stakeBlock P pindexBest txCoinStake block).nTime = txCoinStake.nTime ↔
      ∀ tx ∈ rest, tx.nTime ≤ txCoinStake.nTime := by
  have htime : ((stakeBlock P pindexBest txCoinStake block).nTime : ℤ) = _ :=
    nTime_stakeBlock P pindexBest hvtx
  constructor
  · intro hsame tx htx
    have hlate : (tx.nTime : ℤ) ≤ (stampBlock txCoinStake block).getMaxTransactionTime := by
      apply CBlock.le_getMaxTransactionTime
      rw [vtx_stampBlock hvtx]
      exact List.mem_cons_of_mem _ htx
    omega
  · intro hrest
    have hlatest : (stampBlock txCoinStake block).getMaxTransactionTime ≤ txCoinStake.nTime := by
      apply CBlock.getMaxTransactionTime_le (Int.natCast_nonneg _)
      rw [vtx_stampBlock hvtx]
      intro tx htx
      rcases List.mem_cons.mp htx with rfl | htx
      · exact le_refl _
      · exact_mod_cast hrest tx htx
    have hmax : (txCoinStake.nTime : ℤ) ≤ (stampBlock txCoinStake block).getMaxTransactionTime :=
      le_getMaxTransactionTime_stampBlock hvtx
    omega

end StakeBlock

/-- The time of the kernel that the search finds, which depends on the tip, the clock and the coins. -/
def kernelTime (P : ChainParams) (env : StakeEnv) (st : NodeState) (nBits : ℕ) (nSearchInterval : ℤ) :
    Option ℕ := do
  let setCoins ← env.wallet.selectCoinsSimple (env.wallet.nBalance - env.nReserveBalance)
    env.nSearchTime (nCoinbaseMaturity + 10)
  let kernel ← setCoins.findSome? (searchKernel P env st nBits nSearchInterval)
  return kernel.nTime

theorem kernelTime_of_createCoinStake {key : CKey}
    (h : createCoinStake P env st nBits nSearchInterval nFees = some (tx, key)) :
    kernelTime P env st nBits nSearchInterval = some tx.nTime := by
  simp only [createCoinStake, Option.bind_eq_bind, Option.bind_eq_some_iff,
    Option.ite_none_left_eq_some] at h
  obtain ⟨-, setCoins, hcoins, kernel, hkernel, -, nCoinAge, -, -, txNew, hsign, -, heq⟩ := h
  obtain ⟨rfl, -⟩ := Prod.mk.inj (Option.some.inj heq)
  rw [nTime_signStakeInputs hsign]
  simp [kernelTime, hcoins, hkernel]

/-- No transaction of a template is later than the kernel that the search of the wallet finds. -/
def NoneLater (P : ChainParams) (env : StakeEnv) (st : NodeState) (search : StakeSearch)
    (block : CBlock) : Prop :=
  ∀ nTime, kernelTime P env st block.nBits (env.nSearchTime - search.nLastCoinStakeSearchTime) =
    some nTime → ∀ tx ∈ block.vtx.tail, tx.nTime ≤ nTime

/-- A signed template is the template with its coinstake put in and its time set. -/
theorem signBlock_eq_true {search search' : StakeSearch} {template block : CBlock}
    (hwork : template.isProofOfStake = false)
    (h : signBlock P env st search template nFees = (true, block, search')) :
    ∃ txCoinStake key vchBlockSig,
      createCoinStake P env st template.nBits (env.nSearchTime - search.nLastCoinStakeSearchTime)
        nFees = some (txCoinStake, key) ∧
      earliestBlockTime st.pindexBest ≤ txCoinStake.nTime ∧
      block = { stakeBlock P st.pindexBest txCoinStake template with vchBlockSig } := by
  unfold signBlock at h
  simp only [hwork, Bool.false_eq_true, if_false] at h
  split at h
  · exact absurd (congrArg Prod.fst h) (by simp)
  · split at h
    · cases hcreate : createCoinStake P env st template.nBits
        (env.nSearchTime - search.nLastCoinStakeSearchTime) nFees with
      | none => simp [hcreate] at h
      | some found =>
        obtain ⟨txCoinStake, key⟩ := found
        simp only [hcreate] at h
        split at h
        case isTrue hearliest =>
          split at h
          case h_1 vchBlockSig hsign =>
            obtain ⟨-, hblock⟩ := Prod.mk.inj h
            exact ⟨txCoinStake, key, vchBlockSig, rfl, hearliest, (Prod.mk.inj hblock).1.symm⟩
          case h_2 => exact absurd (congrArg Prod.fst h) (by simp)
        case isFalse => exact absurd (congrArg Prod.fst h) (by simp)
    · exact absurd (congrArg Prod.fst h) (by simp)

/-- A block that has the time of its coinstake meets all the rules. -/
theorem timestampsValid_stakeBlock {block : CBlock} {txCoinStake txNew : CTransaction}
    {rest : List CTransaction} {vchBlockSig : List UInt8} (hsearch : txCoinStake.nTime ≤ env.nSearchTime)
    (hearliest : earliestBlockTime st.pindexBest ≤ txCoinStake.nTime) (hvtx : block.vtx = txNew :: rest)
    (hsame : (stakeBlock P st.pindexBest txCoinStake block).nTime = txCoinStake.nTime) :
    TimestampsValid env st { stakeBlock P st.pindexBest txCoinStake block with vchBlockSig } := by
  have hsigned : (stakeBlock P st.pindexBest txCoinStake block).vtx =
      { txNew with nTime := txCoinStake.nTime } :: txCoinStake :: rest := vtx_stakeBlock hvtx
  have hrest : ∀ tx ∈ rest, tx.nTime ≤ txCoinStake.nTime := (nTime_stakeBlock_iff P hvtx hearliest).mp hsame
  constructor
  case coinStake =>
    refine ⟨txCoinStake, ?_, hsame⟩
    rw [hsigned]
    rfl
  case transactions =>
    rw [hsame, hsigned]
    intro tx htx
    rcases List.mem_cons.mp htx with rfl | htx
    · exact le_refl _
    · rcases List.mem_cons.mp htx with rfl | htx
      · exact le_refl _
      · exact hrest tx htx
  case coinbase =>
    rw [coinbaseTooEarly, hsigned, hsame]
    simp [futureDrift]
  case future =>
    intro nAdjustedTime hclock
    rw [hsame, futureDrift]
    omega
  case pastLimit =>
    have hpast : st.pindexBest.getMedianTimePast + 1 ≤ earliestBlockTime st.pindexBest := le_max_left _ _
    rw [hsame]
    omega
  case drift =>
    have hdrift : pastDrift st.pindexBest.nTime ≤ earliestBlockTime st.pindexBest := le_max_right _ _
    rw [pastDrift] at hdrift
    rw [hsame, futureDrift]
    omega

/-- A template of a stake block is a coinbase and ordinary transactions. -/
theorem vtx_of_createNewBlock {fProofOfStake : Bool}
    (h : createNewBlock P heap miner st fProofOfStake = .ok template) :
    ∃ txNew rest, template.block.vtx = txNew :: rest ∧ template.block.isProofOfStake = false := by
  obtain ⟨s, hordinary, rfl⟩ := isOrdinary_of_createNewBlock h
  refine ⟨_, s.vtx, rfl, ?_⟩
  cases hvtx : s.vtx with
  | nil => simp [finishBlock, CBlock.isProofOfStake, hvtx]
  | cons tx rest =>
    have htx : isOrdinary tx = true := hordinary tx (hvtx ▸ List.mem_cons_self)
    rw [isOrdinary, Bool.and_eq_true] at htx
    simpa [finishBlock, CBlock.isProofOfStake, hvtx] using htx.2

/-- A signed template of a stake block has acceptable times if and only if none of its transactions is
later than the kernel that the search finds. -/
theorem timestampsValid_iff_noneLater {search search' : StakeSearch} {block : CBlock}
    (htemplate : createNewBlock P heap miner st true = .ok template)
    (h : signBlock P env st search template.block template.nFees = (true, block, search')) :
    TimestampsValid env st block ↔ NoneLater P env st search template.block := by
  obtain ⟨txNew, rest, hvtx, hwork⟩ := vtx_of_createNewBlock htemplate
  obtain ⟨txCoinStake, key, vchBlockSig, hcreate, hearliest, rfl⟩ := signBlock_eq_true hwork h
  have hkernel := kernelTime_of_createCoinStake hcreate
  have hsigned : (stakeBlock P st.pindexBest txCoinStake template.block).vtx = _ := vtx_stakeBlock hvtx
  have htime : (stakeBlock P st.pindexBest txCoinStake template.block).nTime = txCoinStake.nTime ↔
      ∀ tx ∈ rest, tx.nTime ≤ txCoinStake.nTime := nTime_stakeBlock_iff P hvtx hearliest
  have hlater : NoneLater P env st search template.block ↔
      ∀ tx ∈ rest, tx.nTime ≤ txCoinStake.nTime := by
    rw [NoneLater, hkernel, hvtx]
    constructor
    · intro hnone
      exact hnone _ rfl
    · rintro hnone nTime hfound
      obtain rfl := Option.some.inj hfound
      exact hnone
  rw [hlater, ← htime]
  constructor
  · intro hvalid
    obtain ⟨tx, htx, heq⟩ := hvalid.coinStake
    have hsecond : (stakeBlock P st.pindexBest txCoinStake template.block).vtx[1]? = some txCoinStake := by
      rw [hsigned]
      rfl
    obtain rfl := Option.some.inj (hsecond.symm.trans htx)
    exact heq
  · exact timestampsValid_stakeBlock (nTime_createCoinStake hcreate) hearliest hvtx

namespace StakeExample

open Builders PoolExample TemplateExample

/-- A payment with two outputs: one is spent again in the pool, the other one is staked. -/
def paid : CTransaction :=
  spending 60 4000 [⟨3, 0⟩] [output (500000000 * COIN), output (500000000 * COIN)]

def paying : CBlock := blockOf testNet 13 12 4200 (easiestBits testNet)
  [coinbase 14 4200 13 [output 0], paid]

def files : BlockFiles := filesOf (quietFiles testNet 13 ++ [(14, 8, paying)])

def payingRecords : List (Uint256 × CTxIndex) :=
  (locate 14 8 (firstTxPos 8 paying.vtx) paying.vtx).map fun entry ↦
    (testNet.hashTx entry.1, ⟨entry.2, List.replicate entry.1.vout.length none⟩)

/-- A later payment in the pool. -/
def spendingTx : CTransaction := spending 61 6999 [⟨60, 0⟩] [output (499999999 * COIN)]

/-- The node at height 13 with one payment in its pool. -/
def node : NodeState :=
  { nodeAt (indexOf testNet paying 14 8 :: quietIndex testNet 13)
      (txdbOf (payingRecords ++ quietRecords 13)) with
    mempool := CTxMemPool.empty.addUnchecked 61 spendingTx }

def coin : StakeCoin where
  wtx := {
    toCTransaction := paid
    hashBlock := 13
    vMerkleBranch := []
    nIndex := 1
    fFromMe := true
    vfSpent := [] }
  n := 1
  inRange := by decide

/-- A wallet with one coin. -/
def wallet : StakeWallet where
  nBalance := 500000000 * COIN
  selectCoinsSimple _ _ _ := some [coin]
  solver script := some (.pubKey, script)
  hash160 := id
  getKey vchSecret := some ⟨vchSecret⟩
  getPubKey := CKey.vchSecret
  signSignature _ _ _ := some [0]
  sign _ _ := some [0]

/-- A search at time 7000 that meets the target at one time only. -/
def stakeEnv (nKernelTime : ℕ) : StakeEnv where
  files
  wallet
  nReserveBalance := 0
  nSearchTime := 7000
  checkStakeKernelHash _ _ _ _ _ nTime := nTime == nKernelTime

def stakeMiner : MinerEnv := { minerEnv 7000 7000 with files }

def search : StakeSearch := ⟨6900, 0⟩

def mined : Except Reject BlockTemplate :=
  createNewBlock testNet (firstHighest : Heap (TxPriority ℚ)) stakeMiner node true

def sign (nKernelTime : ℕ) (template : BlockTemplate) : Bool × CBlock × StakeSearch :=
  signBlock testNet (stakeEnv nKernelTime) node search template.block template.nFees

/-- The template whose coinbase has time 7000. -/
theorem exists_mined : ∃ template, mined = .ok template :=
  exists_eq_ok (show mined.isOk = true by decide +kernel)

end StakeExample

open StakeExample PoolExample in
theorem timestampsValid_example :
    ∃ template block search', mined = .ok template ∧ sign 7000 template = (true, block, search') ∧
      block.vtx.map CTransaction.nTime = [7000, 7000, 6999] ∧
      (TimestampsValid (stakeEnv 7000) node block ↔
        NoneLater testNet (stakeEnv 7000) node search template.block) := by
  obtain ⟨template, htemplate⟩ := exists_mined
  have hfacts : mined.map (fun template ↦ ((sign 7000 template).1,
      (sign 7000 template).2.1.vtx.map CTransaction.nTime)) = .ok (true, [7000, 7000, 6999]) := by
    decide +kernel
  rw [htemplate] at hfacts
  obtain ⟨hsigned, htimes⟩ := Prod.mk.inj (Except.ok.inj hfacts)
  have hsign : sign 7000 template = (true, (sign 7000 template).2.1, (sign 7000 template).2.2) :=
    Prod.ext hsigned rfl
  exact ⟨template, _, _, htemplate, hsign, htimes, timestampsValid_iff_noneLater htemplate hsign⟩

open StakeExample PoolExample in
/-- The search goes back five seconds and the payment stays in the block. -/
theorem not_timestampsValid_later :
    ∃ template block search', mined = .ok template ∧ sign 6995 template = (true, block, search') ∧
      checkBlock testNet 7000 block true true true =
        .error (dos 50 "CheckBlock() : coinstake timestamp violation") ∧
      ¬ TimestampsValid (stakeEnv 6995) node block := by
  obtain ⟨template, htemplate⟩ := exists_mined
  have hfacts : mined.map (fun template ↦ ((sign 6995 template).1,
      checkBlock testNet 7000 (sign 6995 template).2.1 true true true,
      (sign 6995 template).2.1.nTime, (sign 6995 template).2.1.vtx[1]?.map CTransaction.nTime)) =
        .ok (true, .error (dos 50 "CheckBlock() : coinstake timestamp violation"), 6999, some 6995) := by
    decide +kernel
  rw [htemplate] at hfacts
  obtain ⟨hsigned, hcheck⟩ := Prod.mk.inj (Except.ok.inj hfacts)
  obtain ⟨hcheck, htimes⟩ := Prod.mk.inj hcheck
  obtain ⟨htime, hstake⟩ := Prod.mk.inj htimes
  refine ⟨template, _, _, htemplate, Prod.ext hsigned rfl, hcheck, ?_⟩
  intro hvalid
  obtain ⟨tx, htx, heq⟩ := hvalid.coinStake
  rw [htx] at hstake
  have hearly : tx.nTime = 6995 := Option.some.inj hstake
  have hsame : 6999 = 6995 := htime.symm.trans (heq.trans hearly)
  exact absurd hsame (by decide)

end Electra.Node
