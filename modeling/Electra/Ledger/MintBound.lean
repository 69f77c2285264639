import Electra.Chain.Builders
import Electra.Ledger.BlockStep
import Mathlib.Tactic.Linarith

/-!
# What a block may mint

The reward is the formula over unbounded integers just when the coin age times the yearly rate fits
into 64 bits.  Up to `LAST_OLD_POS_BLOCK` the coin age of the main network is in units of 1/COIN days,
and two thousand coins of one day are already too many.

The outputs of a connected block exceed what its transactions spend by at most the reward of the
block, if no coinstake behind index 1 pays out more than it spends.  Nothing checks such a coinstake:
`ConnectInputs` lets every coinstake create value, and `CheckBlock` counts coinstakes only in
proof-of-stake blocks.
-/

namespace Electra.Ledger

open Chain Foundations.Outcome Foundations.MachineInt

section

variable {P : ChainParams} {nBestHeight nCoinAge nFees : ℤ}

/-- Days of a year, times the units of a coin if the coin age is in these. -/
def rewardDivisor (P : ChainParams) (nBestHeight : ℤ) : ℤ :=
  if oldProofOfStake P nBestHeight then 365 * COIN else 365

variable (P nBestHeight nCoinAge)

theorem rewardDivisor_pos : 0 < rewardDivisor P nBestHeight := by
  unfold rewardDivisor
  split <;> decide

theorem rewardDivisor_le : rewardDivisor P nBestHeight ≤ 2 ^ 63 := by
  unfold rewardDivisor
  split <;> decide

theorem rewardCoinYear_pos : 0 < rewardCoinYear P nBestHeight := by
  unfold rewardCoinYear
  split_ifs <;> decide

/-- Both divisions are one. -/
theorem tdiv_rewardDivisor (n : ℤ) :
    (if oldProofOfStake P nBestHeight then (n.tdiv 365).tdiv COIN else n.tdiv 365) =
      n.tdiv (rewardDivisor P nBestHeight) := by
  rw [rewardDivisor]
  split
  · exact tdiv_tdiv (by decide)
  · rfl

theorem proofOfStakeFormula_eq :
    proofOfStakeFormula P nBestHeight nCoinAge =
      (nCoinAge * rewardCoinYear P nBestHeight).tdiv (rewardDivisor P nBestHeight) :=
  tdiv_rewardDivisor P nBestHeight _

theorem getProofOfStakeReward_eq_int64 (nFees : ℤ) :
    getProofOfStakeReward P nBestHeight nCoinAge nFees =
      int64 ((int64 (nCoinAge * rewardCoinYear P nBestHeight)).tdiv (rewardDivisor P nBestHeight) +
        nFees) := by
  rw [← tdiv_rewardDivisor, ← int64_mul]
  rfl

theorem inInt64_rewardQuotient (n : ℤ) :
    InInt64 ((int64 n).tdiv (rewardDivisor P nBestHeight)) :=
  inInt64_tdiv (inInt64_int64 n) (rewardDivisor_pos P nBestHeight)

/-- Fees add no more than themselves to the reward. -/
theorem getProofOfStakeReward_le (hfees : 0 ≤ nFees) :
    getProofOfStakeReward P nBestHeight nCoinAge nFees ≤
      getProofOfStakeReward P nBestHeight nCoinAge 0 + nFees := by
  have hquotient := inInt64_rewardQuotient P nBestHeight (nCoinAge * rewardCoinYear P nBestHeight)
  rw [getProofOfStakeReward_eq_int64, getProofOfStakeReward_eq_int64, add_zero, int64_eq_self hquotient]
  exact int64_le (hquotient.1.trans (le_add_of_nonneg_right hfees))

variable {P nBestHeight nCoinAge}

/-- The reward is its formula over unbounded integers, is not negative, and is at least that of any
smaller coin age. -/
structure StakeRewardExact (P : ChainParams) (nBestHeight nCoinAge nFees : ℤ) : Prop where
  exact : getProofOfStakeReward P nBestHeight nCoinAge nFees =
    proofOfStakeFormula P nBestHeight nCoinAge + nFees
  nonneg : 0 ≤ getProofOfStakeReward P nBestHeight nCoinAge nFees
  monotone : ∀ nCoinAge', 0 ≤ nCoinAge' → nCoinAge' ≤ nCoinAge →
    getProofOfStakeReward P nBestHeight nCoinAge' nFees ≤ getProofOfStakeReward P nBestHeight nCoinAge nFees

theorem proofOfStakeFormula_nonneg (hage : 0 ≤ nCoinAge) : 0 ≤ proofOfStakeFormula P nBestHeight nCoinAge := by
  rw [proofOfStakeFormula_eq]
  exact Int.tdiv_nonneg (mul_nonneg hage (rewardCoinYear_pos P nBestHeight).le)
    (rewardDivisor_pos P nBestHeight).le

theorem proofOfStakeFormula_mono {nCoinAge' : ℤ} (hage' : 0 ≤ nCoinAge') (hle : nCoinAge' ≤ nCoinAge) :
    proofOfStakeFormula P nBestHeight nCoinAge' ≤ proofOfStakeFormula P nBestHeight nCoinAge := by
  have hrate := (rewardCoinYear_pos P nBestHeight).le
  rw [proofOfStakeFormula_eq, proofOfStakeFormula_eq, Int.tdiv_eq_ediv_of_nonneg (mul_nonneg hage' hrate),
    Int.tdiv_eq_ediv_of_nonneg (mul_nonneg (hage'.trans hle) hrate)]
  exact Int.ediv_le_ediv (rewardDivisor_pos P nBestHeight) (mul_le_mul_of_nonneg_right hle hrate)

theorem getProofOfStakeReward_eq_formula (hage : 0 ≤ nCoinAge) (hfees : 0 ≤ nFees)
    (hproduct : nCoinAge * rewardCoinYear P nBestHeight < 2 ^ 63)
    (hsum : proofOfStakeFormula P nBestHeight nCoinAge + nFees < 2 ^ 63) :
    getProofOfStakeReward P nBestHeight nCoinAge nFees =
      proofOfStakeFormula P nBestHeight nCoinAge + nFees := by
  have hrate := (rewardCoinYear_pos P nBestHeight).le
  have hnonneg : 0 ≤ proofOfStakeFormula P nBestHeight nCoinAge := proofOfStakeFormula_nonneg hage
  have hin : InInt64 (nCoinAge * rewardCoinYear P nBestHeight) :=
    ⟨le_trans (by decide) (mul_nonneg hage hrate), hproduct⟩
  rw [getProofOfStakeReward_eq_int64, int64_eq_self hin, ← proofOfStakeFormula_eq]
  exact int64_eq_self ⟨by omega, hsum⟩

/-- A product that has wrapped around makes the reward too small. -/
theorem getProofOfStakeReward_lt_formula (hfees : 0 ≤ nFees)
    (hproduct : 2 ^ 63 ≤ nCoinAge * rewardCoinYear P nBestHeight) :
    getProofOfStakeReward P nBestHeight nCoinAge nFees <
      proofOfStakeFormula P nBestHeight nCoinAge + nFees := by
  have hquotient := inInt64_rewardQuotient P nBestHeight (nCoinAge * rewardCoinYear P nBestHeight)
  have hlt : (int64 (nCoinAge * rewardCoinYear P nBestHeight)).tdiv (rewardDivisor P nBestHeight) <
      proofOfStakeFormula P nBestHeight nCoinAge := by
    rw [proofOfStakeFormula_eq]
    exact tdiv_int64_lt hproduct (rewardDivisor_pos P nBestHeight) (rewardDivisor_le P nBestHeight)
  calc getProofOfStakeReward P nBestHeight nCoinAge nFees
      ≤ (int64 (nCoinAge * rewardCoinYear P nBestHeight)).tdiv (rewardDivisor P nBestHeight) + nFees := by
        rw [getProofOfStakeReward_eq_int64]
        exact int64_le (hquotient.1.trans (le_add_of_nonneg_right hfees))
    _ < proofOfStakeFormula P nBestHeight nCoinAge + nFees := add_lt_add_left hlt nFees

theorem getCoinAge_nonneg {files : BlockFiles} {txdb : CTxDB} {tx : CTransaction}
    (h : getCoinAge P files nBestHeight txdb tx = .ok nCoinAge) : 0 ≤ nCoinAge := by
  unfold getCoinAge at h
  split at h
  · obtain rfl := Except.ok.inj h
    exact le_rfl
  · obtain ⟨bnCentSecond, -, h⟩ := bind_eq_ok.mp h
    split at h
    · obtain rfl := Except.ok.inj h
      exact Int.natCast_nonneg _
    · obtain rfl := Except.ok.inj h
      exact Int.natCast_nonneg _

/-- For a coin age that `GetCoinAge` returns, the reward is right just when neither the product nor the
sum exceeds 64 bits. -/
theorem stakeRewardExact_iff {files : BlockFiles} {txdb : CTxDB} {tx : CTransaction}
    (hage : getCoinAge P files nBestHeight txdb tx = .ok nCoinAge) (hfees : 0 ≤ nFees) :
    StakeRewardExact P nBestHeight nCoinAge nFees ↔
      nCoinAge * rewardCoinYear P nBestHeight < 2 ^ 63 ∧
        proofOfStakeFormula P nBestHeight nCoinAge + nFees < 2 ^ 63 := by
  have hnonneg := getCoinAge_nonneg hage
  constructor
  · intro h
    constructor
    · by_contra hlarge
      have hlt := getProofOfStakeReward_lt_formula hfees (not_lt.mp hlarge)
      exact absurd h.exact hlt.ne
    · rw [← h.exact, getProofOfStakeReward_eq_int64]
      exact (inInt64_int64 _).2
  · rintro ⟨hproduct, hsum⟩
    have hexact := getProofOfStakeReward_eq_formula hnonneg hfees hproduct hsum
    refine ⟨hexact, ?_, ?_⟩
    · rw [hexact]
      exact add_nonneg (proofOfStakeFormula_nonneg hnonneg) hfees
    · intro nCoinAge' hage' hle
      have hmono : proofOfStakeFormula P nBestHeight nCoinAge' ≤ proofOfStakeFormula P nBestHeight nCoinAge :=
        proofOfStakeFormula_mono hage' hle
      have hproduct' : nCoinAge' * rewardCoinYear P nBestHeight < 2 ^ 63 :=
        (mul_le_mul_of_nonneg_right hle (rewardCoinYear_pos P nBestHeight).le).trans_lt hproduct
      rw [hexact, getProofOfStakeReward_eq_formula hage' hfees hproduct' (by omega)]
      exact add_le_add_left hmono nFees

namespace RewardExample

open Builders

def mainNet : ChainParams := network false

/-- A block with a transaction that pays out some coins. -/
def paying (nCoins : ℤ) : CBlock :=
  blockOf mainNet 1 mainNet.genesisHash 0 (easiestBits mainNet) [spending 5 0 [] [output (nCoins * COIN)]]

def files (nCoins : ℤ) : BlockFiles := filesOf [(1, 8, paying nCoins)]

def txdb : CTxDB := txdbOf [(5, ⟨⟨1, 8, 89⟩, [none]⟩)]

/-- A coinstake on these coins a day later. -/
def staking (nCoins : ℤ) : CTransaction := coinstake 6 (24 * 60 * 60) [⟨5, 0⟩] (nCoins * COIN)

end RewardExample

open RewardExample in
theorem stakeRewardExact_example :
    StakeRewardExact mainNet 12000 (1000 * COIN) 0 ↔
      1000 * COIN * rewardCoinYear mainNet 12000 < 2 ^ 63 ∧
        proofOfStakeFormula mainNet 12000 (1000 * COIN) + 0 < 2 ^ 63 :=
  stakeRewardExact_iff (show getCoinAge mainNet (files 1000) 12000 txdb (staking 1000) =
    .ok (1000 * COIN) by decide) le_rfl

open RewardExample in
/-- The reward is negative, and a smaller coin age has a larger one. -/
theorem not_stakeRewardExact_twoThousand :
    moneyRange (2000 * COIN) ∧
      (∃ nCoinAge, getCoinAge mainNet (files 2000) 12000 txdb (staking 2000) = .ok nCoinAge ∧
        ¬ StakeRewardExact mainNet 12000 nCoinAge 0 ∧
        getProofOfStakeReward mainNet 12000 nCoinAge 0 < 0) := by
  refine ⟨by decide, 2000 * COIN, by decide, ?_, by decide⟩
  intro h
  exact absurd h.nonneg (by decide)

end

open Foundations.SpendIndex Foundations.WriteBatch

section Bound

variable (P : ChainParams) (env : Env) (st : NodeState) (block : CBlock) (pindex : PIndex)

/-- The transactions of a block, each with the value of the outputs it spends. -/
def blockValues : List (CTransaction × ℤ) :=
  withValueIn P env.files st.mempool.mapTx.lookup st.txdb.readTxIndex (block.located pindex false)

/-- The reward without fees that `ConnectBlock` means to permit. -/
def permittedReward : Except Reject ℤ := do
  if block.isProofOfStake then
    let tx ← require block.vtx[1]? (error "vtx[1]")
    let nCoinAge ← getCoinAge P env.files st.pindexBest.nHeight st.txdb tx
    return getProofOfStakeReward P st.pindexBest.nHeight nCoinAge 0
  else return getProofOfWorkReward P st.pindexBest.nHeight 0

/-- The block mints no more than its reward, and only its coinbase and the coinstake at index 1
create value. -/
structure MintBounded : Prop where
  total : ∃ nReward, permittedReward P env st block = .ok nReward ∧
    sumOut (blockValues P env st block pindex) - sumIn (blockValues P env st block pindex) ≤ nReward
  others : ∀ i tx, (blockValues P env st block pindex)[i]? = some tx → i ≠ 0 →
    ¬ (i = 1 ∧ tx.1.isCoinStake) → tx.1.valueOut ≤ tx.2

/-- No coinstake behind index 1 pays out more than it spends. -/
def NoLateMint : Prop :=
  ∀ i tx, (blockValues P env st block pindex)[i]? = some tx → 2 ≤ i → tx.1.isCoinStake →
    tx.1.valueOut ≤ tx.2

end Bound

/-- What the coinstakes of a list pay beyond what they spend. -/
def stakeGain (txs : List (CTransaction × ℤ)) : ℤ :=
  ((txs.filter fun tx ↦ tx.1.isCoinStake).map fun tx ↦ tx.1.valueOut - tx.2).sum

variable {txs : List (CTransaction × ℤ)}

theorem sumFees_nonneg (h : ∀ tx ∈ txs, isOrdinary tx.1 → tx.1.valueOut ≤ tx.2) : 0 ≤ sumFees txs := by
  apply List.sum_nonneg
  intro nFee hfee
  obtain ⟨tx, htx, rfl⟩ := List.mem_map.mp hfee
  obtain ⟨hmem, hordinary⟩ := List.mem_filter.mp htx
  exact sub_nonneg.mpr (h tx hmem hordinary)

/-- Without coinbases, what is created is what coinstakes gain less the fees. -/
theorem sumOut_sub_sumIn (h : ∀ tx ∈ txs, tx.1.isCoinBase = false) :
    sumOut txs - sumIn txs = stakeGain txs - sumFees txs := by
  induction txs with
  | nil => rfl
  | cons tx txs ih =>
    have htail := ih fun tx' htx' ↦ h tx' (.tail _ htx')
    have hbase := h tx List.mem_cons_self
    simp only [sumOut, sumIn, stakeGain, sumFees, isOrdinary] at htail ⊢
    cases hstake : tx.1.isCoinStake <;> simp [hbase, hstake] <;> linarith

theorem stakeGain_nonpos (h : ∀ tx ∈ txs, tx.1.isCoinStake → tx.1.valueOut ≤ tx.2) :
    stakeGain txs ≤ 0 := by
  induction txs with
  | nil => exact le_refl 0
  | cons tx txs ih =>
    have htail := ih fun tx' htx' ↦ h tx' (.tail _ htx')
    unfold stakeGain at htail ⊢
    cases hstake : tx.1.isCoinStake with
    | false => simpa [hstake] using htail
    | true =>
      have hle := h tx List.mem_cons_self hstake
      simp only [List.filter_cons, hstake, if_true, List.map_cons, List.sum_cons]
      linarith

theorem stakeGain_eq_zero (h : ∀ tx ∈ txs, tx.1.isCoinStake = false) : stakeGain txs = 0 := by
  have hfilter : txs.filter (fun tx ↦ tx.1.isCoinStake) = [] := by
    rw [List.filter_eq_nil_iff]
    intro tx htx
    simp [h tx htx]
  simp [stakeGain, hfilter]

theorem lastStakeReward_cons {first : CTransaction × ℤ} {second : CTransaction × ℤ}
    (hsecond : second.1.isCoinStake) (h : ∀ tx ∈ txs, tx.1.isCoinStake = false) :
    lastStakeReward (first :: second :: txs) = second.1.valueOut - second.2 := by
  have hrest : ∀ nStakeReward : ℤ, txs.foldl (fun nStakeReward tx ↦
      if tx.1.isCoinStake then tx.1.valueOut - tx.2 else nStakeReward) nStakeReward = nStakeReward := by
    induction txs with
    | nil => exact fun _ ↦ rfl
    | cons tx txs ih =>
      intro nStakeReward
      rw [List.foldl_cons, if_neg (by simp [h tx List.mem_cons_self])]
      exact ih (fun tx' htx' ↦ h tx' (.tail _ htx')) nStakeReward
  simp [lastStakeReward, hsecond, hrest]

theorem valueOut_of_empty {tx : CTransaction} (h : tx.vout.all CTxOut.isEmpty) : tx.valueOut = 0 := by
  apply List.sum_eq_zero
  intro x hx
  obtain ⟨txout, htxout, rfl⟩ := List.mem_map.mp hx
  have hempty := List.all_eq_true.mp h txout htxout
  simp only [CTxOut.isEmpty, Bool.and_eq_true, decide_eq_true_eq] at hempty
  exact hempty.1

section Blocks

variable {P : ChainParams} {env : Env} {st st' : NodeState} {block : CBlock} {pindex : PIndex}

theorem map_fst_blockValues (P : ChainParams) (env : Env) (st : NodeState) (block : CBlock)
    (pindex : PIndex) : (blockValues P env st block pindex).map Prod.fst = block.vtx := by
  rw [blockValues, map_fst_withValueIn, map_fst_located]

/-- A checked block starts with its coinbase, which spends nothing. -/
theorem blockValues_eq_cons (env : Env) (st : NodeState) (pindex : PIndex)
    (hchecked : block.Checked P) :
    ∃ tx rest, blockValues P env st block pindex = (tx, 0) :: rest ∧
      block.vtx = tx :: rest.map Prod.fst ∧ tx.isCoinBase ∧
      ∀ entry ∈ rest, entry.1.isCoinBase = false := by
  obtain ⟨tx, hhead, hbase⟩ := hchecked.head_isCoinBase
  have hvtx := map_fst_blockValues P env st block pindex
  cases hlocated : block.located pindex false with
  | nil =>
    rw [blockValues, hlocated, withValueIn, List.map_nil] at hvtx
    simp [← hvtx] at hhead
  | cons entry entries =>
    have hvalues : blockValues P env st block pindex =
        (entry.1, valueIn env.files st.mempool.mapTx.lookup st.txdb.readTxIndex entry.1) ::
          withValueIn P env.files st.mempool.mapTx.lookup
            (apply st.txdb.readTxIndex (spenderOf P entry)) entries := by
      rw [blockValues, hlocated, withValueIn]
    rw [hvalues, List.map_cons] at hvtx
    rw [← hvtx] at hhead
    obtain rfl : entry.1 = tx := Option.some.inj hhead
    rw [valueIn_of_isCoinBase hbase] at hvalues
    refine ⟨entry.1, _, hvalues, hvtx.symm, hbase, ?_⟩
    intro entry' hentry'
    refine hchecked.tail_not_coinBase _ ?_
    rw [← hvtx]
    exact List.mem_map_of_mem hentry'

variable {sums : ConnectSums}

theorem checkReward_proofOfWork {files : BlockFiles} {tx : CTransaction} {vtx : List CTransaction}
    (hwork : block.isProofOfStake = false) (hvtx : block.vtx = tx :: vtx)
    (h : checkReward P files st block sums = .ok ()) :
    tx.valueOut ≤ getProofOfWorkReward P st.pindexBest.nHeight sums.nFees := by
  simp only [checkReward, hwork, hvtx, Bool.false_eq_true, if_false, bind_eq_ok, require_eq_ok,
    rejectIf_eq_ok, List.head?_cons, Option.some.injEq, exists_eq_left'] at h
  obtain ⟨nValueOut, hout, hle⟩ := h
  rw [← CTransaction.getValueOut_eq_ok hout]
  exact not_lt.mp hle

theorem checkReward_proofOfStake {files : BlockFiles} (hstake : block.isProofOfStake)
    (h : checkReward P files st block sums = .ok ()) :
    ∃ tx nCoinAge, block.vtx[1]? = some tx ∧
      getCoinAge P files st.pindexBest.nHeight st.txdb tx = .ok nCoinAge ∧
      sums.nStakeReward ≤ getProofOfStakeReward P st.pindexBest.nHeight nCoinAge sums.nFees := by
  simp only [checkReward, hstake, if_true, bind_eq_ok, require_eq_ok, mapError_eq_ok,
    rejectIf_eq_ok] at h
  obtain ⟨tx, htx, nCoinAge, hage, hle⟩ := h
  exact ⟨tx, nCoinAge, htx, hage, not_lt.mp hle⟩

/-- What a checked block creates beyond its coinbase is the gain of its coinstakes less its fees. -/
theorem sumOut_sub_sumIn_blockValues {tx : CTransaction} {rest : List (CTransaction × ℤ)}
    (hvalues : blockValues P env st block pindex = (tx, 0) :: rest) (hbase : tx.isCoinBase)
    (hrest : ∀ entry ∈ rest, entry.1.isCoinBase = false) :
    sumOut (blockValues P env st block pindex) - sumIn (blockValues P env st block pindex) =
      tx.valueOut + stakeGain rest - sumFees (blockValues P env st block pindex) := by
  have hsums := sumOut_sub_sumIn hrest
  have hfees : sumFees (blockValues P env st block pindex) = sumFees rest := by
    simp [hvalues, sumFees, isOrdinary, hbase]
  rw [hfees, hvalues]
  simp only [sumOut, sumIn, List.map_cons, List.sum_cons] at hsums ⊢
  linarith

/-- The coinbase of a proof-of-stake block is empty, and its one coinstake is at index 1. -/
theorem checked_stake_shape (hchecked : block.Checked P) {tx : CTransaction}
    {rest : List (CTransaction × ℤ)} (hstake : block.isProofOfStake)
    (hvtx : block.vtx = tx :: rest.map Prod.fst) :
    tx.valueOut = 0 ∧ ∃ second others, rest = second :: others ∧ second.1.isCoinStake ∧
      ∀ entry ∈ others, entry.1.isCoinStake = false := by
  refine ⟨valueOut_of_empty (hchecked.coinbase_empty hstake tx (by rw [hvtx]; rfl)).2, ?_⟩
  have hothers := hchecked.one_coinStake hstake
  rw [hvtx] at hothers
  unfold CBlock.isProofOfStake at hstake
  rw [hvtx] at hstake
  cases rest with
  | nil => cases hstake
  | cons second others =>
    exact ⟨second, others, rfl, hstake, fun entry hentry ↦ hothers _ (List.mem_map_of_mem hentry)⟩

/-- The reward of a proof-of-stake block covers its coinstake. -/
theorem total_proofOfStake (hchecked : block.Checked P)
    (hsums : SumsOf (blockValues P env st block pindex) sums) (hfees : 0 ≤ sums.nFees)
    (hstake : block.isProofOfStake) (h : checkReward P env.files st block sums = .ok ()) :
    ∃ nReward, permittedReward P env st block = .ok nReward ∧
      sumOut (blockValues P env st block pindex) - sumIn (blockValues P env st block pindex) ≤
        nReward := by
  obtain ⟨tx, rest, hvalues, hvtx, hbase, hrest⟩ :=
    blockValues_eq_cons env st pindex hchecked
  obtain ⟨hempty, second, others, rfl, hsecond, hothers⟩ := checked_stake_shape hchecked hstake hvtx
  obtain ⟨stake, nCoinAge, hindex, hage, hle⟩ := checkReward_proofOfStake hstake h
  have hgain : stakeGain (second :: others) = sums.nStakeReward := by
    rw [hsums.nStakeReward, hvalues, lastStakeReward_cons hsecond hothers]
    have hrestGain := stakeGain_eq_zero hothers
    unfold stakeGain at hrestGain ⊢
    rw [List.filter_cons, if_pos hsecond, List.map_cons, List.sum_cons, hrestGain, add_zero]
  refine ⟨getProofOfStakeReward P st.pindexBest.nHeight nCoinAge 0, ?_, ?_⟩
  · simp [permittedReward, hstake, hindex, hage, require, bind, Except.bind, pure, Except.pure]
  · rw [sumOut_sub_sumIn_blockValues hvalues hbase hrest, hempty, hgain, ← hsums.nFees]
    have hreward := getProofOfStakeReward_le P st.pindexBest.nHeight nCoinAge hfees
    linarith

/-- The reward of a proof-of-work block covers its coinbase. -/
theorem total_proofOfWork (hchecked : block.Checked P)
    (hsums : SumsOf (blockValues P env st block pindex) sums) (hwork : block.isProofOfStake = false)
    (hlate : NoLateMint P env st block pindex) (h : checkReward P env.files st block sums = .ok ()) :
    ∃ nReward, permittedReward P env st block = .ok nReward ∧
      sumOut (blockValues P env st block pindex) - sumIn (blockValues P env st block pindex) ≤
        nReward := by
  obtain ⟨tx, rest, hvalues, hvtx, hbase, hrest⟩ :=
    blockValues_eq_cons env st pindex hchecked
  have hle := checkReward_proofOfWork hwork hvtx h
  have hgain : stakeGain rest ≤ 0 := by
    apply stakeGain_nonpos
    intro entry hentry hstake
    obtain ⟨i, hi⟩ := List.mem_iff_getElem?.mp hentry
    cases i with
    | zero =>
      -- a coinstake at index 1 would make it a proof-of-stake block
      cases rest with
      | nil => cases hi
      | cons second others =>
        obtain rfl := Option.some.inj hi
        simp [CBlock.isProofOfStake, hvtx, hstake] at hwork
    | succ i =>
      refine hlate (i + 2) entry ?_ (by omega) hstake
      rw [hvalues]
      exact hi
  refine ⟨getProofOfWorkReward P st.pindexBest.nHeight 0, ?_, ?_⟩
  · simp [permittedReward, hwork, pure, Except.pure]
  · rw [sumOut_sub_sumIn_blockValues hvalues hbase hrest, ← hsums.nFees]
    rw [getProofOfWorkReward_eq] at hle
    linarith

/-- A connected block mints within its bound just when no coinstake behind index 1 mints. -/
theorem mintBounded_iff_noLateMint (h : connectBlock P env st block pindex false = .ok st') :
    MintBounded P env st block pindex ↔ NoLateMint P env st block pindex := by
  obtain ⟨sums, hconnects⟩ := connectBlock_eq_ok h
  have hsums : SumsOf (blockValues P env st block pindex) sums := hconnects.all.sums
  constructor
  · intro hbounded i tx htx hi _
    exact hbounded.others i tx htx (by omega) (by omega)
  · intro hlate
    refine ⟨?_, ?_⟩
    · cases hkind : block.isProofOfStake with
      | true =>
        have hfees : 0 ≤ sums.nFees := by
          rw [hsums.nFees]
          exact sumFees_nonneg hconnects.all.valueOut_le
        exact total_proofOfStake hconnects.checked hsums hfees hkind hconnects.reward
      | false => exact total_proofOfWork hconnects.checked hsums hkind hlate hconnects.reward
    · intro i tx htx hi hsecond
      obtain ⟨first, rest, hvalues, -, -, hrest⟩ :=
        blockValues_eq_cons env st pindex hconnects.checked
      cases hstake : tx.1.isCoinStake with
      | true =>
        have hone : i ≠ 1 := fun heq ↦ hsecond ⟨heq, hstake⟩
        exact hlate i tx htx (by omega) hstake
      | false =>
        refine hconnects.all.valueOut_le tx (List.mem_of_getElem? htx) ?_
        have hmem : tx ∈ rest := by
          rw [hvalues] at htx
          cases i with
          | zero => exact absurd rfl hi
          | succ i => exact List.mem_of_getElem? htx
        simp [isOrdinary, hrest tx hmem, hstake]

end Blocks

namespace MintExample

open Builders

def testNet : ChainParams := network true

/-- Transaction 100 splits the large subsidy and pays a fee of one coin. -/
def split : CTransaction :=
  spending 100 3900 [⟨3, 0⟩] [output (1000000000 * COIN), output (18 * COIN)]

/-- The proof-of-work block at height 12 with some transactions behind its coinbase. -/
def blockWith (vtx : List CTransaction) : CBlock :=
  blockOf testNet 12 11 3900 (easiestBits testNet) (coinbase 13 3900 12 [output (1000 * COIN)] :: vtx)

def honest : CBlock := blockWith [split]

/-- Transaction 101 makes twenty coins out of eighteen. -/
def minting : CBlock := blockWith [split, coinstake 101 3900 [⟨100, 1⟩] (20 * COIN)]

def envWith (block : CBlock) : Env :=
  surroundings (filesOf (quietFiles testNet 12 ++ [(13, 8, block)])) 4000

def node : NodeState := nodeAt (quietIndex testNet 12) (txdbOf (quietRecords 12))

def pindex (block : CBlock) : PIndex := Builders.indexOf testNet block 13 8 :: quietIndex testNet 12

end MintExample

open MintExample in
theorem mintBounded_honest :
    ∃ st', connectBlock testNet (envWith honest) node honest (pindex honest) false = .ok st' ∧
      (MintBounded testNet (envWith honest) node honest (pindex honest) ↔
        NoLateMint testNet (envWith honest) node honest (pindex honest)) := by
  obtain ⟨st', h⟩ := exists_eq_ok (show
    (connectBlock testNet (envWith honest) node honest (pindex honest) false).isOk = true by decide)
  exact ⟨st', h, mintBounded_iff_noLateMint h⟩

open MintExample in
theorem not_mintBounded_minting :
    checkBlock testNet 4000 minting true true true = .ok () ∧
      (connectBlock testNet (envWith minting) node minting (pindex minting) false).isOk ∧
      ¬ MintBounded testNet (envWith minting) node minting (pindex minting) := by
  refine ⟨by decide, by decide, ?_⟩
  intro hbounded
  have hsum : permittedReward testNet (envWith minting) node minting = .ok (1000 * COIN) := by decide
  obtain ⟨nReward, hreward, hle⟩ := hbounded.total
  obtain rfl := Except.ok.inj (hsum.symm.trans hreward)
  exact absurd hle (by decide)

end Electra.Ledger
