import Electra.Node.KernelVerdict
import Electra.Node.StakeSigning
import Electra.Script.StandardScripts

/-!
# Own stakes

What `CreateCoinStake` builds meets the rules for a coinstake: the kernel check passes at its final time,
it takes just the reward of its coin age, and its first paid output names the key that signs the block.
-/

namespace Electra.Chain

open Foundations.Outcome

/-- `Solver` as the wallet uses it. -/
def solveStake (scriptPubKey : CScript) : Option (TxnOutType × List UInt8) :=
  let (fSolved, whichType, vSolutions) := Script.solver scriptPubKey .nonstandard []
  if !fSolved then none
  else some (match whichType with
    | .pubkey => .pubKey
    | .pubkeyhash => .pubKeyHash
    | _ => .other, vSolutions.headD [])

/-- `CheckStakeKernelHash` as a verdict. -/
def passesKernelHash (H : KernelHashes) (P : ChainParams) (kernelEnv : KernelEnv) (st : NodeState)
    (nBits : ℕ) (blockFrom : CBlockHeader) (nTxPrevOffset : ℕ) (txPrev : CTransaction)
    (prevout : COutPoint) (nTimeTx : ℕ) : Bool :=
  (checkStakeKernelHash H P kernelEnv st nBits blockFrom nTxPrevOffset txPrev prevout nTimeTx false).toBool

/-- The search of a wallet that solves scripts and checks kernels with these functions. -/
def StakeEnv.resolved (env : StakeEnv) (H : KernelHashes) (P : ChainParams) (kernelEnv : KernelEnv)
    (st : NodeState) : StakeEnv :=
  { env with
    wallet := { env.wallet with solver := solveStake }
    checkStakeKernelHash := passesKernelHash H P kernelEnv st }

/-- `CBlock::CheckBlockSignature`, given which public keys are valid and how a signature is verified. -/
def checkBlockSignatureBy (P : ChainParams) (setPubKey : List UInt8 → Bool)
    (verify : List UInt8 → Uint256 → List UInt8 → Bool) (block : CBlock) : Bool :=
  if block.isProofOfWork then block.vchBlockSig.isEmpty
  else
    match block.vtx[1]?.bind fun tx ↦ tx.vout[1]? with
    | none => false
    | some txout =>
        match Script.solver txout.scriptPubKey .nonstandard [] with
        | (true, .pubkey, vchPubKey :: _) =>
            setPubKey vchPubKey && !block.vchBlockSig.isEmpty &&
              verify vchPubKey (block.getHash P) block.vchBlockSig
        | _ => false

end Electra.Chain

namespace Electra.Node

open Chain Ledger Foundations.Outcome

variable {H : KernelHashes} {P : ChainParams} {kernelEnv : KernelEnv} {env : StakeEnv} {st : NodeState}
  {nBits : ℕ} {nSearchInterval nFees : ℤ} {tx txNew : CTransaction} {key : CKey} {kernel : StakeKernel}
  {setCoins : List StakeCoin}

/-- A public key of 33 or 65 bytes, as a serialized point has. -/
def IsPointSize (vchPubKey : List UInt8) : Prop := vchPubKey.length = 33 ∨ vchPubKey.length = 65

theorem solver_payToPubKey {vchPubKey : List UInt8} (h : IsPointSize vchPubKey) :
    Script.solver (pushBytes [] vchPubKey ++ [0xac]) .nonstandard [] = (true, .pubkey, [vchPubKey]) := by
  have hsize : vchPubKey.length < 0x4c := by
    obtain h | h := h <;> omega
  have hscript : pushBytes [] vchPubKey ++ [0xac] =
      UInt8.ofNat vchPubKey.length :: (vchPubKey ++ [0xac]) := by
    rw [pushBytes, if_pos hsize]
    rfl
  have hsmall : (UInt8.ofNat vchPubKey.length).toNat = vchPubKey.length := by
    rw [UInt8.toNat_ofNat']
    omega
  have hopcode : UInt8.ofNat vchPubKey.length < Script.OP_PUSHDATA1 := by
    rw [UInt8.lt_iff_toNat_lt, hsmall]
    exact hsize
  have hmatch : Script.matchFrom [Script.OP_PUBKEY, Script.OP_CHECKSIG]
      (UInt8.ofNat vchPubKey.length :: (vchPubKey ++ [0xac])) [] = some [vchPubKey] := by
    rw [Script.matchFrom_pubkey_template_iff]
    refine ⟨⟨UInt8.ofNat vchPubKey.length, vchPubKey⟩, ?_, ?_, rfl⟩
    · apply Script.ReadsTo.cons (Script.getOp_direct hopcode hsmall.symm ?_)
      · exact .cons (Script.getOp_of_pushdata_lt (by decide)) .nil
      · rw [List.length_append, List.length_singleton]
        omega
    · show 33 ≤ vchPubKey.length ∧ vchPubKey.length ≤ 120
      obtain h | h := h <;> omega
  have hlong : (UInt8.ofNat vchPubKey.length :: (vchPubKey ++ [0xac])).length ≠ 23 := by
    rw [List.length_cons, List.length_append, List.length_singleton]
    obtain h | h := h <;> omega
  rw [hscript, Script.solver, if_neg, Script.mTemplates, Script.scanTemplates, hmatch]
  · rfl
  · simp only [isPayToScriptHash, Bool.and_eq_true, beq_iff_eq]
    tauto

/-- Signing changes nothing but signatures. -/
structure SameButSignatures (tx tx' : CTransaction) : Prop where
  prevouts : tx'.vin.map CTxIn.prevout = tx.vin.map CTxIn.prevout
  vout : tx'.vout = tx.vout
  nTime : tx'.nTime = tx.nTime

theorem sameButSignatures_sign {inputs : List (StakeCoin × ℕ)}
    (h : inputs.foldlM (signStakeInput env) tx = some txNew) : SameButSignatures tx txNew := by
  induction inputs generalizing tx with
  | nil =>
    obtain rfl := Option.some.inj h
    exact ⟨rfl, rfl, rfl⟩
  | cons input inputs ih =>
    rw [List.foldlM_cons, Option.bind_eq_bind, Option.bind_eq_some_iff] at h
    obtain ⟨tx₁, hone, hrest⟩ := h
    obtain ⟨scriptSig, -, rfl⟩ := Option.map_eq_some_iff.mp hone
    obtain ⟨hprevouts, hvout, hnTime⟩ := ih hrest
    exact ⟨hprevouts.trans (map_prevout_modify _ _ _), hvout, hnTime⟩

theorem isCoinBase_congr (hprevouts : tx.vin.map CTxIn.prevout = txNew.vin.map CTxIn.prevout)
    (hvout : tx.vout.length = txNew.vout.length) : tx.isCoinBase = txNew.isCoinBase := by
  unfold CTransaction.isCoinBase
  rw [hvout]
  match hvin : tx.vin, hvin' : txNew.vin with
  | [], [] => rfl
  | [], _ :: _ => simp [hvin, hvin'] at hprevouts
  | _ :: _, [] => simp [hvin, hvin'] at hprevouts
  | [txin], [txin'] =>
    simp only [hvin, hvin', List.map_cons, List.map_nil, List.cons.injEq, and_true] at hprevouts
    simp only [hprevouts]
  | [_], _ :: _ :: _ => simp [hvin, hvin'] at hprevouts
  | _ :: _ :: _, [_] => simp [hvin, hvin'] at hprevouts
  | _ :: _ :: _, _ :: _ :: _ => rfl

/-- The coin age depends on the inputs and the time. -/
theorem getCoinAge_congr {files : BlockFiles} {nBestHeight : ℤ} {txdb : CTxDB}
    (hprevouts : tx.vin.map CTxIn.prevout = txNew.vin.map CTxIn.prevout)
    (hvout : tx.vout.length = txNew.vout.length) (hnTime : tx.nTime = txNew.nTime) :
    getCoinAge P files nBestHeight txdb tx = getCoinAge P files nBestHeight txdb txNew := by
  have hstep : addCoinAge P files nBestHeight txdb tx = addCoinAge P files nBestHeight txdb txNew := by
    funext bnCentSecond prevout
    simp only [addCoinAge, hnTime]
  simp only [getCoinAge, isCoinBase_congr hprevouts hvout, hprevouts, hstep]

/-- The kernel is the first input, and the credit is the value of all of them. -/
structure Collected (kernel : StakeKernel) (inputs : StakeInputs) : Prop where
  first : ∃ more, inputs.vwtxPrev = kernel.coin :: more
  credit : (inputs.vwtxPrev.map fun coin ↦ coin.txout.nValue).sum = inputs.nCredit

theorem Collected.addStakeInput {inputs : StakeInputs} (h : Collected kernel inputs)
    (coin : StakeCoin) : Collected kernel (addStakeInput P env st kernel inputs coin) := by
  unfold Chain.addStakeInput
  simp only
  split_ifs
  · exact h
  · exact ⟨h.first, h.credit⟩
  · exact h
  · obtain ⟨more, hmore⟩ := h.first
    refine ⟨⟨more ++ [coin], by rw [hmore, List.cons_append]⟩, ?_⟩
    rw [List.map_append, List.sum_append, h.credit]
    simp
  · exact h

theorem collected_stakeInputs : Collected kernel (stakeInputs P env st kernel setCoins) := by
  have hstart : Collected kernel ⟨[kernel.coin], kernel.coin.txout.nValue, false⟩ :=
    ⟨⟨[], rfl⟩, by simp⟩
  unfold stakeInputs
  simp only
  split
  · exact hstart
  · generalize (⟨[kernel.coin], kernel.coin.txout.nValue, false⟩ : StakeInputs) = inputs at hstart
    induction setCoins generalizing inputs with
    | nil => exact hstart
    | cons coin setCoins ih => exact ih _ (hstart.addStakeInput coin)

theorem stakeOutputs_eq (scriptPubKeyOut : CScript) (fSplit : Bool) (nCredit : ℤ) :
    ∃ txout rest, stakeOutputs scriptPubKeyOut fSplit nCredit = ⟨0, []⟩ :: txout :: rest ∧
      txout.scriptPubKey = scriptPubKeyOut ∧
      ((stakeOutputs scriptPubKeyOut fSplit nCredit).map CTxOut.nValue).sum = nCredit := by
  unfold stakeOutputs
  cases fSplit with
  | true =>
    refine ⟨_, _, rfl, rfl, ?_⟩
    simp
  | false =>
    refine ⟨_, _, rfl, rfl, ?_⟩
    simp

theorem length_stakeOutputs (scriptPubKeyOut : CScript) (fSplit : Bool) (nCredit nCredit' : ℤ) :
    (stakeOutputs scriptPubKeyOut fSplit nCredit).length =
      (stakeOutputs scriptPubKeyOut fSplit nCredit').length := by
  cases fSplit <;> rfl

/-- The first input passes the kernel check at the time of the coinstake. -/
def KernelPasses (H : KernelHashes) (P : ChainParams) (kernelEnv : KernelEnv) (env : StakeEnv)
    (st : NodeState) (nBits : ℕ) (tx : CTransaction) : Prop :=
  ∃ txin txPrev txindex header hashes, tx.vin.head? = some txin ∧ P.hashTx txPrev = txin.prevout.hash ∧
    st.txdb.readTxIndex txin.prevout.hash = some txindex ∧
    env.files.readHeader txindex.pos.nFile txindex.pos.nBlockPos = some header ∧
    checkStakeKernelHash H P kernelEnv st nBits header (txindex.pos.nTxPos - txindex.pos.nBlockPos) txPrev
      txin.prevout tx.nTime false = .ok hashes

/-- The outputs are worth no more than the inputs and the reward for the coin age of all inputs, wherever
the previous transactions are those of the wallet. -/
def PaysAllowed (P : ChainParams) (env : StakeEnv) (st : NodeState) (nFees : ℤ) (tx : CTransaction) : Prop :=
  ∃ coins : List StakeCoin, tx.vin.map CTxIn.prevout = coins.map (StakeCoin.prevout P) ∧
    ∃ nCoinAge, getCoinAge P env.files st.pindexBest.nHeight st.txdb tx = .ok nCoinAge ∧
      ∀ mapInputs nTxValueIn, (∀ coin ∈ coins, ∃ txindex,
          mapInputs (P.hashTx coin.wtx.toCTransaction) = some (txindex, coin.wtx.toCTransaction)) →
        getValueIn mapInputs tx = .ok nTxValueIn →
        (tx.vout.map CTxOut.nValue).sum - nTxValueIn ≤
          getProofOfStakeReward P st.pindexBest.nHeight nCoinAge nFees

/-- The signature of a block with this coinstake is checked against the public key. -/
def SignedUnder (P : ChainParams) (vchPubKey : List UInt8) (tx : CTransaction) : Prop :=
  ∀ setPubKey verify block, block.vtx[1]? = some tx →
    checkBlockSignatureBy P setPubKey verify block =
      (setPubKey vchPubKey && !block.vchBlockSig.isEmpty &&
        verify vchPubKey (block.getHash P) block.vchBlockSig)

theorem valueOf_prevout {mapInputs : MapPrevTx} {coin : StakeCoin} {txindex : CTxIndex}
    (h : mapInputs (P.hashTx coin.wtx.toCTransaction) = some (txindex, coin.wtx.toCTransaction)) :
    valueOf mapInputs (coin.prevout P) = coin.txout.nValue := by
  have hout : coin.wtx.vout[coin.n]? = some coin.txout := List.getElem?_eq_getElem coin.inRange
  simp [valueOf, StakeCoin.prevout, h, hout]

/-- The kernel that the search finds, and the script and key that go with it. -/
theorem searchKernel_spec {coin : StakeCoin}
    (h : searchKernel P (env.resolved H P kernelEnv st) st nBits nSearchInterval coin = some kernel) :
    kernel.coin = coin ∧ stakeKey (env.resolved H P kernelEnv st).wallet coin.txout.scriptPubKey =
        some (kernel.scriptPubKeyOut, kernel.key) ∧
      ∃ txindex header, st.txdb.readTxIndex (P.hashTx coin.wtx.toCTransaction) = some txindex ∧
        env.files.readHeader txindex.pos.nFile txindex.pos.nBlockPos = some header ∧
        passesKernelHash H P kernelEnv st nBits header (txindex.pos.nTxPos - txindex.pos.nBlockPos)
          coin.wtx.toCTransaction (coin.prevout P) kernel.nTime = true := by
  simp only [searchKernel, Option.bind_eq_bind, Option.bind_eq_some_iff, Option.ite_none_left_eq_some,
    pure, Option.some.injEq] at h
  obtain ⟨txindex, htxindex, header, hheader, -, n, hn, signing, hsigning, rfl⟩ := h
  have hpasses := List.find?_some hn
  exact ⟨rfl, hsigning, txindex, header, htxindex, hheader, hpasses⟩

/-- A stake is paid to the public key that signs for it. -/
theorem solver_of_stakeKey {script scriptPubKeyOut : CScript}
    (hkeys : ∀ key, IsPointSize (env.wallet.getPubKey key))
    (h : stakeKey (env.resolved H P kernelEnv st).wallet script = some (scriptPubKeyOut, key)) :
    ∃ more, Script.solver scriptPubKeyOut .nonstandard [] =
      (true, .pubkey, env.wallet.getPubKey key :: more) := by
  have hsolve : (env.resolved H P kernelEnv st).wallet.solver = solveStake := rfl
  rw [stakeKey, hsolve] at h
  cases hsolved : Script.solver script .nonstandard [] with
  | mk fSolved result =>
    obtain ⟨whichType, vSolutions⟩ := result
    simp only [solveStake, hsolved] at h
    cases fSolved with
    | false => simp at h
    | true =>
      cases whichType with
      | pubkeyhash =>
        obtain ⟨key', hkey', heq⟩ := Option.map_eq_some_iff.mp h
        obtain ⟨rfl, rfl⟩ := Prod.mk.inj heq
        exact ⟨[], solver_payToPubKey (hkeys key')⟩
      | pubkey =>
        simp only [Bool.not_true, Bool.false_eq_true, if_false] at h
        split at h
        · next found _ =>
          split at h
          · next hsame =>
            obtain ⟨rfl, rfl⟩ := Prod.mk.inj (Option.some.inj h)
            cases vSolutions with
            | nil =>
              have hpoint := hkeys found
              rw [show env.wallet.getPubKey found = [] from hsame] at hpoint
              obtain hpoint | hpoint := hpoint <;> cases hpoint
            | cons vchPubKey more =>
              rw [show env.wallet.getPubKey found = vchPubKey from hsame]
              exact ⟨more, hsolved⟩
          · cases h
        · cases h
      | nonstandard => simp at h
      | scripthash => simp at h
      | multisig => simp at h

theorem ok_of_toOption {ε α : Type} {x : Except ε α} {a : α} (h : x.toOption = some a) : x = .ok a := by
  cases x with
  | error e => cases h
  | ok a' => rw [Option.some.inj h]

/-- What a coinstake is made of. -/
theorem createCoinStake_spec
    (h : createCoinStake P env st nBits nSearchInterval nFees = some (tx, key)) :
    ∃ kernel inputs nCoinAge setCoins coin, coin ∈ setCoins ∧
      env.wallet.selectCoinsSimple (env.wallet.nBalance - env.nReserveBalance) env.nSearchTime
        (nCoinbaseMaturity + 10) = some setCoins ∧
      searchKernel P env st nBits nSearchInterval coin = some kernel ∧ kernel.key = key ∧
      Collected kernel inputs ∧ tx.nTime = kernel.nTime ∧
      tx.vin.map CTxIn.prevout = inputs.vwtxPrev.map (StakeCoin.prevout P) ∧
      getCoinAge P env.files st.pindexBest.nHeight st.txdb tx = .ok nCoinAge ∧
      tx.vout = stakeOutputs kernel.scriptPubKeyOut (splitStake P st kernel)
        (inputs.nCredit + getProofOfStakeReward P st.pindexBest.nHeight nCoinAge nFees) := by
  simp only [createCoinStake, Option.bind_eq_bind, Option.bind_eq_some_iff,
    Option.ite_none_left_eq_some] at h
  obtain ⟨-, setCoins, hselect, kernel, hkernel, -, nCoinAge, hage, -, txNew, hsign, -, heq⟩ := h
  obtain ⟨coin, hcoin, hsearch⟩ := List.exists_of_findSome?_eq_some hkernel
  obtain ⟨rfl, rfl⟩ := Prod.mk.inj (Option.some.inj heq)
  obtain ⟨hprevouts, hvout, hnTime⟩ := sameButSignatures_sign hsign
  refine ⟨kernel, stakeInputs P env st kernel setCoins, nCoinAge, setCoins, coin, hcoin, hselect, hsearch, rfl,
    collected_stakeInputs, hnTime, ?_, ?_, hvout⟩
  · rw [hprevouts, List.map_map]
    rfl
  · rw [← ok_of_toOption hage]
    refine getCoinAge_congr hprevouts ?_ hnTime
    rw [hvout]
    exact length_stakeOutputs _ _ _ _

theorem isNull_prevout {coin : StakeCoin} (h : coin.wtx.vout.length ≤ uintMax) :
    isNull (coin.prevout P) = false := by
  have hn : coin.n ≠ uintMax := Nat.ne_of_lt (coin.inRange.trans_le h)
  rw [isNull, Bool.and_eq_false_iff]
  exact .inr (decide_eq_false hn)

theorem isCoinStake_of_outputs {txout : CTxOut} {rest : List CTxOut} {prevout : COutPoint}
    {more : List COutPoint} (hprevouts : tx.vin.map CTxIn.prevout = prevout :: more)
    (hnull : isNull prevout = false) (hvout : tx.vout = ⟨0, []⟩ :: txout :: rest) :
    tx.isCoinStake = true := by
  cases hvin : tx.vin with
  | nil => simp [hvin] at hprevouts
  | cons txin vin =>
    rw [hvin, List.map_cons, List.cons.injEq] at hprevouts
    simp only [CTransaction.isCoinStake, hvin, hvout, hprevouts.1, hnull]
    rfl

theorem signedUnder_of_solver {vchPubKey : List UInt8} {txout : CTxOut} {more : List (List UInt8)}
    (hstake : tx.isCoinStake = true) (hvout : tx.vout[1]? = some txout)
    (hsolver : Script.solver txout.scriptPubKey .nonstandard [] = (true, .pubkey, vchPubKey :: more)) :
    SignedUnder P vchPubKey tx := by
  intro setPubKey verify block hblock
  have hkind : block.isProofOfWork = false := by
    match hvtx : block.vtx with
    | [] => simp [hvtx] at hblock
    | [_] => simp [hvtx] at hblock
    | _ :: tx' :: _ =>
      simp only [hvtx, List.getElem?_cons_succ, List.getElem?_cons_zero, Option.some.injEq] at hblock
      simp [CBlock.isProofOfWork, CBlock.isProofOfStake, hvtx, hblock, hstake]
  simp [checkBlockSignatureBy, hkind, hblock, hvout, hsolver]

/-- What `CreateCoinStake` returns on an unchanged tip is a coinstake whose kernel passes the check at its
final time, which pays no more than `ConnectBlock` allows, and whose second output is to the public key
of the key that is returned. -/
theorem createCoinStake_valid (hkeys : ∀ key, IsPointSize (env.wallet.getPubKey key))
    (hsize : ∀ nTargetValue nSpendTime nMinConf setCoins,
      env.wallet.selectCoinsSimple nTargetValue nSpendTime nMinConf = some setCoins →
        ∀ coin ∈ setCoins, coin.wtx.vout.length ≤ uintMax)
    (h : createCoinStake P (env.resolved H P kernelEnv st) st nBits nSearchInterval nFees = some (tx, key)) :
    tx.isCoinStake = true ∧ KernelPasses H P kernelEnv env st nBits tx ∧ PaysAllowed P env st nFees tx ∧
      (∃ txout more, tx.vout[1]? = some txout ∧ Script.solver txout.scriptPubKey .nonstandard [] =
        (true, .pubkey, env.wallet.getPubKey key :: more)) ∧
      SignedUnder P (env.wallet.getPubKey key) tx := by
  obtain ⟨kernel, inputs, nCoinAge, setCoins, coin, hcoin, hselect, hsearch, hkey, hcollected, hnTime,
    hprevouts, hage, hvout⟩ := createCoinStake_spec h
  obtain ⟨hfirst, hstakeKey, txindex, header, htxindex, hheader, hpasses⟩ := searchKernel_spec hsearch
  obtain ⟨⟨moreCoins, hinputs⟩, hcredit⟩ := hcollected
  obtain ⟨txout, rest, houtputs, hscript, hsum⟩ := stakeOutputs_eq kernel.scriptPubKeyOut
    (splitStake P st kernel) (inputs.nCredit + getProofOfStakeReward P st.pindexBest.nHeight nCoinAge nFees)
  rw [← hvout] at houtputs hsum
  have hvin : tx.vin.map CTxIn.prevout = coin.prevout P :: moreCoins.map (StakeCoin.prevout P) := by
    rw [hprevouts, hinputs, hfirst, List.map_cons]
  have hstake : tx.isCoinStake = true :=
    isCoinStake_of_outputs hvin (isNull_prevout (hsize _ _ _ _ hselect coin hcoin)) houtputs
  have hvout1 : tx.vout[1]? = some txout := by rw [houtputs]; rfl
  obtain ⟨more, hsolver⟩ := solver_of_stakeKey hkeys hstakeKey
  rw [← hscript, hkey] at hsolver
  refine ⟨hstake, ?_, ?_, ⟨txout, more, hvout1, hsolver⟩, signedUnder_of_solver hstake hvout1 hsolver⟩
  · cases hlist : tx.vin with
    | nil => simp [hlist] at hvin
    | cons txin vin =>
      rw [hlist, List.map_cons, List.cons.injEq] at hvin
      cases hhashes : checkStakeKernelHash H P kernelEnv st nBits header
          (txindex.pos.nTxPos - txindex.pos.nBlockPos) coin.wtx.toCTransaction (coin.prevout P) kernel.nTime
          false with
      | error reject =>
        rw [passesKernelHash, hhashes] at hpasses
        cases hpasses
      | ok hashes =>
        refine ⟨txin, coin.wtx.toCTransaction, txindex, header, hashes, by rw [hlist]; rfl, ?_, ?_, hheader, ?_⟩
        · rw [hvin.1]
          rfl
        · rw [hvin.1]
          exact htxindex
        · rw [hvin.1, hnTime]
          exact hhashes
  · refine ⟨inputs.vwtxPrev, hprevouts, nCoinAge, hage, fun mapInputs nTxValueIn hmap hvalue ↦ ?_⟩
    have hbase : tx.isCoinBase = false := by
      rw [Bool.eq_false_iff]
      intro hbase
      rw [CTransaction.isCoinStake_of_isCoinBase hbase] at hstake
      cases hstake
    have hin : nTxValueIn = inputs.nCredit := by
      calc nTxValueIn = (tx.spends.map (valueOf mapInputs)).sum := getValueIn_eq_ok hvalue
        _ = (inputs.vwtxPrev.map fun coin ↦ valueOf mapInputs (coin.prevout P)).sum := by
          rw [CTransaction.spends, hbase, if_neg Bool.false_ne_true, hprevouts, List.map_map]
          rfl
        _ = (inputs.vwtxPrev.map fun coin ↦ coin.txout.nValue).sum := by
          congr 1
          apply List.map_congr_left
          intro coin hcoin
          obtain ⟨txindex, htx⟩ := hmap coin hcoin
          exact valueOf_prevout htx
        _ = inputs.nCredit := hcredit
    rw [hsum, hin, add_sub_cancel_left]

namespace OwnStakeExample

open Builders VerdictExample

def vchPubKey : List UInt8 := List.replicate 33 2

def stakedTx : CTransaction := coinbase 11 600 1 [⟨1000 * COIN, pushBytes [] vchPubKey ++ [0xac]⟩]

def stakedBlock : CBlock := blockOf testNet 11 testNet.genesisHash 600 (easiestBits testNet) [stakedTx]

def files : BlockFiles := filesOf [(1, 8, genesis), (2, 8, stakedBlock), (3, 8, modifierBlock12)]

def tip : PIndex := [entry modifierBlock12 3 5, entry stakedBlock 2 0, entry genesis 1 0]

def node : NodeState := { nodeAt tip (txdbOf [(11, ⟨⟨2, 8, 89⟩, [none]⟩)]) with pnext := linksTo tip }

def coin : StakeCoin where
  wtx := {
    toCTransaction := stakedTx
    hashBlock := 11
    vMerkleBranch := []
    nIndex := 0
    fFromMe := false
    vfSpent := [] }
  n := 0
  inRange := by decide

def stakeEnv : StakeEnv where
  files
  wallet := {
    nBalance := 1000 * COIN
    selectCoinsSimple := fun _ _ _ ↦ some [coin]
    solver := fun _ ↦ none
    hash160 := id
    getKey := fun vchSecret ↦ some ⟨vchSecret⟩
    getPubKey := fun _ ↦ vchPubKey
    signSignature := fun _ _ _ ↦ some [0]
    sign := fun _ _ ↦ some [0] }
  nReserveBalance := 0
  nSearchTime := 50000
  checkStakeKernelHash _ _ _ _ _ _ := false

def search : Option (CTransaction × CKey) :=
  createCoinStake testNet (stakeEnv.resolved hashes testNet ⟨files, 50000, false⟩ node) node
    (easiestBits testNet) 60 0

end OwnStakeExample

open OwnStakeExample in
theorem createCoinStake_valid_example :
    ∃ tx key, search = some (tx, key) ∧ tx.isCoinStake = true ∧
      KernelPasses VerdictExample.hashes VerdictExample.testNet ⟨files, 50000, false⟩ stakeEnv node
        (Builders.easiestBits VerdictExample.testNet) tx ∧
      PaysAllowed VerdictExample.testNet stakeEnv node 0 tx ∧
      SignedUnder VerdictExample.testNet vchPubKey tx := by
  have hfound : search.isSome = true := by decide
  obtain ⟨⟨tx, key⟩, hsearch⟩ := Option.isSome_iff_exists.mp hfound
  have hsize : ∀ nTargetValue nSpendTime nMinConf setCoins,
      stakeEnv.wallet.selectCoinsSimple nTargetValue nSpendTime nMinConf = some setCoins →
        ∀ coin ∈ setCoins, coin.wtx.vout.length ≤ uintMax := by
    intro _ _ _ setCoins hselect coin' hcoin
    obtain rfl := Option.some.inj hselect
    rw [List.mem_singleton] at hcoin
    rw [hcoin]
    decide
  obtain ⟨hstake, hkernel, hpays, -, hsigned⟩ :=
    createCoinStake_valid (fun _ ↦ .inl rfl) hsize hsearch
  exact ⟨tx, key, hsearch, hstake, hkernel, hpays, hsigned⟩

end Electra.Node
