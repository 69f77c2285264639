import Electra.Ledger.Selection
import Electra.Node.ChainMove
import Electra.Node.PoolConsistency

/-!
# Block templates of a node

A template is filled from the pool with transactions that the tip can be extended by: each input is in
the chain or earlier in the template, nothing is spent twice, and sizes, signature operations and fees
add up.  Finality is tested with a reading of the clock that may be later than the time of the block.
-/

namespace Electra.Node

open Chain Ledger Foundations Foundations.Outcome Foundations.ReadyQueue Foundations.SpendIndex

/-- The best height is the height of the tip. -/
structure TipHeight (st : NodeState) : Prop where
  nBestHeight : st.nBestHeight = st.pindexBest.nHeight
  nonempty : st.pindexBest ≠ []

section Height

variable {P : ChainParams} {disk : BlockFiles} {genesis : CBlockIndex} {env : Env} {st st' : NodeState}
  {block : CBlock} {index : CBlockIndex} {pprev : PIndex}

theorem TipHeight.congr (h : TipHeight st) (hsame : SameTip st st') : TipHeight st' where
  nBestHeight := by rw [hsame.nBestHeight, hsame.pindexBest, h.nBestHeight]
  nonempty := hsame.pindexBest ▸ h.nonempty

theorem TipHeight.setBestChain (h : TipHeight st) :
    TipHeight (setBestChain P env st block (index :: pprev)).2 := by
  cases hok : (Chain.setBestChain P env st block (index :: pprev)).1 with
  | false => exact h.congr ((chainMoved P env st block (index :: pprev)).failed hok).1
  | true =>
    unfold Chain.setBestChain at hok ⊢
    cases hmove : moveBestChain P env st block (index :: pprev) with
    | mk fOk st₁ =>
      cases fOk with
      | false => simp [hmove] at hok
      | true => exact ⟨rfl, List.cons_ne_nil _ _⟩

theorem TipHeight.handleEvent (h : TipHeight st) (event : NodeEvent) :
    TipHeight (handleEvent P st event) := by
  cases hcall : bestChainCall P st event with
  | none =>
    rcases handleEvent_of_noCall hcall with heq | ⟨env, block, pindexNew, rfl, hentry, heq⟩
    · rw [heq]
      exact ⟨h.nBestHeight, h.nonempty⟩
    · obtain ⟨index, pprev, rfl, -⟩ := acceptedEntry_eq_some hentry
      rw [heq]
      exact ⟨h.nBestHeight, h.nonempty⟩
  | some call =>
    rw [handleEvent_of_call hcall, BestChainCall.result]
    cases event with
    | acceptBlock env block =>
      obtain ⟨pindexNew, hentry, rfl⟩ := bestChainCall_acceptBlock hcall
      obtain ⟨index, pprev, rfl, -⟩ := acceptedEntry_eq_some hentry
      have hindexed : TipHeight (indexNewBlock env st (index :: pprev)).2 :=
        ⟨h.nBestHeight, h.nonempty⟩
      exact hindexed.setBestChain
    | setBestChain env pindex =>
      obtain ⟨index, block, pprev, rfl, -, -, rfl⟩ := bestChainCall_setBestChain hcall
      exact h.setBestChain
    | acceptTx env tx => cases hcall
    | removeTx tx fRecursive => cases hcall

/-- In any run the best height is that of the tip. -/
theorem tipHeight_of_nodeRun {Meets : NodeState → NodeEvent → Prop}
    (h : NodeRun P disk genesis Meets st) : TipHeight st := by
  induction h with
  | start run started =>
    obtain ⟨-, -, rfl⟩ := startNode_eq run started
    exact ⟨rfl, List.cons_ne_nil _ _⟩
  | event run fits meets ih => exact ih.handleEvent _

end Height

/-- The transactions of the pool, each under its hash, were accepted on the current tip. -/
def AcceptedOnTip (P : ChainParams) (st : NodeState) : Prop :=
  ∀ hash tx, st.mempool.mapTx.lookup hash = some tx → P.hashTx tx = hash ∧
    ∃ files pool pool', CTxMemPool.accept P files st.txdb st.pindexBest pool tx true = .ok pool'

/-- The time of the template if no transaction is later than its coinbase; it is no earlier than this. -/
def earliestTime (env : MinerEnv) (st : NodeState) (fProofOfStake : Bool) : ℤ :=
  templateTime env st.pindexBest fProofOfStake env.nCoinbaseTime

/-- A time lock in the pool that has run out by the clock when the miner tests it has also run out by
the earliest time of the block. -/
def LocksElapsed (env : MinerEnv) (st : NodeState) (fProofOfStake : Bool) : Prop :=
  ∀ hash tx, st.mempool.mapTx.lookup hash = some tx → tx.vin.all CTxIn.isFinal = false →
    LOCKTIME_THRESHOLD ≤ tx.nLockTime → (tx.nLockTime : ℤ) < env.nFinalTime hash →
      (tx.nLockTime : ℤ) < earliestTime env st fProofOfStake

/-- The transactions after the coinbase may extend the tip, within the limits, and each transaction is
final in its block. -/
structure TemplateValid (P : ChainParams) (env : MinerEnv) (st : NodeState) (template : BlockTemplate) :
    Prop where
  source : ∀ pre tx post, template.block.vtx.tail = pre ++ tx :: post → ∀ prevout ∈ tx.spends,
    Ready st.txdb.readTxIndex prevout ∨
      ∃ prev ∈ pre, P.hashTx prev = prevout.hash ∧ prevout.n < prev.vout.length
  spendsOnce : (template.block.vtx.tail.flatMap CTransaction.spends).Nodup
  size : template.block.getSerializeSize < env.args.nBlockMaxSize
  sigOps : 100 + sigOpsAll P env.files st.mempool.mapTx.lookup st.txdb.readTxIndex
    (template.block.vtx.tail.map pooledEntry) < MAX_BLOCK_SIGOPS
  fees : template.nFees = ((withValueIn P env.files st.mempool.mapTx.lookup st.txdb.readTxIndex
    (template.block.vtx.tail.map pooledEntry)).map fun tx ↦ tx.2 - tx.1.valueOut).sum
  isFinal : ∀ tx ∈ template.block.vtx, ∀ nAdjustedTime,
    tx.isFinal st.nBestHeight nAdjustedTime (st.pindexBest.nHeight + 1) template.block.nTime = true

section Template

variable {P : ChainParams} {D : Type} [Double D] {heap : Heap (TxPriority D)} {env : MinerEnv}
  {st : NodeState} {fProofOfStake : Bool} {template : BlockTemplate}

omit [Double D] in
/-- The queue starts with pool transactions. -/
theorem offered_of_queuedFrom {queue : TxQueue D} (haccepted : AcceptedOnTip P st)
    (h : QueuedFrom env st st.mempool.mapTx.entries queue) :
    ((queue.pending.map TxPriority.ptx).map P.hashTx).Nodup ∧
      ∀ tx ∈ queue.pending.map TxPriority.ptx, Offered P env st tx := by
  obtain ⟨l, hl, hperm, hqueued⟩ := h.pending
  have hmem : ∀ entry ∈ l, st.mempool.mapTx.lookup entry.1 = some entry.2 := fun entry hentry ↦
    (AList.mem_lookup_iff).mpr (hl.subset hentry)
  have hkeys : (l.map Sigma.snd).map P.hashTx = l.map Sigma.fst := by
    rw [List.map_map]
    exact List.map_congr_left fun entry hentry ↦ (haccepted _ _ (hmem entry hentry)).1
  constructor
  · rw [(hperm.map P.hashTx).nodup_iff, hkeys]
    exact (hl.map Sigma.fst).nodup st.mempool.mapTx.nodupKeys
  · intro tx htx
    obtain ⟨entry, hentry, rfl⟩ := List.mem_map.mp (hperm.mem_iff.mp htx)
    obtain ⟨hhash, files, pool, pool', haccept⟩ := haccepted _ _ (hmem entry hentry)
    have hfinal := hqueued entry hentry
    rw [isQueued, Bool.and_eq_true] at hfinal
    exact ⟨pooled_of_accept haccept, hhash ▸ hmem entry hentry, hhash ▸ hfinal.2⟩

/-- A template is made of what the rounds have chosen when nothing is ready any more. -/
theorem createNewBlock_eq_ok (haccepted : AcceptedOnTip P st)
    (h : createNewBlock P heap env st fProofOfStake = .ok template) :
    (minerCoinbase env st.pindexBest fProofOfStake).scriptSig0.length ≤ 100 ∧
      ∃ s : CollectState D, Collected P env st fProofOfStake s ∧ s.queue.ready = [] ∧
        template = finishBlock P env st fProofOfStake
          (minerCoinbase env st.pindexBest fProofOfStake) s := by
  simp only [createNewBlock, bind_eq_ok, rejectIf_eq_ok, pure_eq_ok, exists_const, not_lt] at h
  obtain ⟨hscript, queue, hqueue, s, hcollect, rfl⟩ := h
  have hqueued := queueTxs_spec st.mempool.mapTx.nodupKeys hqueue
  obtain ⟨hdistinct, hoffered⟩ := offered_of_queuedFrom haccepted hqueued
  have hinit : Collected P env st fProofOfStake (.init env.args queue) :=
    collected_init hdistinct hoffered
  have hturns : queue.pending.length ≤ st.mempool.mapTx.entries.length := by
    obtain ⟨l, hl, hperm, -⟩ := hqueued.pending
    calc queue.pending.length
        = l.length := by simpa using hperm.length_eq
      _ ≤ st.mempool.mapTx.entries.length := hl.length_le
  exact ⟨hscript, s, collectTxs_spec hinit hcollect, ready_eq_nil_of_collectTxs hinit hturns hcollect,
    rfl⟩

theorem getSizeOfCompactSize_le (nSize : ℕ) : getSizeOfCompactSize nSize ≤ 9 := by
  unfold getSizeOfCompactSize
  split
  · decide
  · split
    · decide
    · split <;> decide

theorem length_setDestination (keyID : CKeyID) : (setDestination keyID).length = 25 := by
  have hkey := keyID.2
  simp [setDestination, pushBytes, hkey]

omit [Double D] in
/-- Whatever it pays, the coinbase takes less than 200 bytes. -/
theorem getSerializeSize_payReward_le {nFees : ℤ}
    (hscript : (minerCoinbase env st.pindexBest fProofOfStake).scriptSig0.length ≤ 100) :
    (payReward P st fProofOfStake nFees
      (minerCoinbase env st.pindexBest fProofOfStake)).getSerializeSize ≤ 200 := by
  cases fProofOfStake with
  | true =>
    simp only [minerCoinbase, CTransaction.scriptSig0, if_true, List.head?_cons, Option.map_some,
      Option.getD_some] at hscript
    simp only [payReward, minerCoinbase, if_true]
    generalize pushInt64 [] (st.pindexBest.nHeight + 1) ++ COINBASE_FLAGS = scriptSig at hscript ⊢
    simp [CTransaction.getSerializeSize, CTxIn.getSerializeSize, CTxOut.getSerializeSize, scriptSize,
      getSizeOfCompactSize, show scriptSig.length < 253 by omega]
    omega
  | false =>
    simp [payReward, minerCoinbase, CTransaction.getSerializeSize, CTxIn.getSerializeSize,
      CTxOut.getSerializeSize, scriptSize, length_setDestination, getSizeOfCompactSize]

omit [Double D] in
/-- The room left for header and coinbase suffices. -/
theorem getSerializeSize_finishBlock_lt {s : CollectState D}
    (hscript : (minerCoinbase env st.pindexBest fProofOfStake).scriptSig0.length ≤ 100)
    (h : Collected P env st fProofOfStake s) :
    (finishBlock P env st fProofOfStake (minerCoinbase env st.pindexBest fProofOfStake)
      s).block.getSerializeSize < env.args.nBlockMaxSize := by
  have hcoinbase : (payReward P st fProofOfStake s.nFees
      (minerCoinbase env st.pindexBest fProofOfStake)).getSerializeSize ≤ 200 :=
    getSerializeSize_payReward_le hscript
  have hcompact := getSizeOfCompactSize_le (s.vtx.length + 1)
  have hblock : (finishBlock P env st fProofOfStake (minerCoinbase env st.pindexBest fProofOfStake)
      s).block.getSerializeSize = 80 + (getSizeOfCompactSize (s.vtx.length + 1) +
        ((payReward P st fProofOfStake s.nFees
          (minerCoinbase env st.pindexBest fProofOfStake)).getSerializeSize +
          (s.vtx.map CTransaction.getSerializeSize).sum)) + 1 := by
    simp [finishBlock, CBlock.getSerializeSize, getSizeOfCompactSize]
  have hsize := h.nBlockSize
  by_cases hvtx : s.vtx = []
  · have hmax : 1000 ≤ env.args.nBlockMaxSize := le_max_left _ _
    have hsum : (s.vtx.map CTransaction.getSerializeSize).sum = 0 := by simp [hvtx]
    omega
  · have hlt := h.size_lt hvtx
    omega

theorem getD_nonneg {times : List ℤ} (h : ∀ nTime ∈ times, 0 ≤ nTime) (n : ℕ) : 0 ≤ times.getD n 0 := by
  rw [List.getD_eq_getElem?_getD]
  cases htime : times[n]? with
  | none => exact le_refl 0
  | some nTime => exact h nTime (List.mem_of_getElem? htime)

theorem getMedianTimePast_nonneg (pindex : PIndex) : 0 ≤ pindex.getMedianTimePast := by
  unfold PIndex.getMedianTimePast
  apply getD_nonneg
  intro nTime hmem
  rw [List.mem_insertionSort] at hmem
  obtain ⟨index, -, rfl⟩ := List.mem_map.mp hmem
  exact Int.natCast_nonneg _

omit [Double D] in
theorem earliestTime_pos : 0 < earliestTime env st fProofOfStake := by
  have hmedian := getMedianTimePast_nonneg st.pindexBest
  have hbound : st.pindexBest.getMedianTimePast + 1 ≤ earliestTime env st fProofOfStake := by
    unfold earliestTime templateTime
    cases fProofOfStake <;> simp
  omega

theorem templateTime_mono (env : MinerEnv) (pindexPrev : PIndex) (fProofOfStake : Bool)
    {nMaxTransactionTime nMaxTransactionTime' : ℤ} (h : nMaxTransactionTime ≤ nMaxTransactionTime') :
    templateTime env pindexPrev fProofOfStake nMaxTransactionTime ≤
      templateTime env pindexPrev fProofOfStake nMaxTransactionTime' := by
  unfold templateTime
  have hmax := max_le_max_right (pastDrift pindexPrev.nTime)
    (max_le_max_left (pindexPrev.getMedianTimePast + 1) h)
  cases fProofOfStake with
  | true => exact hmax
  | false => exact max_le_max_right env.nUpdateTime hmax

omit [Double D] in
/-- The time of a template is no earlier than it can be. -/
theorem earliestTime_le (s : CollectState D) :
    earliestTime env st fProofOfStake ≤ (finishBlock P env st fProofOfStake
      (minerCoinbase env st.pindexBest fProofOfStake) s).block.nTime := by
  have hcoinbase : (payReward P st fProofOfStake s.nFees
      (minerCoinbase env st.pindexBest fProofOfStake)).nTime = env.nCoinbaseTime := by
    cases fProofOfStake <;> rfl
  have hmax : (env.nCoinbaseTime : ℤ) ≤ (finishBlock P env st fProofOfStake
      (minerCoinbase env st.pindexBest fProofOfStake) s).block.getMaxTransactionTime := by
    rw [← hcoinbase]
    exact CBlock.le_getMaxTransactionTime List.mem_cons_self
  exact (templateTime_mono env st.pindexBest fProofOfStake hmax).trans (Int.self_le_toNat _)

omit [Double D] in
/-- A transaction that was final when the miner tested it is final in the block. -/
theorem isFinal_of_elapsed (hheight : TipHeight st) (hlocks : LocksElapsed env st fProofOfStake)
    {hash : Uint256} {tx : CTransaction} (hpool : st.mempool.mapTx.lookup hash = some tx)
    (hfinal : tx.isFinal st.nBestHeight (env.nFinalTime hash) 0 0 = true) {nTime : ℕ}
    (htime : earliestTime env st fProofOfStake ≤ nTime) (nAdjustedTime : ℤ) :
    tx.isFinal st.nBestHeight nAdjustedTime (st.pindexBest.nHeight + 1) nTime = true := by
  have hbest := hheight.nBestHeight
  have hpositive : 0 < st.pindexBest.nHeight + 1 := by
    have hlength := List.length_pos_iff.mpr hheight.nonempty
    simp only [PIndex.nHeight]
    omega
  have hearliest : 0 < earliestTime env st fProofOfStake := earliestTime_pos
  have hnTime : (nTime : ℤ) ≠ 0 := by omega
  simp only [CTransaction.isFinal, Bool.or_eq_true, decide_eq_true_eq, if_true, if_neg hnTime,
    if_neg hpositive.ne'] at hfinal ⊢
  rcases hfinal with (hzero | hlock) | hinputs
  · exact .inl (.inl hzero)
  · cases hall : tx.vin.all CTxIn.isFinal with
    | true => exact .inr rfl
    | false =>
      refine .inl (.inr ?_)
      by_cases hthreshold : (tx.nLockTime : ℤ) < LOCKTIME_THRESHOLD
      · rw [if_pos hthreshold] at hlock ⊢
        omega
      · rw [if_neg hthreshold] at hlock ⊢
        calc (tx.nLockTime : ℤ)
            < earliestTime env st fProofOfStake :=
              hlocks hash tx hpool hall (not_lt.mp hthreshold) hlock
          _ ≤ nTime := htime
  · exact .inr hinputs

/-- If the time locks have run out when the block's time comes, the template is valid. -/
theorem templateValid_of_locksElapsed (hheight : TipHeight st) (haccepted : AcceptedOnTip P st)
    (hlocks : LocksElapsed env st fProofOfStake)
    (h : createNewBlock P heap env st fProofOfStake = .ok template) :
    TemplateValid P env st template := by
  obtain ⟨hscript, s, hcollected, -, rfl⟩ := createNewBlock_eq_ok haccepted h
  constructor
  case source =>
    intro pre tx post hsplit prevout hprevout
    have henabled := hcollected.enabled
    have hvtx : s.vtx = pre ++ tx :: post := hsplit
    rw [hvtx, chosen, List.map_append, List.map_append, List.map_cons, List.map_cons] at henabled
    rcases henabled.source hprevout with hready | ⟨u, hu, hid⟩
    · exact .inl hready
    · obtain ⟨entry, hentry, rfl⟩ := List.mem_map.mp hu
      obtain ⟨prev, hprev, rfl⟩ := List.mem_map.mp hentry
      exact .inr ⟨prev, hprev, hid⟩
  case spendsOnce =>
    have hpooled : ∀ tx ∈ s.vtx, Pooled P st.txdb.readTxIndex tx := fun tx htx ↦
      (hcollected.allOffered tx (List.mem_append_left _ htx)).pooled
    have hids : ((chosen P s.vtx).map Spender.id).Nodup := by
      have hdistinct := hcollected.distinct
      rw [offered, List.map_append] at hdistinct
      rw [map_id_chosen]
      exact hdistinct.of_append_left
    have hfresh : ∀ t ∈ chosen P s.vtx, st.txdb.readTxIndex t.id = none := by
      intro t ht
      obtain ⟨entry, hentry, rfl⟩ := List.mem_map.mp ht
      obtain ⟨tx, htx, rfl⟩ := List.mem_map.mp hentry
      exact (hpooled tx htx).fresh
    have hdisjoint := hcollected.enabled.pairwise_disjoint hids hfresh
    rw [chosen, List.pairwise_map, List.pairwise_map] at hdisjoint
    exact List.nodup_flatMap.mpr ⟨fun tx htx ↦ (hpooled tx htx).checked.spends_nodup,
      hdisjoint.imp fun hnone prevout ↦ hnone prevout⟩
  case size => exact getSerializeSize_finishBlock_lt hscript hcollected
  case sigOps =>
    have hlimit := hcollected.sigOps_lt
    rw [hcollected.nBlockSigOps] at hlimit
    exact hlimit
  case fees => exact hcollected.nFees
  case isFinal =>
    intro tx htx nAdjustedTime
    rcases List.mem_cons.mp htx with rfl | hmem
    · have hlock : (payReward P st fProofOfStake s.nFees
          (minerCoinbase env st.pindexBest fProofOfStake)).nLockTime = 0 := by
        cases fProofOfStake <;> rfl
      simp [CTransaction.isFinal, hlock]
    · have hoffered := hcollected.allOffered tx (List.mem_append_left _ hmem)
      exact isFinal_of_elapsed hheight hlocks hoffered.inPool hoffered.isFinal (earliestTime_le s)
        nAdjustedTime

/-- If the time locks have run out when the block's time comes, templates are valid, for any pool whose
transactions were accepted on the tip of a run. -/
theorem templateValid_of_nodeRun {disk : BlockFiles} {genesis : CBlockIndex}
    {Meets : NodeState → NodeEvent → Prop} (hrun : NodeRun P disk genesis Meets st)
    {mempool : CTxMemPool} (haccepted : AcceptedOnTip P { st with mempool })
    (hlocks : LocksElapsed env { st with mempool } fProofOfStake)
    (h : createNewBlock P heap env { st with mempool } fProofOfStake = .ok template) :
    TemplateValid P env { st with mempool } template := by
  have hheight := tipHeight_of_nodeRun hrun
  have htip : TipHeight { st with mempool } := ⟨hheight.nBestHeight, hheight.nonempty⟩
  exact templateValid_of_locksElapsed htip haccepted hlocks h

end Template

namespace TemplateExample

open Builders PoolExample

/-- Spends the output of the transaction `pooledTx`. -/
def childTx : CTransaction := spending 62 4100 [⟨60, 0⟩] [output (1000000017 * COIN)]

def coinbaseTime : ℕ := 1000000000

def lockTime : ℕ := 1000000001

/-- A payment that is locked until a time. -/
def lockedTx : CTransaction :=
  { pooledTx with
    nLockTime := lockTime
    vin := pooledTx.vin.map fun txin ↦ { txin with nSequence := 0 } }

/-- The node at height 12 with some transactions in its pool. -/
def pooledNode (txs : List CTransaction) : NodeState :=
  { quietNode 12 with
    mempool := txs.foldl (fun pool tx ↦ pool.addUnchecked (testNet.hashTx tx) tx) .empty }

/-- A miner whose clock shows one time when the coinbase is made and another one afterwards. -/
def minerEnv (nCoinbaseTime : ℕ) (nTime : ℤ) : MinerEnv where
  files := disk
  args := ⟨none, none, none, none⟩
  keyID := ⟨List.replicate 20 0, rfl⟩
  nCoinbaseTime
  nFinalTime _ := nTime
  nLimitTime _ := nTime
  nUpdateTime := nTime

def mine (txs : List CTransaction) (nCoinbaseTime : ℕ) (nTime : ℤ) (fProofOfStake : Bool) :
    Except Reject BlockTemplate :=
  createNewBlock testNet (firstHighest : Heap (TxPriority ℚ)) (minerEnv nCoinbaseTime nTime)
    (pooledNode txs) fProofOfStake

/-- Transactions that the pool accepts one after another. -/
theorem acceptedOnTip_pooledNode {txs : List CTransaction}
    (h : ∀ entry ∈ (pooledNode txs).mempool.mapTx.entries, testNet.hashTx entry.2 = entry.1 ∧
      ∃ n < txs.length, (CTxMemPool.accept testNet disk (pooledNode txs).txdb (pooledNode txs).pindexBest
        (pooledNode (txs.take n)).mempool entry.2 true).isOk = true) :
    AcceptedOnTip testNet (pooledNode txs) := by
  intro hash tx hlookup
  obtain ⟨hhash, n, -, hok⟩ := h ⟨hash, tx⟩ (AList.mem_lookup_iff.mp hlookup)
  obtain ⟨pool', haccept⟩ := exists_eq_ok hok
  exact ⟨hhash, disk, (pooledNode (txs.take n)).mempool, pool', haccept⟩

end TemplateExample

open TemplateExample PoolExample in
theorem templateValid_example :
    ∃ template, mine [pooledTx, childTx] 5000 5000 false = .ok template ∧
      template.block.vtx.tail = [pooledTx, childTx] ∧
      TemplateValid testNet (minerEnv 5000 5000) (pooledNode [pooledTx, childTx]) template := by
  have hmined : (mine [pooledTx, childTx] 5000 5000 false).isOk = true := by decide +kernel
  obtain ⟨template, htemplate⟩ := exists_eq_ok hmined
  have hvtx : (mine [pooledTx, childTx] 5000 5000 false).map (fun template ↦ template.block.vtx.tail) =
      .ok [pooledTx, childTx] := by decide +kernel
  rw [htemplate] at hvtx
  have hrun : NodeRun testNet disk genesis (fun _ _ ↦ True) (quietNode 12) :=
    run_quietNode le_rfl fun _ _ ↦ trivial
  refine ⟨template, htemplate, Except.ok.inj hvtx, ?_⟩
  refine templateValid_of_nodeRun hrun (acceptedOnTip_pooledNode (by decide +kernel)) ?_ htemplate
  intro hash tx hlookup
  have hfinal : ∀ entry ∈ (pooledNode [pooledTx, childTx]).mempool.mapTx.entries,
      entry.2.vin.all CTxIn.isFinal = true := by decide
  intro hall
  rw [hfinal ⟨hash, tx⟩ (AList.mem_lookup_iff.mp hlookup)] at hall
  cases hall

open TemplateExample PoolExample in
/-- The lock runs out between the making of the coinbase and the test of the transaction. -/
theorem not_templateValid_locked :
    NodeRun testNet disk genesis (fun _ _ ↦ True) (quietNode 12) ∧
      AcceptedOnTip testNet (pooledNode [lockedTx]) ∧
      ∃ template, mine [lockedTx] coinbaseTime 1000000002 true = .ok template ∧
        lockedTx ∈ template.block.vtx ∧ template.block.nTime = coinbaseTime ∧
        ¬ TemplateValid testNet (minerEnv coinbaseTime 1000000002) (pooledNode [lockedTx]) template := by
  have hmined : (mine [lockedTx] coinbaseTime 1000000002 true).isOk = true := by decide +kernel
  obtain ⟨template, htemplate⟩ := exists_eq_ok hmined
  have hfacts : (mine [lockedTx] coinbaseTime 1000000002 true).map (fun template ↦
      (decide (lockedTx ∈ template.block.vtx), template.block.nTime)) = .ok (true, coinbaseTime) := by
    decide +kernel
  rw [htemplate] at hfacts
  obtain ⟨hlocked, htime⟩ := Prod.mk.inj (Except.ok.inj hfacts)
  have hmem : lockedTx ∈ template.block.vtx := of_decide_eq_true hlocked
  refine ⟨run_quietNode le_rfl fun _ _ ↦ trivial, acceptedOnTip_pooledNode (by decide +kernel),
    template, htemplate, hmem, htime, ?_⟩
  intro hvalid
  have hnot : ∀ nTime : ℕ, nTime = coinbaseTime → lockedTx.isFinal (pooledNode [lockedTx]).nBestHeight 0
      ((pooledNode [lockedTx]).pindexBest.nHeight + 1) nTime = false := by
    rintro _ rfl
    decide
  exact absurd (hvalid.isFinal lockedTx hmem 0) (Bool.eq_false_iff.mp (hnot _ htime))

end Electra.Node
