import Electra.Chain.Miner
import Electra.Ledger.ConnectSpec

/-!
# What the selection of transactions for a block keeps

The queue holds final pool transactions, each of them once.  Whatever the order in which they are
taken off, the chosen ones may be entered one after another into the transaction index, and the sizes,
the signature operations and the fees are summed up exactly.
-/

namespace Electra.Ledger

open Chain Foundations Foundations.Outcome Foundations.ReadyQueue Foundations.SpendIndex
  Foundations.WriteBatch

/-- A transaction that the pool of a node has accepted: sound, with inputs of its own, and not in the
chain. -/
structure Pooled (P : ChainParams) (view : TxIndexView) (tx : CTransaction) : Prop where
  checked : tx.Checked
  isCoinBase : tx.isCoinBase = false
  isCoinStake : tx.isCoinStake = false
  fresh : view (P.hashTx tx) = none

theorem readTxIndex_of_not_containsTx {txdb : CTxDB} {hash : Uint256}
    (h : txdb.containsTx hash = false) : txdb.readTxIndex hash = none := by
  rw [CTxDB.readTxIndex, Store.read_of_not_contains h]

variable {files : BlockFiles} {tx : CTransaction} {nTurns : ℕ}

theorem pooled_of_accept {P : ChainParams} {txdb : CTxDB} {pindexBest : PIndex}
    {pool pool' : CTxMemPool} (h : pool.accept P files txdb pindexBest tx true = .ok pool') :
    Pooled P txdb.readTxIndex tx := by
  simp only [CTxMemPool.accept, bind_eq_ok, rejectIf_eq_ok, mapError_eq_ok, Bool.true_and] at h
  obtain ⟨u, hcheck, -, hbase, -, hstake, -, -, -, -, -, -, -, hcontains, -⟩ := h
  exact ⟨CTransaction.checked_of_checkTransaction hcheck, by simpa using hbase, by simpa using hstake,
    readTxIndex_of_not_containsTx (by simpa using hcontains)⟩

variable {P : ChainParams} {D : Type} {env : MinerEnv} {st : NodeState}

/-- A transaction that may be queued at the time its finality is tested. -/
def isQueued (env : MinerEnv) (st : NodeState) (entry : Σ _ : Uint256, CTransaction) : Bool :=
  isOrdinary entry.2 && entry.2.isFinal st.nBestHeight (env.nFinalTime entry.1) 0 0

/-- The queue holds some of the transactions of a list, each of them once. -/
structure QueuedFrom (env : MinerEnv) (st : NodeState) (entries : List (Σ _ : Uint256, CTransaction))
    (queue : TxQueue D) : Prop where
  keys : ∀ key ∈ queue.waiting, key ∈ entries.map Sigma.fst
  pending : ∃ l : List (Σ _ : Uint256, CTransaction), l.Sublist entries ∧
    (queue.pending.map TxPriority.ptx).Perm (l.map Sigma.snd) ∧
    ∀ entry ∈ l, isQueued env st entry = true

theorem queuedFrom_empty : QueuedFrom env st [] (.empty : TxQueue D) where
  keys key hkey := by cases hkey
  pending := ⟨[], List.nil_sublist _, .refl _, by simp⟩

variable {queue queue' : TxQueue D} {s s' : CollectState D} {next : TxPriority D}
  {heap : Heap (TxPriority D)} {less : TxPriority D → TxPriority D → Bool}

/-- A transaction that is passed over leaves the queue as it is. -/
theorem QueuedFrom.skip {entries : List (Σ _ : Uint256, CTransaction)}
    (h : QueuedFrom env st entries queue) (hready : queue'.ready = queue.ready)
    (hwaiting : queue'.waiting = queue.waiting) (entry : Σ _ : Uint256, CTransaction) :
    QueuedFrom env st (entries ++ [entry]) queue' where
  keys key hkey := by
    rw [List.map_append]
    exact List.mem_append_left _ (h.keys key (hwaiting ▸ hkey))
  pending := by
    obtain ⟨l, hl, hperm, hqueued⟩ := h.pending
    have hpending : queue'.pending = queue.pending := by
      rw [ReadyQueue.pending, ReadyQueue.blocked, hready, hwaiting]
      rfl
    exact ⟨l, hl.trans (List.sublist_append_left _ _), hpending ▸ hperm, hqueued⟩

/-- A transaction that enters the queue is pending with the others. -/
theorem QueuedFrom.enter {entries : List (Σ _ : Uint256, CTransaction)}
    {entry : Σ _ : Uint256, CTransaction} {priority : TxPriority D}
    (h : QueuedFrom env st entries queue) (hqueued : isQueued env st entry = true)
    (hptx : priority.ptx = entry.2) (hperm : queue'.pending.Perm (priority :: queue.pending))
    (hkeys : ∀ key ∈ queue'.waiting, key = entry.1 ∨ key ∈ queue.waiting) :
    QueuedFrom env st (entries ++ [entry]) queue' where
  keys key hkey := by
    rw [List.map_append, List.mem_append]
    rcases hkeys key hkey with rfl | hold
    · exact .inr List.mem_cons_self
    · exact .inl (h.keys key hold)
  pending := by
    obtain ⟨l, hl, hold, hall⟩ := h.pending
    refine ⟨l ++ [entry], hl.append_right [entry], ?_, ?_⟩
    · rw [List.map_append]
      calc (queue'.pending.map TxPriority.ptx).Perm (entry.2 :: queue.pending.map TxPriority.ptx) := by
            simpa [hptx] using hperm.map TxPriority.ptx
        _ |>.Perm (entry.2 :: l.map Sigma.snd) := hold.cons _
        _ |>.Perm (l.map Sigma.snd ++ [entry.2]) := (List.perm_append_singleton _ _).symm
    · intro entry' hentry'
      rcases List.mem_append.mp hentry' with hentry' | hentry'
      · exact hall entry' hentry'
      · rw [List.mem_singleton.mp hentry']
        exact hqueued

variable [Double D]

/-- Looking for the inputs of a transaction only notes who waits for whom. -/
theorem scanInputs_queue {hash : Uint256} {prevouts : List COutPoint} {scan scan' : InputScan D}
    {fMissingInputs : Bool} (h : scanInputs P files st hash scan prevouts = .ok (fMissingInputs, scan')) :
    scan'.queue.ready = scan.queue.ready ∧ scan'.queue.waiting = scan.queue.waiting := by
  induction prevouts generalizing scan with
  | nil =>
    obtain ⟨-, rfl⟩ := Prod.mk.inj (Except.ok.inj h)
    exact ⟨rfl, rfl⟩
  | cons prevout prevouts ih =>
    unfold scanInputs at h
    split at h
    · have hrest := ih h
      exact hrest
    · split at h
      · obtain ⟨-, rfl⟩ := Prod.mk.inj (Except.ok.inj h)
        exact ⟨rfl, rfl⟩
      · simp only [bind_eq_ok, require_eq_ok] at h
        obtain ⟨txout, -, h⟩ := h
        have hrest := ih h
        exact hrest

theorem queueTx_spec {entries : List (Σ _ : Uint256, CTransaction)}
    {entry : Σ _ : Uint256, CTransaction} (hq : QueuedFrom env st entries queue)
    (hnew : entry.1 ∉ entries.map Sigma.fst) (h : queueTx P env st queue entry = .ok queue') :
    QueuedFrom env st (entries ++ [entry]) queue' := by
  obtain ⟨hash, tx⟩ := entry
  unfold queueTx at h
  simp only at h
  split at h
  · obtain rfl := Except.ok.inj h
    exact hq.skip rfl rfl _
  · next hkind =>
    have hqueued : isQueued env st ⟨hash, tx⟩ = true := by
      simpa [isQueued, isOrdinary, and_assoc] using hkind
    simp only [bind_eq_ok] at h
    obtain ⟨⟨fMissingInputs, scan⟩, hscan, hrest⟩ := h
    obtain ⟨hready, hwaiting⟩ := scanInputs_queue hscan
    split at hrest
    · obtain rfl := Except.ok.inj hrest
      exact hq.skip hready hwaiting _
    · simp only [bind_eq_ok, pure_eq_ok] at hrest
      obtain ⟨nValueOut, -, rfl⟩ := hrest
      have hpending : scan.queue.pending = queue.pending := by
        rw [ReadyQueue.pending, ReadyQueue.blocked, hready, hwaiting]
        rfl
      split
      · refine hq.enter hqueued rfl (hpending ▸ perm_pending_push _ _) ?_
        intro key hkey
        exact .inr (hwaiting ▸ hkey)
      · next hdepends =>
        have hfresh : hash ∉ scan.queue.waiting := by
          intro hmem
          rw [hwaiting] at hmem
          exact hnew (hq.keys hash hmem)
        refine hq.enter hqueued rfl (hpending ▸ perm_pending_hold hfresh hdepends) ?_
        intro key hkey
        rw [ReadyQueue.hold, AList.mem_insert, hwaiting] at hkey
        exact hkey

theorem queueTxs_spec {entries : List (Σ _ : Uint256, CTransaction)} (hnodup : entries.NodupKeys)
    (h : entries.foldlM (queueTx P env st) .empty = .ok queue) :
    QueuedFrom env st entries queue := by
  refine foldlM_processed (QueuedFrom env st) ?_ queuedFrom_empty h
  rintro pre entry post queue₁ queue₂ hsplit hpre hone
  refine queueTx_spec hpre ?_ hone
  rw [hsplit, List.NodupKeys, List.keys, List.map_append, List.map_cons] at hnodup
  intro hmem
  exact (List.nodup_append.mp hnodup).2.2 _ hmem _ List.mem_cons_self rfl

section SigOps

variable (P) (files : BlockFiles) (mapTx : Uint256 → Option CTransaction)

/-- The output that an outpoint names, as the index and the files give it. -/
def fetchedOut (index : TxIndexView) (prevout : COutPoint) : Option CTxOut :=
  ((index prevout.hash).bind (fetchedTx files mapTx prevout.hash)).bind fun txPrev ↦
    txPrev.vout[prevout.n]?

/-- Signature operations of a transaction with those of the scripts it redeems. -/
def sigOpsOf (index : TxIndexView) (tx : CTransaction) : ℕ :=
  getLegacySigOpCount P tx + (tx.vin.map fun txin ↦
    (fetchedOut files mapTx index txin.prevout).elim 0 fun prevout ↦
      if isPayToScriptHash prevout.scriptPubKey then
        P.p2shSigOpCount prevout.scriptPubKey txin.scriptSig
      else 0).sum

/-- Signature operations of transactions that are entered one after another. -/
def sigOpsAll : TxIndexView → List (CTransaction × CDiskTxPos) → ℕ
  | _, [] => 0
  | index, entry :: rest =>
      sigOpsOf P files mapTx index entry.1 + sigOpsAll (apply index (spenderOf P entry)) rest

theorem sigOpsAll_append (index : TxIndexView) (entries : List (CTransaction × CDiskTxPos))
    (entry : CTransaction × CDiskTxPos) :
    sigOpsAll P files mapTx index (entries ++ [entry]) =
      sigOpsAll P files mapTx index entries +
        sigOpsOf P files mapTx (applyAll index (entries.map (spenderOf P))) entry.1 := by
  induction entries generalizing index with
  | nil => simp [sigOpsAll]
  | cons first entries ih => simp [sigOpsAll, ih, Nat.add_assoc]

end SigOps

theorem getP2SHSigOpCount_eq_ok {mapTx : Uint256 → Option CTransaction} {index : TxIndexView}
    {inputs : MapPrevTx} {nSigOps : ℕ} (hbase : tx.isCoinBase = false)
    (hfetched : Fetched files mapTx index inputs) (h : getP2SHSigOpCount P inputs tx = .ok nSigOps) :
    getLegacySigOpCount P tx + nSigOps = sigOpsOf P files mapTx index tx := by
  unfold sigOpsOf
  congr 1
  rw [getP2SHSigOpCount, if_neg (by simp [hbase])] at h
  refine foldlM_processed (fun pre nSigOps ↦ nSigOps = (pre.map fun txin ↦
    (fetchedOut files mapTx index txin.prevout).elim 0 fun prevout ↦
      if isPayToScriptHash prevout.scriptPubKey then
        P.p2shSigOpCount prevout.scriptPubKey txin.scriptSig
      else 0).sum) ?_ rfl h
  rintro pre txin post nSigOps nSigOps' - hsum hone
  simp only [bind_eq_ok, pure_eq_ok, getOutputFor, require_eq_ok] at hone
  obtain ⟨txout, ⟨⟨txindex, txPrev⟩, hinput, hout⟩, rfl⟩ := hone
  obtain ⟨hindex, htx⟩ := hfetched _ _ _ hinput
  have hfetch : fetchedOut files mapTx index txin.prevout = some txout := by
    simp [fetchedOut, hindex, htx, hout]
  rw [List.map_append, List.sum_append, ← hsum, List.map_singleton, List.sum_singleton, hfetch]
  rfl

/-- The index as the chosen transactions leave it. -/
def testIndex (st : NodeState) (s : CollectState D) : TxIndexView :=
  overlay s.mapTestPool st.txdb.readTxIndex

/-- What is chosen has the position of a pool transaction. -/
def pooledEntry (tx : CTransaction) : CTransaction × CDiskTxPos := (tx, .memoryPool)

/-- What one round does that puts a transaction into the block. -/
structure Includes (P : ChainParams) (env : MinerEnv) (st : NodeState) (s s' : CollectState D)
    (tx : CTransaction) : Prop where
  vtx : s'.vtx = s.vtx ++ [tx]
  ready : ∀ prevout ∈ tx.spends, Ready (testIndex st s) prevout
  index : testIndex st s' = apply (testIndex st s) (spenderOf P (pooledEntry tx))
  nBlockSize : s'.nBlockSize = s.nBlockSize + tx.getSerializeSize
  nBlockTx : s'.nBlockTx = s.nBlockTx + 1
  nBlockSigOps : s'.nBlockSigOps =
    s.nBlockSigOps + sigOpsOf P env.files st.mempool.mapTx.lookup (testIndex st s) tx
  sigOps_lt : s'.nBlockSigOps < MAX_BLOCK_SIGOPS
  nFees : s'.nFees = s.nFees +
    (valueIn env.files st.mempool.mapTx.lookup (testIndex st s) tx - tx.valueOut)
  pending : s'.queue.pending.Perm s.queue.pending

omit [Double D] in
theorem includeTx_cases (hbase : tx.isCoinBase = false) (h : includeTx P env st s tx = .ok s') :
    s' = s ∨ Includes P env st s s' tx := by
  unfold includeTx at h
  simp only at h
  split at h
  · exact .inl (Except.ok.inj h).symm
  · next inputs hfetch =>
    obtain ⟨hfetched, hsome⟩ := fetchInputs_spec (Bool.or_true _) hbase hfetch
    simp only [bind_eq_ok] at h
    obtain ⟨nValueIn, hin, nValueOut, hout, h⟩ := h
    split at h
    · exact .inl (Except.ok.inj h).symm
    · simp only [bind_eq_ok] at h
      obtain ⟨nP2SHSigOps, hsigOps, h⟩ := h
      split at h
      · exact .inl (Except.ok.inj h).symm
      · next hlimit =>
        split at h
        · exact .inl (Except.ok.inj h).symm
        · next mapTestPool hconnect =>
          simp only [bind_eq_ok, require_eq_ok, pure_eq_ok] at h
          obtain ⟨queue, hqueue, rfl⟩ := h
          obtain ⟨hready, hmarks, -⟩ := connectInputs_spec (Bool.or_true _) hbase
            (fun hash txindex txPrev hinput ↦ (hfetched hash txindex txPrev hinput).1) hconnect
          have hcount := getP2SHSigOpCount_eq_ok hbase hfetched hsigOps
          have hvalue : nValueIn = valueIn env.files st.mempool.mapTx.lookup (testIndex st s) tx := by
            rw [getValueIn_eq_ok hin]
            unfold valueIn
            congr 1
            exact List.map_congr_left fun prevout hprevout ↦
              hfetched.valueOf_eq (hsome prevout hprevout)
          right
          refine ⟨rfl, hready, ?_, rfl, rfl, ?_, ?_, ?_, perm_pending_release hqueue⟩
          · rw [testIndex, overlay_insert, hmarks, apply_eq]
            rfl
          · exact congrArg (s.nBlockSigOps + ·) hcount
          · exact not_le.mp hlimit
          · rw [← hvalue, ← CTransaction.getValueOut_eq_ok hout]

theorem prioritize_eq (args : MinerArgs) (s : CollectState D) (next : TxPriority D) :
    ∃ fSortedByFee, prioritize args s next = { s with fSortedByFee } := by
  unfold prioritize
  split
  · exact ⟨true, rfl⟩
  · exact ⟨s.fSortedByFee, rfl⟩

/-- A transaction that is taken off the queue is dropped, or it goes into the block. -/
theorem collectTx_cases {fProofOfStake : Bool} (hbase : next.ptx.isCoinBase = false)
    (h : collectTx P env st fProofOfStake s next = .ok s') :
    (∃ fSortedByFee, s' = { s with fSortedByFee }) ∨
      exceedsLimits P env fProofOfStake s next = false ∧ Includes P env st s s' next.ptx := by
  unfold collectTx at h
  split at h
  · exact .inl ⟨s.fSortedByFee, (Except.ok.inj h).symm⟩
  · next hlimits =>
    obtain ⟨fSortedByFee, heq⟩ := prioritize_eq env.args s next
    rw [heq] at h
    rcases includeTx_cases hbase h with rfl | hincludes
    · exact .inl ⟨fSortedByFee, rfl⟩
    · exact .inr ⟨Bool.eq_false_iff.mpr hlimits, hincludes.vtx, hincludes.ready, hincludes.index,
        hincludes.nBlockSize, hincludes.nBlockTx, hincludes.nBlockSigOps, hincludes.sigOps_lt,
        hincludes.nFees, hincludes.pending⟩

/-- The chosen transactions as the transaction index sees them. -/
def chosen (P : ChainParams) (vtx : List CTransaction) : List (Spender Uint256 CDiskTxPos) :=
  (vtx.map pooledEntry).map (spenderOf P)

theorem chosen_append (P : ChainParams) (vtx : List CTransaction) (tx : CTransaction) :
    chosen P (vtx ++ [tx]) = chosen P vtx ++ [spenderOf P (pooledEntry tx)] := by
  simp [chosen]

@[simp]
theorem map_id_chosen (P : ChainParams) (vtx : List CTransaction) :
    (chosen P vtx).map Spender.id = vtx.map P.hashTx := by
  simp [chosen, pooledEntry, spenderOf]

/-- The transactions that are in the block or pending. -/
def offered (s : CollectState D) : List CTransaction := s.vtx ++ s.queue.pending.map TxPriority.ptx

/-- A pool transaction that was final when it was tested. -/
structure Offered (P : ChainParams) (env : MinerEnv) (st : NodeState) (tx : CTransaction) : Prop where
  pooled : Pooled P st.txdb.readTxIndex tx
  inPool : st.mempool.mapTx.lookup (P.hashTx tx) = some tx
  isFinal : tx.isFinal st.nBestHeight (env.nFinalTime (P.hashTx tx)) 0 0 = true

/-- What holds after any number of rounds. -/
structure Collected (P : ChainParams) (env : MinerEnv) (st : NodeState) (fProofOfStake : Bool)
    (s : CollectState D) : Prop where
  index : testIndex st s = applyAll st.txdb.readTxIndex (chosen P s.vtx)
  enabled : EnabledAll st.txdb.readTxIndex (chosen P s.vtx)
  nBlockSize : s.nBlockSize = 1000 + (s.vtx.map CTransaction.getSerializeSize).sum
  size_lt : s.vtx ≠ [] → s.nBlockSize < env.args.nBlockMaxSize
  nBlockTx : s.nBlockTx = s.vtx.length
  nBlockSigOps : s.nBlockSigOps = 100 + sigOpsAll P env.files st.mempool.mapTx.lookup
    st.txdb.readTxIndex (s.vtx.map pooledEntry)
  sigOps_lt : s.nBlockSigOps < MAX_BLOCK_SIGOPS
  nFees : s.nFees = ((withValueIn P env.files st.mempool.mapTx.lookup st.txdb.readTxIndex
    (s.vtx.map pooledEntry)).map fun tx ↦ tx.2 - tx.1.valueOut).sum
  nTime : fProofOfStake = true → ∀ tx ∈ s.vtx, tx.nTime ≤ env.nCoinbaseTime
  distinct : ((offered s).map P.hashTx).Nodup
  allOffered : ∀ tx ∈ offered s, Offered P env st tx

variable {fProofOfStake : Bool}

omit [Double D] in
theorem collected_init (hdistinct : ((queue.pending.map TxPriority.ptx).map P.hashTx).Nodup)
    (hoffered : ∀ tx ∈ queue.pending.map TxPriority.ptx, Offered P env st tx) :
    Collected P env st fProofOfStake (.init env.args queue) where
  index := overlay_empty _
  enabled := trivial
  nBlockSize := rfl
  size_lt h := absurd rfl h
  nBlockTx := rfl
  nBlockSigOps := rfl
  sigOps_lt := show 100 < MAX_BLOCK_SIGOPS by decide
  nFees := rfl
  nTime _ tx htx := by cases htx
  distinct := hdistinct
  allOffered := hoffered

omit [Double D] in
/-- What is taken off the queue was offered with the rest. -/
theorem perm_offered_take (h : s.queue.take heap less = some (next, queue)) :
    (offered s).Perm (next.ptx :: offered { s with queue }) := by
  have hpending := (perm_pending_take h).map TxPriority.ptx
  exact (hpending.append_left s.vtx).trans List.perm_middle

omit [Double D] in
theorem Includes.perm_offered (h : Includes P env st s s' tx) :
    (offered s').Perm (tx :: offered s) := by
  rw [offered, h.vtx, List.append_assoc]
  exact List.perm_middle.trans
    (((h.pending.map TxPriority.ptx).append_left s.vtx).cons tx)

theorem Collected.add (h : Collected P env st fProofOfStake s) (hnext : Offered P env st next.ptx)
    (hnew : P.hashTx next.ptx ∉ (offered s).map P.hashTx)
    (hlimits : exceedsLimits P env fProofOfStake s next = false)
    (hincludes : Includes P env st s s' next.ptx) : Collected P env st fProofOfStake s' := by
  have hlimit : s.nBlockSize + next.ptx.getSerializeSize < env.args.nBlockMaxSize ∧
      (fProofOfStake = true → next.ptx.nTime ≤ env.nCoinbaseTime) := by
    simp only [exceedsLimits, Bool.or_eq_false_iff, decide_eq_false_iff_not, not_le,
      Bool.and_eq_false_iff] at hlimits
    obtain ⟨⟨⟨hsize, -⟩, -, htime⟩, -⟩ := hlimits
    refine ⟨hsize, ?_⟩
    rintro rfl
    simpa using htime
  have hready := hincludes.ready
  have hindex := hincludes.index
  have hsigOps := hincludes.nBlockSigOps
  have hfees := hincludes.nFees
  rw [h.index] at hready hindex hsigOps hfees
  have hperm := hincludes.perm_offered
  constructor
  case index =>
    rw [hindex, hincludes.vtx, chosen_append, applyAll_append]
    rfl
  case enabled =>
    rw [hincludes.vtx, chosen_append, enabledAll_append]
    refine ⟨h.enabled, ⟨hready, hnext.pooled.checked.spends_nodup, ?_⟩, trivial⟩
    apply fullySpent_applyAll
    · intro entry hentry
      rw [show (spenderOf P (pooledEntry next.ptx)).id = P.hashTx next.ptx from rfl,
        hnext.pooled.fresh] at hentry
      cases hentry
    · rw [map_id_chosen]
      intro hmem
      rw [offered, List.map_append] at hnew
      exact hnew (List.mem_append_left _ hmem)
  case nBlockSize =>
    rw [hincludes.nBlockSize, hincludes.vtx, h.nBlockSize, List.map_append, List.sum_append,
      List.map_singleton, List.sum_singleton, Nat.add_assoc]
  case size_lt =>
    intro _
    rw [hincludes.nBlockSize]
    exact hlimit.1
  case nBlockTx =>
    rw [hincludes.nBlockTx, hincludes.vtx, h.nBlockTx, List.length_append, List.length_singleton]
  case nBlockSigOps =>
    rw [hsigOps, hincludes.vtx, h.nBlockSigOps, List.map_append, List.map_singleton, sigOpsAll_append,
      Nat.add_assoc]
    rfl
  case sigOps_lt => exact hincludes.sigOps_lt
  case nFees =>
    rw [hfees, hincludes.vtx, h.nFees, List.map_append, List.map_singleton, withValueIn_append,
      List.map_append, List.sum_append, List.map_singleton, List.sum_singleton]
    rfl
  case nTime =>
    intro hstake tx htx
    rw [hincludes.vtx] at htx
    rcases List.mem_append.mp htx with htx | htx
    · exact h.nTime hstake tx htx
    · rw [List.mem_singleton.mp htx]
      exact hlimit.2 hstake
  case distinct =>
    rw [(hperm.map P.hashTx).nodup_iff, List.map_cons, List.nodup_cons]
    exact ⟨hnew, h.distinct⟩
  case allOffered =>
    intro tx htx
    rcases List.mem_cons.mp (hperm.mem_iff.mp htx) with rfl | htx
    · exact hnext
    · exact h.allOffered tx htx

theorem Collected.step (h : Collected P env st fProofOfStake s)
    (htake : s.queue.take heap less = some (next, queue))
    (hcollect : collectTx P env st fProofOfStake { s with queue } next = .ok s') :
    Collected P env st fProofOfStake s' := by
  have hperm := perm_offered_take htake
  have hdistinct := h.distinct
  rw [(hperm.map P.hashTx).nodup_iff, List.map_cons, List.nodup_cons] at hdistinct
  have hnext := h.allOffered next.ptx (hperm.mem_iff.mpr List.mem_cons_self)
  have hrest : Collected P env st fProofOfStake { s with queue } :=
    ⟨h.index, h.enabled, h.nBlockSize, h.size_lt, h.nBlockTx, h.nBlockSigOps, h.sigOps_lt, h.nFees,
      h.nTime, hdistinct.2, fun tx htx ↦ h.allOffered tx (hperm.mem_iff.mpr (List.mem_cons_of_mem _ htx))⟩
  rcases collectTx_cases hnext.pooled.isCoinBase hcollect with ⟨fSortedByFee, rfl⟩ | ⟨hlimits, hincludes⟩
  · exact ⟨hrest.index, hrest.enabled, hrest.nBlockSize, hrest.size_lt, hrest.nBlockTx,
      hrest.nBlockSigOps, hrest.sigOps_lt, hrest.nFees, hrest.nTime, hrest.distinct, hrest.allOffered⟩
  · exact hrest.add hnext hdistinct.1 hlimits hincludes

/-- What is offered after some rounds was offered before. -/
theorem forall_offered_of_collectTxs {p : CTransaction → Prop} (hp : ∀ tx, p tx → tx.isCoinBase = false)
    (h : ∀ tx ∈ offered s, p tx) (hcollect : collectTxs P heap env st fProofOfStake nTurns s = .ok s') :
    ∀ tx ∈ offered s', p tx := by
  induction nTurns generalizing s with
  | zero => exact Except.ok.inj hcollect ▸ h
  | succ nTurns ih =>
    unfold collectTxs at hcollect
    split at hcollect
    · exact Except.ok.inj hcollect ▸ h
    · next next queue htake =>
      simp only [bind_eq_ok] at hcollect
      obtain ⟨s₁, hone, hrest⟩ := hcollect
      have hperm := perm_offered_take htake
      have hnext : p next.ptx := h _ (hperm.mem_iff.mpr List.mem_cons_self)
      have hothers : ∀ tx ∈ offered { s with queue }, p tx := fun tx htx ↦
        h tx (hperm.mem_iff.mpr (List.mem_cons_of_mem _ htx))
      refine ih ?_ hrest
      rcases collectTx_cases (hp _ hnext) hone with ⟨fSortedByFee, rfl⟩ | ⟨-, hincludes⟩
      · exact hothers
      · intro tx htx
        rcases List.mem_cons.mp (hincludes.perm_offered.mem_iff.mp htx) with rfl | htx
        · exact hnext
        · exact hothers tx htx

/-- Any number of rounds keeps what was chosen sound. -/
theorem collectTxs_spec (h : Collected P env st fProofOfStake s)
    (hcollect : collectTxs P heap env st fProofOfStake nTurns s = .ok s') :
    Collected P env st fProofOfStake s' := by
  induction nTurns generalizing s with
  | zero => exact Except.ok.inj hcollect ▸ h
  | succ nTurns ih =>
    unfold collectTxs at hcollect
    split at hcollect
    · exact Except.ok.inj hcollect ▸ h
    · next next queue htake =>
      simp only [bind_eq_ok] at hcollect
      obtain ⟨s₁, hone, hrest⟩ := hcollect
      exact ih (h.step htake hone) hrest

/-- Every round takes one pending transaction away, so that enough rounds leave none that is ready. -/
theorem ready_eq_nil_of_collectTxs (h : Collected P env st fProofOfStake s)
    (hturns : s.queue.pending.length ≤ nTurns)
    (hcollect : collectTxs P heap env st fProofOfStake nTurns s = .ok s') : s'.queue.ready = [] := by
  induction nTurns generalizing s with
  | zero =>
    obtain rfl := Except.ok.inj hcollect
    have hpending : s.queue.pending = [] := List.length_eq_zero_iff.mp (Nat.le_zero.mp hturns)
    exact (List.append_eq_nil_iff.mp hpending).1
  | succ nTurns ih =>
    unfold collectTxs at hcollect
    split at hcollect
    · next htake =>
      obtain rfl := Except.ok.inj hcollect
      exact ready_eq_nil_of_take htake
    · next next queue htake =>
      simp only [bind_eq_ok] at hcollect
      obtain ⟨s₁, hone, hrest⟩ := hcollect
      refine ih (h.step htake hone) ?_ hrest
      have hlength := (perm_pending_take htake).length_eq
      have hnext := h.allOffered next.ptx
        ((perm_offered_take htake).mem_iff.mpr List.mem_cons_self)
      have hfewer : queue.pending.length ≤ nTurns := by
        rw [List.length_cons] at hlength
        omega
      rcases collectTx_cases hnext.pooled.isCoinBase hone with ⟨fSortedByFee, rfl⟩ | ⟨-, hincludes⟩
      · exact hfewer
      · rw [hincludes.pending.length_eq]
        exact hfewer

end Electra.Ledger
