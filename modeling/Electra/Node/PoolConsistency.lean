import Electra.Ledger.PoolClear
import Electra.Node.NodeRun

/-!
# The memory pool and the best chain

The pool stays clear of the best chain as long as no block that `SetBestChainInner` connects spends
an output that another transaction of the pool spends.  A reorganisation removes such rivals, an
extension of the tip only removes what the block itself contains.
-/

namespace Electra.Node

open Chain Ledger Foundations.SpendIndex Foundations.Outcome Foundations.WriteBatch

section Pool

variable (P : ChainParams) (env : Env)

/-- No pool transaction outside of the block spends what the block spends. -/
def NoRival (pool : CTxMemPool) (block : CBlock) : Prop :=
  ∀ entry ∈ pool.mapTx.entries, entry.2 ∉ block.vtx →
    ∀ tx ∈ block.vtx, ∀ prevout ∈ entry.2.vin.map CTxIn.prevout, prevout ∉ tx.spends

instance (pool : CTxMemPool) (block : CBlock) : Decidable (NoRival pool block) :=
  inferInstanceAs (Decidable (∀ entry ∈ pool.mapTx.entries, entry.2 ∉ block.vtx →
    ∀ tx ∈ block.vtx, ∀ prevout ∈ entry.2.vin.map CTxIn.prevout, prevout ∉ tx.spends))

/-- No postponed block has a rival in the pool when it is its turn. -/
def NoneHasRival : NodeState → List PIndex → Prop
  | _, [] => True
  | st, pindex :: rest =>
      (∀ index ∈ pindex.head?, ∀ block ∈ (readFromDisk P env.files index).toOption,
        NoRival st.mempool block) ∧
        NoneHasRival (connectPostponed P env st pindex).2 rest

instance decidableNoneHasRival : ∀ (st : NodeState) (pindexes : List PIndex),
    Decidable (NoneHasRival P env st pindexes)
  | _, [] => isTrue trivial
  | st, pindex :: rest =>
      have := decidableNoneHasRival (connectPostponed P env st pindex).2 rest
      inferInstanceAs (Decidable (_ ∧ _))

/-- No block that the call connects through `SetBestChainInner` has a rival in the pool. -/
def ConnectsNoRival (st : NodeState) (block : CBlock) (pindexNew : PIndex) : Prop :=
  if block.hashPrevBlock = st.hashBestChain then
    (setBestChainInner P env (begun st) block pindexNew).1 = true → NoRival st.mempool block
  else
    ∀ st₁ ∈ (reorganize P env (begun st)
        (splitSecondary st.pindexBest.nChainTrust pindexNew).1).toOption,
      NoneHasRival P env st₁ (splitSecondary st.pindexBest.nChainTrust pindexNew).2.reverse

instance (st : NodeState) (block : CBlock) (pindexNew : PIndex) :
    Decidable (ConnectsNoRival P env st block pindexNew) :=
  inferInstanceAs (Decidable (ite _ _ _))

/-- The event connects its postponed blocks and none that it connects outside of a reorganisation has
a rival in the pool; what is offered to the pool is one of some transactions. -/
def KeepsPoolClear (txs : Set CTransaction) (st : NodeState) (event : NodeEvent) : Prop :=
  ConnectsPostponed P st event ∧
    (∀ call ∈ bestChainCall P st event, ConnectsNoRival P call.env call.st call.block call.pindexNew) ∧
    match event with
    | .acceptTx _ tx => tx ∈ txs
    | .removeTx tx _ => tx ∈ txs
    | _ => True

structure PoolInv (txs : Set CTransaction) (pool : CTxMemPool) (chain : Branch) : Prop where
  ok : PoolOk P txs pool
  clear : PoolClear P pool (ledger chain)

variable {P env} {disk : BlockFiles} {genesis : CBlockIndex} {txs : Set CTransaction}
  {st st' : NodeState} {chain : Branch}

theorem mempool_invalidChainFound (st : NodeState) (pindexNew : PIndex) :
    (invalidChainFound st pindexNew).mempool = st.mempool := by
  unfold invalidChainFound
  split <;> rfl

variable {block : CBlock} {tx : CTransaction}

/-- The transactions of accepted blocks are among those whose hashes differ. -/
theorem mem_of_accepted (hsub : acceptedTxs P disk ⊆ txs) {index : CBlockIndex} {pprev : PIndex}
    (h : Accepted P disk block index pprev) : ∀ tx ∈ block.vtx, tx ∈ txs :=
  fun _ htx ↦ hsub ⟨block, index, pprev, h, htx⟩

/-- Connecting a block without a rival and removing its transactions keeps the pool clear. -/
theorem PoolInv.extend {pool : CTxMemPool} (h : PoolInv P txs pool chain) (index : CBlockIndex)
    (hinj : Set.InjOn P.hashTx txs) (htxs : ∀ tx ∈ block.vtx, tx ∈ txs) (hrival : NoRival pool block) :
    PoolInv P txs (block.vtx.foldl (fun pool tx ↦ pool.remove P tx false) pool)
      ((block, index) :: chain) := by
  obtain ⟨hok, hshrinks, hgone⟩ := h.ok.foldl_remove hinj block.vtx htxs
  refine ⟨hok, poolClear_append.mpr ⟨h.clear.shrinks hshrinks, ?_⟩⟩
  intro hash tx hlookup entry hentry
  have hblock := mem_vtx_of_mem_located hentry
  refine ⟨?_, ?_⟩
  · rintro rfl
    rw [hgone entry.1 hblock] at hlookup
    cases hlookup
  · refine hrival ⟨hash, tx⟩ (AList.mem_lookup_iff.mp (hshrinks hash tx hlookup)) ?_ entry.1 hblock
    intro hmem
    rw [← (hok.hash hash tx hlookup).1, hgone tx hmem] at hlookup
    cases hlookup

theorem PoolInv.setBestChainInner (h : PoolInv P txs st.mempool chain) (env : Env) (index : CBlockIndex)
    (pprev : PIndex) (hinj : Set.InjOn P.hashTx txs) (htxs : ∀ tx ∈ block.vtx, tx ∈ txs)
    (hrival : (Chain.setBestChainInner P env (begun st) block (index :: pprev)).1 = true →
      NoRival st.mempool block) :
    PoolInv P txs (Chain.setBestChainInner P env (begun st) block (index :: pprev)).2.mempool
      (if (Chain.setBestChainInner P env (begun st) block (index :: pprev)).1 then
        (block, index) :: chain else chain) := by
  rcases setBestChainInner_cases P env (begun st) block (index :: pprev) with
    ⟨reject, -, heq⟩ | ⟨st₁, hconnect, heq | heq⟩
  · rw [heq]
    exact (mempool_invalidChainFound (txnAbort (begun st)) (index :: pprev)).symm ▸ h
  all_goals
    obtain ⟨sums, hconnects⟩ := connectBlock_eq_ok hconnect
    have hpool : st₁.mempool = st.mempool := hconnects.frame.mempool
    rw [heq] at hrival ⊢
  · have hend := h.extend index hinj htxs (hrival rfl)
    rw [← hpool] at hend
    exact hend
  · rw [← hpool] at h
    exact h

theorem keepsPoolClear_acceptTx (h : tx ∈ txs) :
    KeepsPoolClear P txs st (.acceptTx env tx) := by
  refine ⟨?_, ?_, h⟩
  · rintro call ⟨⟩
  · rintro call ⟨⟩

theorem exists_block_of_mem_ledger {entry : CTransaction × CDiskTxPos} (h : entry ∈ ledger chain) :
    ∃ block ∈ chain.map Prod.fst, entry.1 ∈ block.vtx := by
  obtain ⟨above, block, index, below, rfl, hmem⟩ := exists_of_mem_ledger h
  exact ⟨block, by simp, mem_vtx_of_mem_located hmem⟩

theorem exists_mem_ledger (hblock : block ∈ chain.map Prod.fst) (htx : tx ∈ block.vtx) :
    ∃ entry ∈ ledger chain, entry.1 = tx := by
  induction chain with
  | nil => cases hblock
  | cons top chain ih =>
    obtain ⟨block', index⟩ := top
    rw [ledger]
    rcases List.mem_cons.mp hblock with rfl | hblock
    · rw [← map_fst_located block [index] false] at htx
      obtain ⟨entry, hentry, heq⟩ := List.mem_map.mp htx
      exact ⟨entry, List.mem_append_right _ hentry, heq⟩
    · obtain ⟨entry, hentry, heq⟩ := ih hblock
      exact ⟨entry, List.mem_append_left _ hentry, heq⟩

theorem mem_txs_of_branch (hsub : acceptedTxs P disk ⊆ txs)
    (haccepted : AcceptedBranch P disk genesis chain) (hblock : block ∈ chain.map Prod.fst)
    (htx : tx ∈ block.vtx) : tx ∈ txs := by
  obtain ⟨entry, hentry, rfl⟩ := exists_mem_ledger hblock htx
  exact hsub (mem_acceptedTxs haccepted hentry)

/-- A reorganisation leaves the pool clear of the new branch. -/
theorem PoolInv.reorganize (hpool : PoolInv P txs st.mempool chain)
    (hinj : Set.InjOn P.hashTx txs) (hsub : acceptedTxs P disk ⊆ txs)
    (h : OnBranch P disk genesis st chain) {chain' : Branch} (hfiles : env.files.ReadsFrom disk)
    (hbest : st.pindexBest = pindexOf genesis chain) (haccepted : AcceptedBranch P disk genesis chain')
    (hcall : Chain.reorganize P env (begun st) (pindexOf genesis chain') = .ok st') :
    PoolInv P txs st'.mempool chain' := by
  have hvalid := (h.run.exact (hinj.mono hsub)).valid
  obtain ⟨above, above', below, st₁, rfl, rfl, hsteps, rfl⟩ :=
    reorganize_eq_ok (begun st) hfiles h.run.accepted haccepted hbest hcall
  have hmempool : st₁.mempool = st.mempool := hsteps.frame.mempool
  have hclear := hpool.clear
  rw [ledger_append, poolClear_append] at hclear
  -- what is resurrected was above the fork, so the part below does not conflict with it
  have hresurrected : ∀ tx ∈ above.flatMap fun entry ↦ resurrected entry.1, tx ∈ txs ∧
      ∀ entry ∈ ledger below, P.hashTx entry.1 ≠ P.hashTx tx ∧
        ∀ prevout ∈ tx.vin.map CTxIn.prevout, prevout ∉ entry.1.spends := by
    intro tx htx
    obtain ⟨⟨block, index⟩, hentry, htx⟩ := List.mem_flatMap.mp htx
    obtain ⟨htx, hordinary⟩ := List.mem_filter.mp htx
    have hblock : block ∈ above.map Prod.fst := List.mem_map_of_mem hentry
    obtain ⟨entry', hentry', rfl⟩ := exists_mem_ledger hblock htx
    refine ⟨mem_txs_of_branch hsub h.run.accepted (by simp [hblock]) htx, fun entry hbelow ↦ ?_⟩
    have hbase : entry'.1.isCoinBase = false := by simp_all
    rw [← CTransaction.spends_of_not_coinBase hbase]
    exact clear_of_above hvalid hentry' hbelow
  obtain ⟨hok, hbelow⟩ := hclear.1.resurrect env.files
    (committed st₁ (pindexOf genesis (above' ++ below)).getBlockHash true).txdb st₁.pindexBest hpool.ok
    (fun tx htx ↦ (hresurrected tx htx).1) fun tx htx ↦ (hresurrected tx htx).2
  have hdelete : ∀ tx ∈ above'.reverse.flatMap fun entry ↦ entry.1.vtx, tx ∈ txs := by
    intro tx htx
    obtain ⟨entry, hentry, htx⟩ := List.mem_flatMap.mp htx
    have hblock : entry.1 ∈ (above' ++ below).map Prod.fst :=
      List.mem_map_of_mem (List.mem_append_left _ (List.mem_reverse.mp hentry))
    exact mem_txs_of_branch hsub haccepted hblock htx
  obtain ⟨hok', hshrinks, hgone⟩ := foldl_deleteWithConflicts hinj _ hok hdelete
  have hend : (switchBranch P env (committed st₁ (pindexOf genesis (above' ++ below)).getBlockHash true)
      (pointersAbove genesis below above) (pointersAbove genesis below above').reverse
      (above.flatMap fun entry ↦ resurrected entry.1)
      (above'.reverse.flatMap fun entry ↦ entry.1.vtx)).mempool =
      (above'.reverse.flatMap fun entry ↦ entry.1.vtx).foldl (deleteWithConflicts P)
        ((above.flatMap fun entry ↦ resurrected entry.1).foldl
          (resurrect P env.files (committed st₁ (pindexOf genesis (above' ++ below)).getBlockHash true).txdb
            st₁.pindexBest) st.mempool) := by
    rw [← hmempool]
    rfl
  rw [hend]
  refine ⟨hok', ?_⟩
  rw [ledger_append, poolClear_append]
  refine ⟨hbelow.shrinks hshrinks, poolClear_of_gone hgone fun entry hentry ↦ ?_⟩
  obtain ⟨block, hblock, htx⟩ := exists_block_of_mem_ledger hentry
  obtain ⟨entry', hentry', rfl⟩ := List.mem_map.mp hblock
  exact List.mem_flatMap.mpr ⟨entry', List.mem_reverse.mpr hentry', htx⟩

theorem PoolInv.connectSecondary {below : Branch} (hpool : PoolInv P txs st.mempool below)
    (hinj : Set.InjOn P.hashTx txs) (hsub : acceptedTxs P disk ⊆ txs)
    (h : OnBranch P disk genesis st below) (above : Branch) (hfiles : env.files.ReadsFrom disk)
    (haccepted : AcceptedBranch P disk genesis (above ++ below))
    (hconnect : AllConnect P env st (pointersAbove genesis below above).reverse)
    (hrival : NoneHasRival P env st (pointersAbove genesis below above).reverse) :
    PoolInv P txs
      (Chain.connectSecondary P env st (pointersAbove genesis below above).reverse).mempool
      (above ++ below) := by
  induction above using List.reverseRecOn generalizing below st with
  | nil => exact hpool
  | append_singleton above entry ih =>
    obtain ⟨block, index⟩ := entry
    rw [List.append_assoc, List.singleton_append] at haccepted ⊢
    rw [pointersAbove_append_singleton, List.reverse_append, List.reverse_singleton,
      List.singleton_append, pindexOf_cons] at hconnect hrival ⊢
    obtain ⟨hok, hconnect⟩ := hconnect
    obtain ⟨hfirst, hrival⟩ := hrival
    have hbelow := haccepted.below
    have hstep : PoolInv P txs (connectPostponed P env st (index :: pindexOf genesis below)).2.mempool
        ((block, index) :: below) := by
      rw [connectPostponed_cons] at hok ⊢
      cases hread : readFromDisk P env.files index with
      | error reject => simp [hread] at hok
      | ok block' =>
        obtain rfl := readFromDisk_accepted hfiles hbelow.1 hread
        have hnext := hpool.setBestChainInner env index (pindexOf genesis below) hinj
          (mem_of_accepted hsub hbelow.1) fun _ ↦ hfirst index rfl block' (by rw [hread]; rfl)
        simp only [hread] at hok ⊢
        rwa [hok] at hnext
    have hbranch := (h.connectPostponed hfiles hbelow.1).1
    rw [if_pos hok] at hbranch
    rw [Chain.connectSecondary]
    cases hpostponed : connectPostponed P env st (index :: pindexOf genesis below) with
    | mk fOk st₁ =>
      rw [hpostponed] at hok hconnect hrival hstep hbranch
      obtain rfl : fOk = true := hok
      exact ih hstep hbranch haccepted hconnect hrival

/-- A move of the best chain keeps the pool clear of the branch where it ends. -/
theorem PoolInv.moveBestChain (hpool : PoolInv P txs st.mempool chain) (hinj : Set.InjOn P.hashTx txs)
    (hsub : acceptedTxs P disk ⊆ txs) {index : CBlockIndex} {below : Branch}
    (h : NodeInv P disk genesis st chain) (fits : CallFits P disk genesis env st block index below)
    (hconnect : PostponedConnect P env st block (index :: pindexOf genesis below))
    (hrival : ConnectsNoRival P env st block (index :: pindexOf genesis below)) :
    PoolInv P txs (Chain.moveBestChain P env st block (index :: pindexOf genesis below)).2.mempool
      (if (Chain.moveBestChain P env st block (index :: pindexOf genesis below)).1 then
        (block, index) :: below else chain) := by
  unfold ConnectsNoRival at hrival
  rcases moveBestChain_cases P env st block (index :: pindexOf genesis below) with
    ⟨hstart, -, -⟩ | ⟨-, ⟨hprev, heq⟩ | ⟨hprev, ⟨failure, hfail, heq⟩ | ⟨st₁, hok, heq⟩⟩⟩
  · rw [h.indexed.started] at hstart
    cases hstart
  · rw [if_pos hprev] at hrival
    obtain rfl := below_eq_of_hashPrevBlock h fits hprev
    rw [heq]
    exact hpool.setBestChainInner env index _ hinj (mem_of_accepted hsub fits.accepted.1) hrival
  all_goals
    rw [if_neg hprev] at hrival
    have hpostponed := hconnect hprev
    obtain ⟨above, base, hsplit, hsecondary⟩ :=
      splitSecondary_pindexOf st.pindexBest.nChainTrust genesis ((block, index) :: below)
    rw [pindexOf_cons] at hsecondary
    rw [heq]
  · rw [hsecondary] at hfail
    obtain ⟨s, hsteps, hend⟩ := reorganize_eq_error (begun st) fits.files
      h.onBranch.run.accepted (hsplit ▸ fits.accepted).below h.atTip.pindexBest hfail
    have hsame : failure.2.mempool = st.mempool := by
      rcases hend with hinterrupted | hcommitted
      · exact hinterrupted.frame.mempool.trans hsteps.frame.mempool
      · rw [hcommitted]
        exact hsteps.frame.mempool
    have hkept := mempool_invalidChainFound (txnAbort failure.2) (index :: pindexOf genesis below)
    exact (hkept.trans hsame).symm ▸ hpool
  · rw [hsecondary] at hok hrival hpostponed
    have haccepted : AcceptedBranch P disk genesis (above ++ base) := hsplit ▸ fits.accepted
    have hreorganized := hpool.reorganize hinj hsub h.onBranch fits.files h.atTip.pindexBest
      haccepted.below hok
    obtain ⟨hbranch, -⟩ := h.onBranch.reorganize fits.files h.atTip.pindexBest haccepted.below hok
    rw [hok] at hrival hpostponed
    have hend := hreorganized.connectSecondary hinj hsub hbranch above fits.files haccepted
      (hpostponed st₁ rfl) (hrival st₁ rfl)
    rw [hsecondary, if_pos rfl, hsplit]
    exact hend

/-- Events on the pool itself keep it clear. -/
theorem PoolInv.poolAfter (hpool : PoolInv P txs st.mempool chain) (hinj : Set.InjOn P.hashTx txs)
    (hsub : acceptedTxs P disk ⊆ txs) (h : OnBranch P disk genesis st chain) {event : NodeEvent}
    (hkeeps : KeepsPoolClear P txs st event) : PoolInv P txs (poolAfter P st event) chain := by
  obtain ⟨-, -, hoffered⟩ := hkeeps
  cases event with
  | acceptBlock env block => exact hpool
  | setBestChain env pindex => exact hpool
  | acceptTx env tx =>
    rw [Node.poolAfter, acceptToMemoryPool]
    split
    · next pool haccept =>
      obtain ⟨hok, hclear⟩ :=
        hpool.clear.accept hpool.ok hoffered h.idle (h.run.exact (hinj.mono hsub)) haccept
      exact ⟨hok, hclear⟩
    · exact hpool
  | removeTx tx fRecursive =>
    exact ⟨hpool.ok.remove hinj hoffered fRecursive,
      hpool.clear.shrinks (hpool.ok.shrinks_remove hinj hoffered fRecursive)⟩

theorem PoolInv.handleEvent (hpool : PoolInv P txs st.mempool chain) (hinj : Set.InjOn P.hashTx txs)
    (hsub : acceptedTxs P disk ⊆ txs) (h : NodeInv P disk genesis st chain) {event : NodeEvent}
    (hfits : Fits disk st event) (hkeeps : KeepsPoolClear P txs st event) :
    ∃ chain', NodeInv P disk genesis (Chain.handleEvent P st event) chain' ∧
      PoolInv P txs (Chain.handleEvent P st event).mempool chain' := by
  cases hcall : bestChainCall P st event with
  | some call =>
    have hpostponed := hkeeps.1 call hcall
    have hrival := hkeeps.2.1 call hcall
    obtain ⟨hinv, index, below, hindex, fits⟩ := exists_callFits h hfits hcall
    rw [hindex] at hpostponed hrival
    rw [handleEvent_of_call hcall, BestChainCall.result, hindex]
    refine ⟨_, hinv.setBestChain fits hpostponed, ?_⟩
    rw [← mempool_of_bestChainCall hcall] at hpool
    have hmoved := hpool.moveBestChain hinj hsub hinv fits hpostponed hrival
    rw [setBestChain_eq]
    simp only
    split
    · next htrue =>
      rw [if_pos htrue] at hmoved
      exact hmoved
    · next hfalse =>
      rw [if_neg hfalse] at hmoved
      exact hmoved
  | none =>
    have hafter := hpool.poolAfter hinj hsub h.onBranch hkeeps
    refine ⟨chain, h.handleEvent_of_noCall hfits hcall, ?_⟩
    rcases handleEvent_of_noCall hcall with heq | ⟨env, block, pindexNew, rfl, hentry, heq⟩
    · rw [heq]
      exact hafter
    · rw [heq]
      cases pindexNew <;> exact hafter

/-- In a run in which no block that is connected outside of a reorganisation has a rival in the pool
and all postponed blocks connect, no pool transaction is in the best chain or spends an output that a
transaction of the best chain spends.  The genesis block has only its coinbase. -/
theorem poolClear_of_nodeRun (hinj : Set.InjOn P.hashTx txs) (hsub : acceptedTxs P disk ⊆ txs)
    (h : NodeRun P disk genesis (KeepsPoolClear P txs) st) :
    ∃ chain, st.pindexBest = pindexOf genesis chain ∧ AcceptedBranch P disk genesis chain ∧
      ∀ hash tx, st.mempool.mapTx.lookup hash = some tx → tx.isCoinBase = false ∧
        ∀ entry ∈ ledger chain, entry.1 ≠ tx ∧ P.hashTx entry.1 ≠ hash ∧
          ∀ prevout ∈ tx.vin.map CTxIn.prevout, prevout ∉ entry.1.spends := by
  obtain ⟨chain, hinv, hpool⟩ : ∃ chain, NodeInv P disk genesis st chain ∧
      PoolInv P txs st.mempool chain := by
    induction h with
    | start run started =>
      refine ⟨[], nodeInv_start run started, ?_⟩
      obtain ⟨-, -, rfl⟩ := startNode_eq run started
      exact ⟨poolOk_empty P txs, fun hash tx hlookup ↦ by cases hlookup⟩
    | event run fits meets ih =>
      obtain ⟨chain, hinv, hpool⟩ := ih
      exact hpool.handleEvent hinj hsub hinv fits meets
  refine ⟨chain, hinv.atTip.pindexBest, hinv.onBranch.run.accepted, fun hash tx hlookup ↦ ?_⟩
  refine ⟨hpool.ok.notCoinBase hash tx hlookup, fun entry hentry ↦ ?_⟩
  obtain ⟨hne, hclear⟩ := hpool.clear hash tx hlookup entry hentry
  refine ⟨?_, hne, hclear⟩
  rintro rfl
  exact hne (hpool.ok.hash hash entry.1 hlookup).1

end Pool

namespace PoolExample

open Builders

def testNet : ChainParams := network true

/-- A transaction that spends the large subsidy of block 2. -/
def payment (name : ℤ) (nTime : ℕ) : CTransaction :=
  spending name nTime [⟨3, 0⟩] [output (1000000018 * COIN)]

def pooledTx : CTransaction := payment 60 4000

def confirming : CBlock := blockOf testNet 13 12 4200 (easiestBits testNet)
  [coinbase 14 4200 13 [output 0], pooledTx]

def rival : CBlock := blockOf testNet 23 12 4200 (easiestBits testNet)
  [coinbase 24 4200 13 [output 0], payment 61 4200]

def blocks : List (ℕ × ℕ × CBlock) :=
  quietFiles testNet 13 ++ [(14, 8, confirming), (15, 8, rival)]

def disk : BlockFiles := filesOf blocks

def genesis : CBlockIndex :=
  newBlockIndex testNet (quietBlock testNet 0) 1 8 0 (0, false)

def envAt (nFile : ℕ) : Env := { surroundings disk 5000 with written := some (nFile, 8) }

def quietEvent (nHeight : ℕ) : NodeEvent := .acceptBlock (envAt (nHeight + 1)) (quietBlock testNet nHeight)

/-- The node after the quiet blocks up to a height. -/
def quietNode : ℕ → NodeState
  | 0 => (startNode testNet (envAt 1) [] (quietBlock testNet 0) 1 8).2
  | nHeight + 1 => handleEvent testNet (quietNode nHeight) (quietEvent (nHeight + 1))

def pooled : NodeState := handleEvent testNet (quietNode 12) (.acceptTx (envAt 1) pooledTx)

/-- A transaction that spends the payment and stays in the pool when this is confirmed. -/
def child : CTransaction := spending 62 4100 [⟨60, 0⟩] [output (1000000017 * COIN)]

def pooledTwo : NodeState := handleEvent testNet pooled (.acceptTx (envAt 1) child)

def confirmed : NodeState := handleEvent testNet pooledTwo (.acceptBlock (envAt 14) confirming)

def rivaled : NodeState := handleEvent testNet pooled (.acceptBlock (envAt 15) rival)

/-- All transactions of the blocks. -/
def txs : Set CTransaction := {tx | ∃ block ∈ blocks.map (·.2.2), tx ∈ block.vtx}

theorem hashTx_injOn : Set.InjOn testNet.hashTx txs := by
  have hnames : ∀ block ∈ blocks.map (·.2.2), ∀ block' ∈ blocks.map (·.2.2),
      ∀ tx ∈ block.vtx, ∀ tx' ∈ block'.vtx, testNet.hashTx tx = testNet.hashTx tx' → tx = tx' := by
    decide +kernel
  rintro tx ⟨block, hblock, htx⟩ tx' ⟨block', hblock', htx'⟩ heq
  exact hnames block hblock block' hblock' tx htx tx' htx' heq

theorem acceptedTxs_subset : acceptedTxs testNet disk ⊆ txs := by
  rintro tx ⟨block, index, pprev, haccepted, htx⟩
  exact ⟨block, mem_of_readBlock haccepted.written.readBlock, htx⟩

theorem writtenAt : ∀ entry ∈ blocks, WrittenAt disk entry.1 8 entry.2.2 := by decide +kernel

theorem fits_acceptBlock {st : NodeState} {nFile : ℕ} {block : CBlock}
    (h : (nFile, 8, block) ∈ blocks) : Fits disk st (.acceptBlock (envAt nFile) block) :=
  fits_of_writtenAt rfl rfl (writtenAt _ h)

variable {Meets : NodeState → NodeEvent → Prop}

theorem run_quietNode {nHeight : ℕ} (hle : nHeight ≤ 12)
    (h : ∀ n < nHeight, Meets (quietNode n) (quietEvent (n + 1))) :
    NodeRun testNet disk genesis Meets (quietNode nHeight) := by
  induction nHeight with
  | zero =>
    have hstart : startNode testNet (envAt 1) [] (quietBlock testNet 0) 1 8 = (true, quietNode 0) :=
      Prod.ext (by decide) rfl
    exact .start hstart (by decide)
  | succ nHeight ih =>
    refine .event (ih (by omega) fun n hn ↦ h n (by omega)) (fits_acceptBlock ?_)
      (h nHeight (by omega))
    exact List.mem_append_left _ (List.mem_map.mpr ⟨nHeight + 1, List.mem_range.mpr (by omega), rfl⟩)

theorem run_pooled (h : ∀ n < 12, Meets (quietNode n) (quietEvent (n + 1)))
    (hpooled : Meets (quietNode 12) (.acceptTx (envAt 1) pooledTx)) :
    NodeRun testNet disk genesis Meets pooled :=
  .event (run_quietNode le_rfl h) (BlockFiles.ReadsFrom.refl disk) hpooled

theorem keepsPoolClear_quiet (txs : Set CTransaction) : ∀ n < 12,
    KeepsPoolClear testNet txs (quietNode n) (quietEvent (n + 1)) := by
  have hcalls : ∀ n < 12, ConnectsPostponed testNet (quietNode n) (quietEvent (n + 1)) ∧
      ∀ call ∈ bestChainCall testNet (quietNode n) (quietEvent (n + 1)),
        ConnectsNoRival testNet call.env call.st call.block call.pindexNew := by decide +kernel
  exact fun n hn ↦ ⟨(hcalls n hn).1, (hcalls n hn).2, trivial⟩

theorem hashTx_injOn_insert : Set.InjOn testNet.hashTx (insert child txs) := by
  have hnames : ∀ block ∈ blocks.map (·.2.2), ∀ tx ∈ block.vtx, testNet.hashTx tx ≠ testNet.hashTx child := by
    decide +kernel
  have hnew : testNet.hashTx child ∉ testNet.hashTx '' txs := by
    rintro ⟨tx, ⟨block, hblock, htx⟩, heq⟩
    exact hnames block hblock tx htx heq
  exact (Set.injOn_insert fun hmem ↦ hnew ⟨child, hmem, rfl⟩).mpr ⟨hashTx_injOn, hnew⟩

theorem run_confirmed :
    NodeRun testNet disk genesis (KeepsPoolClear testNet (insert child txs)) confirmed := by
  have hpooled : pooledTx ∈ txs := ⟨confirming, by decide +kernel, by decide +kernel⟩
  have hcall : ConnectsPostponed testNet pooledTwo (.acceptBlock (envAt 14) confirming) ∧
      ∀ call ∈ bestChainCall testNet pooledTwo (.acceptBlock (envAt 14) confirming),
        ConnectsNoRival testNet call.env call.st call.block call.pindexNew := by decide +kernel
  have htwo : NodeRun testNet disk genesis (KeepsPoolClear testNet (insert child txs)) pooledTwo :=
    .event (run_pooled (keepsPoolClear_quiet _) (keepsPoolClear_acceptTx (.inr hpooled)))
      (BlockFiles.ReadsFrom.refl disk) (keepsPoolClear_acceptTx (.inl rfl))
  exact .event htwo (fits_acceptBlock (by decide +kernel)) ⟨hcall.1, hcall.2, trivial⟩

end PoolExample

open PoolExample in
theorem poolClear_example :
    confirmed.mempool.mapTx.lookup 62 = some child ∧
    ∃ chain, confirmed.pindexBest = pindexOf genesis chain ∧
      AcceptedBranch testNet disk genesis chain ∧
      ∀ hash tx, confirmed.mempool.mapTx.lookup hash = some tx → tx.isCoinBase = false ∧
        ∀ entry ∈ ledger chain, entry.1 ≠ tx ∧ testNet.hashTx entry.1 ≠ hash ∧
          ∀ prevout ∈ tx.vin.map CTxIn.prevout, prevout ∉ entry.1.spends :=
  ⟨by decide +kernel, poolClear_of_nodeRun hashTx_injOn_insert
    (acceptedTxs_subset.trans (Set.subset_insert child txs)) run_confirmed⟩

open PoolExample in
theorem not_poolClear_rivaled :
    NodeRun testNet disk genesis (fun _ _ ↦ True) rivaled ∧
      ¬ ∃ chain, rivaled.pindexBest = pindexOf genesis chain ∧
        AcceptedBranch testNet disk genesis chain ∧
        ∀ hash tx, rivaled.mempool.mapTx.lookup hash = some tx → tx.isCoinBase = false ∧
          ∀ entry ∈ ledger chain, entry.1 ≠ tx ∧ testNet.hashTx entry.1 ≠ hash ∧
            ∀ prevout ∈ tx.vin.map CTxIn.prevout, prevout ∉ entry.1.spends := by
  refine ⟨.event (run_pooled (fun _ _ ↦ trivial) trivial) (fits_acceptBlock (by decide +kernel)) trivial, ?_⟩
  rintro ⟨chain, hbest, haccepted, hclear⟩
  have hpool : rivaled.mempool.mapTx.lookup 60 = some pooledTx := by decide +kernel
  have hhead : rivaled.pindexBest.head?.map (fun index ↦ (index.nFile, index.nBlockPos)) =
      some (15, 8) := by decide +kernel
  cases chain with
  | nil =>
    rw [hbest] at hhead
    exact absurd hhead (by decide +kernel)
  | cons entry below =>
    obtain ⟨block, index⟩ := entry
    rw [hbest, pindexOf_cons, List.head?_cons, Option.map_some, Option.some.injEq] at hhead
    obtain ⟨hfile, hpos⟩ := Prod.mk.inj hhead
    -- the tip is the block with the rival
    have hread := haccepted.1.written.readBlock
    rw [hfile, hpos] at hread
    have hrivalRead := (writtenAt (15, 8, rival) (by decide +kernel)).readBlock
    obtain rfl : rival = block := Option.some.inj (hrivalRead.symm.trans hread)
    have htip : rival ∈ ((rival, index) :: below).map Prod.fst := List.mem_cons_self
    have hspend : payment 61 4200 ∈ rival.vtx := by decide
    obtain ⟨spender, hspender, heq⟩ := exists_mem_ledger htip hspend
    have hrival := ((hclear 60 pooledTx hpool).2 spender hspender).2.2 ⟨3, 0⟩ (by decide)
    rw [heq] at hrival
    exact hrival (by decide)

end Electra.Node
