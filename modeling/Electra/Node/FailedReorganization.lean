import Electra.Node.Reorganize

/-!
# What a failed reorganisation leaves as it was

A failed call keeps the tip, the links between the entries, the memory pool and all records of the
database but the trust of the best invalid chain.  Mint and supply are kept for the entries outside
the new branch.  Wallets are told of every block that was disconnected or connected on the way, and
nobody tells them otherwise afterwards.
-/

namespace Electra.Node

open Chain Ledger Foundations.Outcome Foundations.WriteBatch

section Failure

variable {P : ChainParams} {env : Env} {st st' st'' : NodeState}

/-- The memory of the node is as before, but for its wallets, for the trust of the best invalid
chain, and for the mint and supply of some entries. -/
structure Kept (st st' : NodeState) (touched : PIndex → Prop) : Prop where
  mapBlockIndex : st'.mapBlockIndex = st.mapBlockIndex
  pnext : st'.pnext = st.pnext
  pindexGenesisBlock : st'.pindexGenesisBlock = st.pindexGenesisBlock
  pindexBest : st'.pindexBest = st.pindexBest
  hashBestChain : st'.hashBestChain = st.hashBestChain
  nBestHeight : st'.nBestHeight = st.nBestHeight
  nBestChainTrust : st'.nBestChainTrust = st.nBestChainTrust
  mempool : st'.mempool = st.mempool
  nMint : ∀ pindex, ¬ touched pindex → st'.nMint pindex = st.nMint pindex
  nMoneySupply : ∀ pindex, ¬ touched pindex → st'.nMoneySupply pindex = st.nMoneySupply pindex

variable {touched touched' : PIndex → Prop}

theorem Kept.refl (st : NodeState) (touched : PIndex → Prop) : Kept st st touched :=
  ⟨rfl, rfl, rfl, rfl, rfl, rfl, rfl, rfl, fun _ _ ↦ rfl, fun _ _ ↦ rfl⟩

theorem Kept.trans (h : Kept st st' touched) (h' : Kept st' st'' touched) : Kept st st'' touched where
  mapBlockIndex := h'.mapBlockIndex.trans h.mapBlockIndex
  pnext := h'.pnext.trans h.pnext
  pindexGenesisBlock := h'.pindexGenesisBlock.trans h.pindexGenesisBlock
  pindexBest := h'.pindexBest.trans h.pindexBest
  hashBestChain := h'.hashBestChain.trans h.hashBestChain
  nBestHeight := h'.nBestHeight.trans h.nBestHeight
  nBestChainTrust := h'.nBestChainTrust.trans h.nBestChainTrust
  mempool := h'.mempool.trans h.mempool
  nMint pindex hpindex := (h'.nMint pindex hpindex).trans (h.nMint pindex hpindex)
  nMoneySupply pindex hpindex := (h'.nMoneySupply pindex hpindex).trans (h.nMoneySupply pindex hpindex)

theorem Kept.mono (h : Kept st st' touched) (hle : ∀ pindex, touched pindex → touched' pindex) :
    Kept st st' touched' :=
  ⟨h.mapBlockIndex, h.pnext, h.pindexGenesisBlock, h.pindexBest, h.hashBestChain, h.nBestHeight,
    h.nBestChainTrust, h.mempool, fun pindex hnot ↦ h.nMint pindex fun ht ↦ hnot (hle pindex ht),
    fun pindex hnot ↦ h.nMoneySupply pindex fun ht ↦ hnot (hle pindex ht)⟩

theorem kept_of_frame (h : NodeFrame st st')
    (hmint : ∀ pindex, ¬ touched pindex → st'.nMint pindex = st.nMint pindex)
    (hsupply : ∀ pindex, ¬ touched pindex → st'.nMoneySupply pindex = st.nMoneySupply pindex) :
    Kept st st' touched :=
  ⟨h.mapBlockIndex, h.pnext, h.pindexGenesisBlock, h.pindexBest, h.hashBestChain, h.nBestHeight,
    h.nBestChainTrust, h.mempool, hmint, hsupply⟩

/-- The database is no part of the memory. -/
theorem Kept.withTxDb (h : Kept st st' touched) (txdb : CTxDB) : Kept st { st' with txdb } touched :=
  ⟨h.mapBlockIndex, h.pnext, h.pindexGenesisBlock, h.pindexBest, h.hashBestChain, h.nBestHeight,
    h.nBestChainTrust, h.mempool, h.nMint, h.nMoneySupply⟩

theorem kept_of_interrupted (h : Interrupted st st') (touched : PIndex → Prop) :
    Kept st st' touched := by
  obtain ⟨txdb, rfl, -⟩ := h
  exact (Kept.refl st touched).withTxDb txdb

/-- Memory is kept and the writes so far are in the open batch. -/
def Pending (st st' : NodeState) (touched : PIndex → Prop) : Prop :=
  Kept st st' touched ∧ TxDbFrame st.txdb st'.txdb

variable {block : CBlock} {pindex pindexNew : PIndex}
  {progress progress' : NodeState × List CTransaction}

theorem pending_of_connectBlock (hpindex : touched pindex)
    (h : connectBlock P env st block pindex false = .ok st') : Pending st st' touched := by
  obtain ⟨sums, hconnects⟩ := connectBlock_eq_ok h
  refine ⟨kept_of_frame hconnects.frame ?_ ?_, hconnects.frame.txdb⟩
  · intro pindex' hnot
    have hne : pindex' ≠ pindex := fun heq ↦ hnot (heq ▸ hpindex)
    rw [hconnects.nMint, Function.update_of_ne hne]
  · intro pindex' hnot
    have hne : pindex' ≠ pindex := fun heq ↦ hnot (heq ▸ hpindex)
    rw [hconnects.nMoneySupply, Function.update_of_ne hne]

theorem Pending.trans (h : Pending st st' touched) (h' : Pending st' st'' touched) :
    Pending st st'' touched := ⟨h.1.trans h'.1, h.2.trans h'.2⟩

theorem Pending.disconnectTip (hpending : Pending st progress.1 touched)
    (h : disconnectTip P env progress pindex = .ok progress') : Pending st progress'.1 touched := by
  simp only [Chain.disconnectTip, bind_eq_ok, mapError_eq_ok, pure_eq_ok] at h
  obtain ⟨index, -, block, -, st₁, hdisconnect, rfl⟩ := h
  have hdisconnects := disconnectBlock_eq_ok hdisconnect
  refine hpending.trans ⟨kept_of_frame hdisconnects.frame ?_ ?_, hdisconnects.frame.txdb⟩
  · exact fun pindex' _ ↦ congrFun hdisconnects.nMint pindex'
  · exact fun pindex' _ ↦ congrFun hdisconnects.nMoneySupply pindex'

theorem Pending.connectNext (hpending : Pending st progress.1 touched) (hpindex : touched pindex)
    (h : connectNext P env progress pindex = .ok progress') : Pending st progress'.1 touched := by
  simp only [Chain.connectNext, bind_eq_ok, mapError_eq_ok, pure_eq_ok] at h
  obtain ⟨index, -, block, -, st₁, hconnect, rfl⟩ := h
  exact hpending.trans (pending_of_connectBlock hpindex hconnect)

/-- An entry of the new branch that is not on the old one. -/
def OnNewBranch (pindexBest pindexNew pindex : PIndex) : Prop :=
  pindex <:+ pindexNew ∧ ¬ pindex <:+ pindexBest

theorem onNewBranch_of_mem {pindexBest pfork : PIndex}
    (hfork : findFork pindexBest pindexNew = some pfork) (h : pindex ∈ branchFrom pfork pindexNew) :
    OnNewBranch pindexBest pindexNew pindex := by
  obtain ⟨hsuffix, hlength⟩ := mem_branchFrom h
  refine ⟨hsuffix, fun hold ↦ ?_⟩
  have hle := (suffix_findFork hfork hold hsuffix).length_le
  have hlt := hlength (findFork_suffix hfork).2
  omega

/-- Wherever a reorganisation fails, memory is kept and nothing was committed. -/
theorem reorganize_kept {failure : Reject × NodeState} (hopen : st.txdb.activeBatch ≠ none)
    (h : reorganize P env st pindexNew = .error failure) :
    Kept st failure.2 (OnNewBranch st.pindexBest pindexNew) ∧
      failure.2.txdb.pdb = st.txdb.pdb := by
  rcases reorganize_failures h with hsame | ⟨pfork, hfork, h⟩
  · rw [hsame]
    exact ⟨.refl _ _, rfl⟩
  · have hdown : ∀ (l : List PIndex) progress, l.foldlM (disconnectTip P env) (st, []) = .ok progress →
        Pending st progress.1 (OnNewBranch st.pindexBest pindexNew) := fun l progress hrun ↦
      foldlM_invariant (fun progress ↦ Pending st progress.1 _)
        (fun _ _ _ _ hinv hone ↦ hinv.disconnectTip hone) ⟨.refl _ _, .refl _⟩ hrun
    have hup : ∀ (l : List PIndex) (down up : NodeState × List CTransaction),
        (∀ pindex ∈ l, pindex ∈ branchFrom pfork pindexNew) →
        Pending st down.1 (OnNewBranch st.pindexBest pindexNew) →
        l.foldlM (connectNext P env) (down.1, []) = .ok up →
        Pending st up.1 (OnNewBranch st.pindexBest pindexNew) := fun l down up hl hinit hrun ↦
      foldlM_invariant (fun progress ↦ Pending st progress.1 _)
        (fun pindex hpindex _ _ hinv hone ↦
          hinv.connectNext (onNewBranch_of_mem hfork (hl pindex hpindex)) hone) hinit hrun
    rcases h with hfail | ⟨down, hrun, hfail | ⟨up, hrun', hcommitted⟩⟩
    · obtain ⟨pre, pindex, post, progress, -, hpre, hone⟩ := foldlM_eq_error hfail
      have hpending := hdown pre progress hpre
      have hinterrupted := disconnectTip_eq_error hone
      exact ⟨hpending.1.trans (kept_of_interrupted hinterrupted _),
        (hpending.2.trans hinterrupted.frame.txdb).pdb hopen⟩
    · obtain ⟨pre, pindex, post, progress, hsplit, hpre, hone⟩ := foldlM_eq_error hfail
      have hmem : ∀ pindex ∈ pre, pindex ∈ branchFrom pfork pindexNew := fun pindex hpindex ↦
        List.mem_reverse.mp (hsplit ▸ List.mem_append_left _ hpindex)
      have hpending := hup pre down progress hmem (hdown _ down hrun) hpre
      rw [connectNext_eq_error hone]
      exact ⟨hpending.1, hpending.2.pdb hopen⟩
    · have hpending := hup _ down up (fun _ ↦ List.mem_reverse.mp) (hdown _ down hrun) hrun'
      rw [hcommitted]
      exact ⟨hpending.1.withTxDb _,
        (pdb_not_committed (hpending.2.batch hopen) _).trans (hpending.2.pdb hopen)⟩

/-- The memory that failed calls keep, and every record but the trust of the best invalid chain. -/
structure KeptByFailure (st st' : NodeState) (pindexNew : PIndex) : Prop where
  memory : Kept st st' fun pindex ↦ pindex = pindexNew ∨ OnNewBranch st.pindexBest pindexNew pindex
  idle : st'.txdb.activeBatch = none
  records : ∀ key, key ≠ .bnBestInvalidTrust → st'.txdb.read key = st.txdb.read key

theorem keptByFailure_of_idle (hidle : st.txdb.activeBatch = none)
    (hmemory : Kept st st' fun pindex ↦ pindex = pindexNew ∨ OnNewBranch st.pindexBest pindexNew pindex)
    (hidle' : st'.txdb.activeBatch = none) (hpdb : st'.txdb.pdb = st.txdb.pdb) :
    KeptByFailure st st' pindexNew := by
  refine ⟨hmemory, hidle', fun key _ ↦ ?_⟩
  rw [Store.read_of_noBatch hidle, Store.read_of_noBatch hidle', hpdb]

/-- Noting an invalid chain writes one record. -/
theorem KeptByFailure.invalidChainFound (h : KeptByFailure st st' pindexNew) (pindexInvalid : PIndex) :
    KeptByFailure st (invalidChainFound st' pindexInvalid) pindexNew := by
  unfold Chain.invalidChainFound
  split
  · refine ⟨h.memory.trans ⟨rfl, rfl, rfl, rfl, rfl, rfl, rfl, rfl, fun _ _ ↦ rfl, fun _ _ ↦ rfl⟩, ?_, ?_⟩
    · simp [CTxDB.writeBestInvalidTrust, Store.put, h.idle]
    · intro key hkey
      simp only [CTxDB.writeBestInvalidTrust, Store.read_put]
      rw [Function.update_of_ne hkey, h.records key hkey]
  · exact h

theorem keptByFailure_of_abort (hidle : st.txdb.activeBatch = none)
    (hmemory : Kept st st' fun pindex ↦ pindex = pindexNew ∨ OnNewBranch st.pindexBest pindexNew pindex)
    (hpdb : st'.txdb.pdb = st.txdb.pdb) : KeptByFailure st (txnAbort st') pindexNew :=
  keptByFailure_of_idle hidle (hmemory.withTxDb _) rfl hpdb

theorem setBestChainInner_kept (hidle : st.txdb.activeBatch = none)
    (h : setBestChainInner P env (begun st) block pindexNew = (false, st')) :
    KeptByFailure st st' pindexNew := by
  rcases setBestChainInner_cases P env (begun st) block pindexNew with
    ⟨reject, -, heq⟩ | ⟨st₁, hconnect, heq | heq⟩
  · obtain ⟨-, rfl⟩ := Prod.mk.inj (heq.symm.trans h)
    exact (keptByFailure_of_abort hidle ((Kept.refl st _).withTxDb _) rfl).invalidChainFound _
  · cases (Prod.mk.inj (heq.symm.trans h)).1
  · obtain ⟨-, rfl⟩ := Prod.mk.inj (heq.symm.trans h)
    have hpending : Pending (begun st) st₁
        fun pindex ↦ pindex = pindexNew ∨ OnNewBranch st.pindexBest pindexNew pindex :=
      pending_of_connectBlock (.inl rfl) hconnect
    have hopen : (begun st).txdb.activeBatch ≠ none := by simp [begun]
    refine keptByFailure_of_idle hidle
      ((((Kept.refl st _).withTxDb _).trans hpending.1).withTxDb _) rfl ?_
    rw [pdb_not_committed (hpending.2.batch hopen), hpending.2.pdb hopen]
    rfl

theorem keptByFailure_of_reorganize {pindexIntermediate : PIndex} {failure : Reject × NodeState}
    (hidle : st.txdb.activeBatch = none) (hsuffix : pindexIntermediate <:+ pindexNew)
    (h : reorganize P env (begun st) pindexIntermediate = .error failure) :
    KeptByFailure st (txnAbort failure.2) pindexNew := by
  obtain ⟨hkept, hpdb⟩ := reorganize_kept (by simp [begun]) h
  have hbegun : Kept st (begun st) (OnNewBranch st.pindexBest pindexIntermediate) :=
    (Kept.refl st _).withTxDb _
  refine keptByFailure_of_abort hidle ((hbegun.trans hkept).mono ?_) (hpdb.trans rfl)
  exact fun pindex hnew ↦ .inr ⟨hnew.1.trans hsuffix, hnew.2⟩

theorem setBestChain_kept (hidle : st.txdb.activeBatch = none)
    (h : setBestChain P env st block pindexNew = (false, st')) : KeptByFailure st st' pindexNew := by
  have hmove : moveBestChain P env st block pindexNew = (false, st') := by
    unfold setBestChain at h
    split at h
    · next heq => rw [heq, (Prod.mk.inj h).2]
    · cases (Prod.mk.inj h).1
  rcases moveBestChain_cases P env st block pindexNew with
    ⟨-, -, heq | heq⟩ | ⟨-, ⟨-, heq⟩ | ⟨-, ⟨failure, hfail, heq⟩ | ⟨st₁, -, heq⟩⟩⟩
  · cases (Prod.mk.inj (heq.symm.trans hmove)).1
  · obtain ⟨-, rfl⟩ := Prod.mk.inj (heq.symm.trans hmove)
    have hopen : (begun st).txdb.activeBatch ≠ none := by simp [begun]
    have hbegun : ∀ touched, Kept st (begun st) touched := fun touched ↦
      (Kept.refl st touched).withTxDb _
    exact keptByFailure_of_idle hidle ((hbegun _).withTxDb _) rfl (pdb_not_committed hopen _)
  · exact setBestChainInner_kept hidle (heq.symm.trans hmove)
  · obtain ⟨-, rfl⟩ := Prod.mk.inj (heq.symm.trans hmove)
    exact (keptByFailure_of_reorganize hidle (splitSecondary_suffix _ _) hfail).invalidChainFound _
  · cases (Prod.mk.inj (heq.symm.trans hmove)).1

/-- A failed reorganisation that its caller aborts, and a failed `SetBestChain`, keep the tip, the
links, the pool, the records of the database but one, and mint and supply off the new branch. -/
theorem failedReorganization_kept (P : ChainParams) (env : Env) (st : NodeState) (pindexNew : PIndex)
    (hidle : st.txdb.activeBatch = none) :
    (∀ failure, reorganize P env (begun st) pindexNew = .error failure →
      KeptByFailure st (txnAbort failure.2) pindexNew) ∧
    ∀ block st', setBestChain P env st block pindexNew = (false, st') →
      KeptByFailure st st' pindexNew :=
  ⟨fun _ h ↦ keptByFailure_of_reorganize hidle (List.suffix_refl _) h,
    fun _ _ h ↦ setBestChain_kept hidle h⟩

/-- Wallets, block index, tip, pool and database are exactly as before. -/
structure Unchanged (st st' : NodeState) : Prop where
  wallets : st'.setpwalletRegistered.map CWallet.mapWallet =
    st.setpwalletRegistered.map CWallet.mapWallet
  pnext : st'.pnext = st.pnext
  nMint : st'.nMint = st.nMint
  nMoneySupply : st'.nMoneySupply = st.nMoneySupply
  hashBestChain : st'.hashBestChain = st.hashBestChain
  nBestHeight : st'.nBestHeight = st.nBestHeight
  mempool : st'.mempool = st.mempool
  records : st'.txdb.read = st.txdb.read

end Failure

namespace FailureExample

open Builders

def testNet : ChainParams := network true

/-- The tip: its coinstake spends the large subsidy of block 2. -/
def staked : CBlock := blockOf testNet 12 11 3900 (easiestBits testNet)
  [coinbase 13 3900 12 [⟨0, []⟩], coinstake 50 3900 [⟨3, 0⟩] (1000000019 * COIN)]

def rival : CBlock := blockOf testNet 112 11 3900 (easiestBits testNet)
  [coinbase 113 3900 12 [output (1000 * COIN)]]

/-- This block pays itself twice the subsidy. -/
def greedy : CBlock := blockOf testNet 113 112 4200 (easiestBits testNet)
  [coinbase 114 4200 13 [output (2000 * COIN)]]

def env : Env := surroundings
  (filesOf (quietFiles testNet 12 ++ [(13, 8, staked), (14, 8, rival), (15, 8, greedy)])) 5000

def pindexStaked : PIndex := Builders.indexOf testNet staked 13 8 :: quietIndex testNet 12

def pindexRival : PIndex := Builders.indexOf testNet rival 14 8 :: quietIndex testNet 12

def pindexGreedy : PIndex := Builders.indexOf testNet greedy 15 8 :: pindexRival

/-- The wallet that holds the large subsidy. -/
def wallet : CWallet where
  isMine script := script == payTo 1
  nMinimumInputValue := COIN
  mapWallet := Function.update (fun _ ↦ none) 3 (((quietBlock testNet 2).vtx.head?).map fun tx ↦
    { toCTransaction := tx, hashBlock := 2, vMerkleBranch := [], nIndex := 0, fFromMe := false,
      vfSpent := [false] })

def below : NodeState :=
  { nodeAt (quietIndex testNet 12) (txdbOf (quietRecords 12)) with setpwalletRegistered := [wallet] }

/-- The node whose tip is the staked block. -/
def node : NodeState :=
  { connected testNet env below staked pindexStaked with
    pindexBest := pindexStaked
    hashBestChain := 12
    nBestHeight := 12
    nBestChainTrust := pindexStaked.nChainTrust }

def spentFlags (st : NodeState) : List (Option (List Bool)) :=
  st.setpwalletRegistered.map fun wallet ↦ (wallet.mapWallet 3).map CWalletTx.vfSpent

end FailureExample

open FailureExample in
theorem failedReorganization_kept_example :
    (∀ failure, reorganize testNet env (begun node) pindexGreedy = .error failure →
      KeptByFailure node (txnAbort failure.2) pindexGreedy) ∧
    ∀ block st', setBestChain testNet env node block pindexGreedy = (false, st') →
      KeptByFailure node st' pindexGreedy :=
  failedReorganization_kept testNet env node pindexGreedy (by decide)

open FailureExample in
theorem failedReorganization_changes :
    (setBestChain testNet env node greedy pindexGreedy).1 = false ∧
      spentFlags node = [some [true]] ∧
      spentFlags (setBestChain testNet env node greedy pindexGreedy).2 = [some [false]] ∧
      (setBestChain testNet env node greedy pindexGreedy).2.txdb.read .bnBestInvalidTrust ≠
        node.txdb.read .bnBestInvalidTrust ∧
      ¬ Unchanged node (setBestChain testNet env node greedy pindexGreedy).2 := by
  refine ⟨by decide, by decide, by decide, by decide, ?_⟩
  intro h
  have hmint : (setBestChain testNet env node greedy pindexGreedy).2.nMint pindexRival ≠
      node.nMint pindexRival := by decide
  exact hmint (congrFun h.nMint pindexRival)

end Electra.Node
