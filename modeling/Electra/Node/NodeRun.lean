import Electra.Node.MoveBestChain

/-!
# Runs of a node

An accepted block enters the block index.  If it has more trust than the tip, `SetBestChain` is
called for it; a checkpoint calls it for an entry that is already there.

A run starts with the genesis block and takes one event after the other; its calls of
`SetBestChain` may be asked to meet a condition.  If they all connect their postponed blocks, the
invariant of the node holds throughout.
-/

namespace Electra.Node

open Chain Ledger Foundations.Outcome Foundations.WriteBatch

section

variable (P : ChainParams)

/-- The arguments of a call of `SetBestChain`. -/
structure BestChainCall where
  env : Env
  st : NodeState
  block : CBlock
  pindexNew : PIndex

/-- The node after the call. -/
def BestChainCall.result (call : BestChainCall) : NodeState :=
  (setBestChain P call.env call.st call.block call.pindexNew).2

/-- The index entry on its parent that a block gets if `AcceptBlock` takes it. -/
def acceptedEntry (env : Env) (st : NodeState) (block : CBlock) : Option PIndex :=
  match st.mapBlockIndex (block.getHash P), st.mapBlockIndex block.hashPrevBlock, env.written,
    env.stakeModifier with
  | none, some pindexPrev, some (nFile, nBlockPos), some stakeModifier =>
      match acceptBlockChecks P env st.nBestHeight pindexPrev block with
      | .ok _ => some (newBlockIndex P block nFile nBlockPos
          (if block.isProofOfStake then env.hashProofOfStake.getD 0 else 0) stakeModifier :: pindexPrev)
      | .error _ => none
  | _, _, _, _ => none

/-- The call of `SetBestChain` that an event leads to. -/
def bestChainCall (st : NodeState) : NodeEvent → Option BestChainCall
  | .acceptBlock env block =>
      match acceptedEntry P env st block with
      | none => none
      | some pindexNew =>
          match indexNewBlock env st pindexNew with
          | (true, st) =>
              if pindexNew.nChainTrust > st.nBestChainTrust then some ⟨env, st, block, pindexNew⟩ else none
          | (false, _) => none
  | .setBestChain _ [] => none
  | .setBestChain env (index :: pprev) =>
      if isInMainChain st (index :: pprev) then none
      else
        match readFromDisk P env.files index with
        | .ok block => some ⟨env, st, block, index :: pprev⟩
        | .error _ => none
  | .acceptTx _ _ => none
  | .removeTx _ _ => none

variable {P} {env : Env} {st : NodeState} {block : CBlock} {event : NodeEvent} {call : BestChainCall}

/-- What `AcceptBlock` does with a block. -/
theorem acceptBlock_eq (P : ChainParams) (env : Env) (st : NodeState) (block : CBlock) :
    acceptBlock P env st block =
      match acceptedEntry P env st block with
      | none => (false, st)
      | some pindexNew =>
          match bestChainCall P st (.acceptBlock env block) with
          | some call => setBestChain P call.env call.st call.block call.pindexNew
          | none => indexNewBlock env st pindexNew := by
  simp only [acceptBlock, acceptedEntry, bestChainCall, addToBlockIndex]
  cases hnew : st.mapBlockIndex (block.getHash P) with
  | some pindex => rfl
  | none =>
    cases hprev : st.mapBlockIndex block.hashPrevBlock with
    | none => rfl
    | some pindexPrev =>
      simp only [Option.isSome_none, Bool.false_eq_true, if_false, Option.getD_some]
      cases hchecks : acceptBlockChecks P env st.nBestHeight pindexPrev block with
      | error reject => cases env.written <;> cases env.stakeModifier <;> simp [hchecks]
      | ok u =>
        cases env.written with
        | none => rfl
        | some position =>
          obtain ⟨nFile, nBlockPos⟩ := position
          cases env.stakeModifier with
          | none => rfl
          | some stakeModifier =>
            simp only [hchecks]
            generalize newBlockIndex P block nFile nBlockPos
              (if block.isProofOfStake then env.hashProofOfStake.getD 0 else 0) stakeModifier ::
                pindexPrev = pindexNew
            cases hindex : indexNewBlock env st pindexNew with
            | mk fOk st₁ =>
              cases fOk with
              | false => rfl
              | true =>
                simp only
                split <;> rfl

theorem setBestChainTo_eq (P : ChainParams) (env : Env) (st : NodeState) (pindex : PIndex) :
    setBestChainTo P env st pindex =
      match bestChainCall P st (.setBestChain env pindex) with
      | some call => call.result P
      | none => st := by
  cases pindex with
  | nil => rfl
  | cons index pprev =>
    simp only [setBestChainTo, bestChainCall]
    split
    · rfl
    · cases readFromDisk P env.files index <;> rfl

/-- An event that calls `SetBestChain` ends with that call. -/
theorem handleEvent_of_call (h : bestChainCall P st event = some call) :
    handleEvent P st event = call.result P := by
  cases event with
  | acceptBlock env block =>
    rw [handleEvent, acceptBlock_eq, h]
    simp only [bestChainCall] at h
    cases hentry : acceptedEntry P env st block with
    | none => rw [hentry] at h; cases h
    | some pindexNew => rfl
  | setBestChain env pindex => rw [handleEvent, setBestChainTo_eq, h]
  | acceptTx env tx => cases h
  | removeTx tx fRecursive => cases h

/-- The pool after an event that does not call `SetBestChain`. -/
def poolAfter (P : ChainParams) (st : NodeState) : NodeEvent → CTxMemPool
  | .acceptBlock _ _ => st.mempool
  | .setBestChain _ _ => st.mempool
  | .acceptTx env tx => (acceptToMemoryPool P env st tx).mempool
  | .removeTx tx fRecursive => st.mempool.remove P tx fRecursive

/-- An event that does not call `SetBestChain` changes the pool or enters a block into the index. -/
theorem handleEvent_of_noCall (h : bestChainCall P st event = none) :
    handleEvent P st event = { st with mempool := poolAfter P st event } ∨
      ∃ env block pindexNew, event = .acceptBlock env block ∧
        acceptedEntry P env st block = some pindexNew ∧
        handleEvent P st event = (indexNewBlock env st pindexNew).2 := by
  cases event with
  | acceptBlock env block =>
    rw [handleEvent, acceptBlock_eq, h]
    cases hentry : acceptedEntry P env st block with
    | none => exact .inl rfl
    | some pindexNew => exact .inr ⟨env, block, pindexNew, rfl, hentry, rfl⟩
  | setBestChain env pindex =>
    rw [handleEvent, setBestChainTo_eq, h]
    exact .inl rfl
  | acceptTx env tx =>
    left
    rw [handleEvent, poolAfter, acceptToMemoryPool]
    split <;> rfl
  | removeTx tx fRecursive => exact .inl rfl

/-- The call that an accepted block leads to. -/
theorem bestChainCall_acceptBlock (h : bestChainCall P st (.acceptBlock env block) = some call) :
    ∃ pindexNew, acceptedEntry P env st block = some pindexNew ∧
      call = ⟨env, (indexNewBlock env st pindexNew).2, block, pindexNew⟩ := by
  simp only [bestChainCall] at h
  cases hentry : acceptedEntry P env st block with
  | none => rw [hentry] at h; cases h
  | some pindexNew =>
    rw [hentry] at h
    refine ⟨pindexNew, rfl, ?_⟩
    cases hindex : indexNewBlock env st pindexNew with
    | mk fOk st₁ =>
      simp only [hindex] at h
      cases fOk with
      | false => cases h
      | true =>
        simp only [Option.ite_none_right_eq_some, Option.some.injEq] at h
        exact h.2.symm

/-- The call that a checkpoint leads to. -/
theorem bestChainCall_setBestChain {pindex : PIndex}
    (h : bestChainCall P st (.setBestChain env pindex) = some call) :
    ∃ index block pprev, pindex = index :: pprev ∧ isInMainChain st pindex = false ∧
      readFromDisk P env.files index = .ok block ∧ call = ⟨env, st, block, pindex⟩ := by
  cases pindex with
  | nil => cases h
  | cons index pprev =>
    simp only [bestChainCall, Option.ite_none_left_eq_some] at h
    obtain ⟨hmain, h⟩ := h
    cases hread : readFromDisk P env.files index with
    | error reject => rw [hread] at h; cases h
    | ok block =>
      rw [hread] at h
      exact ⟨index, block, pprev, rfl, by simpa using hmain, hread, (Option.some.inj h).symm⟩

/-- Nothing happens to the pool before the call. -/
theorem mempool_of_bestChainCall (h : bestChainCall P st event = some call) :
    call.st.mempool = st.mempool := by
  cases event with
  | acceptBlock env block =>
    obtain ⟨pindexNew, -, rfl⟩ := bestChainCall_acceptBlock h
    cases pindexNew <;> rfl
  | setBestChain env pindex =>
    obtain ⟨index, block, pprev, -, -, -, rfl⟩ := bestChainCall_setBestChain h
    rfl
  | acceptTx env tx => cases h
  | removeTx tx fRecursive => cases h

/-- What acceptance of a block establishes. -/
theorem acceptedEntry_eq_some {pindexNew : PIndex} (h : acceptedEntry P env st block = some pindexNew) :
    ∃ index pindexPrev, pindexNew = index :: pindexPrev ∧
      st.mapBlockIndex (block.getHash P) = none ∧
      st.mapBlockIndex block.hashPrevBlock = some pindexPrev ∧
      acceptBlockChecks P env st.nBestHeight pindexPrev block = .ok () ∧
      env.written = some (index.nFile, index.nBlockPos) ∧
      ∃ hashProofOfStake stakeModifier,
        index = newBlockIndex P block index.nFile index.nBlockPos hashProofOfStake stakeModifier := by
  unfold acceptedEntry at h
  split at h
  · next pindexPrev nFile nBlockPos stakeModifier hnew hprev hwritten hmodifier =>
    split at h
    · next u hchecks =>
      obtain rfl := Option.some.inj h
      exact ⟨_, pindexPrev, rfl, hnew, hprev, hchecks, hwritten, _, _, rfl⟩
    · cases h
  · cases h

end

open Foundations.SpendIndex

/-- The event takes place on the disk of the node. -/
def Fits (disk : BlockFiles) (st : NodeState) : NodeEvent → Prop
  | .acceptBlock env block => env.files.ReadsFrom disk ∧
      ∀ nFile nBlockPos, env.written = some (nFile, nBlockPos) → WrittenAt disk nFile nBlockPos block
  | .setBestChain env pindex => env.files.ReadsFrom disk ∧ ∃ hash, st.mapBlockIndex hash = some pindex
  | .acceptTx env _ => env.files.ReadsFrom disk
  | .removeTx _ _ => True

variable {block : CBlock} {nFile nBlockPos : ℕ} {event : NodeEvent}

theorem fits_of_writtenAt {disk : BlockFiles} {st : NodeState} {env : Env} (hfiles : env.files = disk)
    (hpos : env.written = some (nFile, nBlockPos)) (hwritten : WrittenAt disk nFile nBlockPos block) :
    Fits disk st (.acceptBlock env block) := by
  refine ⟨hfiles ▸ .refl disk, fun nFile' nBlockPos' heq ↦ ?_⟩
  obtain ⟨rfl, rfl⟩ := Prod.mk.inj (Option.some.inj (hpos.symm.trans heq))
  exact hwritten

/-- The nodes that a run leads to if its events meet a condition. -/
inductive NodeRun (P : ChainParams) (disk : BlockFiles) (genesis : CBlockIndex)
    (Meets : NodeState → NodeEvent → Prop) : NodeState → Prop
  | start {env : Env} {setpwalletRegistered : List CWallet} {block : CBlock} {nFile nBlockPos : ℕ}
      {st : NodeState}
      (run : startNode P env setpwalletRegistered block nFile nBlockPos = (true, st))
      (started : st.pindexGenesisBlock = [genesis]) :
      NodeRun P disk genesis Meets st
  | event {st : NodeState} {event : NodeEvent} (run : NodeRun P disk genesis Meets st)
      (fits : Fits disk st event)
      (meets : Meets st event) :
      NodeRun P disk genesis Meets (handleEvent P st event)

/-- If the event calls `SetBestChain`, the postponed blocks of the call connect. -/
def ConnectsPostponed (P : ChainParams) (st : NodeState) (event : NodeEvent) : Prop :=
  ∀ call ∈ bestChainCall P st event, PostponedConnect P call.env call.st call.block call.pindexNew

instance (P : ChainParams) (st : NodeState) (event : NodeEvent) :
    Decidable (ConnectsPostponed P st event) :=
  inferInstanceAs (Decidable (∀ call ∈ bestChainCall P st event,
    PostponedConnect P call.env call.st call.block call.pindexNew))

variable {P : ChainParams} {disk : BlockFiles} {genesis : CBlockIndex} {env : Env} {st st' : NodeState}
  {chain : Branch}

section IndexNewBlock

variable {block : CBlock} {index : CBlockIndex} {pprev : PIndex}

/-- Committing an index entry leaves all other records. -/
theorem read_indexCommitted {txdb : CTxDB} (hidle : txdb.activeBatch = none)
    (blockindex : CDiskBlockIndex) (fCommitted : Bool) {key : TxDbKey}
    (hkey : key ≠ .blockindex blockindex.index.phashBlock) :
    ((CTxDB.writeBlockIndex txdb.txnBegin blockindex).txnCommit fCommitted).2.read key =
      txdb.read key := by
  have hopen : (CTxDB.writeBlockIndex txdb.txnBegin blockindex).activeBatch ≠ none :=
    Store.activeBatch_put_of_batch (by simp) _ _
  rw [Store.read_of_noBatch rfl, Store.read_of_noBatch hidle]
  cases fCommitted with
  | false =>
    rw [Store.pdb_txnCommit_false, CTxDB.writeBlockIndex, Store.pdb_put_of_batch (by simp)]
    rfl
  | true =>
    rw [Store.pdb_txnCommit_true hopen, CTxDB.writeBlockIndex, Store.read_put,
      Function.update_of_ne hkey, Store.read_txnBegin]

/-- The node with a new entry in its index. -/
theorem indexNewBlock_snd (env : Env) (st : NodeState) (index : CBlockIndex) (pprev : PIndex) :
    ∃ blockindex, (indexNewBlock env st (index :: pprev)).2 =
      { insertBlockIndex st (index :: pprev) with
        txdb := ((CTxDB.writeBlockIndex st.txdb.txnBegin blockindex).txnCommit env.fIndexCommitted).2 } :=
  ⟨_, rfl⟩

theorem Indexed.insert (h : Indexed P disk genesis st) {below : Branch}
    (hnew : st.mapBlockIndex index.phashBlock = none)
    (hprev : st.mapBlockIndex pprev.getBlockHash = some pprev)
    (haccepted : AcceptedBranch P disk genesis ((block, index) :: below))
    (hbelow : pprev = pindexOf genesis below) :
    Indexed P disk genesis (insertBlockIndex st (index :: pprev)) := by
  have hupdate : (insertBlockIndex st (index :: pprev)).mapBlockIndex =
      Function.update st.mapBlockIndex index.phashBlock (some (index :: pprev)) := rfl
  refine ⟨?_, ?_, ?_, h.started⟩
  · intro hash pindex hpindex
    rw [hupdate] at hpindex
    by_cases heq : hash = index.phashBlock
    · rw [heq, Function.update_self, Option.some.injEq] at hpindex
      rw [heq, ← hpindex]
      rfl
    · rw [Function.update_of_ne heq] at hpindex
      exact h.hash hash pindex hpindex
  · intro hash pindex hpindex
    rw [hupdate] at hpindex
    by_cases heq : hash = index.phashBlock
    · rw [heq, Function.update_self, Option.some.injEq] at hpindex
      exact ⟨_, haccepted, by rw [← hpindex, hbelow, pindexOf_cons]⟩
    · rw [Function.update_of_ne heq] at hpindex
      exact h.branch hash pindex hpindex
  · intro hash index' pprev' hpindex hne
    have hstays : ∀ pindex : PIndex, st.mapBlockIndex pindex.getBlockHash = some pindex →
        (insertBlockIndex st (index :: pprev)).mapBlockIndex pindex.getBlockHash = some pindex := by
      intro pindex hold
      rw [hupdate, Function.update_of_ne, hold]
      intro hhash
      rw [hhash, hnew] at hold
      cases hold
    rw [hupdate] at hpindex
    by_cases heq : hash = index.phashBlock
    · rw [heq, Function.update_self, Option.some.injEq] at hpindex
      obtain ⟨-, rfl⟩ := List.cons.inj hpindex
      exact hstays _ hprev
    · rw [Function.update_of_ne heq] at hpindex
      exact hstays _ (h.parent hash index' pprev' hpindex hne)

/-- A block outside the index is no ancestor of the tip, so it has no link. -/
theorem linksTo_of_new (h : NodeInv P disk genesis st chain)
    (hnew : st.mapBlockIndex index.phashBlock = none) :
    linksTo (pindexOf genesis chain) (index :: pprev) = none := by
  refine linksTo_eq_none fun hsuffix ↦ ?_
  have hindexed := h.indexed.ancestor h.atTip.indexed hsuffix (List.cons_ne_nil _ _)
  rw [show PIndex.getBlockHash (index :: pprev) = index.phashBlock from rfl, hnew] at hindexed
  cases hindexed

/-- Entering an accepted block keeps the invariant. -/
theorem NodeInv.indexNewBlock (h : NodeInv P disk genesis st chain) {below : Branch}
    (hnew : st.mapBlockIndex index.phashBlock = none)
    (hprev : st.mapBlockIndex (pindexOf genesis below).getBlockHash = some (pindexOf genesis below))
    (haccepted : AcceptedBranch P disk genesis ((block, index) :: below)) :
    NodeInv P disk genesis (Chain.indexNewBlock env st (index :: pindexOf genesis below)).2 chain := by
  obtain ⟨blockindex, heq⟩ := indexNewBlock_snd env st index (pindexOf genesis below)
  have hread : ∀ key, (∀ hash, key ≠ .blockindex hash) →
      (Chain.indexNewBlock env st (index :: pindexOf genesis below)).2.txdb.read key =
        st.txdb.read key := by
    intro key hkey
    rw [heq]
    exact read_indexCommitted h.onBranch.idle blockindex _ (hkey _)
  refine ⟨?_, ⟨heq ▸ rfl, ?_, ?_, ?_⟩, ?_⟩
  · rw [heq]
    exact (h.indexed.insert hnew hprev haccepted rfl).congr rfl rfl
  · have hindex : (Chain.indexNewBlock env st (index :: pindexOf genesis below)).2.txdb.readTxIndex =
        st.txdb.readTxIndex := by
      funext hash
      rw [CTxDB.readTxIndex, CTxDB.readTxIndex, hread _ (by simp)]
    rw [hindex]
    exact h.onBranch.run
  · rw [readHashBestChain_congr (hread _ (by simp))]
    exact h.onBranch.stored
  · have hlinks : (Chain.indexNewBlock env st (index :: pindexOf genesis below)).2.pnext =
        Function.update st.pnext (index :: pindexOf genesis below) none := rfl
    rw [hlinks, h.onBranch.links, ← linksTo_of_new h hnew, Function.update_eq_self]
  · refine ⟨h.atTip.pindexBest, h.atTip.hashBestChain, h.atTip.nBestHeight, ?_⟩
    have hmap : (Chain.indexNewBlock env st (index :: pindexOf genesis below)).2.mapBlockIndex =
        Function.update st.mapBlockIndex index.phashBlock (some (index :: pindexOf genesis below)) := rfl
    rw [hmap, Function.update_of_ne, h.atTip.indexed]
    intro hhash
    have hindexed := h.atTip.indexed
    rw [hhash, hnew] at hindexed
    cases hindexed

end IndexNewBlock

/-- An accepted block with its entry extends a branch of the index. -/
theorem exists_acceptedBranch (h : Indexed P disk genesis st) {pindexNew : PIndex}
    (hfits : Fits disk st (.acceptBlock env block))
    (hentry : acceptedEntry P env st block = some pindexNew) :
    ∃ index below, pindexNew = index :: pindexOf genesis below ∧
      st.mapBlockIndex index.phashBlock = none ∧
      st.mapBlockIndex (pindexOf genesis below).getBlockHash = some (pindexOf genesis below) ∧
      AcceptedBranch P disk genesis ((block, index) :: below) := by
  obtain ⟨index, pindexPrev, rfl, hnew, hprev, hchecks, hwritten, hashProofOfStake, stakeModifier,
    hindex⟩ := acceptedEntry_eq_some hentry
  obtain ⟨below, haccepted, rfl⟩ := h.branch _ _ hprev
  have hhash := h.hash _ _ hprev
  refine ⟨index, below, rfl, ?_, hhash ▸ hprev, ⟨?_, haccepted⟩⟩
  · rw [hindex]
    exact hnew
  · exact ⟨hhash.symm, ⟨env, st.nBestHeight, hchecks⟩, ⟨hashProofOfStake, stakeModifier, hindex⟩,
      hfits.2 _ _ hwritten⟩

theorem NodeInv.isInMainChain_genesis (h : NodeInv P disk genesis st chain) :
    isInMainChain st [genesis] = true := by
  rw [isInMainChain, Bool.or_eq_true, beq_iff_eq, h.atTip.pindexBest, h.onBranch.links]
  rcases List.eq_nil_or_concat chain with rfl | ⟨rest, entry, rfl⟩
  · exact .inr rfl
  · left
    have hnext : linksTo (pindexOf genesis (rest ++ [entry])) [genesis] = some [entry.2, genesis] := by
      refine linksTo_eq_some_iff.mpr ⟨⟨rest.map Prod.snd, ?_⟩, rfl, List.cons_ne_nil _ _⟩
      simp [pindexOf]
    rw [List.concat_eq_append, hnext]
    rfl

/-- The call of an event is for a block of the index, in a node that is as before but for it. -/
theorem exists_callFits (h : NodeInv P disk genesis st chain) {call : BestChainCall}
    (hfits : Fits disk st event) (hcall : bestChainCall P st event = some call) :
    NodeInv P disk genesis call.st chain ∧ ∃ index below,
      call.pindexNew = index :: pindexOf genesis below ∧
        CallFits P disk genesis call.env call.st call.block index below := by
  cases event with
  | acceptBlock env block =>
    obtain ⟨pindexNew, hentry, rfl⟩ := bestChainCall_acceptBlock hcall
    obtain ⟨index, below, rfl, hnew, hprev, haccepted⟩ := exists_acceptedBranch h.indexed hfits hentry
    refine ⟨h.indexNewBlock hnew hprev haccepted, index, below, rfl, hfits.1, haccepted, ?_⟩
    exact Function.update_self _ _ _
  | setBestChain env pindex =>
    obtain ⟨hfiles, hash, hpindex⟩ := hfits
    obtain ⟨index, block, pprev, rfl, hmain, hread, rfl⟩ := bestChainCall_setBestChain hcall
    obtain ⟨branch, haccepted, heq⟩ := h.indexed.branch hash _ hpindex
    cases branch with
    | nil =>
      obtain ⟨rfl, rfl⟩ := List.cons.inj heq
      rw [h.isInMainChain_genesis] at hmain
      cases hmain
    | cons entry below =>
      obtain ⟨block', index'⟩ := entry
      obtain ⟨rfl, rfl⟩ := List.cons.inj heq
      obtain rfl := readFromDisk_accepted hfiles haccepted.1 hread
      refine ⟨h, index, below, rfl, hfiles, haccepted, ?_⟩
      have hhash := h.indexed.hash hash _ hpindex
      rw [← hhash] at hpindex
      exact hpindex
  | acceptTx env tx => cases hcall
  | removeTx tx fRecursive => cases hcall

/-- A call whose postponed blocks connect keeps the invariant. -/
theorem NodeInv.setBestChain (h : NodeInv P disk genesis st chain) {index : CBlockIndex}
    {below : Branch} (fits : CallFits P disk genesis env st block index below)
    (hconnect : PostponedConnect P env st block (index :: pindexOf genesis below)) :
    NodeInv P disk genesis (Chain.setBestChain P env st block (index :: pindexOf genesis below)).2
      (if (moveBestChain P env st block (index :: pindexOf genesis below)).1 then
        (block, index) :: below else chain) := by
  rw [setBestChain_eq]
  obtain ⟨hsame, ⟨hmove, hbranch, -⟩ | ⟨hmove, rest, done, hsplit, hbranch, hall⟩⟩ :=
    moveBestChain_inv h fits
  · rw [hmove]
    exact ⟨h.indexed.congr hsame.mapBlockIndex hsame.pindexGenesisBlock, hbranch,
      h.atTip.congr hsame.mapBlockIndex hsame.pindexBest hsame.hashBestChain hsame.nBestHeight⟩
  · rw [hmove]
    obtain rfl := hall.mpr hconnect
    obtain rfl : (block, index) :: below = done := hsplit
    refine ⟨h.indexed.congr hsame.mapBlockIndex hsame.pindexGenesisBlock,
      hbranch.congr rfl rfl, rfl, fits.accepted.1.getHash, rfl, ?_⟩
    exact (congrFun hsame.mapBlockIndex _).trans fits.indexed

/-- An event without a call keeps the branch. -/
theorem NodeInv.handleEvent_of_noCall (h : NodeInv P disk genesis st chain) (hfits : Fits disk st event)
    (hcall : bestChainCall P st event = none) :
    NodeInv P disk genesis (handleEvent P st event) chain := by
  rcases Node.handleEvent_of_noCall hcall with heq | ⟨env, block, pindexNew, rfl, hentry, heq⟩
  · rw [heq]
    exact ⟨h.indexed.congr rfl rfl, h.onBranch.congr rfl rfl, h.atTip.congr rfl rfl rfl rfl⟩
  · obtain ⟨index, below, rfl, hnew, hprev, haccepted⟩ := exists_acceptedBranch h.indexed hfits hentry
    rw [heq]
    exact h.indexNewBlock hnew hprev haccepted

theorem NodeInv.handleEvent (h : NodeInv P disk genesis st chain) (hfits : Fits disk st event)
    (hconnect : ConnectsPostponed P st event) :
    ∃ chain', NodeInv P disk genesis (Chain.handleEvent P st event) chain' := by
  cases hcall : bestChainCall P st event with
  | some call =>
    have hpostponed := hconnect call hcall
    obtain ⟨hinv, index, below, hindex, fits⟩ := exists_callFits h hfits hcall
    rw [hindex] at hpostponed
    rw [handleEvent_of_call hcall, BestChainCall.result, hindex]
    exact ⟨_, hinv.setBestChain fits hpostponed⟩
  | none => exact ⟨chain, h.handleEvent_of_noCall hfits hcall⟩

/-- The node that has only entered its genesis block. -/
def genesisIndexed (env : Env) (setpwalletRegistered : List CWallet) (genesis : CBlockIndex) :
    NodeState :=
  (indexNewBlock env (emptyNode setpwalletRegistered) [genesis]).2

/-- A node starts by storing its genesis block as the best one. -/
theorem startNode_eq {setpwalletRegistered : List CWallet}
    (h : startNode P env setpwalletRegistered block nFile nBlockPos = (true, st))
    (hstarted : st.pindexGenesisBlock = [genesis]) :
    block.getHash P = genesis.phashBlock ∧ genesis.phashBlock = P.genesisHash ∧
      st = tipSet P (startedAt (begun (genesisIndexed env setpwalletRegistered genesis))
        (block.getHash P) [genesis]) block [genesis] := by
  have hempty : (emptyNode setpwalletRegistered).mapBlockIndex = fun _ ↦ none := rfl
  simp only [startNode, addToBlockIndex, hempty, Option.isSome_none, Bool.false_eq_true, if_false,
    Option.getD_none] at h
  generalize (0 : Uint256) = hashProofOfStake at h
  cases hmodifier : env.stakeModifier with
  | none => simp [hmodifier] at h
  | some stakeModifier =>
    simp only [hmodifier] at h
    cases hindex : indexNewBlock env (emptyNode setpwalletRegistered)
        [newBlockIndex P block nFile nBlockPos hashProofOfStake stakeModifier] with
    | mk fOk st₁ =>
      have hst₁ : st₁.pindexGenesisBlock = [] ∧ st₁.pindexBest = [] := by
        obtain rfl : _ = st₁ := congrArg Prod.snd hindex
        exact ⟨rfl, rfl⟩
      cases fOk with
      | false => simp [hindex] at h
      | true =>
        simp only [hindex] at h
        split at h
        · rw [setBestChain_eq] at h
          obtain ⟨hmove, hst⟩ := Prod.mk.inj h
          rw [if_pos hmove] at hst
          rcases moveBestChain_cases P env st₁ block
            [newBlockIndex P block nFile nBlockPos hashProofOfStake stakeModifier] with
            ⟨-, hhash, heq | heq⟩ | ⟨-, ⟨-, heq⟩ | ⟨-, ⟨failure, hfail, heq⟩ | ⟨st₂, hok, heq⟩⟩⟩
          · rw [heq] at hst
            subst hst
            obtain rfl : newBlockIndex P block nFile nBlockPos hashProofOfStake stakeModifier = genesis :=
              List.head_eq_of_cons_eq hstarted
            refine ⟨rfl, hhash, ?_⟩
            rw [genesisIndexed, hindex]
          · simp [heq] at hmove
          · have hsame := sameTip_setBestChainInner P env (begun st₁) block
              [newBlockIndex P block nFile nBlockPos hashProofOfStake stakeModifier]
            rw [heq] at hst
            subst hst
            rw [show (tipSet P _ block _).pindexGenesisBlock = _ from hsame.pindexGenesisBlock,
              show (begun st₁).pindexGenesisBlock = [] from hst₁.1] at hstarted
            cases hstarted
          · simp [heq] at hmove
          · obtain ⟨pfork, down, up, hfork, -⟩ := reorganize_parts hok
            rw [show (begun st₁).pindexBest = [] from hst₁.2] at hfork
            cases hfork
        · obtain rfl := (Prod.mk.inj h).2
          rw [hst₁.1] at hstarted
          cases hstarted

/-- A node that starts has only its genesis block, which is its tip. -/
theorem nodeInv_start {setpwalletRegistered : List CWallet}
    (h : startNode P env setpwalletRegistered block nFile nBlockPos = (true, st))
    (hstarted : st.pindexGenesisBlock = [genesis]) : NodeInv P disk genesis st [] := by
  obtain ⟨hhash, -, rfl⟩ := startNode_eq h hstarted
  have hmap : ∀ hash pindex, Function.update (fun _ : Uint256 ↦ none) genesis.phashBlock
      (some [genesis]) hash = some pindex → hash = genesis.phashBlock ∧ pindex = [genesis] := by
    intro hash pindex hpindex
    by_cases heq : hash = genesis.phashBlock
    · rw [heq, Function.update_self, Option.some.injEq] at hpindex
      exact ⟨heq, hpindex.symm⟩
    · rw [Function.update_of_ne heq] at hpindex
      cases hpindex
  have hopen : (begun (genesisIndexed env setpwalletRegistered genesis)).txdb.activeBatch ≠ none := by
    simp [begun]
  have hindex : (begun (genesisIndexed env setpwalletRegistered genesis)).txdb.readTxIndex =
      fun _ ↦ none := by
    rw [begun, readTxIndex_txnBegin rfl]
    obtain ⟨blockindex, heq⟩ := indexNewBlock_snd env (emptyNode setpwalletRegistered) genesis []
    funext hash
    rw [CTxDB.readTxIndex, genesisIndexed, heq, read_indexCommitted rfl blockindex _ (by simp)]
    rfl
  refine ⟨⟨?_, ?_, ?_, rfl⟩, onBranch_committed hopen ?_ hhash rfl ?_, rfl, hhash, rfl, ?_⟩
  · intro hash pindex hpindex
    obtain ⟨rfl, rfl⟩ := hmap hash pindex hpindex
    rfl
  · intro hash pindex hpindex
    exact ⟨[], trivial, (hmap hash pindex hpindex).2⟩
  · intro hash index pprev hpindex hne
    exact absurd (List.tail_eq_of_cons_eq (hmap hash _ hpindex).2) hne
  · rw [hindex]
    exact .genesis
  · exact Function.update_eq_self [genesis] _
  · exact Function.update_self genesis.phashBlock _ _

/-- The invariant of a run whose calls connect their postponed blocks. -/
theorem NodeRun.inv (h : NodeRun P disk genesis (ConnectsPostponed P) st) :
    ∃ chain, NodeInv P disk genesis st chain := by
  induction h with
  | start run started => exact ⟨[], nodeInv_start run started⟩
  | event run fits meets ih =>
    obtain ⟨chain, hinv⟩ := ih
    exact hinv.handleEvent fits meets

end Electra.Node
