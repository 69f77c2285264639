import Electra.Node.OrphanBlocks

/-!
# Synchronized checkpoints

The block index is a tree of accepted blocks, the tip is one of its entries, and the links lead to the
tip.  This is kept by every call, whether or not the postponed blocks of a reorganisation connect.

A new checkpoint descends from the one before it and is in the best chain when it is set.  On the main
network no later block can leave it, so that it stays in the best chain; the test network does not
check its blocks against it.
-/

namespace Electra.Node

open Chain Ledger Foundations.Outcome Foundations.WriteBatch

section

variable (P : ChainParams) (disk : BlockFiles) (genesis : CBlockIndex)

structure TreeInv (st : NodeState) : Prop where
  indexed : Indexed P disk genesis st
  best : st.mapBlockIndex st.pindexBest.getBlockHash = some st.pindexBest
  hashBest : st.hashBestChain = st.pindexBest.getBlockHash
  links : LinksWithin st.pnext st.pindexBest

variable {P disk genesis} {env : Env} {st st' : NodeState} {block : CBlock} {index : CBlockIndex}
  {below : Branch} {pindex : PIndex}

namespace TreeInv

theorem congr (h : TreeInv P disk genesis st) (hsame : SameTip st st') (hpnext : st'.pnext = st.pnext) :
    TreeInv P disk genesis st' where
  indexed := h.indexed.congr hsame.mapBlockIndex hsame.pindexGenesisBlock
  best := by rw [hsame.mapBlockIndex, hsame.pindexBest, h.best]
  hashBest := by rw [hsame.hashBestChain, hsame.pindexBest, h.hashBest]
  links := by
    rw [hpnext, hsame.pindexBest]
    exact h.links

/-- What `IsInMainChain` says of an entry. -/
theorem suffix_of_isInMainChain (h : TreeInv P disk genesis st) (hmain : isInMainChain st pindex = true) :
    pindex <:+ st.pindexBest := by
  rw [isInMainChain, Bool.or_eq_true, beq_iff_eq] at hmain
  rcases hmain with hnext | rfl
  · obtain ⟨next, hnext⟩ := Option.isSome_iff_exists.mp hnext
    obtain ⟨hsuffix, htail, -⟩ := h.links pindex next hnext
    exact htail ▸ (List.tail_suffix next).trans hsuffix
  · exact List.suffix_refl _

theorem indexNewBlock (h : TreeInv P disk genesis st) (hnew : st.mapBlockIndex index.phashBlock = none)
    (hprev : st.mapBlockIndex (pindexOf genesis below).getBlockHash = some (pindexOf genesis below))
    (haccepted : AcceptedBranch P disk genesis ((block, index) :: below)) :
    TreeInv P disk genesis (indexNewBlock env st (index :: pindexOf genesis below)).2 := by
  have hmap : (Chain.indexNewBlock env st (index :: pindexOf genesis below)).2.mapBlockIndex =
      Function.update st.mapBlockIndex index.phashBlock (some (index :: pindexOf genesis below)) := rfl
  have hlinks : (Chain.indexNewBlock env st (index :: pindexOf genesis below)).2.pnext =
      Function.update st.pnext (index :: pindexOf genesis below) none := rfl
  refine ⟨(h.indexed.insert hnew hprev haccepted rfl).congr rfl rfl, ?_, h.hashBest, ?_⟩
  · have hold : st.pindexBest.getBlockHash ≠ index.phashBlock := by
      intro hhash
      have hbest := h.best
      rw [hhash, hnew] at hbest
      cases hbest
    rw [hmap]
    exact (Function.update_of_ne hold _ _).trans h.best
  · intro pindex next hnext
    rw [hlinks] at hnext
    by_cases heq : pindex = index :: pindexOf genesis below
    · rw [heq, Function.update_self] at hnext
      cases hnext
    · rw [Function.update_of_ne heq] at hnext
      exact h.links pindex next hnext

/-- A direct extension of the tip is on top of it. -/
theorem suffix_of_direct (h : TreeInv P disk genesis st)
    (fits : CallFits P disk genesis env st block index below)
    (hdirect : block.hashPrevBlock = st.hashBestChain) :
    st.pindexBest <:+ index :: pindexOf genesis below := by
  have hbelow : st.mapBlockIndex (pindexOf genesis below).getBlockHash = some (pindexOf genesis below) :=
    h.indexed.ancestor fits.indexed (List.suffix_cons _ _) (pindexOf_ne_nil genesis below)
  rw [← fits.accepted.1.parent, hdirect, h.hashBest, h.best] at hbelow
  rw [Option.some.inj hbelow]
  exact List.suffix_cons _ _

theorem setBestChain (h : TreeInv P disk genesis st)
    (fits : CallFits P disk genesis env st block index below) :
    TreeInv P disk genesis (setBestChain P env st block (index :: pindexOf genesis below)).2 := by
  have hmoved := chainMoved P env st block (index :: pindexOf genesis below)
  cases hok : (Chain.setBestChain P env st block (index :: pindexOf genesis below)).1 with
  | false =>
    obtain ⟨hsame, hpnext⟩ := hmoved.failed hok
    exact h.congr hsame hpnext
  | true =>
    obtain ⟨hbest, hhash⟩ := tip_of_setBestChain hok
    have hstarted : st.pindexGenesisBlock ≠ [] := by
      rw [h.indexed.started]
      exact List.cons_ne_nil _ _
    obtain ⟨hgenesis, hlinks⟩ := hmoved.links hok hstarted h.links (h.suffix_of_direct fits)
    refine ⟨h.indexed.congr hmoved.mapBlockIndex hgenesis, ?_, ?_, ?_⟩
    · rw [hmoved.mapBlockIndex, hbest]
      exact fits.indexed
    · rw [hhash, hbest]
      exact fits.accepted.1.getHash
    · rw [hbest]
      exact hlinks

/-- An accepted block keeps the tree, whatever the rest of the call does. -/
theorem acceptBlock (h : TreeInv P disk genesis st) (hfits : Fits disk st (.acceptBlock env block)) :
    TreeInv P disk genesis (acceptBlock P env st block).2 := by
  rw [acceptBlock_eq]
  cases hentry : acceptedEntry P env st block with
  | none => exact h
  | some pindexNew =>
    obtain ⟨index, below, rfl, hnew, hprev, haccepted⟩ := exists_acceptedBranch h.indexed hfits hentry
    have hindexed : TreeInv P disk genesis (Chain.indexNewBlock env st (index :: pindexOf genesis below)).2 :=
      h.indexNewBlock hnew hprev haccepted
    cases hcall : bestChainCall P st (.acceptBlock env block) with
    | none => exact hindexed
    | some call =>
      obtain ⟨pindexNew, hentry', rfl⟩ := bestChainCall_acceptBlock hcall
      obtain rfl := Option.some.inj (hentry'.symm.trans hentry)
      exact hindexed.setBestChain ⟨hfits.1, haccepted, Function.update_self _ _ _⟩

/-- The tip after a move to a checkpoint is the old one or the checkpoint. -/
theorem setBestChainTo (h : TreeInv P disk genesis st) (hfiles : env.files.ReadsFrom disk)
    {hash : Uint256} (hpindex : st.mapBlockIndex hash = some pindex) (hne : pindex ≠ [genesis]) :
    TreeInv P disk genesis (setBestChainTo P env st pindex) ∧
      ((setBestChainTo P env st pindex).pindexBest = st.pindexBest ∨
        (setBestChainTo P env st pindex).pindexBest = pindex) := by
  obtain ⟨branch, haccepted, rfl⟩ := h.indexed.branch hash _ hpindex
  cases branch with
  | nil => exact absurd rfl hne
  | cons entry below =>
    obtain ⟨block, index⟩ := entry
    rw [pindexOf_cons, Chain.setBestChainTo]
    split
    · exact ⟨h, .inl rfl⟩
    · cases hread : readFromDisk P env.files index with
      | error reject => exact ⟨h, .inl rfl⟩
      | ok block' =>
        obtain rfl := readFromDisk_accepted hfiles haccepted.1 hread
        have hindexed : st.mapBlockIndex index.phashBlock = some (index :: pindexOf genesis below) := by
          have hhash := h.indexed.hash hash _ hpindex
          rw [← hhash] at hpindex
          exact hpindex
        refine ⟨h.setBestChain ⟨hfiles, haccepted, hindexed⟩, ?_⟩
        cases hok : (Chain.setBestChain P env st block' (index :: pindexOf genesis below)).1 with
        | false => exact .inl ((chainMoved P env st block' _).failed hok).1.pindexBest
        | true => exact .inr (tip_of_setBestChain hok).1

/-- An entry of the index is determined by its hash, also as an ancestor of another entry. -/
theorem eq_of_suffix (h : TreeInv P disk genesis st) {hash hash' : Uint256} {below pindex' : PIndex}
    (hpindex : st.mapBlockIndex hash = some pindex) (hsuffix : below <:+ pindex) (hne : below ≠ [])
    (hhash : below.getBlockHash = hash') (hpindex' : st.mapBlockIndex hash' = some pindex') :
    below = pindex' := by
  have hbelow := h.indexed.ancestor hpindex hsuffix hne
  rw [hhash, hpindex'] at hbelow
  exact (Option.some.inj hbelow).symm

end TreeInv

end

section Safety

variable (P : ChainParams) (disk : BlockFiles) (genesis : CBlockIndex) (mode : CPMode)

/-- The event takes place on the disk of the node. -/
def SyncFits : SyncEvent → Prop
  | .acceptBlock env block => env.files.ReadsFrom disk ∧
      ∀ nFile nBlockPos, env.written = some (nFile, nBlockPos) → WrittenAt disk nFile nBlockPos block
  | .checkpoint env _ _ => env.files.ReadsFrom disk
  | .acceptTx _ _ => True
  | .removeTx _ _ => True

/-- One event after the other. -/
def SyncStep (s s' : SyncState) : Prop :=
  ∃ event, SyncFits disk event ∧ s' = handleSyncEvent P mode s event

/-- The states that a node reaches from its genesis block. -/
inductive SyncRun : SyncState → Prop
  | start {env : SyncEnv} {setpwalletRegistered : List CWallet} {block : CBlock} {nFile nBlockPos : ℕ}
      {s : SyncState} (files : env.files.ReadsFrom disk)
      (started : (startNode P env.toEnv setpwalletRegistered block nFile nBlockPos).2.pindexGenesisBlock =
        [genesis])
      (run : startSync P env setpwalletRegistered block nFile nBlockPos = (true, s)) : SyncRun s
  | step {s s' : SyncState} (run : SyncRun s) (step : SyncStep P disk mode s s') : SyncRun s'

/-- The index has the checkpoint as an entry, which on the main network is in the best chain. -/
structure SyncInv (s : SyncState) : Prop where
  tree : TreeInv P disk genesis s.node
  checkpoint : ∃ pindexSync, s.node.mapBlockIndex s.hashSyncCheckpoint = some pindexSync ∧
    (P.fTestNet = false → pindexSync <:+ s.node.pindexBest)

/-- A change of state in which the checkpoint moves on at most, to an entry of the best chain. -/
def MovesOn (s s' : SyncState) : Prop :=
  ∃ pindexSync pindexSync', s.node.mapBlockIndex s.hashSyncCheckpoint = some pindexSync ∧
    s'.node.mapBlockIndex s'.hashSyncCheckpoint = some pindexSync' ∧ pindexSync <:+ pindexSync' ∧
    (s'.hashSyncCheckpoint ≠ s.hashSyncCheckpoint → pindexSync' <:+ s'.node.pindexBest)

/-- A checkpoint is in the best chain, and every block that is accepted is on top of it. -/
def Guarded (s : SyncState) (hashCheckpoint : Uint256) : Prop :=
  ∃ pindexSync, s.node.mapBlockIndex hashCheckpoint = some pindexSync ∧
    pindexSync <:+ s.node.pindexBest ∧
    ∀ env block, (acceptBlockSync P mode env s block).1 = true →
      ∃ pindexNew, (acceptBlockSync P mode env s block).2.node.mapBlockIndex (block.getHash P) =
        some pindexNew ∧ pindexSync <:+ pindexNew

variable {P disk genesis mode} {env : SyncEnv} {s s' : SyncState} {block : CBlock}
  {hashCheckpoint : Uint256}

/-- `CheckSync` only lets through blocks on top of the checkpoint, and those the index has already. -/
theorem suffix_of_checkSync (h : TreeInv P disk genesis s.node) (hmain : P.fTestNet = false)
    {hash : Uint256} {pindexSync pindexPrev : PIndex} {hashPrev : Uint256}
    (hsync : s.node.mapBlockIndex s.hashSyncCheckpoint = some pindexSync)
    (hprev : s.node.mapBlockIndex hashPrev = some pindexPrev) (hnew : s.node.mapBlockIndex hash = none)
    (hcheck : checkSync P s hash pindexPrev = true) : pindexSync <:+ pindexPrev := by
  simp only [checkSync, hmain, hsync, Bool.false_eq_true, if_false] at hcheck
  split at hcheck
  · cases hcheck
  · next habove =>
    split at hcheck
    · cases hcheck
    · next hsame =>
      split at hcheck
      · cases hcheck
      · next hbelow =>
        have hindexed : s.indexed hash = false := by rw [SyncState.indexed, hnew, Option.isSome_none]
        rcases lt_trichotomy (pindexPrev.nHeight + 1) pindexSync.nHeight with hlt | heq | hgt
        · exact absurd ⟨hlt, by rw [hindexed]; rfl⟩ hbelow
        · -- the block would be the checkpoint, which the index has
          have hhash : hash = s.hashSyncCheckpoint := by
            by_contra hne
            exact hsame ⟨heq, hne⟩
          rw [hhash, hsync] at hnew
          cases hnew
        · have hancestor := not_and.mp habove hgt
          rw [not_or, not_or, not_not] at hancestor
          rw [← h.eq_of_suffix hprev (lowerTo_suffix _ _) hancestor.1 hancestor.2.2 hsync]
          exact lowerTo_suffix _ _

/-- An accepted block is on top of the checkpoint. -/
theorem suffix_of_acceptedEntry (h : TreeInv P disk genesis s.node) (hmain : P.fTestNet = false)
    {pindexSync pindexNew : PIndex}
    (hsync : s.node.mapBlockIndex s.hashSyncCheckpoint = some pindexSync)
    (hentry : acceptedEntry P (checkedEnv P .strict env s block) s.node block = some pindexNew) :
    pindexSync <:+ pindexNew := by
  obtain ⟨index, pindexPrev, rfl, hnew, hprev, hchecks, -⟩ := acceptedEntry_eq_some hentry
  have hcheck : (checkedEnv P .strict env s block).fCheckSync = true := by
    simp only [acceptBlockChecks, bind_eq_ok, rejectIf_eq_ok] at hchecks
    obtain ⟨-, -, -, -, -, -, -, -, -, -, -, -, -, -, -, hsyncOk, -⟩ := hchecks
    simpa using hsyncOk
  simp only [checkedEnv, hprev, Option.getD_some] at hcheck
  exact (suffix_of_checkSync h hmain hsync hprev hnew hcheck).trans (List.suffix_cons index pindexPrev)

theorem suffix_of_validateSyncCheckpoint (h : TreeInv P disk genesis s.node)
    {pindexSync pindexRecv : PIndex}
    (hsync : s.node.mapBlockIndex s.hashSyncCheckpoint = some pindexSync)
    (hrecv : s.node.mapBlockIndex hashCheckpoint = some pindexRecv)
    (hvalid : (validateSyncCheckpoint s hashCheckpoint).1 = true) :
    pindexSync <:+ pindexRecv ∧ pindexRecv ≠ [genesis] := by
  obtain ⟨-, pindexSync', pindexRecv', hsync', hrecv', hhigher, hne, hhash⟩ :=
    validateSyncCheckpoint_eq_true hvalid
  obtain rfl := Option.some.inj (hsync.symm.trans hsync')
  obtain rfl := Option.some.inj (hrecv.symm.trans hrecv')
  have hlower := h.eq_of_suffix hrecv (lowerTo_suffix _ _) hne hhash hsync
  refine ⟨hlower ▸ lowerTo_suffix _ _, ?_⟩
  rintro rfl
  have hlength : 0 < pindexSync.length := List.length_pos_of_ne_nil (hlower ▸ hne)
  simp only [PIndex.nHeight, List.length_singleton] at hhigher
  omega

/-- An event that leads at most to a checkpoint keeps the invariant. -/
theorem SyncInv.checkpointed (h : SyncInv P disk genesis s) (hfiles : env.files.ReadsFrom disk)
    (hcheckpointed : Checkpointed P env s hashCheckpoint s') :
    SyncInv P disk genesis s' ∧ MovesOn s s' := by
  obtain ⟨pindexSync, hsync, hbest⟩ := h.checkpoint
  rcases hcheckpointed with ⟨hnode, hhash⟩ | ⟨hvalid, hnode, hhash⟩
  · rw [← hnode] at hsync hbest
    refine ⟨⟨hnode ▸ h.tree, pindexSync, hhash ▸ hsync, hbest⟩, pindexSync, pindexSync, hnode ▸ hsync,
      hhash ▸ hsync, List.suffix_refl _, fun hne ↦ absurd hhash hne⟩
  · obtain ⟨-, _, pindexRecv, -, hrecv, -⟩ := validateSyncCheckpoint_eq_true hvalid
    obtain ⟨hsuffix, hne⟩ := suffix_of_validateSyncCheckpoint h.tree hsync hrecv hvalid
    obtain ⟨txdb, hnode', hset⟩ := enforceSyncCheckpoint_cases P env hrecv
    obtain ⟨htree, htip⟩ := h.tree.setBestChainTo hfiles hrecv hne
    rw [← hnode] at hnode'
    rw [← hhash] at hset
    have htree' : TreeInv P disk genesis s'.node := by
      rw [hnode']
      exact htree.congr ⟨rfl, rfl, rfl, rfl, rfl⟩ rfl
    have hmap : s'.node.mapBlockIndex = s.node.mapBlockIndex := by
      rw [hnode']
      exact mapBlockIndex_setBestChainTo P env.toEnv s.node pindexRecv
    have htip' : s'.node.pindexBest = s.node.pindexBest ∨ s'.node.pindexBest = pindexRecv := by
      rw [hnode']
      exact htip
    rcases hset with hsame | ⟨hmoved, hchain⟩
    · have hsync' : s'.node.mapBlockIndex s'.hashSyncCheckpoint = some pindexSync := by
        rw [hmap, hsame, hsync]
      refine ⟨⟨htree', pindexSync, hsync', fun hmain ↦ ?_⟩, pindexSync, pindexSync, hsync, hsync',
        List.suffix_refl _, fun hne ↦ absurd hsame hne⟩
      rcases htip' with hold | hnew
      · exact hold ▸ hbest hmain
      · exact hnew ▸ hsuffix
    · have hrecv' : s'.node.mapBlockIndex s'.hashSyncCheckpoint = some pindexRecv := by
        rw [hmap, hmoved, hrecv]
      have hbest' : pindexRecv <:+ s'.node.pindexBest := by
        rcases htip' with hold | hnew
        · rcases hchain with hmain | hset
          · exact hold ▸ h.tree.suffix_of_isInMainChain hmain
          · have htop : s'.node.pindexBest = pindexRecv := by
              rw [hnode']
              exact hset
            exact htop ▸ List.suffix_refl _
        · exact hnew ▸ List.suffix_refl _
      exact ⟨⟨htree', pindexRecv, hrecv', fun _ ↦ hbest'⟩, pindexSync, pindexRecv, hsync, hrecv', hsuffix,
        fun _ ↦ hbest'⟩

/-- A block that enters the index leaves the entries that are there. -/
theorem lookup_of_acceptBlock (env : Env) {st : NodeState} {hash : Uint256} {pindex : PIndex}
    (h : st.mapBlockIndex hash = some pindex) :
    (acceptBlock P env st block).2.mapBlockIndex hash = some pindex := by
  rw [mapBlockIndex_acceptBlock]
  cases hentry : acceptedEntry P env st block with
  | none => exact h
  | some pindexNew =>
    obtain ⟨_, _, _, hnew, -⟩ := acceptedEntry_eq_some hentry
    refine (Function.update_of_ne ?_ _ _).trans h
    rintro rfl
    rw [hnew] at h
    cases h

/-- The tip after an acceptance is the old one or the accepted block. -/
theorem pindexBest_acceptBlock (env : Env) (st : NodeState) (block : CBlock) :
    (acceptBlock P env st block).2.pindexBest = st.pindexBest ∨
      acceptedEntry P env st block = some (acceptBlock P env st block).2.pindexBest := by
  rw [acceptBlock_eq]
  cases hentry : acceptedEntry P env st block with
  | none => exact .inl rfl
  | some pindexNew =>
    have hindexed : (indexNewBlock env st pindexNew).2.pindexBest = st.pindexBest := by
      cases pindexNew <;> rfl
    cases hcall : bestChainCall P st (.acceptBlock env block) with
    | none => exact .inl hindexed
    | some call =>
      obtain ⟨pindexNew, hentry', rfl⟩ := bestChainCall_acceptBlock hcall
      obtain rfl := Option.some.inj (hentry'.symm.trans hentry)
      cases hok : (setBestChain P env (indexNewBlock env st pindexNew).2 block pindexNew).1 with
      | false =>
        left
        exact ((chainMoved P env _ block pindexNew).failed hok).1.pindexBest.trans hindexed
      | true =>
        right
        exact congrArg some (tip_of_setBestChain hok).1.symm

theorem SyncInv.acceptBlock (h : SyncInv P disk genesis s)
    (hfits : SyncFits disk (.acceptBlock env block)) :
    SyncInv P disk genesis { s with node := (acceptBlock P (checkedEnv P .strict env s block) s.node block).2 } := by
  obtain ⟨pindexSync, hsync, hbest⟩ := h.checkpoint
  refine ⟨h.tree.acceptBlock hfits, pindexSync, lookup_of_acceptBlock _ hsync, fun hmain ↦ ?_⟩
  rcases pindexBest_acceptBlock (P := P) (checkedEnv P .strict env s block) s.node block with hsame | hnew
  · exact (hsame ▸ hbest hmain :)
  · exact suffix_of_acceptedEntry h.tree hmain hsync hnew

/-- What an event of the pool leaves alone. -/
theorem sameTip_acceptToMemoryPool (P : ChainParams) (env : Env) (st : NodeState) (tx : CTransaction) :
    SameTip st (acceptToMemoryPool P env st tx) ∧ (acceptToMemoryPool P env st tx).pnext = st.pnext := by
  unfold acceptToMemoryPool
  split <;> exact ⟨⟨rfl, rfl, rfl, rfl, rfl⟩, rfl⟩

theorem SyncInv.sameTip (h : SyncInv P disk genesis s) {node : NodeState} (hsame : SameTip s.node node)
    (hpnext : node.pnext = s.node.pnext) :
    SyncInv P disk genesis { s with node } ∧ MovesOn s { s with node } := by
  obtain ⟨pindexSync, hsync, hbest⟩ := h.checkpoint
  have hsync' : node.mapBlockIndex s.hashSyncCheckpoint = some pindexSync := by
    rw [hsame.mapBlockIndex, hsync]
  refine ⟨⟨h.tree.congr hsame hpnext, pindexSync, hsync', ?_⟩, pindexSync, pindexSync, hsync, hsync',
    List.suffix_refl _, fun hne ↦ absurd rfl hne⟩
  intro hmain
  exact hsame.pindexBest ▸ hbest hmain

theorem SyncInv.step (h : SyncInv P disk genesis s) (hstep : SyncStep P disk .strict s s') :
    SyncInv P disk genesis s' ∧ MovesOn s s' := by
  obtain ⟨event, hfits, rfl⟩ := hstep
  cases event with
  | acceptBlock env block =>
    obtain ⟨hinv, hmoves⟩ := (h.acceptBlock hfits).checkpointed hfits.1
      (acceptBlockSync_cases P .strict env s block).2
    obtain ⟨pindexSync, hsync, -⟩ := h.checkpoint
    obtain ⟨pindex, pindex', hpindex, hrest⟩ := hmoves
    obtain rfl := Option.some.inj ((lookup_of_acceptBlock _ hsync).symm.trans hpindex)
    exact ⟨hinv, pindexSync, pindex', hsync, hrest⟩
  | checkpoint env fSignature hashCheckpoint =>
    exact h.checkpointed hfits (checkpointed_processSyncCheckpoint P env s fSignature hashCheckpoint)
  | acceptTx env tx => 
    obtain ⟨hsame, hpnext⟩ := sameTip_acceptToMemoryPool P env s.node tx
    exact h.sameTip hsame hpnext
  | removeTx tx fRecursive => exact h.sameTip ⟨rfl, rfl, rfl, rfl, rfl⟩ rfl

theorem NodeInv.treeInv {st : NodeState} {chain : Branch} (h : NodeInv P disk genesis st chain) :
    TreeInv P disk genesis st where
  indexed := h.indexed
  best := by rw [h.atTip.pindexBest, h.atTip.indexed]
  hashBest := by rw [h.atTip.hashBestChain, h.atTip.pindexBest]
  links := by
    intro pindex next hnext
    rw [h.onBranch.links] at hnext
    rw [h.atTip.pindexBest]
    exact linksTo_eq_some_iff.mp hnext

/-- Setting a checkpoint of the main chain. -/
theorem syncInv_writeSyncCheckpoint (htree : TreeInv P disk genesis s.node) {pindex : PIndex}
    (hpindex : s.node.mapBlockIndex hashCheckpoint = some pindex)
    (hbest : P.fTestNet = false → pindex <:+ s.node.pindexBest)
    (h : writeSyncCheckpoint env s hashCheckpoint = (true, s')) : SyncInv P disk genesis s' := by
  obtain ⟨txdb, heq⟩ := writeSyncCheckpoint_eq env s hashCheckpoint
  obtain ⟨hwritten, rfl⟩ := Prod.mk.inj (heq.symm.trans h)
  refine ⟨htree.congr ⟨rfl, rfl, rfl, rfl, rfl⟩ rfl, pindex, ?_, hbest⟩
  rw [hwritten, if_pos rfl]
  exact hpindex

/-- The checkpoint that a reset ends with. -/
def writeLastCheckpoint (env : SyncEnv) (s : SyncState) : Bool × SyncState :=
  match lastCheckpointInMainChain s.node with
  | none => (false, s)
  | some hash => writeSyncCheckpoint env s hash

theorem syncInv_resetSyncCheckpoint (htree : TreeInv P disk genesis s.node)
    (hgenesis : isInMainChain s.node [genesis] = true) (hfiles : env.files.ReadsFrom disk)
    (h : resetSyncCheckpoint P env s = (true, s')) : SyncInv P disk genesis s' := by
  have hset : ∀ s₁ : SyncState, TreeInv P disk genesis s₁.node →
      writeLastCheckpoint env s₁ = (true, s') → SyncInv P disk genesis s' := by
    intro s₁ htree₁ hlast
    unfold writeLastCheckpoint at hlast
    cases hfind : lastCheckpointInMainChain s₁.node with
    | none => simp [hfind] at hlast
    | some hash =>
      rw [hfind] at hlast
      unfold lastCheckpointInMainChain at hfind
      have hfound := List.find?_some hfind
      obtain ⟨pindex, hpindex, hmain⟩ := (Option.any_eq_true _ _).mp hfound
      exact syncInv_writeSyncCheckpoint htree₁ hpindex
        (fun _ ↦ htree₁.suffix_of_isInMainChain hmain) hlast
  simp only [resetSyncCheckpoint] at h
  cases hpindex : s.node.mapBlockIndex ((mapCheckpoints.getLast?.map Prod.snd).getD 0) with
  | none =>
    simp only [hpindex] at h
    exact hset { s with hashPendingCheckpoint := (mapCheckpoints.getLast?.map Prod.snd).getD 0 } htree h
  | some pindex =>
    simp only [hpindex] at h
    cases hmain : isInMainChain s.node pindex with
    | true =>
      simp only [hmain, if_true] at h
      exact hset s htree h
    | false =>
      have hne : pindex ≠ [genesis] := by
        rintro rfl
        rw [hgenesis] at hmain
        cases hmain
      obtain ⟨hnode, -⟩ := setBestChainToCheckpoint_eq P env s
        ((mapCheckpoints.getLast?.map Prod.snd).getD 0) hmain
      have htree₁ := (htree.setBestChainTo hfiles hpindex hne).1
      rw [← hnode] at htree₁
      simp only [hmain, Bool.false_eq_true, if_false] at h
      cases hcall : setBestChainToCheckpoint P env s
          ((mapCheckpoints.getLast?.map Prod.snd).getD 0) pindex with
      | mk fOk s₁ =>
        rw [hcall] at h htree₁
        cases fOk with
        | false => cases (Prod.mk.inj h).1
        | true => exact hset { s₁ with hashInvalidCheckpoint := s.hashInvalidCheckpoint } htree₁ h

theorem syncInv_start {setpwalletRegistered : List CWallet} {nFile nBlockPos : ℕ}
    (hfiles : env.files.ReadsFrom disk)
    (hstarted : (startNode P env.toEnv setpwalletRegistered block nFile nBlockPos).2.pindexGenesisBlock =
      [genesis])
    (h : startSync P env setpwalletRegistered block nFile nBlockPos = (true, s)) :
    SyncInv P disk genesis s := by
  simp only [startSync] at h
  cases hstart : startNode P env.toEnv setpwalletRegistered block nFile nBlockPos with
  | mk fStarted node =>
    rw [hstart] at hstarted
    simp only [hstart] at h
    cases fStarted with
    | false => cases (Prod.mk.inj h).1
    | true =>
      simp only [Bool.not_true, Bool.false_eq_true, if_false] at h
      have hinv : NodeInv P disk genesis node [] := nodeInv_start hstart hstarted
      have hgenesis := (startNode_eq hstart hstarted).2.1
      have hindexed : node.mapBlockIndex P.genesisHash = some [genesis] := by
        rw [← hgenesis]
        exact hinv.atTip.indexed
      have hbest : node.pindexBest = [genesis] := hinv.atTip.pindexBest
      have hsync : ∀ s₁, writeSyncCheckpoint env ⟨node, 0, 0, 0⟩ P.genesisHash = (true, s₁) →
          SyncInv P disk genesis s₁ ∧ isInMainChain s₁.node [genesis] = true := by
        intro s₁ hwrite
        refine ⟨syncInv_writeSyncCheckpoint hinv.treeInv hindexed
          (fun _ ↦ hbest ▸ List.suffix_refl _) hwrite, ?_⟩
        obtain ⟨txdb, heq⟩ := writeSyncCheckpoint_eq env ⟨node, 0, 0, 0⟩ P.genesisHash
        obtain ⟨-, rfl⟩ := Prod.mk.inj (heq.symm.trans hwrite)
        exact hinv.isInMainChain_genesis
      cases hwrite : writeSyncCheckpoint env ⟨node, 0, 0, 0⟩ P.genesisHash with
      | mk fWritten s₁ =>
        rw [hwrite] at h
        cases fWritten with
        | false => cases (Prod.mk.inj h).1
        | true =>
          obtain ⟨hinv₁, hmain₁⟩ := hsync s₁ hwrite
          simp only at h
          split at h
          · obtain ⟨-, rfl⟩ := Prod.mk.inj h
            exact hinv₁
          · exact syncInv_resetSyncCheckpoint hinv₁.tree hmain₁ hfiles h

theorem SyncRun.inv (h : SyncRun P disk genesis .strict s) : SyncInv P disk genesis s := by
  induction h with
  | start files started run => exact syncInv_start files started run
  | step run step ih => exact (ih.step step).1

/-- From any state on, the entry of its checkpoint stays in the index, and the later checkpoints descend
from it. -/
theorem SyncInv.steps (h : SyncInv P disk genesis s)
    (hsteps : Relation.ReflTransGen (SyncStep P disk .strict) s s') : SyncInv P disk genesis s' ∧
      ∃ pindexSync pindexSync', s.node.mapBlockIndex s.hashSyncCheckpoint = some pindexSync ∧
        s'.node.mapBlockIndex s'.hashSyncCheckpoint = some pindexSync' ∧ pindexSync <:+ pindexSync' := by
  induction hsteps with
  | refl =>
    obtain ⟨pindexSync, hsync, -⟩ := h.checkpoint
    exact ⟨h, pindexSync, pindexSync, hsync, hsync, List.suffix_refl _⟩
  | tail hsteps hstep ih =>
    obtain ⟨hinv, pindexSync, pindexSync', hsync, hsync', hsuffix⟩ := ih
    obtain ⟨hinv', pindex, pindex', hpindex, hpindex', hsuffix', -⟩ := hinv.step hstep
    obtain rfl := Option.some.inj (hsync'.symm.trans hpindex)
    exact ⟨hinv', pindexSync, pindex', hsync, hpindex', hsuffix.trans hsuffix'⟩

theorem SyncInv.guarded (h : SyncInv P disk genesis s) (hmain : P.fTestNet = false)
    {pindexSync pindexSync' : PIndex} (hsync : s.node.mapBlockIndex hashCheckpoint = some pindexSync)
    (hsync' : s.node.mapBlockIndex s.hashSyncCheckpoint = some pindexSync')
    (hsuffix : pindexSync <:+ pindexSync') : Guarded P .strict s hashCheckpoint := by
  obtain ⟨pindex, hpindex, hbest⟩ := h.checkpoint
  obtain rfl := Option.some.inj (hsync'.symm.trans hpindex)
  refine ⟨pindexSync, hsync, hsuffix.trans (hbest hmain), fun env block haccepted ↦ ?_⟩
  rw [(acceptBlockSync_cases P .strict env s block).1, acceptBlock_fst] at haccepted
  obtain ⟨pindexNew, hentry⟩ := Option.isSome_iff_exists.mp haccepted.1
  refine ⟨pindexNew, ?_, hsuffix.trans (suffix_of_acceptedEntry h.tree hmain hsync' hentry)⟩
  rw [mapBlockIndex_acceptBlockSync, hentry]
  exact Function.update_self _ _ _

/-- In strict mode a new checkpoint always descends from the one before it and is in the best chain; on
the main network each checkpoint guards the best chain from then on. -/
theorem syncCheckpoint_safe (h : SyncRun P disk genesis .strict s) :
    (∀ s', SyncStep P disk .strict s s' → MovesOn s s') ∧
      (P.fTestNet = false → ∀ s', Relation.ReflTransGen (SyncStep P disk .strict) s s' →
        Guarded P .strict s' s.hashSyncCheckpoint) := by
  have hinv := h.inv
  refine ⟨fun s' hstep ↦ (hinv.step hstep).2, fun hmain s' hsteps ↦ ?_⟩
  obtain ⟨hinv', pindexSync, pindexSync', hsync, hsync', hsuffix⟩ := hinv.steps hsteps
  have hne : pindexSync ≠ [] := by
    obtain ⟨branch, -, rfl⟩ := hinv.tree.indexed.branch _ _ hsync
    exact pindexOf_ne_nil genesis branch
  have hstays := hinv'.tree.indexed.ancestor hsync' hsuffix hne
  rw [hinv.tree.indexed.hash _ _ hsync] at hstays
  exact hinv'.guarded hmain hstays hsync' hsuffix

/-- `ProcessBlock` takes the steps of the blocks it accepts, the arriving one and its orphans. -/
theorem syncSteps_processBlock {env : ProcessEnv} (s : BlockState)
    (hfits : ∀ block, SyncFits disk (.acceptBlock (env.accept (block.getHash P)) block)) (block : CBlock) :
    Relation.ReflTransGen (SyncStep P disk mode) s.sync (processBlock P mode env s block).2.sync := by
  have haccept : ∀ (s₁ : BlockState) block', Relation.ReflTransGen (SyncStep P disk mode) s.sync s₁.sync →
      Relation.ReflTransGen (SyncStep P disk mode) s.sync
        (acceptBlockSeen P mode (env.accept (block'.getHash P)) s₁ block').2.sync :=
    fun s₁ block' hsteps ↦ hsteps.tail ⟨_, hfits block', rfl⟩
  have hfirst := haccept s block .refl
  rcases processBlock_cases P mode env s block with
    ⟨reject, -, heq⟩ | ⟨-, ⟨-, heq⟩ | ⟨-, fAccepted, s₁, hcall, heq⟩⟩
  · rw [heq]
  · rw [heq, holdOrphan]
    split <;> exact .refl
  · rw [hcall] at hfirst
    rw [heq]
    cases fAccepted with
    | false => exact hfirst
    | true =>
      rw [if_pos rfl]
      exact (orphanLoop P mode env).run_invariant_always
        (fun s' _ ↦ Relation.ReflTransGen (SyncStep P disk mode) s.sync s'.sync)
        (fun s' key queue hsteps ↦ (orphanLoop P mode env).foldl_visitNext_always
          (fun _ s' _ ↦ Relation.ReflTransGen (SyncStep P disk mode) s.sync s'.sync)
          (fun _ orphan _ s' _ _ hsteps ↦ haccept s' orphan hsteps) hsteps) _ hfirst

end Safety

namespace SyncExample

open Builders

variable (fTestNet : Bool)

/-- The rival of the quiet block at height 1. -/
def rival : CBlock :=
  blockOf (network fTestNet) 11 (network fTestNet).genesisHash 600 (easiestBits (network fTestNet))
    [coinbase 12 600 1 [output 0]]

def onRival : CBlock :=
  blockOf (network fTestNet) 12 11 900 (easiestBits (network fTestNet)) [coinbase 13 900 2 [output 0]]

def disk : BlockFiles :=
  filesOf (quietFiles (network fTestNet) 3 ++ [(12, 8, rival fTestNet), (13, 8, onRival fTestNet)])

def genesis : CBlockIndex :=
  newBlockIndex (network fTestNet) (quietBlock (network fTestNet) 0) 1 8 0 (0, false)

def envAt (nFile : ℕ) : SyncEnv :=
  { surroundings (disk fTestNet) 1000 with written := some (nFile, 8), fCheckpointWritten := true }

def started : SyncState :=
  (startSync (network fTestNet) (envAt fTestNet 1) [] (quietBlock (network fTestNet) 0) 1 8).2

def handle (s : SyncState) (event : SyncEvent) : SyncState :=
  handleSyncEvent (network fTestNet) .strict s event

def onBlock (nFile : ℕ) (block : CBlock) : SyncEvent := .acceptBlock (envAt fTestNet nFile) block

def onCheckpoint : SyncEvent := .checkpoint (envAt fTestNet 2) true 1

/-- The quiet block at height 1 is the checkpoint. -/
def checkpointed : SyncState :=
  handle fTestNet (handle fTestNet (started fTestNet)
    (onBlock fTestNet 2 (quietBlock (network fTestNet) 1))) (onCheckpoint fTestNet)

def rivaled : SyncState :=
  handle fTestNet (handle fTestNet (checkpointed fTestNet) (onBlock fTestNet 12 (rival fTestNet)))
    (onBlock fTestNet 13 (onRival fTestNet))

theorem step_onBlock {s : SyncState} {nFile : ℕ} {block : CBlock}
    (h : WrittenAt (disk fTestNet) nFile 8 block) :
    SyncStep (network fTestNet) (disk fTestNet) .strict s
      (handle fTestNet s (onBlock fTestNet nFile block)) := by
  have hfits : Fits (disk fTestNet) s.node (.acceptBlock (envAt fTestNet nFile).toEnv block) :=
    fits_of_writtenAt rfl rfl h
  exact ⟨onBlock fTestNet nFile block, hfits, rfl⟩

theorem startSync_started :
    startSync (network fTestNet) (envAt fTestNet 1) [] (quietBlock (network fTestNet) 0) 1 8 =
      (true, started fTestNet) := by
  cases fTestNet with
  | false => exact Prod.ext (by decide) rfl
  | true => exact Prod.ext (by decide) rfl

theorem startNode_started : (startNode (network fTestNet) (envAt fTestNet 1).toEnv []
    (quietBlock (network fTestNet) 0) 1 8).2.pindexGenesisBlock = [genesis fTestNet] := by
  cases fTestNet <;> decide

theorem writtenAt_quiet : WrittenAt (disk fTestNet) 2 8 (quietBlock (network fTestNet) 1) := by
  cases fTestNet <;> decide

theorem run_checkpointed :
    SyncRun (network fTestNet) (disk fTestNet) (genesis fTestNet) .strict (checkpointed fTestNet) := by
  have hstart : SyncRun (network fTestNet) (disk fTestNet) (genesis fTestNet) .strict (started fTestNet) :=
    .start (.refl _) (startNode_started fTestNet) (startSync_started fTestNet)
  exact .step (.step hstart (step_onBlock fTestNet (writtenAt_quiet fTestNet)))
    ⟨onCheckpoint fTestNet, BlockFiles.ReadsFrom.refl _, rfl⟩

theorem steps_rivaled : Relation.ReflTransGen
    (SyncStep (network fTestNet) (disk fTestNet) .strict) (checkpointed fTestNet) (rivaled fTestNet) := by
  have hrival : WrittenAt (disk fTestNet) 12 8 (rival fTestNet) := by cases fTestNet <;> decide
  have honRival : WrittenAt (disk fTestNet) 13 8 (onRival fTestNet) := by cases fTestNet <;> decide
  exact .tail (.tail .refl (step_onBlock fTestNet hrival)) (step_onBlock fTestNet honRival)

end SyncExample

open SyncExample in
theorem syncCheckpoint_safe_example :
    (checkpointed false).hashSyncCheckpoint = 1 ∧
      Guarded (Builders.network false) .strict (rivaled false) (checkpointed false).hashSyncCheckpoint := by
  refine ⟨by decide, ?_⟩
  exact (syncCheckpoint_safe (run_checkpointed false)).2 rfl (rivaled false) (steps_rivaled false)

open SyncExample in
theorem not_guarded_testNet :
    SyncRun (Builders.network true) (disk true) (genesis true) .strict (checkpointed true) ∧
      Relation.ReflTransGen (SyncStep (Builders.network true) (disk true) .strict) (checkpointed true)
        (rivaled true) ∧
      (checkpointed true).hashSyncCheckpoint = 1 ∧ (rivaled true).hashSyncCheckpoint = 1 ∧
      ((rivaled true).node.pindexBest.map CBlockIndex.phashBlock).take 2 = [12, 11] ∧
      ¬ Guarded (Builders.network true) .strict (rivaled true) 1 := by
  have hbest : (rivaled true).node.pindexBest.map CBlockIndex.phashBlock =
      [12, 11, hashGenesisBlockTestNet] := by decide
  have hindexed : ∀ pindexSync ∈ (rivaled true).node.mapBlockIndex 1,
      PIndex.getBlockHash pindexSync = 1 := by decide
  refine ⟨run_checkpointed true, steps_rivaled true, by decide, by decide, ?_, ?_⟩
  · rw [hbest]
    rfl
  · rintro ⟨pindexSync, hsync, hsuffix, -⟩
    have hhash := hindexed pindexSync hsync
    -- an entry with that hash is not on the way to the tip
    cases pindexSync with
    | nil => exact absurd hhash (by decide)
    | cons index pprev =>
      have hmem : index.phashBlock ∈ (rivaled true).node.pindexBest.map CBlockIndex.phashBlock :=
        List.mem_map_of_mem (hsuffix.subset List.mem_cons_self)
      rw [hbest, show index.phashBlock = 1 from hhash] at hmem
      exact absurd hmem (by decide)

end Electra.Node
