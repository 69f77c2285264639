import Electra.Chain.Builders
import Electra.Ledger.BlockTree

/-!
# The transaction index over runs

From genesis, blocks of one tree are connected on top of the tip and the tip is disconnected.  The
index is then, but for fully spent records, the index of the ledger of the current branch
(`Ledgered`).  If no two transactions of the tree have one hash, transaction ids are unique along
every branch and the index is exactly that of its ledger (`Exact`).

One block step connects an accepted block on top of the current branch or disconnects its tip.  The
steps keep the tip and the pool of the node and, inside a database transaction, the committed
records; what they do to the index is a run of the index.

On any branch that a run leads to, the transaction index records exactly the transactions of the
branch, with their positions and with the positions of the transactions that spend their outputs.
No output is spent twice, and no two transactions have one hash.
-/

namespace Electra.Ledger

open Chain Foundations.SpendIndex Foundations.Outcome

section

/-- The branches and indices that connecting and disconnecting blocks leads to.  What is not the
transaction index may change between the steps. -/
inductive IndexRun (P : ChainParams) (disk : BlockFiles) (genesis : CBlockIndex) :
    Branch → TxIndexView → Prop
  | genesis : IndexRun P disk genesis [] fun _ ↦ none
  | connect {chain : Branch} {env : Env} {st st' : NodeState} {block : CBlock} {index : CBlockIndex}
      (run : IndexRun P disk genesis chain st.txdb.readTxIndex)
      (accepted : Accepted P disk block index (pindexOf genesis chain))
      (step : connectBlock P env st block (index :: pindexOf genesis chain) false = .ok st') :
      IndexRun P disk genesis ((block, index) :: chain) st'.txdb.readTxIndex
  | justCheck {chain : Branch} {env : Env} {st st' : NodeState} {block : CBlock} {pindex : PIndex}
      (run : IndexRun P disk genesis chain st.txdb.readTxIndex)
      (step : connectBlock P env st block pindex true = .ok st') :
      IndexRun P disk genesis chain st'.txdb.readTxIndex
  | disconnect {chain : Branch} {st st' : NodeState} {block : CBlock} {index : CBlockIndex}
      (run : IndexRun P disk genesis ((block, index) :: chain) st.txdb.readTxIndex)
      (step : disconnectBlock P st block (index :: pindexOf genesis chain) = .ok st') :
      IndexRun P disk genesis chain st'.txdb.readTxIndex

variable {P : ChainParams} {disk : BlockFiles} {genesis : CBlockIndex} {chain : Branch}
  {txindexes : TxIndexView} {block : CBlock} {index : CBlockIndex}

theorem IndexRun.accepted (h : IndexRun P disk genesis chain txindexes) :
    AcceptedBranch P disk genesis chain := by
  induction h with
  | genesis => trivial
  | connect run accepted step ih => exact ⟨accepted, ih⟩
  | justCheck run step ih => exact ih
  | disconnect run step ih => exact ih.2

theorem IndexRun.checked (h : IndexRun P disk genesis chain txindexes) :
    ∀ entry ∈ chain, entry.1.Checked P := by
  induction h with
  | genesis => simp
  | connect run accepted step ih =>
    obtain ⟨sums, hconnects⟩ := connectBlock_eq_ok step
    intro entry hentry
    rcases List.mem_cons.mp hentry with rfl | hentry
    · exact hconnects.checked
    · exact ih entry hentry
  | justCheck run step ih => exact ih
  | disconnect run step ih => exact fun entry hentry ↦ ih entry (.tail _ hentry)

/-- Every transaction of the branch could be entered, and the index lacks at most fully spent
records of the index of its ledger. -/
structure Ledgered (P : ChainParams) (chain : Branch) (txindexes : TxIndexView) : Prop where
  enabled : EnabledAll (fun _ ↦ none) (ledgerOf P chain)
  shadow : Shadow txindexes (Foundations.SpendIndex.indexOf (ledgerOf P chain))

variable {env : Env} {st st' : NodeState} {sums : ConnectSums} {pprev : PIndex}
  {entry : CTransaction × CDiskTxPos}

theorem Ledgered.connect (h : Ledgered P chain st.txdb.readTxIndex)
    (hconnects : Connects P env st st' block (index :: pprev) sums) :
    Ledgered P ((block, index) :: chain) st'.txdb.readTxIndex where
  enabled := by
    rw [ledgerOf_cons P block index chain pprev, enabledAll_append]
    exact ⟨h.enabled, h.shadow.enabledAll hconnects.all.enabled⟩
  shadow := by
    rw [ledgerOf_cons P block index chain pprev, indexOf_append, hconnects.txindex]
    exact shadow_applyAll h.shadow _

theorem Ledgered.disconnect (h : Ledgered P ((block, index) :: chain) st.txdb.readTxIndex)
    (hdisconnects : Disconnects P st st' block (index :: pprev)) :
    Ledgered P chain st'.txdb.readTxIndex := by
  obtain ⟨henabled, hshadow⟩ := h
  rw [ledgerOf_cons P block index chain pprev, enabledAll_append] at henabled
  rw [ledgerOf_cons P block index chain pprev, indexOf_append] at hshadow
  refine ⟨henabled.1, ?_⟩
  rw [hdisconnects.txindex]
  exact shadow_undoAll hshadow henabled.2 hdisconnects.undoable

theorem mem_acceptedTxs {chain : Branch} (h : AcceptedBranch P disk genesis chain)
    (hentry : entry ∈ ledger chain) :
    entry.1 ∈ acceptedTxs P disk := by
  obtain ⟨above, block, index, below, rfl, hmem⟩ := exists_of_mem_ledger hentry
  exact ⟨block, index, _, h.below.1, mem_vtx_of_mem_located hmem⟩

/-- Coinbases at different heights are different transactions. -/
theorem isCoinBase_notMem_ledger (haccepted : AcceptedBranch P disk genesis chain)
    (hchecked : ∀ entry ∈ chain, entry.1.Checked P)
    (hblock : Accepted P disk block index (pindexOf genesis chain)) (hblockChecked : block.Checked P)
    {tx : CTransaction} (htx : tx ∈ block.vtx) (hbase : tx.isCoinBase) (hentry : entry ∈ ledger chain) :
    entry.1 ≠ tx := by
  rintro rfl
  obtain ⟨above, block', index', below, rfl, hmem⟩ := exists_of_mem_ledger hentry
  have htx' := mem_vtx_of_mem_located hmem
  have hchecked' := hchecked (block', index') (by simp)
  have hlength := ((hblockChecked.tx_checked _ htx).scriptSig0_length hbase).2
  have hheight := eq_of_prefix_pushInt64 hlength (hblock.scriptSig0_height hblockChecked htx hbase)
    (haccepted.below.1.scriptSig0_height hchecked' htx' hbase)
  simp at hheight
  omega

/-- A transaction with inputs that may be entered is none of the ledger. -/
theorem notMem_ledger_of_enabled {txs : List (CTransaction × CDiskTxPos)}
    (hvalid : Valid (txs.map (spenderOf P))) {entry' : CTransaction × CDiskTxPos}
    (henabled : Enabled (Foundations.SpendIndex.indexOf (txs.map (spenderOf P))) (spenderOf P entry))
    (hchecked : entry.1.Checked) (hbase : entry.1.isCoinBase = false) (hentry' : entry' ∈ txs) :
    entry'.1 ≠ entry.1 := by
  intro heq
  obtain ⟨txin, vin, hvin⟩ := List.exists_cons_of_ne_nil hchecked.vin_ne_nil
  have hspends : txin.prevout ∈ entry.1.spends := by
    rw [CTransaction.spends_of_not_coinBase hbase, hvin]
    exact List.mem_cons_self
  exact hvalid.not_ready_of_spent (List.mem_map_of_mem hentry') (o := txin.prevout)
    (show txin.prevout ∈ entry'.1.spends from heq ▸ hspends) (henabled.ready _ hspends)

/-- The transactions of a block that may be entered are new to the branch. -/
theorem fresh_of_enabledAll (hinj : Set.InjOn P.hashTx (acceptedTxs P disk))
    (haccepted : AcceptedBranch P disk genesis chain) (hchecked : ∀ entry ∈ chain, entry.1.Checked P)
    (hblock : Accepted P disk block index (pindexOf genesis chain)) (hblockChecked : block.Checked P)
    (hvalid : Valid (ledgerOf P chain))
    (henabled : EnabledAll (Foundations.SpendIndex.indexOf (ledgerOf P chain))
      ((block.located [index] false).map (spenderOf P))) :
    ∀ entry ∈ block.located [index] false,
      P.hashTx entry.1 ∉ (ledgerOf P chain).map Spender.id := by
  have hids : ((block.located [index] false).map fun entry ↦ P.hashTx entry.1).Nodup := by
    have htxids := hblockChecked.txids_nodup
    rwa [← map_fst_located block [index] false, List.map_map] at htxids
  -- induction over the block: the part before a transaction is new, so its inputs tell it apart
  suffices hpost : ∀ post pre, block.located [index] false = pre ++ post →
      (∀ entry ∈ pre, P.hashTx entry.1 ∉ (ledgerOf P chain).map Spender.id) →
      ∀ entry ∈ post, P.hashTx entry.1 ∉ (ledgerOf P chain).map Spender.id from
    hpost _ [] rfl (by simp)
  intro post
  induction post with
  | nil => simp
  | cons entry post ih =>
    intro pre hsplit hpre
    have hentry : entry ∈ block.located [index] false := hsplit ▸ by simp
    have htx := mem_vtx_of_mem_located hentry
    have hnew : P.hashTx entry.1 ∉ (ledgerOf P chain).map Spender.id := by
      intro hmem
      obtain ⟨t, ht, hid⟩ := List.mem_map.mp hmem
      obtain ⟨entry', hentry', rfl⟩ := List.mem_map.mp ht
      have heq : entry'.1 = entry.1 :=
        hinj (mem_acceptedTxs haccepted hentry') ⟨block, index, _, hblock, htx⟩ hid
      cases hbase : entry.1.isCoinBase with
      | true =>
        exact isCoinBase_notMem_ledger haccepted hchecked hblock hblockChecked htx hbase hentry' heq
      | false =>
        rw [hsplit, List.map_append, enabledAll_append] at henabled
        have hvalid' : Valid ((ledger chain ++ pre).map (spenderOf P)) := by
          rw [List.map_append]
          refine hvalid.append henabled.1 ?_ ?_
          · rw [hsplit, List.map_append] at hids
            rw [List.map_map]
            exact hids.of_append_left
          · intro t ht
            obtain ⟨first, hfirst, rfl⟩ := List.mem_map.mp ht
            exact hpre first hfirst
        refine notMem_ledger_of_enabled hvalid' ?_ (hblockChecked.tx_checked _ htx) hbase
          (List.mem_append_left pre hentry') heq
        rw [List.map_append, indexOf_append]
        exact henabled.2.1
    intro entry' hentry'
    rcases List.mem_cons.mp hentry' with rfl | hentry'
    · exact hnew
    · refine ih (pre ++ [entry]) (by rw [hsplit]; simp) ?_ entry' hentry'
      intro first hfirst
      rcases List.mem_append.mp hfirst with hfirst | hfirst
      · exact hpre first hfirst
      · rw [List.mem_singleton.mp hfirst]
        exact hnew

/-- Ids are unique along the branch and the index is that of its ledger. -/
structure Exact (P : ChainParams) (chain : Branch) (txindexes : TxIndexView) : Prop where
  valid : Valid (ledgerOf P chain)
  index : txindexes = Foundations.SpendIndex.indexOf (ledgerOf P chain)

/-- What a connected block enters is new to the index. -/
theorem Exact.fresh (h : Exact P chain st.txdb.readTxIndex)
    (hinj : Set.InjOn P.hashTx (acceptedTxs P disk)) (haccepted : AcceptedBranch P disk genesis chain)
    (hchecked : ∀ entry ∈ chain, entry.1.Checked P)
    (hblock : Accepted P disk block index (pindexOf genesis chain))
    (hconnects : Connects P env st st' block (index :: pprev) sums) :
    ∀ t ∈ spendersOf P block (index :: pprev), t.id ∉ (ledgerOf P chain).map Spender.id := by
  have henabled := hconnects.all.enabled
  rw [h.index] at henabled
  intro t ht
  obtain ⟨entry, hentry, rfl⟩ := List.mem_map.mp ht
  exact fresh_of_enabledAll hinj haccepted hchecked hblock hconnects.checked h.valid henabled entry
    hentry

theorem Exact.connect (h : Exact P chain st.txdb.readTxIndex)
    (hconnects : Connects P env st st' block (index :: pprev) sums)
    (hfresh : ∀ t ∈ spendersOf P block (index :: pprev), t.id ∉ (ledgerOf P chain).map Spender.id) :
    Exact P ((block, index) :: chain) st'.txdb.readTxIndex where
  valid := by
    rw [ledgerOf_cons P block index chain pprev]
    refine h.valid.append (h.index ▸ hconnects.all.enabled) ?_ hfresh
    rw [map_id_spendersOf]
    exact hconnects.checked.txids_nodup
  index := by
    rw [ledgerOf_cons P block index chain pprev, indexOf_append, hconnects.txindex, h.index]

theorem Exact.disconnect (h : Exact P ((block, index) :: chain) st.txdb.readTxIndex)
    (hdisconnects : Disconnects P st st' block (index :: pprev)) :
    Exact P chain st'.txdb.readTxIndex := by
  obtain ⟨hvalid, hindex⟩ := h
  rw [ledgerOf_cons P block index chain pprev] at hvalid hindex
  rw [indexOf_append] at hindex
  have hids := hvalid.ids
  rw [List.map_append, List.nodup_append] at hids
  refine ⟨hvalid.append_left, ?_⟩
  rw [hdisconnects.txindex, hindex]
  refine undoAll_applyAll (enabledAll_append.mp hvalid.enabled).2 hids.2.1 ?_
  intro t ht
  rw [indexOf_eq_none_iff]
  exact fun hmem ↦ hids.2.2 _ hmem _ (List.mem_map_of_mem ht) rfl

theorem IndexRun.exact (hinj : Set.InjOn P.hashTx (acceptedTxs P disk))
    (h : IndexRun P disk genesis chain txindexes) : Exact P chain txindexes := by
  induction h with
  | genesis => exact ⟨⟨trivial, List.nodup_nil⟩, rfl⟩
  | connect run accepted step ih =>
    obtain ⟨sums, hconnects⟩ := connectBlock_eq_ok step
    exact ih.connect hconnects (ih.fresh hinj run.accepted run.checked accepted hconnects)
  | justCheck run step ih => exact connectBlock_justCheck step ▸ ih
  | disconnect run step ih => exact ih.disconnect (disconnectBlock_eq_ok step)

end

section

variable (P : ChainParams) (disk : BlockFiles) (genesis : CBlockIndex)

/-- A branch with the node that has it in its index. -/
abbrev Placed := Branch × NodeState

inductive BlockStep : Placed → Placed → Prop
  | connect {chain : Branch} {env : Env} {st st' : NodeState} {block : CBlock} {index : CBlockIndex}
      (files : env.files.ReadsFrom disk)
      (accepted : Accepted P disk block index (pindexOf genesis chain))
      (step : connectBlock P env st block (index :: pindexOf genesis chain) false = .ok st') :
      BlockStep (chain, st) ((block, index) :: chain, st')
  | disconnect {chain : Branch} {st st' : NodeState} {block : CBlock} {index : CBlockIndex}
      (step : disconnectBlock P st block (index :: pindexOf genesis chain) = .ok st') :
      BlockStep ((block, index) :: chain, st) (chain, st')

abbrev BlockSteps : Placed → Placed → Prop := Relation.ReflTransGen (BlockStep P disk genesis)

variable {P disk genesis} {s s' : Placed}

theorem BlockStep.frame (h : BlockStep P disk genesis s s') : NodeFrame s.2 s'.2 := by
  cases h with
  | connect files accepted step =>
    obtain ⟨sums, hconnects⟩ := connectBlock_eq_ok step
    exact hconnects.frame
  | disconnect step => exact (disconnectBlock_eq_ok step).frame

theorem BlockSteps.frame (h : BlockSteps P disk genesis s s') : NodeFrame s.2 s'.2 := by
  induction h with
  | refl => exact .refl _
  | tail steps step ih => exact ih.trans step.frame

theorem BlockStep.accepted (h : BlockStep P disk genesis s s')
    (haccepted : AcceptedBranch P disk genesis s.1) : AcceptedBranch P disk genesis s'.1 := by
  cases h with
  | connect files accepted step => exact ⟨accepted, haccepted⟩
  | disconnect step => exact haccepted.2

theorem BlockStep.indexRun (h : BlockStep P disk genesis s s')
    (hrun : IndexRun P disk genesis s.1 s.2.txdb.readTxIndex) :
    IndexRun P disk genesis s'.1 s'.2.txdb.readTxIndex := by
  cases h with
  | connect files accepted step => exact .connect hrun accepted step
  | disconnect step => exact .disconnect hrun step

theorem BlockSteps.indexRun (h : BlockSteps P disk genesis s s')
    (hrun : IndexRun P disk genesis s.1 s.2.txdb.readTxIndex) :
    IndexRun P disk genesis s'.1 s'.2.txdb.readTxIndex := by
  induction h with
  | refl => exact hrun
  | tail steps step ih => exact step.indexRun ih

end

/-- The index records exactly the transactions of a ledger and who spends their outputs. -/
structure RecordsLedger (P : ChainParams) (txs : List (CTransaction × CDiskTxPos))
    (txindexes : TxIndexView) : Prop where
  keys : ∀ hash, (txindexes hash).isSome ↔ ∃ entry ∈ txs, P.hashTx entry.1 = hash
  record : ∀ entry ∈ txs, ∃ txindex, txindexes (P.hashTx entry.1) = some txindex ∧
    txindex.pos = entry.2 ∧ txindex.vSpent.length = entry.1.vout.length
  spent : ∀ entry ∈ txs, ∀ txindex, txindexes (P.hashTx entry.1) = some txindex →
    ∀ n < entry.1.vout.length, txindex.vSpent[n]? ≠ some none ↔
      ∃! spender, spender ∈ txs ∧ ⟨P.hashTx entry.1, n⟩ ∈ spender.1.spends
  spender : ∀ entry ∈ txs, ∀ txindex, txindexes (P.hashTx entry.1) = some txindex →
    ∀ n pos, txindex.vSpent[n]? = some (some pos) →
      ∃ spender ∈ txs, ⟨P.hashTx entry.1, n⟩ ∈ spender.1.spends ∧ spender.2 = pos
  noDoubleSpend : txs.Pairwise fun entry entry' ↦ ∀ prevout ∈ entry.1.spends,
    prevout ∉ entry'.1.spends
  spends_nodup : ∀ entry ∈ txs, entry.1.spends.Nodup

section Records

variable {P : ChainParams} {disk : BlockFiles} {genesis : CBlockIndex} {chain : Branch}
  {txindexes : TxIndexView}

variable {prevout : COutPoint}

/-- The spender of an output in a valid ledger is unique. -/
theorem spender_unique {txs : List (CTransaction × CDiskTxPos)} (hvalid : Valid (txs.map (spenderOf P)))
    {entry entry' : CTransaction × CDiskTxPos} (hentry : entry ∈ txs) (hentry' : entry' ∈ txs)
    (h : prevout ∈ entry.1.spends) (h' : prevout ∈ entry'.1.spends) : entry = entry' := by
  have hspender : spenderOf P entry = spenderOf P entry' :=
    hvalid.spender_unique (List.mem_map_of_mem hentry) (List.mem_map_of_mem hentry') h h'
  have hids : (txs.map fun entry ↦ P.hashTx entry.1).Nodup := by
    have hids := hvalid.ids
    rwa [List.map_map] at hids
  exact List.inj_on_of_nodup_map hids hentry hentry' (congrArg Spender.id hspender)

theorem spenderPos_eq_some {txs : List (CTransaction × CDiskTxPos)} {pos : CDiskTxPos}
    (h : spenderPos (txs.map (spenderOf P)) prevout = some pos) :
    ∃ spender ∈ txs, prevout ∈ spender.1.spends ∧ spender.2 = pos := by
  obtain ⟨t, hfind, rfl⟩ := Option.map_eq_some_iff.mp h
  obtain ⟨spender, hspender, rfl⟩ := List.mem_map.mp (List.mem_of_find?_eq_some hfind)
  have hspends := List.find?_some hfind
  exact ⟨spender, hspender, of_decide_eq_true hspends, rfl⟩

theorem spenderPos_ne_none {txs : List (CTransaction × CDiskTxPos)}
    {spender : CTransaction × CDiskTxPos} (hspender : spender ∈ txs) (h : prevout ∈ spender.1.spends) :
    spenderPos (txs.map (spenderOf P)) prevout ≠ none := by
  intro hnone
  simp only [spenderPos, Option.map_eq_none_iff, List.find?_eq_none] at hnone
  exact hnone _ (List.mem_map_of_mem hspender) (decide_eq_true h)

/-- The index of a valid ledger records it. -/
theorem recordsLedger_indexOf {txs : List (CTransaction × CDiskTxPos)}
    (hvalid : Valid (txs.map (spenderOf P))) :
    RecordsLedger P txs (Foundations.SpendIndex.indexOf (txs.map (spenderOf P))) := by
  have hrecord : ∀ entry ∈ txs,
      Foundations.SpendIndex.indexOf (txs.map (spenderOf P)) (P.hashTx entry.1) =
        some (entryOf (txs.map (spenderOf P)) (spenderOf P entry)) :=
    fun entry hentry ↦ hvalid.indexOf_apply (List.mem_map_of_mem hentry)
  have hmark : ∀ (entry : CTransaction × CDiskTxPos) n,
      (entryOf (txs.map (spenderOf P)) (spenderOf P entry)).vSpent[n]? =
        if n < entry.1.vout.length then
          some (spenderPos (txs.map (spenderOf P)) ⟨P.hashTx entry.1, n⟩)
        else none := by
    intro entry n
    by_cases hn : n < entry.1.vout.length
    · simp [entryOf, spenderOf, hn]
    · simp [entryOf, spenderOf, hn]
  refine ⟨?_, ?_, ?_, ?_, ?_, ?_⟩
  · intro hash
    rw [Option.isSome_iff_ne_none, ne_eq, indexOf_eq_none_iff, not_not, List.map_map, List.mem_map]
    rfl
  · intro entry hentry
    exact ⟨_, hrecord entry hentry, rfl, by simp [entryOf, spenderOf]⟩
  · intro entry hentry txindex htxindex n hn
    obtain rfl := Option.some.inj ((hrecord entry hentry).symm.trans htxindex)
    rw [hmark, if_pos hn]
    constructor
    · intro hsome
      obtain ⟨pos, hpos⟩ := Option.ne_none_iff_exists'.mp fun hnone ↦ hsome (congrArg some hnone)
      obtain ⟨spender, hspender, hspends, -⟩ := spenderPos_eq_some hpos
      exact ⟨spender, ⟨hspender, hspends⟩, fun other hother ↦
        spender_unique hvalid hother.1 hspender hother.2 hspends⟩
    · rintro ⟨spender, ⟨hspender, hspends⟩, -⟩ hnone
      exact spenderPos_ne_none hspender hspends (Option.some.inj hnone)
  · intro entry hentry txindex htxindex n pos hpos
    obtain rfl := Option.some.inj ((hrecord entry hentry).symm.trans htxindex)
    rw [hmark] at hpos
    split at hpos
    · exact spenderPos_eq_some (Option.some.inj hpos)
    · cases hpos
  · have hpairwise := hvalid.pairwise_disjoint
    rwa [List.pairwise_map] at hpairwise
  · intro entry hentry
    obtain ⟨above, below, rfl⟩ := List.append_of_mem hentry
    have henabled := hvalid.enabled
    rw [List.map_append, enabledAll_append] at henabled
    exact henabled.2.1.nodup

/-- The transaction index of a run: exactly the transactions of the current branch, each at its
position, each output marked with the one transaction that spends it. -/
theorem recordsLedger_of_indexRun (hinj : Set.InjOn P.hashTx (acceptedTxs P disk))
    (h : IndexRun P disk genesis chain txindexes) : RecordsLedger P (ledger chain) txindexes := by
  obtain ⟨hvalid, hindex⟩ := h.exact hinj
  rw [hindex]
  exact recordsLedger_indexOf hvalid

/-- No two transactions of a branch have one hash, and a block that connects on top of it finds no
record under the hash of any of its transactions. -/
theorem txids_unique_of_indexRun (hinj : Set.InjOn P.hashTx (acceptedTxs P disk))
    (h : IndexRun P disk genesis chain txindexes) :
    ((ledger chain).map fun entry ↦ P.hashTx entry.1).Nodup ∧
      ∀ env st st' block index, st.txdb.readTxIndex = txindexes →
        Accepted P disk block index (pindexOf genesis chain) →
        connectBlock P env st block (index :: pindexOf genesis chain) false = .ok st' →
        (block.vtx.map P.hashTx).Nodup ∧ ∀ tx ∈ block.vtx, txindexes (P.hashTx tx) = none := by
  have hexact := h.exact hinj
  refine ⟨?_, ?_⟩
  · have hids := hexact.valid.ids
    rwa [ledgerOf, List.map_map] at hids
  · rintro env st st' block index rfl haccepted hconnect
    obtain ⟨sums, hconnects⟩ := connectBlock_eq_ok hconnect
    refine ⟨hconnects.checked.txids_nodup, ?_⟩
    intro tx htx
    have hfresh := hexact.fresh hinj h.accepted h.checked haccepted hconnects
    have hid : P.hashTx tx ∈ (spendersOf P block (index :: pindexOf genesis chain)).map Spender.id := by
      rw [map_id_spendersOf]
      exact List.mem_map_of_mem htx
    obtain ⟨t, ht, heq⟩ := List.mem_map.mp hid
    rw [hexact.index, indexOf_eq_none_iff, ← heq]
    exact hfresh t ht

end Records

namespace RunExample

open Builders

def testNet : ChainParams := network true

/-- Transaction 60 spends the large subsidy of block 2. -/
def payment : CTransaction := spending 60 4000 [⟨3, 0⟩] [output (1000000018 * COIN)]

def paying : CBlock :=
  blockOf testNet 13 12 4200 (easiestBits testNet) [coinbase 14 4200 13 [output 0], payment]

def blockAt (nHeight : ℕ) : CBlock := if nHeight = 13 then paying else quietBlock testNet nHeight

def blocks : List (ℕ × ℕ × CBlock) := quietFiles testNet 13 ++ [(14, 8, paying)]

def disk : BlockFiles := filesOf blocks

def genesis : CBlockIndex := Builders.indexOf testNet (quietBlock testNet 0) 1 8

def entry (nHeight : ℕ) : CBlock × CBlockIndex :=
  (blockAt nHeight, Builders.indexOf testNet (blockAt nHeight) (nHeight + 1) 8)

def chainTo : ℕ → Branch
  | 0 => []
  | nHeight + 1 => entry (nHeight + 1) :: chainTo nHeight

def env : Env := surroundings disk 5000

variable {n : ℕ}

theorem accepted (hn : n < 13) :
    Accepted testNet disk (entry (n + 1)).1 (entry (n + 1)).2 (pindexOf genesis (chainTo n)) := by
  have hchecks : ∀ n < 13,
      (entry (n + 1)).1.hashPrevBlock = (pindexOf genesis (chainTo n)).getBlockHash ∧
      acceptBlockChecks testNet env n (pindexOf genesis (chainTo n)) (entry (n + 1)).1 = .ok () ∧
      disk.readBlock (n + 2) 8 = some (entry (n + 1)).1 ∧
      disk.readHeader (n + 2) 8 = some (entry (n + 1)).1.toCBlockHeader ∧
      ∀ located ∈ locate (n + 2) 8 (firstTxPos 8 (entry (n + 1)).1.vtx) (entry (n + 1)).1.vtx,
        disk.readTx (n + 2) located.2.nTxPos = some located.1 := by decide +kernel
  obtain ⟨hparent, haccept, hblock, hheader, htx⟩ := hchecks n hn
  exact ⟨hparent, ⟨env, n, haccept⟩, ⟨0, (0, false), rfl⟩,
    ⟨Nat.le_add_left 1 (n + 1), le_refl 8, hblock, hheader, htx⟩⟩

theorem acceptedBranch (hn : n ≤ 13) : AcceptedBranch testNet disk genesis (chainTo n) := by
  induction n with
  | zero => trivial
  | succ n ih => exact ⟨accepted hn, ih (Nat.le_of_succ_le hn)⟩

theorem hashTx_injOn : Set.InjOn testNet.hashTx (acceptedTxs testNet disk) := by
  have hnames : ∀ block ∈ blocks.map (·.2.2), ∀ block' ∈ blocks.map (·.2.2),
      ∀ tx ∈ block.vtx, ∀ tx' ∈ block'.vtx, testNet.hashTx tx = testNet.hashTx tx' → tx = tx' := by
    decide +kernel
  rintro tx ⟨block, index, pprev, haccepted, htx⟩ tx' ⟨block', index', pprev', haccepted', htx'⟩ heq
  exact hnames block (mem_of_readBlock haccepted.written.readBlock) block'
    (mem_of_readBlock haccepted'.written.readBlock) tx htx tx' htx' heq

/-- The block of this height has become the tip. -/
def tipTo (nHeight : ℕ) (st : NodeState) : NodeState :=
  { st with pindexBest := pindexOf genesis (chainTo nHeight), nBestHeight := nHeight }

/-- The node after the block of the next height was connected. -/
def connectNext (st : NodeState) (nHeight : ℕ) : NodeState :=
  connected testNet env st (entry (nHeight + 1)).1 (pindexOf genesis (chainTo (nHeight + 1)))

def nodeAfter : ℕ → NodeState
  | 0 => nodeAt [genesis] (txdbOf [])
  | nHeight + 1 => tipTo (nHeight + 1) (connectNext (nodeAfter nHeight) nHeight)

/-- The node after the block of this height was disconnected. -/
def disconnectTop (st : NodeState) (nHeight : ℕ) : NodeState :=
  match disconnectBlock testNet st (entry nHeight).1 (pindexOf genesis (chainTo nHeight)) with
  | .ok st' => st'
  | .error _ => st

theorem disconnectTop_eq {st : NodeState} {nHeight : ℕ} (h : (disconnectBlock testNet st
      (entry nHeight).1 (pindexOf genesis (chainTo nHeight))).isOk = true) :
    disconnectBlock testNet st (entry nHeight).1 (pindexOf genesis (chainTo nHeight)) =
      .ok (disconnectTop st nHeight) := by
  obtain ⟨st', heq⟩ := exists_eq_ok h
  simp [disconnectTop, heq]

/-- The payment is disconnected, and connected again. -/
def lowered : NodeState := tipTo 12 (disconnectTop (nodeAfter 13) 13)

def finalNode : NodeState := connectNext lowered 12

theorem connectNext_nodeAfter : ∀ n < 13, (connectBlock testNet env (nodeAfter n) (entry (n + 1)).1
    (pindexOf genesis (chainTo (n + 1))) false).isOk = true := by decide +kernel

theorem disconnectTop_nodeAfter : (disconnectBlock testNet (nodeAfter 13) (entry 13).1
    (pindexOf genesis (chainTo 13))).isOk = true := by decide +kernel

theorem connectNext_lowered : (connectBlock testNet env lowered (entry 13).1
    (pindexOf genesis (chainTo 13)) false).isOk = true := by decide +kernel

theorem indexRun_connectNext (hn : n < 13) {st : NodeState}
    (h : IndexRun testNet disk genesis (chainTo n) st.txdb.readTxIndex)
    (hconnects : (connectBlock testNet env st (entry (n + 1)).1 (pindexOf genesis (chainTo (n + 1)))
      false).isOk = true) :
    IndexRun testNet disk genesis (chainTo (n + 1)) (connectNext st n).txdb.readTxIndex :=
  @IndexRun.connect _ _ _ _ _ _ _ (entry (n + 1)).1 (entry (n + 1)).2 h (accepted hn)
    (connected_eq hconnects)

theorem indexRun_disconnectTop {st : NodeState}
    (h : IndexRun testNet disk genesis (chainTo (n + 1)) st.txdb.readTxIndex)
    (hdisconnects : (disconnectBlock testNet st (entry (n + 1)).1
      (pindexOf genesis (chainTo (n + 1)))).isOk = true) :
    IndexRun testNet disk genesis (chainTo n)
      (tipTo n (disconnectTop st (n + 1))).txdb.readTxIndex :=
  @IndexRun.disconnect _ _ _ _ _ (disconnectTop st (n + 1)) (entry (n + 1)).1 (entry (n + 1)).2 h
    (disconnectTop_eq hdisconnects)

theorem indexRun_nodeAfter (hn : n ≤ 13) :
    IndexRun testNet disk genesis (chainTo n) (nodeAfter n).txdb.readTxIndex := by
  induction n with
  | zero => exact .genesis
  | succ n ih => exact indexRun_connectNext hn (ih (Nat.le_of_succ_le hn)) (connectNext_nodeAfter n hn)

theorem indexRun : IndexRun testNet disk genesis (chainTo 13) finalNode.txdb.readTxIndex := by
  have hlowered : IndexRun testNet disk genesis (chainTo 12) lowered.txdb.readTxIndex :=
    @indexRun_disconnectTop 12 (nodeAfter 13) (indexRun_nodeAfter le_rfl) disconnectTop_nodeAfter
  exact indexRun_connectNext (Nat.lt_succ_self 12) hlowered connectNext_lowered

end RunExample

open RunExample in
/-- A payment is connected, disconnected and connected again. -/
theorem recordsLedger_example :
    RecordsLedger testNet (ledger (chainTo 13)) finalNode.txdb.readTxIndex :=
  recordsLedger_of_indexRun hashTx_injOn indexRun

open RunExample in
theorem txids_unique_example :
    ((ledger (chainTo 13)).map fun entry ↦ testNet.hashTx entry.1).Nodup ∧
      ∀ env st st' block index, st.txdb.readTxIndex = finalNode.txdb.readTxIndex →
        Accepted testNet disk block index (pindexOf genesis (chainTo 13)) →
        connectBlock testNet env st block (index :: pindexOf genesis (chainTo 13)) false = .ok st' →
        (block.vtx.map testNet.hashTx).Nodup ∧
          ∀ tx ∈ block.vtx, finalNode.txdb.readTxIndex (testNet.hashTx tx) = none :=
  txids_unique_of_indexRun hashTx_injOn indexRun

end Electra.Ledger
