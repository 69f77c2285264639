import Electra.Ledger.IndexRun
import Mathlib.Data.FinEnum

/-!
# The supply of a branch

The supply of a branch is the value of the outputs that the index of its ledger lists as unspent,
read from the block files at the positions in the index.  A connected block changes it by what its
transactions create minus what they spend, which is what `ConnectBlock` adds up.
-/

namespace Electra.Ledger

open Chain Foundations.SpendIndex Foundations.Outcome

variable (P : ChainParams) (disk : BlockFiles)

/-- Value of an output of the transaction at a position. -/
def outputValue (pos : CDiskTxPos) (n : ℕ) : ℤ :=
  ((disk.readTx pos.nFile pos.nTxPos).bind fun tx ↦ tx.vout[n]?).elim 0 CTxOut.nValue

/-- Value of all outputs that an index lists as unspent. -/
noncomputable def supplyAt (txindexes : TxIndexView) : ℤ := unspentTotal (outputValue disk) txindexes

/-- The transactions of a block with the value of what each spends, on a branch. -/
def branchValues (chain : Branch) (block : CBlock) (index : CBlockIndex) : List (CTransaction × ℤ) :=
  withValueIn P disk (fun _ ↦ none) (Foundations.SpendIndex.indexOf (ledgerOf P chain))
    (block.located [index] false)

/-- The transactions are where their positions say. -/
def OnDisk (entries : List (CTransaction × CDiskTxPos)) : Prop :=
  ∀ entry ∈ entries, disk.readTx entry.2.nFile entry.2.nTxPos = some entry.1 ∧
    entry.2 ≠ .memoryPool

/-- No record points into the memory pool. -/
def NoneInPool (txindexes : TxIndexView) : Prop :=
  ∀ hash txindex, txindexes hash = some txindex → txindex.pos ≠ .memoryPool

variable {P disk} {genesis : CBlockIndex} {chain : Branch} {block : CBlock} {index : CBlockIndex}

variable {entry : CTransaction × CDiskTxPos} {pprev : PIndex} {txindexes : TxIndexView}
  {entries : List (CTransaction × CDiskTxPos)} {files : BlockFiles}
  {mapTx : Uint256 → Option CTransaction}

theorem locate_fst {nFile nBlockPos nTxPos : ℕ} {vtx : List CTransaction}
    (h : entry ∈ locate nFile nBlockPos nTxPos vtx) :
    entry.2.nFile = nFile ∧ entry.2.nBlockPos = nBlockPos := by
  induction vtx generalizing nTxPos with
  | nil => cases h
  | cons tx vtx ih =>
    rcases List.mem_cons.mp h with rfl | h
    · exact ⟨rfl, rfl⟩
    · exact ih h

theorem Accepted.onDisk (h : Accepted P disk block index pprev) :
    OnDisk disk (block.located [index] false) := by
  intro entry hentry
  have hmem : entry ∈ locate index.nFile index.nBlockPos (firstTxPos index.nBlockPos block.vtx)
      block.vtx := hentry
  obtain ⟨hnFile, hnBlockPos⟩ := locate_fst hmem
  refine ⟨hnFile ▸ h.written.readTx entry hmem, ?_⟩
  intro heq
  have hge := h.written.nBlockPos_ge
  rw [heq] at hnBlockPos
  simp only [CDiskTxPos.memoryPool] at hnBlockPos
  omega

theorem AcceptedBranch.onDisk (h : AcceptedBranch P disk genesis chain) :
    OnDisk disk (ledger chain) := by
  intro entry hentry
  obtain ⟨above, block, index, below, rfl, hmem⟩ := exists_of_mem_ledger hentry
  exact h.below.1.onDisk entry hmem

theorem NoneInPool.apply (h : NoneInPool txindexes) (hentry : entry.2 ≠ .memoryPool) :
    NoneInPool (apply txindexes (spenderOf P entry)) := by
  intro hash txindex htxindex
  rw [apply_eq] at htxindex
  by_cases heq : hash = (spenderOf P entry).id
  · subst heq
    rw [Function.update_self] at htxindex
    obtain rfl := Option.some.inj htxindex
    exact hentry
  · rw [Function.update_of_ne heq] at htxindex
    obtain ⟨old, hold, rfl⟩ := Option.map_eq_some_iff.mp htxindex
    exact h hash old hold

theorem NoneInPool.applyAll (h : NoneInPool txindexes) (hentries : OnDisk disk entries) :
    NoneInPool (applyAll txindexes (entries.map (spenderOf P))) := by
  induction entries generalizing txindexes with
  | nil => exact h
  | cons entry entries ih =>
    exact ih (h.apply (hentries entry List.mem_cons_self).2) fun e he ↦ hentries e (.tail _ he)

theorem AcceptedBranch.noneInPool (h : AcceptedBranch P disk genesis chain) :
    NoneInPool (Foundations.SpendIndex.indexOf (ledgerOf P chain)) :=
  NoneInPool.applyAll (fun _ _ hnone ↦ nomatch hnone) h.onDisk

/-- What a node fetches while it connects is what is on disk. -/
theorem fetchedValue_eq {full : TxIndexView} {prevout : COutPoint} (hfiles : files.ReadsFrom disk)
    (hshadow : Shadow txindexes full) (hpool : NoneInPool full)
    (hfetches : Fetches files mapTx txindexes prevout) :
    fetchedValue files mapTx txindexes prevout = fetchedValue disk (fun _ ↦ none) full prevout := by
  obtain ⟨txPrev, hbind⟩ := Option.isSome_iff_exists.mp hfetches
  obtain ⟨txindex, htxindex, hfetched⟩ := Option.bind_eq_some_iff.mp hbind
  have hfull : full prevout.hash = some txindex := by
    rcases hshadow prevout.hash with heq | ⟨habsent, -⟩
    · exact heq ▸ htxindex
    · rw [habsent] at htxindex
      cases htxindex
  have hpos := hpool _ _ hfull
  rw [fetchedTx, if_neg hpos] at hfetched
  have hdisk := hfiles.readTx _ _ _ hfetched
  simp [fetchedValue, htxindex, hfull, fetchedTx, hpos, hfetched, hdisk]

theorem withValueIn_eq {full : TxIndexView} (hfiles : files.ReadsFrom disk)
    (hshadow : Shadow txindexes full) (hpool : NoneInPool full) (hentries : OnDisk disk entries)
    (hfetches : FetchesAll P files mapTx txindexes entries) :
    withValueIn P files mapTx txindexes entries = withValueIn P disk (fun _ ↦ none) full entries := by
  induction entries generalizing txindexes full with
  | nil => rfl
  | cons entry entries ih =>
    rw [withValueIn, withValueIn, ih (shadow_apply hshadow _)
      (hpool.apply (hentries entry List.mem_cons_self).2) (fun e he ↦ hentries e (.tail _ he))
      hfetches.2]
    congr 2
    unfold valueIn
    congr 1
    exact List.map_congr_left fun prevout hprevout ↦
      fetchedValue_eq hfiles hshadow hpool (hfetches.1 prevout hprevout)

theorem valueAt_outputValue (hpool : NoneInPool txindexes) (prevout : COutPoint) :
    valueAt (outputValue disk) txindexes prevout =
      fetchedValue disk (fun _ ↦ none) txindexes prevout := by
  unfold valueAt fetchedValue outputValue
  cases htxindex : txindexes prevout.hash with
  | none => rfl
  | some txindex =>
    simp only [Option.elim_some, Option.bind_some, fetchedTx, if_neg (hpool _ _ htxindex)]
    cases disk.readTx txindex.pos.nFile txindex.pos.nTxPos with
    | none => rfl
    | some txPrev => cases htxout : txPrev.vout[prevout.n]? <;> simp [htxout]

theorem sum_outputValue (hread : disk.readTx entry.2.nFile entry.2.nTxPos = some entry.1) :
    ((List.range (spenderOf P entry).outs).map (outputValue disk (spenderOf P entry).pos)).sum =
      entry.1.valueOut := by
  unfold CTransaction.valueOut
  congr 1
  apply List.ext_getElem
  · simp [spenderOf]
  · intro n h₁ h₂
    have hn : n < entry.1.vout.length := by simpa using h₂
    simp [outputValue, spenderOf, hread, hn]

/-- The gain of the index is what the transactions create minus what they spend. -/
theorem gain_eq (hpool : NoneInPool txindexes) (hentries : OnDisk disk entries) :
    gain (outputValue disk) txindexes (entries.map (spenderOf P)) =
      sumOut (withValueIn P disk (fun _ ↦ none) txindexes entries) -
        sumIn (withValueIn P disk (fun _ ↦ none) txindexes entries) := by
  induction entries generalizing txindexes with
  | nil => rfl
  | cons entry entries ih =>
    obtain ⟨hread, hpos⟩ := hentries entry List.mem_cons_self
    have hrest := ih (hpool.apply (P := P) hpos) fun e he ↦ hentries e (.tail _ he)
    have hins : ((spenderOf P entry).ins.map (valueAt (outputValue disk) txindexes)).sum =
        valueIn disk (fun _ ↦ none) txindexes entry.1 := by
      unfold valueIn
      congr 1
      exact List.map_congr_left fun prevout _ ↦ valueAt_outputValue hpool prevout
    rw [List.map_cons, gain, hrest, hins, sum_outputValue hread, withValueIn]
    simp only [sumOut, sumIn, List.map_cons, List.sum_cons]
    ring

/-- Entering the transactions of a block changes the supply of its branch by what they create minus
what they spend, and the sums of `ConnectBlock` are those of the branch. -/
theorem supply_connectsAll {st : NodeState} {sums : ConnectSums} (hfiles : files.ReadsFrom disk)
    (hledgered : Ledgered P chain st.txdb.readTxIndex)
    (haccepted : AcceptedBranch P disk genesis ((block, index) :: chain))
    (hall : ConnectsAll P files st (block.located (index :: pprev) false) sums) :
    SumsOf (branchValues P disk chain block index) sums ∧
      supplyAt disk (Foundations.SpendIndex.indexOf (ledgerOf P ((block, index) :: chain))) =
        supplyAt disk (Foundations.SpendIndex.indexOf (ledgerOf P chain)) + sums.nValueOut -
          sums.nValueIn := by
  have hpool := haccepted.2.noneInPool
  have hentries := haccepted.1.onDisk
  have hsums : SumsOf (branchValues P disk chain block index) sums := by
    rw [branchValues, ← withValueIn_eq hfiles hledgered.shadow hpool hentries hall.fetches]
    exact hall.sums
  refine ⟨hsums, ?_⟩
  have henabled : EnabledAll (Foundations.SpendIndex.indexOf (ledgerOf P chain))
      (spendersOf P block (index :: pprev)) := hledgered.shadow.enabledAll hall.enabled
  rw [ledgerOf_cons P block index chain pprev, indexOf_append]
  unfold supplyAt
  rw [unspentTotal_applyAll henabled, hsums.nValueOut, hsums.nValueIn, branchValues]
  have hgain := gain_eq (P := P) hpool hentries
  rw [show spendersOf P block (index :: pprev) = (block.located [index] false).map (spenderOf P) from
    rfl, hgain]
  ring

/-- A connected block changes the supply of its branch by what it creates minus what it spends. -/
theorem supply_connects {env : Env} {st st' : NodeState} {sums : ConnectSums}
    (hfiles : env.files.ReadsFrom disk) (hledgered : Ledgered P chain st.txdb.readTxIndex)
    (haccepted : AcceptedBranch P disk genesis ((block, index) :: chain))
    (hconnects : Connects P env st st' block (index :: pprev) sums) :
    SumsOf (branchValues P disk chain block index) sums ∧
      supplyAt disk (Foundations.SpendIndex.indexOf (ledgerOf P ((block, index) :: chain))) =
        supplyAt disk (Foundations.SpendIndex.indexOf (ledgerOf P chain)) + sums.nValueOut -
          sums.nValueIn :=
  supply_connectsAll hfiles hledgered haccepted hconnects.all

end Electra.Ledger
