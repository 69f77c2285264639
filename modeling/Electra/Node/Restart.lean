import Electra.Node.LoadBlockIndex
import Electra.Node.SyncEvents

/-!
# Restart of a node

A node that is stopped and started again has the block index that it had, as long as no reorganisation rolls
back a block that it had connected and all postponed blocks connect.
-/

namespace Electra.Node

open Chain Ledger Foundations.Outcome

/-- `setStakeSeen` after an event. -/
def stakesAfter (P : ChainParams) (st : NodeState) (setStakeSeen : Finset ProofOfStake) :
    NodeEvent → Finset ProofOfStake
  | .acceptBlock env block =>
      match st.mapBlockIndex (block.getHash P),
        (acceptBlock P env st block).2.mapBlockIndex (block.getHash P) with
      | none, some (index :: _) =>
          if index.fProofOfStake then insert index.proofOfStake setStakeSeen else setStakeSeen
      | _, _ => setStakeSeen
  | .setBestChain _ _ => setStakeSeen
  | .acceptTx _ _ => setStakeSeen
  | .removeTx _ _ => setStakeSeen

/-- The nodes and the sets of stakes that a run leads to, if its events meet a condition.  The genesis block has
no predecessor and the checksum of its checkpoint. -/
inductive StakeRun (P : ChainParams) (H : ChecksumHash) (disk : BlockFiles) (genesis : CBlockIndex)
    (Meets : NodeState → NodeEvent → Prop) : NodeState → Finset ProofOfStake → Prop
  | start {env : Env} {setpwalletRegistered : List CWallet} {block : CBlock} {nFile nBlockPos : ℕ}
      {st : NodeState}
      (run : startNode P env setpwalletRegistered block nFile nBlockPos = (true, st))
      (started : st.pindexGenesisBlock = [genesis])
      (first : block.hashPrevBlock = 0)
      (checked : checkStakeModifierCheckpoints P.fTestNet 0 (checksumOver H none genesis) = true) :
      StakeRun P H disk genesis Meets st (if genesis.fProofOfStake then {genesis.proofOfStake} else ∅)
  | event {st : NodeState} {setStakeSeen : Finset ProofOfStake} {event : NodeEvent}
      (run : StakeRun P H disk genesis Meets st setStakeSeen) (fits : Fits disk st event)
      (meets : Meets st event) :
      StakeRun P H disk genesis Meets (handleEvent P st event) (stakesAfter P st setStakeSeen event)

/-- No block with hash zero is accepted. -/
def HashNonzero (P : ChainParams) : NodeEvent → Prop
  | .acceptBlock _ block => block.getHash P ≠ 0
  | .setBestChain _ _ => True
  | .acceptTx _ _ => True
  | .removeTx _ _ => True

instance (P : ChainParams) : DecidablePred (HashNonzero P)
  | .acceptBlock _ block => inferInstanceAs (Decidable (block.getHash P ≠ 0))
  | .setBestChain _ _ => .isTrue trivial
  | .acceptTx _ _ => .isTrue trivial
  | .removeTx _ _ => .isTrue trivial

section Runs

variable {P : ChainParams} {H : ChecksumHash} {disk : BlockFiles} {genesis : CBlockIndex} {env : Env}
  {st : NodeState} {setStakeSeen : Finset ProofOfStake} {block : CBlock} {chain : Branch}

theorem StakeRun.nodeRun {Meets Meets' : NodeState → NodeEvent → Prop}
    (hle : ∀ st event, Meets st event → Meets' st event) (h : StakeRun P H disk genesis Meets st setStakeSeen) :
    NodeRun P disk genesis Meets' st := by
  induction h with
  | start run started => exact .start run started
  | event run fits meets ih => exact .event ih fits (hle _ _ meets)

section NewEntry

variable {index : CBlockIndex} {pprev : PIndex}

/-- A new entry has no more than its record holds. -/
theorem unserialized_acceptedEntry (h : acceptedEntry P env st block = some (index :: pprev)) :
    CBlockIndex.unserialized index = index := by
  unfold acceptedEntry at h
  split at h
  · next pindexPrev nFile nBlockPos stakeModifier hnew hprev hwritten hmodifier =>
    split at h
    · next u hchecks =>
      obtain ⟨rfl, -⟩ := List.cons.inj (Option.some.inj h)
      unfold CBlockIndex.unserialized newBlockIndex
      cases block.isProofOfStake <;> rfl
    · cases h
  · cases h

/-- The header of a new entry is that of its block. -/
theorem header_acceptedEntry (hindexed : Indexed P disk genesis st)
    (h : acceptedEntry P env st block = some (index :: pprev)) :
    P.hashHeader (CBlockIndex.header index pprev.getBlockHash) = index.phashBlock := by
  obtain ⟨_, _, hcons, -, hprev, -, -, hashProofOfStake, stakeModifier, hindex⟩ := acceptedEntry_eq_some h
  obtain ⟨rfl, rfl⟩ := List.cons.inj hcons
  rw [hindex, hindexed.hash _ _ hprev]
  rfl

/-- One more entry. -/
theorem Restorable.insert (h : Restorable P st setStakeSeen) (hnew : st.mapBlockIndex index.phashBlock = none)
    (hnonzero : index.phashBlock ≠ 0)
    (hheader : P.hashHeader (CBlockIndex.header index pprev.getBlockHash) = index.phashBlock)
    (hunserialized : CBlockIndex.unserialized index = index) {st' : NodeState}
    (hmap : st'.mapBlockIndex =
      Function.update st.mapBlockIndex index.phashBlock (some (index :: pprev))) :
    Restorable P st'
      (if index.fProofOfStake then Insert.insert index.proofOfStake setStakeSeen else setStakeSeen) := by
  have hcases : ∀ hash pindex, st'.mapBlockIndex hash = some pindex ↔
      hash = index.phashBlock ∧ pindex = index :: pprev ∨ st.mapBlockIndex hash = some pindex := by
    intro hash pindex
    rw [hmap]
    by_cases heq : hash = index.phashBlock
    · rw [heq, Function.update_self, hnew, Option.some.injEq, eq_comm]
      simp
    · rw [Function.update_of_ne heq]
      simp [heq]
  refine ⟨?_, ?_, ?_, ?_, ?_⟩
  · rw [hmap, Function.update_of_ne hnonzero.symm, h.nonzero]
  · intro hash index' pprev' hindex
    rcases (hcases _ _).mp hindex with ⟨-, hcons⟩ | hold
    · obtain ⟨rfl, rfl⟩ := List.cons.inj hcons
      exact hheader
    · exact h.header _ _ _ hold
  · intro hash index' pprev' hindex
    rcases (hcases _ _).mp hindex with ⟨-, hcons⟩ | hold
    · obtain ⟨rfl, rfl⟩ := List.cons.inj hcons
      exact hunserialized
    · exact h.unserialized _ _ _ hold
  · refine (h.finite.insert index.phashBlock).subset fun hash ⟨pindex, hindex⟩ ↦ ?_
    exact ((hcases _ _).mp hindex).imp And.left fun hold ↦ ⟨pindex, hold⟩
  · intro stake
    have hsplit : (∃ hash index', ∃ pprev' : PIndex, st'.mapBlockIndex hash = some (index' :: pprev') ∧
        index'.fProofOfStake = true ∧ index'.proofOfStake = stake) ↔
        index.fProofOfStake = true ∧ index.proofOfStake = stake ∨ stake ∈ setStakeSeen := by
      rw [h.stakes]
      constructor
      · rintro ⟨hash, index', pprev', hindex, hstake⟩
        rcases (hcases _ _).mp hindex with ⟨-, hcons⟩ | hold
        · obtain ⟨rfl, rfl⟩ := List.cons.inj hcons
          exact .inl hstake
        · exact .inr ⟨hash, index', pprev', hold, hstake⟩
      · rintro (hstake | ⟨hash, index', pprev', hold, hstake⟩)
        · exact ⟨_, index, pprev, (hcases _ _).mpr (.inl ⟨rfl, rfl⟩), hstake⟩
        · exact ⟨hash, index', pprev', (hcases _ _).mpr (.inr hold), hstake⟩
    rw [hsplit]
    split
    · next hstake => simp [hstake, eq_comm]
    · next hstake => simp [hstake]

end NewEntry

theorem Restorable.congr (h : Restorable P st setStakeSeen) {st' : NodeState}
    (hmap : st'.mapBlockIndex = st.mapBlockIndex) : Restorable P st' setStakeSeen :=
  ⟨hmap ▸ h.nonzero, hmap ▸ h.header, hmap ▸ h.unserialized, hmap ▸ h.finite, hmap ▸ h.stakes⟩

/-- An event keeps what a restart needs. -/
theorem Restorable.handleEvent {event : NodeEvent} (h : Restorable P st setStakeSeen)
    (hindexed : Indexed P disk genesis st) (hnonzero : HashNonzero P event) :
    Restorable P (Chain.handleEvent P st event) (stakesAfter P st setStakeSeen event) := by
  cases event with
  | acceptBlock env block =>
    have hmap := mapBlockIndex_acceptBlock (P := P) env st block
    cases hentry : acceptedEntry P env st block with
    | none =>
      have hkept : (acceptBlock P env st block).2.mapBlockIndex = st.mapBlockIndex := by
        rw [hmap, hentry]
      have hsame : stakesAfter P st setStakeSeen (.acceptBlock env block) = setStakeSeen := by
        rw [stakesAfter, hkept]
        cases st.mapBlockIndex (block.getHash P) <;> rfl
      rw [hsame]
      exact h.congr hkept
    | some pindexNew =>
      obtain ⟨index, pprev, rfl, hnew, -, -, -, hashProofOfStake, stakeModifier, hindex⟩ :=
        acceptedEntry_eq_some hentry
      have hhash : block.getHash P = index.phashBlock := by
        rw [hindex]
        rfl
      rw [hentry, hhash] at hmap
      have hseen : stakesAfter P st setStakeSeen (.acceptBlock env block) =
          if index.fProofOfStake then Insert.insert index.proofOfStake setStakeSeen else setStakeSeen := by
        rw [stakesAfter, hmap, hnew, hhash]
        dsimp only
        rw [Function.update_self]
      rw [hseen]
      exact h.insert (hhash ▸ hnew) (hhash ▸ hnonzero) (header_acceptedEntry hindexed hentry)
        (unserialized_acceptedEntry hentry) hmap
  | setBestChain env pindex => exact h.congr (mapBlockIndex_setBestChainTo P env st pindex)
  | acceptTx env tx =>
    apply h.congr
    rw [Chain.handleEvent, acceptToMemoryPool]
    split <;> rfl
  | removeTx tx fRecursive => exact h.congr rfl

/-- The entry of the genesis block. -/
theorem mapBlockIndex_startNode {setpwalletRegistered : List CWallet} {nFile nBlockPos : ℕ}
    (h : startNode P env setpwalletRegistered block nFile nBlockPos = (true, st)) :
    ∃ stakeModifier, st.mapBlockIndex = Function.update (fun _ ↦ none) (block.getHash P)
      (some [newBlockIndex P block nFile nBlockPos 0 stakeModifier]) := by
  have hempty : (emptyNode setpwalletRegistered).mapBlockIndex = fun _ ↦ none := rfl
  simp only [startNode, addToBlockIndex, hempty, Option.isSome_none, Bool.false_eq_true, if_false,
    Option.getD_none] at h
  cases hmodifier : env.stakeModifier with
  | none => simp [hmodifier] at h
  | some stakeModifier =>
    refine ⟨stakeModifier, ?_⟩
    simp only [hmodifier] at h
    cases hindex : indexNewBlock env (emptyNode setpwalletRegistered)
        [newBlockIndex P block nFile nBlockPos 0 stakeModifier] with
    | mk fOk st₁ =>
      have hmap : st₁.mapBlockIndex = Function.update (fun _ ↦ none) (block.getHash P)
          (some [newBlockIndex P block nFile nBlockPos 0 stakeModifier]) := by
        obtain rfl : _ = st₁ := congrArg Prod.snd hindex
        rfl
      rw [hindex] at h
      cases fOk with
      | false => cases h
      | true =>
        dsimp only at h
        split at h
        · rw [← hmap, ← (chainMoved P env st₁ block
            [newBlockIndex P block nFile nBlockPos 0 stakeModifier]).mapBlockIndex, h]
        · obtain ⟨-, rfl⟩ := Prod.mk.inj h
          exact hmap

theorem restorable_start {setpwalletRegistered : List CWallet} {nFile nBlockPos : ℕ}
    (h : startNode P env setpwalletRegistered block nFile nBlockPos = (true, st))
    (hstarted : st.pindexGenesisBlock = [genesis]) (hfirst : block.hashPrevBlock = 0) :
    Restorable P st (if genesis.fProofOfStake then {genesis.proofOfStake} else ∅) := by
  have hempty : Restorable P (emptyNode setpwalletRegistered) ∅ :=
    ⟨rfl, nofun, nofun, by simp [emptyNode], by simp [emptyNode]⟩
  obtain ⟨hhash, hgenesis, -⟩ := startNode_eq h hstarted
  obtain ⟨stakeModifier, hmap⟩ := mapBlockIndex_startNode h
  have hindex : genesis = newBlockIndex P block nFile nBlockPos 0 stakeModifier := by
    have hinv : NodeInv P env.files genesis st [] := nodeInv_start h hstarted
    have htip : st.mapBlockIndex genesis.phashBlock = some [genesis] := hinv.atTip.indexed
    rw [hmap, hhash, Function.update_self] at htip
    exact (List.head_eq_of_cons_eq (Option.some.inj htip)).symm
  have hnonzero : genesis.phashBlock ≠ 0 := by
    rw [hgenesis, ChainParams.genesisHash]
    split <;> decide
  rw [hhash, ← hindex] at hmap
  have hheader : P.hashHeader (CBlockIndex.header genesis (PIndex.getBlockHash [])) = genesis.phashBlock := by
    rw [← hhash, hindex, show PIndex.getBlockHash [] = 0 from rfl, ← hfirst]
    rfl
  have hunserialized : CBlockIndex.unserialized genesis = genesis := by
    rw [hindex]
    unfold CBlockIndex.unserialized newBlockIndex
    cases block.isProofOfStake <;> rfl
  exact hempty.insert rfl hnonzero hheader hunserialized hmap

/-- What holds throughout a run that rolls nothing back. -/
theorem StakeRun.restorable
    (h : StakeRun P H disk genesis (fun st event ↦ RollsNothingBack P st event ∧ HashNonzero P event) st
      setStakeSeen) : Restorable P st setStakeSeen ∧ GenesisChecked P H genesis := by
  induction h with
  | start run started first checked =>
    exact ⟨restorable_start run started first, (startNode_eq run started).2.1, checked⟩
  | event run fits meets ih =>
    obtain ⟨-, chain, hinv⟩ := NodeRun.diskIndex (run.nodeRun fun _ _ hmeets ↦ hmeets.1)
    exact ⟨ih.1.handleEvent hinv.indexed meets.2, ih.2⟩

/-- In a run that rolls nothing back a restart gives what is in memory. -/
theorem StakeRun.restartEquals
    (h : StakeRun P H disk genesis (fun st event ↦ RollsNothingBack P st event ∧ HashNonzero P event) st
      setStakeSeen) : RestartEquals P H st setStakeSeen := by
  obtain ⟨hdisk, chain, hinv⟩ := NodeRun.diskIndex (h.nodeRun fun _ _ hmeets ↦ hmeets.1)
  obtain ⟨hrest, hchecked⟩ := h.restorable
  exact restartEquals_of_diskIndex hinv hdisk hrest hchecked

/-- After a call that fails, a restart gives the mint and the supply from before the call. -/
theorem restartEquals_of_failure {st' : NodeState} {pindexNew : PIndex} (hdisk : DiskIndex st)
    (hidle : st.txdb.activeBatch = none) (hfail : setBestChain P env st block pindexNew = (false, st'))
    (hinv : NodeInv P disk genesis st' chain) (hrest : Restorable P st' setStakeSeen)
    (hchecked : GenesisChecked P H genesis) :
    RestartEquals P H { st' with nMint := st.nMint, nMoneySupply := st.nMoneySupply } setStakeSeen := by
  have hrolled : NodeInv P disk genesis { st' with nMint := st.nMint, nMoneySupply := st.nMoneySupply } chain :=
    ⟨hinv.indexed.congr rfl rfl, hinv.onBranch.congr rfl rfl, hinv.atTip.congr rfl rfl rfl rfl⟩
  exact restartEquals_of_diskIndex hrolled (hdisk.rolledBack hidle hfail) (hrest.congr rfl) hchecked

end Runs

namespace RestartExample

open Builders

def testNet : ChainParams := network true

/-- The rival of the block at height 1 mints a little. -/
def rival : CBlock := blockOf testNet 31 testNet.genesisHash 600 (easiestBits testNet)
  [coinbase 41 600 1 [output 7]]

def modest : CBlock := blockOf testNet 32 31 900 (easiestBits testNet) [coinbase 42 900 2 [output 0]]

/-- This block on the rival mints too much. -/
def greedy : CBlock := blockOf testNet 33 31 900 (easiestBits testNet)
  [coinbase 43 900 2 [output (2000000038 * COIN)]]

def disk : BlockFiles := filesOf (quietFiles testNet 2 ++ [(3, 8, rival), (4, 8, modest), (5, 8, greedy)])

def genesis : CBlockIndex := newBlockIndex testNet (quietBlock testNet 0) 1 8 0 (0, false)

def envAt (nFile : ℕ) : Env := { surroundings disk 1000 with written := some (nFile, 8) }

/-- The checksum of the genesis block. -/
def H : ChecksumHash := fun _ _ _ _ ↦ 0x0e00670b

def started : NodeState := (startNode testNet (envAt 1) [] (quietBlock testNet 0) 1 8).2

def first : NodeEvent := .acceptBlock (envAt 2) (quietBlock testNet 1)

def onGenesis : NodeEvent := .acceptBlock (envAt 3) rival

def onRival : NodeEvent := .acceptBlock (envAt 4) modest

def tooMuch : NodeEvent := .acceptBlock (envAt 5) greedy

def forked : NodeState := handleEvent testNet (handleEvent testNet started first) onGenesis

/-- The entry of the block that mints too much. -/
def pindexGreedy : PIndex :=
  [indexOf testNet greedy 5 8, indexOf testNet rival 3 8, genesis]

/-- A run to the fork. -/
theorem run_forked {Meets : NodeState → NodeEvent → Prop} (hfirst : Meets started first)
    (hfork : Meets (handleEvent testNet started first) onGenesis) :
    StakeRun testNet H disk genesis Meets forked ∅ := by
  have hstarted : StakeRun testNet H disk genesis Meets started ∅ :=
    .start (show startNode testNet (envAt 1) [] (quietBlock testNet 0) 1 8 = (true, started) from
      Prod.ext (by decide) rfl) (by decide) (by decide) (by decide)
  have hone : StakeRun testNet H disk genesis Meets (handleEvent testNet started first)
      (stakesAfter testNet started ∅ first) :=
    .event hstarted (fits_of_writtenAt rfl rfl (by decide)) hfirst
  have htwo : StakeRun testNet H disk genesis Meets forked
      (stakesAfter testNet (handleEvent testNet started first) (stakesAfter testNet started ∅ first)
        onGenesis) :=
    .event hone (fits_of_writtenAt rfl rfl (by decide)) hfork
  rwa [show stakesAfter testNet (handleEvent testNet started first) (stakesAfter testNet started ∅ first)
    onGenesis = ∅ by decide] at htwo

theorem run_forked_restart : StakeRun testNet H disk genesis
    (fun st event ↦ RollsNothingBack testNet st event ∧ HashNonzero testNet event) forked ∅ :=
  run_forked ⟨⟨⟨rfl, fun _ ↦ rfl⟩, by decide, by decide⟩, by decide⟩
    ⟨⟨⟨rfl, fun _ ↦ rfl⟩, by decide, by decide⟩, by decide⟩

end RestartExample

open RestartExample in
theorem StakeRun.restartEquals_modest :
    (handleEvent testNet forked onRival).hashBestChain = 32 ∧
      RestartEquals testNet H (handleEvent testNet forked onRival) (stakesAfter testNet forked ∅ onRival) :=
  ⟨by decide, StakeRun.restartEquals (.event run_forked_restart
    (fits_of_writtenAt rfl rfl (by decide))
    ⟨⟨⟨rfl, fun _ ↦ rfl⟩, by decide, by decide⟩, by decide⟩)⟩

open RestartExample in
theorem not_restartEquals_tooMuch :
    StakeRun testNet H disk genesis (fun _ event ↦ CommitsSucceed event)
        (handleEvent testNet forked tooMuch) ∅ ∧
      ¬ RestartEquals testNet H (handleEvent testNet forked tooMuch) ∅ := by
  have hfits : Fits disk forked tooMuch :=
    fits_of_writtenAt rfl rfl (by decide)
  have hseen : stakesAfter testNet forked ∅ tooMuch = ∅ := by decide
  refine ⟨?_, fun hequals ↦ ?_⟩
  · have hrun : StakeRun testNet H disk genesis (fun _ event ↦ CommitsSucceed event) forked ∅ :=
      run_forked ⟨rfl, fun _ ↦ rfl⟩ ⟨rfl, fun _ ↦ rfl⟩
    rw [← hseen]
    exact .event hrun hfits ⟨rfl, fun _ ↦ rfl⟩
  obtain ⟨hdisk, chain, hinv⟩ := NodeRun.diskIndex (run_forked_restart.nodeRun fun _ _ hmeets ↦ hmeets.1)
  obtain ⟨hrest, hchecked⟩ := run_forked_restart.restorable
  have hentry : acceptedEntry testNet (envAt 5) forked greedy = some pindexGreedy := by decide
  obtain ⟨call, hcall⟩ : ∃ call, bestChainCall testNet forked (.acceptBlock (envAt 5) greedy) = some call :=
    Option.isSome_iff_exists.mp (by decide)
  obtain ⟨pindexNew, hentry', rfl⟩ := bestChainCall_acceptBlock hcall
  obtain rfl : pindexGreedy = pindexNew := Option.some.inj (hentry.symm.trans hentry')
  have hstored : DiskIndex (indexNewBlock (envAt 5) forked pindexGreedy).2 :=
    hdisk.indexNewBlock hinv.indexed.hash hinv.onBranch.idle rfl
  have hfail : setBestChain testNet (envAt 5) (indexNewBlock (envAt 5) forked pindexGreedy).2 greedy
      pindexGreedy = (false, handleEvent testNet forked tooMuch) := by
    have haccept := acceptBlock_eq testNet (envAt 5) forked greedy
    rw [hentry, hcall] at haccept
    exact haccept.symm.trans (Prod.ext (by decide) rfl)
  obtain ⟨chain', hinv'⟩ := hinv.handleEvent hfits (by decide)
  have hrest' : Restorable testNet (handleEvent testNet forked tooMuch) ∅ := by
    rw [← hseen]
    exact hrest.handleEvent hinv.indexed (by decide)
  have hrolled := restartEquals_of_failure hstored rfl hfail hinv' hrest' hchecked
  obtain ⟨⟨loaded, hloads⟩, hmemory⟩ := hequals ⟨false, 0⟩
  have heq := Except.ok.inj ((hmemory loaded hloads).symm.trans ((hrolled ⟨false, 0⟩).2 loaded hloads))
  have hmint := congrArg (fun loaded : LoadedNode ↦ (loaded.mapBlockIndex 31).map LoadedIndex.nMint) heq
  revert hmint
  decide

end Electra.Node
