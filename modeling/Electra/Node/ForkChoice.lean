import Electra.Node.ChainMove
import Electra.Node.NodeRun

/-!
# Fork choice

`AddToBlockIndex` notes the trust of each new entry and calls `SetBestChain` for one with more trust than
the best.  Whatever the order of the blocks, while no step of these calls fails the tip is the entry
with the most trust, and among several the one that came first.
-/

namespace Electra.Node

open Chain Ledger Foundations.Outcome Foundations.WriteBatch

/-- A node with the `nChainTrust` fields of its index entries and the order in which these came. -/
structure Ordered where
  node : NodeState
  nChainTrust : PIndex → Uint256
  inserted : List PIndex

section Calls

variable (P : ChainParams) (env : Env) (block : CBlock) (nFile nBlockPos : ℕ) (hashProofOfStake : Uint256)

/-- The entry that `AddToBlockIndex` inserts for a block. -/
def insertedEntry (st : NodeState) : Option PIndex :=
  if (st.mapBlockIndex (block.getHash P)).isSome then none
  else env.stakeModifier.map fun stakeModifier ↦
    newBlockIndex P block nFile nBlockPos hashProofOfStake stakeModifier ::
      (st.mapBlockIndex block.hashPrevBlock).getD []

/-- The trust that is noted for a new entry, from the field of the previous one. -/
def noteTrust (nChainTrust : PIndex → Uint256) : PIndex → PIndex → Uint256
  | [] => nChainTrust
  | index :: pprev => Function.update nChainTrust (index :: pprev)
      ((if pprev = [] then 0 else nChainTrust pprev) + getBlockTrust index.nBits)

def addBlock (s : Ordered) : Ordered where
  node := (addToBlockIndex P env s.node block nFile nBlockPos hashProofOfStake).2
  nChainTrust := (insertedEntry P env block nFile nBlockPos hashProofOfStake s.node).elim s.nChainTrust
    (noteTrust s.nChainTrust)
  inserted := s.inserted ++ (insertedEntry P env block nFile nBlockPos hashProofOfStake s.node).toList

/-- The steps of a reorganisation up to its commit. -/
def reorganizeSteps (st : NodeState) (pfork pindexNew : PIndex) :
    Except (Reject × NodeState) (NodeState × List CTransaction) := do
  let (st, _) ← (branchFrom pfork st.pindexBest).foldlM (disconnectTip P env) (st, [])
  (branchFrom pfork pindexNew).reverse.foldlM (connectNext P env) (st, [])

/-- In a call of `SetBestChain` no block fails to connect and nothing fails on disk.  Postponed blocks
do not matter. -/
def stepsSucceed (st : NodeState) (pindexNew : PIndex) : Bool :=
  if block.hashPrevBlock = st.hashBestChain then
    (connectBlock P env (begun st) block pindexNew false).isOk && env.fCommitted (block.getHash P)
  else
    let pindexIntermediate := (splitSecondary st.pindexBest.nChainTrust pindexNew).1
    (findFork st.pindexBest pindexIntermediate).all fun pfork ↦
      (reorganizeSteps P env (begun st) pfork pindexIntermediate).isOk &&
        env.fCommitted pindexIntermediate.getBlockHash

/-- In a call of `AddToBlockIndex` no block fails to connect and nothing fails on disk. -/
def NothingFails (st : NodeState) : Prop :=
  ∀ pindexNew ∈ insertedEntry P env block nFile nBlockPos hashProofOfStake st,
    env.fIndexCommitted ∧ (pindexNew.nChainTrust > st.nBestChainTrust →
      stepsSucceed P env block (indexNewBlock env st pindexNew).2 pindexNew)

instance (st : NodeState) : Decidable (NothingFails P env block nFile nBlockPos hashProofOfStake st) :=
  inferInstanceAs (Decidable (∀ pindexNew ∈ insertedEntry P env block nFile nBlockPos hashProofOfStake st,
    env.fIndexCommitted ∧ (pindexNew.nChainTrust > st.nBestChainTrust →
      stepsSucceed P env block (indexNewBlock env st pindexNew).2 pindexNew)))

end Calls

/-- A block whose previous one is known is added; in between anything may happen that leaves the index
and the tip alone. -/
inductive AddStep (P : ChainParams) : Ordered → Ordered → Prop
  | add {s : Ordered} {env : Env} {block : CBlock} {nFile nBlockPos : ℕ} {hashProofOfStake : Uint256}
      (known : (s.node.mapBlockIndex block.hashPrevBlock).isSome)
      (succeeds : NothingFails P env block nFile nBlockPos hashProofOfStake s.node) :
      AddStep P s (addBlock P env block nFile nBlockPos hashProofOfStake s)
  | other {s : Ordered} {st : NodeState} (same : SameTip s.node st)
      (nBestChainTrust : st.nBestChainTrust = s.node.nBestChainTrust) :
      AddStep P s { s with node := st }

/-- The nodes that any order of blocks leads to. -/
inductive AddRun (P : ChainParams) (genesis : CBlockIndex) : Ordered → Prop
  | start {env : Env} {setpwalletRegistered : List CWallet} {block : CBlock} {nFile nBlockPos : ℕ}
      {st : NodeState}
      (run : startNode P env setpwalletRegistered block nFile nBlockPos = (true, st))
      (started : st.pindexGenesisBlock = [genesis]) :
      AddRun P genesis ⟨st, noteTrust (fun _ ↦ 0) [genesis], [[genesis]]⟩
  | step {s s' : Ordered} (run : AddRun P genesis s) (step : AddStep P s s') : AddRun P genesis s'

/-- Block trust of an entry and all its ancestors, added up without bounds. -/
def totalTrust (pindex : PIndex) : ℕ := (pindex.map fun index ↦ (getBlockTrust index.nBits).toNat).sum

/-- The fields are the sums of the block trusts, and the tip is the first entry with the most trust. -/
structure ForkChoice (s : Ordered) : Prop where
  listed : ∀ pindex, pindex ∈ s.inserted ↔ ∃ hash, s.node.mapBlockIndex hash = some pindex
  sums : ∀ pindex ∈ s.inserted, totalTrust pindex < 2 ^ 256 →
    (s.nChainTrust pindex).toNat = totalTrust pindex
  maximum : ∀ pindex ∈ s.inserted, s.nChainTrust pindex ≤ s.node.nBestChainTrust
  best : s.nChainTrust s.node.pindexBest = s.node.nBestChainTrust
  first : ∃ earlier later, s.inserted = earlier ++ s.node.pindexBest :: later ∧
    ∀ pindex ∈ earlier, s.nChainTrust pindex < s.node.nBestChainTrust

section Call

variable {P : ChainParams} {env : Env} {st : NodeState} {block : CBlock} {pindexNew : PIndex}
  {genesis : CBlockIndex}

theorem toNat_nChainTrust {pindex : PIndex} (h : totalTrust pindex < 2 ^ 256) :
    pindex.nChainTrust.toNat = totalTrust pindex := by
  induction pindex with
  | nil => rfl
  | cons index pprev ih =>
    have hcons : totalTrust (index :: pprev) = (getBlockTrust index.nBits).toNat + totalTrust pprev := rfl
    calc (PIndex.nChainTrust (index :: pprev)).toNat
        = ((PIndex.nChainTrust pprev).toNat + (getBlockTrust index.nBits).toNat) % 2 ^ 256 := BitVec.toNat_add _ _
      _ = (totalTrust pprev + (getBlockTrust index.nBits).toNat) % 2 ^ 256 := by rw [ih (by omega)]
      _ = totalTrust (index :: pprev) := by rw [Nat.mod_eq_of_lt (by omega)]; omega

/-- The block to reorganise to leads to genesis like the new one. -/
theorem genesis_suffix_splitSecondary (nBestTrust : Uint256) (h : [genesis] <:+ pindexNew) :
    [genesis] <:+ (splitSecondary nBestTrust pindexNew).1 := by
  induction pindexNew with
  | nil => exact h
  | cons index pprev ih =>
    rw [splitSecondary]
    split
    · next hsplit =>
      apply ih
      cases List.suffix_cons_iff.mp h with
      | inl heq => exact absurd (List.cons.inj heq).2.symm hsplit.1
      | inr hsuffix => exact hsuffix
    · exact h

theorem setBestChainInner_of_steps (hconnect : (connectBlock P env st block pindexNew false).isOk)
    (hcommitted : env.fCommitted (block.getHash P)) :
    (setBestChainInner P env st block pindexNew).1 = true := by
  obtain ⟨st', hok⟩ := exists_eq_ok hconnect
  simp [setBestChainInner, hok, hcommitted, Store.txnCommit]

theorem reorganize_of_steps {pfork : PIndex} (hfork : findFork st.pindexBest pindexNew = some pfork)
    (hsteps : (reorganizeSteps P env st pfork pindexNew).isOk)
    (hcommitted : env.fCommitted pindexNew.getBlockHash) :
    ∃ st', reorganize P env st pindexNew = .ok st' := by
  obtain ⟨up, hup⟩ := exists_eq_ok hsteps
  simp only [reorganizeSteps, bind_eq_ok] at hup
  obtain ⟨down, hdown, hup⟩ := hup
  refine ⟨switchBranch P env (committed up.1 pindexNew.getBlockHash true) (branchFrom pfork st.pindexBest)
    (branchFrom pfork pindexNew).reverse down.2 up.2, ?_⟩
  simp only [reorganize, bind_eq_ok, require_eq_ok, pure_eq_ok]
  refine ⟨pfork, hfork, down, hdown, up, hup, (), ?_, ?_⟩
  · simp [Store.txnCommit, hcommitted]
  · rw [hcommitted]
    rfl

/-- A call whose steps succeed moves the best chain. -/
theorem setBestChain_of_steps (hgenesis : st.pindexGenesisBlock ≠ [])
    (hbest : [genesis] <:+ st.pindexBest) (hnew : [genesis] <:+ pindexNew)
    (hsteps : stepsSucceed P env block st pindexNew) :
    (setBestChain P env st block pindexNew).1 = true := by
  rw [setBestChain_eq]
  unfold stepsSucceed at hsteps
  rcases moveBestChain_cases P env st block pindexNew with
    ⟨hstart, -, -⟩ | ⟨-, ⟨hprev, heq⟩ | ⟨hprev, ⟨failure, hfail, -⟩ | ⟨st₁, -, heq⟩⟩⟩
  · exact absurd hstart hgenesis
  · rw [if_pos hprev, Bool.and_eq_true] at hsteps
    rw [heq]
    exact setBestChainInner_of_steps hsteps.1 hsteps.2
  · rw [if_neg hprev] at hsteps
    simp only [Option.all_eq_true, Bool.and_eq_true] at hsteps
    have hintermediate := genesis_suffix_splitSecondary st.pindexBest.nChainTrust hnew
    obtain ⟨pfork, hfork, -⟩ := exists_findFork hbest hintermediate
    obtain ⟨hok, hcommitted⟩ := hsteps pfork hfork
    obtain ⟨st', hreorganize⟩ := @reorganize_of_steps P env (begun st) _ pfork hfork hok hcommitted
    rw [hreorganize] at hfail
    cases hfail
  · rw [heq]

/-- Once there is a genesis block a call leaves all but the tip that it sets. -/
theorem sameTip_moveBestChain (hgenesis : st.pindexGenesisBlock ≠ []) :
    SameTip st (moveBestChain P env st block pindexNew).2 := by
  rcases moveBestChain_cases P env st block pindexNew with
    ⟨hstart, -, -⟩ | ⟨-, ⟨-, heq⟩ | ⟨-, ⟨failure, hfail, heq⟩ | ⟨st₁, hok, heq⟩⟩⟩
  · exact absurd hstart hgenesis
  · rw [heq]
    exact (sameTip_begun st).trans (sameTip_setBestChainInner P env (begun st) block pindexNew)
  · have habort : SameTip failure.2 (txnAbort failure.2) := ⟨rfl, rfl, rfl, rfl, rfl⟩
    rw [heq]
    exact ((sameTip_begun st).trans ((reorganize_frame_of_error hfail).1.trans habort)).trans
      (sameTip_invalidChainFound (txnAbort failure.2) pindexNew)
  · rw [heq]
    exact (sameTip_begun st).trans ((reorganize_links hok).1.trans (connectSecondary_links P env st₁ _).1)

/-- What a call whose steps succeed leaves. -/
structure TipMoved (st st' : NodeState) (pindexNew : PIndex) : Prop where
  mapBlockIndex : st'.mapBlockIndex = st.mapBlockIndex
  pindexGenesisBlock : st'.pindexGenesisBlock = st.pindexGenesisBlock
  pindexBest : st'.pindexBest = pindexNew
  nBestChainTrust : st'.nBestChainTrust = pindexNew.nChainTrust

theorem tipMoved_setBestChain (hgenesis : st.pindexGenesisBlock ≠ [])
    (hbest : [genesis] <:+ st.pindexBest) (hnew : [genesis] <:+ pindexNew)
    (hsteps : stepsSucceed P env block st pindexNew) :
    TipMoved st (setBestChain P env st block pindexNew).2 pindexNew := by
  have hok := setBestChain_of_steps hgenesis hbest hnew hsteps
  have hsame : SameTip st (moveBestChain P env st block pindexNew).2 := sameTip_moveBestChain hgenesis
  rw [setBestChain_eq] at hok ⊢
  rw [if_pos hok]
  exact ⟨hsame.mapBlockIndex, hsame.pindexGenesisBlock, rfl, rfl⟩

end Call

section Add

variable {P : ChainParams} {genesis : CBlockIndex} {env : Env} {block : CBlock} {nFile nBlockPos : ℕ}
  {hashProofOfStake : Uint256} {pindexNew : PIndex}

theorem node_addBlock_of_none {s : Ordered}
    (h : insertedEntry P env block nFile nBlockPos hashProofOfStake s.node = none) :
    addBlock P env block nFile nBlockPos hashProofOfStake s = s := by
  have hnode : (addToBlockIndex P env s.node block nFile nBlockPos hashProofOfStake).2 = s.node := by
    unfold addToBlockIndex
    unfold insertedEntry at h
    split
    · rfl
    · next hnew =>
      rw [if_neg hnew, Option.map_eq_none_iff] at h
      rw [h]
  simp only [addBlock, h, hnode, Option.elim_none, Option.toList_none, List.append_nil]

theorem node_addBlock_of_some {st : NodeState} (hcommitted : env.fIndexCommitted)
    (h : insertedEntry P env block nFile nBlockPos hashProofOfStake st = some pindexNew) :
    (addToBlockIndex P env st block nFile nBlockPos hashProofOfStake).2 =
      if pindexNew.nChainTrust > st.nBestChainTrust then
        (setBestChain P env (indexNewBlock env st pindexNew).2 block pindexNew).2
      else (indexNewBlock env st pindexNew).2 := by
  unfold insertedEntry at h
  unfold addToBlockIndex
  split at h
  · cases h
  · next hnew =>
    obtain ⟨stakeModifier, hmodifier, rfl⟩ := Option.map_eq_some_iff.mp h
    rw [if_neg hnew, hmodifier]
    simp only
    generalize newBlockIndex P block nFile nBlockPos hashProofOfStake stakeModifier ::
      (st.mapBlockIndex block.hashPrevBlock).getD [] = pindexNew
    have hindex : indexNewBlock env st pindexNew = (true, (indexNewBlock env st pindexNew).2) :=
      Prod.ext hcommitted rfl
    have hbest : (indexNewBlock env st pindexNew).2.nBestChainTrust = st.nBestChainTrust := by
      cases pindexNew <;> rfl
    rw [hindex, ← hbest]
    exact apply_ite Prod.snd (PIndex.nChainTrust pindexNew > _) _ _

/-- The parts of a new entry whose previous block is known. -/
theorem insertedEntry_eq_some {st : NodeState}
    (h : insertedEntry P env block nFile nBlockPos hashProofOfStake st = some pindexNew)
    (known : (st.mapBlockIndex block.hashPrevBlock).isSome) :
    st.mapBlockIndex pindexNew.getBlockHash = none ∧ ∃ index pprev, pindexNew = index :: pprev ∧
      st.mapBlockIndex block.hashPrevBlock = some pprev := by
  obtain ⟨pprev, hprev⟩ := Option.isSome_iff_exists.mp known
  unfold insertedEntry at h
  split at h
  · cases h
  · next hnew =>
    obtain ⟨stakeModifier, -, rfl⟩ := Option.map_eq_some_iff.mp h
    rw [hprev]
    exact ⟨Option.not_isSome_iff_eq_none.mp hnew, _, pprev, rfl, rfl⟩

end Add

structure OrderedInv (genesis : CBlockIndex) (s : Ordered) : Prop where
  listed : ∀ pindex, pindex ∈ s.inserted ↔ ∃ hash, s.node.mapBlockIndex hash = some pindex
  hashes : ∀ hash pindex, s.node.mapBlockIndex hash = some pindex → pindex.getBlockHash = hash
  rooted : ∀ pindex ∈ s.inserted, [genesis] <:+ pindex
  trust : ∀ pindex ∈ s.inserted, s.nChainTrust pindex = pindex.nChainTrust
  started : s.node.pindexGenesisBlock ≠ []
  best : s.node.nBestChainTrust = s.node.pindexBest.nChainTrust
  maximum : ∀ pindex ∈ s.inserted, pindex.nChainTrust ≤ s.node.nBestChainTrust
  first : ∃ earlier later, s.inserted = earlier ++ s.node.pindexBest :: later ∧
    ∀ pindex ∈ earlier, pindex.nChainTrust < s.node.nBestChainTrust

section Invariant

variable {P : ChainParams} {genesis : CBlockIndex} {s s' : Ordered}

theorem OrderedInv.pindexBest_mem (h : OrderedInv genesis s) : s.node.pindexBest ∈ s.inserted := by
  obtain ⟨earlier, later, hsplit, -⟩ := h.first
  rw [hsplit]
  exact List.mem_append_right _ List.mem_cons_self

theorem OrderedInv.forkChoice (h : OrderedInv genesis s) : ForkChoice s where
  listed := h.listed
  sums pindex hpindex hbound := by
    rw [h.trust pindex hpindex]
    exact toNat_nChainTrust hbound
  maximum pindex hpindex := by
    rw [h.trust pindex hpindex]
    exact h.maximum pindex hpindex
  best := (h.trust _ h.pindexBest_mem).trans h.best.symm
  first := by
    obtain ⟨earlier, later, hsplit, hless⟩ := h.first
    refine ⟨earlier, later, hsplit, ?_⟩
    intro pindex hpindex
    rw [h.trust pindex (hsplit ▸ List.mem_append_left _ hpindex)]
    exact hless pindex hpindex

/-- A new entry is listed last, with the trust of its chain. -/
theorem OrderedInv.insert (h : OrderedInv genesis s) {env : Env} {index : CBlockIndex} {pprev : PIndex}
    {hashPrev : Uint256} (hnew : s.node.mapBlockIndex index.phashBlock = none)
    (hprev : s.node.mapBlockIndex hashPrev = some pprev) {st' : NodeState}
    (hmap : st'.mapBlockIndex = (indexNewBlock env s.node (index :: pprev)).2.mapBlockIndex)
    (hstarted : st'.pindexGenesisBlock ≠ [])
    (hchoice : st'.pindexBest = s.node.pindexBest ∧ st'.nBestChainTrust = s.node.nBestChainTrust ∧
        PIndex.nChainTrust (index :: pprev) ≤ s.node.nBestChainTrust ∨
      st'.pindexBest = index :: pprev ∧ st'.nBestChainTrust = PIndex.nChainTrust (index :: pprev) ∧
        s.node.nBestChainTrust < PIndex.nChainTrust (index :: pprev)) :
    OrderedInv genesis ⟨st', noteTrust s.nChainTrust (index :: pprev), s.inserted ++ [index :: pprev]⟩ := by
  have hupdate : st'.mapBlockIndex =
      Function.update s.node.mapBlockIndex index.phashBlock (some (index :: pprev)) := hmap
  have hprevMem : pprev ∈ s.inserted := (h.listed pprev).mpr ⟨hashPrev, hprev⟩
  have hfresh : index :: pprev ∉ s.inserted := by
    intro hmem
    obtain ⟨hash, hhash⟩ := (h.listed _).mp hmem
    have heq : index.phashBlock = hash := h.hashes hash _ hhash
    rw [← heq, hnew] at hhash
    cases hhash
  have hprevNe : pprev ≠ [] := by
    intro hnil
    have hrooted := h.rooted pprev hprevMem
    rw [hnil] at hrooted
    exact absurd (List.suffix_nil.mp hrooted) (List.cons_ne_nil _ _)
  refine ⟨?_, ?_, ?_, ?_, hstarted, ?_, ?_, ?_⟩
  · intro pindex
    rw [hupdate]
    constructor
    · intro hmem
      cases List.mem_append.mp hmem with
      | inl hmem =>
        obtain ⟨hash, hhash⟩ := (h.listed pindex).mp hmem
        refine ⟨hash, ?_⟩
        rw [Function.update_of_ne, hhash]
        intro heq
        rw [heq, hnew] at hhash
        cases hhash
      | inr hmem => exact ⟨index.phashBlock, List.mem_singleton.mp hmem ▸ Function.update_self _ _ _⟩
    · intro hlisted
      obtain ⟨hash, hhash⟩ := hlisted
      by_cases heq : hash = index.phashBlock
      · rw [heq, Function.update_self] at hhash
        exact List.mem_append_right _ (List.mem_singleton.mpr (Option.some.inj hhash).symm)
      · rw [Function.update_of_ne heq] at hhash
        exact List.mem_append_left _ ((h.listed pindex).mpr ⟨hash, hhash⟩)
  · intro hash pindex hhash
    rw [hupdate] at hhash
    by_cases heq : hash = index.phashBlock
    · rw [heq, Function.update_self] at hhash
      rw [heq, ← Option.some.inj hhash]
      rfl
    · rw [Function.update_of_ne heq] at hhash
      exact h.hashes hash pindex hhash
  · intro pindex hmem
    cases List.mem_append.mp hmem with
    | inl hmem => exact h.rooted pindex hmem
    | inr hmem =>
      rw [List.mem_singleton.mp hmem]
      exact (h.rooted pprev hprevMem).trans (List.suffix_cons index pprev)
  · intro pindex hmem
    cases List.mem_append.mp hmem with
    | inl hmem =>
      have hne : pindex ≠ index :: pprev := fun heq ↦ hfresh (heq ▸ hmem)
      exact (Function.update_of_ne hne _ _).trans (h.trust pindex hmem)
    | inr hmem =>
      rw [List.mem_singleton.mp hmem]
      calc noteTrust s.nChainTrust (index :: pprev) (index :: pprev)
          = (if pprev = [] then 0 else s.nChainTrust pprev) + getBlockTrust index.nBits :=
            Function.update_self _ _ _
        _ = PIndex.nChainTrust pprev + getBlockTrust index.nBits := by
            rw [if_neg hprevNe, h.trust pprev hprevMem]
  · cases hchoice with
    | inl hsame =>
      obtain ⟨hbest, htrust, -⟩ := hsame
      exact htrust.trans (h.best.trans (congrArg PIndex.nChainTrust hbest.symm))
    | inr hmoved =>
      obtain ⟨hbest, htrust, -⟩ := hmoved
      exact htrust.trans (congrArg PIndex.nChainTrust hbest.symm)
  · intro pindex hmem
    cases hchoice with
    | inl hsame =>
      obtain ⟨-, htrust, hle⟩ := hsame
      show pindex.nChainTrust ≤ st'.nBestChainTrust
      rw [htrust]
      cases List.mem_append.mp hmem with
      | inl hmem => exact h.maximum pindex hmem
      | inr hmem => exact List.mem_singleton.mp hmem ▸ hle
    | inr hmoved =>
      obtain ⟨-, htrust, hlt⟩ := hmoved
      show pindex.nChainTrust ≤ st'.nBestChainTrust
      rw [htrust]
      cases List.mem_append.mp hmem with
      | inl hmem =>
        have hle := h.maximum pindex hmem
        bv_omega
      | inr hmem => exact List.mem_singleton.mp hmem ▸ BitVec.le_refl _
  · cases hchoice with
    | inl hsame =>
      obtain ⟨hbest, htrust, -⟩ := hsame
      obtain ⟨earlier, later, hsplit, hless⟩ := h.first
      refine ⟨earlier, later ++ [index :: pprev], ?_, ?_⟩
      · show s.inserted ++ [index :: pprev] = earlier ++ st'.pindexBest :: (later ++ [index :: pprev])
        rw [hsplit, hbest, List.append_assoc]
        rfl
      · intro pindex hmem
        exact htrust ▸ hless pindex hmem
    | inr hmoved =>
      obtain ⟨hbest, htrust, hlt⟩ := hmoved
      refine ⟨s.inserted, [], by rw [hbest], ?_⟩
      intro pindex hmem
      show pindex.nChainTrust < st'.nBestChainTrust
      rw [htrust]
      have hle := h.maximum pindex hmem
      bv_omega

/-- The tip stays, or it moves to a chain with more trust. -/
def HeavierTip (s s' : Ordered) : Prop :=
  s'.node.pindexBest ≠ s.node.pindexBest → s.node.nBestChainTrust < s'.node.nBestChainTrust

/-- Adding a block keeps the invariant. -/
theorem OrderedInv.addBlock (h : OrderedInv genesis s) {env : Env} {block : CBlock} {nFile nBlockPos : ℕ}
    {hashProofOfStake : Uint256} (known : (s.node.mapBlockIndex block.hashPrevBlock).isSome)
    (succeeds : NothingFails P env block nFile nBlockPos hashProofOfStake s.node) :
    OrderedInv genesis (addBlock P env block nFile nBlockPos hashProofOfStake s) ∧
      HeavierTip s (addBlock P env block nFile nBlockPos hashProofOfStake s) := by
  cases hentry : insertedEntry P env block nFile nBlockPos hashProofOfStake s.node with
  | none =>
    rw [node_addBlock_of_none hentry]
    exact ⟨h, fun hne ↦ absurd rfl hne⟩
  | some pindexNew =>
    obtain ⟨hcommitted, hsteps⟩ := succeeds pindexNew hentry
    obtain ⟨hnew, index, pprev, rfl, hprev⟩ := insertedEntry_eq_some hentry known
    have hadd : Electra.Node.addBlock P env block nFile nBlockPos hashProofOfStake s =
        ⟨(addToBlockIndex P env s.node block nFile nBlockPos hashProofOfStake).2,
          noteTrust s.nChainTrust (index :: pprev), s.inserted ++ [index :: pprev]⟩ := by
      simp only [Electra.Node.addBlock, hentry, Option.elim_some, Option.toList_some]
    have hrooted : [genesis] <:+ index :: pprev :=
      (h.rooted pprev ((h.listed pprev).mpr ⟨_, hprev⟩)).trans (List.suffix_cons index pprev)
    have hnode := node_addBlock_of_some hcommitted hentry
    rw [hadd]
    by_cases htrust : PIndex.nChainTrust (index :: pprev) > s.node.nBestChainTrust
    · rw [if_pos htrust] at hnode
      have hmoved : TipMoved (indexNewBlock env s.node (index :: pprev)).2
          (addToBlockIndex P env s.node block nFile nBlockPos hashProofOfStake).2 (index :: pprev) :=
        hnode ▸ tipMoved_setBestChain h.started (h.rooted _ h.pindexBest_mem) hrooted (hsteps htrust)
      refine ⟨h.insert hnew hprev hmoved.mapBlockIndex ?_ (.inr ⟨hmoved.pindexBest,
        hmoved.nBestChainTrust, htrust⟩), ?_⟩
      · rw [hmoved.pindexGenesisBlock]
        exact h.started
      · intro _
        show s.node.nBestChainTrust <
          (addToBlockIndex P env s.node block nFile nBlockPos hashProofOfStake).2.nBestChainTrust
        rw [hmoved.nBestChainTrust]
        exact htrust
    · rw [if_neg htrust] at hnode
      rw [hnode]
      exact ⟨h.insert hnew hprev rfl h.started (.inl ⟨rfl, rfl, BitVec.not_lt.mp htrust⟩),
        fun hne ↦ absurd rfl hne⟩

theorem OrderedInv.step (h : OrderedInv genesis s) (step : AddStep P s s') :
    OrderedInv genesis s' ∧ HeavierTip s s' := by
  cases step with
  | add known succeeds => exact h.addBlock known succeeds
  | other same nBestChainTrust =>
    refine ⟨⟨?_, ?_, h.rooted, h.trust, ?_, ?_, ?_, ?_⟩, fun hne ↦ absurd same.pindexBest hne⟩
    · intro pindex
      rw [h.listed pindex, same.mapBlockIndex]
    · rw [same.mapBlockIndex]
      exact h.hashes
    · rw [same.pindexGenesisBlock]
      exact h.started
    · rw [nBestChainTrust, same.pindexBest]
      exact h.best
    · rw [nBestChainTrust]
      exact h.maximum
    · rw [nBestChainTrust, same.pindexBest]
      exact h.first

theorem orderedInv_start {env : Env} {setpwalletRegistered : List CWallet} {block : CBlock}
    {nFile nBlockPos : ℕ} {st : NodeState}
    (run : startNode P env setpwalletRegistered block nFile nBlockPos = (true, st))
    (started : st.pindexGenesisBlock = [genesis]) :
    OrderedInv genesis ⟨st, noteTrust (fun _ ↦ 0) [genesis], [[genesis]]⟩ := by
  obtain ⟨-, -, rfl⟩ := startNode_eq run started
  have hmap : ∀ hash, (genesisIndexed env setpwalletRegistered genesis).mapBlockIndex hash =
      if hash = genesis.phashBlock then some [genesis] else none := by
    intro hash
    exact Function.update_apply _ _ _ _
  refine ⟨?_, ?_, ?_, ?_, ?_, rfl, ?_, ⟨[], [], rfl, nofun⟩⟩
  · intro pindex
    constructor
    · intro hmem
      refine ⟨genesis.phashBlock, ?_⟩
      rw [List.mem_singleton.mp hmem]
      exact (hmap _).trans (if_pos rfl)
    · intro hlisted
      obtain ⟨hash, hhash⟩ := hlisted
      have hentry := (hmap hash).symm.trans hhash
      split at hentry
      · exact List.mem_singleton.mpr (Option.some.inj hentry).symm
      · cases hentry
  · intro hash pindex hhash
    have hentry := (hmap hash).symm.trans hhash
    split at hentry
    · next heq =>
      rw [← Option.some.inj hentry, heq]
      rfl
    · cases hentry
  · intro pindex hmem
    rw [List.mem_singleton.mp hmem]
  · intro pindex hmem
    rw [List.mem_singleton.mp hmem]
    show noteTrust (fun _ ↦ 0) [genesis] [genesis] = PIndex.nChainTrust [genesis]
    rw [noteTrust, Function.update_self]
    rfl
  · rw [started]
    exact List.cons_ne_nil _ _
  · intro pindex hmem
    rw [List.mem_singleton.mp hmem]
    exact BitVec.le_refl _

theorem AddRun.inv (h : AddRun P genesis s) : OrderedInv genesis s := by
  induction h with
  | start run started => exact orderedInv_start run started
  | step run step ih => exact (ih.step step).1

/-- After every call the fork choice is that of the blocks so far, and the call moves the tip only to a
chain with more trust. -/
theorem forkChoice_of_addRun (h : AddRun P genesis s) :
    ForkChoice s ∧ ∀ s', AddStep P s s' → ForkChoice s' ∧ HeavierTip s s' := by
  refine ⟨h.inv.forkChoice, ?_⟩
  intro s' step
  obtain ⟨hinv, htip⟩ := h.inv.step step
  exact ⟨hinv.forkChoice, htip⟩

end Invariant

namespace ForkExample

open Builders

def testNet : ChainParams := network true

/-- The rival of the block at height 1. -/
def rival : CBlock := blockOf testNet 31 testNet.genesisHash 600 (easiestBits testNet)
  [coinbase 41 600 1 [output 0]]

def onRival : CBlock := blockOf testNet 32 31 900 (easiestBits testNet) [coinbase 42 900 2 [output 0]]

def env : Env := surroundings (filesOf (quietFiles testNet 2 ++ [(3, 8, rival), (4, 8, onRival)])) 1000

def genesis : CBlockIndex := newBlockIndex testNet (quietBlock testNet 0) 1 8 0 (0, false)

def started : Ordered :=
  ⟨(startNode testNet env [] (quietBlock testNet 0) 1 8).2, noteTrust (fun _ ↦ 0) [genesis], [[genesis]]⟩

def withRival : Ordered :=
  addBlock testNet env rival 3 8 0 (addBlock testNet env (quietBlock testNet 1) 2 8 0 started)

def switched : Ordered := addBlock testNet env onRival 4 8 0 withRival

theorem addRun_switched : AddRun testNet genesis switched := by
  have hstarted : AddRun testNet genesis started :=
    .start (show startNode testNet env [] (quietBlock testNet 0) 1 8 = (true, started.node) from
      Prod.ext (by decide) rfl) (by decide)
  have hrival : AddRun testNet genesis withRival :=
    .step (.step hstarted (.add (by decide) (by decide)))
      (.add (by decide) (by decide))
  exact .step hrival (.add (by decide) (by decide))

end ForkExample

open ForkExample in
theorem forkChoice_switched :
    withRival.node.hashBestChain = 1 ∧ switched.node.hashBestChain = 32 ∧ ForkChoice switched ∧
      ∀ s', AddStep testNet switched s' → ForkChoice s' ∧ HeavierTip switched s' :=
  ⟨by decide, by decide, forkChoice_of_addRun addRun_switched⟩

end Electra.Node
