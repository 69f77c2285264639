import Electra.Chain.Builders
import Electra.Chain.Kernel
import Electra.Node.Fork

/-!
# The verdict on a coinstake

The walk from the block of a coin along the best chain ends at the first block that generated a
modifier late enough, whatever is added to the chain afterwards.

`CheckProofOfStake` looks up the kernel of a coinstake in the best chain and its modifier above the
kernel's block on that chain.  Its verdict is the same on every best chain that has both, and it is a
refusal on one that lacks one of them.
-/

namespace Electra.Node

open Chain Ledger Foundations.Outcome

/-- The entries of a chain above one of its blocks, nearest first. -/
def entriesAfter (pindexFrom tip : PIndex) : List PIndex := (ancestors tip).drop pindexFrom.length

/-- The entries of a longer chain start with those of a shorter one. -/
theorem ancestors_isPrefix {tip tip' : PIndex} (h : tip <:+ tip') : ancestors tip <+: ancestors tip' := by
  induction tip' with
  | nil =>
    obtain rfl := List.suffix_nil.mp h
    exact List.prefix_refl _
  | cons index pprev ih =>
    rcases List.suffix_cons_iff.mp h with rfl | hbelow
    · exact List.prefix_refl _
    · exact (ih hbelow).trans (List.prefix_append _ _)

theorem entriesAfter_self (tip : PIndex) : entriesAfter tip tip = [] := by
  rw [entriesAfter, ← length_ancestors tip, List.drop_length]

theorem entriesAfter_eq_cons {pindex next tip : PIndex} (hsuffix : next <:+ tip)
    (htail : next.tail = pindex) (hne : pindex ≠ []) :
    entriesAfter pindex tip = next :: entriesAfter next tip := by
  cases next with
  | nil => exact absurd htail.symm hne
  | cons index pprev =>
    obtain rfl : pprev = pindex := htail
    obtain ⟨rest, hrest⟩ := ancestors_isPrefix hsuffix
    have hsplit : ancestors tip = ancestors pprev ++ (index :: pprev) :: rest := by
      rw [← hrest, ancestors, List.append_assoc, List.singleton_append]
    have hlong : entriesAfter (index :: pprev) tip = rest := by
      rw [entriesAfter, ← hrest, ← length_ancestors (index :: pprev), List.drop_left]
    rw [hlong, entriesAfter, hsplit, ← length_ancestors pprev, List.drop_left]

theorem entriesAfter_isPrefix {pindexFrom tip tip' : PIndex} (hfrom : pindexFrom <:+ tip)
    (h : tip <:+ tip') : entriesAfter pindexFrom tip <+: entriesAfter pindexFrom tip' := by
  obtain ⟨rest, hrest⟩ := ancestors_isPrefix h
  refine ⟨rest, ?_⟩
  have hlength : pindexFrom.length ≤ (ancestors tip).length := by
    rw [length_ancestors]
    exact hfrom.length_le
  rw [entriesAfter, entriesAfter, ← hrest, List.drop_append_of_le_length hlength]

theorem getStakeModifierSelectionInterval_pos : 0 < getStakeModifierSelectionInterval := by decide

/-- The block generated a modifier no earlier than a given time. -/
def generatesAfter (nEnd : ℤ) (pindex : PIndex) : Bool :=
  pindex.generatedStakeModifier && decide (nEnd ≤ pindex.nTime)

/-- The modifier of a block, under its own height and time. -/
def ownModifier (pindex : PIndex) : KernelModifier := ⟨pindex.nStakeModifier, pindex.nHeight, pindex.nTime⟩

section Walk

variable {tip : PIndex} {reached : PIndex → Reject} {nEnd : ℤ} {nSteps : ℕ}

theorem findKernelModifier_linksTo {pindex : PIndex} {nHeight nTime : ℤ} (hne : pindex ≠ [])
    (hsuffix : pindex <:+ tip) (hearly : nTime < nEnd) (hsteps : tip.length < nSteps + pindex.length) :
    findKernelModifier (linksTo tip) reached nEnd nSteps pindex (nHeight, nTime) =
      match (entriesAfter pindex tip).find? (generatesAfter nEnd) with
      | some found => .ok (ownModifier found)
      | none => .error (reached tip) := by
  induction nSteps generalizing pindex nHeight nTime with
  | zero =>
    have hlength := hsuffix.length_le
    omega
  | succ nSteps ih =>
    rw [findKernelModifier, if_pos hearly]
    cases hlink : linksTo tip pindex with
    | none =>
      have htip : pindex = tip := by
        by_contra hother
        obtain ⟨above, rfl⟩ := hsuffix
        rcases List.eq_nil_or_concat above with rfl | ⟨rest, index, rfl⟩
        · exact hother rfl
        · rw [List.concat_eq_append, List.append_assoc, List.singleton_append] at hlink
          have hnext : linksTo (rest ++ index :: pindex) pindex = some (index :: pindex) :=
            linksTo_eq_some_iff.mpr ⟨List.suffix_append _ _, rfl, hne⟩
          rw [hlink] at hnext
          cases hnext
      rw [htip, entriesAfter_self]
      rfl
    | some next =>
      obtain ⟨hnext, htail, -⟩ := linksTo_eq_some_iff.mp hlink
      have hnext_ne : next ≠ [] := by
        rintro rfl
        exact hne htail.symm
      have hlonger : next.length = pindex.length + 1 := by
        rw [← htail, List.length_tail]
        have hpos := List.length_pos_of_ne_nil hnext_ne
        omega
      rw [entriesAfter_eq_cons hnext htail hne, List.find?_cons]
      dsimp only
      by_cases hgenerated : next.generatedStakeModifier = true
      · rw [if_pos hgenerated]
        by_cases hlate : nEnd ≤ next.nTime
        · have hfound : generatesAfter nEnd next = true := by simp [generatesAfter, hgenerated, hlate]
          rw [hfound]
          cases nSteps with
          | zero =>
            have hlength := hnext.length_le
            omega
          | succ nSteps =>
            rw [findKernelModifier, if_neg (not_lt.mpr hlate)]
            rfl
        · have hfound : generatesAfter nEnd next = false := by simp [generatesAfter, hlate]
          rw [hfound, ih hnext_ne hnext (not_le.mp hlate) (by omega)]
      · have hfound : generatesAfter nEnd next = false := by simp [generatesAfter, hgenerated]
        rw [if_neg hgenerated, hfound, ih hnext_ne hnext hearly (by omega)]

/-- Off the chain there is nowhere to go. -/
theorem findKernelModifier_eq_error {pindex : PIndex} {nHeight nTime : ℤ} (hoff : ¬ pindex <:+ tip)
    (hearly : nTime < nEnd) :
    findKernelModifier (linksTo tip) reached nEnd nSteps pindex (nHeight, nTime) =
      .error (reached pindex) := by
  cases nSteps with
  | zero => rfl
  | succ nSteps =>
    have hnone : linksTo tip pindex = none := linksTo_eq_none fun hsuffix ↦ absurd hsuffix hoff
    rw [findKernelModifier, if_pos hearly, hnone]

end Walk

/-- The node's main chain ends at a tip. -/
structure MainChain (st : NodeState) (tip : PIndex) : Prop where
  pindexBest : st.pindexBest = tip
  pnext : st.pnext = linksTo tip
  indexed : ∀ hash pindex, st.mapBlockIndex hash = some pindex → pindex ≠ []

/-- The first block of the main chain above a block that generated a modifier and is later by the
selection interval. -/
def modifierBlock (pindexFrom tip : PIndex) : Option PIndex :=
  (entriesAfter pindexFrom tip).find?
    (generatesAfter (pindexFrom.nTime + getStakeModifierSelectionInterval))

section Modifier

variable {P : ChainParams} {env : KernelEnv} {st : NodeState} {tip : PIndex} {hashBlockFrom : Uint256}
  {fPrintProofOfStake : Bool} {modifier : KernelModifier}

theorem getKernelStakeModifier_eq_ok (hmain : MainChain st tip) :
    getKernelStakeModifier P env st hashBlockFrom fPrintProofOfStake = .ok modifier ↔
      ∃ pindexFrom, st.mapBlockIndex hashBlockFrom = some pindexFrom ∧ pindexFrom <:+ tip ∧
        ∃ pindex, modifierBlock pindexFrom tip = some pindex ∧ modifier = ownModifier pindex := by
  have hinterval := getStakeModifierSelectionInterval_pos
  rw [getKernelStakeModifier, bind_eq_ok]
  simp only [require_eq_ok, hmain.pnext, hmain.pindexBest]
  refine exists_congr fun pindexFrom ↦ and_congr_right fun hindexed ↦ ?_
  have hearly : pindexFrom.nTime < pindexFrom.nTime + getStakeModifierSelectionInterval := by omega
  by_cases hon : pindexFrom <:+ tip
  · have hsteps : tip.length < tip.length + 1 + pindexFrom.length := by omega
    rw [findKernelModifier_linksTo (hmain.indexed _ _ hindexed) hon hearly hsteps]
    change (match modifierBlock pindexFrom tip with
      | some found => Except.ok (ownModifier found)
      | none => Except.error _) = _ ↔ _
    cases modifierBlock pindexFrom tip with
    | none => simp
    | some pindex => simp [hon, eq_comm]
  · rw [findKernelModifier_eq_error hon hearly]
    simp [hon]

/-- The modifier is that of the first late enough block above the one it is asked for, and it stays
the same on every extension of the main chain. -/
theorem getKernelStakeModifier_stable (hmain : MainChain st tip) :
    (getKernelStakeModifier P env st hashBlockFrom fPrintProofOfStake = .ok modifier ↔
      ∃ pindexFrom, st.mapBlockIndex hashBlockFrom = some pindexFrom ∧ pindexFrom <:+ tip ∧
        ∃ pindex, modifierBlock pindexFrom tip = some pindex ∧ modifier = ownModifier pindex) ∧
    (getKernelStakeModifier P env st hashBlockFrom fPrintProofOfStake = .ok modifier →
      ∀ env' st' tip' fPrintProofOfStake', MainChain st' tip' → tip <:+ tip' →
        st'.mapBlockIndex hashBlockFrom = st.mapBlockIndex hashBlockFrom →
          getKernelStakeModifier P env' st' hashBlockFrom fPrintProofOfStake' = .ok modifier) := by
  refine ⟨getKernelStakeModifier_eq_ok hmain, ?_⟩
  intro hok env' st' tip' fPrintProofOfStake' hmain' hextends hsame
  obtain ⟨pindexFrom, hindexed, hon, pindex, hfound, rfl⟩ := (getKernelStakeModifier_eq_ok hmain).mp hok
  have hfound' : modifierBlock pindexFrom tip' = some pindex :=
    (entriesAfter_isPrefix hon hextends).find?_eq_some hfound
  exact (getKernelStakeModifier_eq_ok hmain').mpr
    ⟨pindexFrom, hsame.trans hindexed, hon.trans hextends, pindex, hfound', rfl⟩

end Modifier

namespace ModifierExample

open Builders

def testNet : ChainParams := network true

def entry (nHeight nTime nStakeModifier : ℕ) : CBlockIndex :=
  newBlockIndex testNet (blockOf testNet nHeight (if nHeight = 0 then 0 else 1) nTime (easiestBits testNet) [])
    (nHeight + 1) 8 0 (nStakeModifier, true)

def shortChain : PIndex := [entry 1 40000 5, entry 0 300 0]

def longChain : PIndex := entry 2 80000 7 :: shortChain

def nodeOnChain (tip : PIndex) : NodeState := { nodeAt tip (txdbOf []) with pnext := linksTo tip }

def kernelEnv : KernelEnv := ⟨filesOf [], 90000, false⟩

theorem mainChain_nodeOnChain (tip : PIndex) : MainChain (nodeOnChain tip) tip where
  pindexBest := rfl
  pnext := rfl
  indexed := by
    rintro hash pindex hindexed rfl
    have hfound : tip.tails.find? (fun pindex ↦ PIndex.getBlockHash pindex == hash && pindex != []) = some [] :=
      hindexed
    simpa using List.find?_some hfound

end ModifierExample

open ModifierExample in
theorem getKernelStakeModifier_example :
    getKernelStakeModifier testNet kernelEnv (nodeOnChain shortChain) hashGenesisBlockTestNet false =
        .ok ⟨5, 1, 40000⟩ ∧
      getKernelStakeModifier testNet kernelEnv (nodeOnChain longChain) hashGenesisBlockTestNet false =
        .ok ⟨5, 1, 40000⟩ := by
  have hok : getKernelStakeModifier testNet kernelEnv (nodeOnChain shortChain) hashGenesisBlockTestNet
      false = .ok ⟨5, 1, 40000⟩ := by decide
  refine ⟨hok, ?_⟩
  exact (getKernelStakeModifier_stable (mainChain_nodeOnChain shortChain)).2 hok kernelEnv
    (nodeOnChain longChain) longChain false (mainChain_nodeOnChain longChain) (List.suffix_cons _ _)
    (by decide)

/-- Two nodes have the kernel of a coinstake in one place, with its modifier, on what their best chains
share. -/
structure KernelShared (P : ChainParams) (files : BlockFiles) (st st' : NodeState) (pfork : PIndex)
    (tx : CTransaction) : Prop where
  position : ∀ txin, tx.vin.head? = some txin →
    (st.txdb.readTxIndex txin.prevout.hash).map (·.pos) =
      (st'.txdb.readTxIndex txin.prevout.hash).map (·.pos)
  modifier : ∀ txin txindex header, tx.vin.head? = some txin →
    st.txdb.readTxIndex txin.prevout.hash = some txindex →
      files.readHeader txindex.pos.nFile txindex.pos.nBlockPos = some header →
        ∃ pindexFrom pindex, st.mapBlockIndex (P.hashHeader header) = some pindexFrom ∧
          st'.mapBlockIndex (P.hashHeader header) = some pindexFrom ∧ pindexFrom <:+ pfork ∧
          modifierBlock pindexFrom pfork = some pindex

section Verdict

variable {H : KernelHashes} {P : ChainParams} {env : KernelEnv} {st st' : NodeState}
  {tip tip' pfork : PIndex} {tx : CTransaction} {nBits : ℕ}

/-- What is read of a previous transaction, its record apart, depends on its position alone. -/
theorem readPrevTx_congr {files : BlockFiles} {txdb txdb' : CTxDB} {prevout : COutPoint}
    (h : (txdb.readTxIndex prevout.hash).map (·.pos) =
      (txdb'.readTxIndex prevout.hash).map (·.pos)) :
    (readPrevTx files txdb prevout).map (fun found ↦ (found.1, found.2.1.pos)) =
      (readPrevTx files txdb' prevout).map fun found ↦ (found.1, found.2.1.pos) := by
  unfold readPrevTx
  cases hrecord : txdb.readTxIndex prevout.hash with
  | none =>
    rw [hrecord, Option.map_none, eq_comm, Option.map_eq_none_iff] at h
    rw [h]
  | some txindex =>
    rw [hrecord, Option.map_some, eq_comm, Option.map_eq_some_iff] at h
    obtain ⟨txindex', hrecord', hpos⟩ := h
    rw [hrecord']
    simp only [bind, Option.bind, hpos]
    cases files.readTx txindex.pos.nFile txindex.pos.nTxPos with
    | none => rfl
    | some txPrev =>
      dsimp only
      cases txPrev.vout[prevout.n]? with
      | none => rfl
      | some txout => exact congrArg (fun pos ↦ some (txPrev, pos)) hpos.symm

/-- A longer chain has the modifier of a block at the same place. -/
theorem getKernelStakeModifier_of_modifierBlock (hmain : MainChain st tip) (hshared : pfork <:+ tip)
    {hashBlockFrom : Uint256} {pindexFrom pindex : PIndex}
    (hindexed : st.mapBlockIndex hashBlockFrom = some pindexFrom) (hfrom : pindexFrom <:+ pfork)
    (hfound : modifierBlock pindexFrom pfork = some pindex) (fPrintProofOfStake : Bool) :
    getKernelStakeModifier P env st hashBlockFrom fPrintProofOfStake = .ok (ownModifier pindex) := by
  have hfound' : modifierBlock pindexFrom tip = some pindex :=
    (entriesAfter_isPrefix hfrom hshared).find?_eq_some hfound
  exact (getKernelStakeModifier_eq_ok hmain).mpr
    ⟨pindexFrom, hindexed, hfrom.trans hshared, pindex, hfound', rfl⟩

/-- A kernel that is shared has one verdict. -/
theorem checkProofOfStake_eq (hmain : MainChain st tip) (hmain' : MainChain st' tip')
    (hbelow : pfork <:+ tip) (hbelow' : pfork <:+ tip') (h : KernelShared P env.files st st' pfork tx) :
    checkProofOfStake H P env st tx nBits = checkProofOfStake H P env st' tx nBits := by
  unfold checkProofOfStake
  congr 1
  funext _
  cases hvin : tx.vin.head? with
  | none => rfl
  | some txin =>
    have hsame := @readPrevTx_congr env.files _ _ _ (h.position txin hvin)
    cases hprev : readPrevTx env.files st.txdb txin.prevout with
    | none =>
      rw [hprev, Option.map_none, eq_comm, Option.map_eq_none_iff] at hsame
      simp only [require, bind, Except.bind, hprev, hsame]
    | some found =>
      rw [hprev, Option.map_some, eq_comm, Option.map_eq_some_iff] at hsame
      obtain ⟨txPrev, txindex, txout⟩ := found
      obtain ⟨⟨txPrev', txindex', txout'⟩, hprev', heq⟩ := hsame
      obtain ⟨rfl, hpos⟩ := Prod.mk.inj heq
      replace hpos : txindex'.pos = txindex.pos := hpos
      simp only [require, bind, Except.bind, hprev, hprev', hpos]
      have hindex : st.txdb.readTxIndex txin.prevout.hash = some txindex := by
        simp only [readPrevTx, Option.bind_eq_bind, Option.bind_eq_some_iff, pure, Option.some.injEq,
          Prod.mk.injEq] at hprev
        obtain ⟨txindex', hread, txPrev', -, txout', -, -, rfl, -⟩ := hprev
        exact hread
      cases hheader : env.files.readHeader txindex.pos.nFile txindex.pos.nBlockPos with
      | none => rfl
      | some header =>
        obtain ⟨pindexFrom, pindex, hfrom, hfrom', hon, hfound⟩ :=
          h.modifier txin txindex header hvin hindex hheader
        have hsame : ∀ fPrintProofOfStake,
            getKernelStakeModifier P env st (P.hashHeader header) fPrintProofOfStake =
              getKernelStakeModifier P env st' (P.hashHeader header) fPrintProofOfStake := fun _ ↦ by
          rw [getKernelStakeModifier_of_modifierBlock hmain hbelow hfrom hon hfound,
            getKernelStakeModifier_of_modifierBlock hmain' hbelow' hfrom' hon hfound]
        simp only [checkStakeKernelHash, hsame, hfrom, hfrom']

/-- A coinstake is accepted only with its kernel and its modifier on the best chain. -/
theorem exists_modifierBlock_of_checkProofOfStake (hmain : MainChain st tip) {verdict : Uint256 × Uint256}
    (h : checkProofOfStake H P env st tx nBits = .ok verdict) :
    ∃ txin txPrev txindex txout header pindexFrom pindex, tx.vin.head? = some txin ∧
      readPrevTx env.files st.txdb txin.prevout = some (txPrev, txindex, txout) ∧
      env.files.readHeader txindex.pos.nFile txindex.pos.nBlockPos = some header ∧
      st.mapBlockIndex (P.hashHeader header) = some pindexFrom ∧ pindexFrom <:+ tip ∧
      modifierBlock pindexFrom tip = some pindex := by
  simp only [checkProofOfStake, bind_eq_ok, rejectIf_eq_ok, require_eq_ok, exists_const,
    mapError_eq_ok] at h
  obtain ⟨-, txin, hvin, ⟨txPrev, txindex, txout⟩, hprev, -, header, hheader, hkernel⟩ := h
  simp only [checkStakeKernelHash, bind_eq_ok, rejectIf_eq_ok, require_eq_ok, exists_const] at hkernel
  obtain ⟨-, pindexFrom', -, -, txout', -, modifier, hmodifier, -⟩ := hkernel
  obtain ⟨pindexFrom, hindexed, hon, pindex, hfound, -⟩ := (getKernelStakeModifier_eq_ok hmain).mp hmodifier
  exact ⟨txin, txPrev, txindex, txout, header, pindexFrom, pindex, hvin, hprev, hheader, hindexed, hon,
    hfound⟩

/-- Verdict and hash are the same on all best chains that have the kernel in one place and lead to its
modifier, and a best chain that does not have them refuses the coinstake. -/
theorem checkProofOfStake_verdict (hmain : MainChain st tip) (hmain' : MainChain st' tip')
    (hbelow : pfork <:+ tip) (hbelow' : pfork <:+ tip') :
    (KernelShared P env.files st st' pfork tx →
      checkProofOfStake H P env st tx nBits = checkProofOfStake H P env st' tx nBits) ∧
    ∀ verdict, checkProofOfStake H P env st tx nBits = .ok verdict →
      ∃ txin txPrev txindex txout header pindexFrom pindex, tx.vin.head? = some txin ∧
        readPrevTx env.files st.txdb txin.prevout = some (txPrev, txindex, txout) ∧
        env.files.readHeader txindex.pos.nFile txindex.pos.nBlockPos = some header ∧
        st.mapBlockIndex (P.hashHeader header) = some pindexFrom ∧ pindexFrom <:+ tip ∧
        modifierBlock pindexFrom tip = some pindex :=
  ⟨checkProofOfStake_eq hmain hmain' hbelow hbelow', fun _ ↦
    exists_modifierBlock_of_checkProofOfStake hmain⟩

end Verdict

namespace VerdictExample

open Builders

def testNet : ChainParams := network true

def hashes : KernelHashes := ⟨fun hashProof _ ↦ hashProof, fun _ _ _ _ _ _ ↦ 0⟩

/-- A block with a coinbase of the same name. -/
def block (name : ℕ) (hashPrevBlock : Uint256) (nTime : ℕ) (nHeight : ℤ) : CBlock :=
  blockOf testNet name hashPrevBlock nTime (easiestBits testNet)
    [coinbase name nTime nHeight [output (1000 * COIN)]]

def genesis : CBlock := block 10 0 300 0

def kernelBlock : CBlock := block 11 testNet.genesisHash 600 1

def modifierBlock12 : CBlock := block 12 11 40000 2

def nextBlock : CBlock := block 13 12 42000 3

def rivalBlock : CBlock := block 21 testNet.genesisHash 700 1

def entry (block : CBlock) (nFile nStakeModifier : ℕ) : CBlockIndex :=
  newBlockIndex testNet block nFile 8 0 (nStakeModifier, true)

def branch : PIndex := [entry modifierBlock12 3 5, entry kernelBlock 2 0, entry genesis 1 0]

def longBranch : PIndex := entry nextBlock 4 5 :: branch

def rivalBranch : PIndex := [entry rivalBlock 5 0, entry genesis 1 0]

/-- All blocks of the tree. -/
def tree (hash : Uint256) : Option PIndex :=
  (longBranch.tails ++ rivalBranch.tails).find? fun pindex : PIndex ↦
    pindex.getBlockHash == hash && pindex != []

def files : BlockFiles :=
  filesOf [(1, 8, genesis), (2, 8, kernelBlock), (3, 8, modifierBlock12), (4, 8, nextBlock),
    (5, 8, rivalBlock)]

/-- A node whose best chain is one branch of the tree, and its records of coinbases. -/
def nodeOnBranch (tip : PIndex) (records : List (Uint256 × CTxIndex)) : NodeState :=
  { nodeAt tip (txdbOf records) with
    pnext := linksTo tip
    mapBlockIndex := tree }

def branchRecords : List (Uint256 × CTxIndex) := [(11, ⟨⟨2, 8, 89⟩, [none]⟩), (12, ⟨⟨3, 8, 89⟩, [none]⟩)]

/-- The branch goes on, and a rival stake marks the coin. -/
def longRecords : List (Uint256 × CTxIndex) :=
  [(13, ⟨⟨4, 8, 89⟩, [none]⟩), (11, ⟨⟨2, 8, 89⟩, [some ⟨4, 8, 150⟩]⟩), (12, ⟨⟨3, 8, 89⟩, [none]⟩)]

def rivalRecords : List (Uint256 × CTxIndex) := [(21, ⟨⟨5, 8, 89⟩, [none]⟩)]

/-- A block on the branch, staked with a coin of the branch. -/
def staked : CBlock := blockOf testNet 14 12 50000 (easiestBits testNet)
  [coinbase 14 50000 3 [⟨0, []⟩], coinstake 15 50000 [⟨11, 0⟩] (1001 * COIN)]

def verdict (st : NodeState) : Except Reject (Uint256 × Uint256) :=
  checkProofOfStake hashes testNet ⟨files, 50000, false⟩ st (coinstake 15 50000 [⟨11, 0⟩] (1001 * COIN))
    staked.nBits

theorem mainChain_nodeOnBranch (tip : PIndex) (records : List (Uint256 × CTxIndex)) :
    MainChain (nodeOnBranch tip records) tip where
  pindexBest := rfl
  pnext := rfl
  indexed := by
    rintro hash pindex hindexed rfl
    have hfound : (longBranch.tails ++ rivalBranch.tails).find? (fun pindex : PIndex ↦
      PIndex.getBlockHash pindex == hash && pindex != []) = some [] := hindexed
    simpa using List.find?_some hfound

end VerdictExample

open VerdictExample in
/-- The branch grows, the coin is spent on it, and the verdict stays. -/
theorem checkProofOfStake_verdict_example :
    (verdict (nodeOnBranch branch branchRecords)).isOk = true ∧
      verdict (nodeOnBranch branch branchRecords) =
        verdict (nodeOnBranch longBranch longRecords) := by
  refine ⟨by decide, ?_⟩
  refine (checkProofOfStake_verdict (mainChain_nodeOnBranch branch branchRecords)
    (mainChain_nodeOnBranch longBranch _) (List.suffix_refl branch) (List.suffix_cons _ _)).1 ?_
  constructor
  case position =>
    intro txin hvin
    obtain rfl := Option.some.inj hvin
    decide
  case modifier =>
    intro txin txindex header hvin hread hheader
    obtain rfl := Option.some.inj hvin
    have hrecord : (nodeOnBranch branch branchRecords).txdb.readTxIndex 11 =
      some ⟨⟨2, 8, 89⟩, [none]⟩ := by decide
    obtain rfl := Option.some.inj (hrecord.symm.trans hread)
    have hkernel : files.readHeader 2 8 = some kernelBlock.toCBlockHeader := by decide
    obtain rfl := Option.some.inj (hkernel.symm.trans hheader)
    exact ⟨branch.tail, branch, by decide, by decide, List.tail_suffix _, by decide⟩

open VerdictExample in
/-- The block is accepted on its own branch and refused while the other one is best. -/
theorem not_verdict_of_rival :
    MainChain (nodeOnBranch branch branchRecords) branch ∧
      MainChain (nodeOnBranch rivalBranch rivalRecords) rivalBranch ∧
      (nodeOnBranch branch branchRecords).mapBlockIndex =
        (nodeOnBranch rivalBranch rivalRecords).mapBlockIndex ∧
      tree staked.hashPrevBlock = some branch ∧
      (verdict (nodeOnBranch branch branchRecords)).isOk = true ∧
      verdict (nodeOnBranch rivalBranch rivalRecords) =
        .error (dos 1 "CheckProofOfStake() : INFO: read txPrev failed") := by
  refine ⟨mainChain_nodeOnBranch _ _, mainChain_nodeOnBranch _ _, rfl, ?_, ?_, ?_⟩ <;> decide

end Electra.Node
