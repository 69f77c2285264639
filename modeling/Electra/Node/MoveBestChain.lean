import Electra.Node.Invariant

/-!
# One call of `SetBestChain`

A call that fails leaves the branch of the node.  One that succeeds names the new block as the tip,
even if a postponed block below it did not connect.
-/

namespace Electra.Node

open Chain Ledger Foundations.SpendIndex Foundations.Outcome Foundations.WriteBatch

variable {P : ChainParams} {disk : BlockFiles} {genesis : CBlockIndex} {env : Env} {st st' : NodeState}
  {chain : Branch}

/-! ## Postponed blocks -/

/-- Every postponed block can be read, connects and is committed. -/
def AllConnect (P : ChainParams) (env : Env) : NodeState → List PIndex → Prop
  | _, [] => True
  | st, pindex :: rest => (connectPostponed P env st pindex).1 = true ∧
      AllConnect P env (connectPostponed P env st pindex).2 rest

instance decidableAllConnect (P : ChainParams) (env : Env) : ∀ (st : NodeState) (pindexes : List PIndex),
    Decidable (AllConnect P env st pindexes)
  | _, [] => isTrue trivial
  | st, pindex :: rest =>
      have := decidableAllConnect P env (connectPostponed P env st pindex).2 rest
      inferInstanceAs (Decidable (_ ∧ _))

theorem allConnect_append {pindexes : List PIndex} {pindex : PIndex} :
    AllConnect P env st (pindexes ++ [pindex]) ↔ AllConnect P env st pindexes ∧
      (connectPostponed P env (connectSecondary P env st pindexes) pindex).1 = true := by
  induction pindexes generalizing st with
  | nil => simp [AllConnect, connectSecondary]
  | cons first rest ih =>
    cases hfirst : connectPostponed P env st first with
    | mk fOk st₁ => cases fOk <;> simp [AllConnect, connectSecondary, hfirst, ih]

/-- The last postponed block is only tried if all before it connect. -/
theorem connectSecondary_append (P : ChainParams) (env : Env) (st : NodeState)
    (pindexes : List PIndex) (pindex : PIndex) :
    (AllConnect P env st pindexes ∧ connectSecondary P env st (pindexes ++ [pindex]) =
      (connectPostponed P env (connectSecondary P env st pindexes) pindex).2) ∨
    (¬ AllConnect P env st pindexes ∧ connectSecondary P env st (pindexes ++ [pindex]) =
      connectSecondary P env st pindexes) := by
  induction pindexes generalizing st with
  | nil =>
    left
    refine ⟨trivial, ?_⟩
    simp only [List.nil_append, connectSecondary]
    cases connectPostponed P env st pindex with
    | mk fOk st₁ => cases fOk <;> rfl
  | cons first rest ih =>
    cases hfirst : connectPostponed P env st first with
    | mk fOk st₁ =>
      simp only [List.cons_append, connectSecondary, AllConnect, hfirst]
      cases fOk with
      | true => simpa using @ih st₁
      | false => simp

theorem connectPostponed_cons (P : ChainParams) (env : Env) (st : NodeState) (index : CBlockIndex)
    (pprev : PIndex) : connectPostponed P env st (index :: pprev) =
      match readFromDisk P env.files index with
      | .error _ => (false, st)
      | .ok block => setBestChainInner P env (begun st) block (index :: pprev) := rfl

/-- A postponed block is connected on top of the branch or leaves it. -/
theorem OnBranch.connectPostponed (h : OnBranch P disk genesis st chain) {block : CBlock}
    {index : CBlockIndex} (hfiles : env.files.ReadsFrom disk)
    (haccepted : Accepted P disk block index (pindexOf genesis chain)) :
    OnBranch P disk genesis (Chain.connectPostponed P env st (index :: pindexOf genesis chain)).2
        (if (Chain.connectPostponed P env st (index :: pindexOf genesis chain)).1 then
          (block, index) :: chain else chain) ∧
      SameTip st (Chain.connectPostponed P env st (index :: pindexOf genesis chain)).2 := by
  rw [connectPostponed_cons]
  cases hread : readFromDisk P env.files index with
  | error reject => exact ⟨h, .refl st⟩
  | ok block' =>
    obtain rfl := readFromDisk_accepted hfiles haccepted hread
    have hbegun : SameTip st (begun st) := ⟨rfl, rfl, rfl, rfl, rfl⟩
    exact ⟨h.setBestChainInner hfiles haccepted rfl,
      hbegun.trans (sameTip_setBestChainInner P env (begun st) block' _)⟩

/-- The postponed blocks are connected up to the first that fails. -/
theorem OnBranch.connectSecondary {below : Branch} (h : OnBranch P disk genesis st below)
    (above : Branch) (hfiles : env.files.ReadsFrom disk)
    (haccepted : AcceptedBranch P disk genesis (above ++ below)) :
    ∃ rest done, above = rest ++ done ∧
      OnBranch P disk genesis
        (Chain.connectSecondary P env st (pointersAbove genesis below above).reverse) (done ++ below) ∧
      SameTip st (Chain.connectSecondary P env st (pointersAbove genesis below above).reverse) ∧
      (rest = [] ↔ AllConnect P env st (pointersAbove genesis below above).reverse) := by
  induction above with
  | nil => exact ⟨[], [], rfl, h, .refl st, by simp [AllConnect, pointersAbove]⟩
  | cons entry above ih =>
    obtain ⟨block, index⟩ := entry
    obtain ⟨rest, done, rfl, hbranch, hsame, hall⟩ := ih haccepted.2
    rw [pointersAbove, List.reverse_cons, allConnect_append]
    rcases connectSecondary_append P env st (pointersAbove genesis below (rest ++ done)).reverse
      (pindexOf genesis ((block, index) :: (rest ++ done) ++ below)) with
      ⟨hearlier, heq⟩ | ⟨hearlier, heq⟩
    · obtain rfl := hall.mpr hearlier
      simp only [List.nil_append, List.cons_append, pindexOf_cons] at hearlier heq hbranch hsame ⊢
      rw [heq]
      obtain ⟨hnext, hsame'⟩ := hbranch.connectPostponed hfiles haccepted.1
      cases hok : (Chain.connectPostponed P env (Chain.connectSecondary P env st
          (pointersAbove genesis below done).reverse) (index :: pindexOf genesis (done ++ below))).1 with
      | true =>
        refine ⟨[], (block, index) :: done, rfl, ?_, hsame.trans hsame', by simp [hearlier]⟩
        simpa [hok] using hnext
      | false =>
        refine ⟨[(block, index)], done, rfl, ?_, hsame.trans hsame', by simp⟩
        simpa [hok] using hnext
    · rw [heq]
      exact ⟨(block, index) :: rest, done, rfl, hbranch, hsame, by simp [hearlier]⟩

/-- The blocks to postpone are the upper part of the new branch. -/
theorem splitSecondary_pindexOf (nBestTrust : Uint256) (genesis : CBlockIndex) (chain : Branch) :
    ∃ above below, chain = above ++ below ∧ splitSecondary nBestTrust (pindexOf genesis chain) =
      (pindexOf genesis below, pointersAbove genesis below above) := by
  induction chain with
  | nil => exact ⟨[], [], rfl, by simp [splitSecondary, pointersAbove]⟩
  | cons entry chain ih =>
    rw [pindexOf_cons, splitSecondary]
    split
    · obtain ⟨above, below, rfl, heq⟩ := ih
      exact ⟨entry :: above, below, rfl, by rw [heq]; rfl⟩
    · exact ⟨[], entry :: chain, rfl, rfl⟩

/-! ## A call of `SetBestChain` -/

/-- A call is for a block of the index, with the entry it was accepted with. -/
structure CallFits (P : ChainParams) (disk : BlockFiles) (genesis : CBlockIndex) (env : Env)
    (st : NodeState) (block : CBlock) (index : CBlockIndex) (below : Branch) : Prop where
  files : env.files.ReadsFrom disk
  accepted : AcceptedBranch P disk genesis ((block, index) :: below)
  indexed : st.mapBlockIndex index.phashBlock = some (index :: pindexOf genesis below)

/-- If the call gets to postponed blocks, they all connect. -/
def PostponedConnect (P : ChainParams) (env : Env) (st : NodeState) (block : CBlock)
    (pindexNew : PIndex) : Prop :=
  block.hashPrevBlock ≠ st.hashBestChain →
    ∀ st₁ ∈ (reorganize P env (begun st)
        (splitSecondary st.pindexBest.nChainTrust pindexNew).1).toOption,
      AllConnect P env st₁ (splitSecondary st.pindexBest.nChainTrust pindexNew).2.reverse

instance (P : ChainParams) (env : Env) (st : NodeState) (block : CBlock) (pindexNew : PIndex) :
    Decidable (PostponedConnect P env st block pindexNew) :=
  inferInstanceAs (Decidable (_ → _))

/-- The node once memory follows a move of the best chain. -/
def tipSet (P : ChainParams) (st : NodeState) (block : CBlock) (pindexNew : PIndex) : NodeState :=
  { st with
    hashBestChain := block.getHash P
    pindexBest := pindexNew
    nBestHeight := pindexNew.nHeight
    nBestChainTrust := pindexNew.nChainTrust }

theorem setBestChain_eq (P : ChainParams) (env : Env) (st : NodeState) (block : CBlock)
    (pindexNew : PIndex) : setBestChain P env st block pindexNew =
      ((moveBestChain P env st block pindexNew).1,
        if (moveBestChain P env st block pindexNew).1 then
          tipSet P (moveBestChain P env st block pindexNew).2 block pindexNew
        else (moveBestChain P env st block pindexNew).2) := by
  unfold setBestChain
  cases moveBestChain P env st block pindexNew with
  | mk fOk st₁ => cases fOk <;> rfl

section Call

variable {block : CBlock} {index : CBlockIndex} {below : Branch} (h : NodeInv P disk genesis st chain)
  (fits : CallFits P disk genesis env st block index below)

include h fits

/-- A block whose predecessor is the best block is on top of the branch. -/
theorem below_eq_of_hashPrevBlock (hprev : block.hashPrevBlock = st.hashBestChain) : below = chain := by
  refine fits.accepted.2.unique h.onBranch.run.accepted ?_
  have hbelow : st.mapBlockIndex (pindexOf genesis below).getBlockHash = some (pindexOf genesis below) :=
    h.indexed.ancestor fits.indexed (List.suffix_cons _ _) (pindexOf_ne_nil genesis below)
  rw [← fits.accepted.1.parent, hprev, h.atTip.hashBestChain, h.atTip.indexed] at hbelow
  exact (Option.some.inj hbelow).symm

/-- A direct extension of the best block. -/
theorem moveBestChain_direct (hprev : block.hashPrevBlock = st.hashBestChain)
    (heq : moveBestChain P env st block (index :: pindexOf genesis below) =
      setBestChainInner P env (begun st) block (index :: pindexOf genesis below)) :
    OnBranch P disk genesis (moveBestChain P env st block (index :: pindexOf genesis below)).2
        (if (moveBestChain P env st block (index :: pindexOf genesis below)).1 then
          (block, index) :: below else chain) ∧
      SameTip st (moveBestChain P env st block (index :: pindexOf genesis below)).2 := by
  obtain rfl := below_eq_of_hashPrevBlock h fits hprev
  have hbegun : SameTip st (begun st) := ⟨rfl, rfl, rfl, rfl, rfl⟩
  rw [heq]
  exact ⟨h.onBranch.setBestChainInner fits.files fits.accepted.1 rfl,
    hbegun.trans (sameTip_setBestChainInner P env (begun st) block _)⟩

/-- A move of the best chain fails and leaves the branch, or ends on the new branch: at its tip if
and only if no postponed block fails. -/
theorem moveBestChain_inv :
    SameTip st (moveBestChain P env st block (index :: pindexOf genesis below)).2 ∧
      ((moveBestChain P env st block (index :: pindexOf genesis below)).1 = false ∧
          OnBranch P disk genesis (moveBestChain P env st block (index :: pindexOf genesis below)).2 chain ∧
          PostponedConnect P env st block (index :: pindexOf genesis below) ∨
        (moveBestChain P env st block (index :: pindexOf genesis below)).1 = true ∧
          ∃ rest done, (block, index) :: below = rest ++ done ∧
            OnBranch P disk genesis (moveBestChain P env st block (index :: pindexOf genesis below)).2 done ∧
            (rest = [] ↔ PostponedConnect P env st block (index :: pindexOf genesis below))) := by
  rcases moveBestChain_cases P env st block (index :: pindexOf genesis below) with
    ⟨hstart, -, -⟩ | ⟨-, ⟨hprev, heq⟩ | ⟨hprev, ⟨failure, hfail, heq⟩ | ⟨st₁, hok, heq⟩⟩⟩
  · rw [h.indexed.started] at hstart
    cases hstart
  · have hpostponed : PostponedConnect P env st block (index :: pindexOf genesis below) :=
      fun hne ↦ absurd hprev hne
    obtain ⟨hbranch, hsame⟩ := moveBestChain_direct h fits hprev heq
    refine ⟨hsame, ?_⟩
    cases hmove : (moveBestChain P env st block (index :: pindexOf genesis below)).1 with
    | false =>
      rw [hmove] at hbranch
      exact .inl ⟨rfl, hbranch, hpostponed⟩
    | true =>
      rw [hmove] at hbranch
      exact .inr ⟨rfl, [], (block, index) :: below, rfl, hbranch, by simp [hpostponed]⟩
  all_goals
    obtain ⟨above, base, hsplit, hsecondary⟩ :=
      splitSecondary_pindexOf st.pindexBest.nChainTrust genesis ((block, index) :: below)
    rw [pindexOf_cons] at hsecondary
  · rw [hsecondary] at hfail
    obtain ⟨hbranch, hsame⟩ := h.onBranch.failedReorganize fits.files h.atTip.pindexBest
      (hsplit ▸ fits.accepted).below hfail
    rw [heq]
    refine ⟨hsame.trans (sameTip_invalidChainFound _ _), .inl ⟨rfl, hbranch.invalidChainFound _, ?_⟩⟩
    intro hne st₁ hok
    rw [hsecondary, hfail] at hok
    cases hok
  · rw [hsecondary] at hok heq
    have haccepted : AcceptedBranch P disk genesis (above ++ base) := hsplit ▸ fits.accepted
    obtain ⟨hbranch, hsame⟩ := h.onBranch.reorganize fits.files h.atTip.pindexBest haccepted.below hok
    obtain ⟨rest, done, rfl, hbranch', hsame', hall⟩ :=
      hbranch.connectSecondary above fits.files haccepted
    rw [heq]
    refine ⟨hsame.trans hsame', .inr ⟨rfl, rest, done ++ base, ?_, hbranch', ?_⟩⟩
    · rw [hsplit, List.append_assoc]
    · rw [hall, PostponedConnect, hsecondary, hok]
      constructor
      · rintro hconnect - _ ⟨⟩
        exact hconnect
      · intro hconnect
        exact hconnect hprev st₁ rfl

end Call

end Electra.Node
