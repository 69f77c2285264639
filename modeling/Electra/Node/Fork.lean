import Electra.Ledger.BlockTree

/-!
# The fork of two branches

Two pointers into one tree share the branch below their fork.  `findFork` finds it, and
`branchFrom` lists what each of them has above it.

`pnext` leads from the genesis entry along the best chain and nowhere else.  Connecting a block adds
one link, disconnecting it takes the link away.
-/

namespace Electra.Node

open Chain Ledger

theorem lowerTo_suffix (nHeight : ℤ) (pindex : PIndex) : lowerTo nHeight pindex <:+ pindex := by
  induction pindex with
  | nil => exact List.suffix_refl _
  | cons index pprev ih =>
    rw [lowerTo]
    split
    · exact ih.trans (List.suffix_cons index pprev)
    · exact List.suffix_refl _

theorem length_lowerTo_le (nHeight : ℤ) (pindex : PIndex) :
    lowerTo nHeight pindex = [] ∨ (lowerTo nHeight pindex).nHeight ≤ nHeight := by
  induction pindex with
  | nil => exact .inl rfl
  | cons index pprev ih =>
    rw [lowerTo]
    split
    · exact ih
    · next hle => exact .inr (not_lt.mp hle)

variable {genesis : CBlockIndex} {pindex pfork plonger pindexFork tip : PIndex}

/-- Going back to a height of a chain never leaves the chain. -/
theorem suffix_lowerTo {nHeight : ℤ} (hheight : 0 ≤ nHeight) (h : [genesis] <:+ pindex) :
    [genesis] <:+ lowerTo nHeight pindex := by
  induction pindex with
  | nil => exact h
  | cons index pprev ih =>
    rw [lowerTo]
    split
    · next hgt =>
      rcases List.suffix_cons_iff.mp h with heq | hsuffix
      · obtain ⟨-, rfl⟩ := List.cons.inj heq
        simp [PIndex.nHeight] at hgt
        omega
      · exact ih hsuffix
    · exact h

/-- The fork is an ancestor of both pointers. -/
theorem findFork_suffix (h : findFork pfork plonger = some pindexFork) :
    pindexFork <:+ pfork ∧ pindexFork <:+ plonger := by
  induction pfork generalizing plonger with
  | nil => cases h
  | cons index pprev ih =>
    rw [findFork] at h
    split at h
    · next heq =>
      obtain rfl := Option.some.inj h
      exact ⟨heq ▸ List.suffix_refl _, List.suffix_refl _⟩
    · have hlower := lowerTo_suffix (PIndex.nHeight (index :: pprev)) plonger
      split at h
      · cases h
      · next lowered hne heq =>
        split at h
        · next hsame =>
          obtain rfl := Option.some.inj h
          exact ⟨hsame ▸ List.suffix_refl _, hlower⟩
        · obtain ⟨hleft, hright⟩ := ih h
          exact ⟨hleft.trans (List.suffix_cons index pprev), hright.trans hlower⟩

/-- An ancestor at or below a height is not lost by going back to that height. -/
theorem suffix_lowerTo_of_le {nHeight : ℤ} {pindexNew : PIndex} (h : pindex <:+ pindexNew)
    (hle : pindex.nHeight ≤ nHeight) :
    pindex <:+ lowerTo nHeight pindexNew := by
  induction pindexNew with
  | nil => exact h
  | cons index pprev ih =>
    rw [lowerTo]
    split
    · next hgt =>
      rcases List.suffix_cons_iff.mp h with rfl | hsuffix
      · exact absurd hle (not_le.mpr hgt)
      · exact ih hsuffix
    · exact h

/-- Every common ancestor is an ancestor of the fork. -/
theorem suffix_findFork (h : findFork pfork plonger = some pindexFork) (hleft : pindex <:+ pfork)
    (hright : pindex <:+ plonger) : pindex <:+ pindexFork := by
  induction pfork generalizing plonger with
  | nil => cases h
  | cons index pprev ih =>
    have hle : pindex.nHeight ≤ PIndex.nHeight (index :: pprev) := by
      have hlength := hleft.length_le
      unfold PIndex.nHeight
      omega
    have hlowered := suffix_lowerTo_of_le hright hle
    rw [findFork] at h
    split at h
    · exact Option.some.inj h ▸ hright
    · split at h
      · cases h
      · split at h
        · exact Option.some.inj h ▸ hlowered
        · next hdiffer =>
          refine ih h ?_ hlowered
          rcases List.suffix_cons_iff.mp hleft with rfl | hsuffix
          · -- the pointer itself would have been met
            refine absurd (hlowered.eq_of_length_le ?_) hdiffer
            rcases length_lowerTo_le (PIndex.nHeight (index :: pprev)) plonger with hnil | hlength
            · simp [hnil]
            · have hle : ((lowerTo (PIndex.nHeight (index :: pprev)) plonger).length : ℤ) - 1 ≤
                  ((index :: pprev).length : ℤ) - 1 := hlength
              omega
          · exact hsuffix

/-- Two pointers that lead to one genesis entry have a fork. -/
theorem exists_findFork (h : [genesis] <:+ pfork) (h' : [genesis] <:+ plonger) :
    ∃ pindexFork, findFork pfork plonger = some pindexFork ∧ [genesis] <:+ pindexFork := by
  induction pfork generalizing plonger with
  | nil => simp at h
  | cons index pprev ih =>
    rw [findFork]
    split
    · exact ⟨plonger, rfl, h'⟩
    · have hheight : 0 ≤ PIndex.nHeight (index :: pprev) := by simp [PIndex.nHeight]
      have hlower := suffix_lowerTo hheight h'
      split
      · next hnil =>
        rw [hnil] at hlower
        simp at hlower
      · next lowered hne =>
        split
        · exact ⟨_, rfl, hlower⟩
        · next hdiffer =>
          rcases List.suffix_cons_iff.mp h with heq | hsuffix
          · -- at genesis the other pointer has been lowered to genesis too
            obtain ⟨rfl, rfl⟩ := List.cons.inj heq
            refine absurd ?_ hdiffer
            rcases length_lowerTo_le (PIndex.nHeight [genesis]) plonger with hnil | hle
            · exact absurd hnil hne
            · refine hlower.eq_of_length_le ?_
              have hlength : ((lowerTo (PIndex.nHeight [genesis]) plonger).length : ℤ) - 1 ≤ 1 - 1 :=
                hle
              rw [List.length_singleton]
              omega
          · exact ih hsuffix hlower

theorem mem_branchFrom {pindexNew : PIndex} (h : pindex ∈ branchFrom pindexFork pindexNew) :
    pindex <:+ pindexNew ∧ (pindexFork <:+ pindexNew → pindexFork.length < pindex.length) := by
  induction pindexNew with
  | nil => cases h
  | cons index pprev ih =>
    rw [branchFrom] at h
    split at h
    · cases h
    · next hne =>
      have hbelow : pindexFork <:+ index :: pprev → pindexFork <:+ pprev := fun hsuffix ↦
        (List.suffix_cons_iff.mp hsuffix).resolve_left (Ne.symm hne)
      rcases List.mem_cons.mp h with rfl | hmem
      · refine ⟨List.suffix_refl _, fun hsuffix ↦ ?_⟩
        have hlength := (hbelow hsuffix).length_le
        simp only [List.length_cons]
        omega
      · exact ⟨(ih hmem).1.trans (List.suffix_cons index pprev), fun hsuffix ↦ (ih hmem).2 (hbelow hsuffix)⟩

/-- The pointers of a branch into its upper part, the tip first. -/
def pointersAbove (genesis : CBlockIndex) (below : Branch) : Branch → List PIndex
  | [] => []
  | entry :: above => pindexOf genesis (entry :: above ++ below) :: pointersAbove genesis below above

theorem pointersAbove_append_singleton (genesis : CBlockIndex) (below above : Branch)
    (entry : CBlock × CBlockIndex) : pointersAbove genesis below (above ++ [entry]) =
      pointersAbove genesis (entry :: below) above ++ [pindexOf genesis (entry :: below)] := by
  induction above with
  | nil => rfl
  | cons first above ih => simp [pointersAbove, ih]

theorem branchFrom_pindexOf (genesis : CBlockIndex) (above below : Branch) :
    branchFrom (pindexOf genesis below) (pindexOf genesis (above ++ below)) =
      pointersAbove genesis below above := by
  induction above with
  | nil =>
    rw [List.nil_append, pointersAbove]
    cases hfork : pindexOf genesis below with
    | nil => rfl
    | cons index pprev => rw [branchFrom, if_pos rfl]
  | cons entry above ih =>
    rw [List.cons_append, pindexOf_cons, branchFrom, if_neg ?_, ih, pointersAbove]
    · rfl
    · intro heq
      have hlength := congrArg List.length heq
      simp [pindexOf] at hlength
      omega

/-- An ancestor of the tip of a branch is the tip of its lower part. -/
theorem exists_below_of_suffix {chain : Branch} (h : pindex <:+ pindexOf genesis chain)
    (hgenesis : [genesis] <:+ pindex) :
    ∃ above below, chain = above ++ below ∧ pindex = pindexOf genesis below := by
  induction chain with
  | nil => exact ⟨[], [], rfl, (hgenesis.eq_of_length_le h.length_le).symm⟩
  | cons entry chain ih =>
    rcases List.suffix_cons_iff.mp h with rfl | hsuffix
    · exact ⟨[], entry :: chain, rfl, rfl⟩
    · obtain ⟨above, below, rfl, heq⟩ := ih hsuffix
      exact ⟨entry :: above, below, rfl, heq⟩

theorem genesis_suffix_pindexOf (genesis : CBlockIndex) (chain : Branch) :
    [genesis] <:+ pindexOf genesis chain := List.suffix_append _ _

/-- Two accepted branches have a common lower part, whose tip is the fork that `findFork` finds. -/
theorem exists_fork {P : ChainParams} {disk : BlockFiles} {chain chain' : Branch}
    (h : AcceptedBranch P disk genesis chain) (h' : AcceptedBranch P disk genesis chain') :
    ∃ above above' below, chain = above ++ below ∧ chain' = above' ++ below ∧
      findFork (pindexOf genesis chain) (pindexOf genesis chain') = some (pindexOf genesis below) := by
  obtain ⟨pindexFork, hfork, hgenesis⟩ := exists_findFork (genesis_suffix_pindexOf genesis chain)
    (genesis_suffix_pindexOf genesis chain')
  obtain ⟨hleft, hright⟩ := findFork_suffix hfork
  obtain ⟨above, below, rfl, hbelow⟩ := exists_below_of_suffix hleft hgenesis
  obtain ⟨above', below', rfl, hbelow'⟩ := exists_below_of_suffix hright hgenesis
  obtain rfl := h.below.unique h'.below (hbelow.symm.trans hbelow')
  exact ⟨above, above', below, rfl, rfl, hbelow ▸ hfork⟩

theorem suffix_findFork_iff (h : findFork pfork plonger = some pindexFork) (pindex : PIndex) :
    pindex <:+ pfork ∧ pindex <:+ plonger ↔ pindex <:+ pindexFork := by
  obtain ⟨hleft, hright⟩ := findFork_suffix h
  constructor
  · rintro ⟨hpfork, hplonger⟩
    exact suffix_findFork h hpfork hplonger
  · intro hsuffix
    exact ⟨hsuffix.trans hleft, hsuffix.trans hright⟩

/-- The entries of a branch above one of its entries, from the tip downwards, each followed by its
parent. -/
structure IsDisconnectList (pfork tip : PIndex) (branch : List PIndex) : Prop where
  mem : ∀ pindex, pindex ∈ branch ↔ pindex <:+ tip ∧ ¬ pindex <:+ pfork
  tip : (branch ++ [pfork]).head? = some tip
  parent : (branch ++ [pfork]).IsChain fun pindex pprev ↦ pindex.tail = pprev

/-- The same entries in connecting order, each after its parent. -/
structure IsConnectList (pfork tip : PIndex) (branch : List PIndex) : Prop where
  mem : ∀ pindex, pindex ∈ branch ↔ pindex <:+ tip ∧ ¬ pindex <:+ pfork
  tip : (pfork :: branch).getLast? = some tip
  parent : (pfork :: branch).IsChain fun pprev pindex ↦ pindex.tail = pprev

theorem IsDisconnectList.reverse {branch : List PIndex} (h : IsDisconnectList pfork tip branch) :
    IsConnectList pfork tip branch.reverse := by
  have hreverse : pfork :: branch.reverse = (branch ++ [pfork]).reverse := by
    rw [List.reverse_append, List.reverse_singleton, List.singleton_append]
  refine ⟨fun pindex ↦ ?_, ?_, ?_⟩
  · rw [List.mem_reverse]
    exact h.mem pindex
  · rw [hreverse, List.getLast?_reverse]
    exact h.tip
  · rw [hreverse, List.isChain_reverse]
    exact h.parent

theorem isDisconnectList_branchFrom (h : pfork <:+ tip) (hne : pfork ≠ []) :
    IsDisconnectList pfork tip (branchFrom pfork tip) := by
  induction tip with
  | nil => exact absurd (List.suffix_nil.mp h) hne
  | cons index pprev ih =>
    rcases List.suffix_cons_iff.mp h with rfl | hbelow
    · rw [branchFrom, if_pos rfl]
      refine ⟨fun pindex ↦ ?_, rfl, List.isChain_singleton _⟩
      simp
    · have hne' : index :: pprev ≠ pfork := by
        rintro rfl
        have hlength := hbelow.length_le
        simp only [List.length_cons] at hlength
        omega
      obtain ⟨hmem, htip, hparent⟩ := ih hbelow
      rw [branchFrom, if_neg hne']
      refine ⟨fun pindex ↦ ?_, rfl, ?_⟩
      · rw [List.mem_cons, hmem, List.suffix_cons_iff]
        constructor
        · rintro (rfl | ⟨hsuffix, hfork⟩)
          · refine ⟨.inl rfl, fun hfork ↦ hne' ?_⟩
            exact hfork.eq_of_length_le h.length_le
          · exact ⟨.inr hsuffix, hfork⟩
        · rintro ⟨rfl | hsuffix, hfork⟩
          · exact .inl rfl
          · exact .inr ⟨hsuffix, hfork⟩
      · rw [List.cons_append, List.isChain_cons]
        refine ⟨?_, hparent⟩
        intro pindex hpindex
        rw [htip] at hpindex
        exact Option.some.inj hpindex

/-- For any two entries of a tree the search of `Reorganize` ends at their last common ancestor, and
`vDisconnect` and `vConnect` are the branches above it. -/
theorem findFork_of_tree {genesis : CBlockIndex} {pindexBest pindexNew : PIndex}
    (h : [genesis] <:+ pindexBest) (h' : [genesis] <:+ pindexNew) :
    ∃ pfork, findFork pindexBest pindexNew = some pfork ∧ [genesis] <:+ pfork ∧
      (∀ pindex, pindex <:+ pindexBest ∧ pindex <:+ pindexNew ↔ pindex <:+ pfork) ∧
      IsDisconnectList pfork pindexBest (branchFrom pfork pindexBest) ∧
      IsConnectList pfork pindexNew (branchFrom pfork pindexNew).reverse := by
  obtain ⟨pfork, hfork, hgenesis⟩ := exists_findFork h h'
  obtain ⟨hleft, hright⟩ := findFork_suffix hfork
  have hne : pfork ≠ [] := by
    rintro rfl
    simp at hgenesis
  exact ⟨pfork, hfork, hgenesis, suffix_findFork_iff hfork, isDisconnectList_branchFrom hleft hne,
    (isDisconnectList_branchFrom hright hne).reverse⟩

def entryNamed (phashBlock : Uint256) : CBlockIndex :=
  ⟨phashBlock, 1, 8, false, none, 0, 0, 0, false, 1, 0, 0, 0, 0⟩

/-- Branches of two entries and of one above genesis. -/
theorem findFork_of_tree_unequal :
    ∃ pfork, findFork [entryNamed 2, entryNamed 1, entryNamed 0] [entryNamed 3, entryNamed 0] =
        some pfork ∧ [entryNamed 0] <:+ pfork ∧
      (∀ pindex, pindex <:+ [entryNamed 2, entryNamed 1, entryNamed 0] ∧
        pindex <:+ [entryNamed 3, entryNamed 0] ↔ pindex <:+ pfork) ∧
      IsDisconnectList pfork [entryNamed 2, entryNamed 1, entryNamed 0]
        (branchFrom pfork [entryNamed 2, entryNamed 1, entryNamed 0]) ∧
      IsConnectList pfork [entryNamed 3, entryNamed 0]
        (branchFrom pfork [entryNamed 3, entryNamed 0]).reverse :=
  findFork_of_tree (List.suffix_append [entryNamed 2, entryNamed 1] [entryNamed 0])
    (List.suffix_append [entryNamed 3] [entryNamed 0])

/-- The links along the chain that ends at a tip. -/
def linksTo : PIndex → PIndex → Option PIndex
  | [] => fun _ ↦ none
  | index :: pprev => linkFromPrev (linksTo pprev) (index :: pprev)

theorem linksTo_cons {index : CBlockIndex} {pprev : PIndex} (h : pprev ≠ []) :
    linksTo (index :: pprev) = Function.update (linksTo pprev) pprev (some (index :: pprev)) := by
  rw [linksTo, linkFromPrev, setPrevNext, List.tail_cons, if_neg h]

/-- An entry links to the next one on the chain, if there is one. -/
theorem linksTo_eq_some_iff {next : PIndex} :
    linksTo tip pindex = some next ↔ next <:+ tip ∧ next.tail = pindex ∧ pindex ≠ [] := by
  induction tip with
  | nil =>
    constructor
    · intro h
      cases h
    · rintro ⟨hsuffix, rfl, hne⟩
      obtain rfl := List.suffix_nil.mp hsuffix
      exact absurd rfl hne
  | cons index pprev ih =>
    by_cases hprev : pprev = []
    · subst hprev
      constructor
      · intro h
        cases h
      · rintro ⟨hsuffix, rfl, hne⟩
        rcases List.suffix_cons_iff.mp hsuffix with rfl | hnil
        · exact absurd rfl hne
        · obtain rfl := List.suffix_nil.mp hnil
          exact absurd rfl hne
    · rw [linksTo_cons hprev]
      by_cases heq : pindex = pprev
      · subst heq
        rw [Function.update_self, Option.some.injEq]
        constructor
        · rintro rfl
          exact ⟨List.suffix_refl _, rfl, hprev⟩
        · rintro ⟨hsuffix, htail, -⟩
          rcases List.suffix_cons_iff.mp hsuffix with rfl | hbelow
          · rfl
          · have hlength := hbelow.length_le
            have hpos : 0 < pindex.length := List.length_pos_of_ne_nil hprev
            rw [← htail, List.length_tail] at hlength hpos
            omega
      · rw [Function.update_of_ne heq, ih]
        constructor
        · rintro ⟨hsuffix, htail, hne⟩
          exact ⟨hsuffix.trans (List.suffix_cons index pprev), htail, hne⟩
        · rintro ⟨hsuffix, htail, hne⟩
          rcases List.suffix_cons_iff.mp hsuffix with rfl | hbelow
          · exact absurd htail.symm heq
          · exact ⟨hbelow, htail, hne⟩

theorem linksTo_eq_none (h : pindex <:+ tip → pindex = tip) :
    linksTo tip pindex = none := by
  cases hlink : linksTo tip pindex with
  | none => rfl
  | some next =>
    obtain ⟨hsuffix, htail, hne⟩ := linksTo_eq_some_iff.mp hlink
    obtain rfl := h (htail ▸ (List.tail_suffix next).trans hsuffix)
    have hlength := hsuffix.length_le
    have hpos : 0 < pindex.length := List.length_pos_of_ne_nil hne
    rw [← htail, List.length_tail] at hlength hpos
    omega

/-- Disconnecting the tip takes its link away. -/
theorem setPrevNext_linksTo (index : CBlockIndex) (pprev : PIndex) :
    setPrevNext none (linksTo (index :: pprev)) (index :: pprev) = linksTo pprev := by
  unfold setPrevNext
  rw [List.tail_cons]
  split
  · next hprev =>
    subst hprev
    rfl
  · next hprev =>
    rw [linksTo_cons hprev, Function.update_idem]
    have hnone : linksTo pprev pprev = none := linksTo_eq_none fun _ ↦ rfl
    rw [← hnone, Function.update_eq_self]

theorem foldl_setPrevNext (genesis : CBlockIndex) (above below : Branch) :
    (pointersAbove genesis below above).foldl (setPrevNext none)
      (linksTo (pindexOf genesis (above ++ below))) = linksTo (pindexOf genesis below) := by
  induction above with
  | nil => rfl
  | cons entry above ih =>
    rw [pointersAbove, List.foldl_cons, List.cons_append, pindexOf_cons, setPrevNext_linksTo, ih]

theorem foldl_linkFromPrev (genesis : CBlockIndex) (above below : Branch) :
    (pointersAbove genesis below above).reverse.foldl linkFromPrev
      (linksTo (pindexOf genesis below)) = linksTo (pindexOf genesis (above ++ below)) := by
  induction above with
  | nil => rfl
  | cons entry above ih =>
    rw [pointersAbove, List.reverse_cons, List.foldl_append, ih]
    rfl

/-- The entries met by following `pnext`, with the number of steps as fuel. -/
def followNext (pnext : PIndex → Option PIndex) : ℕ → PIndex → List PIndex
  | 0, pindex => [pindex]
  | nSteps + 1, pindex =>
      match pnext pindex with
      | none => [pindex]
      | some next => pindex :: followNext pnext nSteps next

/-- The entries of a chain from genesis to its tip. -/
def ancestors : PIndex → List PIndex
  | [] => []
  | index :: pprev => ancestors pprev ++ [index :: pprev]

theorem length_ancestors (pindex : PIndex) : (ancestors pindex).length = pindex.length := by
  induction pindex with
  | nil => rfl
  | cons index pprev ih => rw [ancestors, List.length_append, ih, List.length_singleton, List.length_cons]

theorem followNext_linksTo (hne : pindex ≠ []) (h : pindex <:+ tip) {nSteps : ℕ}
    (hsteps : tip.length ≤ nSteps + pindex.length) :
    ancestors pindex.tail ++ followNext (linksTo tip) nSteps pindex = ancestors tip := by
  induction nSteps generalizing pindex with
  | zero =>
    obtain rfl := h.eq_of_length_le (by omega)
    cases pindex with
    | nil => exact absurd rfl hne
    | cons index pprev => rfl
  | succ nSteps ih =>
    by_cases htip : pindex = tip
    · subst htip
      rw [followNext, linksTo_eq_none fun _ ↦ rfl]
      cases pindex with
      | nil => exact absurd rfl hne
      | cons index pprev => rfl
    · -- the entry above this one on the chain
      obtain ⟨above, rfl⟩ := h
      rcases List.eq_nil_or_concat above with rfl | ⟨rest, index, rfl⟩
      · exact absurd rfl htip
      · rw [List.concat_eq_append, List.append_assoc, List.singleton_append] at *
        have hnext : linksTo (rest ++ index :: pindex) pindex = some (index :: pindex) :=
          linksTo_eq_some_iff.mpr ⟨List.suffix_append _ _, rfl, hne⟩
        rw [followNext, hnext, ← ih (List.cons_ne_nil _ _) (List.suffix_append rest _)]
        · cases pindex with
          | nil => exact absurd rfl hne
          | cons index' pprev => simp [ancestors]
        · simp only [List.length_cons] at hsteps ⊢
          omega

end Electra.Node
