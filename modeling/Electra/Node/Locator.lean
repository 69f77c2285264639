import Electra.Node.TipConsistency

/-!
# Block locators

A locator names the blocks of a branch at distances 0, 1, …, 10, 11, 13, 17, … from its tip, and the
genesis block.  The receiver takes the first of them on its best chain: at most twice as far back as
the fork, and at the distance it measures by repeating the steps.
-/

namespace Electra.Node

open Chain Ledger

/-- The loop of `CBlockLocator::Set`, when `nSize` hashes are there; every turn goes back at least one
entry, and the length of the branch is the fuel. -/
def haveFrom : ℕ → ℕ → ℕ → PIndex → List Uint256
  | 0, _, _, _ => []
  | _ + 1, _, _, [] => []
  | nTurns + 1, nStep, nSize, index :: pprev =>
      PIndex.getBlockHash (index :: pprev) ::
        haveFrom nTurns (if nSize + 1 > 10 then nStep * 2 else nStep) (nSize + 1)
          ((index :: pprev).drop nStep)

/-- `CBlockLocator::Set`. -/
def locatorOf (P : ChainParams) (pindex : PIndex) : List Uint256 :=
  haveFrom pindex.length 1 0 pindex ++ [P.genesisHash]

/-- The entry with this hash, if it is in the main chain. -/
def inMainChain? (st : NodeState) (hash : Uint256) : Option PIndex :=
  match st.mapBlockIndex hash with
  | none => none
  | some pindex => if isInMainChain st pindex then some pindex else none

/-- `CBlockLocator::GetBlockIndex`. -/
def getBlockIndex (st : NodeState) : List Uint256 → PIndex
  | [] => st.pindexGenesisBlock
  | hash :: vHave =>
      match inMainChain? st hash with
      | some pindex => pindex
      | none => getBlockIndex st vHave

/-- The loop of `CBlockLocator::GetDistanceBack`. -/
def distanceFrom (st : NodeState) (nDistance nStep : ℕ) : List Uint256 → ℕ
  | [] => nDistance
  | hash :: vHave =>
      match inMainChain? st hash with
      | some _ => nDistance
      | none =>
          distanceFrom st (nDistance + nStep) (if nDistance + nStep > 10 then nStep * 2 else nStep) vHave

def getDistanceBack (st : NodeState) (vHave : List Uint256) : ℕ := distanceFrom st 0 1 vHave

/-- The step back after the entry with this number. -/
def stepBack (n : ℕ) : ℕ := 2 ^ (n - 10)

/-- How far the entry with this number is from the tip. -/
def distanceBack (n : ℕ) : ℕ := if n ≤ 10 then n else 9 + 2 ^ (n - 10)

theorem stepBack_succ (n : ℕ) :
    stepBack (n + 1) = if n + 1 > 10 then stepBack n * 2 else stepBack n := by
  unfold stepBack
  split
  · next h => rw [← pow_succ, Nat.succ_sub (Nat.le_of_lt_succ h)]
  · next h => rw [Nat.sub_eq_zero_of_le (by omega), Nat.sub_eq_zero_of_le (by omega)]

theorem distanceBack_succ (n : ℕ) : distanceBack (n + 1) = distanceBack n + stepBack n := by
  unfold distanceBack stepBack
  rcases Nat.lt_trichotomy n 10 with hlt | rfl | hgt
  · rw [if_pos (by omega : n + 1 ≤ 10), if_pos (by omega : n ≤ 10), Nat.sub_eq_zero_of_le hlt.le, pow_zero]
  · rfl
  · rw [if_neg (by omega : ¬ n + 1 ≤ 10), if_neg (by omega : ¬ n ≤ 10), Nat.succ_sub hgt.le, pow_succ]
    omega

theorem distanceBack_gt_iff (n : ℕ) : distanceBack (n + 1) > 10 ↔ n + 1 > 10 := by
  unfold distanceBack
  split
  · rfl
  · next hn =>
    have hpow : 1 < 2 ^ (n + 1 - 10) := Nat.one_lt_two_pow (by omega)
    omega

variable {n : ℕ} {P : ChainParams}

/-- Beyond eleven entries a step at most doubles the distance. -/
theorem distanceBack_succ_le {D : ℕ} (hD : 11 < D) (h : distanceBack n < D) :
    distanceBack (n + 1) ≤ 2 * D := by
  rw [distanceBack_succ]
  unfold distanceBack at h ⊢
  unfold stepBack
  split at h
  · next hn =>
    rw [if_pos hn, Nat.sub_eq_zero_of_le hn, pow_zero]
    omega
  · next hn =>
    rw [if_neg hn]
    omega

theorem stepBack_pos (n : ℕ) : 0 < stepBack n := by
  unfold stepBack
  positivity

/-- A tree of entries and a best chain in it. -/
structure ChainIndex (genesis : CBlockIndex) (st : NodeState) : Prop where
  ancestor : ∀ hash (pindex below : PIndex), st.mapBlockIndex hash = some pindex → below <:+ pindex → below ≠ [] →
    st.mapBlockIndex below.getBlockHash = some below
  root : ∀ hash pindex, st.mapBlockIndex hash = some pindex → [genesis] <:+ pindex
  best : st.mapBlockIndex st.pindexBest.getBlockHash = some st.pindexBest
  links : st.pnext = linksTo st.pindexBest

theorem NodeInv.chainIndex {disk : BlockFiles} {genesis : CBlockIndex} {st : NodeState} {chain : Branch}
    (h : NodeInv P disk genesis st chain) : ChainIndex genesis st := by
  refine ⟨fun hash pindex below ↦ h.indexed.ancestor, ?_, ?_, ?_⟩
  · intro hash pindex hpindex
    obtain ⟨branch, -, rfl⟩ := h.indexed.branch hash pindex hpindex
    exact genesis_suffix_pindexOf genesis branch
  · rw [h.atTip.pindexBest]
    exact h.atTip.indexed
  · rw [h.onBranch.links, h.atTip.pindexBest]

section Receiver

variable {genesis : CBlockIndex} {st : NodeState} (h : ChainIndex genesis st) {pindex : PIndex}
  (hpindex : st.mapBlockIndex pindex.getBlockHash = some pindex)

include h in
theorem ChainIndex.inMainChain?_of_suffix (hne : pindex ≠ []) (hbest : pindex <:+ st.pindexBest) :
    inMainChain? st pindex.getBlockHash = some pindex := by
  have hindexed := h.ancestor _ _ pindex h.best hbest hne
  rw [inMainChain?, hindexed]
  dsimp only
  rw [if_pos ((isInMainChain_iff h.links hne).mpr hbest)]

include h hpindex in
theorem ChainIndex.inMainChain?_of_not_suffix (hne : pindex ≠ []) (hbest : ¬ pindex <:+ st.pindexBest) :
    inMainChain? st pindex.getBlockHash = none := by
  rw [inMainChain?, hpindex]
  dsimp only
  rw [if_neg (hbest ∘ (isInMainChain_iff h.links hne).mp)]

include h in
theorem ChainIndex.genesis_suffix_best : [genesis] <:+ st.pindexBest := h.root _ _ h.best

variable {hash : Uint256} {vHave : List Uint256}

theorem getBlockIndex_cons_some {found : PIndex} (hfound : inMainChain? st hash = some found)
    (vHave : List Uint256) : getBlockIndex st (hash :: vHave) = found := by
  rw [getBlockIndex, hfound]

theorem getBlockIndex_cons_none (hfound : inMainChain? st hash = none) :
    getBlockIndex st (hash :: vHave) = getBlockIndex st vHave := by
  rw [getBlockIndex, hfound]

theorem distanceFrom_cons_some {found : PIndex} (hfound : inMainChain? st hash = some found)
    (nDistance nStep : ℕ) :
    distanceFrom st nDistance nStep (hash :: vHave) = nDistance := by
  rw [distanceFrom, hfound]

/-- The distance and the step after an entry that is not taken are those of the next entry. -/
theorem distanceFrom_cons_none (hfound : inMainChain? st hash = none) (n : ℕ) :
    distanceFrom st (distanceBack n) (stepBack n) (hash :: vHave) =
      distanceFrom st (distanceBack (n + 1)) (stepBack (n + 1)) vHave := by
  rw [distanceFrom, hfound, stepBack_succ]
  dsimp only
  rw [← distanceBack_succ]
  by_cases hn : n + 1 > 10
  · rw [if_pos ((distanceBack_gt_iff n).mpr hn), if_pos hn]
  · rw [if_neg (hn ∘ (distanceBack_gt_iff n).mp), if_neg hn]

/-- What the receiver of a locator does, from the entry with number `n` on: it takes the first entry
on the best chain, at its distance. -/
structure TakesFrom (st : NodeState) (genesis : CBlockIndex) (pindex : PIndex) (n : ℕ)
    (vHave : List Uint256) (m : ℕ) : Prop where
  le : n ≤ m
  hash : vHave[m - n]? = some (getBlockIndex st vHave).getBlockHash
  distance : distanceFrom st (distanceBack n) (stepBack n) vHave = distanceBack m
  first : ∀ k, n ≤ k → k < m → ¬ pindex.drop (distanceBack k) <:+ st.pindexBest
  best : getBlockIndex st vHave <:+ st.pindexBest
  found : getBlockIndex st vHave = pindex.drop (distanceBack m) ∧ distanceBack m < pindex.length ∨
    getBlockIndex st vHave = [genesis] ∧ pindex.length ≤ distanceBack m

include h in
/-- When the entries have run out, the genesis block is left. -/
theorem ChainIndex.takesFrom_genesis (hgenesis : genesis.phashBlock = P.genesisHash)
    (hlength : pindex.length ≤ distanceBack n) :
    TakesFrom st genesis pindex n [P.genesisHash] n := by
  have hfound : inMainChain? st P.genesisHash = some [genesis] := by
    rw [← hgenesis]
    exact h.inMainChain?_of_suffix (List.cons_ne_nil genesis []) h.genesis_suffix_best
  have hindex := getBlockIndex_cons_some hfound []
  refine ⟨le_refl n, ?_, distanceFrom_cons_some hfound _ _, ?_, ?_, .inr ⟨hindex, hlength⟩⟩
  · rw [Nat.sub_self, hindex, List.getElem?_cons_zero, ← hgenesis]
    rfl
  · intro k hle hlt
    omega
  · rw [hindex]
    exact h.genesis_suffix_best

include h hpindex in
theorem ChainIndex.exists_takesFrom (hgenesis : genesis.phashBlock = P.genesisHash) {nTurns : ℕ}
    (hturns : (pindex.drop (distanceBack n)).length ≤ nTurns) :
    ∃ m, TakesFrom st genesis pindex n
      (haveFrom nTurns (stepBack n) n (pindex.drop (distanceBack n)) ++ [P.genesisHash]) m := by
  induction nTurns generalizing n with
  | zero =>
    refine ⟨n, h.takesFrom_genesis hgenesis ?_⟩
    rw [List.length_drop] at hturns
    omega
  | succ nTurns ih =>
    cases hrest : pindex.drop (distanceBack n) with
    | nil =>
      refine ⟨n, h.takesFrom_genesis hgenesis ?_⟩
      exact List.drop_eq_nil_iff.mp hrest
    | cons index pprev =>
      have hne : index :: pprev ≠ [] := List.cons_ne_nil index pprev
      have hlength : distanceBack n < pindex.length := by
        by_contra hle
        rw [List.drop_eq_nil_of_le (not_lt.mp hle)] at hrest
        exact hne hrest.symm
      have hsuffix : index :: pprev <:+ pindex := hrest ▸ List.drop_suffix _ _
      have hindexed := h.ancestor _ _ _ hpindex hsuffix hne
      have hnext : (index :: pprev).drop (stepBack n) = pindex.drop (distanceBack (n + 1)) := by
        rw [← hrest, List.drop_drop, distanceBack_succ]
      rw [haveFrom, ← stepBack_succ, hnext, List.cons_append]
      by_cases hbest : index :: pprev <:+ st.pindexBest
      · have hfound := h.inMainChain?_of_suffix hne hbest
        have hindex := getBlockIndex_cons_some hfound (haveFrom nTurns (stepBack (n + 1)) (n + 1)
          (pindex.drop (distanceBack (n + 1))) ++ [P.genesisHash])
        refine ⟨n, le_refl n, ?_, distanceFrom_cons_some hfound _ _, ?_, ?_, .inl ⟨?_, hlength⟩⟩
        · rw [Nat.sub_self, hindex, List.getElem?_cons_zero]
        · intro k hle hlt
          omega
        · rw [hindex]
          exact hbest
        · rw [hindex, hrest]
      · have hfound := h.inMainChain?_of_not_suffix hindexed hne hbest
        have hturns' : (pindex.drop (distanceBack (n + 1))).length ≤ nTurns := by
          have hpos := stepBack_pos n
          rw [distanceBack_succ]
          rw [List.length_drop] at hturns ⊢
          omega
        obtain ⟨m, hm⟩ := ih hturns'
        refine ⟨m, Nat.le_of_succ_le hm.le, ?_, ?_, ?_, ?_, ?_⟩
        · have hle := hm.le
          rw [getBlockIndex_cons_none hfound, ← hm.hash,
            show m - n = m - (n + 1) + 1 by omega, List.getElem?_cons_succ]
        · rw [distanceFrom_cons_none hfound]
          exact hm.distance
        · intro k hle hlt
          rcases Nat.eq_or_lt_of_le hle with rfl | hlt'
          · rw [hrest]
            exact hbest
          · exact hm.first k hlt' hlt
        · rw [getBlockIndex_cons_none hfound]
          exact hm.best
        · rw [getBlockIndex_cons_none hfound]
          exact hm.found

include h hpindex in
/-- For every entry of the tree and every best chain: the locator gives an ancestor on the best chain,
the genesis entry or one at most twice as far back as the fork, and `GetDistanceBack` measures the
distance at which `Set` took it. -/
theorem getBlockIndex_locatorOf {P : ChainParams} (hgenesis : genesis.phashBlock = P.genesisHash) :
    getBlockIndex st (locatorOf P pindex) <:+ pindex ∧
      isInMainChain st (getBlockIndex st (locatorOf P pindex)) = true ∧
      (∀ pfork : PIndex, (∀ common, common <:+ pindex ∧ common <:+ st.pindexBest ↔ common <:+ pfork) →
        11 < pindex.nHeight - pfork.nHeight →
          getBlockIndex st (locatorOf P pindex) = [genesis] ∨
          pindex.nHeight - (getBlockIndex st (locatorOf P pindex)).nHeight ≤
            2 * (pindex.nHeight - pfork.nHeight)) ∧
      ∃ m, (locatorOf P pindex)[m]? = some (getBlockIndex st (locatorOf P pindex)).getBlockHash ∧
        getDistanceBack st (locatorOf P pindex) = distanceBack m ∧
        (getBlockIndex st (locatorOf P pindex) = pindex.drop (distanceBack m) ∨
          getBlockIndex st (locatorOf P pindex) = [genesis] ∧ pindex.length ≤ distanceBack m) := by
  have hturns : (pindex.drop (distanceBack 0)).length ≤ pindex.length := by
    rw [List.length_drop]
    omega
  obtain ⟨m, hm⟩ := h.exists_takesFrom hpindex hgenesis hturns
  change TakesFrom st genesis pindex 0 (locatorOf P pindex) m at hm
  have hsuffix : getBlockIndex st (locatorOf P pindex) <:+ pindex := by
    rcases hm.found with ⟨heq, -⟩ | ⟨heq, -⟩
    · rw [heq]
      exact List.drop_suffix _ _
    · rw [heq]
      exact h.root _ _ hpindex
  have hne : getBlockIndex st (locatorOf P pindex) ≠ [] := by
    rcases hm.found with ⟨heq, hlt⟩ | ⟨heq, -⟩
    · rw [heq, ← List.length_pos_iff, List.length_drop]
      omega
    · rw [heq]
      exact List.cons_ne_nil genesis []
  refine ⟨hsuffix, (isInMainChain_iff h.links hne).mpr hm.best, ?_, m, hm.hash, hm.distance, ?_⟩
  · intro pfork hfork hfar
    rcases hm.found with ⟨heq, hlt⟩ | ⟨heq, -⟩
    · right
      obtain ⟨hleft, hright⟩ := (hfork pfork).mpr (List.suffix_refl _)
      have hforkLength := hleft.length_le
      simp only [PIndex.nHeight] at hfar ⊢
      have hbound : distanceBack m ≤ 2 * (pindex.length - pfork.length) := by
        cases m with
        | zero => exact Nat.zero_le _
        | succ k =>
          refine distanceBack_succ_le (by omega) ?_
          -- the entry before it is not on the best chain, so it is above the fork
          by_contra hle
          have hbelow : pindex.drop (distanceBack k) <:+ pfork := by
            refine List.suffix_of_suffix_length_le (List.drop_suffix _ _) hleft ?_
            rw [List.length_drop]
            omega
          exact hm.first k (Nat.zero_le k) (Nat.lt_succ_self k) (hbelow.trans hright)
      rw [heq, List.length_drop]
      omega
    · exact .inl heq
  · rcases hm.found with ⟨heq, -⟩ | hend
    · exact .inl heq
    · exact .inr hend

end Receiver

namespace LocatorExample

open Builders

def testNet : ChainParams := network true

def entryWith (phashBlock : Uint256) (nHeight : ℕ) : CBlockIndex :=
  ⟨phashBlock, nHeight + 1, 8, false, none, 0, 0, 0, false, 6, 0, 300 * (nHeight + 1), 0, 0⟩

/-- The best chain up to a height. -/
def main : ℕ → PIndex
  | 0 => [entryWith testNet.genesisHash 0]
  | nHeight + 1 => entryWith (BitVec.ofNat 256 (nHeight + 1)) (nHeight + 1) :: main nHeight

/-- The first blocks of a branch off height 5. -/
def side : ℕ → PIndex
  | 0 => main 5
  | n + 1 => entryWith (BitVec.ofNat 256 (100 + n)) (6 + n) :: side n

def entries : List PIndex := ((main 8).tails ++ (side 12).tails).filter (· ≠ [])

def st : NodeState := { nodeAt (main 8) (txdbOf []) with
  mapBlockIndex := fun hash ↦ entries.find? fun pindex ↦ pindex.getBlockHash == hash
  pnext := linksTo (main 8) }

theorem mem_entries {hash : Uint256} {pindex : PIndex} (h : st.mapBlockIndex hash = some pindex) :
    pindex ∈ entries := by
  have hfind : entries.find? (fun pindex : PIndex ↦ pindex.getBlockHash == hash) = some pindex := h
  exact List.mem_of_find?_eq_some hfind

theorem chainIndex : ChainIndex (entryWith testNet.genesisHash 0) st where
  ancestor hash pindex below hpindex hbelow hne := by
    have hall : ∀ pindex ∈ entries, ∀ below ∈ pindex.tails, below ≠ [] →
        st.mapBlockIndex (PIndex.getBlockHash below) = some below := by decide +kernel
    exact hall pindex (mem_entries hpindex) below ((List.mem_tails below pindex).mpr hbelow) hne
  root hash pindex hpindex := by
    have hall : ∀ pindex ∈ entries, [entryWith testNet.genesisHash 0] <:+ pindex := by decide +kernel
    exact hall pindex (mem_entries hpindex)
  best := by decide +kernel
  links := rfl

/-- The two branches part at height 5. -/
theorem fork (common : PIndex) :
    common <:+ side 12 ∧ common <:+ st.pindexBest ↔ common <:+ main 5 := by
  have hall : ∀ common ∈ (side 12).tails, common ∈ (main 8).tails → common ∈ (main 5).tails := by
    decide +kernel
  have hside : main 5 <:+ side 12 := by decide +kernel
  have hmain : main 5 <:+ main 8 := by decide +kernel
  constructor
  · rintro ⟨hleft, hright⟩
    exact (List.mem_tails _ _).mp (hall common ((List.mem_tails _ _).mpr hleft)
      ((List.mem_tails _ _).mpr hright))
  · intro hcommon
    exact ⟨hcommon.trans hside, hcommon.trans hmain⟩

/-- The locator of a block 12 above the fork leads to the block below the fork, 13 back. -/
theorem getBlockIndex_locatorOf_side :
    getBlockIndex st (locatorOf testNet (side 12)) = main 4 ∧ main 4 <:+ side 12 ∧
      isInMainChain st (main 4) = true ∧
      (main 4 = [entryWith testNet.genesisHash 0] ∨
        (side 12).nHeight - (main 4).nHeight ≤ 2 * ((side 12).nHeight - (main 5).nHeight)) ∧
      ∃ m, (locatorOf testNet (side 12))[m]? = some (main 4).getBlockHash ∧
        getDistanceBack st (locatorOf testNet (side 12)) = distanceBack m ∧
        (main 4 = (side 12).drop (distanceBack m) ∨
          main 4 = [entryWith testNet.genesisHash 0] ∧ (side 12).length ≤ distanceBack m) := by
  have hfound : getBlockIndex st (locatorOf testNet (side 12)) = main 4 := by decide +kernel
  have hindexed : st.mapBlockIndex (side 12).getBlockHash = some (side 12) := by decide +kernel
  have hlocator := @getBlockIndex_locatorOf _ _ chainIndex _ hindexed testNet rfl
  rw [hfound] at hlocator
  obtain ⟨hsuffix, hmain, hfar, hdistance⟩ := hlocator
  exact ⟨hfound, hsuffix, hmain, hfar (main 5) fork (by decide), hdistance⟩

end LocatorExample

end Electra.Node
