import Electra.Chain.Builders
import Electra.Foundations.HashTree

/-!
# The merkle root of a block

Lists of different lengths can have one root, since the last hash of an odd level is paired with
itself.  All but one of them repeat a transaction, and `CheckBlock` refuses such a block.

The loops over the flat tree compute what the tree of levels has, so that the branch of a transaction
leads to the root of its block.
-/

namespace Electra.Ledger

open Chain Foundations.Outcome Foundations.HashTree

section

variable (P : ChainParams)

theorem merkleLevel_eq_level : ∀ hashes : List Uint256, merkleLevel P hashes = level P.hashPair hashes
  | [] => rfl
  | [_] => rfl
  | hash :: hash' :: rest => by
    rw [merkleLevel, merkleLevel_eq_level rest]
    rfl

/-- The last hash of the tree is its root. -/
theorem exists_getLast?_merkleTree {nLevels : ℕ} {hashes : List Uint256} (hne : hashes ≠ [])
    (hlength : hashes.length ≤ nLevels + 1) :
    ∃ root, (merkleTree P nLevels hashes).getLast? = some root ∧ Above P.hashPair hashes [root] := by
  induction nLevels generalizing hashes with
  | zero =>
    match hashes, hne with
    | [hash], _ => exact ⟨hash, rfl, .refl⟩
    | _ :: _ :: _, _ => simp at hlength
  | succ nLevels ih =>
    by_cases hlong : 1 < hashes.length
    · have hshort := length_level P.hashPair hashes
      have hnext : level P.hashPair hashes ≠ [] := by
        intro hnil
        rw [hnil, List.length_nil] at hshort
        omega
      obtain ⟨root, hlast, habove⟩ := ih hnext (by omega)
      refine ⟨root, ?_, .head ⟨hlong, rfl⟩ habove⟩
      rw [merkleTree, if_pos hlong, merkleLevel_eq_level, List.getLast?_append, hlast]
      rfl
    · match hashes, hne with
      | [hash], _ => exact ⟨hash, rfl, .refl⟩
      | _ :: _ :: _, _ => simp at hlong

theorem buildMerkleTree_of_ne_nil {block : CBlock} (hne : block.vtx ≠ []) :
    Above P.hashPair (block.vtx.map P.hashTx) [buildMerkleTree P block] := by
  have hhashes : block.vtx.map P.hashTx ≠ [] := by simpa using hne
  have hlength : (block.vtx.map P.hashTx).length ≤ block.vtx.length + 1 := by simp
  obtain ⟨root, hlast, habove⟩ := exists_getLast?_merkleTree P hhashes hlength
  rw [buildMerkleTree, hlast]
  exact habove

theorem buildMerkleTree_of_nil {block : CBlock} (hnil : block.vtx = []) : buildMerkleTree P block = 0 := by
  rw [buildMerkleTree, hnil]
  rfl

/-- The pairs that are hashed for the tree of some transactions. -/
def merklePairs (vtx : List CTransaction) : Set (Uint256 × Uint256) :=
  hashedPairs P.hashPair (vtx.map P.hashTx)

/-- The hashes of two lists of transactions and of their trees do not collide, and none of them is the
null hash. -/
structure MerkleCollisionFree (vtx vtx' : List CTransaction) : Prop where
  hashTx : Set.InjOn P.hashTx {tx | tx ∈ vtx ∨ tx ∈ vtx'}
  hashPair : Set.InjOn (fun p ↦ P.hashPair p.1 p.2) (merklePairs P vtx ∪ merklePairs P vtx')
  leaf : ∀ tx, tx ∈ vtx ∨ tx ∈ vtx' → ∀ p ∈ merklePairs P vtx ∪ merklePairs P vtx',
    P.hashTx tx ≠ P.hashPair p.1 p.2
  leaf_ne_zero : ∀ tx, tx ∈ vtx ∨ tx ∈ vtx' → P.hashTx tx ≠ 0
  pair_ne_zero : ∀ p ∈ merklePairs P vtx ∪ merklePairs P vtx', P.hashPair p.1 p.2 ≠ 0

variable {P} {block block' : CBlock}

theorem MerkleCollisionFree.symm {vtx vtx' : List CTransaction} (h : MerkleCollisionFree P vtx vtx') :
    MerkleCollisionFree P vtx' vtx where
  hashTx := h.hashTx.mono fun _ htx ↦ htx.symm
  hashPair := h.hashPair.mono fun _ hp ↦ hp.symm
  leaf tx htx p hp := h.leaf tx htx.symm p hp.symm
  leaf_ne_zero tx htx := h.leaf_ne_zero tx htx.symm
  pair_ne_zero p hp := h.pair_ne_zero p hp.symm

/-- Only the empty list has the null root. -/
theorem MerkleCollisionFree.buildMerkleTree_ne_zero {vtx' : List CTransaction}
    (h : MerkleCollisionFree P block.vtx vtx') (hne : block.vtx ≠ []) : buildMerkleTree P block ≠ 0 := by
  have habove := buildMerkleTree_of_ne_nil P hne
  rcases eq_or_exists_pair_of_above habove with heq | ⟨p, hp, hmem⟩
  · have hroot : buildMerkleTree P block ∈ block.vtx.map P.hashTx := heq ▸ List.mem_singleton_self _
    obtain ⟨tx, htx, hhash⟩ := List.mem_map.mp hroot
    rw [← hhash]
    exact h.leaf_ne_zero tx (.inl htx)
  · rw [← List.mem_singleton.mp hmem]
    exact h.pair_ne_zero p (.inl hp)

/-- Without collisions one root means one list, or a repeated transaction. -/
theorem MerkleCollisionFree.eq_or_not_nodup (h : MerkleCollisionFree P block.vtx block'.vtx)
    (hroot : buildMerkleTree P block = buildMerkleTree P block') :
    block.vtx = block'.vtx ∨ ¬ (block.vtx.map P.hashTx).Nodup ∨ ¬ (block'.vtx.map P.hashTx).Nodup := by
  by_cases hnil : block.vtx = []
  · have hnil' : block'.vtx = [] := by
      by_contra hne
      exact h.symm.buildMerkleTree_ne_zero hne (hroot ▸ buildMerkleTree_of_nil P hnil)
    exact .inl (hnil.trans hnil'.symm)
  · have hne' : block'.vtx ≠ [] := by
      intro hnil'
      exact h.buildMerkleTree_ne_zero hnil (hroot.trans (buildMerkleTree_of_nil P hnil'))
    have hleaf : ∀ p ∈ merklePairs P block.vtx ∪ merklePairs P block'.vtx,
        P.hashPair p.1 p.2 ∉ block.vtx.map P.hashTx ∧ P.hashPair p.1 p.2 ∉ block'.vtx.map P.hashTx := by
      intro p hp
      constructor
      · intro hmem
        obtain ⟨tx, htx, hhash⟩ := List.mem_map.mp hmem
        exact h.leaf tx (.inl htx) p hp hhash
      · intro hmem
        obtain ⟨tx, htx, hhash⟩ := List.mem_map.mp hmem
        exact h.leaf tx (.inr htx) p hp hhash
    have hroots : Above P.hashPair (block'.vtx.map P.hashTx) [buildMerkleTree P block] :=
      hroot ▸ buildMerkleTree_of_ne_nil P hne'
    rcases eq_or_not_nodup_of_root_eq h.hashPair Set.subset_union_left Set.subset_union_right hleaf
      (buildMerkleTree_of_ne_nil P hnil) hroots with heq | hdup
    · exact .inl (eq_of_map_eq h.hashTx (fun _ htx ↦ .inl htx) (fun _ htx ↦ .inr htx) heq)
    · exact .inr hdup

theorem hashMerkleRoot_of_checkBlock {nAdjustedTime : ℤ} {fCheckPOW fCheckSig : Bool} {u : Unit}
    (h : checkBlock P nAdjustedTime block fCheckPOW true fCheckSig = .ok u) :
    block.hashMerkleRoot = buildMerkleTree P block := by
  simp only [checkBlock, bind_eq_ok, rejectIf_eq_ok, checkWhen_eq_ok, exists_const] at h
  obtain ⟨-, -, -, -, -, -, -, v, -, w, -, -, -, hroot⟩ := h
  simpa using hroot

/-- A block with a repeated transaction is refused. -/
theorem checkBlock_ne_ok (hdup : ¬ (block.vtx.map P.hashTx).Nodup) (nAdjustedTime : ℤ)
    (fCheckPOW fCheckMerkleRoot fCheckSig : Bool) :
    checkBlock P nAdjustedTime block fCheckPOW fCheckMerkleRoot fCheckSig ≠ .ok () :=
  fun h ↦ hdup (checked_of_checkBlock h).txids_nodup

/-- Of two different lists with one root one repeats a transaction and is refused, so that a header is
accepted with one list at most. -/
theorem merkleRoot_binds (h : MerkleCollisionFree P block.vtx block'.vtx) :
    (block.vtx ≠ block'.vtx → buildMerkleTree P block = buildMerkleTree P block' →
      ∃ b, (b = block ∨ b = block') ∧ ¬ (b.vtx.map P.hashTx).Nodup ∧
        ∀ nAdjustedTime fCheckPOW fCheckMerkleRoot fCheckSig,
          checkBlock P nAdjustedTime b fCheckPOW fCheckMerkleRoot fCheckSig ≠ .ok ()) ∧
    (block.toCBlockHeader = block'.toCBlockHeader →
      ∀ nAdjustedTime nAdjustedTime' fCheckPOW fCheckPOW' fCheckSig fCheckSig',
        checkBlock P nAdjustedTime block fCheckPOW true fCheckSig = .ok () →
        checkBlock P nAdjustedTime' block' fCheckPOW' true fCheckSig' = .ok () →
          block.vtx = block'.vtx) := by
  constructor
  · intro hne hroot
    rcases h.eq_or_not_nodup hroot with heq | hdup | hdup
    · exact absurd heq hne
    · exact ⟨block, .inl rfl, hdup, checkBlock_ne_ok hdup⟩
    · exact ⟨block', .inr rfl, hdup, checkBlock_ne_ok hdup⟩
  · intro hheader nAdjustedTime nAdjustedTime' fCheckPOW fCheckPOW' fCheckSig fCheckSig' hok hok'
    have hroot : buildMerkleTree P block = buildMerkleTree P block' := by
      rw [← hashMerkleRoot_of_checkBlock hok, ← hashMerkleRoot_of_checkBlock hok', hheader]
    rcases h.eq_or_not_nodup hroot with heq | hdup | hdup
    · exact heq
    · exact absurd (checked_of_checkBlock hok).txids_nodup hdup
    · exact absurd (checked_of_checkBlock hok').txids_nodup hdup

namespace MerkleExample

open Builders

def testNet : ChainParams := network true

def blockOfNames (names : List ℤ) : CBlock :=
  blockOf testNet 1 0 300 (easiestBits testNet) (names.map fun name ↦ coinbase name 300 1 [])

theorem merklePairs_blockOfNames {names : List ℤ} (h : names = [1, 2, 3] ∨ names = [1, 2, 3, 3])
    {p : Uint256 × Uint256} (hp : p ∈ merklePairs testNet (blockOfNames names).vtx) :
    p ∈ [((1 : Uint256), (2 : Uint256)), (3, 3), (5, 9)] := by
  have hlevels : ∀ hashes : List Uint256, hashes = [1, 2, 3] ∨ hashes = [1, 2, 3, 3] →
      p ∈ hashedPairs testNet.hashPair hashes → p ∈ [((1 : Uint256), (2 : Uint256)), (3, 3), (5, 9)] := by
    intro hashes hhashes hmem
    rcases hhashes with rfl | rfl <;>
    · obtain ⟨-, hmem | hmem⟩ := (mem_hashedPairs_iff _).mp hmem
      · simp only [levelPairs, List.mem_cons, List.not_mem_nil, or_false] at hmem ⊢
        tauto
      · obtain ⟨-, hmem | hmem⟩ := (mem_hashedPairs_iff _).mp hmem
        · have hpairs : p ∈ [((5 : Uint256), (9 : Uint256))] := hmem
          simp only [List.mem_cons, List.not_mem_nil, or_false] at hpairs ⊢
          tauto
        · obtain ⟨hlong, -⟩ := (mem_hashedPairs_iff _).mp hmem
          exact absurd hlong (by decide)
  rcases h with rfl | rfl
  · exact hlevels _ (.inl (by decide)) hp
  · exact hlevels _ (.inr (by decide)) hp

theorem merkleCollisionFree_example :
    MerkleCollisionFree testNet (blockOfNames [1, 2, 3]).vtx (blockOfNames [1, 2, 3, 3]).vtx := by
  have hpairs : ∀ p ∈ merklePairs testNet (blockOfNames [1, 2, 3]).vtx ∪
      merklePairs testNet (blockOfNames [1, 2, 3, 3]).vtx,
        p ∈ [((1 : Uint256), (2 : Uint256)), (3, 3), (5, 9)] := by
    rintro p (hp | hp)
    · exact merklePairs_blockOfNames (.inl rfl) hp
    · exact merklePairs_blockOfNames (.inr rfl) hp
  have htxs : ∀ tx, tx ∈ (blockOfNames [1, 2, 3]).vtx ∨ tx ∈ (blockOfNames [1, 2, 3, 3]).vtx →
      tx ∈ (blockOfNames [1, 2, 3]).vtx := by
    rintro tx (htx | htx)
    · exact htx
    · exact (show ∀ tx ∈ (blockOfNames [1, 2, 3, 3]).vtx, tx ∈ (blockOfNames [1, 2, 3]).vtx by
        decide) tx htx
  constructor
  case hashTx =>
    intro tx htx tx' htx'
    exact (show ∀ tx ∈ (blockOfNames [1, 2, 3]).vtx, ∀ tx' ∈ (blockOfNames [1, 2, 3]).vtx,
      testNet.hashTx tx = testNet.hashTx tx' → tx = tx' by decide) tx (htxs tx htx) tx' (htxs tx' htx')
  case hashPair =>
    intro p hp q hq
    exact (show ∀ p ∈ [((1 : Uint256), (2 : Uint256)), (3, 3), (5, 9)],
      ∀ q ∈ [((1 : Uint256), (2 : Uint256)), (3, 3), (5, 9)],
        testNet.hashPair p.1 p.2 = testNet.hashPair q.1 q.2 → p = q by
          simp only [List.forall_mem_cons, List.not_mem_nil, false_imp_iff, implies_true, and_true]
          decide)
      p (hpairs p hp) q (hpairs q hq)
  case leaf =>
    intro tx htx p hp
    exact (show ∀ tx ∈ (blockOfNames [1, 2, 3]).vtx,
      ∀ p ∈ [((1 : Uint256), (2 : Uint256)), (3, 3), (5, 9)],
        testNet.hashTx tx ≠ testNet.hashPair p.1 p.2 by
          simp only [List.forall_mem_cons, List.not_mem_nil, false_imp_iff, implies_true, and_true]
          decide) tx (htxs tx htx) p (hpairs p hp)
  case leaf_ne_zero =>
    intro tx htx
    exact (show ∀ tx ∈ (blockOfNames [1, 2, 3]).vtx, testNet.hashTx tx ≠ 0 by decide) tx (htxs tx htx)
  case pair_ne_zero =>
    intro p hp
    exact (show ∀ p ∈ [((1 : Uint256), (2 : Uint256)), (3, 3), (5, 9)],
      testNet.hashPair p.1 p.2 ≠ 0 by
        simp only [List.forall_mem_cons, List.not_mem_nil, false_imp_iff, implies_true, and_true]
        decide) p (hpairs p hp)

end MerkleExample

open MerkleExample in
/-- The two lists have one root, and the longer one repeats a transaction. -/
theorem merkleRoot_binds_example :
    buildMerkleTree testNet (blockOfNames [1, 2, 3]) =
        buildMerkleTree testNet (blockOfNames [1, 2, 3, 3]) ∧
      ∃ b, (b = blockOfNames [1, 2, 3] ∨ b = blockOfNames [1, 2, 3, 3]) ∧
        ¬ (b.vtx.map testNet.hashTx).Nodup ∧
        ∀ nAdjustedTime fCheckPOW fCheckMerkleRoot fCheckSig,
          checkBlock testNet nAdjustedTime b fCheckPOW fCheckMerkleRoot fCheckSig ≠ .ok () := by
  have hroot : buildMerkleTree testNet (blockOfNames [1, 2, 3]) =
      buildMerkleTree testNet (blockOfNames [1, 2, 3, 3]) := by decide
  exact ⟨hroot, (merkleRoot_binds merkleCollisionFree_example).1 (by decide) hroot⟩

end

variable {P : ChainParams}

theorem getD_append_right {pre xs : List Uint256} {i : ℕ} :
    (pre ++ xs).getD (pre.length + i) 0 = xs.getD i 0 := by
  rw [List.getD_append_right _ _ _ _ (Nat.le_add_right _ _), Nat.add_sub_cancel_left]

theorem getD_append_left {xs post : List Uint256} {i : ℕ} (hi : i < xs.length) :
    (xs ++ post).getD i 0 = xs.getD i 0 := List.getD_append _ _ _ _ hi

/-- The first turns of the inner loop push the first hashes of the level above. -/
theorem foldl_pushMerkleLevel {pre xs : List Uint256} {n : ℕ} (hn : n ≤ (xs.length + 1) / 2) :
    (List.range n).foldl (fun v k ↦ v ++ [P.hashPair (v.getD (pre.length + 2 * k) 0)
      (v.getD (pre.length + min (2 * k + 1) (xs.length - 1)) 0)]) (pre ++ xs) =
        pre ++ xs ++ (level P.hashPair xs).take n := by
  induction n with
  | zero => simp
  | succ n ih =>
    have hlt : n < (level P.hashPair xs).length := by
      rw [length_level]
      exact hn
    have hleft : xs[2 * n]? = some (xs.getD (2 * n) 0) := by
      rw [List.getD_eq_getElem?_getD, List.getElem?_eq_getElem (by omega), Option.getD_some]
    have hright : xs[min (2 * n + 1) (xs.length - 1)]? =
        some (xs.getD (min (2 * n + 1) (xs.length - 1)) 0) := by
      rw [List.getD_eq_getElem?_getD, List.getElem?_eq_getElem (by omega), Option.getD_some]
    have hhash : (level P.hashPair xs)[n]? = some (P.hashPair (xs.getD (2 * n) 0)
        (xs.getD (min (2 * n + 1) (xs.length - 1)) 0)) := by
      rw [level, List.getElem?_map, getElem?_levelPairs hleft hright, Option.map_some]
    rw [List.range_succ, List.foldl_append, ih (by omega), List.foldl_cons, List.foldl_nil,
      List.append_assoc pre, getD_append_right, getD_append_right, getD_append_left (by omega),
      getD_append_left (by omega), List.take_add_one, hhash, Option.toList_some]
    simp only [List.append_assoc]

theorem pushMerkleLevel_eq (pre xs : List Uint256) :
    pushMerkleLevel P xs.length pre.length (pre ++ xs) = pre ++ xs ++ merkleLevel P xs := by
  have hall : (level P.hashPair xs).take ((xs.length + 1) / 2) = level P.hashPair xs := by
    rw [← length_level P.hashPair]
    exact List.take_length
  rw [merkleLevel_eq_level, pushMerkleLevel, foldl_pushMerkleLevel le_rfl, hall]

theorem length_merkleLevel (xs : List Uint256) : (merkleLevel P xs).length = (xs.length + 1) / 2 := by
  rw [merkleLevel_eq_level, length_level]

theorem buildMerkleTreeLoop_eq (nTurns : ℕ) (pre xs : List Uint256) :
    buildMerkleTreeLoop P nTurns xs.length pre.length (pre ++ xs) = pre ++ merkleTree P nTurns xs := by
  induction nTurns generalizing pre xs with
  | zero => rfl
  | succ nTurns ih =>
    rw [buildMerkleTreeLoop, merkleTree]
    split
    · rw [pushMerkleLevel_eq, ← List.length_append, ← length_merkleLevel (P := P), ih,
        List.append_assoc]
    · rfl

/-- The loops over the flat tree build the levels. -/
theorem vMerkleTree_eq (block : CBlock) :
    vMerkleTree P block = merkleTree P block.vtx.length (block.vtx.map P.hashTx) := by
  have hloop := buildMerkleTreeLoop_eq (P := P) block.vtx.length [] (block.vtx.map P.hashTx)
  rw [List.length_map, List.nil_append, List.nil_append] at hloop
  exact hloop

/-- A tree begins with its first level. -/
theorem exists_merkleTree_eq_append (nTurns : ℕ) (xs : List Uint256) :
    ∃ post, merkleTree P nTurns xs = xs ++ post := by
  cases nTurns with
  | zero => exact ⟨[], (List.append_nil xs).symm⟩
  | succ nTurns =>
    rw [merkleTree]
    split
    · exact ⟨_, rfl⟩
    · exact ⟨[], (List.append_nil xs).symm⟩

theorem getMerkleBranchLoop_eq (nTurns : ℕ) (pre xs : List Uint256) (nIndex : ℕ) :
    getMerkleBranchLoop (pre ++ merkleTree P nTurns xs) nTurns xs.length pre.length nIndex =
      merkleBranch P nTurns xs nIndex := by
  induction nTurns generalizing pre xs nIndex with
  | zero => rfl
  | succ nTurns ih =>
    obtain ⟨post, hpost⟩ := exists_merkleTree_eq_append (P := P) (nTurns + 1) xs
    rw [getMerkleBranchLoop, merkleBranch]
    split
    · next hlong =>
      have hhead : (pre ++ merkleTree P (nTurns + 1) xs).getD
          (pre.length + min (nIndex ^^^ 1) (xs.length - 1)) 0 =
            xs.getD (min (nIndex ^^^ 1) (xs.length - 1)) 0 := by
        rw [getD_append_right, hpost, getD_append_left (by omega)]
      have htail : pre ++ merkleTree P (nTurns + 1) xs =
          (pre ++ xs) ++ merkleTree P nTurns (merkleLevel P xs) := by
        rw [merkleTree, if_pos hlong, List.append_assoc]
      have hrest := ih (pre ++ xs) (merkleLevel P xs) (nIndex / 2)
      rw [← htail, List.length_append, length_merkleLevel] at hrest
      exact congrArg₂ List.cons hhead hrest
    · rfl

/-- The loop over the flat tree collects the branch. -/
theorem getMerkleBranch_eq (block : CBlock) (nIndex : ℕ) : getMerkleBranch P block nIndex =
    getMerkleBranchLoop (vMerkleTree P block) block.vtx.length block.vtx.length 0 nIndex := by
  have hloop := getMerkleBranchLoop_eq (P := P) block.vtx.length [] (block.vtx.map P.hashTx) nIndex
  rw [List.length_map, List.nil_append] at hloop
  rw [vMerkleTree_eq, getMerkleBranch]
  exact hloop.symm

theorem isBranch_merkleBranch {nTurns : ℕ} {xs : List Uint256} {nIndex : ℕ}
    (hlength : xs.length ≤ nTurns + 1) (hindex : nIndex < xs.length) :
    IsBranch P.hashPair xs nIndex (merkleBranch P nTurns xs nIndex) := by
  induction nTurns generalizing xs nIndex with
  | zero =>
    match xs, hlength, hindex with
    | [hash], _, hindex =>
      obtain rfl : nIndex = 0 := Nat.lt_one_iff.mp hindex
      exact .root
  | succ nTurns ih =>
    rw [merkleBranch]
    split
    · next hlong =>
      have hother : xs[min (nIndex ^^^ 1) (xs.length - 1)]? =
          some (xs.getD (min (nIndex ^^^ 1) (xs.length - 1)) 0) := by
        rw [List.getD_eq_getElem?_getD, List.getElem?_eq_getElem (by omega), Option.getD_some]
      have hshort := length_level P.hashPair xs
      rw [merkleLevel_eq_level]
      exact .step hlong hindex hother (ih (by omega) (by omega))
    · next hshort =>
      match xs, hshort, hindex with
      | [hash], _, hindex =>
        obtain rfl : nIndex = 0 := Nat.lt_one_iff.mp hindex
        exact .root
      | _ :: _ :: _, hshort, _ =>
        exact absurd (Nat.succ_lt_succ (Nat.zero_lt_succ _)) hshort

theorem checkMerkleBranchLoop_eq_climb (hash : Uint256) (vMerkleBranch : List Uint256) (nIndex : ℕ) :
    checkMerkleBranchLoop P hash vMerkleBranch nIndex = climb P.hashPair hash vMerkleBranch nIndex := by
  induction vMerkleBranch generalizing hash nIndex with
  | nil => rfl
  | cons otherside vMerkleBranch ih =>
    have hmod : (nIndex : ℤ) % 2 = 1 ↔ nIndex % 2 = 1 := by omega
    have hdiv : (nIndex : ℤ) / 2 = ((nIndex / 2 : ℕ) : ℤ) := by omega
    rw [checkMerkleBranchLoop, climb, hdiv, ih]
    simp only [hmod]

/-- The branch of a transaction, read off the flat tree, leads from its hash to the last hash of the
tree. -/
theorem checkMerkleBranch_eq_buildMerkleTree (P : ChainParams) (block : CBlock) (i : ℕ)
    (hi : i < block.vtx.length) :
    checkMerkleBranch P (P.hashTx block.vtx[i]) (getMerkleBranchLoop (vMerkleTree P block)
        block.vtx.length block.vtx.length 0 i) i = (vMerkleTree P block).getLast?.getD 0 := by
  have hne : block.vtx ≠ [] := List.ne_nil_of_length_pos (Nat.zero_lt_of_lt hi)
  have hleaf : (block.vtx.map P.hashTx)[i]? = some (P.hashTx block.vtx[i]) := by
    rw [List.getElem?_map, List.getElem?_eq_getElem hi, Option.map_some]
  have hbranch : IsBranch P.hashPair (block.vtx.map P.hashTx) i (getMerkleBranch P block i) := by
    apply isBranch_merkleBranch
    · rw [List.length_map]
      exact Nat.le_succ _
    · rw [List.length_map]
      exact hi
  calc checkMerkleBranch P (P.hashTx block.vtx[i]) (getMerkleBranchLoop (vMerkleTree P block)
        block.vtx.length block.vtx.length 0 i) i
      = checkMerkleBranchLoop P (P.hashTx block.vtx[i]) (getMerkleBranch P block i) i := by
        rw [← getMerkleBranch_eq]
        exact if_neg (by omega)
    _ = climb P.hashPair (P.hashTx block.vtx[i]) (getMerkleBranch P block i) i :=
        checkMerkleBranchLoop_eq_climb _ _ _
    _ = buildMerkleTree P block := climb_eq_root hbranch hleaf (buildMerkleTree_of_ne_nil P hne)
    _ = (vMerkleTree P block).getLast?.getD 0 := by rw [vMerkleTree_eq, buildMerkleTree]

open MerkleExample in
/-- The last of three transactions, whose hash is paired with itself. -/
theorem checkMerkleBranch_example :
    checkMerkleBranch testNet 3 (getMerkleBranchLoop (vMerkleTree testNet (blockOfNames [1, 2, 3]))
      3 3 0 2) 2 = (vMerkleTree testNet (blockOfNames [1, 2, 3])).getLast?.getD 0 :=
  checkMerkleBranch_eq_buildMerkleTree testNet (blockOfNames [1, 2, 3]) 2 (by decide)

end Electra.Ledger
