import Electra.Node.ChainMove
import Electra.Node.FailedReorganization
import Electra.Node.NodeRun

/-!
# The block index on disk

Each entry of the block index has a record, which names the entry that follows on the best chain.  While a
reorganisation is under way the records that it sees are those of the branch it got to, and memory follows
after the commit.  Mint and supply do not wait for the commit: they are noted in memory at once, so that a
reorganisation that fails after it connected a block leaves memory and disk different.
-/

namespace Electra.Node

open Chain Ledger Foundations.Outcome Foundations.WriteBatch

/-- The record of an entry. -/
def recordOf (st : NodeState) (hashNext : Uint256) : PIndex → Option CDiskBlockIndex
  | [] => none
  | index :: pprev => some {
      index
      nHeight := PIndex.nHeight (index :: pprev)
      nMint := st.nMint (index :: pprev)
      nMoneySupply := st.nMoneySupply (index :: pprev)
      hashPrev := PIndex.getBlockHash pprev
      hashNext }

/-- The hash of the entry that is next along some links. -/
def nextHash (links : PIndex → Option PIndex) (pindex : PIndex) : Uint256 :=
  (links pindex).elim 0 PIndex.getBlockHash

/-- The records that are read are those of the entries in memory, linked as given. -/
def Mirrored (st : NodeState) (links : PIndex → Option PIndex) : Prop :=
  ∀ hash, st.txdb.readBlockIndex hash =
    (st.mapBlockIndex hash).bind fun pindex ↦ recordOf st (nextHash links pindex) pindex

variable {P : ChainParams} {disk : BlockFiles} {genesis : CBlockIndex} {env : Env} {st st' : NodeState}
  {links links' : PIndex → Option PIndex} {pindex : PIndex} {block : CBlock}

variable {txdb txdb' : CTxDB} {index : CBlockIndex}

theorem readBlockIndex_congr {hash : Uint256}
    (h : txdb'.read (.blockindex hash) = txdb.read (.blockindex hash)) :
    txdb'.readBlockIndex hash = txdb.readBlockIndex hash := by
  rw [CTxDB.readBlockIndex, CTxDB.readBlockIndex, h]

theorem readBlockIndex_put {key : TxDbKey} {value : Option TxDbValue}
    (hkey : ∀ hash, key ≠ .blockindex hash) :
    CTxDB.readBlockIndex (txdb.put key value) = txdb.readBlockIndex := by
  funext hash
  apply readBlockIndex_congr
  rw [Store.read_put, Function.update_of_ne (hkey hash).symm]

theorem readBlockIndex_writeQueuedChanges (txdb : CTxDB) (mapQueuedChanges : MapTxIndex) :
    (writeQueuedChanges txdb mapQueuedChanges).readBlockIndex = txdb.readBlockIndex := by
  unfold writeQueuedChanges
  induction mapQueuedChanges.entries generalizing txdb with
  | nil => rfl
  | cons change changes ih => exact (ih _).trans (readBlockIndex_put fun _ ↦ by simp)

theorem readBlockIndex_disconnectInputs {vtx : List CTransaction}
    (h : vtx.foldlM (disconnectInputs P) txdb = .ok txdb') :
    txdb'.readBlockIndex = txdb.readBlockIndex := by
  refine foldlM_invariant (fun t : CTxDB ↦ t.readBlockIndex = txdb.readBlockIndex) ?_ rfl h
  intro tx _ txdb₁ txdb₂ hinv hone
  simp only [disconnectInputs, bind_eq_ok, pure_eq_ok] at hone
  obtain ⟨txdb₃, hloop, rfl⟩ := hone
  refine (readBlockIndex_put fun _ ↦ by simp).trans ?_
  refine foldlM_invariant (fun t : CTxDB ↦ t.readBlockIndex = txdb.readBlockIndex) ?_ hinv hloop
  intro prevout _ txdb₄ txdb₅ hinv' hspent
  obtain ⟨-, txindex, -, rfl⟩ := disconnectInput_eq_ok.mp hspent
  exact (readBlockIndex_put fun _ ↦ by simp).trans hinv'

theorem recordOf_congr (hmint : st'.nMint pindex = st.nMint pindex)
    (hsupply : st'.nMoneySupply pindex = st.nMoneySupply pindex) (hashNext : Uint256) :
    recordOf st' hashNext pindex = recordOf st hashNext pindex := by
  cases pindex with
  | nil => rfl
  | cons index pprev => rw [recordOf, recordOf, hmint, hsupply]

/-- A step that leaves index, mint, supply and records. -/
theorem Mirrored.congr (h : Mirrored st links) (hmap : st'.mapBlockIndex = st.mapBlockIndex)
    (hmint : st'.nMint = st.nMint) (hsupply : st'.nMoneySupply = st.nMoneySupply)
    (hread : st'.txdb.readBlockIndex = st.txdb.readBlockIndex) : Mirrored st' links := by
  intro hash
  rw [hread, h hash, hmap]
  congr 1
  funext pindex
  rw [recordOf_congr (congrFun hmint pindex) (congrFun hsupply pindex)]

/-- One entry is written, and with it its mint, its supply and its link may change. -/
theorem Mirrored.write (h : Mirrored st links)
    (hhash : ∀ hash p, st.mapBlockIndex hash = some p → PIndex.getBlockHash p = hash)
    (hindexed : st.mapBlockIndex pindex.getBlockHash = some pindex)
    (hmap : st'.mapBlockIndex = st.mapBlockIndex)
    (hread : st'.txdb.readBlockIndex = Function.update st.txdb.readBlockIndex pindex.getBlockHash
      (recordOf st' (nextHash links' pindex) pindex))
    (hmint : ∀ p, p ≠ pindex → st'.nMint p = st.nMint p)
    (hsupply : ∀ p, p ≠ pindex → st'.nMoneySupply p = st.nMoneySupply p)
    (hlinks : ∀ p, p ≠ pindex → links' p = links p) : Mirrored st' links' := by
  intro hash
  rw [hread, hmap]
  by_cases heq : hash = pindex.getBlockHash
  · rw [heq, Function.update_self, hindexed]
    rfl
  · rw [Function.update_of_ne heq, h hash]
    cases hp : st.mapBlockIndex hash with
    | none => rfl
    | some p =>
      have hne : p ≠ pindex := by
        rintro rfl
        exact heq (hhash hash p hp).symm
      change recordOf st (nextHash links p) p = recordOf st' (nextHash links' p) p
      rw [recordOf_congr (hmint p hne) (hsupply p hne), nextHash, nextHash, hlinks p hne]

theorem readBlockIndex_writeBlockIndex (st : NodeState) (index : CBlockIndex) (pprev : PIndex)
    (hashNext : Uint256) : (st.writeBlockIndex (index :: pprev) hashNext).txdb.readBlockIndex =
      Function.update st.txdb.readBlockIndex index.phashBlock (recordOf st hashNext (index :: pprev)) := by
  funext hash
  rw [CTxDB.readBlockIndex, NodeState.writeBlockIndex]
  dsimp only
  rw [CTxDB.writeBlockIndex, Store.read_put]
  by_cases heq : hash = index.phashBlock
  · rw [heq, Function.update_self, Function.update_self]
    rfl
  · rw [Function.update_of_ne heq, Function.update_of_ne]
    · rfl
    · simpa using heq

/-- Writing an entry with a new link. -/
theorem Mirrored.writeBlockIndex (h : Mirrored st links)
    (hhash : ∀ hash p, st.mapBlockIndex hash = some p → PIndex.getBlockHash p = hash)
    (hindexed : pindex ≠ [] → st.mapBlockIndex pindex.getBlockHash = some pindex) {hashNext : Uint256}
    (hnext : pindex ≠ [] → nextHash links' pindex = hashNext)
    (hlinks : ∀ p, p ≠ pindex → links' p = links p) :
    Mirrored (st.writeBlockIndex pindex hashNext) links' := by
  cases pindex with
  | nil =>
    intro hash
    refine (h hash).trans ?_
    change _ = (st.mapBlockIndex hash).bind _
    congr 1
    funext p
    cases p with
    | nil => rfl
    | cons index pprev => rw [nextHash, nextHash, hlinks _ (List.cons_ne_nil _ _)]; rfl
  | cons index pprev =>
    refine h.write hhash (hindexed (List.cons_ne_nil _ _)) rfl ?_ (fun _ _ ↦ rfl) (fun _ _ ↦ rfl) hlinks
    rw [readBlockIndex_writeBlockIndex, hnext (List.cons_ne_nil _ _)]
    rfl

section Tree

variable {index : CBlockIndex} {below : Branch} (hindexed : Indexed P disk genesis st)

include hindexed

/-- Mint and supply are noted together with the record. -/
theorem Mirrored.recordMint (h : Mirrored st links)
    (hpindex : st.mapBlockIndex pindex.getBlockHash = some pindex)
    (hnext : st.pnext pindex = links pindex) (sums : ConnectSums) :
    Mirrored (Chain.recordMint st pindex sums) links := by
  have hmints := nMint_writeBlockIndex { st with
    nMint := Function.update st.nMint pindex (mintOf sums)
    nMoneySupply := Function.update st.nMoneySupply pindex (supplyOf st pindex sums) } pindex
    (nextHash links pindex)
  have heq : Chain.recordMint st pindex sums = NodeState.writeBlockIndex { st with
      nMint := Function.update st.nMint pindex (mintOf sums)
      nMoneySupply := Function.update st.nMoneySupply pindex (supplyOf st pindex sums) } pindex
      (nextHash links pindex) := by
    rw [nextHash, ← hnext]
    rfl
  cases pindex with
  | nil =>
    have hhash := hindexed.branch _ _ hpindex
    obtain ⟨chain, -, hnil⟩ := hhash
    exact absurd hnil.symm (pindexOf_ne_nil genesis chain)
  | cons index pprev =>
    refine h.write hindexed.hash hpindex (heq ▸ rfl) ?_ ?_ ?_ fun _ _ ↦ rfl
    · rw [heq, readBlockIndex_writeBlockIndex]
      rfl
    · intro p hp
      rw [heq, hmints.1]
      exact Function.update_of_ne hp _ _
    · intro p hp
      rw [heq, hmints.2]
      exact Function.update_of_ne hp _ _

/-- A connected block is linked from the one below it. -/
theorem Mirrored.enterBlock (h : Mirrored st (linksTo (pindexOf genesis below)))
    (hbelow : st.mapBlockIndex (pindexOf genesis below).getBlockHash = some (pindexOf genesis below))
    (sums : ConnectSums) :
    Mirrored (Chain.enterBlock P st block (index :: pindexOf genesis below) sums)
      (linksTo (index :: pindexOf genesis below)) := by
  have hqueued : Mirrored { st with txdb := writeQueuedChanges st.txdb sums.mapQueuedChanges }
      (linksTo (pindexOf genesis below)) :=
    h.congr rfl rfl rfl (readBlockIndex_writeQueuedChanges _ _)
  have hlinked : Mirrored (NodeState.writeBlockIndex
      { st with txdb := writeQueuedChanges st.txdb sums.mapQueuedChanges } (pindexOf genesis below)
      index.phashBlock) (linksTo (index :: pindexOf genesis below)) := by
    apply hqueued.writeBlockIndex hindexed.hash fun _ ↦ hbelow
    · intro _
      rw [nextHash, linksTo_cons (pindexOf_ne_nil genesis below), Function.update_self]
      rfl
    · intro p hp
      rw [linksTo_cons (pindexOf_ne_nil genesis below), Function.update_of_ne hp]
  exact hlinked.congr rfl rfl rfl rfl

theorem Mirrored.connectBlock (h : Mirrored st (linksTo (pindexOf genesis below)))
    (hpindex : st.mapBlockIndex index.phashBlock = some (index :: pindexOf genesis below))
    (hnext : st.pnext (index :: pindexOf genesis below) = none)
    (hconnect : connectBlock P env st block (index :: pindexOf genesis below) false = .ok st') :
    Mirrored st' (linksTo (index :: pindexOf genesis below)) := by
  have hbelow : st.mapBlockIndex (pindexOf genesis below).getBlockHash = some (pindexOf genesis below) :=
    hindexed.ancestor hpindex (List.suffix_cons _ _) (pindexOf_ne_nil genesis below)
  have hunlinked : linksTo (pindexOf genesis below) (index :: pindexOf genesis below) = none := by
    refine linksTo_eq_none fun hsuffix ↦ absurd hsuffix.length_le ?_
    simp
  have hkeyed : st.mapBlockIndex (PIndex.getBlockHash (index :: pindexOf genesis below)) =
      some (index :: pindexOf genesis below) := hpindex
  simp only [Chain.connectBlock, bind_eq_ok, pure_eq_ok, Bool.false_eq_true, if_false] at hconnect
  obtain ⟨sums, -, rfl⟩ := hconnect
  have hrecorded := h.recordMint hindexed hkeyed (hnext.trans hunlinked.symm) sums
  have hframe := recordMint_frame st (index :: pindexOf genesis below) sums
  exact hrecorded.enterBlock (hindexed.congr hframe.mapBlockIndex hframe.pindexGenesisBlock)
    (hframe.mapBlockIndex ▸ hbelow) sums

theorem Mirrored.disconnectBlock (h : Mirrored st (linksTo (index :: pindexOf genesis below)))
    (hpindex : st.mapBlockIndex index.phashBlock = some (index :: pindexOf genesis below))
    (hdisconnect : disconnectBlock P st block (index :: pindexOf genesis below) = .ok st') :
    Mirrored st' (linksTo (pindexOf genesis below)) := by
  have hbelow : st.mapBlockIndex (pindexOf genesis below).getBlockHash = some (pindexOf genesis below) :=
    hindexed.ancestor hpindex (List.suffix_cons _ _) (pindexOf_ne_nil genesis below)
  simp only [Chain.disconnectBlock, bind_eq_ok, mapError_eq_ok, pure_eq_ok] at hdisconnect
  obtain ⟨txdb, hloop, rfl⟩ := hdisconnect
  have hread : txdb.readBlockIndex = st.txdb.readBlockIndex := readBlockIndex_disconnectInputs hloop
  have hundone : Mirrored { st with txdb } (linksTo (index :: pindexOf genesis below)) :=
    h.congr rfl rfl rfl hread
  have hunlinked : Mirrored (NodeState.writeBlockIndex { st with txdb } (pindexOf genesis below) 0)
      (linksTo (pindexOf genesis below)) := by
    apply hundone.writeBlockIndex hindexed.hash fun _ ↦ hbelow
    · intro _
      rw [nextHash, linksTo_eq_none fun _ ↦ rfl]
      rfl
    · intro p hp
      rw [linksTo_cons (pindexOf_ne_nil genesis below), Function.update_of_ne hp]
  exact hunlinked.congr rfl rfl rfl rfl

end Tree

section Loops

variable {above below : Branch} {progress progress' : NodeState × List CTransaction}
  (hindexed : Indexed P disk genesis progress.1) (hfiles : env.files.ReadsFrom disk)
  (haccepted : AcceptedBranch P disk genesis (above ++ below))
  (htip : progress.1.mapBlockIndex (pindexOf genesis (above ++ below)).getBlockHash =
    some (pindexOf genesis (above ++ below)))

include hindexed hfiles haccepted htip

theorem Mirrored.disconnectLoop (h : Mirrored progress.1 (linksTo (pindexOf genesis (above ++ below))))
    (hloop : (pointersAbove genesis below above).foldlM (disconnectTip P env) progress = .ok progress') :
    Mirrored progress'.1 (linksTo (pindexOf genesis below)) := by
  induction above generalizing progress with
  | nil =>
    rw [pointersAbove, List.foldlM_nil, pure_eq_ok] at hloop
    exact hloop ▸ h
  | cons entry above ih =>
    obtain ⟨block, index⟩ := entry
    rw [pointersAbove, List.foldlM_cons, bind_eq_ok] at hloop
    obtain ⟨progress₁, hone, hrest⟩ := hloop
    obtain ⟨hdisconnect, -⟩ := disconnectTip_eq_ok hfiles haccepted.1 hone
    have hframe := (disconnectBlock_eq_ok hdisconnect).frame
    have hbelow := hindexed.ancestor htip (List.suffix_cons index _) (pindexOf_ne_nil genesis (above ++ below))
    exact ih (hindexed.congr hframe.mapBlockIndex hframe.pindexGenesisBlock) haccepted.2
      (hframe.mapBlockIndex ▸ hbelow) (h.disconnectBlock hindexed htip hdisconnect) hrest

theorem Mirrored.connectLoop (h : Mirrored progress.1 (linksTo (pindexOf genesis below)))
    (hnext : ∀ pindex ∈ pointersAbove genesis below above, progress.1.pnext pindex = none)
    (hloop : (pointersAbove genesis below above).reverse.foldlM (connectNext P env) progress =
      .ok progress') : Mirrored progress'.1 (linksTo (pindexOf genesis (above ++ below))) := by
  induction above generalizing progress' with
  | nil =>
    rw [pointersAbove, List.reverse_nil, List.foldlM_nil, pure_eq_ok] at hloop
    exact hloop ▸ h
  | cons entry above ih =>
    obtain ⟨block, index⟩ := entry
    rw [pointersAbove, List.reverse_cons, List.foldlM_append, bind_eq_ok] at hloop
    obtain ⟨progress₁, hrest, hone⟩ := hloop
    simp only [List.foldlM_cons, List.foldlM_nil, bind_eq_ok, pure_eq_ok, exists_eq_right] at hone
    obtain ⟨hsteps, -⟩ := connectLoop_eq_ok hfiles haccepted.2 hrest
    obtain ⟨hconnect, -⟩ := connectNext_eq_ok hfiles haccepted.1 hone
    have hframe := hsteps.frame
    have hbelow := hindexed.ancestor htip (List.suffix_cons index _) (pindexOf_ne_nil genesis (above ++ below))
    have hearlier := ih haccepted.2 hbelow (fun pindex hp ↦ hnext pindex (List.mem_cons_of_mem _ hp)) hrest
    refine hearlier.connectBlock (hindexed.congr hframe.mapBlockIndex hframe.pindexGenesisBlock)
      (hframe.mapBlockIndex ▸ htip) ?_ hconnect
    rw [hframe.pnext]
    exact hnext _ List.mem_cons_self

end Loops

theorem readBlockIndex_of_idle (hread : txdb'.read = txdb.read) :
    txdb'.readBlockIndex = txdb.readBlockIndex := by
  funext hash
  exact readBlockIndex_congr (congrFun hread _)

theorem Mirrored.begun (h : Mirrored st links) (hidle : st.txdb.activeBatch = none) :
    Mirrored (begun st) links :=
  h.congr rfl rfl rfl
    (readBlockIndex_of_idle ((Store.read_txnBegin _).trans (Store.read_of_noBatch hidle).symm))

/-- After a commit that is written all see what the transaction saw. -/
theorem Mirrored.committed (h : Mirrored st links) (hopen : st.txdb.activeBatch ≠ none) (hash : Uint256) :
    Mirrored (committed st hash true) links := by
  refine h.congr rfl rfl rfl ?_
  have hread : (Node.committed st hash true).txdb.read = (st.txdb.writeHashBestChain hash).read :=
    (Store.read_of_noBatch rfl).trans (pdb_committed hopen hash)
  exact (readBlockIndex_of_idle hread).trans (readBlockIndex_put fun _ ↦ by simp)

theorem Mirrored.invalidChainFound (h : Mirrored st links) (pindexNew : PIndex) :
    Mirrored (invalidChainFound st pindexNew) links := by
  unfold Chain.invalidChainFound
  split
  · exact h.congr rfl rfl rfl (readBlockIndex_put fun _ ↦ by simp)
  · exact h

/-- After an abort the records are those from before, and so must be mint and supply. -/
theorem Mirrored.abort (h : Mirrored st links) (hidle : st.txdb.activeBatch = none)
    (hmap : st'.mapBlockIndex = st.mapBlockIndex) (hmint : st'.nMint = st.nMint)
    (hsupply : st'.nMoneySupply = st.nMoneySupply) (hpdb : st'.txdb.pdb = st.txdb.pdb) :
    Mirrored (txnAbort st') links := by
  refine h.congr hmap hmint hsupply (readBlockIndex_of_idle ?_)
  rw [Store.read_of_noBatch hidle, Store.read_of_noBatch rfl]
  exact hpdb

/-- Records and links of a node at the tip of a branch. -/
abbrev DiskIndex (st : NodeState) : Prop := Mirrored st st.pnext

theorem DiskIndex.setBestChainInner {chain : Branch} (h : DiskIndex st)
    (hbranch : OnBranch P disk genesis st chain) (hindexed : Indexed P disk genesis st)
    (hpindex : st.mapBlockIndex index.phashBlock = some (index :: pindexOf genesis chain))
    (hcommit : ∀ hash, env.fCommitted hash = true) :
    DiskIndex (setBestChainInner P env (begun st) block (index :: pindexOf genesis chain)).2 := by
  unfold Chain.setBestChainInner
  cases hconnect : connectBlock P env (begun st) block (index :: pindexOf genesis chain) false with
  | error reject =>
    have habort : Mirrored (txnAbort (begun st)) st.pnext := h.abort hbranch.idle rfl rfl rfl rfl
    have hpnext : (invalidChainFound (txnAbort (begun st)) (index :: pindexOf genesis chain)).pnext =
        st.pnext := by
      unfold Chain.invalidChainFound
      split <;> rfl
    change Mirrored (invalidChainFound _ _) (invalidChainFound _ _).pnext
    rw [hpnext]
    exact habort.invalidChainFound _
  | ok st₁ =>
    simp only [hcommit, Store.txnCommit_fst, if_true]
    obtain ⟨sums, hconnects⟩ := connectBlock_eq_ok hconnect
    have hopen : st₁.txdb.activeBatch ≠ none := hconnects.frame.txdb.batch (by simp [Node.begun])
    have hbegun : Mirrored (Node.begun st) (linksTo (pindexOf genesis chain)) :=
      hbranch.links ▸ h.begun hbranch.idle
    have hunlinked : (Node.begun st).pnext (index :: pindexOf genesis chain) = none := by
      change st.pnext _ = none
      rw [hbranch.links]
      refine linksTo_eq_none fun hsuffix ↦ absurd hsuffix.length_le ?_
      simp
    have hkept : Indexed P disk genesis (Node.begun st) := hindexed.congr rfl rfl
    have hmirrored := hbegun.connectBlock hkept hpindex hunlinked hconnect
    have hlinks : linkFromPrev st₁.pnext (index :: pindexOf genesis chain) =
        linksTo (index :: pindexOf genesis chain) := by
      rw [hconnects.frame.pnext, linksTo, ← hbranch.links]
      rfl
    change Mirrored _ (linkFromPrev st₁.pnext (index :: pindexOf genesis chain))
    rw [hlinks]
    exact (hmirrored.committed hopen (block.getHash P)).congr rfl rfl rfl rfl

/-- A postponed block is connected, or nothing changes. -/
theorem DiskIndex.connectPostponed {chain : Branch} (h : DiskIndex st)
    (hbranch : OnBranch P disk genesis st chain) (hindexed : Indexed P disk genesis st)
    (hpindex : st.mapBlockIndex index.phashBlock = some (index :: pindexOf genesis chain))
    (hcommit : ∀ hash, env.fCommitted hash = true) :
    DiskIndex (connectPostponed P env st (index :: pindexOf genesis chain)).2 := by
  rw [connectPostponed_cons]
  cases readFromDisk P env.files index with
  | error reject => exact h
  | ok block => exact h.setBestChainInner hbranch hindexed hpindex hcommit

theorem DiskIndex.connectSecondary {below : Branch} (h : DiskIndex st)
    (hbranch : OnBranch P disk genesis st below) (hindexed : Indexed P disk genesis st) (above : Branch)
    (hfiles : env.files.ReadsFrom disk) (haccepted : AcceptedBranch P disk genesis (above ++ below))
    (htip : st.mapBlockIndex (pindexOf genesis (above ++ below)).getBlockHash =
      some (pindexOf genesis (above ++ below))) (hcommit : ∀ hash, env.fCommitted hash = true) :
    DiskIndex (connectSecondary P env st (pointersAbove genesis below above).reverse) := by
  induction above with
  | nil => exact h
  | cons entry above ih =>
    obtain ⟨block, index⟩ := entry
    have hbelow := hindexed.ancestor htip (List.suffix_cons index _) (pindexOf_ne_nil genesis (above ++ below))
    have hearlier := ih haccepted.2 hbelow
    rw [pointersAbove, List.reverse_cons]
    rcases connectSecondary_append P env st (pointersAbove genesis below above).reverse
      (pindexOf genesis ((block, index) :: above ++ below)) with ⟨hall, heq⟩ | ⟨-, heq⟩
    · rw [heq]
      obtain ⟨rest, done, hsplit, hdone, hsame, hiff⟩ := hbranch.connectSecondary above hfiles haccepted.2
      obtain rfl := hiff.mpr hall
      obtain rfl : above = done := hsplit
      exact hearlier.connectPostponed hdone (hindexed.congr hsame.mapBlockIndex hsame.pindexGenesisBlock)
        (hsame.mapBlockIndex ▸ htip) hcommit
    · rw [heq]
      exact hearlier

/-- Of the new branch either all blocks connect or the first one does not. -/
def AllOrNone (P : ChainParams) (env : Env) (st : NodeState) (pindexNew : PIndex) : Prop :=
  ∀ pfork ∈ findFork st.pindexBest pindexNew,
    ∀ down ∈ ((branchFrom pfork st.pindexBest).foldlM (disconnectTip P env) (st, [])).toOption,
      ((branchFrom pfork pindexNew).reverse.foldlM (connectNext P env) (down.1, [])).isOk = true ∨
        ∀ pindex ∈ (branchFrom pfork pindexNew).getLast?,
          (connectNext P env (down.1, []) pindex).isOk = false

instance (P : ChainParams) (env : Env) (st : NodeState) (pindexNew : PIndex) :
    Decidable (AllOrNone P env st pindexNew) :=
  inferInstanceAs (Decidable (∀ _ ∈ _, _))

section Reorganize

variable {chain chain' : Branch} (hinv : NodeInv P disk genesis st chain) (hfiles : env.files.ReadsFrom disk)
  (haccepted : AcceptedBranch P disk genesis chain')

include hinv hfiles haccepted

theorem DiskIndex.reorganize (h : DiskIndex st)
    (htip : st.mapBlockIndex (pindexOf genesis chain').getBlockHash = some (pindexOf genesis chain'))
    (hcall : reorganize P env (begun st) (pindexOf genesis chain') = .ok st') : DiskIndex st' := by
  have hlinks := (hinv.onBranch.reorganize hfiles hinv.atTip.pindexBest haccepted hcall).1.links
  obtain ⟨pfork, down, up, hfork, hdown, hup, rfl⟩ := reorganize_parts hcall
  obtain ⟨above, above', below, rfl, rfl, hfork'⟩ := exists_fork hinv.onBranch.run.accepted haccepted
  have hbest : (begun st).pindexBest = pindexOf genesis (above ++ below) := hinv.atTip.pindexBest
  rw [hbest, hfork'] at hfork
  obtain rfl := Option.some.inj hfork
  rw [hbest, branchFrom_pindexOf] at hdown
  rw [branchFrom_pindexOf] at hup
  have hkept : Indexed P disk genesis (begun st) := hinv.indexed.congr rfl rfl
  have hbegun : Mirrored (begun st) (linksTo (pindexOf genesis (above ++ below))) :=
    hinv.onBranch.links ▸ h.begun hinv.onBranch.idle
  have hlow := hbegun.disconnectLoop hkept hfiles hinv.onBranch.run.accepted hinv.atTip.indexed hdown
  have hdownFrame := (disconnectLoop_eq_ok hfiles hinv.onBranch.run.accepted hdown).1.frame
  have hupFrame := (connectLoop_eq_ok hfiles haccepted hup).1.frame
  have hunlinked : ∀ pindex ∈ pointersAbove genesis below above', down.1.pnext pindex = none := by
    intro pindex hp
    rw [← branchFrom_pindexOf] at hp
    have hnew := onNewBranch_of_mem hfork' hp
    rw [hdownFrame.pnext]
    change st.pnext pindex = none
    rw [hinv.onBranch.links]
    exact linksTo_eq_none fun hsuffix ↦ absurd hsuffix hnew.2
  have hhigh : Mirrored up.1 (linksTo (pindexOf genesis (above' ++ below))) := by
    refine Mirrored.connectLoop ?_ hfiles haccepted ?_ ?_ ?_ hup
    · exact hkept.congr hdownFrame.mapBlockIndex hdownFrame.pindexGenesisBlock
    · exact hdownFrame.mapBlockIndex ▸ htip
    · exact hlow
    · exact hunlinked
  have hopen : up.1.txdb.activeBatch ≠ none :=
    hupFrame.txdb.batch (hdownFrame.txdb.batch (by simp [begun]))
  change Mirrored _ (NodeState.pnext _)
  rw [hlinks]
  exact (hhigh.committed hopen _).congr rfl rfl rfl rfl

omit hinv hfiles haccepted in
/-- If the first block does not connect, a reorganisation that fails has noted nothing in memory. -/
theorem kept_of_allOrNone {pindexNew : PIndex} {failure : Reject × NodeState}
    (hcommit : ∀ hash, env.fCommitted hash = true) (hnone : AllOrNone P env st pindexNew)
    (hcall : reorganize P env st pindexNew = .error failure) : Kept st failure.2 fun _ ↦ False := by
  rcases reorganize_failures hcall with hsame | ⟨pfork, hfork, hdown | ⟨down, hdown, hup⟩⟩
  · exact hsame ▸ .refl _ _
  · obtain ⟨pre, pindex, post, progress, -, hpre, hone⟩ := foldlM_eq_error hdown
    have hpending : Pending st progress.1 fun _ ↦ False :=
      foldlM_invariant (fun progress ↦ Pending st progress.1 _)
        (fun _ _ _ _ hbefore hstep ↦ hbefore.disconnectTip hstep) ⟨.refl _ _, .refl _⟩ hpre
    exact hpending.1.trans (kept_of_interrupted (disconnectTip_eq_error hone) _)
  · have hpending : Pending st down.1 fun _ ↦ False :=
      foldlM_invariant (fun progress ↦ Pending st progress.1 _)
        (fun _ _ _ _ hbefore hstep ↦ hbefore.disconnectTip hstep) ⟨.refl _ _, .refl _⟩ hdown
    have hcases := hnone pfork hfork down (by rw [hdown]; rfl)
    rcases hup with hup | ⟨up, hup, -⟩
    · rw [hup] at hcases
      have hfirst := hcases.resolve_left Bool.false_ne_true
      obtain ⟨pre, pindex, post, progress, hsplit, hpre, hone⟩ := foldlM_eq_error hup
      cases pre with
      | nil =>
        obtain rfl : (down.1, []) = progress := by simpa [pure_eq_ok] using hpre
        rw [connectNext_eq_error hone]
        exact hpending.1
      | cons first pre =>
        -- a first block that connected is ruled out
        exfalso
        have hlast : (branchFrom pfork pindexNew).getLast? = some first := by
          rw [← List.head?_reverse, hsplit]
          rfl
        have hfails := hfirst first hlast
        rw [List.foldlM_cons, bind_eq_ok] at hpre
        obtain ⟨progress₁, hconnect, -⟩ := hpre
        rw [hconnect] at hfails
        cases hfails
    · have hok : ∃ st', reorganize P env st pindexNew = .ok st' := by
        simp only [reorganize, bind_eq_ok, require_eq_ok, pure_eq_ok, rejectIf_eq_ok]
        exact ⟨_, pfork, hfork, down, hdown, up, hup, (), by simp [hcommit], rfl⟩
      obtain ⟨st', hok⟩ := hok
      rw [hok] at hcall
      cases hcall

/-- A reorganisation that fails and is aborted leaves the records as those of memory. -/
theorem DiskIndex.failedReorganize (h : DiskIndex st) (hcommit : ∀ hash, env.fCommitted hash = true)
    (hnone : AllOrNone P env (begun st) (pindexOf genesis chain')) {failure : Reject × NodeState}
    (hcall : Chain.reorganize P env (begun st) (pindexOf genesis chain') = .error failure) :
    DiskIndex (txnAbort failure.2) := by
  have hkept := kept_of_allOrNone hcommit hnone hcall
  have hopen : (begun st).txdb.activeBatch ≠ none := by simp [begun]
  have hpdb := pdb_of_reorganize_eq_error (begun st) hfiles hinv.onBranch.run.accepted haccepted
    hinv.atTip.pindexBest hopen hcall
  have habort : Mirrored (txnAbort failure.2) st.pnext :=
    h.abort hinv.onBranch.idle hkept.mapBlockIndex (funext fun p ↦ hkept.nMint p id)
      (funext fun p ↦ hkept.nMoneySupply p id) hpdb
  change Mirrored _ failure.2.pnext
  rw [hkept.pnext]
  exact habort

end Reorganize

/-- All commits that an event makes are written. -/
def CommitsSucceed : NodeEvent → Prop
  | .acceptBlock env _ => env.fIndexCommitted = true ∧ ∀ hash, env.fCommitted hash = true
  | .setBestChain env _ => ∀ hash, env.fCommitted hash = true
  | .acceptTx _ _ => True
  | .removeTx _ _ => True

/-- All commits are written, the postponed blocks of a call connect, and no block that its reorganisation
connected is rolled back. -/
def RollsNothingBack (P : ChainParams) (st : NodeState) (event : NodeEvent) : Prop :=
  CommitsSucceed event ∧ ConnectsPostponed P st event ∧
    ∀ call ∈ bestChainCall P st event, call.block.hashPrevBlock ≠ call.st.hashBestChain →
      AllOrNone P call.env (begun call.st) (splitSecondary call.st.pindexBest.nChainTrust call.pindexNew).1

variable {chain : Branch}

/-- A call of `SetBestChain` keeps the records those of memory. -/
theorem DiskIndex.setBestChain {below : Branch} (h : DiskIndex st)
    (hinv : NodeInv P disk genesis st chain) (fits : CallFits P disk genesis env st block index below)
    (hcommit : ∀ hash, env.fCommitted hash = true)
    (hnone : block.hashPrevBlock ≠ st.hashBestChain → AllOrNone P env (begun st)
      (splitSecondary st.pindexBest.nChainTrust (index :: pindexOf genesis below)).1) :
    DiskIndex (setBestChain P env st block (index :: pindexOf genesis below)).2 := by
  suffices hmove : DiskIndex (moveBestChain P env st block (index :: pindexOf genesis below)).2 by
    rw [setBestChain_eq]
    dsimp only
    split
    · exact hmove.congr rfl rfl rfl rfl
    · exact hmove
  rcases moveBestChain_cases P env st block (index :: pindexOf genesis below) with
    ⟨hstart, -, -⟩ | ⟨-, ⟨hprev, heq⟩ | ⟨hprev, hreorganize⟩⟩
  · rw [hinv.indexed.started] at hstart
    cases hstart
  · obtain rfl := below_eq_of_hashPrevBlock hinv fits hprev
    rw [heq]
    exact h.setBestChainInner hinv.onBranch hinv.indexed fits.indexed hcommit
  obtain ⟨above, base, hsplit, hsecondary⟩ :=
    splitSecondary_pindexOf st.pindexBest.nChainTrust genesis ((block, index) :: below)
  rw [pindexOf_cons] at hsecondary
  have haccepted : AcceptedBranch P disk genesis (above ++ base) := hsplit ▸ fits.accepted
  have hnone' := hnone hprev
  rw [hsecondary] at hreorganize hnone'
  have htip : st.mapBlockIndex (pindexOf genesis (above ++ base)).getBlockHash =
      some (pindexOf genesis (above ++ base)) := hsplit ▸ fits.indexed
  rcases hreorganize with ⟨failure, hfail, heq⟩ | ⟨st₁, hok, heq⟩
  · rw [heq]
    have habort := h.failedReorganize hinv fits.files haccepted.below hcommit hnone' hfail
    change Mirrored (invalidChainFound _ _) (invalidChainFound _ _).pnext
    rw [pnext_invalidChainFound]
    exact habort.invalidChainFound _
  · rw [heq]
    have hbase : st.mapBlockIndex (pindexOf genesis base).getBlockHash = some (pindexOf genesis base) := by
      refine hinv.indexed.ancestor htip ?_ (pindexOf_ne_nil genesis base)
      rw [pindexOf, pindexOf, List.map_append, List.append_assoc]
      exact List.suffix_append _ _
    obtain ⟨hbranch, hsame⟩ :=
      hinv.onBranch.reorganize fits.files hinv.atTip.pindexBest haccepted.below hok
    have hfirst := h.reorganize hinv fits.files haccepted.below hbase hok
    exact hfirst.connectSecondary hbranch (hinv.indexed.congr hsame.mapBlockIndex hsame.pindexGenesisBlock)
      above fits.files haccepted (hsame.mapBlockIndex ▸ htip) hcommit

/-- A call that fails leaves the records of before, with the mint and the supply of before. -/
theorem DiskIndex.rolledBack {pindexNew : PIndex} (h : DiskIndex st) (hidle : st.txdb.activeBatch = none)
    (hfail : Chain.setBestChain P env st block pindexNew = (false, st')) :
    DiskIndex { st' with nMint := st.nMint, nMoneySupply := st.nMoneySupply } := by
  have hkept := setBestChain_kept hidle hfail
  have hread : st'.txdb.readBlockIndex = st.txdb.readBlockIndex := by
    funext hash
    exact readBlockIndex_congr (hkept.records _ (by simp))
  have hrecords : Mirrored { st' with nMint := st.nMint, nMoneySupply := st.nMoneySupply } st.pnext :=
    h.congr hkept.memory.mapBlockIndex rfl rfl hread
  change Mirrored _ st'.pnext
  rw [hkept.memory.pnext]
  exact hrecords

/-- A new entry has its record at once. -/
theorem DiskIndex.indexNewBlock {pprev : PIndex} (h : DiskIndex st)
    (hhash : ∀ hash p, st.mapBlockIndex hash = some p → PIndex.getBlockHash p = hash)
    (hidle : st.txdb.activeBatch = none) (hcommit : env.fIndexCommitted = true) :
    DiskIndex (Chain.indexNewBlock env st (index :: pprev)).2 := by
  have hopen : (NodeState.writeBlockIndex (begun (insertBlockIndex st (index :: pprev)))
      (index :: pprev) 0).txdb.activeBatch ≠ none := Store.activeBatch_put_of_batch (by simp [begun]) _ _
  have hread : (Chain.indexNewBlock env st (index :: pprev)).2.txdb.readBlockIndex =
      Function.update st.txdb.readBlockIndex index.phashBlock
        (recordOf (insertBlockIndex st (index :: pprev)) 0 (index :: pprev)) := by
    have hcommitted : (Chain.indexNewBlock env st (index :: pprev)).2.txdb.read =
        (NodeState.writeBlockIndex (begun (insertBlockIndex st (index :: pprev)))
          (index :: pprev) 0).txdb.read := by
      rw [Store.read_of_noBatch rfl]
      change (Store.txnCommit env.fIndexCommitted _).2.pdb = _
      rw [hcommit]
      exact Store.pdb_txnCommit_true hopen
    rw [readBlockIndex_of_idle hcommitted, readBlockIndex_writeBlockIndex]
    have hbegun : (begun (insertBlockIndex st (index :: pprev))).txdb.readBlockIndex =
        st.txdb.readBlockIndex :=
      readBlockIndex_of_idle ((Store.read_txnBegin _).trans (Store.read_of_noBatch hidle).symm)
    rw [hbegun]
    rfl
  intro hash
  rw [hread]
  change _ = Option.bind (Function.update st.mapBlockIndex index.phashBlock (some (index :: pprev)) hash) _
  by_cases heq : hash = index.phashBlock
  · rw [heq, Function.update_self, Function.update_self]
    have hlink : nextHash (Chain.indexNewBlock env st (index :: pprev)).2.pnext (index :: pprev) = 0 := by
      change (Function.update st.pnext (index :: pprev) none (index :: pprev)).elim 0 _ = 0
      rw [Function.update_self]
      rfl
    rw [Option.bind_some, hlink]
    rfl
  · rw [Function.update_of_ne heq, Function.update_of_ne heq, h hash]
    cases hp : st.mapBlockIndex hash with
    | none => rfl
    | some p =>
      have hne : p ≠ index :: pprev := by
        rintro rfl
        exact heq (hhash hash _ hp).symm
      change recordOf st (nextHash st.pnext p) p = recordOf _
        (nextHash (Function.update st.pnext (index :: pprev) none) p) p
      rw [nextHash, nextHash, Function.update_of_ne hne]
      exact (recordOf_congr (Function.update_of_ne hne _ _) (Function.update_of_ne hne _ _) _).symm

/-- An event that rolls nothing back keeps the records those of memory. -/
theorem DiskIndex.handleEvent {event : NodeEvent} (h : DiskIndex st) (hinv : NodeInv P disk genesis st chain)
    (hfits : Fits disk st event) (hmeets : RollsNothingBack P st event) :
    DiskIndex (Chain.handleEvent P st event) := by
  obtain ⟨hcommit, -, hnone⟩ := hmeets
  cases hcall : bestChainCall P st event with
  | none =>
    rcases Node.handleEvent_of_noCall hcall with heq | ⟨env, block, pindexNew, rfl, hentry, heq⟩
    · rw [heq]
      exact h.congr rfl rfl rfl rfl
    · obtain ⟨index, below, rfl, hnew, -, -⟩ := exists_acceptedBranch hinv.indexed hfits hentry
      rw [heq]
      exact h.indexNewBlock hinv.indexed.hash hinv.onBranch.idle hcommit.1
  | some call =>
    obtain ⟨hcallInv, index, below, hindex, fits⟩ := exists_callFits hinv hfits hcall
    have hnone' := hnone call hcall
    rw [hindex] at hnone'
    rw [handleEvent_of_call hcall, BestChainCall.result, hindex]
    cases event with
    | acceptBlock env block =>
      obtain ⟨pindexNew, hentry, rfl⟩ := bestChainCall_acceptBlock hcall
      obtain ⟨index', below', rfl, hnew, -, -⟩ := exists_acceptedBranch hinv.indexed hfits hentry
      exact (h.indexNewBlock hinv.indexed.hash hinv.onBranch.idle hcommit.1).setBestChain hcallInv fits
        hcommit.2 hnone'
    | setBestChain env pindex =>
      cases pindex with
      | nil => cases hcall
      | cons first pprev =>
        obtain ⟨_, block, _, -, -, -, rfl⟩ := bestChainCall_setBestChain hcall
        exact h.setBestChain hcallInv fits hcommit hnone'
    | acceptTx env tx => cases hcall
    | removeTx tx fRecursive => cases hcall

/-- A node that starts has the record of its genesis block. -/
theorem diskIndex_start {setpwalletRegistered : List CWallet} {nFile nBlockPos : ℕ}
    (h : startNode P env setpwalletRegistered block nFile nBlockPos = (true, st))
    (hstarted : st.pindexGenesisBlock = [genesis]) : DiskIndex st := by
  have hcommit : env.fIndexCommitted = true := by
    by_contra hfalse
    rw [Bool.not_eq_true] at hfalse
    simp only [startNode, addToBlockIndex] at h
    generalize (0 : Uint256) = hashProofOfStake at h
    cases hmodifier : env.stakeModifier with
    | none => simp [hmodifier, emptyNode] at h
    | some stakeModifier => simp [hmodifier, emptyNode, indexNewBlock, hfalse] at h
  obtain ⟨hhash, -, rfl⟩ := startNode_eq h hstarted
  have hempty : DiskIndex (emptyNode setpwalletRegistered) := fun _ ↦ rfl
  have hindexed : DiskIndex (genesisIndexed env setpwalletRegistered genesis) :=
    hempty.indexNewBlock (fun _ _ hnone ↦ by cases hnone) rfl hcommit
  have hbegun : Mirrored (begun (genesisIndexed env setpwalletRegistered genesis)) _ := hindexed.begun rfl
  exact (hbegun.committed (by simp [begun]) (block.getHash P)).congr rfl rfl rfl rfl

/-- In a run that rolls nothing back the records are those of memory. -/
theorem NodeRun.diskIndex (h : NodeRun P disk genesis (RollsNothingBack P) st) :
    DiskIndex st ∧ ∃ chain, NodeInv P disk genesis st chain := by
  induction h with
  | start run started => exact ⟨diskIndex_start run started, [], nodeInv_start run started⟩
  | event run fits meets ih =>
    obtain ⟨hdisk, chain, hinv⟩ := ih
    exact ⟨hdisk.handleEvent hinv fits meets, hinv.handleEvent fits meets.2.1⟩

end Electra.Node
