import Electra.Chain.Builders
import Electra.Ledger.BlockStep

/-!
# Disconnecting undoes connecting

A block that was connected and whose transactions were new to the index can be disconnected again,
and the transaction index is then what it was, record for record.
-/

namespace Electra.Ledger

open Chain Foundations.SpendIndex Foundations.Outcome Foundations.WriteBatch

variable {P : ChainParams}

/-- The outputs an entered transaction spends are still there. -/
theorem inRange_apply {index : TxIndexView} {t : Spender Uint256 CDiskTxPos}
    (henabled : Enabled index t) (hfresh : index t.id = none) {o : COutPoint} (ho : o ∈ t.ins) :
    InRange (apply index t) o := by
  obtain ⟨txindex, hindex, hnone⟩ := henabled.ready o ho
  have hne : o.hash ≠ t.id := by
    intro heq
    rw [heq, hfresh] at hindex
    cases hindex
  have hlt : o.n < txindex.vSpent.length := (List.getElem?_eq_some_iff.mp hnone).1
  rw [apply_eq]
  refine ⟨_, by rw [Function.update_of_ne hne, markAll, hindex, Option.map_some], ?_⟩
  simpa using hlt

/-- Transactions that were entered one after another can be removed backwards. -/
theorem exists_disconnectLoop {index : TxIndexView} (entries : List (CTransaction × CDiskTxPos))
    (henabled : EnabledAll index (entries.map (spenderOf P)))
    (hids : ((entries.map (spenderOf P)).map Spender.id).Nodup)
    (hfresh : ∀ t ∈ entries.map (spenderOf P), index t.id = none) {txdb : CTxDB}
    (htxdb : txdb.readTxIndex = applyAll index (entries.map (spenderOf P))) :
    ∃ txdb', (entries.map Prod.fst).reverse.foldlM (disconnectInputs P) txdb = .ok txdb' := by
  induction entries generalizing index with
  | nil => exact ⟨txdb, rfl⟩
  | cons entry entries ih =>
    rw [List.map_cons] at henabled hfresh
    rw [List.map_cons, List.map_cons, List.nodup_cons] at hids
    have hfresh' : ∀ t ∈ entries.map (spenderOf P), apply index (spenderOf P entry) t.id = none := by
      intro t ht
      refine apply_eq_none_iff.mpr ⟨hfresh t (.tail _ ht), ?_⟩
      intro heq
      exact hids.1 (heq ▸ List.mem_map_of_mem ht)
    obtain ⟨txdb₁, hrest⟩ := ih henabled.2 hids.2 hfresh' htxdb
    obtain ⟨-, -, hindex⟩ := disconnectLoop_spec entries hrest
    rw [htxdb, List.map_cons, applyAll_cons, undoAll_applyAll henabled.2 hids.2 hfresh'] at hindex
    have hranges : ∀ o ∈ entry.1.spends, InRange txdb₁.readTxIndex o :=
      fun o ho ↦ hindex ▸ inRange_apply henabled.1 (hfresh _ List.mem_cons_self) ho
    obtain ⟨txdb', hone⟩ := disconnectInputs_of_inRange hranges
    refine ⟨txdb', ?_⟩
    rw [List.map_cons, List.reverse_cons, List.foldlM_append, bind_eq_ok]
    refine ⟨txdb₁, hrest, ?_⟩
    simp only [List.foldlM_cons, List.foldlM_nil, bind_eq_ok, pure_eq_ok, exists_eq_right]
    exact hone

/-- The record that unlinks a block from its successor. -/
def unlinkedRecord (st : NodeState) (index : CBlockIndex) (pprev : PIndex) : CDiskBlockIndex where
  index
  nHeight := PIndex.nHeight (index :: pprev)
  nMint := st.nMint (index :: pprev)
  nMoneySupply := st.nMoneySupply (index :: pprev)
  hashPrev := PIndex.getBlockHash pprev
  hashNext := 0

theorem readBlockIndex_leaveBlock {st : NodeState} {block : CBlock} {pindex pprev : PIndex}
    {index : CBlockIndex} (h : pindex.tail = index :: pprev) :
    (leaveBlock P st block pindex).txdb.readBlockIndex index.phashBlock =
      some (unlinkedRecord st index pprev) := by
  simp [leaveBlock, h, NodeState.writeBlockIndex, CTxDB.readBlockIndex, CTxDB.writeBlockIndex,
    unlinkedRecord]

/-- A connected block of new transactions can be disconnected, which restores the transaction
index and clears `hashNext` of the previous block. -/
theorem disconnectBlock_connectBlock {env : Env} {st st' : NodeState} {block : CBlock}
    {pindex : PIndex} (hfresh : ∀ tx ∈ block.vtx, st.txdb.readTxIndex (P.hashTx tx) = none)
    (h : connectBlock P env st block pindex false = .ok st') :
    ∃ st'', disconnectBlock P st' block pindex = .ok st'' ∧
      st''.txdb.readTxIndex = st.txdb.readTxIndex ∧
      ∀ index pprev, pindex.tail = index :: pprev →
        st''.txdb.readBlockIndex index.phashBlock = some (unlinkedRecord st index pprev) := by
  obtain ⟨sums, hconnects⟩ := connectBlock_eq_ok h
  have hids : ((spendersOf P block pindex).map Spender.id).Nodup := by
    rw [map_id_spendersOf]
    exact hconnects.checked.txids_nodup
  have hnew : ∀ t ∈ spendersOf P block pindex, st.txdb.readTxIndex t.id = none := by
    intro t ht
    have hid : t.id ∈ block.vtx.map P.hashTx := by
      rw [← map_id_spendersOf block pindex]
      exact List.mem_map_of_mem ht
    obtain ⟨tx, htx, heq⟩ := List.mem_map.mp hid
    exact heq ▸ hfresh tx htx
  obtain ⟨txdb, hloop⟩ := exists_disconnectLoop (block.located pindex false) hconnects.all.enabled
    hids hnew hconnects.txindex
  rw [map_fst_located] at hloop
  have hok : disconnectBlock P st' block pindex = .ok (leaveBlock P { st' with txdb } block pindex) := by
    simp only [disconnectBlock, bind_eq_ok, mapError_eq_ok, pure_eq_ok]
    exact ⟨txdb, hloop, rfl⟩
  refine ⟨_, hok, ?_, ?_⟩
  · rw [(disconnectBlock_eq_ok hok).txindex, hconnects.txindex]
    exact undoAll_applyAll hconnects.all.enabled hids hnew
  · intro index pprev htail
    rw [readBlockIndex_leaveBlock htail]
    -- the record of the previous block has the mint and supply it had before
    have hne : (index :: pprev) ≠ pindex := by
      rintro rfl
      have hlength := congrArg List.length htail
      simp at hlength
    simp [unlinkedRecord, hconnects.nMint, hconnects.nMoneySupply, Function.update_of_ne hne]

/-! ## A block that spends an output of its own -/

namespace UndoExample

open Builders

def mainNet : ChainParams := network false

def genesis : CBlock := blockOf mainNet 1 0 1000 (easiestBits mainNet) [coinbase 1 1000 0 [⟨0, []⟩]]

/-- Transaction 3, at offset 156 of its file, has one output. -/
def parent : CBlock := blockOf mainNet 2 mainNet.genesisHash 2000 (easiestBits mainNet)
  [coinbase 2 2000 1 [output 0], spending 3 2000 [⟨99, 0⟩] [output 50000]]

/-- Transaction 5 spends that output, transaction 6 an output of transaction 5. -/
def child : CBlock := blockOf mainNet 3 2 3000 (easiestBits mainNet)
  [coinbase 4 3000 2 [output 0], spending 5 3000 [⟨3, 0⟩] [output 20000, output 20000],
    spending 6 3000 [⟨5, 1⟩] [output 10000]]

def env : Env := surroundings (filesOf [(1, 8, genesis), (2, 8, parent), (3, 8, child)]) 5000

def tip : PIndex := [indexOf mainNet parent 2 8, indexOf mainNet genesis 1 8]

def pindex : PIndex := indexOf mainNet child 3 8 :: tip

def node : NodeState := nodeAt tip (txdbOf [(3, ⟨⟨2, 8, 156⟩, [none]⟩)])

end UndoExample

open UndoExample in
theorem disconnectBlock_connectBlock_example :
    ∃ st', connectBlock mainNet env node child pindex false = .ok st' ∧
      ∃ st'', disconnectBlock mainNet st' child pindex = .ok st'' ∧
        st''.txdb.readTxIndex = node.txdb.readTxIndex ∧
        ∀ index pprev, pindex.tail = index :: pprev →
          st''.txdb.readBlockIndex index.phashBlock = some (unlinkedRecord node index pprev) := by
  obtain ⟨st', h⟩ := exists_eq_ok
    (show (connectBlock mainNet env node child pindex false).isOk = true by decide)
  exact ⟨st', h, disconnectBlock_connectBlock (by decide) h⟩

end Electra.Ledger
