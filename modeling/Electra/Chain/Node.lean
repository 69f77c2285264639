import Electra.Chain.BestChain

/-!
# Events of a node

A node starts with its genesis block and then accepts blocks, moves its best chain to a block of its
index on behalf of a synchronized checkpoint, and accepts and removes transactions of its pool.
-/

namespace Electra.Chain

open Foundations.Outcome

inductive NodeEvent
  | acceptBlock (env : Env) (block : CBlock)
  | setBestChain (env : Env) (pindex : PIndex)
  | acceptTx (env : Env) (tx : CTransaction)
  | removeTx (tx : CTransaction) (fRecursive : Bool)

/-- A node before it has a genesis block. -/
def emptyNode (setpwalletRegistered : List CWallet) : NodeState where
  mapBlockIndex _ := none
  pnext _ := none
  nMint _ := 0
  nMoneySupply _ := 0
  pindexGenesisBlock := []
  pindexBest := []
  hashBestChain := 0
  nBestHeight := -1
  nBestChainTrust := 0
  nBestInvalidTrust := 0
  mempool := .empty
  setpwalletRegistered
  txdb := ⟨fun _ ↦ none, none⟩

variable (P : ChainParams)

/-- `LoadBlockIndex` on an empty database adds the genesis block. -/
def startNode (env : Env) (setpwalletRegistered : List CWallet) (block : CBlock) (nFile nBlockPos : ℕ) :
    Bool × NodeState :=
  addToBlockIndex P env (emptyNode setpwalletRegistered) block nFile nBlockPos 0

/-- `CBlockIndex::IsInMainChain`. -/
def isInMainChain (st : NodeState) (pindex : PIndex) : Bool :=
  (st.pnext pindex).isSome || pindex == st.pindexBest

/-- Move the best chain to a checkpoint outside of it, whose block is read from disk. -/
def setBestChainTo (env : Env) (st : NodeState) (pindex : PIndex) : NodeState :=
  match pindex with
  | [] => st
  | index :: _ =>
      if isInMainChain st pindex then st
      else
        match readFromDisk P env.files index with
        | .error _ => st
        | .ok block => (setBestChain P env st block pindex).2

def acceptToMemoryPool (env : Env) (st : NodeState) (tx : CTransaction) : NodeState :=
  match st.mempool.accept P env.files st.txdb st.pindexBest tx true with
  | .ok mempool => { st with mempool }
  | .error _ => st

def handleEvent (st : NodeState) : NodeEvent → NodeState
  | .acceptBlock env block => (acceptBlock P env st block).2
  | .setBestChain env pindex => setBestChainTo P env st pindex
  | .acceptTx env tx => acceptToMemoryPool P env st tx
  | .removeTx tx fRecursive => { st with mempool := st.mempool.remove P tx fRecursive }

end Electra.Chain
