import Electra.Chain.ConnectBlock
import Electra.Foundations.InverseIndex

/-!
# Orphan transactions

Transactions whose inputs are missing wait in a pool of their own, with an index from the
transactions they spend to them.  A `tx` message is offered to the memory pool; what it accepts may
be what some orphans wait for.
-/

namespace Electra.Chain

open Foundations.InverseIndex Foundations.Outcome

def MAX_ORPHAN_TRANSACTIONS : ℕ := MAX_BLOCK_SIZE / 100

structure OrphanTxPool where
  mapOrphanTransactions : AList fun _ : Uint256 ↦ CTransaction
  mapOrphanTransactionsByPrev : ChildIndex Uint256

namespace OrphanTxPool

def empty : OrphanTxPool := ⟨∅, fun _ ↦ none⟩

def size (orphans : OrphanTxPool) : ℕ := orphans.mapOrphanTransactions.entries.length

end OrphanTxPool

variable (P : ChainParams)

/-- The transactions that the inputs of a transaction name, one for each input. -/
def CTransaction.prevHashes (tx : CTransaction) : List Uint256 :=
  tx.vin.map fun txin ↦ txin.prevout.hash

def addOrphanTx (orphans : OrphanTxPool) (tx : CTransaction) : Bool × OrphanTxPool :=
  let hash := P.hashTx tx
  if (orphans.mapOrphanTransactions.lookup hash).isSome then (false, orphans)
  else if tx.getSerializeSize > 5000 then (false, orphans)
  else (true, {
    mapOrphanTransactions := orphans.mapOrphanTransactions.insert hash tx
    mapOrphanTransactionsByPrev :=
      insertChild orphans.mapOrphanTransactionsByPrev hash tx.prevHashes })

def eraseOrphanTx (orphans : OrphanTxPool) (hash : Uint256) : OrphanTxPool :=
  match orphans.mapOrphanTransactions.lookup hash with
  | none => orphans
  | some tx => {
      mapOrphanTransactions := orphans.mapOrphanTransactions.erase hash
      mapOrphanTransactionsByPrev :=
        eraseChild orphans.mapOrphanTransactionsByPrev hash tx.prevHashes }

/-- The first key of a map from a given one on, and its first key if there is none. -/
def lowerBoundOrBegin (keys : List Uint256) (randomhash : Uint256) : Option Uint256 :=
  let above := keys.filter fun key ↦ decide (randomhash ≤ key)
  (if above.isEmpty then keys else above).argmin BitVec.toNat

/-- The loop of `LimitOrphanTxSize`: it evicts random orphans until few enough are left. -/
def evictOrphans (getRandHash : ℕ → Uint256) (nMaxOrphans : ℕ) :
    ℕ → ℕ → OrphanTxPool → ℕ × OrphanTxPool
  | 0, nEvicted, orphans => (nEvicted, orphans)
  | nSize + 1, nEvicted, orphans =>
      if orphans.size > nMaxOrphans then
        match lowerBoundOrBegin orphans.mapOrphanTransactions.keys (getRandHash nEvicted) with
        | none => (nEvicted, orphans)
        | some hash => evictOrphans getRandHash nMaxOrphans nSize (nEvicted + 1) (eraseOrphanTx orphans hash)
      else (nEvicted, orphans)

def limitOrphanTxSize (getRandHash : ℕ → Uint256) (orphans : OrphanTxPool) (nMaxOrphans : ℕ) :
    ℕ × OrphanTxPool :=
  evictOrphans getRandHash nMaxOrphans orphans.size 0 orphans

/-! ## Transaction messages -/

/-- A wallet copy of a transaction outside of any block. -/
def walletTxLoose (tx : CTransaction) : CWalletTx where
  toCTransaction := tx
  hashBlock := 0
  vMerkleBranch := []
  nIndex := -1
  fFromMe := false
  vfSpent := []

/-- `SyncWithWallets(tx, NULL, true)`. -/
def syncLooseWithWallets (wallets : List CWallet) (tx : CTransaction) : List CWallet :=
  wallets.map fun wallet ↦
    if (wallet.mapWallet (P.hashTx tx)).isSome || wallet.paysToMe tx || wallet.isFromMe tx then
      wallet.addToWallet P (walletTxLoose tx)
    else wallet.walletUpdateSpent P tx false

/-- What a `tx` message changes while it is handled.  `vSynced` notes the transactions that
`SyncWithWallets` is called for, `vAccepted` those that the memory pool takes. -/
structure TxProgress where
  mempool : CTxMemPool
  setpwalletRegistered : List CWallet
  mapOrphanTransactionsByPrev : ChildIndex Uint256
  vWorkQueue : List Uint256
  vEraseQueue : List Uint256
  vSynced : List CTransaction
  vAccepted : List CTransaction

/-- The pool has accepted a transaction with a given hash; `SyncWithWallets` is called for `txSynced`. -/
def TxProgress.accepted (progress : TxProgress) (mempool : CTxMemPool) (hash : Uint256)
    (txSynced txAccepted : CTransaction) : TxProgress :=
  { progress with
    mempool
    setpwalletRegistered := syncLooseWithWallets P progress.setpwalletRegistered txSynced
    vWorkQueue := progress.vWorkQueue ++ [hash]
    vEraseQueue := progress.vEraseQueue ++ [hash]
    vSynced := progress.vSynced ++ [txSynced]
    vAccepted := progress.vAccepted ++ [txAccepted] }

section Resolve

variable (files : BlockFiles) (txdb : CTxDB) (pindexBest : PIndex) (tx : CTransaction)
  (mapOrphanTransactions : AList fun _ : Uint256 ↦ CTransaction)

/-- Offer an orphan to the pool.  The wallets are told about the transaction of the message. -/
def acceptOrphan (progress : TxProgress) (orphanTxHash : Uint256) : TxProgress :=
  match mapOrphanTransactions.lookup orphanTxHash with
  | none => progress -- not reached: the index only lists stored orphans
  | some orphanTx =>
      match progress.mempool.accept P files txdb pindexBest orphanTx true with
      | .ok mempool => progress.accepted P mempool orphanTxHash tx orphanTx
      | .error (fMissingInputs2, _) =>
          if fMissingInputs2 then progress
          else { progress with vEraseQueue := progress.vEraseQueue ++ [orphanTxHash] }

/-- Offer the orphans that spend an accepted transaction; looking them up creates their entry. -/
def acceptOrphansOf (progress : TxProgress) (hashPrev : Uint256) : TxProgress :=
  (under progress.mapOrphanTransactionsByPrev hashPrev).foldl
    (acceptOrphan P files txdb pindexBest tx mapOrphanTransactions)
    { progress with
      mapOrphanTransactionsByPrev := lookUp progress.mapOrphanTransactionsByPrev hashPrev }

/-- The loop over the work queue, which grows while it runs.  Every turn but the first is owed to an
orphan that was accepted, so the number of orphans bounds the turns. -/
def resolveOrphans : ℕ → TxProgress → TxProgress
  | 0, progress => progress
  | nOrphans + 1, progress =>
      match progress.vWorkQueue with
      | [] => progress
      | hashPrev :: vWorkQueue =>
          resolveOrphans nOrphans
            (acceptOrphansOf P files txdb pindexBest tx mapOrphanTransactions
              { progress with vWorkQueue } hashPrev)

end Resolve

/-- The progress of a message once the pool has accepted its transaction. -/
def startProgress (st : NodeState) (orphans : OrphanTxPool) (mempool : CTxMemPool) (tx : CTransaction) :
    TxProgress :=
  TxProgress.accepted P {
    mempool
    setpwalletRegistered := st.setpwalletRegistered
    mapOrphanTransactionsByPrev := orphans.mapOrphanTransactionsByPrev
    vWorkQueue := []
    vEraseQueue := []
    vSynced := []
    vAccepted := [] } mempool (P.hashTx tx) tx tx

/-- What the handling of a message leaves behind. -/
structure TxResult where
  st : NodeState
  orphans : OrphanTxPool
  vSynced : List CTransaction
  vAccepted : List CTransaction

/-- The progress at the end of the work queue. -/
def resolved (files : BlockFiles) (st : NodeState) (orphans : OrphanTxPool) (mempool : CTxMemPool)
    (tx : CTransaction) : TxProgress :=
  resolveOrphans P files st.txdb st.pindexBest tx orphans.mapOrphanTransactions (orphans.size + 1)
    (startProgress P st orphans mempool tx)

/-- `ProcessMessage` for a `tx` message. -/
def processTx (getRandHash : ℕ → Uint256) (files : BlockFiles) (st : NodeState)
    (orphans : OrphanTxPool) (tx : CTransaction) : TxResult :=
  match st.mempool.accept P files st.txdb st.pindexBest tx true with
  | .ok mempool =>
      let progress := resolved P files st orphans mempool tx
      { st := { st with
          mempool := progress.mempool
          setpwalletRegistered := progress.setpwalletRegistered }
        orphans := progress.vEraseQueue.foldl eraseOrphanTx
          { orphans with mapOrphanTransactionsByPrev := progress.mapOrphanTransactionsByPrev }
        vSynced := progress.vSynced
        vAccepted := progress.vAccepted }
  | .error (fMissingInputs, _) =>
      { st
        orphans :=
          if fMissingInputs then
            (limitOrphanTxSize getRandHash (addOrphanTx P orphans tx).2 MAX_ORPHAN_TRANSACTIONS).2
          else orphans
        vSynced := []
        vAccepted := [] }

end Electra.Chain
