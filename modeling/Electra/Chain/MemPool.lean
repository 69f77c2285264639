import Electra.Chain.Inputs
import Mathlib.Tactic.NormNum

/-!
# Memory pool

`mapTx` holds the transactions of the pool by hash, `mapNextTx` the pool transaction that spends an
outpoint.
-/

namespace Electra.Chain

open Foundations.SpendIndex Foundations.Outcome

/-- A pool transaction and the index of one of its inputs. -/
structure CInPoint where
  ptx : CTransaction
  n : ℕ
deriving DecidableEq

structure CTxMemPool where
  mapTx : AList fun _ : Uint256 ↦ CTransaction
  mapNextTx : COutPoint → Option CInPoint

namespace CTxMemPool

def empty : CTxMemPool := ⟨∅, fun _ ↦ none⟩

variable (P : ChainParams)

def addUnchecked (pool : CTxMemPool) (hash : Uint256) (tx : CTransaction) : CTxMemPool where
  mapTx := pool.mapTx.insert hash tx
  mapNextTx := tx.vin.zipIdx.foldl
    (fun mapNextTx input ↦ Function.update mapNextTx input.1.prevout (some ⟨tx, input.2⟩))
    pool.mapNextTx

/-- Erase a transaction and the entries of its inputs. -/
def erase (pool : CTxMemPool) (hash : Uint256) (tx : CTransaction) : CTxMemPool where
  mapTx := pool.mapTx.erase hash
  mapNextTx := (tx.vin.map CTxIn.prevout).foldl
    (fun mapNextTx prevout ↦ Function.update mapNextTx prevout none) pool.mapNextTx

/-- `remove`, with the depth of the recursion as fuel. -/
def removeFuel : ℕ → CTxMemPool → CTransaction → Bool → CTxMemPool
  | 0, pool, _, _ => pool
  | nDepth + 1, pool, tx, fRecursive =>
      let hash := P.hashTx tx
      if (pool.mapTx.lookup hash).isSome then
        let pool := if fRecursive then
            (List.range tx.vout.length).foldl (fun pool i ↦
              match pool.mapNextTx ⟨hash, i⟩ with
              | some inpoint => removeFuel nDepth pool inpoint.ptx true
              | none => pool) pool
          else pool
        pool.erase hash tx
      else pool

/-- A chain of dependent transactions is no longer than the pool. -/
def remove (pool : CTxMemPool) (tx : CTransaction) (fRecursive : Bool) : CTxMemPool :=
  removeFuel P (pool.mapTx.entries.length + 1) pool tx fRecursive

/-- Remove the pool transaction that spends an outpoint, if it is another one. -/
def removeConflict (tx : CTransaction) (pool : CTxMemPool) (prevout : COutPoint) : CTxMemPool :=
  match pool.mapNextTx prevout with
  | some inpoint => if inpoint.ptx ≠ tx then remove P pool inpoint.ptx true else pool
  | none => pool

def removeConflicts (pool : CTxMemPool) (tx : CTransaction) : CTxMemPool :=
  (tx.vin.map CTxIn.prevout).foldl (removeConflict P tx) pool

def clear (_ : CTxMemPool) : CTxMemPool := empty

/-! ## Acceptance -/

/-- The checks of `accept` that look at the inputs; a failure says whether inputs are missing. -/
def checkInputs (files : BlockFiles) (txdb : CTxDB) (pindexBest : PIndex) (pool : CTxMemPool)
    (tx : CTransaction) : Except (Bool × Reject) Unit := do
  let inputs ← (fetchInputs files txdb pool.mapTx.lookup ∅ false false tx).mapError fun failure ↦
    if failure.1 then (false, error "CTxMemPool::accept() : FetchInputs found invalid tx")
    else (true, silent)
  rejectIf (!P.areInputsStandard tx ((tx.vin.filterMap fun txin ↦
      (getOutputFor inputs txin.prevout).toOption)) && !P.fTestNet)
    (false, error "CTxMemPool::accept() : nonstandard transaction input")
  let nValueIn ← (getValueIn inputs tx).mapError (false, ·)
  let nValueOut ← tx.getValueOut.mapError (false, ·)
  -- fees below the relay minimum do not get past this check to the rate limiter
  rejectIf (nValueIn - nValueOut < tx.getMinFee 1000 .gmfRelay tx.getSerializeSize)
    (false, error "CTxMemPool::accept() : not enough fees")
  let _ ← (connectInputs P 0 inputs ∅ .memoryPool pindexBest false false tx).mapError fun _ ↦
    (false, error "CTxMemPool::accept() : ConnectInputs failed")

def accept (files : BlockFiles) (txdb : CTxDB) (pindexBest : PIndex) (pool : CTxMemPool)
    (tx : CTransaction) (fCheckInputs : Bool) : Except (Bool × Reject) CTxMemPool := do
  tx.checkTransaction.mapError fun _ ↦ (false, error "CTxMemPool::accept() : CheckTransaction failed")
  rejectIf tx.isCoinBase (false, dos 100 "CTxMemPool::accept() : coinbase as individual tx")
  rejectIf tx.isCoinStake (false, dos 100 "CTxMemPool::accept() : coinstake as individual tx")
  rejectIf (tx.nLockTime > 2 ^ 31 - 1)
    (false, error "CTxMemPool::accept() : not accepting nLockTime beyond 2038 yet")
  rejectIf (!P.fTestNet && !P.isStandard tx)
    (false, error "CTxMemPool::accept() : nonstandard transaction type")
  let hash := P.hashTx tx
  rejectIf (pool.mapTx.lookup hash).isSome (false, silent)
  rejectIf (fCheckInputs && txdb.containsTx hash) (false, silent)
  -- replacement is disabled: any conflict with the pool is a rejection
  rejectIf ((tx.vin.map CTxIn.prevout).any fun prevout ↦ (pool.mapNextTx prevout).isSome) (false, silent)
  checkWhen fCheckInputs (checkInputs P files txdb pindexBest pool tx)
  return pool.addUnchecked hash tx

end CTxMemPool

/-- Fees that pass the relay minimum are no free transactions. -/
theorem minRelayTxFee_le_getMinFee (tx : CTransaction) (nBytes : ℕ) :
    MIN_RELAY_TX_FEE ≤ tx.getMinFee 1000 .gmfRelay nBytes := by
  have hbytes : (0 : ℤ) ≤ (nBytes : ℤ) / 1000 := Int.ediv_nonneg (by omega) (by omega)
  have hmax : MIN_RELAY_TX_FEE ≤ MAX_TX := by decide
  have hbase : ∀ nMinFee, MIN_RELAY_TX_FEE ≤ nMinFee →
      MIN_RELAY_TX_FEE ≤ if moneyRange nMinFee then nMinFee else MAX_TX := by
    intro nMinFee h
    split
    · exact h
    · exact hmax
  have hscaled : MIN_RELAY_TX_FEE ≤ (1 + (nBytes : ℤ) / 1000) * MIN_RELAY_TX_FEE := by
    simp only [MIN_RELAY_TX_FEE, MIN_TX_FEE]
    omega
  have hfloor : ∀ c : Prop, ∀ [Decidable c], MIN_RELAY_TX_FEE ≤
      if c then MIN_RELAY_TX_FEE else (1 + (nBytes : ℤ) / 1000) * MIN_RELAY_TX_FEE := by
    intro c _
    split
    · exact le_refl _
    · exact hscaled
  unfold CTransaction.getMinFee
  simp only [if_true]
  split
  · exact hmax
  · next hfull =>
    apply hbase
    split
    · next hhalf =>
      have hfactor : 1 ≤ MAX_BLOCK_SIZE_GEN / (MAX_BLOCK_SIZE_GEN - (1000 + nBytes)) := by
        rw [Nat.one_le_div_iff (by omega)]
        omega
      refine le_trans (hfloor _) (le_mul_of_one_le_right ?_ (by exact_mod_cast hfactor))
      exact le_trans (by decide) (hfloor _)
    · exact hfloor _

end Electra.Chain
