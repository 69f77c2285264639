import Electra.Foundations.Outcome
import Electra.Foundations.SpendIndex
import Mathlib.Algebra.Ring.Int.Defs
import Mathlib.Algebra.GroupWithZero.Nat

/-!
# Transactions

Scripts, outpoints, transactions and the checks on a transaction that need no context.  Amounts
are unbounded integers; sizes are those of the network serialization.
-/

namespace Electra.Chain

open Foundations.Outcome Foundations.SpendIndex

abbrev Uint256 := BitVec 256
abbrev CScript := List UInt8

/-- Hashes in lists are looked up by their equality. -/
instance : LawfulBEq Uint256 := inferInstance

def COIN : ℤ := 100000000
def CENT : ℤ := 1000000
def MAX_BLOCK_SIZE : ℕ := 1000000
def MAX_BLOCK_SIZE_GEN : ℕ := MAX_BLOCK_SIZE / 2
def MAX_BLOCK_SIGOPS : ℕ := MAX_BLOCK_SIZE / 50
def MIN_TX_FEE : ℤ := 1000
def MIN_RELAY_TX_FEE : ℤ := MIN_TX_FEE
def MAX_TX : ℤ := 30000000000 * COIN
def LOCKTIME_THRESHOLD : ℤ := 500000000

def moneyRange (nValue : ℤ) : Bool := decide (0 ≤ nValue) && decide (nValue ≤ MAX_TX)

/-- What a failed check leaves behind: the misbehaviour score it adds and the logged text. -/
structure Reject where
  nDoS : ℕ
  text : String
deriving DecidableEq, Repr

/-- `return error(text)`. -/
def error (text : String) : Reject := ⟨0, text⟩

/-- `return DoS(n, error(text))`. -/
def dos (n : ℕ) (text : String) : Reject := ⟨n, text⟩

/-- A bare `return false`. -/
def silent : Reject := ⟨0, ""⟩

abbrev COutPoint := OutPoint Uint256

def uintMax : ℕ := 2 ^ 32 - 1

def isNull (prevout : COutPoint) : Bool :=
  decide (prevout.hash = 0) && decide (prevout.n = uintMax)

structure CTxIn where
  prevout : COutPoint
  scriptSig : CScript
  nSequence : ℕ
deriving DecidableEq

def CTxIn.isFinal (txin : CTxIn) : Bool := decide (txin.nSequence = uintMax)

structure CTxOut where
  nValue : ℤ
  scriptPubKey : CScript
deriving DecidableEq

def CTxOut.isEmpty (txout : CTxOut) : Bool :=
  decide (txout.nValue = 0) && txout.scriptPubKey.isEmpty

structure CTransaction where
  nVersion : ℤ
  nTime : ℕ
  vin : List CTxIn
  vout : List CTxOut
  nLockTime : ℕ
deriving DecidableEq

/-- A signature leaves what an input spends. -/
theorem map_prevout_modify (vin : List CTxIn) (i : ℕ) (scriptSig : CScript) :
    (vin.modify i fun txin ↦ { txin with scriptSig }).map CTxIn.prevout = vin.map CTxIn.prevout := by
  apply List.ext_getElem?
  intro j
  rw [List.getElem?_map, List.getElem?_map, List.getElem?_modify]
  cases vin[j]? with
  | none => rfl
  | some txin =>
    simp only [Option.map_some]
    split <;> rfl

def getSizeOfCompactSize (nSize : ℕ) : ℕ :=
  if nSize < 253 then 1 else if nSize ≤ 0xffff then 3 else if nSize ≤ 0xffffffff then 5 else 9

def scriptSize (script : CScript) : ℕ := getSizeOfCompactSize script.length + script.length

def CTxIn.getSerializeSize (txin : CTxIn) : ℕ := 36 + scriptSize txin.scriptSig + 4

def CTxOut.getSerializeSize (txout : CTxOut) : ℕ := 8 + scriptSize txout.scriptPubKey

namespace CTransaction

def getSerializeSize (tx : CTransaction) : ℕ :=
  4 + 4 + (getSizeOfCompactSize tx.vin.length + (tx.vin.map CTxIn.getSerializeSize).sum) +
    (getSizeOfCompactSize tx.vout.length + (tx.vout.map CTxOut.getSerializeSize).sum) + 4

def isCoinBase (tx : CTransaction) : Bool :=
  match tx.vin with
  | [txin] => isNull txin.prevout && decide (1 ≤ tx.vout.length)
  | _ => false

/-- The coinstake is marked by an empty first output. -/
def isCoinStake (tx : CTransaction) : Bool :=
  match tx.vin, tx.vout with
  | txin :: _, txout :: _ :: _ => !isNull txin.prevout && txout.isEmpty
  | _, _ => false

/-- A zero height or time stands for the best height and the adjusted time. -/
def isFinal (tx : CTransaction) (nBestHeight nAdjustedTime nBlockHeight nBlockTime : ℤ) : Bool :=
  let nBlockHeight := if nBlockHeight = 0 then nBestHeight else nBlockHeight
  let nBlockTime := if nBlockTime = 0 then nAdjustedTime else nBlockTime
  decide (tx.nLockTime = 0) ||
    decide ((tx.nLockTime : ℤ) <
      if (tx.nLockTime : ℤ) < LOCKTIME_THRESHOLD then nBlockHeight else nBlockTime) ||
    tx.vin.all CTxIn.isFinal

/-- One step of the sum of the outputs; a value out of range throws. -/
def addValueOut (nValueOut : ℤ) (txout : CTxOut) : Except Reject ℤ := do
  let nValueOut := nValueOut + txout.nValue
  rejectIf (!moneyRange txout.nValue || !moneyRange nValueOut)
    (error "CTransaction::GetValueOut() : value out of range")
  return nValueOut

def getValueOut (tx : CTransaction) : Except Reject ℤ := tx.vout.foldlM addValueOut 0

inductive GetMinFeeMode
  | gmfBlock
  | gmfRelay
  | gmfSend
deriving DecidableEq

def getMinFee (tx : CTransaction) (nBlockSize : ℕ) (mode : GetMinFeeMode) (nBytes : ℕ) : ℤ :=
  let nBaseFee := if mode = .gmfRelay then MIN_RELAY_TX_FEE else MIN_TX_FEE
  let nNewBlockSize := nBlockSize + nBytes
  let nMinFee := (1 + (nBytes : ℤ) / 1000) * nBaseFee
  let nMinFee := if nMinFee < nBaseFee ∧ tx.vout.any (fun txout ↦ txout.nValue < CENT) then nBaseFee
    else nMinFee
  if nBlockSize ≠ 1 ∧ nNewBlockSize ≥ MAX_BLOCK_SIZE_GEN / 2 ∧ nNewBlockSize ≥ MAX_BLOCK_SIZE_GEN then
    MAX_TX
  else
    let nMinFee := if nBlockSize ≠ 1 ∧ nNewBlockSize ≥ MAX_BLOCK_SIZE_GEN / 2 then
      nMinFee * ((MAX_BLOCK_SIZE_GEN / (MAX_BLOCK_SIZE_GEN - nNewBlockSize) : ℕ) : ℤ) else nMinFee
    if moneyRange nMinFee then nMinFee else MAX_TX

/-- The loop body over the outputs in `CheckTransaction`. -/
def checkTxOut (tx : CTransaction) (nValueOut : ℤ) (txout : CTxOut) : Except Reject ℤ := do
  rejectIf (txout.isEmpty && !tx.isCoinBase && !tx.isCoinStake)
    (dos 100 "CTransaction::CheckTransaction() : txout empty for user transaction")
  rejectIf (txout.nValue < 0) (dos 100 "CTransaction::CheckTransaction() : txout.nValue negative")
  rejectIf (txout.nValue > MAX_TX)
    (dos 100 "CTransaction::CheckTransaction() : txout.nValue too high")
  let nValueOut := nValueOut + txout.nValue
  rejectIf (!moneyRange nValueOut)
    (dos 100 "CTransaction::CheckTransaction() : txout total out of range")
  return nValueOut

def scriptSig0 (tx : CTransaction) : CScript := (tx.vin.head?.map CTxIn.scriptSig).getD []

def checkTransaction (tx : CTransaction) : Except Reject Unit := do
  rejectIf tx.vin.isEmpty (dos 10 "CTransaction::CheckTransaction() : vin empty")
  rejectIf tx.vout.isEmpty (dos 10 "CTransaction::CheckTransaction() : vout empty")
  rejectIf (tx.getSerializeSize > MAX_BLOCK_SIZE)
    (dos 100 "CTransaction::CheckTransaction() : size limits failed")
  let _ ← tx.vout.foldlM (checkTxOut tx) 0
  rejectIf (¬ (tx.vin.map CTxIn.prevout).Nodup) silent
  if tx.isCoinBase then
    rejectIf (tx.scriptSig0.length < 2 ∨ tx.scriptSig0.length > 100)
      (dos 100 "CTransaction::CheckTransaction() : coinbase script size is invalid")
  else
    rejectIf (tx.vin.any fun txin ↦ isNull txin.prevout)
      (dos 10 "CTransaction::CheckTransaction() : prevout is null")

/-- The outpoints a transaction spends; a coinbase has none. -/
def spends (tx : CTransaction) : List COutPoint :=
  if tx.isCoinBase then [] else tx.vin.map CTxIn.prevout

/-- Sum of the output values. -/
def valueOut (tx : CTransaction) : ℤ := (tx.vout.map CTxOut.nValue).sum

theorem foldlM_addValueOut {vout : List CTxOut} {nValueOut nResult : ℤ}
    (h : vout.foldlM addValueOut nValueOut = .ok nResult) :
    nResult = nValueOut + (vout.map CTxOut.nValue).sum := by
  induction vout generalizing nValueOut with
  | nil =>
    rw [List.foldlM_nil, pure_eq_ok] at h
    simp [h]
  | cons txout vout ih =>
    rw [List.foldlM_cons, bind_eq_ok] at h
    obtain ⟨nSum, hone, hrest⟩ := h
    simp only [addValueOut, bind_eq_ok, rejectIf_eq_ok, pure_eq_ok] at hone
    obtain ⟨-, -, rfl⟩ := hone
    rw [ih hrest, List.map_cons, List.sum_cons, add_assoc]

variable {tx : CTransaction}

/-- A sum of outputs that does not throw is the sum of the values. -/
theorem getValueOut_eq_ok {nValueOut : ℤ} (h : tx.getValueOut = .ok nValueOut) :
    nValueOut = tx.valueOut := by
  rw [foldlM_addValueOut h, valueOut, zero_add]

/-- The facts about a transaction that passed its checks. -/
structure Checked (tx : CTransaction) : Prop where
  vin_ne_nil : tx.vin ≠ []
  vout_ne_nil : tx.vout ≠ []
  prevouts_nodup : (tx.vin.map CTxIn.prevout).Nodup
  scriptSig0_length : tx.isCoinBase → 2 ≤ tx.scriptSig0.length ∧ tx.scriptSig0.length ≤ 100
  prevouts_not_null : ¬ tx.isCoinBase → ∀ txin ∈ tx.vin, isNull txin.prevout = false

theorem checked_of_checkTransaction {u : Unit} (h : tx.checkTransaction = .ok u) : tx.Checked := by
  simp only [checkTransaction, bind_eq_ok, rejectIf_eq_ok, exists_const] at h
  obtain ⟨hvin, hvout, -, nValueOut, -, hnodup, hkind⟩ := h
  refine ⟨by simpa using hvin, by simpa using hvout, not_not.mp hnodup, ?_, ?_⟩
  · intro hbase
    rw [if_pos hbase, rejectIf_eq_ok] at hkind
    omega
  · intro hbase txin htxin
    rw [if_neg hbase, rejectIf_eq_ok] at hkind
    simp only [List.any_eq_true, not_exists, not_and, Bool.not_eq_true] at hkind
    exact hkind txin htxin

theorem spends_of_not_coinBase (h : tx.isCoinBase = false) :
    tx.spends = tx.vin.map CTxIn.prevout := by
  simp [spends, h]

theorem Checked.spends_nodup (h : tx.Checked) : tx.spends.Nodup := by
  unfold spends
  split
  · exact List.nodup_nil
  · exact h.prevouts_nodup

/-- A transaction is not both coinbase and coinstake. -/
theorem isCoinStake_of_isCoinBase (h : tx.isCoinBase) :
    tx.isCoinStake = false := by
  unfold isCoinBase at h
  unfold isCoinStake
  split at h
  · next txin hvin =>
    rw [hvin]
    split
    · next heq _ =>
      obtain ⟨rfl, -⟩ := List.cons.inj heq
      simp only [Bool.and_eq_true] at h
      simp [h.1]
    · rfl
  · cases h

end CTransaction

end Electra.Chain
