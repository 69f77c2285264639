import Electra.Net.WireFormat
import Electra.Script.Opcodes

/-!
# What a signature signs

`SignatureHash` blanks the parts of a transaction that the hash type leaves open, and hashes what is left
together with the hash type.  Equal data that is hashed means equal covered parts.
-/

namespace Electra.Script

open Chain Foundations.Codec Net

def SIGHASH_NONE : BitVec 32 := 2
def SIGHASH_SINGLE : BitVec 32 := 3
def SIGHASH_ANYONECANPAY : BitVec 32 := 0x80

/-- `CTxOut::SetNull`. -/
def CTxOut.null : CTxOut := ⟨-1, []⟩

/-- Blank out other inputs' signatures. -/
def blankSignatures (scriptCode : CScript) (nIn : ℕ) (vin : List CTxIn) : List CTxIn :=
  (vin.map fun txin ↦ { txin with scriptSig := [] }).modify nIn
    fun txin ↦ { txin with scriptSig := scriptCode }

/-- Let the others update at will. -/
def blankSequences (nIn : ℕ) (vin : List CTxIn) : List CTxIn :=
  vin.mapIdx fun i txin ↦ if i ≠ nIn then { txin with nSequence := 0 } else txin

/-- Only the output at the same index is locked in. -/
def blankOutputs (nOut : ℕ) (vout : List CTxOut) : List CTxOut :=
  (vout.take (nOut + 1)).mapIdx fun i txout ↦ if i < nOut then CTxOut.null else txout

/-- `txTmp`, unless an index is out of range. -/
def blankedTx (scriptCode : CScript) (txTo : CTransaction) (nIn : ℕ) (nHashType : BitVec 32) :
    Option CTransaction := do
  if txTo.vin.length ≤ nIn then none
  let scriptCode := (findAndDelete scriptCode [OP_CODESEPARATOR]).1
  let txTmp := { txTo with vin := blankSignatures scriptCode nIn txTo.vin }
  let txTmp ←
    if nHashType &&& 0x1f = SIGHASH_NONE then
      some { txTmp with vout := [], vin := blankSequences nIn txTmp.vin }
    else if nHashType &&& 0x1f = SIGHASH_SINGLE then
      if txTmp.vout.length ≤ nIn then none
      else some { txTmp with vout := blankOutputs nIn txTmp.vout, vin := blankSequences nIn txTmp.vin }
    else some txTmp
  -- the first input is overwritten by the one that is signed, and the others are cut off
  if nHashType &&& SIGHASH_ANYONECANPAY ≠ 0 then
    some { txTmp with vin := (txTmp.vin.drop nIn).take 1 }
  else some txTmp

/-- The data that is hashed. -/
def signatureData (scriptCode : CScript) (txTo : CTransaction) (nIn : ℕ) (nHashType : BitVec 32) :
    Option (List UInt8) :=
  (blankedTx scriptCode txTo nIn nHashType).map fun txTmp ↦
    writeTx txTmp ++ writeUInt 4 nHashType.toNat

/-- One stands for an index out of range. -/
def signatureHash (hash : List UInt8 → Uint256) (scriptCode : CScript) (txTo : CTransaction) (nIn : ℕ)
    (nHashType : BitVec 32) : Uint256 :=
  ((signatureData scriptCode txTo nIn nHashType).map hash).getD 1

def IsNone (nHashType : BitVec 32) : Prop := nHashType &&& 0x1f = SIGHASH_NONE

def IsSingle (nHashType : BitVec 32) : Prop := nHashType &&& 0x1f = SIGHASH_SINGLE

/-- Neither of the types that leave outputs open. -/
def IsAll (nHashType : BitVec 32) : Prop := ¬IsNone nHashType ∧ ¬IsSingle nHashType

def AnyoneCanPay (nHashType : BitVec 32) : Prop := nHashType &&& SIGHASH_ANYONECANPAY ≠ 0

/-- The input is there, and for `SIGHASH_SINGLE` the output. -/
structure InRange (txTo : CTransaction) (nIn : ℕ) (nHashType : BitVec 32) : Prop where
  vin : nIn < txTo.vin.length
  vout : IsSingle nHashType → nIn < txTo.vout.length

/-- Two calls agree on everything that the hash type covers. -/
structure Agree (nHashType : BitVec 32) (scriptCode scriptCode' : CScript) (txTo txTo' : CTransaction)
    (nIn nIn' : ℕ) : Prop where
  nVersion : txTo.nVersion = txTo'.nVersion
  nTime : txTo.nTime = txTo'.nTime
  nLockTime : txTo.nLockTime = txTo'.nLockTime
  scriptCode : (findAndDelete scriptCode [OP_CODESEPARATOR]).1 =
    (findAndDelete scriptCode' [OP_CODESEPARATOR]).1
  prevouts : ¬AnyoneCanPay nHashType → txTo.vin.map CTxIn.prevout = txTo'.vin.map CTxIn.prevout
  ownPrevout : AnyoneCanPay nHashType →
    txTo.vin[nIn]?.map CTxIn.prevout = txTo'.vin[nIn']?.map CTxIn.prevout
  sequences : IsAll nHashType → ¬AnyoneCanPay nHashType →
    txTo.vin.map CTxIn.nSequence = txTo'.vin.map CTxIn.nSequence
  ownSequence : ¬IsAll nHashType ∨ AnyoneCanPay nHashType →
    txTo.vin[nIn]?.map CTxIn.nSequence = txTo'.vin[nIn']?.map CTxIn.nSequence
  outputs : IsAll nHashType → txTo.vout = txTo'.vout
  ownOutput : IsSingle nHashType → nIn = nIn' ∧ txTo.vout[nIn]? = txTo'.vout[nIn']?

variable {scriptCode scriptCode' b : CScript} {txTo txTo' tx tx' : CTransaction} {nIn nIn' i : ℕ}
  {nHashType : BitVec 32} {vin : List CTxIn} {txin : CTxIn}

theorem length_findAndDeleteFrom_le (fuel : ℕ) (pc : CScript) :
    (findAndDeleteFrom b fuel pc).1.length ≤ pc.length := by
  induction fuel generalizing pc with
  | zero => exact le_rfl
  | succ fuel ih =>
    rw [findAndDeleteFrom]
    split
    · exact (ih _).trans (List.length_drop ▸ Nat.sub_le _ _)
    · split
      · exact le_rfl
      · next rest hop =>
        have hrest := ih rest
        have hlt := length_lt_of_getOp hop
        simp only [List.length_append, List.length_take]
        omega

theorem length_findAndDelete_le (script b : CScript) : (findAndDelete script b).1.length ≤ script.length := by
  unfold findAndDelete
  split
  · exact le_rfl
  · exact length_findAndDeleteFrom_le _ _

instance : Decidable (IsNone nHashType) := inferInstanceAs (Decidable (_ = _))
instance : Decidable (IsSingle nHashType) := inferInstanceAs (Decidable (_ = _))
instance : Decidable (IsAll nHashType) := inferInstanceAs (Decidable (_ ∧ _))
instance : Decidable (AnyoneCanPay nHashType) := inferInstanceAs (Decidable (_ ≠ _))

/-- What becomes of one input. -/
def blankedInput (scriptCode : CScript) (nIn : ℕ) (nHashType : BitVec 32) (i : ℕ) (txin : CTxIn) : CTxIn where
  prevout := txin.prevout
  scriptSig := if i = nIn then scriptCode else []
  nSequence := if i = nIn ∨ IsAll nHashType then txin.nSequence else 0

def blankedInputs (scriptCode : CScript) (nIn : ℕ) (nHashType : BitVec 32) (vin : List CTxIn) : List CTxIn :=
  vin.mapIdx (blankedInput scriptCode nIn nHashType)

def coveredInputs (scriptCode : CScript) (nIn : ℕ) (nHashType : BitVec 32) (vin : List CTxIn) : List CTxIn :=
  if AnyoneCanPay nHashType then ((blankedInputs scriptCode nIn nHashType vin).drop nIn).take 1
  else blankedInputs scriptCode nIn nHashType vin

def coveredOutputs (nIn : ℕ) (nHashType : BitVec 32) (vout : List CTxOut) : List CTxOut :=
  if IsNone nHashType then [] else if IsSingle nHashType then blankOutputs nIn vout else vout

theorem blankSignatures_eq (h : IsAll nHashType) :
    blankSignatures scriptCode nIn vin = blankedInputs scriptCode nIn nHashType vin := by
  apply List.ext_getElem?
  intro i
  simp only [blankSignatures, blankedInputs, List.getElem?_modify, List.getElem?_map,
    List.getElem?_mapIdx]
  cases vin[i]? with
  | none => simp
  | some txin =>
    by_cases hi : i = nIn
    · simp [blankedInput, hi, h]
    · simp [blankedInput, hi, Ne.symm hi, h]

theorem blankSequences_eq (h : ¬IsAll nHashType) :
    blankSequences nIn (blankSignatures scriptCode nIn vin) =
      blankedInputs scriptCode nIn nHashType vin := by
  apply List.ext_getElem?
  intro i
  simp only [blankSequences, blankSignatures, blankedInputs, List.getElem?_modify, List.getElem?_map,
    List.getElem?_mapIdx]
  cases vin[i]? with
  | none => simp
  | some txin =>
    by_cases hi : i = nIn
    · simp [blankedInput, hi, h]
    · simp [blankedInput, hi, Ne.symm hi, h]

theorem not_isAll_of_isNone (h : IsNone nHashType) : ¬IsAll nHashType := fun hall ↦ hall.1 h

theorem not_isAll_of_isSingle (h : IsSingle nHashType) : ¬IsAll nHashType := fun hall ↦ hall.2 h

theorem not_isNone_of_isSingle (h : IsSingle nHashType) : ¬IsNone nHashType := by
  intro hnone
  have hsame : SIGHASH_SINGLE = SIGHASH_NONE := h.symm.trans hnone
  exact absurd hsame (by decide)

/-- Every call in range blanks inputs and outputs as the hash type says. -/
theorem blankedTx_eq (h : InRange txTo nIn nHashType) :
    blankedTx scriptCode txTo nIn nHashType = some { txTo with
      vin := coveredInputs (findAndDelete scriptCode [OP_CODESEPARATOR]).1 nIn nHashType txTo.vin
      vout := coveredOutputs nIn nHashType txTo.vout } := by
  have hvin : ¬txTo.vin.length ≤ nIn := not_le.mpr h.vin
  have hlast : ∀ tx : CTransaction, (if nHashType &&& SIGHASH_ANYONECANPAY ≠ 0 then
      some { tx with vin := (tx.vin.drop nIn).take 1 } else some tx) =
        some { tx with vin := if AnyoneCanPay nHashType then (tx.vin.drop nIn).take 1 else tx.vin } := by
    intro tx
    by_cases hanyone : AnyoneCanPay nHashType
    · rw [if_pos hanyone]
      exact if_pos hanyone
    · rw [if_neg hanyone]
      exact if_neg hanyone
  unfold blankedTx
  rw [if_neg hvin]
  simp only [hlast, coveredInputs, coveredOutputs]
  by_cases hnone : IsNone nHashType
  · have hblank := @blankSequences_eq (findAndDelete scriptCode [OP_CODESEPARATOR]).1 nIn nHashType txTo.vin
      (not_isAll_of_isNone hnone)
    have hif : nHashType &&& 0x1f = SIGHASH_NONE := hnone
    simp only [if_pos hif, hblank, if_pos hnone, Option.bind_eq_bind, Option.bind_some]
  · have hif : ¬nHashType &&& 0x1f = SIGHASH_NONE := hnone
    by_cases hsingle : IsSingle nHashType
    · have hblank := @blankSequences_eq (findAndDelete scriptCode [OP_CODESEPARATOR]).1 nIn nHashType
        txTo.vin (not_isAll_of_isSingle hsingle)
      have hif' : nHashType &&& 0x1f = SIGHASH_SINGLE := hsingle
      have hvout : ¬txTo.vout.length ≤ nIn := not_le.mpr (h.vout hsingle)
      simp only [if_neg hif, if_pos hif', if_neg hvout, hblank, if_neg hnone, if_pos hsingle,
        Option.bind_eq_bind, Option.bind_some]
    · have hblank := @blankSignatures_eq (findAndDelete scriptCode [OP_CODESEPARATOR]).1 nIn nHashType
        txTo.vin ⟨hnone, hsingle⟩
      have hif' : ¬nHashType &&& 0x1f = SIGHASH_SINGLE := hsingle
      simp only [if_neg hif, if_neg hif', hblank, if_neg hnone, if_neg hsingle, Option.bind_eq_bind,
        Option.bind_some]

theorem coveredInputs_subset : ∀ txin ∈ coveredInputs scriptCode nIn nHashType vin,
    txin ∈ blankedInputs scriptCode nIn nHashType vin := by
  intro txin htxin
  unfold coveredInputs at htxin
  split at htxin
  · exact List.mem_of_mem_drop (List.mem_of_mem_take htxin)
  · exact htxin

theorem length_coveredInputs_le : (coveredInputs scriptCode nIn nHashType vin).length ≤ vin.length := by
  have hlength : (blankedInputs scriptCode nIn nHashType vin).length = vin.length := List.length_mapIdx
  unfold coveredInputs
  split
  · rw [List.length_take, List.length_drop, hlength]
    omega
  · exact hlength.le

theorem txInTyped_coveredInputs (hcode : scriptCode.length ≤ MAX_SIZE)
    (hvin : ∀ txin ∈ vin, TxInTyped txin) :
    ∀ txin ∈ coveredInputs scriptCode nIn nHashType vin, TxInTyped txin := by
  intro txin htxin
  obtain ⟨i, hi, rfl⟩ := List.mem_mapIdx.mp (coveredInputs_subset txin htxin)
  have htyped := hvin _ (List.getElem_mem hi)
  refine ⟨htyped.prevout, ?_, ?_⟩
  · change (if i = nIn then scriptCode else []).length ≤ MAX_SIZE
    split
    · exact hcode
    · exact Nat.zero_le _
  · change (if i = nIn ∨ IsAll nHashType then vin[i].nSequence else 0) < 2 ^ 32
    split
    · exact htyped.nSequence
    · decide

variable {vout : List CTxOut}

theorem txOutTyped_coveredOutputs (hvout : ∀ txout ∈ vout, TxOutTyped txout) :
    ∀ txout ∈ coveredOutputs nIn nHashType vout, TxOutTyped txout := by
  intro txout htxout
  unfold coveredOutputs at htxout
  split at htxout
  · exact absurd htxout List.not_mem_nil
  · split at htxout
    · obtain ⟨i, hi, rfl⟩ := List.mem_mapIdx.mp htxout
      split
      · exact ⟨by decide, Nat.zero_le _⟩
      · exact hvout _ (List.mem_of_mem_take (List.getElem_mem hi))
    · exact hvout txout htxout

theorem length_coveredOutputs_le :
    (coveredOutputs nIn nHashType vout).length ≤ vout.length := by
  unfold coveredOutputs blankOutputs
  split
  · exact Nat.zero_le _
  · split
    · rw [List.length_mapIdx, List.length_take]
      exact Nat.min_le_right _ _
    · exact le_rfl

/-- Blanking keeps the ranges. -/
theorem txTyped_covered (htx : TxTyped tx) (hcode : scriptCode.length ≤ MAX_SIZE) :
    TxTyped { tx with
      vin := coveredInputs scriptCode nIn nHashType tx.vin
      vout := coveredOutputs nIn nHashType tx.vout } where
  nVersion := htx.nVersion
  nTime := htx.nTime
  vin := ⟨txInTyped_coveredInputs hcode htx.vin.1, length_coveredInputs_le.trans htx.vin.2⟩
  vout := ⟨txOutTyped_coveredOutputs htx.vout.1, length_coveredOutputs_le.trans htx.vout.2⟩
  nLockTime := htx.nLockTime

/-- A transaction is told by its bytes. -/
theorem writeTx_injective (htx : TxTyped tx) (htx' : TxTyped tx') (h : writeTx tx = writeTx tx') :
    tx = tx' := by
  have hread := (reads_readTx elementSizes64).1 tx htx
  have hread' := (reads_readTx elementSizes64).1 tx' htx'
  rw [← h] at hread'
  exact hread.unique hread' (s := ⟨CDataStream.ofBytes (writeTx tx), []⟩) CDataStream.unread_ofBytes

theorem map_prevout_blankedInputs :
    (blankedInputs scriptCode nIn nHashType vin).map CTxIn.prevout = vin.map CTxIn.prevout := by
  apply List.ext_getElem?
  intro i
  rw [List.getElem?_map, blankedInputs, List.getElem?_mapIdx, List.getElem?_map, Option.map_map]
  rfl

theorem map_nSequence_blankedInputs (h : IsAll nHashType) :
    (blankedInputs scriptCode nIn nHashType vin).map CTxIn.nSequence = vin.map CTxIn.nSequence := by
  apply List.ext_getElem?
  intro i
  rw [List.getElem?_map, blankedInputs, List.getElem?_mapIdx, List.getElem?_map, Option.map_map]
  congr 1
  funext txin
  exact if_pos (.inr h)

theorem coveredInputs_of_anyoneCanPay (h : AnyoneCanPay nHashType) (hvin : vin[nIn]? = some txin) :
    coveredInputs scriptCode nIn nHashType vin = [blankedInput scriptCode nIn nHashType nIn txin] := by
  have hget : (blankedInputs scriptCode nIn nHashType vin)[nIn]? =
      some (blankedInput scriptCode nIn nHashType nIn txin) := by
    rw [blankedInputs, List.getElem?_mapIdx, hvin]
    rfl
  obtain ⟨hlt, hget⟩ := List.getElem?_eq_some_iff.mp hget
  rw [coveredInputs, if_pos h, List.drop_eq_getElem_cons hlt, List.take_succ_cons, List.take_zero, hget]

theorem length_blankOutputs (h : nIn < vout.length) :
    (blankOutputs nIn vout).length = nIn + 1 := by
  rw [blankOutputs, List.length_mapIdx, List.length_take]
  exact Nat.min_eq_left h

theorem getElem?_blankOutputs : (blankOutputs nIn vout)[nIn]? = vout[nIn]? := by
  rw [blankOutputs, List.getElem?_mapIdx, List.getElem?_take_of_lt (Nat.lt_succ_self nIn)]
  simp only [lt_self_iff_false, if_false, Option.map_id']

/-- Equal inputs after blanking mean equal covered parts of inputs. -/
theorem agree_inputs {txin txin' : CTxIn} {vin' : List CTxIn} (hvin : vin[nIn]? = some txin)
    (hvin' : vin'[nIn']? = some txin')
    (h : coveredInputs scriptCode nIn nHashType vin = coveredInputs scriptCode' nIn' nHashType vin') :
    scriptCode = scriptCode' ∧
    (¬AnyoneCanPay nHashType → vin.map CTxIn.prevout = vin'.map CTxIn.prevout) ∧
    (AnyoneCanPay nHashType → txin.prevout = txin'.prevout) ∧
    (IsAll nHashType → ¬AnyoneCanPay nHashType →
      vin.map CTxIn.nSequence = vin'.map CTxIn.nSequence) ∧
    (¬IsAll nHashType ∨ AnyoneCanPay nHashType → txin.nSequence = txin'.nSequence) := by
  by_cases hanyone : AnyoneCanPay nHashType
  · rw [coveredInputs_of_anyoneCanPay hanyone hvin, coveredInputs_of_anyoneCanPay hanyone hvin'] at h
    have hown := List.singleton_inj.mp h
    have hcode := congrArg CTxIn.scriptSig hown
    have hsequence := congrArg CTxIn.nSequence hown
    have hprevout := congrArg CTxIn.prevout hown
    simp only [blankedInput, if_true, true_or] at hcode hsequence
    exact ⟨hcode, fun hnot ↦ absurd hanyone hnot, fun _ ↦ hprevout,
      fun _ hnot ↦ absurd hanyone hnot, fun _ ↦ hsequence⟩
  · rw [coveredInputs, coveredInputs, if_neg hanyone, if_neg hanyone] at h
    have hprevouts := congrArg (List.map CTxIn.prevout) h
    rw [map_prevout_blankedInputs, map_prevout_blankedInputs] at hprevouts
    have hget : ∀ i, vin[i]?.map (blankedInput scriptCode nIn nHashType i) =
        vin'[i]?.map (blankedInput scriptCode' nIn' nHashType i) := by
      intro i
      have hi := congrArg (·[i]?) h
      simpa only [blankedInputs, List.getElem?_mapIdx] using hi
    -- the own index of either call has a blanked input in the other call
    obtain ⟨other', hother', hown⟩ := Option.map_eq_some_iff.mp
      ((hget nIn).symm.trans (congrArg (Option.map _) hvin))
    obtain ⟨other, hother, hown'⟩ := Option.map_eq_some_iff.mp
      ((hget nIn').trans (congrArg (Option.map _) hvin'))
    have hcode := congrArg CTxIn.scriptSig hown
    have hcode' := congrArg CTxIn.scriptSig hown'
    have hsequence := congrArg CTxIn.nSequence hown
    have hsequence' := congrArg CTxIn.nSequence hown'
    simp only [blankedInput, if_true, true_or] at hcode hcode' hsequence hsequence'
    refine ⟨?_, fun _ ↦ hprevouts, fun hpay ↦ absurd hpay hanyone, ?_, ?_⟩
    · by_cases hsame : nIn = nIn'
      · rw [if_pos hsame] at hcode
        exact hcode.symm
      · rw [if_neg hsame] at hcode
        rw [if_neg (Ne.symm hsame)] at hcode'
        rw [← hcode, hcode']
    · intro hall _
      have hsequences := congrArg (List.map CTxIn.nSequence) h
      rwa [map_nSequence_blankedInputs hall, map_nSequence_blankedInputs hall] at hsequences
    · intro hopen
      have hall : ¬IsAll nHashType := hopen.resolve_right hanyone
      by_cases hsame : nIn = nIn'
      · subst hsame
        rw [hvin'] at hother'
        cases hother'
        rw [if_pos (.inl rfl)] at hsequence
        exact hsequence.symm
      · rw [if_neg (not_or.mpr ⟨hsame, hall⟩)] at hsequence
        rw [if_neg (not_or.mpr ⟨Ne.symm hsame, hall⟩)] at hsequence'
        rw [← hsequence, hsequence']

/-- Only what the type covers is left, so that equal data means equal covered parts. -/
theorem agree_of_signatureData (htx : TxTyped txTo) (htx' : TxTyped txTo')
    (hcode : scriptCode.length ≤ MAX_SIZE) (hcode' : scriptCode'.length ≤ MAX_SIZE)
    (hin : InRange txTo nIn nHashType) (hin' : InRange txTo' nIn' nHashType)
    (h : signatureData scriptCode txTo nIn nHashType = signatureData scriptCode' txTo' nIn' nHashType) :
    Agree nHashType scriptCode scriptCode' txTo txTo' nIn nIn' := by
  rw [signatureData, signatureData, blankedTx_eq hin, blankedTx_eq hin', Option.map_some,
    Option.map_some] at h
  have hbytes := List.append_cancel_right (Option.some.inj h)
  have hblanked := writeTx_injective
    (txTyped_covered htx ((length_findAndDelete_le _ _).trans hcode))
    (txTyped_covered htx' ((length_findAndDelete_le _ _).trans hcode')) hbytes
  obtain ⟨hversion, htime, hvin, hvout, hlock⟩ := CTransaction.mk.injEq .. ▸ hblanked
  have hown := List.getElem?_eq_getElem hin.vin
  have hown' := List.getElem?_eq_getElem hin'.vin
  obtain ⟨hscript, hprevouts, hprevout, hsequences, hsequence⟩ := agree_inputs hown hown' hvin
  refine ⟨hversion, htime, hlock, hscript, hprevouts, ?_, hsequences, ?_, ?_, ?_⟩
  · intro hanyone
    rw [hown, hown', Option.map_some, Option.map_some, hprevout hanyone]
  · intro hopen
    rw [hown, hown', Option.map_some, Option.map_some, hsequence hopen]
  · intro hall
    rwa [coveredOutputs, coveredOutputs, if_neg hall.1, if_neg hall.2, if_neg hall.1,
      if_neg hall.2] at hvout
  · intro hsingle
    have hnone := not_isNone_of_isSingle hsingle
    rw [coveredOutputs, coveredOutputs, if_neg hnone, if_pos hsingle, if_neg hnone,
      if_pos hsingle] at hvout
    have hlength := congrArg List.length hvout
    rw [length_blankOutputs (hin.vout hsingle), length_blankOutputs (hin'.vout hsingle)] at hlength
    have hindex : nIn = nIn' := Nat.succ.inj hlength
    subst hindex
    have hget := congrArg (·[nIn]?) hvout
    exact ⟨rfl, by simpa only [getElem?_blankOutputs] using hget⟩

/-- A wildcard payee and other inputs left open: a separator in the code and the outputs are not seen. -/
theorem agree_wildcard : Agree 0x82 [0x51] [0xab, 0x51] paymentTx { paymentTx with vout := [] } 0 0 := by
  have htyped : TxTyped { paymentTx with vout := [] } :=
    { txTyped_paymentTx with vout := ⟨fun _ h ↦ absurd h List.not_mem_nil, Nat.zero_le _⟩ }
  have hsingle : ¬IsSingle 0x82 := by decide
  exact agree_of_signatureData txTyped_paymentTx htyped (by decide) (by decide)
    ⟨by decide, fun h ↦ absurd h hsingle⟩ ⟨by decide, fun h ↦ absurd h hsingle⟩ (by decide)

end Electra.Script
