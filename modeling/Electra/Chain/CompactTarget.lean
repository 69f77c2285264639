import Electra.Chain.Transaction
import Mathlib.Data.Nat.Log
import Mathlib.Tactic.Positivity
import Mathlib.Tactic.Ring

/-!
# Compact targets

Targets are integers of arbitrary size.  The compact form keeps the number of base-256 digits and
the leading three of them; the top bit of the leading digit is the sign.  Decoding the compact form
of a non-negative number rounds it down (`roundCompact`), monotonically and once and for all.
-/

namespace Electra.Chain

open Foundations.Outcome

/-- `CBigNum::SetCompact`: a digit count and three digits, read as a signed big-endian number. -/
def setCompact (nCompact : ℕ) : ℤ :=
  let nSize := nCompact / 2 ^ 24
  let nWord := nCompact % 2 ^ 24
  let nMagnitude : ℕ := if nSize ≤ 3 then nWord / 256 ^ (3 - nSize) else nWord * 256 ^ (nSize - 3)
  if 1 ≤ nSize ∧ 2 ^ 23 ≤ nWord then -((nMagnitude : ℤ) - 2 ^ (8 * nSize - 1)) else nMagnitude

/-- Digits of the signed big-endian form: one more when the top bit of the leading one is set. -/
def mpiSize (n : ℕ) : ℕ := if n = 0 then 0 else (Nat.log2 n + 1) / 8 + 1

def leadingDigits (n : ℕ) : ℕ :=
  if mpiSize n ≤ 3 then n * 256 ^ (3 - mpiSize n) else n / 256 ^ (mpiSize n - 3)

/-- `CBigNum::GetCompact`. -/
def getCompact (bn : ℤ) : ℕ :=
  mpiSize bn.natAbs % 256 * 2 ^ 24 + leadingDigits bn.natAbs + if bn < 0 then 2 ^ 23 else 0

def bnProofOfWorkLimit (fTestNet : Bool) : ℤ :=
  if fTestNet then (2 ^ 256 - 1) / 2 ^ 16 else (2 ^ 256 - 1) / 2 ^ 20

def bnProofOfStakeLimit : ℤ := (2 ^ 256 - 1) / 2 ^ 20

/-- Trust of one block: the expected number of hashes for its target. -/
def getBlockTrust (nBits : ℕ) : Uint256 :=
  let bnTarget := setCompact nBits
  if bnTarget ≤ 0 then 0 else BitVec.ofInt 256 (2 ^ 256 / (bnTarget + 1))

def checkProofOfWork (fTestNet : Bool) (hash : Uint256) (nBits : ℕ) : Except Reject Unit := do
  let bnTarget := setCompact nBits
  rejectIf (bnTarget ≤ 0 ∨ bnTarget > bnProofOfWorkLimit fTestNet)
    (error "CheckProofOfWork() : nBits below minimum work")
  rejectIf (hash > BitVec.ofInt 256 bnTarget)
    (error "CheckProofOfWork() : hash doesn't match nBits")

def nSecondsPerDay : ℤ := 24 * 60 * 60

/-- The loop of `ComputeMaxBits`: double once for each day begun, up to the limit.  The fuel bounds
the number of rounds; every round takes a day off a positive `nTime`. -/
def doublePerDay (bnTargetLimit : ℤ) : ℕ → ℤ → ℤ → ℤ
  | 0, bnResult, _ => bnResult
  | nRounds + 1, bnResult, nTime =>
      if 0 < nTime ∧ bnResult < bnTargetLimit then
        doublePerDay bnTargetLimit nRounds (bnResult * 2) (nTime - nSecondsPerDay)
      else bnResult

def computeMaxBits (bnTargetLimit : ℤ) (nBase : ℕ) (nTime : ℤ) : ℕ :=
  let bnResult := setCompact nBase * 2
  let bnResult := doublePerDay bnTargetLimit nTime.toNat bnResult nTime
  getCompact (if bnResult > bnTargetLimit then bnTargetLimit else bnResult)

def computeMinWork (fTestNet : Bool) (nBase : ℕ) (nTime : ℤ) : ℕ :=
  computeMaxBits (bnProofOfWorkLimit fTestNet) nBase nTime

def computeMinStake (nBase : ℕ) (nTime : ℤ) : ℕ := computeMaxBits bnProofOfStakeLimit nBase nTime

theorem lt_two_pow_mpiSize (n : ℕ) : n < 2 ^ (8 * mpiSize n - 1) ∨ n = 0 := by
  by_cases hn : n = 0
  · exact .inr hn
  · left
    have hlog : n < 2 ^ (Nat.log2 n + 1) := Nat.lt_log2_self
    refine lt_of_lt_of_le hlog (Nat.pow_le_pow_right (by norm_num) ?_)
    simp only [mpiSize, if_neg hn]
    omega

theorem two_pow_le_of_mpiSize {n : ℕ} (hn : n ≠ 0) (hsize : 2 ≤ mpiSize n) :
    2 ^ (8 * mpiSize n - 9) ≤ n := by
  have hlog : 2 ^ Nat.log2 n ≤ n := Nat.log2_self_le hn
  refine le_trans (Nat.pow_le_pow_right (by norm_num) ?_) hlog
  simp only [mpiSize, if_neg hn] at hsize ⊢
  omega

theorem mpiSize_mono {m n : ℕ} (h : m ≤ n) : mpiSize m ≤ mpiSize n := by
  by_cases hm : m = 0
  · simp [mpiSize, hm]
  · have hn : n ≠ 0 := by omega
    have hlog : Nat.log2 m ≤ Nat.log2 n := by
      rw [Nat.le_log2 hn]
      exact le_trans (Nat.log2_self_le hm) h
    simp only [mpiSize, if_neg hm, if_neg hn]
    omega

/-- What is left of a number after keeping its leading three digits. -/
def roundDown (n : ℕ) : ℕ := n / 256 ^ (mpiSize n - 3) * 256 ^ (mpiSize n - 3)

theorem roundDown_le (n : ℕ) : roundDown n ≤ n := Nat.div_mul_le_self _ _

theorem roundDown_of_short {n : ℕ} (h : mpiSize n ≤ 3) : roundDown n = n := by
  simp [roundDown, Nat.sub_eq_zero_of_le h]

/-- Rounding keeps the least number of a given digit count, which is a power of two. -/
theorem two_pow_le_roundDown {n : ℕ} (h : 3 < mpiSize n) :
    2 ^ (8 * mpiSize n - 9) ≤ roundDown n := by
  have hn : n ≠ 0 := by
    intro hn
    simp [hn, mpiSize] at h
  have hpow : 2 ^ (8 * mpiSize n - 9) = 2 ^ 15 * 256 ^ (mpiSize n - 3) := by
    rw [show (256 : ℕ) = 2 ^ 8 from rfl, ← pow_mul, ← pow_add]
    congr 1
    omega
  have hge : 2 ^ 15 ≤ n / 256 ^ (mpiSize n - 3) := by
    rw [Nat.le_div_iff_mul_le (by positivity), ← hpow]
    exact two_pow_le_of_mpiSize hn (by omega)
  rw [hpow]
  exact Nat.mul_le_mul_right _ hge

theorem roundDown_mono {m n : ℕ} (h : m ≤ n) : roundDown m ≤ roundDown n := by
  rcases Nat.lt_or_ge (mpiSize m) (mpiSize n) with hsize | hsize
  · rcases Nat.lt_or_ge 3 (mpiSize n) with hbig | hsmall
    · have hm : m ≤ 2 ^ (8 * mpiSize n - 9) := by
        rcases lt_two_pow_mpiSize m with hm | hm
        · exact le_trans hm.le (Nat.pow_le_pow_right (by norm_num) (by omega))
        · simp [hm]
      calc roundDown m ≤ m := roundDown_le m
        _ ≤ 2 ^ (8 * mpiSize n - 9) := hm
        _ ≤ roundDown n := two_pow_le_roundDown hbig
    · rw [roundDown_of_short hsmall]
      exact le_trans (roundDown_le m) h
  · have heq : mpiSize m = mpiSize n := le_antisymm (mpiSize_mono h) hsize
    unfold roundDown
    rw [heq]
    exact Nat.mul_le_mul_right _ (Nat.div_le_div_right h)

theorem mpiSize_roundDown (n : ℕ) : mpiSize (roundDown n) = mpiSize n := by
  rcases Nat.lt_or_ge 3 (mpiSize n) with hbig | hsmall
  · refine le_antisymm (mpiSize_mono (roundDown_le n)) ?_
    have hge : 2 ^ (8 * mpiSize n - 9) ≤ roundDown n := two_pow_le_roundDown hbig
    have hne : roundDown n ≠ 0 := by
      have hpos : 0 < 2 ^ (8 * mpiSize n - 9) := by positivity
      omega
    have hlog : 8 * mpiSize n - 9 ≤ Nat.log2 (roundDown n) := (Nat.le_log2 hne).mpr hge
    have hsize : mpiSize (roundDown n) = (Nat.log2 (roundDown n) + 1) / 8 + 1 := if_neg hne
    omega
  · rw [roundDown_of_short hsmall]

theorem leadingDigits_lt (n : ℕ) : leadingDigits n < 2 ^ 23 := by
  by_cases hzero : n = 0
  · simp [hzero, leadingDigits]
  · have hn : n < 2 ^ (8 * mpiSize n - 1) := (lt_two_pow_mpiSize n).resolve_right hzero
    have hsize : 1 ≤ mpiSize n := by simp [mpiSize, hzero]
    have hbase : (256 : ℕ) = 2 ^ 8 := rfl
    unfold leadingDigits
    split
    · next hsmall =>
      calc n * 256 ^ (3 - mpiSize n) < 2 ^ (8 * mpiSize n - 1) * 256 ^ (3 - mpiSize n) :=
            Nat.mul_lt_mul_of_pos_right hn (by positivity)
        _ = 2 ^ 23 := by
            rw [hbase, ← pow_mul, ← pow_add]
            congr 1
            omega
    · next hbig =>
      rw [Nat.div_lt_iff_lt_mul (by positivity)]
      refine lt_of_lt_of_eq hn ?_
      rw [hbase, ← pow_mul, ← pow_add]
      congr 1
      omega

/-- Decoding the compact form of a number of at most 255 digits rounds it down. -/
theorem setCompact_getCompact {n : ℕ} (h : mpiSize n < 256) :
    setCompact (getCompact (n : ℤ)) = (roundDown n : ℤ) := by
  have hlt : leadingDigits n < 2 ^ 24 := lt_trans (leadingDigits_lt n) (by decide)
  have hcompact : getCompact (n : ℤ) = mpiSize n * 2 ^ 24 + leadingDigits n := by
    simp [getCompact, Nat.mod_eq_of_lt h]
  have hnSize : getCompact (n : ℤ) / 2 ^ 24 = mpiSize n := by
    rw [hcompact, Nat.add_comm, Nat.add_mul_div_right _ _ (by norm_num), Nat.div_eq_of_lt hlt,
      Nat.zero_add]
  have hnWord : getCompact (n : ℤ) % 2 ^ 24 = leadingDigits n := by
    rw [hcompact, Nat.add_comm, Nat.add_mul_mod_self_right, Nat.mod_eq_of_lt hlt]
  have hsign : ¬ (1 ≤ mpiSize n ∧ 2 ^ 23 ≤ leadingDigits n) := fun hneg ↦
    absurd hneg.2 (not_le.mpr (leadingDigits_lt n))
  simp only [setCompact, hnSize, hnWord, if_neg hsign]
  unfold leadingDigits
  split
  · next hsmall => rw [Nat.mul_div_cancel _ (by positivity), roundDown_of_short hsmall]
  · rfl

theorem mpiSize_lt_of_lt {n : ℕ} (h : n < 2 ^ 256) : mpiSize n < 256 := by
  by_cases hn : n = 0
  · simp [mpiSize, hn]
  · have hlog : Nat.log2 n < 256 := (Nat.log2_lt hn).mpr h
    simp only [mpiSize, if_neg hn]
    omega

end Electra.Chain
