import Electra.Foundations.WindowMedian
import Electra.Ledger.IndexRun

/-!
# Retargeting

The median time past is the median of a window over the block times.  An accepted block is later than
the median of its parent, so the median never goes back along a branch.

The next target is in range whatever the index entries are, since it is clamped before it is rounded
down to a compact form, and rounding leaves something of a positive number.  The walk over the index
meets no null pointer.  Slower blocks never lead to a smaller target as long as the scaled target is not
zero, in which case the clamp puts the limit in its place.
-/

namespace Electra.Ledger

open Chain Foundations.Outcome Foundations.WindowMedian

section

variable {P : ChainParams} {disk : BlockFiles} {genesis : CBlockIndex}

/-- Block times, the tip first. -/
def blockTimes (pindex : PIndex) : List ℤ := pindex.map fun index ↦ (index.nTime : ℤ)

theorem getMedianTimePast_eq (pindex : PIndex) : pindex.getMedianTimePast =
    (median ((blockTimes pindex).take PIndex.nMedianTimeSpan)).getD 0 := by
  rw [blockTimes, ← List.map_take, median, ← length_sorted, ← List.getD_eq_getElem?_getD]
  rfl

theorem median_blockTimes {pindex : PIndex} (hne : pindex ≠ []) :
    median ((blockTimes pindex).take PIndex.nMedianTimeSpan) = some pindex.getMedianTimePast := by
  have htimes : (blockTimes pindex).take PIndex.nMedianTimeSpan ≠ [] := by
    cases pindex with
    | nil => exact absurd rfl hne
    | cons index pprev => exact List.cons_ne_nil _ _
  obtain ⟨m, hm⟩ := exists_median htimes
  rw [getMedianTimePast_eq, hm, Option.getD_some]

variable {index : CBlockIndex} {pprev : PIndex}

/-- A block later than the median of its parent has no earlier median. -/
theorem getMedianTimePast_cons (hne : pprev ≠ []) (hlater : pprev.getMedianTimePast < index.nTime) :
    pprev.getMedianTimePast ≤ PIndex.getMedianTimePast (index :: pprev) :=
  median_take_le (median_blockTimes hne) hlater.le (median_blockTimes (List.cons_ne_nil index pprev))

theorem Accepted.getMedianTimePast_lt {block : CBlock} (h : Accepted P disk block index pprev) :
    pprev.getMedianTimePast < index.nTime := by
  obtain ⟨env, nBestHeight, hchecks⟩ := h.checks
  obtain ⟨hashProofOfStake, stakeModifier, hentry⟩ := h.entry
  simp only [acceptBlockChecks, bind_eq_ok, rejectIf_eq_ok, exists_const] at hchecks
  obtain ⟨-, -, -, htime, -⟩ := hchecks
  have hlater : pprev.getMedianTimePast < block.nTime := not_le.mp (not_or.mp htime).1
  rw [hentry]
  exact hlater

/-- Median time past never goes back from an accepted block to one above it. -/
theorem getMedianTimePast_le_of_suffix {chain below : Branch}
    (haccepted : AcceptedBranch P disk genesis chain) (hsuffix : below <:+ chain) :
    (pindexOf genesis below).getMedianTimePast ≤ (pindexOf genesis chain).getMedianTimePast := by
  induction chain with
  | nil => rw [List.suffix_nil.mp hsuffix]
  | cons entry chain ih =>
    rcases List.suffix_cons_iff.mp hsuffix with rfl | hbelow
    · exact le_rfl
    · calc (pindexOf genesis below).getMedianTimePast
          ≤ (pindexOf genesis chain).getMedianTimePast := ih haccepted.2 hbelow
        _ ≤ (pindexOf genesis (entry :: chain)).getMedianTimePast :=
          getMedianTimePast_cons (pindexOf_ne_nil genesis chain) haccepted.1.getMedianTimePast_lt

theorem Accepted.nTime_sub_le {block : CBlock} (h : Accepted P disk block index pprev) :
    pprev.nTime - 600 ≤ index.nTime := by
  obtain ⟨env, nBestHeight, hchecks⟩ := h.checks
  obtain ⟨hashProofOfStake, stakeModifier, hentry⟩ := h.entry
  simp only [acceptBlockChecks, bind_eq_ok, rejectIf_eq_ok, exists_const] at hchecks
  obtain ⟨-, -, -, htime, -⟩ := hchecks
  have hdrift : pprev.nTime ≤ futureDrift block.nTime := not_lt.mp (not_or.mp htime).2
  rw [futureDrift] at hdrift
  rw [hentry]
  change pprev.nTime - 600 ≤ (block.nTime : ℤ)
  omega

/-- The times of accepted blocks are later than the median of the times before them, and at most ten minutes
earlier than the previous one. -/
theorem steady_blockTimes {chain : Branch} (h : AcceptedBranch P disk genesis chain) :
    Steady PIndex.nMedianTimeSpan 600 (blockTimes (pindexOf genesis chain)) := by
  induction chain with
  | nil => trivial
  | cons entry chain ih =>
    obtain ⟨index, below, hpprev⟩ : ∃ index below, pindexOf genesis chain = index :: below :=
      List.exists_cons_of_ne_nil (pindexOf_ne_nil genesis chain)
    have hsteady := ih h.2
    have hmedian := median_blockTimes (pindexOf_ne_nil genesis chain)
    have hlater := h.1.getMedianTimePast_lt
    have hdrift := h.1.nTime_sub_le
    rw [hpprev] at hsteady hmedian hlater hdrift
    rw [pindexOf_cons, hpprev]
    refine ⟨fun m hm ↦ ?_, hdrift, hsteady⟩
    rw [← Option.some.inj (hmedian.symm.trans hm)]
    exact hlater

open RunExample in
/-- The last one of 13 accepted blocks above genesis. -/
theorem getMedianTimePast_runExample :
    (pindexOf RunExample.genesis (chainTo 12)).getMedianTimePast ≤
      (pindexOf RunExample.genesis (chainTo 13)).getMedianTimePast :=
  getMedianTimePast_le_of_suffix (acceptedBranch le_rfl) (List.suffix_cons _ _)

end

variable {P : ChainParams} {disk : BlockFiles} {genesis : CBlockIndex}

/-- `pindex->pprev`, unless the pointer is null. -/
def derefPrev : PIndex → Option PIndex
  | [] => none
  | _ :: pprev => some pprev

def checkedDiv (n d : ℤ) : Option ℤ := if d = 0 then none else some (n.tdiv d)

/-- `GetNextTargetRequired` as it runs, without a result if it dereferences a null pointer or divides
by zero. -/
def runNextTargetRequired (P : ChainParams) (pindexLast : PIndex) (fProofOfStake : Bool) : Option ℕ := do
  let bnTargetLimit := targetLimit P fProofOfStake
  if pindexLast = [] then return getCompact bnTargetLimit
  else if pindexLast.nHeight = 11816 then return getCompact bnTargetLimit
  else
    let pindexPrev := getLastBlockIndex fProofOfStake pindexLast
    let pprev ← derefPrev pindexPrev
    if pprev = [] then return getCompact bnTargetLimit
    else
      let pindexPrevPrev := getLastBlockIndex fProofOfStake pprev
      let pprevPrev ← derefPrev pindexPrevPrev
      if pprevPrev = [] then return getCompact bnTargetLimit
      else
        let indexPrev ← pindexPrev.head?
        let indexPrevPrev ← pindexPrevPrev.head?
        let nSpacing := spacingAt P (pindexLast.nHeight + 1)
        let nActualSpacing : ℤ := (indexPrev.nTime : ℤ) - indexPrevPrev.nTime
        let nActualSpacing := if nActualSpacing < 0 then nSpacing else nActualSpacing
        let nInterval ← checkedDiv nTargetTimespan nSpacing
        let bnNew ← checkedDiv (setCompact indexPrev.nBits *
          ((nInterval - 1) * nSpacing + nActualSpacing + nActualSpacing)) ((nInterval + 1) * nSpacing)
        return getCompact (if bnNew ≤ 0 ∨ bnNew > bnTargetLimit then bnTargetLimit else bnNew)

theorem spacingAt_pos (P : ChainParams) (nHeight : ℤ) : 0 < spacingAt P nHeight := by
  unfold spacingAt ChainParams.nTargetSpacing ChainParams.nTargetSpacingOld
  split_ifs <;> decide

/-- Several spacings fit into the timespan. -/
theorem interval_pos (P : ChainParams) (nHeight : ℤ) : 1 < nTargetTimespan / spacingAt P nHeight := by
  unfold spacingAt ChainParams.nTargetSpacing ChainParams.nTargetSpacingOld
  split_ifs <;> decide

theorem getLastBlockIndex_ne_nil (fProofOfStake : Bool) {pindex : PIndex} (hne : pindex ≠ []) :
    getLastBlockIndex fProofOfStake pindex ≠ [] := by
  induction pindex with
  | nil => exact absurd rfl hne
  | cons index pprev ih =>
    cases pprev with
    | nil => exact List.cons_ne_nil _ _
    | cons index' pprev =>
      rw [getLastBlockIndex]
      split
      · exact List.cons_ne_nil _ _
      · exact ih (List.cons_ne_nil _ _)
      · exact List.cons_ne_nil _ _

/-- No pointer on the way is null, and no divisor zero. -/
theorem runNextTargetRequired_eq (P : ChainParams) (pindexLast : PIndex) (fProofOfStake : Bool) :
    runNextTargetRequired P pindexLast fProofOfStake =
      some (getNextTargetRequired P pindexLast fProofOfStake) := by
  have hspacing := spacingAt_pos P (pindexLast.nHeight + 1)
  have hinterval := interval_pos P (pindexLast.nHeight + 1)
  have hquotient : nTargetTimespan.tdiv (spacingAt P (pindexLast.nHeight + 1)) =
      nTargetTimespan / spacingAt P (pindexLast.nHeight + 1) :=
    Int.tdiv_eq_ediv_of_nonneg (by decide)
  have hdivisor : (nTargetTimespan / spacingAt P (pindexLast.nHeight + 1) + 1) *
      spacingAt P (pindexLast.nHeight + 1) ≠ 0 :=
    (mul_pos (by omega) hspacing).ne'
  unfold runNextTargetRequired getNextTargetRequired
  by_cases hnull : pindexLast = []
  · simp only [if_pos hnull]
    rfl
  · by_cases hheight : pindexLast.nHeight = 11816
    · simp only [if_neg hnull, if_pos hheight]
      rfl
    · simp only [if_neg hnull, if_neg hheight]
      have hprev := getLastBlockIndex_ne_nil fProofOfStake hnull
      match getLastBlockIndex fProofOfStake pindexLast, hprev with
      | [_], _ => rfl
      | indexPrev :: second :: rest, _ =>
        have hprevPrev := getLastBlockIndex_ne_nil fProofOfStake (List.cons_ne_nil second rest)
        simp only [derefPrev, Option.bind_eq_bind, Option.bind_some, if_neg (List.cons_ne_nil second rest)]
        match getLastBlockIndex fProofOfStake (second :: rest), hprevPrev with
        | [_], _ => rfl
        | indexPrevPrev :: third :: rest', _ =>
          simp only [Option.bind_some, if_neg (List.cons_ne_nil third rest'), List.head?_cons, checkedDiv,
            if_neg hspacing.ne', hquotient, if_neg hdivisor]
          rfl

theorem roundDown_pos {n : ℕ} (h : 0 < n) : 0 < roundDown n := by
  rcases Nat.lt_or_ge 3 (mpiSize n) with hbig | hsmall
  · exact (Nat.two_pow_pos _).trans_le (two_pow_le_roundDown hbig)
  · rw [roundDown_of_short hsmall]
    exact h

variable (P) (fProofOfStake : Bool)

theorem targetLimit_pos : 0 < targetLimit P fProofOfStake := by
  unfold targetLimit bnProofOfStakeLimit bnProofOfWorkLimit
  split_ifs <;> decide

theorem targetLimit_lt : targetLimit P fProofOfStake < 2 ^ 256 := by
  unfold targetLimit bnProofOfStakeLimit bnProofOfWorkLimit
  split_ifs <;> decide

theorem targetLimit_le : targetLimit P fProofOfStake ≤ bnProofOfWorkLimit P.fTestNet := by
  unfold targetLimit bnProofOfStakeLimit bnProofOfWorkLimit
  split_ifs <;> decide

variable {P}

/-- Targets in a range that ends at a limit. -/
def TargetInRange (bnTargetLimit bnTarget : ℤ) : Prop := 0 < bnTarget ∧ bnTarget ≤ bnTargetLimit

variable {bnTargetLimit bn : ℤ}

/-- Rounding keeps the range, and the order of what is in it. -/
theorem setCompact_getCompact_of_targetInRange (hlimit : bnTargetLimit < 2 ^ 256)
    (h : TargetInRange bnTargetLimit bn) : setCompact (getCompact bn) = roundDown bn.toNat := by
  obtain ⟨hpos, hle⟩ := h
  have hcast : ((bn.toNat : ℕ) : ℤ) = bn := Int.toNat_of_nonneg hpos.le
  have hlt : bn.toNat < 2 ^ 256 := by omega
  conv_lhs => rw [← hcast]
  exact setCompact_getCompact (mpiSize_lt_of_lt hlt)

theorem targetInRange_setCompact_getCompact (hlimit : bnTargetLimit < 2 ^ 256)
    (h : TargetInRange bnTargetLimit bn) :
    TargetInRange bnTargetLimit (setCompact (getCompact bn)) := by
  have hround := roundDown_le bn.toNat
  obtain ⟨hpos, hle⟩ := h
  have hnonzero : 0 < roundDown bn.toNat := roundDown_pos (by omega)
  rw [setCompact_getCompact_of_targetInRange hlimit ⟨hpos, hle⟩]
  exact ⟨by omega, by omega⟩

/-- The target that is put in the place of one out of range. -/
def clamp (bnTargetLimit bnNew : ℤ) : ℤ := if bnNew ≤ 0 ∨ bnNew > bnTargetLimit then bnTargetLimit else bnNew

theorem targetInRange_clamp (hlimit : 0 < bnTargetLimit) (bnNew : ℤ) :
    TargetInRange bnTargetLimit (clamp bnTargetLimit bnNew) := by
  unfold clamp
  split
  · exact ⟨hlimit, le_rfl⟩
  · next hin =>
    rw [not_or, not_le, not_lt] at hin
    exact hin

/-- The next target is in range for any index. -/
theorem targetInRange_getNextTargetRequired (P : ChainParams) (pindexLast : PIndex) (fProofOfStake : Bool) :
    TargetInRange (targetLimit P fProofOfStake)
      (setCompact (getNextTargetRequired P pindexLast fProofOfStake)) := by
  have hpos := targetLimit_pos P fProofOfStake
  have hlimit : TargetInRange (targetLimit P fProofOfStake)
      (setCompact (getCompact (targetLimit P fProofOfStake))) :=
    targetInRange_setCompact_getCompact (targetLimit_lt P fProofOfStake) ⟨hpos, le_rfl⟩
  simp only [getNextTargetRequired]
  split_ifs
  · exact hlimit
  · exact hlimit
  · split
    · exact hlimit
    · exact hlimit
    · split
      · exact hlimit
      · exact hlimit
      · exact targetInRange_setCompact_getCompact (targetLimit_lt P fProofOfStake) (targetInRange_clamp hpos _)

/-- All accepted blocks have targets in range. -/
theorem targetInRange_of_accepted {block : CBlock} {index : CBlockIndex} {pprev : PIndex}
    (h : Accepted P disk block index pprev) :
    TargetInRange (targetLimit P block.isProofOfStake) (setCompact index.nBits) := by
  obtain ⟨env, nBestHeight, hchecks⟩ := h.checks
  obtain ⟨hashProofOfStake, stakeModifier, hentry⟩ := h.entry
  simp only [acceptBlockChecks, bind_eq_ok, rejectIf_eq_ok, exists_const] at hchecks
  obtain ⟨-, -, hbits, -⟩ := hchecks
  have hnBits : index.nBits = getNextTargetRequired P pprev block.isProofOfStake := by
    rw [hentry]
    exact not_not.mp hbits
  rw [hnBits]
  exact targetInRange_getNextTargetRequired P pprev block.isProofOfStake

/-- The previous target scaled by the actual spacing, before it is clamped. -/
def scaledTarget (nSpacing : ℤ) (nBits : ℕ) (nActualSpacing : ℤ) : ℤ :=
  let nInterval := nTargetTimespan / nSpacing
  (setCompact nBits * ((nInterval - 1) * nSpacing + nActualSpacing + nActualSpacing)).tdiv
    ((nInterval + 1) * nSpacing)

theorem retarget_eq (bnTargetLimit nSpacing : ℤ) (nBits : ℕ) (nActualSpacing : ℤ) :
    retarget bnTargetLimit nSpacing nBits nActualSpacing =
      getCompact (clamp bnTargetLimit (scaledTarget nSpacing nBits nActualSpacing)) := rfl

theorem clamp_mono {bn' : ℤ} (hpos : 0 < bn) (hle : bn ≤ bn') :
    clamp bnTargetLimit bn ≤ clamp bnTargetLimit bn' := by
  unfold clamp
  split_ifs <;> omega

theorem scaledTarget_mono {nHeight : ℤ} {nBits : ℕ} (hbits : 0 < setCompact nBits)
    {nActualSpacing nActualSpacing' : ℤ} (hspacing : 0 ≤ nActualSpacing)
    (hle : nActualSpacing ≤ nActualSpacing') :
    0 ≤ scaledTarget (spacingAt P nHeight) nBits nActualSpacing ∧
      scaledTarget (spacingAt P nHeight) nBits nActualSpacing ≤
        scaledTarget (spacingAt P nHeight) nBits nActualSpacing' := by
  have hpos := spacingAt_pos P nHeight
  have hinterval := interval_pos P nHeight
  have hdivisor : 0 < (nTargetTimespan / spacingAt P nHeight + 1) * spacingAt P nHeight :=
    mul_pos (by omega) hpos
  have hfixed : 0 ≤ (nTargetTimespan / spacingAt P nHeight - 1) * spacingAt P nHeight :=
    mul_nonneg (by omega) hpos.le
  have hfactor : 0 ≤ setCompact nBits * ((nTargetTimespan / spacingAt P nHeight - 1) *
      spacingAt P nHeight + nActualSpacing + nActualSpacing) :=
    mul_nonneg hbits.le (by omega)
  have hproduct : setCompact nBits * ((nTargetTimespan / spacingAt P nHeight - 1) *
      spacingAt P nHeight + nActualSpacing + nActualSpacing) ≤
        setCompact nBits * ((nTargetTimespan / spacingAt P nHeight - 1) *
          spacingAt P nHeight + nActualSpacing' + nActualSpacing') :=
    mul_le_mul_of_nonneg_left (by omega) hbits.le
  simp only [scaledTarget]
  rw [Int.tdiv_eq_ediv_of_nonneg hfactor, Int.tdiv_eq_ediv_of_nonneg (hfactor.trans hproduct)]
  exact ⟨Int.ediv_nonneg hfactor hdivisor.le, Int.ediv_le_ediv hdivisor hproduct⟩

/-- A larger spacing leads to a target that is at least as large, unless the smaller one leads to
none. -/
theorem retarget_mono {fProofOfStake : Bool} {nHeight : ℤ} {nBits : ℕ} (hbits : 0 < setCompact nBits)
    {nActualSpacing nActualSpacing' : ℤ} (hspacing : 0 ≤ nActualSpacing)
    (hle : nActualSpacing ≤ nActualSpacing')
    (hnonzero : scaledTarget (spacingAt P nHeight) nBits nActualSpacing ≠ 0) :
    setCompact (retarget (targetLimit P fProofOfStake) (spacingAt P nHeight) nBits nActualSpacing) ≤
      setCompact (retarget (targetLimit P fProofOfStake) (spacingAt P nHeight) nBits nActualSpacing') := by
  obtain ⟨hnonneg, hmono⟩ := @scaledTarget_mono P nHeight _ hbits _ _ hspacing hle
  have hclamp : clamp (targetLimit P fProofOfStake)
      (scaledTarget (spacingAt P nHeight) nBits nActualSpacing) ≤
        clamp (targetLimit P fProofOfStake) (scaledTarget (spacingAt P nHeight) nBits nActualSpacing') :=
    clamp_mono (lt_of_le_of_ne hnonneg hnonzero.symm) hmono
  have hlimit := targetLimit_lt P fProofOfStake
  have hpos := targetLimit_pos P fProofOfStake
  rw [retarget_eq, retarget_eq, setCompact_getCompact_of_targetInRange hlimit (targetInRange_clamp hpos _),
    setCompact_getCompact_of_targetInRange hlimit (targetInRange_clamp hpos _)]
  exact Int.ofNat_le.mpr (roundDown_mono (Int.toNat_le_toNat hclamp))

/-- The rule for the next target on top of an index. -/
structure RetargetDefined (P : ChainParams) (pindexLast : PIndex) (fProofOfStake : Bool) : Prop where
  runs : runNextTargetRequired P pindexLast fProofOfStake =
    some (getNextTargetRequired P pindexLast fProofOfStake)
  inRange : TargetInRange (targetLimit P fProofOfStake)
    (setCompact (getNextTargetRequired P pindexLast fProofOfStake))
  passes : TargetInRange (bnProofOfWorkLimit P.fTestNet)
    (setCompact (getNextTargetRequired P pindexLast fProofOfStake))

/-- The rule is defined on top of every accepted branch, all targets of the branch are positive, and
from any of them a larger spacing does not lead to a smaller target. -/
theorem retarget_of_accepted {chain : Branch} (haccepted : AcceptedBranch P disk genesis chain)
    (fProofOfStake : Bool) :
    RetargetDefined P (pindexOf genesis chain) fProofOfStake ∧
      ∀ entry ∈ chain, 0 < setCompact entry.2.nBits ∧
        ∀ nHeight nActualSpacing nActualSpacing' : ℤ, 0 ≤ nActualSpacing →
          nActualSpacing ≤ nActualSpacing' →
          scaledTarget (spacingAt P nHeight) entry.2.nBits nActualSpacing ≠ 0 →
          setCompact (retarget (targetLimit P fProofOfStake) (spacingAt P nHeight) entry.2.nBits
              nActualSpacing) ≤
            setCompact (retarget (targetLimit P fProofOfStake) (spacingAt P nHeight) entry.2.nBits
              nActualSpacing') := by
  have hrange := targetInRange_getNextTargetRequired P (pindexOf genesis chain) fProofOfStake
  refine ⟨⟨runNextTargetRequired_eq P _ fProofOfStake, hrange,
    ⟨hrange.1, hrange.2.trans (targetLimit_le P fProofOfStake)⟩⟩, ?_⟩
  intro entry hentry
  have hbits : 0 < setCompact entry.2.nBits := by
    induction chain with
    | nil => cases hentry
    | cons top chain ih =>
      obtain ⟨htop, hbelow⟩ := haccepted
      rcases List.mem_cons.mp hentry with rfl | hmem
      · exact (targetInRange_of_accepted htop).1
      · exact ih hbelow (targetInRange_getNextTargetRequired P _ fProofOfStake) hmem
  refine ⟨hbits, ?_⟩
  intro nHeight nActualSpacing nActualSpacing' hspacing hle hnonzero
  exact retarget_mono hbits hspacing hle hnonzero

open RunExample in
/-- On top of 13 accepted blocks above genesis. -/
theorem retarget_runExample :
    RetargetDefined testNet (pindexOf RunExample.genesis (chainTo 13)) false ∧
      0 < setCompact (entry 13).2.nBits := by
  have haccepted : AcceptedBranch testNet RunExample.disk RunExample.genesis (chainTo 13) :=
    acceptedBranch le_rfl
  obtain ⟨hdefined, htargets⟩ := retarget_of_accepted haccepted false
  exact ⟨hdefined, (htargets (entry 13) List.mem_cons_self).1⟩

end Electra.Ledger
