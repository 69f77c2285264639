import Electra.Chain.Wallet
import Electra.Foundations.MaskedSum

/-!
# Coin selection

`SelectCoinsMinConf` takes a coin of just the target, or all small coins if they give just the target,
or the smallest larger coin if the small ones are not enough.  Else it looks for a subset of the small
coins at random.
-/

namespace Electra.Wallet

open Chain Foundations.MaskedSum

/-- An output of a wallet transaction, by the pointer to the transaction. -/
structure COutput where
  tx : ℕ
  i : ℕ
  nDepth : ℤ
deriving DecidableEq

/-- `pair<const CWalletTx*, unsigned int>`. -/
abbrev CoinRef := ℕ × ℕ

def COutput.ref (output : COutput) : CoinRef := (output.tx, output.i)

/-- What the pointers of the wallet point to. -/
structure WalletView where
  wtx : ℕ → CWalletTx
  isFromMe : ℕ → Bool

def WalletView.nValue (view : WalletView) (ref : CoinRef) : ℤ :=
  (((view.wtx ref.1).vout[ref.2]?).map CTxOut.nValue).getD 0

/-- What a selection leaves open: the shuffle, the order of equal values, and the random bits of each
repetition of each search. -/
structure SelectionChoices where
  shuffle : List COutput → List COutput
  shuffle_perm : ∀ vCoins, (shuffle vCoins).Perm vCoins
  sort : List (ℤ × CoinRef) → List (ℤ × CoinRef)
  sort_perm : ∀ vValue, (sort vValue).Perm vValue
  sort_sorted : ∀ vValue, (sort vValue).Pairwise fun coin coin' ↦ coin'.1 ≤ coin.1
  rand : ℕ → ℕ → ℕ → Bool

structure SubsetSearch where
  vfIncluded : List Bool
  nTotal : ℤ
  fReachedTarget : Bool
  vfBest : List Bool
  nBest : ℤ

section Approximate

variable (vValue : List (ℤ × CoinRef)) (nTargetValue : ℤ)

/-- Include one coin for a moment, and for good unless the target is reached. -/
def includeCoin (s : SubsetSearch) (i : ℕ) : SubsetSearch :=
  let nValue := (vValue[i]?.map Prod.fst).getD 0
  let nTotal := s.nTotal + nValue
  let vfIncluded := s.vfIncluded.set i true
  if nTotal ≥ nTargetValue then
    { vfIncluded := vfIncluded.set i false
      nTotal := nTotal - nValue
      fReachedTarget := true
      vfBest := if nTotal < s.nBest then vfIncluded else s.vfBest
      nBest := if nTotal < s.nBest then nTotal else s.nBest }
  else { s with vfIncluded, nTotal }

/-- The first pass includes coins at random. -/
def firstPass (fRand : ℕ → Bool) (s : SubsetSearch) (i : ℕ) : SubsetSearch :=
  if fRand i then includeCoin vValue nTargetValue s i else s

/-- The second pass includes what the first one left out. -/
def secondPass (s : SubsetSearch) (i : ℕ) : SubsetSearch :=
  if !s.vfIncluded.getD i false then includeCoin vValue nTargetValue s i else s

/-- One repetition. -/
def searchSubset (fRand : ℕ → Bool) (best : List Bool × ℤ) : List Bool × ℤ :=
  let s : SubsetSearch := ⟨List.replicate vValue.length false, 0, false, best.1, best.2⟩
  let s := (List.range vValue.length).foldl (firstPass vValue nTargetValue fRand) s
  let s := if s.fReachedTarget then s
    else (List.range vValue.length).foldl (secondPass vValue nTargetValue) s
  (s.vfBest, s.nBest)

/-- `ApproximateBestSubset`: `vfBest` and `nBest`. -/
def approximateBestSubset (nTotalLower : ℤ) (iterations : ℕ) (rand : ℕ → ℕ → Bool) : List Bool × ℤ :=
  (List.range iterations).foldl (fun best nRep ↦
    if best.2 = nTargetValue then best else searchSubset vValue nTargetValue (rand nRep) best)
    (List.replicate vValue.length true, nTotalLower)

end Approximate

/-- The eligible coins before the one that is looked at: the small ones with their sum, and the smallest
larger one. -/
structure SplitCoins where
  vValue : List (ℤ × CoinRef)
  nTotalLower : ℤ
  coinLowestLarger : Option (ℤ × CoinRef)

def int64Max : ℤ := 2 ^ 63 - 1

/-- `setCoinsRet` and `nValueRet`. -/
structure SelectedCoins where
  setCoinsRet : Finset CoinRef
  nValueRet : ℤ

def SelectedCoins.none : SelectedCoins := ⟨∅, 0⟩

def SelectedCoins.add (selected : SelectedCoins) (coin : ℤ × CoinRef) : SelectedCoins :=
  ⟨insert coin.2 selected.setCoinsRet, selected.nValueRet + coin.1⟩

section Select

variable (view : WalletView) (choices : SelectionChoices) (nTargetValue : ℤ) (nSpendTime : ℕ)
  (nConfMine nConfTheirs : ℤ)

/-- Deep enough, and not later than the transaction that spends it. -/
def eligible (output : COutput) : Bool :=
  !(decide (output.nDepth < if view.isFromMe output.tx then nConfMine else nConfTheirs) ||
    decide ((view.wtx output.tx).nTime > nSpendTime))

/-- The loop over the coins; an error stands for the return with a coin of just the target. -/
def splitCoin (split : SplitCoins) (output : COutput) : Except (ℤ × CoinRef) SplitCoins :=
  if !eligible view nSpendTime nConfMine nConfTheirs output then .ok split
  else
    let n := view.nValue output.ref
    let coin := (n, output.ref)
    if n = nTargetValue then .error coin
    else if n < nTargetValue + CENT then
      .ok { split with vValue := split.vValue ++ [coin], nTotalLower := split.nTotalLower + n }
    else if n < (split.coinLowestLarger.map Prod.fst).getD int64Max then
      .ok { split with coinLowestLarger := some coin }
    else .ok split

/-- The two searches for a subset. -/
def bestSubset (vValue : List (ℤ × CoinRef)) (nTotalLower : ℤ) : List Bool × ℤ :=
  let best := approximateBestSubset vValue nTargetValue nTotalLower 1000 (choices.rand 0)
  if best.2 ≠ nTargetValue ∧ nTotalLower ≥ nTargetValue + CENT then
    approximateBestSubset vValue (nTargetValue + CENT) nTotalLower 1000 (choices.rand 1)
  else best

def selectCoinsMinConf (vCoins : List COutput) : Bool × SelectedCoins :=
  match (choices.shuffle vCoins).foldlM
      (splitCoin view nTargetValue nSpendTime nConfMine nConfTheirs) ⟨[], 0, none⟩ with
  | .error coin => (true, SelectedCoins.none.add coin)
  | .ok ⟨vValue, nTotalLower, coinLowestLarger⟩ =>
      if nTotalLower = nTargetValue then (true, vValue.foldl .add .none)
      else if nTotalLower < nTargetValue then
        match coinLowestLarger with
        | none => (false, .none)
        | some coin => (true, SelectedCoins.none.add coin)
      else
        -- Solve subset sum by stochastic approximation
        let vValue := choices.sort vValue
        let (vfBest, nBest) := bestSubset choices nTargetValue vValue nTotalLower
        match coinLowestLarger with
        | some coin =>
            -- the bigger coin if the search found nothing good, or the coin is closer
            if (nBest ≠ nTargetValue ∧ nBest < nTargetValue + CENT) ∨ coin.1 ≤ nBest then
              (true, SelectedCoins.none.add coin)
            else (true, (chosen vfBest vValue).foldl .add .none)
        | none => (true, (chosen vfBest vValue).foldl .add .none)

end Select

variable {vValue : List (ℤ × CoinRef)} {nTargetValue : ℤ} {s : SubsetSearch} {best : List Bool × ℤ}

/-- A subset of the coins with its value, which reaches the target. -/
structure IsSubset (vValue : List (ℤ × CoinRef)) (nTargetValue : ℤ) (best : List Bool × ℤ) : Prop where
  sum : maskedSum best.1 (vValue.map Prod.fst) = best.2
  reached : nTargetValue ≤ best.2

/-- During a search the total is that of the included coins, and the best subset has its value. -/
structure SubsetSearch.Inv (vValue : List (ℤ × CoinRef)) (nTargetValue : ℤ) (s : SubsetSearch) : Prop where
  length : s.vfIncluded.length = vValue.length
  total : maskedSum s.vfIncluded (vValue.map Prod.fst) = s.nTotal
  best : IsSubset vValue nTargetValue (s.vfBest, s.nBest)

theorem set_set_of_mark {mask : List Bool} {i : ℕ} (h : mask[i]? = some false) :
    (mask.set i true).set i false = mask := by
  obtain ⟨hi, hmark⟩ := List.getElem?_eq_some_iff.mp h
  rw [List.set_set, ← hmark, List.set_getElem_self]

theorem SubsetSearch.Inv.includeCoin (h : s.Inv vValue nTargetValue) {i : ℕ}
    (hmark : s.vfIncluded[i]? = some false) :
    (includeCoin vValue nTargetValue s i).Inv vValue nTargetValue ∧
      ∀ j, j ≠ i → (Wallet.includeCoin vValue nTargetValue s i).vfIncluded[j]? = s.vfIncluded[j]? := by
  obtain ⟨hi, -⟩ := List.getElem?_eq_some_iff.mp hmark
  rw [h.length] at hi
  have hvalue : (vValue.map Prod.fst)[i]? = some ((vValue[i]?.map Prod.fst).getD 0) := by
    rw [List.getElem?_map, List.getElem?_eq_getElem hi]
    rfl
  have htotal := maskedSum_set_true hmark hvalue
  rw [h.total] at htotal
  unfold Wallet.includeCoin
  simp only
  split
  · next hreached =>
    refine ⟨⟨?_, ?_, ?_⟩, fun j _ ↦ ?_⟩
    · rw [set_set_of_mark hmark, h.length]
    · rw [set_set_of_mark hmark, h.total, add_sub_cancel_right]
    · split
      · exact ⟨htotal, hreached⟩
      · exact h.best
    · rw [set_set_of_mark hmark]
  · refine ⟨⟨by rw [List.length_set, h.length], htotal, h.best⟩, fun j hj ↦ ?_⟩
    exact List.getElem?_set_ne (Ne.symm hj)

theorem SubsetSearch.Inv.firstPass (h : s.Inv vValue nTargetValue) (fRand : ℕ → Bool)
    (hmarks : ∀ j < vValue.length, s.vfIncluded[j]? = some false) {n : ℕ} (hn : n ≤ vValue.length) :
    ((List.range n).foldl (firstPass vValue nTargetValue fRand) s).Inv vValue nTargetValue ∧
      ∀ j, n ≤ j → j < vValue.length →
        ((List.range n).foldl (Wallet.firstPass vValue nTargetValue fRand) s).vfIncluded[j]? = some false := by
  induction n with
  | zero => exact ⟨h, fun j _ hj ↦ hmarks j hj⟩
  | succ n ih =>
    obtain ⟨hinv, hleft⟩ := ih (by omega)
    rw [List.range_succ, List.foldl_append, List.foldl_cons, List.foldl_nil]
    generalize (List.range n).foldl (Wallet.firstPass vValue nTargetValue fRand) s = s' at hinv hleft ⊢
    unfold Wallet.firstPass
    split
    · obtain ⟨hinv', hother⟩ := hinv.includeCoin (hleft n le_rfl (by omega))
      refine ⟨hinv', fun j hj hlt ↦ ?_⟩
      rw [hother j (by omega), hleft j (by omega) hlt]
    · exact ⟨hinv, fun j hj hlt ↦ hleft j (by omega) hlt⟩

theorem SubsetSearch.Inv.secondPass (h : s.Inv vValue nTargetValue) {n : ℕ} (hn : n ≤ vValue.length) :
    ((List.range n).foldl (secondPass vValue nTargetValue) s).Inv vValue nTargetValue := by
  induction n with
  | zero => exact h
  | succ n ih =>
    have hinv := ih (by omega)
    rw [List.range_succ, List.foldl_append, List.foldl_cons, List.foldl_nil]
    generalize (List.range n).foldl (Wallet.secondPass vValue nTargetValue) s = s' at hinv ⊢
    unfold Wallet.secondPass
    split
    · next hout =>
      have hlt : n < s'.vfIncluded.length := by
        rw [hinv.length]
        omega
      have hmark : s'.vfIncluded[n]? = some false := by
        rw [List.getElem?_eq_getElem hlt]
        rw [List.getD_eq_getElem?_getD, List.getElem?_eq_getElem hlt] at hout
        simpa using hout
      exact (hinv.includeCoin hmark).1
    · exact hinv

theorem IsSubset.searchSubset (h : IsSubset vValue nTargetValue best) (fRand : ℕ → Bool) :
    IsSubset vValue nTargetValue (searchSubset vValue nTargetValue fRand best) := by
  have hstart : SubsetSearch.Inv vValue nTargetValue
      ⟨List.replicate vValue.length false, 0, false, best.1, best.2⟩ := by
    refine ⟨List.length_replicate, ?_, h⟩
    have hnone := maskedSum_replicate_false (vValue.map Prod.fst)
    rwa [List.length_map] at hnone
  obtain ⟨hfirst, -⟩ := hstart.firstPass fRand (fun j hj ↦ List.getElem?_replicate_of_lt hj) le_rfl
  unfold Wallet.searchSubset
  simp only
  split
  · exact hfirst.best
  · exact (hfirst.secondPass le_rfl).best

/-- The subset that is found has the value that is returned, and reaches the target. -/
theorem isSubset_approximateBestSubset {nTotalLower : ℤ} (iterations : ℕ) (rand : ℕ → ℕ → Bool)
    (htotal : (vValue.map Prod.fst).sum = nTotalLower) (hreached : nTargetValue ≤ nTotalLower) :
    IsSubset vValue nTargetValue
      (approximateBestSubset vValue nTargetValue nTotalLower iterations rand) := by
  unfold approximateBestSubset
  induction iterations with
  | zero =>
    refine ⟨?_, hreached⟩
    have hall := maskedSum_replicate_true (vValue.map Prod.fst)
    rw [List.length_map, htotal] at hall
    exact hall
  | succ iterations ih =>
    rw [List.range_succ, List.foldl_append, List.foldl_cons, List.foldl_nil]
    split
    · exact ih
    · exact ih.searchSubset _

variable {view : WalletView} {choices : SelectionChoices} {nSpendTime : ℕ} {nConfMine nConfTheirs : ℤ}
  {vCoins : List COutput}

/-- The eligible coins with their values. -/
def eligibleCoins (view : WalletView) (nSpendTime : ℕ) (nConfMine nConfTheirs : ℤ) (vCoins : List COutput) :
    List (ℤ × CoinRef) :=
  (vCoins.filter (eligible view nSpendTime nConfMine nConfTheirs)).map fun output ↦
    (view.nValue output.ref, output.ref)

/-- The small coins, and one that is larger by at least `CENT` if there is any. -/
structure SplitCoins.Inv (nTargetValue : ℤ) (coins : List (ℤ × CoinRef)) (split : SplitCoins) : Prop where
  small : split.vValue.Sublist coins
  total : (split.vValue.map Prod.fst).sum = split.nTotalLower
  larger : ∀ coin, split.coinLowestLarger = some coin → coin ∈ coins ∧ nTargetValue + CENT ≤ coin.1
  all : split.coinLowestLarger = none → split.vValue = coins

/-- What the loop over the coins gives: a coin of just the target, or a split. -/
def SplitResult (nTargetValue : ℤ) (coins : List (ℤ × CoinRef)) :
    Except (ℤ × CoinRef) SplitCoins → Prop
  | .error coin => coin ∈ coins ∧ coin.1 = nTargetValue
  | .ok split => split.Inv nTargetValue coins

variable {coins : List (ℤ × CoinRef)}

theorem SplitCoins.Inv.splitCoin {split : SplitCoins} (h : split.Inv nTargetValue coins)
    {output : COutput} (heligible : eligible view nSpendTime nConfMine nConfTheirs output = true)
    (hrange : view.nValue output.ref < int64Max) :
    SplitResult nTargetValue (coins ++ [(view.nValue output.ref, output.ref)])
      (splitCoin view nTargetValue nSpendTime nConfMine nConfTheirs split output) := by
  unfold Wallet.splitCoin
  simp only [heligible, Bool.not_true, Bool.false_eq_true, if_false]
  split
  · next hexact => exact ⟨List.mem_append_right _ List.mem_cons_self, hexact⟩
  · split
    · refine ⟨h.small.append_right _, ?_, fun coin hcoin ↦ ?_, fun hnone ↦ ?_⟩
      · rw [List.map_append, List.sum_append, h.total]
        simp
      · obtain ⟨hmem, hlarge⟩ := h.larger coin hcoin
        exact ⟨List.mem_append_left _ hmem, hlarge⟩
      · rw [h.all hnone]
    · next hlarge =>
      split
      · refine ⟨h.small.trans (List.sublist_append_left _ _), h.total, fun coin hcoin ↦ ?_, fun hnone ↦ ?_⟩
        · obtain rfl := Option.some.inj hcoin
          exact ⟨List.mem_append_right _ List.mem_cons_self, by omega⟩
        · cases hnone
      · next hlower =>
        refine ⟨h.small.trans (List.sublist_append_left _ _), h.total, fun coin hcoin ↦ ?_, fun hnone ↦ ?_⟩
        · obtain ⟨hmem, hle⟩ := h.larger coin hcoin
          exact ⟨List.mem_append_left _ hmem, hle⟩
        · -- the first larger coin is always taken
          rw [hnone] at hlower
          exact absurd hrange hlower

theorem splitResult_loop (nTargetValue : ℤ) (nSpendTime : ℕ) (nConfMine nConfTheirs : ℤ)
    (hrange : ∀ output ∈ vCoins, view.nValue output.ref < int64Max) :
    SplitResult nTargetValue (eligibleCoins view nSpendTime nConfMine nConfTheirs vCoins)
      (vCoins.foldlM (splitCoin view nTargetValue nSpendTime nConfMine nConfTheirs) ⟨[], 0, none⟩) := by
  induction vCoins using List.reverseRecOn with
  | nil =>
    refine ⟨List.Sublist.refl _, rfl, fun coin hcoin ↦ ?_, fun _ ↦ rfl⟩
    cases hcoin
  | append_singleton vCoins output ih =>
    have hold := ih fun output ho ↦ hrange output (List.mem_append_left _ ho)
    rw [List.foldlM_append]
    cases hrun : vCoins.foldlM (splitCoin view nTargetValue nSpendTime nConfMine nConfTheirs)
        ⟨[], 0, none⟩ with
    | error coin =>
      rw [hrun] at hold
      refine ⟨?_, hold.2⟩
      rw [eligibleCoins, List.filter_append, List.map_append]
      exact List.mem_append_left _ hold.1
    | ok split =>
      rw [hrun] at hold
      show SplitResult _ _ ([output].foldlM _ split)
      rw [List.foldlM_cons]
      simp only [List.foldlM_nil, bind_pure]
      rw [eligibleCoins, List.filter_append, List.map_append]
      by_cases heligible : eligible view nSpendTime nConfMine nConfTheirs output = true
      · rw [List.filter_cons_of_pos heligible, List.filter_nil, List.map_singleton]
        exact hold.splitCoin heligible (hrange output (by simp))
      · rw [List.filter_cons_of_neg heligible, List.filter_nil, List.map_nil, List.append_nil]
        simp only [splitCoin, heligible, Bool.not_false, if_true]
        exact hold

/-- A selection of eligible coins: its value is the sum of theirs, and reaches the target. -/
structure Selects (view : WalletView) (nTargetValue : ℤ) (coins : List (ℤ × CoinRef))
    (selected : SelectedCoins) : Prop where
  mem : ∀ ref ∈ selected.setCoinsRet, ref ∈ coins.map Prod.snd
  sum : ∑ ref ∈ selected.setCoinsRet, view.nValue ref = selected.nValueRet
  reached : nTargetValue ≤ selected.nValueRet

theorem foldl_add (coins : List (ℤ × CoinRef)) :
    coins.foldl SelectedCoins.add .none = ⟨(coins.map Prod.snd).toFinset, (coins.map Prod.fst).sum⟩ := by
  induction coins using List.reverseRecOn with
  | nil => rfl
  | append_singleton coins coin ih =>
    rw [List.foldl_append, ih, List.foldl_cons, List.foldl_nil, SelectedCoins.add]
    rw [List.map_append, List.map_append, List.toFinset_append, List.sum_append, Finset.union_comm]
    simp

/-- Coins that are taken without repetition. -/
theorem selects_foldl_add {chosenCoins : List (ℤ × CoinRef)} (hnodup : (coins.map Prod.snd).Nodup)
    (hvalue : ∀ coin ∈ coins, coin.1 = view.nValue coin.2) (hsub : chosenCoins.Subperm coins)
    (hreached : nTargetValue ≤ (chosenCoins.map Prod.fst).sum) :
    Selects view nTargetValue coins (chosenCoins.foldl SelectedCoins.add .none) := by
  rw [foldl_add]
  refine ⟨fun ref href ↦ ?_, ?_, hreached⟩
  · rw [List.mem_toFinset] at href
    exact List.map_subset Prod.snd hsub.subset href
  · have hnodup' : (chosenCoins.map Prod.snd).Nodup := by
      obtain ⟨taken, hperm, hsublist⟩ := hsub
      exact (hperm.map Prod.snd).nodup_iff.mp ((hsublist.map Prod.snd).nodup hnodup)
    calc ∑ ref ∈ (chosenCoins.map Prod.snd).toFinset, view.nValue ref
        = ((chosenCoins.map Prod.snd).map view.nValue).sum := List.sum_toFinset _ hnodup'
      _ = (chosenCoins.map fun coin ↦ view.nValue coin.2).sum := by rw [List.map_map]; rfl
      _ = (chosenCoins.map Prod.fst).sum := by
        congr 1
        apply List.map_congr_left
        intro coin hcoin
        exact (hvalue coin (hsub.subset hcoin)).symm

theorem selects_single {coin : ℤ × CoinRef} (hnodup : (coins.map Prod.snd).Nodup)
    (hvalue : ∀ coin ∈ coins, coin.1 = view.nValue coin.2) (hmem : coin ∈ coins)
    (hreached : nTargetValue ≤ coin.1) :
    Selects view nTargetValue coins (SelectedCoins.none.add coin) := by
  have hsub : [coin].Subperm coins := (List.singleton_sublist.mpr hmem).subperm
  apply selects_foldl_add hnodup hvalue hsub
  simpa using hreached

/-- The better of the two searches. -/
theorem isSubset_bestSubset (choices : SelectionChoices) {nTotalLower : ℤ} (htotal : (vValue.map Prod.fst).sum = nTotalLower)
    (hreached : nTargetValue ≤ nTotalLower) :
    IsSubset vValue nTargetValue (bestSubset choices nTargetValue vValue nTotalLower) := by
  have hcent : (0 : ℤ) ≤ CENT := by decide
  unfold bestSubset
  simp only
  split
  · next hsecond =>
    have hlarge := isSubset_approximateBestSubset 1000 (choices.rand 1) htotal hsecond.2
    exact ⟨hlarge.sum, (le_add_of_nonneg_right hcent).trans hlarge.reached⟩
  · exact isSubset_approximateBestSubset 1000 (choices.rand 0) htotal hreached

theorem selects_chosen {mask : List Bool} {nBest : ℤ} (hnodup : (coins.map Prod.snd).Nodup)
    (hvalue : ∀ coin ∈ coins, coin.1 = view.nValue coin.2) (hsub : vValue.Subperm coins)
    (hbest : IsSubset vValue nTargetValue (mask, nBest)) :
    Selects view nTargetValue coins ((chosen mask vValue).foldl SelectedCoins.add .none) := by
  apply selects_foldl_add hnodup hvalue (chosen_sublist.subperm.trans hsub)
  rw [← maskedSum_map, hbest.sum]
  exact hbest.reached

theorem eligibleCoins_nodup (view : WalletView) (nSpendTime : ℕ) (nConfMine nConfTheirs : ℤ)
    (hnodup : (vCoins.map COutput.ref).Nodup) :
    ((eligibleCoins view nSpendTime nConfMine nConfTheirs vCoins).map Prod.snd).Nodup := by
  have hrefs : (eligibleCoins view nSpendTime nConfMine nConfTheirs vCoins).map Prod.snd =
      (vCoins.filter (eligible view nSpendTime nConfMine nConfTheirs)).map COutput.ref := by
    rw [eligibleCoins, List.map_map]
    rfl
  rw [hrefs]
  exact (List.filter_sublist.map COutput.ref).nodup hnodup

theorem fst_of_mem_eligibleCoins (view : WalletView) (nSpendTime : ℕ) (nConfMine nConfTheirs : ℤ)
    (vCoins : List COutput) :
    ∀ coin ∈ eligibleCoins view nSpendTime nConfMine nConfTheirs vCoins, coin.1 = view.nValue coin.2 := by
  intro coin hcoin
  obtain ⟨output, -, rfl⟩ := List.mem_map.mp hcoin
  rfl

/-- What `SelectCoinsMinConf` gives, if the coins are all different. -/
theorem selectCoinsMinConf_cases (choices : SelectionChoices) (nTargetValue : ℤ) (nSpendTime : ℕ)
    (nConfMine nConfTheirs : ℤ) (hnodup : (vCoins.map COutput.ref).Nodup)
    (hrange : ∀ output ∈ vCoins, view.nValue output.ref < int64Max) :
    ∃ fOk selected, selectCoinsMinConf view choices nTargetValue nSpendTime nConfMine nConfTheirs vCoins =
        (fOk, selected) ∧
      (fOk = true → Selects view nTargetValue
        (eligibleCoins view nSpendTime nConfMine nConfTheirs (choices.shuffle vCoins)) selected) ∧
      (fOk = false → ((eligibleCoins view nSpendTime nConfMine nConfTheirs
        (choices.shuffle vCoins)).map Prod.fst).sum < nTargetValue) := by
  have hperm := choices.shuffle_perm vCoins
  have hnodup' := eligibleCoins_nodup view nSpendTime nConfMine nConfTheirs
    ((hperm.map COutput.ref).nodup_iff.mpr hnodup)
  have hvalue := fst_of_mem_eligibleCoins view nSpendTime nConfMine nConfTheirs (choices.shuffle vCoins)
  have hsplit := splitResult_loop nTargetValue nSpendTime nConfMine nConfTheirs
    fun output ho ↦ hrange output (hperm.subset ho)
  have hcent : (0 : ℤ) ≤ CENT := by decide
  unfold selectCoinsMinConf
  generalize eligibleCoins view nSpendTime nConfMine nConfTheirs (choices.shuffle vCoins) = coins
    at hnodup' hvalue hsplit ⊢
  -- every branch that selects ends in one of these
  have htrue : ∀ {selected}, Selects view nTargetValue coins selected → ∃ fOk selected',
      (true, selected) = (fOk, selected') ∧ (fOk = true → Selects view nTargetValue coins selected') ∧
        (fOk = false → (coins.map Prod.fst).sum < nTargetValue) := fun h ↦
    ⟨true, _, rfl, fun _ ↦ h, fun hfalse ↦ absurd hfalse.symm Bool.false_ne_true⟩
  cases hrun : (choices.shuffle vCoins).foldlM
      (splitCoin view nTargetValue nSpendTime nConfMine nConfTheirs) ⟨[], 0, none⟩ with
  | error coin =>
    rw [hrun] at hsplit
    exact htrue (selects_single hnodup' hvalue hsplit.1 hsplit.2.ge)
  | ok split =>
    obtain ⟨vValue, nTotalLower, coinLowestLarger⟩ := split
    rw [hrun] at hsplit
    obtain ⟨hsmall, htotal, hlarger, hall⟩ := hsplit
    simp only at hsmall htotal hlarger hall ⊢
    have hlargerSelects : ∀ coin, coinLowestLarger = some coin →
        Selects view nTargetValue coins (SelectedCoins.none.add coin) := by
      intro coin hcoin
      obtain ⟨hmem, hlarge⟩ := hlarger coin hcoin
      exact selects_single hnodup' hvalue hmem ((le_add_of_nonneg_right hcent).trans hlarge)
    split
    · next hexact => exact htrue (selects_foldl_add hnodup' hvalue hsmall.subperm (htotal.trans hexact).ge)
    · next hne =>
      split
      · next hless =>
        cases hlowest : coinLowestLarger with
        | none =>
          refine ⟨false, _, rfl, fun hok ↦ absurd hok Bool.false_ne_true, fun _ ↦ ?_⟩
          rw [← hall hlowest, htotal]
          exact hless
        | some coin => exact htrue (hlargerSelects coin hlowest)
      · next hnless =>
        have hsort := choices.sort_perm vValue
        have hbest := isSubset_bestSubset choices (((hsort.map Prod.fst).sum_eq).trans htotal)
          (not_lt.mp hnless)
        generalize bestSubset choices nTargetValue (choices.sort vValue) nTotalLower = best at hbest ⊢
        obtain ⟨vfBest, nBest⟩ := best
        have hsubset := selects_chosen hnodup' hvalue (hsort.subperm.trans hsmall.subperm) hbest
        cases hlowest : coinLowestLarger with
        | none => exact htrue hsubset
        | some coin =>
          simp only
          split
          · exact htrue (hlargerSelects coin hlowest)
          · exact htrue hsubset

/-- A selection takes different eligible coins whose values sum to the value that is returned, at least
the target; it fails only if the eligible coins together are less than the target.  The subset search
reaches every target that all its coins reach. -/
theorem selectCoinsMinConf_spec (view : WalletView) (choices : SelectionChoices) (nTargetValue : ℤ)
    (nSpendTime : ℕ) (nConfMine nConfTheirs : ℤ) (vCoins : List COutput)
    (hnodup : (vCoins.map COutput.ref).Nodup)
    (hrange : ∀ output ∈ vCoins, moneyRange (view.nValue output.ref) = true) :
    let result := selectCoinsMinConf view choices nTargetValue nSpendTime nConfMine nConfTheirs vCoins
    let coins := vCoins.filter (eligible view nSpendTime nConfMine nConfTheirs)
    (result.1 = true →
      (∀ ref ∈ result.2.setCoinsRet, ∃ output ∈ coins, output.ref = ref) ∧
      ∑ ref ∈ result.2.setCoinsRet, view.nValue ref = result.2.nValueRet ∧
      nTargetValue ≤ result.2.nValueRet) ∧
    (result.1 = false → (coins.map fun output ↦ view.nValue output.ref).sum < nTargetValue) ∧
    ∀ (vValue : List (ℤ × CoinRef)) (nTotalLower nTargetValue : ℤ) (iterations : ℕ) (rand : ℕ → ℕ → Bool),
      (vValue.map Prod.fst).sum = nTotalLower → nTargetValue ≤ nTotalLower →
        IsSubset vValue nTargetValue (approximateBestSubset vValue nTargetValue nTotalLower iterations rand) := by
  have hlimit : ∀ output ∈ vCoins, view.nValue output.ref < int64Max := by
    intro output ho
    have hle : view.nValue output.ref ≤ MAX_TX := by
      have hmoney := hrange output ho
      rw [moneyRange, Bool.and_eq_true, decide_eq_true_eq, decide_eq_true_eq] at hmoney
      exact hmoney.2
    exact hle.trans_lt (by decide)
  obtain ⟨fOk, selected, hrun, htrue, hfalse⟩ := selectCoinsMinConf_cases choices nTargetValue nSpendTime
    nConfMine nConfTheirs hnodup hlimit
  have hperm := (choices.shuffle_perm vCoins).filter (eligible view nSpendTime nConfMine nConfTheirs)
  refine ⟨fun hok ↦ ?_, fun hok ↦ ?_, fun _ _ _ iterations rand htotal hreached ↦
    isSubset_approximateBestSubset iterations rand htotal hreached⟩
  · rw [hrun] at hok ⊢
    obtain ⟨hmem, hsum, hreached⟩ := htrue hok
    refine ⟨fun ref href ↦ ?_, hsum, hreached⟩
    have href' := hmem ref href
    rw [eligibleCoins, List.map_map] at href'
    obtain ⟨output, ho, heq⟩ := List.mem_map.mp href'
    exact ⟨output, hperm.subset ho, heq⟩
  · rw [hrun] at hok
    have hsum := hfalse hok
    rw [eligibleCoins, List.map_map] at hsum
    rw [← (hperm.map fun output ↦ view.nValue output.ref).sum_eq]
    exact hsum

/-- Three coins, none of them shuffled, and the first included in every search. -/
def threeCoins : SelectionChoices where
  shuffle vCoins := vCoins
  shuffle_perm _ := .refl _
  sort vValue := vValue.mergeSort fun coin coin' ↦ decide (coin'.1 ≤ coin.1)
  sort_perm vValue := List.mergeSort_perm vValue _
  sort_sorted vValue := by
    apply (List.pairwise_mergeSort (fun a b c ↦ ?_) (fun a b ↦ ?_) vValue).imp of_decide_eq_true
    · simpa using fun hab hbc ↦ le_trans hbc hab
    · simpa using le_total b.1 a.1
  rand _ _ i := i == 0

def coinView : WalletView where
  wtx tx := {
    nVersion := 1, nTime := 0, vin := [], vout := [⟨(tx + 5) * CENT, []⟩], nLockTime := 0
    hashBlock := 0, vMerkleBranch := [], nIndex := -1, fFromMe := false, vfSpent := [] }
  isFromMe _ := false

theorem selectCoinsMinConf_threeCoins :
    let result := selectCoinsMinConf coinView threeCoins (11 * CENT) 0 1 6 [⟨0, 0, 6⟩, ⟨1, 0, 6⟩, ⟨2, 0, 6⟩]
    result.1 = true ∧ ∑ ref ∈ result.2.setCoinsRet, coinView.nValue ref = result.2.nValueRet ∧
      11 * CENT ≤ result.2.nValueRet := by
  have hok : (selectCoinsMinConf coinView threeCoins (11 * CENT) 0 1 6
      [⟨0, 0, 6⟩, ⟨1, 0, 6⟩, ⟨2, 0, 6⟩]).1 = true := by decide +kernel
  have hspec := selectCoinsMinConf_spec coinView threeCoins (11 * CENT) 0 1 6
    [⟨0, 0, 6⟩, ⟨1, 0, 6⟩, ⟨2, 0, 6⟩] (by decide) (by decide)
  exact ⟨hok, (hspec.1 hok).2⟩

end Electra.Wallet
