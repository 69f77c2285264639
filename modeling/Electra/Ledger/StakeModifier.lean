import Electra.Chain.Builders
import Electra.Chain.Kernel
import Electra.Foundations.StagedChoice

/-!
# The selection of blocks for a stake modifier

A new stake modifier collects one bit from each of the blocks that are chosen in up to 64 rounds.  The
rounds always find a block, and what they find depends on the candidates and on the last modifier only.
-/

namespace Electra.Ledger

open Chain Foundations.Outcome Foundations.StagedChoice

/-- The entries of the candidate blocks, latest first. -/
def candidateEntries (nStart : ℤ) (pindexPrev : PIndex) : List CBlockIndex :=
  pindexPrev.takeWhile fun index ↦ decide ((index.nTime : ℤ) ≥ nStart)

def entryTime (index : CBlockIndex) : ℤ := index.nTime

/-- What candidates are sorted by. -/
def timestamp (index : CBlockIndex) : ℤ × Uint256 := (index.nTime, index.phashBlock)

instance : Std.Total timestampLE where
  total a b := by
    unfold timestampLE
    rcases lt_trichotomy a.1 b.1 with h | h | h
    · exact .inl (.inl h)
    · rcases BitVec.le_total a.2 b.2 with h' | h'
      · exact .inl (.inr ⟨h, h'⟩)
      · exact .inr (.inr ⟨h.symm, h'⟩)
    · exact .inr (.inl h)

instance : IsTrans (ℤ × Uint256) timestampLE where
  trans a b c := by
    unfold timestampLE
    rintro (hab | ⟨hab, hab'⟩) (hbc | ⟨hbc, hbc'⟩)
    · exact .inl (hab.trans hbc)
    · exact .inl (hbc ▸ hab)
    · exact .inl (hab ▸ hbc)
    · exact .inr ⟨hab.trans hbc, BitVec.le_trans hab' hbc'⟩

theorem timestampLE_antisymm {a b : ℤ × Uint256} (hab : timestampLE a b) (hba : timestampLE b a) :
    a = b := by
  rcases hab with hab | ⟨hab, hab'⟩ <;> rcases hba with hba | ⟨hba, hba'⟩
  · omega
  · omega
  · omega
  · exact Prod.ext hab (BitVec.le_antisymm hab' hba')

/-- Candidates in the order of their timestamps, and of their hashes at the same time. -/
def entryLE : CBlockIndex → CBlockIndex → Prop := Order.Preimage timestamp timestampLE

instance : DecidableRel entryLE := inferInstanceAs (DecidableRel (Order.Preimage timestamp timestampLE))

instance : Std.Total entryLE where
  total a b := Std.Total.total (r := timestampLE) (timestamp a) (timestamp b)

instance : IsTrans CBlockIndex entryLE where
  trans a b c := IsTrans.trans (r := timestampLE) (timestamp a) (timestamp b) (timestamp c)

def sortedEntries (nStart : ℤ) (pindexPrev : PIndex) : List CBlockIndex :=
  ((candidateEntries nStart pindexPrev).reverse).insertionSort entryLE

theorem map_head?_selectionCandidates (nStart : ℤ) (pindexPrev : PIndex) :
    (selectionCandidates nStart pindexPrev).map List.head? =
      (candidateEntries nStart pindexPrev).map some := by
  induction pindexPrev with
  | nil => rfl
  | cons index pprev ih =>
    unfold candidateEntries at ih ⊢
    by_cases htime : (index.nTime : ℤ) ≥ nStart
    · simp [selectionCandidates, htime, ih]
    · simp [selectionCandidates, htime]

/-- The candidates of the code are sorted as their entries are. -/
theorem sortByTimestamp_eq (nStart : ℤ) (pindexPrev : PIndex) :
    sortByTimestamp (selectionCandidates nStart pindexPrev) =
      (sortedEntries nStart pindexPrev).map timestamp := by
  have hpairs : (selectionCandidates nStart pindexPrev).map (fun pindex ↦
      (pindex.nTime, pindex.getBlockHash)) = (candidateEntries nStart pindexPrev).map timestamp := by
    have hheads := congrArg (List.map fun index? : Option CBlockIndex ↦
      ((index?.map fun index ↦ (index.nTime : ℤ)).getD 0, (index?.map CBlockIndex.phashBlock).getD 0))
      (map_head?_selectionCandidates nStart pindexPrev)
    rw [List.map_map, List.map_map] at hheads
    exact hheads
  rw [sortByTimestamp, sortedEntries, hpairs, ← List.map_reverse]
  exact (List.map_insertionSort entryLE timestampLE timestamp _ fun _ _ _ _ ↦ Iff.rfl).symm

/-- Every block of a chain is in the index under its hash. -/
def IndexedChain (mapBlockIndex : Uint256 → Option PIndex) (tip : PIndex) : Prop :=
  ∀ pindex : PIndex, pindex <:+ tip → pindex ≠ [] → mapBlockIndex pindex.getBlockHash = some pindex

section Indexed

variable {mapBlockIndex : Uint256 → Option PIndex} {tip : PIndex} {nStart : ℤ}

variable {index : CBlockIndex}

/-- The entry of a block is found under its hash. -/
theorem IndexedChain.lookup (h : IndexedChain mapBlockIndex tip) (hmem : index ∈ tip) :
    ∃ pindex, mapBlockIndex index.phashBlock = some pindex ∧ pindex.head? = some index := by
  obtain ⟨above, below, rfl⟩ := List.append_of_mem hmem
  exact ⟨index :: below, h (index :: below) (List.suffix_append _ _) (List.cons_ne_nil _ _), rfl⟩

/-- Blocks of an indexed chain differ in their hashes. -/
theorem IndexedChain.hash_inj (h : IndexedChain mapBlockIndex tip) {index' : CBlockIndex}
    (hmem : index ∈ tip) (hmem' : index' ∈ tip) (heq : index.phashBlock = index'.phashBlock) :
    index = index' := by
  obtain ⟨pindex, hlookup, hhead⟩ := h.lookup hmem
  obtain ⟨pindex', hlookup', hhead'⟩ := h.lookup hmem'
  rw [heq, hlookup'] at hlookup
  obtain rfl := Option.some.inj hlookup
  exact Option.some.inj (hhead.symm.trans hhead')

theorem IndexedChain.nodup (h : IndexedChain mapBlockIndex tip) : tip.Nodup := by
  induction tip with
  | nil => exact List.nodup_nil
  | cons index pprev ih =>
    have hbelow : IndexedChain mapBlockIndex pprev := fun pindex hsuffix ↦
      h pindex (hsuffix.trans (List.suffix_cons index pprev))
    refine List.nodup_cons.mpr ⟨fun hmem ↦ ?_, ih hbelow⟩
    obtain ⟨above, below, rfl⟩ := List.append_of_mem hmem
    have hself := h (index :: (above ++ index :: below)) (List.suffix_refl _) (List.cons_ne_nil _ _)
    have hother := hbelow (index :: below) (List.suffix_append _ _) (List.cons_ne_nil _ _)
    have hsame : mapBlockIndex index.phashBlock = some (index :: below) := hother
    have hlength := congrArg List.length (Option.some.inj (hself.symm.trans hsame))
    simp only [List.length_cons, List.length_append] at hlength
    omega

theorem mem_sortedEntries :
    index ∈ sortedEntries nStart tip ↔ index ∈ candidateEntries nStart tip := by
  rw [sortedEntries, List.mem_insertionSort, List.mem_reverse]

theorem mem_of_mem_sortedEntries (h : index ∈ sortedEntries nStart tip) :
    index ∈ tip :=
  (List.takeWhile_sublist _).subset (mem_sortedEntries.mp h)

theorem IndexedChain.nodup_sortedEntries (h : IndexedChain mapBlockIndex tip) :
    (sortedEntries nStart tip).Nodup := by
  have hcandidates : (candidateEntries nStart tip).Nodup := h.nodup.sublist (List.takeWhile_sublist _)
  exact (List.perm_insertionSort entryLE _).nodup_iff.mpr (List.nodup_reverse.mpr hcandidates)

theorem pairwise_sortedEntries (nStart : ℤ) (tip : PIndex) :
    (sortedEntries nStart tip).Pairwise entryLE :=
  List.pairwise_insertionSort entryLE _

theorem pairwise_entryTime_sortedEntries (nStart : ℤ) (tip : PIndex) :
    (sortedEntries nStart tip).Pairwise fun a b ↦ entryTime a ≤ entryTime b := by
  refine (pairwise_sortedEntries nStart tip).imp fun {a b} hle ↦ ?_
  rcases hle with hlt | ⟨heq, -⟩
  · exact hlt.le
  · exact heq.le

end Indexed

section Round

variable (H : KernelHashes) {mapBlockIndex : Uint256 → Option PIndex} {tip : PIndex}
  {nStakeModifierPrev : ℕ}

/-- What blocks are ranked by. -/
def selectionRank (nStakeModifierPrev : ℕ) (index : CBlockIndex) : ℕ :=
  (index.hashSelection H nStakeModifierPrev).toNat

/-- A selected block with its hash, and the entry it stands for. -/
def SelectedAs (nStakeModifierPrev : ℕ) (selected : Uint256 × PIndex) (index : CBlockIndex) : Prop :=
  selected.2.head? = some index ∧ selected.1 = index.hashSelection H nStakeModifierPrev

theorem any_getBlockHash_eq (hindexed : IndexedChain mapBlockIndex tip) {mapSelectedBlocks : List PIndex}
    {chosen : List CBlockIndex} (hchosen : chosen ⊆ tip)
    (hselected : mapSelectedBlocks.map List.head? = chosen.map some) {pindex : PIndex}
    {index : CBlockIndex} (hhead : pindex.head? = some index) (hmem : index ∈ tip) :
    (mapSelectedBlocks.any fun other ↦ other.getBlockHash == pindex.getBlockHash) =
      decide (index ∈ chosen) := by
  have hhash : pindex.getBlockHash = index.phashBlock := by rw [PIndex.getBlockHash, hhead]; rfl
  rw [Bool.eq_iff_iff, List.any_eq_true, decide_eq_true_eq]
  constructor
  · rintro ⟨other, hother, heq⟩
    have hhead? : other.head? ∈ chosen.map some := hselected ▸ List.mem_map_of_mem hother
    obtain ⟨index', hindex', hsome⟩ := List.mem_map.mp hhead?
    have hother' : other.getBlockHash = index'.phashBlock := by
      rw [PIndex.getBlockHash, ← hsome]
      rfl
    have hsame : index'.phashBlock = index.phashBlock := by
      rw [← hother', ← hhash]
      exact beq_iff_eq.mp heq
    rwa [← hindexed.hash_inj (hchosen hindex') hmem hsame]
  · intro hin
    have hsome : some index ∈ mapSelectedBlocks.map List.head? := hselected ▸ List.mem_map_of_mem hin
    obtain ⟨other, hother, heq⟩ := List.mem_map.mp hsome
    refine ⟨other, hother, ?_⟩
    rw [beq_iff_eq, PIndex.getBlockHash, PIndex.getBlockHash, heq, hhead]

/-- A round of the code chooses as the rounds on entries do. -/
theorem selectBlockFromCandidates_eq (hindexed : IndexedChain mapBlockIndex tip)
    {mapSelectedBlocks : List PIndex} {chosen : List CBlockIndex} (hchosen : chosen ⊆ tip)
    (hselected : mapSelectedBlocks.map List.head? = chosen.map some) (nStop : ℤ)
    {selected : Option (Uint256 × PIndex)} {best : Option CBlockIndex} {entries : List CBlockIndex}
    (hbest : Option.Rel (SelectedAs H nStakeModifierPrev) selected best) (hentries : entries ⊆ tip) :
    ∃ selected', selectBlockFromCandidates H mapBlockIndex mapSelectedBlocks nStop nStakeModifierPrev
        selected (entries.map timestamp) = .ok selected' ∧
      Option.Rel (SelectedAs H nStakeModifierPrev) selected'
        (choose entryTime (selectionRank H nStakeModifierPrev) (· ∈ chosen) nStop best entries) := by
  induction entries generalizing selected best with
  | nil =>
    refine ⟨selected, rfl, ?_⟩
    cases best <;> exact hbest
  | cons index rest ih =>
    have hmem : index ∈ tip := hentries List.mem_cons_self
    have hrest : rest ⊆ tip := fun x hx ↦ hentries (List.mem_cons_of_mem index hx)
    obtain ⟨pindex, hlookup, hhead⟩ := hindexed.lookup hmem
    have hlookup' : mapBlockIndex (timestamp index).2 = some pindex := hlookup
    have hused := any_getBlockHash_eq hindexed hchosen hselected hhead hmem
    have htime : pindex.nTime = entryTime index := by rw [PIndex.nTime, hhead]; rfl
    have hself : SelectedAs H nStakeModifierPrev
        (pindex.hashSelection H nStakeModifierPrev, pindex) index := by
      refine ⟨hhead, ?_⟩
      rw [PIndex.hashSelection, hhead]
      rfl
    rw [List.map_cons, selectBlockFromCandidates, hlookup']
    dsimp only
    rw [hused, htime]
    cases hbest with
    | none =>
      by_cases hin : index ∈ chosen
      · simpa [choose, hin] using ih .none hrest
      · simpa [choose, hin] using ih (.some hself) hrest
    | @some selected best hrel =>
      by_cases hlate : entryTime index > nStop
      · refine ⟨some selected, by simp [hlate], ?_⟩
        rw [choose, if_pos hlate]
        exact .some hrel
      · by_cases hin : index ∈ chosen
        · simpa [choose, hin, hlate] using ih (.some hrel) hrest
        · have hlt : pindex.hashSelection H nStakeModifierPrev < selected.1 ↔
              selectionRank H nStakeModifierPrev index < selectionRank H nStakeModifierPrev best := by
            have hrank : pindex.hashSelection H nStakeModifierPrev =
                index.hashSelection H nStakeModifierPrev := hself.2
            rw [hrank, hrel.2]
            exact BitVec.lt_def
          by_cases hbetter : selectionRank H nStakeModifierPrev index <
              selectionRank H nStakeModifierPrev best
          · have hbetter' := hlt.mpr hbetter
            simpa [choose, hin, hlate, hbetter, hbetter'] using ih (.some hself) hrest
          · have hbetter' : ¬ pindex.hashSelection H nStakeModifierPrev < selected.1 :=
              fun h ↦ hbetter (hlt.mp h)
            simpa [choose, hin, hlate, hbetter, hbetter'] using ih (.some hrel) hrest

end Round

/-- The stop time of a round: the sections up to this one, after the start. -/
def stopTime (nStart : ℤ) (nRound : ℕ) : ℤ :=
  nStart + ((List.range (nRound + 1)).map getStakeModifierSelectionIntervalSection).sum

/-- The entropy bits of some blocks, one after another. -/
def modifierOf (chosen : List CBlockIndex) : ℕ :=
  chosen.zipIdx.foldl (fun nStakeModifier entry ↦
    nStakeModifier ||| entry.1.getStakeEntropyBit <<< entry.2) 0

theorem modifierOf_append (chosen : List CBlockIndex) (index : CBlockIndex) :
    modifierOf (chosen ++ [index]) = modifierOf chosen ||| index.getStakeEntropyBit <<< chosen.length := by
  simp [modifierOf, List.zipIdx_append]

theorem testBit_getStakeEntropyBit (index : CBlockIndex) (n : ℕ) :
    index.getStakeEntropyBit.testBit n = decide (n = 0 ∧ index.getStakeEntropyBit = 1) := by
  have hbit : index.getStakeEntropyBit = 0 ∨ index.getStakeEntropyBit = 1 := Nat.mod_two_eq_zero_or_one _
  rcases hbit with hbit | hbit <;> rw [hbit]
  · simp
  · cases n with
    | zero => rfl
    | succ n => simp [Nat.testBit_succ]

/-- Each bit of the modifier is that of one block. -/
theorem testBit_modifierOf (chosen : List CBlockIndex) (nRound : ℕ) :
    (modifierOf chosen).testBit nRound =
      (chosen[nRound]?).any fun index ↦ decide (index.getStakeEntropyBit = 1) := by
  induction chosen using List.reverseRecOn with
  | nil => simp [modifierOf]
  | append_singleton chosen index ih =>
    rw [modifierOf_append, Nat.testBit_or, ih, Nat.testBit_shiftLeft, testBit_getStakeEntropyBit]
    rcases lt_trichotomy nRound chosen.length with hlt | rfl | hgt
    · rw [List.getElem?_append_left hlt]
      simp [hlt]
    · simp
    · have hend : (chosen ++ [index])[nRound]? = none := by
        apply List.getElem?_eq_none
        rw [List.length_append, List.length_singleton]
        exact hgt
      have hpast : nRound - chosen.length ≠ 0 := by omega
      rw [hend, List.getElem?_eq_none hgt.le]
      simp [hpast]

section Rounds

variable (H : KernelHashes) {mapBlockIndex : Uint256 → Option PIndex} {tip : PIndex}
  {nStakeModifierPrev : ℕ} {nStart : ℤ}

/-- The entries that the first rounds choose. -/
def chosenEntries (nStakeModifierPrev : ℕ) (nStart : ℤ) (entries : List CBlockIndex) (nRounds : ℕ) :
    List CBlockIndex :=
  picks entryTime (selectionRank H nStakeModifierPrev) (stopTime nStart) entries nRounds

/-- The variables of the loop after some rounds. -/
structure RoundsAs (nStart : ℤ) (chosen : List CBlockIndex) (s : ModifierRounds) : Prop where
  nStakeModifierNew : s.nStakeModifierNew = modifierOf chosen
  nSelectionIntervalStop : s.nSelectionIntervalStop =
    nStart + ((List.range chosen.length).map getStakeModifierSelectionIntervalSection).sum
  mapSelectedBlocks : s.mapSelectedBlocks.map List.head? = chosen.map some

variable (nStakeModifierPrev nStart) in
theorem isPicks_chosenEntries (hindexed : IndexedChain mapBlockIndex tip) {nRounds : ℕ}
    (hrounds : nRounds ≤ (sortedEntries nStart tip).length) :
    IsPicks entryTime (selectionRank H nStakeModifierPrev) entryLE (stopTime nStart)
      (sortedEntries nStart tip) nRounds
      (chosenEntries H nStakeModifierPrev nStart (sortedEntries nStart tip) nRounds) :=
  isPicks_picks hindexed.nodup_sortedEntries (pairwise_entryTime_sortedEntries nStart tip)
    (pairwise_sortedEntries nStart tip) hrounds

/-- One more round succeeds and chooses one more entry. -/
theorem selectRound_eq_ok (hindexed : IndexedChain mapBlockIndex tip) {nRound : ℕ} {s : ModifierRounds}
    (hrounds : nRound < (sortedEntries nStart tip).length)
    (h : RoundsAs nStart (chosenEntries H nStakeModifierPrev nStart (sortedEntries nStart tip) nRound) s) :
    ∃ s', selectRound H mapBlockIndex nStakeModifierPrev ((sortedEntries nStart tip).map timestamp) s
        nRound = .ok s' ∧
      RoundsAs nStart (chosenEntries H nStakeModifierPrev nStart (sortedEntries nStart tip) (nRound + 1))
        s' := by
  have hpicks := isPicks_chosenEntries H nStakeModifierPrev nStart hindexed hrounds.le
  obtain ⟨index, hchoose, -⟩ := exists_choose_of_isPicks hindexed.nodup_sortedEntries
    (pairwise_entryTime_sortedEntries nStart tip) (pairwise_sortedEntries nStart tip) hpicks hrounds
  have hnext : chosenEntries H nStakeModifierPrev nStart (sortedEntries nStart tip) (nRound + 1) =
      chosenEntries H nStakeModifierPrev nStart (sortedEntries nStart tip) nRound ++ [index] := by
    rw [chosenEntries, picks, hchoose]
    rfl
  have hstop : s.nSelectionIntervalStop + getStakeModifierSelectionIntervalSection nRound =
      stopTime nStart nRound := by
    rw [h.nSelectionIntervalStop, hpicks.length, stopTime, List.range_succ, List.map_append,
      List.sum_append, add_assoc]
    simp
  have hchosen : chosenEntries H nStakeModifierPrev nStart (sortedEntries nStart tip) nRound ⊆ tip :=
    fun x hx ↦ mem_of_mem_sortedEntries (hpicks.subset hx)
  obtain ⟨selected, hselect, hrel⟩ := selectBlockFromCandidates_eq H hindexed hchosen
    h.mapSelectedBlocks (stopTime nStart nRound) .none
    (fun x (hx : x ∈ sortedEntries nStart tip) ↦ mem_of_mem_sortedEntries hx)
  change Option.Rel (SelectedAs H nStakeModifierPrev) selected (choose _ _ _ _ _ _) at hrel
  rw [chosenEntries, hchoose] at hrel
  obtain ⟨⟨hash, pindex⟩, rfl, hhead, -⟩ : ∃ found, selected = some found ∧
      SelectedAs H nStakeModifierPrev found index := by
    cases hrel with
    | some hsome => exact ⟨_, rfl, hsome⟩
  refine ⟨_, by rw [selectRound, hstop, hselect]; rfl, ?_⟩
  rw [hnext]
  constructor
  case nStakeModifierNew =>
    have hbit : pindex.getStakeEntropyBit = index.getStakeEntropyBit := by
      rw [PIndex.getStakeEntropyBit, hhead]
      rfl
    rw [modifierOf_append, ← h.nStakeModifierNew, hpicks.length, ← hbit]
  case nSelectionIntervalStop =>
    rw [List.length_append, hpicks.length, List.length_singleton]
    rfl
  case mapSelectedBlocks => rw [List.map_append, List.map_append, h.mapSelectedBlocks]; simp [hhead]

variable (nStakeModifierPrev nStart) in
/-- All rounds succeed as long as there are entries left. -/
theorem foldlM_selectRound (hindexed : IndexedChain mapBlockIndex tip) {nRounds : ℕ}
    (hrounds : nRounds ≤ (sortedEntries nStart tip).length) :
    ∃ s, (List.range nRounds).foldlM (selectRound H mapBlockIndex nStakeModifierPrev
        ((sortedEntries nStart tip).map timestamp)) ⟨0, nStart, []⟩ = .ok s ∧
      RoundsAs nStart (chosenEntries H nStakeModifierPrev nStart (sortedEntries nStart tip) nRounds) s := by
  induction nRounds with
  | zero => exact ⟨_, rfl, rfl, by simp [chosenEntries, picks], rfl⟩
  | succ nRounds ih =>
    obtain ⟨s, hs, hrel⟩ := ih (by omega)
    obtain ⟨s', hs', hrel'⟩ := selectRound_eq_ok H hindexed hrounds hrel
    refine ⟨s', ?_, hrel'⟩
    rw [List.range_succ, List.foldlM_append, hs]
    simp only [bind, Except.bind, List.foldlM_cons, List.foldlM_nil, hs', pure, Except.pure]

end Rounds

/-- The candidate blocks of a chain with their heights. -/
def candidateBlocks (pindexPrev : PIndex) : Set (ℤ × CBlockIndex) :=
  {block | ∃ pindex ∈ selectionCandidates (selectionIntervalStart pindexPrev) pindexPrev,
    pindex.nHeight = block.1 ∧ pindex.head? = some block.2}

section Blocks

variable {pindexPrev pindexPrev' : PIndex}

theorem suffix_of_mem_selectionCandidates {nStart : ℤ} {pindex : PIndex}
    (h : pindex ∈ selectionCandidates nStart pindexPrev) : pindex <:+ pindexPrev ∧ pindex ≠ [] := by
  induction pindexPrev with
  | nil => cases h
  | cons index pprev ih =>
    rw [selectionCandidates] at h
    split at h
    · rcases List.mem_cons.mp h with rfl | hbelow
      · exact ⟨List.suffix_refl _, List.cons_ne_nil _ _⟩
      · exact ⟨(ih hbelow).1.trans (List.suffix_cons index pprev), (ih hbelow).2⟩
    · cases h

theorem selectionIntervalStart_le (pindexPrev : PIndex) :
    selectionIntervalStart pindexPrev ≤ pindexPrev.nTime := by
  have hinterval : 0 < getStakeModifierSelectionInterval := by decide
  have hfloor : pindexPrev.nTime / nModifierInterval * nModifierInterval ≤ pindexPrev.nTime :=
    Int.ediv_mul_le _ (by decide)
  rw [selectionIntervalStart]
  omega

/-- The last block is a candidate. -/
theorem self_mem_selectionCandidates (hne : pindexPrev ≠ []) :
    pindexPrev ∈ selectionCandidates (selectionIntervalStart pindexPrev) pindexPrev := by
  cases pindexPrev with
  | nil => exact absurd rfl hne
  | cons index pprev =>
    have htime : (index.nTime : ℤ) ≥ selectionIntervalStart (index :: pprev) :=
      selectionIntervalStart_le (index :: pprev)
    rw [selectionCandidates, if_pos htime]
    exact List.mem_cons_self

theorem self_mem_candidateBlocks (index : CBlockIndex) (pprev : PIndex) :
    (PIndex.nHeight (index :: pprev), index) ∈ candidateBlocks (index :: pprev) :=
  ⟨index :: pprev, self_mem_selectionCandidates (List.cons_ne_nil _ _), rfl, rfl⟩

/-- The blocks with their heights determine how long a chain is. -/
theorem length_le_of_candidateBlocks_subset (h : candidateBlocks pindexPrev ⊆ candidateBlocks pindexPrev') :
    pindexPrev.length ≤ pindexPrev'.length := by
  cases pindexPrev with
  | nil => exact Nat.zero_le _
  | cons index pprev =>
    obtain ⟨pindex, hmem, hheight, -⟩ := h (self_mem_candidateBlocks index pprev)
    have hlength := (suffix_of_mem_selectionCandidates hmem).1.length_le
    simp only [PIndex.nHeight] at hheight
    omega

/-- They determine its last block. -/
theorem head?_eq_of_candidateBlocks_eq (h : candidateBlocks pindexPrev = candidateBlocks pindexPrev') :
    pindexPrev.head? = pindexPrev'.head? := by
  have hlength : pindexPrev.length = pindexPrev'.length :=
    le_antisymm (length_le_of_candidateBlocks_subset h.subset)
      (length_le_of_candidateBlocks_subset h.superset)
  cases pindexPrev with
  | nil => rw [List.length_eq_zero_iff.mp hlength.symm]
  | cons index pprev =>
    obtain ⟨pindex, hmem, hheight, hhead⟩ := h.subset (self_mem_candidateBlocks index pprev)
    obtain ⟨hsuffix, -⟩ := suffix_of_mem_selectionCandidates hmem
    have hsame : pindex = pindexPrev' := by
      apply hsuffix.eq_of_length
      simp only [PIndex.nHeight] at hheight
      omega
    rw [← hsame, hhead]
    rfl

/-- An entry is a candidate if its block is. -/
theorem mem_candidateEntries_iff {index : CBlockIndex} :
    index ∈ candidateEntries (selectionIntervalStart pindexPrev) pindexPrev ↔
      ∃ nHeight, (nHeight, index) ∈ candidateBlocks pindexPrev := by
  have hheads := map_head?_selectionCandidates (selectionIntervalStart pindexPrev) pindexPrev
  constructor
  · intro hmem
    have hsome : some index ∈
        (selectionCandidates (selectionIntervalStart pindexPrev) pindexPrev).map List.head? :=
      hheads ▸ List.mem_map_of_mem hmem
    obtain ⟨pindex, hpindex, hhead⟩ := List.mem_map.mp hsome
    exact ⟨PIndex.nHeight pindex, pindex, hpindex, rfl, hhead⟩
  · rintro ⟨nHeight, pindex, hpindex, -, hhead⟩
    have hsome : some index ∈
        (candidateEntries (selectionIntervalStart pindexPrev) pindexPrev).map some := by
      rw [← hheads, ← hhead]
      exact List.mem_map_of_mem hpindex
    obtain ⟨index', hindex', heq⟩ := List.mem_map.mp hsome
    exact Option.some.inj heq ▸ hindex'

/-- They determine the sorted candidates. -/
theorem sortedEntries_eq_of_candidateBlocks_eq {mapBlockIndex mapBlockIndex' : Uint256 → Option PIndex}
    (hindexed : IndexedChain mapBlockIndex pindexPrev)
    (hindexed' : IndexedChain mapBlockIndex' pindexPrev')
    (h : candidateBlocks pindexPrev = candidateBlocks pindexPrev') :
    sortedEntries (selectionIntervalStart pindexPrev) pindexPrev =
      sortedEntries (selectionIntervalStart pindexPrev') pindexPrev' := by
  have hsame : ∀ index, index ∈ sortedEntries (selectionIntervalStart pindexPrev) pindexPrev ↔
      index ∈ sortedEntries (selectionIntervalStart pindexPrev') pindexPrev' := by
    intro index
    rw [mem_sortedEntries, mem_sortedEntries, mem_candidateEntries_iff, mem_candidateEntries_iff, h]
  have hperm : (sortedEntries (selectionIntervalStart pindexPrev) pindexPrev).Perm
      (sortedEntries (selectionIntervalStart pindexPrev') pindexPrev') :=
    (List.perm_ext_iff_of_nodup hindexed.nodup_sortedEntries hindexed'.nodup_sortedEntries).mpr hsame
  refine hperm.eq_of_pairwise ?_ (pairwise_sortedEntries _ _) (pairwise_sortedEntries _ _)
  intro index index' hmem hmem' hle hle'
  have hstamp : timestamp index = timestamp index' := timestampLE_antisymm hle hle'
  exact hindexed.hash_inj (mem_of_mem_sortedEntries hmem)
    (mem_of_mem_sortedEntries ((hsame index').mpr hmem')) (congrArg Prod.snd hstamp)

end Blocks

/-- A chain at whose end a modifier is generated, with the last one; for the genesis block it is zero. -/
def ModifierDue (pindexPrev : PIndex) (nStakeModifierPrev : ℕ) : Prop :=
  pindexPrev = [] ∧ nStakeModifierPrev = 0 ∨
    pindexPrev ≠ [] ∧ ∃ nModifierTime,
      getLastStakeModifier pindexPrev = .ok (nStakeModifierPrev, nModifierTime) ∧
        nModifierTime / nModifierInterval < pindexPrev.nTime / nModifierInterval

section Next

variable {H : KernelHashes} {mapBlockIndex : Uint256 → Option PIndex} {pindexPrev : PIndex}
  {nStakeModifierPrev nStakeModifier : ℕ}

/-- Where a modifier is due, all rounds succeed. -/
theorem computeNextStakeModifier_eq (hindexed : IndexedChain mapBlockIndex pindexPrev)
    (hdue : ModifierDue pindexPrev nStakeModifierPrev) :
    computeNextStakeModifier H mapBlockIndex pindexPrev =
      .ok (modifierOf (chosenEntries H nStakeModifierPrev (selectionIntervalStart pindexPrev)
        (sortedEntries (selectionIntervalStart pindexPrev) pindexPrev)
        (min 64 (sortedEntries (selectionIntervalStart pindexPrev) pindexPrev).length)), true) := by
  rcases hdue with ⟨rfl, rfl⟩ | ⟨hne, nModifierTime, hlast, hold⟩
  · rfl
  · obtain ⟨s, hs, hrel⟩ := foldlM_selectRound H nStakeModifierPrev
      (selectionIntervalStart pindexPrev) hindexed (min_le_right 64 _)
    have hlength : (sortByTimestamp (selectionCandidates (selectionIntervalStart pindexPrev)
        pindexPrev)).length = (sortedEntries (selectionIntervalStart pindexPrev) pindexPrev).length := by
      rw [sortByTimestamp_eq, List.length_map]
    rw [computeNextStakeModifier, if_neg hne, hlast]
    simp only [Except.mapError, bind, Except.bind, if_neg (not_le.mpr hold), hlength]
    rw [sortByTimestamp_eq, hs, ← hrel.nStakeModifierNew]
    rfl

/-- A new modifier with the entries chosen for it: there is one for each round, all different, each one
the right choice of its round, and the bits of the modifier are theirs. -/
structure ModifierChosen (H : KernelHashes) (nStakeModifierPrev : ℕ) (pindexPrev : PIndex)
    (nStakeModifier : ℕ) (chosen : List CBlockIndex) : Prop where
  rounds : IsPicks entryTime (selectionRank H nStakeModifierPrev) entryLE
    (stopTime (selectionIntervalStart pindexPrev))
    (candidateEntries (selectionIntervalStart pindexPrev) pindexPrev)
    (min 64 (candidateEntries (selectionIntervalStart pindexPrev) pindexPrev).length) chosen
  bits : ∀ nRound, nStakeModifier.testBit nRound =
    (chosen[nRound]?).any fun index ↦ decide (index.getStakeEntropyBit = 1)

/-- Where a modifier is due it is generated from as many rounds as there can be, each choosing the right
block, and every chain with the same candidates and the same last modifier generates the same one. -/
theorem computeNextStakeModifier_spec (hindexed : IndexedChain mapBlockIndex pindexPrev)
    (hdue : ModifierDue pindexPrev nStakeModifierPrev) :
    ∃ nStakeModifier chosen,
      computeNextStakeModifier H mapBlockIndex pindexPrev = .ok (nStakeModifier, true) ∧
      ModifierChosen H nStakeModifierPrev pindexPrev nStakeModifier chosen ∧
      ∀ mapBlockIndex' pindexPrev', IndexedChain mapBlockIndex' pindexPrev' →
        ModifierDue pindexPrev' nStakeModifierPrev →
          candidateBlocks pindexPrev' = candidateBlocks pindexPrev →
            computeNextStakeModifier H mapBlockIndex' pindexPrev' = .ok (nStakeModifier, true) := by
  have hlength : (sortedEntries (selectionIntervalStart pindexPrev) pindexPrev).length =
      (candidateEntries (selectionIntervalStart pindexPrev) pindexPrev).length := by
    rw [sortedEntries, List.length_insertionSort, List.length_reverse]
  refine ⟨_, _, computeNextStakeModifier_eq hindexed hdue, ⟨?_, testBit_modifierOf _⟩, ?_⟩
  · have hpicks := isPicks_chosenEntries H nStakeModifierPrev
      (selectionIntervalStart pindexPrev) hindexed (min_le_right 64 _)
    rw [← hlength]
    exact hpicks.congr fun index ↦ mem_sortedEntries
  · intro mapBlockIndex' pindexPrev' hindexed' hdue' hblocks
    have hstart : selectionIntervalStart pindexPrev' = selectionIntervalStart pindexPrev := by
      have hhead := head?_eq_of_candidateBlocks_eq hblocks
      rw [selectionIntervalStart, selectionIntervalStart, PIndex.nTime, PIndex.nTime, hhead]
    rw [computeNextStakeModifier_eq hindexed' hdue',
      sortedEntries_eq_of_candidateBlocks_eq hindexed' hindexed hblocks, hstart]

end Next

namespace SelectionExample

open Builders

def hashes : KernelHashes where
  hashSelection hashProof nStakeModifier := hashProof * 7 + BitVec.ofNat 256 nStakeModifier
  hashKernel nStakeModifier _ _ _ _ _ := BitVec.ofNat 256 nStakeModifier

def entry (nHeight nTime : ℕ) : CBlockIndex :=
  newBlockIndex (network true) (blockOf (network true) (nHeight + 5) (if nHeight = 0 then 0 else 1) nTime 0 [])
    (nHeight + 1) 8 0 (0, decide (nHeight = 0))

def chain : PIndex := [entry 2 900, entry 1 700, entry 0 300]

def blockIndex (hash : Uint256) : Option PIndex :=
  chain.tails.find? fun pindex : PIndex ↦ pindex.getBlockHash == hash

theorem indexedChain_chain : IndexedChain blockIndex chain := by
  have hall : ∀ pindex : PIndex, pindex ∈ chain.tails → pindex ≠ [] →
      blockIndex pindex.getBlockHash = some pindex := by decide
  exact fun pindex hsuffix ↦ hall pindex ((List.mem_tails _ _).mpr hsuffix)

end SelectionExample

open SelectionExample in
theorem computeNextStakeModifier_example :
    ∃ nStakeModifier chosen,
      computeNextStakeModifier hashes blockIndex chain = .ok (nStakeModifier, true) ∧
        ModifierChosen hashes 0 chain nStakeModifier chosen ∧ chosen.length = 3 := by
  have hdue : ModifierDue chain 0 := .inr ⟨by decide, 300, by decide, by decide⟩
  obtain ⟨nStakeModifier, chosen, hok, hchosen, -⟩ :=
    computeNextStakeModifier_spec (H := hashes) indexedChain_chain hdue
  refine ⟨nStakeModifier, chosen, hok, hchosen, ?_⟩
  rw [hchosen.rounds.length]
  decide

end Electra.Ledger
