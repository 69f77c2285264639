import Electra.Wallet.TransactionList

/-!
# Reordering

`ReorderTransactions` goes over the transactions and accounting entries by time.  What has no position gets
the next one, and what has one moves up by the number of positions given so far that are not above it.  The
position is compared before it moves, so that it may move to one that was given away.
-/

namespace Electra.Wallet

open Chain

namespace TxItem

def time : TxItem → ℤ
  | .tx wtx => wtx.nTimeReceived
  | .acentry entry => entry.nTime

/-- A position of -1 is none. -/
def isUnset (item : TxItem) : Bool := item.nOrderPos = -1

end TxItem

/-- How far a position that is set moves. -/
def nOrderPosOff (nOrderPosOffsets : List ℤ) (nOrderPos : ℤ) : ℕ :=
  nOrderPosOffsets.countP fun nOffsetStart ↦ nOrderPos ≥ nOffsetStart

def shifted (nOrderPosOffsets : List ℤ) (nOrderPos : ℤ) : ℤ :=
  nOrderPos + nOrderPosOff nOrderPosOffsets nOrderPos

/-- The state of the loop: what is done, with its new position, and the counters. -/
structure ReorderState where
  placed : List (TxItem × ℤ)
  nOrderPosNext : ℤ
  nOrderPosOffsets : List ℤ

namespace ReorderState

/-- A position for an item that has none. -/
def give (s : ReorderState) (item : TxItem) : ReorderState :=
  ⟨s.placed ++ [(item, s.nOrderPosNext)], s.nOrderPosNext + 1, s.nOrderPosOffsets ++ [s.nOrderPosNext]⟩

def move (s : ReorderState) (item : TxItem) : ReorderState :=
  let nOrderPos := shifted s.nOrderPosOffsets item.nOrderPos
  ⟨s.placed ++ [(item, nOrderPos)], max s.nOrderPosNext (nOrderPos + 1), s.nOrderPosOffsets⟩

def turn (s : ReorderState) (item : TxItem) : ReorderState :=
  if item.isUnset then s.give item else s.move item

end ReorderState

section Reorder

-- Whether an item is written with its position.
variable (fWritten : TxItem → ℤ → Bool)

/-- What is written: an accounting entry with a new position, since it is not kept in memory, and what has
moved. -/
def writes (s : ReorderState) (item : TxItem) : Bool :=
  match item with
  | .tx _ => item.isUnset || nOrderPosOff s.nOrderPosOffsets item.nOrderPos = 0 ||
      fWritten item (shifted s.nOrderPosOffsets item.nOrderPos)
  | .acentry _ =>
      if item.isUnset then fWritten item s.nOrderPosNext
      else nOrderPosOff s.nOrderPosOffsets item.nOrderPos = 0 ||
        fWritten item (shifted s.nOrderPosOffsets item.nOrderPos)

def reorderTurn (s : ReorderState) (item : TxItem) : Option ReorderState :=
  if writes fWritten s item then some (s.turn item) else none

/-- The transactions and the entries of the default account, sorted by time. -/
def txByTime (mapWallet : List ListedTx) (entries : List AccountEntry) : List TxItem :=
  (mapWallet.map TxItem.tx ++ (listAccountCreditDebit entries []).map TxItem.acentry).mergeSort
    fun item item' ↦ decide (item.time ≤ item'.time)

/-- All items with their positions afterwards, and `nOrderPosNext`, unless something is not written.  An entry
of another account keeps its position. -/
def reorderTransactions (mapWallet : List ListedTx) (entries : List AccountEntry) :
    Option (List (TxItem × ℤ) × ℤ) := do
  let s ← (txByTime mapWallet entries).foldlM (reorderTurn fWritten) ⟨[], 0, []⟩
  let others := entries.filter fun entry ↦ !entry.strAccount.isEmpty
  some (s.placed ++ others.map fun entry ↦ (TxItem.acentry entry, entry.nOrderPos), s.nOrderPosNext)

end Reorder

/-- All positions that are set are of different items. -/
def DistinctPositions (mapWallet : List ListedTx) (entries : List AccountEntry) : Prop :=
  ((mapWallet.map TxItem.tx ++ entries.map TxItem.acentry).filter (!·.isUnset)).Pairwise
    fun item item' ↦ item.nOrderPos ≠ item'.nOrderPos

/-- What is promised of the items with their new positions.  What had no position comes behind all that is
older. -/
structure TotallyOrdered (placed : List (TxItem × ℤ)) (nOrderPosNext : ℤ) : Prop where
  nodup : (placed.map Prod.snd).Nodup
  nonneg : ∀ x ∈ placed, 0 ≤ x.2
  keeps : ∀ x ∈ placed, ∀ y ∈ placed, x.1.isUnset = false → y.1.isUnset = false →
    x.1.nOrderPos < y.1.nOrderPos → x.2 < y.2
  byTime : ∀ x ∈ placed, ∀ y ∈ placed, y.1.isUnset = true → x.1.time < y.1.time → x.2 < y.2
  below : ∀ x ∈ placed, x.2 < nOrderPosNext

/-- The position behind all that are set, which is no higher for an item that has none. -/
def nextFree (nNext : ℤ) (item : TxItem) : ℤ := max nNext (item.nOrderPos + 1)

/-- Behind the items that are done, with `nUnset` of them without a position and `nNext` the position behind
the ones that were set: an item without a position is followed by no item with one of the `nUnset` positions
from `nNext` on. -/
def KeepsClear : ℤ → ℕ → List TxItem → Prop
  | _, _, [] => True
  | nNext, nUnset, item :: items =>
      (item.isUnset = true → ∀ later ∈ items, later.isUnset = false →
        later.nOrderPos < nNext ∨ nNext + nUnset ≤ later.nOrderPos) ∧
      KeepsClear (nextFree nNext item) (if item.isUnset then nUnset + 1 else nUnset) items

section Shift

variable {nOrderPosOffsets : List ℤ} {p q n : ℤ}

theorem nOrderPosOff_concat (nOrderPosOffsets : List ℤ) (nOffsetStart p : ℤ) :
    nOrderPosOff (nOrderPosOffsets ++ [nOffsetStart]) p =
      nOrderPosOff nOrderPosOffsets p + if p ≥ nOffsetStart then 1 else 0 := by
  unfold nOrderPosOff
  rw [List.countP_append, List.countP_singleton]
  simp

theorem shifted_concat_of_lt (h : p < n) :
    shifted (nOrderPosOffsets ++ [n]) p = shifted nOrderPosOffsets p := by
  rw [shifted, nOrderPosOff_concat, if_neg (by omega), Nat.add_zero]
  rfl

theorem le_shifted (nOrderPosOffsets : List ℤ) (p : ℤ) : p ≤ shifted nOrderPosOffsets p := by
  unfold shifted
  omega

/-- A higher position stays higher. -/
theorem shifted_lt (h : p < q) : shifted nOrderPosOffsets p < shifted nOrderPosOffsets q := by
  have hle : nOrderPosOff nOrderPosOffsets p ≤ nOrderPosOff nOrderPosOffsets q := by
    apply List.countP_mono_left
    intro n _ hn
    have hge := of_decide_eq_true hn
    exact decide_eq_true (by omega)
  unfold shifted
  omega

theorem shifted_inj (h : shifted nOrderPosOffsets p = shifted nOrderPosOffsets q) : p = q := by
  rcases lt_trichotomy p q with hlt | rfl | hgt
  · have hshifted : shifted nOrderPosOffsets p < shifted nOrderPosOffsets q := shifted_lt hlt
    omega
  · rfl
  · have hshifted : shifted nOrderPosOffsets q < shifted nOrderPosOffsets p := shifted_lt hgt
    omega

/-- What is counted in an ordered list is where it begins. -/
theorem lt_nOrderPosOff (hsorted : nOrderPosOffsets.Pairwise (· < ·)) {i : ℕ}
    (hi : i < nOrderPosOffsets.length) (h : nOrderPosOffsets[i] ≤ p) :
    i < nOrderPosOff nOrderPosOffsets p := by
  induction nOrderPosOffsets generalizing i with
  | nil => cases hi
  | cons n ns ih =>
    obtain ⟨hfirst, hrest⟩ := List.pairwise_cons.mp hsorted
    have hn : n ≤ p := by
      cases i with
      | zero => exact h
      | succ i => exact (hfirst _ (List.getElem_mem _)).le.trans h
    rw [nOrderPosOff, List.countP_cons, if_pos (decide_eq_true hn)]
    cases i with
    | zero => exact Nat.succ_pos _
    | succ i => exact Nat.succ_lt_succ (ih hrest (Nat.lt_of_succ_lt_succ hi) h)

theorem nOrderPosOff_le (hsorted : nOrderPosOffsets.Pairwise (· < ·)) {i : ℕ}
    (hi : i < nOrderPosOffsets.length) (h : p < nOrderPosOffsets[i]) :
    nOrderPosOff nOrderPosOffsets p ≤ i := by
  induction nOrderPosOffsets generalizing i with
  | nil => cases hi
  | cons n ns ih =>
    obtain ⟨hfirst, hrest⟩ := List.pairwise_cons.mp hsorted
    cases i with
    | zero =>
      rw [Nat.le_zero, nOrderPosOff, List.countP_eq_zero]
      intro n' hn' hle
      have hge := of_decide_eq_true hle
      obtain rfl | htail := List.mem_cons.mp hn'
      · exact absurd hge (not_le.mpr h)
      · exact absurd (hge.trans_lt h) (not_lt.mpr (hfirst n' htail).le)
    | succ i =>
      have hle := ih hrest (Nat.lt_of_succ_lt_succ hi) h
      unfold nOrderPosOff at hle ⊢
      rw [List.countP_cons]
      split <;> omega

/-- Each position that was given is above a position, by more than those given before it, or not above it. -/
def Avoids (nOrderPosOffsets : List ℤ) (p : ℤ) : Prop :=
  ∀ (i : ℕ) (hi : i < nOrderPosOffsets.length), p < nOrderPosOffsets[i] - i ∨ nOrderPosOffsets[i] ≤ p

theorem shifted_notMem (hsorted : nOrderPosOffsets.Pairwise (· < ·)) (h : Avoids nOrderPosOffsets p) :
    shifted nOrderPosOffsets p ∉ nOrderPosOffsets := by
  intro hmem
  obtain ⟨i, hi, hvalue⟩ := List.mem_iff_getElem.mp hmem
  unfold shifted at hvalue
  obtain hbelow | habove := h i hi
  · have hle := nOrderPosOff_le (p := p) hsorted hi (by omega)
    omega
  · have hlt := lt_nOrderPosOff hsorted hi habove
    omega

theorem nOrderPosOff_le_length (nOrderPosOffsets : List ℤ) (p : ℤ) :
    nOrderPosOff nOrderPosOffsets p ≤ nOrderPosOffsets.length := List.countP_le_length

theorem nOrderPosOff_eq_length (h : ∀ n ∈ nOrderPosOffsets, n ≤ p) :
    nOrderPosOff nOrderPosOffsets p = nOrderPosOffsets.length :=
  List.countP_eq_length.mpr fun n hn ↦ decide_eq_true (h n hn)

end Shift

/-- The state behind items with `nUnset` of them without a position, when none has moved to a position that was
given away. -/
structure Settled (nNext : ℤ) (nUnset : ℕ) (s : ReorderState) : Prop where
  next : s.nOrderPosNext = nNext + nUnset
  length : s.nOrderPosOffsets.length = nUnset
  nextNonneg : 0 ≤ nNext
  sorted : s.nOrderPosOffsets.Pairwise (· < ·)
  slot : ∀ (i : ℕ) (hi : i < s.nOrderPosOffsets.length), s.nOrderPosOffsets[i] ≤ nNext + i
  given : ∀ x ∈ s.placed, x.1.isUnset = true → x.2 ∈ s.nOrderPosOffsets
  moved : ∀ x ∈ s.placed, x.1.isUnset = false → x.2 = shifted s.nOrderPosOffsets x.1.nOrderPos
  nodup : (s.placed.map Prod.snd).Nodup
  nonneg : ∀ x ∈ s.placed, 0 ≤ x.2
  below : ∀ x ∈ s.placed, x.2 < s.nOrderPosNext
  behind : s.placed.Pairwise fun x y ↦ y.1.isUnset = true → x.2 < y.2

variable {nNext : ℤ} {nUnset : ℕ} {s t : ReorderState} {item : TxItem}

namespace Settled

theorem offset_lt (h : Settled nNext nUnset s) {n : ℤ} (hn : n ∈ s.nOrderPosOffsets) :
    n < s.nOrderPosNext := by
  obtain ⟨i, hi, rfl⟩ := List.mem_iff_getElem.mp hn
  have hslot := h.slot i hi
  have hlength := h.length
  have hnext := h.next
  omega

theorem give (h : Settled nNext nUnset s) (hunset : item.isUnset = true) :
    Settled nNext (nUnset + 1) (s.give item) where
  next := by
    change s.nOrderPosNext + 1 = _
    rw [h.next]
    push_cast
    omega
  length := by
    change (s.nOrderPosOffsets ++ [s.nOrderPosNext]).length = _
    rw [List.length_append, h.length, List.length_singleton]
  nextNonneg := h.nextNonneg
  sorted := by
    change (s.nOrderPosOffsets ++ [s.nOrderPosNext]).Pairwise (· < ·)
    rw [List.pairwise_append]
    refine ⟨h.sorted, List.pairwise_singleton _ _, fun n hn n' hn' ↦ ?_⟩
    rw [List.mem_singleton.mp hn']
    exact h.offset_lt hn
  slot := by
    change ∀ (i : ℕ) (hi : i < (s.nOrderPosOffsets ++ [s.nOrderPosNext]).length),
      (s.nOrderPosOffsets ++ [s.nOrderPosNext])[i] ≤ nNext + i
    intro i hi
    by_cases hold : i < s.nOrderPosOffsets.length
    · exact (List.getElem_append_left hold).trans_le (h.slot i hold)
    · have hlast : i = s.nOrderPosOffsets.length := by
        rw [List.length_append, List.length_singleton] at hi
        omega
      subst hlast
      rw [List.getElem_concat_length rfl, h.next, h.length]
  given := by
    intro x hx hset
    obtain hold | rfl := List.mem_append.mp hx |>.imp_right List.mem_singleton.mp
    · exact List.mem_append_left _ (h.given x hold hset)
    · exact List.mem_append_right _ (List.mem_singleton_self _)
  moved := by
    intro x hx hset
    obtain hold | rfl := List.mem_append.mp hx |>.imp_right List.mem_singleton.mp
    · change x.2 = shifted (s.nOrderPosOffsets ++ [s.nOrderPosNext]) _
      have hvalue := h.moved x hold hset
      have hbelow := h.below x hold
      have hle := le_shifted s.nOrderPosOffsets x.1.nOrderPos
      rw [shifted_concat_of_lt (by omega), hvalue]
    · exact absurd hunset (by rw [hset]; decide)
  nodup := by
    change ((s.placed ++ [(item, s.nOrderPosNext)]).map Prod.snd).Nodup
    rw [List.map_append, List.nodup_append]
    refine ⟨h.nodup, List.nodup_singleton _, fun n hn n' hn' ↦ ?_⟩
    obtain ⟨x, hx, rfl⟩ := List.mem_map.mp hn
    rw [List.mem_singleton.mp hn']
    exact (h.below x hx).ne
  nonneg := by
    intro x hx
    obtain hold | rfl := List.mem_append.mp hx |>.imp_right List.mem_singleton.mp
    · exact h.nonneg x hold
    · have hnext := h.next
      have hnonneg := h.nextNonneg
      change 0 ≤ s.nOrderPosNext
      omega
  below := by
    intro x hx
    change x.2 < s.nOrderPosNext + 1
    obtain hold | rfl := List.mem_append.mp hx |>.imp_right List.mem_singleton.mp
    · have hbelow := h.below x hold
      omega
    · exact Int.lt_succ _
  behind := by
    change (s.placed ++ [(item, s.nOrderPosNext)]).Pairwise _
    rw [List.pairwise_append]
    refine ⟨h.behind, List.pairwise_singleton _ _, fun x hx y hy _ ↦ ?_⟩
    rw [List.mem_singleton.mp hy]
    exact h.below x hx

/-- A position that avoids those that were given moves to a free one. -/
theorem move (h : Settled nNext nUnset s) (hset : item.isUnset = false) (hpos : 0 ≤ item.nOrderPos)
    (havoids : Avoids s.nOrderPosOffsets item.nOrderPos)
    (hfresh : ∀ x ∈ s.placed, x.1.isUnset = false → x.1.nOrderPos ≠ item.nOrderPos) :
    Settled (nextFree nNext item) nUnset (s.move item) where
  next := by
    change max s.nOrderPosNext (shifted s.nOrderPosOffsets item.nOrderPos + 1) = max nNext _ + nUnset
    have hle := nOrderPosOff_le_length s.nOrderPosOffsets item.nOrderPos
    rw [h.length] at hle
    rw [h.next]
    by_cases hhigh : nNext ≤ item.nOrderPos
    · have hall : nOrderPosOff s.nOrderPosOffsets item.nOrderPos = nUnset := by
        rw [← h.length]
        apply nOrderPosOff_eq_length
        intro n hn
        obtain ⟨i, hi, rfl⟩ := List.mem_iff_getElem.mp hn
        have hslot := h.slot i hi
        obtain hbelow | habove := havoids i hi
        · omega
        · exact habove
      rw [shifted, hall]
      omega
    · unfold shifted
      omega
  length := h.length
  nextNonneg := h.nextNonneg.trans (le_max_left _ _)
  sorted := h.sorted
  slot i hi := (h.slot i hi).trans (by
    have := le_max_left nNext (item.nOrderPos + 1)
    unfold nextFree
    omega)
  given := by
    intro x hx hunset
    obtain hold | rfl := List.mem_append.mp hx |>.imp_right List.mem_singleton.mp
    · exact h.given x hold hunset
    · exact absurd hunset (by rw [hset]; decide)
  moved := by
    intro x hx hset
    obtain hold | rfl := List.mem_append.mp hx |>.imp_right List.mem_singleton.mp
    · exact h.moved x hold hset
    · rfl
  nodup := by
    change ((s.placed ++ [(item, shifted s.nOrderPosOffsets item.nOrderPos)]).map Prod.snd).Nodup
    rw [List.map_append, List.nodup_append]
    refine ⟨h.nodup, List.nodup_singleton _, fun n hn n' hn' ↦ ?_⟩
    obtain ⟨x, hx, rfl⟩ := List.mem_map.mp hn
    rw [List.mem_singleton.mp hn']
    cases hx' : x.1.isUnset with
    | true =>
      intro heq
      have hvalue : x.2 = shifted s.nOrderPosOffsets item.nOrderPos := heq
      apply shifted_notMem h.sorted havoids
      rw [← hvalue]
      exact h.given x hx hx'
    | false =>
      rw [h.moved x hx hx']
      exact fun heq ↦ hfresh x hx hx' (shifted_inj heq)
  nonneg := by
    intro x hx
    obtain hold | rfl := List.mem_append.mp hx |>.imp_right List.mem_singleton.mp
    · exact h.nonneg x hold
    · exact hpos.trans (le_shifted _ _)
  below := by
    intro x hx
    change x.2 < max s.nOrderPosNext (shifted s.nOrderPosOffsets item.nOrderPos + 1)
    obtain hold | rfl := List.mem_append.mp hx |>.imp_right List.mem_singleton.mp
    · exact (h.below x hold).trans_le (le_max_left _ _)
    · exact (Int.lt_succ _).trans_le (le_max_right _ _)
  behind := by
    change (s.placed ++ [(item, shifted s.nOrderPosOffsets item.nOrderPos)]).Pairwise _
    rw [List.pairwise_append]
    refine ⟨h.behind, List.pairwise_singleton _ _, fun x _ y hy hunset ↦ ?_⟩
    rw [List.mem_singleton.mp hy, hset] at hunset
    cases hunset

end Settled

/-- What the items that are left must meet. -/
structure Waiting (nNext : ℤ) (nUnset : ℕ) (s : ReorderState) (items : List TxItem) : Prop where
  clear : KeepsClear nNext nUnset items
  avoids : ∀ item ∈ items, item.isUnset = false → Avoids s.nOrderPosOffsets item.nOrderPos
  nonneg : ∀ item ∈ items, item.isUnset = false → 0 ≤ item.nOrderPos
  fresh : ∀ item ∈ items, item.isUnset = false → ∀ x ∈ s.placed, x.1.isUnset = false →
    x.1.nOrderPos ≠ item.nOrderPos
  distinct : items.Pairwise fun item item' ↦ item.isUnset = false → item'.isUnset = false →
    item.nOrderPos ≠ item'.nOrderPos

variable {items : List TxItem}

theorem settled_start : Settled 0 0 ⟨[], 0, []⟩ where
  next := rfl
  length := rfl
  nextNonneg := le_refl _
  sorted := .nil
  slot _ hi := absurd hi (Nat.not_lt_zero _)
  given _ hx := absurd hx List.not_mem_nil
  moved _ hx := absurd hx List.not_mem_nil
  nodup := .nil
  nonneg _ hx := absurd hx List.not_mem_nil
  below _ hx := absurd hx List.not_mem_nil
  behind := .nil

theorem Waiting.give (h : Waiting nNext nUnset s (item :: items)) (hs : Settled nNext nUnset s)
    (hunset : item.isUnset = true) : Waiting nNext (nUnset + 1) (s.give item) items where
  clear := by
    have hsame : nextFree nNext item = nNext := by
      have hnone : item.nOrderPos = -1 := of_decide_eq_true hunset
      rw [nextFree, hnone]
      exact max_eq_left hs.nextNonneg
    have hrest := h.clear.2
    rwa [hsame, if_pos hunset] at hrest
  avoids := by
    intro later hlater hset
    change ∀ (i : ℕ) (hi : i < (s.nOrderPosOffsets ++ [s.nOrderPosNext]).length),
      later.nOrderPos < (s.nOrderPosOffsets ++ [s.nOrderPosNext])[i] - i ∨
        (s.nOrderPosOffsets ++ [s.nOrderPosNext])[i] ≤ later.nOrderPos
    intro i hi
    by_cases hold : i < s.nOrderPosOffsets.length
    · rw [List.getElem_append_left hold]
      exact h.avoids later (List.mem_cons_of_mem _ hlater) hset i hold
    · have hlast : i = s.nOrderPosOffsets.length := by
        rw [List.length_append, List.length_singleton] at hi
        omega
      subst hlast
      have hclear := h.clear.1 hunset later hlater hset
      rw [List.getElem_concat_length rfl, hs.next, hs.length]
      omega
  nonneg later hlater := h.nonneg later (List.mem_cons_of_mem _ hlater)
  fresh := by
    intro later hlater hset x hx hxset
    obtain hold | rfl := List.mem_append.mp hx |>.imp_right List.mem_singleton.mp
    · exact h.fresh later (List.mem_cons_of_mem _ hlater) hset x hold hxset
    · exact absurd hunset (by rw [hxset]; decide)
  distinct := (List.pairwise_cons.mp h.distinct).2

theorem Waiting.move (h : Waiting nNext nUnset s (item :: items)) (hset : item.isUnset = false) :
    Waiting (nextFree nNext item) nUnset (s.move item) items where
  clear := by
    have hrest := h.clear.2
    rwa [if_neg (by rw [hset]; decide)] at hrest
  avoids later hlater := h.avoids later (List.mem_cons_of_mem _ hlater)
  nonneg later hlater := h.nonneg later (List.mem_cons_of_mem _ hlater)
  fresh := by
    intro later hlater hlaterSet x hx hxset
    obtain hold | rfl := List.mem_append.mp hx |>.imp_right List.mem_singleton.mp
    · exact h.fresh later (List.mem_cons_of_mem _ hlater) hlaterSet x hold hxset
    · exact (List.pairwise_cons.mp h.distinct).1 later hlater hset hlaterSet
  distinct := (List.pairwise_cons.mp h.distinct).2

theorem settled_foldl (hs : Settled nNext nUnset s) (h : Waiting nNext nUnset s items) :
    ∃ nNext' nUnset', Settled nNext' nUnset' (items.foldl ReorderState.turn s) := by
  induction items generalizing s nNext nUnset with
  | nil => exact ⟨nNext, nUnset, hs⟩
  | cons item items ih =>
    rw [List.foldl_cons, ReorderState.turn]
    cases hitem : item.isUnset with
    | true =>
      rw [if_pos rfl]
      exact ih (hs.give hitem) (h.give hs hitem)
    | false =>
      rw [if_neg (by decide)]
      have hmem := List.mem_cons_self (a := item) (l := items)
      exact ih (hs.move hitem (h.nonneg item hmem hitem) (h.avoids item hmem hitem)
        (h.fresh item hmem hitem)) (h.move hitem)

theorem placed_foldl (items : List TxItem) (s : ReorderState) :
    (items.foldl ReorderState.turn s).placed.map Prod.fst = s.placed.map Prod.fst ++ items := by
  induction items generalizing s with
  | nil => exact (List.append_nil _).symm
  | cons item items ih =>
    have hturn : (s.turn item).placed.map Prod.fst = s.placed.map Prod.fst ++ [item] := by
      unfold ReorderState.turn
      split <;> exact List.map_append
    rw [List.foldl_cons, ih, hturn, List.append_assoc]
    rfl

theorem foldlM_reorderTurn {fWritten : TxItem → ℤ → Bool}
    (h : items.foldlM (reorderTurn fWritten) s = some t) : t = items.foldl ReorderState.turn s := by
  induction items generalizing s with
  | nil => exact (Option.some.inj h).symm
  | cons item items ih =>
    rw [List.foldlM_cons] at h
    obtain ⟨next, hnext, hrest⟩ := Option.bind_eq_some_iff.mp h
    unfold reorderTurn at hnext
    split at hnext
    · obtain rfl := Option.some.inj hnext
      exact ih hrest
    · cases hnext

theorem perm_txByTime {mapWallet : List ListedTx} {entries : List AccountEntry}
    (haccounts : ∀ entry ∈ entries, entry.strAccount = []) :
    (txByTime mapWallet entries).Perm (mapWallet.map TxItem.tx ++ entries.map TxItem.acentry) := by
  have hlisted : listAccountCreditDebit entries [] = entries := by
    apply List.filter_eq_self.mpr
    intro entry hentry
    rw [haccounts entry hentry]
    rfl
  unfold txByTime
  rw [hlisted]
  exact List.mergeSort_perm _ _

theorem txByTime_sorted (mapWallet : List ListedTx) (entries : List AccountEntry) :
    (txByTime mapWallet entries).Pairwise fun item item' ↦ item.time ≤ item'.time := by
  apply (List.pairwise_mergeSort (fun a b c ↦ ?_) (fun a b ↦ ?_) _).imp of_decide_eq_true
  · intro hab hbc
    exact decide_eq_true ((of_decide_eq_true hab).trans (of_decide_eq_true hbc))
  · rw [Bool.or_eq_true, decide_eq_true_eq, decide_eq_true_eq]
    exact Int.le_total a.time b.time

/-- Items that keep clear of the positions that are given away are in a total order afterwards. -/
theorem totallyOrdered_of_keepsClear {fWritten : TxItem → ℤ → Bool} {mapWallet : List ListedTx}
    {entries : List AccountEntry} {placed : List (TxItem × ℤ)} {nOrderPosNext : ℤ}
    (hdistinct : DistinctPositions mapWallet entries)
    (hpositions : ∀ item ∈ mapWallet.map TxItem.tx ++ entries.map TxItem.acentry, -1 ≤ item.nOrderPos)
    (haccounts : ∀ entry ∈ entries, entry.strAccount = [])
    (hclear : KeepsClear 0 0 (txByTime mapWallet entries))
    (h : reorderTransactions fWritten mapWallet entries = some (placed, nOrderPosNext)) :
    TotallyOrdered placed nOrderPosNext := by
  have hperm := @perm_txByTime mapWallet entries haccounts
  have hwaiting : Waiting 0 0 ⟨[], 0, []⟩ (txByTime mapWallet entries) := by
    refine ⟨hclear, fun _ _ _ _ hi ↦ absurd hi (Nat.not_lt_zero _), fun item hitem hset ↦ ?_,
      fun _ _ _ _ hx ↦ absurd hx List.not_mem_nil, ?_⟩
    · have hlow := hpositions item (hperm.mem_iff.mp hitem)
      have hne := of_decide_eq_false hset
      omega
    · have hpairwise := List.pairwise_filter.mp hdistinct
      have hsorted := (hperm.pairwise_iff fun hxy hx hy ↦ (hxy hy hx).symm).mpr hpairwise
      exact hsorted.imp fun hne hx hy ↦ hne (by rw [hx]; rfl) (by rw [hy]; rfl)
  obtain ⟨s, hs, hrest⟩ := Option.bind_eq_some_iff.mp h
  obtain rfl := foldlM_reorderTurn hs
  have hnoOthers : (entries.filter fun entry ↦ !entry.strAccount.isEmpty) = [] := by
    apply List.filter_eq_nil_iff.mpr
    intro entry hentry
    rw [haccounts entry hentry]
    decide
  dsimp only at hrest
  rw [hnoOthers, List.map_nil, List.append_nil] at hrest
  obtain ⟨rfl, rfl⟩ := Prod.mk.inj (Option.some.inj hrest)
  obtain ⟨nNext, nUnset, hsettled⟩ := settled_foldl settled_start hwaiting
  have hplaced := placed_foldl (txByTime mapWallet entries) ⟨[], 0, []⟩
  generalize (txByTime mapWallet entries).foldl ReorderState.turn ⟨[], 0, []⟩ = t at hsettled hplaced ⊢
  have htimes : t.placed.Pairwise fun x y ↦ x.1.time ≤ y.1.time := by
    have hsorted := txByTime_sorted mapWallet entries
    change t.placed.map Prod.fst = txByTime mapWallet entries at hplaced
    rw [← hplaced, List.pairwise_map] at hsorted
    exact hsorted
  refine ⟨hsettled.nodup, hsettled.nonneg, ?_, ?_, hsettled.below⟩
  · intro x hx y hy hxset hyset hlt
    rw [hsettled.moved x hx hxset, hsettled.moved y hy hyset]
    exact shifted_lt hlt
  · -- The older item comes first in the list.
    intro x hx y hy hunset hlt
    obtain ⟨i, hi, rfl⟩ := List.mem_iff_getElem.mp hx
    obtain ⟨j, hj, rfl⟩ := List.mem_iff_getElem.mp hy
    have hij : i < j := by
      by_contra hnot
      obtain heq | hgt := Nat.eq_or_lt_of_not_lt hnot
      · subst heq
        omega
      · have hle := List.pairwise_iff_getElem.mp htimes j i hj hi hgt
        omega
    exact List.pairwise_iff_getElem.mp hsettled.behind i j hi hj hij hunset

namespace ReorderExample

/-- An entry of the default account. -/
def entry (nTime nOrderPos : ℤ) : AccountEntry := ⟨⟨1, nTime, [], [], ∅, nOrderPos, []⟩, [], nTime.toNat⟩

/-- An entry without a position, and one with the position 0 after it. -/
def oneUnset : List AccountEntry := [entry 100 (-1), entry 200 0]

def twoUnset : List AccountEntry := [entry 100 (-1), entry 150 (-1), entry 200 0]

theorem txByTime_oneUnset : txByTime [] oneUnset = oneUnset.map TxItem.acentry :=
  List.mergeSort_of_pairwise (by decide)

theorem txByTime_twoUnset : txByTime [] twoUnset = twoUnset.map TxItem.acentry :=
  List.mergeSort_of_pairwise (by decide)

theorem reorder_oneUnset : reorderTransactions (fun _ _ ↦ true) [] oneUnset =
    some ([(.acentry (entry 100 (-1)), 0), (.acentry (entry 200 0), 1)], 2) := by
  rw [reorderTransactions, txByTime_oneUnset]
  rfl

theorem reorder_twoUnset : reorderTransactions (fun _ _ ↦ true) [] twoUnset =
    some ([(.acentry (entry 100 (-1)), 0), (.acentry (entry 150 (-1)), 1),
      (.acentry (entry 200 0), 1)], 2) := by
  rw [reorderTransactions, txByTime_twoUnset]
  rfl

theorem totallyOrdered_oneUnset :
    TotallyOrdered [(.acentry (entry 100 (-1)), 0), (.acentry (entry 200 0), 1)] 2 :=
  totallyOrdered_of_keepsClear (by unfold DistinctPositions; decide) (by decide) (by decide)
    (by rw [txByTime_oneUnset]; refine ⟨?_, ?_, trivial⟩ <;> decide) reorder_oneUnset

/-- The position 0 is moved by one, and the position 1 is given away. -/
theorem not_totallyOrdered : ¬∀ (fWritten : TxItem → ℤ → Bool) (mapWallet : List ListedTx)
    (entries : List AccountEntry) (placed : List (TxItem × ℤ)) (nOrderPosNext : ℤ),
      DistinctPositions mapWallet entries →
      reorderTransactions fWritten mapWallet entries = some (placed, nOrderPosNext) →
        TotallyOrdered placed nOrderPosNext := by
  intro h
  have hordered := h _ [] twoUnset _ _ (by unfold DistinctPositions; decide) reorder_twoUnset
  exact absurd hordered.nodup (by decide)

end ReorderExample

end Electra.Wallet
