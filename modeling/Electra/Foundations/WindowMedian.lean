import Mathlib.Algebra.Order.Group.Basic
import Mathlib.Data.List.Sort

/-!
# Medians of a moving window

The upper median of a list is the entry in the middle of the sorted list.  At most half of the entries
are below it, and this count tells medians apart without sorting (`le_median_iff`).  A window that takes
in an entry above its median and lets its oldest entry go has no smaller median afterwards.

In a series whose entries are above the median of a window, and not far below the entry before them, no
entry is far below an earlier one (`Steady.le_of_above`).
-/

namespace Electra.Foundations.WindowMedian

variable {α : Type*} [LinearOrder α]

def sorted (xs : List α) : List α := xs.insertionSort (· ≤ ·)

/-- The upper one of the two middle entries, if there are two. -/
def median (xs : List α) : Option α := (sorted xs)[xs.length / 2]?

theorem length_sorted (xs : List α) : (sorted xs).length = xs.length :=
  List.length_insertionSort _ _

theorem pairwise_sorted (xs : List α) : (sorted xs).Pairwise (· ≤ ·) :=
  List.pairwise_insertionSort _ _

theorem countP_sorted (p : α → Bool) (xs : List α) : (sorted xs).countP p = xs.countP p :=
  (List.perm_insertionSort _ _).countP_eq p

variable {xs : List α} {k : ℕ} {bound m x : α}

/-- In a sorted list the entries below the one at place `k` stand before it. -/
theorem countP_lt_le_of_getElem (hsorted : xs.Pairwise (· ≤ ·)) (hk : k < xs.length)
    (hbound : bound ≤ xs[k]) :
    xs.countP (· < bound) ≤ k := by
  have hafter : (xs.drop k).countP (· < bound) = 0 := by
    rw [List.countP_eq_zero]
    intro x hx
    obtain ⟨i, hi, rfl⟩ := List.mem_drop_iff_getElem.mp hx
    have hle : xs[k] ≤ xs[k + i] := hsorted.sortedLE.getElem_le_getElem_of_le (Nat.le_add_right k i)
    rw [decide_eq_true_iff, not_lt]
    exact hbound.trans hle
  calc xs.countP (· < bound)
      = (xs.take k ++ xs.drop k).countP (· < bound) := by rw [List.take_append_drop]
    _ = (xs.take k).countP (· < bound) := by rw [List.countP_append, hafter, Nat.add_zero]
    _ ≤ (xs.take k).length := List.countP_le_length
    _ ≤ k := List.length_take_le k xs

/-- If the entry at place `k` is below a bound, so are the ones before it. -/
theorem lt_countP_of_getElem (hsorted : xs.Pairwise (· ≤ ·)) (hk : k < xs.length)
    (hbound : xs[k] < bound) :
    k < xs.countP (· < bound) := by
  have hbefore : (xs.take (k + 1)).countP (· < bound) = (xs.take (k + 1)).length := by
    rw [List.countP_eq_length]
    intro x hx
    obtain ⟨i, hi, rfl⟩ := List.mem_take_iff_getElem.mp hx
    have hle : xs[i] ≤ xs[k] := hsorted.sortedLE.getElem_le_getElem_of_le (by omega)
    exact decide_eq_true (hle.trans_lt hbound)
  calc k < (xs.take (k + 1)).length := by
        rw [List.length_take]
        omega
    _ = (xs.take (k + 1)).countP (· < bound) := hbefore.symm
    _ ≤ xs.countP (· < bound) := (List.take_sublist _ _).countP_le

theorem le_median_iff (h : median xs = some m) :
    bound ≤ m ↔ xs.countP (· < bound) ≤ xs.length / 2 := by
  obtain ⟨hk, hm⟩ := List.getElem?_eq_some_iff.mp h
  rw [← countP_sorted]
  constructor
  · intro hbound
    exact countP_lt_le_of_getElem (pairwise_sorted xs) hk (hm ▸ hbound)
  · intro hcount
    by_contra hbound
    have hlt := lt_countP_of_getElem (pairwise_sorted xs) hk (hm ▸ not_le.mp hbound)
    exact absurd hcount (not_le.mpr hlt)

theorem exists_median (h : xs ≠ []) : ∃ m, median xs = some m := by
  have hk : xs.length / 2 < (sorted xs).length := by
    rw [length_sorted]
    exact Nat.div_lt_self (List.length_pos_of_ne_nil h) Nat.one_lt_two
  exact ⟨_, List.getElem?_eq_getElem hk⟩

/-- A window that takes in an entry not below its median has no smaller median afterwards. -/
theorem median_take_le {span : ℕ} {m' : α} (hold : median (xs.take span) = some m) (hx : m ≤ x)
    (hnew : median ((x :: xs).take span) = some m') : m ≤ m' := by
  cases span with
  | zero => cases hold
  | succ span =>
    rw [le_median_iff hnew, List.take_succ_cons, List.countP_cons_of_neg (by simpa using hx)]
    calc (xs.take span).countP (· < m)
        ≤ (xs.take (span + 1)).countP (· < m) :=
          ((List.take_prefix_take_left (Nat.le_succ span)).sublist).countP_le
      _ ≤ (xs.take (span + 1)).length / 2 := (le_median_iff hold).mp le_rfl
      _ ≤ (x :: xs.take span).length / 2 := by
          apply Nat.div_le_div_right
          rw [List.length_cons, List.length_take, List.length_take]
          omega

/-- A bound of the latest entries is one of the median if they are at least half of the window. -/
theorem le_median_of_take (h : median xs = some m) (hfront : ∀ x ∈ xs.take k, bound ≤ x)
    (hhalf : xs.length ≤ 2 * k) : bound ≤ m := by
  rw [le_median_iff h]
  have hnone : (xs.take k).countP (· < bound) = 0 := by
    rw [List.countP_eq_zero]
    intro x hx
    rw [decide_eq_true_iff, not_lt]
    exact hfront x hx
  calc xs.countP (· < bound)
      = (xs.take k ++ xs.drop k).countP (· < bound) := by rw [List.take_append_drop]
    _ = (xs.drop k).countP (· < bound) := by rw [List.countP_append, hnone, Nat.zero_add]
    _ ≤ (xs.drop k).length := List.countP_le_length
    _ ≤ xs.length / 2 := by
        rw [List.length_drop]
        omega

section Series

variable [AddCommGroup α]

/-- A series, the latest entry first, in which every entry is above the median of the window before it and
at most a drift below the entry before it. -/
def Steady (span : ℕ) (drift : α) : List α → Prop
  | [] => True
  | [_] => True
  | x :: y :: xs =>
      (∀ m, median ((y :: xs).take span) = some m → m < x) ∧ y - drift ≤ x ∧ Steady span drift (y :: xs)

variable {span k : ℕ} {drift t bound : α} {xs above below : List α}

theorem Steady.tail (h : Steady span drift (x :: xs)) : Steady span drift xs := by
  cases xs with
  | nil => trivial
  | cons y xs => exact h.2.2

theorem Steady.of_suffix {ys : List α} (h : Steady span drift ys) (hsuffix : xs <:+ ys) :
    Steady span drift xs := by
  induction ys with
  | nil =>
    rw [List.suffix_nil.mp hsuffix]
    trivial
  | cons y ys ih =>
    rcases List.suffix_cons_iff.mp hsuffix with rfl | hrest
    · exact h
    · exact ih h.tail hrest

/-- An entry is above every bound of the latest half of the window before it. -/
theorem Steady.lt_of_window (h : Steady span drift (x :: xs)) (hne : xs ≠ []) (hspan : 0 < span)
    (hhalf : span ≤ 2 * k) (hfront : ∀ y ∈ xs.take k, bound ≤ y) : bound < x := by
  cases xs with
  | nil => exact absurd rfl hne
  | cons y xs =>
    have hwindow : (y :: xs).take span ≠ [] := by
      rw [← List.length_pos_iff, List.length_take, List.length_cons]
      omega
    obtain ⟨m, hm⟩ := exists_median hwindow
    have hlength : ((y :: xs).take span).length ≤ 2 * k := (List.length_take_le _ _).trans hhalf
    have hlatest : ∀ z ∈ ((y :: xs).take span).take k, bound ≤ z := by
      intro z hz
      rw [List.take_take] at hz
      exact hfront z ((List.take_subset_take_left _ (min_le_left _ _)) hz)
    exact (le_median_of_take hm hlatest hlength).trans_lt (h.1 m hm)

/-- No entry is below the first one. -/
theorem Steady.first_le (h : Steady span drift (xs ++ [t])) (hspan : 0 < span) : ∀ x ∈ xs ++ [t], t ≤ x := by
  induction xs with
  | nil => exact fun x hx ↦ (List.mem_singleton.mp hx).ge
  | cons x xs ih =>
    have hrest := ih h.tail
    refine List.forall_mem_cons.mpr ⟨?_, hrest⟩
    exact (h.lt_of_window (by simp) hspan (Nat.le_mul_of_pos_left span Nat.two_pos) fun y hy ↦
      hrest y (List.mem_of_mem_take hy)).le

variable [IsOrderedAddMonoid α]

/-- The latest entries are above a bound as long as few drifts lie between, and afterwards because they are
most of the window. -/
theorem Steady.le_of_above (h : Steady span drift (above ++ t :: below)) (hdrift : 0 ≤ drift)
    (hspan : 0 < span) (hhalf : span ≤ 2 * (k + 1)) :
    (∀ x ∈ above, t - k • drift ≤ x) ∧
      (above.length ≤ k → ∀ x, (above ++ t :: below).head? = some x → t - above.length • drift ≤ x) := by
  induction above with
  | nil =>
    refine ⟨fun x hx ↦ absurd hx List.not_mem_nil, fun _ x hx ↦ ?_⟩
    rw [← Option.some.inj hx, List.length_nil, zero_nsmul, sub_zero]
  | cons x above ih =>
    rw [List.cons_append] at h
    obtain ⟨hall, hclose⟩ := ih h.tail
    obtain ⟨y, ys, hys⟩ : ∃ y ys, above ++ t :: below = y :: ys :=
      List.exists_cons_of_ne_nil (List.append_ne_nil_of_right_ne_nil _ (List.cons_ne_nil _ _))
    have hnear : above.length ≤ k → t - (above.length + 1) • drift ≤ x := by
      intro hfew
      have hy := hclose hfew y (by rw [hys]; rfl)
      have hfall : y - drift ≤ x := by
        rw [hys] at h
        exact h.2.1
      calc t - (above.length + 1) • drift
          = t - above.length • drift - drift := by rw [succ_nsmul, sub_add_eq_sub_sub]
        _ ≤ y - drift := sub_le_sub_right hy drift
        _ ≤ x := hfall
    have hx : t - k • drift ≤ x := by
      by_cases hfew : above.length < k
      · calc t - k • drift
            ≤ t - (above.length + 1) • drift := sub_le_sub_left (nsmul_le_nsmul_left hdrift hfew) t
          _ ≤ x := hnear hfew.le
      · refine (Steady.lt_of_window h (hys ▸ List.cons_ne_nil _ _) hspan hhalf fun z hz ↦ ?_).le
        have hfront : z ∈ above ++ [t] := by
          rw [← List.singleton_append, ← List.append_assoc] at hz
          rw [List.take_append_of_le_length] at hz
          · exact List.mem_of_mem_take hz
          · rw [List.length_append, List.length_singleton]
            omega
        rcases List.mem_append.mp hfront with habove | hlast
        · exact hall z habove
        · rw [List.mem_singleton.mp hlast]
          exact sub_le_self t (nsmul_nonneg hdrift k)
    refine ⟨List.forall_mem_cons.mpr ⟨hx, hall⟩, fun hfew z hz ↦ ?_⟩
    rw [← Option.some.inj hz]
    exact hnear (by rw [List.length_cons] at hfew; omega)

end Series

end Electra.Foundations.WindowMedian
