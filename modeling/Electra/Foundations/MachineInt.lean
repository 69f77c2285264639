import Mathlib.Data.Int.ModEq
import Mathlib.Algebra.Order.BigOperators.Group.List
import Mathlib.Algebra.Order.Ring.Int

/-!
# Signed machine integers

A 64-bit number holds an integer modulo 2^64.  It is the integer itself just when the integer is in
range, it does not exceed an integer that is not too small, and a quotient shows that a large integer
has wrapped around (`tdiv_int64_lt`).
-/

namespace Electra.Foundations.MachineInt

/-- What an `int64_t` holds of an integer. -/
def int64 (n : ℤ) : ℤ := (n + 2 ^ 63) % 2 ^ 64 - 2 ^ 63

def InInt64 (n : ℤ) : Prop := -2 ^ 63 ≤ n ∧ n < 2 ^ 63

instance (n : ℤ) : Decidable (InInt64 n) := inferInstanceAs (Decidable (_ ∧ _))

theorem inInt64_int64 (n : ℤ) : InInt64 (int64 n) := by
  unfold InInt64 int64
  omega

theorem int64_eq_self_iff {n : ℤ} : int64 n = n ↔ InInt64 n := by
  unfold InInt64 int64
  omega

alias ⟨_, int64_eq_self⟩ := int64_eq_self_iff

theorem int64_modEq (n : ℤ) : int64 n ≡ n [ZMOD 2 ^ 64] := by
  unfold int64 Int.ModEq
  omega

theorem int64_eq_int64_iff {m n : ℤ} : int64 m = int64 n ↔ m ≡ n [ZMOD 2 ^ 64] := by
  unfold int64 Int.ModEq
  omega

theorem int64_add (m n : ℤ) : int64 (int64 m + n) = int64 (m + n) :=
  int64_eq_int64_iff.mpr ((int64_modEq m).add_right n)

theorem int64_int64 (n : ℤ) : int64 (int64 n) = int64 n := int64_eq_int64_iff.mpr (int64_modEq n)

theorem int64_mul (m n : ℤ) : int64 (int64 m * n) = int64 (m * n) :=
  int64_eq_int64_iff.mpr ((int64_modEq m).mul_right n)

/-- An integer that has wrapped around is at least 2^64 above what is held of it. -/
theorem int64_add_le {n : ℤ} (h : 2 ^ 63 ≤ n) : int64 n + 2 ^ 64 ≤ n := by
  unfold int64
  omega

theorem int64_le {n : ℤ} (h : -2 ^ 63 ≤ n) : int64 n ≤ n := by
  unfold int64
  omega

/-! ## Quotients -/

/-- Dividing twice is dividing by the product. -/
theorem tdiv_tdiv {n d d' : ℤ} (hd : 0 ≤ d) : (n.tdiv d).tdiv d' = n.tdiv (d * d') := by
  have hnonneg : ∀ m : ℤ, 0 ≤ m → (m.tdiv d).tdiv d' = m.tdiv (d * d') := by
    intro m hm
    rw [Int.tdiv_eq_ediv_of_nonneg (Int.tdiv_nonneg hm hd), Int.tdiv_eq_ediv_of_nonneg hm,
      Int.tdiv_eq_ediv_of_nonneg hm, Int.ediv_ediv_of_nonneg hd]
  rcases le_total 0 n with hn | hn
  · exact hnonneg n hn
  · have hneg := hnonneg (-n) (neg_nonneg.mpr hn)
    rw [Int.neg_tdiv, Int.neg_tdiv, Int.neg_tdiv] at hneg
    exact neg_injective hneg

theorem inInt64_tdiv {n d : ℤ} (h : InInt64 n) (hd : 0 < d) : InInt64 (n.tdiv d) := by
  obtain ⟨hlow, hhigh⟩ := h
  rcases le_or_gt 0 n with hn | hn
  · have hle : n.tdiv d ≤ n := by
      rw [Int.tdiv_eq_ediv_of_nonneg hn]
      exact Int.ediv_le_self d hn
    have hnonneg : 0 ≤ n.tdiv d := Int.tdiv_nonneg hn hd.le
    exact ⟨by omega, by omega⟩
  · have hneg : n.tdiv d = -((-n).tdiv d) := by rw [Int.neg_tdiv, neg_neg]
    have hle : (-n).tdiv d ≤ -n := by
      rw [Int.tdiv_eq_ediv_of_nonneg (by omega)]
      exact Int.ediv_le_self d (by omega)
    have hnonneg : 0 ≤ (-n).tdiv d := Int.tdiv_nonneg (by omega) hd.le
    exact ⟨by omega, by omega⟩

/-- A quotient is too small if the dividend has wrapped around. -/
theorem tdiv_int64_lt {n d : ℤ} (h : 2 ^ 63 ≤ n) (hd : 0 < d) (hd' : d ≤ 2 ^ 63) :
    (int64 n).tdiv d < n.tdiv d := by
  have hadd := int64_add_le h
  rcases le_or_gt 0 (int64 n) with hn | hn
  · calc (int64 n).tdiv d = int64 n / d := Int.tdiv_eq_ediv_of_nonneg hn
      _ < int64 n / d + 1 := Int.lt_succ _
      _ = (int64 n + 1 * d) / d := (Int.add_mul_ediv_right _ _ hd.ne').symm
      _ ≤ n / d := Int.ediv_le_ediv hd (by omega)
      _ = n.tdiv d := (Int.tdiv_eq_ediv_of_nonneg (by omega)).symm
  · calc (int64 n).tdiv d = -((-int64 n).tdiv d) := by rw [Int.neg_tdiv, neg_neg]
      _ ≤ 0 := neg_nonpos.mpr (Int.tdiv_nonneg (by omega) hd.le)
      _ < 1 := Int.one_pos
      _ = d / d := (Int.ediv_self hd.ne').symm
      _ ≤ n / d := Int.ediv_le_ediv hd (by omega)
      _ = n.tdiv d := (Int.tdiv_eq_ediv_of_nonneg (by omega)).symm

/-! ## Running sums -/

theorem sum_map_le_of_initial {α : Type*} {f : α → ℤ} {as bs : List α} (h : ∀ b ∈ bs, 0 ≤ f b)
    (hinitial : as <+: bs) : (as.map f).sum ≤ (bs.map f).sum := by
  obtain ⟨cs, rfl⟩ := hinitial
  have hrest : 0 ≤ (cs.map f).sum := by
    apply List.sum_nonneg
    intro n hn
    obtain ⟨c, hc, rfl⟩ := List.mem_map.mp hn
    exact h c (List.mem_append_right as hc)
  calc (as.map f).sum ≤ (as.map f).sum + (cs.map f).sum := le_add_of_nonneg_right hrest
    _ = ((as ++ cs).map f).sum := by rw [List.map_append, List.sum_append]

/-- The running sums of numbers that are not negative are in range just when the total is. -/
theorem inInt64_prefixes_iff {α : Type*} {f : α → ℤ} {bs : List α} (h : ∀ b ∈ bs, 0 ≤ f b) :
    (∀ as, as <+: bs → InInt64 (as.map f).sum) ↔ (bs.map f).sum < 2 ^ 63 := by
  constructor
  · intro hrange
    exact (hrange bs (List.prefix_refl bs)).2
  · intro htotal as hinitial
    have hnonneg : 0 ≤ (as.map f).sum := sum_map_le_of_initial (fun a ha ↦ h a (hinitial.subset ha))
      (List.nil_prefix : [] <+: as)
    exact ⟨by omega, (sum_map_le_of_initial h hinitial).trans_lt htotal⟩

end Electra.Foundations.MachineInt
