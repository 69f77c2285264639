import Mathlib.Data.Fintype.BigOperators

/-!
# Tables of buckets

Elements are put into buckets, which are sets or lists.  How often an element occurs in all buckets
changes by one when it is entered into one of them or taken out.
-/

namespace Electra.Foundations.BucketTable

variable {ι α : Type*} [Fintype ι] [DecidableEq ι] [DecidableEq α]

/-! ## Sets -/

section Sets

/-- The number of sets with an element. -/
def references (table : ι → Finset α) (a : α) : ℕ :=
  (Finset.univ.filter fun i ↦ a ∈ table i).card

variable {table : ι → Finset α} {i : ι} {a b : α}

omit [DecidableEq ι] in
theorem references_eq_zero : references table a = 0 ↔ ∀ i, a ∉ table i := by
  rw [references, Finset.card_eq_zero, Finset.filter_eq_empty_iff]
  simp only [Finset.mem_univ, true_imp_iff]

omit [DecidableEq ι] in
theorem references_pos (h : a ∈ table i) : 0 < references table a := by
  rw [Nat.pos_iff_ne_zero, ne_eq, references_eq_zero]
  exact fun hnone ↦ hnone i h

omit [DecidableEq ι] in
/-- Elements that are in the same sets have the same number. -/
theorem references_congr {table' : ι → Finset α} (h : ∀ i, a ∈ table i ↔ a ∈ table' i) :
    references table a = references table' a := by
  unfold references
  simp only [h]

theorem references_insert (h : a ∉ table i) :
    references (Function.update table i (insert a (table i))) b =
      references table b + if b = a then 1 else 0 := by
  by_cases hb : b = a
  · subst hb
    have hset : (Finset.univ.filter fun j ↦ b ∈ Function.update table i (insert b (table i)) j) =
        insert i (Finset.univ.filter fun j ↦ b ∈ table j) := by
      ext j
      by_cases hj : j = i
      · subst hj
        simp
      · simp [hj]
    have hnew : i ∉ Finset.univ.filter fun j ↦ b ∈ table j := by
      simpa using h
    rw [references, hset, Finset.card_insert_of_notMem hnew, if_pos rfl]
    rfl
  · rw [if_neg hb, Nat.add_zero]
    apply references_congr
    intro j
    by_cases hj : j = i
    · subst hj
      simp [hb]
    · rw [Function.update_of_ne hj]

theorem references_erase (h : a ∈ table i) :
    references (Function.update table i ((table i).erase a)) b + (if b = a then 1 else 0) =
      references table b := by
  have hback := @references_insert _ _ _ _ _ (Function.update table i ((table i).erase a)) i
    (a := a) (b := b) (by simp)
  rw [Function.update_self, Function.update_idem, Finset.insert_erase h,
    Function.update_eq_self] at hback
  exact hback.symm

omit [DecidableEq ι] in
theorem references_eraseAll :
    references (fun i ↦ (table i).erase a) b = if b = a then 0 else references table b := by
  by_cases hb : b = a
  · rw [if_pos hb, references_eq_zero]
    intro i
    simp [hb]
  · rw [if_neg hb]
    apply references_congr
    intro i
    rw [Finset.mem_erase, and_iff_right hb]

end Sets

/-! ## Lists -/

section Lists

/-- How often an element stands in the lists. -/
def occurrences (table : ι → List α) (a : α) : ℕ := ∑ i, (table i).count a

/-- The length of all lists together. -/
def size (table : ι → List α) : ℕ := ∑ i, (table i).length

variable {table : ι → List α} {i : ι} {a b : α} {l : List α} {p : ℕ}

omit [DecidableEq α] in
/-- A sum over all lists after one of them has changed. -/
theorem sum_update_add (f : List α → ℕ) :
    ∑ j, f (Function.update table i l j) + f (table i) = ∑ j, f (table j) + f l := by
  have hupdate : (fun j ↦ f (Function.update table i l j)) =
      Function.update (fun j ↦ f (table j)) i (f l) := by
    funext j
    by_cases hj : j = i
    · subst hj
      simp
    · simp [hj]
  have hdiff := Finset.sum_update_of_mem (Finset.mem_univ i) (fun j ↦ f (table j)) (f l)
  have hsplit := Finset.add_sum_erase Finset.univ (fun j ↦ f (table j)) (Finset.mem_univ i)
  rw [Finset.sdiff_singleton_eq_erase] at hdiff
  rw [hupdate, hdiff, ← hsplit]
  omega

omit [DecidableEq ι] in
theorem occurrences_eq_zero : occurrences table a = 0 ↔ ∀ i, a ∉ table i := by
  rw [occurrences, Finset.sum_eq_zero_iff]
  simp only [Finset.mem_univ, true_imp_iff, List.count_eq_zero]

omit [DecidableEq ι] in
theorem occurrences_pos (h : a ∈ table i) : 0 < occurrences table a := by
  rw [Nat.pos_iff_ne_zero, ne_eq, occurrences_eq_zero]
  exact fun hnone ↦ hnone i h

theorem occurrences_perm (h : l.Perm (table i)) :
    occurrences (Function.update table i l) b = occurrences table b := by
  have hsum := @sum_update_add _ _ _ _ table i l (List.count b)
  rw [h.count_eq] at hsum
  exact Nat.add_right_cancel hsum

omit [DecidableEq α] in
theorem size_perm (h : l.Perm (table i)) : size (Function.update table i l) = size table := by
  have hsum := @sum_update_add _ _ _ _ table i l List.length
  rw [h.length_eq] at hsum
  exact Nat.add_right_cancel hsum

theorem occurrences_append :
    occurrences (Function.update table i (table i ++ [a])) b =
      occurrences table b + if b = a then 1 else 0 := by
  have hsum := @sum_update_add _ _ _ _ table i (table i ++ [a]) (List.count b)
  have hcount : [a].count b = if b = a then 1 else 0 := by
    rw [List.count_singleton]
    simp only [beq_iff_eq, eq_comm (a := a)]
  rw [List.count_append, hcount] at hsum
  unfold occurrences
  omega

omit [DecidableEq α] in
theorem size_append : size (Function.update table i (table i ++ [a])) = size table + 1 := by
  have hsum := @sum_update_add _ _ _ _ table i (table i ++ [a]) List.length
  rw [List.length_append, List.length_singleton] at hsum
  unfold size
  omega

/-- One element takes the place of another one. -/
theorem occurrences_set {c : α} (h : (table i)[p]? = some a) :
    occurrences (Function.update table i ((table i).set p c)) b + (if b = a then 1 else 0) =
      occurrences table b + if b = c then 1 else 0 := by
  obtain ⟨hp, ha⟩ := List.getElem?_eq_some_iff.mp h
  have hsum := @sum_update_add _ _ _ _ table i ((table i).set p c) (List.count b)
  have hpos : (if b = a then 1 else 0) ≤ (table i).count b := by
    split
    · next hba =>
      rw [hba]
      exact List.count_pos_iff.mpr (List.mem_of_getElem? h)
    · exact Nat.zero_le _
  rw [List.count_set hp, ha] at hsum
  simp only [beq_iff_eq, eq_comm (b := b)] at hsum
  unfold occurrences
  omega

omit [DecidableEq α] in
theorem size_set {c : α} : size (Function.update table i ((table i).set p c)) = size table := by
  have hsum := @sum_update_add _ _ _ _ table i ((table i).set p c) List.length
  rw [List.length_set] at hsum
  exact Nat.add_right_cancel hsum

end Lists

end Electra.Foundations.BucketTable
