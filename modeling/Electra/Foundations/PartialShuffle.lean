import Mathlib.Data.List.Nodup

/-!
# Partial shuffles

The first places of a list are filled one after the other, each with the element of a place that is
drawn from those not filled yet.  An element stays where it was put, so that the drawn elements stand at
the front in the order in which they were drawn.
-/

namespace Electra.Foundations.PartialShuffle

variable {α β : Type*}

/-- Exchange the elements of two places. -/
def swapAt (l : List α) (i j : ℕ) : List α :=
  match l[i]?, l[j]? with
  | some a, some b => (l.set j a).set i b
  | _, _ => l

/-- Fill a number of places from place `i` on. -/
def shuffle (draw : ℕ → ℕ) : ℕ → ℕ → List α → List α
  | 0, _, l => l
  | nTurns + 1, i, l => shuffle draw nTurns (i + 1) (swapAt l i (draw i))

variable {draw : ℕ → ℕ} {nTurns i j k : ℕ} {l : List α}

theorem swapAt_eq (hi : i < l.length) (hj : j < l.length) :
    swapAt l i j = (l.set j l[i]).set i l[j] := by
  rw [swapAt, List.getElem?_eq_getElem hi, List.getElem?_eq_getElem hj]

theorem perm_swapAt : (swapAt l i j).Perm l := by
  unfold swapAt
  split
  · next a b ha hb =>
    obtain ⟨hi, rfl⟩ := List.getElem?_eq_some_iff.mp ha
    obtain ⟨hj, rfl⟩ := List.getElem?_eq_some_iff.mp hb
    exact List.set_set_perm hj hi
  · exact .refl l

theorem getElem?_swapAt_of_ne (hi : k ≠ i) (hj : k ≠ j) : (swapAt l i j)[k]? = l[k]? := by
  unfold swapAt
  split
  · rw [List.getElem?_set_ne hi.symm, List.getElem?_set_ne hj.symm]
  · rfl

theorem getElem?_swapAt_left (hi : i < l.length) (hj : j < l.length) :
    (swapAt l i j)[i]? = l[j]? := by
  rw [swapAt_eq hi hj, List.getElem?_set_self (by rwa [List.length_set]), List.getElem?_eq_getElem hj]

theorem map_swapAt (f : α → β) : (swapAt l i j).map f = swapAt (l.map f) i j := by
  unfold swapAt
  rw [List.getElem?_map, List.getElem?_map]
  cases l[i]? with
  | none => rfl
  | some a =>
    cases l[j]? with
    | none => rfl
    | some b => rw [List.map_set, List.map_set]; rfl

theorem perm_shuffle : (shuffle draw nTurns i l).Perm l := by
  induction nTurns generalizing i l with
  | zero => exact .refl l
  | succ nTurns ih => exact ih.trans perm_swapAt

theorem map_shuffle (f : α → β) : (shuffle draw nTurns i l).map f = shuffle draw nTurns i (l.map f) := by
  induction nTurns generalizing i l with
  | zero => rfl
  | succ nTurns ih => rw [shuffle, shuffle, ih, map_swapAt]

@[simp]
theorem length_shuffle : (shuffle draw nTurns i l).length = l.length := perm_shuffle.length_eq

/-- Places before the first one that is filled keep their elements. -/
theorem getElem?_shuffle_of_lt (hdraw : ∀ j, i ≤ j → j ≤ draw j) (hk : k < i) :
    (shuffle draw nTurns i l)[k]? = l[k]? := by
  induction nTurns generalizing i l with
  | zero => rfl
  | succ nTurns ih =>
    have hlater : ∀ j, i + 1 ≤ j → j ≤ draw j := fun j hj ↦ hdraw j (Nat.le_of_succ_le hj)
    calc
      (shuffle draw (nTurns + 1) i l)[k]? = (swapAt l i (draw i))[k]? :=
        ih hlater (Nat.lt_succ_of_lt hk)
      _ = l[k]? :=
        getElem?_swapAt_of_ne (Nat.ne_of_lt hk) (Nat.ne_of_lt (Nat.lt_of_lt_of_le hk (hdraw i (Nat.le_refl i))))

/-- The place that is filled first holds what is drawn for it. -/
theorem getElem?_shuffle_self (nTurns : ℕ) (hdraw : ∀ j, i ≤ j → j ≤ draw j) (hi : i < l.length)
    (hlt : draw i < l.length) : (shuffle draw (nTurns + 1) i l)[i]? = l[draw i]? := by
  have hlater : ∀ j, i + 1 ≤ j → j ≤ draw j := fun j hj ↦ hdraw j (Nat.le_of_succ_le hj)
  calc
    (shuffle draw (nTurns + 1) i l)[i]? = (swapAt l i (draw i))[i]? :=
      getElem?_shuffle_of_lt hlater (Nat.lt_succ_self i)
    _ = l[draw i]? := getElem?_swapAt_left hi hlt

/-- A list is shuffled by shuffling its places. -/
theorem getElem?_shuffle (l : List α) : (shuffle draw nTurns i l)[k]? =
    (shuffle draw nTurns i (List.range l.length))[k]?.bind fun j ↦ l[j]? := by
  have hplaces : l.map some = (List.range l.length).map fun j ↦ l[j]? := by
    apply List.ext_getElem?
    intro j
    rw [List.getElem?_map, List.getElem?_map]
    by_cases hj : j < l.length
    · rw [List.getElem?_range hj, List.getElem?_eq_getElem hj]
      exact congrArg some (List.getElem?_eq_getElem hj).symm
    · rw [List.getElem?_eq_none (Nat.le_of_not_lt hj),
        List.getElem?_eq_none (by rw [List.length_range]; exact Nat.le_of_not_lt hj)]
      rfl
  have hshuffled : (shuffle draw nTurns i l).map some =
      (shuffle draw nTurns i (List.range l.length)).map fun j ↦ l[j]? := by
    rw [map_shuffle, map_shuffle, hplaces]
  have hat := congrArg (fun l : List (Option α) ↦ l[k]?) hshuffled
  simp only [List.getElem?_map] at hat
  cases hplace : (shuffle draw nTurns i (List.range l.length))[k]? with
  | none =>
    rw [hplace, Option.map_none, Option.map_eq_none_iff] at hat
    rw [hat]
    rfl
  | some j =>
    rw [hplace, Option.map_some, Option.map_eq_some_iff] at hat
    obtain ⟨a, ha, hj⟩ := hat
    rw [ha, Option.bind_some, hj]

end Electra.Foundations.PartialShuffle
