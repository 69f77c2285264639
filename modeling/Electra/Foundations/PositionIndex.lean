import Mathlib.Data.Int.Notation
import Mathlib.Data.List.Nodup

/-!
# Lists whose elements know their positions

A list is kept together with the position of each of its elements.  Entering an element at the end,
swapping two elements and dropping the last one keep the positions right, so that an element is taken
out by swapping it with the last one.
-/

namespace Electra.Foundations.PositionIndex

variable {α : Type*}

/-- An element has a position if and only if it stands there. -/
def Indexed (l : List α) (pos : α → Option ℤ) : Prop :=
  ∀ a p, pos a = some p ↔ ∃ i : ℕ, p = i ∧ l[i]? = some a

variable {l : List α} {pos : α → Option ℤ} {a b : α} {i j : ℕ}

theorem Indexed.pos_eq (h : Indexed l pos) (hi : l[i]? = some a) : pos a = some (i : ℤ) :=
  (h a i).mpr ⟨i, rfl, hi⟩

theorem Indexed.index_eq (h : Indexed l pos) (hi : l[i]? = some a) (hj : l[j]? = some a) : i = j := by
  have hij := (h.pos_eq hi).symm.trans (h.pos_eq hj)
  exact Int.ofNat_inj.mp (Option.some.inj hij)

theorem Indexed.mem_iff (h : Indexed l pos) : a ∈ l ↔ pos a ≠ none := by
  rw [Option.ne_none_iff_exists', List.mem_iff_getElem?]
  constructor
  · rintro ⟨i, hi⟩
    exact ⟨i, h.pos_eq hi⟩
  · rintro ⟨p, hp⟩
    obtain ⟨i, -, hi⟩ := (h a p).mp hp
    exact ⟨i, hi⟩

theorem Indexed.nodup (h : Indexed l pos) : l.Nodup := by
  apply List.nodup_iff_injective_get.mpr
  intro i j hij
  apply Fin.ext
  apply h.index_eq (a := l.get i)
  · exact List.getElem?_eq_getElem i.isLt
  · rw [hij]
    exact List.getElem?_eq_getElem j.isLt

variable [DecidableEq α]

theorem Indexed.append (h : Indexed l pos) (hnew : pos a = none) :
    Indexed (l ++ [a]) (Function.update pos a (some l.length)) := by
  have hnotMem : a ∉ l := fun hmem ↦ h.mem_iff.mp hmem hnew
  intro b p
  by_cases hb : b = a
  · subst hb
    rw [Function.update_self, Option.some.injEq]
    constructor
    · intro hp
      exact ⟨l.length, hp.symm, List.getElem?_concat_length⟩
    · rintro ⟨i, rfl, hi⟩
      rw [List.getElem?_append] at hi
      split at hi
      · exact absurd (List.mem_of_getElem? hi) hnotMem
      · next hle =>
        have hlength : i - l.length < [b].length := (List.getElem?_eq_some_iff.mp hi).1
        rw [List.length_singleton] at hlength
        omega
  · rw [Function.update_of_ne hb, h b p]
    have hsame : ∀ i : ℕ, (l ++ [a])[i]? = some b ↔ l[i]? = some b := by
      intro i
      grind
    simp only [hsame]

/-- Two elements change places. -/
theorem Indexed.swap (h : Indexed l pos) (hi : l[i]? = some a) (hj : l[j]? = some b) (hne : i ≠ j) :
    Indexed ((l.set i b).set j a)
      (Function.update (Function.update pos a (some j)) b (some i)) := by
  have hab : a ≠ b := by
    rintro rfl
    exact hne (h.index_eq hi hj)
  have hilt : i < l.length := (List.getElem?_eq_some_iff.mp hi).1
  have hjlt : j < l.length := (List.getElem?_eq_some_iff.mp hj).1
  intro c p
  by_cases hcb : c = b
  · subst hcb
    rw [Function.update_self, Option.some.injEq]
    have hplace : ∀ k : ℕ, ((l.set i c).set j a)[k]? = some c ↔ k = i := by
      intro k
      have := fun hk : l[k]? = some c ↦ h.index_eq hk hj
      grind
    simp only [hplace, exists_eq_right]
    exact eq_comm
  · rw [Function.update_of_ne hcb]
    by_cases hca : c = a
    · subst hca
      rw [Function.update_self, Option.some.injEq]
      have hplace : ∀ k : ℕ, ((l.set i b).set j c)[k]? = some c ↔ k = j := by
        intro k
        have := fun hk : l[k]? = some c ↦ h.index_eq hk hi
        grind
      simp only [hplace, exists_eq_right]
      exact eq_comm
    · rw [Function.update_of_ne hca, h c p]
      have hplace : ∀ k : ℕ, ((l.set i b).set j a)[k]? = some c ↔ l[k]? = some c := by
        intro k
        grind
      simp only [hplace]

/-- The last element goes. -/
theorem Indexed.dropLast (h : Indexed l pos) (hlast : l[l.length - 1]? = some a) :
    Indexed l.dropLast (Function.update pos a none) := by
  intro b p
  by_cases hb : b = a
  · subst hb
    rw [Function.update_self]
    constructor
    · intro hnone
      exact absurd hnone (by simp)
    · rintro ⟨i, -, hi⟩
      rw [List.getElem?_dropLast] at hi
      split at hi
      · next hlt => exact absurd (h.index_eq hi hlast) (Nat.ne_of_lt hlt)
      · exact absurd hi (by simp)
  · rw [Function.update_of_ne hb, h b p]
    have hsame : ∀ i : ℕ, l.dropLast[i]? = some b ↔ l[i]? = some b := by
      intro i
      grind
    simp only [hsame]

end Electra.Foundations.PositionIndex
