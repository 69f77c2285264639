import Mathlib.Data.List.Nodup

/-!
# The most recent part of a history

A window is the last part of a history, of a given size, or all of it if the size is zero.  If only
what is not in the window enters the history, equal entries are farther apart than the size of the
window.
-/

namespace Electra.Foundations.RecentWindow

variable {α : Type*}

/-- The last entries of a history; a window of size zero has no bound. -/
def window (size : ℕ) (history : List α) : List α :=
  if size = 0 then history else history.drop (history.length - size)

@[simp]
theorem window_nil (size : ℕ) : window size ([] : List α) = [] := by simp [window]

theorem window_suffix (size : ℕ) (history : List α) : window size history <:+ history := by
  unfold window
  split
  · exact List.suffix_refl history
  · exact List.drop_suffix _ history

variable {size : ℕ} {history : List α}

theorem length_window_le (hsize : size ≠ 0) (history : List α) :
    (window size history).length ≤ size := by
  rw [window, if_neg hsize, List.length_drop]
  omega

/-- A full window lets its oldest entry go. -/
theorem window_append_of_full (hsize : size ≠ 0) (hfull : (window size history).length = size) (a : α) :
    window size (history ++ [a]) = (window size history).tail ++ [a] := by
  have hlength : size ≤ history.length := by
    rw [window, if_neg hsize, List.length_drop] at hfull
    omega
  rw [window, window, if_neg hsize, if_neg hsize, List.tail_drop, List.length_append,
    List.length_singleton, show history.length + 1 - size = history.length - size + 1 by omega,
    List.drop_append_of_le_length (by omega)]

/-- A window that is not full grows. -/
theorem window_append_of_room (hroom : size = 0 ∨ (window size history).length < size) (a : α) :
    window size (history ++ [a]) = window size history ++ [a] := by
  by_cases hsize : size = 0
  · simp [window, hsize]
  · have hlength : history.length < size := by
      have hshort := hroom.resolve_left hsize
      rw [window, if_neg hsize, List.length_drop] at hshort
      omega
    rw [window, window, if_neg hsize, if_neg hsize, List.length_append, List.length_singleton,
      show history.length + 1 - size = 0 by omega, show history.length - size = 0 by omega]
    rfl

/-- Equal entries of a history are farther apart than the size of the window; without a bound there
are none. -/
def FarApart (size : ℕ) (history : List α) : Prop :=
  ∀ i j a, i < j → history[i]? = some a → history[j]? = some a → size ≠ 0 ∧ i + size < j

theorem farApart_nil (size : ℕ) : FarApart size ([] : List α) := by
  intro i j a _ hi
  simp at hi

/-- What is not in the window may enter the history. -/
theorem FarApart.append (h : FarApart size history) {a : α} (hnew : a ∉ window size history) :
    FarApart size (history ++ [a]) := by
  intro i j b hij hi hj
  have hlast : j < (history ++ [a]).length := (List.getElem?_eq_some_iff.mp hj).1
  rw [List.length_append, List.length_singleton] at hlast
  rw [List.getElem?_append_left (by omega)] at hi
  by_cases hold : j < history.length
  · rw [List.getElem?_append_left hold] at hj
    exact h i j b hij hi hj
  · obtain rfl : j = history.length := by omega
    obtain rfl : a = b := by simpa using hj
    have hsize : size ≠ 0 := by
      rintro rfl
      exact hnew (List.mem_of_getElem? (by simpa [window] using hi))
    refine ⟨hsize, ?_⟩
    by_contra hnear
    refine hnew ?_
    rw [window, if_neg hsize]
    refine List.mem_of_getElem? (i := i - (history.length - size)) ?_
    rw [List.getElem?_drop, show history.length - size + (i - (history.length - size)) = i by omega, hi]

/-- A window has no duplicates. -/
theorem FarApart.nodup_window (h : FarApart size history) :
    (window size history).Nodup := by
  rw [List.nodup_iff_getElem?_ne_getElem?]
  intro i j hij hj heq
  have hsome : ∃ a, (window size history)[j]? = some a := ⟨_, List.getElem?_eq_getElem hj⟩
  obtain ⟨a, ha⟩ := hsome
  rw [ha] at heq
  unfold window at ha heq hj
  split at ha
  · next hsize =>
    rw [if_pos hsize] at heq
    exact (h i j a hij heq ha).1 hsize
  · next hsize =>
    rw [if_neg hsize] at heq hj
    rw [List.getElem?_drop] at ha heq
    have hfar := (h _ _ a (by omega) heq ha).2
    rw [List.length_drop] at hj
    omega

end Electra.Foundations.RecentWindow
