import Mathlib.Data.List.Basic

/-!
# Marks that are cleared and set

Each event clears the marks of some cells and sets those of others.  When no event sets a mark that the
event itself or a later one clears, a cell that is cleared at all ends up marked exactly if some event
sets it, whatever the marks were at the beginning.
-/

namespace Electra.Foundations.MarkTable

variable {E K : Type*} (clears sets : E → K → Bool)

def step (t : K → Bool) (e : E) : K → Bool := fun k ↦ !clears e k && (t k || sets e k)

def run (t : K → Bool) (events : List E) : K → Bool := events.foldl (step clears sets) t

/-- An event sets nothing that the event itself or a later one clears. -/
structure Ordered (events : List E) : Prop where
  self : ∀ e ∈ events, ∀ k, sets e k = true → clears e k = false
  later : events.Pairwise fun e e' ↦ ∀ k, sets e k = true → clears e' k = false

variable {clears sets} {t : K → Bool} {events : List E} {e : E} {k : K}

theorem Ordered.tail (h : Ordered clears sets (e :: events)) : Ordered clears sets events where
  self := fun e' he' ↦ h.self e' (List.mem_cons_of_mem e he')
  later := h.later.of_cons

/-- Where nothing is cleared, marks are only added. -/
theorem run_of_not_cleared (h : ∀ e ∈ events, clears e k = false) :
    run clears sets t events k = true ↔ t k = true ∨ ∃ e ∈ events, sets e k = true := by
  induction events generalizing t with
  | nil => simp [run]
  | cons e events ih =>
    rw [List.forall_mem_cons] at h
    have hstep : step clears sets t e k = (t k || sets e k) := by
      rw [step, h.1, Bool.not_false, Bool.true_and]
    have hrun := @ih (step clears sets t e) h.2
    rw [hstep, Bool.or_eq_true] at hrun
    rw [List.exists_mem_cons_iff, ← or_assoc]
    exact hrun

/-- A cell that is cleared ends up marked exactly if some event sets it. -/
theorem run_iff (h : Ordered clears sets events) (hcleared : ∃ e ∈ events, clears e k = true) :
    run clears sets t events k = true ↔ ∃ e ∈ events, sets e k = true := by
  induction events generalizing t with
  | nil =>
    obtain ⟨e, he, -⟩ := hcleared
    exact absurd he List.not_mem_nil
  | cons e events ih =>
    by_cases hlater : ∃ e' ∈ events, clears e' k = true
    · -- the last event that clears the cell is among the later ones, so that this one does not set it
      obtain ⟨e', he', hclear⟩ := hlater
      have hset : sets e k ≠ true := by
        intro hset
        have hnot := List.rel_of_pairwise_cons h.later he' k hset
        rw [hclear] at hnot
        cases hnot
      rw [List.exists_mem_cons_iff, or_iff_right hset]
      exact ih h.tail ⟨e', he', hclear⟩
    · have hnot : ∀ e' ∈ events, clears e' k = false := by
        intro e' he'
        by_contra hclear
        exact hlater ⟨e', he', eq_true_of_ne_false hclear⟩
      have hclear : clears e k = true := by
        obtain ⟨e', he', hclear⟩ := hcleared
        obtain rfl | htail := List.mem_cons.mp he'
        · exact hclear
        · exact absurd ⟨e', htail, hclear⟩ hlater
      have hset : sets e k ≠ true := by
        intro hset
        have hself := h.self e List.mem_cons_self k hset
        rw [hclear] at hself
        cases hself
      have hstep : step clears sets t e k = false := by
        rw [step, hclear]
        rfl
      have hrun := @run_of_not_cleared _ _ clears sets (step clears sets t e) events k hnot
      rw [hstep] at hrun
      rw [List.exists_mem_cons_iff, or_iff_right hset]
      exact hrun.trans (or_iff_right Bool.false_ne_true)

end Electra.Foundations.MarkTable
