import Mathlib.Data.List.TakeWhile
import Mathlib.Order.Lattice

/-!
# Queues ordered by time

Items wait for their times.  An item is put behind those whose times are not later, and those that are due
come first.
-/

namespace Electra.Foundations.TimedQueue

variable {T I : Type*} [LinearOrder T] {q : List (T × I)} {t now : T} {i : I} {e : T × I}

def insertAt (q : List (T × I)) (t : T) (i : I) : List (T × I) :=
  q.takeWhile (·.1 ≤ t) ++ (t, i) :: q.dropWhile (·.1 ≤ t)

def due (now : T) (q : List (T × I)) : List (T × I) := q.takeWhile (·.1 ≤ now)

def later (now : T) (q : List (T × I)) : List (T × I) := q.dropWhile (·.1 ≤ now)

def InOrder (q : List (T × I)) : Prop := q.Pairwise fun e e' ↦ e.1 ≤ e'.1

theorem due_append_later (now : T) (q : List (T × I)) : due now q ++ later now q = q :=
  List.takeWhile_append_dropWhile

theorem mem_insertAt : e ∈ insertAt q t i ↔ e = (t, i) ∨ e ∈ q := by
  have hq : e ∈ q ↔ e ∈ due t q ∨ e ∈ later t q := by rw [← List.mem_append, due_append_later]
  rw [hq, insertAt, List.mem_append, List.mem_cons]
  exact or_left_comm

theorem le_of_mem_due (h : e ∈ due now q) : e.1 ≤ now := by
  unfold due at h
  simpa using List.mem_takeWhile_imp h

theorem InOrder.tail (h : InOrder (e :: q)) : InOrder q := (List.pairwise_cons.mp h).2

theorem InOrder.lt_of_mem_later (h : InOrder q) (he : e ∈ later now q) : now < e.1 := by
  induction q with
  | nil => cases he
  | cons first q ih =>
    unfold later at he
    by_cases hfirst : first.1 ≤ now
    · rw [List.dropWhile_cons_of_pos (by simpa using hfirst)] at he
      exact ih h.tail he
    · rw [List.dropWhile_cons_of_neg (by simpa using hfirst)] at he
      have hlt := not_le.mp hfirst
      cases he with
      | head => exact hlt
      | tail _ hmem => exact hlt.trans_le ((List.pairwise_cons.mp h).1 e hmem)

theorem InOrder.later (h : InOrder q) : InOrder (later now q) := h.sublist (List.dropWhile_sublist _)

theorem InOrder.insertAt (h : InOrder q) : InOrder (insertAt q t i) := by
  refine List.pairwise_append.mpr ⟨h.sublist (List.takeWhile_sublist _), ?_, ?_⟩
  · exact List.pairwise_cons.mpr ⟨fun e he ↦ (h.lt_of_mem_later he).le, h.later⟩
  · intro e he e' he'
    have hle : e.1 ≤ t := le_of_mem_due he
    cases he' with
    | head => exact hle
    | tail _ hmem => exact hle.trans (h.lt_of_mem_later hmem).le

theorem InOrder.mem_due_iff (h : InOrder q) : e ∈ due now q ↔ e ∈ q ∧ e.1 ≤ now := by
  constructor
  · exact fun he ↦ ⟨List.takeWhile_subset _ he, le_of_mem_due he⟩
  · rintro ⟨he, hle⟩
    rw [← due_append_later now q, List.mem_append] at he
    exact he.resolve_right fun hlater ↦ absurd (h.lt_of_mem_later hlater) (not_lt.mpr hle)

end Electra.Foundations.TimedQueue
