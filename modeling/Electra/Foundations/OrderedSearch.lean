import Mathlib.Order.Basic
import Std.Data.TreeMap.Lemmas

/-!
# Search in key order

A search probes the values of a map in the order of their keys.  A probe turns a value down, gives the
search up, or finds an answer.
-/

namespace Electra.Foundations

open Std (TreeMap TransCmp LawfulEqCmp)

inductive Probe (β : Type*)
  | next
  | stop
  | found (b : β)
deriving DecidableEq

variable {κ ν β : Type*}

def search (probe : ν → Probe β) : List (κ × ν) → Option (κ × ν × β)
  | [] => none
  | (k, v) :: items =>
      match probe v with
      | .next => search probe items
      | .stop => none
      | .found b => some (k, v, b)

variable {probe : ν → Probe β} {cmp : κ → κ → Ordering}

/-- The entry of `k` answers, and each entry before it is turned down. -/
structure Answers (cmp : κ → κ → Ordering) (probe : ν → Probe β) (items : List (κ × ν))
    (k : κ) (v : ν) (b : β) : Prop where
  mem : (k, v) ∈ items
  found : probe v = .found b
  turned_down : ∀ k' v', (k', v') ∈ items → cmp k' k = .lt → probe v' = .next

variable {k₀ k : κ} {v₀ v : ν} {b : β} {items : List (κ × ν)}

theorem Answers.of_cons_next (hnext : probe v₀ = .next)
    (h : Answers cmp probe ((k₀, v₀) :: items) k v b) :
    Answers cmp probe items k v b := by
  refine ⟨?_, h.found, fun k' v' hmem ↦ h.turned_down k' v' (List.mem_cons_of_mem _ hmem)⟩
  apply (List.mem_cons.mp h.mem).resolve_left
  intro heq
  have hv : v = v₀ := congrArg Prod.snd heq
  have hfound := h.found
  rw [hv, hnext] at hfound
  cases hfound

theorem Answers.cons (hnext : probe v₀ = .next) (h : Answers cmp probe items k v b) :
    Answers cmp probe ((k₀, v₀) :: items) k v b := by
  refine ⟨List.mem_cons_of_mem _ h.mem, h.found, fun k' v' hmem hlt ↦ ?_⟩
  cases hmem with
  | head => exact hnext
  | tail _ hmem => exact h.turned_down k' v' hmem hlt

/-- With its head not turned down, a sorted list has an answer in its head only. -/
theorem Answers.eq_head (hsorted : ((k₀, v₀) :: items).Pairwise fun a b ↦ cmp a.1 b.1 = .lt)
    (hnext : probe v₀ ≠ .next) (h : Answers cmp probe ((k₀, v₀) :: items) k v b) :
    (k, v) = (k₀, v₀) := by
  apply (List.mem_cons.mp h.mem).resolve_right
  intro hmem
  have hlt : cmp k₀ k = .lt := (List.pairwise_cons.mp hsorted).1 (k, v) hmem
  exact hnext (h.turned_down k₀ v₀ List.mem_cons_self hlt)

theorem search_eq_some_iff [TransCmp cmp] (hsorted : items.Pairwise fun a b ↦ cmp a.1 b.1 = .lt) :
    search probe items = some (k, v, b) ↔ Answers cmp probe items k v b := by
  induction items with
  | nil => exact ⟨nofun, fun h ↦ absurd h.mem List.not_mem_nil⟩
  | cons item items ih =>
      obtain ⟨k₀, v₀⟩ := item
      have htail := ih (List.pairwise_cons.mp hsorted).2
      cases hprobe : probe v₀ with
      | next =>
          calc search probe ((k₀, v₀) :: items) = some (k, v, b)
              ↔ search probe items = some (k, v, b) := by rw [search, hprobe]
            _ ↔ Answers cmp probe items k v b := htail
            _ ↔ Answers cmp probe ((k₀, v₀) :: items) k v b :=
                ⟨.cons hprobe, .of_cons_next hprobe⟩
      | stop =>
          rw [search, hprobe]
          refine ⟨nofun, fun h ↦ ?_⟩
          have hhead := h.eq_head hsorted (by rw [hprobe]; nofun)
          have hfound := h.found
          rw [show v = v₀ from congrArg Prod.snd hhead, hprobe] at hfound
          cases hfound
      | found b₀ =>
          rw [search, hprobe]
          constructor
          · intro h
            cases h
            refine ⟨List.mem_cons_self, hprobe, fun k' v' hmem hlt ↦ ?_⟩
            cases hmem with
            | head =>
                have hself : cmp k k = .eq := Std.ReflCmp.compare_self
                rw [hself] at hlt
                cases hlt
            | tail _ hmem =>
                have hgt : cmp k k' = .lt := (List.pairwise_cons.mp hsorted).1 (k', v') hmem
                rw [Std.OrientedCmp.gt_of_lt hgt] at hlt
                cases hlt
          · intro h
            have hhead := h.eq_head hsorted (by rw [hprobe]; nofun)
            have hfound := h.found
            cases hhead
            rw [hprobe] at hfound
            cases hfound
            rfl

/-- An answer among the entries of a map. -/
structure MapAnswers (probe : ν → Probe β) (t : TreeMap κ ν cmp) (k : κ) (v : ν) (b : β) : Prop where
  stored : t[k]? = some v
  found : probe v = .found b
  turned_down : ∀ k' v', t[k']? = some v' → cmp k' k = .lt → probe v' = .next

/-- The search ends with an answer exactly when some entry answers and each before it is turned down. -/
theorem search_toList_eq_some_iff [TransCmp cmp] [LawfulEqCmp cmp] {t : TreeMap κ ν cmp} :
    search probe t.toList = some (k, v, b) ↔ MapAnswers probe t k v b := by
  rw [search_eq_some_iff TreeMap.ordered_keys_toList]
  constructor
  · intro h
    exact ⟨TreeMap.mem_toList_iff_getElem?_eq_some.mp h.mem, h.found, fun k' v' hstored ↦
      h.turned_down k' v' (TreeMap.mem_toList_iff_getElem?_eq_some.mpr hstored)⟩
  · intro h
    exact ⟨TreeMap.mem_toList_iff_getElem?_eq_some.mpr h.stored, h.found, fun k' v' hmem ↦
      h.turned_down k' v' (TreeMap.mem_toList_iff_getElem?_eq_some.mp hmem)⟩

theorem search_toList_eq_none_iff [TransCmp cmp] [LawfulEqCmp cmp] {t : TreeMap κ ν cmp} :
    search probe t.toList = none ↔ ∀ k v b, ¬ MapAnswers probe t k v b := by
  constructor
  · intro h k v b hanswers
    rw [search_toList_eq_some_iff.mpr hanswers] at h
    cases h
  · intro h
    apply Option.eq_none_iff_forall_ne_some.mpr
    rintro ⟨k, v, b⟩ hsome
    exact h k v b (search_toList_eq_some_iff.mp hsome)

end Electra.Foundations
