import Mathlib.Data.Fintype.Card
import Mathlib.Data.List.NodupEquivFin

/-!
# Greedy matching in order

Demands are to be met by offers, each by one of its own and in the same order.  Meeting the first
demand with the first offer that does is never a mistake: whatever a matching does with that offer,
the other demands can be met by the later ones.

Where the order of the demands is not known, each is assigned the first offer left over that meets it.
No demand that an offer alone can meet is lost then (`isSome_lookup_foldl_assign`), and going through
the offers lists the demands in an order that has a matching.
-/

namespace Electra.Foundations.GreedyMatch

variable {α β : Type*} (R : α → β → Bool)

def greedyMatch : List α → List β → Bool
  | [], _ => true
  | _ :: _, [] => false
  | a :: as, b :: bs => if R a b then greedyMatch as bs else greedyMatch (a :: as) bs

variable {R}

variable {as : List α} {bs : List β}

/-- Fewer demands are met as well. -/
theorem sublistForall₂_tail {S : α → β → Prop} {a : α} (h : List.SublistForall₂ S (a :: as) bs) :
    List.SublistForall₂ S as bs := by
  induction bs with
  | nil => cases h
  | cons b bs ih =>
    cases h with
    | cons _ h => exact h.cons_right
    | cons_right h => exact (ih h).cons_right

theorem greedyMatch_iff_sublistForall₂ (as : List α) (bs : List β) :
    greedyMatch R as bs = true ↔ List.SublistForall₂ (fun a b ↦ R a b = true) as bs := by
  induction bs generalizing as with
  | nil =>
    cases as with
    | nil => exact ⟨fun _ ↦ .nil, fun _ ↦ rfl⟩
    | cons a as => exact ⟨fun h ↦ (Bool.false_ne_true h).elim, fun h ↦ nomatch h⟩
  | cons b bs ih =>
    cases as with
    | nil => exact ⟨fun _ ↦ .nil, fun _ ↦ by simp [greedyMatch]⟩
    | cons a as =>
      rw [greedyMatch]
      split_ifs with hab
      · rw [ih as]
        constructor
        · exact fun h ↦ .cons hab h
        · intro h
          cases h with
          | cons _ h => exact h
          | cons_right h => exact sublistForall₂_tail h
      · rw [ih (a :: as)]
        constructor
        · exact fun h ↦ .cons_right h
        · intro h
          cases h with
          | cons hyes _ => exact absurd hyes hab
          | cons_right h => exact h

theorem sublistForall₂_iff_exists_strictMono {S : α → β → Prop} :
    List.SublistForall₂ S as bs ↔
      ∃ f : Fin as.length → Fin bs.length, StrictMono f ∧ ∀ i, S (as.get i) (bs.get (f i)) := by
  rw [List.sublistForall₂_iff]
  constructor
  · rintro ⟨chosen, hpairs, hsub⟩
    obtain ⟨f, hf⟩ := List.sublist_iff_exists_fin_orderEmbedding_get_eq.mp hsub
    obtain ⟨hlength, hget⟩ := List.forall₂_iff_get.mp hpairs
    refine ⟨fun i ↦ f (i.cast hlength), fun i j hij ↦ f.strictMono hij, fun i ↦ ?_⟩
    rw [← hf]
    exact hget i i.2 (hlength ▸ i.2)
  · rintro ⟨f, hmono, hf⟩
    have hlength : as.length = (List.ofFn fun i ↦ bs.get (f i)).length := (List.length_ofFn).symm
    refine ⟨List.ofFn fun i ↦ bs.get (f i), List.forall₂_iff_get.mpr ⟨hlength, ?_⟩, ?_⟩
    · intro i hi hi'
      rw [List.get_ofFn]
      exact hf ⟨i, hi⟩
    · apply List.sublist_iff_exists_fin_orderEmbedding_get_eq.mpr
      refine ⟨OrderEmbedding.ofStrictMono (fun i ↦ f (i.cast hlength.symm)) fun i j hij ↦ hmono hij,
        fun i ↦ ?_⟩
      rw [List.get_ofFn]
      rfl

/-- The greedy choice decides whether there is a matching. -/
theorem greedyMatch_iff (as : List α) (bs : List β) :
    greedyMatch R as bs = true ↔ ∃ f : Fin as.length → Fin bs.length,
      StrictMono f ∧ ∀ i, R (as.get i) (bs.get (f i)) = true := by
  rw [greedyMatch_iff_sublistForall₂, sublistForall₂_iff_exists_strictMono]

/-- With fewer offers than demands there is none. -/
theorem greedyMatch_eq_false_of_length_lt (h : bs.length < as.length) :
    greedyMatch R as bs = false := by
  apply Bool.eq_false_iff.mpr
  intro hmatch
  obtain ⟨f, hmono, _⟩ := (greedyMatch_iff as bs).mp hmatch
  have hcard := Fintype.card_le_of_injective f hmono.injective
  rw [Fintype.card_fin, Fintype.card_fin] at hcard
  exact absurd h (not_lt.mpr hcard)

/-! ## Matchings and parts of lists -/

section Parts

variable {α β : Type*} {S : α → β → Prop} {as : List α} {bs : List β}

theorem sublistForall₂_reverse (h : List.SublistForall₂ S as bs) :
    List.SublistForall₂ S as.reverse bs.reverse := by
  obtain ⟨chosen, hpairs, hsub⟩ := List.sublistForall₂_iff.mp h
  exact List.sublistForall₂_iff.mpr
    ⟨chosen.reverse, List.forall₂_reverse_iff.mpr hpairs, hsub.reverse⟩

theorem sublistForall₂_take (n : ℕ) (h : List.SublistForall₂ S as bs) :
    List.SublistForall₂ S (as.take n) bs := by
  obtain ⟨chosen, hpairs, hsub⟩ := List.sublistForall₂_iff.mp h
  exact List.sublistForall₂_iff.mpr
    ⟨chosen.take n, List.forall₂_take n hpairs, (List.take_sublist n chosen).trans hsub⟩

theorem exists_of_mem_sublistForall₂ (h : List.SublistForall₂ S as bs) {a : α} (ha : a ∈ as) :
    ∃ b ∈ bs, S a b := by
  induction h with
  | nil => cases ha
  | @cons a' b as bs hab _ ih =>
    cases List.mem_cons.mp ha with
    | inl hfirst => exact ⟨b, List.mem_cons_self, hfirst ▸ hab⟩
    | inr hrest =>
      obtain ⟨b', hb', hab'⟩ := ih hrest
      exact ⟨b', List.mem_cons_of_mem b hb', hab'⟩
  | @cons_right b as bs _ ih =>
    obtain ⟨b', hb', hab'⟩ := ih ha
    exact ⟨b', List.mem_cons_of_mem b hb', hab'⟩

variable {f : β → Option α}

/-- What is listed for the offers meets them in order. -/
theorem sublistForall₂_filterMap (h : ∀ b ∈ bs, ∀ a, f b = some a → S a b) :
    List.SublistForall₂ S (bs.filterMap f) bs := by
  induction bs with
  | nil => exact .nil
  | cons b bs ih =>
    have htail := ih fun b' hb' ↦ h b' (List.mem_cons_of_mem b hb')
    cases hb : f b with
    | none =>
      rw [List.filterMap_cons_none hb]
      exact htail.cons_right
    | some a =>
      rw [List.filterMap_cons_some hb]
      exact .cons (h b List.mem_cons_self a hb) htail

/-- A matching is no longer than a list with something for every offer that it may use. -/
theorem length_le_length_filterMap (hmatch : List.SublistForall₂ S as bs)
    (h : ∀ a ∈ as, ∀ b ∈ bs, S a b → (f b).isSome = true) :
    as.length ≤ (bs.filterMap f).length := by
  induction hmatch with
  | nil => exact Nat.zero_le _
  | @cons a b as bs hab _ ih =>
    obtain ⟨a', ha'⟩ := Option.isSome_iff_exists.mp
      (h a List.mem_cons_self b List.mem_cons_self hab)
    rw [List.filterMap_cons_some ha']
    apply Nat.succ_le_succ
    exact ih fun a ha b hb ↦ h a (List.mem_cons_of_mem _ ha) b (List.mem_cons_of_mem _ hb)
  | @cons_right b as bs _ ih =>
    have htail := ih fun a ha b hb ↦ h a ha b (List.mem_cons_of_mem _ hb)
    apply htail.trans
    rw [List.filterMap_cons]
    cases f b with
    | none => exact le_rfl
    | some a => exact Nat.le_succ _

end Parts

/-! ## Demands in any order -/

section Assign

variable {α β : Type*} [BEq β] (R : α → β → Bool) (bs : List β)

/-- Give the demand the first offer that meets it and is not taken yet. -/
def assign (taken : List (β × α)) (a : α) : List (β × α) :=
  match bs.find? fun b ↦ (taken.lookup b).isNone && R a b with
  | none => taken
  | some b => (b, a) :: taken

variable {R bs} {taken : List (β × α)} {a : α} {b : β} {as : List α}

theorem isSome_lookup_assign (h : (taken.lookup b).isSome = true) :
    ((assign R bs taken a).lookup b).isSome = true := by
  unfold assign
  cases bs.find? fun b ↦ (taken.lookup b).isNone && R a b with
  | none => exact h
  | some b' =>
    simp only [List.lookup_cons]
    split
    · rfl
    · exact h

theorem isSome_lookup_foldl (h : (taken.lookup b).isSome = true) :
    ((as.foldl (assign R bs) taken).lookup b).isSome = true := by
  induction as generalizing taken with
  | nil => exact h
  | cons a as ih => exact ih (isSome_lookup_assign h)

variable [LawfulBEq β]

/-- A demand that only this offer meets gets it, if nothing else did before. -/
theorem isSome_lookup_assign_of_only (hb : b ∈ bs) (hR : R a b = true)
    (honly : ∀ b' ∈ bs, R a b' = true → b' = b) :
    ((assign R bs taken a).lookup b).isSome = true := by
  by_cases htaken : (taken.lookup b).isSome = true
  · exact isSome_lookup_assign htaken
  · have hnone : (taken.lookup b).isNone = true :=
      Option.isNone_iff_eq_none.mpr (Option.not_isSome_iff_eq_none.mp htaken)
    unfold assign
    cases hfind : bs.find? fun b ↦ (taken.lookup b).isNone && R a b with
    | none =>
      have hnot := List.find?_eq_none.mp hfind b hb
      rw [hnone, hR] at hnot
      exact absurd rfl hnot
    | some b' =>
      have hmeets := List.find?_some hfind
      rw [Bool.and_eq_true] at hmeets
      rw [honly b' (List.mem_of_find?_eq_some hfind) hmeets.2]
      simp only [List.lookup_cons_self, Option.isSome_some]

theorem isSome_lookup_foldl_assign (ha : a ∈ as) (hb : b ∈ bs) (hR : R a b = true)
    (honly : ∀ b' ∈ bs, R a b' = true → b' = b) :
    ((as.foldl (assign R bs) taken).lookup b).isSome = true := by
  induction as generalizing taken with
  | nil => cases ha
  | cons first as ih =>
    rw [List.foldl_cons]
    cases List.mem_cons.mp ha with
    | inl hfirst =>
      apply isSome_lookup_foldl
      exact isSome_lookup_assign_of_only hb (hfirst ▸ hR) (hfirst ▸ honly)
    | inr hrest => exact ih hrest

/-- What an offer is assigned to is one of the demands and meets it. -/
theorem of_lookup_foldl_assign
    (h : (as.foldl (assign R bs) taken).lookup b = some a) :
    taken.lookup b = some a ∨ (a ∈ as ∧ R a b = true) := by
  induction as generalizing taken with
  | nil => exact .inl h
  | cons first as ih =>
    cases ih h with
    | inr hrest => exact .inr ⟨List.mem_cons_of_mem _ hrest.1, hrest.2⟩
    | inl hassign =>
      unfold assign at hassign
      cases hfind : bs.find? fun b ↦ (taken.lookup b).isNone && R first b with
      | none =>
        rw [hfind] at hassign
        exact .inl hassign
      | some b' =>
        simp only [hfind, List.lookup_cons] at hassign
        have hmeets := List.find?_some hfind
        rw [Bool.and_eq_true] at hmeets
        split at hassign
        case h_1 heq =>
          obtain rfl := Option.some.inj hassign
          obtain rfl : b = b' := eq_of_beq heq
          exact .inr ⟨List.mem_cons_self, hmeets.2⟩
        case h_2 => exact .inl hassign

end Assign

end Electra.Foundations.GreedyMatch
