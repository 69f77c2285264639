import Mathlib.Data.Finset.Union

/-!
# Linked sets

The components of a family of finite sets: two elements are linked if a chain of sets leads from one to
the other, each of which meets the next.  One more set joins the components that it meets.
-/

namespace Electra.Foundations.LinkedSets

variable {α : Type*}

/-! ## Links -/

def Together (family : List (Finset α)) (a b : α) : Prop := ∃ s ∈ family, a ∈ s ∧ b ∈ s

/-- A chain of sets leads from one element to the other. -/
def Linked (family : List (Finset α)) : α → α → Prop := Relation.TransGen (Together family)

/-- An element that one more set reaches. -/
def Near (family : List (Finset α)) (s : Finset α) (a : α) : Prop := a ∈ s ∨ ∃ c ∈ s, Linked family a c

variable {family : List (Finset α)} {s : Finset α} {a b c : α}

theorem Together.symm (h : Together family a b) : Together family b a := by
  obtain ⟨t, ht, ha, hb⟩ := h
  exact ⟨t, ht, hb, ha⟩

theorem Linked.symm (h : Linked family a b) : Linked family b a := by
  induction h with
  | single hone => exact .single hone.symm
  | tail _ hone ih => exact Relation.TransGen.head hone.symm ih

theorem Linked.trans (h : Linked family a b) (h' : Linked family b c) : Linked family a c :=
  Relation.TransGen.trans h h'

theorem Linked.exists_mem (h : Linked family a b) : ∃ t ∈ family, a ∈ t := by
  obtain ⟨t, ht, ha, -⟩ := Relation.TransGen.head'_iff.mp h |>.choose_spec.1
  exact ⟨t, ht, ha⟩

theorem linked_self_iff : Linked family a a ↔ ∃ t ∈ family, a ∈ t := by
  constructor
  · exact Linked.exists_mem
  · intro h
    obtain ⟨t, ht, ha⟩ := h
    exact .single ⟨t, ht, ha, ha⟩

theorem Linked.mono (h : Linked family a b) : Linked (family ++ [s]) a b := by
  apply Relation.TransGen.mono _ a b h
  intro a b hab
  obtain ⟨t, ht, hmem⟩ := hab
  exact ⟨t, List.mem_append_left _ ht, hmem⟩

theorem Near.linked (ha : Near family s a) (hb : b ∈ s) : Linked (family ++ [s]) a b := by
  have hs : ∀ {c}, c ∈ s → Linked (family ++ [s]) c b := fun hc ↦
    .single ⟨s, List.mem_append_right _ List.mem_cons_self, hc, hb⟩
  obtain ha | ⟨c, hc, hlinked⟩ := ha
  · exact hs ha
  · exact hlinked.mono.trans (hs hc)

theorem Near.of_linked (hb : Near family s b) (h : Linked family a b) : Near family s a := by
  obtain hb | ⟨c, hc, hlinked⟩ := hb
  · exact .inr ⟨b, hb, h⟩
  · exact .inr ⟨c, hc, h.trans hlinked⟩

/-- One more set links what it reaches, and nothing else. -/
theorem linked_append :
    Linked (family ++ [s]) a b ↔ Linked family a b ∨ Near family s a ∧ Near family s b := by
  constructor
  · have hone : ∀ {a b}, Together (family ++ [s]) a b →
        Linked family a b ∨ Near family s a ∧ Near family s b := by
      intro a b hab
      obtain ⟨t, ht, ha, hb⟩ := hab
      rw [List.mem_append, List.mem_singleton] at ht
      obtain ht | rfl := ht
      · exact .inl (.single ⟨t, ht, ha, hb⟩)
      · exact .inr ⟨.inl ha, .inl hb⟩
    intro h
    induction h with
    | single hab => exact hone hab
    | tail _ hbc ih =>
      obtain hab | ⟨ha, hb⟩ := ih
      · obtain hbc | ⟨hb, hc⟩ := hone hbc
        · exact .inl (hab.trans hbc)
        · exact .inr ⟨hb.of_linked hab, hc⟩
      · obtain hbc | ⟨-, hc⟩ := hone hbc
        · exact .inr ⟨ha, hb.of_linked hbc.symm⟩
        · exact .inr ⟨ha, hc⟩
  · intro h
    obtain h | ⟨ha, hb⟩ := h
    · exact h.mono
    · have hnonempty : ∃ c, c ∈ s := by
        obtain ha | ⟨c, hc, -⟩ := ha
        · exact ⟨a, ha⟩
        · exact ⟨c, hc⟩
      obtain ⟨c, hc⟩ := hnonempty
      exact (ha.linked hc).trans (hb.linked hc).symm

/-! ## Components -/

/-- The blocks of a family: linked elements are in one block, and no other two; blocks that meet are
equal; an empty set is a block by itself. -/
structure IsComponents (blocks : Set (Finset α)) (family : List (Finset α)) : Prop where
  together : ∀ a b, (∃ t ∈ blocks, a ∈ t ∧ b ∈ t) ↔ Linked family a b
  eq_of_mem : ∀ t ∈ blocks, ∀ u ∈ blocks, ∀ a, a ∈ t → a ∈ u → t = u
  empty : ∅ ∈ blocks ↔ ∅ ∈ family

/-- A partition of what the sets of a family hold. -/
structure IsPartition (blocks : Set (Finset α)) (family : List (Finset α)) : Prop where
  nonempty : ∀ t ∈ blocks, t.Nonempty
  disjoint : ∀ t ∈ blocks, ∀ u ∈ blocks, t ≠ u → Disjoint t u
  covers : ∀ a, (∃ t ∈ blocks, a ∈ t) ↔ ∃ s ∈ family, a ∈ s

theorem isComponents_nil : IsComponents (∅ : Set (Finset α)) [] where
  together a b := by
    constructor
    · intro h
      obtain ⟨t, ht, -⟩ := h
      exact absurd ht (Set.notMem_empty t)
    · intro h
      obtain ⟨t, ht, -⟩ := h.exists_mem
      exact absurd ht List.not_mem_nil
  eq_of_mem t ht := absurd ht (Set.notMem_empty t)
  empty := by simp

variable {blocks : Set (Finset α)} {merged : Finset α}

/-- The blocks together hold what the sets hold. -/
theorem IsComponents.mem_iff (h : IsComponents blocks family) :
    (∃ t ∈ blocks, a ∈ t) ↔ ∃ t ∈ family, a ∈ t := by
  have hself := h.together a a
  simp only [and_self] at hself
  rw [hself, linked_self_iff]

/-- The components are a partition unless an empty set is among them. -/
theorem IsComponents.isPartition_iff (h : IsComponents blocks family) :
    IsPartition blocks family ↔ ∅ ∉ family := by
  rw [← h.empty]
  constructor
  · intro hpart hempty
    exact Finset.not_nonempty_empty (hpart.nonempty ∅ hempty)
  · intro hempty
    refine ⟨fun t ht ↦ ?_, fun t ht u hu hne ↦ ?_, fun a ↦ h.mem_iff⟩
    · apply Finset.nonempty_of_ne_empty
      rintro rfl
      exact hempty ht
    · rw [Finset.disjoint_left]
      intro a hat hau
      exact hne (h.eq_of_mem t ht u hu a hat hau)

/-- One more set is merged with the blocks that it meets; the others stay. -/
theorem IsComponents.append (h : IsComponents blocks family) (hmerged : ∀ a, a ∈ merged ↔
      a ∈ s ∨ ∃ t ∈ blocks, (∃ c ∈ s, c ∈ t) ∧ a ∈ t) :
    IsComponents {t | t = merged ∨ t ∈ blocks ∧ ¬ ∃ c ∈ s, c ∈ t} (family ++ [s]) where
  together a b := by
    have hnear : ∀ a, Near family s a ↔ a ∈ merged := by
      intro a
      rw [hmerged, Near]
      apply or_congr_right
      constructor
      · intro hlinked
        obtain ⟨c, hc, hac⟩ := hlinked
        obtain ⟨t, ht, ha, hct⟩ := (h.together a c).mpr hac
        exact ⟨t, ht, ⟨c, hc, hct⟩, ha⟩
      · intro hblock
        obtain ⟨t, ht, ⟨c, hc, hct⟩, ha⟩ := hblock
        exact ⟨c, hc, (h.together a c).mp ⟨t, ht, ha, hct⟩⟩
    rw [linked_append, hnear, hnear, ← h.together]
    constructor
    · intro hblock
      obtain ⟨t, rfl | ⟨ht, -⟩, ha, hb⟩ := hblock
      · exact .inr ⟨ha, hb⟩
      · exact .inl ⟨t, ht, ha, hb⟩
    · intro hblock
      obtain ⟨t, ht, ha, hb⟩ | ⟨ha, hb⟩ := hblock
      · by_cases hmeets : ∃ c ∈ s, c ∈ t
        · exact ⟨merged, .inl rfl, (hmerged a).mpr (.inr ⟨t, ht, hmeets, ha⟩),
            (hmerged b).mpr (.inr ⟨t, ht, hmeets, hb⟩)⟩
        · exact ⟨t, .inr ⟨ht, hmeets⟩, ha, hb⟩
      · exact ⟨merged, .inl rfl, ha, hb⟩
  eq_of_mem t ht u hu a hat hau := by
    have hapart : ∀ t, t ∈ blocks → (¬ ∃ c ∈ s, c ∈ t) → a ∈ t → a ∉ merged := by
      intro t ht hapart hat ham
      obtain has | ⟨u, hu, ⟨c, hc, hcu⟩, hau⟩ := (hmerged a).mp ham
      · exact hapart ⟨a, has, hat⟩
      · rw [h.eq_of_mem u hu t ht a hau hat] at hcu
        exact hapart ⟨c, hc, hcu⟩
    obtain rfl | ⟨ht, htapart⟩ := ht
    · obtain rfl | ⟨hu, huapart⟩ := hu
      · rfl
      · exact absurd hat (hapart u hu huapart hau)
    · obtain rfl | ⟨hu, -⟩ := hu
      · exact absurd hau (hapart t ht htapart hat)
      · exact h.eq_of_mem t ht u hu a hat hau
  empty := by
    have hempty : ∅ = merged ↔ ∅ = s := by
      constructor
      · intro heq
        apply (Finset.eq_empty_of_forall_notMem fun a ha ↦ ?_).symm
        have hmem := (hmerged a).mpr (.inl ha)
        rw [← heq] at hmem
        exact Finset.notMem_empty a hmem
      · rintro rfl
        apply (Finset.eq_empty_of_forall_notMem fun a ha ↦ ?_).symm
        obtain ha | ⟨t, -, ⟨c, hc, -⟩, -⟩ := (hmerged a).mp ha
        · exact Finset.notMem_empty a ha
        · exact Finset.notMem_empty c hc
    simp only [Set.mem_ofPred_eq, List.mem_append, List.mem_singleton, hempty, h.empty,
      Finset.notMem_empty, and_false, exists_false, not_false_eq_true, and_true]
    rw [or_comm]

end Electra.Foundations.LinkedSets
