import Mathlib.Data.List.Sort

/-!
# Indexes from parents to children

A map of keys to ordered sets of keys records which children name a parent.  A child is entered
under each of its parents and taken out again; a set that becomes empty loses its key.  Looking a
parent up creates its key, so keys with empty sets are told apart from missing ones.
-/

namespace Electra.Foundations.InverseIndex

variable {K : Type*}

/-- The children of each parent that has an entry. -/
abbrev ChildIndex (K : Type*) := K → Option (List K)

/-- The children entered under a parent. -/
def under (index : ChildIndex K) (parent : K) : List K := (index parent).getD []

variable [DecidableEq K]

/-- Look a parent up, which creates its entry. -/
def lookUp (index : ChildIndex K) (parent : K) : ChildIndex K :=
  Function.update index parent (some (under index parent))

/-- Take a child out of the set of a parent, and the set out of the index when it gets empty. -/
def eraseUnder (child : K) (index : ChildIndex K) (parent : K) : ChildIndex K :=
  let children := (under index parent).erase child
  Function.update index parent (if children.isEmpty then none else some children)

/-- Take a child out under all its parents. -/
def eraseChild (index : ChildIndex K) (child : K) (parents : List K) : ChildIndex K :=
  parents.foldl (eraseUnder child) index

section Insert

variable [LE K] [DecidableLE K]

/-- Insertion into an ordered set. -/
def setInsert (child : K) (children : List K) : List K :=
  if child ∈ children then children else children.orderedInsert (· ≤ ·) child

def insertUnder (child : K) (index : ChildIndex K) (parent : K) : ChildIndex K :=
  Function.update index parent (some (setInsert child (under index parent)))

/-- Enter a child under all its parents. -/
def insertChild (index : ChildIndex K) (child : K) (parents : List K) : ChildIndex K :=
  parents.foldl (insertUnder child) index

end Insert

/-- No parent has a child twice. -/
def Distinct (index : ChildIndex K) : Prop := ∀ parent, (under index parent).Nodup

/-- No parent has an empty set of children. -/
def NoEmpty (index : ChildIndex K) : Prop := ∀ parent, index parent ≠ some []

@[simp]
theorem under_lookUp (index : ChildIndex K) (parent parent' : K) :
    under (lookUp index parent) parent' = under index parent' := by
  unfold lookUp under
  by_cases heq : parent' = parent
  · rw [heq, Function.update_self]
    rfl
  · rw [Function.update_of_ne heq]

variable {index : ChildIndex K} {parent child parent' child' : K}

theorem Distinct.lookUp (h : Distinct index) (parent : K) :
    Distinct (lookUp index parent) := by
  intro parent'
  rw [under_lookUp]
  exact h parent'

/-- A parent that has an entry keeps it. -/
theorem lookUp_eq_self (h : index parent ≠ none) :
    lookUp index parent = index := by
  unfold lookUp under
  cases hentry : index parent with
  | none => exact absurd hentry h
  | some children =>
    rw [Option.getD_some, ← hentry]
    exact Function.update_eq_self parent index

omit [DecidableEq K] in
theorem ne_none_of_mem_under (h : child ∈ under index parent) : index parent ≠ none := by
  intro hnone
  simp [under, hnone] at h

theorem under_eraseUnder_self (child : K) (index : ChildIndex K) (parent : K) :
    under (eraseUnder child index parent) parent = (under index parent).erase child := by
  have hset : ∀ children : List K, (if children.isEmpty then none else some children).getD [] = children := by
    intro children
    cases children <;> rfl
  rw [under, eraseUnder, Function.update_self]
  exact hset _

theorem eraseUnder_of_ne (child : K) (index : ChildIndex K) (h : parent' ≠ parent) :
    eraseUnder child index parent parent' = index parent' :=
  Function.update_of_ne h _ _

theorem NoEmpty.eraseUnder (h : NoEmpty index) (child parent : K) :
    NoEmpty (eraseUnder child index parent) := by
  intro parent'
  by_cases heq : parent' = parent
  · rw [heq, InverseIndex.eraseUnder, Function.update_self]
    split
    · exact Option.some_ne_none _ ∘ Eq.symm
    · next hne => simpa using hne
  · rw [eraseUnder_of_ne child index heq]
    exact h parent'

theorem Distinct.eraseUnder (h : Distinct index) (child parent : K) :
    Distinct (eraseUnder child index parent) := by
  intro parent'
  by_cases heq : parent' = parent
  · rw [heq, under_eraseUnder_self]
    exact (h parent).erase child
  · rw [under, eraseUnder_of_ne child index heq]
    exact h parent'

theorem mem_under_eraseUnder (h : Distinct index) (child parent : K) :
    child' ∈ under (InverseIndex.eraseUnder child index parent) parent' ↔
      child' ∈ under index parent' ∧ ¬ (child' = child ∧ parent' = parent) := by
  by_cases heq : parent' = parent
  · rw [heq, under_eraseUnder_self, (h parent).mem_erase_iff]
    tauto
  · rw [under, eraseUnder_of_ne child index heq]
    simp [under, heq]

theorem NoEmpty.eraseChild (h : NoEmpty index) (child : K) (parents : List K) :
    NoEmpty (eraseChild index child parents) :=
  List.foldlRecOn parents _ h fun _ hbefore parent _ ↦ hbefore.eraseUnder child parent

theorem Distinct.eraseChild (h : Distinct index) (child : K) (parents : List K) :
    Distinct (eraseChild index child parents) :=
  List.foldlRecOn parents _ h fun _ hbefore parent _ ↦ hbefore.eraseUnder child parent

/-- An erased child is under none of its parents. -/
theorem mem_under_eraseChild (h : Distinct index) (child : K) (parents : List K) :
    child' ∈ under (eraseChild index child parents) parent' ↔
      child' ∈ under index parent' ∧ ¬ (child' = child ∧ parent' ∈ parents) := by
  induction parents generalizing index with
  | nil => simp [eraseChild]
  | cons parent parents ih =>
    have hrest := ih (h.eraseUnder child parent)
    rw [eraseChild, List.foldl_cons]
    rw [show parents.foldl (eraseUnder child) (eraseUnder child index parent) =
      eraseChild (eraseUnder child index parent) child parents from rfl, hrest,
      mem_under_eraseUnder h, List.mem_cons]
    tauto

section Insert

variable [LE K] [DecidableLE K]

theorem mem_setInsert {children : List K} :
    child' ∈ setInsert child children ↔ child' = child ∨ child' ∈ children := by
  unfold setInsert
  split
  · next hmem =>
    constructor
    · exact .inr
    · rintro (rfl | hmem')
      · exact hmem
      · exact hmem'
  · exact List.mem_orderedInsert _

theorem nodup_setInsert {children : List K} (h : children.Nodup) :
    (setInsert child children).Nodup := by
  unfold setInsert
  split
  · exact h
  · next hmem =>
    exact (List.perm_orderedInsert _ child children).nodup_iff.mpr (List.nodup_cons.mpr ⟨hmem, h⟩)

theorem under_insertUnder_self (child : K) (index : ChildIndex K) (parent : K) :
    under (insertUnder child index parent) parent = setInsert child (under index parent) := by
  rw [under, insertUnder, Function.update_self, Option.getD_some]

theorem insertUnder_of_ne (child : K) (index : ChildIndex K) (h : parent' ≠ parent) :
    insertUnder child index parent parent' = index parent' :=
  Function.update_of_ne h _ _

theorem NoEmpty.insertUnder (h : NoEmpty index) (child parent : K) :
    NoEmpty (insertUnder child index parent) := by
  intro parent'
  by_cases heq : parent' = parent
  · rw [heq, InverseIndex.insertUnder, Function.update_self]
    intro hnil
    have hmem : child ∈ setInsert child (under index parent) := mem_setInsert.mpr (.inl rfl)
    rw [Option.some.inj hnil] at hmem
    cases hmem
  · rw [insertUnder_of_ne child index heq]
    exact h parent'

theorem Distinct.insertUnder (h : Distinct index) (child parent : K) :
    Distinct (insertUnder child index parent) := by
  intro parent'
  by_cases heq : parent' = parent
  · rw [heq, under_insertUnder_self]
    exact nodup_setInsert (h parent)
  · rw [under, insertUnder_of_ne child index heq]
    exact h parent'

theorem NoEmpty.insertChild (h : NoEmpty index) (child : K) (parents : List K) :
    NoEmpty (insertChild index child parents) :=
  List.foldlRecOn parents _ h fun _ hbefore parent _ ↦ hbefore.insertUnder child parent

theorem Distinct.insertChild (h : Distinct index) (child : K) (parents : List K) :
    Distinct (insertChild index child parents) :=
  List.foldlRecOn parents _ h fun _ hbefore parent _ ↦ hbefore.insertUnder child parent

/-- An inserted child is under each of its parents. -/
theorem mem_under_insertChild (index : ChildIndex K) (child : K) (parents : List K) :
    child' ∈ under (insertChild index child parents) parent' ↔
      child' ∈ under index parent' ∨ child' = child ∧ parent' ∈ parents := by
  induction parents generalizing index with
  | nil => simp [insertChild]
  | cons parent parents ih =>
    have hone : child' ∈ under (insertUnder child index parent) parent' ↔
        child' ∈ under index parent' ∨ child' = child ∧ parent' = parent := by
      by_cases heq : parent' = parent
      · rw [heq, under_insertUnder_self, mem_setInsert]
        tauto
      · rw [under, insertUnder_of_ne child index heq]
        simp [under, heq]
    rw [insertChild, List.foldl_cons]
    rw [show parents.foldl (insertUnder child) (insertUnder child index parent) =
      insertChild (insertUnder child index parent) child parents from rfl, ih, hone, List.mem_cons]
    tauto

end Insert

end Electra.Foundations.InverseIndex
