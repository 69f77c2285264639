import Mathlib.Data.Finset.Basic
import Mathlib.Data.List.AList

/-!
# A priority queue with dependencies

Items are ready, or they wait until some keys are done.  A heap takes the highest of the ready items;
when a key is done, the items that waited for nothing else become ready.  Every item is pending once,
whether it is ready or waits, until it is taken.
-/

namespace Electra.Foundations.ReadyQueue

variable {K α : Type*}

/-- A comparison that ranks the elements: a strict weak order. -/
structure Ranks (less : α → α → Bool) : Prop where
  irrefl : ∀ a, less a a = false
  trans : ∀ a b c, less a b = true → less b c = true → less a c = true
  cotrans : ∀ a b c, less a b = false → less b c = false → less a c = false

/-- A heap takes out one element, for a comparison that ranks them one of the highest. -/
structure Heap (α : Type*) where
  take : (α → α → Bool) → List α → Option (α × List α)
  isSome_take : ∀ less l, l ≠ [] → (take less l).isSome
  perm_take : ∀ less l x rest, take less l = some (x, rest) → l.Perm (x :: rest)
  highest : ∀ less l x rest, Ranks less → take less l = some (x, rest) →
    ∀ y ∈ rest, less x y = false

/-- Go through a list with the highest element so far. -/
def pickHighest (less : α → α → Bool) : α → List α → α × List α
  | best, [] => (best, [])
  | best, x :: l =>
      if less best x then
        let (highest, rest) := pickHighest less x l
        (highest, best :: rest)
      else
        let (highest, rest) := pickHighest less best l
        (highest, x :: rest)

theorem perm_pickHighest (less : α → α → Bool) (best : α) (l : List α) :
    (best :: l).Perm ((pickHighest less best l).1 :: (pickHighest less best l).2) := by
  induction l generalizing best with
  | nil => exact .refl _
  | cons x l ih =>
    unfold pickHighest
    split
    · exact ((ih x).cons best).trans (.swap _ _ _)
    · exact (List.Perm.swap x best l).trans (((ih best).cons x).trans (.swap _ _ _))

theorem pickHighest_highest {less : α → α → Bool} (hranks : Ranks less) (best : α) (l : List α) :
    less (pickHighest less best l).1 best = false ∧
      ∀ y ∈ (pickHighest less best l).2, less (pickHighest less best l).1 y = false := by
  induction l generalizing best with
  | nil => exact ⟨hranks.irrefl best, by simp [pickHighest]⟩
  | cons x l ih =>
    unfold pickHighest
    split
    · next hless =>
      obtain ⟨hx, hrest⟩ := ih x
      have hbest : less (pickHighest less x l).1 best = false := by
        by_contra hlow
        have := hranks.trans _ _ _ (Bool.eq_true_of_not_eq_false hlow) hless
        rw [hx] at this
        cases this
      refine ⟨hbest, ?_⟩
      intro y hy
      rcases List.mem_cons.mp hy with rfl | hy
      · exact hbest
      · exact hrest y hy
    · next hless =>
      obtain ⟨hbest, hrest⟩ := ih best
      refine ⟨hbest, ?_⟩
      intro y hy
      rcases List.mem_cons.mp hy with rfl | hy
      · exact hranks.cotrans _ _ _ hbest (Bool.eq_false_iff.mpr hless)
      · exact hrest y hy

/-- The heap that takes the first of the highest elements. -/
def firstHighest : Heap α where
  take less
    | [] => none
    | best :: l => some (pickHighest less best l)
  isSome_take less l hl := by
    cases l with
    | nil => exact absurd rfl hl
    | cons best l => rfl
  perm_take less l x rest htake := by
    cases l with
    | nil => cases htake
    | cons best l =>
      obtain ⟨rfl, rfl⟩ := Prod.mk.inj (Option.some.inj htake)
      exact perm_pickHighest less best l
  highest less l x rest hranks htake := by
    cases l with
    | nil => cases htake
    | cons best l =>
      obtain ⟨rfl, rfl⟩ := Prod.mk.inj (Option.some.inj htake)
      exact (pickHighest_highest hranks best l).2

/-- An item with the keys it still waits for. -/
structure Waiter (K α : Type*) where
  dependsOn : Finset K
  item : α

end Electra.Foundations.ReadyQueue

namespace Electra.Foundations

open ReadyQueue

/-- The ready items, the others by their own keys, and for each key who waits for it. -/
structure ReadyQueue (K α : Type*) where
  ready : List α
  waiting : AList fun _ : K ↦ Waiter K α
  dependers : K → List K

namespace ReadyQueue

variable {K α : Type*} [DecidableEq K]

def empty : ReadyQueue K α := ⟨[], ∅, fun _ ↦ []⟩

/-- An item that is ready. -/
def push (q : ReadyQueue K α) (item : α) : ReadyQueue K α := { q with ready := q.ready ++ [item] }

/-- Note that an item, named by its key, waits for another key. -/
def noteDepender (q : ReadyQueue K α) (awaited key : K) : ReadyQueue K α :=
  let keys := q.dependers awaited ++ [key]
  { q with dependers := Function.update q.dependers awaited keys }

/-- An item that waits. -/
def hold (q : ReadyQueue K α) (key : K) (waiter : Waiter K α) : ReadyQueue K α :=
  { q with waiting := q.waiting.insert key waiter }

/-- One item no longer waits for a key; `none` if there is no such item. -/
def releaseOne (done : K) (q : ReadyQueue K α) (key : K) : Option (ReadyQueue K α) :=
  (q.waiting.lookup key).map fun waiter ↦
    if waiter.dependsOn = ∅ then q
    else
      let waiter := { waiter with dependsOn := waiter.dependsOn.erase done }
      let q := q.hold key waiter
      if waiter.dependsOn = ∅ then q.push waiter.item else q

/-- A key is done: the items that wait for nothing else become ready. -/
def release (q : ReadyQueue K α) (done : K) : Option (ReadyQueue K α) :=
  (q.dependers done).foldlM (releaseOne done) q

/-- The items that still wait. -/
def blocked (q : ReadyQueue K α) : List (Σ _ : K, Waiter K α) :=
  q.waiting.entries.filter fun entry ↦ entry.2.dependsOn ≠ ∅

/-- The items that are ready or wait. -/
def pending (q : ReadyQueue K α) : List α := q.ready ++ q.blocked.map fun entry ↦ entry.2.item

/-- Take a ready item out, one of the highest. -/
def take (heap : Heap α) (less : α → α → Bool) (q : ReadyQueue K α) : Option (α × ReadyQueue K α) :=
  (heap.take less q.ready).map fun taken ↦ (taken.1, { q with ready := taken.2 })

theorem perm_pending_push (q : ReadyQueue K α) (item : α) :
    (q.push item).pending.Perm (item :: q.pending) := by
  have happend : (q.push item).pending = q.ready ++ item :: q.blocked.map fun entry ↦ entry.2.item := by
    simp [pending, push, blocked]
  rw [happend]
  exact List.perm_middle

variable {key done : K} {waiter : Waiter K α} {q q' : ReadyQueue K α} {heap : Heap α}

theorem perm_entries_of_lookup {waiting : AList fun _ : K ↦ Waiter K α}
    (h : waiting.lookup key = some waiter) :
    waiting.entries.Perm (⟨key, waiter⟩ :: (waiting.erase key).entries) := by
  have hmem : key ∈ waiting.keys := AList.lookup_isSome.mp (by rw [h]; rfl)
  obtain ⟨waiter', l₁, l₂, hl₁, hentries, herase⟩ := List.exists_of_kerase hmem
  have hsame : waiter' = waiter := by
    have hlookup : waiting.entries.dlookup key = some waiter := h
    rw [hentries, List.dlookup_append, List.dlookup_eq_none.mpr hl₁, List.dlookup_cons_eq] at hlookup
    exact Option.some.inj hlookup
  have hrest : (waiting.erase key).entries = l₁ ++ l₂ := herase
  rw [hrest, hentries, hsame]
  exact List.perm_middle

theorem perm_blocked_of_lookup (h : q.waiting.lookup key = some waiter) :
    q.blocked.Perm ((⟨key, waiter⟩ :: (q.waiting.erase key).entries).filter
      fun entry ↦ entry.2.dependsOn ≠ ∅) :=
  (perm_entries_of_lookup h).filter _

theorem blocked_hold (q : ReadyQueue K α) (key : K) (waiter : Waiter K α) :
    (q.hold key waiter).blocked = (⟨key, waiter⟩ :: (q.waiting.erase key).entries).filter
      fun entry ↦ entry.2.dependsOn ≠ ∅ := rfl

theorem perm_pending_hold (hnew : key ∉ q.waiting) (hdepends : waiter.dependsOn ≠ ∅) :
    (q.hold key waiter).pending.Perm (waiter.item :: q.pending) := by
  have hsame : (q.waiting.erase key).entries = q.waiting.entries :=
    List.kerase_of_notMem_keys hnew
  have hmiddle : (q.hold key waiter).pending =
      q.ready ++ waiter.item :: q.blocked.map fun entry ↦ entry.2.item := by
    unfold pending
    rw [blocked_hold, hsame, List.filter_cons_of_pos (by simpa using hdepends)]
    rfl
  rw [hmiddle]
  exact List.perm_middle

/-- Releasing an item moves it from the waiting ones to the ready ones at most. -/
theorem perm_pending_releaseOne (h : releaseOne done q key = some q') : q'.pending.Perm q.pending := by
  obtain ⟨waiter, hlookup, rfl⟩ := Option.map_eq_some_iff.mp h
  split
  · exact .refl _
  · next hdepends =>
    have hblocked := perm_blocked_of_lookup hlookup
    rw [List.filter_cons_of_pos (by simpa using hdepends)] at hblocked
    have hpending := (hblocked.map fun entry ↦ entry.2.item).append_left q.ready
    refine List.Perm.trans ?_ hpending.symm
    by_cases hlast : waiter.dependsOn.erase done = ∅
    · simp only [hlast, if_true]
      refine (perm_pending_push _ _).trans ?_
      unfold pending
      rw [blocked_hold, List.filter_cons_of_neg (by simp)]
      exact List.perm_middle.symm
    · simp only [hlast, if_false]
      unfold pending
      rw [blocked_hold, List.filter_cons_of_pos (by simpa using hlast)]
      exact .refl _

theorem perm_pending_release (h : q.release done = some q') :
    q'.pending.Perm q.pending := by
  unfold release at h
  generalize q.dependers done = keys at h
  induction keys generalizing q with
  | nil =>
    obtain rfl := Option.some.inj h
    exact .refl _
  | cons key keys ih =>
    rw [List.foldlM_cons, Option.bind_eq_bind, Option.bind_eq_some_iff] at h
    obtain ⟨q₁, hone, hrest⟩ := h
    exact (ih hrest).trans (perm_pending_releaseOne hone)

theorem perm_pending_take {less : α → α → Bool} {item : α} (h : q.take heap less = some (item, q')) :
    q.pending.Perm (item :: q'.pending) := by
  obtain ⟨⟨item', rest⟩, htake, heq⟩ := Option.map_eq_some_iff.mp h
  obtain ⟨rfl, rfl⟩ := Prod.mk.inj heq
  exact (heap.perm_take _ _ _ _ htake).append_right _

omit [DecidableEq K] in
/-- Nothing can be taken only when no item is ready. -/
theorem ready_eq_nil_of_take {less : α → α → Bool} (h : q.take heap less = none) : q.ready = [] := by
  by_contra hready
  have htake := heap.isSome_take less q.ready hready
  rw [Option.map_eq_none_iff.mp h] at htake
  cases htake

/-- Every item that is noted to wait for a key is there. -/
def LiveAt (q : ReadyQueue K α) (awaited : K) : Prop := ∀ key ∈ q.dependers awaited, key ∈ q.waiting

theorem mem_dependers_noteDepender {awaited awaited' key' : K} :
    key' ∈ (q.noteDepender awaited key).dependers awaited' ↔
      key' ∈ q.dependers awaited' ∨ awaited' = awaited ∧ key' = key := by
  unfold noteDepender
  by_cases hsame : awaited' = awaited
  · subst hsame
    simp
  · simp [hsame]

theorem mem_waiting_hold {key' : K} :
    key' ∈ (q.hold key waiter).waiting ↔ key' = key ∨ key' ∈ q.waiting := AList.mem_insert _

/-- The same items are noted, and the same items are there. -/
structure SameNotes (q q' : ReadyQueue K α) : Prop where
  dependers : q'.dependers = q.dependers
  waiting : ∀ key, key ∈ q'.waiting ↔ key ∈ q.waiting

omit [DecidableEq K] in
theorem SameNotes.refl (q : ReadyQueue K α) : SameNotes q q := ⟨rfl, fun _ ↦ Iff.rfl⟩

omit [DecidableEq K] in
theorem SameNotes.trans {q₁ q₂ : ReadyQueue K α} (h : SameNotes q q₁) (h₁ : SameNotes q₁ q₂) :
    SameNotes q q₂ :=
  ⟨h₁.dependers.trans h.dependers, fun key ↦ (h₁.waiting key).trans (h.waiting key)⟩

omit [DecidableEq K] in
theorem SameNotes.liveAt_iff (h : SameNotes q q') (awaited : K) :
    q'.LiveAt awaited ↔ q.LiveAt awaited := by
  unfold LiveAt
  rw [h.dependers]
  apply forall₂_congr
  intro key _
  exact h.waiting key

omit [DecidableEq K] in
theorem sameNotes_take {less : α → α → Bool} {item : α} (h : q.take heap less = some (item, q')) :
    SameNotes q q' := by
  obtain ⟨⟨item', rest⟩, -, heq⟩ := Option.map_eq_some_iff.mp h
  obtain ⟨rfl, rfl⟩ := Prod.mk.inj heq
  exact ⟨rfl, fun _ ↦ Iff.rfl⟩

theorem sameNotes_hold (hkey : key ∈ q.waiting) (waiter : Waiter K α) :
    SameNotes q (q.hold key waiter) := by
  refine ⟨rfl, fun key' ↦ ?_⟩
  rw [mem_waiting_hold, or_iff_right_of_imp]
  rintro rfl
  exact hkey

theorem sameNotes_releaseOne (h : releaseOne done q key = some q') : SameNotes q q' := by
  obtain ⟨waiter, hlookup, rfl⟩ := Option.map_eq_some_iff.mp h
  have hkey : key ∈ q.waiting := AList.lookup_isSome.mp (by rw [hlookup]; rfl)
  split
  · exact .refl q
  · have hhold := sameNotes_hold hkey { waiter with dependsOn := waiter.dependsOn.erase done }
    simp only
    split
    · exact ⟨hhold.dependers, hhold.waiting⟩
    · exact hhold

theorem releaseOne_isSome (done : K) (q : ReadyQueue K α) (key : K) :
    (releaseOne done q key).isSome ↔ key ∈ q.waiting := by
  rw [releaseOne, Option.isSome_map, AList.lookup_isSome]

theorem sameNotes_foldlM {keys : List K} (h : keys.foldlM (releaseOne done) q = some q') :
    SameNotes q q' := by
  induction keys generalizing q with
  | nil =>
    obtain rfl := Option.some.inj h
    exact .refl q
  | cons key keys ih =>
    rw [List.foldlM_cons, Option.bind_eq_bind, Option.bind_eq_some_iff] at h
    obtain ⟨q₁, hone, hrest⟩ := h
    exact (sameNotes_releaseOne hone).trans (ih hrest)

theorem sameNotes_release (h : q.release done = some q') :
    SameNotes q q' := sameNotes_foldlM h

theorem foldlM_isSome_iff (done : K) (keys : List K) (q : ReadyQueue K α) :
    (keys.foldlM (releaseOne done) q).isSome ↔ ∀ key ∈ keys, key ∈ q.waiting := by
  induction keys generalizing q with
  | nil => simp
  | cons key keys ih =>
    rw [List.foldlM_cons, List.forall_mem_cons, ← releaseOne_isSome done q key]
    cases hone : releaseOne done q key with
    | none => simp
    | some q₁ =>
      have hsame := sameNotes_releaseOne hone
      simp only [Option.bind_eq_bind, Option.bind_some, Option.isSome_some, true_and, ih,
        hsame.waiting]

/-- A key can be released when all that wait for it are there. -/
theorem release_isSome_iff (q : ReadyQueue K α) (done : K) :
    (q.release done).isSome ↔ q.LiveAt done := foldlM_isSome_iff done _ q

end ReadyQueue

end Electra.Foundations
