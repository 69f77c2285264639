import Mathlib.Tactic.TypeStar

/-!
# Runs that only read

A computation may change a state and may fail.  It is decided by a condition if it succeeds without a
change of the state where the condition holds, and fails where it does not.  Sequences and loops are
decided by the conditions of their parts.

A computation may fail after it has changed a state.  It fails cleanly at a state if a failure there
leaves what a view shows of the state as it was.  A sequence whose first part keeps the view fails cleanly
just where its second part does (`Keeps.cleanAt_bind`), and one whose second part cannot fail does so where
its first part does.
-/

namespace Electra.Foundations.ReadOnlyRun

universe u

variable {ε σ α β : Type u}

/-- The result of a computation, and the state it leaves. -/
def runOn (x : ExceptT ε (StateM σ) α) (s : σ) : Except ε α × σ := (ExceptT.run x).run s

theorem runOn_pure {a : α} {s : σ} : runOn (pure a : ExceptT ε (StateM σ) α) s = (.ok a, s) := rfl

theorem runOn_bind {x : ExceptT ε (StateM σ) α} {f : α → ExceptT ε (StateM σ) β} {s : σ} :
    runOn (x >>= f) s = match runOn x s with
      | (.ok a, s') => runOn (f a) s'
      | (.error e, s') => (.error e, s') := by
  unfold runOn
  rw [ExceptT.run_bind]
  show (StateT.run (ExceptT.run x >>= _) s : Except ε β × σ) = _
  rw [StateT.run_bind]
  show (match (StateT.run (ExceptT.run x) s : Except ε α × σ) with | (r, s') => _) = _
  cases StateT.run (ExceptT.run x) s with
  | mk r s' => cases r <;> rfl

/-- Reading the state. -/
theorem runOn_get_bind {f : σ → ExceptT ε (StateM σ) β} {s : σ} :
    runOn (get >>= f) s = runOn (f s) s := rfl

/-- Success that leaves the state as it was if a condition holds, and failure if not. -/
structure DecidedBy (x : ExceptT ε (StateM σ) α) (s : σ) (P : Prop) : Prop where
  ok : P → ∃ a, runOn x s = (.ok a, s)
  error : ¬ P → ∃ e s', runOn x s = (.error e, s')

variable {x : ExceptT ε (StateM σ) α} {f : α → ExceptT ε (StateM σ) β} {s : σ} {P Q : Prop} {a : α}

theorem decidedBy_pure : DecidedBy (pure a : ExceptT ε (StateM σ) α) s True where
  ok _ := ⟨a, runOn_pure⟩
  error h := absurd trivial h

theorem DecidedBy.congr (h : DecidedBy x s P) (hiff : P ↔ Q) : DecidedBy x s Q where
  ok hq := h.ok (hiff.mpr hq)
  error hq := h.error fun hp ↦ hq (hiff.mp hp)

/-- The second part need only be decided where the first one succeeds. -/
theorem DecidedBy.bind (h : DecidedBy x s P) (hf : ∀ a, P → DecidedBy (f a) s Q) :
    DecidedBy (x >>= f) s (P ∧ Q) where
  ok hboth := by
    obtain ⟨a, ha⟩ := h.ok hboth.1
    obtain ⟨b, hb⟩ := (hf a hboth.1).ok hboth.2
    exact ⟨b, by rw [runOn_bind, ha]; exact hb⟩
  error hnot := by
    by_cases hp : P
    · obtain ⟨a, ha⟩ := h.ok hp
      obtain ⟨e, s', he⟩ := (hf a hp).error fun hq ↦ hnot ⟨hp, hq⟩
      exact ⟨e, s', by rw [runOn_bind, ha]; exact he⟩
    · obtain ⟨e, s', he⟩ := h.error hp
      exact ⟨e, s', by rw [runOn_bind, he]⟩

theorem DecidedBy.get_bind {g : σ → ExceptT ε (StateM σ) β} (h : DecidedBy (g s) s P) :
    DecidedBy (get >>= g) s P where
  ok hp := by
    rw [runOn_get_bind]
    exact h.ok hp
  error hp := by
    rw [runOn_get_bind]
    exact h.error hp

theorem DecidedBy.bind_pure {g : α → β} (h : DecidedBy x s P) :
    DecidedBy (x >>= fun a ↦ pure (g a)) s P :=
  (h.bind fun _ _ ↦ decidedBy_pure).congr (and_iff_left trivial)

/-- A loop is decided by the conditions of its turns. -/
theorem decidedBy_foldlM {τ : Type u} {step : β → τ → ExceptT ε (StateM σ) β} (Passes : τ → Prop)
    {l : List τ} (h : ∀ b, ∀ a ∈ l, DecidedBy (step b a) s (Passes a)) (b : β) :
    DecidedBy (l.foldlM step b) s (∀ a ∈ l, Passes a) := by
  induction l generalizing b with
  | nil => exact decidedBy_pure.congr (by simp)
  | cons a l ih =>
    rw [List.foldlM_cons]
    have hlater : ∀ b, DecidedBy (l.foldlM step b) s (∀ a ∈ l, Passes a) := fun b ↦
      ih (fun b a ha ↦ h b a (List.mem_cons_of_mem _ ha)) b
    exact ((h b a List.mem_cons_self).bind fun b _ ↦ hlater b).congr List.forall_mem_cons.symm

/-- A computation that is decided by a condition only reads just where the condition holds. -/
theorem DecidedBy.iff (h : DecidedBy x s P) : (∃ a, runOn x s = (.ok a, s)) ↔ P := by
  constructor
  · intro hok
    obtain ⟨a, ha⟩ := hok
    by_cases hp : P
    · exact hp
    · obtain ⟨e, s', he⟩ := h.error hp
      rw [ha] at he
      cases he
  · exact h.ok

end Electra.Foundations.ReadOnlyRun

namespace Electra.Foundations.CleanFailure

open ReadOnlyRun

universe u

variable {ε σ α β : Type u} {τ : Type*} (view : σ → τ)

/-- The view is the same afterwards, whether the computation fails or not. -/
def Keeps (x : ExceptT ε (StateM σ) α) : Prop := ∀ s, view (runOn x s).2 = view s

def CleanAt (x : ExceptT ε (StateM σ) α) (s : σ) : Prop :=
  ∀ e s', runOn x s = (.error e, s') → view s' = view s

def FailsCleanly (x : ExceptT ε (StateM σ) α) : Prop := ∀ s, CleanAt view x s

/-- The computation does not fail. -/
def Succeeds (x : ExceptT ε (StateM σ) α) : Prop := ∀ s, ∃ a s', runOn x s = (.ok a, s')

variable {view} {x : ExceptT ε (StateM σ) α} {f : α → ExceptT ε (StateM σ) β} {s s' : σ} {a : α}

theorem cleanAt_of_ok (h : runOn x s = (.ok a, s')) : CleanAt view x s := by
  intro e s'' hrun
  rw [h] at hrun
  cases hrun

theorem cleanAt_iff_of_error {e : ε} (h : runOn x s = (.error e, s')) :
    CleanAt view x s ↔ view s' = view s := by
  constructor
  · exact fun hclean ↦ hclean e s' h
  · intro hview e' s'' hrun
    rw [h] at hrun
    cases hrun
    exact hview

theorem keeps_pure (a : α) : Keeps view (pure a : ExceptT ε (StateM σ) α) := fun _ ↦ rfl

theorem keeps_throw (e : ε) : Keeps view (throw e : ExceptT ε (StateM σ) α) := fun _ ↦ rfl

theorem keeps_get : Keeps view (get : ExceptT ε (StateM σ) σ) := fun _ ↦ rfl

theorem cleanAt_get_bind {g : σ → ExceptT ε (StateM σ) β} :
    CleanAt view (get >>= g) s ↔ CleanAt view (g s) s := by
  unfold CleanAt
  rw [runOn_get_bind]

theorem keeps_modify {g : σ → σ} (h : ∀ s, view (g s) = view s) :
    Keeps view (modify g : ExceptT ε (StateM σ) PUnit) := h

theorem Keeps.bind (h : Keeps view x) (hf : ∀ a, Keeps view (f a)) : Keeps view (x >>= f) := by
  intro s
  rw [runOn_bind]
  cases hrun : runOn x s with
  | mk result s' =>
    have hx : view s' = view s := by
      have hkept := h s
      rwa [hrun] at hkept
    cases result with
    | error e => exact hx
    | ok a => exact (hf a s').trans hx

theorem Keeps.failsCleanly (h : Keeps view x) : FailsCleanly view x := by
  intro s e s' hrun
  have hkept := h s
  rwa [hrun] at hkept

theorem succeeds_pure (a : α) : Succeeds (pure a : ExceptT ε (StateM σ) α) := fun s ↦ ⟨a, s, rfl⟩

theorem succeeds_modify (g : σ → σ) : Succeeds (modify g : ExceptT ε (StateM σ) PUnit) :=
  fun s ↦ ⟨⟨⟩, g s, rfl⟩

theorem Succeeds.bind (h : Succeeds x) (hf : ∀ a, Succeeds (f a)) : Succeeds (x >>= f) := by
  intro s
  obtain ⟨a, s', hrun⟩ := h s
  obtain ⟨b, s'', hrest⟩ := hf a s'
  exact ⟨b, s'', by rw [runOn_bind, hrun]; exact hrest⟩

theorem Succeeds.failsCleanly (h : Succeeds x) : FailsCleanly view x := by
  intro s e s' hrun
  obtain ⟨a, s'', hok⟩ := h s
  rw [hok] at hrun
  cases hrun

/-- What only reads at first fails cleanly just where the rest does. -/
theorem Keeps.cleanAt_bind (h : Keeps view x) :
    CleanAt view (x >>= f) s ↔ ∀ a s', runOn x s = (.ok a, s') → CleanAt view (f a) s' := by
  have hkept := h s
  cases hrun : runOn x s with
  | mk result s₁ =>
    rw [hrun] at hkept
    cases result with
    | error e =>
      constructor
      · intro _ a s' heq
        cases heq
      · intro _ e' s' hbind
        rw [runOn_bind, hrun] at hbind
        cases hbind
        exact hkept
    | ok a =>
      have hbind (s : σ) : CleanAt view (x >>= f) s ↔
          ∀ e s', runOn (x >>= f) s = (.error e, s') → view s' = view s := Iff.rfl
      rw [hbind, runOn_bind, hrun]
      constructor
      · intro hclean a' s' heq e s'' hrest
        cases heq
        exact (hclean e s'' hrest).trans hkept.symm
      · intro hclean e s'' hrest
        exact (hclean a s₁ rfl e s'' hrest).trans hkept

theorem Keeps.bind_failsCleanly (h : Keeps view x) (hf : ∀ a, FailsCleanly view (f a)) :
    FailsCleanly view (x >>= f) := fun _ ↦ h.cleanAt_bind.mpr fun a s' _ ↦ hf a s'

end Electra.Foundations.CleanFailure
