import Mathlib.Data.List.Basic
import Mathlib.Data.List.Induction
import Mathlib.Data.Option.Basic

/-!
# Computations that may be rejected

A check either passes or yields a reason for rejection; a loop of checks stops at the first
rejection.  Success of a sequence is success of its parts (`bind_eq_ok`), and a loop is handled by
an invariant over the processed part of its list (`foldlM_processed`), or by one over its state alone
(`foldlM_invariant`).

A computation may fail.  Its result is remembered, so that it need not be computed again.  What is
remembered is up to date when computing it again would give the same.
-/

namespace Electra.Foundations.Outcome

universe u

variable {ε ε' α σ τ : Type*}

/-- Stop with a reason when a check fails. -/
def rejectIf (bad : Prop) [Decidable bad] (reason : ε) : Except ε Unit :=
  if bad then .error reason else .ok ()

variable {bad : Prop} {reason reason' : ε} {u : Unit} {value : Option α} {l : List α}
  {f : σ → α → Except ε σ} {s s' : σ}

@[simp]
theorem rejectIf_eq_ok [Decidable bad] :
    rejectIf bad reason = .ok u ↔ ¬ bad := by
  unfold rejectIf
  by_cases hbad : bad <;> simp [hbad]

@[simp]
theorem bind_eq_ok {α β : Type u} {x : Except ε α} {f : α → Except ε β} {b : β} :
    (x >>= f) = .ok b ↔ ∃ a, x = .ok a ∧ f a = .ok b := by
  cases x with
  | error reason => simp [bind, Except.bind]
  | ok a => simp [bind, Except.bind]

@[simp]
theorem pure_eq_ok {a b : α} : (pure a : Except ε α) = .ok b ↔ a = b := by
  simp [pure, Except.pure]

@[simp]
theorem mapError_eq_ok {f : ε → ε'} {x : Except ε α} {a : α} :
    x.mapError f = .ok a ↔ x = .ok a := by
  cases x <;> simp [Except.mapError]

theorem ok_bind {α β : Type u} {a : α} {f : α → Except ε β} : (.ok a >>= f) = f a := rfl

theorem error_bind {α β : Type u} {f : α → Except ε β} :
    (.error reason >>= f) = .error reason := rfl

theorem ok_ne_error {a : α} : (.ok a : Except ε α) ≠ .error reason := by
  intro h
  cases h

/-- A sequence is rejected by its first part or by its second one. -/
theorem bind_eq_error {α β : Type u} {x : Except ε α} {f : α → Except ε β} :
    (x >>= f) = .error reason ↔ x = .error reason ∨ ∃ a, x = .ok a ∧ f a = .error reason := by
  cases x with
  | error reason' => simp [bind, Except.bind]
  | ok a => simp [bind, Except.bind]

theorem mapError_eq_error {f : ε → ε'} {x : Except ε α} {reason : ε'} :
    x.mapError f = .error reason ↔ ∃ reason', x = .error reason' ∧ f reason' = reason := by
  cases x <;> simp [Except.mapError]

/-- An absent value is a reason for rejection. -/
def require (value : Option α) (reason : ε) : Except ε α :=
  match value with
  | none => .error reason
  | some a => .ok a

@[simp]
theorem require_eq_ok {a : α} :
    require value reason = .ok a ↔ value = some a := by
  cases value <;> simp [require]

theorem rejectIf_eq_error [Decidable bad] :
    rejectIf bad reason = .error reason' ↔ bad ∧ reason = reason' := by
  unfold rejectIf
  by_cases hbad : bad <;> simp [hbad]

theorem require_eq_error :
    require value reason = .error reason' ↔ value = none ∧ reason = reason' := by
  cases value <;> simp [require]

/-- A check that applies only in some cases. -/
def checkWhen (applies : Prop) [Decidable applies] (check : Except ε Unit) : Except ε Unit :=
  if applies then check else .ok ()

@[simp]
theorem checkWhen_eq_ok {applies : Prop} [Decidable applies] {check : Except ε Unit} :
    checkWhen applies check = .ok u ↔ (applies → check = .ok u) := by
  unfold checkWhen
  by_cases happlies : applies <;> simp [happlies]

theorem exists_eq_ok {x : Except ε α} (h : x.isOk = true) : ∃ a, x = .ok a := by
  cases x with
  | error reason => cases h
  | ok a => exact ⟨a, rfl⟩

/-! ## Loops -/

theorem forM_eq_ok {f : α → Except ε Unit} (h : l.forM f = .ok u) :
    ∀ a ∈ l, f a = .ok () := by
  induction l with
  | nil => simp
  | cons a l ih =>
    rw [List.forM_eq_forM, List.forM_cons, bind_eq_ok] at h
    obtain ⟨v, hone, hrest⟩ := h
    intro b hb
    rcases List.mem_cons.mp hb with rfl | hb
    · exact hone
    · exact ih hrest b hb

/-- Loop rule: what holds of the processed part and the state holds of the whole list at the end. -/
theorem foldlM_processed (Inv : List α → σ → Prop)
    (hstep : ∀ pre a post s s', l = pre ++ a :: post → Inv pre s → f s a = .ok s' →
      Inv (pre ++ [a]) s') (hinit : Inv [] s) (h : l.foldlM f s = .ok s') : Inv l s' := by
  suffices hrest : ∀ post pre s, l = pre ++ post → Inv pre s → post.foldlM f s = .ok s' → Inv l s' from
    hrest l [] s rfl hinit h
  intro post
  induction post with
  | nil =>
    intro pre s hl hinv hrun
    rw [List.foldlM_nil, pure_eq_ok] at hrun
    rw [← hrun, hl, List.append_nil]
    exact hinv
  | cons a post ih =>
    intro pre s hl hinv hrun
    rw [List.foldlM_cons, bind_eq_ok] at hrun
    obtain ⟨t, hone, hrest⟩ := hrun
    exact ih (pre ++ [a]) t (by rw [hl, List.append_assoc, List.singleton_append])
      (hstep pre a post s t hl hinv hone) hrest

/-- Loop rule for a property of the state alone. -/
theorem foldlM_invariant (Inv : σ → Prop) (hstep : ∀ a ∈ l, ∀ s s', Inv s → f s a = .ok s' → Inv s')
    (hinit : Inv s) (h : l.foldlM f s = .ok s') : Inv s' := by
  refine foldlM_processed (fun _ ↦ Inv) ?_ hinit h
  intro pre a post s s' hl hinv hone
  exact hstep a (hl ▸ List.mem_append_right pre List.mem_cons_self) s s' hinv hone

/-- Every element of the list passed its step, in some state of the loop. -/
theorem foldlM_forall (h : l.foldlM f s = .ok s') {a : α} (ha : a ∈ l) : ∃ t t', f t a = .ok t' := by
  induction l generalizing s with
  | nil => cases ha
  | cons b l ih =>
    rw [List.foldlM_cons, bind_eq_ok] at h
    obtain ⟨t, hone, hrest⟩ := h
    rcases List.mem_cons.mp ha with rfl | ha
    · exact ⟨s, t, hone⟩
    · exact ih hrest ha

/-- A rejected loop passed some steps and failed at the next one. -/
theorem foldlM_eq_error (h : l.foldlM f s = .error reason) :
    ∃ pre a post t, l = pre ++ a :: post ∧ pre.foldlM f s = .ok t ∧ f t a = .error reason := by
  induction l generalizing s with
  | nil => cases h
  | cons a l ih =>
    rw [List.foldlM_cons] at h
    cases hone : f s a with
    | error reason' =>
      rw [hone] at h
      exact ⟨[], a, l, s, rfl, rfl, hone.trans h⟩
    | ok u =>
      rw [hone] at h
      obtain ⟨pre, b, post, t, rfl, hpre, hfail⟩ := ih h
      refine ⟨a :: pre, b, post, t, rfl, ?_, hfail⟩
      rw [List.foldlM_cons, hone]
      exact hpre

/-- Loop rule for a loop that passes all its steps; what holds depends on the part that is left. -/
theorem foldlM_total (Inv : List α → σ → Prop)
    (hstep : ∀ a rest s, Inv (a :: rest) s → ∃ s', f s a = .ok s' ∧ Inv rest s') (hinit : Inv l s) :
    ∃ s', l.foldlM f s = .ok s' ∧ Inv [] s' := by
  induction l generalizing s with
  | nil => exact ⟨s, rfl, hinit⟩
  | cons a l ih =>
    obtain ⟨t, hone, ht⟩ := hstep a l s hinit
    obtain ⟨s', hrest, hs'⟩ := ih ht
    refine ⟨s', ?_, hs'⟩
    rw [List.foldlM_cons, bind_eq_ok]
    exact ⟨t, hone, hrest⟩

/-! ## Reasons that do not occur -/

theorem rejectIf_ne_error [Decidable bad] (h : reason ≠ reason') :
    rejectIf bad reason ≠ .error reason' := by
  rw [ne_eq, rejectIf_eq_error]
  exact fun hboth ↦ h hboth.2

theorem require_ne_error (h : reason ≠ reason') :
    require value reason ≠ .error reason' := by
  rw [ne_eq, require_eq_error]
  exact fun hboth ↦ h hboth.2

theorem bind_ne_error {α β : Type u} {x : Except ε α} {f : α → Except ε β} (hx : x ≠ .error reason)
    (hf : ∀ a, f a ≠ .error reason) : (x >>= f) ≠ .error reason := by
  rw [ne_eq, bind_eq_error, not_or]
  exact ⟨hx, fun hlater ↦ hlater.elim fun a ha ↦ hf a ha.2⟩

theorem foldlM_ne_error (h : ∀ a ∈ l, ∀ s, f s a ≠ .error reason) : l.foldlM f s ≠ .error reason := by
  intro hfail
  obtain ⟨_, a, _, t, rfl, _, hone⟩ := foldlM_eq_error hfail
  exact h a (List.mem_append_right _ List.mem_cons_self) t hone

end Electra.Foundations.Outcome

namespace Electra.Foundations.Memo

variable {α : Type*} {memo result result' : Option α}

def UpToDate (memo result : Option α) : Prop := ∀ a, memo = some a → result = some a

theorem upToDate_none : UpToDate none result := by
  intro a h
  cases h

/-- Recalling is computing. -/
theorem UpToDate.or_eq (h : UpToDate memo result) : memo.or result = result := by
  cases memo with
  | none => rfl
  | some a => exact (h a rfl).symm

/-- What is remembered after a recall. -/
theorem UpToDate.recall (h : UpToDate memo result) : UpToDate (memo.or result) result := by
  rw [h.or_eq]
  exact fun _ ha ↦ ha

/-- What is remembered after computing anew, which does not forget when it fails. -/
theorem UpToDate.renew (h : UpToDate memo result) : UpToDate (result.or memo) result := by
  cases result with
  | none => exact h
  | some a => exact fun _ ha ↦ ha

/-- Results may change as long as what is remembered does not. -/
theorem UpToDate.congr (h : UpToDate memo result) (hsame : memo.isSome = true → result' = result) :
    UpToDate memo result' := by
  intro a ha
  rw [hsame (by rw [ha]; rfl)]
  exact h a ha

end Electra.Foundations.Memo
