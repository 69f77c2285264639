import Mathlib.Data.List.Basic
import Mathlib.Order.Nat

/-!
# Stack machines that may refuse and are charged for their work

A computation ends with a value or a reason for stopping, and costs a number of units either way.
`Meets` says of a computation which reasons it may give, what holds of its value and what it costs at
most.  Stacks are lists with the top first; an access outside the stack stops with a reason of its
own, so that a computation which never gives that reason keeps all its accesses in range.  A machine
repeats a step until it is done; an invariant, a measure that falls and a potential that pays for
the steps bound a whole run (`runFor_meets`).
-/

namespace Electra.Foundations.StackMachine

/-- How a computation ends, and its cost. -/
structure Metered (ε : Type) (α : Type) where
  result : Except ε α
  cost : ℕ

variable {ε : Type} {α β : Type}

instance : Monad (Metered ε) where
  pure a := ⟨.ok a, 0⟩
  bind x f := match x.result with
    | .error reason => ⟨.error reason, x.cost⟩
    | .ok a => ⟨(f a).result, x.cost + (f a).cost⟩

theorem Metered.pure_bind (a : α) (f : α → Metered ε β) : (pure a >>= f) = f a := by
  show (⟨(f a).result, 0 + (f a).cost⟩ : Metered ε β) = f a
  rw [Nat.zero_add]

theorem Metered.bind_assoc {γ : Type} (x : Metered ε α) (f : α → Metered ε β)
    (g : β → Metered ε γ) : x >>= f >>= g = x >>= fun a ↦ f a >>= g := by
  obtain ⟨result, cost⟩ := x
  cases result with
  | error reason => rfl
  | ok a =>
    simp only [Bind.bind]
    cases (f a).result with
    | error reason => rfl
    | ok b => simp only [Nat.add_assoc]

instance : LawfulMonad (Metered ε) :=
  LawfulMonad.mk' _ (fun x ↦ by obtain ⟨result | a, cost⟩ := x <;> rfl) Metered.pure_bind
    Metered.bind_assoc

variable {x : Metered ε α}

theorem Metered.bind_result_eq_ok {f : α → Metered ε β} {b : β} :
    (x >>= f).result = .ok b ↔ ∃ a, x.result = .ok a ∧ (f a).result = .ok b := by
  obtain ⟨result, cost⟩ := x
  cases result with
  | error reason => simp [Bind.bind]
  | ok a => simp [Bind.bind]

theorem Metered.bind_result_of_ok {a : α} (h : x.result = .ok a) (f : α → Metered ε β) :
    (x >>= f).result = (f a).result := by
  obtain ⟨result, cost⟩ := x
  obtain rfl : result = .ok a := h
  rfl

/-- What follows a computation matters only where it ends with a value. -/
theorem Metered.bind_congr {f g : α → Metered ε β} (h : ∀ a, x.result = .ok a → f a = g a) :
    x >>= f = x >>= g := by
  obtain ⟨result, cost⟩ := x
  cases result with
  | error reason => rfl
  | ok a =>
    show (⟨(f a).result, cost + (f a).cost⟩ : Metered ε β) = ⟨(g a).result, cost + (g a).cost⟩
    rw [h a rfl]

def stop (reason : ε) : Metered ε α := ⟨.error reason, 0⟩

/-- Spend one unit. -/
def charge : Metered ε Unit := ⟨.ok (), 1⟩

def refuse (bad : Prop) [Decidable bad] (reason : ε) : Metered ε Unit :=
  if bad then stop reason else pure ()

structure Meets (allowed : ε → Prop) (n : ℕ) (Q : α → Prop) (x : Metered ε α) : Prop where
  cost_le : x.cost ≤ n
  of_ok : ∀ a, x.result = .ok a → Q a
  of_error : ∀ reason, x.result = .error reason → allowed reason

namespace Meets

variable {allowed : ε → Prop} {m n : ℕ} {Q : α → Prop} {R : β → Prop} {x : Metered ε α}
  {f : α → Metered ε β}

theorem pure {a : α} (ha : Q a) : Meets allowed n Q (Pure.pure a : Metered ε α) where
  cost_le := Nat.zero_le n
  of_ok b hb := by
    have hab : a = b := Except.ok.inj hb
    exact hab ▸ ha
  of_error _ h := nomatch h

variable {reason : ε} {bad : Prop}

theorem stop (h : allowed reason) :
    Meets allowed n Q (stop reason : Metered ε α) where
  cost_le := Nat.zero_le n
  of_ok _ h := nomatch h
  of_error reason' h' := by
    have hreason : reason = reason' := Except.error.inj h'
    exact hreason ▸ h

theorem charge {Q : Unit → Prop} (h : Q ()) : Meets allowed 1 Q (charge : Metered ε Unit) where
  cost_le := le_rfl
  of_ok _ _ := h
  of_error _ h := nomatch h

theorem mono {Q' : α → Prop} (hx : Meets allowed m Q x) (hmn : m ≤ n) (hQ : ∀ a, Q a → Q' a) :
    Meets allowed n Q' x where
  cost_le := hx.cost_le.trans hmn
  of_ok a ha := hQ a (hx.of_ok a ha)
  of_error := hx.of_error

theorem bind (hx : Meets allowed m Q x) (hf : ∀ a, Q a → Meets allowed n R (f a)) :
    Meets allowed (m + n) R (x >>= f) := by
  obtain ⟨result, cost⟩ := x
  have hcost := hx.cost_le
  cases result with
  | error reason =>
    exact ⟨hcost.trans (Nat.le_add_right m n), (fun _ h ↦ nomatch h), fun reason' h ↦
      hx.of_error reason' (congrArg Except.error (Except.error.inj h))⟩
  | ok a =>
    have ha := hf a (hx.of_ok a rfl)
    exact ⟨Nat.add_le_add hcost ha.cost_le, ha.of_ok, ha.of_error⟩

/-- The value is the one that the computation yields. -/
theorem remember (hx : Meets allowed n Q x) :
    Meets allowed n (fun a ↦ Q a ∧ x.result = .ok a) x where
  cost_le := hx.cost_le
  of_ok a ha := ⟨hx.of_ok a ha, ha⟩
  of_error := hx.of_error

/-- A first part that costs nothing. -/
theorem bind_free (hx : Meets allowed 0 Q x) (hf : ∀ a, Q a → Meets allowed n R (f a)) :
    Meets allowed n R (x >>= f) :=
  (hx.bind hf).mono (Nat.zero_add n).le fun _ h ↦ h

theorem refuse_bind [Decidable bad] {f : Unit → Metered ε β} (hreason : allowed reason)
    (hf : ¬ bad → Meets allowed n R (f ())) :
    Meets allowed n R (refuse bad reason >>= f) := by
  unfold refuse
  by_cases hbad : bad
  · rw [if_pos hbad]
    exact bind_free (Q := fun _ ↦ False) (stop hreason) fun _ h ↦ h.elim
  · rw [if_neg hbad]
    exact bind_free (Q := fun _ ↦ True) (pure trivial) fun _ _ ↦ hf hbad

theorem refuse_result_eq_ok [Decidable bad] {u : Unit} :
    (refuse bad reason).result = .ok u ↔ ¬ bad := by
  unfold refuse
  split_ifs with hbad
  · exact ⟨(fun h ↦ nomatch h), fun h ↦ absurd hbad h⟩
  · exact ⟨fun _ ↦ hbad, fun _ ↦ rfl⟩

theorem refuse_bind_result [Decidable bad] (hgood : ¬ bad) (f : Unit → Metered ε β) :
    (refuse bad reason >>= f).result = (f ()).result :=
  Metered.bind_result_of_ok (refuse_result_eq_ok (u := ()).mpr hgood) f

theorem refuse_meets [Decidable bad] {Q : Unit → Prop} (hreason : allowed reason) (hQ : Q ()) :
    Meets allowed n Q (refuse bad reason) := by
  unfold refuse
  split_ifs
  · exact stop hreason
  · exact pure hQ

end Meets

section Stacks

variable (oob : ε) {α : Type}

/-- The `i`-th element from the top, counted from one. -/
def peek (s : List α) : ℕ → Metered ε α
  | 0 => stop oob
  | i + 1 => match s[i]? with
    | none => stop oob
    | some a => pure a

def pop : List α → Metered ε (List α)
  | [] => stop oob
  | _ :: s => pure s

def swap (s : List α) (i j : ℕ) : Metered ε (List α) := do
  let a ← peek oob s i
  let b ← peek oob s j
  return (s.set (i - 1) b).set (j - 1) a

/-- Remove the elements from the `i`-th to the one above the `j`-th. -/
def erase (s : List α) (i j : ℕ) : Metered ε (List α) :=
  if j ≤ i ∧ i ≤ s.length then pure (s.take j ++ s.drop i) else stop oob

/-- Put an element below the `i` topmost ones. -/
def insertBelow (s : List α) (i : ℕ) (a : α) : Metered ε (List α) :=
  if i ≤ s.length then pure (s.take i ++ a :: s.drop i) else stop oob

/-- Remove the `n` topmost elements one by one. -/
def popMany : ℕ → List α → Metered ε (List α)
  | 0, s => pure s
  | n + 1, s => pop oob s >>= popMany n

variable {oob} {allowed : ε → Prop} {P : α → Prop} {s : List α}

variable {i : ℕ}

theorem peek_of_get {a : α} (h : s[i]? = some a) : peek oob s (i + 1) = pure a := by
  simp only [peek, h]

theorem peek_drop {a : α} {t : List α} (h : s.drop i = a :: t) :
    peek oob s (i + 1) = pure a := by
  apply peek_of_get
  rw [← List.head?_drop, h, List.head?_cons]

theorem popMany_append (pre post : List α) : popMany oob pre.length (pre ++ post) = pure post := by
  induction pre with
  | nil => rfl
  | cons a pre ih =>
    show pure (pre ++ post) >>= popMany oob pre.length = pure post
    rw [pure_bind, ih]

theorem peek_meets (hs : ∀ a ∈ s, P a) (hone : 1 ≤ i) (hi : i ≤ s.length) :
    Meets allowed 0 P (peek oob s i) := by
  obtain ⟨i, rfl⟩ := Nat.exists_eq_add_of_le' hone
  have hget : s[i]? = some (s.get ⟨i, hi⟩) := List.getElem?_eq_getElem hi
  rw [peek_of_get hget]
  exact Meets.pure (hs _ (List.get_mem s ⟨i, hi⟩))

theorem pop_meets (hs : ∀ a ∈ s, P a) (hlength : 1 ≤ s.length) :
    Meets allowed 0 (fun t ↦ (∀ a ∈ t, P a) ∧ t.length + 1 = s.length) (pop oob s) := by
  cases s with
  | nil => cases hlength
  | cons a s => exact Meets.pure ⟨fun b hb ↦ hs b (List.mem_cons_of_mem a hb), rfl⟩

theorem popMany_meets {count : ℕ} (hs : ∀ a ∈ s, P a) (hlength : count ≤ s.length) :
    Meets allowed 0 (fun t ↦ (∀ a ∈ t, P a) ∧ t.length + count = s.length)
      (popMany oob count s) := by
  induction count generalizing s with
  | zero => exact Meets.pure ⟨hs, rfl⟩
  | succ count ih =>
    refine (pop_meets hs (by omega)).bind_free fun t ht ↦ ?_
    exact (ih ht.1 (by omega)).mono le_rfl fun t' ht' ↦ ⟨ht'.1, by omega⟩

theorem swap_meets {j : ℕ} (hs : ∀ a ∈ s, P a) (hi : 1 ≤ i) (hi' : i ≤ s.length) (hj : 1 ≤ j)
    (hj' : j ≤ s.length) :
    Meets allowed 0 (fun t ↦ (∀ a ∈ t, P a) ∧ t.length = s.length) (swap oob s i j) := by
  refine (peek_meets hs hi hi').bind_free fun a ha ↦ ?_
  refine (peek_meets hs hj hj').bind_free fun b hb ↦ Meets.pure ⟨?_, ?_⟩
  · intro c hc
    rcases List.mem_or_eq_of_mem_set hc with hc | hc
    · rcases List.mem_or_eq_of_mem_set hc with hc | hc
      · exact hs c hc
      · exact hc ▸ hb
    · exact hc ▸ ha
  · rw [List.length_set, List.length_set]

theorem erase_meets {j : ℕ} (hs : ∀ a ∈ s, P a) (hji : j ≤ i) (hi : i ≤ s.length) :
    Meets allowed 0 (fun t ↦ (∀ a ∈ t, P a) ∧ t.length + i = s.length + j) (erase oob s i j) := by
  unfold erase
  rw [if_pos ⟨hji, hi⟩]
  refine Meets.pure ⟨fun a ha ↦ ?_, ?_⟩
  · exact (List.mem_append.mp ha).elim (fun ha ↦ hs a (List.mem_of_mem_take ha)) fun ha ↦
      hs a (List.mem_of_mem_drop ha)
  · rw [List.length_append, List.length_take, List.length_drop]
    omega

theorem insertBelow_meets {a : α} (hs : ∀ b ∈ s, P b) (ha : P a) (hi : i ≤ s.length) :
    Meets allowed 0 (fun t ↦ (∀ b ∈ t, P b) ∧ t.length = s.length + 1) (insertBelow oob s i a) := by
  unfold insertBelow
  rw [if_pos hi]
  refine Meets.pure ⟨fun b hb ↦ ?_, ?_⟩
  · rcases List.mem_append.mp hb with hb | hb
    · exact hs b (List.mem_of_mem_take hb)
    · exact (List.mem_cons.mp hb).elim (fun h ↦ h ▸ ha) fun hb ↦ hs b (List.mem_of_mem_drop hb)
  · rw [List.length_append, List.length_cons, List.length_take, List.length_drop]
    omega

end Stacks

section Machine

variable {σ : Type} (next : σ → Metered ε σ) (done : σ → Bool) (exhausted : ε)

/-- Step until done, at most `fuel` times. -/
def runFor : ℕ → σ → Metered ε σ
  | 0, s => if done s then pure s else stop exhausted
  | fuel + 1, s => if done s then pure s else next s >>= runFor fuel

variable {next done exhausted} {allowed : ε → Prop}

variable {s : σ}

/-- Loop rule: steps keep the invariant, lower the measure and are paid for by the potential.  The
invariant and the potential may speak of what a run leaves no trace of in its state. -/
theorem runFor_meets {γ : Type} {Inv : γ → σ → Prop} (size : σ → ℕ) (potential : ℕ → γ → σ → ℕ)
    (hsize : ∀ g s, Inv g s → done s = false → 0 < size s)
    (hstep : ∀ fuel g s, Inv g s → done s = false → ∃ w ≤ potential (fuel + 1) g s, Meets allowed w
      (fun s' ↦ ∃ g', Inv g' s' ∧ size s' < size s ∧
        w + potential fuel g' s' ≤ potential (fuel + 1) g s) (next s)) {fuel : ℕ} {g : γ} (hs : Inv g s)
    (hfuel : size s ≤ fuel) :
    Meets allowed (potential fuel g s) (fun s' ↦ ∃ g', Inv g' s' ∧ done s' = true)
      (runFor next done exhausted fuel s) := by
  induction fuel generalizing g s with
  | zero =>
    unfold runFor
    cases hdone : done s with
    | true => exact Meets.pure ⟨g, hs, hdone⟩
    | false => exact absurd hfuel (Nat.not_le.mpr (hsize g s hs hdone))
  | succ fuel ih =>
    unfold runFor
    cases hdone : done s with
    | true => exact Meets.pure ⟨g, hs, hdone⟩
    | false =>
      obtain ⟨w, hw, hnext⟩ := hstep fuel g s hs hdone
      rw [if_neg Bool.false_ne_true]
      refine (hnext.bind fun s' hs' ↦ ?_).mono (Nat.add_sub_of_le hw).le fun _ h ↦ h
      obtain ⟨g', hs', hsize', hpaid⟩ := hs'
      apply (ih hs' (by omega)).mono (by omega)
      exact fun _ h ↦ h

theorem runFor_done (hdone : done s = true) (fuel : ℕ) :
    runFor next done exhausted fuel s = pure s := by
  cases fuel <;> exact if_pos hdone

theorem runFor_of_step {s' : σ} (hdone : done s = false) (hstep : (next s).result = .ok s') (fuel : ℕ) :
    (runFor next done exhausted (fuel + 1) s).result =
      (runFor next done exhausted fuel s').result := by
  rw [runFor, hdone, if_neg Bool.false_ne_true]
  exact Metered.bind_result_of_ok hstep _

/-- A step that is a check on the state after it. -/
theorem runFor_of_refuse {s' : σ} {bad : Prop} [Decidable bad] {reason : ε} (hdone : done s = false)
    (hstep : next s = refuse bad reason >>= fun _ ↦ pure s') (fuel : ℕ) :
    runFor next done exhausted (fuel + 1) s =
      refuse bad reason >>= fun _ ↦ runFor next done exhausted fuel s' := by
  rw [runFor, hdone, if_neg Bool.false_ne_true, hstep, bind_assoc]
  simp only [pure_bind]

/-- A run that ends from a state that is not done makes a step. -/
theorem of_runFor_eq_ok {t : σ} {fuel : ℕ} (hdone : done s = false)
    (h : (runFor next done exhausted fuel s).result = .ok t) :
    ∃ fuel' s', (next s).result = .ok s' ∧
      (runFor next done exhausted fuel' s').result = .ok t := by
  cases fuel with
  | zero =>
    rw [runFor, hdone, if_neg Bool.false_ne_true] at h
    cases h
  | succ fuel =>
    rw [runFor, hdone, if_neg Bool.false_ne_true] at h
    exact ⟨fuel, Metered.bind_result_eq_ok.mp h⟩

end Machine

end Electra.Foundations.StackMachine
