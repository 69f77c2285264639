import Mathlib.Data.List.Basic

/-!
# A vault

Items are put in while the vault is open.  From some moment on a passphrase protects it; it is then
shut, and the passphrase, which can be changed, opens it again.  A machine that answers every call as
the vault does, and keeps a relation to it, holds what its log says was put in, under the passphrase
that its log says was set last (`Run.refines`).
-/

namespace Electra.Foundations

universe u

/-- What was put in, the passphrase if there is one, and whether the vault is shut. -/
structure Vault (K P : Type*) where
  items : List K
  pass : Option P
  isShut : Bool
  pass_of_isShut : isShut = true → pass.isSome = true

namespace Vault

variable {K P : Type*}

inductive Call (K P : Type*) where
  | put (item : K)
  | protect (pass : P) (items : List K)
  | shut
  | reopen (pass : P)
  | change (old new : P)

def empty : Vault K P := ⟨[], none, false, by simp⟩

theorem isShut_of_pass {v : Vault K P} (h : v.pass = none) : v.isShut = false := by
  by_contra hshut
  have hsome := v.pass_of_isShut (by simpa using hshut)
  rw [h] at hsome
  cases hsome

section Step

variable [DecidableEq P]

/-- The answer to a call, and the vault after it.  A change that is refused leaves the vault shut. -/
def step (v : Vault K P) : Call K P → Bool × Vault K P
  | .put item =>
      if v.isShut then (false, v) else (true, { v with items := item :: v.items })
  | .protect pass items =>
      if v.pass.isSome then (false, v)
      else (true, { v with items := items ++ v.items, pass := some pass, isShut := true,
                           pass_of_isShut := fun _ ↦ rfl })
  | .shut =>
      if h : v.pass.isSome then (true, { v with isShut := true, pass_of_isShut := fun _ ↦ h })
      else (false, v)
  | .reopen pass =>
      if v.isShut ∧ v.pass = some pass then
        (true, { v with isShut := false, pass_of_isShut := by simp })
      else (false, v)
  | .change old new =>
      if v.pass = some old then
        (true, { v with pass := some new, pass_of_isShut := fun _ ↦ rfl })
      else if h : v.pass.isSome then
        (false, { v with isShut := true, pass_of_isShut := fun _ ↦ h })
      else (false, v)

/-- What a call with this answer has put in. -/
def taken : Call K P → Bool → List K
  | .put item, true => [item]
  | .protect _ items, true => items
  | _, _ => []

/-- The passphrase after a call with this answer. -/
def nextPass (pass : Option P) : Call K P → Bool → Option P
  | .protect pass' _, true => some pass'
  | .change _ new, true => some new
  | _, _ => pass

/-- What a call changes is told by its answer. -/
theorem items_pass_step (v : Vault K P) (call : Call K P) :
    (v.step call).2.items = taken call (v.step call).1 ++ v.items ∧
      (v.step call).2.pass = nextPass v.pass call (v.step call).1 := by
  cases call with
  | put item => cases h : v.isShut <;> simp [step, taken, nextPass, h]
  | protect pass items => cases h : v.pass <;> simp [step, taken, nextPass, h]
  | shut => cases h : v.pass <;> simp [step, taken, nextPass, h]
  | reopen pass =>
      by_cases h : v.isShut = true ∧ v.pass = some pass
      · simp [step, taken, nextPass, h]
      · simp [step, taken, nextPass, h]
  | change old new =>
      by_cases h : v.pass = some old
      · simp [step, taken, nextPass, h]
      · by_cases hp : v.pass.isSome = true <;> simp [step, taken, nextPass, h, hp]

end Step

/-! ## Machines that answer as a vault does -/

/-- Everything put in by the calls of a log, whose last call comes first. -/
def logItems : List (Call K P × Bool) → List K
  | [] => []
  | (call, answer) :: log => taken call answer ++ logItems log

/-- The passphrase that the calls of a log have left. -/
def logPass : List (Call K P × Bool) → Option P
  | [] => none
  | (call, answer) :: log => nextPass (logPass log) call answer

section Run

variable {S C ε : Type*} (next : S → C → Except ε (Bool × S)) (toCall : C → Call K P)
  (Admits : S → C → Prop)

/-- The calls that a machine admits and does not fail in, with its answers. -/
inductive Run (s₀ : S) : List (Call K P × Bool) → S → Prop
  | nil : Run s₀ [] s₀
  | snoc {log s answer s'} (call : C) : Run s₀ log s → Admits s call →
      next s call = .ok (answer, s') → Run s₀ ((toCall call, answer) :: log) s'

variable [DecidableEq P] {next toCall Admits}

/-- A relation to a vault that every call keeps, with the vault's answer, holds in every state of a
run, of a vault with the items and the passphrase of the log. -/
theorem Run.refines {R : Vault K P → S → Prop} {s₀ s : S} {log : List (Call K P × Bool)}
    (hrun : Run next toCall Admits s₀ log s) (hinit : R empty s₀)
    (hstep : ∀ v s call, R v s → Admits s call →
      ∃ s', next s call = .ok ((v.step (toCall call)).1, s') ∧ R (v.step (toCall call)).2 s') :
    ∃ v, R v s ∧ v.items = logItems log ∧ v.pass = logPass log := by
  induction hrun with
  | nil => exact ⟨empty, hinit, rfl, rfl⟩
  | snoc call _ hadmits hnext ih =>
      obtain ⟨v, hR, hitems, hpass⟩ := ih
      obtain ⟨s', hs', hR'⟩ := hstep v _ call hR hadmits
      obtain ⟨rfl, rfl⟩ : (v.step (toCall call)).1 = _ ∧ s' = _ := by
        simpa using hs'.symm.trans hnext
      refine ⟨(v.step (toCall call)).2, hR', ?_, ?_⟩
      · rw [(items_pass_step _ _).1, hitems]
        rfl
      · rw [(items_pass_step _ _).2, hpass]
        rfl

end Run

end Vault

end Electra.Foundations
