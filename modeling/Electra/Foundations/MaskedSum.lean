import Mathlib.Algebra.BigOperators.Group.List.Basic

/-!
# Sums of chosen values

A list of marks chooses some of the values of a list.  The sum of the chosen ones changes by one value
when one mark is changed.
-/

namespace Electra.Foundations.MaskedSum

variable {α β : Type*} [AddCommGroup α]

/-- The sum of the values that are marked. -/
def maskedSum : List Bool → List α → α
  | b :: mask, a :: values => (if b then a else 0) + maskedSum mask values
  | _, _ => 0

variable {mask : List Bool} {entries : List β}

@[simp]
theorem maskedSum_nil_right : maskedSum mask ([] : List α) = 0 := by
  cases mask <;> rfl

@[simp]
theorem maskedSum_cons {b : Bool} {a : α} {values : List α} :
    maskedSum (b :: mask) (a :: values) = (if b then a else 0) + maskedSum mask values := rfl

theorem maskedSum_replicate_true (values : List α) :
    maskedSum (List.replicate values.length true) values = values.sum := by
  induction values with
  | nil => rfl
  | cons a values ih => rw [List.length_cons, List.replicate_succ, maskedSum_cons, ih, List.sum_cons, if_pos rfl]

theorem maskedSum_replicate_false (values : List α) :
    maskedSum (List.replicate values.length false) values = 0 := by
  induction values with
  | nil => rfl
  | cons a values ih =>
    rw [List.length_cons, List.replicate_succ, maskedSum_cons, ih]
    simp

/-- Marking a value that was not chosen adds it. -/
theorem maskedSum_set_true {values : List α} {i : ℕ} {a : α} (hmark : mask[i]? = some false)
    (hvalue : values[i]? = some a) :
    maskedSum (mask.set i true) values = maskedSum mask values + a := by
  induction mask generalizing values i with
  | nil => cases hmark
  | cons b mask ih =>
    cases values with
    | nil => cases hvalue
    | cons a' values =>
      cases i with
      | zero =>
        obtain rfl := Option.some.inj hmark
        obtain rfl := Option.some.inj hvalue
        simp [add_comm]
      | succ i =>
        rw [List.set_cons_succ, maskedSum_cons, maskedSum_cons, ih hmark hvalue, add_assoc]

/-- The marked entries of a list. -/
def chosen (mask : List Bool) (entries : List β) : List β :=
  ((mask.zip entries).filter Prod.fst).map Prod.snd

@[simp]
theorem chosen_cons {b : Bool} {entry : β} :
    chosen (b :: mask) (entry :: entries) = if b then entry :: chosen mask entries else chosen mask entries := by
  cases b <;> rfl

theorem maskedSum_map {value : β → α} :
    maskedSum mask (entries.map value) = ((chosen mask entries).map value).sum := by
  induction mask generalizing entries with
  | nil => rfl
  | cons b mask ih =>
    cases entries with
    | nil => simp [chosen]
    | cons entry entries =>
      rw [List.map_cons, maskedSum_cons, ih, chosen_cons]
      cases b <;> simp

theorem chosen_sublist : (chosen mask entries).Sublist entries := by
  induction mask generalizing entries with
  | nil => exact List.nil_sublist _
  | cons b mask ih =>
    cases entries with
    | nil => simp [chosen]
    | cons entry entries =>
      rw [chosen_cons]
      split
      · exact ih.cons_cons entry
      · exact ih.cons entry

end Electra.Foundations.MaskedSum
