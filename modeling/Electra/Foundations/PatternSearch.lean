import Mathlib.Data.List.Basic

/-!
# Searching a pattern through a buffer

A search looks at the data through a buffer: it jumps to the first item that could start the pattern and
compares there.  It either finds the pattern or passes some of the data, and passes no occurrence.
-/

namespace Electra.Foundations.PatternSearch

variable {β : Type*}

/-- The pattern stands at an offset of the data. -/
def OccursAt (pattern data : List β) (n : ℕ) : Prop := pattern <+: data.drop n

variable [DecidableEq β]

instance (pattern data : List β) (n : ℕ) : Decidable (OccursAt pattern data n) :=
  inferInstanceAs (Decidable (pattern <+: data.drop n))

/-- The pattern was found at an offset, or a number of items was passed. -/
inductive Look
  | found (n : ℕ)
  | skip (n : ℕ)
deriving DecidableEq

/-- One look at a buffer of a given capacity. -/
def look (first : β) (pattern : List β) (nBuffer : ℕ) (buffer : List β) : Look :=
  match (buffer.take (buffer.length + 1 - pattern.length)).idxOf? first with
  | some nFind =>
      if (buffer.drop nFind).take pattern.length = pattern then .found nFind else .skip (nFind + 1)
  | none => .skip (nBuffer - pattern.length + 1)

/-- What is found is the first occurrence, and what is passed holds none. -/
def Look.Sound (pattern data : List β) : Look → Prop
  | .found n => OccursAt pattern data n ∧ ∀ k < n, ¬ OccursAt pattern data k
  | .skip n => 0 < n ∧ ∀ k < n, ¬ OccursAt pattern data k

variable {first : β} {pattern data : List β} {nBuffer n k : ℕ}

omit [DecidableEq β] in
theorem OccursAt.le_length (h : OccursAt pattern data n) (hpattern : pattern ≠ []) :
    n + pattern.length ≤ data.length := by
  have hle := h.length_le
  have hpos := List.length_pos_iff.mpr hpattern
  rw [List.length_drop] at hle
  omega

omit [DecidableEq β] in
/-- An occurrence starts with the first item of the pattern. -/
theorem OccursAt.getElem? (h : OccursAt pattern data n) (hfirst : pattern.head? = some first) :
    data[n]? = some first := by
  obtain ⟨rest, hrest⟩ := h
  calc data[n]? = (data.drop n)[0]? := by rw [List.getElem?_drop, Nat.add_zero]
    _ = (pattern ++ rest).head? := by rw [← hrest, List.head?_eq_getElem?]
    _ = some first := by rw [List.head?_append, hfirst, Option.some_or]

end Electra.Foundations.PatternSearch
