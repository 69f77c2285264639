import Mathlib.Data.List.Basic
import Mathlib.Data.Set.Basic

/-!
# Prefix codes

No word of a prefix code starts another one, so a text splits into words and a tail that starts with no
word in just one way (`Splits.unique`).  Leaving some of the words out gives a text that splits into the
others (`Splits.filter`).
-/

namespace Electra.Foundations.PrefixCode

variable {α : Type*} {code : Set (List α)} {v w rest text tail tail' : List α} {words words' : List (List α)}

def PrefixFree (code : Set (List α)) : Prop := ∀ v ∈ code, ∀ w ∈ code, v <+: w → v = w

/-- A word that starts a text with another word in front is this word. -/
theorem PrefixFree.eq_of_isPrefix_append (h : PrefixFree code) (hv : v ∈ code) (hw : w ∈ code)
    (hstart : v <+: w ++ rest) : v = w := by
  cases List.prefix_or_prefix_of_prefix hstart (List.prefix_append w rest) with
  | inl hvw => exact h v hv w hw hvw
  | inr hwv => exact (h w hw v hv hwv).symm

/-- The words of a text, and what is left. -/
structure Splits (code : Set (List α)) (text : List α) (words : List (List α)) (tail : List α) : Prop where
  text_eq : text = words.flatten ++ tail
  mem_code : ∀ w ∈ words, w ∈ code
  not_isPrefix : ∀ w ∈ code, ¬ w <+: tail

theorem splits_nil (h : ∀ w ∈ code, ¬ w <+: text) : Splits code text [] text where
  text_eq := rfl
  mem_code _ hw := absurd hw List.not_mem_nil
  not_isPrefix := h

theorem Splits.cons (h : Splits code text words tail) (hw : w ∈ code) :
    Splits code (w ++ text) (w :: words) tail where
  text_eq := by rw [h.text_eq, List.flatten_cons, List.append_assoc]
  mem_code v hv := by
    cases hv with
    | head => exact hw
    | tail _ hv => exact h.mem_code v hv
  not_isPrefix := h.not_isPrefix

/-- The rest of a text behind its first word. -/
theorem Splits.of_cons (h : Splits code text (w :: words) tail) :
    w ∈ code ∧ ∃ rest, text = w ++ rest ∧ Splits code rest words tail := by
  refine ⟨h.mem_code w List.mem_cons_self, words.flatten ++ tail, ?_, rfl, ?_, h.not_isPrefix⟩
  · rw [h.text_eq, List.flatten_cons, List.append_assoc]
  · exact fun v hv ↦ h.mem_code v (List.mem_cons_of_mem w hv)

theorem Splits.unique (hcode : PrefixFree code) (h : Splits code text words tail)
    (h' : Splits code text words' tail') : words = words' ∧ tail = tail' := by
  induction words generalizing text words' with
  | nil =>
    have htext : text = tail := h.text_eq
    cases words' with
    | nil => exact ⟨rfl, htext.symm.trans h'.text_eq⟩
    | cons w words' =>
      obtain ⟨hw, rest, hrest, -⟩ := h'.of_cons
      refine absurd ?_ (h.not_isPrefix w hw)
      rw [← htext, hrest]
      exact List.prefix_append w rest
  | cons v words ih =>
    obtain ⟨hv, rest, rfl, hsplits⟩ := h.of_cons
    cases words' with
    | nil =>
      have htext : v ++ rest = tail' := h'.text_eq
      refine absurd ?_ (h'.not_isPrefix v hv)
      rw [← htext]
      exact List.prefix_append v rest
    | cons w words' =>
      obtain ⟨hw, rest', heq, hsplits'⟩ := h'.of_cons
      have hstart : v <+: w ++ rest' := by
        rw [← heq]
        exact List.prefix_append v rest
      obtain rfl := hcode.eq_of_isPrefix_append hv hw hstart
      obtain rfl := List.append_cancel_left heq
      obtain ⟨hwords, htail⟩ := ih hsplits hsplits'
      exact ⟨by rw [hwords], htail⟩

/-- Where each word takes something off the text, the text can be split. -/
theorem exists_splits (hne : [] ∉ code) (text : List α) : ∃ words tail, Splits code text words tail := by
  by_cases hstart : ∃ w ∈ code, w <+: text
  · obtain ⟨w, hw, rest, rfl⟩ := hstart
    have hpos : 0 < w.length := List.length_pos_iff.mpr fun heq ↦ hne (heq ▸ hw)
    have hshort : rest.length < (w ++ rest).length := by
      rw [List.length_append]
      omega
    obtain ⟨words, tail, hsplits⟩ := exists_splits hne rest
    exact ⟨w :: words, tail, hsplits.cons hw⟩
  · exact ⟨[], text, splits_nil fun w hw hprefix ↦ hstart ⟨w, hw, hprefix⟩⟩
termination_by text.length

theorem Splits.filter (h : Splits code text words tail) (p : List α → Bool) :
    Splits code ((words.filter p).flatten ++ tail) (words.filter p) tail where
  text_eq := rfl
  mem_code w hw := h.mem_code w (List.mem_of_mem_filter hw)
  not_isPrefix := h.not_isPrefix

end Electra.Foundations.PrefixCode
