import Mathlib.Data.List.Induction
import Mathlib.Data.Nat.Digits.Defs
import Mathlib.Data.Nat.Bitwise

/-!
# Regrouping bits

A text of digits with a bits each, read from the left, and the digits with b bits that are cut from it.
The bits that are read and not yet cut are a rest.
-/

namespace Electra.Foundations.Regroup

/-- The number that digits with a bits each stand for, the first digit highest. -/
def bigEndian (a : ℕ) (xs : List ℕ) : ℕ := Nat.ofDigits (2 ^ a) xs.reverse

/-- The bits of xs are those of ys, and r further ones that stand for rest. -/
structure Regroups (a b : ℕ) (xs ys : List ℕ) (r rest : ℕ) : Prop where
  value : bigEndian a xs = bigEndian b ys * 2 ^ r + rest
  rest_lt : rest < 2 ^ r
  length : a * xs.length = b * ys.length + r
  lt_left : ∀ x ∈ xs, x < 2 ^ a
  lt_right : ∀ y ∈ ys, y < 2 ^ b

variable {a b r k rest d : ℕ} {xs ys : List ℕ}

@[simp]
theorem bigEndian_snoc : bigEndian a (xs ++ [d]) = bigEndian a xs * 2 ^ a + d := by
  rw [bigEndian, List.reverse_append, List.reverse_singleton, List.singleton_append, Nat.ofDigits_cons,
    bigEndian]
  ring

/-- Digits side by side, when the lower bits of the right one are cut off. -/
theorem shiftLeft_or_shiftRight (hd : d < 2 ^ a) (hk : k ≤ a) :
    rest <<< (a - k) ||| d >>> k = (rest * 2 ^ a + d) / 2 ^ k := by
  have hsplit : 2 ^ a = 2 ^ (a - k) * 2 ^ k := by rw [← pow_add, Nat.sub_add_cancel hk]
  have hlt : d / 2 ^ k < 2 ^ (a - k) := by
    rw [hsplit] at hd
    exact Nat.div_lt_of_lt_mul (by rwa [Nat.mul_comm] at hd)
  calc
    rest <<< (a - k) ||| d >>> k = rest <<< (a - k) + d / 2 ^ k := by
      rw [Nat.shiftRight_eq_div_pow, Nat.shiftLeft_add_eq_or_of_lt hlt]
    _ = rest * 2 ^ (a - k) + d / 2 ^ k := by rw [Nat.shiftLeft_eq]
    _ = (rest * 2 ^ a + d) / 2 ^ k := by
      rw [hsplit, ← Nat.mul_assoc, Nat.mul_comm (rest * 2 ^ (a - k)),
        Nat.mul_add_div (Nat.two_pow_pos k)]

theorem and_mask (hk : k ≤ a) : d &&& (2 ^ k - 1) = (rest * 2 ^ a + d) % 2 ^ k := by
  have hsplit : 2 ^ a = 2 ^ k * 2 ^ (a - k) := by rw [← pow_add, Nat.add_sub_cancel' hk]
  calc
    d &&& (2 ^ k - 1) = d % 2 ^ k := Nat.and_two_pow_sub_one_eq_mod d k
    _ = (2 ^ k * (rest * 2 ^ (a - k)) + d) % 2 ^ k := (Nat.mul_add_mod _ _ _).symm
    _ = (rest * 2 ^ a + d) % 2 ^ k := by
      rw [hsplit]
      ring_nf

theorem mask_shiftRight : (d &&& (2 ^ (k + b) - 1)) >>> k = d >>> k &&& (2 ^ b - 1) := by
  rw [Nat.and_two_pow_sub_one_eq_mod, Nat.and_two_pow_sub_one_eq_mod, Nat.shiftRight_eq_div_pow,
    Nat.shiftRight_eq_div_pow, pow_add, Nat.mod_mul_right_div_self]

theorem mask_mask : (d &&& (2 ^ (k + b) - 1)) &&& (2 ^ k - 1) = d &&& (2 ^ k - 1) := by
  rw [Nat.and_two_pow_sub_one_eq_mod, Nat.and_two_pow_sub_one_eq_mod, Nat.and_two_pow_sub_one_eq_mod,
    pow_add, Nat.mod_mul_right_mod]

namespace Regroups

theorem nil : Regroups a b [] [] 0 0 where
  value := rfl
  rest_lt := Nat.one_pos
  length := rfl
  lt_left := fun _ hx ↦ absurd hx List.not_mem_nil
  lt_right := fun _ hy ↦ absurd hy List.not_mem_nil

/-- A digit is read. -/
theorem push (h : Regroups a b xs ys r rest) (hd : d < 2 ^ a) :
    Regroups a b (xs ++ [d]) ys (r + a) (rest * 2 ^ a + d) where
  value := by
    rw [bigEndian_snoc, h.value]
    ring
  rest_lt := by
    have hrest := Nat.mul_le_mul_right (2 ^ a) (Nat.succ_le_of_lt h.rest_lt)
    rw [pow_add]
    rw [Nat.succ_mul] at hrest
    omega
  length := by
    rw [List.length_append, List.length_singleton, Nat.mul_add, h.length]
    omega
  lt_left := List.forall_mem_append.mpr ⟨h.lt_left, List.forall_mem_singleton.mpr hd⟩
  lt_right := h.lt_right

/-- A digit is cut. -/
theorem emit (h : Regroups a b xs ys (k + b) rest) :
    Regroups a b xs (ys ++ [rest / 2 ^ k]) k (rest % 2 ^ k) where
  value := by
    have hrest := Nat.div_add_mod rest (2 ^ k)
    calc
      bigEndian a xs = bigEndian b ys * 2 ^ (k + b) + (2 ^ k * (rest / 2 ^ k) + rest % 2 ^ k) := by
        rw [hrest, h.value]
      _ = bigEndian b (ys ++ [rest / 2 ^ k]) * 2 ^ k + rest % 2 ^ k := by
        rw [bigEndian_snoc]
        ring
  rest_lt := Nat.mod_lt _ (Nat.two_pow_pos k)
  length := by
    rw [List.length_append, List.length_singleton, Nat.mul_add, h.length]
    omega
  lt_left := h.lt_left
  lt_right := by
    have hlt := h.rest_lt
    rw [pow_add] at hlt
    exact List.forall_mem_append.mpr
      ⟨h.lt_right, List.forall_mem_singleton.mpr (Nat.div_lt_of_lt_mul hlt)⟩

/-- A digit is read, and there is none to cut yet. -/
theorem collect (h : Regroups a b xs ys r rest) (hd : d < 2 ^ a) :
    Regroups a b (xs ++ [d]) ys (r + a) (rest <<< a ||| d) := by
  have hor : rest <<< a ||| d = rest * 2 ^ a + d := by
    rw [← Nat.shiftLeft_add_eq_or_of_lt hd, Nat.shiftLeft_eq]
  rw [hor]
  exact h.push hd

/-- A digit is read and one is cut. -/
theorem next (h : Regroups a b xs ys r rest) (hd : d < 2 ^ a) (hk : r + a = k + b) (hr : r ≤ b) :
    Regroups a b (xs ++ [d]) (ys ++ [rest <<< (a - k) ||| d >>> k]) k (d &&& (2 ^ k - 1)) := by
  have hle : k ≤ a := by omega
  have hread := h.push hd
  rw [hk] at hread
  rw [shiftLeft_or_shiftRight hd hle, @and_mask a k rest d hle]
  exact hread.emit

/-- A digit is read and two are cut. -/
theorem next_two (h : Regroups a b xs ys r rest) (hd : d < 2 ^ a) (hk : r + a = k + b + b)
    (hr : r ≤ b) :
    Regroups a b (xs ++ [d])
      (ys ++ [rest <<< (a - (k + b)) ||| d >>> (k + b), d >>> k &&& (2 ^ b - 1)]) k
        (d &&& (2 ^ k - 1)) := by
  have hone := (h.next hd hk hr).emit
  rw [← Nat.shiftRight_eq_div_pow, ← Nat.and_two_pow_sub_one_eq_mod, mask_shiftRight, mask_mask,
    List.append_assoc] at hone
  exact hone

/-- The last rest is filled up with zeros; the bits that were filled in are a rest on the way back. -/
theorem pad (h : Regroups a b xs ys r rest) (hr : r ≤ b) :
    Regroups b a (ys ++ [rest <<< (b - r)]) xs (b - r) 0 where
  value := by
    rw [bigEndian_snoc, Nat.shiftLeft_eq, h.value, Nat.add_mul, Nat.mul_assoc, ← pow_add,
      Nat.add_sub_cancel' hr, Nat.add_zero]
  rest_lt := Nat.two_pow_pos _
  length := by
    have hlength := h.length
    rw [List.length_append, List.length_singleton, Nat.mul_add]
    omega
  lt_left := by
    have hlt : rest <<< (b - r) < 2 ^ b := by
      calc
        rest <<< (b - r) = rest * 2 ^ (b - r) := Nat.shiftLeft_eq _ _
        _ < 2 ^ r * 2 ^ (b - r) := Nat.mul_lt_mul_of_pos_right h.rest_lt (Nat.two_pow_pos _)
        _ = 2 ^ b := by rw [← pow_add, Nat.add_sub_cancel' hr]
    exact List.forall_mem_append.mpr ⟨h.lt_right, List.forall_mem_singleton.mpr hlt⟩
  lt_right := h.lt_left

/-- Without a rest nothing is filled up. -/
theorem symm (h : Regroups a b xs ys 0 rest) : Regroups b a ys xs 0 0 where
  value := by
    have hrest : rest = 0 := Nat.lt_one_iff.mp h.rest_lt
    rw [h.value, hrest, pow_zero, Nat.mul_one, Nat.mul_one]
    rfl
  rest_lt := Nat.one_pos
  length := h.length.symm
  lt_left := h.lt_right
  lt_right := h.lt_left

variable {xs' ys' : List ℕ} {r' rest' : ℕ}

theorem eq_of_bigEndian_eq (ha : 0 < a) (hlength : xs.length = xs'.length)
    (hlt : ∀ x ∈ xs, x < 2 ^ a) (hlt' : ∀ x ∈ xs', x < 2 ^ a)
    (hvalue : bigEndian a xs = bigEndian a xs') : xs = xs' := by
  apply List.reverse_inj.mp
  apply Nat.ofDigits_inj_of_len_eq (Nat.one_lt_two_pow ha.ne')
  · rw [List.length_reverse, List.length_reverse, hlength]
  · intro x hx
    exact hlt x (List.mem_reverse.mp hx)
  · intro x hx
    exact hlt' x (List.mem_reverse.mp hx)
  · exact hvalue

/-- What was read determines what is cut, when the rest is too short for a digit. -/
theorem right_unique (h : Regroups a b xs ys r rest) (h' : Regroups a b xs ys' r' rest')
    (hr : r < b) (hr' : r' < b) : ys = ys' ∧ r = r' ∧ rest = rest' := by
  have hb : 0 < b := by omega
  have hlength : b * ys.length + r = b * ys'.length + r' := by rw [← h.length, ← h'.length]
  have hsame : r = r' := by
    have hmod := congrArg (· % b) hlength
    simp only [Nat.mul_add_mod, Nat.mod_eq_of_lt hr, Nat.mod_eq_of_lt hr'] at hmod
    exact hmod
  subst hsame
  have hlen : ys.length = ys'.length := Nat.eq_of_mul_eq_mul_left hb (by omega)
  have hvalue : 2 ^ r * bigEndian b ys + rest = 2 ^ r * bigEndian b ys' + rest' := by
    rw [Nat.mul_comm, ← h.value, Nat.mul_comm, ← h'.value]
  have hrest : rest = rest' := by
    have hmod := congrArg (· % 2 ^ r) hvalue
    simp only [Nat.mul_add_mod, Nat.mod_eq_of_lt h.rest_lt, Nat.mod_eq_of_lt h'.rest_lt] at hmod
    exact hmod
  subst hrest
  have hdigits : bigEndian b ys = bigEndian b ys' :=
    Nat.eq_of_mul_eq_mul_left (Nat.two_pow_pos r) (by omega)
  exact ⟨eq_of_bigEndian_eq hb hlen h.lt_right h'.lt_right hdigits, rfl, rfl⟩

/-- What is cut determines what was read, when the rest is nothing but less than a digit of zeros. -/
theorem left_unique (h : Regroups a b xs ys r 0) (h' : Regroups a b xs' ys r' 0)
    (hr : r < a) (hr' : r' < a) : xs = xs' ∧ r = r' := by
  have ha : 0 < a := by omega
  have hlength := h.length
  have hlength' := h'.length
  have hlen : xs.length = xs'.length := by
    apply le_antisymm
    · by_contra hlt
      have hmul := Nat.mul_le_mul_left a (Nat.succ_le_of_lt (not_le.mp hlt))
      rw [Nat.mul_succ] at hmul
      omega
    · by_contra hlt
      have hmul := Nat.mul_le_mul_left a (Nat.succ_le_of_lt (not_le.mp hlt))
      rw [Nat.mul_succ] at hmul
      omega
  have hsame : r = r' := by
    rw [hlen] at hlength
    omega
  subst hsame
  exact ⟨eq_of_bigEndian_eq ha hlen h.lt_left h'.lt_left (by rw [h.value, h'.value]), rfl⟩

end Regroups

/-- What holds of the digits that were read and the state of a loop, when each digit keeps it. -/
theorem foldl_invariant {σ : Type} {Inv : List ℕ → σ → Prop} {step : σ → ℕ → σ} {s : σ}
    (hnil : Inv [] s) (hstep : ∀ {xs s d}, Inv xs s → d < 2 ^ a → Inv (xs ++ [d]) (step s d))
    (hlt : ∀ x ∈ xs, x < 2 ^ a) : Inv xs (xs.foldl step s) := by
  induction xs using List.reverseRecOn with
  | nil => exact hnil
  | append_singleton xs d ih =>
    rw [List.foldl_append, List.foldl_cons, List.foldl_nil]
    apply hstep
    · exact ih fun x hx ↦ hlt x (List.mem_append_left _ hx)
    · exact hlt d (List.mem_append_right _ (List.mem_singleton_self d))

end Electra.Foundations.Regroup
