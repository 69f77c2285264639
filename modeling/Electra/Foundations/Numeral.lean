import Mathlib.Data.List.TakeWhile
import Mathlib.Data.Nat.Bitwise
import Mathlib.Data.Nat.Digits.Lemmas

/-!
# Numbers in limbs

A number is kept in a list of words, the low one first.  Its bits are the bits of the words, an addition
carries from one word to the next, and the top words decide a comparison.

What a list of decimal digits says as a whole number, and as a fraction of a unit that is divided into
10^w parts.

A list of digits, the highest first, is written in another base, and its leading zeros are kept one for
one.  The way back gives the list again.
-/

namespace Electra.Foundations.Limbs

variable {w : ℕ} {x y : BitVec w} {xs ys : List (BitVec w)}

def ofLimbs : List (BitVec w) → ℕ
  | [] => 0
  | x :: xs => x.toNat + 2 ^ w * ofLimbs xs

@[simp]
theorem ofLimbs_nil : ofLimbs ([] : List (BitVec w)) = 0 := rfl

@[simp]
theorem ofLimbs_cons : ofLimbs (x :: xs) = x.toNat + 2 ^ w * ofLimbs xs := rfl

theorem ofLimbs_lt (xs : List (BitVec w)) : ofLimbs xs < 2 ^ (w * xs.length) := by
  induction xs with
  | nil => simp
  | cons x xs ih =>
    have hx := x.isLt
    calc ofLimbs (x :: xs) < 2 ^ w + 2 ^ w * ofLimbs xs := Nat.add_lt_add_right hx _
      _ = 2 ^ w * (ofLimbs xs + 1) := by ring
      _ ≤ 2 ^ w * 2 ^ (w * xs.length) := Nat.mul_le_mul_left _ ih
      _ = 2 ^ (w * (x :: xs).length) := by rw [List.length_cons, ← pow_add, Nat.mul_succ, Nat.add_comm]

theorem ofLimbs_append (xs ys : List (BitVec w)) :
    ofLimbs (xs ++ ys) = ofLimbs xs + 2 ^ (w * xs.length) * ofLimbs ys := by
  induction xs with
  | nil => simp
  | cons x xs ih =>
    rw [List.cons_append, ofLimbs_cons, ofLimbs_cons, ih, List.length_cons, Nat.mul_succ, pow_add]
    ring

theorem ofLimbs_replicate_zero (k : ℕ) : ofLimbs (List.replicate k (0 : BitVec w)) = 0 := by
  induction k with
  | zero => rfl
  | succ k ih =>
    rw [List.replicate_succ, ofLimbs_cons, ih]
    rfl

theorem testBit_ofLimbs (hw : 0 < w) (xs : List (BitVec w)) (n : ℕ) :
    (ofLimbs xs).testBit n = (xs.getD (n / w) 0).getLsbD (n % w) := by
  induction xs generalizing n with
  | nil => simp
  | cons x xs ih =>
    rw [ofLimbs_cons, Nat.add_comm, Nat.testBit_two_pow_mul_add _ x.isLt]
    split
    · next hlt =>
      rw [Nat.div_eq_of_lt hlt, Nat.mod_eq_of_lt hlt, List.getD_cons_zero]
      rfl
    · next hge =>
      have hle : w ≤ n := Nat.le_of_not_lt hge
      rw [ih, Nat.div_eq_sub_div hw hle, List.getD_cons_succ, Nat.mod_eq_sub_mod hle]

/-- Numbers below the size of the list are equal if all bits of the words are. -/
theorem ofLimbs_eq_of_testBit (hw : 0 < w) {n : ℕ} (hn : n < 2 ^ (w * xs.length))
    (h : ∀ i b, i < xs.length → b < w → (xs.getD i 0).getLsbD b = n.testBit (w * i + b)) : ofLimbs xs = n := by
  apply Nat.eq_of_testBit_eq
  intro m
  by_cases hm : m < w * xs.length
  · have hdiv : m / w < xs.length := Nat.div_lt_of_lt_mul hm
    rw [testBit_ofLimbs hw, h _ _ hdiv (Nat.mod_lt m hw), Nat.div_add_mod]
  · have hpow : 2 ^ (w * xs.length) ≤ 2 ^ m := Nat.pow_le_pow_right (by omega) (Nat.le_of_not_lt hm)
    rw [Nat.testBit_lt_two_pow (lt_of_lt_of_le (ofLimbs_lt xs) hpow),
      Nat.testBit_lt_two_pow (lt_of_lt_of_le hn hpow)]

theorem ofLimbs_map_not (xs : List (BitVec w)) :
    ofLimbs (xs.map (~~~ ·)) + ofLimbs xs + 1 = 2 ^ (w * xs.length) := by
  induction xs with
  | nil => rfl
  | cons x xs ih =>
    have hx := x.isLt
    rw [List.map_cons, ofLimbs_cons, ofLimbs_cons, BitVec.toNat_not, List.length_cons, Nat.mul_succ, pow_add,
      ← ih]
    ring_nf
    omega

theorem ofLimbs_snoc (xs : List (BitVec w)) (x : BitVec w) :
    ofLimbs (xs ++ [x]) = ofLimbs xs + 2 ^ (w * xs.length) * x.toNat := by
  rw [ofLimbs_append, ofLimbs_cons, ofLimbs_nil, Nat.mul_zero, Nat.add_zero]

theorem ofLimbs_snoc_lt (hlength : xs.length = ys.length) (h : x < y) :
    ofLimbs (xs ++ [x]) < ofLimbs (ys ++ [y]) := by
  have hxs := ofLimbs_lt xs
  rw [ofLimbs_snoc, ofLimbs_snoc, ← hlength]
  calc ofLimbs xs + 2 ^ (w * xs.length) * x.toNat < 2 ^ (w * xs.length) * (x.toNat + 1) := by
        rw [Nat.mul_succ]
        omega
    _ ≤ 2 ^ (w * xs.length) * y.toNat := Nat.mul_le_mul_left _ h
    _ ≤ _ := Nat.le_add_left _ _

theorem ofLimbs_snoc_lt_iff (hlength : xs.length = ys.length) :
    ofLimbs (xs ++ [x]) < ofLimbs (ys ++ [x]) ↔ ofLimbs xs < ofLimbs ys := by
  rw [ofLimbs_snoc, ofLimbs_snoc, hlength, Nat.add_lt_add_iff_right]

theorem ofLimbs_injective (hlength : xs.length = ys.length) (h : ofLimbs xs = ofLimbs ys) : xs = ys := by
  induction xs generalizing ys with
  | nil => exact (List.eq_nil_of_length_eq_zero hlength.symm).symm
  | cons x xs ih =>
    cases ys with
    | nil => cases hlength
    | cons y ys =>
      have hlow := congrArg (· % 2 ^ w) h
      have hhigh := congrArg (· / 2 ^ w) h
      simp only [ofLimbs_cons, Nat.add_mul_mod_self_left, Nat.mod_eq_of_lt x.isLt, Nat.mod_eq_of_lt y.isLt] at hlow
      simp only [ofLimbs_cons, Nat.add_mul_div_left _ _ (Nat.two_pow_pos w), Nat.div_eq_of_lt x.isLt,
        Nat.div_eq_of_lt y.isLt, Nat.zero_add] at hhigh
      rw [BitVec.eq_of_toNat_eq hlow, ih (Nat.succ.inj hlength) hhigh]

end Electra.Foundations.Limbs

namespace Electra.Foundations.Numeral

/-- The number that digits stand for. -/
def ofDigits (digits : List Char) : ℕ := Nat.ofDigitChars 10 digits 0

def IsDigits (digits : List Char) : Prop := ∀ c ∈ digits, c.isDigit = true

variable {digits later : List Char} {c : Char} {w : ℕ}

@[simp]
theorem ofDigits_nil : ofDigits [] = 0 := rfl

theorem ofDigits_append : ofDigits (digits ++ later) =
    10 ^ later.length * ofDigits digits + ofDigits later := by
  rw [ofDigits, Nat.ofDigitChars_append, Nat.ofDigitChars_eq_ofDigitChars_zero]
  rfl

theorem ofDigits_cons : ofDigits (c :: digits) =
    10 ^ digits.length * (c.toNat - '0'.toNat) + ofDigits digits := by
  have happend := @ofDigits_append [c] digits
  rw [List.singleton_append] at happend
  rw [happend]
  have hone : ofDigits [c] = c.toNat - '0'.toNat := by
    rw [ofDigits, Nat.ofDigitChars_cons, Nat.ofDigitChars_nil, Nat.mul_zero, Nat.zero_add]
  rw [hone]

@[simp]
theorem ofDigits_toDigits (n : ℕ) : ofDigits (Nat.toDigits 10 n) = n := Nat.ofDigitChars_ten_toDigits

theorem isDigits_toDigits (n : ℕ) : IsDigits (Nat.toDigits 10 n) := fun _ hc ↦
  Nat.isDigit_of_mem_toDigits (by decide) (by decide) hc

theorem isDigits_cons : IsDigits (c :: digits) ↔ c.isDigit = true ∧ IsDigits digits :=
  List.forall_mem_cons

theorem isDigits_append : IsDigits (digits ++ later) ↔ IsDigits digits ∧ IsDigits later :=
  List.forall_mem_append

theorem digit_le (h : c.isDigit = true) : c.toNat - '0'.toNat ≤ 9 := by
  rw [Char.isDigit, Bool.and_eq_true, decide_eq_true_eq, decide_eq_true_eq] at h
  have hle : c.toNat ≤ 57 := UInt32.le_iff_toNat_le.mp h.2
  have hzero : '0'.toNat = 48 := rfl
  omega

theorem ofDigits_lt (h : IsDigits digits) : ofDigits digits < 10 ^ digits.length := by
  induction digits with
  | nil => exact Nat.one_pos
  | cons c digits ih =>
    rw [isDigits_cons] at h
    have hdigit := Nat.mul_le_mul_left (10 ^ digits.length) (digit_le h.1)
    have hlater := ih h.2
    rw [ofDigits_cons, List.length_cons, pow_succ]
    omega

/-- Zeros at the front say nothing. -/
theorem ofDigits_replicate_append (n : ℕ) :
    ofDigits (List.replicate n '0' ++ digits) = ofDigits digits := by
  have hzero : ofDigits (List.replicate n '0') = 0 := by
    rw [ofDigits, Nat.ofDigitChars_replicate_zero, Nat.mul_zero]
  rw [ofDigits_append, hzero, Nat.mul_zero, Nat.zero_add]

/-- The digits after a decimal point, as a number of parts of a unit with 10^w parts. -/
def parts (w : ℕ) (digits : List Char) : ℕ := ofDigits digits * 10 ^ (w - digits.length)

theorem parts_cons (hle : digits.length < w) : parts w (c :: digits) =
    10 ^ (w - 1) * (c.toNat - '0'.toNat) + parts (w - 1) digits := by
  have hpow : 10 ^ (w - 1) = 10 ^ digits.length * 10 ^ (w - 1 - digits.length) := by
    rw [← pow_add, Nat.add_sub_cancel' (by omega)]
  have hleft : w - (digits.length + 1) = w - 1 - digits.length := by omega
  rw [parts, parts, ofDigits_cons, List.length_cons, hleft, hpow]
  ring

theorem parts_lt (h : IsDigits digits) (hle : digits.length ≤ w) : parts w digits < 10 ^ w := by
  calc
    parts w digits < 10 ^ digits.length * 10 ^ (w - digits.length) :=
      Nat.mul_lt_mul_of_pos_right (ofDigits_lt h) (Nat.pow_pos (by decide))
    _ = 10 ^ w := by rw [← pow_add, Nat.add_sub_cancel' hle]

/-- Zeros at the end say nothing. -/
theorem parts_append_replicate (n : ℕ) (hle : digits.length + n ≤ w) :
    parts w (digits ++ List.replicate n '0') = parts w digits := by
  have hzero : ofDigits (List.replicate n '0') = 0 := by
    rw [ofDigits, Nat.ofDigitChars_replicate_zero, Nat.mul_zero]
  have hpow : 10 ^ (w - digits.length) = 10 ^ n * 10 ^ (w - (digits.length + n)) := by
    rw [← pow_add]
    congr 1
    omega
  rw [parts, parts, ofDigits_append, hzero, List.length_append, List.length_replicate, hpow]
  ring

end Electra.Foundations.Numeral

namespace Electra.Foundations.Rebase

variable {a b k n : ℕ} {xs ys : List ℕ}

def leadingZeros (xs : List ℕ) : ℕ := (xs.takeWhile (· = 0)).length

/-- The digits of a number, the highest first and not zero, behind k zeros. -/
def padded (b k n : ℕ) : List ℕ := List.replicate k 0 ++ (Nat.digits b n).reverse

/-- The number that digits stand for. -/
def number (a : ℕ) (xs : List ℕ) : ℕ := Nat.ofDigits a xs.reverse

def rebase (a b : ℕ) (xs : List ℕ) : List ℕ := padded b (leadingZeros xs) (number a xs)

theorem eq_replicate_append (xs : List ℕ) :
    xs = List.replicate (leadingZeros xs) 0 ++ xs.dropWhile (· = 0) := by
  have hzeros : xs.takeWhile (· = 0) = List.replicate (leadingZeros xs) 0 := by
    apply List.eq_replicate_iff.mpr ⟨rfl, ?_⟩
    intro x hx
    have hzero := List.mem_takeWhile_imp hx
    exact of_decide_eq_true hzero
  rw [← hzeros]
  exact (List.takeWhile_append_dropWhile).symm

theorem leadingZeros_replicate_append (h : ∀ x ∈ ys.head?, x ≠ 0) :
    leadingZeros (List.replicate k 0 ++ ys) = k := by
  have htake : ys.takeWhile (· = 0) = [] := by
    cases ys with
    | nil => rfl
    | cons x ys => exact List.takeWhile_cons_of_neg (by simpa using h x rfl)
  rw [leadingZeros, List.takeWhile_append_of_pos, htake, List.append_nil, List.length_replicate]
  intro x hx
  exact decide_eq_true (List.eq_of_mem_replicate hx)

theorem head_reverse_digits (b n : ℕ) : ∀ x ∈ (Nat.digits b n).reverse.head?, x ≠ 0 := by
  intro x hx
  rw [List.head?_reverse] at hx
  obtain ⟨hne, rfl⟩ := List.mem_getLast?_eq_getLast hx
  exact Nat.getLast_digit_ne_zero b (Nat.digits_ne_nil_iff_ne_zero.mp hne)

@[simp]
theorem leadingZeros_padded : leadingZeros (padded b k n) = k :=
  leadingZeros_replicate_append (head_reverse_digits b n)

@[simp]
theorem number_replicate_append : number a (List.replicate k 0 ++ ys) = number a ys := by
  rw [number, List.reverse_append, List.reverse_replicate, Nat.ofDigits_append_replicate_zero, number]

@[simp]
theorem number_padded : number b (padded b k n) = n := by
  rw [padded, number_replicate_append, number, List.reverse_reverse, Nat.ofDigits_digits]

/-- Digits are the number they stand for behind their leading zeros. -/
theorem padded_number (ha : 1 < a) (h : ∀ x ∈ xs, x < a) :
    padded a (leadingZeros xs) (number a xs) = xs := by
  have hsplit := eq_replicate_append xs
  have hdigits : Nat.digits a (number a (xs.dropWhile (· = 0))) = (xs.dropWhile (· = 0)).reverse := by
    apply Nat.digits_ofDigits a ha
    · intro x hx
      exact h x ((List.dropWhile_sublist _).subset (List.mem_reverse.mp hx))
    · intro hne
      rw [List.getLast_reverse]
      have hhead := List.head_dropWhile_not (fun x ↦ decide (x = 0)) (mt List.reverse_eq_nil_iff.mpr hne)
      exact of_decide_eq_false hhead
  calc
    padded a (leadingZeros xs) (number a xs) =
        List.replicate (leadingZeros xs) 0 ++ (Nat.digits a (number a (xs.dropWhile (· = 0)))).reverse := by
      have hnumber : number a xs = number a (xs.dropWhile (· = 0)) := by
        conv_lhs => rw [hsplit]
        exact number_replicate_append
      rw [hnumber, padded]
    _ = xs := by rw [hdigits, List.reverse_reverse, ← hsplit]

/-- The way back gives the digits again. -/
theorem rebase_rebase (ha : 1 < a) (h : ∀ x ∈ xs, x < a) : rebase b a (rebase a b xs) = xs := by
  rw [rebase, rebase, leadingZeros_padded, number_padded]
  exact padded_number ha h

theorem lt_of_mem_rebase (hb : 1 < b) : ∀ x ∈ rebase a b xs, x < b := by
  intro x hx
  obtain hzero | hdigit := List.mem_append.mp hx
  · rw [List.eq_of_mem_replicate hzero]
    omega
  · exact Nat.digits_lt_base hb (List.mem_reverse.mp hdigit)

end Electra.Foundations.Rebase
