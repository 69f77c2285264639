import Electra.Text.Money
import Mathlib.Data.List.DropRight

/-!
# Amounts in the window

`ElectraUnits::format` prints an amount in one of three units, and `parse` reads one, of at most 18 characters
with the decimals filled up.  So an amount of 10^18 or more is printed and not read.  `toLongLong` leaves out
the blanks at the end; where these take the places of decimals the number is read as a smaller one.
-/

namespace Electra.Qt

open Chain Text Foundations.MachineInt Foundations.Numeral

namespace ElectraUnits

def ECA : ℤ := 0
def mICB : ℤ := 1
def uICB : ℤ := 2

def valid (unit : ℤ) : Bool := unit = ECA || unit = mICB || unit = uICB

def factor (unit : ℤ) : ℤ :=
  if unit = ECA then 100000000 else if unit = mICB then 100000 else if unit = uICB then 100 else 100000000

def decimals (unit : ℤ) : ℕ :=
  if unit = ECA then 8 else if unit = mICB then 5 else if unit = uICB then 2 else 0

/-- Zeros are chopped off, but for the first two characters. -/
def chopZeros (str : List Char) : List Char :=
  let nTrim := ((str.drop 2).reverse.takeWhile (· = '0')).length
  str.take (str.length - nTrim)

def format (unit n : ℤ) (fPlus : Bool) : List Char :=
  if !valid unit then []
  else
    let n_abs := if n > 0 then n else -n
    let quotient_str := Nat.toDigits 10 (n_abs / factor unit).toNat
    let remainder_str := chopZeros ((Nat.toDigits 10 (n_abs % factor unit).toNat).leftpad (decimals unit) '0')
    let quotient_str :=
      if n < 0 then '-' :: quotient_str else if fPlus && n > 0 then '+' :: quotient_str else quotient_str
    quotient_str ++ '.' :: remainder_str

/-- `toLongLong` gives zero and `false` when the text is not a number.  The result says whether the text is
one, and what is written to the amount, if anything is. -/
def parse (toLongLong : List Char → ℤ × Bool) (unit : ℤ) (value : List Char) : Bool × Option ℤ :=
  if !valid unit || value.isEmpty then (false, none)
  else
    let num_decimals := decimals unit
    let parts := value.splitOn '.'
    if parts.length > 2 then (false, none)
    else
      let whole := parts.getD 0 []
      let decimals := parts.getD 1 []
      if decimals.length > num_decimals then (false, none)
      else
        let str := whole ++ decimals.rightpad num_decimals '0'
        if str.length > 18 then (false, none)
        else
          let (retvalue, ok) := toLongLong str
          (ok, some retvalue)

end ElectraUnits

/-- A sign or none, and digits. -/
def IsInteger (text : List Char) (v : ℤ) : Prop :=
  ∃ sign digits, text = sign ++ digits ∧ IsDigits digits ∧ digits ≠ [] ∧
    (sign = ['-'] ∧ v = -ofDigits digits ∨ (sign = ['+'] ∨ sign = []) ∧ v = ofDigits digits)

/-- `QString::trimmed`. -/
def trimmed (isSpace : Char → Bool) (str : List Char) : List Char := (str.dropWhile isSpace).rdropWhile isSpace

/-- `QString::toLongLong` reads an integer of 64 bits, without the blanks around it.  Its blanks are those of
`isspace` and others, none of them part of a number. -/
structure ReadsLongLong (isBlank : Char → Bool) (toLongLong : List Char → ℤ × Bool) : Prop where
  ok_iff : ∀ str v, toLongLong str = (v, true) ↔ InInt64 v ∧ IsInteger (trimmed isBlank str) v
  isBlank_of_isSpace : ∀ c, isSpace c = true → isBlank c = true
  isBlank_digit : ∀ c, c.isDigit = true → isBlank c = false
  isBlank_sign : isBlank '-' = false ∧ isBlank '+' = false
  isBlank_nul : isBlank '\x00' = false

section

variable {isBlank : Char → Bool} {toLongLong : List Char → ℤ × Bool} {text before after digits : List Char}
  {v w : ℤ}

/-- A text that begins and ends with something else than a blank. -/
def Tight (isBlank : Char → Bool) (text : List Char) : Prop :=
  (∃ c rest, text = c :: rest ∧ isBlank c = false) ∧ ∃ front c, text = front ++ [c] ∧ isBlank c = false

theorem Tight.append {text' : List Char} (h : Tight isBlank text) (h' : Tight isBlank text') (middle : List Char) :
    Tight isBlank (text ++ (middle ++ text')) := by
  obtain ⟨⟨c, rest, rfl, hc⟩, -⟩ := h
  obtain ⟨-, front, d, rfl, hd⟩ := h'
  refine ⟨⟨c, _, rfl, hc⟩, (c :: rest) ++ (middle ++ front), d, ?_, hd⟩
  simp only [List.append_assoc]

theorem trimmed_append (hbefore : ∀ c ∈ before, isBlank c = true) (hafter : ∀ c ∈ after, isBlank c = true)
    (h : Tight isBlank text) : trimmed isBlank (before ++ (text ++ after)) = text := by
  obtain ⟨⟨c, rest, hfirst, hc⟩, front, d, hlast, hd⟩ := h
  have hleft : (before ++ (text ++ after)).dropWhile isBlank = text ++ after := by
    rw [List.dropWhile_append_of_pos hbefore, hfirst, List.cons_append,
      List.dropWhile_cons_of_neg (Bool.eq_false_iff.mp hc)]
  rw [trimmed, hleft, hlast, List.rdropWhile, List.reverse_append, List.dropWhile_append_of_pos, List.reverse_concat,
    List.dropWhile_cons_of_neg (Bool.eq_false_iff.mp hd), List.reverse_cons, List.reverse_reverse]
  exact fun c hc ↦ hafter c (List.mem_reverse.mp hc)

namespace ReadsLongLong

variable (h : ReadsLongLong isBlank toLongLong)
include h

theorem tight_digits (hdigits : IsDigits digits) (hne : digits ≠ []) : Tight isBlank digits := by
  obtain ⟨c, rest, hfirst⟩ := List.exists_cons_of_ne_nil hne
  refine ⟨⟨c, rest, hfirst, h.isBlank_digit c (hdigits c ?_)⟩, digits.dropLast, digits.getLast hne, ?_,
    h.isBlank_digit _ (hdigits _ (List.getLast_mem hne))⟩
  · rw [hfirst]
    exact List.mem_cons_self
  · exact (List.dropLast_append_getLast hne).symm

theorem toLongLong_eq (hbefore : ∀ c ∈ before, isSpace c = true) (hafter : ∀ c ∈ after, isSpace c = true)
    (htight : Tight isBlank text) :
    toLongLong (before ++ (text ++ after)) = (v, true) ↔ InInt64 v ∧ IsInteger text v := by
  rw [h.ok_iff, trimmed_append (fun c hc ↦ h.isBlank_of_isSpace c (hbefore c hc))
    (fun c hc ↦ h.isBlank_of_isSpace c (hafter c hc)) htight]

theorem isBlank_eq_false (htext : IsInteger text v) {c : Char} (hc : c ∈ text) : isBlank c = false := by
  obtain ⟨sign, digits, rfl, hdigits, -, hsign⟩ := htext
  cases List.mem_append.mp hc with
  | inl hmem =>
    rcases hsign with ⟨rfl, -⟩ | ⟨rfl | rfl, -⟩
    · rw [List.mem_singleton.mp hmem]
      exact h.isBlank_sign.1
    · rw [List.mem_singleton.mp hmem]
      exact h.isBlank_sign.2
    · exact absurd hmem List.not_mem_nil
  | inr hmem => exact h.isBlank_digit c (hdigits c hmem)

end ReadsLongLong

theorem Tight.cons {c : Char} (h : Tight isBlank text) (hc : isBlank c = false) : Tight isBlank (c :: text) := by
  obtain ⟨-, front, d, rfl, hd⟩ := h
  exact ⟨⟨c, _, rfl, hc⟩, c :: front, d, rfl, hd⟩

theorem isInteger_digits (hdigits : IsDigits digits) (hne : digits ≠ []) : IsInteger digits (ofDigits digits) :=
  ⟨[], digits, rfl, hdigits, hne, Or.inr ⟨Or.inr rfl, rfl⟩⟩

theorem isInteger_neg (hdigits : IsDigits digits) (hne : digits ≠ []) :
    IsInteger ('-' :: digits) (-ofDigits digits) := ⟨['-'], digits, rfl, hdigits, hne, Or.inl ⟨rfl, rfl⟩⟩

theorem sign_or_digit_of_isInteger (htext : IsInteger text v) {c : Char} (hc : c ∈ text) :
    c = '-' ∨ c = '+' ∨ c.isDigit = true := by
  obtain ⟨sign, digits, rfl, hdigits, -, hsign⟩ := htext
  cases List.mem_append.mp hc with
  | inl hmem =>
    rcases hsign with ⟨rfl, -⟩ | ⟨rfl | rfl, -⟩
    · exact Or.inl (List.mem_singleton.mp hmem)
    · exact Or.inr (Or.inl (List.mem_singleton.mp hmem))
    · exact absurd hmem List.not_mem_nil
  | inr hmem => exact Or.inr (Or.inr (hdigits c hmem))

theorem isInteger_unique (hdigits : IsDigits digits) (htext : IsInteger digits v) :
    v = ofDigits digits := by
  obtain ⟨sign, rest, rfl, -, -, hsign⟩ := htext
  rcases hsign with ⟨rfl, -⟩ | ⟨rfl | rfl, hv⟩
  · exact absurd (hdigits '-' List.mem_cons_self) (by decide)
  · exact absurd (hdigits '+' List.mem_cons_self) (by decide)
  · exact hv

end

namespace ElectraUnits

section

variable {isBlank : Char → Bool} {toLongLong : List Char → ℤ × Bool} {unit n : ℤ}

theorem chopZeros_spec (str : List Char) : ∃ k, str = chopZeros str ++ List.replicate k '0' := by
  obtain ⟨zeros, hzeros⟩ : ∃ zeros, zeros = (str.drop 2).reverse.takeWhile (· = '0') := ⟨_, rfl⟩
  have hall : zeros = List.replicate zeros.length '0' := by
    rw [List.eq_replicate_iff]
    refine ⟨rfl, fun c hc ↦ ?_⟩
    rw [hzeros] at hc
    simpa using List.mem_takeWhile_imp hc
  obtain ⟨front, hfront⟩ : ∃ front, str = front ++ zeros.reverse := by
    refine ⟨str.take 2 ++ ((str.drop 2).reverse.dropWhile (· = '0')).reverse, ?_⟩
    rw [List.append_assoc, ← List.reverse_append, hzeros, List.takeWhile_append_dropWhile, List.reverse_reverse,
      List.take_append_drop]
  have hchop : chopZeros str = front := by
    have hlength := congrArg List.length hfront
    rw [List.length_append, List.length_reverse] at hlength
    simp only [chopZeros, ← hzeros, hlength, Nat.add_sub_cancel]
    rw [hfront]
    exact List.take_left
  refine ⟨zeros.length, ?_⟩
  rw [hchop, ← List.reverse_replicate, ← hall]
  exact hfront

theorem valid_iff : valid unit = true ↔ unit = ECA ∨ unit = mICB ∨ unit = uICB := by
  simp [valid, or_assoc]

theorem factor_eq (h : valid unit = true) : factor unit = 10 ^ decimals unit ∧ 2 ≤ decimals unit ∧
    decimals unit ≤ 8 := by
  rcases valid_iff.mp h with rfl | rfl | rfl <;> decide

/-- The digits of an amount, with d of them behind the point. -/
def digitsOf (d N : ℕ) : List Char :=
  Nat.toDigits 10 (N / 10 ^ d) ++ (Nat.toDigits 10 (N % 10 ^ d)).leftpad d '0'

section

variable {d N : ℕ}

theorem length_decimals (hd : 0 < d) : ((Nat.toDigits 10 (N % 10 ^ d)).leftpad d '0').length = d := by
  rw [List.length_leftpad]
  apply max_eq_left
  rw [Nat.length_toDigits_le_iff (by decide) hd]
  exact Nat.mod_lt _ (Nat.pow_pos (by decide))

theorem isDigits_decimals (d r : ℕ) : IsDigits ((Nat.toDigits 10 r).leftpad d '0') := by
  rw [List.leftpad, isDigits_append]
  exact ⟨fun c hc ↦ List.eq_of_mem_replicate hc ▸ rfl, isDigits_toDigits _⟩

theorem isDigits_digitsOf (d N : ℕ) : IsDigits (digitsOf d N) :=
  isDigits_append.mpr ⟨isDigits_toDigits _, isDigits_decimals d _⟩

theorem digitsOf_ne_nil (d N : ℕ) : digitsOf d N ≠ [] := List.append_ne_nil_of_left_ne_nil Nat.toDigits_ne_nil _

theorem ofDigits_digitsOf (hd : 0 < d) : ofDigits (digitsOf d N) = N := by
  rw [digitsOf, ofDigits_append, length_decimals hd, ofDigits_toDigits, List.leftpad, ofDigits_replicate_append,
    ofDigits_toDigits]
  exact Nat.div_add_mod N (10 ^ d)

theorem length_digitsOf_le_iff (hd : 0 < d) {k : ℕ} (hk : d < k) : (digitsOf d N).length ≤ k ↔ N < 10 ^ k := by
  have hpow : 10 ^ k = 10 ^ (k - d) * 10 ^ d := by rw [← pow_add, Nat.sub_add_cancel hk.le]
  have hwhole : (Nat.toDigits 10 (N / 10 ^ d)).length ≤ k - d ↔ N < 10 ^ k := by
    rw [Nat.length_toDigits_le_iff (by decide) (by omega), hpow, Nat.div_lt_iff_lt_mul (Nat.pow_pos (by decide))]
  rw [← hwhole, digitsOf, List.length_append, length_decimals hd]
  omega

end

/-- A printed amount, and what its decimals are filled up to again. -/
theorem format_eq (hvalid : valid unit = true) : ∃ frac,
    format unit n false = (if n < 0 then ['-'] else []) ++
      (Nat.toDigits 10 (n.natAbs / 10 ^ decimals unit) ++ '.' :: frac) ∧
    IsDigits frac ∧ frac.length ≤ decimals unit ∧
    Nat.toDigits 10 (n.natAbs / 10 ^ decimals unit) ++ frac.rightpad (decimals unit) '0' =
      digitsOf (decimals unit) n.natAbs := by
  obtain ⟨hfactor, htwo, -⟩ := factor_eq hvalid
  have habs : (if n > 0 then n else -n) = (n.natAbs : ℤ) := by
    split <;> omega
  have hquotient : ((n.natAbs : ℤ) / factor unit).toNat = n.natAbs / 10 ^ decimals unit := by
    rw [hfactor]
    norm_cast
  have hremainder : ((n.natAbs : ℤ) % factor unit).toNat = n.natAbs % 10 ^ decimals unit := by
    rw [hfactor]
    norm_cast
  obtain ⟨k, hk⟩ := chopZeros_spec ((Nat.toDigits 10 (n.natAbs % 10 ^ decimals unit)).leftpad (decimals unit) '0')
  have hlength := congrArg List.length hk
  rw [length_decimals (by omega), List.length_append, List.length_replicate] at hlength
  refine ⟨chopZeros ((Nat.toDigits 10 (n.natAbs % 10 ^ decimals unit)).leftpad (decimals unit) '0'),
    ?_, ?_, ?_, ?_⟩
  · simp only [format, hvalid, habs, hquotient, hremainder, Bool.not_true, Bool.false_eq_true, if_false,
      Bool.false_and]
    split <;> rfl
  · have hall := isDigits_decimals (decimals unit) (n.natAbs % 10 ^ decimals unit)
    rw [hk, isDigits_append] at hall
    exact hall.1
  · omega
  · have hzeros : decimals unit -
        (chopZeros ((Nat.toDigits 10 (n.natAbs % 10 ^ decimals unit)).leftpad (decimals unit) '0')).length = k := by
      omega
    rw [digitsOf, List.rightpad, hzeros, ← hk]

/-- What a text with at most one point is read as. -/
def readParts (toLongLong : List Char → ℤ × Bool) (unit : ℤ) (whole frac : List Char) : Bool × Option ℤ :=
  let str := whole ++ frac.rightpad (decimals unit) '0'
  if frac.length > decimals unit ∨ str.length > 18 then (false, none)
  else ((toLongLong str).2, some (toLongLong str).1)

theorem parse_point {whole frac : List Char} (hvalid : valid unit = true) (hwhole : '.' ∉ whole) (hfrac : '.' ∉ frac) :
    parse toLongLong unit (whole ++ '.' :: frac) = readParts toLongLong unit whole frac := by
  have hsplit : (whole ++ '.' :: frac).splitOn '.' = [whole, frac] := by
    rw [List.splitOn_append_cons_self_of_not_mem hwhole, List.splitOn_eq_singleton hfrac]
  have hempty : (whole ++ '.' :: frac).isEmpty = false := by
    rw [List.isEmpty_eq_false_iff]
    exact List.append_ne_nil_of_right_ne_nil _ (List.cons_ne_nil _ _)
  simp only [parse, readParts, hvalid, hempty, hsplit, Bool.not_true, Bool.or_false, List.length_cons, List.length_nil,
    List.getD_cons_zero, List.getD_cons_succ]
  rw [if_neg Bool.false_ne_true, if_neg (by decide)]
  split
  · rw [if_pos (Or.inl ‹_›)]
  · next hle => simp only [hle, false_or]

theorem parse_no_point {value : List Char} (hvalid : valid unit = true) (hne : value ≠ []) (hpoint : '.' ∉ value) :
    parse toLongLong unit value = readParts toLongLong unit value [] := by
  have hempty : value.isEmpty = false := List.isEmpty_eq_false_iff.mpr hne
  simp only [parse, readParts, hvalid, hempty, List.splitOn_eq_singleton hpoint, Bool.not_true, Bool.or_false,
    List.length_cons, List.length_nil, List.getD_cons_zero, List.getD_cons_succ, List.getD_nil]
  rw [if_neg Bool.false_ne_true, if_neg (by decide), if_neg (Nat.not_lt_zero _)]
  simp only [gt_iff_lt, Nat.not_lt_zero, false_or]

theorem parse_format (h : ReadsLongLong isBlank toLongLong) (hvalid : valid unit = true) (hrange : |n| ≤ MAX_TX) :
    parse toLongLong unit (format unit n false) = (true, some n) ↔ -10 ^ 17 < n ∧ n < 10 ^ 18 := by
  obtain ⟨frac, hformat, hfrac, hlength, hdigits⟩ := @format_eq unit n hvalid
  obtain ⟨-, htwo, height⟩ := factor_eq hvalid
  have hnopoint : ∀ {digits : List Char}, IsDigits digits → '.' ∉ digits := fun hall hmem ↦
    absurd (hall _ hmem) (by decide)
  have hwhole : '.' ∉ (if n < 0 then ['-'] else []) ++ Nat.toDigits 10 (n.natAbs / 10 ^ decimals unit) := by
    rw [List.mem_append, not_or]
    refine ⟨?_, hnopoint (isDigits_toDigits _)⟩
    split <;> decide
  have hmoney : MAX_TX = 3 * 10 ^ 18 := by decide
  rw [hmoney, abs_le] at hrange
  have hall := isDigits_digitsOf (decimals unit) n.natAbs
  have hne := digitsOf_ne_nil (decimals unit) n.natAbs
  have hvalue := @ofDigits_digitsOf (decimals unit) n.natAbs (by omega)
  rw [hformat, ← List.append_assoc, parse_point hvalid hwhole (hnopoint hfrac), readParts, List.append_assoc, hdigits]
  simp only [not_lt.mpr hlength, false_or]
  have hread : ∀ text, Tight isBlank text → IsInteger text n → toLongLong text = (n, true) := by
    intro text htight hinteger
    have hblanks : ∀ c ∈ ([] : List Char), isSpace c = true := fun c hc ↦ absurd hc List.not_mem_nil
    rw [← List.append_nil text, ← List.nil_append (text ++ []), h.toLongLong_eq hblanks hblanks htight]
    exact ⟨⟨by omega, by omega⟩, hinteger⟩
  have hfits : ∀ size : ℕ, (if size > 18 then ((false, none) : Bool × Option ℤ) else (true, some n)) = (true, some n) ↔
      size ≤ 18 := by
    intro size
    split
    · next hlong => exact iff_of_false (fun heq ↦ Bool.false_ne_true (congrArg Prod.fst heq)) (not_le.mpr hlong)
    · next hshort => exact iff_of_true rfl (not_lt.mp hshort)
  by_cases hneg : n < 0
  · have hinteger := isInteger_neg hall hne
    have hminus : -((ofDigits (digitsOf (decimals unit) n.natAbs) : ℕ) : ℤ) = n := by
      rw [hvalue]
      omega
    rw [hminus] at hinteger
    rw [if_pos hneg, List.singleton_append, hread _ ((h.tight_digits hall hne).cons h.isBlank_sign.1) hinteger, hfits,
      List.length_cons]
    have hsize := @length_digitsOf_le_iff (decimals unit) n.natAbs (by omega) 17 (by omega)
    omega
  · have hinteger := isInteger_digits hall hne
    have hplain : ((ofDigits (digitsOf (decimals unit) n.natAbs) : ℕ) : ℤ) = n := by
      rw [hvalue]
      omega
    rw [hplain] at hinteger
    rw [if_neg hneg, List.nil_append, hread _ (h.tight_digits hall hne) hinteger, hfits]
    have hsize := @length_digitsOf_le_iff (decimals unit) n.natAbs (by omega) 18 (by omega)
    omega

/-- Blanks take the places of decimals, up to the eighth, behind a number that is not zero. -/
def FilledUp (str : List Char) : Prop :=
  ∃ before whole frac after, str = before ++ (whole ++ '.' :: (frac ++ after)) ∧
    (∀ c ∈ before, isSpace c = true) ∧ (∀ c ∈ after, isSpace c = true) ∧ IsDigits whole ∧ IsDigits frac ∧
      after ≠ [] ∧ (frac ++ after).length = 8 ∧ ofDigits (whole ++ frac) ≠ 0

variable {str : List Char} {v : ℤ}

theorem mem_trimmed {c : Char} (hc : c ∈ str) : isBlank c = true ∨ c ∈ trimmed isBlank str := by
  rw [← List.takeWhile_append_dropWhile (p := isBlank) (l := str), List.mem_append] at hc
  cases hc with
  | inl hfront => exact Or.inl (List.mem_takeWhile_imp hfront)
  | inr hrest =>
    rw [← List.rdropWhile_append_rtakeWhile (p := isBlank) (l := str.dropWhile isBlank), List.mem_append] at hrest
    cases hrest with
    | inl hmiddle => exact Or.inr hmiddle
    | inr hback => exact Or.inl (List.mem_rtakeWhile_imp hback)

/-- What is read has digits, a sign and blanks only. -/
theorem mem_of_read (h : ReadsLongLong isBlank toLongLong) (hread : toLongLong str = (v, true)) :
    '\x00' ∉ str ∧ ¬∀ c ∈ str, isSpace c = true := by
  have hinteger := ((h.ok_iff str v).mp hread).2
  constructor
  · intro hnul
    have hplace : isBlank '\x00' = true ∨ '\x00' ∈ trimmed isBlank str := mem_trimmed hnul
    rcases hplace with hblank | hmem
    · rw [h.isBlank_nul] at hblank
      cases hblank
    · rcases sign_or_digit_of_isInteger hinteger hmem with heq | heq | hdigit
      · exact absurd heq (by decide)
      · exact absurd heq (by decide)
      · exact absurd hdigit (by decide)
  · intro hall
    obtain ⟨sign, digits, htext, -, hne, -⟩ := hinteger
    have hmem : digits.head hne ∈ trimmed isBlank str := by
      rw [htext]
      exact List.mem_append_right _ (List.head_mem hne)
    have hstr : digits.head hne ∈ str :=
      (List.dropWhile_subset _) ((List.rdropWhile_prefix _ _).subset hmem)
    have hblank := h.isBlank_of_isSpace _ (hall _ hstr)
    rw [h.isBlank_eq_false ((h.ok_iff str v).mp hread).2 hmem] at hblank
    cases hblank

/-- Digits, blanks and zeros are read as the digits and the zeros, and not all three are there. -/
theorem read_filled (h : ReadsLongLong isBlank toLongLong) {before digits after : List Char} {k : ℕ}
    (hbefore : ∀ c ∈ before, isSpace c = true) (hafter : ∀ c ∈ after, isSpace c = true)
    (hdigits : IsDigits digits)
    (hread : toLongLong (before ++ (digits ++ (after ++ List.replicate k '0'))) = (v, true)) :
    v = ofDigits digits * 10 ^ k ∧ (after = [] ∨ digits = [] ∨ k = 0) := by
  have hzeros : IsDigits (List.replicate k '0') := fun c hc ↦ List.eq_of_mem_replicate hc ▸ rfl
  have hnil : ∀ c ∈ ([] : List Char), isSpace c = true := fun c hc ↦ absurd hc List.not_mem_nil
  by_cases hk : k = 0
  · subst hk
    rw [List.replicate_zero, List.append_nil] at hread
    by_cases hnone : digits = []
    · subst hnone
      exact absurd (fun c hc ↦ (List.mem_append.mp hc).elim (hbefore c) (hafter c)) (mem_of_read h hread).2
    · have hinteger := ((h.toLongLong_eq hbefore hafter (h.tight_digits hdigits hnone)).mp hread).2
      exact ⟨by rw [isInteger_unique hdigits hinteger, pow_zero, mul_one], Or.inr (Or.inr rfl)⟩
  · have hne : List.replicate k '0' ≠ [] := by
      rw [Ne, List.replicate_eq_nil_iff]
      exact hk
    have hzero : ofDigits (List.replicate k '0') = 0 := by
      rw [ofDigits, Nat.ofDigitChars_replicate_zero, Nat.mul_zero]
    by_cases hblanks : after = []
    · subst hblanks
      have hall : IsDigits (digits ++ List.replicate k '0') := isDigits_append.mpr ⟨hdigits, hzeros⟩
      rw [List.nil_append, ← List.append_nil (digits ++ List.replicate k '0')] at hread
      have hinteger := ((h.toLongLong_eq hbefore hnil
        (h.tight_digits hall (List.append_ne_nil_of_right_ne_nil _ hne))).mp hread).2
      refine ⟨?_, Or.inl rfl⟩
      rw [isInteger_unique hall hinteger, ofDigits_append, List.length_replicate, hzero]
      push_cast
      ring
    · by_cases hnone : digits = []
      · subst hnone
        rw [List.nil_append, ← List.append_assoc, ← List.append_nil (List.replicate k '0')] at hread
        have hboth : ∀ c ∈ before ++ after, isSpace c = true := fun c hc ↦
          (List.mem_append.mp hc).elim (hbefore c) (hafter c)
        have hinteger := ((h.toLongLong_eq hboth hnil (h.tight_digits hzeros hne)).mp hread).2
        refine ⟨?_, Or.inr (Or.inl rfl)⟩
        rw [isInteger_unique hzeros hinteger, hzero, ofDigits_nil]
        simp
      · have htight := (h.tight_digits hdigits hnone).append (h.tight_digits hzeros hne) after
        rw [← List.append_nil (digits ++ (after ++ List.replicate k '0'))] at hread
        have hinteger := ((h.toLongLong_eq hbefore hnil htight).mp hread).2
        obtain ⟨c, rest, rfl⟩ := List.exists_cons_of_ne_nil hblanks
        have hblank := h.isBlank_of_isSpace c (hafter c List.mem_cons_self)
        rw [h.isBlank_eq_false hinteger (by simp)] at hblank
        cases hblank

theorem parse_cases (hvalid : valid unit = true) (hparse : parse toLongLong unit str = (true, some v)) :
    ∃ whole frac, (str = whole ++ '.' :: frac ∧ '.' ∉ whole ∧ '.' ∉ frac ∨ '.' ∉ str ∧ str = whole ∧ frac = []) ∧
      frac.length ≤ decimals unit ∧ toLongLong (whole ++ frac.rightpad (decimals unit) '0') = (v, true) := by
  have hparts : ∀ whole frac, readParts toLongLong unit whole frac = (true, some v) →
      frac.length ≤ decimals unit ∧ toLongLong (whole ++ frac.rightpad (decimals unit) '0') = (v, true) := by
    intro whole frac hread
    simp only [readParts] at hread
    split at hread
    · cases hread
    · next hsmall =>
      rw [not_or, not_lt] at hsmall
      simp only [Prod.mk.injEq, Option.some.injEq] at hread
      exact ⟨hsmall.1, Prod.ext hread.2 hread.1⟩
  by_cases hpoint : '.' ∈ str
  · obtain ⟨whole, frac, rfl, hwhole⟩ := List.eq_append_cons_of_mem hpoint
    by_cases hfrac : '.' ∈ frac
    · obtain ⟨frac, rest, rfl, hmiddle⟩ := List.eq_append_cons_of_mem hfrac
      have hmany : ((whole ++ '.' :: (frac ++ '.' :: rest)).splitOn '.').length > 2 := by
        rw [List.splitOn_append_cons_self_of_not_mem hwhole, List.splitOn_append_cons_self_of_not_mem hmiddle]
        have := List.length_pos_iff.mpr (List.splitOn_ne_nil '.' rest)
        simp only [List.length_cons]
        omega
      have hempty : (whole ++ '.' :: (frac ++ '.' :: rest)).isEmpty = false := by
        rw [List.isEmpty_eq_false_iff]
        exact List.append_ne_nil_of_right_ne_nil _ (List.cons_ne_nil _ _)
      simp only [parse, hvalid, hempty, if_pos hmany] at hparse
      cases hparse
    · rw [parse_point hvalid hwhole hfrac] at hparse
      exact ⟨whole, frac, Or.inl ⟨rfl, hwhole, hfrac⟩, hparts _ _ hparse⟩
  · have hne : str ≠ [] := by
      rintro rfl
      simp only [parse, hvalid, List.isEmpty_nil] at hparse
      cases hparse
    rw [parse_no_point hvalid hne hpoint] at hparse
    exact ⟨str, [], Or.inr ⟨hpoint, rfl, rfl⟩, hparts _ _ hparse⟩

theorem isDigit_of_isSpace {c : Char} (h : isSpace c = true) : c.isDigit = false := by
  rw [Bool.eq_false_iff]
  intro hdigit
  rw [isSpace_eq_false hdigit] at h
  cases h

theorem not_mem_point {text : List Char} (h : ∀ c ∈ text, isSpace c = true ∨ c.isDigit = true) : '.' ∉ text := by
  intro hmem
  rcases h _ hmem with hspace | hdigit
  · exact absurd hspace (by decide)
  · exact absurd hdigit (by decide)

/-- The parts of a text with a point are determined by it. -/
theorem parts_unique {before whole frac after before' whole' frac' after' : List Char}
    (hbefore : ∀ c ∈ before, isSpace c = true) (hafter : ∀ c ∈ after, isSpace c = true)
    (hwhole : IsDigits whole) (hfrac : IsDigits frac)
    (hbefore' : ∀ c ∈ before', isSpace c = true) (hafter' : ∀ c ∈ after', isSpace c = true)
    (hwhole' : IsDigits whole') (hfrac' : IsDigits frac')
    (heq : before ++ (whole ++ '.' :: (frac ++ after)) = before' ++ (whole' ++ '.' :: (frac' ++ after'))) :
    whole = whole' ∧ frac = frac' ∧ after = after' := by
  have hfront : ∀ {before whole : List Char}, (∀ c ∈ before, isSpace c = true) → IsDigits whole →
      '.' ∉ before ++ whole ∧ (before ++ whole).dropWhile isSpace = whole := by
    intro before whole hbefore hwhole
    refine ⟨not_mem_point fun c hc ↦ (List.mem_append.mp hc).imp (hbefore c) (hwhole c), ?_⟩
    rw [List.dropWhile_append_of_pos hbefore, dropWhile_space_digits hwhole]
  have hback : ∀ {frac after : List Char}, IsDigits frac → (∀ c ∈ after, isSpace c = true) →
      '.' ∉ frac ++ after ∧ (frac ++ after).takeWhile Char.isDigit = frac := by
    intro frac after hfrac hafter
    refine ⟨not_mem_point fun c hc ↦ (List.mem_append.mp hc).elim (fun h ↦ Or.inr (hfrac c h))
      (fun h ↦ Or.inl (hafter c h)), ?_⟩
    rw [List.takeWhile_append_of_pos hfrac]
    have hstop : after.takeWhile Char.isDigit = [] := by
      cases after with
      | nil => rfl
      | cons c after =>
        exact List.takeWhile_cons_of_neg (Bool.eq_false_iff.mp (isDigit_of_isSpace (hafter c List.mem_cons_self)))
    rw [hstop, List.append_nil]
  have hsplit := congrArg (List.splitOn '.') heq
  rw [← List.append_assoc, ← List.append_assoc,
    List.splitOn_append_cons_self_of_not_mem (hfront hbefore hwhole).1,
    List.splitOn_append_cons_self_of_not_mem (hfront hbefore' hwhole').1,
    List.splitOn_eq_singleton (hback hfrac hafter).1, List.splitOn_eq_singleton (hback hfrac' hafter').1] at hsplit
  simp only [List.cons.injEq, and_true] at hsplit
  have hwholes : whole = whole' := by
    rw [← (hfront hbefore hwhole).2, hsplit.1, (hfront hbefore' hwhole').2]
  have hfracs : frac = frac' := by
    rw [← (hback hfrac hafter).2, hsplit.2, (hback hfrac' hafter').2]
  subst hfracs
  exact ⟨hwholes, rfl, List.append_cancel_left hsplit.2⟩

theorem parse_eq_parseMoney_iff (h : ReadsLongLong isBlank toLongLong) {w : ℤ}
    (hparse : parse toLongLong ECA str = (true, some v)) (hmoney : parseMoney str = some w) :
    v = w ↔ ¬FilledUp str := by
  obtain ⟨part, decimal, hstr, hlength, hread⟩ := parse_cases rfl hparse
  obtain ⟨hnul, -⟩ := mem_of_read h hread
  have hstrNul : '\x00' ∉ str := by
    rw [List.rightpad, List.mem_append, not_or, List.mem_append, not_or] at hnul
    rcases hstr with ⟨rfl, -, -⟩ | ⟨-, rfl, -⟩
    · simp only [List.mem_append, List.mem_cons, not_or]
      exact ⟨hnul.1, by decide, hnul.2.1⟩
    · exact hnul.1
  obtain ⟨whole, frac, ⟨hwhole, hfrac, before, point, after, htext, hbefore, hafter, hpoint⟩, hle, hw⟩ :=
    parseMoney_parts hmoney
  have hall : (str.takeWhile fun c ↦ c ≠ '\x00') = str := by
    rw [List.takeWhile_eq_self_iff]
    exact fun c hc ↦ decide_eq_true fun heq ↦ hstrNul (heq ▸ hc)
  rw [hall] at htext
  have hdigits : IsDigits (whole ++ frac) := isDigits_append.mpr ⟨hwhole, hfrac⟩
  have hvalue : w = ofDigits (whole ++ frac) * 10 ^ (8 - frac.length) := by
    have hpow : (10 : ℤ) ^ 8 = 10 ^ frac.length * 10 ^ (8 - frac.length) := by
      rw [← pow_add, Nat.add_sub_cancel' hle]
    have hcoin : COIN = 10 ^ 8 := by decide
    rw [hw, hcoin, hpow, parts, ofDigits_append]
    push_cast
    ring
  rcases hpoint with rfl | ⟨rfl, rfl⟩
  · rw [List.cons_append] at htext
    have hpointless : '.' ∉ before ++ whole ∧ '.' ∉ frac ++ after := by
      refine ⟨not_mem_point fun c hc ↦ (List.mem_append.mp hc).imp (hbefore c) (hwhole c), ?_⟩
      exact not_mem_point fun c hc ↦ ((List.mem_append.mp hc).imp (hfrac c) (hafter c)).symm
    have hparts : part = before ++ whole ∧ decimal = frac ++ after := by
      rcases hstr with ⟨hsame, hpart, hdecimal⟩ | ⟨hnone, -, -⟩
      · have hsplit := congrArg (List.splitOn '.') (hsame.symm.trans htext)
        rw [← List.append_assoc, List.splitOn_append_cons_self_of_not_mem hpart, List.splitOn_eq_singleton hdecimal,
          List.splitOn_append_cons_self_of_not_mem hpointless.1, List.splitOn_eq_singleton hpointless.2] at hsplit
        simpa using hsplit
      · rw [htext] at hnone
        exact absurd (by simp) hnone
    obtain ⟨rfl, rfl⟩ := hparts
    have hfilled : before ++ whole ++ (frac ++ after).rightpad (decimals ECA) '0' =
        before ++ ((whole ++ frac) ++ (after ++ List.replicate (8 - (frac ++ after).length) '0')) := by
      simp only [List.rightpad, List.append_assoc]
      rfl
    rw [hfilled] at hread
    obtain ⟨hv, hcases⟩ := read_filled h hbefore hafter hdigits hread
    have height : (frac ++ after).length ≤ 8 := hlength
    rw [List.length_append] at height hv hcases
    constructor
    · rintro hsame ⟨before', whole', frac', after', htext', hbefore', hafter', hwhole', hfrac', hne, hlength', hnonzero⟩
      obtain ⟨rfl, rfl, rfl⟩ := parts_unique hbefore hafter hwhole hfrac hbefore' hafter' hwhole' hfrac'
        (htext.symm.trans htext')
      have hpositive := List.length_pos_iff.mpr hne
      rw [List.length_append] at hlength'
      rw [hlength', Nat.sub_self, pow_zero, mul_one] at hv
      have hmore : 10 ^ 1 ≤ 10 ^ (8 - frac.length) := Nat.pow_le_pow_right (by decide) (by omega)
      have hlarger : ofDigits (whole ++ frac) < ofDigits (whole ++ frac) * 10 ^ (8 - frac.length) :=
        lt_mul_of_one_lt_right (Nat.pos_of_ne_zero hnonzero) (by omega)
      rw [hv, hvalue] at hsame
      exact absurd (by exact_mod_cast hsame) hlarger.ne
    · intro hnot
      by_cases hblanks : after = []
      · rw [hv, hvalue, hblanks, List.length_nil, Nat.add_zero]
      · by_cases hzero : ofDigits (whole ++ frac) = 0
        · rw [hv, hvalue, hzero, Nat.cast_zero, zero_mul, zero_mul]
        · refine absurd ⟨before, whole, frac, after, htext, hbefore, hafter, hwhole, hfrac, hblanks, ?_, hzero⟩ hnot
          rw [List.length_append]
          rcases hcases with hnone | hnone | hfull
          · exact absurd hnone hblanks
          · rw [hnone] at hzero
            exact absurd rfl hzero
          · omega
  · have hpointless : '.' ∉ str := by
      rw [htext]
      refine not_mem_point fun c hc ↦ ?_
      rcases List.mem_append.mp hc with hc | hc
      · exact Or.inl (hbefore c hc)
      · rcases List.mem_append.mp hc with hc | hc
        · exact Or.inr (hwhole c hc)
        · exact Or.inl (hafter c hc)
    have hparts : part = before ++ (whole ++ after) ∧ decimal = [] := by
      rcases hstr with ⟨hsame, -, -⟩ | ⟨-, hsame, hnone⟩
      · rw [hsame] at hpointless
        exact absurd (by simp) hpointless
      · exact ⟨hsame.symm.trans htext, hnone⟩
    obtain ⟨rfl, rfl⟩ := hparts
    have hfilled : before ++ (whole ++ after) ++ List.rightpad (decimals ECA) '0' [] =
        before ++ ((whole ++ []) ++ (after ++ List.replicate 8 '0')) := by
      simp only [List.rightpad, List.append_assoc, List.nil_append]
      rfl
    rw [hfilled] at hread
    obtain ⟨hv, -⟩ := read_filled h hbefore hafter hdigits hread
    refine iff_of_true (hv.trans hvalue.symm) ?_
    rintro ⟨before', whole', frac', after', htext', -⟩
    rw [htext'] at hpointless
    exact hpointless (by simp)

/-- An amount is read back just if it is below 10^18 and, where it is negative, above -10^17.  Where a text is
read by both, the value is the same unless blanks take the places of decimals. -/
theorem parse_format_iff (h : ReadsLongLong isBlank toLongLong) :
    (∀ unit n, valid unit = true → |n| ≤ MAX_TX →
      (parse toLongLong unit (format unit n false) = (true, some n) ↔ -10 ^ 17 < n ∧ n < 10 ^ 18)) ∧
    ∀ str v w, parse toLongLong ECA str = (true, some v) → parseMoney str = some w →
      (v = w ↔ ¬FilledUp str) :=
  ⟨fun _ _ ↦ parse_format h, fun _ _ _ ↦ parse_eq_parseMoney_iff h⟩

end

def signedValue (fNegative : Bool) (digits : List Char) : ℤ :=
  if fNegative then -ofDigits digits else ofDigits digits

/-- A `toLongLong` whose blanks are those of `isspace`. -/
def decimalLongLong (str : List Char) : ℤ × Bool :=
  let (fNegative, digits) := takeSign (trimmed isSpace str)
  if (digits ≠ [] ∧ digits.all Char.isDigit) ∧ InInt64 (signedValue fNegative digits) then
    (signedValue fNegative digits, true)
  else (0, false)

theorem isInteger_iff {text : List Char} {v : ℤ} : IsInteger text v ↔
    ((takeSign text).2 ≠ [] ∧ (takeSign text).2.all Char.isDigit = true) ∧
      v = signedValue (takeSign text).1 (takeSign text).2 := by
  constructor
  · rintro ⟨sign, digits, rfl, hdigits, hne, hsign⟩
    have htake : takeSign (sign ++ digits) = (decide (sign = ['-']), digits) := by
      rcases hsign with ⟨rfl, -⟩ | ⟨rfl | rfl, -⟩
      · rfl
      · rfl
      · exact takeSign_digits hdigits
    rw [htake]
    refine ⟨⟨hne, List.all_eq_true.mpr hdigits⟩, ?_⟩
    rcases hsign with ⟨rfl, hv⟩ | ⟨rfl | rfl, hv⟩
    · exact hv
    · exact hv
    · exact hv
  · rintro ⟨⟨hne, hall⟩, hv⟩
    obtain ⟨sign, htext, hsign⟩ := takeSign_cases text
    refine ⟨sign, (takeSign text).2, htext, List.all_eq_true.mp hall, hne, ?_⟩
    rcases hsign with ⟨hsign, hneg⟩ | ⟨hsign, hneg⟩
    · rw [hneg] at hv
      exact Or.inl ⟨hsign, hv⟩
    · rw [hneg] at hv
      exact Or.inr ⟨hsign, hv⟩

theorem reads_decimalLongLong : ReadsLongLong isSpace decimalLongLong where
  ok_iff str v := by
    rw [isInteger_iff]
    simp only [decimalLongLong]
    split
    · next hok =>
      rw [Prod.mk.injEq]
      constructor
      · rintro ⟨rfl, -⟩
        exact ⟨hok.2, hok.1, rfl⟩
      · rintro ⟨-, -, hv⟩
        exact ⟨hv.symm, rfl⟩
    · next hnot =>
      refine iff_of_false (fun heq ↦ Bool.false_ne_true (congrArg Prod.snd heq)) ?_
      rintro ⟨hrange, hdigits, rfl⟩
      exact hnot ⟨hdigits, hrange⟩
  isBlank_of_isSpace := fun _ h ↦ h
  isBlank_digit := fun _ h ↦ isSpace_eq_false h
  isBlank_sign := ⟨rfl, rfl⟩
  isBlank_nul := rfl

/-- 10^18 is printed with 19 digits. -/
theorem not_parse_format : ¬∀ isBlank toLongLong, ReadsLongLong isBlank toLongLong → ∀ unit n, valid unit = true →
    |n| ≤ MAX_TX → parse toLongLong unit (format unit n false) = (true, some n) := by
  intro hall
  have hread := hall _ _ reads_decimalLongLong ECA (10 ^ 18) rfl (by decide)
  rw [parse_format reads_decimalLongLong rfl (by decide)] at hread
  exact absurd hread.2 (lt_irrefl _)

theorem parse_coin_and_half : parse decimalLongLong ECA (format ECA 150000000 false) = (true, some 150000000) :=
  ((parse_format_iff reads_decimalLongLong).1 ECA 150000000 rfl (by decide)).mpr (by decide)

end ElectraUnits

end Electra.Qt
