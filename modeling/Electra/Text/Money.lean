import Electra.Chain.Transaction
import Electra.Foundations.MachineInt
import Electra.Foundations.Numeral
import Mathlib.Tactic.FieldSimp
import Mathlib.Tactic.Positivity

/-!
# Amounts as text

`strtoll` and the printing of 64-bit integers, over strings of single-byte characters.

`FormatMoney` prints an amount in coins, with at least two decimals.  `ParseMoney` reads one: blanks, up
to ten digits, up to eight decimals, and blanks.
-/

namespace Electra.Text

open Foundations.MachineInt Foundations.Numeral

section

/-- `isspace` in the locale of the program. -/
def isSpace (c : Char) : Bool := [' ', '\t', '\n', '\x0b', '\x0c', '\r'].contains c

/-- The sign, and what follows it. -/
def takeSign : List Char → Bool × List Char
  | '-' :: s => (true, s)
  | '+' :: s => (false, s)
  | s => (false, s)

/-- `strtoll` with base 10: a number that is out of range is the largest or smallest one. -/
def atoi64 (s : List Char) : ℤ :=
  let (fNegative, s) := takeSign (s.dropWhile isSpace)
  let n : ℤ := ofDigits (s.takeWhile Char.isDigit)
  if fNegative then max (-n) (-2 ^ 63) else min n (2 ^ 63 - 1)

def i64tostr (n : ℤ) : List Char :=
  if n < 0 then '-' :: Nat.toDigits 10 n.natAbs else Nat.toDigits 10 n.natAbs

variable {c : Char} {digits rest : List Char}

theorem isSpace_eq_false (h : c.isDigit = true) : isSpace c = false := by
  unfold isSpace
  rw [List.contains_eq_mem, decide_eq_false_iff_not]
  simp only [List.mem_cons, List.not_mem_nil, or_false]
  rintro (rfl | rfl | rfl | rfl | rfl | rfl) <;> exact absurd h (by decide)

theorem takeWhile_digits (h : IsDigits digits) : digits.takeWhile Char.isDigit = digits :=
  List.takeWhile_eq_self_iff.mpr h

/-- A sign that was taken, if there was one. -/
theorem takeSign_cases (s : List Char) : ∃ sign, s = sign ++ (takeSign s).2 ∧
    (sign = ['-'] ∧ (takeSign s).1 = true ∨ (sign = ['+'] ∨ sign = []) ∧ (takeSign s).1 = false) := by
  unfold takeSign
  split
  · exact ⟨['-'], rfl, Or.inl ⟨rfl, rfl⟩⟩
  · exact ⟨['+'], rfl, Or.inr ⟨Or.inl rfl, rfl⟩⟩
  · exact ⟨[], rfl, Or.inr ⟨Or.inr rfl, rfl⟩⟩

theorem takeSign_digits (h : IsDigits digits) : takeSign digits = (false, digits) := by
  cases digits with
  | nil => rfl
  | cons c digits =>
    have hc := (isDigits_cons.mp h).1
    unfold takeSign
    split
    · next heq =>
      rw [(List.cons.inj heq).1] at hc
      exact absurd hc (by decide)
    · next heq =>
      rw [(List.cons.inj heq).1] at hc
      exact absurd hc (by decide)
    · rfl

theorem dropWhile_space_digits (h : IsDigits digits) : digits.dropWhile isSpace = digits := by
  cases digits with
  | nil => rfl
  | cons c digits => rw [List.dropWhile_cons, isSpace_eq_false (isDigits_cons.mp h).1]; rfl

theorem atoi64_digits (h : IsDigits digits) : atoi64 digits = min (ofDigits digits : ℤ) (2 ^ 63 - 1) := by
  simp only [atoi64, dropWhile_space_digits h, takeSign_digits h, takeWhile_digits h]
  rfl

theorem atoi64_neg (h : IsDigits digits) :
    atoi64 ('-' :: digits) = max (-(ofDigits digits : ℤ)) (-2 ^ 63) := by
  have hdrop : ('-' :: digits).dropWhile isSpace = '-' :: digits := rfl
  simp only [atoi64, hdrop, takeSign, takeWhile_digits h, if_true]

/-- A printed number is read back. -/
theorem atoi64_i64tostr {n : ℤ} (h : InInt64 n) : atoi64 (i64tostr n) = n := by
  obtain ⟨hlow, hhigh⟩ := h
  unfold i64tostr
  split
  · next hneg =>
    rw [atoi64_neg (isDigits_toDigits _), ofDigits_toDigits]
    omega
  · next hnonneg =>
    rw [atoi64_digits (isDigits_toDigits _), ofDigits_toDigits]
    omega

end

open Chain

/-- The loop that trims zeros from the end, on the reversed text. -/
def trimZeros : List Char → List Char
  | c :: d :: e :: rest =>
      if c = '0' && e.isDigit then trimZeros (d :: e :: rest) else c :: d :: e :: rest
  | rest => rest

def formatMoney (n : ℤ) (fPlus : Bool) : List Char :=
  let n_abs := if n > 0 then n else -n
  let quotient := n_abs / COIN
  let remainder := n_abs % COIN
  let str := Nat.toDigits 10 quotient.toNat ++
    '.' :: (Nat.toDigits 10 remainder.toNat).leftpad 8 '0'
  let str := (trimZeros str.reverse).reverse
  if n < 0 then '-' :: str
  else if fPlus && n > 0 then '+' :: str
  else str

/-- The decimals, and what follows them. -/
def parseUnits : ℕ → List Char → ℕ × List Char
  | _, [] => (0, [])
  | nMult, c :: p =>
      if c.isDigit && nMult > 0 then
        let (nUnits, rest) := parseUnits (nMult / 10) p
        (nMult * (c.toNat - '0'.toNat) + nUnits, rest)
      else (0, c :: p)

/-- The loop over the whole digits; the decimals end it. -/
def parseWhole : List Char → List Char → Option (List Char × ℕ × List Char)
  | strWhole, [] => some (strWhole, 0, [])
  | strWhole, c :: p =>
      if c = '.' then
        let (nUnits, rest) := parseUnits (CENT * 10).toNat p
        some (strWhole, nUnits, rest)
      else if isSpace c then some (strWhole, 0, c :: p)
      else if !c.isDigit then none
      else parseWhole (strWhole ++ [c]) p

/-- A string is read up to its first NUL character. -/
def parseMoney (str : List Char) : Option ℤ := do
  let p := (str.takeWhile fun c ↦ c ≠ '\x00').dropWhile isSpace
  let (strWhole, nUnits, rest) ← parseWhole [] p
  if !rest.all isSpace then none
  else if strWhole.length > 10 then none
  else if (nUnits : ℤ) < 0 ∨ (nUnits : ℤ) > COIN then none
  else some (int64 (int64 (atoi64 strWhole * COIN) + nUnits))

/-- Blanks, digits, a point with digits or nothing, and blanks. -/
structure IsNumeral (str whole frac : List Char) : Prop where
  isDigits_whole : IsDigits whole
  isDigits_frac : IsDigits frac
  text : ∃ before point after, str = before ++ (whole ++ (point ++ after)) ∧
    (∀ c ∈ before, isSpace c = true) ∧ (∀ c ∈ after, isSpace c = true) ∧
      (point = '.' :: frac ∨ point = [] ∧ frac = [])

/-- What a numeral stands for. -/
def decimalValue (whole frac : List Char) : ℚ :=
  ofDigits whole + (ofDigits frac : ℚ) / 10 ^ frac.length

variable {str whole frac acc p rest strWhole : List Char} {nUnits w : ℕ} {c : Char} {n : ℤ}

theorem point_not_digit : '.'.isDigit = false := rfl

/-- The decimals that are read are all there are, unless eight of them are. -/
theorem parseUnits_spec (w : ℕ) (p : List Char) :
    ∃ frac rest, p = frac ++ rest ∧ IsDigits frac ∧ frac.length ≤ w ∧
      parseUnits (10 ^ w / 10) p = (parts w frac, rest) ∧
        (frac.length = w ∨ ∀ c ∈ rest.head?, c.isDigit = false) := by
  induction p generalizing w with
  | nil => exact ⟨[], [], rfl, by simp [IsDigits], Nat.zero_le _, by simp [parseUnits, parts], .inr (by simp)⟩
  | cons c p ih =>
    by_cases hdigit : c.isDigit = true
    · cases w with
      | zero => exact ⟨[], c :: p, rfl, by simp [IsDigits], le_rfl, by simp [parseUnits, parts], .inl rfl⟩
      | succ w =>
        obtain ⟨frac, rest, rfl, hfrac, hle, hunits, hend⟩ := ih w
        have hmult : 10 ^ (w + 1) / 10 = 10 ^ w := by
          rw [pow_succ, Nat.mul_div_cancel _ (by decide)]
        have hpos : 10 ^ w > 0 := Nat.pow_pos (by decide)
        refine ⟨c :: frac, rest, rfl, isDigits_cons.mpr ⟨hdigit, hfrac⟩, Nat.succ_le_succ hle, ?_, ?_⟩
        · rw [hmult, parseUnits, hdigit, hunits, parts_cons (Nat.lt_succ_of_le hle)]
          simp only [hpos, decide_true, Bool.and_self, if_true, Nat.succ_sub_one]
        · exact hend.imp (congrArg (· + 1)) id
    · have hnot : c.isDigit = false := Bool.eq_false_of_not_eq_true hdigit
      refine ⟨[], c :: p, rfl, by simp [IsDigits], Nat.zero_le _, ?_, .inr ?_⟩
      · simp [parseUnits, hnot, parts]
      · intro d hd
        cases hd
        exact hnot

theorem parseUnits_digits (h : IsDigits frac) (hle : frac.length ≤ w) :
    parseUnits (10 ^ w / 10) frac = (parts w frac, []) := by
  obtain ⟨frac', rest, rfl, -, hle', hunits, hend⟩ := parseUnits_spec w frac
  have hrest : rest = [] := by
    rw [List.length_append] at hle
    cases rest with
    | nil => rfl
    | cons c rest =>
      obtain hfull | hdigit := hend
      · rw [List.length_cons] at hle
        omega
      · have hc := (isDigits_append.mp h).2 c List.mem_cons_self
        rw [hdigit c rfl] at hc
        cases hc
  subst hrest
  rw [List.append_nil] at hunits ⊢
  exact hunits

theorem nMult_eq : (CENT * 10).toNat = 10 ^ 8 / 10 := by decide

/-- What was read when the loop ends. -/
theorem parseWhole_eq_some (h : parseWhole acc p = some (strWhole, nUnits, rest)) :
    ∃ whole frac point, p = whole ++ (point ++ rest) ∧ IsDigits whole ∧ IsDigits frac ∧
      strWhole = acc ++ whole ∧ frac.length ≤ 8 ∧ nUnits = parts 8 frac ∧
        (point = '.' :: frac ∨ point = [] ∧ frac = []) := by
  induction p generalizing acc with
  | nil =>
    cases h
    exact ⟨[], [], [], rfl, by simp [IsDigits], by simp [IsDigits], (List.append_nil _).symm,
      Nat.zero_le _, rfl, .inr ⟨rfl, rfl⟩⟩
  | cons c p ih =>
    rw [parseWhole] at h
    split at h
    · next hpoint =>
      obtain ⟨frac, rest', rfl, hfrac, hle, hunits, -⟩ := parseUnits_spec 8 p
      rw [nMult_eq, hunits] at h
      cases h
      exact ⟨[], frac, '.' :: frac, by rw [hpoint]; rfl, by simp [IsDigits], hfrac,
        (List.append_nil _).symm, hle, rfl, .inl rfl⟩
    · split at h
      · cases h
        exact ⟨[], [], [], rfl, by simp [IsDigits], by simp [IsDigits], (List.append_nil _).symm,
          Nat.zero_le _, rfl, .inr ⟨rfl, rfl⟩⟩
      · split at h
        · cases h
        · next hdigit =>
          rw [Bool.not_eq_true', Bool.not_eq_false] at hdigit
          obtain ⟨whole, frac, point, rfl, hwhole, hfrac, rfl, hle, hunits, hpoint⟩ := ih h
          exact ⟨c :: whole, frac, point, rfl, isDigits_cons.mpr ⟨hdigit, hwhole⟩, hfrac,
            by rw [List.append_assoc, List.singleton_append], hle, hunits, hpoint⟩

theorem parseWhole_digits (hwhole : IsDigits whole) (hfrac : IsDigits frac) (hle : frac.length ≤ 8) :
    parseWhole acc (whole ++ '.' :: frac) = some (acc ++ whole, parts 8 frac, []) := by
  induction whole generalizing acc with
  | nil =>
    rw [List.nil_append, parseWhole, if_pos rfl, nMult_eq, parseUnits_digits hfrac hle,
      List.append_nil]
  | cons c whole ih =>
    obtain ⟨hc, hlater⟩ := isDigits_cons.mp hwhole
    have hpoint : c ≠ '.' := by
      rintro rfl
      cases hc
    rw [List.cons_append, parseWhole, if_neg hpoint, isSpace_eq_false hc, hc, ih hlater,
      List.append_assoc, List.singleton_append]
    rfl

theorem int64_money (hlt : ofDigits whole < 10 ^ 10) (hunits : nUnits < 10 ^ 8) :
    int64 (int64 ((ofDigits whole : ℤ) * COIN) + nUnits) = ofDigits whole * COIN + nUnits := by
  rw [int64_add, int64_eq_self]
  unfold InInt64 COIN
  omega

theorem atoi64_whole (hwhole : IsDigits whole) (hle : whole.length ≤ 10) :
    atoi64 whole = ofDigits whole ∧ ofDigits whole < 10 ^ 10 := by
  have hlt : ofDigits whole < 10 ^ 10 :=
    (ofDigits_lt hwhole).trans_le (Nat.pow_le_pow_right (by decide) hle)
  rw [atoi64_digits hwhole]
  omega

/-- The digits of an accepted text, and its value in the smallest part. -/
theorem parseMoney_parts (h : parseMoney str = some n) :
    ∃ whole frac, IsNumeral (str.takeWhile fun c ↦ c ≠ '\x00') whole frac ∧ frac.length ≤ 8 ∧
      n = ofDigits whole * COIN + parts 8 frac := by
  simp only [parseMoney, bind, Option.bind_eq_some_iff, Option.ite_none_left_eq_some] at h
  obtain ⟨⟨strWhole, nUnits, rest⟩, hloop, hblank, hlength, -, hvalue⟩ := h
  obtain ⟨whole, frac, point, hp, hwhole, hfrac, rfl, hle, rfl, hpoint⟩ := parseWhole_eq_some hloop
  rw [Bool.not_eq_true', Bool.not_eq_false, List.all_eq_true] at hblank
  obtain ⟨hatoi, hlt⟩ := atoi64_whole hwhole (Nat.le_of_not_lt hlength)
  refine ⟨strWhole, frac, ⟨hwhole, hfrac,
    (str.takeWhile fun c ↦ c ≠ '\x00').takeWhile isSpace, point, rest, ?_, ?_, hblank, hpoint⟩, hle, ?_⟩
  · rw [← hp, List.takeWhile_append_dropWhile]
  · exact fun c hc ↦ List.mem_takeWhile_imp hc
  · rw [← Option.some.inj hvalue, hatoi]
    exact int64_money hlt (parts_lt hfrac hle)

/-- The exact value of an accepted text. -/
theorem parseMoney_eq_some (h : parseMoney str = some n) :
    ∃ whole frac, IsNumeral (str.takeWhile fun c ↦ c ≠ '\x00') whole frac ∧
      (n : ℚ) = decimalValue whole frac * COIN := by
  obtain ⟨whole, frac, hnumeral, hle, hn⟩ := parseMoney_parts h
  refine ⟨whole, frac, hnumeral, ?_⟩
  have hparts : (parts 8 frac : ℚ) = ofDigits frac / 10 ^ frac.length * COIN := by
    have hpow : ((10 : ℚ) ^ (8 - frac.length)) * 10 ^ frac.length = COIN := by
      rw [← pow_add, Nat.sub_add_cancel hle]
      norm_num [COIN]
    rw [parts]
    push_cast
    rw [← hpow]
    field_simp
  rw [hn, decimalValue]
  push_cast
  rw [hparts]
  ring

theorem not_mem_isNumeral (h : IsNumeral str whole frac) : '\x00' ∉ str := by
  obtain ⟨hwhole, hfrac, before, point, after, rfl, hbefore, hafter, hpoint⟩ := h
  have hspace : ∀ {l : List Char}, (∀ c ∈ l, isSpace c = true) → '\x00' ∉ l := fun hl hmem ↦
    absurd (hl _ hmem) (by decide)
  have hdigits : ∀ {l : List Char}, IsDigits l → '\x00' ∉ l := fun hl hmem ↦
    absurd (hl _ hmem) (by decide)
  have hpoint' : '\x00' ∉ point := by
    obtain rfl | ⟨rfl, -⟩ := hpoint
    · rw [List.mem_cons, not_or]
      exact ⟨by decide, hdigits hfrac⟩
    · exact List.not_mem_nil
  simp only [List.mem_append, not_or]
  exact ⟨hspace hbefore, hdigits hwhole, hpoint', hspace hafter⟩

/-- Zeros are trimmed behind the second decimal. -/
theorem trimZeros_spec {revFrac : List Char} (hdigits : ∀ c ∈ revFrac, c.isDigit = true)
    (htwo : 2 ≤ revFrac.length) (rest : List Char) :
    ∃ k revFrac', trimZeros (revFrac ++ '.' :: rest) = revFrac' ++ '.' :: rest ∧
      revFrac = List.replicate k '0' ++ revFrac' := by
  induction revFrac with
  | nil => exact absurd htwo (by decide)
  | cons c revFrac ih =>
    match revFrac, htwo, hdigits, ih with
    | [d], _, _, _ =>
      refine ⟨0, [c, d], ?_, rfl⟩
      simp only [List.cons_append, List.nil_append, trimZeros, point_not_digit, Bool.and_false,
        Bool.false_eq_true, if_false]
    | d :: e :: revFrac, _, hdigits, ih =>
      have he : e.isDigit = true := hdigits e (by simp)
      by_cases hc : c = '0'
      · obtain ⟨k, revFrac', htrim, heq⟩ := ih (fun a ha ↦ hdigits a (List.mem_cons_of_mem c ha))
          (by simp)
        refine ⟨k + 1, revFrac', ?_, by rw [heq, hc]; rfl⟩
        rw [← htrim]
        simp only [List.cons_append, trimZeros, hc, he, decide_true, Bool.and_self, if_true]
      · refine ⟨0, c :: d :: e :: revFrac, ?_, rfl⟩
        simp only [List.cons_append, trimZeros, hc, decide_false, Bool.false_and, Bool.false_eq_true,
          if_false]

/-- A printed amount: its whole coins, and the decimals that say the rest. -/
theorem formatMoney_eq (hn : 0 ≤ n) :
    ∃ frac, formatMoney n false = Nat.toDigits 10 (n / COIN).toNat ++ '.' :: frac ∧ IsDigits frac ∧
      frac.length ≤ 8 ∧ parts 8 frac = (n % COIN).toNat := by
  have hcoin : COIN = 100000000 := rfl
  have habs : (if n > 0 then n else -n) = n := by
    split <;> omega
  have hrem : (n % COIN).toNat < 10 ^ 8 := by
    rw [hcoin]
    omega
  have hwidth : (Nat.toDigits 10 (n % COIN).toNat).length ≤ 8 :=
    (Nat.length_toDigits_le_iff (by decide) (by decide)).mpr hrem
  have hpad : ((Nat.toDigits 10 (n % COIN).toNat).leftpad 8 '0').length = 8 := by
    rw [List.length_leftpad]
    exact max_eq_left hwidth
  have hdigits : IsDigits ((Nat.toDigits 10 (n % COIN).toNat).leftpad 8 '0') := by
    rw [List.leftpad, isDigits_append]
    exact ⟨fun c hc ↦ (List.eq_of_mem_replicate hc) ▸ rfl, isDigits_toDigits _⟩
  obtain ⟨k, revFrac, htrim, hrev⟩ := @trimZeros_spec
    ((Nat.toDigits 10 (n % COIN).toNat).leftpad 8 '0').reverse
    (fun c hc ↦ hdigits c (List.mem_reverse.mp hc)) (by rw [List.length_reverse, hpad]; decide)
    (Nat.toDigits 10 (n / COIN).toNat).reverse
  have hfrac : (Nat.toDigits 10 (n % COIN).toNat).leftpad 8 '0' =
      revFrac.reverse ++ List.replicate k '0' := by
    rw [← List.reverse_reverse ((Nat.toDigits 10 (n % COIN).toNat).leftpad 8 '0'), hrev,
      List.reverse_append, List.reverse_replicate]
  have hlength : revFrac.reverse.length + k = 8 := by
    rw [← hpad, hfrac, List.length_append, List.length_replicate]
  refine ⟨revFrac.reverse, ?_, ?_, by omega, ?_⟩
  · simp only [formatMoney, habs, not_lt.mpr hn, if_false, Bool.false_and, Bool.false_eq_true]
    rw [List.reverse_append, List.reverse_cons, List.append_assoc, List.singleton_append, htrim,
      List.reverse_append, List.reverse_cons, List.reverse_reverse, List.append_assoc,
      List.singleton_append]
  · rw [hfrac, isDigits_append] at hdigits
    exact hdigits.1
  · calc
      parts 8 revFrac.reverse = parts 8 (revFrac.reverse ++ List.replicate k '0') :=
        (parts_append_replicate k hlength.le).symm
      _ = parts 8 ((Nat.toDigits 10 (n % COIN).toNat).leftpad 8 '0') := by rw [hfrac]
      _ = (n % COIN).toNat := by
        rw [parts, hpad, List.leftpad, ofDigits_replicate_append, ofDigits_toDigits, Nat.sub_self,
          pow_zero, Nat.mul_one]

/-- An amount is read back if and only if its whole coins have at most ten digits. -/
theorem parseMoney_formatMoney (hn : 0 ≤ n) :
    parseMoney (formatMoney n false) = some n ↔ n < 10 ^ 10 * COIN := by
  have hcoin : COIN = 100000000 := rfl
  obtain ⟨frac, hformat, hfrac, hle, hparts⟩ := formatMoney_eq hn
  have hwhole := isDigits_toDigits (n / COIN).toNat
  have hnul : (formatMoney n false).takeWhile (fun c ↦ c ≠ '\x00') = formatMoney n false := by
    rw [List.takeWhile_eq_self_iff]
    intro c hc
    rw [hformat, List.mem_append, List.mem_cons] at hc
    rw [decide_eq_true_eq]
    rintro rfl
    obtain hc | hc | hc := hc
    · exact absurd (hwhole _ hc) (by decide)
    · exact absurd hc (by decide)
    · exact absurd (hfrac _ hc) (by decide)
  have hspace : (formatMoney n false).dropWhile isSpace = formatMoney n false := by
    rw [hformat]
    cases hdigits : Nat.toDigits 10 (n / COIN).toNat with
    | nil => exact absurd hdigits Nat.toDigits_ne_nil
    | cons c digits =>
      rw [hdigits] at hwhole
      rw [List.cons_append, List.dropWhile_cons, isSpace_eq_false (isDigits_cons.mp hwhole).1]
      rfl
  have hloop : parseWhole [] (formatMoney n false) =
      some (Nat.toDigits 10 (n / COIN).toNat, (n % COIN).toNat, []) := by
    rw [hformat, parseWhole_digits hwhole hfrac hle, List.nil_append, hparts]
  have hlength : (Nat.toDigits 10 (n / COIN).toNat).length ≤ 10 ↔ n < 10 ^ 10 * COIN := by
    rw [Nat.length_toDigits_le_iff (by decide) (by decide), hcoin]
    omega
  have hrem : (n % COIN).toNat < 10 ^ 8 := by
    rw [hcoin]
    omega
  have hunits : ¬ (((n % COIN).toNat : ℤ) < 0 ∨ ((n % COIN).toNat : ℤ) > COIN) := by
    rw [hcoin] at hrem ⊢
    omega
  simp only [parseMoney, hnul, hspace, hloop, bind, Option.bind, List.all_nil, Bool.not_true,
    Bool.false_eq_true, if_false, hunits]
  by_cases hsmall : n < 10 ^ 10 * COIN
  · have hle' := hlength.mpr hsmall
    obtain ⟨hatoi, hlt⟩ := atoi64_whole hwhole hle'
    have hvalue : int64 (int64 ((ofDigits (Nat.toDigits 10 (n / COIN).toNat) : ℤ) * COIN) +
        (n % COIN).toNat) = n := by
      rw [int64_money hlt hrem, ofDigits_toDigits, hcoin]
      omega
    rw [if_neg (not_lt.mpr hle'), hatoi, hvalue]
    exact iff_of_true rfl hsmall
  · rw [if_pos (Nat.lt_of_not_le fun hle' ↦ hsmall (hlength.mp hle'))]
    exact iff_of_false (by simp) hsmall

/-- Amounts of less than 10^10 coins come back, and no others.  A text without NUL characters that is
accepted has its exact value. -/
theorem money_iff (n : ℤ) (str : List Char) :
    (moneyRange n = true → (parseMoney (formatMoney n false) = some n ↔ n < 10 ^ 10 * COIN)) ∧
    (parseMoney str = some n →
      ((∃ whole frac, IsNumeral str whole frac ∧ (n : ℚ) = decimalValue whole frac * COIN) ↔
        '\x00' ∉ str)) := by
  constructor
  · intro hrange
    rw [moneyRange, Bool.and_eq_true, decide_eq_true_eq] at hrange
    exact parseMoney_formatMoney hrange.1
  · intro hparse
    obtain ⟨whole, frac, hnumeral, hvalue⟩ := parseMoney_eq_some hparse
    constructor
    · intro h
      obtain ⟨whole', frac', hnumeral', -⟩ := h
      exact not_mem_isNumeral hnumeral'
    · intro hnul
      have hall : (str.takeWhile fun c ↦ decide (c ≠ '\x00')) = str := by
        rw [List.takeWhile_eq_self_iff]
        intro c hc
        rw [decide_eq_true_eq]
        exact fun heq ↦ hnul (heq ▸ hc)
      rw [hall] at hnumeral
      exact ⟨whole, frac, hnumeral, hvalue⟩

example : formatMoney (COIN / 10000 * 123456789) false = "12345.6789".toList := by decide

theorem money_coin_and_half :
    moneyRange COIN = true ∧
      (parseMoney (formatMoney COIN false) = some COIN ↔ COIN < 10 ^ 10 * COIN) ∧
      parseMoney " 1.5".toList = some 150000000 ∧
      ((∃ whole frac, IsNumeral " 1.5".toList whole frac ∧
        ((150000000 : ℤ) : ℚ) = decimalValue whole frac * COIN) ↔ '\x00' ∉ " 1.5".toList) :=
  ⟨rfl, (money_iff COIN []).1 rfl, by decide,
    (money_iff 150000000 " 1.5".toList).2 (by decide)⟩

/-- Ten thousand million coins are printed, and are not read. -/
theorem parseMoney_eq_none : moneyRange (10 ^ 10 * COIN) = true ∧
    formatMoney (10 ^ 10 * COIN) false = "10000000000.00".toList ∧
      parseMoney (formatMoney (10 ^ 10 * COIN) false) = none := by
  decide

end Electra.Text
