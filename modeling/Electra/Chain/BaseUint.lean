import Electra.Foundations.Numeral
/-!
# Unsigned integers of fixed width

`base_uint` keeps a number in 32-bit words, the low one first, and computes word by word.
-/

namespace Electra.Chain

open Foundations.Limbs

/-- `base_uint`; the width is the number of words. -/
structure BaseUint (WIDTH : ℕ) where
  pn : List (BitVec 32)
  length_pn : pn.length = WIDTH

namespace BaseUint

variable {WIDTH : ℕ}

def toNat (a : BaseUint WIDTH) : ℕ := ofLimbs a.pn

/-- The loop of `+=`, from the low word on. -/
def addLoop : BitVec 64 → List (BitVec 32) → List (BitVec 32) → List (BitVec 32)
  | carry, x :: xs, y :: ys =>
      let n := carry + x.setWidth 64 + y.setWidth 64
      (n &&& 0xffffffff).setWidth 32 :: addLoop (n >>> 32) xs ys
  | _, _, _ => []

/-- The loop of `++` goes on while a word wraps to zero and is not the last one. -/
def incrementLoop : List (BitVec 32) → List (BitVec 32)
  | [] => []
  | x :: xs => if x + 1 = 0 ∧ xs ≠ [] then (x + 1) :: incrementLoop xs else (x + 1) :: xs

/-- The loop of `--` goes on while a word wraps to its maximum and is not the last one. -/
def decrementLoop : List (BitVec 32) → List (BitVec 32)
  | [] => []
  | x :: xs => if x - 1 = -1 ∧ xs ≠ [] then (x - 1) :: decrementLoop xs else (x - 1) :: xs

/-- The loops of the comparisons, from the top word on; `fTie` is the answer for equal numbers. -/
def lessLoop (fTie : Bool) : List (BitVec 32 × BitVec 32) → Bool
  | [] => fTie
  | (x, y) :: rest => if x < y then true else if x > y then false else lessLoop fTie rest

/-- One round of the loop of `<<=`. -/
def shiftLeftRound (WIDTH k shift : ℕ) (a : List (BitVec 32)) (pn : List (BitVec 32)) (i : ℕ) :
    List (BitVec 32) :=
  let pn := if i + k + 1 < WIDTH ∧ shift ≠ 0 then
      pn.modify (i + k + 1) fun x ↦ x ||| a.getD i 0 >>> (32 - shift) else pn
  if i + k < WIDTH then pn.modify (i + k) fun x ↦ x ||| a.getD i 0 <<< shift else pn

/-- One round of the loop of `>>=`. -/
def shiftRightRound (k shift : ℕ) (a : List (BitVec 32)) (pn : List (BitVec 32)) (i : ℕ) :
    List (BitVec 32) :=
  let pn := if k + 1 ≤ i ∧ shift ≠ 0 then
      pn.modify (i - k - 1) fun x ↦ x ||| a.getD i 0 <<< (32 - shift) else pn
  if k ≤ i then pn.modify (i - k) fun x ↦ x ||| a.getD i 0 >>> shift else pn

theorem length_addLoop (carry : BitVec 64) (xs ys : List (BitVec 32)) (h : xs.length = ys.length) :
    (addLoop carry xs ys).length = xs.length := by
  induction xs generalizing ys carry with
  | nil => cases ys <;> rfl
  | cons x xs ih =>
    cases ys with
    | nil => cases h
    | cons y ys => rw [addLoop, List.length_cons, ih _ _ (Nat.succ.inj h), List.length_cons]

variable (xs : List (BitVec 32))

theorem length_incrementLoop : (incrementLoop xs).length = xs.length := by
  induction xs with
  | nil => rfl
  | cons x xs ih =>
    unfold incrementLoop
    split
    · rw [List.length_cons, ih, List.length_cons]
    · rfl

theorem length_decrementLoop : (decrementLoop xs).length = xs.length := by
  induction xs with
  | nil => rfl
  | cons x xs ih =>
    unfold decrementLoop
    split
    · rw [List.length_cons, ih, List.length_cons]
    · rfl

theorem length_shiftLeftRound (k shift : ℕ) (a pn : List (BitVec 32)) (i : ℕ) :
    (shiftLeftRound WIDTH k shift a pn i).length = pn.length := by
  unfold shiftLeftRound
  dsimp only
  split <;> split <;> simp only [List.length_modify]

theorem length_shiftRightRound (k shift : ℕ) (a pn : List (BitVec 32)) (i : ℕ) :
    (shiftRightRound k shift a pn i).length = pn.length := by
  unfold shiftRightRound
  dsimp only
  split <;> split <;> simp only [List.length_modify]

theorem length_foldl_round {round : List (BitVec 32) → ℕ → List (BitVec 32)}
    (h : ∀ pn i, (round pn i).length = pn.length) (is : List ℕ) (pn : List (BitVec 32)) :
    (is.foldl round pn).length = pn.length := by
  induction is generalizing pn with
  | nil => rfl
  | cons i is ih => rw [List.foldl_cons, ih, h]

/-- `operator=(uint64_t)`, which sets the low two words. -/
def assign (WIDTH : ℕ) (b : BitVec 64) : BaseUint WIDTH :=
  ⟨((List.replicate WIDTH 0).set 0 (b.setWidth 32)).set 1 ((b >>> 32).setWidth 32), by simp⟩

def add (a b : BaseUint WIDTH) : BaseUint WIDTH :=
  ⟨addLoop 0 a.pn b.pn, (length_addLoop 0 _ _ (a.length_pn.trans b.length_pn.symm)).trans a.length_pn⟩

def increment (a : BaseUint WIDTH) : BaseUint WIDTH :=
  ⟨incrementLoop a.pn, (length_incrementLoop a.pn).trans a.length_pn⟩

def decrement (a : BaseUint WIDTH) : BaseUint WIDTH :=
  ⟨decrementLoop a.pn, (length_decrementLoop a.pn).trans a.length_pn⟩

def complement (a : BaseUint WIDTH) : BaseUint WIDTH :=
  ⟨a.pn.map (~~~ ·), (List.length_map _).trans a.length_pn⟩

def neg (a : BaseUint WIDTH) : BaseUint WIDTH := a.complement.increment

def sub (a b : BaseUint WIDTH) : BaseUint WIDTH := a.add b.neg

/-- `operator+=(uint64_t)`. -/
def addWord (a : BaseUint WIDTH) (b64 : BitVec 64) : BaseUint WIDTH := a.add (assign WIDTH b64)

/-- `operator-=(uint64_t)`. -/
def subWord (a : BaseUint WIDTH) (b64 : BitVec 64) : BaseUint WIDTH := a.add (assign WIDTH b64).neg

def shiftLeft (a : BaseUint WIDTH) (shift : BitVec 32) : BaseUint WIDTH :=
  ⟨(List.range WIDTH).foldl (shiftLeftRound WIDTH (shift.toNat / 32) (shift.toNat % 32) a.pn)
      (List.replicate WIDTH 0),
    (length_foldl_round (length_shiftLeftRound _ _ _) _ _).trans List.length_replicate⟩

def shiftRight (a : BaseUint WIDTH) (shift : BitVec 32) : BaseUint WIDTH :=
  ⟨(List.range WIDTH).foldl (shiftRightRound (shift.toNat / 32) (shift.toNat % 32) a.pn)
      (List.replicate WIDTH 0),
    (length_foldl_round (length_shiftRightRound _ _ _) _ _).trans List.length_replicate⟩

def less (a b : BaseUint WIDTH) : Bool := lessLoop false (a.pn.zip b.pn).reverse

def lessEqual (a b : BaseUint WIDTH) : Bool := lessLoop true (a.pn.zip b.pn).reverse

/-- A word of the first number that is above the other one's decides for it. -/
def greater (a b : BaseUint WIDTH) : Bool := lessLoop false (b.pn.zip a.pn).reverse

def greaterEqual (a b : BaseUint WIDTH) : Bool := lessLoop true (b.pn.zip a.pn).reverse

def equal (a b : BaseUint WIDTH) : Bool := (a.pn.zip b.pn).all fun words ↦ decide (words.1 = words.2)

/-- `operator==(uint64_t)`. -/
def equalWord (a : BaseUint WIDTH) (b : BitVec 64) : Bool :=
  decide (a.pn.getD 0 0 = b.setWidth 32) && decide (a.pn.getD 1 0 = (b >>> 32).setWidth 32) &&
    (a.pn.drop 2).all fun x ↦ decide (x = 0)

variable (a b : BaseUint WIDTH)

theorem toNat_lt : a.toNat < 2 ^ (32 * WIDTH) := by
  have hlt := ofLimbs_lt a.pn
  rwa [a.length_pn] at hlt

/-- The carry is at most one, and the words hold the sum without what is carried out of the last one. -/
theorem ofLimbs_addLoop (carry : BitVec 64) (hcarry : carry.toNat ≤ 1) (xs ys : List (BitVec 32))
    (h : xs.length = ys.length) : ofLimbs (addLoop carry xs ys) =
      (carry.toNat + ofLimbs xs + ofLimbs ys) % 2 ^ (32 * xs.length) := by
  induction xs generalizing ys carry with
  | nil =>
    cases ys <;> simp [addLoop, Nat.mod_one]
  | cons x xs ih =>
    cases ys with
    | nil => cases h
    | cons y ys =>
      have hx := x.isLt
      have hy := y.isLt
      have hsum : (carry + x.setWidth 64 + y.setWidth 64).toNat = carry.toNat + x.toNat + y.toNat := by
        simp only [BitVec.toNat_add, BitVec.toNat_setWidth]
        omega
      rw [addLoop]
      generalize carry + x.setWidth 64 + y.setWidth 64 = n at hsum ⊢
      have hlow : ((n &&& 0xffffffff).setWidth 32).toNat = n.toNat % 2 ^ 32 := by
        rw [BitVec.toNat_setWidth, BitVec.toNat_and]
        change (n.toNat &&& 2 ^ 32 - 1) % 2 ^ 32 = _
        rw [Nat.and_two_pow_sub_one_eq_mod, Nat.mod_mod]
      have hhigh : (n >>> 32).toNat = n.toNat / 2 ^ 32 := by
        rw [BitVec.toNat_ushiftRight, Nat.shiftRight_eq_div_pow]
      have hquot : (carry.toNat + ofLimbs (x :: xs) + ofLimbs (y :: ys)) / 2 ^ 32 =
          n.toNat / 2 ^ 32 + ofLimbs xs + ofLimbs ys := by
        rw [ofLimbs_cons, ofLimbs_cons]
        omega
      have hrest : (carry.toNat + ofLimbs (x :: xs) + ofLimbs (y :: ys)) % 2 ^ 32 = n.toNat % 2 ^ 32 := by
        rw [ofLimbs_cons, ofLimbs_cons]
        omega
      rw [ofLimbs_cons, ih _ (by omega) ys (Nat.succ.inj h), hlow, hhigh, List.length_cons, Nat.mul_succ,
        pow_add, Nat.mul_comm _ (2 ^ 32), Nat.mod_mul, hquot, hrest]

theorem toNat_add : (a.add b).toNat = (a.toNat + b.toNat) % 2 ^ (32 * WIDTH) := by
  have hvalue := ofLimbs_addLoop 0 (Nat.zero_le 1) a.pn b.pn (a.length_pn.trans b.length_pn.symm)
  have hnone : (0 : BitVec 64).toNat = 0 := rfl
  rw [a.length_pn, hnone, Nat.zero_add] at hvalue
  exact hvalue

theorem ofLimbs_incrementLoop :
    ofLimbs (incrementLoop xs) = (ofLimbs xs + 1) % 2 ^ (32 * xs.length) := by
  induction xs with
  | nil => rfl
  | cons x xs ih =>
    have hx := x.isLt
    have hxs := ofLimbs_lt xs
    have hsucc : (x + 1).toNat = (x.toNat + 1) % 2 ^ 32 := BitVec.toNat_add x 1
    have hsplit : (ofLimbs (x :: xs) + 1) % 2 ^ (32 * (x :: xs).length) =
        (x.toNat + 1) % 2 ^ 32 + 2 ^ 32 * ((ofLimbs xs + (x.toNat + 1) / 2 ^ 32) % 2 ^ (32 * xs.length)) := by
      rw [List.length_cons, Nat.mul_succ, pow_add, Nat.mul_comm _ (2 ^ 32), Nat.mod_mul, ofLimbs_cons]
      congr 1
      · omega
      · congr 2
        omega
    rw [hsplit]
    unfold incrementLoop
    split
    · next hwraps =>
      have hzero : (x.toNat + 1) % 2 ^ 32 = 0 := by
        rw [← hsucc, hwraps.1]
        rfl
      have hcarry : (x.toNat + 1) / 2 ^ 32 = 1 := by omega
      rw [ofLimbs_cons, ih, hsucc, hcarry]
    · next hstays =>
      have hrest : (ofLimbs xs + (x.toNat + 1) / 2 ^ 32) % 2 ^ (32 * xs.length) = ofLimbs xs := by
        by_cases hlast : xs = []
        · rw [hlast]
          exact Nat.mod_one _
        · have hbelow : x.toNat + 1 < 2 ^ 32 := by
            by_contra hfull
            refine hstays ⟨BitVec.eq_of_toNat_eq ?_, hlast⟩
            have hmax : x.toNat + 1 = 2 ^ 32 := by omega
            rw [hsucc, hmax]
            rfl
          rw [Nat.div_eq_of_lt hbelow, Nat.add_zero, Nat.mod_eq_of_lt hxs]
      rw [ofLimbs_cons, hsucc, hrest]

theorem toNat_increment : a.increment.toNat = (a.toNat + 1) % 2 ^ (32 * WIDTH) := by
  have hvalue := ofLimbs_incrementLoop a.pn
  rw [a.length_pn] at hvalue
  exact hvalue

theorem not_not_add_one (x : BitVec 32) : ~~~(~~~x + 1) = x - 1 := by
  have hx := x.isLt
  apply BitVec.eq_of_toNat_eq
  simp only [BitVec.toNat_not, BitVec.toNat_add, BitVec.toNat_sub]
  change 2 ^ 32 - 1 - (2 ^ 32 - 1 - x.toNat + 1) % 2 ^ 32 = (2 ^ 32 - 1 + x.toNat) % 2 ^ 32
  omega

theorem sub_one_eq_iff (x : BitVec 32) : x - 1 = -1 ↔ ~~~x + 1 = 0 := by
  rw [← not_not_add_one]
  constructor
  · intro h
    simpa using congrArg (~~~ ·) h
  · intro h
    rw [h]
    rfl

/-- A decrement is an increment between two complements. -/
theorem decrementLoop_eq :
    decrementLoop xs = (incrementLoop (xs.map (~~~ ·))).map (~~~ ·) := by
  induction xs with
  | nil => rfl
  | cons x xs ih =>
    rw [List.map_cons]
    unfold decrementLoop incrementLoop
    have hguard : (x - 1 = -1 ∧ xs ≠ []) ↔ (~~~x + 1 = 0 ∧ xs.map (~~~ ·) ≠ []) := by
      rw [sub_one_eq_iff, Ne, Ne, List.map_eq_nil_iff]
    by_cases hwraps : x - 1 = -1 ∧ xs ≠ []
    · rw [if_pos hwraps, if_pos (hguard.mp hwraps), ih, List.map_cons, not_not_add_one]
    · have htwice : (xs.map (~~~ ·)).map (~~~ ·) = xs := by
        rw [List.map_map]
        exact List.map_id'' (fun y ↦ BitVec.not_not) xs
      rw [if_neg hwraps, if_neg (fun h ↦ hwraps (hguard.mpr h)), List.map_cons, not_not_add_one, htwice]

theorem ofLimbs_decrementLoop : ofLimbs (decrementLoop xs) =
    (ofLimbs xs + (2 ^ (32 * xs.length) - 1)) % 2 ^ (32 * xs.length) := by
  have hlt := ofLimbs_lt xs
  have hnot := ofLimbs_map_not xs
  have hincrement := ofLimbs_incrementLoop (xs.map (~~~ ·))
  have hagain := ofLimbs_map_not (incrementLoop (xs.map (~~~ ·)))
  rw [length_incrementLoop, List.length_map] at hagain
  rw [List.length_map] at hincrement
  rw [decrementLoop_eq]
  generalize 2 ^ (32 * xs.length) = m at *
  obtain hzero | hpos := Nat.eq_zero_or_pos (ofLimbs xs)
  · have hfull : ofLimbs (xs.map (~~~ ·)) + 1 = m := by omega
    rw [hfull, Nat.mod_self] at hincrement
    rw [hzero, Nat.zero_add, Nat.mod_eq_of_lt (by omega)]
    omega
  · have hwrap : ofLimbs xs + (m - 1) = ofLimbs xs - 1 + m := by omega
    rw [Nat.mod_eq_of_lt (by omega)] at hincrement
    rw [hwrap, Nat.add_mod_right, Nat.mod_eq_of_lt (by omega)]
    omega

theorem toNat_decrement :
    a.decrement.toNat = (a.toNat + (2 ^ (32 * WIDTH) - 1)) % 2 ^ (32 * WIDTH) := by
  have hvalue := ofLimbs_decrementLoop a.pn
  rw [a.length_pn] at hvalue
  exact hvalue

theorem toNat_complement : a.complement.toNat = 2 ^ (32 * WIDTH) - 1 - a.toNat := by
  have hvalue := ofLimbs_map_not a.pn
  rw [a.length_pn] at hvalue
  change ofLimbs (a.pn.map (~~~ ·)) = 2 ^ (32 * WIDTH) - 1 - ofLimbs a.pn
  omega

theorem toNat_neg : a.neg.toNat = (2 ^ (32 * WIDTH) - a.toNat) % 2 ^ (32 * WIDTH) := by
  have hlt := a.toNat_lt
  have hsum : 2 ^ (32 * WIDTH) - 1 - a.toNat + 1 = 2 ^ (32 * WIDTH) - a.toNat := by omega
  rw [neg, toNat_increment, toNat_complement, hsum]

theorem toNat_sub :
    (a.sub b).toNat = (a.toNat + (2 ^ (32 * WIDTH) - b.toNat)) % 2 ^ (32 * WIDTH) := by
  rw [sub, toNat_add, toNat_neg, Nat.add_mod_mod]

/-- The top words in which two numbers differ decide. -/
theorem lessLoop_eq (fTie : Bool) (words : List (BitVec 32 × BitVec 32)) :
    lessLoop fTie words.reverse =
      if fTie then decide (ofLimbs (words.map Prod.fst) ≤ ofLimbs (words.map Prod.snd))
      else decide (ofLimbs (words.map Prod.fst) < ofLimbs (words.map Prod.snd)) := by
  induction words using List.reverseRecOn with
  | nil => cases fTie <;> rfl
  | append_singleton words word ih =>
    obtain ⟨x, y⟩ := word
    have hlength : (words.map Prod.fst).length = (words.map Prod.snd).length := by
      rw [List.length_map, List.length_map]
    rw [List.reverse_append, List.map_append, List.map_append]
    change (if x < y then true else if x > y then false else lessLoop fTie words.reverse) =
      if fTie then decide (ofLimbs (words.map Prod.fst ++ [x]) ≤ ofLimbs (words.map Prod.snd ++ [y]))
      else decide (ofLimbs (words.map Prod.fst ++ [x]) < ofLimbs (words.map Prod.snd ++ [y]))
    obtain hlt | heq | hgt : x < y ∨ x.toNat = y.toNat ∨ y < x := Nat.lt_trichotomy x.toNat y.toNat
    · have hbelow := ofLimbs_snoc_lt hlength hlt
      rw [if_pos hlt, decide_eq_true hbelow.le, decide_eq_true hbelow, ite_self]
    · obtain rfl := BitVec.eq_of_toNat_eq heq
      rw [if_neg (BitVec.lt_irrefl x), if_neg (BitVec.lt_irrefl x), ih]
      simp only [← not_lt, ofLimbs_snoc_lt_iff hlength, ofLimbs_snoc_lt_iff hlength.symm]
    · have habove := ofLimbs_snoc_lt hlength.symm hgt
      rw [if_neg (BitVec.lt_asymm hgt), if_pos hgt, decide_eq_false (not_le.mpr habove),
        decide_eq_false (lt_asymm habove), ite_self]

theorem zip_words :
    (a.pn.zip b.pn).map Prod.fst = a.pn ∧ (a.pn.zip b.pn).map Prod.snd = b.pn := by
  have hlength : a.pn.length = b.pn.length := a.length_pn.trans b.length_pn.symm
  exact ⟨List.map_fst_zip hlength.le, List.map_snd_zip hlength.ge⟩

theorem less_eq : a.less b = decide (a.toNat < b.toNat) := by
  rw [less, lessLoop_eq, (zip_words a b).1, (zip_words a b).2]
  rfl

theorem lessEqual_eq : a.lessEqual b = decide (a.toNat ≤ b.toNat) := by
  rw [lessEqual, lessLoop_eq, (zip_words a b).1, (zip_words a b).2]
  rfl

theorem toNat_injective {a b : BaseUint WIDTH} (h : a.toNat = b.toNat) : a.pn = b.pn :=
  ofLimbs_injective (a.length_pn.trans b.length_pn.symm) h

theorem greater_eq : a.greater b = decide (a.toNat > b.toNat) := less_eq b a

theorem greaterEqual_eq : a.greaterEqual b = decide (a.toNat ≥ b.toNat) :=
  lessEqual_eq b a

theorem all_zip_eq {xs ys : List (BitVec 32)} (h : xs.length = ys.length) :
    ((xs.zip ys).all fun words ↦ decide (words.1 = words.2)) = decide (xs = ys) := by
  induction xs generalizing ys with
  | nil =>
    obtain rfl := List.eq_nil_of_length_eq_zero h.symm
    rfl
  | cons x xs ih =>
    cases ys with
    | nil => cases h
    | cons y ys =>
      rw [List.zip_cons_cons, List.all_cons, ih (Nat.succ.inj h), ← Bool.decide_and]
      exact decide_eq_decide.mpr List.cons_eq_cons.symm

theorem equal_eq : a.equal b = decide (a.toNat = b.toNat) := by
  rw [equal, all_zip_eq (a.length_pn.trans b.length_pn.symm)]
  exact decide_eq_decide.mpr ⟨fun h ↦ by rw [toNat, h]; rfl, toNat_injective⟩

theorem getLsbD_modify_or {pn : List (BitVec 32)} {j : ℕ} (hj : j < pn.length) (c : Prop) [Decidable c]
    (m b : ℕ) (v : BitVec 32) : ((if c then pn.modify m fun x ↦ x ||| v else pn).getD j 0).getLsbD b =
      ((pn.getD j 0).getLsbD b || (decide (c ∧ m = j) && v.getLsbD b)) := by
  split
  · next hc =>
    rw [List.getD_eq_getElem?_getD, List.getElem?_modify, List.getD_eq_getElem?_getD,
      List.getElem?_eq_getElem hj]
    by_cases hm : m = j
    · simp [hm, hc]
    · simp [hm]
  · next hc => simp [hc]

/-- What one round of `<<=` puts into a word: the low bits of the word that is shifted, and its high bits
into the next one. -/
theorem getLsbD_shiftLeftRound (k s : ℕ) (hs : s < 32) (a pn : List (BitVec 32)) (hpn : pn.length = WIDTH)
    (i j b : ℕ) (hj : j < WIDTH) (hb : b < 32) :
    ((shiftLeftRound WIDTH k s a pn i).getD j 0).getLsbD b = ((pn.getD j 0).getLsbD b ||
      decide (i + k + 1 = j ∧ b < s) && (a.getD i 0).getLsbD (32 - s + b) ||
      decide (i + k = j ∧ s ≤ b) && (a.getD i 0).getLsbD (b - s)) := by
  have hj' : j < pn.length := by omega
  unfold shiftLeftRound
  rw [getLsbD_modify_or (by split <;> simpa), getLsbD_modify_or hj', BitVec.getLsbD_ushiftRight,
    BitVec.getLsbD_shiftLeft]
  have hhigh : (decide ((i + k + 1 < WIDTH ∧ s ≠ 0) ∧ i + k + 1 = j) && (a.getD i 0).getLsbD (32 - s + b)) =
      (decide (i + k + 1 = j ∧ b < s) && (a.getD i 0).getLsbD (32 - s + b)) := by
    by_cases hbs : b < s
    · congr 1
      exact decide_eq_decide.mpr (by omega)
    · rw [BitVec.getLsbD_of_ge _ _ (by omega), Bool.and_false, Bool.and_false]
  have hlow : (decide (i + k < WIDTH ∧ i + k = j) && (decide (b < 32) && !decide (b < s) &&
      (a.getD i 0).getLsbD (b - s))) = (decide (i + k = j ∧ s ≤ b) && (a.getD i 0).getLsbD (b - s)) := by
    rw [← Bool.and_assoc]
    congr 1
    rw [Bool.eq_iff_iff]
    simp only [Bool.and_eq_true, decide_eq_true_iff, Bool.not_eq_true', decide_eq_false_iff_not]
    omega
  rw [hhigh, hlow]

/-- Of the rounds at most one meets a condition on the index. -/
theorem any_range_eq (n m : ℕ) (f : ℕ → Bool) :
    ((List.range n).any fun i ↦ decide (i = m) && f i) = (decide (m < n) && f m) := by
  rw [Bool.eq_iff_iff, List.any_eq_true, Bool.and_eq_true, decide_eq_true_iff]
  constructor
  · rintro ⟨i, hi, h⟩
    rw [Bool.and_eq_true, decide_eq_true_iff] at h
    obtain ⟨rfl, hf⟩ := h
    exact ⟨List.mem_range.mp hi, hf⟩
  · rintro ⟨hm, hf⟩
    exact ⟨m, List.mem_range.mpr hm, by rw [decide_eq_true rfl, hf]; rfl⟩

theorem any_range_add_eq (n c j : ℕ) (hj : j < n) (f : ℕ → Bool) :
    ((List.range n).any fun i ↦ decide (i + c = j) && f i) = (decide (c ≤ j) && f (j - c)) := by
  by_cases hc : c ≤ j
  · have hindex : ∀ i, decide (i + c = j) = decide (i = j - c) := fun i ↦ decide_eq_decide.mpr (by omega)
    simp only [hindex]
    rw [any_range_eq, decide_eq_true (show j - c < n by omega), decide_eq_true hc]
  · have hnever : ∀ i, decide (i + c = j) = false := fun i ↦ decide_eq_false (by omega)
    simp only [hnever, Bool.false_and]
    rw [decide_eq_false hc, Bool.false_and]
    exact List.any_eq_false.mpr fun _ _ ↦ Bool.false_ne_true

/-- What the rounds put into a word. -/
theorem getLsbD_foldl_shiftLeftRound (k s : ℕ) (hs : s < 32) (a : List (BitVec 32)) (n j b : ℕ)
    (hj : j < WIDTH) (hb : b < 32) :
    (((List.range n).foldl (shiftLeftRound WIDTH k s a) (List.replicate WIDTH 0)).getD j 0).getLsbD b =
      ((List.range n).any fun i ↦
        decide (i + k + 1 = j ∧ b < s) && (a.getD i 0).getLsbD (32 - s + b) ||
        decide (i + k = j ∧ s ≤ b) && (a.getD i 0).getLsbD (b - s)) := by
  induction n with
  | zero => simp
  | succ n ih =>
    have hlength := (length_foldl_round (@length_shiftLeftRound WIDTH k s a) (List.range n)
      (List.replicate WIDTH 0)).trans List.length_replicate
    rw [List.range_succ, List.foldl_append, List.foldl_cons, List.foldl_nil,
      getLsbD_shiftLeftRound k s hs a _ hlength n j b hj hb, ih, List.any_append, List.any_cons, List.any_nil,
      Bool.or_false, Bool.or_assoc]

theorem getLsbD_getD (i : ℕ) {b : ℕ} (hb : b < 32) :
    (a.pn.getD i 0).getLsbD b = a.toNat.testBit (32 * i + b) := by
  rw [toNat, testBit_ofLimbs (by norm_num), Nat.mul_add_div (by norm_num), Nat.mul_add_mod,
    Nat.div_eq_of_lt hb, Nat.mod_eq_of_lt hb, Nat.add_zero]

/-- A bit that comes from a lower word. -/
theorem any_range_lower {c j b m n : ℕ} (hj : j < WIDTH) (hb : b < 32)
    (h : m + 32 * c = n + (32 * j + b)) :
    ((List.range WIDTH).any fun i ↦ decide (i + c = j) && (a.pn.getD i 0).getLsbD b) =
      (decide (m ≥ n) && a.toNat.testBit (m - n)) := by
  rw [any_range_add_eq _ _ _ hj, getLsbD_getD _ _ hb]
  by_cases hc : c ≤ j
  · have hindex : m - n = 32 * (j - c) + b := by omega
    rw [decide_eq_true hc, decide_eq_true (show m ≥ n by omega), hindex]
  · rw [decide_eq_false hc, decide_eq_false (show ¬m ≥ n by omega), Bool.false_and, Bool.false_and]

/-- A bit that comes from a higher word. -/
theorem any_range_higher {c j b m : ℕ} (hb : b < 32) (h : m = 32 * (j + c) + b) :
    ((List.range WIDTH).any fun i ↦ decide (i = j + c) && (a.pn.getD i 0).getLsbD b) = a.toNat.testBit m := by
  rw [any_range_eq, getLsbD_getD _ _ hb, h]
  by_cases hc : j + c < WIDTH
  · rw [decide_eq_true hc, Bool.true_and]
  · have hpow : 2 ^ (32 * WIDTH) ≤ 2 ^ (32 * (j + c) + b) := Nat.pow_le_pow_right (by norm_num) (by omega)
    rw [decide_eq_false hc, Bool.false_and, Nat.testBit_lt_two_pow (lt_of_lt_of_le a.toNat_lt hpow)]

theorem toNat_shiftLeft (shift : BitVec 32) :
    (a.shiftLeft shift).toNat = a.toNat * 2 ^ shift.toNat % 2 ^ (32 * WIDTH) := by
  apply ofLimbs_eq_of_testBit (by norm_num)
  · rw [(a.shiftLeft shift).length_pn]
    exact Nat.mod_lt _ (Nat.two_pow_pos _)
  · intro j b hj hb
    rw [(a.shiftLeft shift).length_pn] at hj
    have hs := Nat.mod_lt shift.toNat (show 0 < 32 by norm_num)
    have hshift := Nat.div_add_mod shift.toNat 32
    have hbits := getLsbD_foldl_shiftLeftRound (shift.toNat / 32) (shift.toNat % 32) hs a.pn WIDTH j b hj hb
    rw [shiftLeft, hbits, Nat.testBit_mod_two_pow, Nat.testBit_mul_two_pow,
      decide_eq_true (show 32 * j + b < 32 * WIDTH by omega), Bool.true_and]
    generalize shift.toNat / 32 = k, shift.toNat % 32 = s at *
    rw [← hshift]
    by_cases hbs : b < s
    · -- The bit comes from the word below.
      rw [← any_range_lower a hj (show 32 - s + b < 32 by omega)
        (show 32 * j + b + 32 * (k + 1) = 32 * k + s + (32 * j + (32 - s + b)) by omega)]
      congr 1
      funext i
      rw [decide_eq_false (show ¬(i + k = j ∧ s ≤ b) by omega), Bool.false_and, Bool.or_false]
      congr 1
      exact decide_eq_decide.mpr (by omega)
    · rw [← any_range_lower a hj (show b - s < 32 by omega)
        (show 32 * j + b + 32 * k = 32 * k + s + (32 * j + (b - s)) by omega)]
      congr 1
      funext i
      rw [decide_eq_false (show ¬(i + k + 1 = j ∧ b < s) by omega), Bool.false_and, Bool.false_or]
      congr 1
      exact decide_eq_decide.mpr (by omega)

/-- What one round of `>>=` puts into a word: the high bits of the word that is shifted, and its low bits
into the one before it. -/
theorem getLsbD_shiftRightRound (k s : ℕ) (hs : s < 32) (a pn : List (BitVec 32)) (i j b : ℕ)
    (hj : j < pn.length) (hb : b < 32) :
    ((shiftRightRound k s a pn i).getD j 0).getLsbD b = ((pn.getD j 0).getLsbD b ||
      decide (i = j + (k + 1) ∧ 32 ≤ b + s) && (a.getD i 0).getLsbD (b - (32 - s)) ||
      decide (i = j + k ∧ b + s < 32) && (a.getD i 0).getLsbD (s + b)) := by
  unfold shiftRightRound
  rw [getLsbD_modify_or (by split <;> simpa), getLsbD_modify_or hj, BitVec.getLsbD_ushiftRight,
    BitVec.getLsbD_shiftLeft]
  have hlow : (decide ((k + 1 ≤ i ∧ s ≠ 0) ∧ i - k - 1 = j) && (decide (b < 32) && !decide (b < 32 - s) &&
      (a.getD i 0).getLsbD (b - (32 - s)))) =
        (decide (i = j + (k + 1) ∧ 32 ≤ b + s) && (a.getD i 0).getLsbD (b - (32 - s))) := by
    rw [← Bool.and_assoc]
    congr 1
    rw [Bool.eq_iff_iff]
    simp only [Bool.and_eq_true, decide_eq_true_iff, Bool.not_eq_true', decide_eq_false_iff_not]
    omega
  have hhigh : (decide (k ≤ i ∧ i - k = j) && (a.getD i 0).getLsbD (s + b)) =
      (decide (i = j + k ∧ b + s < 32) && (a.getD i 0).getLsbD (s + b)) := by
    by_cases hbs : b + s < 32
    · congr 1
      exact decide_eq_decide.mpr (by omega)
    · rw [BitVec.getLsbD_of_ge _ _ (by omega), Bool.and_false, Bool.and_false]
  rw [hlow, hhigh]

theorem getLsbD_foldl_shiftRightRound (k s : ℕ) (hs : s < 32) (a : List (BitVec 32)) (n j b : ℕ)
    (hj : j < WIDTH) (hb : b < 32) :
    (((List.range n).foldl (shiftRightRound k s a) (List.replicate WIDTH 0)).getD j 0).getLsbD b =
      ((List.range n).any fun i ↦
        decide (i = j + (k + 1) ∧ 32 ≤ b + s) && (a.getD i 0).getLsbD (b - (32 - s)) ||
        decide (i = j + k ∧ b + s < 32) && (a.getD i 0).getLsbD (s + b)) := by
  induction n with
  | zero => simp
  | succ n ih =>
    have hlength := (length_foldl_round (length_shiftRightRound k s a) (List.range n)
      (List.replicate WIDTH 0)).trans List.length_replicate
    rw [List.range_succ, List.foldl_append, List.foldl_cons, List.foldl_nil,
      getLsbD_shiftRightRound k s hs a _ n j b (by omega) hb, ih, List.any_append, List.any_cons, List.any_nil,
      Bool.or_false, Bool.or_assoc]

theorem toNat_shiftRight (shift : BitVec 32) :
    (a.shiftRight shift).toNat = a.toNat / 2 ^ shift.toNat := by
  apply ofLimbs_eq_of_testBit (by norm_num)
  · rw [(a.shiftRight shift).length_pn]
    exact lt_of_le_of_lt (Nat.div_le_self _ _) a.toNat_lt
  · intro j b hj hb
    rw [(a.shiftRight shift).length_pn] at hj
    have hs := Nat.mod_lt shift.toNat (show 0 < 32 by norm_num)
    have hshift := Nat.div_add_mod shift.toNat 32
    have hbits := getLsbD_foldl_shiftRightRound (shift.toNat / 32) (shift.toNat % 32) hs a.pn WIDTH j b hj hb
    rw [shiftRight, hbits, Nat.testBit_div_two_pow]
    generalize shift.toNat / 32 = k, shift.toNat % 32 = s at *
    rw [← hshift]
    by_cases hbs : b + s < 32
    · rw [← any_range_higher a (show s + b < 32 by omega)
        (show 32 * j + b + (32 * k + s) = 32 * (j + k) + (s + b) by omega)]
      congr 1
      funext i
      rw [decide_eq_false (show ¬(i = j + (k + 1) ∧ 32 ≤ b + s) by omega), Bool.false_and, Bool.false_or]
      congr 1
      exact decide_eq_decide.mpr (by omega)
    · -- The bit comes from the word above.
      rw [← any_range_higher a (show b - (32 - s) < 32 by omega)
        (show 32 * j + b + (32 * k + s) = 32 * (j + (k + 1)) + (b - (32 - s)) by omega)]
      congr 1
      funext i
      rw [decide_eq_false (show ¬(i = j + k ∧ b + s < 32) by omega), Bool.false_and, Bool.or_false]
      congr 1
      exact decide_eq_decide.mpr (by omega)

theorem toNat_assign (n : ℕ) (b : BitVec 64) : (assign (n + 2) b).toNat = b.toNat := by
  have hb := b.isLt
  change ofLimbs (b.setWidth 32 :: (b >>> 32).setWidth 32 :: List.replicate n 0) = b.toNat
  rw [ofLimbs_cons, ofLimbs_cons, ofLimbs_replicate_zero, BitVec.toNat_setWidth, BitVec.toNat_setWidth,
    BitVec.toNat_ushiftRight, Nat.shiftRight_eq_div_pow]
  omega

theorem all_eq_zero_iff :
    (xs.all fun x ↦ decide (x = 0)) = true ↔ xs = List.replicate xs.length 0 := by
  rw [List.all_eq_true, List.eq_replicate_iff]
  simp only [decide_eq_true_iff, true_and]

theorem equalWord_eq (n : ℕ) (a : BaseUint (n + 2)) (b : BitVec 64) :
    a.equalWord b = decide (a.toNat = b.toNat) := by
  obtain ⟨pn, hlength⟩ := a
  match pn, hlength with
  | x :: y :: rest, hlength =>
    have hrest : rest.length = n := by
      rw [List.length_cons, List.length_cons] at hlength
      omega
    rw [Bool.eq_iff_iff, equalWord, Bool.and_eq_true, Bool.and_eq_true, decide_eq_true_iff, decide_eq_true_iff,
      decide_eq_true_iff, ← toNat_assign n b]
    change (x = b.setWidth 32 ∧ y = (b >>> 32).setWidth 32) ∧ (rest.all fun x ↦ decide (x = 0)) = true ↔ _
    rw [all_eq_zero_iff, hrest]
    constructor
    · rintro ⟨⟨rfl, rfl⟩, hzero⟩
      change ofLimbs (b.setWidth 32 :: (b >>> 32).setWidth 32 :: rest) = _
      rw [hzero]
      rfl
    · intro h
      have hwords : x :: y :: rest = b.setWidth 32 :: (b >>> 32).setWidth 32 :: List.replicate n 0 :=
        toNat_injective h
      simp only [List.cons.injEq] at hwords
      exact ⟨⟨hwords.1, hwords.2.1⟩, hwords.2.2⟩

theorem cast_sub_mod {x y m : ℕ} (hy : y ≤ m) : (((x + (m - y)) % m : ℕ) : ℤ) = ((x : ℤ) - y) % m := by
  have hsum : (x : ℤ) + (m - y) = x - y + m := by ring
  rw [Int.natCast_mod, Nat.cast_add, Nat.cast_sub hy, hsum, Int.add_emod_right]

/-- The operators compute with numbers modulo the size. -/
structure IsModular (WIDTH : ℕ) : Prop where
  add (a b : BaseUint WIDTH) : (a.add b).toNat = (a.toNat + b.toNat) % 2 ^ (32 * WIDTH)
  addWord (a : BaseUint WIDTH) (b64 : BitVec 64) :
    (a.addWord b64).toNat = (a.toNat + b64.toNat) % 2 ^ (32 * WIDTH)
  sub (a b : BaseUint WIDTH) :
    ((a.sub b).toNat : ℤ) = ((a.toNat : ℤ) - b.toNat) % (2 ^ (32 * WIDTH) : ℕ)
  subWord (a : BaseUint WIDTH) (b64 : BitVec 64) :
    ((a.subWord b64).toNat : ℤ) = ((a.toNat : ℤ) - b64.toNat) % (2 ^ (32 * WIDTH) : ℕ)
  neg (a : BaseUint WIDTH) : (a.neg.toNat : ℤ) = -(a.toNat : ℤ) % (2 ^ (32 * WIDTH) : ℕ)
  increment (a : BaseUint WIDTH) : a.increment.toNat = (a.toNat + 1) % 2 ^ (32 * WIDTH)
  decrement (a : BaseUint WIDTH) :
    (a.decrement.toNat : ℤ) = ((a.toNat : ℤ) - 1) % (2 ^ (32 * WIDTH) : ℕ)
  less (a b : BaseUint WIDTH) : a.less b = decide (a.toNat < b.toNat)
  lessEqual (a b : BaseUint WIDTH) : a.lessEqual b = decide (a.toNat ≤ b.toNat)
  greater (a b : BaseUint WIDTH) : a.greater b = decide (a.toNat > b.toNat)
  greaterEqual (a b : BaseUint WIDTH) : a.greaterEqual b = decide (a.toNat ≥ b.toNat)
  equal (a b : BaseUint WIDTH) : a.equal b = decide (a.toNat = b.toNat)
  equalWord (a : BaseUint WIDTH) (b : BitVec 64) : a.equalWord b = decide (a.toNat = b.toNat)
  shiftLeft (a : BaseUint WIDTH) (shift : BitVec 32) :
    (a.shiftLeft shift).toNat = a.toNat * 2 ^ shift.toNat % 2 ^ (32 * WIDTH)
  shiftRight (a : BaseUint WIDTH) (shift : BitVec 32) :
    (a.shiftRight shift).toNat = a.toNat / 2 ^ shift.toNat

theorem isModular_of_two_le (n : ℕ) : IsModular (n + 2) where
  add := toNat_add
  addWord a b64 := by rw [addWord, toNat_add, toNat_assign]
  sub a b := by rw [toNat_sub, cast_sub_mod b.toNat_lt.le]
  subWord a b64 := by
    have hlt := (assign (n + 2) b64).toNat_lt
    rw [toNat_assign] at hlt
    rw [subWord, toNat_add, toNat_neg, Nat.add_mod_mod, toNat_assign, cast_sub_mod hlt.le]
  neg a := by
    have hvalue := @cast_sub_mod 0 _ _ a.toNat_lt.le
    rw [Nat.zero_add, Nat.cast_zero, zero_sub] at hvalue
    rw [toNat_neg, hvalue]
  increment := toNat_increment
  decrement a := by rw [toNat_decrement, cast_sub_mod (Nat.two_pow_pos _), Nat.cast_one]
  less := less_eq
  lessEqual := lessEqual_eq
  greater := greater_eq
  greaterEqual := greaterEqual_eq
  equal := equal_eq
  equalWord := equalWord_eq n
  shiftLeft := toNat_shiftLeft
  shiftRight := toNat_shiftRight

/-- `uint160` and `uint256` are integers modulo their sizes. -/
theorem uint160_uint256_isModular : IsModular 5 ∧ IsModular 8 :=
  ⟨isModular_of_two_le 3, isModular_of_two_le 6⟩

end BaseUint

end Electra.Chain
