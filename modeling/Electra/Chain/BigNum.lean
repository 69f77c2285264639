import Electra.Foundations.Codec
import Electra.Script.Interpreter

/-!
# Numbers in OpenSSL's byte format

A number is exchanged with OpenSSL as its size in four bytes and big-endian digits with the sign in the top
bit, which takes one digit more when the leading one uses it.  The conversions of `CBigNum` write and read
this format by hand.
-/

namespace Electra.Chain

open Foundations.Codec

/-- The low bytes of a number, the top one first. -/
def beBytes (w n : ℕ) : List UInt8 := (leBytes w n).reverse

def ofBeBytes (bytes : List UInt8) : ℕ := ofLeBytes bytes.reverse

/-- Big-endian digits with the sign in the top bit. -/
def signedValue (digits : List UInt8) : ℤ :=
  if 0x80 ≤ digits.headD 0 then -((ofBeBytes digits : ℤ) - 2 ^ (8 * digits.length - 1))
  else ofBeBytes digits

def signedDigits (a : ℤ) : List UInt8 :=
  (beBytes (mpiSize a.natAbs) a.natAbs).modifyHead fun d ↦ if a < 0 then d ||| 0x80 else d

/-- `BN_bn2mpi`: the size goes before the digits. -/
def bn2mpi (a : ℤ) : List UInt8 := beBytes 4 (mpiSize a.natAbs) ++ signedDigits a

/-- `BN_mpi2bn`, which fails if the size is not that of the digits. -/
def mpi2bn (d : List UInt8) : Option ℤ :=
  if d.length < 4 ∨ ofBeBytes (d.take 4) ≠ d.length - 4 then none else some (signedValue (d.drop 4))

namespace CBigNum

/-- One round of the loops that write digits: leading zeros are skipped, and the first digit gets the sign,
or a digit with the sign before it. -/
def writeDigit (fNegative : Bool) (s : List UInt8 × Bool) (c : UInt8) : List UInt8 × Bool :=
  let (p, fLeadingZeroes) := s
  if fLeadingZeroes then
    if c = 0 then s
    else if c &&& 0x80 ≠ 0 then (p ++ [if fNegative then 0x80 else 0, c], false)
    else (p ++ [if fNegative then c ||| 0x80 else c], false)
  else (p ++ [c], false)

/-- Put the size of the digits before them. -/
def readDigits (p : List UInt8) : Option ℤ := mpi2bn (beBytes 4 p.length ++ p)

/-- The bytes of a number, which are shifted out at the top. -/
def topBytes : ℕ → BitVec 64 → List UInt8
  | 0, _ => []
  | nLeft + 1, n => ⟨(n >>> 56).setWidth 8⟩ :: topBytes nLeft (n <<< 8)

def setint64 (sn : BitVec 64) : Option ℤ :=
  let fNegative := sn.slt 0
  -- The minimum has no negative of its own type.
  let n := if fNegative then -(sn + 1) + 1 else sn
  readDigits ((topBytes 8 n).foldl (writeDigit fNegative) ([], true)).1

def setuint64 (n : BitVec 64) : Option ℤ :=
  readDigits ((topBytes 8 n).foldl (writeDigit false) ([], true)).1

/-- The bytes of the number lie in memory with the top one last. -/
def setuint256 (n : BitVec 256) : Option ℤ :=
  readDigits ((leBytes 32 n.toNat).reverse.foldl (writeDigit false) ([], true)).1

/-- Copy the digits from the last one on into the low bytes of a number. -/
def copyDigits (vch : List UInt8) : ℕ → ℕ → List UInt8
  | 0, _ => []
  | nLeft + 1, j => if 4 ≤ j then vch.getD j 0 :: copyDigits vch nLeft (j - 1) else []

/-- The low bytes of a number without its sign. -/
def getBytes (w : ℕ) (a : ℤ) : ℕ :=
  let vch := bn2mpi a
  if vch.length < 4 then 0
  else
    let vch := if vch.length > 4 then vch.modify 4 fun d ↦ d &&& 0x7f else vch
    ofLeBytes (copyDigits vch w (vch.length - 1))

def getuint64 (a : ℤ) : BitVec 64 := BitVec.ofNat 64 (getBytes 8 a)

def getuint256 (a : ℤ) : BitVec 256 := BitVec.ofNat 256 (getBytes 32 a)

def getvch (a : ℤ) : List UInt8 :=
  let vch := bn2mpi a
  if vch.length ≤ 4 then [] else (vch.drop 4).reverse

def setvch (vch : List UInt8) : Option ℤ := readDigits vch.reverse

def setCompact (nCompact : ℕ) : Option ℤ :=
  let nSize := nCompact >>> 24
  let vch := (List.replicate (4 + nSize) (0 : UInt8)).set 3 (UInt8.ofNat nSize)
  let vch := if 1 ≤ nSize then vch.set 4 (UInt8.ofNat (nCompact >>> 16)) else vch
  let vch := if 2 ≤ nSize then vch.set 5 (UInt8.ofNat (nCompact >>> 8)) else vch
  let vch := if 3 ≤ nSize then vch.set 6 (UInt8.ofNat nCompact) else vch
  mpi2bn vch

def getCompact (a : ℤ) : ℕ :=
  let vch := bn2mpi a
  let nSize := vch.length - 4
  let nCompact := nSize <<< 24 % 2 ^ 32
  let nCompact := if 1 ≤ nSize then nCompact ||| (vch.getD 4 0).toNat <<< 16 else nCompact
  let nCompact := if 2 ≤ nSize then nCompact ||| (vch.getD 5 0).toNat <<< 8 else nCompact
  if 3 ≤ nSize then nCompact ||| (vch.getD 6 0).toNat else nCompact

end CBigNum

variable {n w : ℕ} {a : ℤ} {d : UInt8} {digits : List UInt8}

@[simp]
theorem length_beBytes (w n : ℕ) : (beBytes w n).length = w := by
  rw [beBytes, List.length_reverse, length_leBytes]

theorem ofBeBytes_cons (d : UInt8) (digits : List UInt8) :
    ofBeBytes (d :: digits) = d.toNat * 256 ^ digits.length + ofBeBytes digits := by
  unfold ofBeBytes
  rw [List.reverse_cons, ofLeBytes_append, List.length_reverse, ofLeBytes, ofLeBytes]
  ring

theorem ofBeBytes_beBytes (h : n < 256 ^ w) : ofBeBytes (beBytes w n) = n := by
  rw [ofBeBytes, beBytes, List.reverse_reverse, ofLeBytes_leBytes h]

theorem beBytes_succ (w n : ℕ) : beBytes (w + 1) n = UInt8.ofNat (n / 256 ^ w) :: beBytes w n := by
  rw [beBytes, leBytes_add, List.reverse_append]
  rfl

theorem beBytes_mul (w n : ℕ) : beBytes (w + 1) (n * 256) = beBytes w n ++ [0] := by
  have hlow : UInt8.ofNat (n * 256) = 0 := by
    apply UInt8.toNat_inj.mp
    rw [UInt8.toNat_ofNat', UInt8.toNat_zero]
    exact Nat.mul_mod_left n 256
  rw [beBytes, leBytes, List.reverse_cons, hlow, Nat.mul_div_cancel _ (by norm_num)]
  rfl

theorem toNat_or_sign (h : d.toNat < 128) : (d ||| 0x80).toNat = d.toNat + 128 := by
  have hor := Nat.two_pow_add_eq_or_of_lt (i := 7) h 1
  rw [UInt8.toNat_or, Nat.or_comm]
  exact hor.symm.trans (Nat.add_comm _ _)

theorem and_sign_eq_zero_iff : d &&& 0x80 = 0 ↔ d.toNat < 128 := by
  obtain ⟨bits⟩ := d
  revert bits
  decide +kernel

theorem and_without_sign (h : d.toNat < 128) : d &&& 0x7f = d ∧ (d ||| 0x80) &&& 0x7f = d := by
  obtain ⟨bits⟩ := d
  revert bits
  decide +kernel

theorem signedValue_cons_of_lt (h : d.toNat < 128) : signedValue (d :: digits) = ofBeBytes (d :: digits) := by
  have hlt : ¬0x80 ≤ d := by
    rw [UInt8.le_iff_toNat_le]
    exact not_le.mpr h
  exact if_neg hlt

theorem signedValue_cons_of_ge (h : 128 ≤ d.toNat) : signedValue (d :: digits) =
    -((d.toNat - 128 : ℕ) * 256 ^ digits.length + ofBeBytes digits : ℤ) := by
  have hge : 0x80 ≤ d := UInt8.le_iff_toNat_le.mpr h
  have hpow : (2 : ℤ) ^ (8 * (digits.length + 1) - 1) = 128 * 256 ^ digits.length := by
    have hexp : 8 * (digits.length + 1) - 1 = 7 + 8 * digits.length := by omega
    rw [hexp, pow_add, pow_mul]
    norm_num
  unfold signedValue
  rw [List.headD_cons, if_pos hge, ofBeBytes_cons, List.length_cons, hpow]
  push_cast [h]
  ring

theorem mpi2bn_digits (h : digits.length < 2 ^ 32) :
    mpi2bn (beBytes 4 digits.length ++ digits) = some (signedValue digits) := by
  have hsize : ofBeBytes (beBytes 4 digits.length) = digits.length := ofBeBytes_beBytes h
  have htake : (beBytes 4 digits.length ++ digits).take 4 = beBytes 4 digits.length :=
    List.take_left' (length_beBytes _ _)
  have hdrop : (beBytes 4 digits.length ++ digits).drop 4 = digits := List.drop_left' (length_beBytes _ _)
  unfold mpi2bn
  rw [htake, hdrop, hsize, List.length_append, length_beBytes, if_neg (by omega)]

namespace CBigNum

theorem readDigits_eq (h : digits.length < 2 ^ 32) : readDigits digits = some (signedValue digits) :=
  mpi2bn_digits h

theorem foldl_writeDigit_started (fNegative : Bool) (p digits : List UInt8) :
    digits.foldl (writeDigit fNegative) (p, false) = (p ++ digits, false) := by
  induction digits generalizing p with
  | nil => rw [List.foldl_nil, List.append_nil]
  | cons c digits ih =>
    rw [List.foldl_cons]
    change digits.foldl (writeDigit fNegative) (p ++ [c], false) = _
    rw [ih, List.append_assoc, List.singleton_append]

/-- What is written has the value of the bytes, with the sign. -/
theorem signedValue_written (fNegative : Bool) (bytes : List UInt8) :
    signedValue (bytes.foldl (writeDigit fNegative) ([], true)).1 =
        (if fNegative then -(ofBeBytes bytes : ℤ) else ofBeBytes bytes) ∧
      (bytes.foldl (writeDigit fNegative) ([], true)).1.length ≤ bytes.length + 1 := by
  induction bytes with
  | nil => cases fNegative <;> exact ⟨rfl, Nat.zero_le _⟩
  | cons c bytes ih =>
    rw [List.foldl_cons]
    by_cases hzero : c = 0
    · -- A leading zero is skipped.
      have hround : writeDigit fNegative ([], true) c = ([], true) := if_pos hzero
      have hvalue : ofBeBytes (c :: bytes) = ofBeBytes bytes := by
        rw [ofBeBytes_cons, hzero, UInt8.toNat_zero, Nat.zero_mul, Nat.zero_add]
      rw [hround, hvalue]
      exact ⟨ih.1, ih.2.trans (Nat.le_succ _)⟩
    · by_cases hsign : c.toNat < 128
      · -- The sign goes into the first digit.
        have hround : writeDigit fNegative ([], true) c = ([if fNegative then c ||| 0x80 else c], false) :=
          (if_neg hzero).trans (if_neg (not_not.mpr (and_sign_eq_zero_iff.mpr hsign)))
        rw [hround, foldl_writeDigit_started]
        refine ⟨?_, Nat.le_succ _⟩
        cases fNegative with
        | false => exact signedValue_cons_of_lt hsign
        | true =>
          have hor := toNat_or_sign hsign
          change signedValue ((c ||| 0x80) :: bytes) = -_
          rw [signedValue_cons_of_ge (by omega), hor, Nat.add_sub_cancel, ofBeBytes_cons]
          push_cast
          rfl
      · -- The sign goes into a digit of its own.
        have hround : writeDigit fNegative ([], true) c = ([if fNegative then 0x80 else 0, c], false) :=
          (if_neg hzero).trans (if_pos fun hand ↦ hsign (and_sign_eq_zero_iff.mp hand))
        rw [hround, foldl_writeDigit_started]
        refine ⟨?_, le_refl _⟩
        cases fNegative with
        | false =>
          change signedValue (0 :: c :: bytes) = _
          rw [signedValue_cons_of_lt (by decide), ofBeBytes_cons, UInt8.toNat_zero, Nat.zero_mul, Nat.zero_add]
          rfl
        | true =>
          change signedValue (0x80 :: c :: bytes) = -_
          rw [signedValue_cons_of_ge (by decide)]
          simp

theorem readDigits_written (fNegative : Bool) (bytes : List UInt8) (h : bytes.length ≤ 32) :
    readDigits (bytes.foldl (writeDigit fNegative) ([], true)).1 =
      some (if fNegative then -(ofBeBytes bytes : ℤ) else ofBeBytes bytes) := by
  obtain ⟨hvalue, hlength⟩ := signedValue_written fNegative bytes
  rw [readDigits_eq (by omega), hvalue]

theorem topBytes_eq (nLeft : ℕ) (h : nLeft ≤ 8) (n : BitVec 64) :
    topBytes nLeft n = (beBytes 8 n.toNat).take nLeft := by
  induction nLeft generalizing n with
  | zero => rfl
  | succ nLeft ih =>
    have hshift : beBytes 8 (n <<< 8).toNat = beBytes 7 n.toNat ++ [0] := by
      have hwidth : (2 : ℕ) ^ 64 = 256 ^ 8 := by norm_num
      rw [BitVec.toNat_shiftLeft, Nat.shiftLeft_eq, ← beBytes_mul, beBytes, hwidth, leBytes_mod]
      rfl
    have htop : (⟨(n >>> 56).setWidth 8⟩ : UInt8) = UInt8.ofNat (n.toNat / 256 ^ 7) := by
      apply UInt8.toNat_inj.mp
      have hwidth : (2 : ℕ) ^ 56 = 256 ^ 7 := by norm_num
      change ((n >>> 56).setWidth 8).toNat = _
      rw [BitVec.toNat_setWidth, BitVec.toNat_ushiftRight, Nat.shiftRight_eq_div_pow, UInt8.toNat_ofNat',
        hwidth]
    rw [topBytes, ih (by omega), hshift, htop, beBytes_succ 7, List.take_succ_cons,
      List.take_append_of_le_length (by rw [length_beBytes]; omega)]

theorem setuint64_toNat (n : BitVec 64) : setuint64 n = some (n.toNat : ℤ) := by
  unfold setuint64
  rw [topBytes_eq 8 (le_refl 8), List.take_of_length_le (by rw [length_beBytes]),
    readDigits_written false _ (by rw [length_beBytes]; norm_num), ofBeBytes_beBytes n.isLt]
  rfl

theorem setuint256_toNat (n : BitVec 256) : setuint256 n = some (n.toNat : ℤ) := by
  unfold setuint256
  change readDigits ((beBytes 32 n.toNat).foldl (writeDigit false) ([], true)).1 = _
  rw [readDigits_written false _ (by rw [length_beBytes]), ofBeBytes_beBytes n.isLt]
  rfl

theorem setint64_toInt (sn : BitVec 64) : setint64 sn = some sn.toInt := by
  unfold setint64
  dsimp only
  rw [topBytes_eq 8 (le_refl 8), List.take_of_length_le (by rw [length_beBytes]),
    readDigits_written _ _ (by rw [length_beBytes]; norm_num), ofBeBytes_beBytes (BitVec.isLt _)]
  have hslt : sn.slt 0 = sn.msb := BitVec.slt_zero_eq_msb
  rw [hslt, BitVec.toInt_eq_msb_cond]
  cases hmsb : sn.msb with
  | false => simp only [Bool.false_eq_true, if_false]
  | true =>
    have hlow := BitVec.msb_eq_true_iff_two_mul_ge.mp hmsb
    have hopposite : -(sn + 1) + 1 = -sn := by grind
    simp only [if_true]
    have hmod : (2 ^ 64 - sn.toNat) % 2 ^ 64 = 2 ^ 64 - sn.toNat := Nat.mod_eq_of_lt (by omega)
    rw [hopposite, BitVec.toNat_neg, hmod, Nat.cast_sub sn.isLt.le, neg_sub]

theorem copyDigits_eq (vch : List UInt8) (w j : ℕ) (h : j < vch.length) :
    copyDigits vch w j = ((vch.take (j + 1)).drop 4).reverse.take w := by
  induction w generalizing j with
  | zero => rfl
  | succ w ih =>
    unfold copyDigits
    split
    · next hj =>
      obtain ⟨k, rfl⟩ : ∃ k, j = k + 1 := ⟨j - 1, by omega⟩
      have hsplit : (vch.take (k + 1 + 1)).drop 4 = (vch.take (k + 1)).drop 4 ++ [vch.getD (k + 1) 0] := by
        rw [List.take_succ_eq_append_getElem h, List.drop_append_of_le_length
          (by rw [List.length_take]; omega), List.getD_eq_getElem?_getD, List.getElem?_eq_getElem h,
          Option.getD_some]
      rw [Nat.add_sub_cancel, ih k (by omega), hsplit, List.reverse_append]
      rfl
    · next hj =>
      have hnone : (vch.take (j + 1)).drop 4 = [] := List.drop_eq_nil_of_le (by rw [List.length_take]; omega)
      rw [hnone]
      rfl

/-- The leading digit leaves room for the sign. -/
theorem beBytes_mpiSize (n : ℕ) : beBytes (mpiSize n) n = [] ∧ n = 0 ∨
    ∃ k d, mpiSize n = k + 1 ∧ d.toNat < 128 ∧ beBytes (mpiSize n) n = d :: beBytes k n := by
  obtain hlt | rfl := lt_two_pow_mpiSize n
  · cases hsize : mpiSize n with
    | zero =>
      rw [hsize] at hlt
      exact .inl ⟨rfl, by omega⟩
    | succ k =>
      refine .inr ⟨k, _, rfl, ?_, beBytes_succ k n⟩
      have hquot : n / 256 ^ k < 128 := by
        rw [Nat.div_lt_iff_lt_mul (by positivity)]
        have hpow : 2 ^ (8 * (k + 1) - 1) = 128 * 256 ^ k := by
          have hexp : 8 * (k + 1) - 1 = 7 + 8 * k := by omega
          rw [hexp, pow_add, pow_mul]
          norm_num
        rwa [hsize, hpow] at hlt
      rw [UInt8.toNat_ofNat']
      exact lt_of_le_of_lt (Nat.mod_le _ _) hquot
  · exact .inl ⟨rfl, rfl⟩

theorem lt_pow_mpiSize (n : ℕ) : n < 256 ^ mpiSize n := by
  have hpow : (256 : ℕ) ^ mpiSize n = 2 ^ (8 * mpiSize n) := by
    rw [pow_mul]
    norm_num
  obtain hlt | rfl := lt_two_pow_mpiSize n
  · rw [hpow]
    exact lt_of_lt_of_le hlt (Nat.pow_le_pow_right (by norm_num) (by omega))
  · exact Nat.one_pos

theorem length_signedDigits (a : ℤ) : (signedDigits a).length = mpiSize a.natAbs := by
  rw [signedDigits, List.length_modifyHead, length_beBytes]

theorem length_bn2mpi (a : ℤ) : (bn2mpi a).length = 4 + mpiSize a.natAbs := by
  rw [bn2mpi, List.length_append, length_beBytes, length_signedDigits]

theorem drop_bn2mpi (a : ℤ) : (bn2mpi a).drop 4 = signedDigits a := List.drop_left' (length_beBytes _ _)

/-- Without the sign the digits are those of the absolute value. -/
theorem modify_signedDigits (a : ℤ) :
    (signedDigits a).modify 0 (fun d ↦ d &&& 0x7f) = beBytes (mpiSize a.natAbs) a.natAbs := by
  unfold signedDigits
  obtain ⟨hnone, -⟩ | ⟨k, d, -, hd, hcons⟩ := beBytes_mpiSize a.natAbs
  · rw [hnone]
    rfl
  · rw [hcons, List.modifyHead_cons, List.modify_zero_cons]
    obtain ⟨hplain, hsigned⟩ := and_without_sign hd
    split
    · rw [hsigned]
    · rw [hplain]

theorem ofLeBytes_take_leBytes (m n w : ℕ) : ofLeBytes ((leBytes m n).take w) = n % 256 ^ min w m := by
  obtain hle | hge := Nat.le_total w m
  · obtain ⟨k, rfl⟩ := Nat.exists_eq_add_of_le hle
    rw [leBytes_add, List.take_left' (length_leBytes w n), ofLeBytes_leBytes_mod, Nat.min_eq_left hle]
  · rw [List.take_of_length_le (by rwa [length_leBytes]), ofLeBytes_leBytes_mod, Nat.min_eq_right hge]

/-- The low bytes of the absolute value are copied. -/
theorem getBytes_eq (w : ℕ) (a : ℤ) : getBytes w a = a.natAbs % 256 ^ w := by
  have hlength := length_bn2mpi a
  have hmodify : (if (bn2mpi a).length > 4 then (bn2mpi a).modify 4 fun d ↦ d &&& 0x7f else bn2mpi a) =
      (bn2mpi a).modify 4 fun d ↦ d &&& 0x7f := by
    split
    · rfl
    · rw [List.modify_eq_self (by omega)]
  have hcopied : ((bn2mpi a).modify 4 fun d ↦ d &&& 0x7f).drop 4 = beBytes (mpiSize a.natAbs) a.natAbs := by
    rw [List.drop_modify_of_ge _ _ _ _ (le_refl 4), drop_bn2mpi]
    exact modify_signedDigits a
  have hall : ((bn2mpi a).modify 4 fun d ↦ d &&& 0x7f).take ((bn2mpi a).length - 1 + 1) =
      (bn2mpi a).modify 4 fun d ↦ d &&& 0x7f := List.take_of_length_le (by rw [List.length_modify]; omega)
  unfold getBytes
  dsimp only
  rw [if_neg (by omega), hmodify, copyDigits_eq _ _ _ (by rw [List.length_modify]; omega), List.length_modify,
    hall, hcopied, beBytes, List.reverse_reverse, ofLeBytes_take_leBytes]
  obtain hle | hge := Nat.le_total w (mpiSize a.natAbs)
  · rw [Nat.min_eq_left hle]
  · have hlt := lt_pow_mpiSize a.natAbs
    rw [Nat.min_eq_right hge, Nat.mod_eq_of_lt hlt,
      Nat.mod_eq_of_lt (lt_of_lt_of_le hlt (Nat.pow_le_pow_right (by norm_num) hge))]

theorem getuint64_toNat (a : ℤ) : (getuint64 a).toNat = a.natAbs % 2 ^ 64 := by
  have hwidth : (2 : ℕ) ^ 64 = 256 ^ 8 := by norm_num
  rw [getuint64, BitVec.toNat_ofNat, getBytes_eq, hwidth, Nat.mod_mod]

theorem getuint256_toNat (a : ℤ) : (getuint256 a).toNat = a.natAbs % 2 ^ 256 := by
  have hwidth : (2 : ℕ) ^ 256 = 256 ^ 32 := by norm_num
  rw [getuint256, BitVec.toNat_ofNat, getBytes_eq, hwidth, Nat.mod_mod]

theorem getint_eq {a : ℤ} (hmin : -2 ^ 31 ≤ a) (hmax : a < 2 ^ 31) : Script.getint a = a := by
  unfold Script.getint Script.INT_MAX
  split <;> [skip; split] <;> omega

/-- Reading the digits of a number gives the number. -/
theorem signedValue_signedDigits (a : ℤ) : signedValue (signedDigits a) = a := by
  have hlt := lt_pow_mpiSize a.natAbs
  unfold signedDigits
  obtain ⟨hnone, hzero⟩ | ⟨k, d, hsize, hd, hcons⟩ := beBytes_mpiSize a.natAbs
  · rw [hnone]
    exact (Int.natAbs_eq_zero.mp hzero).symm
  · have hvalue := ofBeBytes_beBytes hlt
    rw [hcons] at hvalue ⊢
    rw [List.modifyHead_cons]
    split
    · next hneg =>
      have hor := toNat_or_sign hd
      rw [signedValue_cons_of_ge (by omega), hor, Nat.add_sub_cancel]
      rw [ofBeBytes_cons] at hvalue
      have hcast := congrArg (Nat.cast : ℕ → ℤ) hvalue
      push_cast at hcast ⊢
      rw [hcast, abs_of_neg hneg, neg_neg]
    · next hnonneg =>
      rw [signedValue_cons_of_lt hd, hvalue]
      omega

theorem getvch_digits (a : ℤ) : getvch a = (signedDigits a).reverse := by
  unfold getvch
  dsimp only
  rw [drop_bn2mpi, length_bn2mpi]
  split
  · next hshort =>
    have hnone : signedDigits a = [] := List.eq_nil_of_length_eq_zero (by rw [length_signedDigits]; omega)
    rw [hnone]
    rfl
  · rfl

theorem leBytes_eq_map (w n : ℕ) : leBytes w n = (List.range w).map fun i ↦ UInt8.ofNat (n / 256 ^ i) := by
  induction w with
  | zero => rfl
  | succ w ih =>
    rw [leBytes_add, ih, List.range_succ, List.map_append]
    rfl

/-- The bytes that a script pushes for a number. -/
theorem getvch_eq (a : ℤ) : getvch a = Chain.getvch a := by
  rw [getvch_digits]
  unfold signedDigits Chain.getvch
  dsimp only
  obtain ⟨hnone, hzero⟩ | ⟨k, d, hsize, hd, hcons⟩ := beBytes_mpiSize a.natAbs
  · rw [hnone, hzero]
    rfl
  · have hdigit : d = UInt8.ofNat (a.natAbs / 256 ^ k) := by
      rw [hsize, beBytes_succ] at hcons
      exact (List.cons.inj hcons).1.symm
    have hlow : (List.range k).map (fun i ↦ UInt8.ofNat (a.natAbs / 256 ^ i % 256 +
        if a < 0 ∧ i + 1 = k + 1 then 0x80 else 0)) = leBytes k a.natAbs := by
      rw [leBytes_eq_map]
      apply List.map_congr_left
      intro i hi
      have hbelow := List.mem_range.mp hi
      have hnot : ¬(a < 0 ∧ i + 1 = k + 1) := by omega
      apply UInt8.toNat_inj.mp
      rw [if_neg hnot, UInt8.toNat_ofNat', UInt8.toNat_ofNat']
      exact Nat.mod_mod _ _
    have htop : UInt8.ofNat (a.natAbs / 256 ^ k % 256 + if a < 0 ∧ k + 1 = k + 1 then 0x80 else 0) =
        if a < 0 then d ||| 0x80 else d := by
      have hsame : UInt8.ofNat (a.natAbs / 256 ^ k) = d := hdigit.symm
      have hvalue := congrArg UInt8.toNat hsame
      rw [UInt8.toNat_ofNat'] at hvalue
      apply UInt8.toNat_inj.mp
      rw [UInt8.toNat_ofNat']
      by_cases hneg : a < 0
      · rw [if_pos ⟨hneg, rfl⟩, if_pos hneg, toNat_or_sign hd]
        omega
      · rw [if_neg (fun h ↦ hneg h.1), if_neg hneg]
        omega
    rw [hcons, hsize, List.modifyHead_cons, List.reverse_cons, List.range_succ, List.map_append, hlow,
      List.map_singleton, htop, beBytes, List.reverse_reverse]

theorem littleEndian_eq (bytes : List UInt8) : Script.littleEndian bytes = ofLeBytes bytes := by
  induction bytes with
  | nil => rfl
  | cons b bytes ih =>
    rw [ofLeBytes, ← ih]
    rfl

theorem signedValue_reverse (vch : List UInt8) : signedValue vch.reverse = Script.setvch vch := by
  unfold signedValue Script.setvch
  rw [littleEndian_eq, ofBeBytes, List.reverse_reverse, List.length_reverse, List.headD_eq_head?_getD,
    List.head?_reverse, ← List.getLastD_eq_getLast?]

/-- The number that the interpreter reads in bytes. -/
theorem setvch_eq {vch : List UInt8} (h : vch.length < 2 ^ 32) : setvch vch = some (Script.setvch vch) := by
  rw [setvch, readDigits_eq (by rwa [List.length_reverse]), signedValue_reverse]

theorem setvch_getvch (a : ℤ) : Script.setvch (Chain.getvch a) = a := by
  rw [← getvch_eq, getvch_digits, ← signedValue_reverse, List.reverse_reverse, signedValue_signedDigits]

theorem ofBeBytes_replicate (k : ℕ) : ofBeBytes (List.replicate k 0) = 0 := by
  induction k with
  | zero => rfl
  | succ k ih => rw [List.replicate_succ, ofBeBytes_cons, ih, UInt8.toNat_zero, Nat.zero_mul]

/-- The digits that a compact form stands for. -/
def compactDigits (nCompact : ℕ) : List UInt8 :=
  [UInt8.ofNat (nCompact >>> 16), UInt8.ofNat (nCompact >>> 8), UInt8.ofNat nCompact].take (nCompact >>> 24) ++
    List.replicate (nCompact >>> 24 - 3) 0

theorem length_compactDigits (nCompact : ℕ) : (compactDigits nCompact).length = nCompact >>> 24 := by
  rw [compactDigits, List.length_append, List.length_take, List.length_replicate]
  change min (nCompact >>> 24) 3 + _ = _
  omega

theorem setCompact_digits {nCompact : ℕ} (h : nCompact >>> 24 < 256) :
    setCompact nCompact = some (signedValue (compactDigits nCompact)) := by
  have hheader : beBytes 4 (nCompact >>> 24) = [0, 0, 0, UInt8.ofNat (nCompact >>> 24)] := by
    have hzero : ∀ w, 1 ≤ w → nCompact >>> 24 / 256 ^ w = 0 := fun w hw ↦
      Nat.div_eq_of_lt (lt_of_lt_of_le h (Nat.le_self_pow (by omega) 256))
    rw [beBytes_succ, beBytes_succ, beBytes_succ, beBytes_succ, hzero 3 (by omega), hzero 2 (by omega),
      hzero 1 (by omega)]
    rw [pow_zero, Nat.div_one]
    rfl
  have hlength := length_compactDigits nCompact
  rw [← mpi2bn_digits (by omega), hlength, hheader, setCompact, compactDigits, Nat.add_comm 4]
  congr 1
  match nCompact >>> 24 with
  | 0 => rfl
  | 1 => rfl
  | 2 => rfl
  | k + 3 =>
    have hone : 1 ≤ k + 3 := by omega
    have htwo : 2 ≤ k + 3 := by omega
    have hthree : 3 ≤ k + 3 := by omega
    rw [Nat.add_sub_cancel, if_pos hone, if_pos htwo, if_pos hthree, List.take_of_length_le hthree]
    rfl

theorem toNat_ofNat_shift (n k : ℕ) : (UInt8.ofNat (n >>> k)).toNat = n / 2 ^ k % 256 := by
  rw [UInt8.toNat_ofNat', Nat.shiftRight_eq_div_pow]

theorem ofBeBytes_compactDigits (nCompact : ℕ) : ofBeBytes (compactDigits nCompact) =
    if nCompact >>> 24 ≤ 3 then nCompact % 2 ^ 24 / 256 ^ (3 - nCompact >>> 24)
    else nCompact % 2 ^ 24 * 256 ^ (nCompact >>> 24 - 3) := by
  have htop := toNat_ofNat_shift nCompact 16
  have hmiddle := toNat_ofNat_shift nCompact 8
  have hlast : (UInt8.ofNat nCompact).toNat = nCompact % 256 := UInt8.toNat_ofNat' ..
  have hnil : ofBeBytes [] = 0 := rfl
  unfold compactDigits
  match nCompact >>> 24 with
  | 0 =>
    change 0 = nCompact % 2 ^ 24 / 256 ^ 3
    omega
  | 1 =>
    change ofBeBytes [UInt8.ofNat (nCompact >>> 16)] = nCompact % 2 ^ 24 / 256 ^ 2
    rw [ofBeBytes_cons, htop, hnil, List.length_nil]
    omega
  | 2 =>
    change ofBeBytes [UInt8.ofNat (nCompact >>> 16), UInt8.ofNat (nCompact >>> 8)] = nCompact % 2 ^ 24 / 256 ^ 1
    rw [ofBeBytes_cons, ofBeBytes_cons, htop, hmiddle, hnil, List.length_cons, List.length_nil]
    omega
  | k + 3 =>
    have hword : nCompact % 2 ^ 24 = nCompact / 2 ^ 16 % 256 * 256 ^ 2 + nCompact / 2 ^ 8 % 256 * 256 +
        nCompact % 256 := by omega
    have hvalue : (if k + 3 ≤ 3 then nCompact % 2 ^ 24 / 256 ^ (3 - (k + 3))
        else nCompact % 2 ^ 24 * 256 ^ k) = nCompact % 2 ^ 24 * 256 ^ k := by
      split
      · next hle =>
        obtain rfl : k = 0 := by omega
        simp
      · rfl
    have hall : 3 ≤ k + 3 := by omega
    rw [Nat.add_sub_cancel, hvalue, List.take_of_length_le hall]
    change ofBeBytes (UInt8.ofNat (nCompact >>> 16) :: UInt8.ofNat (nCompact >>> 8) ::
      UInt8.ofNat nCompact :: List.replicate k 0) = _
    rw [ofBeBytes_cons, ofBeBytes_cons, ofBeBytes_cons, htop, hmiddle, hlast, ofBeBytes_replicate, hword]
    simp only [List.length_cons, List.length_replicate]
    ring

theorem headD_compactDigits (nCompact : ℕ) :
    0x80 ≤ (compactDigits nCompact).headD 0 ↔ 1 ≤ nCompact >>> 24 ∧ 2 ^ 23 ≤ nCompact % 2 ^ 24 := by
  unfold compactDigits
  match nCompact >>> 24 with
  | 0 =>
    constructor
    · intro h
      change (0x80 : UInt8) ≤ 0 at h
      exact absurd h (by decide)
    · intro h
      omega
  | k + 1 =>
    change (0x80 : UInt8) ≤ UInt8.ofNat (nCompact >>> 16) ↔ _
    rw [UInt8.le_iff_toNat_le, toNat_ofNat_shift]
    change 128 ≤ _ ↔ _
    omega

/-- The code that goes through the byte format decodes a compact form as its arithmetic says. -/
theorem setCompact_eq {nCompact : ℕ} (h : nCompact < 2 ^ 32) :
    setCompact nCompact = some (Chain.setCompact nCompact) := by
  have hnSize : nCompact >>> 24 = nCompact / 2 ^ 24 := Nat.shiftRight_eq_div_pow _ _
  rw [setCompact_digits (by omega), signedValue, ofBeBytes_compactDigits, length_compactDigits, hnSize]
  simp only [headD_compactDigits, hnSize]
  rfl

theorem toNat_getD_beBytes (w n i : ℕ) :
    ((beBytes w n).getD i 0).toNat = if i < w then n / 256 ^ (w - 1 - i) % 256 else 0 := by
  induction w generalizing i with
  | zero => rfl
  | succ w ih =>
    rw [beBytes_succ]
    cases i with
    | zero =>
      rw [List.getD_cons_zero, UInt8.toNat_ofNat', if_pos (Nat.succ_pos w)]
      rfl
    | succ i =>
      have hexp : w + 1 - 1 - (i + 1) = w - 1 - i := by omega
      rw [List.getD_cons_succ, ih, hexp]
      exact if_congr (Nat.succ_lt_succ_iff).symm rfl rfl

/-- The leading three digits, with zeros behind a short number. -/
theorem toNat_getD_leadingDigits (n i : ℕ) (hi : i < 3) :
    ((beBytes (mpiSize n) n).getD i 0).toNat = leadingDigits n / 256 ^ (2 - i) % 256 := by
  rw [toNat_getD_beBytes, leadingDigits]
  by_cases hshort : mpiSize n ≤ 3
  · rw [if_pos hshort]
    split
    · next hlt =>
      have hexp : 2 - i = 3 - mpiSize n + (mpiSize n - 1 - i) := by omega
      rw [hexp, pow_add, ← Nat.div_div_eq_div_mul, Nat.mul_div_cancel _ (by positivity)]
    · next hge =>
      have hexp : 3 - mpiSize n = i - mpiSize n + 1 + (2 - i) := by omega
      rw [hexp, pow_add, ← Nat.mul_assoc, Nat.mul_div_cancel _ (by positivity), pow_succ, ← Nat.mul_assoc,
        Nat.mul_mod_left]
  · have hexp : mpiSize n - 1 - i = mpiSize n - 3 + (2 - i) := by omega
    rw [if_neg hshort, if_pos (by omega), Nat.div_div_eq_div_mul, ← pow_add, ← hexp]

/-- The digits that `GetCompact` reads. -/
theorem toNat_getD_bn2mpi (a : ℤ) (i : ℕ) : ((bn2mpi a).getD (4 + i) 0).toNat =
    ((beBytes (mpiSize a.natAbs) a.natAbs).getD i 0).toNat + if a < 0 ∧ i = 0 then 128 else 0 := by
  have hget : (bn2mpi a).getD (4 + i) 0 = (signedDigits a).getD i 0 := by
    rw [List.getD_eq_getElem?_getD, List.getD_eq_getElem?_getD, ← drop_bn2mpi, List.getElem?_drop]
  rw [hget, signedDigits]
  obtain ⟨hnone, hzero⟩ | ⟨k, d, -, hd, hcons⟩ := beBytes_mpiSize a.natAbs
  · have hnonneg : ¬(a < 0 ∧ i = 0) := by omega
    rw [hnone, if_neg hnonneg]
    rfl
  · rw [hcons, List.modifyHead_cons]
    cases i with
    | zero =>
      rw [List.getD_cons_zero, List.getD_cons_zero]
      split
      · next hneg => rw [toNat_or_sign hd, if_pos ⟨hneg, rfl⟩]
      · next hneg => rw [if_neg (fun h ↦ hneg h.1), Nat.add_zero]
    | succ i =>
      have hlater : ¬(a < 0 ∧ i + 1 = 0) := by omega
      rw [if_neg hlater]
      rfl

theorem or_eq_add {m n k : ℕ} (hm : 2 ^ k ∣ m) (hn : n < 2 ^ k) : m ||| n = m + n := by
  obtain ⟨q, rfl⟩ := hm
  exact (Nat.two_pow_add_eq_or_of_lt hn q).symm

/-- The code that goes through the byte format gives the compact form as its arithmetic does. -/
theorem getCompact_eq (a : ℤ) : getCompact a = Chain.getCompact a := by
  have hsize : (bn2mpi a).length - 4 = mpiSize a.natAbs := by
    rw [length_bn2mpi, Nat.add_sub_cancel_left]
  have hshort : ∀ i k x, (if i + 1 ≤ mpiSize a.natAbs then
      x ||| ((bn2mpi a).getD (4 + i) 0).toNat <<< k else x) =
        x ||| ((bn2mpi a).getD (4 + i) 0).toNat <<< k := by
    intro i k x
    split
    · rfl
    · next hbeyond =>
      have hnone : (bn2mpi a)[4 + i]? = none := List.getElem?_eq_none (by rw [length_bn2mpi]; omega)
      rw [List.getD_eq_getElem?_getD, hnone, Option.getD_none, UInt8.toNat_zero, Nat.zero_shiftLeft,
        Nat.or_zero]
  have hlt := leadingDigits_lt a.natAbs
  have h0 := toNat_getD_bn2mpi a 0
  have h1 := toNat_getD_bn2mpi a 1
  have h2 := toNat_getD_bn2mpi a 2
  rw [toNat_getD_leadingDigits _ _ (by omega)] at h0 h1 h2
  have hshort2 := hshort 2 0
  simp only [Nat.shiftLeft_zero] at hshort2
  unfold getCompact
  dsimp only
  rw [hsize, hshort 0 16, hshort 1 8, hshort2]
  generalize ((bn2mpi a).getD (4 + 0) 0).toNat = d0, ((bn2mpi a).getD (4 + 1) 0).toNat = d1,
    ((bn2mpi a).getD (4 + 2) 0).toNat = d2 at h0 h1 h2 ⊢
  have htop : mpiSize a.natAbs <<< 24 % 2 ^ 32 = mpiSize a.natAbs % 256 * 2 ^ 24 := by
    rw [Nat.shiftLeft_eq]
    exact Nat.mul_mod_mul_right (2 ^ 24) _ 256
  have hlater : ∀ i, i ≠ 0 → (if a < 0 ∧ i = 0 then 128 else 0) = 0 := fun i hi ↦
    if_neg fun h ↦ hi h.2
  rw [hlater 1 (by omega)] at h1
  rw [hlater 2 (by omega)] at h2
  have hd0 : d0 = leadingDigits a.natAbs / 2 ^ 16 + if a < 0 then 128 else 0 := by
    rw [h0]
    simp only [and_true]
    omega
  have hd0lt : d0 < 256 := by
    rw [hd0]
    split <;> omega
  rw [htop, Nat.shiftLeft_eq, Nat.shiftLeft_eq,
    @or_eq_add _ (d0 * 2 ^ 16) 24 (Dvd.intro_left _ rfl) (by omega),
    @or_eq_add _ (d1 * 2 ^ 8) 16 (by omega) (by omega), @or_eq_add _ d2 8 (by omega) (by omega)]
  unfold Chain.getCompact
  rw [hd0]
  split <;> omega

theorem getCompact_lt (a : ℤ) : getCompact a < 2 ^ 32 := by
  have hlt := leadingDigits_lt a.natAbs
  rw [getCompact_eq, Chain.getCompact]
  split <;> omega

theorem beBytes_add (m k n : ℕ) : beBytes (m + k) n = beBytes k (n / 256 ^ m) ++ beBytes m n := by
  rw [beBytes, leBytes_add, List.reverse_append]
  rfl

theorem beBytes_zero (w : ℕ) : beBytes w 0 = List.replicate w 0 := by
  induction w with
  | zero => rfl
  | succ w ih =>
    rw [beBytes_succ, ih, Nat.zero_div]
    rfl

theorem bn2mpi_natCast (n : ℕ) : bn2mpi n = beBytes 4 (mpiSize n) ++ beBytes (mpiSize n) n := by
  have hnonneg : ¬(n : ℤ) < 0 := by omega
  unfold bn2mpi signedDigits
  simp only [Int.natAbs_natCast, if_neg hnonneg]
  exact congrArg _ (congrFun List.modifyHead_id _)

/-- Rounding keeps the size and the leading three digits, and clears the others. -/
theorem bn2mpi_roundDown (n : ℕ) : bn2mpi (roundDown n) =
    (bn2mpi n).take 7 ++ List.replicate ((bn2mpi n).length - 7) 0 := by
  have hlength := length_bn2mpi n
  rw [Int.natAbs_natCast] at hlength
  obtain hsmall | hbig := Nat.le_total (mpiSize n) 3
  · have hnone : (bn2mpi n).length - 7 = 0 := by omega
    rw [roundDown_of_short hsmall, List.take_of_length_le (by omega), hnone, List.replicate_zero,
      List.append_nil]
  · obtain ⟨j, hj⟩ := Nat.exists_eq_add_of_le' hbig
    have hrest : (bn2mpi n).length - 7 = j := by omega
    have hzeros : beBytes j (n / 256 ^ j * 256 ^ j) = List.replicate j 0 := by
      rw [beBytes, ← leBytes_mod, Nat.mul_mod_left, ← beBytes_zero]
      rfl
    have htake : (beBytes 4 (mpiSize n) ++ (beBytes 3 (n / 256 ^ j) ++ beBytes j n)).take 7 =
        beBytes 4 (mpiSize n) ++ beBytes 3 (n / 256 ^ j) := by
      rw [← List.append_assoc]
      exact List.take_left' (by rw [List.length_append, length_beBytes, length_beBytes])
    rw [hrest, bn2mpi_natCast, bn2mpi_natCast, mpiSize_roundDown]
    unfold roundDown
    rw [hj, Nat.add_sub_cancel, Nat.add_comm j 3, Nat.add_comm 3 j, beBytes_add j 3 n, beBytes_add,
      Nat.mul_div_cancel _ (by positivity), hzeros, ← hj, htake, List.append_assoc]

theorem roundDown_pos {n : ℕ} (h : 0 < n) : 0 < roundDown n := by
  by_contra hzero
  have hsize := mpiSize_roundDown n
  rw [Nat.eq_zero_of_not_pos hzero] at hsize
  have hn : mpiSize n = (Nat.log2 n + 1) / 8 + 1 := if_neg (by omega)
  rw [hn] at hsize
  exact absurd hsize (by simp [mpiSize])

theorem leadingDigits_roundDown (n : ℕ) : leadingDigits (roundDown n) = leadingDigits n := by
  unfold leadingDigits
  rw [mpiSize_roundDown]
  split
  · next hsmall => rw [roundDown_of_short hsmall]
  · exact Nat.mul_div_cancel _ (by positivity)

theorem getCompact_roundDown (n : ℕ) : getCompact (roundDown n) = getCompact n := by
  have hnonneg : ∀ m : ℕ, ¬(m : ℤ) < 0 := fun m ↦ by omega
  rw [getCompact_eq, getCompact_eq, Chain.getCompact, Chain.getCompact, if_neg (hnonneg _), if_neg (hnonneg _),
    Int.natAbs_natCast, Int.natAbs_natCast, mpiSize_roundDown, leadingDigits_roundDown]

theorem setCompact_getCompact_roundDown {n : ℕ} (h : (bn2mpi n).length < 4 + 256) :
    setCompact (getCompact n) = some (roundDown n : ℤ) := by
  rw [length_bn2mpi, Int.natAbs_natCast] at h
  rw [setCompact_eq (getCompact_lt n), getCompact_eq, setCompact_getCompact (by omega)]

/-- The number that the compact form of a non-negative number stands for. -/
structure RoundsDown (x : ℕ) (y : ℤ) : Prop where
  le : y ≤ x
  pos : 0 < x → 0 < y
  bytes : bn2mpi y = (bn2mpi x).take 7 ++ List.replicate ((bn2mpi x).length - 7) 0
  compact : getCompact y = getCompact x

/-- Going through the compact form rounds a number of fewer than 256 bytes down, monotonically. -/
theorem compact_roundsDown (x : ℕ) (hx : (bn2mpi x).length < 4 + 256) :
    ∃ y, setCompact (getCompact x) = some y ∧ RoundsDown x y ∧
      ∀ x' : ℕ, x ≤ x' → (bn2mpi x').length < 4 + 256 →
        ∃ y', setCompact (getCompact x') = some y' ∧ y ≤ y' := by
  refine ⟨roundDown x, setCompact_getCompact_roundDown hx, ?_, fun x' hle hx' ↦ ?_⟩
  · refine ⟨by exact_mod_cast roundDown_le x, fun hpos ↦ by exact_mod_cast roundDown_pos hpos,
      bn2mpi_roundDown x, getCompact_roundDown x⟩
  · exact ⟨roundDown x', setCompact_getCompact_roundDown hx', by exact_mod_cast roundDown_mono hle⟩

theorem compact_roundsDown_four : ∃ y, setCompact (getCompact (0x12345678 : ℕ)) = some y ∧
    RoundsDown 0x12345678 y ∧ ∀ x' : ℕ, 0x12345678 ≤ x' → (bn2mpi x').length < 4 + 256 →
      ∃ y', setCompact (getCompact x') = some y' ∧ y ≤ y' :=
  compact_roundsDown 0x12345678 (by decide)

theorem conversions_exact :
    (∀ sn : BitVec 64, setint64 sn = some sn.toInt) ∧
    (∀ n : BitVec 64, setuint64 n = some (n.toNat : ℤ)) ∧
    (∀ n : BitVec 256, setuint256 n = some (n.toNat : ℤ)) ∧
    (∀ a : ℤ, 0 ≤ a → a < 2 ^ 64 → ((getuint64 a).toNat : ℤ) = a) ∧
    (∀ a : ℤ, 0 ≤ a → a < 2 ^ 256 → ((getuint256 a).toNat : ℤ) = a) ∧
    (∀ a : ℤ, -2 ^ 31 ≤ a → a < 2 ^ 31 → Script.getint a = a) ∧
    (∀ a : ℤ, (getuint64 a).toNat = a.natAbs % 2 ^ 64) ∧
    ∀ a : ℤ, (getuint256 a).toNat = a.natAbs % 2 ^ 256 := by
  refine ⟨setint64_toInt, setuint64_toNat, setuint256_toNat, fun a hnonneg hlt ↦ ?_,
    fun a hnonneg hlt ↦ ?_, fun a hmin hmax ↦ getint_eq hmin hmax, getuint64_toNat, getuint256_toNat⟩
  · rw [getuint64_toNat]
    omega
  · rw [getuint256_toNat]
    omega

theorem conversions_exact_five :
    ((getuint64 5).toNat : ℤ) = 5 ∧ ((getuint256 5).toNat : ℤ) = 5 ∧
      Script.getint (-2 ^ 31) = -2 ^ 31 := by
  obtain ⟨-, -, -, h64, h256, hint, -⟩ := conversions_exact
  exact ⟨h64 5 (by decide) (by decide), h256 5 (by decide) (by decide), hint _ (by decide) (by decide)⟩

/-- A negative number is not reduced but loses its sign. -/
theorem not_getuint64_reduced : ¬∀ a : ℤ, getuint64 a = BitVec.ofInt 64 a := by
  intro h
  have hnat := getuint64_toNat (-1)
  rw [h (-1)] at hnat
  exact absurd hnat (by decide)

end CBigNum

end Electra.Chain
