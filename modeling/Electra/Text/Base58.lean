import Electra.Foundations.Codec
import Electra.Ledger.HeightPrefix
import Electra.Script.Interpreter
import Electra.Text.Money
import Mathlib.Data.List.DropRight

/-!
# Base58

Bytes are written as a number with 58 as its base, the highest digit first.  Leading zero bytes become
leading ones, which stand for the digit zero, and the way back takes them for zero bytes again.
-/

namespace Electra.Text

open Chain Foundations Foundations.Rebase Ledger Script

def pszBase58 : List Char :=
  [ '1', '2', '3', '4', '5', '6', '7', '8', '9', 'A', 'B', 'C', 'D', 'E', 'F', 'G', 'H', 'J', 'K', 'L',
    'M', 'N', 'P', 'Q', 'R', 'S', 'T', 'U', 'V', 'W', 'X', 'Y', 'Z', 'a', 'b', 'c', 'd', 'e', 'f', 'g',
    'h', 'i', 'j', 'k', 'm', 'n', 'o', 'p', 'q', 'r', 's', 't', 'u', 'v', 'w', 'x', 'y', 'z']

def base58Symbol (c : ℕ) : Char := pszBase58.getD c '\x00'

/-- The division loop of `EncodeBase58`, which puts out the lowest digit first. -/
def divideLoop (bn : ℤ) : List Char :=
  if bn > 0 then base58Symbol (bn % 58).toNat :: divideLoop (bn / 58) else []
termination_by bn.toNat
decreasing_by omega

/-- The extra zero at the end makes the number positive. -/
def encodeBase58 (vch : List UInt8) : List Char :=
  let vchTmp := vch.reverse ++ [0]
  let str := divideLoop (setvch vchTmp)
  (str ++ (vch.takeWhile (· = 0)).map fun _ ↦ base58Symbol 0).reverse

/-- The multiplication loop of `DecodeBase58`: only blanks may follow the digits. -/
def multiplyLoop : ℤ → List Char → Option ℤ
  | bn, [] => some bn
  | bn, c :: p =>
      match pszBase58.idxOf? c with
      | none => if (c :: p).dropWhile isSpace = [] then some bn else none
      | some p1 => multiplyLoop (bn * 58 + p1) p

/-- The sign byte is trimmed off if it is there. -/
def trimSign (vchTmp : List UInt8) : List UInt8 :=
  if 2 ≤ vchTmp.length ∧ vchTmp.getLastD 0 = 0 ∧ 0x80 ≤ vchTmp.getD (vchTmp.length - 2) 0 then
    vchTmp.dropLast
  else vchTmp

/-- A string is read up to its first NUL character. -/
def decodeBase58 (str : List Char) : Option (List UInt8) := do
  let psz := (str.takeWhile fun c ↦ c ≠ '\x00').dropWhile isSpace
  let bn ← multiplyLoop 0 psz
  return (psz.takeWhile (· = base58Symbol 0)).map (fun _ ↦ 0) ++ (trimSign (getvch bn)).reverse

/-- The first four bytes of a hash. -/
def checksum (hash : List UInt8 → Uint256) (vch : List UInt8) : List UInt8 :=
  Codec.leBytes 4 (hash vch).toNat

def encodeBase58Check (hash : List UInt8 → Uint256) (vchIn : List UInt8) : List Char :=
  encodeBase58 (vchIn ++ checksum hash vchIn)

def decodeBase58Check (hash : List UInt8 → Uint256) (psz : List Char) : Option (List UInt8) := do
  let vchRet ← decodeBase58 psz
  if vchRet.length < 4 then none
  else
    let vch := vchRet.take (vchRet.length - 4)
    if checksum hash vch ≠ vchRet.drop (vchRet.length - 4) then none else some vch

variable {v : List UInt8} {n w : ℕ} {p s body : List Char} {hash : List UInt8 → Uint256}

theorem littleEndian_eq (bytes : List UInt8) :
    littleEndian bytes = Nat.ofDigits 256 (bytes.map UInt8.toNat) := by
  induction bytes with
  | nil => rfl
  | cons byte bytes ih =>
    calc
      littleEndian (byte :: bytes) = byte.toNat + 256 * littleEndian bytes := rfl
      _ = Nat.ofDigits 256 ((byte :: bytes).map UInt8.toNat) := by
        rw [ih, List.map_cons, Nat.ofDigits_cons]

/-- What `setvch` makes of the bytes with the extra zero. -/
theorem setvch_reverse (vch : List UInt8) :
    setvch (vch.reverse ++ [0]) = number 256 (vch.map UInt8.toNat) := by
  have hlast : (vch.reverse ++ [0]).getLastD 0 = 0 := List.getLastD_concat
  have hzero : (UInt8.toNat 0) = 0 := rfl
  rw [setvch, hlast, if_neg (by decide), littleEndian_eq, List.map_append, List.map_singleton, hzero,
    Nat.ofDigits_append_zero, number, List.map_reverse]

theorem ofDigits_range (hn : n < 256 ^ w) :
    Nat.ofDigits 256 ((List.range w).map fun i ↦ n / 256 ^ i % 256) = n := by
  induction w generalizing n with
  | zero => exact (Nat.lt_one_iff.mp hn).symm
  | succ w ih =>
    have hdiv : n / 256 < 256 ^ w := Nat.div_lt_of_lt_mul (by rwa [pow_succ'] at hn)
    have htail : ∀ i, n / 256 ^ (i + 1) % 256 = n / 256 / 256 ^ i % 256 := by
      intro i
      rw [pow_succ', Nat.div_div_eq_div_mul]
    rw [List.range_succ_eq_map, List.map_cons, List.map_map, Nat.ofDigits_cons]
    calc
      n / 256 ^ 0 % 256 + 256 * Nat.ofDigits 256
          ((List.range w).map ((fun i ↦ n / 256 ^ i % 256) ∘ Nat.succ)) =
          n % 256 + 256 * (n / 256) := by
        have hshift : (fun i ↦ n / 256 ^ i % 256) ∘ Nat.succ = fun i ↦ n / 256 / 256 ^ i % 256 := by
          funext i
          exact htail i
        rw [pow_zero, Nat.div_one, hshift, ih hdiv]
      _ = n := Nat.mod_add_div n 256

theorem getvch_toNat (n : ℕ) :
    (getvch n).map UInt8.toNat = (List.range (mpiSize n)).map fun i ↦ n / 256 ^ i % 256 := by
  rw [getvch_natCast, List.map_map]
  apply List.map_congr_left
  intro i _
  change (UInt8.ofNat _).toNat = _
  rw [UInt8.toNat_ofNat', Nat.mod_mod]

theorem getD_getvch (hw : w < mpiSize n) : ((getvch n).getD w 0).toNat = n / 256 ^ w % 256 := by
  have hdigit := congrArg (·[w]?) (getvch_toNat n)
  simp only [List.getElem?_map, List.getElem?_range hw, Option.map_some] at hdigit
  rw [List.getD_eq_getElem?_getD]
  cases hbyte : (getvch n)[w]? with
  | none =>
    rw [hbyte] at hdigit
    cases hdigit
  | some byte =>
    rw [hbyte] at hdigit
    exact Option.some.inj hdigit

/-- A zero at the end is there for the top bit of the byte before it. -/
theorem top_bit_of_last_eq_zero (hsize : 2 ≤ mpiSize n) (hlast : n / 256 ^ (mpiSize n - 1) % 256 = 0) :
    0x80 ≤ n / 256 ^ (mpiSize n - 2) % 256 := by
  have hn : n ≠ 0 := by
    rintro rfl
    exact absurd hsize (by decide)
  have hlow := two_pow_le_of_mpiSize hn hsize
  have hhigh := lt_pow_mpiSize n
  obtain ⟨k, hk⟩ := Nat.exists_eq_add_of_le' hsize
  rw [hk] at hlow hhigh hlast ⊢
  have hpow : 256 ^ k * 0x80 = 2 ^ (8 * (k + 2) - 9) := by
    have hexp : 8 * (k + 2) - 9 = 8 * k + 7 := by omega
    rw [hexp, pow_add, pow_mul]
    norm_num
  have hsmall : n / 256 ^ (k + 1) = 0 := by
    have hlt : n / 256 ^ (k + 1) < 256 := Nat.div_lt_of_lt_mul (by rwa [← pow_succ])
    change n / 256 ^ (k + 1) % 256 = 0 at hlast
    rwa [Nat.mod_eq_of_lt hlt] at hlast
  have hbyte : n / 256 ^ k < 256 := by
    rw [pow_succ, ← Nat.div_div_eq_div_mul] at hsmall
    omega
  have hbit : 0x80 ≤ n / 256 ^ k := by
    rw [Nat.le_div_iff_mul_le (Nat.pow_pos (by decide)), Nat.mul_comm, hpow]
    exact hlow
  change 0x80 ≤ n / 256 ^ k % 256
  rwa [Nat.mod_eq_of_lt hbyte]

/-- Trimming keeps the number, and leaves no zero at the end. -/
theorem trimSign_spec (n : ℕ) : ∃ front, trimSign (getvch n) = front ∧
    Nat.ofDigits 256 (front.map UInt8.toNat) = n ∧ ∀ h : front ≠ [], front.getLast h ≠ 0 := by
  have hvalue : Nat.ofDigits 256 ((getvch n).map UInt8.toNat) = n := by
    rw [getvch_toNat, ofDigits_range (lt_pow_mpiSize n)]
  have hlength := length_getvch n
  have hbyte := @getD_getvch n
  unfold trimSign
  obtain hnil | ⟨front, last, hbytes⟩ := List.eq_nil_or_concat (getvch n)
  · rw [hnil] at hvalue ⊢
    exact ⟨[], rfl, hvalue, fun h ↦ absurd rfl h⟩
  rw [List.concat_eq_append] at hbytes
  rw [hbytes] at hvalue hlength hbyte ⊢
  rw [List.length_append, List.length_singleton] at hlength
  have hcount : (front ++ [last]).length - 2 = front.length - 1 := by simp
  rw [List.getLastD_concat, List.dropLast_concat, hcount]
  split
  · next h =>
    obtain ⟨htwo, rfl, htop⟩ := h
    refine ⟨front, rfl, ?_, ?_⟩
    · rw [List.map_append, List.map_singleton] at hvalue
      rwa [← Nat.ofDigits_append_zero]
    · intro hne hzero
      have hpos := List.length_pos_iff.mpr hne
      rw [List.getD_append _ _ _ _ (by omega), List.getD_eq_getElem _ _ (by omega),
        ← List.getLast_eq_getElem hne, hzero] at htop
      exact absurd htop (by decide)
  · next h =>
    refine ⟨_, rfl, hvalue, ?_⟩
    intro hne hzero
    rw [List.getLast_concat] at hzero
    subst hzero
    have hlast : n / 256 ^ (mpiSize n - 1) % 256 = 0 := by
      rw [← hbyte (by omega), ← hlength, Nat.add_sub_cancel, List.getD_append_right _ _ _ _ le_rfl,
        Nat.sub_self]
      rfl
    by_cases htwo : 2 ≤ mpiSize n
    · have htop := top_bit_of_last_eq_zero htwo hlast
      rw [← hbyte (by omega)] at htop
      apply h
      refine ⟨?_, rfl, ?_⟩
      · rw [List.length_append, List.length_singleton, hlength]
        exact htwo
      · have hindex : mpiSize n - 2 = front.length - 1 := by omega
        rw [hindex] at htop
        exact UInt8.le_iff_toNat_le.mpr htop
    · have hone : mpiSize n = 1 := by omega
      have hsmall := lt_pow_mpiSize n
      rw [hone, pow_one] at hsmall
      rw [hone, Nat.sub_self, pow_zero, Nat.div_one, Nat.mod_eq_of_lt hsmall] at hlast
      subst hlast
      cases hone

/-- The bytes of a number without the sign byte are its digits. -/
theorem trimSign_getvch (n : ℕ) : (trimSign (getvch n)).map UInt8.toNat = Nat.digits 256 n := by
  obtain ⟨front, hfront, hvalue, hlast⟩ := trimSign_spec n
  have hdigits : Nat.digits 256 (Nat.ofDigits 256 (front.map UInt8.toNat)) = front.map UInt8.toNat := by
    apply Nat.digits_ofDigits 256 (by decide)
    · intro x hx
      obtain ⟨byte, -, rfl⟩ := List.mem_map.mp hx
      exact byte.toNat_lt
    · intro hne hzero
      rw [List.getLast_map] at hzero
      exact hlast (mt List.map_eq_nil_iff.mpr hne) (UInt8.toNat_inj.mp hzero)
  rw [hfront, ← hdigits, hvalue]

variable {ds : List ℕ} {after str : List Char} {c : Char} {bn r : ℤ}

theorem idxOf?_base58Symbol : ∀ i < 58, pszBase58.idxOf? (base58Symbol i) = some i := by decide

theorem base58Symbol_of_idxOf? {i : ℕ} (h : pszBase58.idxOf? c = some i) :
    i < 58 ∧ base58Symbol i = c := by
  obtain ⟨hi, hc, -⟩ := List.idxOf?_eq_some_iff.mp h
  refine ⟨hi, ?_⟩
  rw [base58Symbol, List.getD_eq_getElem _ _ hi, hc]

theorem base58Symbol_ne_nul : ∀ i < 58, base58Symbol i ≠ '\x00' := by decide

theorem isSpace_base58Symbol : ∀ i < 58, isSpace (base58Symbol i) = false := by decide

theorem base58Symbol_eq_zero : ∀ i < 58, base58Symbol i = base58Symbol 0 → i = 0 := by decide

theorem divideLoop_natCast (n : ℕ) : divideLoop n = (Nat.digits 58 n).map base58Symbol := by
  induction n using Nat.strongRecOn with
  | ind n ih =>
    rw [divideLoop]
    obtain rfl | hpos := Nat.eq_zero_or_pos n
    · rfl
    · have hdiv : (n : ℤ) / 58 = ((n / 58 : ℕ) : ℤ) := rfl
      have hmod : ((n : ℤ) % 58).toNat = n % 58 := rfl
      rw [if_pos (by omega), hdiv, hmod, ih (n / 58) (Nat.div_lt_self hpos (by decide)),
        Nat.digits_def' (by decide) hpos, List.map_cons]

/-- Encoding changes the base. -/
theorem encodeBase58_eq (v : List UInt8) :
    encodeBase58 v = (rebase 256 58 (v.map UInt8.toNat)).map base58Symbol := by
  have hzeros : (v.map UInt8.toNat).takeWhile (· = 0) = (v.takeWhile (· = 0)).map UInt8.toNat := by
    rw [List.takeWhile_map]
    congr 2
    funext byte
    exact decide_eq_decide.mpr (UInt8.toNat_inj (b := 0))
  rw [encodeBase58, setvch_reverse, divideLoop_natCast, List.reverse_append, rebase, padded,
    List.map_append, List.map_const', List.reverse_replicate, List.map_reverse, List.map_replicate,
    leadingZeros, hzeros, List.length_map]

theorem number_eq_foldl (ds : List ℕ) : number 58 ds = ds.foldl (fun n d ↦ n * 58 + d) 0 := by
  induction ds using List.reverseRecOn with
  | nil => rfl
  | append_singleton ds d ih =>
    rw [number, List.reverse_append, List.reverse_singleton, List.singleton_append, Nat.ofDigits_cons,
      List.foldl_append, List.foldl_cons, List.foldl_nil, ← ih, number, Nat.mul_comm, Nat.add_comm]

theorem multiplyLoop_append {n : ℕ} (hds : ∀ d ∈ ds, d < 58) (hafter : ∀ c ∈ after, isSpace c = true) :
    multiplyLoop n (ds.map base58Symbol ++ after) =
      some ((ds.foldl (fun n d ↦ n * 58 + d) n : ℕ) : ℤ) := by
  induction ds generalizing n with
  | nil =>
    cases after with
    | nil => rfl
    | cons c after =>
      have hnone : pszBase58.idxOf? c = none := by
        cases hidx : pszBase58.idxOf? c with
        | none => rfl
        | some i =>
          obtain ⟨hi, rfl⟩ := base58Symbol_of_idxOf? hidx
          have hspace := hafter _ List.mem_cons_self
          rw [isSpace_base58Symbol i hi] at hspace
          cases hspace
      have hblank : (c :: after).dropWhile isSpace = [] := List.dropWhile_eq_nil_iff.mpr hafter
      rw [List.map_nil, List.nil_append, multiplyLoop, hnone]
      exact if_pos hblank
  | cons d ds ih =>
    rw [List.forall_mem_cons] at hds
    rw [List.map_cons, List.cons_append, multiplyLoop, idxOf?_base58Symbol d hds.1]
    exact @ih (n * 58 + d) hds.2

theorem multiplyLoop_eq_some {n : ℕ} (h : multiplyLoop n p = some r) :
    ∃ ds : List ℕ, ∃ after, p = ds.map base58Symbol ++ after ∧ (∀ d ∈ ds, d < 58) ∧
      ∀ c ∈ after, isSpace c = true := by
  induction p generalizing n with
  | nil => exact ⟨[], [], rfl, by simp, by simp⟩
  | cons c p ih =>
    rw [multiplyLoop] at h
    split at h
    · split at h
      · next hblank => exact ⟨[], c :: p, rfl, by simp, List.dropWhile_eq_nil_iff.mp hblank⟩
      · cases h
    · next i hidx =>
      obtain ⟨hi, rfl⟩ := base58Symbol_of_idxOf? hidx
      have hturn : multiplyLoop ((n * 58 + i : ℕ) : ℤ) p = some r := h
      obtain ⟨ds, after, rfl, hds, hafter⟩ := ih hturn
      exact ⟨i :: ds, after, rfl, List.forall_mem_cons.mpr ⟨hi, hds⟩, hafter⟩

/-- What is left of a string at its first NUL and the blanks before the digits. -/
def digitsAndAfter (str : List Char) : List Char :=
  (str.takeWhile fun c ↦ c ≠ '\x00').dropWhile isSpace

theorem takeWhile_ones (hds : ∀ d ∈ ds, d < 58) (hafter : ∀ c ∈ after, isSpace c = true) :
    (ds.map base58Symbol ++ after).takeWhile (· = base58Symbol 0) =
      List.replicate (leadingZeros ds) (base58Symbol 0) := by
  induction ds with
  | nil =>
    cases after with
    | nil => rfl
    | cons c after =>
      apply List.takeWhile_cons_of_neg
      intro hone
      have hspace := hafter c List.mem_cons_self
      rw [of_decide_eq_true hone, isSpace_base58Symbol 0 (by decide)] at hspace
      cases hspace
  | cons d ds ih =>
    rw [List.forall_mem_cons] at hds
    by_cases hzero : d = 0
    · subst hzero
      have hzeros : leadingZeros (0 :: ds) = leadingZeros ds + 1 := rfl
      rw [hzeros, List.replicate_succ, ← ih hds.2]
      exact List.takeWhile_cons_of_pos (decide_eq_true rfl)
    · have hzeros : leadingZeros (d :: ds) = 0 := by
        rw [leadingZeros, List.takeWhile_cons_of_neg (by simpa using hzero), List.length_nil]
      rw [hzeros]
      apply List.takeWhile_cons_of_neg
      intro hone
      exact hzero (base58Symbol_eq_zero d hds.1 (of_decide_eq_true hone))

/-- Decoding changes the base back. -/
theorem decodeBase58_digits (hds : ∀ d ∈ ds, d < 58) (hafter : ∀ c ∈ after, isSpace c = true)
    (hstr : digitsAndAfter str = ds.map base58Symbol ++ after) :
    ∃ v, decodeBase58 str = some v ∧ v.map UInt8.toNat = rebase 58 256 ds := by
  have hzeros := takeWhile_ones hds hafter
  have hloop : multiplyLoop 0 (ds.map base58Symbol ++ after) = some ((number 58 ds : ℕ) : ℤ) := by
    rw [number_eq_foldl]
    exact @multiplyLoop_append ds after 0 hds hafter
  unfold digitsAndAfter at hstr
  refine ⟨List.replicate (leadingZeros ds) 0 ++ (trimSign (getvch (number 58 ds))).reverse, ?_, ?_⟩
  · simp only [decodeBase58, hstr, hloop, hzeros, List.map_replicate, Option.bind_eq_bind,
      Option.bind_some, Option.pure_def]
  · rw [List.map_append, List.map_replicate, List.map_reverse, trimSign_getvch]
    rfl

theorem decodeBase58_eq_some (h : decodeBase58 str = some v) :
    ∃ ds : List ℕ, ∃ after, digitsAndAfter str = ds.map base58Symbol ++ after ∧ (∀ d ∈ ds, d < 58) ∧
      (∀ c ∈ after, isSpace c = true) ∧ v.map UInt8.toNat = rebase 58 256 ds := by
  have hloop : ∃ r, multiplyLoop ((0 : ℕ) : ℤ) (digitsAndAfter str) = some r := by
    cases hr : multiplyLoop ((0 : ℕ) : ℤ) (digitsAndAfter str) with
    | none =>
      unfold digitsAndAfter at hr
      unfold decodeBase58 at h
      rw [show (0 : ℤ) = ((0 : ℕ) : ℤ) from rfl] at h
      simp only [hr] at h
      cases h
    | some r => exact ⟨r, rfl⟩
  obtain ⟨r, hr⟩ := hloop
  obtain ⟨ds, after, hstr, hds, hafter⟩ := multiplyLoop_eq_some hr
  obtain ⟨v', hv', hbytes⟩ := decodeBase58_digits hds hafter hstr
  rw [h] at hv'
  cases hv'
  exact ⟨ds, after, hstr, hds, hafter, hbytes⟩

theorem lt_of_mem_toNat (v : List UInt8) : ∀ x ∈ v.map UInt8.toNat, x < 256 := by
  intro x hx
  obtain ⟨byte, -, rfl⟩ := List.mem_map.mp hx
  exact byte.toNat_lt

theorem dropWhile_eq_self {q : Char → Bool} (h : ∀ c ∈ str, q c = false) : str.dropWhile q = str := by
  cases str with
  | nil => rfl
  | cons c str => exact List.dropWhile_cons_of_neg (Bool.eq_false_iff.mp (h c List.mem_cons_self))

theorem isSpace_map (hds : ∀ d ∈ ds, d < 58) : ∀ c ∈ ds.map base58Symbol, isSpace c = false := by
  intro c hc
  obtain ⟨d, hd, rfl⟩ := List.mem_map.mp hc
  exact isSpace_base58Symbol d (hds d hd)

/-- The digits of an encoding are read as they are. -/
theorem digitsAndAfter_map (hds : ∀ d ∈ ds, d < 58) :
    digitsAndAfter (ds.map base58Symbol) = ds.map base58Symbol := by
  have hnul : (ds.map base58Symbol).takeWhile (fun c ↦ c ≠ '\x00') = ds.map base58Symbol := by
    apply List.takeWhile_eq_self_iff.mpr
    intro c hc
    obtain ⟨d, hd, rfl⟩ := List.mem_map.mp hc
    exact decide_eq_true (base58Symbol_ne_nul d (hds d hd))
  rw [digitsAndAfter, hnul, dropWhile_eq_self (isSpace_map hds)]

theorem decodeBase58_encodeBase58 (v : List UInt8) : decodeBase58 (encodeBase58 v) = some v := by
  have hds := @lt_of_mem_rebase 256 58 (v.map UInt8.toNat) (by decide)
  have hstr : digitsAndAfter (encodeBase58 v) =
      (rebase 256 58 (v.map UInt8.toNat)).map base58Symbol ++ [] := by
    rw [encodeBase58_eq, digitsAndAfter_map hds, List.append_nil]
  obtain ⟨v', hv', hbytes⟩ := decodeBase58_digits hds (by simp) hstr
  rw [rebase_rebase (by decide) (lt_of_mem_toNat v)] at hbytes
  rw [hv', List.map_inj_right (fun _ _ h ↦ UInt8.toNat_inj.mp h) |>.mp hbytes]

/-- A string without the white space around it. -/
def trim (str : List Char) : List Char := (str.dropWhile isSpace).rdropWhile isSpace

theorem mem_dropWhile {q : Char → Bool} (hc : c ∈ str) (hq : q c = false) : c ∈ str.dropWhile q := by
  rw [← @List.takeWhile_append_dropWhile _ q str] at hc
  obtain hfront | hrest := List.mem_append.mp hc
  · rw [List.mem_takeWhile_imp hfront] at hq
    cases hq
  · exact hrest

theorem mem_trim (hc : c ∈ str) (hspace : isSpace c = false) : c ∈ trim str := by
  apply List.mem_reverse.mpr
  apply mem_dropWhile _ hspace
  exact List.mem_reverse.mpr (mem_dropWhile hc hspace)

/-- White space behind digits is trimmed off. -/
theorem rdropWhile_digits (hds : ∀ d ∈ ds, d < 58) (hafter : ∀ c ∈ after, isSpace c = true) :
    (ds.map base58Symbol ++ after).rdropWhile isSpace = ds.map base58Symbol := by
  rw [List.rdropWhile, List.reverse_append, List.dropWhile_append_of_pos]
  · apply List.reverse_eq_iff.mpr
    apply dropWhile_eq_self
    intro c hc
    exact isSpace_map hds c (List.mem_reverse.mp hc)
  · intro c hc
    exact hafter c (List.mem_reverse.mp hc)

/-- What is accepted is written again, unless something stands behind a NUL. -/
theorem encodeBase58_eq_trim_iff (h : decodeBase58 str = some v) :
    encodeBase58 v = trim str ↔ '\x00' ∉ str := by
  obtain ⟨ds, after, hstr, hds, hafter, hbytes⟩ := decodeBase58_eq_some h
  have hencode : encodeBase58 v = ds.map base58Symbol := by
    rw [encodeBase58_eq, hbytes, rebase_rebase (by decide) hds]
  rw [hencode]
  constructor
  · intro htrim hnul
    have hmem := mem_trim hnul (by decide)
    rw [← htrim] at hmem
    obtain ⟨d, hd, hzero⟩ := List.mem_map.mp hmem
    exact base58Symbol_ne_nul d (hds d hd) hzero
  · intro hnul
    have hall : str.takeWhile (fun c ↦ c ≠ '\x00') = str := by
      apply List.takeWhile_eq_self_iff.mpr
      intro c hc
      apply decide_eq_true
      rintro rfl
      exact hnul hc
    rw [digitsAndAfter, hall] at hstr
    rw [trim, hstr, rdropWhile_digits hds hafter]

theorem decodeBase58Check_encodeBase58Check (hash : List UInt8 → Uint256) (v : List UInt8) :
    decodeBase58Check hash (encodeBase58Check hash v) = some v := by
  have hlength : (v ++ checksum hash v).length - 4 = v.length := by
    rw [List.length_append, checksum, Codec.length_leBytes, Nat.add_sub_cancel]
  have hlong : ¬(v ++ checksum hash v).length < 4 := by
    rw [List.length_append, checksum, Codec.length_leBytes]
    omega
  rw [decodeBase58Check, encodeBase58Check, decodeBase58_encodeBase58]
  simp only [Option.bind_eq_bind, Option.bind_some, if_neg hlong, hlength, List.take_left,
    List.drop_left, ne_eq, not_true_eq_false, if_false]

end Electra.Text
