import Mathlib.Data.BitVec

/-!
# Hexadecimal strings and dump strings

`EncodeDumpString` writes white space, `%` and every byte outside of ASCII as `%` and two hexadecimal
digits, so that a string becomes one token of a line.

`ParseHex` reads pairs of digits, with white space between them, up to the first other character.  It
reads back what `HexStr` writes.
-/

namespace Electra.Text

section

def hexmap : List UInt8 := [48, 49, 50, 51, 52, 53, 54, 55, 56, 57, 97, 98, 99, 100, 101, 102]

def hexStr (vch : List UInt8) : List UInt8 :=
  vch.flatMap fun val : UInt8 ↦ [hexmap.getD (val >>> 4).toNat 0, hexmap.getD (val &&& 15).toNat 0]

/-- The percent sign. -/
def escape : UInt8 := 37

def encodeDumpChar (c : UInt8) : List UInt8 :=
  if c ≤ 32 ∨ c ≥ 128 ∨ c = escape then escape :: hexStr [c] else [c]

def encodeDumpString (str : List UInt8) : List UInt8 := str.flatMap encodeDumpChar

/-- What a `char`, which is signed, counts as a digit. -/
def digitValue (c : UInt8) : BitVec 32 :=
  let digit := c.toBitVec.signExtend 32
  digit.sshiftRight 6 * 9 + ((digit - 48) &&& 15)

def decodeDigits (high low : UInt8) : UInt8 := ⟨((digitValue high <<< 4) ||| digitValue low).setWidth 8⟩

def decodeDumpString : List UInt8 → List UInt8
  | [] => []
  | c :: high :: low :: str =>
      if c = escape then decodeDigits high low :: decodeDumpString str
      else c :: decodeDumpString (high :: low :: str)
  | c :: str => c :: decodeDumpString str

variable {c : UInt8} {str : List UInt8}

theorem forall_uint8 {p : UInt8 → Prop} (h : ∀ n < 256, p (UInt8.ofNat n)) (c : UInt8) : p c := by
  have hc := h c.toNat c.toNat_lt
  rwa [UInt8.ofNat_toNat] at hc

theorem decodeDigits_hexmap (c : UInt8) :
    decodeDigits (hexmap.getD (c >>> 4).toNat 0) (hexmap.getD (c &&& 15).toNat 0) = c :=
  forall_uint8 (p := fun c ↦ decodeDigits (hexmap.getD (c >>> 4).toNat 0)
    (hexmap.getD (c &&& 15).toNat 0) = c) (by decide +kernel) c

/-- Every character that is written is visible. -/
theorem lt_of_mem_encodeDumpChar (c : UInt8) : ∀ b ∈ encodeDumpChar c, 32 < b := by
  have hdigit : ∀ n < 16, 32 < hexmap.getD n 0 := by decide
  have hhalves : (c >>> 4).toNat < 16 ∧ (c &&& 15).toNat < 16 :=
    forall_uint8 (p := fun c ↦ (c >>> 4).toNat < 16 ∧ (c &&& 15).toNat < 16) (by decide +kernel) c
  intro b hb
  unfold encodeDumpChar at hb
  split_ifs at hb with hescaped
  · rcases List.mem_cons.mp hb with rfl | hb
    · decide
    · rcases List.mem_cons.mp hb with rfl | hb
      · exact hdigit _ hhalves.1
      · obtain rfl := List.mem_singleton.mp hb
        exact hdigit _ hhalves.2
  · obtain rfl := List.mem_singleton.mp hb
    exact UInt8.not_le.mp fun hle ↦ hescaped (.inl hle)

theorem lt_of_mem_encodeDumpString (str : List UInt8) : ∀ b ∈ encodeDumpString str, 32 < b := by
  intro b hb
  obtain ⟨c, -, hbc⟩ := List.mem_flatMap.mp hb
  exact lt_of_mem_encodeDumpChar c b hbc

theorem decodeDumpString_cons_of_ne (h : c ≠ escape) :
    decodeDumpString (c :: str) = c :: decodeDumpString str := by
  cases str with
  | nil => rfl
  | cons high str =>
    cases str with
    | nil => rfl
    | cons low str => rw [decodeDumpString, if_neg h]

theorem decodeDumpString_encodeDumpChar (c : UInt8) (str : List UInt8) :
    decodeDumpString (encodeDumpChar c ++ str) = c :: decodeDumpString str := by
  unfold encodeDumpChar
  split
  · have hread : decodeDumpString (escape :: hexStr [c] ++ str) = decodeDigits
        (hexmap.getD (c >>> 4).toNat 0) (hexmap.getD (c &&& 15).toNat 0) :: decodeDumpString str := if_pos rfl
    rw [hread, decodeDigits_hexmap]
  · next hplain =>
    exact decodeDumpString_cons_of_ne fun h ↦ hplain (.inr (.inr h))

@[simp]
theorem decodeDumpString_encodeDumpString (str : List UInt8) :
    decodeDumpString (encodeDumpString str) = str := by
  induction str with
  | nil => rfl
  | cons c str ih =>
    calc decodeDumpString (encodeDumpString (c :: str))
        = decodeDumpString (encodeDumpChar c ++ encodeDumpString str) := by
          rw [encodeDumpString, List.flatMap_cons, encodeDumpString]
      _ = c :: decodeDumpString (encodeDumpString str) := decodeDumpString_encodeDumpChar c _
      _ = c :: str := by rw [ih]

end

/-- `phexdigit`, which has no entry for other characters. -/
def hexDigit (c : UInt8) : Option UInt8 :=
  if 48 ≤ c ∧ c ≤ 57 then some (c - 48)
  else if 65 ≤ c ∧ c ≤ 70 then some (c - 55)
  else if 97 ≤ c ∧ c ≤ 102 then some (c - 87)
  else none

def isBlank (c : UInt8) : Bool := decide (c = 32 ∨ 9 ≤ c ∧ c ≤ 13)

def parseHex : List UInt8 → List UInt8
  | high :: low :: psz =>
      if isBlank high then parseHex (low :: psz)
      else
        match hexDigit high, hexDigit low with
        | some high, some low => (high <<< 4 ||| low) :: parseHex psz
        | _, _ => []
  | _ => []

def isHex (str : List UInt8) : Bool :=
  str.all (fun c ↦ (hexDigit c).isSome) && decide (0 < str.length) && decide (str.length % 2 = 0)

/-- `SetHex` of a number with 256 bits, for a string that `IsHex` accepts. -/
def setHex (str : List UInt8) : BitVec 256 :=
  BitVec.ofNat 256 (str.foldl (fun n c ↦ 16 * n + ((hexDigit c).getD 0).toNat) 0)

/-! ## Reading back -/

theorem hexDigit_hexmap : ∀ n < 16, hexDigit (hexmap.getD n 0) = some (UInt8.ofNat n) := by decide

theorem isBlank_hexmap : ∀ n < 16, isBlank (hexmap.getD n 0) = false := by decide

theorem halves (val : UInt8) : (val >>> 4).toNat < 16 ∧ (val &&& 15).toNat < 16 ∧
    UInt8.ofNat (val >>> 4).toNat <<< 4 ||| UInt8.ofNat (val &&& 15).toNat = val :=
  forall_uint8 (p := fun val ↦ (val >>> 4).toNat < 16 ∧ (val &&& 15).toNat < 16 ∧
    UInt8.ofNat (val >>> 4).toNat <<< 4 ||| UInt8.ofNat (val &&& 15).toNat = val) (by decide +kernel) val

theorem parseHex_hexStr (vch : List UInt8) : parseHex (hexStr vch) = vch := by
  induction vch with
  | nil => rfl
  | cons val vch ih =>
    obtain ⟨hhigh, hlow, hval⟩ := halves val
    show parseHex (hexmap.getD (val >>> 4).toNat 0 :: hexmap.getD (val &&& 15).toNat 0 :: hexStr vch) = _
    rw [parseHex, isBlank_hexmap _ hhigh, if_neg Bool.false_ne_true, hexDigit_hexmap _ hhigh,
      hexDigit_hexmap _ hlow, ih]
    exact congrArg (· :: vch) hval

end Electra.Text
