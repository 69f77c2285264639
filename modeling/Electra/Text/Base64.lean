import Electra.Foundations.Regroup
import Mathlib.Data.List.TakeWhile
import Mathlib.Tactic.IntervalCases

/-!
# Base64 and Base32

The coders take one byte or one character at a time; `mode` says how many bits are left over from the
previous one, and `left` which.  What follows the characters of a text is looked at only as far as the
padding goes.

A text is decoded as valid exactly when it begins with the encoding of the bytes that are returned and no
further character of the alphabet follows; Base32 takes letters of either case.
-/

namespace Electra.Text

open Foundations.Regroup

/-- The character at a place of an alphabet, which a NUL ends. -/
def symbol (pbase : List Char) (i : ℕ) : Char := pbase.getD i '\x00'

/-- What a decoding table says about a character. -/
def value (table : List ℤ) (c : Char) : ℤ := table.getD c.toNat (-1)

def inTable (table : List ℤ) (c : Char) : Bool := value table c ≠ -1

def pbase64 : List Char :=
  [ 'A', 'B', 'C', 'D', 'E', 'F', 'G', 'H', 'I', 'J', 'K', 'L', 'M', 'N', 'O', 'P',
    'Q', 'R', 'S', 'T', 'U', 'V', 'W', 'X', 'Y', 'Z', 'a', 'b', 'c', 'd', 'e', 'f',
    'g', 'h', 'i', 'j', 'k', 'l', 'm', 'n', 'o', 'p', 'q', 'r', 's', 't', 'u', 'v',
    'w', 'x', 'y', 'z', '0', '1', '2', '3', '4', '5', '6', '7', '8', '9', '+', '/']

def pbase32 : List Char :=
  [ 'a', 'b', 'c', 'd', 'e', 'f', 'g', 'h', 'i', 'j', 'k', 'l', 'm', 'n', 'o', 'p',
    'q', 'r', 's', 't', 'u', 'v', 'w', 'x', 'y', 'z', '2', '3', '4', '5', '6', '7']

/-- Table entries for n characters outside the alphabet. -/
def outside (n : ℕ) : List ℤ := List.replicate n (-1)

/-- Table entries for n characters whose values count up from `first`. -/
def values (first n : ℕ) : List ℤ := (List.range' first n).map Nat.cast

def decode64_table : List ℤ :=
  [outside 43, values 62 1, outside 3, values 63 1, values 52 10, outside 7, values 0 26, outside 6,
    values 26 26, outside 133].flatten

/-- Both cases of a letter have its value. -/
def decode32_table : List ℤ :=
  [outside 50, values 26 6, outside 9, values 0 26, outside 6, values 0 26, outside 133].flatten

/-- The locals of the loop over the bytes. -/
structure Encoding where
  strRet : List Char
  mode : ℕ
  left : ℕ

def encode64Step (s : Encoding) (enc : ℕ) : Encoding :=
  match s.mode with
  | 0 => ⟨s.strRet ++ [symbol pbase64 (enc >>> 2)], 1, (enc &&& 3) <<< 4⟩
  | 1 => ⟨s.strRet ++ [symbol pbase64 (s.left ||| enc >>> 4)], 2, (enc &&& 15) <<< 2⟩
  | 2 => ⟨s.strRet ++ [symbol pbase64 (s.left ||| enc >>> 6), symbol pbase64 (enc &&& 63)], 0, s.left⟩
  | _ => s

def encodeBase64 (vch : List UInt8) : List Char :=
  let s := (vch.map UInt8.toNat).foldl encode64Step ⟨[], 0, 0⟩
  if s.mode = 0 then s.strRet
  else s.strRet ++ symbol pbase64 s.left :: '=' :: if s.mode = 1 then ['='] else []

def encode32Step (s : Encoding) (enc : ℕ) : Encoding :=
  match s.mode with
  | 0 => ⟨s.strRet ++ [symbol pbase32 (enc >>> 3)], 1, (enc &&& 7) <<< 2⟩
  | 1 => ⟨s.strRet ++ [symbol pbase32 (s.left ||| enc >>> 6), symbol pbase32 (enc >>> 1 &&& 31)], 2,
      (enc &&& 1) <<< 4⟩
  | 2 => ⟨s.strRet ++ [symbol pbase32 (s.left ||| enc >>> 4)], 3, (enc &&& 15) <<< 1⟩
  | 3 => ⟨s.strRet ++ [symbol pbase32 (s.left ||| enc >>> 7), symbol pbase32 (enc >>> 2 &&& 31)], 4,
      (enc &&& 3) <<< 3⟩
  | 4 => ⟨s.strRet ++ [symbol pbase32 (s.left ||| enc >>> 5), symbol pbase32 (enc &&& 31)], 0, s.left⟩
  | _ => s

def nPadding : List ℕ := [0, 6, 4, 3, 1]

def encodeBase32 (vch : List UInt8) : List Char :=
  let s := (vch.map UInt8.toNat).foldl encode32Step ⟨[], 0, 0⟩
  if s.mode = 0 then s.strRet
  else s.strRet ++ symbol pbase32 s.left :: List.replicate (nPadding.getD s.mode 0) '='

/-- The locals of the loop over the characters. -/
structure Decoding where
  vchRet : List UInt8
  mode : ℕ
  left : ℕ

def decode64Step (s : Decoding) (dec : ℕ) : Decoding :=
  match s.mode with
  | 0 => ⟨s.vchRet, 1, dec⟩
  | 1 => ⟨s.vchRet ++ [UInt8.ofNat (s.left <<< 2 ||| dec >>> 4)], 2, dec &&& 15⟩
  | 2 => ⟨s.vchRet ++ [UInt8.ofNat (s.left <<< 4 ||| dec >>> 2)], 3, dec &&& 3⟩
  | 3 => ⟨s.vchRet ++ [UInt8.ofNat (s.left <<< 6 ||| dec)], 0, s.left⟩
  | _ => s

/-- The loop ends at the first character that is not in the table, as a NUL is not. -/
def decodeLoop (table : List ℤ) (step : Decoding → ℕ → Decoding) (p : List Char) :
    Decoding × List Char :=
  (((p.takeWhile (inTable table)).map fun c ↦ (value table c).toNat).foldl step ⟨[], 0, 0⟩,
    p.dropWhile (inTable table))

/-- The check of a mode that requires n padding characters. -/
def lacksPadding (table : List ℤ) (n left : ℕ) (p : List Char) : Bool :=
  left ≠ 0 || (List.range n).any (fun i ↦ p.getD i '\x00' ≠ '=') || inTable table (p.getD n '\x00')

/-- The bytes, and `pfInvalid`. -/
def decodeBase64 (p : List Char) : List UInt8 × Bool :=
  let (s, p) := decodeLoop decode64_table decode64Step p
  (s.vchRet, match s.mode with
    | 1 => true
    | 2 => lacksPadding decode64_table 2 s.left p
    | 3 => lacksPadding decode64_table 1 s.left p
    | _ => false)

def decode32Step (s : Decoding) (dec : ℕ) : Decoding :=
  match s.mode with
  | 0 => ⟨s.vchRet, 1, dec⟩
  | 1 => ⟨s.vchRet ++ [UInt8.ofNat (s.left <<< 3 ||| dec >>> 2)], 2, dec &&& 3⟩
  | 2 => ⟨s.vchRet, 3, s.left <<< 5 ||| dec⟩
  | 3 => ⟨s.vchRet ++ [UInt8.ofNat (s.left <<< 1 ||| dec >>> 4)], 4, dec &&& 15⟩
  | 4 => ⟨s.vchRet ++ [UInt8.ofNat (s.left <<< 4 ||| dec >>> 1)], 5, dec &&& 1⟩
  | 5 => ⟨s.vchRet, 6, s.left <<< 5 ||| dec⟩
  | 6 => ⟨s.vchRet ++ [UInt8.ofNat (s.left <<< 2 ||| dec >>> 3)], 7, dec &&& 7⟩
  | 7 => ⟨s.vchRet ++ [UInt8.ofNat (s.left <<< 5 ||| dec)], 0, s.left⟩
  | _ => s

def decodeBase32 (p : List Char) : List UInt8 × Bool :=
  let (s, p) := decodeLoop decode32_table decode32Step p
  (s.vchRet, match s.mode with
    | 1 | 3 | 6 => true
    | 2 => lacksPadding decode32_table 6 s.left p
    | 4 => lacksPadding decode32_table 4 s.left p
    | 5 => lacksPadding decode32_table 3 s.left p
    | 7 => lacksPadding decode32_table 1 s.left p
    | _ => false)

variable {a b w r n mode left : ℕ} {pbase : List Char} {table : List ℤ} {fold : Char → Char}
  {widths xs ys : List ℕ} {d : ℕ} {vch v : List UInt8} {p rest code : List Char}

/-- An alphabet of 2^b characters and its table, which takes a character for its fold. -/
structure IsAlphabet (b : ℕ) (pbase : List Char) (table : List ℤ) (fold : Char → Char) : Prop where
  value_symbol : ∀ i < 2 ^ b, value table (symbol pbase i) = i
  symbol_value : ∀ c, inTable table c = true → 
    (value table c).toNat < 2 ^ b ∧ symbol pbase (value table c).toNat = fold c
  value_fold : ∀ c, value table (fold c) = value table c
  fold_eq_pad : ∀ c, fold c = '=' ↔ c = '='
  pad_outside : inTable table '=' = false
  nul_outside : inTable table '\x00' = false

theorem inTable_iff {c : Char} : inTable table c = true ↔ value table c ≠ -1 := decide_eq_true_iff

/-- A property of all characters that are in a table, entry by entry. -/
theorem forall_inTable {P : Char → ℤ → Prop}
    (h : ∀ entry ∈ table.zipIdx, entry.1 ≠ -1 → P (Char.ofNat entry.2) entry.1) (c : Char)
    (hc : inTable table c = true) : P c (value table c) := by
  have hvalue : value table c = (table[c.toNat]?).getD (-1) := List.getD_eq_getElem?_getD
  have hne := inTable_iff.mp hc
  rw [hvalue] at hne ⊢
  cases hentry : table[c.toNat]? with
  | none =>
    rw [hentry] at hne
    exact absurd rfl hne
  | some v =>
    rw [hentry] at hne
    have hmem : (v, c.toNat) ∈ table.zipIdx := List.mem_zipIdx_iff_getElem?.mpr hentry
    have hv := h (v, c.toNat) hmem hne
    rwa [Char.ofNat_toNat] at hv

/-- The lower case of the 26 letters, and of all other characters. -/
theorem toLower_cases {P : Char → Char → Prop}
    (hupper : ∀ n < 26, P (Char.ofNat (65 + n)) (Char.ofNat (65 + n)).toLower)
    (hother : ∀ c, P c c) (c : Char) : P c c.toLower := by
  by_cases h : c.val ≥ 'A'.val ∧ c.val ≤ 'Z'.val
  · have hlow : 65 ≤ c.toNat := UInt32.le_iff_toNat_le.mp h.1
    have hhigh : c.toNat ≤ 90 := UInt32.le_iff_toNat_le.mp h.2
    have hc : c = Char.ofNat (65 + (c.toNat - 65)) := by
      rw [Nat.add_sub_cancel' hlow, Char.ofNat_toNat]
    rw [hc]
    exact hupper _ (by omega)
  · have hlower : c.toLower = c := dif_neg h
    rw [hlower]
    exact hother c

/-- What a table holds, entry by entry. -/
def TableHolds (b : ℕ) (pbase : List Char) (table : List ℤ) (fold : Char → Char) : Prop :=
  (∀ i < 2 ^ b, value table (symbol pbase i) = i) ∧
    (∀ entry ∈ table.zipIdx, entry.1 ≠ -1 →
      entry.1.toNat < 2 ^ b ∧ symbol pbase entry.1.toNat = fold (Char.ofNat entry.2)) ∧
    inTable table '=' = false ∧ inTable table '\x00' = false

instance : Decidable (TableHolds b pbase table fold) := inferInstanceAs (Decidable (_ ∧ _))

theorem tables_hold : TableHolds 6 pbase64 decode64_table id ∧
    TableHolds 5 pbase32 decode32_table Char.toLower ∧
    (∀ n < 26, value decode32_table (Char.ofNat (65 + n)).toLower =
        value decode32_table (Char.ofNat (65 + n)) ∧
      ((Char.ofNat (65 + n)).toLower = '=' ↔ Char.ofNat (65 + n) = '=')) ∧
    ∀ i < 2 ^ 5, (symbol pbase32 i).toLower = symbol pbase32 i := by
  decide +kernel

theorem TableHolds.isAlphabet (h : TableHolds b pbase table fold)
    (hfold : ∀ c, value table (fold c) = value table c ∧ (fold c = '=' ↔ c = '=')) :
    IsAlphabet b pbase table fold where
  value_symbol := h.1
  symbol_value := @forall_inTable table
    (fun c v ↦ v.toNat < 2 ^ b ∧ symbol pbase v.toNat = fold c) h.2.1
  value_fold c := (hfold c).1
  fold_eq_pad c := (hfold c).2
  pad_outside := h.2.2.1
  nul_outside := h.2.2.2

theorem isAlphabet64 : IsAlphabet 6 pbase64 decode64_table id :=
  tables_hold.1.isAlphabet fun _ ↦ ⟨rfl, Iff.rfl⟩

theorem isAlphabet32 : IsAlphabet 5 pbase32 decode32_table Char.toLower :=
  tables_hold.2.1.isAlphabet
    (@toLower_cases (fun c lower ↦ value decode32_table lower = value decode32_table c ∧
      (lower = '=' ↔ c = '=')) tables_hold.2.2.1 fun _ ↦ ⟨rfl, Iff.rfl⟩)

/-- The characters that an encoder has written stand for the digits that are cut from the bytes it has
read, and what is left is the rest, at the high end of the next digit. -/
def Encodes (b : ℕ) (pbase : List Char) (widths : List ℕ) (xs : List ℕ) (s : Encoding) : Prop :=
  s.mode < widths.length ∧ ∃ ys rest, s.strRet = ys.map (symbol pbase) ∧
    Regroups 8 b xs ys (widths.getD s.mode 0) rest ∧
      (s.mode ≠ 0 → s.left = rest <<< (b - widths.getD s.mode 0))

/-- How many bits are left in each mode of `EncodeBase64`. -/
def left64 : List ℕ := [0, 2, 4]

/-- How many bits are left in each mode of `EncodeBase32`. -/
def left32 : List ℕ := [0, 3, 1, 4, 2]

theorem encodes_nil (hwidths : widths.getD 0 0 = 0) (hpos : 0 < widths.length) :
    Encodes b pbase widths [] ⟨[], 0, 0⟩ := by
  refine ⟨hpos, [], 0, rfl, ?_, fun h ↦ absurd rfl h⟩
  rw [hwidths]
  exact Regroups.nil

theorem encode64Step_encodes {s : Encoding} (h : Encodes 6 pbase64 left64 xs s) (hd : d < 2 ^ 8) :
    Encodes 6 pbase64 left64 (xs ++ [d]) (encode64Step s d) := by
  obtain ⟨strRet, mode, left⟩ := s
  obtain ⟨hmode, ys, rest, hret, hbits, hleft⟩ := h
  change mode < 3 at hmode
  change strRet = _ at hret
  interval_cases mode
  · have hrest : rest = 0 := Nat.lt_one_iff.mp hbits.rest_lt
    refine ⟨(by decide : 1 < 3), _, _, ?_,
      hbits.next (k := 2) hd rfl (by decide : 0 ≤ 6), fun _ ↦ rfl⟩
    simp [encode64Step, hret, hrest]
  · have hplace : left = rest <<< 4 := hleft (Nat.succ_ne_zero _)
    refine ⟨(by decide : 2 < 3), _, _, ?_,
      hbits.next (k := 4) hd rfl (by decide : 2 ≤ 6), fun _ ↦ rfl⟩
    simp [encode64Step, hret, hplace]
  · have hplace : left = rest <<< 2 := hleft (Nat.succ_ne_zero _)
    refine ⟨(by decide : 0 < 3), _, _, ?_,
      hbits.next_two (k := 0) hd rfl (by decide : 4 ≤ 6), fun h ↦ absurd rfl h⟩
    simp [encode64Step, hret, hplace]

theorem encode32Step_encodes {s : Encoding} (h : Encodes 5 pbase32 left32 xs s) (hd : d < 2 ^ 8) :
    Encodes 5 pbase32 left32 (xs ++ [d]) (encode32Step s d) := by
  obtain ⟨strRet, mode, left⟩ := s
  obtain ⟨hmode, ys, rest, hret, hbits, hleft⟩ := h
  change mode < 5 at hmode
  change strRet = _ at hret
  interval_cases mode
  · have hrest : rest = 0 := Nat.lt_one_iff.mp hbits.rest_lt
    refine ⟨(by decide : 1 < 5), _, _, ?_,
      hbits.next (k := 3) hd rfl (by decide : 0 ≤ 5), fun _ ↦ rfl⟩
    simp [encode32Step, hret, hrest]
  · have hplace : left = rest <<< 2 := hleft (Nat.succ_ne_zero _)
    refine ⟨(by decide : 2 < 5), _, _, ?_,
      hbits.next_two (k := 1) hd rfl (by decide : 3 ≤ 5), fun _ ↦ rfl⟩
    simp [encode32Step, hret, hplace]
  · have hplace : left = rest <<< 4 := hleft (Nat.succ_ne_zero _)
    refine ⟨(by decide : 3 < 5), _, _, ?_,
      hbits.next (k := 4) hd rfl (by decide : 1 ≤ 5), fun _ ↦ rfl⟩
    simp [encode32Step, hret, hplace]
  · have hplace : left = rest <<< 1 := hleft (Nat.succ_ne_zero _)
    refine ⟨(by decide : 4 < 5), _, _, ?_,
      hbits.next_two (k := 2) hd rfl (by decide : 4 ≤ 5), fun _ ↦ rfl⟩
    simp [encode32Step, hret, hplace]
  · have hplace : left = rest <<< 3 := hleft (Nat.succ_ne_zero _)
    refine ⟨(by decide : 0 < 5), _, _, ?_,
      hbits.next_two (k := 0) hd rfl (by decide : 2 ≤ 5), fun h ↦ absurd rfl h⟩
    simp [encode32Step, hret, hplace]

theorem toNat_lt (vch : List UInt8) : ∀ x ∈ vch.map UInt8.toNat, x < 2 ^ 8 := by
  intro x hx
  obtain ⟨byte, -, rfl⟩ := List.mem_map.mp hx
  exact byte.toNat_lt

/-- The characters of an encoding stand for the bytes and the zeros behind them, less than one character
of them, and the padding goes by how many these are. -/
def IsCode (b : ℕ) (pbase : List Char) (pads : List ℕ) (vch : List UInt8) (str : List Char) : Prop :=
  ∃ ys, ∃ r < b, Regroups b 8 ys (vch.map UInt8.toNat) r 0 ∧
    str = ys.map (symbol pbase) ++ List.replicate (pads.getD r 0) '='

/-- The padding of Base64, by the number of zero bits. -/
def pads64 : List ℕ := [0, 0, 1, 0, 2]

/-- The padding of Base32, by the number of zero bits. -/
def pads32 : List ℕ := [0, 3, 6, 1, 4]

theorem encodeBase64_isCode (vch : List UInt8) :
    IsCode 6 pbase64 pads64 vch (encodeBase64 vch) := by
  have hrun := foldl_invariant (encodes_nil rfl (by decide)) encode64Step_encodes (toNat_lt vch)
  unfold encodeBase64
  generalize (vch.map UInt8.toNat).foldl encode64Step ⟨[], 0, 0⟩ = s at hrun
  obtain ⟨strRet, mode, left⟩ := s
  obtain ⟨hmode, ys, rest, hret, hbits, hleft⟩ := hrun
  change mode < 3 at hmode
  change strRet = _ at hret
  interval_cases mode
  · exact ⟨ys, 0, by decide, hbits.symm, by simp [hret, pads64]⟩
  · have hplace : left = rest <<< 4 := hleft (Nat.succ_ne_zero _)
    exact ⟨_, 4, by decide, hbits.pad (by decide : 2 ≤ 6),
      by simp [hret, hplace, pads64, left64, List.replicate]⟩
  · have hplace : left = rest <<< 2 := hleft (Nat.succ_ne_zero _)
    exact ⟨_, 2, by decide, hbits.pad (by decide : 4 ≤ 6), by simp [hret, hplace, pads64, left64]⟩

theorem encodeBase32_isCode (vch : List UInt8) :
    IsCode 5 pbase32 pads32 vch (encodeBase32 vch) := by
  have hrun := foldl_invariant (encodes_nil rfl (by decide)) encode32Step_encodes (toNat_lt vch)
  unfold encodeBase32
  generalize (vch.map UInt8.toNat).foldl encode32Step ⟨[], 0, 0⟩ = s at hrun
  obtain ⟨strRet, mode, left⟩ := s
  obtain ⟨hmode, ys, rest, hret, hbits, hleft⟩ := hrun
  change mode < 5 at hmode
  change strRet = _ at hret
  by_cases hzero : mode = 0
  · subst hzero
    exact ⟨ys, 0, by decide, hbits.symm, by simp [hret, pads32]⟩
  · have hplace : left = rest <<< (5 - left32.getD mode 0) := hleft hzero
    have hwidth : left32.getD mode 0 ≤ 5 ∧ 5 - left32.getD mode 0 < 5 ∧
        nPadding.getD mode 0 = pads32.getD (5 - left32.getD mode 0) 0 := by
      interval_cases mode
      · exact absurd rfl hzero
      all_goals decide
    refine ⟨_, 5 - left32.getD mode 0, hwidth.2.1, hbits.pad hwidth.1, ?_⟩
    simp only [hzero, if_false, hret, hplace, hwidth.2.2, List.map_append, List.map_cons, List.map_nil,
      List.append_assoc, List.cons_append, List.nil_append]

/-- The bytes that a decoder has put out are cut from the digits it has read, and what is left is the
rest. -/
def Decodes (b : ℕ) (widths : List ℕ) (xs : List ℕ) (s : Decoding) : Prop :=
  s.mode < widths.length ∧ ∃ rest, (s.mode ≠ 0 → s.left = rest) ∧
    Regroups b 8 xs (s.vchRet.map UInt8.toNat) (widths.getD s.mode 0) rest

/-- How many bits are left in each mode of `DecodeBase64`. -/
def kept64 : List ℕ := [0, 6, 4, 2]

/-- How many bits are left in each mode of `DecodeBase32`. -/
def kept32 : List ℕ := [0, 5, 2, 7, 4, 1, 6, 3]

theorem decodes_nil (hwidths : widths.getD 0 0 = 0) (hpos : 0 < widths.length) :
    Decodes b widths [] ⟨[], 0, 0⟩ := by
  refine ⟨hpos, 0, fun h ↦ absurd rfl h, ?_⟩
  rw [hwidths]
  exact Regroups.nil

/-- What is cut is pushed back as a byte. -/
theorem regroups_push_back {y : ℕ} (h : Regroups b 8 xs (vch.map UInt8.toNat ++ [y]) w r) :
    Regroups b 8 xs ((vch ++ [UInt8.ofNat y]).map UInt8.toNat) w r := by
  have hy : y < 256 := h.lt_right y (List.mem_append_right _ (List.mem_singleton_self y))
  rwa [List.map_append, List.map_singleton, UInt8.toNat_ofNat', Nat.mod_eq_of_lt hy]

theorem decode64Step_decodes {s : Decoding} (h : Decodes 6 kept64 xs s) (hd : d < 2 ^ 6) :
    Decodes 6 kept64 (xs ++ [d]) (decode64Step s d) := by
  obtain ⟨vchRet, mode, left⟩ := s
  obtain ⟨hmode, rest, hleft, hbits⟩ := h
  change mode < 4 at hmode
  interval_cases mode
  · have hread := hbits.collect hd
    rw [Nat.lt_one_iff.mp hbits.rest_lt, Nat.zero_shiftLeft, Nat.zero_or] at hread
    exact ⟨(by decide : 1 < 4), d, fun _ ↦ rfl, hread⟩
  · obtain rfl : left = rest := hleft (Nat.succ_ne_zero _)
    exact ⟨(by decide : 2 < 4), _, fun _ ↦ rfl,
      regroups_push_back (hbits.next (k := 4) hd rfl (by decide : 6 ≤ 8))⟩
  · obtain rfl : left = rest := hleft (Nat.succ_ne_zero _)
    exact ⟨(by decide : 3 < 4), _, fun _ ↦ rfl,
      regroups_push_back (hbits.next (k := 2) hd rfl (by decide : 4 ≤ 8))⟩
  · obtain rfl : left = rest := hleft (Nat.succ_ne_zero _)
    exact ⟨(by decide : 0 < 4), _, fun h ↦ absurd rfl h,
      regroups_push_back (hbits.next (k := 0) hd rfl (by decide : 2 ≤ 8))⟩

theorem decode32Step_decodes {s : Decoding} (h : Decodes 5 kept32 xs s) (hd : d < 2 ^ 5) :
    Decodes 5 kept32 (xs ++ [d]) (decode32Step s d) := by
  obtain ⟨vchRet, mode, left⟩ := s
  obtain ⟨hmode, rest, hleft, hbits⟩ := h
  change mode < 8 at hmode
  interval_cases mode
  · have hread := hbits.collect hd
    rw [Nat.lt_one_iff.mp hbits.rest_lt, Nat.zero_shiftLeft, Nat.zero_or] at hread
    exact ⟨(by decide : 1 < 8), d, fun _ ↦ rfl, hread⟩
  · obtain rfl : left = rest := hleft (Nat.succ_ne_zero _)
    exact ⟨(by decide : 2 < 8), _, fun _ ↦ rfl,
      regroups_push_back (hbits.next (k := 2) hd rfl (by decide : 5 ≤ 8))⟩
  · obtain rfl : left = rest := hleft (Nat.succ_ne_zero _)
    exact ⟨(by decide : 3 < 8), _, fun _ ↦ rfl, hbits.collect hd⟩
  · obtain rfl : left = rest := hleft (Nat.succ_ne_zero _)
    exact ⟨(by decide : 4 < 8), _, fun _ ↦ rfl,
      regroups_push_back (hbits.next (k := 4) hd rfl (by decide : 7 ≤ 8))⟩
  · obtain rfl : left = rest := hleft (Nat.succ_ne_zero _)
    exact ⟨(by decide : 5 < 8), _, fun _ ↦ rfl,
      regroups_push_back (hbits.next (k := 1) hd rfl (by decide : 4 ≤ 8))⟩
  · obtain rfl : left = rest := hleft (Nat.succ_ne_zero _)
    exact ⟨(by decide : 6 < 8), _, fun _ ↦ rfl, hbits.collect hd⟩
  · obtain rfl : left = rest := hleft (Nat.succ_ne_zero _)
    exact ⟨(by decide : 7 < 8), _, fun _ ↦ rfl,
      regroups_push_back (hbits.next (k := 3) hd rfl (by decide : 6 ≤ 8))⟩
  · obtain rfl : left = rest := hleft (Nat.succ_ne_zero _)
    exact ⟨(by decide : 0 < 8), _, fun h ↦ absurd rfl h,
      regroups_push_back (hbits.next (k := 0) hd rfl (by decide : 3 ≤ 8))⟩

/-- The digits that a text begins with. -/
def digitsOf (table : List ℤ) (p : List Char) : List ℕ :=
  (p.takeWhile (inTable table)).map fun c ↦ (value table c).toNat

theorem digitsOf_lt (halphabet : IsAlphabet b pbase table fold) (p : List Char) :
    ∀ x ∈ digitsOf table p, x < 2 ^ b := by
  intro x hx
  obtain ⟨c, hc, rfl⟩ := List.mem_map.mp hx
  exact (halphabet.symbol_value c (List.mem_takeWhile_imp hc)).1

/-- A text does not begin with a character of the table. -/
def StartsOutside (table : List ℤ) (rest : List Char) : Prop := ∀ c ∈ rest.head?, inTable table c = false

theorem startsOutside_dropWhile : StartsOutside table (p.dropWhile (inTable table)) := by
  intro c hc
  have hnot := List.head?_dropWhile_not (inTable table) p
  rw [Option.mem_def.mp hc] at hnot
  exact Bool.not_eq_true' _ |>.mp (by simpa using hnot)

theorem lacksPadding_eq_false_iff (hnul : inTable table '\x00' = false) :
    lacksPadding table n left p = false ↔
      left = 0 ∧ ∃ rest, p = List.replicate n '=' ++ rest ∧ StartsOutside table rest := by
  have hnext : inTable table (p.getD n '\x00') = false ↔ StartsOutside table (p.drop n) := by
    rw [StartsOutside, List.head?_drop, List.getD_eq_getElem?_getD]
    cases p[n]? with
    | none => simp [hnul]
    | some c => simp
  have hpad : (∀ i < n, p.getD i '\x00' = '=') ↔ p.take n = List.replicate n '=' := by
    constructor
    · intro h
      apply List.ext_getElem?
      intro i
      by_cases hi : i < n
      · have hc := h i hi
        rw [List.getD_eq_getElem?_getD] at hc
        rw [List.getElem?_take_of_lt hi, List.getElem?_replicate, if_pos hi]
        cases hp : p[i]? with
        | none =>
          rw [hp] at hc
          exact absurd hc (by decide)
        | some c =>
          rw [hp] at hc
          exact congrArg some hc
      · rw [List.getElem?_take_eq_none (not_lt.mp hi), List.getElem?_replicate, if_neg hi]
    · intro h i hi
      have hc := congrArg (·[i]?) h
      simp only [List.getElem?_take_of_lt hi, List.getElem?_replicate, if_pos hi] at hc
      rw [List.getD_eq_getElem?_getD, hc]
      rfl
  have hchecks : lacksPadding table n left p = false ↔
      left = 0 ∧ (∀ i < n, p.getD i '\x00' = '=') ∧ inTable table (p.getD n '\x00') = false := by
    simp [lacksPadding, and_assoc]
  rw [hchecks, hnext, hpad]
  apply and_congr_right
  intro _
  constructor
  · rintro ⟨htake, houtside⟩
    exact ⟨p.drop n, by rw [← htake, List.take_append_drop], houtside⟩
  · rintro ⟨rest, rfl, houtside⟩
    have hlength : (List.replicate n '=').length = n := List.length_replicate
    exact ⟨List.take_left' hlength, by rwa [List.drop_left' hlength]⟩

/-- A mode is valid when less than a character of zeros is left and the padding is there. -/
theorem decode_eq_iff {s : Decoding} {pads : List ℕ} {pfInvalid : Bool} (hb : b ≤ 8)
    (hnone : widths.getD 0 0 = 0) (hwidth : widths.getD s.mode 0 < 8) (hrun : Decodes b widths xs s)
    (hcheck : pfInvalid = false ↔ widths.getD s.mode 0 < b ∧ (s.mode ≠ 0 → s.left = 0) ∧
      ∃ rest, p = List.replicate (pads.getD (widths.getD s.mode 0) 0) '=' ++ rest ∧
        StartsOutside table rest) :
    (s.vchRet, pfInvalid) = (v, false) ↔ ∃ r < b, Regroups b 8 xs (v.map UInt8.toNat) r 0 ∧
      ∃ rest, p = List.replicate (pads.getD r 0) '=' ++ rest ∧ StartsOutside table rest := by
  obtain ⟨-, rest, hleft, hbits⟩ := hrun
  rw [Prod.mk.injEq, hcheck]
  constructor
  · rintro ⟨rfl, hlt, hzero, hpad⟩
    have hrest : rest = 0 := by
      by_cases hmode : s.mode = 0
      · have hsmall := hbits.rest_lt
        rw [hmode, hnone] at hsmall
        exact Nat.lt_one_iff.mp hsmall
      · rw [← hleft hmode, hzero hmode]
    rw [hrest] at hbits
    exact ⟨_, hlt, hbits, hpad⟩
  · rintro ⟨r, hr, hregroups, hpad⟩
    obtain ⟨hbytes, rfl, rfl⟩ := hbits.right_unique hregroups hwidth (by omega)
    exact ⟨List.map_inj_right (fun _ _ h ↦ UInt8.toNat_inj.mp h) |>.mp hbytes, hr, hleft, hpad⟩

/-- A text is read as valid bytes v when its digits stand for v and the padding follows. -/
def ReadsAs (b : ℕ) (table : List ℤ) (pads : List ℕ) (p : List Char) (v : List UInt8) : Prop :=
  ∃ r < b, Regroups b 8 (digitsOf table p) (v.map UInt8.toNat) r 0 ∧
    ∃ rest, p.dropWhile (inTable table) = List.replicate (pads.getD r 0) '=' ++ rest ∧
      StartsOutside table rest

theorem decodeBase64_readsAs : decodeBase64 p = (v, false) ↔ ReadsAs 6 decode64_table pads64 p v := by
  have hrun := foldl_invariant (decodes_nil rfl (by decide)) decode64Step_decodes
    (digitsOf_lt isAlphabet64 p)
  have houtside : StartsOutside decode64_table (p.dropWhile (inTable decode64_table)) :=
    startsOutside_dropWhile
  unfold decodeBase64 decodeLoop ReadsAs
  change Decodes 6 kept64 _ (List.foldl decode64Step ⟨[], 0, 0⟩
    ((p.takeWhile (inTable decode64_table)).map fun c ↦ (value decode64_table c).toNat)) at hrun
  generalize List.foldl decode64Step ⟨[], 0, 0⟩ _ = s at hrun ⊢
  obtain ⟨vchRet, mode, left⟩ := s
  have hmode : mode < 4 := hrun.1
  apply decode_eq_iff (by decide) rfl _ hrun
  · change _ ↔ kept64.getD mode 0 < 6 ∧ (mode ≠ 0 → left = 0) ∧ _
    interval_cases mode
    · simpa [kept64, pads64] using houtside
    · simp [kept64]
    · simp [kept64, pads64, lacksPadding_eq_false_iff isAlphabet64.nul_outside]
    · simp [kept64, pads64, lacksPadding_eq_false_iff isAlphabet64.nul_outside]
  · change kept64.getD mode 0 < 8
    interval_cases mode <;> decide

theorem decodeBase32_readsAs : decodeBase32 p = (v, false) ↔ ReadsAs 5 decode32_table pads32 p v := by
  have hrun := foldl_invariant (decodes_nil rfl (by decide)) decode32Step_decodes
    (digitsOf_lt isAlphabet32 p)
  have houtside : StartsOutside decode32_table (p.dropWhile (inTable decode32_table)) :=
    startsOutside_dropWhile
  unfold decodeBase32 decodeLoop ReadsAs
  change Decodes 5 kept32 _ (List.foldl decode32Step ⟨[], 0, 0⟩
    ((p.takeWhile (inTable decode32_table)).map fun c ↦ (value decode32_table c).toNat)) at hrun
  generalize List.foldl decode32Step ⟨[], 0, 0⟩ _ = s at hrun ⊢
  obtain ⟨vchRet, mode, left⟩ := s
  have hmode : mode < 8 := hrun.1
  apply decode_eq_iff (by decide) rfl _ hrun
  · change _ ↔ kept32.getD mode 0 < 5 ∧ (mode ≠ 0 → left = 0) ∧ _
    interval_cases mode
    · simpa [kept32, pads32] using houtside
    all_goals simp [kept32, pads32, lacksPadding_eq_false_iff isAlphabet32.nul_outside]
  · change kept32.getD mode 0 < 8
    interval_cases mode <;> decide

theorem map_symbol_digitsOf (halphabet : IsAlphabet b pbase table fold) (p : List Char) :
    (digitsOf table p).map (symbol pbase) = (p.takeWhile (inTable table)).map fold := by
  rw [digitsOf, List.map_map]
  apply List.map_congr_left
  intro c hc
  exact (halphabet.symbol_value c (List.mem_takeWhile_imp hc)).2

/-- Characters that fold to the symbols of digits stand for these digits. -/
theorem value_of_map_fold (halphabet : IsAlphabet b pbase table fold) (hlt : ∀ y ∈ ys, y < 2 ^ b)
    (hcode : code.map fold = ys.map (symbol pbase)) : code.map (value table) = ys.map Nat.cast := by
  calc
    code.map (value table) = (code.map fold).map (value table) := by
      rw [List.map_map]
      exact List.map_congr_left fun c _ ↦ (halphabet.value_fold c).symm
    _ = (ys.map (symbol pbase)).map (value table) := by rw [hcode]
    _ = ys.map Nat.cast := by
      rw [List.map_map]
      exact List.map_congr_left fun y hy ↦ halphabet.value_symbol y (hlt y hy)

theorem takeWhile_of_startsOutside (h : StartsOutside table p) :
    p.takeWhile (inTable table) = [] ∧ p.dropWhile (inTable table) = p := by
  cases p with
  | nil => exact ⟨rfl, rfl⟩
  | cons c p =>
    have hc : ¬inTable table c = true := Bool.eq_false_iff.mp (h c rfl)
    exact ⟨List.takeWhile_cons_of_neg hc, List.dropWhile_cons_of_neg hc⟩

theorem readsAs_iff {pads : List ℕ} {str : List Char}
    (halphabet : IsAlphabet b pbase table fold) (hstr : IsCode b pbase pads v str) :
    ReadsAs b table pads p v ↔
      ∃ code rest, p = code ++ rest ∧ code.map fold = str ∧ StartsOutside table rest := by
  obtain ⟨ys, r, hr, hbits, rfl⟩ := hstr
  have hfold_pad : ∀ n, (List.replicate n '=').map fold = List.replicate n '=' := by
    intro n
    rw [List.map_replicate, (halphabet.fold_eq_pad '=').mpr rfl]
  constructor
  · rintro ⟨r', hr', hbits', rest, hpad, houtside⟩
    obtain ⟨hdigits, rfl⟩ := hbits'.left_unique hbits hr' hr
    refine ⟨p.takeWhile (inTable table) ++ List.replicate (pads.getD r' 0) '=', rest, ?_, ?_, houtside⟩
    · rw [List.append_assoc, ← hpad, List.takeWhile_append_dropWhile]
    · rw [List.map_append, ← map_symbol_digitsOf halphabet, hdigits, hfold_pad]
  · rintro ⟨code, rest, rfl, hcode, houtside⟩
    obtain ⟨front, padding, rfl, hfront, hpadding⟩ := List.map_eq_append_iff.mp hcode
    have hpad : padding = List.replicate (pads.getD r 0) '=' := by
      have hlength := congrArg List.length hpadding
      rw [List.length_map, List.length_replicate] at hlength
      apply List.eq_replicate_iff.mpr ⟨hlength, ?_⟩
      intro c hc
      apply (halphabet.fold_eq_pad c).mp
      have hmem := List.mem_map_of_mem (f := fold) hc
      rw [hpadding] at hmem
      exact List.eq_of_mem_replicate hmem
    have hvalue := value_of_map_fold halphabet hbits.lt_left hfront
    have hall : ∀ c ∈ front, inTable table c = true := by
      intro c hc
      have hmem := List.mem_map_of_mem (f := value table) hc
      rw [hvalue] at hmem
      obtain ⟨y, -, hy⟩ := List.mem_map.mp hmem
      rw [inTable_iff, ← hy]
      omega
    have htail : StartsOutside table (padding ++ rest) := by
      rw [hpad]
      cases pads.getD r 0 with
      | zero => exact houtside
      | succ n =>
        intro c hc
        obtain rfl : '=' = c := Option.some.inj hc
        exact halphabet.pad_outside
    have hend := takeWhile_of_startsOutside htail
    refine ⟨r, hr, ?_, rest, ?_, houtside⟩
    · have hdigits : digitsOf table (front ++ padding ++ rest) = ys := by
        calc
          digitsOf table (front ++ padding ++ rest) = (front.map (value table)).map Int.toNat := by
            rw [digitsOf, List.append_assoc, List.takeWhile_append_of_pos hall, hend.1,
              List.append_nil, List.map_map]
            rfl
          _ = ys := by
            rw [hvalue, List.map_map]
            exact List.map_id'' (fun y ↦ Int.toNat_natCast y) ys
      rw [hdigits]
      exact hbits
    · rw [List.append_assoc, List.dropWhile_append_of_pos hall, hend.2, hpad]

theorem decodeBase64_eq_iff : decodeBase64 p = (v, false) ↔
    ∃ rest, p = encodeBase64 v ++ rest ∧ StartsOutside decode64_table rest := by
  rw [decodeBase64_readsAs, readsAs_iff isAlphabet64 (encodeBase64_isCode v)]
  constructor
  · rintro ⟨code, rest, hp, hcode, houtside⟩
    rw [List.map_id] at hcode
    exact ⟨rest, hcode ▸ hp, houtside⟩
  · rintro ⟨rest, hp, houtside⟩
    exact ⟨encodeBase64 v, rest, hp, List.map_id _, houtside⟩

theorem decodeBase32_eq_iff : decodeBase32 p = (v, false) ↔
    ∃ code rest, p = code ++ rest ∧ code.map Char.toLower = encodeBase32 v ∧
      StartsOutside decode32_table rest := by
  rw [decodeBase32_readsAs, readsAs_iff isAlphabet32 (encodeBase32_isCode v)]

theorem startsOutside_nil : StartsOutside table [] := fun _ hc ↦ absurd hc (Option.not_mem_none _)

theorem map_toLower_encodeBase32 (v : List UInt8) :
    (encodeBase32 v).map Char.toLower = encodeBase32 v := by
  obtain ⟨ys, r, -, hbits, hstr⟩ := encodeBase32_isCode v
  have hsymbol := tables_hold.2.2.2
  rw [hstr, List.map_append, List.map_map, List.map_replicate]
  congr 1
  exact List.map_congr_left fun y hy ↦ hsymbol y (hbits.lt_left y hy)

/-- An encoding is read back, and a text is read as valid exactly when it begins with the encoding, up to
the case of the letters in Base32, and no character of the alphabet follows. -/
theorem decode_encode_iff :
    (∀ v, decodeBase64 (encodeBase64 v) = (v, false)) ∧
    (∀ p v, decodeBase64 p = (v, false) ↔
      ∃ rest, p = encodeBase64 v ++ rest ∧ StartsOutside decode64_table rest) ∧
    (∀ v, decodeBase32 (encodeBase32 v) = (v, false)) ∧
    ∀ p v, decodeBase32 p = (v, false) ↔
      ∃ code rest, p = code ++ rest ∧ code.map Char.toLower = encodeBase32 v ∧
        StartsOutside decode32_table rest := by
  refine ⟨fun v ↦ ?_, fun p v ↦ decodeBase64_eq_iff, fun v ↦ ?_, fun p v ↦ decodeBase32_eq_iff⟩
  · exact decodeBase64_eq_iff.mpr ⟨[], (List.append_nil _).symm, startsOutside_nil⟩
  · exact decodeBase32_eq_iff.mpr ⟨encodeBase32 v, [], (List.append_nil _).symm,
      map_toLower_encodeBase32 v, startsOutside_nil⟩

/-- An exclamation mark behind an encoding is read as valid, and so are capital letters in Base32. -/
theorem not_decode_only_encodings :
    (¬∀ p v, decodeBase64 p = (v, false) → p = encodeBase64 v) ∧
      ¬∀ p v, decodeBase32 p = (v, false) → p = encodeBase32 v := by
  have hread : (decodeBase64 ['Q', 'U', 'J', 'D', '!'] = ([65, 66, 67], false) ∧
      ['Q', 'U', 'J', 'D', '!'] ≠ encodeBase64 [65, 66, 67]) ∧
      decodeBase32 ['A', 'A', '=', '=', '=', '=', '=', '='] = ([0], false) ∧
        ['A', 'A', '=', '=', '=', '=', '=', '='] ≠ encodeBase32 [0] := by
    decide
  exact ⟨fun h ↦ hread.1.2 (h _ _ hread.1.1), fun h ↦ hread.2.2 (h _ _ hread.2.1)⟩

end Electra.Text
