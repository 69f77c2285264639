import Electra.Script.Interpreter
import Electra.Text.Hex

/-!
# Canonical signatures

A signature is two numbers in a fixed frame, and a byte for the hash type.  `readCanonicalSignature` reads
each byte where the source does; no read is outside of the vector, whatever the bytes say.
-/

namespace Electra.Script

open Chain Text

variable {vchSig R S : Valtype} {L t lR t' lS h : UInt8}

/-! ## Reading byte by byte -/

/-- The checks of a number of `nLen` bytes that starts at `i`. -/
def readCanonicalInteger (vchSig : Valtype) (i nLen : ℕ) : Option Bool := do
  let _ ← vchSig[i]?
  let type ← vchSig[i - 2]?
  if type ≠ 0x02 then return false
  else if nLen = 0 then return false
  else do
    let first ← vchSig[i]?
    if first &&& 0x80 ≠ 0 then return false
    else if nLen > 1 ∧ first = 0 then do
      let second ← vchSig[i + 1]?
      return second &&& 0x80 ≠ 0
    else return true

/-- `IsCanonicalSignature`, which fails to return where a byte outside of the vector is read. -/
def readCanonicalSignature (vchSig : Valtype) : Option Bool :=
  if vchSig.length < 9 then return false
  else if vchSig.length > 73 then return false
  else do
    let last ← vchSig[vchSig.length - 1]?
    let nHashType := last &&& ~~~0x80
    if nHashType < 1 ∨ nHashType > 3 then return false
    else do
      let type ← vchSig[0]?
      if type ≠ 0x30 then return false
      else do
        let total ← vchSig[1]?
        if total.toNat ≠ vchSig.length - 3 then return false
        else do
          let lenR ← vchSig[3]?
          let nLenR := lenR.toNat
          if 5 + nLenR ≥ vchSig.length then return false
          else do
            let lenS ← vchSig[5 + nLenR]?
            let nLenS := lenS.toNat
            if nLenR + nLenS + 7 ≠ vchSig.length then return false
            else do
              let goodR ← readCanonicalInteger vchSig 4 nLenR
              if !goodR then return false
              else do
                let goodS ← readCanonicalInteger vchSig (6 + nLenR) nLenS
                if !goodS then return false else return nLenS ≤ 32

theorem getElem?_eq_getD {i : ℕ} (hi : i < vchSig.length) : vchSig[i]? = some (vchSig.getD i 0) := by
  rw [List.getD_eq_getElem?_getD, List.getElem?_eq_getElem hi, Option.getD_some]

theorem readCanonicalInteger_eq {i nLen : ℕ} (hi : i + nLen < vchSig.length) :
    readCanonicalInteger vchSig i nLen = some (isCanonicalInteger vchSig i nLen) := by
  unfold readCanonicalInteger isCanonicalInteger
  rw [getElem?_eq_getD (show i < vchSig.length by omega), getElem?_eq_getD (show i - 2 < vchSig.length by omega)]
  by_cases hmore : nLen > 1
  · rw [getElem?_eq_getD (show i + 1 < vchSig.length by omega)]
    generalize vchSig.getD (i - 2) 0 = type, vchSig.getD i 0 = first, vchSig.getD (i + 1) 0 = second
    have hne : (nLen != 0) = true := bne_iff_ne.mpr (by omega)
    simp only [Option.bind_eq_bind, Option.bind_some, Option.pure_def, hne]
    split_ifs <;> simp_all [beq_eq_decide]
  · generalize vchSig.getD (i - 2) 0 = type, vchSig.getD i 0 = first
    simp only [Option.bind_eq_bind, Option.bind_some, Option.pure_def, hmore, false_and, if_false, decide_false,
      Bool.false_and, Bool.not_false, Bool.and_true]
    split_ifs <;> simp_all

/-- A check before the others, on both sides. -/
theorem ite_eq_some_ite {c : Prop} [Decidable c] {x : Option Bool} {y : Bool} (h : ¬c → x = some y) :
    (if c then some false else x) = some (if c then false else y) := by
  split_ifs with hc
  · rfl
  · exact h hc

/-- Every read is inside of the vector. -/
theorem readCanonicalSignature_eq (vchSig : Valtype) :
    readCanonicalSignature vchSig = some (isCanonicalSignature vchSig) := by
  unfold readCanonicalSignature isCanonicalSignature
  by_cases hsize : vchSig.length < 9 ∨ vchSig.length > 73
  · rw [if_pos hsize]
    cases hsize with
    | inl hshort => rw [if_pos hshort, Option.pure_def]
    | inr hlong => rw [if_neg (by omega), if_pos hlong, Option.pure_def]
  have hlast : vchSig[vchSig.length - 1]? = some (vchSig.getLastD 0) := by
    rw [← List.getLast?_eq_getElem?, List.getLastD_eq_getLast?]
    cases hvch : vchSig.getLast? with
    | none =>
      rw [List.getLast?_eq_none_iff] at hvch
      rw [hvch] at hsize
      exact absurd (Or.inl (by decide)) hsize
    | some last => rfl
  rw [if_neg hsize, if_neg fun h ↦ hsize (.inl h), if_neg fun h ↦ hsize (.inr h), hlast,
    getElem?_eq_getD (show 0 < vchSig.length by omega), getElem?_eq_getD (show 1 < vchSig.length by omega),
    getElem?_eq_getD (show 3 < vchSig.length by omega)]
  simp only [Option.bind_eq_bind, Option.bind_some, Option.pure_def]
  apply ite_eq_some_ite
  intro _
  apply ite_eq_some_ite
  intro _
  apply ite_eq_some_ite
  intro _
  apply ite_eq_some_ite
  intro hplace
  rw [getElem?_eq_getD (not_le.mp hplace)]
  apply ite_eq_some_ite
  intro hmatch
  rw [readCanonicalInteger_eq (by omega), readCanonicalInteger_eq (by omega), Option.bind_some]
  cases isCanonicalInteger vchSig 4 (vchSig.getD 3 0).toNat with
  | false => rfl
  | true =>
    cases isCanonicalInteger vchSig (6 + (vchSig.getD 3 0).toNat)
      (vchSig.getD (5 + (vchSig.getD 3 0).toNat) 0).toNat with
    | false => rfl
    | true => rfl

/-! ## The form of a canonical signature -/

/-- Not empty, not negative, and without a leading zero that is not needed. -/
def IsMinimal (R : Valtype) : Prop :=
  ∃ first rest, R = first :: rest ∧ first < 0x80 ∧ (first = 0 → ∀ second ∈ rest.head?, 0x80 ≤ second)

def IsHashType (h : UInt8) : Prop := h ∈ [0x01, 0x02, 0x03, 0x81, 0x82, 0x83]

/-- `30 L 02 lR R 02 lS S h`, where L counts the bytes from the first 02 to the end of S. -/
def IsCanonicalForm (vchSig : Valtype) : Prop :=
  ∃ L lR R lS S h, vchSig = 0x30 :: L :: 0x02 :: lR :: (R ++ 0x02 :: lS :: (S ++ [h])) ∧
    L.toNat = R.length + S.length + 4 ∧ lR.toNat = R.length ∧ lS.toNat = S.length ∧
    IsMinimal R ∧ IsMinimal S ∧ IsHashType h ∧ S.length ≤ 32

/-- The frame with any types in it. -/
def framed (type L t lR : UInt8) (R : Valtype) (t' lS : UInt8) (S : Valtype) (h : UInt8) : Valtype :=
  type :: L :: t :: lR :: (R ++ t' :: lS :: (S ++ [h]))

theorem bytes_hold :
    (∀ n < 256, ¬(UInt8.ofNat n &&& ~~~0x80 < 1 ∨ UInt8.ofNat n &&& ~~~0x80 > 3) ↔
      UInt8.ofNat n ∈ [0x01, 0x02, 0x03, 0x81, 0x82, 0x83]) ∧
    ∀ n < 256, UInt8.ofNat n &&& 0x80 = 0 ↔ UInt8.ofNat n < 0x80 := by
  decide +kernel

theorem hashType_iff (h : UInt8) : ¬(h &&& ~~~0x80 < 1 ∨ h &&& ~~~0x80 > 3) ↔ IsHashType h :=
  forall_uint8 (p := fun h ↦ ¬(h &&& ~~~0x80 < 1 ∨ h &&& ~~~0x80 > 3) ↔ IsHashType h) bytes_hold.1 h

theorem sign_eq_zero_iff (byte : UInt8) : byte &&& 0x80 = 0 ↔ byte < 0x80 :=
  forall_uint8 (p := fun byte ↦ byte &&& 0x80 = 0 ↔ byte < 0x80) bytes_hold.2 byte

theorem getD_append_add {before after : Valtype} (k : ℕ) :
    (before ++ after).getD (before.length + k) 0 = after.getD k 0 := by
  rw [List.getD_eq_getElem?_getD, List.getElem?_append_right (Nat.le_add_right _ _), Nat.add_sub_cancel_left,
    ← List.getD_eq_getElem?_getD]

/-- A number between the bytes before it and those after it. -/
theorem isCanonicalInteger_iff {before after : Valtype} {x y : UInt8} :
    isCanonicalInteger (before ++ x :: y :: (R ++ after)) (before.length + 2) R.length = true ↔
      x = 0x02 ∧ IsMinimal R := by
  have htype : (before ++ x :: y :: (R ++ after)).getD (before.length + 2 - 2) 0 = x :=
    @getD_append_add before (x :: y :: (R ++ after)) 0
  have hfirst : (before ++ x :: y :: (R ++ after)).getD (before.length + 2) 0 = (R ++ after).getD 0 0 :=
    getD_append_add 2
  have hsecond : (before ++ x :: y :: (R ++ after)).getD (before.length + 2 + 1) 0 = (R ++ after).getD 1 0 :=
    getD_append_add 3
  unfold isCanonicalInteger IsMinimal
  rw [htype, hfirst, hsecond]
  cases R with
  | nil => simp
  | cons first rest =>
    cases rest with
    | nil => simp [sign_eq_zero_iff]
    | cons second rest =>
      have hget : (first :: second :: rest ++ after).getD 0 0 = first := rfl
      have hget' : (first :: second :: rest ++ after).getD 1 0 = second := rfl
      rw [hget, hget']
      simp only [Bool.and_eq_true, beq_iff_eq, sign_eq_zero_iff, Bool.not_eq_true', Bool.and_eq_false_iff,
        List.length_cons, bne_iff_ne, ne_eq, decide_eq_false_iff_not, beq_eq_false_iff_ne]
      constructor
      · rintro ⟨⟨⟨htype, -⟩, hpos⟩, hpad⟩
        refine ⟨htype, first, second :: rest, rfl, hpos, fun hzero ↦ ?_⟩
        intro byte hbyte
        cases hbyte
        exact UInt8.not_lt.mp (hpad.resolve_left fun h ↦ (h.resolve_left (by simp)) hzero)
      · rintro ⟨htype, first', rest', heq, hpos, hpad⟩
        cases heq
        refine ⟨⟨⟨htype, by simp⟩, hpos⟩, ?_⟩
        by_cases hzero : first = 0
        · exact .inr (UInt8.not_lt.mpr (hpad hzero second rfl))
        · exact .inl (.inr hzero)

theorem length_framed {type : UInt8} :
    (framed type L t lR R t' lS S h).length = R.length + S.length + 7 := by
  simp only [framed, List.length_cons, List.length_append, List.length_nil]
  omega

/-- A byte string with room for the two numbers is framed. -/
theorem exists_framed {nLenR nLenS : ℕ} (hlength : nLenR + nLenS + 7 = vchSig.length) :
    ∃ type L t lR R t' lS S h, vchSig = framed type L t lR R t' lS S h ∧ R.length = nLenR ∧
      S.length = nLenS := by
  obtain ⟨type, L, t, lR, rest, rfl⟩ : ∃ type L t lR rest, vchSig = type :: L :: t :: lR :: rest := by
    match vchSig, hlength with
    | type :: L :: t :: lR :: rest, _ => exact ⟨type, L, t, lR, rest, rfl⟩
  have hrest : rest.length = nLenR + (nLenS + 3) := by
    simp only [List.length_cons] at hlength
    omega
  obtain ⟨t', lS, rest', hdrop⟩ : ∃ t' lS rest', rest.drop nLenR = t' :: lS :: rest' := by
    have hlong : (rest.drop nLenR).length = nLenS + 3 := by
      rw [List.length_drop, hrest, Nat.add_sub_cancel_left]
    match rest.drop nLenR, hlong with
    | t' :: lS :: rest', _ => exact ⟨t', lS, rest', rfl⟩
  have hlong : rest'.length = nLenS + 1 := by
    have hcount := congrArg List.length hdrop
    rw [List.length_drop, hrest, List.length_cons, List.length_cons] at hcount
    omega
  have hne : rest' ≠ [] := by
    rintro rfl
    cases hlong
  refine ⟨type, L, t, lR, rest.take nLenR, t', lS, rest'.dropLast, rest'.getLast hne, ?_, ?_, ?_⟩
  · rw [framed, List.dropLast_append_getLast, ← hdrop, List.take_append_drop]
  · rw [List.length_take, hrest]
    omega
  · rw [List.length_dropLast, hlong, Nat.add_sub_cancel]

theorem getD_framed {type : UInt8} : (framed type L t lR R t' lS S h).getD (5 + R.length) 0 = lS := by
  have hsplit : framed type L t lR R t' lS S h = (type :: L :: t :: lR :: R) ++ t' :: lS :: (S ++ [h]) := rfl
  have hplace : 5 + R.length = (type :: L :: t :: lR :: R).length + 1 := by
    simp only [List.length_cons]
    omega
  rw [hsplit, hplace, getD_append_add]
  rfl

theorem isCanonicalSignature_framed {type : UInt8} (hR : lR.toNat = R.length) (hS : lS.toNat = S.length) :
    isCanonicalSignature (framed type L t lR R t' lS S h) = true ↔
      (9 ≤ R.length + S.length + 7 ∧ R.length + S.length + 7 ≤ 73) ∧ IsHashType h ∧ type = 0x30 ∧
        L.toNat = R.length + S.length + 4 ∧ (t = 0x02 ∧ IsMinimal R) ∧ (t' = 0x02 ∧ IsMinimal S) ∧
          S.length ≤ 32 := by
  have hlast : (framed type L t lR R t' lS S h).getLastD 0 = h := by
    have hsplit : framed type L t lR R t' lS S h = (type :: L :: t :: lR :: (R ++ t' :: lS :: S)) ++ [h] := by
      simp [framed]
    rw [hsplit, List.getLastD_concat]
  have hintR : isCanonicalInteger (framed type L t lR R t' lS S h) 4 R.length = true ↔
      t = 0x02 ∧ IsMinimal R := @isCanonicalInteger_iff R [type, L] (t' :: lS :: (S ++ [h])) t lR
  have hintS : isCanonicalInteger (framed type L t lR R t' lS S h) (6 + R.length) S.length = true ↔
      t' = 0x02 ∧ IsMinimal S := by
    have hplace : 6 + R.length = (type :: L :: t :: lR :: R).length + 2 := by
      simp only [List.length_cons]
      omega
    rw [hplace]
    exact @isCanonicalInteger_iff S (type :: L :: t :: lR :: R) [h] t' lS
  have hget0 : (framed type L t lR R t' lS S h).getD 0 0 = type := rfl
  have hget1 : (framed type L t lR R t' lS S h).getD 1 0 = L := rfl
  have hget3 : (framed type L t lR R t' lS S h).getD 3 0 = lR := rfl
  unfold isCanonicalSignature
  simp only [hlast, hget0, hget1, hget3, hR, getD_framed, hS, length_framed]
  by_cases hsize : R.length + S.length + 7 < 9 ∨ R.length + S.length + 7 > 73
  · rw [if_pos hsize]
    exact iff_of_false Bool.false_ne_true fun hall ↦ by omega
  rw [if_neg hsize, if_neg (by omega : ¬5 + R.length ≥ R.length + S.length + 7)]
  by_cases htype : h &&& ~~~0x80 < 1 ∨ h &&& ~~~0x80 > 3
  · rw [if_pos htype]
    exact iff_of_false Bool.false_ne_true fun hall ↦ (hashType_iff h).mpr hall.2.1 htype
  rw [if_neg htype]
  split_ifs with hwrong hmarker hmatch
  · exact iff_of_false not_false fun hall ↦ hwrong hall.2.2.1
  · exact iff_of_false not_false fun hall ↦ hmarker (by omega)
  · exact absurd rfl hmatch
  · rw [Bool.and_eq_true, Bool.and_eq_true, hintR, hintS, decide_eq_true_iff]
    constructor
    · rintro ⟨⟨hgoodR, hgoodS⟩, hhigh⟩
      exact ⟨by omega, (hashType_iff h).mp htype, not_not.mp hwrong, by omega, hgoodR, hgoodS, hhigh⟩
    · rintro ⟨-, -, -, -, hgoodR, hgoodS, hhigh⟩
      exact ⟨⟨hgoodR, hgoodS⟩, hhigh⟩

theorem length_of_isCanonical (hcanonical : isCanonicalSignature vchSig = true) :
    (vchSig.getD 3 0).toNat + (vchSig.getD (5 + (vchSig.getD 3 0).toNat) 0).toNat + 7 = vchSig.length := by
  by_contra hnot
  unfold isCanonicalSignature at hcanonical
  dsimp only at hcanonical
  rw [if_pos hnot] at hcanonical
  split_ifs at hcanonical

/-- The signatures that are accepted, and that no read of the check is outside of the vector. -/
theorem isCanonicalSignature_iff (vchSig : Valtype) :
    readCanonicalSignature vchSig = some (isCanonicalSignature vchSig) ∧
      (isCanonicalSignature vchSig = true ↔ IsCanonicalForm vchSig ∧ vchSig.length ≤ 73) := by
  refine ⟨readCanonicalSignature_eq vchSig, ?_⟩
  constructor
  · intro hcanonical
    obtain ⟨type, L, t, lR, R, t', lS, S, h, hframed, hR, hS⟩ := exists_framed (length_of_isCanonical hcanonical)
    have hlR : (vchSig.getD 3 0).toNat = lR.toNat := by
      rw [hframed]
      rfl
    have hlS : (vchSig.getD (5 + (vchSig.getD 3 0).toNat) 0).toNat = lS.toNat := by
      rw [← hR, hframed, getD_framed]
    rw [hlR] at hR
    rw [hlS] at hS
    subst hframed
    obtain ⟨hsize, htype, rfl, hL, ⟨rfl, hgoodR⟩, ⟨rfl, hgoodS⟩, hhigh⟩ :=
      (isCanonicalSignature_framed hR.symm hS.symm).mp hcanonical
    refine ⟨⟨L, lR, R, lS, S, h, rfl, hL, hR.symm, hS.symm, hgoodR, hgoodS, htype, hhigh⟩, ?_⟩
    rw [length_framed]
    exact hsize.2
  · rintro ⟨⟨L, lR, R, lS, S, h, rfl, hL, hR, hS, hgoodR, hgoodS, htype, hhigh⟩, hlength⟩
    have hlong : R.length + S.length + 7 ≤ 73 := by
      rw [← length_framed]
      exact hlength
    obtain ⟨_, _, rfl, -⟩ := id hgoodR
    obtain ⟨_, _, rfl, -⟩ := id hgoodS
    refine (isCanonicalSignature_framed hR hS).mpr ⟨⟨?_, hlong⟩, htype, rfl, hL, ⟨rfl, hgoodR⟩, ⟨rfl, hgoodS⟩, hhigh⟩
    simp only [List.length_cons]
    omega

/-- The first number has 35 bytes, the whole 74. -/
def longSignature : Valtype :=
  0x30 :: 71 :: 0x02 :: 35 :: (List.replicate 35 1 ++ 0x02 :: 32 :: (List.replicate 32 1 ++ [0x01]))

/-- A signature of the form may be longer than what is accepted. -/
theorem not_isCanonicalSignature_of_form :
    ¬∀ vchSig, isCanonicalSignature vchSig = true ↔ IsCanonicalForm vchSig := by
  intro hall
  have hform : IsCanonicalForm longSignature := by
    refine ⟨71, 35, List.replicate 35 1, 32, List.replicate 32 1, 0x01, rfl, by decide, by decide, by decide,
      ?_, ?_, List.mem_cons_self, by decide⟩
    · exact ⟨1, List.replicate 34 1, rfl, by decide, fun hzero ↦ absurd hzero (by decide)⟩
    · exact ⟨1, List.replicate 31 1, rfl, by decide, fun hzero ↦ absurd hzero (by decide)⟩
  have hrefused : isCanonicalSignature longSignature = false := by decide
  rw [(hall longSignature).mpr hform] at hrefused
  cases hrefused

end Electra.Script
