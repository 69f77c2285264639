import Electra.Net.AddrMan
import Electra.Text.Base64

/-!
# Names of overlay addresses

An address of an overlay network has its ten bytes in Base32 in front of a suffix.  `SetSpecial` reads such a
name, and puts the prefix of the first network in front of the bytes whatever the suffix is.
-/

namespace Electra.Net

open Text Foundations.Regroup

def onionSuffix : List Char := ['.', 'o', 'n', 'i', 'o', 'n']

def i2pSuffix : List Char := ['.', 'o', 'c', '.', 'b', '3', '2', '.', 'i', '2', 'p']

/-- The name in front of a suffix. -/
def nameBefore (suffix strName : List Char) : Option (List Char) :=
  if suffix.length < strName.length ∧ strName.drop (strName.length - suffix.length) = suffix then
    some (strName.take (strName.length - suffix.length))
  else none

/-- What `c_str` is read as. -/
def cString (str : List Char) : List Char := str.takeWhile (· ≠ '\x00')

theorem length_pchOnionCat : pchOnionCat.length = 6 := rfl

/-- A prefix of six bytes and the bytes that a name stands for. -/
def CNetAddr.setOverlay (addr : CNetAddr) (pchPrefix : List UInt8) (hsix : pchPrefix.length = 6)
    (name : List Char) : Bool × CNetAddr :=
  let vchAddr := (decodeBase32 (cString name)).1
  if h : vchAddr.length = 10 then (true, ⟨pchPrefix ++ vchAddr, by rw [List.length_append, hsix, h]⟩)
  else (false, addr)

def CNetAddr.setSpecial (addr : CNetAddr) (strName : List Char) : Bool × CNetAddr :=
  match nameBefore onionSuffix strName with
  | some name => addr.setOverlay pchOnionCat length_pchOnionCat name
  | none =>
    match nameBefore i2pSuffix strName with
    -- The second branch copies the prefix of the first one.
    | some name => addr.setOverlay pchOnionCat length_pchOnionCat name
    | none => (false, addr)

def dotted (addr : CNetAddr) : List Char :=
  List.intercalate ['.'] ([3, 2, 1, 0].map fun n ↦ Nat.toDigits 10 (addr.getByte n).toNat)

def colonHex (addr : CNetAddr) : List Char :=
  List.intercalate [':'] ([15, 13, 11, 9, 7, 5, 3, 1].map fun n ↦
    Nat.toDigits 16 ((addr.getByte n).toNat * 256 + (addr.getByte (n - 1)).toNat))

/-- `nameInfo` is what `getnameinfo` prints for the socket address, if there is one and it succeeds. -/
def CNetAddr.toStringIP (nameInfo : CNetAddr → Option (List Char)) (addr : CNetAddr) : List Char :=
  if addr.isTor then encodeBase32 (addr.ip.drop 6) ++ onionSuffix
  else if addr.isI2P then encodeBase32 (addr.ip.drop 6) ++ i2pSuffix
  else match nameInfo addr with
    | some name => name
    | none => if addr.isIPv4 then dotted addr else colonHex addr

variable {addr a : CNetAddr} {name strName suffix : List Char} {v : List UInt8}
  {nameInfo : CNetAddr → Option (List Char)}

theorem nameBefore_eq_some : nameBefore suffix strName = some name ↔ name ≠ [] ∧ strName = name ++ suffix := by
  rw [nameBefore, Option.ite_none_right_eq_some, Option.some.injEq]
  constructor
  · rintro ⟨⟨hlength, hdrop⟩, rfl⟩
    refine ⟨List.ne_nil_of_length_pos ?_, ?_⟩
    · rw [List.length_take]
      omega
    · have hsplit := List.take_append_drop (strName.length - suffix.length) strName
      rw [hdrop] at hsplit
      exact hsplit.symm
  · rintro ⟨hne, rfl⟩
    have hlength := List.length_pos_iff.mpr hne
    have hsub : (name ++ suffix).length - suffix.length = name.length := by
      rw [List.length_append]
      omega
    rw [hsub]
    refine ⟨⟨?_, List.drop_left⟩, List.take_left⟩
    rw [List.length_append]
    omega

theorem nameBefore_onionSuffix_of_i2p (name : List Char) : nameBefore onionSuffix (name ++ i2pSuffix) = none := by
  rw [Option.eq_none_iff_forall_ne_some]
  intro before heq
  have hsplit := (nameBefore_eq_some.mp heq).2
  have hlast : some 'p' = some 'n' := by
    simpa [i2pSuffix, onionSuffix] using congrArg List.getLast? hsplit
  exact absurd hlast (by decide)

theorem setOverlay_eq_true {pchPrefix : List UInt8} {hsix : pchPrefix.length = 6} :
    addr.setOverlay pchPrefix hsix name = (true, a) ↔
      (decodeBase32 (cString name)).1.length = 10 ∧ a.ip = pchPrefix ++ (decodeBase32 (cString name)).1 := by
  simp only [CNetAddr.setOverlay]
  split
  · next h =>
    rw [Prod.mk.injEq]
    simp only [h, true_and]
    exact ⟨fun heq ↦ heq ▸ rfl, fun heq ↦ by cases a; cases heq; rfl⟩
  · next h => simp [h]

/-- Both branches put the same prefix in front. -/
theorem setSpecial_eq_true : addr.setSpecial strName = (true, a) ↔
    ∃ name, name ≠ [] ∧ (strName = name ++ onionSuffix ∨ strName = name ++ i2pSuffix) ∧
      (decodeBase32 (cString name)).1.length = 10 ∧ a.ip = pchOnionCat ++ (decodeBase32 (cString name)).1 := by
  unfold CNetAddr.setSpecial
  cases honion : nameBefore onionSuffix strName with
  | some name =>
    obtain ⟨hne, rfl⟩ := nameBefore_eq_some.mp honion
    simp only [setOverlay_eq_true]
    constructor
    · exact fun h ↦ ⟨name, hne, Or.inl rfl, h⟩
    · rintro ⟨name', hne', heq | heq, h⟩
      · rwa [List.append_cancel_right heq]
      · rw [heq, nameBefore_onionSuffix_of_i2p] at honion
        cases honion
  | none =>
    have hnot : ∀ name, name ≠ [] → strName ≠ name ++ onionSuffix := by
      intro name hne heq
      rw [nameBefore_eq_some.mpr ⟨hne, heq⟩] at honion
      cases honion
    cases hi2p : nameBefore i2pSuffix strName with
    | some name =>
      obtain ⟨hne, rfl⟩ := nameBefore_eq_some.mp hi2p
      simp only [setOverlay_eq_true]
      constructor
      · exact fun h ↦ ⟨name, hne, Or.inr rfl, h⟩
      · rintro ⟨name', hne', heq | heq, h⟩
        · exact absurd heq (hnot name' hne')
        · rwa [List.append_cancel_right heq]
    | none =>
      refine iff_of_false (fun h ↦ Bool.false_ne_true (congrArg Prod.fst h)) ?_
      rintro ⟨name, hne, heq | heq, h⟩
      · exact hnot name hne heq
      · rw [nameBefore_eq_some.mpr ⟨hne, heq⟩] at hi2p
        cases hi2p

/-- Sixteen characters of the alphabet, in either case. -/
def IsOverlayName (name : List Char) : Prop := name.length = 16 ∧ ∀ c ∈ name, inTable decode32_table c = true

theorem encodeBase32_of_length (h : v.length = 10) : ∃ ys : List ℕ, ys.length = 16 ∧ (∀ y ∈ ys, y < 2 ^ 5) ∧
    encodeBase32 v = ys.map (symbol pbase32) := by
  obtain ⟨ys, r, hr, hbits, hstr⟩ := encodeBase32_isCode v
  have hlength := hbits.length
  rw [List.length_map, h] at hlength
  have hzero : r = 0 := by omega
  subst hzero
  exact ⟨ys, by omega, hbits.lt_left, hstr.trans (List.append_nil _)⟩

theorem isOverlayName_of_map_toLower (h : v.length = 10) (hname : name.map Char.toLower = encodeBase32 v) :
    IsOverlayName name := by
  obtain ⟨ys, hlength, hlt, hstr⟩ := encodeBase32_of_length h
  rw [hstr] at hname
  refine ⟨?_, fun c hc ↦ ?_⟩
  · rw [← List.length_map Char.toLower, hname, List.length_map, hlength]
  · have hvalue := value_of_map_fold isAlphabet32 hlt hname
    have hmem := List.mem_map_of_mem (f := value decode32_table) hc
    rw [hvalue] at hmem
    obtain ⟨y, -, hy⟩ := List.mem_map.mp hmem
    rw [inTable_iff, ← hy]
    omega

theorem cString_of_inTable (h : ∀ c ∈ name, inTable decode32_table c = true) : cString name = name := by
  rw [cString, List.takeWhile_eq_self_iff]
  intro c hc
  have hnul := isAlphabet32.nul_outside
  apply decide_eq_true
  rintro rfl
  rw [h _ hc] at hnul
  cases hnul

/-- What is decoded are the digits in front, up to less than a byte. -/
theorem decodeBase32_regroups (p : List Char) : ∃ r < 8, ∃ rest,
    Regroups 5 8 (digitsOf decode32_table p) ((decodeBase32 p).1.map UInt8.toNat) r rest := by
  obtain ⟨hmode, rest, -, hbits⟩ := foldl_invariant (decodes_nil rfl (by decide)) decode32Step_decodes
    (digitsOf_lt isAlphabet32 p)
  refine ⟨_, ?_, rest, hbits⟩
  generalize (List.foldl decode32Step ⟨[], 0, 0⟩ (digitsOf decode32_table p)).mode = mode at hmode
  change mode < 8 at hmode
  interval_cases mode <;> decide

/-- Such a name stands for ten bytes, and is their encoding in lower case. -/
theorem encode_decode_of_isOverlayName (h : IsOverlayName name) :
    (decodeBase32 name).1.length = 10 ∧ encodeBase32 (decodeBase32 name).1 = name.map Char.toLower := by
  obtain ⟨r, hr, rest, hbits⟩ := decodeBase32_regroups name
  have htake : name.takeWhile (inTable decode32_table) = name := List.takeWhile_eq_self_iff.mpr h.2
  have hdrop : name.dropWhile (inTable decode32_table) = [] := List.dropWhile_eq_nil_iff.mpr h.2
  have hlength := hbits.length
  rw [digitsOf, htake, List.length_map, h.1, List.length_map] at hlength
  have hzero : r = 0 := by omega
  subst hzero
  have hrest : rest = 0 := Nat.lt_one_iff.mp hbits.rest_lt
  subst hrest
  have hreads : decodeBase32 name = ((decodeBase32 name).1, false) :=
    decodeBase32_readsAs.mpr ⟨0, by decide, hbits, [], hdrop.trans rfl, startsOutside_nil⟩
  obtain ⟨code, tail, hname, hcode, houtside⟩ := decodeBase32_eq_iff.mp hreads
  have htail : tail = [] := by
    cases tail with
    | nil => rfl
    | cons c tail =>
      have hc := h.2 c (by rw [hname]; simp)
      rw [houtside c rfl] at hc
      cases hc
  rw [htail, List.append_nil] at hname
  refine ⟨by omega, ?_⟩
  rw [← hcode, ← hname]

theorem drop_ip (h : a.ip = pchOnionCat ++ v) : a.ip.drop 6 = v := by
  rw [h]
  rfl

theorem isTor_of_ip (h : a.ip = pchOnionCat ++ v) : a.isTor = true := by
  rw [CNetAddr.isTor, h]
  rfl

theorem isI2P_of_ip (h : a.ip = pchOnionCat ++ v) : a.isI2P = false := by
  rw [CNetAddr.isI2P, h]
  rfl

theorem ip_of_isTor (h : a.isTor = true) : a.ip = pchOnionCat ++ a.ip.drop 6 := by
  rw [← eq_of_beq h, List.take_append_drop]

theorem length_drop_ip (a : CNetAddr) : (a.ip.drop 6).length = 10 := by
  rw [List.length_drop, a.length_ip]

theorem toStringIP_of_isTor (h : a.isTor = true) :
    a.toStringIP nameInfo = encodeBase32 (a.ip.drop 6) ++ onionSuffix := if_pos h

/-- A name has the suffix of the network that an address belongs to. -/
def InNamedNetwork (strName : List Char) (a : CNetAddr) : Prop :=
  onionSuffix <:+ strName ∧ a.isTor = true ∨ i2pSuffix <:+ strName ∧ a.isI2P = true

theorem setSpecial_toStringIP_iff (h : a.isTor = true ∨ a.isI2P = true) :
    addr.setSpecial (a.toStringIP nameInfo) = (true, a) ↔ a.isI2P = false := by
  constructor
  · intro hset
    obtain ⟨name, -, -, -, hip⟩ := setSpecial_eq_true.mp hset
    exact isI2P_of_ip hip
  · intro hi2p
    rw [hi2p] at h
    have htor : a.isTor = true := h.resolve_right Bool.false_ne_true
    rw [toStringIP_of_isTor htor, setSpecial_eq_true]
    have hname := isOverlayName_of_map_toLower (length_drop_ip a) (map_toLower_encodeBase32 _)
    have hread := decodeBase32_eq_iff.mpr ⟨encodeBase32 (a.ip.drop 6), [], (List.append_nil _).symm,
      map_toLower_encodeBase32 _, startsOutside_nil⟩
    refine ⟨_, ?_, Or.inl rfl, ?_⟩
    · apply List.ne_nil_of_length_pos
      rw [hname.1]
      decide
    · rw [cString_of_inTable hname.2, hread]
      exact ⟨length_drop_ip a, ip_of_isTor htor⟩

theorem prints_lower_iff (h : addr.setSpecial strName = (true, a)) :
    InNamedNetwork strName a ∧ a.toStringIP nameInfo = strName.map Char.toLower ↔
      ∃ name, IsOverlayName name ∧ strName = name ++ onionSuffix := by
  obtain ⟨name, -, hsuffix, hlength, hip⟩ := setSpecial_eq_true.mp h
  rw [toStringIP_of_isTor (isTor_of_ip hip), drop_ip hip]
  have hlower : onionSuffix.map Char.toLower = onionSuffix := by decide
  constructor
  · rintro ⟨hnamed, hprints⟩
    cases hsuffix with
    | inl honion =>
      rw [honion, List.map_append, hlower] at hprints
      exact ⟨name, isOverlayName_of_map_toLower hlength (List.append_cancel_right hprints).symm, honion⟩
    | inr hi2p =>
      rw [hi2p, List.map_append] at hprints
      have hlast : some 'n' = some 'p' := by
        simpa [i2pSuffix, onionSuffix] using congrArg List.getLast? hprints
      exact absurd hlast (by decide)
  · rintro ⟨name', hname, honion⟩
    have hsame : name' = name := by
      rcases hsuffix with heq | heq
      · exact List.append_cancel_right (honion.symm.trans heq)
      · have hlast : some 'n' = some 'p' := by
          simpa [i2pSuffix, onionSuffix] using congrArg List.getLast? (honion.symm.trans heq)
        exact absurd hlast (by decide)
    subst hsame
    rw [cString_of_inTable hname.2, honion, List.map_append, hlower,
      (encode_decode_of_isOverlayName hname).2]
    exact ⟨Or.inl ⟨⟨name', rfl⟩, isTor_of_ip hip⟩, rfl⟩

/-- An overlay address is read back just if it is not of the second network, and an accepted name is printed
back just if it is sixteen characters of the alphabet and the first suffix. -/
theorem setSpecial_iff (nameInfo : CNetAddr → Option (List Char)) :
    (∀ addr a : CNetAddr, a.isTor = true ∨ a.isI2P = true →
      (addr.setSpecial (a.toStringIP nameInfo) = (true, a) ↔ a.isI2P = false)) ∧
    ∀ (addr a : CNetAddr) strName, addr.setSpecial strName = (true, a) →
      (InNamedNetwork strName a ∧ a.toStringIP nameInfo = strName.map Char.toLower ↔
        ∃ name, IsOverlayName name ∧ strName = name ++ onionSuffix) :=
  ⟨fun _ _ ↦ setSpecial_toStringIP_iff, fun _ _ _ ↦ prints_lower_iff⟩

/-- An address of the second network is read back as one of the first. -/
theorem not_setSpecial_toStringIP :
    ¬∀ (nameInfo : CNetAddr → Option (List Char)) (addr a : CNetAddr), a.isTor = true ∨ a.isI2P = true →
      addr.setSpecial (a.toStringIP nameInfo) = (true, a) := by
  intro hall
  let a : CNetAddr := ⟨pchGarliCat ++ List.replicate 10 0, rfl⟩
  have hread := hall (fun _ ↦ none) .init a (Or.inr rfl)
  rw [setSpecial_toStringIP_iff (Or.inr rfl)] at hread
  cases hread

end Electra.Net
