import Electra.Net.OverlayAddress
import Electra.Text.Money

/-!
# Hosts and ports

`SplitHostPort` takes what follows the last colon for a port if no other colon is in front of it, outside
brackets.  The number is read as a `long` and held in an `int`, so that a larger one may look like a port.
-/

namespace Electra.Net

open Text Foundations.Numeral

/-- `strtol` with base 10: the value, and the text that `endp` points at. -/
def strtol (s : List Char) : ℤ × List Char :=
  let p := (takeSign (s.dropWhile isSpace)).2
  if p.takeWhile Char.isDigit = [] then (0, s) else (atoi64 s, p.dropWhile Char.isDigit)

/-- What an `int` holds of a `long`. -/
def int32 (n : ℤ) : ℤ := (n + 2 ^ 31) % 2 ^ 32 - 2 ^ 31

/-- `find_last_of` for a colon. -/
def findLastColon (str : List Char) : Option ℕ :=
  match (str.reverse.dropWhile (· ≠ ':')).length with
  | 0 => none
  | n + 1 => some n

def stripBrackets (str : List Char) : List Char :=
  if str.head? = some '[' ∧ str.getLast? = some ']' then (str.drop 1).take (str.length - 2) else str

/-- The port and the host that are given back. -/
def splitHostPort (str : List Char) (portOut : ℤ) : ℤ × List Char :=
  match findLastColon str with
  | none => (portOut, stripBrackets str)
  | some colon =>
    let fBracketed := str.head? = some '[' ∧ str[colon - 1]? = some ']'
    -- For a colon in front the search starts from the end again.
    let fMultiColon := (findLastColon (if colon = 0 then str else str.take colon)).isSome
    let (value, endp) := strtol (cString (str.drop (colon + 1)))
    let n := int32 value
    if (colon = 0 ∨ fBracketed ∨ ¬fMultiColon) ∧ endp = [] ∧ 0 ≤ n then
      (if 0 < n ∧ n < 0x10000 then n else portOut, stripBrackets (str.take colon))
    else (portOut, stripBrackets str)

def CService.toStringPort (addr : CService) : List Char := Nat.toDigits 10 addr.port.toNat

def CService.toStringIPPort (nameInfo : CNetAddr → Option (List Char)) (addr : CService) : List Char :=
  if addr.isIPv4 || addr.isTor || addr.isI2P then addr.toStringIP nameInfo ++ ':' :: addr.toStringPort
  else '[' :: (addr.toStringIP nameInfo ++ ']' :: ':' :: addr.toStringPort)

/-- A text is a decimal number, with blanks and a sign in front or without. -/
def IsDecimal (text : List Char) (v : ℤ) : Prop :=
  ∃ blanks sign digits, text = blanks ++ (sign ++ digits) ∧ (∀ c ∈ blanks, isSpace c = true) ∧
    IsDigits digits ∧ digits ≠ [] ∧
      (sign = ['-'] ∧ v = -ofDigits digits ∨ (sign = ['+'] ∨ sign = []) ∧ v = ofDigits digits)

section

variable {before text str digits : List Char} {v n portOut : ℤ}

/-- What is read to its end is empty, or a number. -/
theorem strtol_end (h : (strtol text).2 = []) :
    text = [] ∨ ∃ v, IsDecimal text v ∧ (strtol text).1 = max (-2 ^ 63) (min v (2 ^ 63 - 1)) := by
  unfold strtol at h ⊢
  obtain ⟨sign, hsign, hcases⟩ := takeSign_cases (text.dropWhile isSpace)
  generalize hp : takeSign (text.dropWhile isSpace) = p at h hsign hcases ⊢
  obtain ⟨fNegative, p⟩ := p
  simp only at h hsign hcases ⊢
  by_cases hnone : p.takeWhile Char.isDigit = []
  · rw [if_pos hnone] at h
    exact Or.inl h
  · rw [if_neg hnone] at h ⊢
    right
    have hdigits : p.takeWhile Char.isDigit = p := by
      rw [← List.append_nil (p.takeWhile Char.isDigit), ← h, List.takeWhile_append_dropWhile]
    rw [hdigits] at hnone
    have hall : IsDigits p := List.takeWhile_eq_self_iff.mp hdigits
    refine ⟨if fNegative then -ofDigits p else ofDigits p,
      ⟨text.takeWhile isSpace, sign, p, ?_, ?_, hall, hnone, ?_⟩, ?_⟩
    · rw [← hsign, List.takeWhile_append_dropWhile]
    · exact fun c hc ↦ List.mem_takeWhile_imp hc
    · rcases hcases with ⟨hsign, rfl⟩ | ⟨hsign, rfl⟩
      · exact Or.inl ⟨hsign, rfl⟩
      · exact Or.inr ⟨hsign, rfl⟩
    · simp only [atoi64, hp, hdigits]
      split <;> omega

theorem strtol_of_isDecimal (h : IsDecimal text v) :
    strtol text = (max (-2 ^ 63) (min v (2 ^ 63 - 1)), []) := by
  obtain ⟨blanks, sign, digits, rfl, hblanks, hdigits, hne, hsign⟩ := h
  have hdrop : (blanks ++ (sign ++ digits)).dropWhile isSpace = sign ++ digits := by
    rw [List.dropWhile_append_of_pos hblanks]
    rcases hsign with ⟨rfl, -⟩ | ⟨rfl | rfl, -⟩
    · rfl
    · rfl
    · exact dropWhile_space_digits hdigits
  have htake : takeSign (sign ++ digits) = (decide (sign = ['-']), digits) := by
    rcases hsign with ⟨rfl, -⟩ | ⟨rfl | rfl, -⟩
    · rfl
    · rfl
    · exact takeSign_digits hdigits
  have hend : digits.dropWhile Char.isDigit = [] := List.dropWhile_eq_nil_iff.mpr hdigits
  simp only [strtol, atoi64, hdrop, htake, takeWhile_digits hdigits, hend, if_neg hne]
  rcases hsign with ⟨rfl, rfl⟩ | ⟨rfl | rfl, rfl⟩
  · simp only [decide_true, if_true, Prod.mk.injEq, and_true]
    omega
  · simp only [List.cons.injEq, and_true, Prod.mk.injEq]
    rw [if_neg (by decide)]
    omega
  · simp only [Prod.mk.injEq, and_true]
    rw [if_neg (by decide)]
    omega

theorem isDecimal_digits (h : IsDigits digits) (hne : digits ≠ []) : IsDecimal digits (ofDigits digits) :=
  ⟨[], [], digits, rfl, fun _ hc ↦ absurd hc List.not_mem_nil, h, hne, Or.inr ⟨Or.inr rfl, rfl⟩⟩

theorem not_mem_of_isDecimal (h : IsDecimal text v) : '\x00' ∉ text := by
  obtain ⟨blanks, sign, digits, rfl, hblanks, hdigits, -, hsign⟩ := h
  intro hmem
  rcases List.mem_append.mp hmem with hmem | hmem
  · exact absurd (hblanks _ hmem) (by decide)
  · rcases List.mem_append.mp hmem with hmem | hmem
    · rcases hsign with ⟨rfl, -⟩ | ⟨rfl | rfl, -⟩ <;> exact absurd hmem (by decide)
    · exact absurd (hdigits _ hmem) (by decide)

theorem cString_of_not_mem (h : '\x00' ∉ text) : cString text = text := by
  rw [cString, List.takeWhile_eq_self_iff]
  exact fun c hc ↦ decide_eq_true fun heq ↦ h (heq ▸ hc)

def Bracketed (str : List Char) : Prop := str.head? = some '[' ∧ str.getLast? = some ']'

instance : Decidable (Bracketed str) := inferInstanceAs (Decidable (_ ∧ _))

theorem findLastColon_eq_none : findLastColon str = none ↔ ':' ∉ str := by
  have hsplit : findLastColon str = none ↔ str.reverse.dropWhile (· ≠ ':') = [] := by
    rw [← List.length_eq_zero_iff, findLastColon]
    cases (str.reverse.dropWhile (· ≠ ':')).length <;> simp
  rw [hsplit, List.dropWhile_eq_nil_iff]
  simp only [List.mem_reverse, decide_eq_true_eq]
  exact ⟨fun h hmem ↦ h _ hmem rfl, fun h c hc heq ↦ h (heq ▸ hc)⟩

theorem findLastColon_append (h : ':' ∉ text) : findLastColon (before ++ ':' :: text) = some before.length := by
  have hdrop : (before ++ ':' :: text).reverse.dropWhile (· ≠ ':') = ':' :: before.reverse := by
    rw [List.reverse_append, List.reverse_cons, List.append_assoc, List.singleton_append,
      List.dropWhile_append_of_pos, List.dropWhile_cons_of_neg (by simp)]
    exact fun c hc ↦ decide_eq_true fun heq ↦ h (heq ▸ List.mem_reverse.mp hc)
  unfold findLastColon
  rw [hdrop, List.length_cons, List.length_reverse]

/-- The last colon of a text, if there is one. -/
theorem exists_last_colon (str : List Char) :
    ':' ∉ str ∨ ∃ before text, str = before ++ ':' :: text ∧ ':' ∉ text := by
  by_cases h : ':' ∈ str
  · right
    obtain ⟨text, before, hsplit, hnot⟩ := List.eq_append_cons_of_mem (List.mem_reverse.mpr h)
    refine ⟨before.reverse, text.reverse, ?_, fun hmem ↦ hnot (List.mem_reverse.mp hmem)⟩
    rw [← List.reverse_reverse str, hsplit, List.reverse_append, List.reverse_cons, List.append_assoc,
      List.singleton_append]
  · exact Or.inl h

theorem last_colon_unique {before' text' : List Char} (h : ':' ∉ text) (h' : ':' ∉ text')
    (heq : before ++ ':' :: text = before' ++ ':' :: text') : before = before' ∧ text = text' := by
  have hlength : findLastColon (before ++ ':' :: text) = some before.length := findLastColon_append h
  rw [heq, findLastColon_append h'] at hlength
  obtain ⟨hbefore, htail⟩ := List.append_inj heq (Option.some.inj hlength).symm
  exact ⟨hbefore, (List.cons.inj htail).2⟩

theorem splitHostPort_of_not_mem (h : ':' ∉ str) : splitHostPort str portOut = (portOut, stripBrackets str) := by
  unfold splitHostPort
  rw [findLastColon_eq_none.mpr h]

/-- The port is split off when the host in front of it is in brackets or has no colon. -/
theorem splitHostPort_of_colon (h : ':' ∉ text) : splitHostPort (before ++ ':' :: text) portOut =
    if (Bracketed before ∨ ':' ∉ before) ∧ (strtol (cString text)).2 = [] ∧
        0 ≤ int32 (strtol (cString text)).1 then
      (if 0 < int32 (strtol (cString text)).1 ∧ int32 (strtol (cString text)).1 < 0x10000 then
        int32 (strtol (cString text)).1 else portOut, stripBrackets before)
    else (portOut, stripBrackets (before ++ ':' :: text)) := by
  have htext : (before ++ ':' :: text).drop (before.length + 1) = text := by
    rw [← List.drop_drop, List.drop_left, List.drop_one, List.tail_cons]
  have hsplits : (before.length = 0 ∨
      ((before ++ ':' :: text).head? = some '[' ∧ (before ++ ':' :: text)[before.length - 1]? = some ']') ∨
        ¬(findLastColon (if before.length = 0 then before ++ ':' :: text else before)).isSome) ↔
      (Bracketed before ∨ ':' ∉ before) := by
    cases hbefore : before with
    | nil => simp
    | cons c rest =>
      have hlast : (c :: rest)[(c :: rest).length - 1]? = (c :: rest).getLast? := List.getLast?_eq_getElem?.symm
      have hlt : (c :: rest).length - 1 < (c :: rest).length := by simp
      rw [if_neg (by simp), List.getElem?_append_left hlt, hlast, Option.not_isSome_iff_eq_none,
        findLastColon_eq_none]
      simp [Bracketed]
  unfold splitHostPort
  rw [findLastColon_append h]
  simp only [htext, List.take_left, hsplits]

/-- A port is changed only to the decimal number behind the last colon, and the host in front of it is in
brackets or has no colon. -/
def SetsWrittenPort (str : List Char) : Prop :=
  ∀ portOut, (splitHostPort str portOut).1 ≠ portOut →
    1 ≤ (splitHostPort str portOut).1 ∧ (splitHostPort str portOut).1 ≤ 65535 ∧
      ∃ before text, str = before ++ ':' :: text ∧ ':' ∉ text ∧ (Bracketed before ∨ ':' ∉ before) ∧
        IsDecimal text (splitHostPort str portOut).1

/-- A number behind the last colon that looks like a port once it is held in an `int` is one, and no NUL
follows it. -/
def PortFits (str : List Char) : Prop :=
  ∀ before text v, str = before ++ ':' :: text → ':' ∉ text → (Bracketed before ∨ ':' ∉ before) →
    IsDecimal (cString text) v → -2 ^ 63 ≤ v → v < 2 ^ 63 → 1 ≤ v % 2 ^ 32 → v % 2 ^ 32 ≤ 65535 →
      1 ≤ v ∧ v ≤ 65535 ∧ '\x00' ∉ text

theorem setsWrittenPort_iff (str : List Char) : SetsWrittenPort str ↔ PortFits str := by
  constructor
  · intro h before text v hstr htext hhost hdecimal hlow hhigh hone hmax
    have hint : int32 (max (-2 ^ 63) (min v (2 ^ 63 - 1))) = v % 2 ^ 32 := by
      unfold int32
      omega
    have hsplit : (splitHostPort str 0).1 = v % 2 ^ 32 := by
      rw [hstr, splitHostPort_of_colon htext, strtol_of_isDecimal hdecimal]
      simp only [hint]
      rw [if_pos ⟨hhost, trivial, by omega⟩, if_pos (by omega)]
    obtain ⟨-, -, before', text', hstr', htext', -, hwritten⟩ := h 0 (by omega)
    obtain ⟨rfl, rfl⟩ := last_colon_unique htext htext' (hstr.symm.trans hstr')
    have hnul := not_mem_of_isDecimal hwritten
    have hread := strtol_of_isDecimal hdecimal
    rw [cString_of_not_mem hnul, strtol_of_isDecimal hwritten, hsplit] at hread
    have hsame := congrArg Prod.fst hread
    simp only at hsame
    exact ⟨by omega, by omega, hnul⟩
  · intro h portOut hchanged
    rcases exists_last_colon str with hnone | ⟨before, text, rfl, htext⟩
    · rw [splitHostPort_of_not_mem hnone] at hchanged
      exact absurd rfl hchanged
    · rw [splitHostPort_of_colon htext] at hchanged ⊢
      split at hchanged
      · next hcond =>
        rw [if_pos hcond]
        simp only at hchanged ⊢
        split at hchanged
        · next hrange =>
          rw [if_pos hrange]
          obtain ⟨hhost, hend, -⟩ := hcond
          rcases strtol_end hend with hempty | ⟨v, hdecimal, hvalue⟩
          · rw [hempty] at hrange
            exact absurd hrange.1 (by decide)
          · rw [hvalue] at hrange ⊢
            have hint : int32 (max (-2 ^ 63) (min v (2 ^ 63 - 1))) = v % 2 ^ 32 ∧ -2 ^ 63 ≤ v ∧ v < 2 ^ 63 := by
              unfold int32 at hrange ⊢
              omega
            rw [hint.1] at hrange ⊢
            have hfits := h before text v rfl htext hhost hdecimal hint.2.1 hint.2.2 (by omega) (by omega)
            have hsame : v % 2 ^ 32 = v := by omega
            rw [cString_of_not_mem hfits.2.2] at hdecimal
            rw [hsame]
            exact ⟨hfits.1, hfits.2.1, before, text, rfl, htext, hhost, hdecimal⟩
        · exact absurd rfl hchanged
      · exact absurd rfl hchanged

theorem splitHostPort_toDigits (hhost : Bracketed before ∨ ':' ∉ before) {port : UInt16} (hport : port ≠ 0) :
    splitHostPort (before ++ ':' :: Nat.toDigits 10 port.toNat) portOut =
      ((port.toNat : ℤ), stripBrackets before) := by
  have hdigits := isDigits_toDigits port.toNat
  have hcolon : ':' ∉ Nat.toDigits 10 port.toNat := fun hmem ↦ absurd (hdigits _ hmem) (by decide)
  have hdecimal := isDecimal_digits hdigits (Nat.toDigits_ne_nil)
  rw [ofDigits_toDigits] at hdecimal
  have hpos : 0 < port.toNat := Nat.pos_of_ne_zero fun heq ↦ hport (UInt16.toNat_inj.mp heq)
  have hlt := port.toNat_lt
  have hint : int32 (max (-2 ^ 63) (min (port.toNat : ℤ) (2 ^ 63 - 1))) = port.toNat := by
    unfold int32
    omega
  rw [splitHostPort_of_colon hcolon, cString_of_not_mem (not_mem_of_isDecimal hdecimal),
    strtol_of_isDecimal hdecimal]
  simp only [hint]
  rw [if_pos ⟨hhost, trivial, by omega⟩, if_pos (by omega)]

theorem stripBrackets_of_not_mem (h : '[' ∉ str) : stripBrackets str = str := by
  apply if_neg
  rintro ⟨hhead, -⟩
  exact h (List.mem_of_mem_head? hhead)

theorem stripBrackets_bracketed (ip : List Char) : stripBrackets ('[' :: (ip ++ [']'])) = ip := by
  have hlast : ('[' :: (ip ++ [']'])).getLast? = some ']' := by
    rw [← List.cons_append, List.getLast?_concat]
  rw [stripBrackets, if_pos ⟨rfl, hlast⟩]
  simp

/-- A character that is neither a colon nor a bracket. -/
def Plain (c : Char) : Prop := c ≠ ':' ∧ c ≠ '['

theorem plain_of_isDigit {c : Char} (h : c.isDigit = true) : Plain c :=
  ⟨fun heq ↦ absurd h (heq ▸ by decide), fun heq ↦ absurd h (heq ▸ by decide)⟩

theorem plain_encodeBase32 {vch : List UInt8} (h : vch.length = 10) {c : Char} (hc : c ∈ encodeBase32 vch) :
    Plain c := by
  obtain ⟨ys, -, hlt, hstr⟩ := encodeBase32_of_length h
  rw [hstr] at hc
  obtain ⟨y, hy, rfl⟩ := List.mem_map.mp hc
  have hsymbols : ∀ y < 2 ^ 5, symbol pbase32 y ≠ ':' ∧ symbol pbase32 y ≠ '[' := by decide
  exact hsymbols y (hlt y hy)

/-- Only digits and points. -/
def Numeric (name : List Char) : Prop := ∀ c ∈ name, c.isDigit = true ∨ c = '.'

theorem Numeric.plain {name : List Char} (h : Numeric name) {c : Char} (hc : c ∈ name) : Plain c := by
  rcases h c hc with hdigit | rfl
  · exact plain_of_isDigit hdigit
  · exact ⟨by decide, by decide⟩

theorem numeric_dotted (addr : CNetAddr) : Numeric (dotted addr) := by
  have hdigits : ∀ n, Numeric (Nat.toDigits 10 n) := fun n c hc ↦ Or.inl (isDigits_toDigits n c hc)
  have hpoint : Numeric ['.'] := fun c hc ↦ Or.inr (List.mem_singleton.mp hc)
  have happend : ∀ {s s'}, Numeric s → Numeric s' → Numeric (s ++ s') := fun hs hs' c hc ↦
    (List.mem_append.mp hc).elim (hs c) (hs' c)
  have hparts : ∀ ns : List ℕ, Numeric (List.intercalate ['.'] (ns.map (Nat.toDigits 10))) := by
    intro ns
    induction ns with
    | nil => exact fun c hc ↦ absurd hc List.not_mem_nil
    | cons n ns ih =>
      cases ns with
      | nil => simpa [List.intercalate] using hdigits n
      | cons n' ns =>
        have hsplit : List.intercalate ['.'] ((n :: n' :: ns).map (Nat.toDigits 10)) =
            Nat.toDigits 10 n ++ (['.'] ++ List.intercalate ['.'] ((n' :: ns).map (Nat.toDigits 10))) := by
          simp [List.intercalate]
        rw [hsplit]
        exact happend (hdigits n) (happend hpoint ih)
  exact hparts ([3, 2, 1, 0].map fun n ↦ (addr.getByte n).toNat)

end

section

variable {nameInfo : CNetAddr → Option (List Char)}

theorem plain_toStringIP
    (hnumeric : ∀ addr name, addr.isIPv4 = true → nameInfo addr = some name → Numeric name) {addr : CNetAddr}
    (h : addr.isIPv4 = true ∨ addr.isTor = true ∨ addr.isI2P = true) {c : Char}
    (hc : c ∈ addr.toStringIP nameInfo) : Plain c := by
  unfold CNetAddr.toStringIP at hc
  split at hc
  · cases List.mem_append.mp hc with
    | inl hname => exact plain_encodeBase32 (length_drop_ip addr) hname
    | inr hsuffix =>
      have hnone : ':' ∉ onionSuffix ∧ '[' ∉ onionSuffix := by decide
      exact ⟨fun heq ↦ hnone.1 (heq ▸ hsuffix), fun heq ↦ hnone.2 (heq ▸ hsuffix)⟩
  · next htor =>
    split at hc
    · cases List.mem_append.mp hc with
      | inl hname => exact plain_encodeBase32 (length_drop_ip addr) hname
      | inr hsuffix =>
        have hnone : ':' ∉ i2pSuffix ∧ '[' ∉ i2pSuffix := by decide
        exact ⟨fun heq ↦ hnone.1 (heq ▸ hsuffix), fun heq ↦ hnone.2 (heq ▸ hsuffix)⟩
    · next hi2p =>
      have hipv4 : addr.isIPv4 = true := h.resolve_right fun hor ↦ hor.elim htor hi2p
      split at hc
      · next name hinfo =>
        exact (hnumeric addr name hipv4 hinfo).plain hc
      · rw [if_pos hipv4] at hc
        exact (numeric_dotted addr).plain hc

theorem splitHostPort_toStringIPPort
    (hnumeric : ∀ addr name, addr.isIPv4 = true → nameInfo addr = some name → Numeric name)
    (s : CService) (portOut : ℤ) (hport : s.port ≠ 0) :
    splitHostPort (s.toStringIPPort nameInfo) portOut =
      ((s.port.toNat : ℤ), s.toStringIP nameInfo) := by
  unfold CService.toStringIPPort CService.toStringPort
  split
  · next hplain =>
    simp only [Bool.or_eq_true, or_assoc] at hplain
    have hall := fun c ↦ @plain_toStringIP nameInfo hnumeric s.toCNetAddr hplain c
    rw [splitHostPort_toDigits (Or.inr fun hmem ↦ (hall _ hmem).1 rfl) hport,
      stripBrackets_of_not_mem fun hmem ↦ (hall _ hmem).2 rfl]
  · have hsplit : '[' :: (s.toStringIP nameInfo ++ ']' :: ':' :: Nat.toDigits 10 s.port.toNat) =
        ('[' :: (s.toStringIP nameInfo ++ [']'])) ++ ':' :: Nat.toDigits 10 s.port.toNat := by simp
    have hbracketed : Bracketed ('[' :: (s.toStringIP nameInfo ++ [']'])) := by
      refine ⟨rfl, ?_⟩
      rw [← List.cons_append, List.getLast?_concat]
    rw [hsplit, splitHostPort_toDigits (Or.inl hbracketed) hport, stripBrackets_bracketed]

/-- What `ToStringIPPort` prints is split into the port and the address.  A string sets a port that is not
written in it just if the number is beyond an `int`, or negative, or followed by a NUL. -/
theorem splitHostPort_iff (nameInfo : CNetAddr → Option (List Char))
    (hnumeric : ∀ addr name, addr.isIPv4 = true → nameInfo addr = some name → Numeric name) :
    (∀ (s : CService) portOut, s.port ≠ 0 →
      splitHostPort (s.toStringIPPort nameInfo) portOut =
      ((s.port.toNat : ℤ), s.toStringIP nameInfo)) ∧
    ∀ str, SetsWrittenPort str ↔ PortFits str :=
  ⟨splitHostPort_toStringIPPort hnumeric, setsWrittenPort_iff⟩

/-- 4294967376 is 80 in an `int`. -/
theorem not_setsWrittenPort : ¬∀ str, SetsWrittenPort str := by
  intro hall
  let text : List Char := ['4', '2', '9', '4', '9', '6', '7', '3', '7', '6']
  have hdecimal : IsDecimal text (ofDigits text) := isDecimal_digits (List.all_eq_true.mp (by decide)) (by decide)
  have hvalue : ofDigits text = 4294967376 := by decide
  have hfits := (setsWrittenPort_iff _).mp (hall ('h' :: ':' :: text)) ['h'] text (ofDigits text) rfl (by decide)
    (Or.inr (by decide)) hdecimal (by omega) (by omega) (by omega) (by omega)
  omega

def localhost : CService := { ip := pchIPv4 ++ [127, 0, 0, 1], length_ip := rfl, port := 8333 }

/-- What is printed of an IPv4 address. -/
def numericInfo (addr : CNetAddr) : Option (List Char) := if addr.isIPv4 then some (dotted addr) else none

theorem splitHostPort_localhost :
    splitHostPort ['1', '2', '7', '.', '0', '.', '0', '.', '1', ':', '8', '3', '3', '3'] (-1) =
      (8333, ['1', '2', '7', '.', '0', '.', '0', '.', '1']) := by
  have hnumeric : ∀ addr name, addr.isIPv4 = true → numericInfo addr = some name → Numeric name := by
    intro addr name hipv4 hname
    have hdotted : dotted addr = name := by simpa [numericInfo, hipv4] using hname
    rw [← hdotted]
    exact numeric_dotted addr
  have hip : localhost.toStringIP numericInfo = ['1', '2', '7', '.', '0', '.', '0', '.', '1'] := by decide
  have hprinted : localhost.toStringIPPort numericInfo =
      ['1', '2', '7', '.', '0', '.', '0', '.', '1', ':', '8', '3', '3', '3'] := by decide
  have hsplit := (splitHostPort_iff numericInfo hnumeric).1 localhost (-1) (by decide)
  rw [hprinted, hip] at hsplit
  exact hsplit

end

end Electra.Net
