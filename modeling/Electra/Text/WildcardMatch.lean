import Mathlib.Data.List.Forall2
import Mathlib.Data.List.TakeWhile
import Mathlib.Order.WellFounded

/-!
# Masks

`WildcardMatch` compares a string with a mask, where `*` stands for any string and `?` for any character.  It
decides which hosts other than this one may send RPC requests.
-/

namespace Electra.Text

def ANY_STRING : UInt8 := 42
def ANY_CHAR : UInt8 := 63

/-- `WildcardMatch` on pointers into strings that end with a NUL. -/
def wildcardMatchAt (psz mask : List UInt8) : Bool :=
  match mask with
  | [] => psz.isEmpty
  | c :: rest =>
      if c = ANY_STRING then
        wildcardMatchAt psz rest || match psz with
          | [] => false
          | _ :: psz => wildcardMatchAt psz (c :: rest)
      else
        match psz with
        | [] => false
        | d :: psz => if c ≠ ANY_CHAR ∧ d ≠ c then false else wildcardMatchAt psz rest
termination_by psz.length + mask.length

/-- `c_str()`. -/
def cStr (str : List UInt8) : List UInt8 := str.takeWhile (· ≠ 0)

def wildcardMatch (str mask : List UInt8) : Bool := wildcardMatchAt (cStr str) (cStr mask)

/-- What may stand in a string for a character of a mask. -/
def StandsFor (part : List UInt8) (c : UInt8) : Prop :=
  if c = ANY_STRING then True else if c = ANY_CHAR then part.length = 1 else part = [c]

/-- The string is the mask with each character replaced by what may stand for it. -/
def FitsMask (str mask : List UInt8) : Prop :=
  ∃ parts, List.Forall₂ StandsFor parts mask ∧ parts.flatten = str

variable {str mask psz : List UInt8} {c d : UInt8}

theorem fitsMask_nil : FitsMask str [] ↔ str = [] := by
  constructor
  · rintro ⟨parts, hparts, rfl⟩
    rw [List.forall₂_nil_right_iff.mp hparts]
    rfl
  · rintro rfl
    exact ⟨[], .nil, rfl⟩

theorem fitsMask_cons : FitsMask str (c :: mask) ↔
    ∃ part rest, StandsFor part c ∧ FitsMask rest mask ∧ str = part ++ rest := by
  constructor
  · rintro ⟨parts, hparts, rfl⟩
    obtain ⟨part, parts, hpart, hrest, rfl⟩ := List.forall₂_cons_right_iff.mp hparts
    exact ⟨part, parts.flatten, hpart, ⟨parts, hrest, rfl⟩, List.flatten_cons⟩
  · rintro ⟨part, rest, hpart, ⟨parts, hparts, rfl⟩, rfl⟩
    exact ⟨part :: parts, .cons hpart hparts, List.flatten_cons⟩

/-- A star stands for nothing, or for one character more. -/
theorem fitsMask_star (hstar : c = ANY_STRING) : FitsMask str (c :: mask) ↔
    FitsMask str mask ∨ ∃ d psz, str = d :: psz ∧ FitsMask psz (c :: mask) := by
  have hany : ∀ part, StandsFor part c := by
    intro part
    rw [StandsFor, if_pos hstar]
    trivial
  constructor
  · intro h
    obtain ⟨part, rest, -, hrest, rfl⟩ := fitsMask_cons.mp h
    cases part with
    | nil => exact .inl hrest
    | cons d part =>
      exact .inr ⟨d, part ++ rest, rfl, fitsMask_cons.mpr ⟨part, rest, hany part, hrest, rfl⟩⟩
  · rintro (h | ⟨d, psz, rfl, h⟩)
    · exact fitsMask_cons.mpr ⟨[], str, hany [], h, rfl⟩
    · obtain ⟨part, rest, -, hrest, rfl⟩ := fitsMask_cons.mp h
      exact fitsMask_cons.mpr ⟨d :: part, rest, hany _, hrest, rfl⟩

/-- Any other character of a mask stands for one character. -/
theorem fitsMask_char (hstar : c ≠ ANY_STRING) : FitsMask str (c :: mask) ↔
    ∃ d psz, str = d :: psz ∧ (c = ANY_CHAR ∨ d = c) ∧ FitsMask psz mask := by
  rw [fitsMask_cons]
  constructor
  · rintro ⟨part, rest, hpart, hrest, rfl⟩
    rw [StandsFor, if_neg hstar] at hpart
    split at hpart
    · next hchar =>
      obtain ⟨d, rfl⟩ := List.length_eq_one_iff.mp hpart
      exact ⟨d, rest, rfl, .inl hchar, hrest⟩
    · exact ⟨c, rest, by rw [hpart]; rfl, .inr rfl, hrest⟩
  · rintro ⟨d, psz, rfl, hsame, hrest⟩
    refine ⟨[d], psz, ?_, hrest, rfl⟩
    rw [StandsFor, if_neg hstar]
    split
    · rfl
    · next hchar => rw [hsame.resolve_left hchar]

theorem wildcardMatchAt_iff (psz mask : List UInt8) :
    wildcardMatchAt psz mask = true ↔ FitsMask psz mask := by
  induction hlength : psz.length + mask.length using Nat.strong_induction_on generalizing psz mask with
  | _ n ih =>
  subst hlength
  cases mask with
  | nil => rw [wildcardMatchAt, List.isEmpty_iff, fitsMask_nil]
  | cons c mask =>
    rw [wildcardMatchAt.eq_def]
    dsimp only
    have hrest := ih (psz.length + mask.length) (by simp) psz mask rfl
    by_cases hstar : c = ANY_STRING
    · rw [if_pos hstar, Bool.or_eq_true, hrest, fitsMask_star hstar]
      apply or_congr Iff.rfl
      cases psz with
      | nil => simp
      | cons d psz =>
        have hnext := ih (psz.length + (c :: mask).length) (by simp) psz (c :: mask) rfl
        simp [hnext]
    · rw [if_neg hstar, fitsMask_char hstar]
      cases psz with
      | nil => simp
      | cons d psz =>
        have hnext := ih (psz.length + mask.length) (by simp; omega) psz mask rfl
        by_cases hsame : c = ANY_CHAR ∨ d = c
        · simp [hsame, hnext]
        · simp [hsame]

theorem cStr_eq_self (h : 0 ∉ str) : cStr str = str := by
  apply List.takeWhile_eq_self_iff.mpr
  intro c hc
  exact decide_eq_true fun hzero ↦ h (hzero ▸ hc)

/-- `WildcardMatch` decides whether a string fits a mask. -/
theorem wildcardMatch_iff (hstr : 0 ∉ str) (hmask : 0 ∉ mask) :
    wildcardMatch str mask = true ↔ FitsMask str mask := by
  rw [wildcardMatch, cStr_eq_self hstr, cStr_eq_self hmask]
  exact wildcardMatchAt_iff str mask

/-- The mask `10.*`. -/
theorem wildcardMatch_local : wildcardMatch [49, 48, 46, 49] [49, 48, 46, 42] = true := by
  apply (wildcardMatch_iff (by decide) (by decide)).mpr
  exact ⟨[[49], [48], [46], [49]], .cons rfl (.cons rfl (.cons rfl (.cons trivial .nil))), rfl⟩

/-- Addresses and their text, which the networking library has. -/
structure Asio where
  V6 : Type
  isV4Compatible : V6 → Bool
  isV4Mapped : V6 → Bool
  toV4 : V6 → BitVec 32
  isLoopback : V6 → Bool
  toStringV4 : BitVec 32 → List UInt8
  toStringV6 : V6 → List UInt8

inductive Address (V6 : Type)
  | v4 (addr : BitVec 32)
  | v6 (addr : V6)

section ClientAllowed

variable (asio : Asio) (vAllow : List (List UInt8))

/-- The loopback subnet 127.0.0.0/8, or an address that is allowed. -/
def clientAllowedV4 (addr : BitVec 32) : Bool :=
  addr = 0x7f000001#32 || addr &&& 0xff000000#32 = 0x7f000000#32 ||
    vAllow.any fun strAllow ↦ wildcardMatch (asio.toStringV4 addr) strAllow

/-- IPv4-compatible and IPv4-mapped IPv6 addresses are treated as IPv4 addresses. -/
def clientAllowed : Address asio.V6 → Bool
  | .v4 addr => clientAllowedV4 asio vAllow addr
  | .v6 addr =>
      if asio.isV4Compatible addr || asio.isV4Mapped addr then clientAllowedV4 asio vAllow (asio.toV4 addr)
      else asio.isLoopback addr || vAllow.any fun strAllow ↦ wildcardMatch (asio.toStringV6 addr) strAllow

variable {asio} {vAllow}

/-- An IPv4 address of another host is allowed if and only if it fits one of the masks. -/
theorem clientAllowedV4_iff {addr : BitVec 32} (hremote : addr &&& 0xff000000#32 ≠ 0x7f000000#32)
    (htext : 0 ∉ asio.toStringV4 addr) (hallow : ∀ strAllow ∈ vAllow, 0 ∉ strAllow) :
    clientAllowedV4 asio vAllow addr = true ↔
      ∃ strAllow ∈ vAllow, FitsMask (asio.toStringV4 addr) strAllow := by
  have hother : addr ≠ 0x7f000001#32 := by
    rintro rfl
    exact hremote rfl
  rw [clientAllowedV4, decide_eq_false hother, decide_eq_false hremote, Bool.false_or, Bool.false_or,
    List.any_eq_true]
  exact exists_congr fun strAllow ↦ and_congr_right fun hmem ↦
    wildcardMatch_iff htext (hallow strAllow hmem)

end ClientAllowed

end Electra.Text
