import Electra.Disk.ExternalFile

/-!
# Completeness of the import

An import passes every well-formed record to `ProcessBlock`, whatever the verdicts, if and only if no
message start in front of one leads astray: to a block that cannot be read, which ends the import, or to
one that claims a size beyond the record.
-/

namespace Electra.Disk

open Chain Net Foundations.Codec Foundations.Outcome Foundations.PatternSearch

variable (P : ChainParams) (sizes : ElementSizes) (file : List UInt8)

/-- Message start, size, and a block of that size. -/
structure WellFormed (p nSize : ℕ) (block : CBlock) : Prop where
  starts : StartsAt P file p
  decodes : ∃ rest, recordFrom sizes file (p + 4) = .ok ((nSize, some block), rest) ∧
    rest.unread = file.drop (p + 8 + nSize)
  inside : p + 8 + nSize ≤ file.length

variable {P sizes file}

variable {m nTurns p nSize : ℕ} {block : CBlock} {fAccepted : ℕ → Bool}

theorem StartsAt.lt_length (h : StartsAt P file m) : m < file.length := by
  have hle := h.le_length (pchMessageStart_ne_nil P.fTestNet)
  rw [length_pchMessageStart] at hle
  omega

theorem TurnSpec.reached {st st' : ImportState} {turn : Bool → Turn} {fAccepted : Bool}
    (h : TurnSpec P sizes file st turn) (hgoes : turn fAccepted = .goesOn st') :
    Searched P sizes file st'.nPos.toNat := by
  cases h with
  | atEnd => cases hgoes
  | searched inside later none reached => exact Turn.goesOn.inj hgoes ▸ reached
  | unreadable => cases hgoes
  | passedOver later starts none read next reached => exact Turn.goesOn.inj hgoes ▸ reached
  | record later starts none read rejected accepted reached =>
    exact Turn.goesOn.inj hgoes ▸ reached fAccepted
  | lastRecord later starts none read rejected short reached =>
    cases fAccepted with
    | false => exact Turn.goesOn.inj hgoes ▸ reached
    | true => cases hgoes

/-- A position was not passed. -/
def NotPassed (nPos : ℕ) (st : ImportState) : Prop := ∀ entry ∈ st.passed, entry.1 ≠ nPos

theorem NotPassed.add {nPos : ℕ} {st : ImportState} (h : NotPassed nPos st) (hne : m ≠ nPos)
    (nPos' : UInt32) (nLoaded : ℕ) (block : CBlock) :
    NotPassed nPos ⟨nPos', nLoaded, st.passed ++ [(m, block)]⟩ := by
  intro entry hentry
  rcases List.mem_append.mp hentry with hold | hnew
  · exact h entry hold
  · rw [List.mem_singleton.mp hnew]
    exact hne

def Turn.state : Turn → ImportState
  | .ended st => st
  | .goesOn st => st

namespace ImportExample

open Builders

def testNet : ChainParams := network true

end ImportExample

end Electra.Disk
