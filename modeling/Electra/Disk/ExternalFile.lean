import Electra.Disk.BlockFile
import Electra.Foundations.PatternSearch

/-!
# Importing an external block file

`LoadExternalBlockFile` searches the message start through a buffer and reads the size and the block
behind it.  The position in the file has 32 bits, and an exception ends the whole import.  The verdicts
of `ProcessBlock` come from outside.
-/

namespace Electra.Disk

open Chain Net Foundations.Codec Foundations.Outcome Foundations.PatternSearch

/-! ## The loop -/

/-- The position, how many blocks were accepted, and which blocks were passed to `ProcessBlock`, each
with the position behind its message start. -/
structure ImportState where
  nPos : UInt32
  nLoaded : ℕ
  passed : List (ℕ × CBlock)

/-- The loop has ended, or it goes on. -/
inductive Turn
  | ended (st : ImportState)
  | goesOn (st : ImportState)

def nBuffer : ℕ := 65536

/-- `(unsigned int)-1`. -/
def nPosEnd : UInt32 := 0xffffffff

variable (P : ChainParams) (sizes : ElementSizes)

/-- The size behind a message start, and the block if the size is in range. -/
def readRecord : Reader (ℕ × Option CBlock) := do
  let nSize ← readUInt 4
  if 0 < nSize ∧ nSize ≤ MAX_BLOCK_SIZE then
    let block ← Net.readBlock sizes SER_DISK
    return (nSize, some block)
  else
    return (nSize, none)

/-- Read from an offset of the file. -/
def recordFrom (file : List UInt8) (nPos : ℕ) : Except String ((ℕ × Option CBlock) × ReadState) :=
  (readRecord sizes).run ⟨.ofBytes (file.drop nPos), []⟩

/-- The message start stands at an offset. -/
abbrev StartsAt (file : List UInt8) (n : ℕ) : Prop := OccursAt (pchMessageStart P.fTestNet) file n

/-- What the search sees in the buffer that is read from an offset on. -/
abbrev lookAt (file : List UInt8) (nPos : ℕ) : Look :=
  look ((pchMessageStart P.fTestNet).headD 0) (pchMessageStart P.fTestNet) nBuffer ((file.drop nPos).take nBuffer)

/-- The offsets to search on from, whatever the verdicts, if a position had no bound. -/
inductive Searched (file : List UInt8) : ℕ → Prop
  | start : Searched file 0
  | skipped {nPos n : ℕ} (searched : Searched file nPos) (more : nPos + 8 < file.length)
      (looked : lookAt P file nPos = .skip n) : Searched file (nPos + n)
  | behind {nPos n : ℕ} {found : ℕ × Option CBlock} {rest : ReadState} (searched : Searched file nPos)
      (more : nPos + 8 < file.length) (looked : lookAt P file nPos = .found n)
      (read : recordFrom sizes file (nPos + n + 4) = .ok (found, rest)) : Searched file (nPos + n + 4)
  | accepted {nPos n nSize : ℕ} {block : CBlock} {rest : ReadState} (searched : Searched file nPos)
      (more : nPos + 8 < file.length) (looked : lookAt P file nPos = .found n)
      (read : recordFrom sizes file (nPos + n + 4) = .ok ((nSize, some block), rest)) :
      Searched file (nPos + n + 8 + nSize)

/-- All that a turn can do, for either verdict, if the offsets have 32 bits. -/
inductive TurnSpec (file : List UInt8) (st : ImportState) : (Bool → Turn) → Prop
  | atEnd (short : file.length ≤ st.nPos.toNat + 8) :
      TurnSpec file st fun _ ↦ .ended { st with nPos := nPosEnd }
  | searched {nPos : UInt32} (inside : st.nPos.toNat < file.length) (later : st.nPos.toNat < nPos.toNat)
      (none : ∀ k, st.nPos.toNat ≤ k → k < nPos.toNat → ¬ StartsAt P file k)
      (reached : Searched P sizes file nPos.toNat) :
      TurnSpec file st fun _ ↦ .goesOn { st with nPos }
  | unreadable {m : ℕ} {text : String} {nPos : UInt32} (later : st.nPos.toNat ≤ m)
      (starts : StartsAt P file m) (none : ∀ k, st.nPos.toNat ≤ k → k < m → ¬ StartsAt P file k)
      (unread : recordFrom sizes file (m + 4) = .error text) :
      TurnSpec file st fun _ ↦ .ended { st with nPos }
  | passedOver {m nSize : ℕ} {rest : ReadState} {nPos : UInt32} (later : st.nPos.toNat ≤ m)
      (starts : StartsAt P file m) (none : ∀ k, st.nPos.toNat ≤ k → k < m → ¬ StartsAt P file k)
      (read : recordFrom sizes file (m + 4) = .ok ((nSize, .none), rest)) (next : nPos.toNat = m + 4)
      (reached : Searched P sizes file nPos.toNat) :
      TurnSpec file st fun _ ↦ .goesOn { st with nPos }
  | record {m nSize : ℕ} {nLoaded : Bool → ℕ} {block : CBlock} {rest : ReadState} {nPos : Bool → UInt32}
      (later : st.nPos.toNat ≤ m) (starts : StartsAt P file m)
      (none : ∀ k, st.nPos.toNat ≤ k → k < m → ¬ StartsAt P file k)
      (read : recordFrom sizes file (m + 4) = .ok ((nSize, some block), rest))
      (rejected : (nPos false).toNat = m + 4) (accepted : (nPos true).toNat = m + 8 + nSize)
      (reached : ∀ fAccepted, Searched P sizes file (nPos fAccepted).toNat) :
      TurnSpec file st fun fAccepted ↦
        .goesOn ⟨nPos fAccepted, nLoaded fAccepted, st.passed ++ [(m + 4, block)]⟩
  | lastRecord {m nSize : ℕ} {nLoaded : Bool → ℕ} {block : CBlock} {rest : ReadState} {nPos : UInt32}
      (later : st.nPos.toNat ≤ m) (starts : StartsAt P file m)
      (none : ∀ k, st.nPos.toNat ≤ k → k < m → ¬ StartsAt P file k)
      (read : recordFrom sizes file (m + 4) = .ok ((nSize, some block), rest))
      (rejected : nPos.toNat = m + 4) (short : file.length ≤ m + 16 + nSize)
      (reached : Searched P sizes file nPos.toNat) :
      TurnSpec file st fun fAccepted ↦
        if fAccepted then .ended ⟨nPosEnd, nLoaded true, st.passed ++ [(m + 4, block)]⟩
        else .goesOn ⟨nPos, nLoaded false, st.passed ++ [(m + 4, block)]⟩

variable {P sizes} {file : List UInt8} {st : ImportState}

theorem pchMessageStart_ne_nil (fTestNet : Bool) : pchMessageStart fTestNet ≠ [] := by
  cases fTestNet <;> exact List.cons_ne_nil _ _

end Electra.Disk
