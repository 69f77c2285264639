import Electra.Chain.BestChain

/-!
# Scripts and their opcodes

A script is read one instruction at a time: an opcode and the bytes it pushes.  The functions here
look at a script without running it.  A reading loop gets the length of the script as fuel, which is
enough because every instruction takes at least one byte (`length_lt_of_getOp`).
-/

namespace Electra.Script

open Chain

abbrev Valtype := List UInt8

def OP_0 : UInt8 := 0x00
def OP_PUSHDATA1 : UInt8 := 0x4c
def OP_PUSHDATA2 : UInt8 := 0x4d
def OP_PUSHDATA4 : UInt8 := 0x4e
def OP_1NEGATE : UInt8 := 0x4f
def OP_1 : UInt8 := 0x51
def OP_16 : UInt8 := 0x60

def OP_NOP : UInt8 := 0x61
def OP_IF : UInt8 := 0x63
def OP_NOTIF : UInt8 := 0x64
def OP_ELSE : UInt8 := 0x67
def OP_ENDIF : UInt8 := 0x68
def OP_VERIFY : UInt8 := 0x69
def OP_RETURN : UInt8 := 0x6a

def OP_TOALTSTACK : UInt8 := 0x6b
def OP_FROMALTSTACK : UInt8 := 0x6c
def OP_2DROP : UInt8 := 0x6d
def OP_2DUP : UInt8 := 0x6e
def OP_3DUP : UInt8 := 0x6f
def OP_2OVER : UInt8 := 0x70
def OP_2ROT : UInt8 := 0x71
def OP_2SWAP : UInt8 := 0x72
def OP_IFDUP : UInt8 := 0x73
def OP_DEPTH : UInt8 := 0x74
def OP_DROP : UInt8 := 0x75
def OP_DUP : UInt8 := 0x76
def OP_NIP : UInt8 := 0x77
def OP_OVER : UInt8 := 0x78
def OP_PICK : UInt8 := 0x79
def OP_ROLL : UInt8 := 0x7a
def OP_ROT : UInt8 := 0x7b
def OP_SWAP : UInt8 := 0x7c
def OP_TUCK : UInt8 := 0x7d

def OP_CAT : UInt8 := 0x7e
def OP_SUBSTR : UInt8 := 0x7f
def OP_LEFT : UInt8 := 0x80
def OP_RIGHT : UInt8 := 0x81
def OP_SIZE : UInt8 := 0x82

def OP_INVERT : UInt8 := 0x83
def OP_AND : UInt8 := 0x84
def OP_OR : UInt8 := 0x85
def OP_XOR : UInt8 := 0x86
def OP_EQUAL : UInt8 := 0x87
def OP_EQUALVERIFY : UInt8 := 0x88

def OP_1ADD : UInt8 := 0x8b
def OP_1SUB : UInt8 := 0x8c
def OP_2MUL : UInt8 := 0x8d
def OP_2DIV : UInt8 := 0x8e
def OP_NEGATE : UInt8 := 0x8f
def OP_ABS : UInt8 := 0x90
def OP_NOT : UInt8 := 0x91
def OP_0NOTEQUAL : UInt8 := 0x92

def OP_ADD : UInt8 := 0x93
def OP_SUB : UInt8 := 0x94
def OP_MUL : UInt8 := 0x95
def OP_DIV : UInt8 := 0x96
def OP_MOD : UInt8 := 0x97
def OP_LSHIFT : UInt8 := 0x98
def OP_RSHIFT : UInt8 := 0x99

def OP_BOOLAND : UInt8 := 0x9a
def OP_BOOLOR : UInt8 := 0x9b
def OP_NUMEQUAL : UInt8 := 0x9c
def OP_NUMEQUALVERIFY : UInt8 := 0x9d
def OP_NUMNOTEQUAL : UInt8 := 0x9e
def OP_LESSTHAN : UInt8 := 0x9f
def OP_GREATERTHAN : UInt8 := 0xa0
def OP_LESSTHANOREQUAL : UInt8 := 0xa1
def OP_GREATERTHANOREQUAL : UInt8 := 0xa2
def OP_MIN : UInt8 := 0xa3
def OP_MAX : UInt8 := 0xa4
def OP_WITHIN : UInt8 := 0xa5

def OP_RIPEMD160 : UInt8 := 0xa6
def OP_SHA1 : UInt8 := 0xa7
def OP_SHA256 : UInt8 := 0xa8
def OP_HASH160 : UInt8 := 0xa9
def OP_HASH256 : UInt8 := 0xaa
def OP_CODESEPARATOR : UInt8 := 0xab
def OP_CHECKSIG : UInt8 := 0xac
def OP_CHECKSIGVERIFY : UInt8 := 0xad
def OP_CHECKMULTISIG : UInt8 := 0xae
def OP_CHECKMULTISIGVERIFY : UInt8 := 0xaf

def OP_NOP1 : UInt8 := 0xb0

-- template matching params
def OP_SMALLINTEGER : UInt8 := 0xfa
def OP_PUBKEYS : UInt8 := 0xfb
def OP_PUBKEYHASH : UInt8 := 0xfd
def OP_PUBKEY : UInt8 := 0xfe

def OP_INVALIDOPCODE : UInt8 := 0xff

/-- `OP_1` to `OP_16`. -/
def IsSmallNumber (opcode : UInt8) : Prop := OP_1 ≤ opcode ∧ opcode ≤ OP_16

instance (opcode : UInt8) : Decidable (IsSmallNumber opcode) := inferInstanceAs (Decidable (_ ∧ _))

/-- `DecodeOP_N`; the assertion keeps other opcodes out. -/
def decodeOP_N (opcode : UInt8) : ℕ :=
  if opcode = OP_0 then 0 else opcode.toNat - (OP_1.toNat - 1)

theorem decodeOP_N_of_isSmallNumber {opcode : UInt8} (h : IsSmallNumber opcode) :
    decodeOP_N opcode = opcode.toNat - 0x50 ∧ 0x51 ≤ opcode.toNat ∧ opcode.toNat ≤ 0x60 := by
  have hlow : 0x51 ≤ opcode.toNat := h.1
  have hhigh : opcode.toNat ≤ 0x60 := h.2
  refine ⟨if_neg ?_, hlow, hhigh⟩
  rintro rfl
  exact absurd hlow (by decide)

/-- The low bytes come first. -/
def littleEndian (bytes : List UInt8) : ℕ :=
  bytes.foldr (fun byte n ↦ byte.toNat + 256 * n) 0

structure Instruction where
  opcode : UInt8
  vch : Valtype
deriving DecidableEq, Repr

/-- The operand of a push after its size field; the distance to the end is taken as 32 bits. -/
def getOperand (opcode : UInt8) (nSize : ℕ) (pc : CScript) : Option (Instruction × CScript) :=
  if pc.length % 2 ^ 32 < nSize then none else some (⟨opcode, pc.take nSize⟩, pc.drop nSize)

/-- An operand whose size is given in the `width` bytes before it. -/
def getSized (opcode : UInt8) (width : ℕ) (pc : CScript) : Option (Instruction × CScript) :=
  if pc.length < width then none
  else getOperand opcode (littleEndian (pc.take width)) (pc.drop width)

/-- `CScript::GetOp2`: the next instruction and what follows it. -/
def getOp : CScript → Option (Instruction × CScript)
  | [] => none
  | opcode :: pc =>
      if opcode ≤ OP_PUSHDATA4 then
        if opcode < OP_PUSHDATA1 then getOperand opcode opcode.toNat pc
        else if opcode = OP_PUSHDATA1 then getSized opcode 1 pc
        else if opcode = OP_PUSHDATA2 then getSized opcode 2 pc
        else getSized opcode 4 pc
      else some (⟨opcode, []⟩, pc)

section Reading

variable {opcode : UInt8} {pc rest script : CScript} {instr : Instruction} {nSize width : ℕ}

theorem of_getOperand (h : getOperand opcode nSize pc = some (instr, rest)) :
    instr.opcode = opcode ∧ pc = instr.vch ++ rest := by
  unfold getOperand at h
  split at h
  · cases h
  · cases h
    exact ⟨rfl, (List.take_append_drop nSize pc).symm⟩

theorem of_getSized (h : getSized opcode width pc = some (instr, rest)) :
    instr.opcode = opcode ∧ ∃ size, pc = size ++ instr.vch ++ rest := by
  unfold getSized at h
  split at h
  · cases h
  · have hoperand := of_getOperand h
    refine ⟨hoperand.1, pc.take width, ?_⟩
    rw [List.append_assoc, ← hoperand.2, List.take_append_drop]

/-- An instruction is its opcode, perhaps the size of its operand, and the operand. -/
theorem of_getOp (h : getOp script = some (instr, rest)) :
    ∃ size, script = instr.opcode :: (size ++ instr.vch ++ rest) := by
  cases script with
  | nil => cases h
  | cons opcode pc =>
    have hsized {width : ℕ} (h : getSized opcode width pc = some (instr, rest)) :
        ∃ size, opcode :: pc = instr.opcode :: (size ++ instr.vch ++ rest) := by
      obtain ⟨hopcode, size, hpc⟩ := of_getSized h
      exact ⟨size, by rw [hopcode, hpc]⟩
    simp only [getOp] at h
    split_ifs at h
    · have hoperand := of_getOperand h
      exact ⟨[], by rw [hoperand.1, List.nil_append, ← hoperand.2]⟩
    · exact hsized h
    · exact hsized h
    · exact hsized h
    · cases h
      exact ⟨[], rfl⟩

theorem length_lt_of_getOp (h : getOp script = some (instr, rest)) :
    rest.length < script.length := by
  obtain ⟨size, hscript⟩ := of_getOp h
  rw [hscript, List.length_cons, List.length_append]
  omega

theorem vch_of_getOp (h : getOp script = some (instr, rest))
    (hopcode : OP_PUSHDATA4 < instr.opcode) : instr.vch = [] := by
  cases script with
  | nil => cases h
  | cons opcode pc =>
    have hsame : instr.opcode = opcode := by
      obtain ⟨size, hscript⟩ := of_getOp h
      exact (List.cons.inj hscript).1.symm
    rw [getOp, if_neg (UInt8.not_le.mpr (hsame ▸ hopcode))] at h
    cases h
    rfl

theorem getOp_of_pushdata_lt (h : OP_PUSHDATA4 < opcode) :
    getOp (opcode :: pc) = some (⟨opcode, []⟩, pc) := by
  rw [getOp, if_neg (UInt8.not_le.mpr h)]

/-- A push whose size is its opcode. -/
theorem getOp_direct {vch : Valtype} (hopcode : opcode < OP_PUSHDATA1)
    (hsize : vch.length = opcode.toNat) (hlength : (vch ++ rest).length < 2 ^ 32) :
    getOp (opcode :: (vch ++ rest)) = some (⟨opcode, vch⟩, rest) := by
  have hle : opcode ≤ OP_PUSHDATA4 :=
    UInt8.le_trans (UInt8.le_of_lt hopcode) (by decide)
  have henough : ¬ (vch ++ rest).length % 2 ^ 32 < opcode.toNat := by
    rw [Nat.mod_eq_of_lt hlength, List.length_append]
    omega
  rw [getOp, if_pos hle, if_pos hopcode, getOperand, if_neg henough, ← hsize, List.take_left,
    List.drop_left]

end Reading

theorem shape_of_isPayToScriptHash {script : CScript} (h : isPayToScriptHash script = true) :
    ∃ hash : Valtype, hash.length = 20 ∧ script = OP_HASH160 :: 0x14 :: (hash ++ [OP_EQUAL]) := by
  simp only [isPayToScriptHash, Bool.and_eq_true, beq_iff_eq] at h
  obtain ⟨⟨⟨hlength, hzero⟩, hone⟩, hlast⟩ := h
  obtain _ | ⟨first, _ | ⟨second, tail⟩⟩ := script
  · cases hzero
  · cases hone
  · obtain rfl : first = 0xa9 := Option.some.inj hzero
    obtain rfl : second = 0x14 := Option.some.inj hone
    have htail : tail.length = 21 := by simpa using hlength
    have hlast' : tail[20]? = some 0x87 := hlast
    refine ⟨tail.take 20, by rw [List.length_take, htail]; rfl, ?_⟩
    have hdrop : tail.drop 20 = [0x87] := by
      rw [List.drop_eq_getElem_cons (by omega), List.drop_of_length_le (by omega)]
      rw [List.getElem?_eq_getElem (by omega)] at hlast'
      rw [Option.some.inj hlast']
    conv_lhs => rw [← List.take_append_drop 20 tail, hdrop]
    rfl

/-- The loop of `FindAndDelete`, with the number of deletions. -/
def findAndDeleteFrom (b : CScript) : ℕ → CScript → CScript × ℕ
  | 0, pc => (pc, 0)
  | fuel + 1, pc =>
      if b.isPrefixOf pc then
        let (kept, nFound) := findAndDeleteFrom b fuel (pc.drop b.length)
        (kept, nFound + 1)
      else
        match getOp pc with
        | none => (pc, 0)
        | some (_, rest) =>
            let (kept, nFound) := findAndDeleteFrom b fuel rest
            (pc.take (pc.length - rest.length) ++ kept, nFound)

/-- Delete `b` wherever it starts an instruction. -/
def findAndDelete (script b : CScript) : CScript × ℕ :=
  if b.isEmpty then (script, 0) else findAndDeleteFrom b script.length script

def isPushOnlyFrom : ℕ → CScript → Bool
  | 0, pc => pc.isEmpty
  | fuel + 1, pc =>
      if pc.isEmpty then true
      else
        match getOp pc with
        | none => false
        | some (instr, rest) => if instr.opcode > OP_16 then false else isPushOnlyFrom fuel rest

def isPushOnly (script : CScript) : Bool := isPushOnlyFrom script.length script

/-- What one instruction adds to the count. -/
def sigOpsOf (fAccurate : Bool) (lastOpcode opcode : UInt8) : ℕ :=
  if opcode = OP_CHECKSIG ∨ opcode = OP_CHECKSIGVERIFY then 1
  else if opcode = OP_CHECKMULTISIG ∨ opcode = OP_CHECKMULTISIGVERIFY then
    if fAccurate ∧ IsSmallNumber lastOpcode then decodeOP_N lastOpcode else 20
  else 0

def getSigOpCountFrom (fAccurate : Bool) : ℕ → UInt8 → CScript → ℕ
  | 0, _, _ => 0
  | fuel + 1, lastOpcode, pc =>
      match getOp pc with
      | none => 0
      | some (instr, rest) =>
          sigOpsOf fAccurate lastOpcode instr.opcode +
            getSigOpCountFrom fAccurate fuel instr.opcode rest

/-- `GetSigOpCount(fAccurate)`. -/
def getSigOpCount (fAccurate : Bool) (script : CScript) : ℕ :=
  getSigOpCountFrom fAccurate script.length OP_INVALIDOPCODE script

/-- The last data pushed by a script of pushes. -/
def lastPushFrom : ℕ → Valtype → CScript → Option Valtype
  | 0, data, pc => if pc.isEmpty then some data else none
  | fuel + 1, data, pc =>
      if pc.isEmpty then some data
      else
        match getOp pc with
        | none => none
        | some (instr, rest) =>
            if instr.opcode > OP_16 then none else lastPushFrom fuel instr.vch rest

/-- `GetSigOpCount(scriptSig)`: the redeem script counts for pay-to-script-hash. -/
def getSigOpCountP2SH (scriptPubKey scriptSig : CScript) : ℕ :=
  if isPayToScriptHash scriptPubKey then
    match lastPushFrom scriptSig.length [] scriptSig with
    | none => 0
    | some data => getSigOpCount true data
  else getSigOpCount true scriptPubKey

end Electra.Script
