import Electra.Script.Opcodes
import Electra.Foundations.StackMachine

/-!
# The script interpreter

A stack machine without loops.  Stacks are lists with the top first, and `stacktop i` is the source's
`stacktop(-i)`.  An error thrown inside `EvalScript` makes it return false, as a failed check does;
an access outside a stack is a stop of its own.  Every attempt to verify a signature costs one unit.
The opcodes that `EvalScript` refuses before its switch have no case in it.
-/

namespace Electra.Script

open Chain Foundations.StackMachine

inductive Stop
  | returnFalse
  | outOfRange
  | outOfFuel
deriving DecidableEq, Repr

abbrev Stack := List Valtype
abbrev Eval := Metered Stop

/-- The digests, and `CheckSig` for the spending transaction, its input and the hash type. -/
structure Crypto where
  ripemd160 : Valtype → Vector UInt8 20
  sha1 : Valtype → Vector UInt8 20
  sha256 : Valtype → Vector UInt8 32
  hash160 : Valtype → Vector UInt8 20
  hash256 : Valtype → Vector UInt8 32
  checkSig : Valtype → Valtype → CScript → Bool

def returnFalse {α : Type} : Eval α := stop .returnFalse

def returnFalseIf (bad : Prop) [Decidable bad] : Eval Unit := refuse bad .returnFalse

def stacktop (stack : Stack) (i : ℕ) : Eval Valtype := peek .outOfRange stack i

def popstack (stack : Stack) : Eval Stack := pop .outOfRange stack

def vchFalse : Valtype := []
def vchTrue : Valtype := [1]
def nMaxNumSize : ℕ := 4

def ofBool (b : Bool) : Valtype := if b then vchTrue else vchFalse

/-- `CBigNum::setvch`: the top bit of the last byte is the sign. -/
def setvch (vch : Valtype) : ℤ :=
  let n : ℤ := littleEndian vch
  if 0x80 ≤ vch.getLastD 0 then -(n - 2 ^ (8 * vch.length - 1)) else n

def castToBigNum (vch : Valtype) : Eval ℤ := do
  returnFalseIf (vch.length > nMaxNumSize)
  -- Get rid of extra leading zeros
  return setvch (getvch (setvch vch))

def INT_MAX : ℤ := 2 ^ 31 - 1

def getint (n : ℤ) : ℤ :=
  if 0 ≤ n then min n INT_MAX else if -n > INT_MAX then -INT_MAX - 1 else n

def castToBool : Valtype → Bool
  | [] => false
  | b :: vch =>
      -- Can be negative zero
      if b ≠ 0 then !(vch.isEmpty && b == 0x80) else castToBool vch

def boolToBigNum (b : Bool) : ℤ := if b then 1 else 0

def isCanonicalPubKey (vchPubKey : Valtype) : Bool :=
  if vchPubKey.length < 33 then false
  else if vchPubKey.headD 0 = 0x04 then vchPubKey.length == 65
  else if vchPubKey.headD 0 = 0x02 ∨ vchPubKey.headD 0 = 0x03 then vchPubKey.length == 33
  else false

/-- The part of a signature of `nLen` bytes that starts at `i`, as far as its first bytes go. -/
def isCanonicalInteger (vchSig : Valtype) (i nLen : ℕ) : Bool :=
  vchSig.getD (i - 2) 0 == 0x02 && nLen != 0 && vchSig.getD i 0 &&& 0x80 == 0 &&
    !(nLen > 1 && vchSig.getD i 0 == 0 && vchSig.getD (i + 1) 0 &&& 0x80 == 0)

/-- `<30> <total len> <02> <len R> <R> <02> <len S> <S> <hashtype>` -/
def isCanonicalSignature (vchSig : Valtype) : Bool :=
  if vchSig.length < 9 ∨ vchSig.length > 73 then false
  else
    let nHashType := vchSig.getLastD 0 &&& ~~~0x80
    let nLenR := (vchSig.getD 3 0).toNat
    if nHashType < 1 ∨ nHashType > 3 then false
    else if vchSig.getD 0 0 ≠ 0x30 then false
    else if (vchSig.getD 1 0).toNat ≠ vchSig.length - 3 then false
    else if 5 + nLenR ≥ vchSig.length then false
    else
      let nLenS := (vchSig.getD (5 + nLenR) 0).toNat
      if nLenR + nLenS + 7 ≠ vchSig.length then false
      else isCanonicalInteger vchSig 4 nLenR && isCanonicalInteger vchSig (6 + nLenR) nLenS &&
        nLenS ≤ 32

section StackOps

/-- `OP_1NEGATE` and `OP_1` to `OP_16`. -/
def opNumber (opcode : UInt8) (stack : Stack) : Eval Stack :=
  return getvch ((opcode.toNat : ℤ) - (OP_1.toNat - 1)) :: stack

def opNop (stack : Stack) : Eval Stack :=
  return stack

def opVerify (stack : Stack) : Eval Stack := do
  returnFalseIf (stack.length < 1)
  let vch ← stacktop stack 1
  if castToBool vch then popstack stack else returnFalse

def opReturn (_stack : Stack) : Eval Stack :=
  returnFalse

def op2DROP (stack : Stack) : Eval Stack := do
  returnFalseIf (stack.length < 2)
  let stack ← popstack stack
  popstack stack

def op2DUP (stack : Stack) : Eval Stack := do
  returnFalseIf (stack.length < 2)
  let vch1 ← stacktop stack 2
  let vch2 ← stacktop stack 1
  return vch2 :: vch1 :: stack

def op3DUP (stack : Stack) : Eval Stack := do
  returnFalseIf (stack.length < 3)
  let vch1 ← stacktop stack 3
  let vch2 ← stacktop stack 2
  let vch3 ← stacktop stack 1
  return vch3 :: vch2 :: vch1 :: stack

def op2OVER (stack : Stack) : Eval Stack := do
  returnFalseIf (stack.length < 4)
  let vch1 ← stacktop stack 4
  let vch2 ← stacktop stack 3
  return vch2 :: vch1 :: stack

def op2ROT (stack : Stack) : Eval Stack := do
  returnFalseIf (stack.length < 6)
  let vch1 ← stacktop stack 6
  let vch2 ← stacktop stack 5
  let stack ← erase .outOfRange stack 6 4
  return vch2 :: vch1 :: stack

def op2SWAP (stack : Stack) : Eval Stack := do
  returnFalseIf (stack.length < 4)
  let stack ← swap .outOfRange stack 4 2
  swap .outOfRange stack 3 1

def opIfDup (stack : Stack) : Eval Stack := do
  returnFalseIf (stack.length < 1)
  let vch ← stacktop stack 1
  return if castToBool vch then vch :: stack else stack

def opDepth (stack : Stack) : Eval Stack :=
  return getvch stack.length :: stack

def opDrop (stack : Stack) : Eval Stack := do
  returnFalseIf (stack.length < 1)
  popstack stack

def opDup (stack : Stack) : Eval Stack := do
  returnFalseIf (stack.length < 1)
  let vch ← stacktop stack 1
  return vch :: stack

def opNip (stack : Stack) : Eval Stack := do
  returnFalseIf (stack.length < 2)
  erase .outOfRange stack 2 1

def opOver (stack : Stack) : Eval Stack := do
  returnFalseIf (stack.length < 2)
  let vch ← stacktop stack 2
  return vch :: stack

/-- `OP_PICK` and `OP_ROLL`: the depth is taken from the stack. -/
def opPick (fRoll : Bool) (stack : Stack) : Eval Stack := do
  returnFalseIf (stack.length < 2)
  let bn ← castToBigNum (← stacktop stack 1)
  let n := getint bn
  let stack ← popstack stack
  returnFalseIf (n < 0 ∨ n ≥ stack.length)
  let vch ← stacktop stack (n.toNat + 1)
  let stack ← if fRoll then erase .outOfRange stack (n.toNat + 1) n.toNat else pure stack
  return vch :: stack

def opRot (stack : Stack) : Eval Stack := do
  returnFalseIf (stack.length < 3)
  let stack ← swap .outOfRange stack 3 2
  swap .outOfRange stack 2 1

def opSwap (stack : Stack) : Eval Stack := do
  returnFalseIf (stack.length < 2)
  swap .outOfRange stack 2 1

def opTuck (stack : Stack) : Eval Stack := do
  returnFalseIf (stack.length < 2)
  let vch ← stacktop stack 1
  insertBelow .outOfRange stack 2 vch

def opSize (stack : Stack) : Eval Stack := do
  returnFalseIf (stack.length < 1)
  let vch ← stacktop stack 1
  return getvch vch.length :: stack

/-- Push the outcome of a test; the `VERIFY` form takes it off again or fails. -/
def pushVerdict (fVerify fSuccess : Bool) (stack : Stack) : Eval Stack :=
  let stack := ofBool fSuccess :: stack
  if fVerify then
    if fSuccess then popstack stack else returnFalse
  else return stack

def opEqual (fVerify : Bool) (stack : Stack) : Eval Stack := do
  returnFalseIf (stack.length < 2)
  let vch1 ← stacktop stack 2
  let vch2 ← stacktop stack 1
  let fEqual := vch1 == vch2
  let stack ← popstack stack
  let stack ← popstack stack
  pushVerdict fVerify fEqual stack

def opUnary (f : ℤ → ℤ) (stack : Stack) : Eval Stack := do
  returnFalseIf (stack.length < 1)
  let bn ← castToBigNum (← stacktop stack 1)
  let stack ← popstack stack
  return getvch (f bn) :: stack

def opBinary (f : ℤ → ℤ → ℤ) (stack : Stack) : Eval Stack := do
  returnFalseIf (stack.length < 2)
  let bn1 ← castToBigNum (← stacktop stack 2)
  let bn2 ← castToBigNum (← stacktop stack 1)
  let stack ← popstack stack
  let stack ← popstack stack
  return getvch (f bn1 bn2) :: stack

def opTest (test : ℤ → ℤ → Bool) : Stack → Eval Stack :=
  opBinary fun bn1 bn2 ↦ boolToBigNum (test bn1 bn2)

def opNumEqualVerify (stack : Stack) : Eval Stack := do
  let stack ← opTest (fun bn1 bn2 ↦ bn1 == bn2) stack
  let vch ← stacktop stack 1
  if castToBool vch then popstack stack else returnFalse

def opWithin (stack : Stack) : Eval Stack := do
  returnFalseIf (stack.length < 3)
  let bn1 ← castToBigNum (← stacktop stack 3)
  let bn2 ← castToBigNum (← stacktop stack 2)
  let bn3 ← castToBigNum (← stacktop stack 1)
  let fValue := decide (bn2 ≤ bn1 ∧ bn1 < bn3)
  let stack ← popstack stack
  let stack ← popstack stack
  let stack ← popstack stack
  return ofBool fValue :: stack

def opHash {size : ℕ} (digest : Valtype → Vector UInt8 size) (stack : Stack) : Eval Stack := do
  returnFalseIf (stack.length < 1)
  let vch ← stacktop stack 1
  let stack ← popstack stack
  return (digest vch).toList :: stack

end StackOps

/-- What is left to read, what signatures cover, the stacks and the open conditionals, innermost
first. -/
structure EvalState where
  pc : CScript
  pbegincodehash : CScript
  stack : Stack
  altstack : Stack
  vfExec : List Bool
  nOpCount : ℕ
deriving DecidableEq, Repr

def EvalState.fExec (s : EvalState) : Bool := !s.vfExec.contains false

def onStack (op : Stack → Eval Stack) (s : EvalState) : Eval EvalState := do
  let stack ← op s.stack
  return { s with stack }

/-- `OP_IF` and `OP_NOTIF`; a branch that is not executed leaves the stack alone. -/
def opIf (fNot : Bool) (s : EvalState) : Eval EvalState := do
  if s.fExec then
    returnFalseIf (s.stack.length < 1)
    let vch ← stacktop s.stack 1
    let fValue := if fNot then !castToBool vch else castToBool vch
    let stack ← popstack s.stack
    return { s with stack, vfExec := fValue :: s.vfExec }
  else return { s with vfExec := false :: s.vfExec }

def opElse (s : EvalState) : Eval EvalState :=
  match s.vfExec with
  | [] => returnFalse
  | fValue :: vfExec => return { s with vfExec := (!fValue) :: vfExec }

def opEndIf (s : EvalState) : Eval EvalState :=
  match s.vfExec with
  | [] => returnFalse
  | _ :: vfExec => return { s with vfExec }

def opToAltStack (s : EvalState) : Eval EvalState := do
  returnFalseIf (s.stack.length < 1)
  let vch ← stacktop s.stack 1
  let stack ← popstack s.stack
  return { s with stack, altstack := vch :: s.altstack }

def opFromAltStack (s : EvalState) : Eval EvalState := do
  returnFalseIf (s.altstack.length < 1)
  let vch ← stacktop s.altstack 1
  let altstack ← popstack s.altstack
  return { s with stack := vch :: s.stack, altstack }

def opCodeSeparator (s : EvalState) : Eval EvalState :=
  return { s with pbegincodehash := s.pc }

section Signatures

variable (C : Crypto)

/-- The condition a signature must meet, whatever part of it is evaluated. -/
def validSignature (scriptCode : CScript) (vchSig vchPubKey : Valtype) : Bool :=
  isCanonicalSignature vchSig && isCanonicalPubKey vchPubKey && C.checkSig vchSig vchPubKey scriptCode

def attemptSignature (scriptCode : CScript) (vchSig vchPubKey : Valtype) : Eval Bool := do
  charge
  return validSignature C scriptCode vchSig vchPubKey

/-- A signature cannot sign itself. -/
def dropSignature (scriptCode : CScript) (vchSig : Valtype) : CScript :=
  (findAndDelete scriptCode (pushBytes [] vchSig)).1

def opCheckSig (fVerify : Bool) (s : EvalState) : Eval EvalState := do
  returnFalseIf (s.stack.length < 2)
  let vchSig ← stacktop s.stack 2
  let vchPubKey ← stacktop s.stack 1
  let fSuccess ← attemptSignature C (dropSignature s.pbegincodehash vchSig) vchSig vchPubKey
  let stack ← popstack s.stack
  let stack ← popstack stack
  let stack ← pushVerdict fVerify fSuccess stack
  return { s with stack }

/-- The loop of `OP_CHECKMULTISIG` with its two indices; it goes through the keys once. -/
def matchSigs (stack : Stack) (scriptCode : CScript) : ℕ → ℕ → ℕ → ℕ → Eval Bool
  | _, _, _, 0 => return true
  | 0, _, _, _ + 1 => stop .outOfFuel
  | nKeysCount + 1, ikey, isig, nSigsCount + 1 => do
      let vchSig ← stacktop stack isig
      let vchPubKey ← stacktop stack ikey
      let fOk ← attemptSignature C scriptCode vchSig vchPubKey
      let isig := if fOk then isig + 1 else isig
      let nSigsCount := if fOk then nSigsCount else nSigsCount + 1
      -- If there are more signatures left than keys left,
      -- then too many signatures have failed
      if nSigsCount > nKeysCount then return false
      else matchSigs stack scriptCode nKeysCount (ikey + 1) isig nSigsCount

/-- Drop the `nSigsCount` signatures that start at `isig`. -/
def dropSignatures (stack : Stack) (scriptCode : CScript) (isig nSigsCount : ℕ) : Eval CScript :=
  match nSigsCount with
  | 0 => return scriptCode
  | nSigsCount + 1 => do
      let vchSig ← stacktop stack isig
      dropSignatures stack (dropSignature scriptCode vchSig) (isig + 1) nSigsCount

/-- A count on the stack, between zero and a bound. -/
def stackCount (stack : Stack) (i : ℕ) (bound : ℤ) : Eval ℕ := do
  let bn ← castToBigNum (← stacktop stack i)
  let nCount := getint bn
  returnFalseIf (nCount < 0 ∨ nCount > bound)
  return nCount.toNat

def opCheckMultiSig (fVerify : Bool) (s : EvalState) : Eval EvalState := do
  returnFalseIf (s.stack.length < 1)
  let nKeysCount ← stackCount s.stack 1 20
  let nOpCount := s.nOpCount + nKeysCount
  returnFalseIf (nOpCount > 201)
  let ikey := 2
  let i := 2 + nKeysCount
  returnFalseIf (s.stack.length < i)
  let nSigsCount ← stackCount s.stack i nKeysCount
  let isig := i + 1
  let i := isig + nSigsCount
  returnFalseIf (s.stack.length < i)
  let scriptCode ← dropSignatures s.stack s.pbegincodehash isig nSigsCount
  let fSuccess ← matchSigs C s.stack scriptCode nKeysCount ikey isig nSigsCount
  let stack ← popMany .outOfRange i s.stack
  let stack ← pushVerdict fVerify fSuccess stack
  return { s with stack, nOpCount }

end Signatures

/-- Refused wherever they stand. -/
def disabledOpcodes : List UInt8 :=
  [OP_CAT, OP_SUBSTR, OP_LEFT, OP_RIGHT, OP_INVERT, OP_AND, OP_OR, OP_XOR, OP_2MUL, OP_2DIV, OP_MUL,
    OP_DIV, OP_MOD, OP_LSHIFT, OP_RSHIFT]

def numberOpcodes : List UInt8 :=
  OP_1NEGATE :: (List.range 16).map fun i ↦ OP_1 + UInt8.ofNat i

def nopOpcodes : List UInt8 :=
  OP_NOP :: (List.range 10).map fun i ↦ OP_NOP1 + UInt8.ofNat i

section Evaluation

variable (C : Crypto)

/-- The cases on the main stack alone. -/
def stackCases : List (UInt8 × (Stack → Eval Stack)) :=
  numberOpcodes.map (fun opcode ↦ (opcode, opNumber opcode)) ++
  nopOpcodes.map (fun opcode ↦ (opcode, opNop)) ++
  [(OP_VERIFY, opVerify), (OP_RETURN, opReturn), (OP_2DROP, op2DROP), (OP_2DUP, op2DUP),
    (OP_3DUP, op3DUP), (OP_2OVER, op2OVER), (OP_2ROT, op2ROT), (OP_2SWAP, op2SWAP),
    (OP_IFDUP, opIfDup), (OP_DEPTH, opDepth), (OP_DROP, opDrop), (OP_DUP, opDup), (OP_NIP, opNip),
    (OP_OVER, opOver), (OP_PICK, opPick false), (OP_ROLL, opPick true), (OP_ROT, opRot),
    (OP_SWAP, opSwap), (OP_TUCK, opTuck), (OP_SIZE, opSize), (OP_EQUAL, opEqual false),
    (OP_EQUALVERIFY, opEqual true),
    (OP_1ADD, opUnary fun bn ↦ bn + 1),
    (OP_1SUB, opUnary fun bn ↦ bn - 1),
    (OP_NEGATE, opUnary fun bn ↦ -bn),
    (OP_ABS, opUnary fun bn ↦ if bn < 0 then -bn else bn),
    (OP_NOT, opUnary fun bn ↦ boolToBigNum (bn == 0)),
    (OP_0NOTEQUAL, opUnary fun bn ↦ boolToBigNum (bn != 0)),
    (OP_ADD, opBinary fun bn1 bn2 ↦ bn1 + bn2),
    (OP_SUB, opBinary fun bn1 bn2 ↦ bn1 - bn2),
    (OP_BOOLAND, opTest fun bn1 bn2 ↦ bn1 != 0 && bn2 != 0),
    (OP_BOOLOR, opTest fun bn1 bn2 ↦ bn1 != 0 || bn2 != 0),
    (OP_NUMEQUAL, opTest fun bn1 bn2 ↦ bn1 == bn2),
    (OP_NUMEQUALVERIFY, opNumEqualVerify),
    (OP_NUMNOTEQUAL, opTest fun bn1 bn2 ↦ bn1 != bn2),
    (OP_LESSTHAN, opTest fun bn1 bn2 ↦ decide (bn1 < bn2)),
    (OP_GREATERTHAN, opTest fun bn1 bn2 ↦ decide (bn1 > bn2)),
    (OP_LESSTHANOREQUAL, opTest fun bn1 bn2 ↦ decide (bn1 ≤ bn2)),
    (OP_GREATERTHANOREQUAL, opTest fun bn1 bn2 ↦ decide (bn1 ≥ bn2)),
    (OP_MIN, opBinary fun bn1 bn2 ↦ if bn1 < bn2 then bn1 else bn2),
    (OP_MAX, opBinary fun bn1 bn2 ↦ if bn1 > bn2 then bn1 else bn2),
    (OP_WITHIN, opWithin),
    (OP_RIPEMD160, opHash C.ripemd160), (OP_SHA1, opHash C.sha1), (OP_SHA256, opHash C.sha256),
    (OP_HASH160, opHash C.hash160), (OP_HASH256, opHash C.hash256)]

/-- The other cases, but for the signatures. -/
def stateCases : List (UInt8 × (EvalState → Eval EvalState)) :=
  [(OP_IF, opIf false), (OP_NOTIF, opIf true), (OP_ELSE, opElse), (OP_ENDIF, opEndIf),
    (OP_TOALTSTACK, opToAltStack), (OP_FROMALTSTACK, opFromAltStack),
    (OP_CODESEPARATOR, opCodeSeparator)]

def signatureCases : List (UInt8 × (EvalState → Eval EvalState)) :=
  [(OP_CHECKSIG, opCheckSig C false), (OP_CHECKSIGVERIFY, opCheckSig C true),
    (OP_CHECKMULTISIG, opCheckMultiSig C false), (OP_CHECKMULTISIGVERIFY, opCheckMultiSig C true)]

def switchCases : List (UInt8 × (EvalState → Eval EvalState)) :=
  (stackCases C).map (fun entry ↦ (entry.1, onStack entry.2)) ++ stateCases ++ signatureCases C

def switch (opcode : UInt8) (s : EvalState) : Eval EvalState :=
  match (switchCases C).lookup opcode with
  | none => returnFalse
  | some run => run s

def execute (instr : Instruction) (s : EvalState) : Eval EvalState :=
  if s.fExec ∧ instr.opcode ≤ OP_PUSHDATA4 then return { s with stack := instr.vch :: s.stack }
  else if s.fExec ∨ (OP_IF ≤ instr.opcode ∧ instr.opcode ≤ OP_ENDIF) then switch C instr.opcode s
  else return s

/-- Opcodes above `OP_16` are counted, executed or not. -/
def countOp (opcode : UInt8) (nOpCount : ℕ) : ℕ :=
  if opcode > OP_16 then nOpCount + 1 else nOpCount

/-- Read the next instruction, with the tests made on it before it is executed. -/
def fetch (s : EvalState) : Eval (Instruction × EvalState) :=
  match getOp s.pc with
  | none => returnFalse
  | some (instr, rest) => do
      returnFalseIf (instr.vch.length > 520)
      let nOpCount := countOp instr.opcode s.nOpCount
      returnFalseIf (instr.opcode > OP_16 ∧ nOpCount > 201)
      returnFalseIf (instr.opcode ∈ disabledOpcodes)
      return (instr, { s with pc := rest, nOpCount })

/-- One round of the loop. -/
def step (s : EvalState) : Eval EvalState := do
  let (instr, s) ← fetch s
  let s ← execute C instr s
  -- Size limits
  returnFalseIf (s.stack.length + s.altstack.length > 1000)
  return s

def atEnd (s : EvalState) : Bool := s.pc.isEmpty

def initialState (stack : Stack) (script : CScript) : EvalState where
  pc := script
  pbegincodehash := script
  stack := stack
  altstack := []
  vfExec := []
  nOpCount := 0

def evalScript (stack : Stack) (script : CScript) : Eval Stack := do
  returnFalseIf (script.length > 10000)
  let s ← runFor (step C) atEnd .outOfFuel script.length (initialState stack script)
  returnFalseIf (s.vfExec ≠ [])
  return s.stack

/-- `stack.back()` -/
def back (stack : Stack) : Eval Valtype := peek .outOfRange stack 1

/-- Ends normally where `VerifyScript` returns true. -/
def verifyScript (scriptSig scriptPubKey : CScript) : Eval Unit := do
  let stackCopy ← evalScript C [] scriptSig
  let stack ← evalScript C stackCopy scriptPubKey
  returnFalseIf (stack = [])
  let top ← back stack
  returnFalseIf (castToBool top = false)
  -- Additional validation for spend-to-script-hash transactions:
  if isPayToScriptHash scriptPubKey then
    returnFalseIf (isPushOnly scriptSig = false)
    let pubKey2 ← back stackCopy
    let stackCopy ← popstack stackCopy
    let stackCopy ← evalScript C stackCopy pubKey2
    returnFalseIf (stackCopy = [])
    let top ← back stackCopy
    returnFalseIf (castToBool top = false)
  else return ()

end Evaluation

end Electra.Script
