import Electra.Foundations.GreedyMatch
import Electra.Script.Interpreter

/-!
# Standard scripts

`Solver` compares a script with templates whose opcodes stand for public keys, hashes and small
numbers, and returns the parts found there.  What a template matches is a list of instructions, and
the classification by instructions is the grammar of the standard types.

`CombineSignatures` merges what two parties have signed.  Both scripts are evaluated for an empty
transaction, and the merge works on the two stacks: types with one signature keep one of them, a
multisignature script gets the signatures of both, matched with its keys, and pay-to-script-hash
merges below the redeem script.  Stacks have the top first, so the first element pushed is the last.
-/

namespace Electra.Script

open Chain

/-! ## The matcher -/

inductive TxnOutType
  | nonstandard
  | pubkey
  | pubkeyhash
  | scripthash
  | multisig
deriving DecidableEq, Repr

/-- The templates in the order of their types. -/
def mTemplates : List (TxnOutType × CScript) :=
  [(.pubkey, [OP_PUBKEY, OP_CHECKSIG]),
    (.pubkeyhash, [OP_DUP, OP_HASH160, OP_PUBKEYHASH, OP_EQUALVERIFY, OP_CHECKSIG]),
    (.multisig, [OP_SMALLINTEGER, OP_PUBKEYS, OP_SMALLINTEGER, OP_CHECKMULTISIG])]

def IsKeySize (size : ℕ) : Prop := 33 ≤ size ∧ size ≤ 120

instance (size : ℕ) : Decidable (IsKeySize size) := inferInstanceAs (Decidable (_ ∧ _))

/-- The loop at `OP_PUBKEYS`: the instruction it stops at, what follows that, and the solutions.
Where the script cannot be read on, the opcode is invalid. -/
def takeKeys : ℕ → Instruction → CScript → List Valtype → Instruction × CScript × List Valtype
  | 0, instr1, pc1, vSolutions => (instr1, pc1, vSolutions)
  | fuel + 1, instr1, pc1, vSolutions =>
      if IsKeySize instr1.vch.length then
        match getOp pc1 with
        | none => (⟨OP_INVALIDOPCODE, []⟩, pc1, vSolutions ++ [instr1.vch])
        | some (next, rest) => takeKeys fuel next rest (vSolutions ++ [instr1.vch])
      else (instr1, pc1, vSolutions)

/-- One instruction against an opcode of the template, other than `OP_PUBKEYS`. -/
def matchOp (instr1 : Instruction) (opcode2 : UInt8) (vSolutions : List Valtype) :
    Option (List Valtype) :=
  if opcode2 = OP_PUBKEY then
    if IsKeySize instr1.vch.length then some (vSolutions ++ [instr1.vch]) else none
  else if opcode2 = OP_PUBKEYHASH then
    if instr1.vch.length = 20 then some (vSolutions ++ [instr1.vch]) else none
  else if opcode2 = OP_SMALLINTEGER then
    if instr1.opcode = OP_0 ∨ IsSmallNumber instr1.opcode then
      some (vSolutions ++ [[UInt8.ofNat (decodeOP_N instr1.opcode)]])
    else none
  -- Others must match exactly
  else if instr1.opcode ≠ opcode2 ∨ instr1.vch ≠ [] then none
  else some vSolutions

/-- The comparison of a script with a template, which is read an opcode at a time
(`getOp_mTemplates`). -/
def matchFrom : CScript → CScript → List Valtype → Option (List Valtype)
  | [], pc1, vSolutions => if pc1.isEmpty then some vSolutions else none
  | opcode2 :: pc2, pc1, vSolutions =>
      match getOp pc1 with
      | none => none
      | some (instr1, pc1) =>
          if opcode2 = OP_PUBKEYS then
            let (instr1, pc1, vSolutions) := takeKeys (pc1.length + 1) instr1 pc1 vSolutions
            match pc2 with
            | [] => none
            | opcode2 :: pc2 => (matchOp instr1 opcode2 vSolutions).bind (matchFrom pc2 pc1)
          else (matchOp instr1 opcode2 vSolutions).bind (matchFrom pc2 pc1)

/-- A template has no operands. -/
theorem getOp_mTemplates : ∀ template ∈ mTemplates, ∀ opcode2 ∈ template.2, ∀ pc2,
    getOp (opcode2 :: pc2) = some (⟨opcode2, []⟩, pc2) := by
  intro template htemplate opcode2 hopcode2 pc2
  apply getOp_of_pushdata_lt
  simp only [mTemplates, List.mem_cons, List.not_mem_nil, or_false] at htemplate
  rcases htemplate with rfl | rfl | rfl
  all_goals
    simp only [List.mem_cons, List.not_mem_nil, or_false] at hopcode2
    rcases hopcode2 with rfl | rfl | rfl | rfl | rfl <;> decide

/-- The additional checks on the counts of a multisignature script. -/
def badCounts (vSolutions : List Valtype) : Bool :=
  let m := (vSolutions.headD []).headD 0
  let n := (vSolutions.getLastD []).headD 0
  m < 1 || n < 1 || m > n || vSolutions.length - 2 != n.toNat

def scanTemplates (scriptPubKey : CScript) :
    List (TxnOutType × CScript) → Bool × TxnOutType × List Valtype
  | [] => (false, .nonstandard, [])
  | (typeRet, script2) :: templates =>
      match matchFrom script2 scriptPubKey [] with
      | some vSolutions =>
          (!(typeRet == .multisig && badCounts vSolutions), typeRet, vSolutions)
      | none => scanTemplates scriptPubKey templates

/-- `Solver`: whether a template matches, with the two output arguments, given what these held. -/
def solver (scriptPubKey : CScript) (_typeRet : TxnOutType) (vSolutionsRet : List Valtype) :
    Bool × TxnOutType × List Valtype :=
  -- Shortcut for pay-to-script-hash, which are more constrained than the other types
  if isPayToScriptHash scriptPubKey then
    (true, .scripthash, vSolutionsRet ++ [(scriptPubKey.drop 2).take 20])
  else scanTemplates scriptPubKey mTemplates

open Foundations.GreedyMatch

/-- `PushAll`, for values in the order in which they are pushed. -/
def pushAll (values : List Valtype) : CScript := values.foldl pushBytes []

/-- Vectors of bytes in the order of a `set`. -/
def valtypeLE (v w : Valtype) : Bool := !List.lex w v fun x y ↦ decide (x < y)

/-- `allsigs`: what is not empty, without duplicates. -/
def allsigs (sigs1 sigs2 : Stack) : List Valtype :=
  ((sigs1 ++ sigs2).filter fun v ↦ !v.isEmpty).eraseDups.insertionSort fun v w ↦ valtypeLE v w

section Combine

variable (C : Crypto)

def combineMultisig (scriptPubKey : CScript) (vSolutions : List Valtype) (sigs1 sigs2 : Stack) :
    CScript :=
  -- Build a map of pubkey -> signature by matching sigs to pubkeys:
  let nSigsRequired := ((vSolutions.headD []).headD 0).toNat
  let nPubKeys := vSolutions.length - 2
  let pubkeys := (vSolutions.drop 1).take nPubKeys
  let checks := fun sig pubkey ↦ C.checkSig sig pubkey scriptPubKey
  let sigs := (allsigs sigs1 sigs2).foldl (assign checks pubkeys) []
  -- Now build a merged CScript, with the pop-one-too-many workaround first:
  let merged := (pubkeys.filterMap fun pubkey ↦ sigs.lookup pubkey).take nSigsRequired
  -- Fill any missing with OP_0:
  merged.foldl pushBytes [OP_0] ++ List.replicate (nSigsRequired - merged.length) OP_0

/-- `CombineSignatures` for the two stacks. -/
def combineStacks (scriptPubKey : CScript) (txType : TxnOutType) (vSolutions : List Valtype)
    (sigs1 sigs2 : Stack) : CScript :=
  match txType, sigs1, sigs2 with
  | .nonstandard, sigs1, sigs2 =>
      -- Don't know anything about this, assume bigger one is correct:
      if sigs1.length ≥ sigs2.length then pushAll sigs1.reverse else pushAll sigs2.reverse
  | .pubkey, sigs1, sigs2 | .pubkeyhash, sigs1, sigs2 =>
      -- Signatures are bigger than placeholders or empty scripts:
      if (sigs1.getLastD []).isEmpty then pushAll sigs2.reverse else pushAll sigs1.reverse
  | .scripthash, [], sigs2 => pushAll sigs2.reverse
  | .scripthash, spk :: sigs1, sigs2 =>
      if spk.isEmpty then pushAll sigs2.reverse
      else if (sigs2.headD []).isEmpty then pushAll (spk :: sigs1).reverse
      else
        -- Recur to combine:
        let (_, txType2, vSolutions2) := solver spk .nonstandard []
        pushBytes (combineStacks spk txType2 vSolutions2 sigs1 sigs2.tail) spk
  | .multisig, sigs1, sigs2 => combineMultisig C scriptPubKey vSolutions sigs1 sigs2
termination_by structural sigs1

end Combine

/-- What `EvalScript` leaves in its stack argument: its value where it returns true, and any stack
where it returns false. -/
structure LeftStack (C : Crypto) where
  left : CScript → Stack
  left_eq {script : CScript} {stack : Stack}
    (h : (evalScript C [] script).result = .ok stack) : left script = stack

/-- `CombineSignatures`; `empty` has the digests, and `CheckSig` for the empty transaction. -/
def combineSignatures (C : Crypto) {empty : Crypto} (eval : LeftStack empty)
    (scriptPubKey scriptSig1 scriptSig2 : CScript) : CScript :=
  let (_, txType, vSolutions) := solver scriptPubKey .nonstandard []
  combineStacks C scriptPubKey txType vSolutions (eval.left scriptSig1) (eval.left scriptSig2)

end Electra.Script
