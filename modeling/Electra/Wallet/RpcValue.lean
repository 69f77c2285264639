import Electra.Wallet.Records

/-!
# Parameters of a remote call

A call takes JSON values.  Their types are checked against what is expected before they are used, and
again where they are used.
-/

namespace Electra.Wallet

open Foundations.Outcome

/-- How a call fails: by an error with a code, by one without, or by reading past the end of a vector. -/
inductive RpcFailure
  | jsonRpc (code : ℤ) (message : String)
  | runtimeError (message : String)
  | outOfRange
deriving DecidableEq

def RPC_TYPE_ERROR : ℤ := -3
def RPC_INVALID_ADDRESS_OR_KEY : ℤ := -5
def RPC_INVALID_PARAMETER : ℤ := -8
def RPC_WALLET_UNLOCK_NEEDED : ℤ := -13
def RPC_DESERIALIZATION_ERROR : ℤ := -22

inductive ValueType
  | obj
  | array
  | str
  | bool
  | int
  | real
  | null
deriving DecidableEq

def ValueType.name : ValueType → String
  | .obj => "obj"
  | .array => "array"
  | .str => "str"
  | .bool => "bool"
  | .int => "int"
  | .real => "real"
  | .null => "null"

inductive Value
  | obj (fields : List (List UInt8 × Value))
  | array (values : List Value)
  | str (s : List UInt8)
  | bool (f : Bool)
  | int (n : Int64)
  | real (bits : BitVec 64)
  | null

namespace Value

def type : Value → ValueType
  | obj _ => .obj
  | array _ => .array
  | str _ => .str
  | bool _ => .bool
  | int _ => .int
  | real _ => .real
  | null => .null

/-- `check_type` fails. -/
def wrongType {α : Type} (v : Value) (vtype : ValueType) : Except RpcFailure α :=
  .error (.runtimeError ("value is type " ++ v.type.name ++ ", expected " ++ vtype.name))

def getStr : Value → Except RpcFailure (List UInt8)
  | str s => .ok s
  | v => v.wrongType .str

def getArray : Value → Except RpcFailure (List Value)
  | array values => .ok values
  | v => v.wrongType .array

/-- `get_int` keeps the lower half. -/
def getInt : Value → Except RpcFailure Int32
  | int n => .ok n.toInt32
  | v => v.wrongType .int

end Value

/-- A parameter that is there and is not null. -/
def optionalParam (params : List Value) (i : ℕ) : Option Value :=
  params[i]?.filter fun v ↦ v.type ≠ .null

def findValue (o : List (List UInt8 × Value)) (name : String) : Value :=
  match o.find? fun field ↦ field.1 = Records.ofString name with
  | none => .null
  | some field => field.2

def hasType (v : Value) (t : ValueType) (fAllowNull : Bool) : Bool :=
  decide (v.type = t) || (fAllowNull && decide (v.type = .null))

/-- `RPCTypeCheck` of the parameters that are there. -/
def typeCheck (params : List Value) (typesExpected : List ValueType) (fAllowNull : Bool) :
    Except RpcFailure Unit :=
  (params.zip typesExpected).forM fun (v, t) ↦
    rejectIf (hasType v t fAllowNull = false)
      (.jsonRpc RPC_TYPE_ERROR ("Expected type " ++ t.name ++ ", got " ++ v.type.name))

/-- `RPCTypeCheck` of the fields of an object. -/
def typeCheckFields (o : List (List UInt8 × Value)) (typesExpected : List (String × ValueType))
    (fAllowNull : Bool) : Except RpcFailure Unit :=
  typesExpected.forM fun (name, t) ↦ do
    let v := findValue o name
    rejectIf (fAllowNull = false ∧ v.type = .null) (.jsonRpc RPC_TYPE_ERROR ("Missing " ++ name))
    rejectIf (hasType v t fAllowNull = false) (.jsonRpc RPC_TYPE_ERROR
      ("Expected type " ++ t.name ++ " for " ++ name ++ ", got " ++ v.type.name))

section InRange

variable {α β : Type} {x : Except RpcFailure α}

/-- The computation does not fail by reading past the end of a vector. -/
def InRange (x : Except RpcFailure α) : Prop := x ≠ .error .outOfRange

theorem InRange.ok (a : α) : InRange (.ok a) := nofun

theorem InRange.jsonRpc (code : ℤ) (message : String) : InRange (.error (.jsonRpc code message) : Except RpcFailure α) :=
  nofun

theorem InRange.bind {f : α → Except RpcFailure β} (h : InRange x) (hf : ∀ a, InRange (f a)) :
    InRange (x >>= f) := bind_ne_error h hf

theorem inRange_rejectIf (bad : Prop) [Decidable bad] (code : ℤ) (message : String) :
    InRange (rejectIf bad (.jsonRpc code message)) := rejectIf_ne_error nofun

theorem inRange_require (value : Option α) (code : ℤ) (message : String) :
    InRange (require value (.jsonRpc code message)) := require_ne_error nofun

theorem inRange_forM {f : α → Except RpcFailure Unit} (h : ∀ a, InRange (f a)) (l : List α) :
    InRange (l.forM f) := by
  induction l with
  | nil => exact .ok ()
  | cons a l ih =>
    rw [List.forM_eq_forM, List.forM_cons]
    exact (h a).bind fun _ ↦ ih

theorem inRange_mapM {f : α → Except RpcFailure β} (h : ∀ a, InRange (f a)) (l : List α) :
    InRange (l.mapM f) := by
  induction l with
  | nil => exact .ok []
  | cons a l ih =>
    rw [List.mapM_cons]
    exact (h a).bind fun b ↦ ih.bind fun bs ↦ .ok (b :: bs)

end InRange

theorem inRange_getStr (v : Value) : InRange v.getStr := by
  cases v <;> exact nofun

theorem inRange_getArray (v : Value) : InRange v.getArray := by
  cases v <;> exact nofun

theorem inRange_getInt (v : Value) : InRange v.getInt := by
  cases v <;> exact nofun

theorem inRange_typeCheck (params : List Value) (typesExpected : List ValueType) (fAllowNull : Bool) :
    InRange (typeCheck params typesExpected fAllowNull) :=
  inRange_forM (fun _ ↦ inRange_rejectIf _ _ _) _

theorem inRange_typeCheckFields (o : List (List UInt8 × Value))
    (typesExpected : List (String × ValueType)) (fAllowNull : Bool) :
    InRange (typeCheckFields o typesExpected fAllowNull) :=
  inRange_forM (fun _ ↦ (inRange_rejectIf _ _ _).bind fun _ ↦ inRange_rejectIf _ _ _) _

end Electra.Wallet
