import Electra.Chain.BigNum
import Electra.Script.PushRuns

/-!
# Scripts built from items

A script is built by appending opcodes, byte vectors and numbers with `operator<<`.  Reading it with `GetOp`
gives one instruction for each item back, as long as the script is shorter than the 32-bit sizes can say.
-/

namespace Electra.Script

open Chain Foundations.StackMachine

variable {C : Crypto}

/-- What `operator<<` appends: an opcode that is not a push, a byte vector, or a 64-bit number. -/
inductive ScriptItem
  | opcode (opcode : { opcode : UInt8 // OP_PUSHDATA4 < opcode })
  | bytes (b : Valtype)
  | number (n : BitVec 64)

namespace ScriptItem

/-- `operator<<`; numbers go through `push_int64`. -/
def append (script : CScript) : ScriptItem → CScript
  | opcode op => script ++ [op.1]
  | bytes b => pushBytes script b
  | number n => pushInt64 script n.toInt

def build (items : List ScriptItem) : CScript := items.foldl append []

def pushInstruction (v : Valtype) : Instruction := ⟨pushOpcode v, v⟩

/-- The instruction that an item is meant to be. -/
def instruction : ScriptItem → Instruction
  | opcode op => ⟨op.1, []⟩
  | bytes b => pushInstruction b
  | number n =>
      if n.toInt = -1 ∨ (1 ≤ n.toInt ∧ n.toInt ≤ 16) then ⟨UInt8.ofNat (n.toInt + 0x50).toNat, []⟩
      else pushInstruction (getvch n.toInt)

theorem append_eq (script : CScript) (item : ScriptItem) : item.append script = script ++ item.append [] := by
  cases item with
  | opcode op => rfl
  | bytes b => exact pushBytes_eq_append script b
  | number n =>
    change pushInt64 script n.toInt = script ++ pushInt64 [] n.toInt
    unfold pushInt64
    split
    · rfl
    · exact pushBytes_eq_append script _

theorem build_cons (item : ScriptItem) (items : List ScriptItem) :
    build (item :: items) = item.append [] ++ build items := by
  have hfold : ∀ script, items.foldl append script = script ++ build items := by
    unfold build
    induction items with
    | nil => exact fun script ↦ (List.append_nil script).symm
    | cons item items ih =>
      intro script
      rw [List.foldl_cons, List.foldl_cons, ih, ih (item.append []), append_eq script, List.append_assoc]
  exact hfold _

theorem getOp_append (item : ScriptItem) (rest : CScript) (h : (item.append [] ++ rest).length < 2 ^ 32) :
    getOp (item.append [] ++ rest) = some (item.instruction, rest) := by
  have hbytes : ∀ v : Valtype, (pushBytes [] v ++ rest).length < 2 ^ 32 →
      getOp (pushBytes [] v ++ rest) = some (pushInstruction v, rest) := by
    intro v hv
    have hsize := Ledger.length_le_length_pushBytes v
    rw [List.length_append] at hv
    exact getOp_pushBytes (by rw [List.length_append]; omega)
  cases item with
  | opcode op => exact getOp_of_pushdata_lt op.2
  | bytes b => exact hbytes b h
  | number n =>
    change (pushInt64 [] n.toInt ++ rest).length < 2 ^ 32 at h
    change getOp (pushInt64 [] n.toInt ++ rest) = some ((number n).instruction, rest)
    unfold pushInt64 instruction at *
    dsimp only
    split
    · next hsmall =>
      apply getOp_of_pushdata_lt
      rw [UInt8.lt_iff_toNat_lt, UInt8.toNat_ofNat']
      change 0x4e < _
      omega
    · next hlarge =>
      rw [if_neg hlarge] at h
      exact hbytes _ h

theorem reads_build (items : List ScriptItem) (h : (build items).length < 2 ^ 32) :
    Reads (build items) (items.map instruction) := by
  induction items with
  | nil => exact .nil
  | cons item items ih =>
    rw [build_cons] at h ⊢
    have hrest : (build items).length < 2 ^ 32 := by
      rw [List.length_append] at h
      omega
    exact .cons (getOp_append item _ h) (ih hrest)

theorem short_getvch_toInt (n : BitVec 64) : Short (getvch n.toInt) := by
  apply short_getvch
  have hlow := BitVec.le_toInt n
  have hhigh := n.toInt_lt
  omega

theorem pushed_number (n : BitVec 64) : pushed (instruction (number n)) = getvch n.toInt := by
  unfold instruction
  dsimp only
  split
  · next hsmall =>
    have hvalue : (UInt8.ofNat (n.toInt + 0x50).toNat).toNat = (n.toInt + 0x50).toNat := by
      rw [UInt8.toNat_ofNat', Nat.mod_eq_of_lt (by omega)]
    have hnumber : ¬UInt8.ofNat (n.toInt + 0x50).toNat ≤ OP_PUSHDATA4 := by
      rw [UInt8.le_iff_toNat_le, hvalue]
      change ¬_ ≤ 0x4e
      omega
    have hback : ((n.toInt + 0x50).toNat : ℤ) - 0x50 = n.toInt := by omega
    rw [pushed, if_neg hnumber, hvalue]
    change getvch (((n.toInt + 0x50).toNat : ℤ) - 0x50) = _
    rw [hback]
  · rw [pushInstruction, pushed, if_pos (pushOpcode_le _)]

theorem isPush_number (n : BitVec 64) :
    IsPush (instruction (number n)) ∧ Short (instruction (number n)).vch := by
  unfold instruction
  dsimp only
  split
  · next hsmall =>
    have hall : ∀ m < 0x61, m = 0x4f ∨ 0x51 ≤ m → UInt8.ofNat m ∈ numberOpcodes := by decide
    exact ⟨.inr (hall _ (by omega) (by omega)), Nat.zero_le _⟩
  · exact ⟨.inl (pushOpcode_le _), short_getvch_toInt n⟩

theorem length_number_le (n : BitVec 64) : ((number n).append []).length ≤ 10000 := by
  change (pushInt64 [] n.toInt).length ≤ 10000
  unfold pushInt64
  split
  · exact Nat.le_of_ble_eq_true rfl
  · have hshort : (getvch n.toInt).length ≤ 520 := short_getvch_toInt n
    have hpush := length_pushBytes_le (short_getvch_toInt n)
    omega

/-- Running the push of a number leaves its bytes on the stack. -/
theorem evalScript_number (n : BitVec 64) {stack : Stack} (hroom : stack.length < 1000) :
    (evalScript C stack ((number n).append [])).result = .ok (getvch n.toInt :: stack) := by
  have hlength := length_number_le n
  have hop := getOp_append (number n) [] (by rw [List.append_nil]; omega)
  rw [List.append_nil] at hop
  have hreads : ReadsTo ((number n).append []) [(number n).instruction] [] := .cons hop .nil
  have hfuel : 0 < ((number n).append []).length := (Nat.zero_le _).trans_lt (length_lt_of_getOp hop)
  obtain ⟨fuel, hfuel⟩ := Nat.exists_eq_succ_of_ne_zero hfuel.ne'
  have hrun : (runFor (step C) atEnd .outOfFuel ((number n).append []).length
      (initialState stack ((number n).append []))).result =
      .ok (afterPushes (initialState stack ((number n).append [])) [(number n).instruction] []) := by
    rw [hfuel]
    refine (runFor_pushes (s := initialState stack ((number n).append [])) fuel hreads ?_ rfl ?_).trans ?_
    · intro instr hinstr
      rw [List.mem_singleton.mp hinstr]
      exact isPush_number n
    · change stack.length + 1 + 0 ≤ 1000
      omega
    · rw [runFor_done rfl]
      rfl
  unfold evalScript
  refine (Meets.refuse_bind_result (not_lt.mpr hlength) _).trans ?_
  rw [Metered.bind_result_of_ok hrun]
  refine (Meets.refuse_bind_result (fun hne ↦ hne rfl) _).trans ?_
  rw [afterPushes, List.map_singleton, pushed_number]
  rfl

/-- The bytes of a number are read as the number, by the interpreter if they are at most four. -/
theorem castToBigNum_getvch_iff (n : ℤ) :
    (castToBigNum (getvch n)).result = .ok n ↔ -2 ^ 31 < n ∧ n < 2 ^ 31 := by
  have hlength : (getvch n).length ≤ 4 ↔ n.natAbs < 2 ^ 31 := by
    unfold getvch
    rw [List.length_map, List.length_range]
    constructor
    · intro hle
      obtain hlt | hzero := lt_two_pow_mpiSize n.natAbs
      · exact hlt.trans_le (Nat.pow_le_pow_right (by norm_num) (by omega))
      · omega
    · intro hlt
      unfold mpiSize
      split
      · exact Nat.zero_le 4
      · next hzero =>
        have hlog := (Nat.log2_lt hzero).mpr hlt
        omega
  have hrange : n.natAbs < 2 ^ 31 ↔ -2 ^ 31 < n ∧ n < 2 ^ 31 := by omega
  rw [← hrange, ← hlength]
  unfold castToBigNum
  constructor
  · intro h
    obtain ⟨_, hsize, -⟩ := Metered.bind_result_eq_ok.mp h
    exact not_lt.mp (Meets.refuse_result_eq_ok.mp hsize)
  · intro h
    refine (Meets.refuse_bind_result (not_lt.mpr h) _).trans ?_
    rw [CBigNum.setvch_getvch, CBigNum.setvch_getvch]
    rfl

/-- A script of fewer than 2^32 bytes reads as its items, and a number that it pushes is the number again; the
interpreter takes it as a number if it has at most four bytes. -/
theorem build_roundTrip (C : Crypto) :
    (∀ items : List ScriptItem, (build items).length < 2 ^ 32 →
      Reads (build items) (items.map instruction)) ∧
    ∀ (n : BitVec 64) (stack : Stack), stack.length < 1000 →
      ∃ vch, (evalScript C stack (build [number n])).result = .ok (vch :: stack) ∧ setvch vch = n.toInt ∧
        ((castToBigNum vch).result = .ok n.toInt ↔ -2 ^ 31 < n.toInt ∧ n.toInt < 2 ^ 31) :=
  ⟨reads_build, fun n _ hroom ↦ ⟨getvch n.toInt, evalScript_number n hroom, CBigNum.setvch_getvch _,
    castToBigNum_getvch_iff _⟩⟩

theorem build_roundTrip_pair : Reads (build [number 5, bytes [7]]) [⟨0x55, []⟩, ⟨1, [7]⟩] :=
  (build_roundTrip ⟨fun _ ↦ .replicate 20 0, fun _ ↦ .replicate 20 0, fun _ ↦ .replicate 32 0,
    fun _ ↦ .replicate 20 0, fun _ ↦ .replicate 32 0, fun _ _ _ ↦ false⟩).1 [number 5, bytes [7]] (by decide)

/-- The size of the value is written as zero, and the value is left over. -/
theorem getOp_pushBytes_full {v : Valtype} (hv : v.length = 2 ^ 32) :
    getOp (pushBytes [] v) = some (⟨OP_PUSHDATA4, []⟩, v) := by
  have hfield : (List.range 4).map (fun i ↦ UInt8.ofNat (v.length / 256 ^ i)) = [0, 0, 0, 0] := by
    rw [hv]
    decide
  have hpush : pushBytes [] v = OP_PUSHDATA4 :: ([0, 0, 0, 0] ++ v) := by
    unfold pushBytes
    rw [if_neg (by omega), if_neg (by omega), if_neg (by omega), hfield]
    rfl
  have hroom : ¬([0, 0, 0, 0] ++ v).length < 4 := by
    rw [List.length_append]
    exact not_lt.mpr (Nat.le_add_right 4 _)
  rw [hpush]
  change getSized OP_PUSHDATA4 4 ([0, 0, 0, 0] ++ v) = _
  rw [getSized, if_neg hroom]
  change getOperand OP_PUSHDATA4 0 v = _
  rw [getOperand, if_neg (Nat.not_lt_zero _)]
  rfl

/-- A vector of 2^32 bytes does not come back. -/
theorem not_reads_build : ¬∀ items : List ScriptItem, Reads (build items) (items.map instruction) := by
  intro h
  obtain ⟨v, hv⟩ : ∃ v : Valtype, v.length = 2 ^ 32 := ⟨List.replicate (2 ^ 32) 0, List.length_replicate⟩
  obtain ⟨rest, hop, -⟩ := readsTo_cons_iff.mp (h [bytes v])
  have hinstr := (Prod.mk.inj (Option.some.inj ((getOp_pushBytes_full hv).symm.trans hop))).1
  have hnone : [] = v := congrArg Instruction.vch hinstr
  rw [← hnone, List.length_nil] at hv
  omega

end ScriptItem

end Electra.Script
