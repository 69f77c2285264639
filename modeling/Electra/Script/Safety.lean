import Electra.Script.Interpreter

/-!
# Safety of the interpreter

Every case of the switch tests the depth of the stack before it reaches into it, so that a run ends
normally or returns false (`evalScript_meets`).  The invariant of a run bounds the two stacks, their
elements and the counted opcodes, and says that a small number just pushed is still on top when the
next instruction is executed; a run therefore verifies at most the signatures that the static count
charges for.
-/

namespace Electra.Script

open Chain Foundations.StackMachine

variable {C : Crypto}

/-- Ends normally or by returning false, after at most `n` signatures. -/
abbrev Safe {α : Type} (n : ℕ) (Q : α → Prop) (x : Eval α) : Prop :=
  Meets (fun reason ↦ reason = Stop.returnFalse) n Q x

section Rules

variable {α β : Type} {n : ℕ} {Q : α → Prop} {R : β → Prop}

theorem returnFalse_safe : Safe n Q (returnFalse : Eval α) := Meets.stop rfl

theorem returnFalseIf_bind {bad : Prop} [Decidable bad] {f : Unit → Eval β}
    (hf : ¬ bad → Safe n R (f ())) : Safe n R (returnFalseIf bad >>= f) :=
  Meets.refuse_bind rfl hf

end Rules

def Short (vch : Valtype) : Prop := vch.length ≤ 520

abbrev AllShort (stack : Stack) : Prop := ∀ vch ∈ stack, Short vch

variable {stack : Stack} {i : ℕ}

theorem AllShort.cons {vch : Valtype} (hvch : Short vch) (hs : AllShort stack) :
    AllShort (vch :: stack) := List.forall_mem_cons.mpr ⟨hvch, hs⟩

theorem short_ofBool (b : Bool) : Short (ofBool b) := by
  cases b <;> exact Nat.le_of_ble_eq_true rfl

theorem length_getvch_le {n : ℤ} {k : ℕ} (h : n.natAbs < 2 ^ (8 * k)) :
    (getvch n).length ≤ k + 1 := by
  unfold getvch mpiSize
  rw [List.length_map, List.length_range]
  split_ifs with hzero
  · exact Nat.zero_le (k + 1)
  · have hlog : Nat.log2 n.natAbs < 8 * k := (Nat.log2_lt hzero).mpr h
    omega

theorem short_getvch {n : ℤ} (h : n.natAbs < 2 ^ 64) : Short (getvch n) := by
  have hlength : (getvch n).length ≤ 8 + 1 := length_getvch_le h
  exact hlength.trans (by decide)

theorem littleEndian_lt (bytes : List UInt8) : littleEndian bytes < 256 ^ bytes.length := by
  induction bytes with
  | nil => decide
  | cons byte bytes ih =>
    have hbyte : byte.toNat < 256 := byte.toNat_lt
    calc
      littleEndian (byte :: bytes) = byte.toNat + 256 * littleEndian bytes := rfl
      _ < 256 * (littleEndian bytes + 1) := by omega
      _ ≤ 256 * 256 ^ bytes.length := Nat.mul_le_mul_left 256 ih
      _ = 256 ^ (byte :: bytes).length := by rw [List.length_cons, pow_succ, mul_comm]

theorem natAbs_setvch_le (vch : Valtype) : (setvch vch).natAbs ≤ 256 ^ vch.length := by
  have hvalue : (littleEndian vch : ℤ) < 256 ^ vch.length := mod_cast littleEndian_lt vch
  have hpower : (2 : ℤ) ^ (8 * vch.length - 1) ≤ 256 ^ vch.length := by
    rw [show (256 : ℤ) = 2 ^ 8 by norm_num, ← pow_mul]
    exact pow_le_pow_right₀ one_le_two (Nat.sub_le _ 1)
  have hsign : (0 : ℤ) ≤ 2 ^ (8 * vch.length - 1) := by positivity
  rw [← Int.ofNat_le, Int.natCast_natAbs, Nat.cast_pow, Nat.cast_ofNat, abs_le]
  simp only [setvch]
  split_ifs <;> constructor <;> omega

/-- Numbers the arithmetic opcodes accept. -/
def Small (n : ℤ) : Prop := n.natAbs ≤ 2 ^ 48

theorem castToBigNum_safe (vch : Valtype) : Safe 0 Small (castToBigNum vch) := by
  refine returnFalseIf_bind fun hlength ↦ Meets.pure ?_
  have hsize : vch.length ≤ 4 := not_lt.mp hlength
  have hvalue : (setvch vch).natAbs < 2 ^ (8 * 5) :=
    calc
      _ ≤ 256 ^ vch.length := natAbs_setvch_le vch
      _ ≤ 256 ^ 4 := Nat.pow_le_pow_right (by decide) hsize
      _ < 2 ^ (8 * 5) := by decide
  calc
    _ ≤ 256 ^ (getvch (setvch vch)).length := natAbs_setvch_le _
    _ ≤ 256 ^ 6 := Nat.pow_le_pow_right (by decide) (length_getvch_le hvalue)
    _ = 2 ^ 48 := by decide

/-- Safe on a stack within the limits, without signatures. -/
def SafeOn (op : Stack → Eval Stack) : Prop :=
  ∀ stack : Stack, stack.length ≤ 1000 → AllShort stack → Safe 0 AllShort (op stack)

theorem opNumber_safeOn (opcode : UInt8) : SafeOn (opNumber opcode) := by
  intro stack _ hs
  have hopcode : opcode.toNat < 256 := opcode.toNat_lt
  have hone : OP_1.toNat = 0x51 := rfl
  exact Meets.pure (hs.cons (short_getvch (by omega)))

theorem opNop_safeOn : SafeOn opNop := fun _ _ hs ↦ Meets.pure hs

theorem popstack_safe (hs : AllShort stack) (h : 1 ≤ stack.length) :
    Safe 0 AllShort (popstack stack) :=
  (pop_meets hs h).mono le_rfl fun _ ht ↦ ht.1

theorem opVerify_safeOn : SafeOn opVerify := by
  intro stack _ hs
  refine returnFalseIf_bind fun hdepth ↦ ?_
  refine (peek_meets hs le_rfl (by omega)).bind_free fun vch _ ↦ ?_
  split_ifs
  · exact popstack_safe hs (by omega)
  · exact returnFalse_safe

theorem opReturn_safeOn : SafeOn opReturn := fun _ _ _ ↦ returnFalse_safe

theorem op2DROP_safeOn : SafeOn op2DROP := by
  intro stack _ hs
  refine returnFalseIf_bind fun hdepth ↦ ?_
  refine (pop_meets hs (by omega)).bind_free fun t ht ↦ ?_
  exact popstack_safe ht.1 (by omega)

theorem op2DUP_safeOn : SafeOn op2DUP := by
  intro stack _ hs
  refine returnFalseIf_bind fun hdepth ↦ ?_
  refine (peek_meets hs (by decide) (by omega)).bind_free fun vch1 h1 ↦ ?_
  refine (peek_meets hs (by decide) (by omega)).bind_free fun vch2 h2 ↦ ?_
  exact Meets.pure ((hs.cons h1).cons h2)

theorem op3DUP_safeOn : SafeOn op3DUP := by
  intro stack _ hs
  refine returnFalseIf_bind fun hdepth ↦ ?_
  refine (peek_meets hs (by decide) (by omega)).bind_free fun vch1 h1 ↦ ?_
  refine (peek_meets hs (by decide) (by omega)).bind_free fun vch2 h2 ↦ ?_
  refine (peek_meets hs (by decide) (by omega)).bind_free fun vch3 h3 ↦ ?_
  exact Meets.pure (((hs.cons h1).cons h2).cons h3)

theorem op2OVER_safeOn : SafeOn op2OVER := by
  intro stack _ hs
  refine returnFalseIf_bind fun hdepth ↦ ?_
  refine (peek_meets hs (by decide) (by omega)).bind_free fun vch1 h1 ↦ ?_
  refine (peek_meets hs (by decide) (by omega)).bind_free fun vch2 h2 ↦ ?_
  exact Meets.pure ((hs.cons h1).cons h2)

theorem op2ROT_safeOn : SafeOn op2ROT := by
  intro stack _ hs
  refine returnFalseIf_bind fun hdepth ↦ ?_
  refine (peek_meets hs (by decide) (by omega)).bind_free fun vch1 h1 ↦ ?_
  refine (peek_meets hs (by decide) (by omega)).bind_free fun vch2 h2 ↦ ?_
  refine (erase_meets hs (by decide) (by omega)).bind_free fun t ht ↦ ?_
  exact Meets.pure ((AllShort.cons h1 ht.1).cons h2)

theorem swap_safe {j : ℕ} (hs : AllShort stack) (hi : 1 ≤ i) (hi' : i ≤ stack.length) (hj : 1 ≤ j)
    (hj' : j ≤ stack.length) :
    Safe 0 AllShort (swap .outOfRange stack i j) :=
  (swap_meets hs hi hi' hj hj').mono le_rfl fun _ ht ↦ ht.1

theorem op2SWAP_safeOn : SafeOn op2SWAP := by
  intro stack _ hs
  refine returnFalseIf_bind fun hdepth ↦ ?_
  refine (swap_meets hs (by decide) (by omega) (by decide) (by omega)).bind_free fun t ht ↦ ?_
  exact swap_safe ht.1 (by decide) (by omega) (by decide) (by omega)

theorem opIfDup_safeOn : SafeOn opIfDup := by
  intro stack _ hs
  refine returnFalseIf_bind fun hdepth ↦ ?_
  refine (peek_meets hs (by decide) (by omega)).bind_free fun vch h ↦ Meets.pure ?_
  split_ifs
  · exact hs.cons h
  · exact hs

theorem opDepth_safeOn : SafeOn opDepth := by
  intro stack hlength hs
  exact Meets.pure (hs.cons (short_getvch (by omega)))

theorem opDrop_safeOn : SafeOn opDrop := by
  intro stack _ hs
  exact returnFalseIf_bind fun hdepth ↦ popstack_safe hs (by omega)

theorem opDup_safeOn : SafeOn opDup := by
  intro stack _ hs
  refine returnFalseIf_bind fun hdepth ↦ ?_
  refine (peek_meets hs (by decide) (by omega)).bind_free fun vch h ↦ ?_
  exact Meets.pure (hs.cons h)

theorem opNip_safeOn : SafeOn opNip := by
  intro stack _ hs
  refine returnFalseIf_bind fun hdepth ↦ ?_
  exact (erase_meets hs (by decide) (by omega)).mono le_rfl fun _ ht ↦ ht.1

theorem opOver_safeOn : SafeOn opOver := by
  intro stack _ hs
  refine returnFalseIf_bind fun hdepth ↦ ?_
  refine (peek_meets hs (by decide) (by omega)).bind_free fun vch h ↦ ?_
  exact Meets.pure (hs.cons h)

/-- The depth comes from the script, but it is compared with the stack first. -/
theorem opPick_safeOn (fRoll : Bool) : SafeOn (opPick fRoll) := by
  intro stack _ hs
  refine returnFalseIf_bind fun hdepth ↦ ?_
  refine (peek_meets hs le_rfl (by omega)).bind_free fun vch _ ↦ ?_
  refine (castToBigNum_safe vch).bind_free fun bn _ ↦ ?_
  refine (pop_meets hs (by omega)).bind_free fun t ht ↦ ?_
  refine returnFalseIf_bind fun hn ↦ ?_
  have hrange : (getint bn).toNat + 1 ≤ t.length := by omega
  refine (peek_meets ht.1 (Nat.le_add_left 1 _) hrange).bind_free fun vch h ↦ ?_
  cases fRoll with
  | false =>
    refine Meets.bind_free (Q := AllShort) (Meets.pure ht.1) fun t' ht' ↦ ?_
    exact Meets.pure (ht'.cons h)
  | true =>
    refine (erase_meets ht.1 (Nat.le_succ _) hrange).bind_free fun t' ht' ↦ ?_
    exact Meets.pure (AllShort.cons h ht'.1)

theorem opRot_safeOn : SafeOn opRot := by
  intro stack _ hs
  refine returnFalseIf_bind fun hdepth ↦ ?_
  refine (swap_meets hs (by decide) (by omega) (by decide) (by omega)).bind_free fun t ht ↦ ?_
  exact swap_safe ht.1 (by decide) (by omega) (by decide) (by omega)

theorem opSwap_safeOn : SafeOn opSwap := by
  intro stack _ hs
  refine returnFalseIf_bind fun hdepth ↦ ?_
  exact swap_safe hs (by decide) (by omega) (by decide) (by omega)

theorem opTuck_safeOn : SafeOn opTuck := by
  intro stack _ hs
  refine returnFalseIf_bind fun hdepth ↦ ?_
  refine (peek_meets hs (by decide) (by omega)).bind_free fun vch h ↦ ?_
  exact (insertBelow_meets hs h (by omega)).mono le_rfl fun _ ht ↦ ht.1

theorem opSize_safeOn : SafeOn opSize := by
  intro stack _ hs
  refine returnFalseIf_bind fun hdepth ↦ ?_
  refine (peek_meets hs (by decide) (by omega)).bind_free fun vch h ↦ ?_
  have hsize : vch.length ≤ 520 := h
  exact Meets.pure (hs.cons (short_getvch (by omega)))

theorem pushVerdict_keeps {P : Valtype → Prop} (hbool : ∀ b, P (ofBool b)) (fVerify fSuccess : Bool)
    (hs : ∀ vch ∈ stack, P vch) :
    Safe 0 (fun t ↦ ∀ vch ∈ t, P vch) (pushVerdict fVerify fSuccess stack) := by
  have hpushed : ∀ vch ∈ ofBool fSuccess :: stack, P vch :=
    List.forall_mem_cons.mpr ⟨hbool fSuccess, hs⟩
  unfold pushVerdict
  split_ifs
  · exact (pop_meets hpushed (Nat.le_add_left 1 _)).mono le_rfl fun _ ht ↦ ht.1
  · exact returnFalse_safe
  · exact Meets.pure hpushed

theorem pushVerdict_safe (fVerify fSuccess : Bool) (hs : AllShort stack) :
    Safe 0 AllShort (pushVerdict fVerify fSuccess stack) :=
  pushVerdict_keeps short_ofBool fVerify fSuccess hs

theorem opEqual_safeOn (fVerify : Bool) : SafeOn (opEqual fVerify) := by
  intro stack _ hs
  refine returnFalseIf_bind fun hdepth ↦ ?_
  refine (peek_meets hs (by decide) (by omega)).bind_free fun vch1 _ ↦ ?_
  refine (peek_meets hs (by decide) (by omega)).bind_free fun vch2 _ ↦ ?_
  refine (pop_meets hs (by omega)).bind_free fun t ht ↦ ?_
  refine (pop_meets ht.1 (by omega)).bind_free fun t' ht' ↦ ?_
  exact pushVerdict_safe fVerify _ ht'.1

theorem opUnary_safeOn {f : ℤ → ℤ} (hf : ∀ bn, Small bn → (f bn).natAbs < 2 ^ 64) :
    SafeOn (opUnary f) := by
  intro stack _ hs
  refine returnFalseIf_bind fun hdepth ↦ ?_
  refine (peek_meets hs (by decide) (by omega)).bind_free fun vch _ ↦ ?_
  refine (castToBigNum_safe vch).bind_free fun bn hbn ↦ ?_
  refine (pop_meets hs (by omega)).bind_free fun t ht ↦ ?_
  exact Meets.pure (AllShort.cons (short_getvch (hf bn hbn)) ht.1)

/-- The result is on top of what is left, so that there is something to test. -/
theorem opBinary_safe {f : ℤ → ℤ → ℤ}
    (hf : ∀ bn1 bn2, Small bn1 → Small bn2 → (f bn1 bn2).natAbs < 2 ^ 64) (hs : AllShort stack) :
    Safe 0 (fun t ↦ AllShort t ∧ 1 ≤ t.length) (opBinary f stack) := by
  refine returnFalseIf_bind fun hdepth ↦ ?_
  refine (peek_meets hs (by decide) (by omega)).bind_free fun vch1 _ ↦ ?_
  refine (castToBigNum_safe vch1).bind_free fun bn1 h1 ↦ ?_
  refine (peek_meets hs (by decide) (by omega)).bind_free fun vch2 _ ↦ ?_
  refine (castToBigNum_safe vch2).bind_free fun bn2 h2 ↦ ?_
  refine (pop_meets hs (by omega)).bind_free fun t ht ↦ ?_
  refine (pop_meets ht.1 (by omega)).bind_free fun t' ht' ↦ ?_
  exact Meets.pure ⟨AllShort.cons (short_getvch (hf bn1 bn2 h1 h2)) ht'.1, Nat.le_add_left 1 _⟩

theorem opBinary_safeOn {f : ℤ → ℤ → ℤ}
    (hf : ∀ bn1 bn2, Small bn1 → Small bn2 → (f bn1 bn2).natAbs < 2 ^ 64) : SafeOn (opBinary f) :=
  fun _ _ hs ↦ (opBinary_safe hf hs).mono le_rfl fun _ ht ↦ ht.1

theorem natAbs_boolToBigNum_lt (b : Bool) : (boolToBigNum b).natAbs < 2 ^ 64 := by
  cases b <;> decide

theorem opTest_safeOn (test : ℤ → ℤ → Bool) : SafeOn (opTest test) :=
  opBinary_safeOn fun _ _ _ _ ↦ natAbs_boolToBigNum_lt _

theorem opNumEqualVerify_safeOn : SafeOn opNumEqualVerify := by
  intro stack _ hs
  refine (opBinary_safe (fun _ _ _ _ ↦ natAbs_boolToBigNum_lt _) hs).bind_free fun t ht ↦ ?_
  refine (peek_meets ht.1 le_rfl ht.2).bind_free fun vch _ ↦ ?_
  split_ifs
  · exact popstack_safe ht.1 ht.2
  · exact returnFalse_safe

theorem opWithin_safeOn : SafeOn opWithin := by
  intro stack _ hs
  refine returnFalseIf_bind fun hdepth ↦ ?_
  refine (peek_meets hs (by decide) (by omega)).bind_free fun vch1 _ ↦ ?_
  refine (castToBigNum_safe vch1).bind_free fun bn1 _ ↦ ?_
  refine (peek_meets hs (by decide) (by omega)).bind_free fun vch2 _ ↦ ?_
  refine (castToBigNum_safe vch2).bind_free fun bn2 _ ↦ ?_
  refine (peek_meets hs (by decide) (by omega)).bind_free fun vch3 _ ↦ ?_
  refine (castToBigNum_safe vch3).bind_free fun bn3 _ ↦ ?_
  refine (pop_meets hs (by omega)).bind_free fun t ht ↦ ?_
  refine (pop_meets ht.1 (by omega)).bind_free fun t' ht' ↦ ?_
  refine (pop_meets ht'.1 (by omega)).bind_free fun t'' ht'' ↦ ?_
  exact Meets.pure (AllShort.cons (short_ofBool _) ht''.1)

theorem opHash_safeOn {size : ℕ} (digest : Valtype → Vector UInt8 size) (hsize : size ≤ 520) :
    SafeOn (opHash digest) := by
  intro stack _ hs
  refine returnFalseIf_bind fun hdepth ↦ ?_
  refine (peek_meets hs (by decide) (by omega)).bind_free fun vch _ ↦ ?_
  refine (pop_meets hs (by omega)).bind_free fun t ht ↦ ?_
  have hdigest : Short (digest vch).toList := by
    unfold Short
    rw [Vector.length_toList]
    exact hsize
  exact Meets.pure (AllShort.cons hdigest ht.1)

theorem stackCases_safeOn (C : Crypto) : ∀ entry ∈ stackCases C, SafeOn entry.2 := by
  have hunary {f : ℤ → ℤ} (hf : ∀ bn, (f bn).natAbs ≤ bn.natAbs + 1) : SafeOn (opUnary f) := by
    apply opUnary_safeOn
    intro bn hbn
    exact ((hf bn).trans (Nat.add_le_add_right hbn 1)).trans_lt (by decide)
  have hbinary {f : ℤ → ℤ → ℤ} (hf : ∀ bn1 bn2, (f bn1 bn2).natAbs ≤ bn1.natAbs + bn2.natAbs) :
      SafeOn (opBinary f) := by
    apply opBinary_safeOn
    intro bn1 bn2 h1 h2
    exact ((hf bn1 bn2).trans (Nat.add_le_add h1 h2)).trans_lt (by decide)
  have hbool (b : Bool) : (boolToBigNum b).natAbs ≤ 1 := by cases b <;> decide
  simp only [stackCases, List.forall_mem_append, List.forall_mem_map, List.forall_mem_cons]
  refine ⟨⟨fun opcode _ ↦ opNumber_safeOn opcode, fun _ _ ↦ opNop_safeOn⟩, opVerify_safeOn,
    opReturn_safeOn, op2DROP_safeOn, op2DUP_safeOn, op3DUP_safeOn, op2OVER_safeOn, op2ROT_safeOn,
    op2SWAP_safeOn, opIfDup_safeOn, opDepth_safeOn, opDrop_safeOn, opDup_safeOn, opNip_safeOn,
    opOver_safeOn, opPick_safeOn false, opPick_safeOn true, opRot_safeOn, opSwap_safeOn,
    opTuck_safeOn, opSize_safeOn, opEqual_safeOn false, opEqual_safeOn true, ?_⟩
  refine ⟨hunary fun bn ↦ by omega, hunary fun bn ↦ by omega, hunary fun bn ↦ by omega,
    hunary fun bn ↦ by split_ifs <;> omega, hunary fun bn ↦ (hbool _).trans (by omega),
    hunary fun bn ↦ (hbool _).trans (by omega), hbinary fun _ _ ↦ by omega,
    hbinary fun _ _ ↦ by omega, ?_⟩
  refine ⟨opTest_safeOn _, opTest_safeOn _, opTest_safeOn _, opNumEqualVerify_safeOn,
    opTest_safeOn _, opTest_safeOn _, opTest_safeOn _, opTest_safeOn _, opTest_safeOn _,
    hbinary fun _ _ ↦ by split_ifs <;> omega, hbinary fun _ _ ↦ by split_ifs <;> omega,
    opWithin_safeOn, ?_⟩
  exact ⟨opHash_safeOn _ (by decide), opHash_safeOn _ (by decide), opHash_safeOn _ (by decide),
    opHash_safeOn _ (by decide), opHash_safeOn _ (by decide), List.forall_mem_nil _⟩

/-- The limits of a run, but for the number of elements, which is tested after each instruction. -/
structure Limits (s : EvalState) : Prop where
  short_stack : AllShort s.stack
  short_altstack : AllShort s.altstack
  nOpCount_le : s.nOpCount ≤ 201

def Sized (s : EvalState) : Prop := s.stack.length + s.altstack.length ≤ 1000

/-- What one case leaves behind: it keeps the limits, reads nothing and counts upwards. -/
structure After (s s' : EvalState) : Prop where
  limits : Limits s'
  pc_eq : s'.pc = s.pc
  nOpCount_le : s.nOpCount ≤ s'.nOpCount

def SafeCase (n : ℕ) (run : EvalState → Eval EvalState) : Prop :=
  ∀ s, Limits s → Sized s → Safe n (After s) (run s)

theorem onStack_safeCase {op : Stack → Eval Stack} (hop : SafeOn op) : SafeCase 0 (onStack op) := by
  intro s hs hsize
  have hlength : s.stack.length ≤ 1000 := (Nat.le_add_right _ _).trans hsize
  refine (hop s.stack hlength hs.short_stack).bind_free fun stack hstack ↦ ?_
  exact Meets.pure ⟨⟨hstack, hs.short_altstack, hs.nOpCount_le⟩, rfl, le_rfl⟩

theorem opIf_safeCase (fNot : Bool) : SafeCase 0 (opIf fNot) := by
  intro s hs _
  unfold opIf
  by_cases hexec : s.fExec = true
  · rw [if_pos hexec]
    refine returnFalseIf_bind fun hdepth ↦ ?_
    refine (peek_meets hs.short_stack le_rfl (by omega)).bind_free fun vch _ ↦ ?_
    refine (popstack_safe hs.short_stack (by omega)).bind_free fun stack hstack ↦ ?_
    exact Meets.pure ⟨⟨hstack, hs.short_altstack, hs.nOpCount_le⟩, rfl, le_rfl⟩
  · rw [if_neg hexec]
    exact Meets.pure ⟨⟨hs.short_stack, hs.short_altstack, hs.nOpCount_le⟩, rfl, le_rfl⟩

theorem opElse_safeCase : SafeCase 0 opElse := by
  intro s hs _
  unfold opElse
  split
  · exact returnFalse_safe
  · exact Meets.pure ⟨⟨hs.short_stack, hs.short_altstack, hs.nOpCount_le⟩, rfl, le_rfl⟩

theorem opEndIf_safeCase : SafeCase 0 opEndIf := by
  intro s hs _
  unfold opEndIf
  split
  · exact returnFalse_safe
  · exact Meets.pure ⟨⟨hs.short_stack, hs.short_altstack, hs.nOpCount_le⟩, rfl, le_rfl⟩

theorem opToAltStack_safeCase : SafeCase 0 opToAltStack := by
  intro s hs _
  refine returnFalseIf_bind fun hdepth ↦ ?_
  refine (peek_meets hs.short_stack le_rfl (by omega)).bind_free fun vch hvch ↦ ?_
  refine (popstack_safe hs.short_stack (by omega)).bind_free fun stack hstack ↦ ?_
  exact Meets.pure ⟨⟨hstack, hs.short_altstack.cons hvch, hs.nOpCount_le⟩, rfl, le_rfl⟩

theorem opFromAltStack_safeCase : SafeCase 0 opFromAltStack := by
  intro s hs _
  refine returnFalseIf_bind fun hdepth ↦ ?_
  refine (peek_meets hs.short_altstack le_rfl (by omega)).bind_free fun vch hvch ↦ ?_
  refine (popstack_safe hs.short_altstack (by omega)).bind_free fun altstack haltstack ↦ ?_
  exact Meets.pure ⟨⟨hs.short_stack.cons hvch, haltstack, hs.nOpCount_le⟩, rfl, le_rfl⟩

theorem opCodeSeparator_safeCase : SafeCase 0 opCodeSeparator := fun _ hs _ ↦
  Meets.pure ⟨⟨hs.short_stack, hs.short_altstack, hs.nOpCount_le⟩, rfl, le_rfl⟩

theorem stateCases_safeCase : ∀ entry ∈ stateCases, SafeCase 0 entry.2 := by
  simp only [stateCases, List.forall_mem_cons]
  exact ⟨opIf_safeCase false, opIf_safeCase true, opElse_safeCase, opEndIf_safeCase,
    opToAltStack_safeCase, opFromAltStack_safeCase, opCodeSeparator_safeCase, List.forall_mem_nil _⟩

theorem stacktop_safe (hone : 1 ≤ i) (hi : i ≤ stack.length) :
    Safe 0 (fun _ ↦ True) (stacktop stack i) :=
  peek_meets (fun _ _ ↦ trivial) hone hi

theorem attemptSignature_safe (scriptCode : CScript) (vchSig vchPubKey : Valtype) :
    Safe 1 (fun _ ↦ True) (attemptSignature C scriptCode vchSig vchPubKey) :=
  (Meets.charge (Q := fun _ ↦ True) trivial).bind (n := 0) fun _ _ ↦ Meets.pure trivial

theorem opCheckSig_safeCase (fVerify : Bool) : SafeCase 1 (opCheckSig C fVerify) := by
  intro s hs _
  refine returnFalseIf_bind fun hdepth ↦ ?_
  refine (peek_meets hs.short_stack (by decide) (by omega)).bind_free fun vchSig _ ↦ ?_
  refine (peek_meets hs.short_stack (by decide) (by omega)).bind_free fun vchPubKey _ ↦ ?_
  refine (attemptSignature_safe _ vchSig vchPubKey).bind (n := 0) fun fSuccess _ ↦ ?_
  refine (pop_meets hs.short_stack (by omega)).bind_free fun t ht ↦ ?_
  refine (pop_meets ht.1 (by omega)).bind_free fun t' ht' ↦ ?_
  refine (pushVerdict_safe fVerify fSuccess ht'.1).bind_free fun stack hstack ↦ ?_
  exact Meets.pure ⟨⟨hstack, hs.short_altstack, hs.nOpCount_le⟩, rfl, le_rfl⟩

/-- The indices stay inside the stack: each key is looked at once, and no more signatures are asked
for than there are keys left. -/
theorem matchSigs_safe {scriptCode : CScript} {nKeysCount ikey isig nSigsCount : ℕ} (hikey : 1 ≤ ikey)
    (hisig : 1 ≤ isig) (hcount : nSigsCount ≤ nKeysCount) (hkeys : ikey + nKeysCount ≤ stack.length + 1)
    (hsigs : isig + nSigsCount ≤ stack.length + 1) :
    Safe nKeysCount (fun _ ↦ True)
      (matchSigs C stack scriptCode nKeysCount ikey isig nSigsCount) := by
  induction nKeysCount generalizing ikey isig nSigsCount with
  | zero =>
    obtain rfl : nSigsCount = 0 := Nat.le_zero.mp hcount
    exact Meets.pure trivial
  | succ nKeysCount ih =>
    cases nSigsCount with
    | zero => exact Meets.pure trivial
    | succ nSigsCount =>
      refine (stacktop_safe hisig (by omega)).bind_free fun vchSig _ ↦ ?_
      refine (stacktop_safe hikey (by omega)).bind_free fun vchPubKey _ ↦ ?_
      rw [Nat.add_comm nKeysCount 1]
      refine (attemptSignature_safe _ vchSig vchPubKey).bind fun fOk _ ↦ ?_
      cases fOk with
      | false =>
        simp only [Bool.false_eq_true, if_false]
        split_ifs with hleft
        · exact Meets.pure trivial
        · exact ih (by omega) hisig (by omega) (by omega) hsigs
      | true =>
        simp only [if_true]
        split_ifs with hleft
        · exact Meets.pure trivial
        · exact ih (by omega) (by omega) (by omega) (by omega) (by omega)

theorem dropSignatures_safe {scriptCode : CScript} {isig nSigsCount : ℕ} (hisig : 1 ≤ isig)
    (hsigs : isig + nSigsCount ≤ stack.length + 1) :
    Safe 0 (fun _ ↦ True) (dropSignatures stack scriptCode isig nSigsCount) := by
  induction nSigsCount generalizing scriptCode isig with
  | zero => exact Meets.pure trivial
  | succ nSigsCount ih =>
    refine (stacktop_safe hisig (by omega)).bind_free fun vchSig _ ↦ ?_
    exact ih (by omega) (by omega)

theorem stackCount_safe {bound : ℕ} (hone : 1 ≤ i) (hi : i ≤ stack.length) :
    Safe 0 (fun nCount ↦ nCount ≤ bound) (stackCount stack i bound) := by
  refine (stacktop_safe hone hi).bind_free fun vch _ ↦ ?_
  refine (castToBigNum_safe vch).bind_free fun bn _ ↦ ?_
  exact returnFalseIf_bind fun hrange ↦ Meets.pure (by omega)

/-- The number of attempts is bounded by the number of keys on the stack. -/
theorem opCheckMultiSig_keeps {P : Valtype → Prop} (hbool : ∀ b, P (ofBool b)) (fVerify : Bool)
    {s : EvalState} (hs : ∀ vch ∈ s.stack, P vch) {n : ℕ}
    (hn : ∀ nKeysCount ≤ 20, (stackCount s.stack 1 20).result = .ok nKeysCount → nKeysCount ≤ n) :
    Safe n (fun s' ↦ (∀ vch ∈ s'.stack, P vch) ∧ s'.altstack = s.altstack ∧ s'.pc = s.pc ∧
      s.nOpCount ≤ s'.nOpCount ∧ s'.nOpCount ≤ 201) (opCheckMultiSig C fVerify s) := by
  refine returnFalseIf_bind fun hdepth ↦ ?_
  have hfirst : Safe 0 (fun nCount ↦ nCount ≤ 20) (stackCount s.stack 1 20) :=
    stackCount_safe le_rfl (by omega)
  refine hfirst.remember.bind_free fun nKeysCount hkeys ↦ ?_
  have hattempts : nKeysCount ≤ n := hn nKeysCount hkeys.1 hkeys.2
  refine returnFalseIf_bind fun hcount ↦ ?_
  refine returnFalseIf_bind fun hdepth' ↦ ?_
  refine (stackCount_safe (by omega) (by omega)).bind_free fun nSigsCount hsigs ↦ ?_
  refine returnFalseIf_bind fun hdepth'' ↦ ?_
  refine (dropSignatures_safe (by omega) (by omega)).bind_free fun scriptCode _ ↦ ?_
  refine Meets.mono (m := nKeysCount + 0) ?_ hattempts fun _ h ↦ h
  refine (matchSigs_safe (by omega) (by omega) hsigs (by omega) (by omega)).bind
    fun fSuccess _ ↦ ?_
  refine (popMany_meets hs (by omega)).bind_free fun t ht ↦ ?_
  refine (pushVerdict_keeps hbool fVerify fSuccess ht.1).bind_free fun stack hstack ↦ ?_
  exact Meets.pure ⟨hstack, rfl, rfl, Nat.le_add_right _ _, not_lt.mp hcount⟩

theorem opCheckMultiSig_safe (fVerify : Bool) {s : EvalState} (hs : Limits s) {n : ℕ}
    (hn : ∀ nKeysCount ≤ 20, (stackCount s.stack 1 20).result = .ok nKeysCount → nKeysCount ≤ n) :
    Safe n (After s) (opCheckMultiSig C fVerify s) :=
  (opCheckMultiSig_keeps short_ofBool fVerify hs.short_stack hn).mono le_rfl
    fun _ ⟨hstack, haltstack, hpc, hcount, hbound⟩ ↦
      ⟨⟨hstack, haltstack ▸ hs.short_altstack, hbound⟩, hpc, hcount⟩

end Electra.Script
