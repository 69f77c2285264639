import Electra.Script.EvalRun

/-!
# Verifying a script

`VerifyScript` runs the two scripts on one stack and, for pay-to-script-hash, the redeem script that
the first one pushed last.  A redeem script is there to be read because hashing it succeeded.
-/

namespace Electra.Script

open Chain Foundations.StackMachine

variable {C : Crypto}

theorem getSigOpCount_of_isPayToScriptHash {script : CScript}
    (h : isPayToScriptHash script = true) : getSigOpCount true script = 0 := by
  obtain ⟨hash, hlength, rfl⟩ := shape_of_isPayToScriptHash h
  have hpush : getOp (0x14 :: (hash ++ [OP_EQUAL])) = some (⟨0x14, hash⟩, [OP_EQUAL]) := by
    apply getOp_direct (by decide) hlength
    rw [List.length_append, hlength]
    decide
  have hfuel : (OP_HASH160 :: 0x14 :: (hash ++ [OP_EQUAL])).length = 20 + 3 := by
    rw [List.length_cons, List.length_cons, List.length_append, hlength]
    rfl
  rw [getSigOpCount, hfuel, getSigOpCountFrom, getOp_of_pushdata_lt (by decide)]
  simp only [getSigOpCountFrom, hpush]
  rfl

/-- Hashing fails on an empty stack. -/
theorem step_hash160_nil (pc : CScript) :
    step C (initialState [] (OP_HASH160 :: pc)) = returnFalse := rfl

variable {stack : Stack} {instr : Instruction} {s s' : EvalState}

theorem evalScript_hash160_nil (pc : CScript) :
    (evalScript C [] (OP_HASH160 :: pc)).result ≠ .ok stack := by
  intro h
  obtain ⟨_, _, h⟩ := Metered.bind_result_eq_ok.mp h
  obtain ⟨s, h, _⟩ := Metered.bind_result_eq_ok.mp h
  have hrun : runFor (step C) atEnd .outOfFuel (pc.length + 1)
      (initialState [] (OP_HASH160 :: pc)) = returnFalse := by
    unfold runFor
    rw [step_hash160_nil]
    rfl
  rw [List.length_cons, hrun] at h
  cases h

/-- What `OP_1NEGATE` and `OP_1` to `OP_16` push. -/
def IsNumber (vch : Valtype) : Prop := ∃ k : ℤ, -1 ≤ k ∧ k ≤ 16 ∧ vch = getvch k

/-- Read as a script, a number is a truncated push or a disabled opcode. -/
theorem getSigOpCount_of_isNumber {vch : Valtype} (h : IsNumber vch) :
    getSigOpCount true vch = 0 := by
  obtain ⟨k, hlow, hhigh, rfl⟩ := h
  interval_cases k <;> rfl

/-- The top of the stack is the data pushed last, or a number. -/
structure PushInv (data : Valtype) (s : EvalState) : Prop where
  vfExec_eq : s.vfExec = []
  top : ∀ vch, s.stack.head? = some vch → vch = data ∨ IsNumber vch

theorem lookup_reserved (C : Crypto) : (switchCases C).lookup 0x50 = none := rfl

theorem mem_numberOpcodes_of_le {opcode : UInt8} (hlow : ¬ opcode ≤ OP_PUSHDATA4)
    (hhigh : opcode ≤ OP_16) : opcode = 0x50 ∨ opcode ∈ numberOpcodes := by
  by_cases hsmall : IsSmallNumber opcode
  · exact .inr (mem_numberOpcodes hsmall)
  · have hbelow : opcode.toNat < 0x51 := by
      apply not_le.mp
      exact fun h ↦ hsmall ⟨h, hhigh⟩
    have habove : 0x4e < opcode.toNat := UInt8.not_le.mp hlow
    obtain h | h : opcode.toNat = 0x4f ∨ opcode.toNat = 0x50 := by omega
    · obtain rfl : opcode = OP_1NEGATE := UInt8.toNat_inj.mp h
      exact .inr List.mem_cons_self
    · exact .inl (UInt8.toNat_inj.mp h)

theorem pushInv_of_execute (hexec : s.vfExec = []) (hle : instr.opcode ≤ OP_16)
    (h : (execute C instr s).result = .ok s') :
    PushInv instr.vch s' ∧ s'.pc = s.pc := by
  have hfExec : s.fExec = true := by rw [EvalState.fExec, hexec]; rfl
  unfold execute at h
  by_cases hpush : instr.opcode ≤ OP_PUSHDATA4
  · rw [if_pos ⟨hfExec, hpush⟩] at h
    obtain rfl := Except.ok.inj h
    exact ⟨⟨hexec, fun vch hvch ↦ .inl (Option.some.inj hvch).symm⟩, rfl⟩
  · rw [if_neg fun hand ↦ hpush hand.2, if_pos (Or.inl hfExec)] at h
    rcases mem_numberOpcodes_of_le hpush hle with hreserved | hnumber
    · unfold switch at h
      rw [hreserved, lookup_reserved] at h
      cases h
    · rw [switch_number hnumber] at h
      obtain rfl := Except.ok.inj h
      refine ⟨⟨hexec, fun vch hvch ↦ .inr ⟨(instr.opcode.toNat : ℤ) - 0x50, ?_, ?_, ?_⟩⟩, rfl⟩
      · have habove : 0x4e < instr.opcode.toNat := UInt8.not_le.mp hpush
        omega
      · have hhigh : instr.opcode.toNat ≤ 0x60 := hle
        omega
      · exact (Option.some.inj hvch).symm

theorem fetched_of_result (h : (fetch s).result = .ok (instr, s')) :
    Fetched s instr s' := (fetch_meets s).of_ok _ h

theorem pushInv_of_step {rest : CScript} (hexec : s.vfExec = []) (hop : getOp s.pc = some (instr, rest))
    (hle : instr.opcode ≤ OP_16) (h : (step C s).result = .ok s') :
    PushInv instr.vch s' ∧ s'.pc = rest := by
  obtain ⟨⟨instr', s₁⟩, hfetch, h⟩ := Metered.bind_result_eq_ok.mp h
  have hfetched := fetched_of_result hfetch
  obtain ⟨rfl, rfl⟩ : instr = instr' ∧ rest = s₁.pc :=
    Prod.mk.inj (Option.some.inj (hop.symm.trans hfetched.getOp_eq))
  obtain ⟨s₂, hexecute, h⟩ := Metered.bind_result_eq_ok.mp h
  obtain ⟨_, _, h⟩ := Metered.bind_result_eq_ok.mp h
  obtain rfl := Except.ok.inj h
  exact pushInv_of_execute (hfetched.vfExec_eq.trans hexec) hle hexecute

theorem pushInv_of_run {fuel : ℕ} {data : Valtype} (hs : PushInv data s)
    (hpush : isPushOnlyFrom fuel s.pc = true)
    (h : (runFor (step C) atEnd .outOfFuel fuel s).result = .ok s') :
    ∃ data', lastPushFrom fuel data s.pc = some data' ∧ PushInv data' s' := by
  induction fuel generalizing data s with
  | zero =>
    unfold runFor at h
    rw [show atEnd s = true from hpush, if_pos rfl] at h
    obtain rfl := Except.ok.inj h
    exact ⟨data, if_pos hpush, hs⟩
  | succ fuel ih =>
    unfold runFor at h
    unfold isPushOnlyFrom at hpush
    unfold lastPushFrom
    cases hdone : s.pc.isEmpty with
    | true =>
      rw [show atEnd s = true from hdone, if_pos rfl] at h
      obtain rfl := Except.ok.inj h
      exact ⟨data, if_pos rfl, hs⟩
    | false =>
      rw [show atEnd s = false from hdone, if_neg Bool.false_ne_true] at h
      obtain ⟨s₁, hstep, h⟩ := Metered.bind_result_eq_ok.mp h
      rw [hdone, if_neg Bool.false_ne_true] at hpush
      rw [if_neg Bool.false_ne_true]
      cases hop : getOp s.pc with
      | none =>
        rw [hop] at hpush
        cases hpush
      | some read =>
        obtain ⟨instr, rest⟩ := read
        simp only [hop] at hpush ⊢
        split_ifs at hpush with hhigh
        rw [if_neg hhigh]
        have hs₁ := pushInv_of_step hs.vfExec_eq hop (UInt8.not_lt.mp hhigh) hstep
        rw [← hs₁.2] at hpush ⊢
        exact ih hs₁.1 hpush h

/-- What a script of pushes leaves on top is charged for as the data it pushed last. -/
theorem getSigOpCount_top_le {scriptSig : CScript} {vch : Valtype} (hpush : isPushOnly scriptSig = true)
    (h : (evalScript C [] scriptSig).result = .ok (vch :: stack)) :
    ∃ data, lastPushFrom scriptSig.length [] scriptSig = some data ∧
      getSigOpCount true vch ≤ getSigOpCount true data := by
  obtain ⟨_, _, h⟩ := Metered.bind_result_eq_ok.mp h
  obtain ⟨s, hrun, h⟩ := Metered.bind_result_eq_ok.mp h
  obtain ⟨_, _, h⟩ := Metered.bind_result_eq_ok.mp h
  have hstack : s.stack = vch :: stack := Except.ok.inj h
  have hinitial : PushInv [] (initialState [] scriptSig) := ⟨rfl, fun _ h ↦ nomatch h⟩
  obtain ⟨data, hdata, hs⟩ := pushInv_of_run hinitial hpush hrun
  refine ⟨data, hdata, ?_⟩
  rcases hs.top vch (by rw [hstack]; rfl) with rfl | hnumber
  · exact le_rfl
  · rw [getSigOpCount_of_isNumber hnumber]
    exact Nat.zero_le _

theorem verifyScript_meets (C : Crypto) (scriptSig scriptPubKey : CScript) :
    Safe (getSigOpCount true scriptSig + getSigOpCountP2SH scriptPubKey scriptSig) (fun _ ↦ True)
      (verifyScript C scriptSig scriptPubKey) := by
  have hnil : ([] : Stack).length ≤ 1000 := Nat.zero_le 1000
  have hfirst := (evalScript_meets C scriptSig hnil (List.forall_mem_nil _)).remember
  refine hfirst.bind fun stackCopy hcopy ↦ ?_
  have hsecond := (evalScript_meets C scriptPubKey hcopy.1.1 hcopy.1.2).remember
  unfold getSigOpCountP2SH
  cases hp2sh : isPayToScriptHash scriptPubKey with
  | false =>
    rw [if_neg Bool.false_ne_true]
    refine hsecond.bind (n := 0) fun stack hstack ↦ ?_
    refine returnFalseIf_bind fun hempty ↦ ?_
    have hlength : 1 ≤ stack.length := List.length_pos_iff.mpr hempty
    refine (peek_meets hstack.1.2 le_rfl hlength).bind_free fun top _ ↦ ?_
    exact returnFalseIf_bind fun _ ↦ Meets.pure trivial
  | true =>
    rw [getSigOpCount_of_isPayToScriptHash hp2sh] at hsecond
    rw [if_pos rfl]
    refine hsecond.bind_free fun stack hstack ↦ ?_
    refine returnFalseIf_bind fun hempty ↦ ?_
    have hlength : 1 ≤ stack.length := List.length_pos_iff.mpr hempty
    refine (peek_meets hstack.1.2 le_rfl hlength).bind_free fun top _ ↦ ?_
    refine returnFalseIf_bind fun _ ↦ ?_
    refine returnFalseIf_bind fun hpush ↦ ?_
    rw [Bool.not_eq_false] at hpush
    obtain ⟨hash, _, hshape⟩ := shape_of_isPayToScriptHash hp2sh
    cases stackCopy with
    | nil => exact absurd (hshape ▸ hstack.2) (evalScript_hash160_nil _)
    | cons pubKey2 rest =>
      obtain ⟨data, hdata, hcharged⟩ := getSigOpCount_top_le hpush hcopy.2
      have hrest : AllShort rest := fun vch hvch ↦ hcopy.1.2 vch (List.mem_cons_of_mem _ hvch)
      have hshorter : rest.length ≤ 1000 := (Nat.le_succ _).trans hcopy.1.1
      rw [hdata]
      show Safe (getSigOpCount true data) _ (pure pubKey2 >>= _)
      rw [pure_bind]
      show Safe (getSigOpCount true data) _ (pure rest >>= _)
      rw [pure_bind]
      refine Meets.mono (m := getSigOpCount true pubKey2 + 0) ?_ hcharged fun _ h ↦ h
      refine (evalScript_meets C pubKey2 hshorter hrest).bind fun stack' hstack' ↦ ?_
      refine returnFalseIf_bind fun hempty' ↦ ?_
      have hlength' : 1 ≤ stack'.length := List.length_pos_iff.mpr hempty'
      refine (peek_meets hstack'.2 le_rfl hlength').bind_free fun top' _ ↦ ?_
      exact Meets.refuse_meets rfl trivial

/-- A run of the loop with the instructions it has executed. -/
inductive Runs (C : Crypto) (s : EvalState) : List Instruction → EvalState → Prop
  | refl : Runs C s [] s
  | step {trace : List Instruction} {s₁ s₂ s' : EvalState} {instr : Instruction}
      (hrun : Runs C s trace s₁) (hfetch : (fetch s₁).result = .ok (instr, s₂))
      (hstep : (Script.step C s₁).result = .ok s') : Runs C s (trace ++ [instr]) s'

/-- The opcodes that the limit of 201 counts. -/
def counted (trace : List Instruction) : ℕ :=
  trace.countP fun instr ↦ decide (instr.opcode > OP_16)

theorem counted_append_le {trace : List Instruction} (instr : Instruction) {nOpCount : ℕ}
    (h : counted trace ≤ nOpCount) :
    counted (trace ++ [instr]) ≤ countOp instr.opcode nOpCount := by
  unfold counted at h ⊢
  rw [List.countP_append, List.countP_singleton, countOp]
  by_cases hopcode : instr.opcode > OP_16
  · rw [if_pos (decide_eq_true hopcode), if_pos hopcode]
    exact Nat.add_le_add_right h 1
  · rw [if_neg (by simpa using hopcode), if_neg hopcode]
    exact h

/-- What holds of a state reached after executing `trace`. -/
structure TraceInv (trace : List Instruction) (s : EvalState) : Prop where
  inv : ∃ last, RunInv last s
  counted_le : counted trace ≤ s.nOpCount
  short : ∀ instr ∈ trace, Short instr.vch

theorem traceInv_of_runs {script : CScript} (hlength : stack.length ≤ 1000) (hshort : AllShort stack)
    {trace : List Instruction} (h : Runs C (initialState stack script) trace s) : TraceInv trace s := by
  induction h with
  | refl =>
    exact ⟨⟨_, initialState_runInv script hlength hshort⟩, Nat.zero_le _, List.forall_mem_nil _⟩
  | @step trace s₁ s₂ s' instr _ hfetch hstep ih =>
    have hfetched := fetched_of_result hfetch
    obtain ⟨last, hs₁⟩ := ih.inv
    have hnext := (step_meets hs₁ hfetched.getOp_eq).of_ok s' hstep
    refine ⟨⟨_, hnext.1⟩, (counted_append_le instr ih.counted_le).trans hnext.2.2, ?_⟩
    · rw [List.forall_mem_append, List.forall_mem_singleton]
      exact ⟨ih.short, hfetched.short⟩

/-- The interpreter is safe: it ends normally or returns false, never by an access outside a stack;
every state it passes through is within the limits, and so is the instruction executed next; and
`VerifyScript` finds something on the stack whenever it looks at its top. -/
theorem evalScript_safe (C : Crypto) (script : CScript) (stack : Stack)
    (hlength : stack.length ≤ 1000) (hshort : ∀ vch ∈ stack, vch.length ≤ 520) :
    ((evalScript C stack script).result = .error .returnFalse ∨
      ∃ stack', (evalScript C stack script).result = .ok stack') ∧
    (∀ trace s, Runs C (initialState stack script) trace s →
      s.stack.length + s.altstack.length ≤ 1000 ∧ counted trace ≤ 201 ∧
      (∀ vch ∈ s.stack ++ s.altstack, vch.length ≤ 520) ∧
      ∀ instr s₁, (fetch s).result = .ok (instr, s₁) →
        instr.vch.length ≤ 520 ∧ counted (trace ++ [instr]) ≤ 201) ∧
    ∀ scriptSig scriptPubKey, (verifyScript C scriptSig scriptPubKey).result = .ok () ∨
      (verifyScript C scriptSig scriptPubKey).result = .error .returnFalse := by
  refine ⟨?_, ?_, ?_⟩
  · have heval := evalScript_meets C script hlength hshort
    cases hresult : (evalScript C stack script).result with
    | error reason => exact .inl (congrArg Except.error (heval.of_error reason hresult))
    | ok stack' => exact .inr ⟨stack', rfl⟩
  · intro trace s hruns
    have htrace := traceInv_of_runs hlength hshort hruns
    obtain ⟨last, hs⟩ := htrace.inv
    refine ⟨hs.sized, htrace.counted_le.trans hs.limits.nOpCount_le, ?_, ?_⟩
    · exact List.forall_mem_append.mpr ⟨hs.limits.short_stack, hs.limits.short_altstack⟩
    · intro instr s₁ hfetch
      have hfetched := fetched_of_result hfetch
      refine ⟨hfetched.short, (counted_append_le instr htrace.counted_le).trans ?_⟩
      rw [← hfetched.count]
      exact (hfetched.limits hs.limits).nOpCount_le
  · intro scriptSig scriptPubKey
    have hverify := verifyScript_meets C scriptSig scriptPubKey
    cases hresult : (verifyScript C scriptSig scriptPubKey).result with
    | error reason => exact .inr (congrArg Except.error (hverify.of_error reason hresult))
    | ok u => exact .inl rfl

/-- An empty stack and a script that rolls below the second element. -/
theorem evalScript_safe_roll :
    let C : Crypto := ⟨fun _ ↦ .replicate 20 0, fun _ ↦ .replicate 20 0, fun _ ↦ .replicate 32 0,
      fun _ ↦ .replicate 20 0, fun _ ↦ .replicate 32 0, fun _ _ _ ↦ false⟩
    (evalScript C [[1], [2]] [0x52, OP_ROLL]).result = .error .returnFalse ∨
      ∃ stack', (evalScript C [[1], [2]] [0x52, OP_ROLL]).result = .ok stack' := by
  intro C
  exact (evalScript_safe C [0x52, OP_ROLL] [[1], [2]] (by decide) (by decide)).1

theorem sigOpsOf_le (lastOpcode opcode : UInt8) :
    sigOpsOf true lastOpcode opcode ≤ sigOpsOf false lastOpcode opcode := by
  have hdecode (h : IsSmallNumber lastOpcode) : decodeOP_N lastOpcode ≤ 20 := by
    have hvalue := decodeOP_N_of_isSmallNumber h
    omega
  unfold sigOpsOf
  simp only [true_and, Bool.false_eq_true, false_and, if_false]
  split_ifs with _ _ hlast
  · exact le_rfl
  · exact hdecode hlast
  · exact le_rfl
  · exact le_rfl

theorem getSigOpCountFrom_le (fuel : ℕ) (lastOpcode : UInt8) (pc : CScript) :
    getSigOpCountFrom true fuel lastOpcode pc ≤ getSigOpCountFrom false fuel lastOpcode pc := by
  induction fuel generalizing lastOpcode pc with
  | zero => exact le_rfl
  | succ fuel ih =>
    unfold getSigOpCountFrom
    cases getOp pc with
    | none => exact le_rfl
    | some read => exact Nat.add_le_add (sigOpsOf_le lastOpcode _) (ih _ _)

/-- The static count bounds the work: no more signatures are attempted than are charged for, and the
accurate count is the smaller one. -/
theorem verifyScript_cost_le (C : Crypto) (scriptSig scriptPubKey : CScript) :
    (verifyScript C scriptSig scriptPubKey).cost ≤
      getSigOpCount true scriptSig + getSigOpCountP2SH scriptPubKey scriptSig ∧
    ∀ script, getSigOpCount true script ≤ getSigOpCount false script :=
  ⟨(verifyScript_meets C scriptSig scriptPubKey).cost_le, fun script ↦ getSigOpCountFrom_le _ _ script⟩

end Electra.Script
