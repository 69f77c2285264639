import Electra.Script.Safety
import Mathlib.Tactic.IntervalCases

/-!
# Runs of the interpreter

One round of the loop keeps the limits, whatever the opcode (`step_meets`), and so does a whole run
(`evalScript_meets`).  The static count reads the same instructions in the same order; where it takes
the number of keys from the opcode before `OP_CHECKMULTISIG`, that opcode has just put this number on
the stack.
-/

namespace Electra.Script

open Chain Foundations.StackMachine

variable {C : Crypto}

variable {opcode lastOpcode : UInt8} {stack : Stack} {run : EvalState → Eval EvalState} {s : EvalState}
  {instr : Instruction}

theorem lookup_map_self {β : Type} {f : UInt8 → β} {l : List UInt8} (h : opcode ∈ l) :
    (l.map fun opcode ↦ (opcode, f opcode)).lookup opcode = some (f opcode) := by
  induction l with
  | nil => cases h
  | cons first l ih =>
    rw [List.map_cons, List.lookup_cons]
    by_cases hfirst : opcode = first
    · rw [← hfirst, beq_self_eq_true]
    · rw [beq_false_of_ne hfirst]
      exact ih ((List.mem_cons.mp h).resolve_left hfirst)

theorem mem_of_lookup {β : Type} {l : List (UInt8 × β)} {b : β} (h : l.lookup opcode = some b) :
    (opcode, b) ∈ l := by
  obtain ⟨l₁, l₂, hl, _⟩ := List.lookup_eq_some_iff.mp h
  rw [hl]
  exact List.mem_append_right l₁ List.mem_cons_self

theorem switchCases_eq_append (C : Crypto) : ∃ rest, switchCases C =
    numberOpcodes.map (fun opcode ↦ (opcode, onStack (opNumber opcode))) ++ rest := by
  unfold switchCases stackCases
  rw [List.map_append, List.map_append, List.map_map]
  exact ⟨_, by rw [List.append_assoc, List.append_assoc, List.append_assoc]; rfl⟩

theorem lookup_number (C : Crypto) (h : opcode ∈ numberOpcodes) :
    (switchCases C).lookup opcode = some (onStack (opNumber opcode)) := by
  obtain ⟨rest, hcases⟩ := switchCases_eq_append C
  rw [hcases, List.lookup_append, lookup_map_self h, Option.some_or]

theorem mem_numberOpcodes (h : IsSmallNumber opcode) : opcode ∈ numberOpcodes := by
  have hlow : 0x51 ≤ opcode.toNat := h.1
  have hhigh : opcode.toNat ≤ 0x60 := h.2
  refine List.mem_cons_of_mem _ (List.mem_map.mpr ⟨opcode.toNat - 0x51, ?_, ?_⟩)
  · exact List.mem_range.mpr (by omega)
  · apply UInt8.toNat_inj.mp
    rw [UInt8.toNat_add, UInt8.toNat_ofNat', show OP_1.toNat = 0x51 from rfl]
    omega

theorem switch_number (h : opcode ∈ numberOpcodes) (s : EvalState) :
    switch C opcode s =
      pure { s with stack := getvch ((opcode.toNat : ℤ) - (OP_1.toNat - 1)) :: s.stack } := by
  unfold switch
  rw [lookup_number C h]
  rfl

/-- Right after a small number was executed, it is on top of the stack. -/
def Linked (lastOpcode : UInt8) (s : EvalState) : Prop :=
  IsSmallNumber lastOpcode → s.fExec = true →
    s.stack.head? = some (getvch (decodeOP_N lastOpcode))

theorem castToBigNum_getvch {k : ℕ} (hk : k ≤ 16) : castToBigNum (getvch k) = pure (k : ℤ) := by
  interval_cases k <;> rfl

/-- The count that `OP_CHECKMULTISIG` reads is the one before it in the script. -/
theorem eq_decodeOP_N (hlast : IsSmallNumber lastOpcode)
    (hstack : stack.head? = some (getvch (decodeOP_N lastOpcode))) {nKeysCount : ℕ}
    (h : (stackCount stack 1 20).result = .ok nKeysCount) :
    nKeysCount = decodeOP_N lastOpcode := by
  have hdecode := decodeOP_N_of_isSmallNumber hlast
  have hbound : decodeOP_N lastOpcode ≤ 16 := by omega
  have hcount : stackCount stack 1 20 = pure (decodeOP_N lastOpcode) := by
    have htop : peek Stop.outOfRange stack 1 = pure (getvch (decodeOP_N lastOpcode)) :=
      peek_of_get (by rw [← List.head?_eq_getElem?]; exact hstack)
    generalize decodeOP_N lastOpcode = k at htop hbound
    unfold stackCount stacktop
    rw [htop, pure_bind, castToBigNum_getvch hbound, pure_bind]
    interval_cases k <;> rfl
  rw [hcount] at h
  exact (Except.ok.inj h).symm

theorem signatureCases_not_control (h : (opcode, run) ∈ signatureCases C) : ¬ opcode ≤ OP_ENDIF := by
  simp only [signatureCases, List.mem_cons, Prod.mk.injEq, List.not_mem_nil, or_false] at h
  rcases h with ⟨rfl, _⟩ | ⟨rfl, _⟩ | ⟨rfl, _⟩ | ⟨rfl, _⟩ <;> decide

/-- The attempts are those the static count charges for, given the opcode before. -/
theorem opCheckMultiSig_meets (fVerify : Bool) (hs : Limits s) (hlinked : IsSmallNumber lastOpcode →
      s.stack.head? = some (getvch (decodeOP_N lastOpcode))) :
    Safe (if IsSmallNumber lastOpcode then decodeOP_N lastOpcode else 20) (After s)
      (opCheckMultiSig C fVerify s) := by
  apply opCheckMultiSig_safe fVerify hs
  intro nKeysCount hbound hcount
  split_ifs with hlast
  · exact (eq_decodeOP_N hlast (hlinked hlast) hcount).le
  · exact hbound

theorem signatureCases_meets (hs : Limits s) (hsize : Sized s) (hmem : (opcode, run) ∈ signatureCases C)
    (hlinked : IsSmallNumber lastOpcode →
      s.stack.head? = some (getvch (decodeOP_N lastOpcode))) :
    Safe (sigOpsOf true lastOpcode opcode) (After s) (run s) := by
  have hmulti {opcode : UInt8} (h : opcode = OP_CHECKMULTISIG ∨ opcode = OP_CHECKMULTISIGVERIFY) :
      sigOpsOf true lastOpcode opcode =
        if IsSmallNumber lastOpcode then decodeOP_N lastOpcode else 20 := by
    unfold sigOpsOf
    rw [if_neg (by rcases h with rfl | rfl <;> decide), if_pos h]
    simp only [true_and]
  simp only [signatureCases, List.mem_cons, Prod.mk.injEq, List.not_mem_nil, or_false] at hmem
  rcases hmem with ⟨rfl, rfl⟩ | ⟨rfl, rfl⟩ | ⟨rfl, rfl⟩ | ⟨rfl, rfl⟩
  · exact opCheckSig_safeCase false s hs hsize
  · exact opCheckSig_safeCase true s hs hsize
  · exact hmulti (.inl rfl) ▸ opCheckMultiSig_meets false hs hlinked
  · exact hmulti (.inr rfl) ▸ opCheckMultiSig_meets true hs hlinked

theorem execute_meets (hs : Limits s) (hsize : Sized s) (hlinked : Linked lastOpcode s)
    (hshort : Short instr.vch) :
    Safe (sigOpsOf true lastOpcode instr.opcode)
      (fun s' ↦ After s s' ∧ Linked instr.opcode s') (execute C instr s) := by
  unfold execute
  split_ifs with hpush hswitch
  · refine Meets.pure ⟨⟨⟨hs.short_stack.cons hshort, hs.short_altstack, hs.nOpCount_le⟩, rfl,
      le_rfl⟩, fun hsmall ↦ ?_⟩
    exact absurd (UInt8.le_trans hsmall.1 hpush.2) (by decide)
  · by_cases hsmall : IsSmallNumber instr.opcode
    · rw [switch_number (mem_numberOpcodes hsmall)]
      have hdecode := decodeOP_N_of_isSmallNumber hsmall
      refine Meets.pure ⟨⟨⟨hs.short_stack.cons (short_getvch ?_), hs.short_altstack,
        hs.nOpCount_le⟩, rfl, le_rfl⟩, fun _ _ ↦ ?_⟩
      · rw [show OP_1.toNat = 0x51 from rfl]
        omega
      · rw [hdecode.1, List.head?_cons, show OP_1.toNat = 0x51 from rfl]
        congr 2
        omega
    · refine Meets.mono (Q := After s) ?_ le_rfl fun s' hs' ↦ ⟨hs', fun h ↦ absurd h hsmall⟩
      unfold switch
      cases hcase : (switchCases C).lookup instr.opcode with
      | none => exact returnFalse_safe
      | some run =>
        have hmem := mem_of_lookup hcase
        unfold switchCases at hmem
        rcases List.mem_append.mp hmem with hmem | hmem
        · rcases List.mem_append.mp hmem with hmem | hmem
          · obtain ⟨entry, hentry, heq⟩ := List.mem_map.mp hmem
            obtain rfl : onStack entry.2 = run := (Prod.ext_iff.mp heq).2
            exact (onStack_safeCase (stackCases_safeOn C entry hentry) s hs hsize).mono
              (Nat.zero_le _) fun _ h ↦ h
          · exact (stateCases_safeCase _ hmem s hs hsize).mono (Nat.zero_le _) fun _ h ↦ h
        · refine signatureCases_meets hs hsize hmem fun hsmall ↦ hlinked hsmall ?_
          exact hswitch.resolve_right fun h ↦ signatureCases_not_control hmem h.2
  · refine Meets.pure ⟨⟨hs, rfl, le_rfl⟩, fun _ hexec ↦ ?_⟩
    exact absurd (Or.inl hexec) hswitch

/-- What holds between two rounds, given the opcode executed last. -/
structure RunInv (lastOpcode : UInt8) (s : EvalState) : Prop where
  limits : Limits s
  sized : Sized s
  linked : Linked lastOpcode s

/-- What the tests made on an instruction establish. -/
structure Fetched (s : EvalState) (instr : Instruction) (s' : EvalState) : Prop where
  short : Short instr.vch
  getOp_eq : getOp s.pc = some (instr, s'.pc)
  count : s'.nOpCount = countOp instr.opcode s.nOpCount
  count_le : instr.opcode > OP_16 → s'.nOpCount ≤ 201
  stack_eq : s'.stack = s.stack
  altstack_eq : s'.altstack = s.altstack
  vfExec_eq : s'.vfExec = s.vfExec

theorem fetch_meets (s : EvalState) : Safe 0 (fun r ↦ Fetched s r.1 r.2) (fetch s) := by
  unfold fetch
  cases hop : getOp s.pc with
  | none => exact returnFalse_safe
  | some read =>
    obtain ⟨instr, rest⟩ := read
    refine returnFalseIf_bind fun hshort ↦ ?_
    refine returnFalseIf_bind fun hcount ↦ ?_
    refine returnFalseIf_bind fun _ ↦
      Meets.pure ⟨not_lt.mp hshort, hop, rfl, fun h ↦ ?_, rfl, rfl, rfl⟩
    exact not_lt.mp fun hlt ↦ hcount ⟨h, hlt⟩

theorem Fetched.limits {s' : EvalState} (h : Fetched s instr s') (hs : Limits s) : Limits s' := by
  refine ⟨h.stack_eq ▸ hs.short_stack, h.altstack_eq ▸ hs.short_altstack, ?_⟩
  by_cases hcounted : instr.opcode > OP_16
  · exact h.count_le hcounted
  · rw [h.count, countOp, if_neg hcounted]
    exact hs.nOpCount_le

/-- One round spends no more signatures than the static count charges for its instruction. -/
theorem step_meets (hs : RunInv lastOpcode s) {rest : CScript} (hop : getOp s.pc = some (instr, rest)) :
    Safe (sigOpsOf true lastOpcode instr.opcode)
      (fun s' ↦ RunInv instr.opcode s' ∧ s'.pc = rest ∧
        countOp instr.opcode s.nOpCount ≤ s'.nOpCount) (step C s) := by
  refine (fetch_meets s).bind_free fun r hr ↦ ?_
  obtain ⟨instr', s₁⟩ := r
  obtain ⟨rfl, rfl⟩ : instr = instr' ∧ rest = s₁.pc :=
    Prod.mk.inj (Option.some.inj (hop.symm.trans hr.getOp_eq))
  have hsized : Sized s₁ := by
    unfold Sized
    rw [hr.stack_eq, hr.altstack_eq]
    exact hs.sized
  have hlinked : Linked lastOpcode s₁ := by
    unfold Linked EvalState.fExec
    rw [hr.stack_eq, hr.vfExec_eq]
    exact hs.linked
  refine ((execute_meets (hr.limits hs.limits) hsized hlinked hr.short).bind (n := 0)
    fun s' hs' ↦ ?_)
  exact returnFalseIf_bind fun htotal ↦ Meets.pure ⟨⟨hs'.1.limits, not_lt.mp htotal, hs'.2⟩,
    hs'.1.pc_eq, hr.count ▸ hs'.1.nOpCount_le⟩

theorem initialState_runInv (script : CScript) (hlength : stack.length ≤ 1000) (hshort : AllShort stack) :
    RunInv OP_INVALIDOPCODE (initialState stack script) where
  limits := ⟨hshort, List.forall_mem_nil _, Nat.zero_le 201⟩
  sized := hlength
  linked h := absurd h (by decide)

theorem runFor_step_meets (hs : RunInv lastOpcode s) {fuel : ℕ} (hfuel : s.pc.length ≤ fuel) :
    Safe (getSigOpCountFrom true fuel lastOpcode s.pc) (fun s' ↦ ∃ last, RunInv last s')
      (runFor (step C) atEnd .outOfFuel fuel s) := by
  refine (runFor_meets (fun s ↦ s.pc.length)
    (fun fuel last s ↦ getSigOpCountFrom true fuel last s.pc) ?_ ?_ hs hfuel).mono
      le_rfl fun s' hs' ↦ hs'.imp fun _ h ↦ h.1
  · intro last s _ hdone
    exact List.length_pos_iff.mpr fun hempty ↦ by simp [atEnd, hempty] at hdone
  · intro fuel last s hs hdone
    cases hop : getOp s.pc with
    | none =>
      have hfetch : step C s = returnFalse := by
        unfold step fetch
        rw [hop]
        rfl
      refine ⟨0, Nat.zero_le _, ?_⟩
      rw [hfetch]
      exact returnFalse_safe
    | some read =>
      obtain ⟨instr, rest⟩ := read
      have hpotential : getSigOpCountFrom true (fuel + 1) last s.pc =
          sigOpsOf true last instr.opcode + getSigOpCountFrom true fuel instr.opcode rest := by
        rw [getSigOpCountFrom, hop]
      refine ⟨sigOpsOf true last instr.opcode, by omega, ?_⟩
      refine (step_meets hs hop).mono le_rfl fun s' hs' ↦ ⟨instr.opcode, hs'.1, ?_, ?_⟩
      · rw [hs'.2.1]
        exact length_lt_of_getOp hop
      · rw [hs'.2.1]
        exact hpotential.ge

/-- An evaluation ends, keeps its accesses in range and attempts no more signatures than the accurate
count charges for. -/
theorem evalScript_meets (C : Crypto) (script : CScript) (hlength : stack.length ≤ 1000)
    (hshort : AllShort stack) :
    Safe (getSigOpCount true script) (fun stack' ↦ stack'.length ≤ 1000 ∧ AllShort stack')
      (evalScript C stack script) := by
  refine returnFalseIf_bind fun _ ↦ ?_
  refine (runFor_step_meets (initialState_runInv script hlength hshort) le_rfl).bind (n := 0)
    fun s hs ↦ ?_
  obtain ⟨last, hs⟩ := hs
  refine returnFalseIf_bind fun _ ↦ Meets.pure ⟨?_, hs.limits.short_stack⟩
  exact (Nat.le_add_right _ _).trans hs.sized

end Electra.Script
