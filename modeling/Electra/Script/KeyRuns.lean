import Electra.Script.MergeSignatures

/-!
# Running scripts of one key

A pay-to-public-key script checks the top of the stack against its key.  A pay-to-public-key-hash script
takes the key from the stack, and first compares its hash.
-/

namespace Electra.Script

open Chain Foundations.StackMachine

variable {C : Crypto}

variable {script : CScript} {s : EvalState} {stack : Stack} {vchSig : Valtype}

theorem length_of_getOp {rest : CScript} {instr : Instruction} (h : getOp script = some (instr, rest)) :
    script.length ≤ instr.vch.length + 5 + rest.length := by
  cases script with
  | nil => cases h
  | cons opcode pc =>
    have hsized {width : ℕ} (hwidth : width ≤ 4) (h : getSized opcode width pc = some (instr, rest)) :
        (opcode :: pc).length ≤ instr.vch.length + 5 + rest.length := by
      unfold getSized at h
      split at h
      · cases h
      · have hdrop := congrArg List.length (of_getOperand h).2
        rw [List.length_drop, List.length_append] at hdrop
        rw [List.length_cons]
        omega
    simp only [getOp] at h
    split_ifs at h
    · have hoperand := congrArg List.length (of_getOperand h).2
      rw [List.length_append] at hoperand
      rw [List.length_cons]
      omega
    · exact hsized (by decide) h
    · exact hsized (by decide) h
    · exact hsized (by decide) h
    · obtain ⟨rfl, rfl⟩ := Prod.mk.inj (Option.some.inj h)
      rw [List.length_cons]
      omega

/-- A script of few short instructions is short. -/
theorem length_le_of_reads {pc stop : CScript} {instrs : List Instruction} (h : ReadsTo pc instrs stop)
    {n : ℕ} (hbound : ∀ instr ∈ instrs, instr.vch.length ≤ n) :
    pc.length ≤ instrs.length * (n + 5) + stop.length := by
  induction h with
  | nil => exact Nat.le_add_left _ _
  | @cons pc rest stop instr instrs hop _ ih =>
    have hinstr := hbound instr List.mem_cons_self
    have hrest := ih fun instr hmem ↦ hbound instr (List.mem_cons_of_mem _ hmem)
    have hfirst := length_of_getOp hop
    rw [List.length_cons, Nat.succ_mul]
    omega

/-- A step that changes the stack. -/
theorem step_stack {opcode : UInt8} (hhigh : OP_16 < opcode) (hallowed : opcode ∉ disabledOpcodes)
    {rest : CScript} (hop : getOp s.pc = some (opInstr opcode, rest)) (hexec : s.vfExec = [])
    (hcount : s.nOpCount + 1 ≤ 201)
    (hswitch : (switch C opcode { s with pc := rest, nOpCount := s.nOpCount + 1 }).result =
      .ok { s with pc := rest, stack, nOpCount := s.nOpCount + 1 })
    (hroom : stack.length + s.altstack.length ≤ 1000) :
    (step C s).result = .ok { s with pc := rest, stack, nOpCount := s.nOpCount + 1 } := by
  rw [step_opInstr hhigh hallowed hop hexec hcount, Metered.bind_result_of_ok hswitch]
  exact (Meets.refuse_bind_result (not_lt.mpr hroom) _).trans rfl

theorem switch_dup {vch : Valtype} (h : s.stack = vch :: stack) :
    (switch C OP_DUP s).result = .ok { s with stack := vch :: vch :: stack } := by
  show (onStack opDup s).result = _
  unfold onStack
  rw [h]
  rfl

theorem switch_equalverify {vch : Valtype} (h : s.stack = vch :: vch :: stack) :
    (switch C OP_EQUALVERIFY s).result = .ok { s with stack := stack } := by
  have hequal : (opEqual true (vch :: vch :: stack)).result = .ok stack := by
    show (pushVerdict true (vch == vch) stack).result = _
    rw [beq_self_eq_true]
    rfl
  show (onStack (opEqual true) s).result = _
  unfold onStack
  rw [h, Metered.bind_result_of_ok hequal]
  rfl

theorem switch_checksig {vchPubKey : Valtype} (h : s.stack = vchPubKey :: vchSig :: stack) :
    (switch C OP_CHECKSIG s).result =
      .ok { s with stack := ofBool (validSignature C (dropSignature s.pbegincodehash vchSig) vchSig vchPubKey)
        :: stack } := by
  show (opCheckSig C false s).result = _
  unfold opCheckSig
  rw [h]
  rfl

/-- What a script leaves that runs to its end. -/
theorem evalScript_of_run (hlength : script.length ≤ 10000)
    (hrun : (runFor (step C) atEnd .outOfFuel script.length (initialState stack script)).result = .ok s)
    (hexec : s.vfExec = []) : (evalScript C stack script).result = .ok s.stack := by
  unfold evalScript
  refine (Meets.refuse_bind_result (not_lt.mpr hlength) _).trans ?_
  rw [Metered.bind_result_of_ok hrun]
  exact Meets.refuse_bind_result (fun hne ↦ hne hexec) _

/-- The script of a key accepts a signature that passes for it. -/
theorem accepts_pubkey {key : Instruction} {rest : Stack}
    (hreads : Reads script [key, opInstr OP_CHECKSIG]) (hkey : IsKeySize key.vch.length)
    (hvalid : validSignature C (dropSignature script vchSig) vchSig key.vch = true)
    (hroom : rest.length + 2 ≤ 1000) : Accepts C (vchSig :: rest) script := by
  obtain ⟨mid, hop, hmore⟩ := readsTo_cons_iff.mp hreads
  obtain ⟨last, hop', hend⟩ := readsTo_cons_iff.mp hmore
  obtain rfl := readsTo_nil_iff.mp hend
  have hdata : key.opcode ≤ OP_PUSHDATA4 :=
    le_pushdata_of_readsTo hreads List.mem_cons_self (vch_ne_nil_of_isKeySize hkey)
  let s₀ := initialState (vchSig :: rest) script
  let s₁ : EvalState := { s₀ with pc := mid, stack := key.vch :: vchSig :: rest }
  let s₂ : EvalState := { s₁ with pc := [], stack := ofBool true :: rest, nOpCount := 1 }
  have hpush : (step C s₀).result = .ok s₁ := by
    have hpushed : pushed key = key.vch := if_pos hdata
    rw [step_push (.inl hdata) hop rfl, returnFalseIf_of_not (not_lt.mpr (hkey.2.trans (by decide))),
      pure_bind, hpushed]
    exact (Meets.refuse_bind_result (by simp [s₀, initialState]; omega) _).trans rfl
  have hcheck : (step C s₁).result = .ok s₂ := by
    refine step_stack (by decide) (by decide) hop' rfl (show 0 + 1 ≤ 201 by decide) ?_ ?_
    · rw [switch_checksig rfl]
      show Except.ok { s₁ with pc := [], stack := ofBool (validSignature C (dropSignature script vchSig)
        vchSig key.vch) :: rest, nOpCount := 1 } = _
      rw [hvalid]
      rfl
    · show rest.length + 1 + 0 ≤ 1000
      omega
  have hlength : script.length ≤ 10000 := by
    have hbound := length_le_of_reads hreads (n := 120) (by
      simp only [List.forall_mem_cons]
      exact ⟨hkey.2, Nat.zero_le _, List.forall_mem_nil _⟩)
    rw [List.length_cons, List.length_singleton, List.length_nil] at hbound
    omega
  obtain ⟨fuel, hfuel⟩ := Nat.exists_eq_add_of_le' (length_le_of_readsTo hreads)
  have hrun : (runFor (step C) atEnd .outOfFuel script.length s₀).result = .ok s₂ := by
    rw [hfuel]
    refine (runFor_of_step (atEnd_of_getOp hop) hpush (fuel + 1)).trans ?_
    refine (runFor_of_step (atEnd_of_getOp hop') hcheck fuel).trans ?_
    rw [runFor_done rfl]
    rfl
  exact ⟨_, _, evalScript_of_run hlength hrun rfl, rfl⟩

/-- The script of a key hash accepts a key with this hash on top of a signature that passes for it. -/
theorem accepts_pubkeyhash {hash : Instruction} {vchPubKey : Valtype} {rest : Stack}
    (hreads : Reads script [opInstr OP_DUP, opInstr OP_HASH160, hash, opInstr OP_EQUALVERIFY,
      opInstr OP_CHECKSIG]) (hhash : hash.vch.length = 20)
    (hsame : (C.hash160 vchPubKey).toList = hash.vch)
    (hvalid : validSignature C (dropSignature script vchSig) vchSig vchPubKey = true)
    (hroom : rest.length + 4 ≤ 1000) : Accepts C (vchPubKey :: vchSig :: rest) script := by
  obtain ⟨pc₁, hop₁, hreads₁⟩ := readsTo_cons_iff.mp hreads
  obtain ⟨pc₂, hop₂, hreads₂⟩ := readsTo_cons_iff.mp hreads₁
  obtain ⟨pc₃, hop₃, hreads₃⟩ := readsTo_cons_iff.mp hreads₂
  obtain ⟨pc₄, hop₄, hreads₄⟩ := readsTo_cons_iff.mp hreads₃
  obtain ⟨pc₅, hop₅, hend⟩ := readsTo_cons_iff.mp hreads₄
  obtain rfl := readsTo_nil_iff.mp hend
  have hdata : hash.opcode ≤ OP_PUSHDATA4 := by
    refine le_pushdata_of_readsTo hreads₂ List.mem_cons_self ?_
    rintro hnil
    rw [hnil] at hhash
    cases hhash
  let s₀ := initialState (vchPubKey :: vchSig :: rest) script
  let s₁ : EvalState :=
    { s₀ with pc := pc₁, stack := vchPubKey :: vchPubKey :: vchSig :: rest, nOpCount := 1 }
  let s₂ : EvalState :=
    { s₁ with pc := pc₂, stack := (C.hash160 vchPubKey).toList :: vchPubKey :: vchSig :: rest, nOpCount := 2 }
  let s₃ : EvalState := { s₂ with
    pc := pc₃, stack := hash.vch :: (C.hash160 vchPubKey).toList :: vchPubKey :: vchSig :: rest }
  let s₄ : EvalState := { s₃ with pc := pc₄, stack := vchPubKey :: vchSig :: rest, nOpCount := 3 }
  let s₅ : EvalState := { s₄ with pc := [], stack := ofBool true :: rest, nOpCount := 4 }
  have hdup : (step C s₀).result = .ok s₁ := by
    refine step_stack (by decide) (by decide) hop₁ rfl (show 0 + 1 ≤ 201 by decide) (switch_dup rfl) ?_
    show rest.length + 1 + 1 + 1 + 0 ≤ 1000
    omega
  have hdigest : (step C s₁).result = .ok s₂ := by
    refine step_stack (by decide) (by decide) hop₂ rfl (show 1 + 1 ≤ 201 by decide)
      (congrArg Metered.result (switch_hash160 rfl)) ?_
    show rest.length + 1 + 1 + 1 + 0 ≤ 1000
    omega
  have hpush : (step C s₂).result = .ok s₃ := by
    have hpushed : pushed hash = hash.vch := if_pos hdata
    have hshort : ¬ hash.vch.length > 520 := by omega
    rw [step_push (.inl hdata) hop₃ rfl, returnFalseIf_of_not hshort, pure_bind, hpushed]
    refine (Meets.refuse_bind_result ?_ _).trans rfl
    show ¬ rest.length + 1 + 1 + 1 + 1 + 0 > 1000
    omega
  have hequal : (step C s₃).result = .ok s₄ := by
    refine step_stack (by decide) (by decide) hop₄ rfl (show 2 + 1 ≤ 201 by decide) ?_ ?_
    · exact switch_equalverify (show _ :: _ :: vchPubKey :: vchSig :: rest = _ by rw [hsame])
    · show rest.length + 1 + 1 + 0 ≤ 1000
      omega
  have hcheck : (step C s₄).result = .ok s₅ := by
    refine step_stack (by decide) (by decide) hop₅ rfl (show 3 + 1 ≤ 201 by decide) ?_ ?_
    · rw [switch_checksig rfl]
      show Except.ok { s₄ with pc := [], stack := ofBool (validSignature C (dropSignature script vchSig)
        vchSig vchPubKey) :: rest, nOpCount := 4 } = _
      rw [hvalid]
    · show rest.length + 1 + 0 ≤ 1000
      omega
  have hlength : script.length ≤ 10000 := by
    have hbound := length_le_of_reads hreads (n := 20) (by
      simp only [List.forall_mem_cons]
      exact ⟨Nat.zero_le _, Nat.zero_le _, hhash.le, Nat.zero_le _, Nat.zero_le _, List.forall_mem_nil _⟩)
    simp only [List.length_cons, List.length_nil] at hbound
    omega
  obtain ⟨fuel, hfuel⟩ := Nat.exists_eq_add_of_le' (length_le_of_readsTo hreads)
  have hrun : (runFor (step C) atEnd .outOfFuel script.length s₀).result = .ok s₅ := by
    rw [hfuel]
    refine (runFor_of_step (atEnd_of_getOp hop₁) hdup (fuel + 4)).trans ?_
    refine (runFor_of_step (atEnd_of_getOp hop₂) hdigest (fuel + 3)).trans ?_
    refine (runFor_of_step (atEnd_of_getOp hop₃) hpush (fuel + 2)).trans ?_
    refine (runFor_of_step (atEnd_of_getOp hop₄) hequal (fuel + 1)).trans ?_
    refine (runFor_of_step (atEnd_of_getOp hop₅) hcheck fuel).trans ?_
    rw [runFor_done rfl]
    rfl
  exact ⟨_, _, evalScript_of_run hlength hrun rfl, rfl⟩

theorem grammar_of_solver {typeRet : TxnOutType} {parts : List Valtype}
    (h : solver script .nonstandard [] = (true, typeRet, parts)) : Grammar typeRet script parts := by
  cases hp2sh : isPayToScriptHash script with
  | true =>
    obtain ⟨hash, hhash, rfl⟩ := shape_of_isPayToScriptHash hp2sh
    rw [solver_scripthash hhash] at h
    obtain ⟨rfl, rfl⟩ := Prod.mk.inj (Prod.mk.inj h).2
    exact .scripthash hhash
  | false =>
    rw [solver, hp2sh, if_neg Bool.false_ne_true] at h
    simp only [mTemplates, scanTemplates] at h
    split at h
    · next out hmatch =>
      obtain ⟨key, hreads, hkey, rfl⟩ := matchFrom_pubkey_template_iff.mp hmatch
      obtain ⟨rfl, rfl⟩ := Prod.mk.inj (Prod.mk.inj h).2
      exact .pubkey hreads hkey
    split at h
    · next out hmatch =>
      obtain ⟨hash, hreads, hhash, rfl⟩ := matchFrom_pubkeyhash_template_iff.mp hmatch
      obtain ⟨rfl, rfl⟩ := Prod.mk.inj (Prod.mk.inj h).2
      exact .pubkeyhash hreads hhash
    split at h
    · next out hmatch =>
      obtain ⟨m, keys, n, hshape, rfl⟩ := matchFrom_multisig_template_iff.mp hmatch
      obtain ⟨hgood, htype⟩ := Prod.mk.inj h
      obtain ⟨rfl, rfl⟩ := Prod.mk.inj htype
      rw [badCounts_multisigParts hshape.m_le hshape.n_le] at hgood
      exact .multisig hshape (by simpa using hgood)
    · cases h

/-- A run that ends has pushed short values only. -/
theorem allShort_of_runFor {values : List Valtype} {t : EvalState} {fuel : ℕ}
    (hpc : s.pc = pushAll values) (hlength : (pushAll values).length ≤ 10000) (hexec : s.vfExec = [])
    (h : (runFor (step C) atEnd .outOfFuel fuel s).result = .ok t) : AllShort values := by
  induction values generalizing s fuel with
  | nil => exact List.forall_mem_nil _
  | cons v values ih =>
    rw [pushAll_cons] at hpc hlength
    have hsize := Ledger.length_le_length_pushBytes v
    rw [List.length_append] at hlength
    have hall : (v ++ pushAll values).length < 2 ^ 32 := by
      rw [List.length_append]
      omega
    have hop := getOp_pushBytes hall
    rw [← hpc] at hop
    obtain ⟨fuel', s', hstep, hrun⟩ := of_runFor_eq_ok (atEnd_of_getOp hop) h
    rw [step_push (.inl (pushOpcode_le v)) hop hexec] at hstep
    obtain ⟨_, hshort, hstep⟩ := Metered.bind_result_eq_ok.mp hstep
    obtain ⟨_, _, hstep⟩ := Metered.bind_result_eq_ok.mp hstep
    obtain rfl := Except.ok.inj hstep
    have hv : Short v := not_lt.mp (Meets.refuse_result_eq_ok.mp hshort)
    exact List.forall_mem_cons.mpr ⟨hv, ih (s := { s with pc := pushAll values, stack := _ }) rfl (by omega) hexec hrun⟩

theorem allShort_of_evalScript {values : List Valtype} {out : Stack}
    (h : (evalScript C [] (pushAll values)).result = .ok out) : AllShort values := by
  have hlength := length_le_of_evalScript h
  obtain ⟨_, _, hrun⟩ := Metered.bind_result_eq_ok.mp h
  obtain ⟨s, hrun, _⟩ := Metered.bind_result_eq_ok.mp hrun
  exact allShort_of_runFor rfl hlength rfl hrun

end Electra.Script
