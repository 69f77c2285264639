import Electra.Script.MultiSig
import Electra.Script.PushRuns

/-!
# Running standard scripts

`VerifyScript` asks that scripts run and leave true on top.  What a pay-to-script-hash script and a
multisignature script do to a stack: the first compares the hash of the top with its own, the second
looks for a matching of as many elements as it asks for with its keys.
-/

namespace Electra.Script

open Chain Foundations.StackMachine Foundations.GreedyMatch

variable {C : Crypto}

/-- The script runs on the stack and leaves true on top. -/
def Accepts (C : Crypto) (stack : Stack) (script : CScript) : Prop :=
  ∃ top rest, (evalScript C stack script).result = .ok (top :: rest) ∧ castToBool top = true

variable {stack out : Stack} {script : CScript} {vch : Valtype} {n : ℕ}

theorem length_le_of_evalScript (h : (evalScript C stack script).result = .ok out) :
    script.length ≤ 10000 := by
  obtain ⟨_, hlength, _⟩ := Metered.bind_result_eq_ok.mp h
  exact not_lt.mp (Meets.refuse_result_eq_ok.mp hlength)

theorem Accepts.length_le (h : Accepts C stack script) :
    script.length ≤ 10000 := by
  obtain ⟨_, _, heval, _⟩ := h
  exact length_le_of_evalScript heval

theorem castToBool_ofBool (b : Bool) : castToBool (ofBool b) = b := by cases b <;> rfl

theorem topTrue_iff {k : Eval Unit} :
    (do
      returnFalseIf (stack = [])
      let top ← back stack
      returnFalseIf (castToBool top = false)
      k).result = .ok () ↔
      ∃ top rest, stack = top :: rest ∧ castToBool top = true ∧ k.result = .ok () := by
  simp only [Metered.bind_result_eq_ok, returnFalseIf, Meets.refuse_result_eq_ok, exists_const]
  cases stack with
  | nil => simp
  | cons top rest =>
    have hback : (back (top :: rest)).result = .ok top := rfl
    simp [hback]

theorem accepts_iff :
    (do
      let stack ← evalScript C stack script
      returnFalseIf (stack = [])
      let top ← back stack
      returnFalseIf (castToBool top = false)).result = .ok () ↔ Accepts C stack script := by
  have hunit : (do
      let stack ← evalScript C stack script
      returnFalseIf (stack = [])
      let top ← back stack
      returnFalseIf (castToBool top = false)
      pure ()).result = .ok () ↔ Accepts C stack script := by
    rw [Metered.bind_result_eq_ok]
    simp only [topTrue_iff]
    constructor
    · rintro ⟨_, heval, top, rest, rfl, htrue, _⟩
      exact ⟨top, rest, heval, htrue⟩
    · rintro ⟨top, rest, heval, htrue⟩
      exact ⟨_, heval, top, rest, rfl, htrue, rfl⟩
  simpa only [bind_pure_unit] using hunit

/-- The additional validation for pay-to-script-hash. -/
theorem redeem_iff {scriptSig : CScript} :
    (do
      returnFalseIf (isPushOnly scriptSig = false)
      let pubKey2 ← back stack
      let stackCopy ← popstack stack
      let stackCopy ← evalScript C stackCopy pubKey2
      returnFalseIf (stackCopy = [])
      let top ← back stackCopy
      returnFalseIf (castToBool top = false)).result = .ok () ↔
      isPushOnly scriptSig = true ∧ ∃ redeem rest, stack = redeem :: rest ∧ Accepts C rest redeem := by
  rw [Metered.bind_result_eq_ok]
  simp only [returnFalseIf, Meets.refuse_result_eq_ok, exists_const, Bool.not_eq_false]
  apply and_congr_right
  intro _
  cases stack with
  | nil =>
    constructor
    · intro h
      cases h
    · rintro ⟨_, _, hnil, _⟩
      cases hnil
  | cons redeem rest =>
    show (pure redeem >>= _ : Eval Unit).result = _ ↔ _
    rw [pure_bind]
    show (pure rest >>= _ : Eval Unit).result = _ ↔ _
    rw [pure_bind]
    refine accepts_iff.trans ⟨fun h ↦ ⟨redeem, rest, rfl, h⟩, ?_⟩
    rintro ⟨_, _, hcons, h⟩
    obtain ⟨rfl, rfl⟩ := List.cons.inj hcons
    exact h

theorem verifyScript_eq_ok_iff {scriptSig scriptPubKey : CScript} :
    (verifyScript C scriptSig scriptPubKey).result = .ok () ↔
      ∃ stack, (evalScript C [] scriptSig).result = .ok stack ∧ Accepts C stack scriptPubKey ∧
        (isPayToScriptHash scriptPubKey = true → isPushOnly scriptSig = true ∧
          ∃ redeem rest, stack = redeem :: rest ∧ Accepts C rest redeem) := by
  unfold verifyScript
  rw [Metered.bind_result_eq_ok]
  apply exists_congr
  intro stack
  apply and_congr_right
  intro _
  rw [Metered.bind_result_eq_ok]
  simp only [topTrue_iff]
  constructor
  · rintro ⟨_, heval, top, rest, rfl, htrue, hrest⟩
    refine ⟨⟨top, rest, heval, htrue⟩, fun hp2sh ↦ ?_⟩
    rw [if_pos hp2sh] at hrest
    exact redeem_iff.mp hrest
  · rintro ⟨⟨top, rest, heval, htrue⟩, hredeem⟩
    refine ⟨_, heval, top, rest, rfl, htrue, ?_⟩
    split_ifs with hp2sh
    · exact redeem_iff.mpr (hredeem hp2sh)
    · rfl

/-- An opcode of the switch that is not disabled. -/
theorem step_opInstr {opcode : UInt8} (hhigh : OP_16 < opcode) (hallowed : opcode ∉ disabledOpcodes)
    {s : EvalState} {rest : CScript} (hop : getOp s.pc = some (opInstr opcode, rest))
    (hexec : s.vfExec = []) (hcount : s.nOpCount + 1 ≤ 201) :
    step C s = (do
      let s ← switch C opcode { s with pc := rest, nOpCount := s.nOpCount + 1 }
      returnFalseIf (s.stack.length + s.altstack.length > 1000)
      return s) := by
  have hdata : ¬ opcode ≤ OP_PUSHDATA4 := fun hle ↦
    absurd (UInt8.lt_of_lt_of_le hhigh hle) (by decide)
  have hexecute (s : EvalState) (hexec : s.vfExec = []) :
      execute C (opInstr opcode) s = switch C opcode s := by
    unfold execute
    rw [if_neg fun hboth ↦ hdata hboth.2, if_pos (Or.inl (fExec_of_nil hexec))]
    rfl
  have hcounted : countOp (opInstr opcode).opcode s.nOpCount = s.nOpCount + 1 := if_pos hhigh
  have hshort : ¬ (opInstr opcode).vch.length > 520 := not_lt.mpr (Nat.zero_le 520)
  unfold step fetch
  rw [hop]
  simp only [pure_bind, hcounted, returnFalseIf_of_not hshort,
    returnFalseIf_of_not (fun hboth : _ ∧ s.nOpCount + 1 > 201 ↦ absurd hcount (not_le.mpr hboth.2)),
    returnFalseIf_of_not (show (opInstr opcode).opcode ∉ disabledOpcodes from hallowed)]
  rw [hexecute { s with pc := rest, nOpCount := s.nOpCount + 1 } hexec]

theorem step_of_switch {opcode : UInt8} (hhigh : OP_16 < opcode)
    (hallowed : opcode ∉ disabledOpcodes) {s s' : EvalState} {rest : CScript}
    (hop : getOp s.pc = some (opInstr opcode, rest)) (hexec : s.vfExec = [])
    (hcount : s.nOpCount + 1 ≤ 201)
    (hswitch : switch C opcode { s with pc := rest, nOpCount := s.nOpCount + 1 } = pure s') :
    step C s = refuse (s'.stack.length + s'.altstack.length > 1000) .returnFalse >>= fun _ ↦
      pure s' := by
  rw [step_opInstr hhigh hallowed hop hexec hcount, hswitch, pure_bind]
  rfl

theorem switch_hash160 {s : EvalState} (h : s.stack = vch :: stack) : switch C OP_HASH160 s =
      pure { s with stack := (C.hash160 vch).toList :: stack } := by
  show onStack (opHash C.hash160) s = _
  unfold onStack
  rw [h]
  rfl

theorem switch_equal {s : EvalState} {vch1 vch2 : Valtype} (h : s.stack = vch2 :: vch1 :: stack) :
    switch C OP_EQUAL s =
      pure { s with stack := ofBool (vch1 == vch2) :: stack } := by
  show onStack (opEqual false) s = _
  unfold onStack
  rw [h]
  rfl

/-- The top is replaced by the outcome of the comparison. -/
theorem evalScript_scripthash_iff {hash : Valtype} {rest : Stack} (hhash : hash.length = 20) :
    (evalScript C (vch :: rest) (OP_HASH160 :: 0x14 :: (hash ++ [OP_EQUAL]))).result = .ok out ↔
      rest.length + 2 ≤ 1000 ∧ out = ofBool ((C.hash160 vch).toList == hash) :: rest := by
  let s₀ := initialState (vch :: rest) (OP_HASH160 :: 0x14 :: (hash ++ [OP_EQUAL]))
  let digest := (C.hash160 vch).toList
  let s₁ : EvalState :=
    { s₀ with pc := 0x14 :: (hash ++ [OP_EQUAL]), nOpCount := 1, stack := digest :: rest }
  let s₂ : EvalState := { s₁ with pc := [OP_EQUAL], stack := hash :: digest :: rest }
  let s₃ : EvalState :=
    { s₂ with pc := [], nOpCount := 2, stack := ofBool (digest == hash) :: rest }
  have hhash₁ : step C s₀ = refuse ((digest :: rest).length + 0 > 1000) .returnFalse >>= fun _ ↦
      pure s₁ :=
    @step_of_switch C OP_HASH160 (by decide) (by decide) s₀ s₁ _
      (getOp_of_pushdata_lt (by decide)) rfl (show 0 + 1 ≤ 201 by decide) (switch_hash160 rfl)
  have hpush : getOp s₁.pc = some (⟨0x14, hash⟩, [OP_EQUAL]) := by
    apply getOp_direct (by decide) hhash
    rw [List.length_append, hhash]
    decide
  have hpush₂ : step C s₁ = refuse ((hash :: digest :: rest).length + 0 > 1000) .returnFalse >>=
      fun _ ↦ pure s₂ := by
    have hshort : ¬ hash.length > 520 := by omega
    rw [step_push (.inl (show (0x14 : UInt8) ≤ OP_PUSHDATA4 by decide)) hpush rfl, returnFalseIf_of_not hshort, pure_bind]
    rfl
  have hequal : step C s₂ = refuse ((ofBool (digest == hash) :: rest).length + 0 > 1000)
      .returnFalse >>= fun _ ↦ pure s₃ :=
    @step_of_switch C OP_EQUAL (by decide) (by decide) s₂ s₃ _
      (getOp_of_pushdata_lt (by decide)) rfl (show 1 + 1 ≤ 201 by decide) (switch_equal rfl)
  have hlength : (OP_HASH160 :: 0x14 :: (hash ++ [OP_EQUAL])).length = 20 + 1 + 1 + 1 := by
    rw [List.length_cons, List.length_cons, List.length_append, hhash]
    rfl
  unfold evalScript
  rw [hlength, runFor_of_refuse rfl hhash₁, runFor_of_refuse rfl hpush₂, runFor_of_refuse rfl hequal,
    runFor_done rfl]
  simp only [bind_assoc, pure_bind, Metered.bind_result_eq_ok, returnFalseIf,
    Meets.refuse_result_eq_ok, exists_const, List.length_cons]
  constructor
  · rintro ⟨_, _, hroom, _, _, hout⟩
    exact ⟨by omega, (Except.ok.inj hout).symm⟩
  · rintro ⟨hroom, rfl⟩
    exact ⟨by decide, by omega, by omega, by omega, fun hne ↦ hne rfl, rfl⟩

theorem le_pushdata_of_readsTo {pc stop : CScript} {instrs : List Instruction}
    (h : ReadsTo pc instrs stop) {instr : Instruction} (hmem : instr ∈ instrs)
    (hvch : instr.vch ≠ []) : instr.opcode ≤ OP_PUSHDATA4 := by
  induction h with
  | nil => cases hmem
  | cons hop _ ih =>
    cases List.mem_cons.mp hmem with
    | inl hfirst =>
      subst hfirst
      exact UInt8.not_lt.mp fun hlt ↦ hvch (vch_of_getOp hop hlt)
    | inr hrest => exact ih hrest

theorem isPush_countInstr (hn : n ≤ 16) : IsPush (countInstr n) := by
  cases isSmall_encodeOP_N hn with
  | inl hzero => exact .inl (show encodeOP_N n ≤ OP_PUSHDATA4 by rw [hzero]; decide)
  | inr hsmall => exact .inr (mem_numberOpcodes hsmall)

theorem pushed_countInstr (hn : n ≤ 16) : pushed (countInstr n) = getvch n := by
  interval_cases n <;> rfl

theorem getint_natCast (hn : n ≤ 16) : getint (n : ℤ) = n := by
  have hmax : INT_MAX = 2147483647 := rfl
  unfold getint
  rw [if_pos (by omega), min_eq_left (by omega)]

theorem count_of_getvch (hn : n ≤ 16) :
    (castToBigNum (getvch n)).result.map getint = .ok (n : ℤ) := by
  rw [castToBigNum_getvch hn]
  exact congrArg Except.ok (getint_natCast hn)

section MultiSig

variable {script : CScript} {m n : ℕ} {keys : List Instruction}

/-- The keys of a multisignature script as they lie on the stack. -/
def stackedKeys (keys : List Instruction) : List Valtype := (keys.map Instruction.vch).reverse

/-- What the opcode at the end of the script decides. -/
def multisigMatch (C : Crypto) (script : CScript) (keys : List Instruction) (sigs : List Valtype) :
    Bool :=
  greedyMatch (validSignature C (sigs.foldl dropSignature script)) sigs (stackedKeys keys)

theorem vch_ne_nil_of_isKeySize (h : IsKeySize vch.length) : vch ≠ [] := by
  rintro rfl
  exact absurd h.1 (by decide)

theorem MultisigShape.isPush (h : MultisigShape script m keys n) :
    ∀ instr ∈ countInstr m :: (keys ++ [countInstr n]), IsPush instr ∧ Short instr.vch := by
  have hcount {k : ℕ} (hk : k ≤ 16) : IsPush (countInstr k) ∧ Short (countInstr k).vch :=
    ⟨isPush_countInstr hk, Nat.zero_le 520⟩
  rw [List.forall_mem_cons, List.forall_mem_append, List.forall_mem_singleton]
  refine ⟨hcount h.m_le, fun key hkey ↦ ?_, hcount h.n_le⟩
  have hsize := h.allKeys key hkey
  have hmem : key ∈ countInstr m :: (keys ++ [countInstr n, opInstr OP_CHECKMULTISIG]) :=
    List.mem_cons_of_mem _ (List.mem_append_left _ hkey)
  exact ⟨.inl (le_pushdata_of_readsTo h.reads hmem (vch_ne_nil_of_isKeySize hsize)),
    hsize.2.trans (by decide)⟩

theorem MultisigShape.stack_eq (h : MultisigShape script m keys n) (stack : Stack) :
    ((countInstr m :: (keys ++ [countInstr n])).map pushed).reverse ++ stack =
      getvch n :: (stackedKeys keys ++ getvch m :: stack) := by
  have hkeys : keys.map pushed = keys.map Instruction.vch := by
    apply List.map_congr_left
    intro key hkey
    have hmem : key ∈ countInstr m :: (keys ++ [countInstr n, opInstr OP_CHECKMULTISIG]) :=
      List.mem_cons_of_mem _ (List.mem_append_left _ hkey)
    exact if_pos (le_pushdata_of_readsTo h.reads hmem
      (vch_ne_nil_of_isKeySize (h.allKeys key hkey)))
  rw [List.map_cons, List.map_append, hkeys, List.map_singleton, pushed_countInstr h.m_le,
    pushed_countInstr h.n_le, List.reverse_cons, List.reverse_append, stackedKeys]
  simp

/-- The script up to its last opcode. -/
theorem MultisigShape.split (h : MultisigShape script m keys n) :
    ∃ mid, ReadsTo script (countInstr m :: (keys ++ [countInstr n])) mid ∧
      getOp mid = some (opInstr OP_CHECKMULTISIG, []) := by
  have hreads : ReadsTo script
      ((countInstr m :: (keys ++ [countInstr n])) ++ [opInstr OP_CHECKMULTISIG]) [] := by
    rw [List.cons_append, List.append_assoc]
    exact h.reads
  obtain ⟨mid, hfirst, hlast⟩ := readsTo_append_iff.mp hreads
  obtain ⟨rest, hop, hend⟩ := readsTo_cons_iff.mp hlast
  obtain rfl := readsTo_nil_iff.mp hend
  exact ⟨mid, hfirst, hop⟩

theorem length_stackedKeys (keys : List Instruction) : (stackedKeys keys).length = keys.length := by
  rw [stackedKeys, List.length_reverse, List.length_map]

/-- With its counts and keys pushed, the script finds its arguments on the stack. -/
def argsOfStack (h : MultisigShape script m keys n) (hcounts : GoodCounts m keys n) {s : EvalState}
    (sigs : List Valtype) (extra : Valtype) (rest : Stack) (hsigs : sigs.length = m)
    (hstack : s.stack =
      getvch n :: (stackedKeys keys ++ getvch m :: (sigs ++ extra :: rest)))
    (hcount : s.nOpCount = 1) : MultiSigArgs s where
  vchKeysCount := getvch n
  keys := stackedKeys keys
  vchSigsCount := getvch m
  sigs := sigs
  extra := extra
  rest := rest
  stack_eq := hstack
  keysCount := by
    rw [length_stackedKeys, hcounts.2.2]
    exact count_of_getvch h.n_le
  sigsCount := by
    rw [hsigs]
    exact count_of_getvch h.m_le
  keys_le := by
    rw [length_stackedKeys, hcounts.2.2]
    exact h.n_le.trans (by decide)
  sigs_le := by
    rw [length_stackedKeys, hcounts.2.2, hsigs]
    exact hcounts.2.1
  nOpCount_le := by
    have hn := h.n_le
    rw [length_stackedKeys, hcounts.2.2, hcount]
    omega

/-- The arguments can only be these. -/
theorem MultiSigArgs.eq_of_stack (h : MultisigShape script m keys n) (hkeys : keys.length = n)
    {s : EvalState} (hstack : s.stack = getvch n :: (stackedKeys keys ++ getvch m :: stack))
    (args : MultiSigArgs s) : args.keys = stackedKeys keys ∧ args.sigs.length = m ∧
      stack = args.sigs ++ args.extra :: args.rest := by
  obtain ⟨hfirst, htail⟩ := List.cons.inj (hstack.symm.trans args.stack_eq)
  have hcount := args.keysCount
  rw [← hfirst, count_of_getvch h.n_le] at hcount
  have hlength : (stackedKeys keys).length = args.keys.length := by
    rw [length_stackedKeys, hkeys]
    exact Int.ofNat_inj.mp (Except.ok.inj hcount)
  obtain ⟨hsame, htail⟩ := List.append_inj htail hlength
  obtain ⟨hsecond, htail⟩ := List.cons.inj htail
  have hcount' := args.sigsCount
  rw [← hsecond, count_of_getvch h.m_le] at hcount'
  exact ⟨hsame.symm, (Int.ofNat_inj.mp (Except.ok.inj hcount')).symm, htail⟩

/-- With enough elements on the stack the script replaces what it uses by the outcome. -/
theorem evalScript_multisig (h : MultisigShape script m keys n) (hcounts : GoodCounts m keys n)
    (hlength : script.length ≤ 10000) {sigs : List Valtype} {extra : Valtype} {rest : Stack}
    (hsigs : sigs.length = m) (hroom : (sigs ++ extra :: rest).length + (n + 2) ≤ 1000) :
    (evalScript C (sigs ++ extra :: rest) script).result =
      .ok (ofBool (multisigMatch C script keys sigs) :: rest) := by
  obtain ⟨mid, hreads, hop⟩ := h.split
  let instrs := countInstr m :: (keys ++ [countInstr n])
  let s₁ := afterPushes (initialState (sigs ++ extra :: rest) script) instrs mid
  have hinstrs : instrs.length = n + 2 := by
    simp [instrs, hcounts.2.2]
  have hfuel : instrs.length + 1 ≤ script.length := by
    have hall := length_le_of_readsTo h.reads
    simp only [List.length_cons, List.length_append, List.length_nil] at hall
    rw [hinstrs, ← hcounts.2.2]
    omega
  obtain ⟨fuel, hfuel⟩ := Nat.exists_eq_add_of_le' hfuel
  let args : MultiSigArgs { s₁ with pc := [], nOpCount := s₁.nOpCount + 1 } :=
    argsOfStack h hcounts sigs extra rest hsigs (h.stack_eq (sigs ++ extra :: rest)) rfl
  let s₂ : EvalState := { s₁ with
    pc := [], stack := ofBool (multisigMatch C script keys sigs) :: rest
    nOpCount := 1 + args.keys.length }
  have hswitch : (switch C OP_CHECKMULTISIG
      { s₁ with pc := [], nOpCount := s₁.nOpCount + 1 }).result = .ok s₂ :=
    args.opCheckMultiSig_eq C false
  have hstep : (step C s₁).result = .ok s₂ := by
    rw [step_opInstr (by decide) (by decide) hop rfl (show 0 + 1 ≤ 201 by decide),
      Metered.bind_result_of_ok hswitch]
    refine (Meets.refuse_bind_result ?_ _).trans rfl
    rw [List.length_append, List.length_cons] at hroom
    show ¬ rest.length + 1 + 0 > 1000
    omega
  have hrun : (runFor (step C) atEnd .outOfFuel script.length
      (initialState (sigs ++ extra :: rest) script)).result = .ok s₂ := by
    rw [hfuel, show fuel + (instrs.length + 1) = fuel + 1 + instrs.length by omega]
    refine (runFor_pushes (fuel + 1) hreads h.isPush rfl ?_).trans ?_
    · show (sigs ++ extra :: rest).length + instrs.length + 0 ≤ 1000
      omega
    · rw [runFor_of_step (atEnd_of_getOp hop) hstep, runFor_done rfl]
      rfl
  unfold evalScript
  refine (Meets.refuse_bind_result (not_lt.mpr hlength) _).trans ?_
  rw [Metered.bind_result_of_ok hrun]
  exact Meets.refuse_bind_result (fun hne ↦ hne rfl) _

/-- And it ends only so. -/
theorem of_evalScript_multisig (h : MultisigShape script m keys n) (hkeys : keys.length = n)
    (hout : (evalScript C stack script).result = .ok out) :
    ∃ sigs extra rest, stack = sigs ++ extra :: rest ∧ sigs.length = m ∧
      out = ofBool (multisigMatch C script keys sigs) :: rest := by
  obtain ⟨mid, hreads, hop⟩ := h.split
  obtain ⟨_, _, hout⟩ := Metered.bind_result_eq_ok.mp hout
  obtain ⟨t, hrun, hout⟩ := Metered.bind_result_eq_ok.mp hout
  obtain ⟨_, _, hout⟩ := Metered.bind_result_eq_ok.mp hout
  obtain ⟨fuel, hrun⟩ := of_runFor_pushes hreads (fun instr hmem ↦ (h.isPush instr hmem).1) rfl hrun
  obtain ⟨fuel', s', hstep, hrun⟩ := of_runFor_eq_ok (atEnd_of_getOp hop) hrun
  rw [step_opInstr (by decide) (by decide) hop rfl (show 0 + 1 ≤ 201 by decide)] at hstep
  obtain ⟨s₂, hswitch, hstep⟩ := Metered.bind_result_eq_ok.mp hstep
  obtain ⟨_, _, hstep⟩ := Metered.bind_result_eq_ok.mp hstep
  obtain rfl : s₂ = s' := Except.ok.inj hstep
  obtain ⟨args⟩ := nonempty_multiSigArgs (show (opCheckMultiSig C false _).result = _ from hswitch)
  obtain ⟨hsame, hcount, hstack⟩ := args.eq_of_stack h hkeys (h.stack_eq stack)
  have hresult := (args.opCheckMultiSig_eq C false).symm.trans hswitch
  obtain rfl := Except.ok.inj hresult
  rw [runFor_done rfl] at hrun
  obtain rfl := Except.ok.inj hrun
  refine ⟨args.sigs, args.extra, args.rest, hstack, hcount, ?_⟩
  have hmatched : args.matched C = multisigMatch C script keys args.sigs := by
    unfold MultiSigArgs.matched multisigMatch
    rw [hsame]
    rfl
  rw [← hmatched]
  exact (Except.ok.inj hout).symm

end MultiSig

end Electra.Script
