import Electra.Ledger.HeightPrefix
import Electra.Script.StandardScripts
import Electra.Script.VerifyScript

/-!
# Running pushes

Opcodes up to `OP_16` put one value on the stack.  A run over such instructions is known without the
interpreter: the values end up on the stack, the last one on top, and no signature is looked at.

`PushAll` writes each value with the shortest opcode that takes data.  Evaluating the script gives the
values back, as long as they and the script are within the limits of the interpreter.
-/

namespace Electra.Script

open Chain Foundations.StackMachine

section

variable {C : Crypto}

/-- `OP_RESERVED` is up to `OP_16` too, but has no case. -/
def IsPush (instr : Instruction) : Prop :=
  instr.opcode ≤ OP_PUSHDATA4 ∨ instr.opcode ∈ numberOpcodes

def pushed (instr : Instruction) : Valtype :=
  if instr.opcode ≤ OP_PUSHDATA4 then instr.vch
  else getvch ((instr.opcode.toNat : ℤ) - (OP_1.toNat - 1))

theorem returnFalseIf_of_not {bad : Prop} [Decidable bad] (h : ¬ bad) :
    returnFalseIf bad = pure () := if_neg h

variable {opcode : UInt8} {instr : Instruction} {s : EvalState} {rest : CScript}

theorem le_of_mem_numberOpcodes (h : opcode ∈ numberOpcodes) :
    OP_PUSHDATA4 < opcode ∧ opcode ≤ OP_16 := by
  have hall : numberOpcodes.all (fun opcode ↦ OP_PUSHDATA4 < opcode ∧ opcode ≤ OP_16) = true := by
    decide
  exact of_decide_eq_true (List.all_eq_true.mp hall opcode h)

theorem IsPush.le (h : IsPush instr) : instr.opcode ≤ OP_16 := by
  cases h with
  | inl hdata => exact UInt8.le_trans hdata (by decide)
  | inr hnumber => exact (le_of_mem_numberOpcodes hnumber).2

theorem not_disabled_of_le (h : opcode ≤ OP_16) : opcode ∉ disabledOpcodes := by
  intro hmem
  have hall : disabledOpcodes.all (fun opcode ↦ OP_16 < opcode) = true := by decide
  exact absurd h (UInt8.not_le.mpr (of_decide_eq_true (List.all_eq_true.mp hall opcode hmem)))

theorem fExec_of_nil (h : s.vfExec = []) : s.fExec = true := by
  rw [EvalState.fExec, h]
  rfl

theorem execute_push (h : IsPush instr) (hexec : s.vfExec = []) :
    execute C instr s = pure { s with stack := pushed instr :: s.stack } := by
  unfold execute pushed
  by_cases hdata : instr.opcode ≤ OP_PUSHDATA4
  · rw [if_pos ⟨fExec_of_nil hexec, hdata⟩, if_pos hdata]
  · rw [if_neg fun hboth ↦ hdata hboth.2, if_pos (Or.inl (fExec_of_nil hexec)), if_neg hdata]
    exact switch_number (h.resolve_left hdata) s

theorem step_push (h : IsPush instr) (hop : getOp s.pc = some (instr, rest)) (hexec : s.vfExec = []) :
    step C s = (do
      returnFalseIf (instr.vch.length > 520)
      returnFalseIf ((pushed instr :: s.stack).length + s.altstack.length > 1000)
      return { s with pc := rest, stack := pushed instr :: s.stack }) := by
  have hcount : ¬ instr.opcode > OP_16 := UInt8.not_lt.mpr h.le
  unfold step fetch
  rw [hop]
  simp only [bind_assoc, pure_bind, countOp, if_neg hcount,
    returnFalseIf_of_not (fun hboth : instr.opcode > OP_16 ∧ _ ↦ hcount hboth.1),
    returnFalseIf_of_not (not_disabled_of_le h.le), execute_push h (s := { s with pc := rest }) hexec]

/-- The state after the instructions of a script up to `stop`, if these are pushes. -/
def afterPushes (s : EvalState) (instrs : List Instruction) (stop : CScript) : EvalState :=
  { s with pc := stop, stack := (instrs.map pushed).reverse ++ s.stack }

theorem afterPushes_cons (s : EvalState) (instr : Instruction) (instrs : List Instruction)
    (rest stop : CScript) :
    afterPushes { s with pc := rest, stack := pushed instr :: s.stack } instrs stop =
      afterPushes s (instr :: instrs) stop := by
  unfold afterPushes
  rw [List.map_cons, List.reverse_cons, List.append_assoc]
  rfl

theorem atEnd_of_getOp (hop : getOp s.pc = some (instr, rest)) : atEnd s = false := by
  unfold atEnd
  cases hpc : s.pc with
  | nil =>
    rw [hpc] at hop
    cases hop
  | cons byte pc => rfl

theorem runFor_pushes {instrs : List Instruction} {stop : CScript} (fuel : ℕ)
    (hreads : ReadsTo s.pc instrs stop) (hpush : ∀ instr ∈ instrs, IsPush instr ∧ Short instr.vch)
    (hexec : s.vfExec = []) (hroom : s.stack.length + instrs.length + s.altstack.length ≤ 1000) :
    (runFor (step C) atEnd .outOfFuel (fuel + instrs.length) s).result =
      (runFor (step C) atEnd .outOfFuel fuel (afterPushes s instrs stop)).result := by
  induction instrs generalizing s with
  | nil =>
    obtain rfl := readsTo_nil_iff.mp hreads
    rfl
  | cons instr instrs ih =>
    obtain ⟨rest, hop, hreads⟩ := readsTo_cons_iff.mp hreads
    have hinstr := hpush instr List.mem_cons_self
    rw [List.length_cons] at hroom
    have hstep : (step C s).result =
        .ok { s with pc := rest, stack := pushed instr :: s.stack } := by
      rw [step_push hinstr.1 hop hexec, returnFalseIf_of_not (not_lt.mpr hinstr.2), pure_bind,
        returnFalseIf_of_not (by rw [List.length_cons]; omega)]
      rfl
    calc
      (runFor (step C) atEnd .outOfFuel (fuel + instrs.length + 1) s).result
        = (runFor (step C) atEnd .outOfFuel (fuel + instrs.length)
            { s with pc := rest, stack := pushed instr :: s.stack }).result :=
          runFor_of_step (atEnd_of_getOp hop) hstep _
      _ = _ := by
          rw [← afterPushes_cons s instr instrs rest stop]
          apply ih (s := { s with pc := rest, stack := pushed instr :: s.stack }) hreads
            (fun instr hmem ↦ hpush instr (List.mem_cons_of_mem _ hmem)) hexec
          show s.stack.length + 1 + instrs.length + s.altstack.length ≤ 1000
          omega

/-- A run that ends has made its pushes. -/
theorem of_runFor_pushes {instrs : List Instruction} {t : EvalState} {stop : CScript} {fuel : ℕ}
    (hreads : ReadsTo s.pc instrs stop) (hpush : ∀ instr ∈ instrs, IsPush instr) (hexec : s.vfExec = [])
    (h : (runFor (step C) atEnd .outOfFuel fuel s).result = .ok t) :
    ∃ fuel', (runFor (step C) atEnd .outOfFuel fuel' (afterPushes s instrs stop)).result =
      .ok t := by
  induction instrs generalizing s fuel with
  | nil =>
    obtain rfl := readsTo_nil_iff.mp hreads
    exact ⟨fuel, h⟩
  | cons instr instrs ih =>
    obtain ⟨rest, hop, hreads⟩ := readsTo_cons_iff.mp hreads
    obtain ⟨fuel', s', hstep, hrun⟩ := of_runFor_eq_ok (atEnd_of_getOp hop) h
    rw [step_push (hpush instr List.mem_cons_self) hop hexec] at hstep
    obtain ⟨_, _, hstep⟩ := Metered.bind_result_eq_ok.mp hstep
    obtain ⟨_, _, hstep⟩ := Metered.bind_result_eq_ok.mp hstep
    obtain rfl := Except.ok.inj hstep
    rw [← afterPushes_cons s instr instrs rest stop]
    exact ih (s := { s with pc := rest, stack := pushed instr :: s.stack }) hreads
      (fun instr hmem ↦ hpush instr (List.mem_cons_of_mem _ hmem)) hexec hrun

section Independent

variable (C C' : Crypto)

theorem switch_eq_of_le (hlow : ¬ opcode ≤ OP_PUSHDATA4) (hhigh : opcode ≤ OP_16) (s : EvalState) :
    switch C opcode s = switch C' opcode s := by
  cases mem_numberOpcodes_of_le hlow hhigh with
  | inl hreserved =>
    unfold switch
    rw [hreserved, lookup_reserved, lookup_reserved]
  | inr hnumber => rw [switch_number hnumber, switch_number hnumber]

theorem execute_eq_of_le (hhigh : instr.opcode ≤ OP_16) (s : EvalState) :
    execute C instr s = execute C' instr s := by
  unfold execute
  split_ifs with hpush hswitch
  · rfl
  · apply switch_eq_of_le C C' _ hhigh
    intro hlow
    have hnot : ¬ s.fExec = true := fun hexec ↦ hpush ⟨hexec, hlow⟩
    exact absurd (UInt8.le_trans (hswitch.resolve_left hnot).1 hlow) (by decide)
  · rfl

theorem step_eq_of_le (hop : getOp s.pc = some (instr, rest)) (hhigh : instr.opcode ≤ OP_16) :
    step C s = step C' s := by
  unfold step
  apply Metered.bind_congr
  rintro ⟨instr', s₁⟩ hfetch
  have hfetched := fetched_of_result hfetch
  obtain ⟨rfl, _⟩ := Prod.mk.inj (Option.some.inj (hop.symm.trans hfetched.getOp_eq))
  simp only [execute_eq_of_le C C' hhigh]

theorem runFor_eq_of_isPushOnlyFrom {fuel : ℕ} (hexec : s.vfExec = [])
    (hpush : isPushOnlyFrom fuel s.pc = true) :
    runFor (step C) atEnd .outOfFuel fuel s = runFor (step C') atEnd .outOfFuel fuel s := by
  induction fuel generalizing s with
  | zero => rw [runFor, runFor]
  | succ fuel ih =>
    cases hdone : atEnd s with
    | true => rw [runFor_done hdone, runFor_done hdone]
    | false =>
      rw [runFor, runFor, hdone, if_neg Bool.false_ne_true, if_neg Bool.false_ne_true]
      rw [isPushOnlyFrom, show s.pc.isEmpty = false from hdone, if_neg Bool.false_ne_true] at hpush
      cases hop : getOp s.pc with
      | none =>
        rw [hop] at hpush
        cases hpush
      | some read =>
        obtain ⟨instr, rest⟩ := read
        simp only [hop] at hpush
        split_ifs at hpush with hhigh
        rw [step_eq_of_le C C' hop (UInt8.not_lt.mp hhigh)]
        apply Metered.bind_congr
        intro s' hstep
        have hs' := pushInv_of_step hexec hop (UInt8.not_lt.mp hhigh) hstep
        exact ih hs'.1.vfExec_eq (by rw [hs'.2]; exact hpush)

/-- A script of pushes leaves the same stack whatever transaction it is evaluated for. -/
theorem evalScript_eq_of_isPushOnly {script : CScript} (h : isPushOnly script = true)
    (stack : Stack) : evalScript C stack script = evalScript C' stack script := by
  unfold evalScript
  rw [runFor_eq_of_isPushOnlyFrom C C' (s := initialState stack script) rfl h]

end Independent

end

variable {C : Crypto}

theorem pushBytes_eq_append (script : CScript) (b : Valtype) :
    pushBytes script b = script ++ pushBytes [] b := by
  unfold pushBytes
  split_ifs <;> simp only [List.append_assoc, List.nil_append]

theorem foldl_pushBytes (script : CScript) (values : List Valtype) :
    values.foldl pushBytes script = script ++ pushAll values := by
  unfold pushAll
  induction values generalizing script with
  | nil => rw [List.foldl_nil, List.foldl_nil, List.append_nil]
  | cons v values ih =>
    calc
      values.foldl pushBytes (pushBytes script v)
        = pushBytes script v ++ values.foldl pushBytes [] := ih _
      _ = script ++ (pushBytes [] v ++ values.foldl pushBytes []) := by
          rw [pushBytes_eq_append script v, List.append_assoc]
      _ = script ++ values.foldl pushBytes (pushBytes [] v) := by rw [ih (pushBytes [] v)]

theorem pushAll_cons (v : Valtype) (values : List Valtype) :
    pushAll (v :: values) = pushBytes [] v ++ pushAll values := by
  show values.foldl pushBytes (pushBytes [] v) = _
  rw [foldl_pushBytes]

theorem pushAll_append (values more : List Valtype) :
    pushAll (values ++ more) = pushAll values ++ pushAll more := by
  unfold pushAll
  rw [List.foldl_append, foldl_pushBytes]
  rfl

theorem pushBytes_pushAll (values : List Valtype) (v : Valtype) :
    pushBytes (pushAll values) v = pushAll (values ++ [v]) := by
  rw [pushAll_append, pushBytes_eq_append]
  rfl

theorem length_pushBytes_le {v : Valtype} (h : Short v) : (pushBytes [] v).length ≤ v.length + 3 := by
  have hshort : v.length ≤ 520 := h
  unfold pushBytes
  split_ifs
  all_goals
    simp only [List.nil_append, List.length_append, List.length_cons, List.length_nil]
    omega

variable {values : List Valtype}

theorem length_pushAll_le {bound : ℕ} (h : ∀ v ∈ values, Short v ∧ v.length ≤ bound) :
    (pushAll values).length ≤ values.length * (bound + 3) := by
  induction values with
  | nil => exact Nat.zero_le _
  | cons v values ih =>
    have hv := h v List.mem_cons_self
    have hpush := length_pushBytes_le hv.1
    have hrest := ih fun w hw ↦ h w (List.mem_cons_of_mem _ hw)
    calc
      (pushAll (v :: values)).length
        = (pushBytes [] v).length + (pushAll values).length := by
          rw [pushAll_cons, List.length_append]
      _ ≤ (bound + 3) + values.length * (bound + 3) := by omega
      _ = (v :: values).length * (bound + 3) := by rw [List.length_cons]; ring

/-- The opcode that a value is pushed with. -/
def pushOpcode (v : Valtype) : UInt8 :=
  if v.length < 0x4c then UInt8.ofNat v.length
  else if v.length ≤ 0xff then OP_PUSHDATA1
  else if v.length ≤ 0xffff then OP_PUSHDATA2
  else OP_PUSHDATA4

theorem pushOpcode_le (v : Valtype) : pushOpcode v ≤ OP_PUSHDATA4 := by
  unfold pushOpcode
  split_ifs with hdirect
  · rw [UInt8.le_iff_toNat_le, UInt8.toNat_ofNat', Nat.mod_eq_of_lt (by omega)]
    exact hdirect.le.trans (by decide)
  all_goals decide

theorem littleEndian_size (n w : ℕ) (h : n < 256 ^ w) :
    littleEndian ((List.range w).map fun i ↦ UInt8.ofNat (n / 256 ^ i)) = n := by
  induction w generalizing n with
  | zero =>
    rw [pow_zero, Nat.lt_one_iff] at h
    rw [h]
    rfl
  | succ w ih =>
    have hdiv : n / 256 < 256 ^ w := Nat.div_lt_of_lt_mul (by rwa [← pow_succ'])
    have hrest : (List.range w).map ((fun i ↦ UInt8.ofNat (n / 256 ^ i)) ∘ Nat.succ) =
        (List.range w).map fun i ↦ UInt8.ofNat (n / 256 / 256 ^ i) := by
      apply List.map_congr_left
      intro i _
      rw [Function.comp_apply, Nat.succ_eq_add_one, pow_succ', Nat.div_div_eq_div_mul]
    rw [List.range_succ_eq_map, List.map_cons, List.map_map, hrest]
    change (UInt8.ofNat (n / 256 ^ 0)).toNat + 256 * littleEndian _ = n
    rw [ih _ hdiv, UInt8.toNat_ofNat', pow_zero, Nat.div_one]
    exact Nat.mod_add_div n 256

/-- A value whose size is written behind the opcode. -/
theorem getSized_value {opcode : UInt8} {v rest : CScript} (w : ℕ) (hsize : v.length < 256 ^ w)
    (hlength : (v ++ rest).length < 2 ^ 32) :
    getSized opcode w (((List.range w).map fun i ↦ UInt8.ofNat (v.length / 256 ^ i)) ++ (v ++ rest)) =
      some (⟨opcode, v⟩, rest) := by
  have hwidth : ((List.range w).map fun i ↦ UInt8.ofNat (v.length / 256 ^ i)).length = w := by
    rw [List.length_map, List.length_range]
  rw [getSized, if_neg (by rw [List.length_append]; omega), List.take_left' hwidth, List.drop_left' hwidth,
    littleEndian_size _ _ hsize, getOperand, Nat.mod_eq_of_lt hlength,
    if_neg (by rw [List.length_append]; omega), List.take_left, List.drop_left]

theorem getOp_pushBytes {v rest : CScript} (hlength : (v ++ rest).length < 2 ^ 32) :
    getOp (pushBytes [] v ++ rest) = some (⟨pushOpcode v, v⟩, rest) := by
  have hv : v.length < 2 ^ 32 := by
    rw [List.length_append] at hlength
    omega
  unfold pushBytes pushOpcode
  split_ifs with hdirect hone htwo
  · have hsize : (UInt8.ofNat v.length).toNat = v.length := by
      rw [UInt8.toNat_ofNat', Nat.mod_eq_of_lt (by omega)]
    have hlt : UInt8.ofNat v.length < OP_PUSHDATA1 := by
      rw [UInt8.lt_iff_toNat_lt, hsize]
      exact hdirect
    exact getOp_direct hlt hsize.symm hlength
  · have hsized := @getSized_value OP_PUSHDATA1 v rest 1 (by omega) hlength
    have hfield : (List.range 1).map (fun i ↦ UInt8.ofNat (v.length / 256 ^ i)) = [UInt8.ofNat v.length] := by
      simp [List.range_succ]
    rw [hfield] at hsized
    exact hsized
  · have hsized := @getSized_value OP_PUSHDATA2 v rest 2 (by omega) hlength
    have hfield : (List.range 2).map (fun i ↦ UInt8.ofNat (v.length / 256 ^ i)) =
        [UInt8.ofNat v.length, UInt8.ofNat (v.length / 256)] := by
      simp [List.range_succ]
    rw [hfield] at hsized
    exact hsized
  · simp only [List.nil_append, List.cons_append, List.append_assoc]
    have hsized := @getSized_value OP_PUSHDATA4 v rest 4 (by omega) hlength
    generalize (List.range 4).map (fun i ↦ UInt8.ofNat (v.length / 256 ^ i)) = field at hsized ⊢
    exact hsized

/-- What reading the pushes of `values` gives. -/
structure PushesOf (instrs : List Instruction) (values : List Valtype) : Prop where
  pushed_eq : instrs.map pushed = values
  data : ∀ instr ∈ instrs, instr.opcode ≤ OP_PUSHDATA4 ∧ Short instr.vch

theorem reads_pushAll (hshort : AllShort values) (hlength : (pushAll values).length < 2 ^ 32) :
    ∃ instrs, Reads (pushAll values) instrs ∧ PushesOf instrs values := by
  induction values with
  | nil => exact ⟨[], .nil, rfl, List.forall_mem_nil _⟩
  | cons v values ih =>
    rw [pushAll_cons] at hlength ⊢
    have hv := hshort v List.mem_cons_self
    have hsizes := Ledger.length_le_length_pushBytes v
    rw [List.length_append] at hlength
    obtain ⟨instrs, hreads, hpushes⟩ :=
      ih (fun w hw ↦ hshort w (List.mem_cons_of_mem _ hw)) (by omega)
    have hall : (v ++ pushAll values).length < 2 ^ 32 := by
      rw [List.length_append]
      omega
    have hopcode := pushOpcode_le v
    refine ⟨⟨pushOpcode v, v⟩ :: instrs, .cons (getOp_pushBytes hall) hreads, ?_, ?_⟩
    · rw [List.map_cons, hpushes.pushed_eq, pushed, if_pos hopcode]
    · exact List.forall_mem_cons.mpr ⟨⟨hopcode, hv⟩, hpushes.data⟩

theorem isPushOnlyFrom_of_readsTo {pc stop : CScript} {instrs : List Instruction}
    (h : ReadsTo pc instrs stop) (hstop : stop = []) (hpush : ∀ instr ∈ instrs, instr.opcode ≤ OP_16)
    {fuel : ℕ} (hfuel : instrs.length ≤ fuel) : isPushOnlyFrom fuel pc = true := by
  induction h generalizing fuel with
  | nil => subst hstop; cases fuel <;> rfl
  | @cons pc rest stop instr instrs hop _ ih =>
    obtain ⟨fuel, rfl⟩ := Nat.exists_eq_succ_of_ne_zero (Nat.ne_of_gt (Nat.zero_lt_of_lt hfuel))
    have hle : ¬ instr.opcode > OP_16 := UInt8.not_lt.mpr (hpush instr List.mem_cons_self)
    have hrest := ih hstop (fun instr hmem ↦ hpush instr (List.mem_cons_of_mem _ hmem))
      (Nat.le_of_succ_le_succ hfuel)
    rw [isPushOnlyFrom]
    split_ifs
    · rfl
    · simp only [hop, if_neg hle]
      exact hrest

/-- The limits of the interpreter on a script that pushes `values`. -/
structure Pushable (values : List Valtype) : Prop where
  short : AllShort values
  count_le : values.length ≤ 1000
  length_le : (pushAll values).length ≤ 10000

theorem Pushable.reads (h : Pushable values) :
    ∃ instrs, Reads (pushAll values) instrs ∧ PushesOf instrs values :=
  reads_pushAll h.short (h.length_le.trans_lt (by decide))

theorem Pushable.isPushOnly (h : Pushable values) :
    isPushOnly (pushAll values) = true := by
  obtain ⟨instrs, hreads, hpushes⟩ := h.reads
  have hcount := length_le_of_readsTo hreads
  apply isPushOnlyFrom_of_readsTo hreads rfl
  · exact fun instr hmem ↦ UInt8.le_trans (hpushes.data instr hmem).1 (by decide)
  · exact (Nat.le_add_right _ _).trans hcount

theorem Pushable.evalScript (h : Pushable values) :
    (evalScript C [] (pushAll values)).result = .ok values.reverse := by
  obtain ⟨instrs, hreads, hpushes⟩ := h.reads
  have hcount := length_le_of_readsTo hreads
  obtain ⟨fuel, hfuel⟩ := Nat.exists_eq_add_of_le' ((Nat.le_add_right _ _).trans hcount)
  have hvalues : instrs.length = values.length := by
    rw [← hpushes.pushed_eq, List.length_map]
  have hroom : instrs.length ≤ 1000 := hvalues.trans_le h.count_le
  have hrun : (runFor (step C) atEnd .outOfFuel (pushAll values).length
      (initialState [] (pushAll values))).result =
      .ok (afterPushes (initialState [] (pushAll values)) instrs []) := by
    rw [hfuel, runFor_pushes fuel hreads
      (fun instr hmem ↦ ⟨.inl (hpushes.data instr hmem).1, (hpushes.data instr hmem).2⟩) rfl
      (by rw [initialState]; simpa using hroom), runFor_done rfl]
    rfl
  unfold Script.evalScript
  refine (Meets.refuse_bind_result (not_lt.mpr h.length_le) _).trans ?_
  rw [Metered.bind_result_of_ok hrun]
  refine (Meets.refuse_bind_result (fun hne ↦ hne rfl) _).trans ?_
  rw [afterPushes, hpushes.pushed_eq, initialState, List.append_nil]
  rfl

end Electra.Script
