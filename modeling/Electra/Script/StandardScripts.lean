import Electra.Script.Solver
import Mathlib.Tactic.IntervalCases

/-!
# The grammar of standard scripts

A standard script is a list of instructions of one of four shapes.  A template matches just the lists
of its shape, so that `Solver` classifies by the grammar, with two exceptions: for pay-to-script-hash
it leaves in place what the solutions held before, and for a multisignature script with impossible
counts it leaves the type and the solutions behind when it returns false.
-/

namespace Electra.Script

open Chain

/-- The instructions of a script up to some place in it. -/
inductive ReadsTo : CScript → List Instruction → CScript → Prop
  | nil {pc : CScript} : ReadsTo pc [] pc
  | cons {pc rest stop : CScript} {instr : Instruction} {instrs : List Instruction}
      (hop : getOp pc = some (instr, rest)) (h : ReadsTo rest instrs stop) :
      ReadsTo pc (instr :: instrs) stop

/-- The instructions of a whole script. -/
abbrev Reads (script : CScript) (instrs : List Instruction) : Prop := ReadsTo script instrs []

variable {pc stop script pc2 pc1 : CScript} {instr last : Instruction} {instrs keys : List Instruction}
  {n : ℕ} {opcode : UInt8} {vSolutions out : List Valtype} {hash : Valtype}

theorem readsTo_nil_iff : ReadsTo pc [] stop ↔ pc = stop := by
  constructor
  · intro h
    cases h
    rfl
  · rintro rfl
    exact .nil

theorem readsTo_cons_iff :
    ReadsTo pc (instr :: instrs) stop ↔
      ∃ rest, getOp pc = some (instr, rest) ∧ ReadsTo rest instrs stop := by
  constructor
  · intro h
    cases h with
    | cons hop h => exact ⟨_, hop, h⟩
  · rintro ⟨rest, hop, h⟩
    exact .cons hop h

theorem readsTo_append_iff {more : List Instruction} :
    ReadsTo pc (instrs ++ more) stop ↔ ∃ mid, ReadsTo pc instrs mid ∧ ReadsTo mid more stop := by
  induction instrs generalizing pc with
  | nil => simp only [List.nil_append, readsTo_nil_iff, exists_eq_left']
  | cons instr instrs ih =>
    simp only [List.cons_append, readsTo_cons_iff, ih]
    constructor
    · rintro ⟨rest, hop, mid, hfirst, hmore⟩
      exact ⟨mid, ⟨rest, hop, hfirst⟩, hmore⟩
    · rintro ⟨mid, ⟨rest, hop, hfirst⟩, hmore⟩
      exact ⟨rest, hop, mid, hfirst, hmore⟩

/-- A script reads in one way only. -/
theorem Reads.unique {instrs' : List Instruction} (h : Reads script instrs) (h' : Reads script instrs') :
    instrs = instrs' := by
  induction instrs generalizing script instrs' with
  | nil =>
    obtain rfl := readsTo_nil_iff.mp h
    cases h' with
    | nil => rfl
    | cons hop _ => cases hop
  | cons instr instrs ih =>
    obtain ⟨rest, hop, hrest⟩ := readsTo_cons_iff.mp h
    cases h' with
    | nil => cases hop
    | cons hop' hrest' =>
      obtain ⟨rfl, rfl⟩ := Prod.mk.inj (Option.some.inj (hop.symm.trans hop'))
      rw [ih hrest hrest']

/-- `EncodeOP_N`; the assertion keeps `n` below 17. -/
def encodeOP_N (n : ℕ) : UInt8 := if n = 0 then OP_0 else OP_1 + UInt8.ofNat n - 1

theorem decodeOP_N_encodeOP_N (hn : n ≤ 16) : decodeOP_N (encodeOP_N n) = n := by
  interval_cases n <;> rfl

theorem isSmall_encodeOP_N (hn : n ≤ 16) :
    encodeOP_N n = OP_0 ∨ IsSmallNumber (encodeOP_N n) := by
  interval_cases n <;> decide

theorem encodeOP_N_decodeOP_N (h : opcode = OP_0 ∨ IsSmallNumber opcode) :
    decodeOP_N opcode ≤ 16 ∧ encodeOP_N (decodeOP_N opcode) = opcode := by
  rcases h with rfl | h
  · decide
  · have hvalue := decodeOP_N_of_isSmallNumber h
    refine ⟨by omega, ?_⟩
    rw [hvalue.1, encodeOP_N, if_neg (by omega)]
    apply UInt8.toNat_inj.mp
    rw [UInt8.toNat_sub, UInt8.toNat_add, UInt8.toNat_ofNat', show OP_1.toNat = 0x51 from rfl,
      show (1 : UInt8).toNat = 1 from rfl]
    omega

theorem vch_of_getOp_zero {rest : CScript} (h : getOp pc = some (instr, rest))
    (hzero : instr.opcode = OP_0) : instr.vch = [] := by
  cases pc with
  | nil => cases h
  | cons opcode pc =>
    obtain ⟨size, hscript⟩ := of_getOp h
    obtain rfl : opcode = OP_0 := (List.cons.inj hscript).1.trans hzero
    rw [getOp, if_pos (by decide), if_pos (by decide), getOperand, if_neg (by simp [OP_0])] at h
    cases h
    rfl

/-- The instruction that pushes a small number. -/
def countInstr (n : ℕ) : Instruction := ⟨encodeOP_N n, []⟩

theorem isSmall_iff {rest : CScript} (h : getOp pc = some (instr, rest)) :
    (instr.opcode = OP_0 ∨ IsSmallNumber instr.opcode) ↔ ∃ n ≤ 16, instr = countInstr n := by
  constructor
  · intro hsmall
    have hencode := encodeOP_N_decodeOP_N hsmall
    refine ⟨decodeOP_N instr.opcode, hencode.1, ?_⟩
    have hvch : instr.vch = [] := by
      rcases hsmall with hzero | hsmall
      · exact vch_of_getOp_zero h hzero
      · exact vch_of_getOp h (UInt8.lt_of_lt_of_le (by decide) hsmall.1)
    rw [countInstr, hencode.2, ← hvch]
  · rintro ⟨n, hn, rfl⟩
    exact isSmall_encodeOP_N hn

theorem matchFrom_nil_iff :
    matchFrom [] pc vSolutions = some out ↔ pc = [] ∧ out = vSolutions := by
  rw [matchFrom]
  cases pc with
  | nil => simp [eq_comm]
  | cons byte pc => simp

theorem matchFrom_cons_iff {opcode2 : UInt8} (h : opcode2 ≠ OP_PUBKEYS) :
    matchFrom (opcode2 :: pc2) pc vSolutions = some out ↔
      ∃ instr rest, getOp pc = some (instr, rest) ∧
        ∃ vSolutions', matchOp instr opcode2 vSolutions = some vSolutions' ∧
          matchFrom pc2 rest vSolutions' = some out := by
  rw [matchFrom]
  cases hop : getOp pc with
  | none => simp
  | some read =>
    obtain ⟨instr, rest⟩ := read
    simp only [if_neg h, Option.bind_eq_some_iff, Option.some.injEq, Prod.mk.injEq]
    constructor
    · exact fun h ↦ ⟨instr, rest, ⟨rfl, rfl⟩, h⟩
    · rintro ⟨_, _, ⟨rfl, rfl⟩, h⟩
      exact h

/-- Opcodes of a template that stand for themselves. -/
def IsLiteral (opcode2 : UInt8) : Prop :=
  opcode2 ≠ OP_PUBKEY ∧ opcode2 ≠ OP_PUBKEYHASH ∧ opcode2 ≠ OP_SMALLINTEGER ∧ opcode2 ≠ OP_PUBKEYS

instance (opcode2 : UInt8) : Decidable (IsLiteral opcode2) := inferInstanceAs (Decidable (_ ∧ _))

theorem matchFrom_literal_iff (opcode2 : UInt8) (h : IsLiteral opcode2) :
    matchFrom (opcode2 :: pc2) pc vSolutions = some out ↔
      ∃ rest, getOp pc = some (⟨opcode2, []⟩, rest) ∧ matchFrom pc2 rest vSolutions = some out := by
  rw [matchFrom_cons_iff h.2.2.2]
  simp only [matchOp, if_neg h.1, if_neg h.2.1, if_neg h.2.2.1]
  constructor
  · rintro ⟨⟨opcode, vch⟩, rest, hop, vSolutions', hmatch, hrest⟩
    split_ifs at hmatch with hdiffer
    obtain ⟨rfl, rfl⟩ : opcode = opcode2 ∧ vch = [] := by simpa [not_or] using hdiffer
    obtain rfl := Option.some.inj hmatch
    exact ⟨rest, hop, hrest⟩
  · rintro ⟨rest, hop, hrest⟩
    exact ⟨_, rest, hop, vSolutions, by simp, hrest⟩

theorem matchFrom_pubkey_iff :
    matchFrom (OP_PUBKEY :: pc2) pc vSolutions = some out ↔
      ∃ key rest, getOp pc = some (key, rest) ∧ IsKeySize key.vch.length ∧
        matchFrom pc2 rest (vSolutions ++ [key.vch]) = some out := by
  rw [matchFrom_cons_iff (by decide)]
  simp [matchOp]

theorem matchFrom_pubkeyhash_iff :
    matchFrom (OP_PUBKEYHASH :: pc2) pc vSolutions = some out ↔
      ∃ hash rest, getOp pc = some (hash, rest) ∧ hash.vch.length = 20 ∧
        matchFrom pc2 rest (vSolutions ++ [hash.vch]) = some out := by
  rw [matchFrom_cons_iff (by decide)]
  simp [matchOp, show OP_PUBKEYHASH ≠ OP_PUBKEY by decide]

/-- A small number among the solutions. -/
def countVch (n : ℕ) : Valtype := [UInt8.ofNat n]

theorem matchOp_smallinteger (vSolutions : List Valtype) :
    matchOp instr OP_SMALLINTEGER vSolutions =
      if instr.opcode = OP_0 ∨ IsSmallNumber instr.opcode then
        some (vSolutions ++ [countVch (decodeOP_N instr.opcode)]) else none := rfl

theorem matchFrom_smallinteger_iff :
    matchFrom (OP_SMALLINTEGER :: pc2) pc vSolutions = some out ↔
      ∃ n ≤ 16, ∃ rest, getOp pc = some (countInstr n, rest) ∧
        matchFrom pc2 rest (vSolutions ++ [countVch n]) = some out := by
  rw [matchFrom_cons_iff (by decide)]
  constructor
  · rintro ⟨instr, rest, hop, vSolutions', hmatch, hrest⟩
    rw [matchOp_smallinteger] at hmatch
    split_ifs at hmatch with hsmall
    obtain ⟨n, hn, rfl⟩ := (isSmall_iff hop).mp hsmall
    obtain rfl := Option.some.inj hmatch
    rw [countInstr, decodeOP_N_encodeOP_N hn] at hrest
    exact ⟨n, hn, rest, hop, hrest⟩
  · rintro ⟨n, hn, rest, hop, hrest⟩
    refine ⟨_, rest, hop, _, ?_, hrest⟩
    rw [matchOp_smallinteger, if_pos ((isSmall_iff hop).mpr ⟨n, hn, rfl⟩), countInstr,
      decodeOP_N_encodeOP_N hn]

theorem length_le_of_readsTo (h : ReadsTo pc instrs stop) :
    instrs.length + stop.length ≤ pc.length := by
  induction h with
  | nil => exact (Nat.zero_add _).le
  | cons hop _ ih =>
    have hshorter := length_lt_of_getOp hop
    rw [List.length_cons]
    omega

theorem exists_getOp_of_readsTo (h : ReadsTo pc (keys ++ [last]) stop) :
    ∃ instr rest, getOp pc = some (instr, rest) := by
  cases keys with
  | nil => exact ⟨last, (readsTo_cons_iff.mp h).imp fun _ h ↦ h.1⟩
  | cons key keys => exact ⟨key, (readsTo_cons_iff.mp h).imp fun _ h ↦ h.1⟩

/-- Every key takes at least one byte. -/
theorem length_lt_of_readsTo (hop : getOp pc = some (instr, pc1)) (h : ReadsTo pc (keys ++ [last]) stop) :
    keys.length < pc1.length + 1 := by
  cases keys with
  | nil => exact Nat.succ_pos _
  | cons key keys =>
    rw [List.cons_append, readsTo_cons_iff] at h
    obtain ⟨rest, hop', hrest⟩ := h
    obtain ⟨_, rfl⟩ := Prod.mk.inj (Option.some.inj (hop.symm.trans hop'))
    have hlength := length_le_of_readsTo hrest
    rw [List.length_append, List.length_singleton] at hlength
    rw [List.length_cons]
    omega

def AllKeys (keys : List Instruction) : Prop := ∀ key ∈ keys, IsKeySize key.vch.length

theorem takeKeys_of_readsTo {fuel : ℕ} (hop : getOp pc = some (instr, pc1))
    (h : ReadsTo pc (keys ++ [last]) stop) (hkeys : AllKeys keys) (hlast : ¬ IsKeySize last.vch.length)
    (hfuel : keys.length < fuel) :
    takeKeys fuel instr pc1 vSolutions = (last, stop, vSolutions ++ keys.map Instruction.vch) := by
  induction keys generalizing instr pc pc1 fuel vSolutions with
  | nil =>
    obtain ⟨rest, hop', hstop⟩ := readsTo_cons_iff.mp h
    obtain ⟨rfl, rfl⟩ := Prod.mk.inj (Option.some.inj (hop.symm.trans hop'))
    obtain rfl := readsTo_nil_iff.mp hstop
    obtain ⟨fuel, rfl⟩ := Nat.exists_eq_succ_of_ne_zero (Nat.ne_of_gt hfuel)
    rw [takeKeys, if_neg hlast, List.map_nil, List.append_nil]
  | cons key keys ih =>
    obtain ⟨rest, hop', hrest⟩ := readsTo_cons_iff.mp h
    obtain ⟨rfl, rfl⟩ := Prod.mk.inj (Option.some.inj (hop.symm.trans hop'))
    obtain ⟨fuel, rfl⟩ := Nat.exists_eq_succ_of_ne_zero (Nat.ne_of_gt (Nat.zero_lt_of_lt hfuel))
    rw [takeKeys, if_pos (hkeys instr List.mem_cons_self)]
    obtain ⟨next, pc2, hnext⟩ := exists_getOp_of_readsTo hrest
    simp only [hnext]
    rw [ih hnext hrest (fun key hkey ↦ hkeys key (List.mem_cons_of_mem _ hkey))
      (Nat.lt_of_succ_lt_succ hfuel), List.map_cons, List.append_assoc]
    rfl

theorem takeKeys_spec {fuel : ℕ} (vSolutions : List Valtype) (hop : getOp pc = some (instr, pc1))
    (hfuel : pc1.length < fuel) :
    (takeKeys fuel instr pc1 vSolutions).1 = ⟨OP_INVALIDOPCODE, []⟩ ∨
      ∃ keys, AllKeys keys ∧
        ReadsTo pc (keys ++ [(takeKeys fuel instr pc1 vSolutions).1])
          (takeKeys fuel instr pc1 vSolutions).2.1 ∧
        (takeKeys fuel instr pc1 vSolutions).2.2 = vSolutions ++ keys.map Instruction.vch := by
  induction fuel generalizing instr pc pc1 vSolutions with
  | zero => cases hfuel
  | succ fuel ih =>
    rw [takeKeys]
    split_ifs with hkey
    · cases hnext : getOp pc1 with
      | none => exact .inl rfl
      | some read =>
        obtain ⟨next, rest⟩ := read
        have hshorter := length_lt_of_getOp hnext
        refine (ih _ hnext (by omega)).imp_right ?_
        rintro ⟨keys, hkeys, hreads, hsolutions⟩
        refine ⟨instr :: keys, List.forall_mem_cons.mpr ⟨hkey, hkeys⟩, .cons hop hreads, ?_⟩
        rw [hsolutions, List.append_assoc]
        rfl
    · exact .inr ⟨[], List.forall_mem_nil _, .cons hop .nil, (List.append_nil _).symm⟩

theorem not_isKeySize_countInstr (n : ℕ) : ¬ IsKeySize (countInstr n).vch.length :=
  fun h ↦ Nat.not_succ_le_zero 32 h.1

theorem matchFrom_pubkeys_iff :
    matchFrom (OP_PUBKEYS :: OP_SMALLINTEGER :: pc2) pc vSolutions = some out ↔
      ∃ keys, AllKeys keys ∧ ∃ n ≤ 16, ∃ stop, ReadsTo pc (keys ++ [countInstr n]) stop ∧
        matchFrom pc2 stop (vSolutions ++ keys.map Instruction.vch ++ [countVch n]) = some out := by
  rw [matchFrom]
  constructor
  · intro h
    cases hop : getOp pc with
    | none =>
      rw [hop] at h
      cases h
    | some read =>
      obtain ⟨instr, pc1⟩ := read
      simp only [hop, if_true, matchOp_smallinteger, Option.bind_eq_some_iff] at h
      obtain ⟨vSolutions', hmatch, hrest⟩ := h
      split_ifs at hmatch with hsmall
      obtain rfl := Option.some.inj hmatch
      rcases takeKeys_spec vSolutions hop (Nat.lt_succ_self _) with
        hinvalid | ⟨keys, hkeys, hreads, hsolutions⟩
      · rw [hinvalid] at hsmall
        exact absurd hsmall (by decide)
      · obtain ⟨mid, hmid, hlast⟩ := readsTo_append_iff.mp hreads
        obtain ⟨rest, hop', hstop⟩ := readsTo_cons_iff.mp hlast
        obtain ⟨n, hn, hcount⟩ := (isSmall_iff hop').mp hsmall
        rw [hsolutions, hcount, countInstr, decodeOP_N_encodeOP_N hn] at hrest
        rw [hcount] at hreads
        exact ⟨keys, hkeys, n, hn, _, hreads, hrest⟩
  · rintro ⟨keys, hkeys, n, hn, stop, hreads, hrest⟩
    obtain ⟨instr, pc1, hop⟩ := exists_getOp_of_readsTo hreads
    simp only [hop, if_true]
    rw [takeKeys_of_readsTo hop hreads hkeys (not_isKeySize_countInstr n)
      (length_lt_of_readsTo hop hreads)]
    simp only [matchOp_smallinteger, countInstr, if_pos (isSmall_encodeOP_N hn),
      decodeOP_N_encodeOP_N hn]
    exact hrest

/-- The instruction that is an opcode alone. -/
def opInstr (opcode : UInt8) : Instruction := ⟨opcode, []⟩

/-- `m`, keys, `n`, `OP_CHECKMULTISIG`, whatever the counts are. -/
structure MultisigShape (script : CScript) (m : ℕ) (keys : List Instruction) (n : ℕ) : Prop where
  m_le : m ≤ 16
  n_le : n ≤ 16
  allKeys : AllKeys keys
  reads : Reads script (countInstr m :: (keys ++ [countInstr n, opInstr OP_CHECKMULTISIG]))

/-- `m` signatures of `n` keys can be asked for. -/
def GoodCounts (m : ℕ) (keys : List Instruction) (n : ℕ) : Prop :=
  1 ≤ m ∧ m ≤ n ∧ keys.length = n

instance (m : ℕ) (keys : List Instruction) (n : ℕ) : Decidable (GoodCounts m keys n) :=
  inferInstanceAs (Decidable (_ ∧ _))

def multisigParts (m : ℕ) (keys : List Instruction) (n : ℕ) : List Valtype :=
  countVch m :: (keys.map Instruction.vch ++ [countVch n])

/-- The standard scripts with their types and parts. -/
inductive Grammar : TxnOutType → CScript → List Valtype → Prop
  | pubkey {script : CScript} {key : Instruction}
      (hreads : Reads script [key, opInstr OP_CHECKSIG]) (hkey : IsKeySize key.vch.length) :
      Grammar .pubkey script [key.vch]
  | pubkeyhash {script : CScript} {hash : Instruction}
      (hreads : Reads script [opInstr OP_DUP, opInstr OP_HASH160, hash, opInstr OP_EQUALVERIFY,
        opInstr OP_CHECKSIG]) (hhash : hash.vch.length = 20) :
      Grammar .pubkeyhash script [hash.vch]
  | scripthash {hash : Valtype} (hhash : hash.length = 20) :
      Grammar .scripthash (OP_HASH160 :: 0x14 :: (hash ++ [OP_EQUAL])) [hash]
  | multisig {script : CScript} {m n : ℕ} {keys : List Instruction}
      (hshape : MultisigShape script m keys n) (hcounts : GoodCounts m keys n) :
      Grammar .multisig script (multisigParts m keys n)

theorem reads_scripthash (hhash : hash.length = 20) :
    Reads (OP_HASH160 :: 0x14 :: (hash ++ [OP_EQUAL]))
      [opInstr OP_HASH160, ⟨0x14, hash⟩, opInstr OP_EQUAL] := by
  have hlength : (hash ++ [OP_EQUAL]).length < 2 ^ 32 := by
    rw [List.length_append, hhash]
    decide
  refine .cons (getOp_of_pushdata_lt (by decide)) (.cons (getOp_direct (by decide) hhash hlength) ?_)
  exact .cons (getOp_of_pushdata_lt (by decide)) .nil

theorem isPayToScriptHash_of_shape (hhash : hash.length = 20) :
    isPayToScriptHash (OP_HASH160 :: 0x14 :: (hash ++ [OP_EQUAL])) = true := by
  have hlast : (hash ++ [OP_EQUAL])[20]? = some OP_EQUAL := by
    rw [List.getElem?_append_right hhash.le, hhash]
    rfl
  have hlength : (OP_HASH160 :: 0x14 :: (hash ++ [OP_EQUAL])).length = 23 := by
    rw [List.length_cons, List.length_cons, List.length_append, hhash]
    rfl
  simp only [isPayToScriptHash, hlength, Bool.and_eq_true, beq_iff_eq]
  exact ⟨⟨⟨trivial, rfl⟩, rfl⟩, hlast⟩

section Shapes

variable {script : CScript} {key hash : Instruction} {keys keys' : List Instruction} {m n m' n' : ℕ}

theorem countInstr_inj (hm : m ≤ 16) (hm' : m' ≤ 16) (h : countInstr m = countInstr m') :
    m = m' := by
  have hcode : encodeOP_N m = encodeOP_N m' := congrArg Instruction.opcode h
  calc
    m = decodeOP_N (encodeOP_N m) := (decodeOP_N_encodeOP_N hm).symm
    _ = decodeOP_N (encodeOP_N m') := by rw [hcode]
    _ = m' := decodeOP_N_encodeOP_N hm'

theorem MultisigShape.unique (h : MultisigShape script m keys n)
    (h' : MultisigShape script m' keys' n') : m = m' ∧ keys = keys' ∧ n = n' := by
  obtain ⟨hfirst, hrest⟩ := List.cons.inj (h.reads.unique h'.reads)
  have hsplit : keys ++ [countInstr n] = keys' ++ [countInstr n'] := by
    have hinit := congrArg List.dropLast hrest
    simpa [List.dropLast_append_of_ne_nil] using hinit
  obtain ⟨hkeys, hlast⟩ := List.append_inj' hsplit rfl
  exact ⟨countInstr_inj h.m_le h'.m_le hfirst, hkeys,
    countInstr_inj h.n_le h'.n_le (List.cons.inj hlast).1⟩

/-- A multisignature script starts with a small number. -/
theorem MultisigShape.head_eq (h : MultisigShape script m keys n)
    (hreads : Reads script (instr :: instrs)) :
    instr = countInstr m ∧ instrs = keys ++ [countInstr n, opInstr OP_CHECKMULTISIG] :=
  List.cons.inj (hreads.unique h.reads)

theorem countInstr_ne_opInstr (hm : m ≤ 16) (h : OP_16 < opcode) :
    opInstr opcode ≠ countInstr m := by
  intro heq
  have hopcode : opcode = encodeOP_N m := congrArg Instruction.opcode heq
  rw [hopcode] at h
  rcases isSmall_encodeOP_N hm with hzero | hsmall
  · rw [hzero] at h
    exact absurd h (by decide)
  · exact absurd hsmall.2 (UInt8.not_le.mpr h)

theorem not_multisigShape_of_pubkey (hreads : Reads script [key, opInstr OP_CHECKSIG]) :
    ¬ MultisigShape script m keys n := by
  intro h
  have hlength := congrArg List.length (h.head_eq hreads).2
  simp at hlength

theorem not_multisigShape_of_opInstr (hopcode : OP_16 < opcode)
    (hreads : Reads script (opInstr opcode :: instrs)) :
    ¬ MultisigShape script m keys n :=
  fun h ↦ countInstr_ne_opInstr h.m_le hopcode (h.head_eq hreads).1

end Shapes

theorem matchFrom_pubkey_template_iff :
    matchFrom [OP_PUBKEY, OP_CHECKSIG] script [] = some out ↔
      ∃ key, Reads script [key, opInstr OP_CHECKSIG] ∧ IsKeySize key.vch.length ∧
        out = [key.vch] := by
  rw [matchFrom_pubkey_iff]
  simp only [matchFrom_literal_iff OP_CHECKSIG (by decide), matchFrom_nil_iff,
    readsTo_cons_iff, readsTo_nil_iff, opInstr, List.nil_append]
  constructor
  · rintro ⟨key, rest, hop, hkey, rest', hop', hend, hout⟩
    exact ⟨key, ⟨rest, hop, rest', hop', hend⟩, hkey, hout⟩
  · rintro ⟨key, ⟨rest, hop, rest', hop', hend⟩, hkey, hout⟩
    exact ⟨key, rest, hop, hkey, rest', hop', hend, hout⟩

theorem matchFrom_pubkeyhash_template_iff :
    matchFrom [OP_DUP, OP_HASH160, OP_PUBKEYHASH, OP_EQUALVERIFY, OP_CHECKSIG] script [] = some out ↔
      ∃ hash, Reads script [opInstr OP_DUP, opInstr OP_HASH160, hash, opInstr OP_EQUALVERIFY,
        opInstr OP_CHECKSIG] ∧ hash.vch.length = 20 ∧ out = [hash.vch] := by
  simp only [matchFrom_pubkeyhash_iff, matchFrom_literal_iff OP_DUP (by decide),
    matchFrom_literal_iff OP_HASH160 (by decide),
    matchFrom_literal_iff OP_EQUALVERIFY (by decide),
    matchFrom_literal_iff OP_CHECKSIG (by decide), matchFrom_nil_iff,
    readsTo_cons_iff, readsTo_nil_iff, opInstr, List.nil_append]
  constructor
  · rintro ⟨a, ha, b, hb, hash, c, hc, hhash, d, hd, e, he, hend, hout⟩
    exact ⟨hash, ⟨a, ha, b, hb, c, hc, d, hd, e, he, hend⟩, hhash, hout⟩
  · rintro ⟨hash, ⟨a, ha, b, hb, c, hc, d, hd, e, he, hend⟩, hhash, hout⟩
    exact ⟨a, ha, b, hb, hash, c, hc, hhash, d, hd, e, he, hend, hout⟩

theorem matchFrom_multisig_template_iff :
    matchFrom [OP_SMALLINTEGER, OP_PUBKEYS, OP_SMALLINTEGER, OP_CHECKMULTISIG] script [] = some out ↔
      ∃ m keys n, MultisigShape script m keys n ∧ out = multisigParts m keys n := by
  simp only [matchFrom_smallinteger_iff, matchFrom_pubkeys_iff,
    matchFrom_literal_iff OP_CHECKMULTISIG (by decide), matchFrom_nil_iff]
  constructor
  · rintro ⟨m, hm, a, ha, keys, hkeys, n, hn, b, hb, c, hc, rfl, hout⟩
    refine ⟨m, keys, n, ⟨hm, hn, hkeys, .cons ha ?_⟩, hout⟩
    obtain ⟨mid, hmid, hlast⟩ := readsTo_append_iff.mp hb
    obtain ⟨rest, hop, hstop⟩ := readsTo_cons_iff.mp hlast
    obtain rfl := readsTo_nil_iff.mp hstop
    exact readsTo_append_iff.mpr ⟨mid, hmid, .cons hop (.cons hc .nil)⟩
  · rintro ⟨m, keys, n, hshape, hout⟩
    obtain ⟨a, ha, hrest⟩ := readsTo_cons_iff.mp hshape.reads
    obtain ⟨mid, hmid, hlast⟩ := readsTo_append_iff.mp hrest
    obtain ⟨b, hb, hlast⟩ := readsTo_cons_iff.mp hlast
    obtain ⟨c, hc, hend⟩ := readsTo_cons_iff.mp hlast
    exact ⟨m, hshape.m_le, a, ha, keys, hshape.allKeys, n, hshape.n_le, b,
      readsTo_append_iff.mpr ⟨mid, hmid, .cons hb .nil⟩, c, hc, readsTo_nil_iff.mp hend, hout⟩

theorem badCounts_multisigParts {m : ℕ} (hm : m ≤ 16) (hn : n ≤ 16) :
    badCounts (multisigParts m keys n) = !decide (GoodCounts m keys n) := by
  have hfirst : (multisigParts m keys n).headD [] = countVch m := rfl
  have hlast : (multisigParts m keys n).getLastD [] = countVch n := by
    unfold multisigParts
    rw [List.getLastD_cons, List.getLastD_concat]
  have hlength : (multisigParts m keys n).length - 2 = keys.length := by
    simp [multisigParts]
  have hvalue {k : ℕ} (hk : k ≤ 16) : ((countVch k).headD 0).toNat = k := by
    show (UInt8.ofNat k).toNat = k
    rw [UInt8.toNat_ofNat', Nat.mod_eq_of_lt (by omega)]
  have hone : (1 : UInt8).toNat = 1 := rfl
  have hbad : badCounts (multisigParts m keys n) = true ↔ ¬ GoodCounts m keys n := by
    simp only [badCounts, hfirst, hlast, hlength, hvalue hn, gt_iff_lt, UInt8.lt_iff_toNat_lt, hone,
      hvalue hm, Bool.or_eq_true, decide_eq_true_eq, bne_iff_ne]
    unfold GoodCounts
    omega
  by_cases hgood : GoodCounts m keys n
  · rw [decide_eq_true hgood]
    exact Bool.eq_false_iff.mpr fun h ↦ hbad.mp h hgood
  · rw [decide_eq_false hgood]
    exact hbad.mpr hgood

/-- The claim of the classification for one outcome. -/
structure Classifies (script : CScript) (result : Bool × TxnOutType × List Valtype) : Prop where
  standard : ∀ typeRet parts, result = (true, typeRet, parts) ↔ Grammar typeRet script parts
  nonstandard : (¬ ∃ typeRet parts, Grammar typeRet script parts) → result = (false, .nonstandard, [])

/-- A script of one type with its parts is classified just by these. -/
theorem classifies_iff_of_unique {typeRet : TxnOutType} {parts : List Valtype}
    (hgrammar : Grammar typeRet script parts)
    (hunique : ∀ typeRet' parts', Grammar typeRet' script parts' → typeRet' = typeRet ∧ parts' = parts)
    (result : Bool × TxnOutType × List Valtype) :
    Classifies script result ↔ result = (true, typeRet, parts) := by
  constructor
  · exact fun h ↦ (h.standard typeRet parts).mpr hgrammar
  · rintro rfl
    refine ⟨fun typeRet' parts' ↦ ?_, fun h ↦ absurd ⟨_, _, hgrammar⟩ h⟩
    constructor
    · intro heq
      obtain ⟨_, rfl, rfl⟩ : true = true ∧ typeRet = typeRet' ∧ parts = parts' := by
        simpa using heq
      exact hgrammar
    · intro h
      obtain ⟨rfl, rfl⟩ := hunique typeRet' parts' h
      rfl

/-- A script of no type is classified just as nonstandard. -/
theorem classifies_iff_of_none (hnone : ∀ typeRet parts, ¬ Grammar typeRet script parts)
    (result : Bool × TxnOutType × List Valtype) :
    Classifies script result ↔ result = (false, .nonstandard, []) := by
  constructor
  · exact fun h ↦ h.nonstandard fun ⟨typeRet, parts, hgrammar⟩ ↦ hnone typeRet parts hgrammar
  · rintro rfl
    refine ⟨fun typeRet parts ↦ ⟨fun h ↦ ?_, fun h ↦ absurd h (hnone typeRet parts)⟩, fun _ ↦ rfl⟩
    simp at h

section Unique

variable {script : CScript} {typeRet : TxnOutType} {parts : List Valtype}

theorem grammar_scripthash (hhash : hash.length = 20)
    (hscript : script = OP_HASH160 :: 0x14 :: (hash ++ [OP_EQUAL])) (h : Grammar typeRet script parts) :
    typeRet = .scripthash ∧ parts = [hash] := by
  have hreads' : Reads script [opInstr OP_HASH160, ⟨0x14, hash⟩, opInstr OP_EQUAL] :=
    hscript ▸ reads_scripthash hhash
  cases h with
  | pubkey hreads _ => exact absurd (congrArg List.length (hreads.unique hreads')) (by simp)
  | pubkeyhash hreads _ => exact absurd (congrArg List.length (hreads.unique hreads')) (by simp)
  | @scripthash hash' _ =>
    have happend := (List.cons.inj (List.cons.inj hscript).2).2
    exact ⟨rfl, by rw [(List.append_inj' happend rfl).1]⟩
  | multisig hshape _ => exact absurd hshape (not_multisigShape_of_opInstr (by decide) hreads')

theorem grammar_pubkey {key : Instruction} (hreads' : Reads script [key, opInstr OP_CHECKSIG])
    (h : Grammar typeRet script parts) : typeRet = .pubkey ∧ parts = [key.vch] := by
  cases h with
  | pubkey hreads _ => exact ⟨rfl, by rw [(List.cons.inj (hreads.unique hreads')).1]⟩
  | pubkeyhash hreads _ => exact absurd (congrArg List.length (hreads.unique hreads')) (by simp)
  | scripthash hhash =>
    exact absurd (congrArg List.length ((reads_scripthash hhash).unique hreads')) (by simp)
  | multisig hshape _ => exact absurd hshape (not_multisigShape_of_pubkey hreads')

theorem grammar_pubkeyhash {hash : Instruction} (hreads' : Reads script [opInstr OP_DUP,
      opInstr OP_HASH160, hash, opInstr OP_EQUALVERIFY, opInstr OP_CHECKSIG])
    (h : Grammar typeRet script parts) : typeRet = .pubkeyhash ∧ parts = [hash.vch] := by
  cases h with
  | pubkey hreads _ => exact absurd (congrArg List.length (hreads.unique hreads')) (by simp)
  | pubkeyhash hreads _ =>
    have hsame := (List.cons.inj (List.cons.inj (hreads.unique hreads')).2).2
    exact ⟨rfl, by rw [(List.cons.inj hsame).1]⟩
  | scripthash hhash =>
    exact absurd (congrArg List.length ((reads_scripthash hhash).unique hreads')) (by simp)
  | multisig hshape _ => exact absurd hshape (not_multisigShape_of_opInstr (by decide) hreads')

theorem grammar_multisig {m : ℕ} (hshape' : MultisigShape script m keys n)
    (h : Grammar typeRet script parts) :
    GoodCounts m keys n ∧ typeRet = .multisig ∧ parts = multisigParts m keys n := by
  cases h with
  | pubkey hreads _ => exact absurd hshape' (not_multisigShape_of_pubkey hreads)
  | pubkeyhash hreads _ => exact absurd hshape' (not_multisigShape_of_opInstr (by decide) hreads)
  | scripthash hhash =>
    exact absurd hshape' (not_multisigShape_of_opInstr (by decide) (reads_scripthash hhash))
  | multisig hshape hcounts =>
    obtain ⟨rfl, rfl, rfl⟩ := hshape.unique hshape'
    exact ⟨hcounts, rfl, rfl⟩

end Unique

theorem solver_scripthash (hhash : hash.length = 20) (typeRet : TxnOutType)
    (vSolutionsRet : List Valtype) :
    solver (OP_HASH160 :: 0x14 :: (hash ++ [OP_EQUAL])) typeRet vSolutionsRet =
      (true, .scripthash, vSolutionsRet ++ [hash]) := by
  rw [solver, if_pos (isPayToScriptHash_of_shape hhash)]
  show (true, _, vSolutionsRet ++ [(hash ++ [OP_EQUAL]).take 20]) = _
  rw [← hhash, List.take_left]

/-- `Solver` classifies a script as the grammar does if and only if the solutions were empty, for
pay-to-script-hash, and the counts are possible, for a multisignature script. -/
theorem solver_classifies_iff (scriptPubKey : CScript) (typeRet : TxnOutType)
    (vSolutionsRet : List Valtype) :
    Classifies scriptPubKey (solver scriptPubKey typeRet vSolutionsRet) ↔
      (isPayToScriptHash scriptPubKey = true → vSolutionsRet = []) ∧
      ∀ m keys n, MultisigShape scriptPubKey m keys n → GoodCounts m keys n := by
  cases hp2sh : isPayToScriptHash scriptPubKey with
  | true =>
    obtain ⟨hash, hhash, rfl⟩ := shape_of_isPayToScriptHash hp2sh
    rw [solver_scripthash hhash, classifies_iff_of_unique (.scripthash hhash)
      fun _ _ h ↦ grammar_scripthash hhash rfl h]
    have hshape (m : ℕ) (keys : List Instruction) (n : ℕ) :
        ¬ MultisigShape (OP_HASH160 :: 0x14 :: (hash ++ [OP_EQUAL])) m keys n :=
      not_multisigShape_of_opInstr (by decide) (reads_scripthash hhash)
    constructor
    · intro h
      have happend : vSolutionsRet ++ [hash] = [] ++ [hash] := by simpa using h
      exact ⟨fun _ ↦ (List.append_inj' happend rfl).1, fun m keys n h ↦ absurd h (hshape m keys n)⟩
    · rintro ⟨hempty, _⟩
      rw [hempty rfl, List.nil_append]
  | false =>
    have hscripthash {hash : Valtype} (hhash : hash.length = 20) :
        scriptPubKey ≠ OP_HASH160 :: 0x14 :: (hash ++ [OP_EQUAL]) := by
      rintro rfl
      rw [isPayToScriptHash_of_shape hhash] at hp2sh
      cases hp2sh
    rw [solver, hp2sh, if_neg Bool.false_ne_true]
    simp only [mTemplates, scanTemplates, Bool.false_eq_true, false_implies, true_and]
    cases hkey : matchFrom [OP_PUBKEY, OP_CHECKSIG] scriptPubKey [] with
    | some out =>
      obtain ⟨key, hreads, hsize, rfl⟩ := matchFrom_pubkey_template_iff.mp hkey
      rw [classifies_iff_of_unique (.pubkey hreads hsize) fun _ _ h ↦ grammar_pubkey hreads h]
      exact ⟨fun _ m keys n h ↦ absurd h (not_multisigShape_of_pubkey hreads), fun _ ↦ rfl⟩
    | none =>
      cases hkeyhash : matchFrom
          [OP_DUP, OP_HASH160, OP_PUBKEYHASH, OP_EQUALVERIFY, OP_CHECKSIG] scriptPubKey [] with
      | some out =>
        obtain ⟨hash, hreads, hsize, rfl⟩ := matchFrom_pubkeyhash_template_iff.mp hkeyhash
        rw [classifies_iff_of_unique (.pubkeyhash hreads hsize)
          fun _ _ h ↦ grammar_pubkeyhash hreads h]
        exact ⟨fun _ m keys n h ↦ absurd h (not_multisigShape_of_opInstr (by decide) hreads),
          fun _ ↦ rfl⟩
      | none =>
        cases hmultisig : matchFrom
            [OP_SMALLINTEGER, OP_PUBKEYS, OP_SMALLINTEGER, OP_CHECKMULTISIG] scriptPubKey [] with
        | some out =>
          obtain ⟨m, keys, n, hshape, rfl⟩ := matchFrom_multisig_template_iff.mp hmultisig
          simp only [badCounts_multisigParts hshape.m_le hshape.n_le]
          by_cases hgood : GoodCounts m keys n
          · rw [classifies_iff_of_unique (.multisig hshape hgood)
              fun _ _ h ↦ (grammar_multisig hshape h).2, decide_eq_true hgood]
            refine ⟨fun _ m' keys' n' hshape' ↦ ?_, fun _ ↦ rfl⟩
            obtain ⟨rfl, rfl, rfl⟩ := hshape.unique hshape'
            exact hgood
          · rw [classifies_iff_of_none fun _ _ h ↦ hgood (grammar_multisig hshape h).1]
            refine ⟨fun h ↦ ?_, fun h ↦ absurd (h m keys n hshape) hgood⟩
            have htype : TxnOutType.multisig = .nonstandard := congrArg (fun r ↦ r.2.1) h
            cases htype
        | none =>
          have hnone : ∀ typeRet parts, ¬ Grammar typeRet scriptPubKey parts := by
            intro typeRet parts h
            cases h with
            | pubkey hreads hsize =>
              rw [matchFrom_pubkey_template_iff.mpr ⟨_, hreads, hsize, rfl⟩] at hkey
              cases hkey
            | pubkeyhash hreads hsize =>
              rw [matchFrom_pubkeyhash_template_iff.mpr ⟨_, hreads, hsize, rfl⟩] at hkeyhash
              cases hkeyhash
            | scripthash hhash => exact hscripthash hhash rfl
            | multisig hshape _ =>
              rw [matchFrom_multisig_template_iff.mpr ⟨_, _, _, hshape, rfl⟩] at hmultisig
              cases hmultisig
          rw [classifies_iff_of_none hnone]
          refine ⟨fun _ m keys n hshape ↦ ?_, fun _ ↦ rfl⟩
          rw [matchFrom_multisig_template_iff.mpr ⟨_, _, _, hshape, rfl⟩] at hmultisig
          cases hmultisig

/-- A pay-to-script-hash script with a solution left from before, and a script that asks for two
signatures of one key. -/
theorem not_classifies :
    ¬ (∀ scriptPubKey typeRet vSolutionsRet,
      Classifies scriptPubKey (solver scriptPubKey typeRet vSolutionsRet)) ∧
    solver (OP_HASH160 :: 0x14 :: (List.replicate 20 0 ++ [OP_EQUAL])) .pubkey [[1]] =
      (true, .scripthash, [[1], List.replicate 20 0]) ∧
    solver (0x52 :: 0x21 :: (List.replicate 33 2 ++ [0x51, OP_CHECKMULTISIG])) .nonstandard [] =
      (false, .multisig, [[2], List.replicate 33 2, [1]]) := by
  refine ⟨fun h ↦ ?_, by decide, by decide⟩
  have hscript := (solver_classifies_iff _ _ _).mp
    (h (OP_HASH160 :: 0x14 :: (List.replicate 20 0 ++ [OP_EQUAL])) .pubkey [[1]])
  exact absurd (hscript.1 (isPayToScriptHash_of_shape rfl)) (by decide)

end Electra.Script
