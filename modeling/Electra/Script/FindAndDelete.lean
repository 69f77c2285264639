import Electra.Foundations.PrefixCode
import Electra.Script.MergeSignatures

/-!
# Deleting an instruction from a script

A script is a sequence of complete instructions and perhaps a tail that cannot be read.  `FindAndDelete`
compares bytes, but only where an instruction starts, and no complete instruction starts another one.
-/

namespace Electra.Script

open Chain Foundations.PrefixCode

variable {script pc rest b e : CScript} {instr : Instruction} {opcode : UInt8}

/-! ## Complete instructions -/

/-- Bytes that are read as one instruction. -/
def IsInstruction (e : CScript) : Prop := ∃ instr, getOp e = some (instr, [])

theorem getOperand_append {nSize : ℕ} (hoperand : getOperand opcode nSize pc = some (instr, []))
    (hlength : (pc ++ rest).length < 2 ^ 32) : getOperand opcode nSize (pc ++ rest) = some (instr, rest) := by
  have hsize : pc.length = nSize := by
    unfold getOperand at hoperand
    split_ifs at hoperand with hshort
    obtain ⟨-, hdrop⟩ := Prod.mk.inj (Option.some.inj hoperand)
    have hle : pc.length ≤ nSize := List.drop_eq_nil_iff.mp hdrop
    rw [List.length_append] at hlength
    rw [Nat.mod_eq_of_lt (by omega)] at hshort
    omega
  have hinstr : (⟨opcode, pc⟩ : Instruction) = instr := by
    obtain ⟨hopcode, hpc⟩ := of_getOperand hoperand
    rw [List.append_nil] at hpc
    rw [hpc, ← hopcode]
  have henough : ¬(pc ++ rest).length % 2 ^ 32 < nSize := by
    rw [Nat.mod_eq_of_lt hlength, List.length_append]
    omega
  rw [getOperand, if_neg henough, ← hsize, List.take_left, List.drop_left, hinstr]

theorem getSized_append {width : ℕ} (hsized : getSized opcode width pc = some (instr, []))
    (hlength : (pc ++ rest).length < 2 ^ 32) : getSized opcode width (pc ++ rest) = some (instr, rest) := by
  unfold getSized at hsized ⊢
  split_ifs at hsized with hshort
  have hle : width ≤ pc.length := not_lt.mp hshort
  rw [if_neg (by rw [List.length_append]; omega), List.take_append_of_le_length hle,
    List.drop_append_of_le_length hle]
  apply getOperand_append hsized
  rw [List.length_append, List.length_drop]
  rw [List.length_append] at hlength
  omega

/-- A complete instruction is read in front of anything. -/
theorem getOp_append (hop : getOp e = some (instr, [])) (hlength : (e ++ rest).length < 2 ^ 32) :
    getOp (e ++ rest) = some (instr, rest) := by
  cases e with
  | nil => cases hop
  | cons opcode pc =>
    have hpc : (pc ++ rest).length < 2 ^ 32 := by
      rw [List.cons_append, List.length_cons] at hlength
      omega
    simp only [getOp, List.cons_append] at hop ⊢
    split_ifs at hop ⊢
    · exact getOperand_append hop hpc
    · exact getSized_append hop hpc
    · exact getSized_append hop hpc
    · exact getSized_append hop hpc
    · cases hop
      rfl

theorem getOperand_take {nSize : ℕ} (hoperand : getOperand opcode nSize pc = some (instr, rest))
    (hlength : pc.length < 2 ^ 32) :
    getOperand opcode nSize (pc.take (pc.length - rest.length)) = some (instr, []) := by
  unfold getOperand at hoperand
  split_ifs at hoperand with hshort
  obtain ⟨rfl, rfl⟩ := Prod.mk.inj (Option.some.inj hoperand)
  rw [Nat.mod_eq_of_lt hlength] at hshort
  have hsize : pc.length - (pc.drop nSize).length = nSize := by
    rw [List.length_drop]
    omega
  have henough : ¬(pc.take nSize).length % 2 ^ 32 < nSize := by
    rw [List.length_take_of_le (not_lt.mp hshort), Nat.mod_eq_of_lt (by omega)]
    exact lt_irrefl nSize
  rw [hsize, getOperand, if_neg henough, List.take_take, min_self, List.drop_take, Nat.sub_self, List.take_zero]

theorem getSized_take {width : ℕ} (hsized : getSized opcode width pc = some (instr, rest))
    (hlength : pc.length < 2 ^ 32) :
    getSized opcode width (pc.take (pc.length - rest.length)) = some (instr, []) := by
  unfold getSized at hsized
  split_ifs at hsized with hshort
  have hrest : rest.length ≤ pc.length - width := by
    have hdrop := congrArg List.length (of_getOperand hsized).2
    rw [List.length_drop, List.length_append] at hdrop
    omega
  have hdrop : (pc.take (pc.length - rest.length)).drop width =
      (pc.drop width).take ((pc.drop width).length - rest.length) := by
    rw [List.drop_take, List.length_drop, Nat.sub_right_comm]
  have henough : ¬(pc.take (pc.length - rest.length)).length < width := by
    rw [List.length_take]
    omega
  rw [getSized, if_neg henough, List.take_take, min_eq_left (by omega), hdrop]
  exact getOperand_take hsized (by rw [List.length_drop]; omega)

/-- What is read is a complete instruction. -/
theorem isInstruction_take (hop : getOp pc = some (instr, rest)) (hlength : pc.length < 2 ^ 32) :
    IsInstruction (pc.take (pc.length - rest.length)) := by
  refine ⟨instr, ?_⟩
  cases pc with
  | nil => cases hop
  | cons opcode pc =>
    have hshort : rest.length < (opcode :: pc).length := length_lt_of_getOp hop
    have htake : (opcode :: pc).take ((opcode :: pc).length - rest.length) =
        opcode :: pc.take (pc.length - rest.length) := by
      rw [List.length_cons] at hshort ⊢
      rw [Nat.succ_sub (Nat.le_of_lt_succ hshort), List.take_succ_cons]
    have hpc : pc.length < 2 ^ 32 := by
      rw [List.length_cons] at hlength
      omega
    rw [htake]
    simp only [getOp] at hop ⊢
    split_ifs at hop ⊢
    · exact getOperand_take hop hpc
    · exact getSized_take hop hpc
    · exact getSized_take hop hpc
    · exact getSized_take hop hpc
    · obtain ⟨rfl, rfl⟩ := Prod.mk.inj (Option.some.inj hop)
      rw [Nat.sub_self, List.take_zero]

theorem ne_nil_of_isInstruction (h : IsInstruction e) : e ≠ [] := by
  rintro rfl
  obtain ⟨instr, hop⟩ := h
  cases hop

theorem prefixFree_isInstruction :
    PrefixFree {e | IsInstruction e ∧ e.length < 2 ^ 32} := by
  rintro v ⟨⟨instr, hv⟩, -⟩ w ⟨⟨instr', hw⟩, hlength⟩ ⟨rest, rfl⟩
  rw [getOp_append hv hlength] at hw
  obtain ⟨-, rfl⟩ := Prod.mk.inj (Option.some.inj hw)
  rw [List.append_nil]

/-! ## Reading a script to its end -/

/-- The complete instructions of a script one after another, and a tail that starts with none. -/
structure ReadsAs (script : CScript) (instructions : List CScript) (tail : CScript) : Prop where
  script_eq : script = instructions.flatten ++ tail
  isInstruction : ∀ e ∈ instructions, IsInstruction e
  getOp_tail : getOp tail = none

variable {instructions : List CScript} {tail : CScript}

theorem length_lt_of_mem {words : List CScript} (hlength : (words.flatten ++ tail).length < 2 ^ 32) :
    ∀ e ∈ words, e.length < 2 ^ 32 := by
  intro e he
  have hle : e.length ≤ words.flatten.length := (List.sublist_flatten_of_mem he).length_le
  rw [List.length_append] at hlength
  omega

theorem readsAs_iff_splits (hlength : script.length < 2 ^ 32) :
    ReadsAs script instructions tail ↔
      Splits {e | IsInstruction e ∧ e.length < 2 ^ 32} script instructions tail := by
  constructor
  · rintro ⟨rfl, hinstrs, htail⟩
    refine ⟨rfl, fun e he ↦ ⟨hinstrs e he, length_lt_of_mem hlength e he⟩, ?_⟩
    rintro e ⟨⟨instr, hop⟩, -⟩ ⟨rest, rfl⟩
    rw [List.length_append] at hlength
    rw [getOp_append hop (by omega)] at htail
    cases htail
  · rintro ⟨rfl, hwords, htail⟩
    refine ⟨rfl, fun e he ↦ (hwords e he).1, ?_⟩
    cases hop : getOp tail with
    | none => rfl
    | some p =>
      have hshort : tail.length < 2 ^ 32 := by
        rw [List.length_append] at hlength
        omega
      refine absurd (List.take_prefix _ _) (htail _ ⟨isInstruction_take hop hshort, ?_⟩)
      rw [List.length_take]
      omega

/-- The loop over what is left of a script. -/
theorem findAndDeleteFrom_eq (hb : IsInstruction b) (h : ReadsAs pc instructions tail)
    (hlength : pc.length < 2 ^ 32) (fuel : ℕ) (hfuel : pc.length ≤ fuel) :
    findAndDeleteFrom b fuel pc =
      ((instructions.filter (· ≠ b)).flatten ++ tail, instructions.count b) := by
  have hbne := ne_nil_of_isInstruction hb
  induction instructions generalizing pc fuel with
  | nil =>
    obtain rfl : pc = tail := h.script_eq
    cases fuel with
    | zero => rfl
    | succ fuel =>
      have hnot : ¬b.isPrefixOf pc = true := by
        intro hstart
        obtain ⟨rest, rfl⟩ := List.isPrefixOf_iff_prefix.mp hstart
        obtain ⟨instr, hop⟩ := hb
        have htail := h.getOp_tail
        rw [getOp_append hop hlength] at htail
        cases htail
      rw [findAndDeleteFrom, if_neg hnot, h.getOp_tail]
      rfl
  | cons e instructions ih =>
    obtain ⟨instr, hop⟩ := h.isInstruction e List.mem_cons_self
    have hpc : pc = e ++ (instructions.flatten ++ tail) := by
      rw [h.script_eq, List.flatten_cons, List.append_assoc]
    have hrest : ReadsAs (instructions.flatten ++ tail) instructions tail :=
      ⟨rfl, fun e he ↦ h.isInstruction e (List.mem_cons_of_mem _ he), h.getOp_tail⟩
    have hpos : 0 < e.length := List.length_pos_iff.mpr (ne_nil_of_isInstruction ⟨instr, hop⟩)
    generalize instructions.flatten ++ tail = rest at hpc hrest
    subst hpc
    rw [List.length_append] at hfuel
    have hshort : rest.length < 2 ^ 32 := by
      rw [List.length_append] at hlength
      omega
    obtain ⟨fuel, rfl⟩ : ∃ n, fuel = n + 1 := ⟨fuel - 1, by omega⟩
    have hafter := ih hrest hshort fuel (by omega)
    have hread := getOp_append hop hlength
    by_cases heq : e = b
    · subst heq
      have hstart : e.isPrefixOf (e ++ rest) = true :=
        List.isPrefixOf_iff_prefix.mpr (List.prefix_append e rest)
      rw [findAndDeleteFrom, if_pos hstart, List.drop_left, hafter, List.count_cons_self,
        List.filter_cons_of_neg (by simp)]
    · have hnot : ¬b.isPrefixOf (e ++ rest) = true := by
        intro hstart
        have hprefix := List.isPrefixOf_iff_prefix.mp hstart
        have hb' : b.length < 2 ^ 32 := hprefix.length_le.trans_lt hlength
        have he' : e.length < 2 ^ 32 := (List.prefix_append e rest).length_le.trans_lt hlength
        exact heq (prefixFree_isInstruction.eq_of_isPrefix_append ⟨hb, hb'⟩ ⟨⟨instr, hop⟩, he'⟩ hprefix).symm
      rw [findAndDeleteFrom, if_neg hnot, hread]
      simp only [hafter]
      rw [List.length_append, Nat.add_sub_cancel, List.take_left, List.count_cons_of_ne heq,
        List.filter_cons_of_pos (by simpa using heq), List.flatten_cons, List.append_assoc]

theorem findAndDelete_of_readsAs (hb : IsInstruction b) (h : ReadsAs script instructions tail)
    (hlength : script.length < 2 ^ 32) :
    findAndDelete script b = ((instructions.filter (· ≠ b)).flatten ++ tail, instructions.count b) := by
  have hempty : ¬b.isEmpty = true := by
    simpa using ne_nil_of_isInstruction hb
  rw [findAndDelete, if_neg hempty, findAndDeleteFrom_eq hb h hlength _ le_rfl]

/-- `FindAndDelete` leaves just the other instructions and the tail; scripts are shorter than four
gigabytes, which the evaluation and the serialization of scripts see to. -/
theorem findAndDelete_instruction (hlength : script.length < 2 ^ 32) (hb : IsInstruction b) :
    ∃ instructions tail, ReadsAs script instructions tail ∧
      (∀ instructions' tail', ReadsAs script instructions' tail' →
        instructions' = instructions ∧ tail' = tail) ∧
      findAndDelete script b = ((instructions.filter (· ≠ b)).flatten ++ tail, instructions.count b) ∧
      ReadsAs (findAndDelete script b).1 (instructions.filter (· ≠ b)) tail ∧
      findAndDelete (findAndDelete script b).1 b = ((findAndDelete script b).1, 0) := by
  have hnil : [] ∉ {e | IsInstruction e ∧ e.length < 2 ^ 32} := fun h ↦ ne_nil_of_isInstruction h.1 rfl
  obtain ⟨instructions, tail, hsplits⟩ := exists_splits hnil script
  have hreads := (readsAs_iff_splits hlength).mpr hsplits
  have hdelete := findAndDelete_of_readsAs hb hreads hlength
  have hless : ((instructions.filter (· ≠ b)).flatten ++ tail).length < 2 ^ 32 := by
    have hsub : ((instructions.filter (· ≠ b)).flatten ++ tail).length ≤ script.length := by
      rw [hreads.script_eq, List.length_append, List.length_append]
      have := (List.filter_sublist (p := (· ≠ b)) (l := instructions)).flatten.length_le
      omega
    omega
  have hkept : ReadsAs ((instructions.filter (· ≠ b)).flatten ++ tail) (instructions.filter (· ≠ b)) tail :=
    (readsAs_iff_splits hless).mpr (hsplits.filter _)
  refine ⟨instructions, tail, hreads, ?_, hdelete, ?_, ?_⟩
  · intro instructions' tail' hreads'
    exact ((readsAs_iff_splits hlength).mp hreads').unique prefixFree_isInstruction hsplits
  · rw [hdelete]
    exact hkept
  · rw [hdelete, findAndDelete_of_readsAs hb hkept hless, List.filter_filter]
    have hnone : (instructions.filter (· ≠ b)).count b = 0 := by
      rw [List.count_eq_zero]
      exact fun hmem ↦ by simpa using List.of_mem_filter hmem
    simp only [Bool.and_self, hnone]

/-- A code separator twice, a push that holds its byte, and an unreadable tail. -/
theorem findAndDelete_example :
    ∃ instructions tail, ReadsAs [0xab, 0x01, 0xab, 0xab, 0x05, 0xab] instructions tail ∧
      (∀ instructions' tail', ReadsAs [0xab, 0x01, 0xab, 0xab, 0x05, 0xab] instructions' tail' →
        instructions' = instructions ∧ tail' = tail) ∧
      findAndDelete [0xab, 0x01, 0xab, 0xab, 0x05, 0xab] [0xab] =
        ((instructions.filter (· ≠ [0xab])).flatten ++ tail, instructions.count [0xab]) ∧
      ReadsAs (findAndDelete [0xab, 0x01, 0xab, 0xab, 0x05, 0xab] [0xab]).1
        (instructions.filter (· ≠ [0xab])) tail ∧
      findAndDelete (findAndDelete [0xab, 0x01, 0xab, 0xab, 0x05, 0xab] [0xab]).1 [0xab] =
        ((findAndDelete [0xab, 0x01, 0xab, 0xab, 0x05, 0xab] [0xab]).1, 0) :=
  findAndDelete_instruction (by decide) ⟨⟨0xab, []⟩, rfl⟩

end Electra.Script
