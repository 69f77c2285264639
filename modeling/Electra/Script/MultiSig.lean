import Electra.Foundations.GreedyMatch
import Electra.Script.Safety

/-!
# Signatures of several keys

`OP_CHECKMULTISIG` finds its arguments on the stack by counts that are on the stack themselves.  With
arguments in place it pushes whether the signatures can be matched with keys in the same order, and
takes exactly the arguments off; otherwise it returns false.
-/

namespace Electra.Script

open Chain Foundations.StackMachine Foundations.GreedyMatch

variable {C : Crypto}

/-- The arguments of `OP_CHECKMULTISIG`, from the top of the stack: the number of keys, the keys, the
number of signatures, the signatures, one more element, and what stays. -/
structure MultiSigArgs (s : EvalState) where
  vchKeysCount : Valtype
  keys : List Valtype
  vchSigsCount : Valtype
  sigs : List Valtype
  extra : Valtype
  rest : Stack
  stack_eq : s.stack = vchKeysCount :: (keys ++ vchSigsCount :: (sigs ++ extra :: rest))
  keysCount : (castToBigNum vchKeysCount).result.map getint = .ok (keys.length : ℤ)
  sigsCount : (castToBigNum vchSigsCount).result.map getint = .ok (sigs.length : ℤ)
  keys_le : keys.length ≤ 20
  sigs_le : sigs.length ≤ keys.length
  nOpCount_le : s.nOpCount + keys.length ≤ 201

namespace MultiSigArgs

variable {s : EvalState} (args : MultiSigArgs s)

/-- What the signatures sign: the script without any of them. -/
def scriptCode : CScript := args.sigs.foldl dropSignature s.pbegincodehash

def matched (C : Crypto) : Bool :=
  greedyMatch (validSignature C args.scriptCode) args.sigs args.keys

end MultiSigArgs

theorem matchSigs_eq {stack : Stack} {scriptCode : CScript} {keys sigs post post' : List Valtype}
    {ikey isig : ℕ} (hkeys : stack.drop ikey = keys ++ post) (hsigs : stack.drop isig = sigs ++ post')
    (hcount : sigs.length ≤ keys.length) :
    (matchSigs C stack scriptCode keys.length (ikey + 1) (isig + 1) sigs.length).result =
      .ok (greedyMatch (validSignature C scriptCode) sigs keys) := by
  induction keys generalizing sigs ikey isig with
  | nil =>
    obtain rfl : sigs = [] := List.eq_nil_of_length_eq_zero (Nat.le_zero.mp hcount)
    rfl
  | cons key keys ih =>
    cases sigs with
    | nil => rfl
    | cons sig sigs =>
      have hkeys' : stack.drop (ikey + 1) = keys ++ post := by
        rw [← List.drop_drop, hkeys]
        rfl
      have hsigs' : stack.drop (isig + 1) = sigs ++ post' := by
        rw [← List.drop_drop, hsigs]
        rfl
      rw [List.length_cons, List.length_cons, matchSigs, stacktop, stacktop, peek_drop hsigs,
        pure_bind, peek_drop hkeys, pure_bind, attemptSignature, bind_assoc]
      rw [Metered.bind_result_of_ok (a := ()) rfl, pure_bind, greedyMatch]
      cases validSignature C scriptCode sig key with
      | true =>
        rw [if_pos rfl, if_pos rfl, if_pos rfl, if_neg (by simpa using hcount)]
        exact ih hkeys' hsigs' (Nat.le_of_succ_le_succ hcount)
      | false =>
        simp only [Bool.false_eq_true, if_false]
        split_ifs with hleft
        · rw [greedyMatch_eq_false_of_length_lt (by simpa using hleft)]
          rfl
        · exact ih hkeys' hsigs (not_lt.mp hleft)

theorem dropSignatures_eq {stack : Stack} {sigs post : List Valtype} {isig : ℕ}
    (hsigs : stack.drop isig = sigs ++ post) (scriptCode : CScript) :
    dropSignatures stack scriptCode (isig + 1) sigs.length =
      pure (sigs.foldl dropSignature scriptCode) := by
  induction sigs generalizing isig scriptCode with
  | nil => rfl
  | cons sig sigs ih =>
    have hsigs' : stack.drop (isig + 1) = sigs ++ post := by
      rw [← List.drop_drop, hsigs]
      rfl
    rw [List.length_cons, dropSignatures, stacktop, peek_drop hsigs, pure_bind, ih hsigs',
      List.foldl_cons]

theorem stackCount_eq {stack post : Stack} {i n bound : ℕ} {vch : Valtype}
    (hstack : stack.drop i = vch :: post)
    (hcount : (castToBigNum vch).result.map getint = .ok (n : ℤ)) (hn : n ≤ bound) :
    (stackCount stack (i + 1) bound).result = .ok n := by
  unfold stackCount stacktop
  rw [peek_drop hstack, pure_bind]
  cases hcast : (castToBigNum vch).result with
  | error reason =>
    rw [hcast] at hcount
    cases hcount
  | ok bn =>
    rw [hcast] at hcount
    have hint : getint bn = n := Except.ok.inj hcount
    have hgood : ¬ ((n : ℤ) < 0 ∨ (n : ℤ) > bound) := by omega
    rw [Metered.bind_result_of_ok hcast, hint]
    exact Meets.refuse_bind_result hgood _

namespace MultiSigArgs

variable {s : EvalState} (args : MultiSigArgs s)

/-- Everything that the opcode takes off. -/
def taken : Stack :=
  args.vchKeysCount :: (args.keys ++ args.vchSigsCount :: (args.sigs ++ [args.extra]))

theorem stack_eq_append : s.stack = args.taken ++ args.rest := by
  simp only [args.stack_eq, taken, List.cons_append, List.append_assoc, List.nil_append]

theorem length_taken : args.taken.length = 2 + args.keys.length + 1 + args.sigs.length := by
  simp only [taken, List.length_cons, List.length_append, List.length_nil]
  omega

theorem drop_keys : s.stack.drop 1 =
    args.keys ++ args.vchSigsCount :: (args.sigs ++ args.extra :: args.rest) := by
  rw [args.stack_eq, List.drop_one, List.tail_cons]

theorem drop_sigsCount : s.stack.drop (1 + args.keys.length) =
    args.vchSigsCount :: (args.sigs ++ args.extra :: args.rest) := by
  rw [← List.drop_drop, args.drop_keys, List.drop_left]

theorem drop_sigs : s.stack.drop (2 + args.keys.length) =
    args.sigs ++ args.extra :: args.rest := by
  rw [show 2 + args.keys.length = 1 + args.keys.length + 1 by omega, ← List.drop_drop,
    args.drop_sigsCount, List.drop_one, List.tail_cons]

theorem opCheckMultiSig_eq (C : Crypto) (fVerify : Bool) :
    (opCheckMultiSig C fVerify s).result = (do
      let stack ← pushVerdict fVerify (args.matched C) args.rest
      return { s with stack, nOpCount := s.nOpCount + args.keys.length }).result := by
  have hlength : s.stack.length = 2 + args.keys.length + 1 + args.sigs.length + args.rest.length := by
    rw [args.stack_eq_append, List.length_append, args.length_taken]
  have hnext : 2 + args.keys.length = 1 + args.keys.length + 1 := by omega
  unfold opCheckMultiSig
  refine (Meets.refuse_bind_result (by omega) _).trans ?_
  refine (Metered.bind_result_of_ok
    (stackCount_eq (i := 0) args.stack_eq args.keysCount args.keys_le) _).trans ?_
  refine (Meets.refuse_bind_result (not_lt.mpr args.nOpCount_le) _).trans ?_
  refine (Meets.refuse_bind_result (by omega) _).trans ?_
  have hsigsCount := stackCount_eq args.drop_sigsCount args.sigsCount args.sigs_le
  rw [← hnext] at hsigsCount
  refine (Metered.bind_result_of_ok hsigsCount _).trans ?_
  refine (Meets.refuse_bind_result (by omega) _).trans ?_
  rw [dropSignatures_eq args.drop_sigs, pure_bind]
  refine (Metered.bind_result_of_ok (matchSigs_eq args.drop_keys args.drop_sigs args.sigs_le)
    _).trans ?_
  rw [← args.length_taken, args.stack_eq_append, popMany_append, pure_bind]
  rfl

/-- There is a matching of the signatures with the keys that keeps their order. -/
theorem matched_iff (C : Crypto) :
    args.matched C = true ↔ ∃ f : Fin args.sigs.length → Fin args.keys.length,
      StrictMono f ∧ ∀ i, validSignature C args.scriptCode (args.sigs.get i)
        (args.keys.get (f i)) = true := greedyMatch_iff _ _

end MultiSigArgs

theorem of_stackCount_eq_ok {stack : Stack} {i n bound : ℕ}
    (h : (stackCount stack (i + 1) bound).result = .ok n) :
    n ≤ bound ∧ ∃ vch post, stack.drop i = vch :: post ∧
      (castToBigNum vch).result.map getint = .ok (n : ℤ) := by
  unfold stackCount at h
  obtain ⟨vch, hpeek, h⟩ := Metered.bind_result_eq_ok.mp h
  obtain ⟨bn, hcast, h⟩ := Metered.bind_result_eq_ok.mp h
  obtain ⟨u, hrange, h⟩ := Metered.bind_result_eq_ok.mp h
  have hgood := Meets.refuse_result_eq_ok.mp hrange
  have hn : (getint bn).toNat = n := Except.ok.inj h
  refine ⟨by omega, ?_⟩
  cases hdrop : stack.drop i with
  | nil =>
    have hnone : stack[i]? = none := by rw [← List.head?_drop, hdrop, List.head?_nil]
    simp only [stacktop, peek, hnone] at hpeek
    cases hpeek
  | cons top post =>
    rw [stacktop, peek_drop hdrop] at hpeek
    obtain rfl : top = vch := Except.ok.inj hpeek
    refine ⟨top, post, rfl, ?_⟩
    rw [hcast, Except.map, ← hn, Int.toNat_of_nonneg (by omega)]

theorem nonempty_multiSigArgs {fVerify : Bool} {s s' : EvalState}
    (h : (opCheckMultiSig C fVerify s).result = .ok s') : Nonempty (MultiSigArgs s) := by
  unfold opCheckMultiSig at h
  obtain ⟨_, _, h⟩ := Metered.bind_result_eq_ok.mp h
  obtain ⟨nKeysCount, hkeysCount, h⟩ := Metered.bind_result_eq_ok.mp h
  obtain ⟨_, hcount, h⟩ := Metered.bind_result_eq_ok.mp h
  obtain ⟨_, _, h⟩ := Metered.bind_result_eq_ok.mp h
  obtain ⟨nSigsCount, hsigsCount, h⟩ := Metered.bind_result_eq_ok.mp h
  obtain ⟨_, hdepth, _⟩ := Metered.bind_result_eq_ok.mp h
  have hdepth := Meets.refuse_result_eq_ok.mp hdepth
  have hcount := Meets.refuse_result_eq_ok.mp hcount
  have hkeysCount' : (stackCount s.stack (0 + 1) (20 : ℕ)).result = .ok nKeysCount := hkeysCount
  obtain ⟨hkeys, vchKeysCount, tail, hstack, hkeysValue⟩ := of_stackCount_eq_ok hkeysCount'
  rw [show 2 + nKeysCount = 1 + nKeysCount + 1 by omega] at hsigsCount
  obtain ⟨hsigs, vchSigsCount, tail', htail, hsigsValue⟩ := of_stackCount_eq_ok hsigsCount
  have hsplit : tail = tail.take nKeysCount ++ vchSigsCount :: tail' := by
    rw [← htail, ← List.drop_drop, show s.stack.drop 1 = tail by rw [← List.drop_zero (l := s.stack),
      hstack, List.drop_one, List.tail_cons], List.take_append_drop]
  have hlength : s.stack.length = tail.length + 1 := congrArg List.length hstack
  have hlength' : tail.length = (tail.take nKeysCount).length + (tail'.length + 1) := by
    conv_lhs => rw [hsplit]
    rw [List.length_append, List.length_cons]
  have htake : (tail.take nKeysCount).length = nKeysCount := by
    rw [List.length_take]
    omega
  obtain ⟨extra, rest, hextra⟩ : ∃ extra rest, tail'.drop nSigsCount = extra :: rest := by
    apply List.exists_cons_of_length_pos
    rw [List.length_drop]
    omega
  have htake' : (tail'.take nSigsCount).length = nSigsCount := by
    rw [List.length_take]
    omega
  have hsplit' : tail' = tail'.take nSigsCount ++ extra :: rest := by
    rw [← hextra, List.take_append_drop]
  have hstack' : s.stack = vchKeysCount ::
      (tail.take nKeysCount ++ vchSigsCount :: (tail'.take nSigsCount ++ extra :: rest)) := by
    rw [← hsplit', ← hsplit]
    exact hstack
  exact ⟨⟨vchKeysCount, tail.take nKeysCount, vchSigsCount, tail'.take nSigsCount, extra, rest,
    hstack', htake.symm ▸ hkeysValue, htake'.symm ▸ hsigsValue, htake.symm ▸ hkeys,
    by rw [htake, htake']; exact hsigs, htake.symm ▸ not_lt.mp hcount⟩⟩

theorem opCheckMultiSig_of_isEmpty (C : Crypto) (fVerify : Bool) {s : EvalState}
    (h : IsEmpty (MultiSigArgs s)) : (opCheckMultiSig C fVerify s).result = .error .returnFalse := by
  have hkeeps := opCheckMultiSig_keeps (C := C) (P := fun _ ↦ True) (fun _ ↦ trivial) fVerify
    (s := s) (fun _ _ ↦ trivial) fun _ hbound _ ↦ hbound
  cases hresult : (opCheckMultiSig C fVerify s).result with
  | error reason => exact congrArg Except.error (hkeeps.of_error reason hresult)
  | ok s' => exact (h.false (nonempty_multiSigArgs hresult).some).elim

/-- `OP_CHECKMULTISIG` takes exactly its arguments off and pushes true if and only if the signatures
can be matched with keys in the same order; `OP_CHECKMULTISIGVERIFY` fails where it pushes false. -/
theorem switch_checkMultiSig (C : Crypto) (s : EvalState) :
    (∀ args : MultiSigArgs s, ∃ b : Bool,
      (b = true ↔ ∃ f : Fin args.sigs.length → Fin args.keys.length, StrictMono f ∧
        ∀ i, validSignature C args.scriptCode (args.sigs.get i) (args.keys.get (f i)) = true) ∧
      (switch C OP_CHECKMULTISIG s).result = .ok { s with
        stack := ofBool b :: args.rest, nOpCount := s.nOpCount + args.keys.length } ∧
      (switch C OP_CHECKMULTISIGVERIFY s).result = if b then .ok { s with
        stack := args.rest, nOpCount := s.nOpCount + args.keys.length } else .error .returnFalse) ∧
    (IsEmpty (MultiSigArgs s) →
      (switch C OP_CHECKMULTISIG s).result = .error .returnFalse ∧
      (switch C OP_CHECKMULTISIGVERIFY s).result = .error .returnFalse) := by
  have hplain : switch C OP_CHECKMULTISIG s = opCheckMultiSig C false s := rfl
  have hverify : switch C OP_CHECKMULTISIGVERIFY s = opCheckMultiSig C true s := rfl
  rw [hplain, hverify]
  refine ⟨fun args ↦ ⟨args.matched C, args.matched_iff C, ?_, ?_⟩, fun h ↦ ⟨?_, ?_⟩⟩
  · rw [args.opCheckMultiSig_eq]
    rfl
  · rw [args.opCheckMultiSig_eq]
    cases args.matched C <;> rfl
  · exact opCheckMultiSig_of_isEmpty C false h
  · exact opCheckMultiSig_of_isEmpty C true h

end Electra.Script
