import Electra.Chain.BestChain

/-!
# The height in front of a coinbase

A coinbase script starts with the push of the height of its block.  As far as scripts of at most 100
bytes go, no push of a height is a prefix of the push of another one, so a coinbase script tells the
height of its block.
-/

namespace Electra.Ledger

open Chain Foundations.Outcome

/-! ## Digits -/

variable {m n : ℕ} {b : List UInt8}

theorem eq_of_digits_eq {s : ℕ} (hm : m < 256 ^ s) (hn : n < 256 ^ s)
    (h : ∀ i < s, m / 256 ^ i % 256 = n / 256 ^ i % 256) : m = n := by
  induction s generalizing m n with
  | zero => omega
  | succ s ih =>
    have hlow : m % 256 = n % 256 := by simpa using h 0 (by omega)
    have hhigh : m / 256 = n / 256 := by
      refine ih ?_ ?_ ?_
      · rw [pow_succ] at hm
        exact Nat.div_lt_of_lt_mul (by omega)
      · rw [pow_succ] at hn
        exact Nat.div_lt_of_lt_mul (by omega)
      · intro i hi
        have hdigit := h (i + 1) (by omega)
        rwa [pow_succ', ← Nat.div_div_eq_div_mul, ← Nat.div_div_eq_div_mul] at hdigit
    omega

theorem lt_pow_mpiSize (n : ℕ) : n < 256 ^ mpiSize n := by
  rcases lt_two_pow_mpiSize n with h | rfl
  · refine lt_of_lt_of_le h ?_
    rw [show (256 : ℕ) = 2 ^ 8 from rfl, ← pow_mul]
    exact Nat.pow_le_pow_right (by norm_num) (by omega)
  · positivity

theorem getvch_natCast (n : ℕ) :
    getvch n = (List.range (mpiSize n)).map fun i ↦ UInt8.ofNat (n / 256 ^ i % 256) := by
  unfold getvch
  refine List.map_congr_left fun i _ ↦ ?_
  rw [Int.natAbs_natCast, if_neg (by omega), Nat.add_zero]

theorem length_getvch (n : ℕ) : (getvch n).length = mpiSize n := by
  simp [getvch]

/-- The digits of a number tell the number. -/
theorem getvch_injective (h : getvch m = getvch n) : m = n := by
  have hsize : mpiSize m = mpiSize n := by rw [← length_getvch, ← length_getvch, h]
  refine eq_of_digits_eq (lt_pow_mpiSize m) (hsize ▸ lt_pow_mpiSize n) ?_
  intro i hi
  have hdigit : (getvch m)[i]? = (getvch n)[i]? := by rw [h]
  simp only [getvch_natCast, List.getElem?_map, List.getElem?_range hi,
    List.getElem?_range (hsize ▸ hi), Option.map_some, Option.some.injEq] at hdigit
  have hnat := congrArg UInt8.toNat hdigit
  simpa using hnat

/-! ## Pushes -/

theorem pushBytes_of_length_le (h : b.length ≤ 100) :
    pushBytes [] b =
      if b.length < 0x4c then UInt8.ofNat b.length :: b else 0x4c :: UInt8.ofNat b.length :: b := by
  unfold pushBytes
  split
  · rfl
  · rw [if_pos (by omega)]
    rfl

theorem length_le_length_pushBytes (b : List UInt8) : b.length ≤ (pushBytes [] b).length := by
  unfold pushBytes
  split_ifs <;> simp <;> omega

theorem length_eq_of_ofNat_eq (hm : m < 256) (hn : n < 256) (h : UInt8.ofNat m = UInt8.ofNat n) :
    m = n := by
  have hnat := congrArg UInt8.toNat h
  simpa [Nat.mod_eq_of_lt hm, Nat.mod_eq_of_lt hn] using hnat

theorem eq_of_prefix_append {b' rest : List UInt8} (hlength : b'.length = b.length)
    (h : b' <+: b ++ rest) : b' = b :=
  List.IsPrefix.eq_of_length
    (List.prefix_of_prefix_length_le h (List.prefix_append b rest) hlength.le) hlength

/-- Two pushes of byte vectors that start one short script push the same bytes. -/
theorem eq_of_prefix_pushBytes {b' : List UInt8} {script : CScript} (hlength : script.length ≤ 100)
    (h : pushBytes [] b <+: script) (h' : pushBytes [] b' <+: script) : b' = b := by
  have hb : b.length ≤ 100 := (length_le_length_pushBytes b).trans (h.length_le.trans hlength)
  have hb' : b'.length ≤ 100 := (length_le_length_pushBytes b').trans (h'.length_le.trans hlength)
  obtain ⟨rest, rfl⟩ := h
  rw [pushBytes_of_length_le hb, pushBytes_of_length_le hb'] at h'
  by_cases hshort : b.length < 0x4c <;> by_cases hshort' : b'.length < 0x4c
  · simp only [if_pos hshort, if_pos hshort', List.cons_append, List.cons_prefix_cons] at h'
    exact eq_of_prefix_append (length_eq_of_ofNat_eq (by omega) (by omega) h'.1) h'.2
  · simp only [if_pos hshort, if_neg hshort', List.cons_append, List.cons_prefix_cons] at h'
    have heq := length_eq_of_ofNat_eq (m := 0x4c) (by omega) (by omega) h'.1
    omega
  · simp only [if_neg hshort, if_pos hshort', List.cons_append, List.cons_prefix_cons] at h'
    have heq := length_eq_of_ofNat_eq (n := 0x4c) (by omega) (by omega) h'.1
    omega
  · simp only [if_neg hshort, if_neg hshort', List.cons_append, List.cons_prefix_cons] at h'
    exact eq_of_prefix_append (length_eq_of_ofNat_eq (by omega) (by omega) h'.2.1) h'.2.2

/-- Small heights are pushed by one opcode, the others as byte vectors. -/
theorem pushInt64_natCast (n : ℕ) :
    pushInt64 [] n = if 1 ≤ n ∧ n ≤ 16 then [UInt8.ofNat (n + 0x50)] else pushBytes [] (getvch n) := by
  have hiff : ((n : ℤ) = -1 ∨ (1 ≤ (n : ℤ) ∧ (n : ℤ) ≤ 16)) ↔ (1 ≤ n ∧ n ≤ 16) := by omega
  have hnat : ((n : ℤ) + 0x50).toNat = n + 0x50 := by omega
  simp only [pushInt64, hiff, hnat, List.nil_append]

/-- The first byte of a pushed byte vector is no small-number opcode. -/
theorem head_pushBytes (h : b.length ≤ 100) (hn : 1 ≤ n) (hn' : n ≤ 16) {rest : List UInt8} :
    ¬ [UInt8.ofNat (n + 0x50)] <+: pushBytes [] b ++ rest := by
  rw [pushBytes_of_length_le h]
  intro hprefix
  split at hprefix
  · next hshort =>
    rw [List.cons_append, List.cons_prefix_cons] at hprefix
    have heq := length_eq_of_ofNat_eq (by omega) (by omega) hprefix.1
    omega
  · rw [List.cons_append, List.cons_prefix_cons] at hprefix
    have heq := length_eq_of_ofNat_eq (n := 0x4c) (by omega) (by omega) hprefix.1
    omega

/-- Two heights whose pushes start one short script are equal. -/
theorem eq_of_prefix_pushInt64 {script : CScript} (hlength : script.length ≤ 100)
    (h : pushInt64 [] m <+: script) (h' : pushInt64 [] n <+: script) : m = n := by
  rw [pushInt64_natCast] at h h'
  split at h <;> split at h'
  · obtain ⟨rest, rfl⟩ := h
    rw [List.singleton_append, List.cons_prefix_cons] at h'
    have heq := length_eq_of_ofNat_eq (by omega) (by omega) h'.1
    omega
  · next hm _ =>
    have hb := (length_le_length_pushBytes _).trans (h'.length_le.trans hlength)
    obtain ⟨rest, rfl⟩ := h'
    exact absurd h (head_pushBytes hb hm.1 hm.2)
  · next hn =>
    have hb := (length_le_length_pushBytes _).trans (h.length_le.trans hlength)
    obtain ⟨rest, rfl⟩ := h
    exact absurd h' (head_pushBytes hb hn.1 hn.2)
  · exact getvch_injective (eq_of_prefix_pushBytes hlength h' h)

end Electra.Ledger
