import Mathlib.Data.List.Basic

/-!
# Cutting a stream into frames

A framer looks at the data received so far.  It takes data off the front, with a frame or as junk, or
it waits for more data and may drop junk first.  If more data never changes what it takes off
(`Stable`), the frames of a stream do not depend on the pieces in which the stream arrives
(`frames_flatten`).
-/

namespace Electra.Foundations.Framing

variable {β φ : Type*}

/-- What a framer does with the data in front of it. -/
inductive Action (φ : Type*)
  | wait (nDropped : ℕ)
  | take (n : ℕ) (frame : Option φ)

variable (act : List β → Action φ)

/-- The frames of some data, and the data that is kept. -/
def parse : ℕ → List β → List φ × List β
  | 0, data => ([], data)
  | nTurns + 1, data =>
      match act data with
      | .wait nDropped => ([], data.drop nDropped)
      | .take n frame =>
          let rest := parse nTurns (data.drop n)
          (frame.toList ++ rest.1, rest.2)

/-- Enough turns for all of the data. -/
def parseAll (data : List β) : List φ × List β := parse act (data.length + 1) data

/-- Receive one more piece. -/
def receive (progress : List φ × List β) (piece : List β) : List φ × List β :=
  let parsed := parseAll act (progress.2 ++ piece)
  (progress.1 ++ parsed.1, parsed.2)

/-- The frames of a stream that arrives in pieces. -/
def frames (pieces : List (List β)) : List φ := (pieces.foldl (receive act) ([], [])).1

/-- What is taken off is taken off whatever follows, and dropping junk does not change what comes
after it. -/
structure Stable : Prop where
  take_pos : ∀ {data n frame}, act data = .take n frame → 0 < n ∧ n ≤ data.length
  take_append : ∀ {data n frame} (more : List β), act data = .take n frame →
    act (data ++ more) = .take n frame
  drop_take : ∀ {data nDropped n frame} (more : List β), act data = .wait nDropped →
    act (data.drop nDropped ++ more) = .take n frame → act (data ++ more) = .take (nDropped + n) frame
  drop_wait : ∀ {data nDropped n} (more : List β), act data = .wait nDropped →
    act (data.drop nDropped ++ more) = .wait n → act (data ++ more) = .wait (nDropped + n)
  drop_le : ∀ {data nDropped}, act data = .wait nDropped → nDropped ≤ data.length

variable {act} {data : List β}

/-- More turns than needed change nothing. -/
theorem parse_eq_parse (h : Stable act) {nTurns nTurns' : ℕ} (hlt : data.length < nTurns)
    (hlt' : data.length < nTurns') : parse act nTurns data = parse act nTurns' data := by
  induction nTurns generalizing data nTurns' with
  | zero => exact absurd hlt (Nat.not_lt_zero _)
  | succ nTurns ih =>
    cases nTurns' with
    | zero => exact absurd hlt' (Nat.not_lt_zero _)
    | succ nTurns' =>
      rw [parse, parse]
      cases hact : act data with
      | wait nDropped => rfl
      | take n frame =>
        obtain ⟨hpos, hle⟩ := h.take_pos hact
        have hlength : (data.drop n).length = data.length - n := List.length_drop
        have hrest : parse act nTurns (data.drop n) = parse act nTurns' (data.drop n) :=
          ih (by omega) (by omega)
        simp only [hrest]

theorem parseAll_of_take (h : Stable act) {n : ℕ} {frame : Option φ}
    (hact : act data = .take n frame) : parseAll act data =
      (frame.toList ++ (parseAll act (data.drop n)).1, (parseAll act (data.drop n)).2) := by
  obtain ⟨hpos, hle⟩ := h.take_pos hact
  have hlength : (data.drop n).length = data.length - n := List.length_drop
  have hrest : parse act data.length (data.drop n) = parseAll act (data.drop n) :=
    parse_eq_parse h (by omega) (Nat.lt_succ_self _)
  rw [parseAll, parse, hact]
  simp only [hrest]

theorem parseAll_of_wait {nDropped : ℕ} (hact : act data = .wait nDropped) :
    parseAll act data = ([], data.drop nDropped) := by
  rw [parseAll, parse, hact]

/-- Dropped junk does not matter for what comes after it. -/
theorem parseAll_drop_append (h : Stable act) {nDropped : ℕ} (hact : act data = .wait nDropped)
    (more : List β) : parseAll act (data.drop nDropped ++ more) = parseAll act (data ++ more) := by
  have hdrop : ∀ n, (data.drop nDropped ++ more).drop n = (data ++ more).drop (nDropped + n) := by
    intro n
    rw [← List.drop_drop, List.drop_append_of_le_length (h.drop_le hact)]
  cases hmore : act (data.drop nDropped ++ more) with
  | wait n =>
    rw [parseAll_of_wait hmore, parseAll_of_wait (h.drop_wait more hact hmore), hdrop]
  | take n frame =>
    rw [parseAll_of_take h hmore, parseAll_of_take h (h.drop_take more hact hmore), hdrop]

/-- Parsing some data and later what was kept of it with more is parsing all of it. -/
theorem parseAll_append (h : Stable act) (more : List β) :
    parseAll act (data ++ more) =
      ((parseAll act data).1 ++ (parseAll act ((parseAll act data).2 ++ more)).1,
        (parseAll act ((parseAll act data).2 ++ more)).2) := by
  induction hlength : data.length using Nat.strongRecOn generalizing data with
  | _ length ih =>
    cases hact : act data with
    | wait nDropped =>
      rw [parseAll_of_wait hact, parseAll_drop_append h hact, List.nil_append]
    | take n frame =>
      obtain ⟨hpos, hle⟩ := h.take_pos hact
      have hshorter : (data.drop n).length < length := by
        rw [List.length_drop]
        omega
      have hrest := ih _ hshorter rfl
      rw [parseAll_of_take h hact, parseAll_of_take h (h.take_append more hact),
        List.drop_append_of_le_length hle, hrest, List.append_assoc]

theorem foldl_receive (h : Stable act) (pieces : List (List β)) (data : List β) :
    pieces.foldl (receive act) (parseAll act data) = parseAll act (data ++ pieces.flatten) := by
  induction pieces generalizing data with
  | nil => rw [List.foldl_nil, List.flatten_nil, List.append_nil]
  | cons piece pieces ih =>
    have hpiece : receive act (parseAll act data) piece = parseAll act (data ++ piece) :=
      (parseAll_append h piece).symm
    rw [List.foldl_cons, hpiece, ih, List.flatten_cons, List.append_assoc]

/-- The frames of a stream do not depend on its pieces, as far as nothing is kept of no data. -/
theorem frames_flatten (h : Stable act) (hnil : parseAll act [] = ([], []))
    (pieces : List (List β)) : frames act pieces = (parseAll act pieces.flatten).1 := by
  have hrun := foldl_receive h pieces []
  rw [hnil, List.nil_append] at hrun
  rw [frames, hrun]

/-- Written frames that are taken off as they are, whatever follows, are parsed back. -/
theorem parseAll_flatMap (h : Stable act) (hnil : parseAll act [] = ([], [])) {write : φ → List β}
    {xs : List φ} (hwrite : ∀ x ∈ xs, ∀ more, act (write x ++ more) = .take (write x).length (some x)) :
    parseAll act (xs.flatMap write) = (xs, []) := by
  induction xs with
  | nil => exact hnil
  | cons x xs ih =>
    obtain ⟨hfirst, hothers⟩ := List.forall_mem_cons.mp hwrite
    rw [List.flatMap_cons, parseAll_of_take h (hfirst (xs.flatMap write)), List.drop_left, ih hothers]
    rfl

end Electra.Foundations.Framing
