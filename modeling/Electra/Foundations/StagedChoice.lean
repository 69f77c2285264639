import Mathlib.Data.List.Nodup
import Mathlib.Data.List.Perm.Subperm
import Mathlib.Order.Lattice

/-!
# Choices in stages

A list in the order of time is gone through in rounds.  Each round chooses one element that no earlier
round has chosen: of those up to the stop time of the round the one of the least rank, and the first
one if all of them are later.
-/

namespace Electra.Foundations.StagedChoice

variable {α τ κ : Type*} [LinearOrder τ] [LinearOrder κ] (time : α → τ) (rank : α → κ)

/-! ## One round -/

/-- Go through the list with the best element so far, up to the first one that is too late. -/
def choose (used : α → Prop) [DecidablePred used] (stop : τ) : Option α → List α → Option α
  | best, [] => best
  | none, x :: rest => if used x then choose used stop none rest else choose used stop (some x) rest
  | some best, x :: rest =>
      if stop < time x then some best
      else if used x then choose used stop (some best) rest
      else choose used stop (some (if rank x < rank best then x else best)) rest

/-- The element that a round has to choose; `before` is the order of the list. -/
structure IsChoice (before : α → α → Prop) (used : α → Prop) (stop : τ) (l : List α) (c : α) :
    Prop where
  mem : c ∈ l
  fresh : ¬ used c
  least : time c ≤ stop → ∀ x ∈ l, ¬ used x → time x ≤ stop →
    x = c ∨ rank c < rank x ∨ rank c = rank x ∧ before c x
  first : stop < time c → ∀ x ∈ l, ¬ used x → stop < time x ∧ (x = c ∨ before c x)

section Choose

variable {time rank} {before : α → α → Prop} {used : α → Prop} [DecidablePred used] {stop : τ}
  {l : List α} {best : α}

/-- With a best element at hand the rest can only improve on it in time. -/
theorem exists_choose_some (hsorted : (best :: l).Pairwise fun x y ↦ time x ≤ time y)
    (hbefore : (best :: l).Pairwise before) :
    ∃ c, choose time rank used stop (some best) l = some c ∧
      (c = best ∨ c ∈ l ∧ ¬ used c ∧ time c ≤ stop ∧ rank c < rank best) ∧
      ∀ x ∈ l, ¬ used x → time x ≤ stop → x = c ∨ rank c < rank x ∨ rank c = rank x ∧ before c x := by
  induction l generalizing best with
  | nil => exact ⟨best, rfl, .inl rfl, fun x hx ↦ absurd hx List.not_mem_nil⟩
  | cons y rest ih =>
    obtain ⟨hle, hrest⟩ := List.pairwise_cons.mp hsorted
    obtain ⟨hfirst, hrest'⟩ := List.pairwise_cons.mp hbefore
    have hskip : (best :: rest).Pairwise fun x y ↦ time x ≤ time y :=
      List.pairwise_cons.mpr ⟨fun x hx ↦ hle x (List.mem_cons_of_mem y hx), hrest.of_cons⟩
    have hskip' : (best :: rest).Pairwise before :=
      List.pairwise_cons.mpr ⟨fun x hx ↦ hfirst x (List.mem_cons_of_mem y hx), hrest'.of_cons⟩
    by_cases hlate : stop < time y
    · refine ⟨best, by simp [choose, hlate], .inl rfl, fun x hx _ htime ↦ ?_⟩
      rcases List.mem_cons.mp hx with rfl | hx
      · exact absurd htime (not_le.mpr hlate)
      · have hyx : time y ≤ time x := List.rel_of_pairwise_cons hrest hx
        exact absurd (hyx.trans htime) (not_le.mpr hlate)
    · by_cases hused : used y
      · obtain ⟨c, hc, hfrom, hleast⟩ := ih hskip hskip'
        refine ⟨c, by simpa [choose, hlate, hused] using hc, ?_, fun x hx hfresh htime ↦ ?_⟩
        · exact hfrom.imp_right fun ⟨hmem, hrest⟩ ↦ ⟨List.mem_cons_of_mem y hmem, hrest⟩
        · rcases List.mem_cons.mp hx with rfl | hx
          · exact absurd hused hfresh
          · exact hleast x hx hfresh htime
      · by_cases hbetter : rank y < rank best
        · obtain ⟨c, hc, hfrom, hleast⟩ := ih hrest hrest'
          refine ⟨c, by simpa [choose, hlate, hused, hbetter] using hc, .inr ?_,
            fun x hx hfresh htime ↦ ?_⟩
          · rcases hfrom with rfl | ⟨hmem, hfresh, htime, hrank⟩
            · exact ⟨List.mem_cons_self, hused, not_lt.mp hlate, hbetter⟩
            · exact ⟨List.mem_cons_of_mem y hmem, hfresh, htime, hrank.trans hbetter⟩
          · rcases List.mem_cons.mp hx with rfl | hx
            · rcases hfrom with rfl | ⟨-, -, -, hrank⟩
              · exact .inl rfl
              · exact .inr (.inl hrank)
            · exact hleast x hx hfresh htime
        · obtain ⟨c, hc, hfrom, hleast⟩ := ih hskip hskip'
          refine ⟨c, by simpa [choose, hlate, hused, hbetter] using hc, ?_, fun x hx hfresh htime ↦ ?_⟩
          · exact hfrom.imp_right fun ⟨hmem, hrest⟩ ↦ ⟨List.mem_cons_of_mem y hmem, hrest⟩
          · rcases List.mem_cons.mp hx with rfl | hx
            · rcases hfrom with rfl | ⟨-, -, -, hrank⟩
              · rcases (not_lt.mp hbetter).lt_or_eq with hlt | heq
                · exact .inr (.inl hlt)
                · exact .inr (.inr ⟨heq, hfirst x List.mem_cons_self⟩)
              · exact .inr (.inl (hrank.trans_le (not_lt.mp hbetter)))
            · exact hleast x hx hfresh htime

/-- A round chooses if there is something left, and it chooses the right element. -/
theorem exists_choose (hsorted : l.Pairwise fun x y ↦ time x ≤ time y) (hbefore : l.Pairwise before)
    (hleft : ∃ x ∈ l, ¬ used x) :
    ∃ c, choose time rank used stop none l = some c ∧ IsChoice time rank before used stop l c := by
  induction l with
  | nil =>
    obtain ⟨x, hx, -⟩ := hleft
    exact absurd hx List.not_mem_nil
  | cons y rest ih =>
    by_cases hused : used y
    · have hleft' : ∃ x ∈ rest, ¬ used x := by
        obtain ⟨x, hx, hfresh⟩ := hleft
        rcases List.mem_cons.mp hx with rfl | hx
        · exact absurd hused hfresh
        · exact ⟨x, hx, hfresh⟩
      obtain ⟨c, hc, hchoice⟩ := ih hsorted.of_cons hbefore.of_cons hleft'
      refine ⟨c, by simpa [choose, hused] using hc, List.mem_cons_of_mem y hchoice.mem, hchoice.fresh,
        fun htime x hx hfresh ↦ ?_, fun hlate x hx hfresh ↦ ?_⟩
      · rcases List.mem_cons.mp hx with rfl | hx
        · exact absurd hused hfresh
        · exact hchoice.least htime x hx hfresh
      · rcases List.mem_cons.mp hx with rfl | hx
        · exact absurd hused hfresh
        · exact hchoice.first hlate x hx hfresh
    · obtain ⟨c, hc, hfrom, hleast⟩ : ∃ c, choose time rank used stop (some y) rest = some c ∧ _ :=
        exists_choose_some hsorted hbefore
      refine ⟨c, by simpa [choose, hused] using hc, ?_, ?_, fun htime x hx hfresh hx' ↦ ?_,
        fun hlate x hx hfresh ↦ ?_⟩
      · rcases hfrom with rfl | ⟨hmem, -⟩
        · exact List.mem_cons_self
        · exact List.mem_cons_of_mem y hmem
      · rcases hfrom with rfl | ⟨-, hfresh, -⟩
        · exact hused
        · exact hfresh
      · rcases List.mem_cons.mp hx with rfl | hx
        · rcases hfrom with rfl | ⟨-, -, -, hrank⟩
          · exact .inl rfl
          · exact .inr (.inl hrank)
        · exact hleast x hx hfresh hx'
      · rcases hfrom with rfl | ⟨-, -, htime, -⟩
        · rcases List.mem_cons.mp hx with rfl | hx
          · exact ⟨hlate, .inl rfl⟩
          · exact ⟨hlate.trans_le (List.rel_of_pairwise_cons hsorted hx),
              .inr (List.rel_of_pairwise_cons hbefore hx)⟩
        · exact absurd htime (not_le.mpr hlate)

end Choose

/-! ## Rounds -/

variable [DecidableEq α]

/-- The elements that the first rounds choose; round `n` stops at `stop n`. -/
def picks (stop : ℕ → τ) (l : List α) : ℕ → List α
  | 0 => []
  | nRounds + 1 => picks stop l nRounds ++
      (choose time rank (· ∈ picks stop l nRounds) (stop nRounds) none l).toList

/-- Each of the first rounds makes its choice. -/
structure IsPicks (before : α → α → Prop) (stop : ℕ → τ) (l : List α) (nRounds : ℕ) (picks : List α) :
    Prop where
  length : picks.length = nRounds
  nodup : picks.Nodup
  subset : picks ⊆ l
  choice : ∀ n c, picks[n]? = some c →
    IsChoice time rank before (· ∈ picks.take n) (stop n) l c

variable {time rank} {before : α → α → Prop} {stop : ℕ → τ} {l : List α}

omit [DecidableEq α] in
/-- The order of the list does not matter for what its elements are. -/
theorem IsPicks.congr {l' : List α} {nRounds : ℕ} {picks : List α} (hsame : ∀ x, x ∈ l ↔ x ∈ l')
    (h : IsPicks time rank before stop l nRounds picks) :
    IsPicks time rank before stop l' nRounds picks where
  length := h.length
  nodup := h.nodup
  subset _ hx := (hsame _).mp (h.subset hx)
  choice n c hc :=
    { mem := (hsame c).mp (h.choice n c hc).mem
      fresh := (h.choice n c hc).fresh
      least := fun htime x hx ↦ (h.choice n c hc).least htime x ((hsame x).mpr hx)
      first := fun hlate x hx ↦ (h.choice n c hc).first hlate x ((hsame x).mpr hx) }

theorem exists_not_mem_of_length_lt {l l' : List α} (hnodup : l.Nodup) (hshort : l'.length < l.length) :
    ∃ x ∈ l, x ∉ l' := by
  by_contra hall
  have hsubset : l ⊆ l' := fun x hx ↦ by_contra fun hnot ↦ hall ⟨x, hx, hnot⟩
  exact absurd (hnodup.subperm hsubset).length_le (Nat.not_le.mpr hshort)

theorem exists_choose_of_isPicks {nRounds : ℕ} (hnodup : l.Nodup)
    (hsorted : l.Pairwise fun x y ↦ time x ≤ time y) (hbefore : l.Pairwise before)
    (h : IsPicks time rank before stop l nRounds (picks time rank stop l nRounds))
    (hlength : nRounds < l.length) :
    ∃ c, choose time rank (· ∈ picks time rank stop l nRounds) (stop nRounds) none l = some c ∧
      IsChoice time rank before (· ∈ picks time rank stop l nRounds) (stop nRounds) l c := by
  have hleft : ∃ x ∈ l, x ∉ picks time rank stop l nRounds :=
    exists_not_mem_of_length_lt hnodup (h.length.trans_lt hlength)
  exact exists_choose hsorted hbefore hleft

/-- As long as there are elements left, every round chooses. -/
theorem isPicks_picks {nRounds : ℕ} (hnodup : l.Nodup)
    (hsorted : l.Pairwise fun x y ↦ time x ≤ time y) (hbefore : l.Pairwise before)
    (hlength : nRounds ≤ l.length) :
    IsPicks time rank before stop l nRounds (picks time rank stop l nRounds) := by
  induction nRounds with
  | zero => exact ⟨rfl, List.nodup_nil, List.nil_subset l, fun n c hc ↦ by simp [picks] at hc⟩
  | succ nRounds ih =>
    have hpicks := ih (by omega)
    obtain ⟨c, hc, hchoice⟩ := exists_choose_of_isPicks hnodup hsorted hbefore hpicks hlength
    have hnext : picks time rank stop l (nRounds + 1) = picks time rank stop l nRounds ++ [c] := by
      rw [picks, hc]
      rfl
    rw [hnext]
    constructor
    case length => rw [List.length_append, hpicks.length, List.length_singleton]
    case nodup => exact hpicks.nodup.append (List.nodup_singleton c) (by simpa using hchoice.fresh)
    case subset =>
      intro x hx
      rcases List.mem_append.mp hx with hx | hx
      · exact hpicks.subset hx
      · rw [List.mem_singleton.mp hx]
        exact hchoice.mem
    case choice =>
      intro n d hd
      rcases Nat.lt_trichotomy n nRounds with hlt | rfl | hgt
      · have hold : (picks time rank stop l nRounds)[n]? = some d := by
          rwa [List.getElem?_append_left (by rwa [hpicks.length])] at hd
        rw [List.take_append_of_le_length (by rw [hpicks.length]; exact Nat.le_of_lt hlt)]
        exact hpicks.choice n d hold
      · rw [List.getElem?_append_right (by rw [hpicks.length]), hpicks.length, Nat.sub_self] at hd
        obtain rfl := Option.some.inj hd
        have htake : (picks time rank stop l n ++ [c]).take n = picks time rank stop l n := by
          rw [List.take_append_of_le_length (by rw [hpicks.length]), List.take_of_length_le]
          rw [hpicks.length]
        rw [htake]
        exact hchoice
      · have hend : (picks time rank stop l nRounds ++ [c]).length ≤ n := by
          rw [List.length_append, hpicks.length, List.length_singleton]
          exact hgt
        rw [List.getElem?_eq_none hend] at hd
        cases hd

end Electra.Foundations.StagedChoice
