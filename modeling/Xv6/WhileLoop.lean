import Mathlib.Logic.Function.Iterate

/-!
# While loops run with fuel

`whileFuel cond body fuel s` runs `while (cond s) s = body s` from `s` for
at most `fuel` tests of the condition, and is `none` when the fuel runs out
first.  Whether a loop ends is then a statement about every fuel: it ends
when some fuel gives a state, and it never ends when every fuel gives
`none`.

A loop ends when a measure falls at every round its condition lets through
(`whileFuel_ends`); it never ends when, after some rounds, it reaches a state
from which an invariant keeps the condition true (`whileFuel_eq_none`,
`whileFuel_eq_none_of_iterate`).
-/

namespace WhileLoop

variable {σ : Type*} (cond : σ → Bool) (body : σ → σ)

/-- `while (cond s) s = body s;` with at most `fuel` tests of `cond`. -/
def whileFuel : Nat → σ → Option σ
  | 0, _ => none
  | fuel + 1, s => if cond s then whileFuel fuel (body s) else some s

/-- A measure that falls at each round of the loop from `s` bounds the
number of rounds: with more fuel than the measure, the loop ends, in a state
where the condition fails. -/
theorem whileFuel_ends (μ : σ → Nat) {s : σ}
    (h : ∀ k, cond (body^[k] s) → μ (body^[k + 1] s) < μ (body^[k] s)) {fuel : Nat}
    (hf : μ s < fuel) : ∃ s', whileFuel cond body fuel s = some s' ∧ cond s' = false := by
  induction fuel generalizing s with
  | zero => omega
  | succ fuel ih =>
    by_cases hc : cond s
    · -- one round, and the measure has fallen below the fuel left
      have hstep : μ (body s) < μ s := h 0 hc
      obtain ⟨s', hs', hc'⟩ := ih (s := body s)
        (fun k hk => by simpa only [Function.iterate_succ_apply] using h (k + 1) hk) (by omega)
      exact ⟨s', by rw [whileFuel, if_pos hc, hs'], hc'⟩
    · exact ⟨s, by rw [whileFuel, if_neg hc], by simpa using hc⟩

/-- An invariant that keeps the condition true: the loop never ends,
whatever the fuel. -/
theorem whileFuel_eq_none (P : σ → Prop) (h : ∀ s, P s → cond s ∧ P (body s)) {s : σ}
    (hs : P s) (fuel : Nat) : whileFuel cond body fuel s = none := by
  induction fuel generalizing s with
  | zero => rfl
  | succ fuel ih => rw [whileFuel, if_pos (h s hs).1, ih (h s hs).2]

/-- A loop whose first `k` rounds run, and which never ends from the state
they reach, never ends. -/
theorem whileFuel_eq_none_of_iterate {s : σ} {k : Nat} (hk : ∀ j < k, cond (body^[j] s))
    (hstuck : ∀ fuel, whileFuel cond body fuel (body^[k] s) = none) (fuel : Nat) :
    whileFuel cond body fuel s = none := by
  induction k generalizing s fuel with
  | zero => exact hstuck fuel
  | succ k ih =>
    cases fuel with
    | zero => rfl
    | succ fuel =>
      have hc : cond s := hk 0 (by omega)
      rw [whileFuel, if_pos hc]
      refine ih (fun j hj => ?_) (fun f => ?_) fuel
      · simpa only [Function.iterate_succ_apply] using hk (j + 1) (by omega)
      · simpa only [Function.iterate_succ_apply] using hstuck f

end WhileLoop
