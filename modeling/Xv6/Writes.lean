import Mathlib.Tactic

/-!
# Lists of block writes

A store of blocks `ℕ → α` takes a list of writes `(address, value)` one at a
time, as a disk takes the block writes of a protocol; a crash after `k` of
them leaves `apply (ws.take k) d`.  What a write list leaves at an address
depends only on the writes to that address: none leaves the old value, and
writes that all put `v` there leave `v`.
-/

namespace Writes

variable {α : Type*}

/-- The store `d` after the writes `ws`, in order. -/
def apply : List (Nat × α) → (Nat → α) → Nat → α
  | [], d => d
  | (a, v) :: ws, d => apply ws (Function.update d a v)

@[simp] theorem apply_nil (d : Nat → α) : apply [] d = d := rfl

theorem apply_cons (a : Nat) (v : α) (ws : List (Nat × α)) (d : Nat → α) :
    apply ((a, v) :: ws) d = apply ws (Function.update d a v) := rfl

theorem apply_append (ws vs : List (Nat × α)) (d : Nat → α) :
    apply (ws ++ vs) d = apply vs (apply ws d) := by
  induction ws generalizing d with
  | nil => rfl
  | cons w ws ih =>
    obtain ⟨a, v⟩ := w
    exact ih _

variable {ws : List (Nat × α)} {x : Nat} {v : α}

/-- An address no write names keeps its value. -/
theorem apply_of_forall_ne (h : ∀ w ∈ ws, w.1 ≠ x) (d : Nat → α) : apply ws d x = d x := by
  induction ws generalizing d with
  | nil => rfl
  | cons w ws ih =>
    obtain ⟨a, u⟩ := w
    have hax : a ≠ x := h (a, u) List.mem_cons_self
    rw [apply_cons, ih (fun w hw => h w (List.mem_cons_of_mem _ hw)), Function.update_of_ne hax.symm]

/-- Writes that all put `v` at `x` leave there the old value or `v`. -/
theorem apply_eq_or (h : ∀ w ∈ ws, w.1 = x → w.2 = v) (d : Nat → α) :
    apply ws d x = d x ∨ apply ws d x = v := by
  induction ws generalizing d with
  | nil => exact .inl rfl
  | cons w ws ih =>
    obtain ⟨a, u⟩ := w
    rw [apply_cons]
    rcases ih (fun w hw => h w (List.mem_cons_of_mem _ hw)) (Function.update d a u) with hd | hv
    · rw [hd]
      by_cases hax : a = x
      · subst hax
        rw [Function.update_self]
        exact .inr (h (a, u) List.mem_cons_self rfl)
      · rw [Function.update_of_ne (Ne.symm hax)]
        exact .inl rfl
    · exact .inr hv

/-- Writes that all put `v` at `x`, at least one of them, leave `v` there. -/
theorem apply_eq_of_mem (h : ∀ w ∈ ws, w.1 = x → w.2 = v) (hmem : ∃ w ∈ ws, w.1 = x)
    (d : Nat → α) : apply ws d x = v := by
  induction ws generalizing d with
  | nil => simp at hmem
  | cons w ws ih =>
    obtain ⟨a, u⟩ := w
    rw [apply_cons]
    by_cases hrest : ∃ w ∈ ws, w.1 = x
    · exact ih (fun w hw => h w (List.mem_cons_of_mem _ hw)) hrest _
    · -- the first write is the only one to `x`
      simp only [not_exists, not_and] at hrest
      obtain ⟨w, hw, hwx⟩ := hmem
      rcases List.mem_cons.mp hw with rfl | hw
      · change a = x at hwx
        subst hwx
        rw [apply_of_forall_ne hrest, Function.update_self]
        exact h (a, u) List.mem_cons_self rfl
      · exact absurd hwx (hrest w hw)

end Writes
