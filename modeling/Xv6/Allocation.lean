import Mathlib.Tactic

/-!
# Allocators and the references to what they hand out

An allocator hands out numbered resources and keeps a map `used` of those it
has handed out; its client keeps at each of its positions `i` a reference
`ref i`, with `0` for none.  The allocator is sound for its client when every
reference is to a used resource and no resource is referenced from two
positions.  Then a resource the allocator sees as unused is referenced
nowhere, so handing it out makes no alias, and releasing a referenced
resource never releases an unused one.  Soundness says nothing of used
resources that nothing references: those are leaked.
-/

namespace Allocation

variable {ι : Type*} {ref ref' : ι → Nat} {used used' : Nat → Bool}

structure Sound (ref : ι → Nat) (used : Nat → Bool) : Prop where
  used_of_ne_zero : ∀ i, ref i ≠ 0 → used (ref i) = true
  injective : ∀ i j, ref i = ref j → ref i ≠ 0 → i = j

namespace Sound

/-- An unused resource is referenced nowhere. -/
theorem ne_of_not_used (h : Sound ref used) {x : Nat} (hx : used x = false) (hx0 : x ≠ 0)
    (i : ι) : ref i ≠ x := by
  intro hi
  have := h.used_of_ne_zero i (hi ▸ hx0)
  rw [hi, hx] at this
  cases this

/-- Giving a position without a resource one that is used and referenced
nowhere. -/
theorem assign_of_used [DecidableEq ι] (h : Sound ref used) {i : ι} {x : Nat} (hi : ref i = 0)
    (hfresh : ∀ j, ref j ≠ x) (hx : used x = true) : Sound (Function.update ref i x) used := by
  constructor
  · intro j hj
    by_cases hji : j = i
    · subst hji
      rw [Function.update_self]
      exact hx
    · rw [Function.update_of_ne hji] at hj ⊢
      exact h.used_of_ne_zero j hj
  · intro j k hjk hj
    by_cases hji : j = i <;> by_cases hki : k = i
    · rw [hji, hki]
    · subst hji
      rw [Function.update_self, Function.update_of_ne hki] at hjk
      exact absurd hjk.symm (hfresh k)
    · subst hki
      rw [Function.update_self, Function.update_of_ne hji] at hjk
      exact absurd hjk (hfresh j)
    · rw [Function.update_of_ne hji, Function.update_of_ne hki] at hjk
      rw [Function.update_of_ne hji] at hj
      exact h.injective j k hjk hj

/-- Releasing the resource of a position and clearing the position. -/
theorem release [DecidableEq ι] (h : Sound ref used) (i : ι) :
    Sound (Function.update ref i 0) (Function.update used (ref i) false) := by
  constructor
  · intro j hj
    have hji : j ≠ i := fun hji => hj (by rw [hji, Function.update_self])
    rw [Function.update_of_ne hji] at hj ⊢
    have hne : ref j ≠ ref i := fun he => hji (h.injective j i he hj)
    rw [Function.update_of_ne hne]
    exact h.used_of_ne_zero j hj
  · intro j k hjk hj
    have hji : j ≠ i := fun hji => hj (by rw [hji, Function.update_self])
    have hki : k ≠ i := fun hki => hj (by rw [hjk, hki, Function.update_self])
    rw [Function.update_of_ne hji, Function.update_of_ne hki] at hjk
    rw [Function.update_of_ne hji] at hj
    exact h.injective j k hjk hj

/-- Dropping references keeps soundness (and may leak what they held). -/
theorem of_le (h : Sound ref used) (hle : ∀ i, ref' i ≠ 0 → ref' i = ref i) :
    Sound ref' used := by
  constructor
  · intro i hi
    rw [hle i hi]
    exact h.used_of_ne_zero i (hle i hi ▸ hi)
  · intro i j hij hi
    have hj : ref' j ≠ 0 := hij ▸ hi
    have hij' : ref i = ref j := by rw [← hle i hi, ← hle j hj, hij]
    exact h.injective i j hij' (hle i hi ▸ hi)

/-- Marking more resources used keeps soundness. -/
theorem of_used_le (h : Sound ref used) (hle : ∀ b, used b = true → used' b = true) :
    Sound ref used' :=
  ⟨fun i hi => hle _ (h.used_of_ne_zero i hi), h.injective⟩

theorem congr (h : Sound ref used) (href : ∀ i, ref' i = ref i) (hused : ∀ b, used' b = used b) :
    Sound ref' used' := by
  have hr : ref' = ref := funext href
  have hu : used' = used := funext hused
  rw [hr, hu]
  exact h

end Sound

/-! ## Counting what is free -/

/-- The number of unused resources below `n`. -/
def free (used : Nat → Bool) (n : Nat) : Nat := ((List.range n).filter fun b => !used b).length

theorem free_congr {n : Nat} (h : ∀ b < n, used' b = used b) : free used' n = free used n := by
  simp only [free]
  congr 1
  apply List.filter_congr
  intro b hb
  rw [h b (List.mem_range.mp hb)]

theorem free_update_true {x n : Nat} (hx : used x = false) (hxn : x < n) :
    free (Function.update used x true) n + 1 = free used n := by
  induction n with
  | zero => omega
  | succ n ih =>
    simp only [free, List.range_succ, List.filter_append, List.length_append] at ih ⊢
    by_cases hxe : x = n
    · subst hxe
      have hlow : free (Function.update used x true) x = free used x :=
        free_congr fun b hb => Function.update_of_ne (Nat.ne_of_lt hb) _ _
      simp only [free] at hlow
      simp [hlow, hx]
    · have hn : Function.update used x true n = used n := Function.update_of_ne (Ne.symm hxe) _ _
      have := ih (by omega)
      simp only [List.filter_cons, List.filter_nil, hn]
      omega

theorem exists_not_used_of_free_pos {n : Nat} (h : 0 < free used n) :
    ∃ b < n, used b = false := by
  simp only [free, List.length_pos_iff_exists_mem, List.mem_filter, List.mem_range,
    Bool.not_eq_eq_eq_not, Bool.not_true] at h
  exact h

/-- The number of positions that hold a resource, for finitely many
positions. -/
def nheld [Fintype ι] (ref : ι → Nat) : Nat := (Finset.univ.filter fun i => ref i ≠ 0).card

theorem nheld_update_of_eq_zero [Fintype ι] [DecidableEq ι] {i : ι} {x : Nat} (hi : ref i = 0)
    (hx : x ≠ 0) : nheld (Function.update ref i x) = nheld ref + 1 := by
  have hset : (Finset.univ.filter fun j => Function.update ref i x j ≠ 0) =
      insert i (Finset.univ.filter fun j => ref j ≠ 0) := by
    ext j
    by_cases hj : j = i
    · subst hj
      simp [hx]
    · simp [hj]
  rw [nheld, hset, Finset.card_insert_of_notMem (by simp [hi])]
  rfl

theorem nheld_lt_card [Fintype ι] {i : ι} (hi : ref i = 0) : nheld ref < Fintype.card ι :=
  Finset.card_lt_univ_of_notMem (x := i) (by simp [hi])

/-- Handing out an unused resource to an empty position moves one resource
from the free ones to the held ones. -/
theorem free_add_nheld_assign [Fintype ι] [DecidableEq ι] {i : ι} {x n : Nat} (hi : ref i = 0)
    (hx0 : x ≠ 0) (hx : used x = false) (hxn : x < n) :
    free (Function.update used x true) n + nheld (Function.update ref i x) = free used n + nheld ref := by
  rw [nheld_update_of_eq_zero hi hx0, ← free_update_true hx hxn]
  omega

end Allocation
