import Mathlib.Tactic

/-!
# Circular buffers

A store of `cap` cells used as a circular buffer: its contents are the
`count` cells from position `head` on, read at `(head + i) % cap`.  Writing
the cell after the last one appends to the contents, and advancing the head
drops the first; a write anywhere else, and a head that moves by a multiple
of `cap`, change nothing.
-/

namespace Ring

variable {β : Type*} (cap : Nat)

/-- The contents of the circular buffer `d` of `cap` cells, `count` cells from `head` on. -/
def view (d : Nat → β) (head count : Nat) : List β :=
  (List.range count).map fun i => d ((head + i) % cap)

variable {cap} {d : Nat → β} {head count : Nat}

@[simp] theorem length_view : (view cap d head count).length = count := by
  simp [view]

@[simp] theorem view_zero : view cap d head 0 = [] := rfl

theorem view_congr_head {head' : Nat} (h : head % cap = head' % cap) :
    view cap d head count = view cap d head' count := by
  apply List.map_congr_left
  intro i _
  rw [Nat.add_mod, h, ← Nat.add_mod]

/-- Two cells fewer than `cap` apart are different cells. -/
theorem mod_ne {i : Nat} (hcount : count < cap) (hi : i < count) :
    (head + i) % cap ≠ (head + count) % cap := by
  intro he
  have hd : cap ∣ (head + count) - (head + i) :=
    Nat.dvd_of_mod_eq_zero (Nat.sub_mod_eq_zero_of_mod_eq he.symm)
  have : (head + count) - (head + i) = 0 := Nat.eq_zero_of_dvd_of_lt hd (by omega)
  omega

theorem view_update_of_ne {x : Nat} (h : ∀ i < count, (head + i) % cap ≠ x) (v : β) :
    view cap (Function.update d x v) head count = view cap d head count := by
  apply List.map_congr_left
  intro i hi
  exact Function.update_of_ne (h i (List.mem_range.mp hi)) _ _

/-- Writing the cell after the contents appends to them. -/
theorem view_push (hcount : count < cap) (v : β) :
    view cap (Function.update d ((head + count) % cap) v) head (count + 1) =
      view cap d head count ++ [v] := by
  have hkeep : view cap (Function.update d ((head + count) % cap) v) head count =
      view cap d head count :=
    view_update_of_ne (fun i hi => mod_ne hcount hi) v
  rw [view, List.range_succ, List.map_append, ← view, hkeep]
  simp

/-- The contents split after `a` cells. -/
theorem view_add (a b : Nat) :
    view cap d head (a + b) = view cap d head a ++ view cap d (head + a) b := by
  simp only [view, List.range_add, List.map_append, List.map_map]
  congr 1
  apply List.map_congr_left
  intro i _
  simp only [Function.comp, Nat.add_assoc]

/-- The contents, and the cell after them. -/
theorem view_concat : view cap d head (count + 1) = view cap d head count ++ [d ((head + count) % cap)] := by
  rw [view_add]
  simp [view]

/-- The first cell of the contents, and the contents after it. -/
theorem view_succ : view cap d head (count + 1) = d (head % cap) :: view cap d (head + 1) count := by
  simp only [view, List.range_succ_eq_map, List.map_cons, List.map_map, Nat.add_zero]
  congr 1
  apply List.map_congr_left
  intro i _
  simp only [Function.comp, Nat.add_assoc, Nat.add_comm 1 i]

end Ring
