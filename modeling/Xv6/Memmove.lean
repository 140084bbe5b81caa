import Xv6.ByteStore

/-!
# `memmove`

The kernel's `memmove` in `string.c` copies `n` bytes from `src` to `dst`
forward, unless `src` lies below `dst` within `n` bytes of it: then it
copies backward from the ends, so that no byte is overwritten before it is
read.  Either way it leaves at `dst` the bytes that were at `src`, and
changes nothing else: the result is `write m dst (read m src n)`.

The `memmove` of `ulib.c` copies forward only.  That does the same when
`dst` is at or below `src` or the ranges are apart; when
`src < dst < src + n` the loop reads bytes it has already written, and the
byte `dst - src` past `dst` gets the byte from `src` again
(`userMemmove_overlap`).

Addresses are naturals: a range is `[a, a + n)` with no wrap past the top
of the address space.
-/

namespace Xv6.Memmove

open ByteStore

/-- `while(n-- > 0) *d++ = *s++;` from `d` and `s`. -/
def copyForward (m : Nat → UInt8) (d s : Nat) : Nat → Nat → UInt8
  | 0 => m
  | n + 1 => copyForward (Function.update m d (m s)) (d + 1) (s + 1) n

/-- `while(n-- > 0) *--d = *--s;` from the ends `d` and `s`. -/
def copyBackward (m : Nat → UInt8) (d s : Nat) : Nat → Nat → UInt8
  | 0 => m
  | n + 1 => copyBackward (Function.update m (d - 1) (m (s - 1))) (d - 1) (s - 1) n

/-- The kernel's `memmove(dst, src, n)`, as the memory it leaves. -/
def memmove (m : Nat → UInt8) (dst src n : Nat) : Nat → UInt8 :=
  if src < dst ∧ src + n > dst then copyBackward m (dst + n) (src + n) n
  else copyForward m dst src n

/-- The `memmove` of `ulib.c`: its count is an `int`, and the loop runs
while it is positive. -/
def userMemmove (m : Nat → UInt8) (dst src : Nat) (n : Int) : Nat → UInt8 :=
  copyForward m dst src n.toNat

section Loops

variable {m : Nat → UInt8} {d s n : Nat}

/-- The store with `n` bytes from `s` laid at `d`, byte by byte. -/
theorem write_read_apply (m' : Nat → UInt8) (p : Nat) :
    write m d (read m' s n) p = if d ≤ p ∧ p < d + n then m' (s + (p - d)) else m p := by
  simp only [write, length_read]
  split_ifs with h
  · rw [List.getD_eq_getElem?_getD, List.getElem?_eq_getElem (by simp; omega), getElem_read,
      Option.getD_some]
  · rfl

/-- The forward loop copies right when it never reads a byte it wrote:
`d` is at or below `s`, or the ranges are apart. -/
theorem copyForward_eq (h : d ≤ s ∨ s + n ≤ d) :
    copyForward m d s n = write m d (read m s n) := by
  induction n generalizing m d s with
  | zero =>
    funext p
    simp [copyForward, write_read_apply]
  | succ n ih =>
    rw [copyForward, ih (by omega)]
    funext p
    simp only [write_read_apply, Function.update_apply]
    -- the first round writes `d`; the rest read only bytes past what they wrote
    by_cases hp : p = d
    · subst hp
      simp
    · split_ifs <;> first | omega | (congr 1; omega) | rfl

/-- The backward loop copies right when it never reads a byte it wrote:
`s` is at or below `d`, or the ranges are apart. -/
theorem copyBackward_eq (h : s ≤ d ∨ d + n ≤ s) :
    copyBackward m (d + n) (s + n) n = write m d (read m s n) := by
  induction n generalizing m with
  | zero =>
    funext p
    simp [copyBackward, write_read_apply]
  | succ n ih =>
    rw [copyBackward, show d + (n + 1) - 1 = d + n by omega,
      show s + (n + 1) - 1 = s + n by omega, ih (by omega)]
    funext p
    simp only [write_read_apply, Function.update_apply]
    -- the first round writes `d + n`; the rest read only bytes below it
    split_ifs <;> first | omega | (congr 1; omega) | rfl

/-- The forward loop changes nothing below `d`. -/
theorem copyForward_of_lt {p : Nat} (hp : p < d) : copyForward m d s n p = m p := by
  induction n generalizing m d s with
  | zero => rfl
  | succ n ih =>
    rw [copyForward, ih (by omega), Function.update_of_ne (by omega)]

/-- Its first round is final at `d`. -/
theorem copyForward_succ_self : copyForward m d s (n + 1) d = m s := by
  rw [copyForward, copyForward_of_lt (by omega), Function.update_self]

/-- A forward copy of `a + b` bytes is one of `a` bytes, then one of `b`. -/
theorem copyForward_add (a b : Nat) :
    copyForward m d s (a + b) = copyForward (copyForward m d s a) (d + a) (s + a) b := by
  induction a generalizing m d s with
  | zero => rw [Nat.zero_add]; rfl
  | succ a ih =>
    rw [Nat.add_right_comm, copyForward, copyForward, ih]
    congr 1 <;> omega

end Loops

/-- Both directions of the kernel's `memmove` leave the bytes from `src` at
`dst`. -/
theorem memmove_eq (m : Nat → UInt8) (dst src n : Nat) :
    memmove m dst src n = write m dst (read m src n) := by
  unfold memmove
  split_ifs with h
  · exact copyBackward_eq (.inl (Nat.le_of_lt h.1))
  · exact copyForward_eq (by omega)

theorem memmove_copies (m : Nat → UInt8) (dst src n : Nat) :
    (∀ i < n, memmove m dst src n (dst + i) = m (src + i)) ∧
      (∀ p, p < dst ∨ dst + n ≤ p → memmove m dst src n p = m p) ∧
      (dst ≤ src ∨ src + n ≤ dst ∨ dst + n ≤ src →
        userMemmove m dst src n = memmove m dst src n) := by
  refine ⟨fun i hi => ?_, fun p hp => ?_, fun h => ?_⟩
  · rw [memmove_eq, write_read_apply, if_pos (by omega), Nat.add_sub_cancel_left]
  · rw [memmove_eq, write_read_apply, if_neg (by omega)]
  · rw [userMemmove, Int.toNat_natCast, memmove_eq]
    exact copyForward_eq (by omega)

/-- On ranges with `src < dst < src + n`, the forward copy of `ulib.c`
reads at `dst` the byte it wrote there, and puts the byte from `src`, not
the one from `dst`, at `dst + (dst - src)`. -/
theorem userMemmove_overlap (m : Nat → UInt8) {dst src n : Nat} (h₁ : src < dst)
    (h₂ : dst < src + n) : userMemmove m dst src n (dst + (dst - src)) = m src := by
  -- the first `dst - src` rounds copy apart; the next one reads `dst`
  have hsplit : n = (dst - src) + ((n - (dst - src) - 1) + 1) := by omega
  rw [userMemmove, Int.toNat_natCast, hsplit, copyForward_add, copyForward_succ_self,
    show src + (dst - src) = dst by omega, copyForward_eq (by omega), write_read_apply,
    if_pos (by omega), Nat.sub_self, Nat.add_zero]

end Xv6.Memmove
