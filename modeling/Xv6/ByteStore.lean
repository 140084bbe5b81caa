import Mathlib.Tactic

/-!
# Byte stores

A byte store maps addresses to bytes, as a disk does when its sectors are
laid end to end.  Three encodings live in one: byte ranges written and read
at an address; bitmaps, with bit `x` kept in bit `x % 8` of byte `x / 8`
past a base address; and 32-bit words kept little-endian in four bytes.
Nothing here is about one particular file system.
-/

namespace ByteStore

variable {d : Nat → UInt8}

/-! ## Ranges -/

/-- The store with the bytes `bs` laid from address `a` on. -/
def write (d : Nat → UInt8) (a : Nat) (bs : List UInt8) : Nat → UInt8 :=
  fun p => if a ≤ p ∧ p < a + bs.length then bs.getD (p - a) 0 else d p

/-- The `n` bytes from address `a` on. -/
def read (d : Nat → UInt8) (a n : Nat) : List UInt8 :=
  (List.range n).map fun i => d (a + i)

@[simp] theorem length_read (d : Nat → UInt8) (a n : Nat) : (read d a n).length = n := by
  simp [read]

theorem getElem_read {a n i : Nat} (hi : i < (read d a n).length) :
    (read d a n)[i] = d (a + i) := by
  simp [read]

theorem write_of_not_mem {a p : Nat} {bs : List UInt8} (hp : p < a ∨ a + bs.length ≤ p) :
    write d a bs p = d p := by
  simp only [write]
  rw [if_neg (by omega)]

theorem write_of_mem {a p : Nat} {bs : List UInt8} (h₁ : a ≤ p) (h₂ : p < a + bs.length) :
    write d a bs p = bs.getD (p - a) 0 := by
  simp only [write]
  rw [if_pos ⟨h₁, h₂⟩]

/-- Reading depends only on the bytes read. -/
theorem read_congr {d' : Nat → UInt8} {a n : Nat} (h : ∀ i < n, d (a + i) = d' (a + i)) :
    read d a n = read d' a n := by
  apply List.ext_getElem (by simp)
  intro i hi _
  simp only [length_read] at hi
  rw [getElem_read, getElem_read, h i hi]

theorem read_write_self (a : Nat) (bs : List UInt8) : read (write d a bs) a bs.length = bs := by
  apply List.ext_getElem (by simp)
  intro i hi _
  simp only [length_read] at hi
  rw [getElem_read, write_of_mem (by omega) (by omega), Nat.add_sub_cancel_left]
  simp [List.getD_eq_getElem?_getD, hi]

/-- A range that does not meet the written one reads as before. -/
theorem read_write_of_disjoint {a b n : Nat} {bs : List UInt8}
    (h : b + n ≤ a ∨ a + bs.length ≤ b) : read (write d a bs) b n = read d b n :=
  read_congr fun i hi => write_of_not_mem (by omega)

/-! ## Bitmaps -/

/-- `1 << (x % 8)`, the bit of `x` within its byte. -/
def mask (x : Nat) : UInt8 := 1 <<< UInt8.ofNat (x % 8)

/-- Bit `x` of the bitmap at `base`. -/
def testBit (d : Nat → UInt8) (base x : Nat) : Bool :=
  d (base + x / 8) &&& mask x != 0

def setBit (d : Nat → UInt8) (base x : Nat) : Nat → UInt8 :=
  write d (base + x / 8) [d (base + x / 8) ||| mask x]

def clearBit (d : Nat → UInt8) (base x : Nat) : Nat → UInt8 :=
  write d (base + x / 8) [d (base + x / 8) &&& ~~~mask x]

theorem toNat_mask (x : Nat) : (mask x).toNat = 2 ^ (x % 8) := by
  have hbits : ∀ j : Fin 8, (mask j).toNat = 2 ^ (j : Nat) := by decide
  have hx := hbits ⟨x % 8, Nat.mod_lt _ (by norm_num)⟩
  simp only [mask, Nat.mod_mod] at hx ⊢
  exact hx

theorem and_two_pow_ne_zero (n i : Nat) : (n &&& 2 ^ i != 0) = n.testBit i := by
  by_cases h : n.testBit i
  · have hbit : (n &&& 2 ^ i).testBit i = true := by simp [Nat.testBit_and, h]
    have hne : n &&& 2 ^ i ≠ 0 := by
      intro hzero
      rw [hzero, Nat.zero_testBit] at hbit
      cases hbit
    simp [hne, h]
  · have hzero : n &&& 2 ^ i = 0 := by
      apply Nat.eq_of_testBit_eq
      intro j
      simp only [Nat.testBit_and, Nat.testBit_two_pow, Nat.zero_testBit]
      by_cases hj : i = j
      · subst hj
        simp [h]
      · simp [hj]
    simp [hzero, h]

/-- The bit of a byte under the mask of `x` is bit `x % 8` of its value. -/
theorem and_mask_ne_zero (b : UInt8) (x : Nat) :
    (b &&& mask x != 0) = b.toNat.testBit (x % 8) := by
  have hnat : (b &&& mask x).toNat = b.toNat &&& 2 ^ (x % 8) := by
    rw [UInt8.toNat_and, toNat_mask]
  rw [← and_two_pow_ne_zero, ← hnat]
  by_cases h : b &&& mask x = 0
  · simp [h]
  · have h' : (b &&& mask x).toNat ≠ 0 := fun h₀ => h (UInt8.toNat_inj.mp h₀)
    rw [bne_iff_ne.mpr h, bne_iff_ne.mpr h']

theorem testBit_eq (d : Nat → UInt8) (base x : Nat) :
    testBit d base x = (d (base + x / 8)).toNat.testBit (x % 8) :=
  and_mask_ne_zero _ _

theorem testBit_or_mask (b : UInt8) (i x : Nat) :
    (b ||| mask x).toNat.testBit i = (b.toNat.testBit i || decide (x % 8 = i)) := by
  rw [UInt8.toNat_or, toNat_mask, Nat.testBit_or, Nat.testBit_two_pow]

theorem testBit_and_not_mask (b : UInt8) (i x : Nat) (hi : i < 8) :
    (b &&& ~~~mask x).toNat.testBit i = (b.toNat.testBit i && decide (x % 8 ≠ i)) := by
  rw [UInt8.toNat_and, UInt8.toNat_not, toNat_mask, Nat.testBit_and]
  congr 1
  have hx : x % 8 < 8 := Nat.mod_lt _ (by norm_num)
  generalize x % 8 = j at hx ⊢
  interval_cases i <;> interval_cases j <;> decide

/-- Two numbers with the same byte and the same bit within it are one. -/
theorem eq_of_div_eight_of_mod_eight {x y : Nat} (hdiv : y / 8 = x / 8) (hmod : y % 8 = x % 8) :
    y = x := by
  omega

theorem testBit_setBit (d : Nat → UInt8) (base x y : Nat) :
    testBit (setBit d base x) base y = (testBit d base y || decide (y = x)) := by
  by_cases hdiv : y / 8 = x / 8
  · rw [testBit_eq, testBit_eq, setBit, hdiv,
      write_of_mem (Nat.le_refl _) (by simp), Nat.sub_self]
    simp only [List.getD_cons_zero]
    rw [testBit_or_mask]
    congr 1
    by_cases hmod : y % 8 = x % 8
    · simp [eq_of_div_eight_of_mod_eight hdiv hmod]
    · have hne : y ≠ x := fun h => hmod (h ▸ rfl)
      simp [hne, Ne.symm hmod]
  · have hne : y ≠ x := fun h => hdiv (h ▸ rfl)
    rw [testBit, testBit, setBit, write_of_not_mem (by simp; omega)]
    simp [hne]

theorem testBit_clearBit (d : Nat → UInt8) (base x y : Nat) :
    testBit (clearBit d base x) base y = (testBit d base y && decide (y ≠ x)) := by
  by_cases hdiv : y / 8 = x / 8
  · rw [testBit_eq, testBit_eq, clearBit, hdiv,
      write_of_mem (Nat.le_refl _) (by simp), Nat.sub_self]
    simp only [List.getD_cons_zero]
    rw [testBit_and_not_mask _ _ _ (Nat.mod_lt _ (by norm_num))]
    congr 1
    by_cases hmod : y % 8 = x % 8
    · simp [eq_of_div_eight_of_mod_eight hdiv hmod]
    · have hne : y ≠ x := fun h => hmod (h ▸ rfl)
      simp [hne, Ne.symm hmod]
  · have hne : y ≠ x := fun h => hdiv (h ▸ rfl)
    rw [testBit, testBit, clearBit, write_of_not_mem (by simp; omega)]
    simp [hne]

theorem setBit_of_ne {base x p : Nat} (hp : p ≠ base + x / 8) : setBit d base x p = d p :=
  write_of_not_mem (by simp; omega)

theorem clearBit_of_ne {base x p : Nat} (hp : p ≠ base + x / 8) : clearBit d base x p = d p :=
  write_of_not_mem (by simp; omega)

/-! ## Words -/

/-- The four little-endian bytes of a 32-bit word. -/
def wordBytes (x : Nat) : List UInt8 :=
  [UInt8.ofNat x, UInt8.ofNat (x / 2 ^ 8), UInt8.ofNat (x / 2 ^ 16), UInt8.ofNat (x / 2 ^ 24)]

/-- The 32-bit word whose little-endian bytes start `bs`. -/
def wordOf (bs : List UInt8) : Nat :=
  (bs.getD 0 0).toNat + 2 ^ 8 * (bs.getD 1 0).toNat + 2 ^ 16 * (bs.getD 2 0).toNat +
    2 ^ 24 * (bs.getD 3 0).toNat

@[simp] theorem length_wordBytes (x : Nat) : (wordBytes x).length = 4 := rfl

theorem wordOf_wordBytes {x : Nat} (h : x < 2 ^ 32) : wordOf (wordBytes x) = x := by
  simp only [wordOf, wordBytes, List.getD_cons_zero, List.getD_cons_succ, UInt8.toNat_ofNat']
  omega

theorem wordOf_lt (bs : List UInt8) : wordOf bs < 2 ^ 32 := by
  have h₀ := (bs.getD 0 0).toNat_lt
  have h₁ := (bs.getD 1 0).toNat_lt
  have h₂ := (bs.getD 2 0).toNat_lt
  have h₃ := (bs.getD 3 0).toNat_lt
  simp only [wordOf]
  omega

/-- The word kept at address `a`. -/
def word (d : Nat → UInt8) (a : Nat) : Nat := wordOf (read d a 4)

/-- The store with the word `x` kept at address `a`. -/
def setWord (d : Nat → UInt8) (a x : Nat) : Nat → UInt8 := write d a (wordBytes x)

theorem word_lt (d : Nat → UInt8) (a : Nat) : word d a < 2 ^ 32 := wordOf_lt _

theorem word_setWord_self {a x : Nat} (h : x < 2 ^ 32) : word (setWord d a x) a = x := by
  rw [word, setWord, ← length_wordBytes x, read_write_self, wordOf_wordBytes h]

/-- A word whose bytes the write does not reach reads as before. -/
theorem word_write_of_disjoint {a b : Nat} {bs : List UInt8} (h : b + 4 ≤ a ∨ a + bs.length ≤ b) :
    word (write d a bs) b = word d b := by
  rw [word, word, read_write_of_disjoint h]

theorem word_setWord_of_disjoint {a b x : Nat} (h : b + 4 ≤ a ∨ a + 4 ≤ b) :
    word (setWord d a x) b = word d b :=
  word_write_of_disjoint (by simpa using h)

/-- A word inside a range filled with zeros reads zero. -/
theorem word_write_zeros {a b n : Nat} (h₁ : a ≤ b) (h₂ : b + 4 ≤ a + n) :
    word (write d a (List.replicate n 0)) b = 0 := by
  have hread : read (write d a (List.replicate n 0)) b 4 = List.replicate 4 0 := by
    apply List.ext_getElem (by simp)
    intro i hi _
    simp only [length_read] at hi
    rw [getElem_read, List.getElem_replicate, write_of_mem (by omega) (by simp; omega)]
    simp [List.getD_eq_getElem?_getD, show b + i - a < n by omega]
  rw [word, hread]
  rfl

end ByteStore
