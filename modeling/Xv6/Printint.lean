import Mathlib.Data.Nat.Digits.Lemmas

/-!
# Integer formatting (`printint`)

`printf.c` and `console.c` each have a `printint`: the user library's
writes to a descriptor with the digits `0123456789ABCDEF`, the kernel's to
the console with `0123456789abcdef`; otherwise they are one function.  The
value becomes an unsigned `x`, negated first when the sign flag is set and
the value is negative; a do-while loop writes `digits[x % base]` at
`buf[i++]` and divides `x` by `base` until it is zero; a `-` follows, and
the buffer is emitted from its end.

`printint_digits` says what both emit for base 10 or 16 and every 32-bit
value: the digits of the value, most significant first and without leading
zeros, after a `-` for a negative signed value.  `INT_MIN` is negated by
the 32-bit wrap into `2 ^ 31`, and the 16 positions of `buf` always
suffice.
-/

namespace Xv6

namespace Fmt

/-- The positions of `buf`. -/
def bufsize : Nat := 16

/-- The do-while loop with `room` positions of `buf` left: each round writes
`digits[x % base]` and divides `x` by `base`, until `x` is zero.  `none` is
a write past the end of `buf`, or a read past the digit table. -/
def digitLoop (digits : List Char) (base : UInt32) : Nat → UInt32 → List Char → Option (List Char)
  | 0, _, _ => none
  | room + 1, x, buf => do
    let c ← digits[(x % base).toNat]?
    if x / base ≠ 0 then digitLoop digits base room (x / base) (buf ++ [c])
    else some (buf ++ [c])

/-- `printint` with the digit table `digits`: the characters it emits.
`base` is an `int` that `x % base` converts to `uint`. -/
def printint (digits : List Char) (xx base : Int32) (sgn : Bool) : Option (List Char) := do
  let neg := sgn && decide (xx < 0)
  let x : UInt32 := if neg then (-xx).toUInt32 else xx.toUInt32
  let buf ← digitLoop digits base.toUInt32 bufsize x []
  let buf ← if neg then (if buf.length < bufsize then some (buf ++ ['-']) else none) else some buf
  return buf.reverse

end Fmt

namespace Printf

/-- `digits[]` of `printf.c`. -/
def digits : List Char := "0123456789ABCDEF".toList

/-- `printint(fd, xx, base, sgn)`: the characters it writes to `fd`. -/
def printint (xx base : Int32) (sgn : Bool) : Option (List Char) :=
  Fmt.printint digits xx base sgn

end Printf

namespace Console

/-- `digits[]` of `console.c`. -/
def digits : List Char := "0123456789abcdef".toList

/-- `printint(xx, base, sign)`: the characters it passes to `consputc`. -/
def printint (xx base : Int32) (sign : Bool) : Option (List Char) :=
  Fmt.printint digits xx base sign

end Console

namespace Fmt

/-! ## What is printed -/

/-- The digits of `n` in base `b`, least significant first; `[0]` for
zero. -/
def digitsLE (b n : Nat) : List Nat := if n = 0 then [0] else Nat.digits b n

/-- The numeral of `n` in base `b` written with the table `digits`: most
significant digit first, `'0'` alone for zero. -/
def numeral (digits : List Char) (b n : Nat) : List Char :=
  ((digitsLE b n).map (digits.getD · '0')).reverse

/-- What `printint` is meant to print: `xx` read as a signed integer, after
a `-` when the sign flag is set and it is negative, and read as an unsigned
32-bit integer otherwise. -/
def formatted (digits : List Char) (xx : Int32) (b : Nat) (sgn : Bool) : List Char :=
  if sgn ∧ xx < 0 then '-' :: numeral digits b xx.toInt.natAbs
  else numeral digits b xx.toUInt32.toNat

/-! ## The loop -/

section Loop

variable {b n : Nat}

/-- One round of the loop: the least significant digit, then the digits of
the quotient unless it is zero. -/
theorem digitsLE_eq (hb : 1 < b) (n : Nat) :
    digitsLE b n = n % b :: if n / b = 0 then [] else digitsLE b (n / b) := by
  by_cases hn : n = 0
  · subst hn
    simp [digitsLE]
  · rw [digitsLE, if_neg hn, Nat.digits_def' hb (Nat.pos_of_ne_zero hn)]
    by_cases hq : n / b = 0
    · simp [hq]
    · simp [hq, digitsLE]

theorem length_digitsLE_le {k : Nat} (hb : 1 < b) (hk : 1 ≤ k) (hn : n < b ^ k) :
    (digitsLE b n).length ≤ k := by
  unfold digitsLE
  split_ifs with h0
  · simpa using hk
  · exact (Nat.digits_length_le_iff hb n).mpr hn

/-- The loop writes the digits of `x`, least significant first, when `buf`
has room for them. -/
theorem digitLoop_eq {digits : List Char} {base : UInt32} (hb : 1 < base.toNat)
    (hd : base.toNat ≤ digits.length) (room : Nat) (x : UInt32) (buf : List Char)
    (hroom : (digitsLE base.toNat x.toNat).length ≤ room) :
    digitLoop digits base room x buf =
      some (buf ++ (digitsLE base.toNat x.toNat).map (digits.getD · '0')) := by
  induction room generalizing x buf with
  | zero =>
    rw [digitsLE_eq hb] at hroom
    simp at hroom
  | succ room ih =>
    have hlt : x.toNat % base.toNat < digits.length :=
      lt_of_lt_of_le (Nat.mod_lt _ (by omega)) hd
    have hc : digits[(x % base).toNat]? = some (digits.getD (x.toNat % base.toNat) '0') := by
      simp [UInt32.toNat_mod, List.getD_eq_getElem?_getD, hlt]
    rw [digitsLE_eq hb] at hroom ⊢
    simp only [digitLoop, hc, Option.bind_eq_bind, Option.bind_some]
    by_cases hq : x.toNat / base.toNat = 0
    · -- the last round: the quotient is zero
      have hq' : x / base = 0 := UInt32.toNat_inj.mp (by rw [UInt32.toNat_div, hq]; rfl)
      simp [hq, hq']
    · have hq' : x / base ≠ 0 := fun h => hq (by rw [← UInt32.toNat_div, h]; rfl)
      rw [if_pos hq', ih (x / base) _ (by simp [UInt32.toNat_div, hq] at hroom ⊢; omega)]
      simp [hq, UInt32.toNat_div]

end Loop

/-! ## The sign -/

/-- Negating a negative 32-bit value and reading it as unsigned gives its
absolute value, also for `INT_MIN`, whose negation wraps to itself. -/
theorem toUInt32_neg_toNat {x : Int32} (h : x < 0) : (-x).toUInt32.toNat = x.toInt.natAbs := by
  have hx : x.toInt = x.toBitVec.toInt := (Int32.toInt_toBitVec x).symm
  have hneg : (-x).toUInt32.toNat = (-x.toBitVec).toNat := by
    rw [← Int32.toNat_toBitVec, Int32.toBitVec_neg]
  have hlt := x.toBitVec.isLt
  have h0 : (0 : Int32).toInt = 0 := rfl
  rw [Int32.lt_iff_toInt_lt, h0, hx, BitVec.toInt_eq_toNat_cond] at h
  rw [hneg, hx, BitVec.toNat_neg, BitVec.toInt_eq_toNat_cond]
  split_ifs at h ⊢ with hc
  · omega
  · omega

theorem natAbs_toInt_le (x : Int32) : x.toInt.natAbs ≤ 2 ^ 31 := by
  have := Int32.toInt_lt x
  have := Int32.le_toInt x
  omega

/-! ## `printint` -/

/-- In base 10 or 16 a 32-bit value has at most ten digits. -/
theorem length_digitsLE_le_ten {b n : Nat} (hb : b = 10 ∨ b = 16) (hn : n < 2 ^ 32) :
    (digitsLE b n).length ≤ 10 := by
  rcases hb with rfl | rfl
  · exact length_digitsLE_le (by decide) (by decide) (by omega)
  · exact (length_digitsLE_le (k := 8) (by decide) (by decide) (by omega)).trans (by decide)

theorem printint_eq {digits : List Char} (hd : 16 ≤ digits.length) (xx base : Int32) (sgn : Bool)
    (hb : base = 10 ∨ base = 16) :
    printint digits xx base sgn = some (formatted digits xx base.toUInt32.toNat sgn) := by
  have hbase : base.toUInt32.toNat = 10 ∨ base.toUInt32.toNat = 16 := by
    rcases hb with rfl | rfl <;> decide
  have hb1 : 1 < base.toUInt32.toNat := by omega
  have hbd : base.toUInt32.toNat ≤ digits.length := by omega
  unfold printint formatted numeral
  by_cases hneg : sgn = true ∧ xx < 0
  · -- a negative signed value: its absolute value, then the sign
    obtain ⟨rfl, hx⟩ := hneg
    have hn : (-xx).toUInt32.toNat = xx.toInt.natAbs := toUInt32_neg_toNat hx
    have hlen := length_digitsLE_le_ten hbase (n := xx.toInt.natAbs)
      (by have := natAbs_toInt_le xx; omega)
    simp only [hx, decide_true, Bool.and_self, ite_true, true_and]
    rw [digitLoop_eq hb1 hbd bufsize _ [] (by rw [hn]; simp only [bufsize]; omega)]
    simp only [hn, List.nil_append, List.length_map, Option.bind_eq_bind, Option.bind_some,
      bufsize, show (digitsLE base.toUInt32.toNat xx.toInt.natAbs).length < 16 by omega, ite_true,
      List.reverse_append]
    rfl
  · have hlen := length_digitsLE_le_ten hbase xx.toUInt32.toNat_lt
    have hneg' : (sgn && decide (xx < 0)) = false := by
      cases sgn <;> simp_all
    rw [if_neg hneg]
    simp only [hneg', Bool.false_eq_true, ite_false]
    rw [digitLoop_eq hb1 hbd bufsize _ [] (by simp only [bufsize]; omega)]
    rfl

end Fmt

/-- Both `printint`s print, for base 10 or 16 and every 32-bit value, the
digits of the value, most significant first and without leading zeros,
after a `-` when the sign flag is set and the value is negative (`INT_MIN`
included), and of the value read as unsigned otherwise; their 16-position
buffers always suffice. -/
theorem printint_digits (xx base : Int32) (sgn : Bool) (hb : base = 10 ∨ base = 16) :
    Printf.printint xx base sgn = some (Fmt.formatted Printf.digits xx base.toUInt32.toNat sgn) ∧
    Console.printint xx base sgn =
      some (Fmt.formatted Console.digits xx base.toUInt32.toNat sgn) :=
  ⟨Fmt.printint_eq (by decide) xx base sgn hb, Fmt.printint_eq (by decide) xx base sgn hb⟩

/-- `cprintf("%d", INT_MIN)`: the negation wraps to `2 ^ 31`, whose ten
digits follow the `-`. -/
theorem printint_int_min :
    Console.printint Int32.minValue 10 true = some "-2147483648".toList := by
  have hneg : Int32.minValue < 0 := by decide
  have habs : Int32.minValue.toInt.natAbs = 2147483648 := by decide
  have hbase : (10 : Int32).toUInt32.toNat = 10 := by decide
  have hdigits : Nat.digits 10 2147483648 = [8, 4, 6, 3, 8, 4, 7, 4, 1, 2] := by norm_num
  rw [(printint_digits Int32.minValue 10 true (.inl rfl)).2]
  simp only [Fmt.formatted, hneg, and_self, ite_true, Fmt.numeral, Fmt.digitsLE, habs, hbase,
    hdigits, OfNat.ofNat_ne_zero, ite_false]
  rfl

end Xv6
