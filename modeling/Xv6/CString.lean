import Xv6.Param

/-!
# C strings

The string routines of `string.c` over byte lists.  A list stands for the
bytes at a pointer; its end reads as a NUL, so a C string is the prefix of
its list before the first zero byte (`cstr`).  `strncmp` compares the first
`n` bytes of two such strings and `strncpy` fills exactly `n` bytes.
-/

namespace Xv6

/-- The string a byte list holds: the bytes before its first NUL. -/
def cstr (s : List UInt8) : List UInt8 :=
  s.takeWhile (· ≠ 0)

def strlen : List UInt8 → Nat
  | [] => 0
  | c :: s => if c = 0 then 0 else strlen s + 1

def strncmp : Nat → List UInt8 → List UInt8 → Int
  | 0, _, _ => 0
  | n + 1, p, q =>
      match p, q with
      | a :: p, b :: q =>
          if a ≠ 0 ∧ a = b then strncmp n p q else (a.toNat : Int) - b.toNat
      | a :: _, [] => a.toNat
      | [], b :: _ => -(b.toNat : Int)
      | [], [] => 0

def strncpy : Nat → List UInt8 → List UInt8
  | 0, _ => []
  | n + 1, [] => List.replicate (n + 1) 0
  | n + 1, c :: t => if c = 0 then List.replicate (n + 1) 0 else c :: strncpy n t

/-! ## The string a list holds -/

@[simp] theorem cstr_nil : cstr [] = [] := rfl

theorem cstr_cons (c : UInt8) (s : List UInt8) :
    cstr (c :: s) = if c = 0 then [] else c :: cstr s := by
  by_cases hc : c = 0 <;> simp [cstr, hc]

theorem zero_not_mem_cstr (s : List UInt8) : (0 : UInt8) ∉ cstr s := by
  induction s with
  | nil => simp
  | cons c s ih =>
      rw [cstr_cons]
      split_ifs with hc
      · simp
      · simp only [List.mem_cons, not_or]
        exact ⟨fun h => hc h.symm, ih⟩

theorem cstr_eq_self {s : List UInt8} (hs : (0 : UInt8) ∉ s) : cstr s = s := by
  induction s with
  | nil => rfl
  | cons c s ih =>
      simp only [List.mem_cons, not_or] at hs
      rw [cstr_cons, if_neg (Ne.symm hs.1), ih hs.2]

theorem cstr_append_of_zero_not_mem {s : List UInt8} (hs : (0 : UInt8) ∉ s)
    (t : List UInt8) : cstr (s ++ t) = s ++ cstr t := by
  induction s with
  | nil => rfl
  | cons c s ih =>
      simp only [List.mem_cons, not_or] at hs
      rw [List.cons_append, cstr_cons, if_neg (Ne.symm hs.1), ih hs.2,
        List.cons_append]

theorem strlen_eq_length_cstr (s : List UInt8) : strlen s = (cstr s).length := by
  induction s with
  | nil => rfl
  | cons c s ih =>
      rw [strlen, cstr_cons]
      split_ifs <;> simp [ih]

/-! ## `strncmp` -/

/-- `strncmp` reports equality exactly when the two strings agree on their
first `n` bytes. -/
theorem strncmp_eq_zero_iff (n : Nat) (p q : List UInt8) :
    strncmp n p q = 0 ↔ (cstr p).take n = (cstr q).take n := by
  induction n generalizing p q with
  | zero => simp [strncmp]
  | succ n ih =>
      cases p with
      | nil =>
          cases q with
          | nil => simp [strncmp]
          | cons b q =>
              by_cases hb : b = 0
              · simp [strncmp, hb, cstr_cons]
              · have hb' : b.toNat ≠ 0 := fun h => hb (UInt8.toNat_inj.mp h)
                simp [strncmp, cstr_cons, hb, hb']
      | cons a p =>
          cases q with
          | nil =>
              by_cases ha : a = 0
              · simp [strncmp, ha, cstr_cons]
              · have ha' : a.toNat ≠ 0 := fun h => ha (UInt8.toNat_inj.mp h)
                simp [strncmp, cstr_cons, ha, ha']
          | cons b q =>
              simp only [strncmp]
              by_cases hstep : a ≠ 0 ∧ a = b
              · obtain ⟨ha, rfl⟩ := hstep
                rw [if_pos ⟨ha, rfl⟩, ih]
                simp only [cstr_cons, if_neg ha, List.take_succ_cons,
                  List.cons.injEq, true_and]
              · rw [if_neg hstep]
                have hcases : a = b ∧ a = 0 ∨ a ≠ b := by
                  by_cases hab : a = b
                  · exact Or.inl ⟨hab, by by_contra ha; exact hstep ⟨ha, hab⟩⟩
                  · exact Or.inr hab
                rcases hcases with ⟨rfl, rfl⟩ | hab
                · simp [cstr_cons]
                · have hne : (a.toNat : Int) - b.toNat ≠ 0 := by
                    intro h
                    apply hab
                    apply UInt8.toNat_inj.mp
                    omega
                  simp only [hne, false_iff]
                  intro htake
                  rw [cstr_cons, cstr_cons] at htake
                  split_ifs at htake with ha hb hb <;> simp_all

theorem strncmp_comm_eq_zero (n : Nat) (p q : List UInt8) :
    strncmp n p q = 0 ↔ strncmp n q p = 0 := by
  rw [strncmp_eq_zero_iff, strncmp_eq_zero_iff, eq_comm]

/-! ## `strncpy` -/

@[simp] theorem length_strncpy (n : Nat) (t : List UInt8) :
    (strncpy n t).length = n := by
  induction n generalizing t with
  | zero => rfl
  | succ n ih =>
      cases t with
      | nil => simp [strncpy]
      | cons c t =>
          simp only [strncpy]
          split_ifs <;> simp [ih]

/-- The string `strncpy` leaves in its `n` bytes is the source string cut
to `n` bytes. -/
theorem cstr_strncpy (n : Nat) (t : List UInt8) :
    cstr (strncpy n t) = (cstr t).take n := by
  induction n generalizing t with
  | zero => simp [strncpy, cstr]
  | succ n ih =>
      cases t with
      | nil => simp [strncpy, List.replicate_succ, cstr_cons]
      | cons c t =>
          by_cases hc : c = 0
          · simp [strncpy, hc, List.replicate_succ, cstr_cons]
          · simp [strncpy, hc, cstr_cons, ih]

/-- `strncpy` reads its source only up to the first NUL. -/
theorem strncpy_cstr (n : Nat) (t : List UInt8) : strncpy n (cstr t) = strncpy n t := by
  induction n generalizing t with
  | zero => rfl
  | succ n ih =>
      cases t with
      | nil => rfl
      | cons c t =>
          by_cases hc : c = 0
          · simp [strncpy, cstr_cons, hc]
          · simp [strncpy, cstr_cons, hc, ih]

theorem strncpy_of_length_lt {t : List UInt8} {n : Nat} (hz : (0 : UInt8) ∉ t)
    (hlen : t.length < n) :
    strncpy n t = t ++ List.replicate (n - t.length) 0 := by
  induction t generalizing n with
  | nil =>
      cases n with
      | zero => simp at hlen
      | succ n => simp [strncpy]
  | cons c t ih =>
      simp only [List.mem_cons, not_or] at hz
      cases n with
      | zero => simp at hlen
      | succ n =>
          simp only [List.length_cons] at hlen
          simp only [strncpy, if_neg (Ne.symm hz.1), List.cons_append,
            List.length_cons]
          rw [ih hz.2 (by omega), Nat.add_sub_add_right]

end Xv6
