import Xv6.Vm

/-!
# System-call arguments (`syscall.c`)

A system call finds its arguments on the user stack and reads them with
`fetchint`, `fetchstr`, `argint`, `argptr` and `argstr`.  The kernel reads
user memory through the process's page table, which maps `[0, sz)`; the
model reads the process's memory by virtual address.  Addresses and sizes
are `uint` and the arguments `int`, so they are `UInt32` and `Int32` here,
and every sum wraps as the C one does.

`args_in_bounds` says what their checks guarantee for a process whose size
is at most `KERNBASE`: what they accept lies in `[0, sz)`, `fetchstr` returns
the distance to the first NUL below `sz`, and none of them reads a byte at
or above `sz`, whatever `%esp`, the argument index, the address or the size.
-/

namespace Xv6.Syscall

open ByteStore

/-- What the helpers read of the current process: `sz`, its memory by
virtual address, and the user `%esp` saved in its trap frame. -/
structure Proc where
  sz : UInt32
  mem : Nat → UInt8
  esp : UInt32

/-- `fetchint(addr, ip)`: the `int` at `addr`; `none` is the `-1` return. -/
def fetchint (p : Proc) (addr : UInt32) : Option Int32 :=
  if addr ≥ p.sz ∨ addr + 4 > p.sz then none
  else some (word p.mem addr.toNat).toUInt32.toInt32

/-- The loop of `fetchstr` from `s`, with `n` bytes left below `ep`: the
offset of the first NUL. -/
def nulOffset (mem : Nat → UInt8) (s : UInt32) : Nat → Option Nat
  | 0 => none
  | n + 1 => if mem s.toNat = 0 then some 0 else (nulOffset mem (s + 1) n).map (· + 1)

/-- `fetchstr(addr, pp)`: the length of the string at `addr` (`*pp` is
`addr`); `none` is the `-1` return. -/
def fetchstr (p : Proc) (addr : UInt32) : Option Nat :=
  if addr ≥ p.sz then none else nulOffset p.mem addr (p.sz - addr).toNat

/-- `argint(n, ip)`: the `n`th argument, above the return address at
`%esp`. -/
def argint (p : Proc) (n : Int32) : Option Int32 :=
  fetchint p (p.esp + 4 + (4 * n).toUInt32)

/-- `argptr(n, pp, size)`: the `n`th argument as a pointer to `size`
bytes. -/
def argptr (p : Proc) (n size : Int32) : Option UInt32 := do
  let i ← argint p n
  if size < 0 ∨ i.toUInt32 ≥ p.sz ∨ i.toUInt32 + size.toUInt32 > p.sz then none
  else some i.toUInt32

/-- `argstr(n, pp)`: the `n`th argument as a string pointer, with the
string's length. -/
def argstr (p : Proc) (n : Int32) : Option (UInt32 × Nat) := do
  let addr ← argint p n
  let len ← fetchstr p addr.toUInt32
  return (addr.toUInt32, len)

/-- The string at `addr` has length `len`: a NUL at `addr + len` below
`sz`, and none before it. -/
def StrAt (p : Proc) (addr : UInt32) (len : Nat) : Prop :=
  addr.toNat + len < p.sz.toNat ∧ p.mem (addr.toNat + len) = 0 ∧
    ∀ k < len, p.mem (addr.toNat + k) ≠ 0

/-- `q` is `p` but for memory at or above `sz`. -/
structure SameBelow (p q : Proc) : Prop where
  sz : q.sz = p.sz
  esp : q.esp = p.esp
  mem : ∀ a < p.sz.toNat, q.mem a = p.mem a

/-! ## The loop of `fetchstr` -/

section Loop

variable {mem : Nat → UInt8}

/-- Below `2 ^ 32` the loop finds the first NUL of the `n` bytes from `s`. -/
theorem nulOffset_spec {s : UInt32} {n k : Nat} (hs : s.toNat + n < 2 ^ 32) :
    nulOffset mem s n = some k ↔
      k < n ∧ mem (s.toNat + k) = 0 ∧ ∀ j < k, mem (s.toNat + j) ≠ 0 := by
  induction n generalizing s k with
  | zero => simp [nulOffset]
  | succ n ih =>
    -- `s + 1` does not wrap: a byte is left after `s`
    have hs1 : (s + 1).toNat = s.toNat + 1 := by
      rw [UInt32.toNat_add, UInt32.toNat_one, Nat.mod_eq_of_lt (by omega)]
    have ih' := @ih (s + 1)
    rw [hs1] at ih'
    by_cases h0 : mem s.toNat = 0
    · simp only [nulOffset, h0, ite_true, Option.some.injEq]
      constructor
      · rintro rfl
        simpa using h0
      · rintro ⟨-, hk, hbefore⟩
        by_contra hne
        exact hbefore 0 (by omega) (by simpa using h0)
    · simp only [nulOffset, h0, ite_false, Option.map_eq_some_iff]
      constructor
      · rintro ⟨k', hk', rfl⟩
        obtain ⟨hlt, hnul, hbefore⟩ := (ih' (by omega)).mp hk'
        refine ⟨by omega, by rwa [← Nat.add_assoc, Nat.add_right_comm], fun j hj => ?_⟩
        cases j with
        | zero => simpa using h0
        | succ j =>
          have := hbefore j (by omega)
          rwa [Nat.add_right_comm, Nat.add_assoc] at this
      · rintro ⟨hlt, hnul, hbefore⟩
        cases k with
        | zero => exact absurd (by simpa using hnul) h0
        | succ k =>
          refine ⟨k, (ih' (by omega)).mpr ⟨by omega, ?_, fun j hj => ?_⟩, rfl⟩
          · rwa [Nat.add_right_comm, Nat.add_assoc]
          · have := hbefore (j + 1) (by omega)
            rwa [← Nat.add_assoc, Nat.add_right_comm] at this

/-- The loop reads only the `n` bytes from `s`. -/
theorem nulOffset_congr {mem' : Nat → UInt8} {s : UInt32} {n : Nat} (hs : s.toNat + n < 2 ^ 32)
    (h : ∀ k < n, mem' (s.toNat + k) = mem (s.toNat + k)) :
    nulOffset mem' s n = nulOffset mem s n := by
  induction n generalizing s with
  | zero => rfl
  | succ n ih =>
    have hs1 : (s + 1).toNat = s.toNat + 1 := by
      rw [UInt32.toNat_add, UInt32.toNat_one, Nat.mod_eq_of_lt (by omega)]
    have hrest : nulOffset mem' (s + 1) n = nulOffset mem (s + 1) n :=
      ih (by omega) fun k hk => by
        have := h (k + 1) (by omega)
        rwa [hs1, Nat.add_assoc, Nat.add_comm 1 k]
    have hfirst := h 0 (by omega)
    simp only [Nat.add_zero] at hfirst
    simp only [nulOffset, hfirst, hrest]

end Loop

/-! ## What the checks accept -/

section Checks

variable {p : Proc} (hsz : p.sz.toNat ≤ Vm.kernbase)
include hsz

/-- Below `KERNBASE`, `addr + 4` cannot wrap past a size it is checked
against. -/
theorem fetchint_some {addr : UInt32} {v : Int32} (h : fetchint p addr = some v) :
    addr.toNat + 4 ≤ p.sz.toNat := by
  unfold fetchint at h
  split_ifs at h with hc
  simp only [not_or, not_le, not_lt, UInt32.le_iff_toNat_le, UInt32.lt_iff_toNat_lt,
    UInt32.toNat_add] at hc
  simp only [Vm.kernbase] at hsz
  have hwrap : (addr.toNat + (4 : UInt32).toNat) % 2 ^ 32 = addr.toNat + 4 :=
    Nat.mod_eq_of_lt (by simp; omega)
  omega

/-- `(uint)i + size`, with `size ≥ 0` and `i < sz ≤ KERNBASE`, does not
wrap either. -/
theorem argptr_some {n size : Int32} {q : UInt32} (h : argptr p n size = some q) :
    ∃ i, argint p n = some i ∧ q = i.toUInt32 ∧ 0 ≤ size.toInt ∧
      q.toNat + size.toInt.toNat ≤ p.sz.toNat := by
  simp only [argptr, Option.bind_eq_bind, Option.bind_eq_some_iff] at h
  obtain ⟨i, hi, h⟩ := h
  split_ifs at h with hc
  obtain rfl := (Option.some.inj h).symm
  simp only [not_or, not_le, not_lt, UInt32.le_iff_toNat_le, UInt32.lt_iff_toNat_lt,
    UInt32.toNat_add] at hc
  obtain ⟨hsize, hlt, hend⟩ := hc
  have h0 : (0 : Int32).toInt = 0 := rfl
  rw [Int32.lt_iff_toInt_lt, h0] at hsize
  have hsize' : 0 ≤ size.toInt := by omega
  -- a nonnegative `int` read as `uint` keeps its value
  have hcast : size.toUInt32.toNat = size.toInt.toNat :=
    Int32.toNat_toUInt32_of_le (Int32.le_iff_toInt_le.mpr (by rw [h0]; exact hsize'))
  have hsmall : size.toInt < 2 ^ 31 := Int32.toInt_lt size
  simp only [Vm.kernbase] at hsz
  rw [hcast, Nat.mod_eq_of_lt (by omega)] at hend
  exact ⟨i, hi, rfl, hsize', hend⟩

end Checks

/-! ## Strings -/

section Strings

variable {p : Proc}

theorem fetchstr_of_le {addr : UInt32} (ha : p.sz.toNat ≤ addr.toNat) : fetchstr p addr = none := by
  rw [fetchstr, if_pos (UInt32.le_iff_toNat_le.mpr ha)]

/-- From an address below `sz` the loop looks at the `sz - addr` bytes up
to `sz`; `sz - addr` does not wrap. -/
theorem fetchstr_of_lt {addr : UInt32} (ha : addr.toNat < p.sz.toNat) :
    fetchstr p addr = nulOffset p.mem addr (p.sz.toNat - addr.toNat) := by
  rw [fetchstr, if_neg (by rw [ge_iff_le, UInt32.le_iff_toNat_le]; omega),
    UInt32.toNat_sub_of_le _ _ (UInt32.le_iff_toNat_le.mpr ha.le)]

/-- `fetchstr` succeeds exactly when a NUL lies in `[addr, sz)`, and
returns the distance to the first one. -/
theorem fetchstr_spec (addr : UInt32) (len : Nat) : fetchstr p addr = some len ↔ StrAt p addr len := by
  by_cases ha : addr.toNat < p.sz.toNat
  · have hmax := p.sz.toNat_lt
    rw [fetchstr_of_lt ha, nulOffset_spec (by omega), StrAt]
    constructor
    · rintro ⟨hk, hnul, hbefore⟩
      exact ⟨by omega, hnul, hbefore⟩
    · rintro ⟨hk, hnul, hbefore⟩
      exact ⟨by omega, hnul, hbefore⟩
  · rw [fetchstr_of_le (by omega)]
    simp only [reduceCtorEq, false_iff, StrAt]
    exact fun h => absurd h.1 (by omega)

theorem argstr_spec (n : Int32) (q : UInt32) (len : Nat) :
    argstr p n = some (q, len) ↔ ∃ i, argint p n = some i ∧ q = i.toUInt32 ∧ StrAt p q len := by
  simp only [argstr, Option.bind_eq_bind, Option.bind_eq_some_iff, Option.pure_def,
    Option.some.injEq, Prod.mk.injEq]
  constructor
  · rintro ⟨i, hi, len', hlen, rfl, rfl⟩
    exact ⟨i, hi, rfl, (fetchstr_spec _ _).mp hlen⟩
  · rintro ⟨i, hi, rfl, hstr⟩
    exact ⟨i, hi, len, (fetchstr_spec _ _).mpr hstr, rfl, rfl⟩

end Strings

/-! ## What the helpers read -/

section Frame

variable {p q : Proc} (hq : SameBelow p q)
include hq

theorem fetchint_frame (hsz : p.sz.toNat ≤ Vm.kernbase) (addr : UInt32) :
    fetchint q addr = fetchint p addr := by
  by_cases h : fetchint p addr = none
  · rw [h]
    unfold fetchint at h ⊢
    rw [hq.sz]
    split_ifs at h ⊢
    simp_all
  · obtain ⟨v, hv⟩ := Option.ne_none_iff_exists'.mp h
    have hin := fetchint_some hsz hv
    unfold fetchint at hv ⊢
    rw [hq.sz]
    split_ifs at hv ⊢
    rw [word, word, read_congr fun i hi => hq.mem _ (by omega)]

theorem fetchstr_frame (addr : UInt32) : fetchstr q addr = fetchstr p addr := by
  by_cases ha : addr.toNat < p.sz.toNat
  · have hmax := p.sz.toNat_lt
    rw [fetchstr_of_lt ha, fetchstr_of_lt (hq.sz ▸ ha), hq.sz]
    exact nulOffset_congr (by omega) fun k hk => hq.mem _ (by omega)
  · rw [fetchstr_of_le (p := q) (by rw [hq.sz]; omega), fetchstr_of_le (by omega)]

theorem argint_frame (hsz : p.sz.toNat ≤ Vm.kernbase) (n : Int32) : argint q n = argint p n := by
  rw [argint, argint, hq.esp, fetchint_frame hq hsz]

theorem argptr_frame (hsz : p.sz.toNat ≤ Vm.kernbase) (n size : Int32) :
    argptr q n size = argptr p n size := by
  simp only [argptr, argint_frame hq hsz, hq.sz]

theorem argstr_frame (hsz : p.sz.toNat ≤ Vm.kernbase) (n : Int32) : argstr q n = argstr p n := by
  simp only [argstr, argint_frame hq hsz, fetchstr_frame hq]

end Frame

/-- For a process no larger than `KERNBASE`, whatever its `%esp` and the
index, address and size asked for: `fetchint` and `argint` accept only a
word inside `[0, sz)`, `argptr` only a nonnegative size and a block inside
`[0, sz)`, `fetchstr` and `argstr` exactly a string whose NUL lies below
`sz`, returning its length; and none of them depends on, so none reads, a
byte at or above `sz`. -/
theorem args_in_bounds (p : Proc) (hsz : p.sz.toNat ≤ Vm.kernbase) :
    (∀ addr v, fetchint p addr = some v → addr.toNat + 4 ≤ p.sz.toNat) ∧
    (∀ n v, argint p n = some v → (p.esp + 4 + (4 * n).toUInt32).toNat + 4 ≤ p.sz.toNat) ∧
    (∀ n size a, argptr p n size = some a →
      ∃ i, argint p n = some i ∧ a = i.toUInt32 ∧ 0 ≤ size.toInt ∧
        a.toNat + size.toInt.toNat ≤ p.sz.toNat) ∧
    (∀ addr len, fetchstr p addr = some len ↔ StrAt p addr len) ∧
    (∀ n a len, argstr p n = some (a, len) ↔
      ∃ i, argint p n = some i ∧ a = i.toUInt32 ∧ StrAt p a len) ∧
    (∀ q, SameBelow p q →
      fetchint q = fetchint p ∧ fetchstr q = fetchstr p ∧ argint q = argint p ∧
        argptr q = argptr p ∧ argstr q = argstr p) :=
  ⟨fun _ _ h => fetchint_some hsz h, fun _ _ h => fetchint_some hsz h,
    fun _ _ _ h => argptr_some hsz h, fetchstr_spec, argstr_spec,
    fun _ hq => ⟨funext (fetchint_frame hq hsz), funext (fetchstr_frame hq),
      funext (argint_frame hq hsz), funext fun n => funext (argptr_frame hq hsz n),
      funext (argstr_frame hq hsz)⟩⟩

/-- On a one-page process, a word that would straddle `sz` is refused. -/
theorem fetchint_straddle_refused : fetchint ⟨4096, fun _ => 0, 0⟩ 4093 = none := by
  cases h : fetchint ⟨4096, fun _ => 0, 0⟩ 4093 with
  | none => rfl
  | some v =>
    exact absurd ((args_in_bounds ⟨4096, fun _ => 0, 0⟩ (by decide)).1 4093 v h) (by decide)

end Xv6.Syscall
