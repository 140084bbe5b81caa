import Xv6.WhileLoop
import Mathlib

/-!
# The MP configuration table (`mp.c`)

At boot `mpinit` takes the MP configuration table that `mpconfig` found and
accepted (signature `"PCMP"`, version 1 or 4, bytes summing to zero) and
walks its entries from the end of the header to `conf->length`.  A
processor entry records the CPU's APIC id and moves `p` past its 20 bytes,
an I/O APIC entry records its id and moves 8 bytes, and the three other
listed types move 8 bytes.  The model reads the table as the bytes from
`conf` on, and `p` as an offset from `conf`.

For an entry of any other type the `default:` case sets `ismp = 0`, and its
`break` leaves the `switch` but not the loop: `p` stays where it is, and the
next round meets the same entry.  `mpinit_ends` says the walk ends when every
entry it meets has a listed type; `mpinit_hangs` says it never ends once it
meets one that has not, whatever `mpconfig` accepted.
-/

namespace Xv6.Mp

open WhileLoop

/-- `NCPU`. -/
def ncpuMax : Nat := 8

/-- `sizeof(struct mpconf)`. -/
def confSize : Nat := 44
/-- `sizeof(struct mpproc)`. -/
def procSize : Nat := 20
/-- `sizeof(struct mpioapic)`. -/
def ioapicSize : Nat := 8

/-- `MPPROC`. -/
def mpproc : UInt8 := 0x00
/-- `MPBUS`. -/
def mpbus : UInt8 := 0x01
/-- `MPIOAPIC`. -/
def mpioapic : UInt8 := 0x02
/-- `MPIOINTR`. -/
def mpiointr : UInt8 := 0x03
/-- `MPLINTR`. -/
def mplintr : UInt8 := 0x04

/-- `conf->length`, the `ushort` at offset 4. -/
def length (conf : Nat → UInt8) : Nat := (conf 4).toNat + 256 * (conf 5).toNat

/-- `sum(addr, len)`: the bytes added up and returned as a `uchar`. -/
def sum (conf : Nat → UInt8) (len : Nat) : UInt8 := ((List.range len).map conf).sum

/-- The checks `mpconfig` makes of the table: the signature, the version
`conf->version` at offset 6, and the checksum over `conf->length` bytes. -/
def mpconfigOk (conf : Nat → UInt8) : Bool :=
  conf 0 == 'P'.toUInt8 && conf 1 == 'C'.toUInt8 && conf 2 == 'M'.toUInt8 &&
    conf 3 == 'P'.toUInt8 && (conf 6 == 1 || conf 6 == 4) && sum conf (length conf) == 0

/-- What the loop keeps: `p`, then `ncpu` and the APIC ids it records in
`cpus`, `ioapicid` and `ismp`. -/
structure Walk where
  p : Nat
  ncpu : Nat
  apicid : Nat → UInt8
  ioapicid : UInt8
  ismp : Bool

/-- A type the `switch` has a `case` for. -/
def Listed (t : UInt8) : Prop :=
  t = mpproc ∨ t = mpbus ∨ t = mpioapic ∨ t = mpiointr ∨ t = mplintr

instance (t : UInt8) : Decidable (Listed t) := inferInstanceAs (Decidable (_ ∨ _))

/-- One round of the loop: the `switch` on the type of the entry at `p`. -/
def step (conf : Nat → UInt8) (w : Walk) : Walk :=
  let t := conf w.p
  if t = mpproc then
    let w := if w.ncpu < ncpuMax then
      { w with apicid := Function.update w.apicid w.ncpu (conf (w.p + 1)), ncpu := w.ncpu + 1 }
      else w
    { w with p := w.p + procSize }
  else if t = mpioapic then { w with ioapicid := conf (w.p + 1), p := w.p + ioapicSize }
  else if t = mpbus ∨ t = mpiointr ∨ t = mplintr then { w with p := w.p + 8 }
  -- `default`: the `break` leaves the switch, not the loop, and `p` stays
  else { w with ismp := false }

/-- Before the loop: `p = (uchar*)(conf+1)`, and the globals as the kernel
starts. -/
def start : Walk := { p := confSize, ncpu := 0, apicid := fun _ => 0, ioapicid := 0, ismp := true }

/-- How `mpinit` ends. -/
inductive Outcome
  | panic (msg : String)
  | done (w : Walk)

/-- `mpinit()` on the table `conf`, its loop run for at most `fuel` rounds:
`none` when the fuel runs out first. -/
def mpinit (conf : Nat → UInt8) (fuel : Nat) : Option Outcome :=
  if !mpconfigOk conf then some (.panic "Expect to run on an SMP")
  else (whileFuel (fun w => decide (w.p < length conf)) (step conf) fuel start).map fun w =>
    if w.ismp then .done w else .panic "Didn't find a suitable machine"

/-! ## One round -/

section Step

variable {conf : Nat → UInt8} {w : Walk}

/-- Where one round leaves `p`: past the entry, by its type's size, or
where it was. -/
theorem step_p : (step conf w).p =
    if conf w.p = mpproc then w.p + procSize
    else if conf w.p = mpioapic then w.p + ioapicSize
    else if conf w.p = mpbus ∨ conf w.p = mpiointr ∨ conf w.p = mplintr then w.p + 8
    else w.p := by
  simp only [step]
  split_ifs <;> rfl

/-- A listed type moves `p` on by at least 8 bytes. -/
theorem step_p_of_listed (h : Listed (conf w.p)) : w.p + 8 ≤ (step conf w).p := by
  rw [step_p]
  rcases h with h | h | h | h | h <;>
    simp [h, mpproc, mpbus, mpioapic, mpiointr, mplintr, procSize, ioapicSize]

/-- Any other type leaves `p` where it is. -/
theorem step_p_of_not_listed (h : ¬Listed (conf w.p)) : (step conf w).p = w.p := by
  simp only [Listed, not_or] at h
  obtain ⟨h0, h1, h2, h3, h4⟩ := h
  simp [step_p, h0, h1, h2, h3, h4]

end Step

/-! ## The walk -/

section Walk

variable (conf : Nat → UInt8)

/-- The walk ends when every entry it meets before `conf->length` has a
listed type: the bytes left below `conf->length` fall at each round, so
`conf->length + 1` rounds are enough. -/
theorem mpinit_ends
    (h : ∀ k, ((step conf)^[k] start).p < length conf → Listed (conf ((step conf)^[k] start).p)) :
    ∃ out, mpinit conf (length conf + 1) = some out := by
  unfold mpinit
  split_ifs with hok
  · exact ⟨_, rfl⟩
  · obtain ⟨w, hw, -⟩ := whileFuel_ends (fun w => decide (w.p < length conf)) (step conf)
      (fun w => length conf - w.p) (s := start)
      (fun k hk => by
        have hlt := of_decide_eq_true hk
        have hstep := step_p_of_listed (h k hlt)
        rw [Function.iterate_succ_apply']
        omega)
      (show length conf - confSize < length conf + 1 by omega)
    exact ⟨_, by rw [hw]; rfl⟩

/-- Once the walk meets, before `conf->length`, an entry whose type the
`switch` does not list, it never ends: the `default` case keeps `p`, so
every later round meets the same entry. -/
theorem mpinit_hangs (hok : mpconfigOk conf = true) {k : Nat}
    (hrun : ∀ j < k, ((step conf)^[j] start).p < length conf)
    (hk : ((step conf)^[k] start).p < length conf)
    (hun : ¬Listed (conf ((step conf)^[k] start).p)) (fuel : Nat) : mpinit conf fuel = none := by
  rw [mpinit, if_neg (by simp [hok])]
  -- the entry at `q` holds `p` at `q` from round `k` on
  set q := ((step conf)^[k] start).p
  have hstuck : ∀ f, whileFuel (fun w => decide (w.p < length conf)) (step conf) f
      ((step conf)^[k] start) = none :=
    whileFuel_eq_none _ _ (fun w => w.p = q)
      (fun w hw => ⟨by simp [hw, hk], by rw [step_p_of_not_listed (by rwa [hw]), hw]⟩) rfl
  rw [whileFuel_eq_none_of_iterate _ _ (fun j hj => by simpa using hrun j hj) hstuck fuel]
  rfl

end Walk

/-- A table that `mpconfig` accepts, whose first entry has a type the
`switch` does not list: `mpinit` never returns, whatever the fuel. -/
theorem mpinit_never_ends (conf : Nat → UInt8) (hok : mpconfigOk conf = true)
    (hlen : confSize < length conf) (hun : ¬Listed (conf confSize)) (fuel : Nat) :
    mpinit conf fuel = none :=
  mpinit_hangs conf hok (k := 0) (fun _ hj => absurd hj (Nat.not_lt_zero _)) hlen hun fuel

/-- A 52-byte table: the header with version 1 and a checksum byte (150)
that brings the sum to zero, then one entry of type 5. -/
def type5Table (i : Nat) : UInt8 :=
  (([0x50, 0x43, 0x4D, 0x50, 52, 0, 1, 150] : List UInt8) ++ List.replicate 36 0 ++ [5] ++
    List.replicate 7 0).getD i 0

theorem mpinit_type5_hangs : mpinit type5Table (length type5Table + 1) = none :=
  mpinit_never_ends type5Table (by decide +kernel) (by decide) (by decide) _

end Xv6.Mp
