import Mathlib.Tactic

/-!
# The user heap allocator (`umalloc.c`)

The allocator of Kernighan and Ritchie: a circular list of free blocks,
ordered by address, each starting with a `Header` that gives the next free
block and the block's size in header units.  Memory is addressed here in
header units (a byte address is eight times a unit address) and holds a
header at each unit; `base` is the unit address of the static `base`.
`malloc` and `free` walk the list in loops that run until they find their
block, so they take fuel; `sbrk`'s answer is an input.

Sizes are `uint`s: the number of units `malloc` asks for is computed modulo
`2 ^ 32`, and for the last seven values of `nbytes` it wraps to a single
unit, a block with no room at all.
-/

namespace Xv6.Umalloc

/-- `union header`: the next block on the free list and the size in units. -/
structure Header where
  ptr : Nat
  size : UInt32
  deriving DecidableEq, Repr

/-- `sizeof(Header)` on the 32-bit target: a pointer and a `uint`. -/
def headerSize : UInt32 := 8

/-- The user heap: a header at each unit address, `freep` (`0` is null) and
the program break `proc->sz`, in bytes. -/
structure Heap where
  mem : Nat → Header
  freep : Nat
  brk : Nat

namespace Heap

def set (h : Heap) (a : Nat) (hd : Header) : Heap := { h with mem := Function.update h.mem a hd }

def setPtr (h : Heap) (a q : Nat) : Heap := h.set a { h.mem a with ptr := q }

def setSize (h : Heap) (a : Nat) (n : UInt32) : Heap := h.set a { h.mem a with size := n }

end Heap

/-- `sbrk(n)` when it succeeds: the old break, and the break moved by `n`. -/
def sbrk (h : Heap) (n : Int) : Nat × Heap := (h.brk, { h with brk := (h.brk + n).toNat })

/-- The search loop of `free` for the block `p` after which `bp` goes: it
stops between two blocks around `bp`, or at the wrap of the list when `bp`
lies before its first block or after its last. -/
def freeSearch (h : Heap) (bp : Nat) : Nat → Nat → Option Nat
  | 0, _ => none
  | fuel + 1, p =>
    if bp > p ∧ bp < (h.mem p).ptr then some p
    else if p ≥ (h.mem p).ptr ∧ (bp > p ∨ bp < (h.mem p).ptr) then some p
    else freeSearch h bp fuel (h.mem p).ptr

/-- `free(ap)`, with `ap` the unit address after the block's header:
insert the block after `p`, merging it with the next block and with `p`
when they touch. -/
def free (h : Heap) (ap fuel : Nat) : Option Heap := do
  let bp := ap - 1
  let p ← freeSearch h bp fuel h.freep
  let next := (h.mem p).ptr
  let h :=
    if bp + (h.mem bp).size.toNat = next then
      (h.setSize bp ((h.mem bp).size + (h.mem next).size)).setPtr bp (h.mem next).ptr
    else h.setPtr bp next
  let h :=
    if p + (h.mem p).size.toNat = bp then
      (h.setSize p ((h.mem p).size + (h.mem bp).size)).setPtr p (h.mem bp).ptr
    else h.setPtr p bp
  return { h with freep := p }

/-- `morecore(nu)`: at least 4096 units from `sbrk`, given to `free`; `none`
for a failed `sbrk`, which returns `0`. -/
def morecore (h : Heap) (nu : UInt32) (grows : Bool) (fuel : Nat) : Option (Option Heap) :=
  let nu := if nu < 4096 then 4096 else nu
  -- `nu * sizeof(Header)` is a `uint`, passed to `sbrk` as an `int`
  let (p, h) := sbrk h (nu * headerSize).toInt32.toInt
  if !grows then some none
  else
    let hp := p / headerSize.toNat
    let h := h.setSize hp nu
    (free h (hp + 1) fuel).map some

/-- `(nbytes + sizeof(Header) - 1) / sizeof(Header) + 1`, in `uint`s. -/
def nunits (nbytes : UInt32) : UInt32 := (nbytes + headerSize - 1) / headerSize + 1

/-- The loop of `malloc` from `prevp` on: the heap, and the unit address
after the header of the block it returns (`0` when `morecore` fails). -/
def mallocLoop (nu : UInt32) (grows : Bool) : Nat → Heap → Nat → Nat → Option (Heap × Nat)
  | 0, _, _, _ => none
  | fuel + 1, h, prevp, p =>
    if (h.mem p).size ≥ nu then
      if (h.mem p).size = nu then
        some ({ h.setPtr prevp (h.mem p).ptr with freep := prevp }, p + 1)
      else
        -- the block is split and its tail returned
        let h := h.setSize p ((h.mem p).size - nu)
        let q := p + (h.mem p).size.toNat
        some ({ h.setSize q nu with freep := prevp }, q + 1)
    else if p = h.freep then
      match morecore h nu grows fuel with
      | none => none
      | some none => some (h, 0)
      | some (some h) => mallocLoop nu grows fuel h h.freep (h.mem h.freep).ptr
    else mallocLoop nu grows fuel h p (h.mem p).ptr

/-- `malloc(nbytes)`; `base` is the unit address of the static `base`. -/
def malloc (base : Nat) (h : Heap) (nbytes : UInt32) (grows : Bool) (fuel : Nat) :
    Option (Heap × Nat) :=
  let nu := nunits nbytes
  let h := if h.freep = 0 then { h.set base { ptr := base, size := 0 } with freep := base } else h
  mallocLoop nu grows fuel h h.freep (h.mem h.freep).ptr

/-- The bytes a block returned at `ap` can hold: its units after the header. -/
def usable (h : Heap) (ap : Nat) : Nat := ((h.mem (ap - 1)).size.toNat - 1) * headerSize.toNat

/-! ## The unit count -/

/-- Below the last seven values, the units `malloc` asks for hold the bytes
and the header. -/
theorem nunits_spec {nbytes : UInt32} (h : nbytes.toNat + 7 < 2 ^ 32) :
    nbytes.toNat + headerSize.toNat ≤ (nunits nbytes).toNat * headerSize.toNat := by
  have hlt := nbytes.toNat_lt
  simp only [nunits, headerSize, UInt32.toNat_add, UInt32.toNat_sub, UInt32.toNat_div,
    UInt32.reduceToNat] at *
  omega

/-- For the last seven values of `nbytes` the count wraps to one unit. -/
theorem nunits_wrap {nbytes : UInt32} (h : 2 ^ 32 ≤ nbytes.toNat + 7) : nunits nbytes = 1 := by
  have hlt := nbytes.toNat_lt
  rw [UInt32.ext_iff]
  simp only [nunits, headerSize, UInt32.toNat_add, UInt32.toNat_sub, UInt32.toNat_div,
    UInt32.reduceToNat] at *
  omega

/-! ## A block with no room -/

/-- A process whose break is at `0x3000` with the static `base` at unit
`0x100` and an empty free list. -/
def startHeap : Heap := { mem := fun _ => { ptr := 0, size := 0 }, freep := 0, brk := 0x3000 }

/-- The first `malloc(0xFFFFFFFF)` of a process gets 4096 units from `sbrk`
and returns a non-null block of one unit, which holds no byte. -/
theorem malloc_max_no_room :
    ∃ h ap, malloc 0x100 startHeap 0xFFFFFFFF true 3 = some (h, ap) ∧ ap ≠ 0 ∧
      (h.mem (ap - 1)).size = 1 ∧ usable h ap = 0 := by
  refine ⟨_, _, rfl, ?_⟩
  decide +kernel

end Xv6.Umalloc
