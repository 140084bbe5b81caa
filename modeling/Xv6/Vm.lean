import Xv6.ByteStore
import Xv6.Inode

/-!
# Virtual memory (`vm.c`, `kalloc.c`)

Physical memory is a byte store.  The kernel reaches it through the direct
map `P2V`, so the model names every kernel pointer by its physical address:
a page is the physical address `kalloc` hands out, a page directory is the
physical address of its page, and `walkpgdir` returns the physical address
of a PTE, or `none` for its null pointer.  `kmem.freelist` is the list of
free pages, head first; the `run` link `kfree` keeps in a free page is the
list itself, and only the junk fill is written to memory.

An x86 page table has two levels: entry `PDX(va)` of the directory points
at a page table, whose entry `PTX(va)` maps the page of `va`.  Addresses
and entries are 32-bit; a sum that can wrap is taken modulo `2 ^ 32`.
The loops carry a fuel bound that the C loop cannot outrun unless its
32-bit index wraps, where it never ends: there they stop with `hang`.
-/

namespace Xv6.Vm

open ByteStore

/-- `PGSIZE`. -/
def pgsize : Nat := 4096
/-- `KERNBASE`. -/
def kernbase : Nat := 0x80000000
/-- `EXTMEM`. -/
def extmem : Nat := 0x100000
/-- `PHYSTOP`. -/
def phystop : Nat := 0xE000000
/-- `DEVSPACE`. -/
def devspace : Nat := 0xFE000000
/-- `KERNLINK`. -/
def kernlink : Nat := kernbase + extmem
/-- `NPDENTRIES`. -/
def npdentries : Nat := 1024
/-- `PTE_P`. -/
def pteP : Nat := 1
/-- `PTE_W`. -/
def pteW : Nat := 2
/-- `PTE_U`. -/
def pteU : Nat := 4

/-- `PDX(va)`: `(va >> 22) & 0x3FF`. -/
def pdx (va : Nat) : Nat := va / 2 ^ 22 % 1024
/-- `PTX(va)`: `(va >> 12) & 0x3FF`. -/
def ptx (va : Nat) : Nat := va / 2 ^ 12 % 1024
/-- `PGADDR(d, t, o)`, cast to `uint`. -/
def pgaddr (d t o : Nat) : Nat := (d * 2 ^ 22 ||| t * 2 ^ 12 ||| o) % 2 ^ 32
/-- `PGROUNDUP(sz)`: `(sz + PGSIZE - 1) & ~(PGSIZE - 1)` in 32 bits. -/
def pgroundup (sz : Nat) : Nat := (sz + pgsize - 1) % 2 ^ 32 / pgsize * pgsize
/-- `PGROUNDDOWN(a)`: `a & ~(PGSIZE - 1)`. -/
def pgrounddown (a : Nat) : Nat := a / pgsize * pgsize
/-- `PTE_ADDR(pte)`: `pte & ~0xFFF`. -/
def pteAddr (e : Nat) : Nat := e / pgsize * pgsize

/-- The machine: physical memory, the allocator's free pages, the page
directory the CPU runs on (`%cr3`), and the two link-time addresses the
code reads, `V2P(end)` and `V2P(data)`. -/
structure Machine where
  mem : Nat → UInt8
  freelist : List Nat
  cr3 : Nat
  kend : Nat
  kdata : Nat

namespace Machine

/-- `memset(P2V(a), b, n)`. -/
def fill (m : Machine) (a n : Nat) (b : UInt8) : Machine :=
  { m with mem := write m.mem a (List.replicate n b) }

/-- A store of the word `x` at physical address `a`. -/
def setWord (m : Machine) (a x : Nat) : Machine :=
  { m with mem := ByteStore.setWord m.mem a x }

@[simp] theorem fill_freelist (m : Machine) (a n : Nat) (b : UInt8) :
    (m.fill a n b).freelist = m.freelist := rfl
@[simp] theorem fill_cr3 (m : Machine) (a n : Nat) (b : UInt8) : (m.fill a n b).cr3 = m.cr3 := rfl
@[simp] theorem fill_kend (m : Machine) (a n : Nat) (b : UInt8) : (m.fill a n b).kend = m.kend := rfl
@[simp] theorem fill_kdata (m : Machine) (a n : Nat) (b : UInt8) :
    (m.fill a n b).kdata = m.kdata := rfl
@[simp] theorem setWord_freelist (m : Machine) (a x : Nat) :
    (m.setWord a x).freelist = m.freelist := rfl
@[simp] theorem setWord_cr3 (m : Machine) (a x : Nat) : (m.setWord a x).cr3 = m.cr3 := rfl
@[simp] theorem setWord_kend (m : Machine) (a x : Nat) : (m.setWord a x).kend = m.kend := rfl
@[simp] theorem setWord_kdata (m : Machine) (a x : Nat) : (m.setWord a x).kdata = m.kdata := rfl

end Machine

/-! ## `kalloc.c` -/

/-- `kalloc`: the head of the free list, or `none` for `0`. -/
def kalloc (m : Machine) : Machine × Option Nat :=
  match m.freelist with
  | [] => (m, none)
  | r :: rest => ({ m with freelist := rest }, some r)

/-- `kfree(P2V(pa))`.  The test `v % PGSIZE || v < end || V2P(v) >= PHYSTOP`
on `v = P2V(pa)` reads the same on the physical address. -/
def kfree (m : Machine) (pa : Nat) : Except Fault Machine :=
  if pa % pgsize ≠ 0 ∨ pa < m.kend ∨ phystop ≤ pa then .error (.panic "kfree")
  else .ok { m.fill pa pgsize 1 with freelist := pa :: m.freelist }

/-! ## Page tables -/

/-- `walkpgdir(pgdir, va, alloc)`: the address of the PTE of `va`, creating
its page table when `alloc` is set. -/
def walkpgdir (m : Machine) (pgdir va : Nat) (alloc : Bool) : Machine × Option Nat :=
  let pde := pgdir + 4 * pdx va
  if word m.mem pde &&& pteP ≠ 0 then (m, some (pteAddr (word m.mem pde) + 4 * ptx va))
  else if !alloc then (m, none)
  else
    match kalloc m with
    | (m, none) => (m, none)
    | (m, some pgtab) =>
      -- every `PTE_P` bit of the new table is zero
      ((m.fill pgtab pgsize 0).setWord pde (pgtab ||| pteP ||| pteW ||| pteU),
        some (pgtab + 4 * ptx va))

/-- The `for(;;)` of `mappages`, from page `a` mapped to `pa` on. -/
def mappagesLoop (pgdir last perm : Nat) : Nat → Machine → Nat → Nat → Except Fault (Machine × Int)
  | 0, _, _, _ => .error .hang
  | fuel + 1, m, a, pa =>
    match walkpgdir m pgdir a true with
    | (m, none) => .ok (m, -1)
    | (m, some pte) =>
      if word m.mem pte &&& pteP ≠ 0 then .error (.panic "remap")
      else
        let m := m.setWord pte (pa ||| perm ||| pteP)
        if a = last then .ok (m, 0)
        else mappagesLoop pgdir last perm fuel m ((a + pgsize) % 2 ^ 32) ((pa + pgsize) % 2 ^ 32)

/-- `mappages(pgdir, va, size, pa, perm)`; the loop runs once per page from
`PGROUNDDOWN(va)` to `last`. -/
def mappages (m : Machine) (pgdir va size pa perm : Nat) : Except Fault (Machine × Int) :=
  let a := pgrounddown va
  let last := pgrounddown ((va + size + 2 ^ 32 - 1) % 2 ^ 32)
  mappagesLoop pgdir last perm ((last + 2 ^ 32 - a) % 2 ^ 32 / pgsize + 1) m a pa

/-- The loop of `deallocuvm` from `a` on.  A missing page table skips to the
next directory slot: `a = PGADDR(PDX(a) + 1, 0, 0) - PGSIZE`, then `a += PGSIZE`. -/
def deallocuvmLoop (pgdir oldsz : Nat) : Nat → Machine → Nat → Except Fault Machine
  | 0, _, _ => .error .hang
  | fuel + 1, m, a =>
    if a < oldsz then
      match walkpgdir m pgdir a false with
      | (m, none) =>
        deallocuvmLoop pgdir oldsz fuel m
          (((pgaddr (pdx a + 1) 0 0 + 2 ^ 32 - pgsize) % 2 ^ 32 + pgsize) % 2 ^ 32)
      | (m, some pte) =>
        if word m.mem pte &&& pteP ≠ 0 then
          if pteAddr (word m.mem pte) = 0 then .error (.panic "kfree")
          else do
            let m ← kfree m (pteAddr (word m.mem pte))
            deallocuvmLoop pgdir oldsz fuel (m.setWord pte 0) ((a + pgsize) % 2 ^ 32)
        else deallocuvmLoop pgdir oldsz fuel m ((a + pgsize) % 2 ^ 32)
    else .ok m

/-- `deallocuvm(pgdir, oldsz, newsz)`: the machine and the returned size. -/
def deallocuvm (m : Machine) (pgdir oldsz newsz : Nat) : Except Fault (Machine × Nat) :=
  if oldsz ≤ newsz then .ok (m, oldsz)
  else do
    let m ← deallocuvmLoop pgdir oldsz (oldsz / pgsize + 2) m (pgroundup newsz)
    return (m, newsz)

/-- The loop of `freevm` over the directory slots `is`. -/
def freevmLoop (pgdir : Nat) : List Nat → Machine → Except Fault Machine
  | [], m => .ok m
  | i :: is, m =>
    if word m.mem (pgdir + 4 * i) &&& pteP ≠ 0 then do
      let m ← kfree m (pteAddr (word m.mem (pgdir + 4 * i)))
      freevmLoop pgdir is m
    else freevmLoop pgdir is m

/-- `freevm(pgdir)`.  Its `pgdir == 0` test concerns the kernel pointer,
which the physical address here never is. -/
def freevm (m : Machine) (pgdir : Nat) : Except Fault Machine := do
  let (m, _) ← deallocuvm m pgdir kernbase 0
  let m ← freevmLoop pgdir (List.range npdentries) m
  kfree m pgdir

/-- `kmap[]`: virtual start, physical start and end, permissions.  `data`
is `P2V(V2P(data))`. -/
def kmap (m : Machine) : List (Nat × Nat × Nat × Nat) :=
  [(kernbase, 0, extmem, pteW),
   (kernlink, kernlink - kernbase, m.kdata, 0),
   (m.kdata + kernbase, m.kdata, phystop, pteW),
   (devspace, devspace, 0, pteW)]

/-- The loop of `setupkvm` over the `kmap` entries. -/
def setupkvmLoop (pgdir : Nat) : List (Nat × Nat × Nat × Nat) → Machine →
    Except Fault (Machine × Option Nat)
  | [], m => .ok (m, some pgdir)
  | (virt, pstart, pend, perm) :: ks, m => do
    let (m, r) ← mappages m pgdir virt ((pend + 2 ^ 32 - pstart) % 2 ^ 32) pstart perm
    if r < 0 then
      let m ← freevm m pgdir
      return (m, none)
    else setupkvmLoop pgdir ks m

/-- `setupkvm()`.  Its `P2V(PHYSTOP) > DEVSPACE` test is false for these
constants. -/
def setupkvm (m : Machine) : Except Fault (Machine × Option Nat) :=
  match kalloc m with
  | (m, none) => .ok (m, none)
  | (m, some pgdir) => setupkvmLoop pgdir (kmap m) (m.fill pgdir pgsize 0)

/-- The loop of `allocuvm` from `a` on. -/
def allocuvmLoop (pgdir oldsz newsz : Nat) : Nat → Machine → Nat → Except Fault (Machine × Nat)
  | 0, _, _ => .error .hang
  | fuel + 1, m, a =>
    if a < newsz then
      match kalloc m with
      | (m, none) => do
        -- "allocuvm out of memory"
        let (m, _) ← deallocuvm m pgdir newsz oldsz
        return (m, 0)
      | (m, some mem) => do
        let (m, r) ← mappages (m.fill mem pgsize 0) pgdir a pgsize mem (pteW ||| pteU)
        if r < 0 then
          -- "allocuvm out of memory (2)"
          let (m, _) ← deallocuvm m pgdir newsz oldsz
          let m ← kfree m mem
          return (m, 0)
        else allocuvmLoop pgdir oldsz newsz fuel m ((a + pgsize) % 2 ^ 32)
    else .ok (m, newsz)

/-- `allocuvm(pgdir, oldsz, newsz)`: the machine and the returned size. -/
def allocuvm (m : Machine) (pgdir oldsz newsz : Nat) : Except Fault (Machine × Nat) :=
  if kernbase ≤ newsz then .ok (m, 0)
  else if newsz < oldsz then .ok (m, oldsz)
  else allocuvmLoop pgdir oldsz newsz (newsz / pgsize + 2) m (pgroundup oldsz)

/-- `clearpteu(pgdir, uva)`: `*pte &= ~PTE_U`. -/
def clearpteu (m : Machine) (pgdir uva : Nat) : Except Fault Machine :=
  match walkpgdir m pgdir uva false with
  | (_, none) => .error (.panic "clearpteu")
  | (m, some pte) => .ok (m.setWord pte (word m.mem pte &&& 0xFFFFFFFB))

/-- The loop of `copyuvm` from `i` on, copying the parent's pages into the
child's directory `d`; a failed allocation frees `d` (`goto bad`). -/
def copyuvmLoop (pgdir sz d : Nat) : Nat → Machine → Nat → Except Fault (Machine × Option Nat)
  | 0, _, _ => .error .hang
  | fuel + 1, m, i =>
    if i < sz then
      match walkpgdir m pgdir i false with
      | (_, none) => .error (.panic "copyuvm: pte should exist")
      | (m, some pte) =>
        if word m.mem pte &&& pteP = 0 then .error (.panic "copyuvm: page not present")
        else
          let pa := pteAddr (word m.mem pte)
          let flags := word m.mem pte &&& 0xFFF
          match kalloc m with
          | (m, none) => do
            let m ← freevm m d
            return (m, none)
          | (m, some mem) => do
            -- memmove(mem, P2V(pa), PGSIZE)
            let (m, r) ← mappages { m with mem := write m.mem mem (read m.mem pa pgsize) } d i
              pgsize mem flags
            if r < 0 then
              let m ← kfree m mem
              let m ← freevm m d
              return (m, none)
            else copyuvmLoop pgdir sz d fuel m ((i + pgsize) % 2 ^ 32)
    else .ok (m, some d)

/-- `copyuvm(pgdir, sz)`: the child's directory, `none` for `0`. -/
def copyuvm (m : Machine) (pgdir sz : Nat) : Except Fault (Machine × Option Nat) := do
  match ← setupkvm m with
  | (m, none) => return (m, none)
  | (m, some d) => copyuvmLoop pgdir sz d (sz / pgsize + 2) m 0

/-! ## Loads through the MMU and `copyout` -/

/-- The word a load from virtual address `va` reads while the CPU runs on
the directory `%cr3`, or `none` for a page fault. -/
def load (m : Machine) (va : Nat) : Option Nat :=
  match (walkpgdir m m.cr3 va false).2 with
  | none => none
  | some pte =>
    if word m.mem pte &&& pteP = 0 then none
    else some (word m.mem (pteAddr (word m.mem pte) + va % pgsize))

/-- `uva2ka(pgdir, uva)`: the physical page of a present user page, or
`none` for `0`.  `*pte` is read whatever `walkpgdir` returned: a null `pte`
is a load from virtual address `0`, and a page fault in the kernel is
`trap`'s panic. -/
def uva2ka (m : Machine) (pgdir uva : Nat) : Except Fault (Option Nat) := do
  let e ← match (walkpgdir m pgdir uva false).2 with
    | some pte => pure (word m.mem pte)
    | none =>
      match load m 0 with
      | some e => pure e
      | none => throw (.panic "trap")
  if e &&& pteP = 0 then return none
  if e &&& pteU = 0 then return none
  return some (pteAddr e)

/-- The `while(len > 0)` of `copyout`, with the bytes still to copy. -/
def copyoutLoop (pgdir : Nat) : Nat → Machine → Nat → List UInt8 → Except Fault (Machine × Int)
  | 0, m, _, _ => .ok (m, 0)
  | fuel + 1, m, va, buf =>
    if buf = [] then .ok (m, 0)
    else do
      let va0 := pgrounddown va
      match ← uva2ka m pgdir va0 with
      | none => return (m, -1)
      | some pa0 =>
        let n := min (pgsize - (va - va0)) buf.length
        copyoutLoop pgdir fuel { m with mem := write m.mem (pa0 + (va - va0)) (buf.take n) }
          ((va0 + pgsize) % 2 ^ 32) (buf.drop n)

/-- `copyout(pgdir, va, p, len)` with the `len` bytes of `p`; each round
copies at least one byte. -/
def copyout (m : Machine) (pgdir va : Nat) (p : List UInt8) : Except Fault (Machine × Int) :=
  copyoutLoop pgdir p.length m va p

/-! ## `growproc` -/

/-- `growproc(n)` of the process with directory `pgdir` and size `sz`: the
machine, the process's `sz` after, and the result.  `sz + n` is `uint`
arithmetic; `switchuvm` loads the process's directory. -/
def growproc (m : Machine) (pgdir sz : Nat) (n : Int) : Except Fault (Machine × Nat × Int) := do
  let sz' := (((sz : Int) + n) % 2 ^ 32).toNat
  if 0 < n then
    let (m, r) ← allocuvm m pgdir sz sz'
    if r = 0 then return (m, sz, -1)
    return ({ m with cr3 := pgdir }, r, 0)
  else if n < 0 then
    let (m, r) ← deallocuvm m pgdir sz sz'
    if r = 0 then return (m, sz, -1)
    return ({ m with cr3 := pgdir }, r, 0)
  else return ({ m with cr3 := pgdir }, sz, 0)

/-! ## What one step of each function does -/

variable {m m₁ : Machine} {pgdir va a pa pte oldsz fuel : Nat}

theorem and_pteP (e : Nat) : e &&& pteP = e % 2 := Nat.and_one_is_mod e

/-- A page-directory entry: `PDX(va)` of `pgdir`. -/
def pdeAddr (pgdir va : Nat) : Nat := pgdir + 4 * pdx va

theorem walkpgdir_of_present (h : word m.mem (pdeAddr pgdir va) % 2 = 1) (alloc : Bool) :
    walkpgdir m pgdir va alloc =
      (m, some (pteAddr (word m.mem (pdeAddr pgdir va)) + 4 * ptx va)) := by
  simp only [pdeAddr] at h ⊢
  simp [walkpgdir, and_pteP, h]

theorem walkpgdir_of_absent (h : word m.mem (pdeAddr pgdir va) % 2 = 0) :
    walkpgdir m pgdir va false = (m, none) := by
  rw [pdeAddr] at h
  simp [walkpgdir, and_pteP, h]

theorem walkpgdir_of_alloc (h : word m.mem (pdeAddr pgdir va) % 2 = 0) {r : Nat} {rest : List Nat}
    (hfl : m.freelist = r :: rest) :
    walkpgdir m pgdir va true =
      ((({ m with freelist := rest } : Machine).fill r pgsize 0).setWord (pdeAddr pgdir va)
        (r ||| pteP ||| pteW ||| pteU), some (r + 4 * ptx va)) := by
  rw [pdeAddr] at h ⊢
  simp [walkpgdir, and_pteP, h, kalloc, hfl]

/-- A round of `mappages` whose PTE is not present writes it and moves on. -/
theorem mappagesLoop_of_walk {last perm : Nat} (hwalk : walkpgdir m pgdir a true = (m₁, some pte))
    (hp : word m₁.mem pte % 2 = 0) :
    mappagesLoop pgdir last perm (fuel + 1) m a pa =
      if a = last then .ok (m₁.setWord pte (pa ||| perm ||| pteP), 0)
      else mappagesLoop pgdir last perm fuel (m₁.setWord pte (pa ||| perm ||| pteP))
        ((a + pgsize) % 2 ^ 32) ((pa + pgsize) % 2 ^ 32) := by
  simp only [mappagesLoop, hwalk, and_pteP, hp]
  simp

theorem kfree_of_valid (halign : pa % pgsize = 0) (hend : m.kend ≤ pa) (htop : pa < phystop) :
    kfree m pa = .ok { m.fill pa pgsize 1 with freelist := pa :: m.freelist } := by
  rw [kfree, if_neg (by omega)]

/-- One round of `deallocuvm` on a present PTE frees its page and clears it. -/
theorem deallocuvmLoop_present (ha : a < oldsz) (hwalk : walkpgdir m pgdir a false = (m, some pte))
    (hp : word m.mem pte % 2 = 1) (hpa : pteAddr (word m.mem pte) ≠ 0)
    (hfree : kfree m (pteAddr (word m.mem pte)) = .ok m₁) :
    deallocuvmLoop pgdir oldsz (fuel + 1) m a =
      deallocuvmLoop pgdir oldsz fuel (m₁.setWord pte 0) ((a + pgsize) % 2 ^ 32) := by
  simp only [deallocuvmLoop, if_pos ha, hwalk, and_pteP, hp]
  simp [hpa, hfree]

theorem deallocuvmLoop_done (ha : oldsz ≤ a) : deallocuvmLoop pgdir oldsz (fuel + 1) m a = .ok m := by
  rw [deallocuvmLoop, if_neg (by omega)]

/-- A round of `allocuvm` whose page is mapped moves on to the next. -/
theorem allocuvmLoop_step {newsz r : Nat} {rest : List Nat} {m₂ : Machine} (ha : a < newsz)
    (hfl : m.freelist = r :: rest)
    (hmap : mappages (({ m with freelist := rest } : Machine).fill r pgsize 0) pgdir a pgsize r
      (pteW ||| pteU) = .ok (m₂, 0)) :
    allocuvmLoop pgdir oldsz newsz (fuel + 1) m a =
      allocuvmLoop pgdir oldsz newsz fuel m₂ ((a + pgsize) % 2 ^ 32) := by
  simp [allocuvmLoop, ha, kalloc, hfl, hmap]

theorem allocuvmLoop_done {newsz : Nat} (ha : newsz ≤ a) :
    allocuvmLoop pgdir oldsz newsz (fuel + 1) m a = .ok (m, newsz) := by
  rw [allocuvmLoop, if_neg (by omega)]

theorem copyuvm_of_setupkvm {sz d : Nat} (h : setupkvm m = .ok (m₁, some d)) :
    copyuvm m pgdir sz = copyuvmLoop pgdir sz d (sz / pgsize + 2) m₁ 0 := by
  simp [copyuvm, h]

/-- A round of `copyuvm` on a PTE that is there but not present panics. -/
theorem copyuvmLoop_not_present {sz d i : Nat} (hi : i < sz)
    (hwalk : walkpgdir m pgdir i false = (m, some pte)) (hp : word m.mem pte % 2 = 0) :
    copyuvmLoop pgdir sz d (fuel + 1) m i = .error (.panic "copyuvm: page not present") := by
  simp [copyuvmLoop, hi, hwalk, and_pteP, hp]

/-- Two words of two different pages do not meet. -/
theorem words_apart {p q i j : Nat} (hp : p % pgsize = 0) (hq : q % pgsize = 0) (hne : p ≠ q)
    (hi : i < 1024) (hj : j < 1024) : p + 4 * i + 4 ≤ q + 4 * j ∨ q + 4 * j + 4 ≤ p + 4 * i := by
  simp only [pgsize] at hp hq
  omega

/-- A word of one page is outside another page. -/
theorem word_apart_page {p q j : Nat} (hp : p % pgsize = 0) (hq : q % pgsize = 0) (hne : p ≠ q)
    (hj : j < 1024) : q + 4 * j + 4 ≤ p ∨ p + pgsize ≤ q + 4 * j := by
  simp only [pgsize] at hp hq ⊢
  omega

theorem pteAddr_mod (e : Nat) : pteAddr e % pgsize = 0 := by
  simp [pteAddr]

theorem pdx_lt (va : Nat) : pdx va < 1024 := Nat.mod_lt _ (by decide)

theorem ptx_lt (va : Nat) : ptx va < 1024 := Nat.mod_lt _ (by decide)

/-! ## Shrinking a process to size zero -/

/-- `va` is mapped through the page table `pt` to the page `pa`. -/
structure Maps (m : Machine) (pgdir va pt pa : Nat) : Prop where
  pde_present : word m.mem (pdeAddr pgdir va) % 2 = 1
  pde_addr : pteAddr (word m.mem (pdeAddr pgdir va)) = pt
  pte_present : word m.mem (pt + 4 * ptx va) % 2 = 1
  pte_addr : pteAddr (word m.mem (pt + 4 * ptx va)) = pa

/-- `growproc(-sz)` for a one-page process: `deallocuvm` frees page `0`,
clears its PTE and returns the new size `0`, which `growproc` takes for its
failure signal, so it returns `-1` and keeps `sz`. -/
theorem growproc_shrink_of_maps {sz pt : Nat} (hsz : 0 < sz) (hone : sz ≤ pgsize)
    (hmaps : Maps m pgdir 0 pt pa) (hend : m.kend ≤ pa) (htop : pa < phystop) (hpos : 0 < pa) :
    growproc m pgdir sz (-sz) =
      .ok (({ m.fill pa pgsize 1 with freelist := pa :: m.freelist } : Machine).setWord pt 0,
        sz, -1) := by
  have hpte : pt + 4 * ptx 0 = pt := rfl
  have hwalk : walkpgdir m pgdir 0 false = (m, some pt) := by
    rw [walkpgdir_of_present hmaps.pde_present, hmaps.pde_addr, hpte]
  have hpt_addr := hmaps.pte_addr
  rw [hpte] at hpt_addr
  have hpa_align : pa % pgsize = 0 := hpt_addr ▸ pteAddr_mod _
  -- the one round of the loop, then its exit at `a = PGSIZE`
  have hloop : deallocuvmLoop pgdir sz (sz / pgsize + 2) m (pgroundup 0) =
      .ok (({ m.fill pa pgsize 1 with freelist := pa :: m.freelist } : Machine).setWord pt 0) := by
    have hp := hmaps.pte_present
    rw [hpte] at hp
    have hfree : kfree m (pteAddr (word m.mem pt)) =
        .ok { m.fill pa pgsize 1 with freelist := pa :: m.freelist } := by
      rw [hpt_addr]
      exact kfree_of_valid hpa_align hend htop
    have hexit : sz ≤ (0 + pgsize) % 2 ^ 32 := by
      simp only [pgsize] at hone ⊢
      omega
    rw [show pgroundup 0 = 0 from rfl, deallocuvmLoop_present hsz hwalk hp (by rw [hpt_addr]; omega)
      hfree, deallocuvmLoop_done hexit]
  have hdealloc : deallocuvm m pgdir sz 0 =
      .ok (({ m.fill pa pgsize 1 with freelist := pa :: m.freelist } : Machine).setWord pt 0, 0) := by
    rw [deallocuvm, if_neg (by omega), hloop]
    rfl
  have hsz' : (((sz : Int) + -sz) % 2 ^ 32).toNat = 0 := by simp
  have hneg : ¬ (sz : Int) < 0 := by omega
  simp only [growproc, hsz', hdealloc]
  simp [hsz, hneg]
  rfl

/-- After `growproc(-sz)` on a one-page process, address `0` is no longer
mapped, though the size kept is still `sz`. -/
theorem growproc_shrink_to_zero_unmaps {sz pt : Nat} (hsz : 0 < sz) (hone : sz ≤ pgsize)
    (hdir : pgdir % pgsize = 0) (hmaps : Maps m pgdir 0 pt pa) (hpt : pt ≠ pgdir)
    (hpa : pa ≠ pgdir) (hend : m.kend ≤ pa) (htop : pa < phystop) (hpos : 0 < pa) :
    ∃ m', growproc m pgdir sz (-sz) = .ok (m', sz, -1) ∧ m'.freelist = pa :: m.freelist ∧
      ¬ ∃ pt' pa', Maps m' pgdir 0 pt' pa' := by
  have hpte : pt + 4 * ptx 0 = pt := rfl
  have hpt_addr := hmaps.pte_addr
  rw [hpte] at hpt_addr
  have hpa_align : pa % pgsize = 0 := hpt_addr ▸ pteAddr_mod _
  have hpt_align : pt % pgsize = 0 := hmaps.pde_addr ▸ pteAddr_mod _
  let m' := ({ m.fill pa pgsize 1 with freelist := pa :: m.freelist } : Machine).setWord pt 0
  refine ⟨m', growproc_shrink_of_maps hsz hone hmaps hend htop hpos, rfl, ?_⟩
  rintro ⟨pt', pa', hmaps'⟩
  -- the directory entry is kept: neither the junk fill nor the cleared PTE reaches it
  have hpde : word m'.mem (pdeAddr pgdir 0) = word m.mem (pdeAddr pgdir 0) := by
    have hkeep₁ := word_apart_page (j := 0) hpt_align hdir hpt (by decide)
    have hkeep₂ := word_apart_page (j := 0) hpa_align hdir hpa (by decide)
    have hps : pgsize = 4096 := rfl
    simp only [m', Machine.setWord, Machine.fill, pdeAddr, show pdx 0 = 0 from rfl]
    rw [word_setWord_of_disjoint (by omega), word_write_of_disjoint (by simp; omega)]
  have hpt' : pt' = pt := by rw [← hmaps'.pde_addr, hpde, hmaps.pde_addr]
  have hzero : word m'.mem (pt' + 4 * ptx 0) = 0 := by
    rw [hpt', hpte]
    exact word_setWord_self (by decide)
  have := hmaps'.pte_present
  rw [hzero] at this
  exact absurd this (by decide)

/-- A process of one page: directory at `0x1000`, its page table at
`0x2000`, page `0` at `0x3000`. -/
def onePageProc : Machine :=
  { mem := ByteStore.setWord (ByteStore.setWord (fun _ => 0) 0x1000 0x2007) 0x2000 0x3007,
    freelist := [], cr3 := 0x1000, kend := 0x1000, kdata := 0x108000 }

theorem growproc_shrink_one_page :
    Maps onePageProc 0x1000 0 0x2000 0x3000 ∧
      ∃ m', growproc onePageProc 0x1000 100 (-(100 : Nat)) = .ok (m', 100, -1) ∧
        m'.freelist = 0x3000 :: onePageProc.freelist ∧ ¬ ∃ pt' pa', Maps m' 0x1000 0 pt' pa' := by
  have hmaps : Maps onePageProc 0x1000 0 0x2000 0x3000 :=
    ⟨by decide, by decide, by decide, by decide⟩
  exact ⟨hmaps, growproc_shrink_to_zero_unmaps (by decide) (by decide) (by decide) hmaps
    (by decide) (by decide) (by decide) (by decide) (by decide)⟩

end Xv6.Vm
