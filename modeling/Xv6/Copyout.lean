import Xv6.PageDir

/-!
# `copyout` through an empty directory slot

`uva2ka` reads `*pte` without testing `walkpgdir`'s result.  For a page
whose directory slot has no table, `pte` is null and the kernel loads the
word at virtual address `0` of the address space it runs on, which is the
calling process's own memory.  `copyout` takes that word for the PTE: when
it has `PTE_P` and `PTE_U`, the bytes go to the physical page it names and
`copyout` returns `0`.

`exec` builds the new image with `setupkvm`, `allocuvm` and `clearpteu` and
then copies the arguments out to it.  A directory so built has no table for
the slots between `KERNBASE + PHYSTOP` and `DEVSPACE`, so a copy aimed
there writes wherever the caller's word at `0` points; below, into the
first byte of the kernel's text.

`copyuvm` trusts the parent's image to have a present PTE for every page
below `sz`.  `growproc(-sz)` on a process of one page frees the page and
clears its PTE but keeps `sz`, so the next `fork` panics.
-/

namespace Xv6.Vm

open ByteStore

variable {m m' : Machine} {pgdir va e : Nat}

/-! ## The functions on one page -/

theorem clearpteu_of_present (hp : pde m pgdir (pdx va) % 2 = 1) :
    clearpteu m pgdir va =
      .ok (m.setWord (ptab m pgdir (pdx va) + 4 * ptx va) (slot m pgdir (pdx va) (ptx va) &&& 0xFFFFFFFB)) := by
  rw [clearpteu, walkpgdir_of_present hp]
  rfl

/-- What a load from virtual address `0` reads, through the running
directory's slot `0` and entry `0`. -/
theorem load_zero_eq (m : Machine) :
    load m 0 = if pde m m.cr3 0 % 2 = 1 then
      (if slot m m.cr3 0 0 % 2 = 1 then some (word m.mem (pteAddr (slot m m.cr3 0 0))) else none)
      else none := by
  have hpdx : pdx 0 = 0 := rfl
  by_cases hp : pde m m.cr3 0 % 2 = 1
  · have hwalk : walkpgdir m m.cr3 0 false =
        (m, some (pteAddr (word m.mem (pdeAddr m.cr3 0)) + 4 * ptx 0)) :=
      walkpgdir_of_present (by rw [pdeAddr, hpdx]; exact hp) false
    have hslot : word m.mem (pteAddr (word m.mem (pdeAddr m.cr3 0)) + 4 * ptx 0) = slot m m.cr3 0 0 := rfl
    simp only [load, hwalk, if_pos hp, and_pteP, hslot]
    by_cases hs : slot m m.cr3 0 0 % 2 = 1
    · rw [if_neg (by omega), if_pos hs]
      simp
    · rw [if_pos (by omega), if_neg hs]
  · have habs : pde m m.cr3 0 % 2 = 0 := by omega
    have hwalk : walkpgdir m m.cr3 0 false = (m, none) :=
      walkpgdir_of_absent (by rw [pdeAddr, hpdx]; exact habs)
    simp [load, hwalk, hp]

theorem uva2ka_of_absent (habs : pde m pgdir (pdx va) % 2 = 0) (hload : load m 0 = some e) :
    uva2ka m pgdir va =
      .ok (if e % 2 = 0 then none else if e &&& pteU = 0 then none else some (pteAddr e)) := by
  have hwalk : walkpgdir m pgdir va false = (m, none) := walkpgdir_of_absent habs
  simp only [uva2ka, hwalk, hload, and_pteP, pure_bind]
  split_ifs <;> rfl

/-- `copyout` of bytes that fit in one page whose directory slot has no
table: with `PTE_P` and `PTE_U` in the word at user address `0`, the bytes
go to the physical page that word names, and `copyout` returns `0`. -/
theorem copyout_of_absent {bs : List UInt8} (habs : pde m pgdir (pdx va) % 2 = 0)
    (hload : load m 0 = some e) (hp : e % 2 = 1) (hu : e &&& pteU ≠ 0) (hne : bs ≠ [])
    (hfit : va % pgsize + bs.length ≤ pgsize) :
    copyout m pgdir va bs = .ok ({ m with mem := write m.mem (pteAddr e + va % pgsize) bs }, 0) := by
  have hps : pgsize = 4096 := rfl
  obtain ⟨k, hk⟩ : ∃ k, bs.length = k + 1 := ⟨bs.length - 1, by
    have := List.length_pos_of_ne_nil hne
    omega⟩
  -- the page's own slot: `PGROUNDDOWN(va)` has the same `PDX`
  have hoff : va - pgrounddown va = va % pgsize := by simp only [pgrounddown, pgsize]; omega
  have hpdx : pdx (pgrounddown va) = pdx va := by simp only [pdx, pgrounddown, pgsize]; omega
  have huva : uva2ka m pgdir (pgrounddown va) =
      .ok (if e % 2 = 0 then none else if e &&& pteU = 0 then none else some (pteAddr e)) :=
    uva2ka_of_absent (by rw [hpdx]; exact habs) hload
  rw [if_neg (by omega), if_neg hu] at huva
  have hn : min (pgsize - va % pgsize) bs.length = bs.length := by omega
  rw [copyout, hk, copyoutLoop, if_neg hne]
  simp only [bind, Except.bind, huva, hoff, hn, List.take_length, List.drop_length]
  cases k with
  | zero => rfl
  | succ k => simp [copyoutLoop]

/-! ## Memory outside the pool -/

/-- A word of a page outside the pool reads as before. -/
theorem word_of_agrees {pool : List Nat} (hpool : ∀ p ∈ pool, p % pgsize = 0 ∧ p < phystop)
    (hag : Agrees pool m m') {q j : Nat} (hq : q % pgsize = 0) (hout : q ∉ pool) (hj : j < 1024) :
    word m'.mem (q + 4 * j) = word m.mem (q + 4 * j) := by
  unfold word
  rw [read_congr (fun i hi => hag.mem _ (fun p hp => ?_))]
  have hne : p ≠ q := fun h => hout (h ▸ hp)
  have := (hpool p hp).1
  simp only [pgsize] at hq this ⊢
  omega

/-- A load from `0` reads as before when the running directory, its table
and the page are outside the pool. -/
theorem load_zero_of_agrees {pool : List Nat} (hpool : ∀ p ∈ pool, p % pgsize = 0 ∧ p < phystop)
    (hag : Agrees pool m m') (hcr3 : m.cr3 % pgsize = 0) (hdir : m.cr3 ∉ pool)
    (htab : ptab m m.cr3 0 ∉ pool) (hpage : pteAddr (slot m m.cr3 0 0) ∉ pool) :
    load m' 0 = load m 0 := by
  have hpde : pde m' m.cr3 0 = pde m m.cr3 0 := word_of_agrees hpool hag hcr3 hdir (by decide)
  have hslot : slot m' m.cr3 0 0 = slot m m.cr3 0 0 := by
    unfold slot
    rw [ptab_congr hpde]
    exact word_of_agrees hpool hag (ptab_mod _ _ _) htab (by decide)
  have hword := word_of_agrees (q := pteAddr (slot m m.cr3 0 0)) (j := 0) hpool hag
    (pteAddr_mod _) hpage (by decide)
  rw [Nat.mul_zero, Nat.add_zero] at hword
  rw [load_zero_eq, load_zero_eq, hag.cr3, hpde, hslot, hword]

/-! ## `copyuvm` over a hole -/

/-- A parent whose page `0` has a page table but no present PTE makes
`copyuvm` panic, once the child's `setupkvm` has its pages: those come from
the free pool, which holds neither the parent's directory nor that table. -/
theorem copyuvm_of_hole {d sz : Nat} {rest : List Nat} (hfl : m.freelist = d :: rest)
    (hpool : ∀ p ∈ m.freelist, p % pgsize = 0 ∧ p < phystop) (hnodup : m.freelist.Nodup)
    (hroom : 121 ≤ rest.length) (hdata : extmem < m.kdata) (hdata' : m.kdata < phystop)
    (halign : m.kdata % pgsize = 0) (hsz : 0 < sz) (hdir : pgdir % pgsize = 0)
    (hdout : pgdir ∉ m.freelist) (hpde : word m.mem (pdeAddr pgdir 0) % 2 = 1)
    (htout : pteAddr (word m.mem (pdeAddr pgdir 0)) ∉ m.freelist)
    (hpte : word m.mem (pteAddr (word m.mem (pdeAddr pgdir 0))) % 2 = 0) :
    copyuvm m pgdir sz = .error (.panic "copyuvm: page not present") := by
  obtain ⟨m', hsetup, -, hag, -, -⟩ := setupkvm_spec hfl hpool hnodup hroom hdata hdata' halign
  -- the child's directory was built off the parent's slot and PTE
  have hpde' : word m'.mem (pdeAddr pgdir 0) = word m.mem (pdeAddr pgdir 0) :=
    word_of_agrees hpool hag hdir hdout (pdx_lt 0)
  have hpte' : word m'.mem (pteAddr (word m.mem (pdeAddr pgdir 0))) =
      word m.mem (pteAddr (word m.mem (pdeAddr pgdir 0))) := by
    have := word_of_agrees (j := 0) hpool hag (pteAddr_mod _) htout (by decide)
    rwa [Nat.mul_zero, Nat.add_zero] at this
  have hwalk : walkpgdir m' pgdir 0 false =
      (m', some (pteAddr (word m.mem (pdeAddr pgdir 0)))) := by
    rw [walkpgdir_of_present (by rw [hpde']; exact hpde), hpde', show ptx 0 = 0 from rfl,
      Nat.mul_zero, Nat.add_zero]
  rw [copyuvm_of_setupkvm hsetup]
  exact copyuvmLoop_not_present hsz hwalk (by rw [hpte']; exact hpte)

/-! ## `exec`'s calls on a fresh directory -/

/-- Free pages: 130 of them from `0x400000` on. -/
def execPool : List Nat := (List.range 130).map fun i => 0x400000 + 4096 * i

theorem execPool_valid : ∀ p ∈ execPool, p % pgsize = 0 ∧ p < phystop := by
  intro p hp
  simp only [execPool, List.mem_map, List.mem_range] at hp
  obtain ⟨i, hi, rfl⟩ := hp
  simp only [pgsize, phystop]
  omega

theorem execPool_nodup : execPool.Nodup :=
  List.nodup_range.map fun i j (h : 0x400000 + 4096 * i = 0x400000 + 4096 * j) => by omega

theorem not_mem_execPool {q : Nat} (hq : q < 0x400000) : q ∉ execPool := by
  simp only [execPool, List.mem_map, List.mem_range, not_exists, not_and]
  omega

/-- A machine about to run `exec`: the free pages of `execPool`, and the
calling process's directory at `0x200000`, whose table at `0x201000` maps
user page `0` to `0x202000`; the process keeps the word `0x100007` at
address `0`. -/
def execMachine : Machine :=
  { mem := ByteStore.setWord (ByteStore.setWord (ByteStore.setWord (fun _ => 0)
      0x200000 0x201007) 0x201000 0x202007) 0x202000 0x100007,
    freelist := execPool, cr3 := 0x200000, kend := 0x116000, kdata := 0x108000 }

/-- `exec` for a one-page image sets up a directory, grows it by two pages
and clears `PTE_U` on the first; `copyout` of one byte to `0x90000000`, in
the gap below `DEVSPACE`, then meets a slot with no table, yet returns `0`:
the byte went to physical address `EXTMEM`, the first byte of the kernel's
text, named by the word the process keeps at `0`. -/
theorem copyout_gap_writes_kernel_text :
    ∃ m₁ pgdir m₂ m₃ m₄, setupkvm execMachine = .ok (m₁, some pgdir) ∧
      allocuvm m₁ pgdir 0 (2 * pgsize) = .ok (m₂, 2 * pgsize) ∧ clearpteu m₂ pgdir 0 = .ok m₃ ∧
      (walkpgdir m₃ pgdir 0x90000000 false).2 = none ∧
      copyout m₃ pgdir 0x90000000 [0xCC] = .ok (m₄, 0) ∧
      m₃.mem extmem = 0 ∧ m₄.mem extmem = 0xCC := by
  have hpool := execPool_valid
  obtain ⟨rest, hfl⟩ : ∃ rest, execMachine.freelist = 0x400000 :: rest := ⟨_, rfl⟩
  have hlen : execMachine.freelist.length = 130 := by simp [execMachine, execPool]
  have hrest : rest.length = 129 := by
    rw [hfl, List.length_cons] at hlen
    omega
  -- `setupkvm` takes the directory page `0x400000`
  obtain ⟨m₁, hsetup, hd₁, hag₁, hempty₁, hlen₁⟩ := setupkvm_spec hfl hpool execPool_nodup
    (by omega) (by decide) (by decide) (by decide)
  -- `allocuvm(pgdir, 0, 2 * PGSIZE)`: the user half has no table yet
  obtain ⟨m₂, halloc, hd₂, hf₂⟩ := allocuvm_spec hpool hd₁ 0 (2 * pgsize)
    (by decide) (by decide) (by decide)
    (fun va _ _ hva => .inl (by
      rw [hempty₁ (pdx va) (pdx_lt va) (.inl (by simp only [pdx_eq, kernbase, pgsize] at hva ⊢; omega))]))
    (by rw [hlen] at hlen₁; simp only [pgroundup, pgsize]; omega)
  -- `clearpteu(pgdir, 0)`
  have hp₂ : pde m₂ 0x400000 (pdx 0) % 2 = 1 := hf₂.mapped 0 (by decide) (by decide) (by decide)
  obtain ⟨hd₃, hf₃⟩ := hd₂.setWord_table hpool (a := 0) (by decide) (by decide) hp₂ rfl
  set m₃ := m₂.setWord (ptab m₂ 0x400000 (pdx 0) + 4 * ptx 0)
    (slot m₂ 0x400000 (pdx 0) (ptx 0) &&& 0xFFFFFFFB) with hm₃
  -- slot `576` of `0x90000000` is in the gap: no step wrote it
  have habs : pde m₃ 0x400000 (pdx 0x90000000) % 2 = 0 := by
    rw [show pdx 0x90000000 = 576 from rfl, hf₃.pde_frame 576 (by decide) (.inr (by decide)),
      hf₂.pde_frame 576 (by decide) (.inr (by decide)),
      hempty₁ 576 (by decide) (.inr ⟨by decide, by decide⟩)]
  have hwalk : walkpgdir m₃ 0x400000 0x90000000 false = (m₃, none) := walkpgdir_of_absent habs
  -- the process's word at `0` is outside the pool, so the run kept it
  have hag := hag₁.trans (hf₂.agrees.trans hf₃.agrees)
  have hload : load m₃ 0 = some 0x100007 := by
    rw [load_zero_of_agrees hpool hag (by decide) (not_mem_execPool (by decide))
      (not_mem_execPool (by decide)) (not_mem_execPool (by decide))]
    decide
  have hcopy : copyout m₃ 0x400000 0x90000000 [0xCC] =
      .ok ({ m₃ with mem := write m₃.mem (pteAddr 0x100007 + 0x90000000 % pgsize) [0xCC] }, 0) :=
    copyout_of_absent habs hload (by decide) (by decide) (by simp) (by decide)
  refine ⟨m₁, 0x400000, m₂, m₃, _, hsetup, halloc, clearpteu_of_present hp₂, by rw [hwalk], hcopy,
    ?_, ?_⟩
  · rw [hag.mem extmem (fun p hp => .inl (by
      have := (List.mem_map.mp hp)
      obtain ⟨i, -, rfl⟩ := this
      simp only [extmem]
      omega))]
    decide
  · simp [write, extmem, pteAddr, pgsize]

/-! ## `fork` after a shrink to size zero -/

/-- `fork` after `sbrk(-100)` on the one-page process of `execMachine`: the
shrink freed page `0` but kept `sz = 100`; `allocproc` takes that page for
the child's kernel stack, and `copyuvm(pgdir, 100)` then finds the PTE of
page `0` cleared and panics. -/
theorem fork_after_shrink_panics :
    ∃ m₁ m₂ kstack, growproc execMachine 0x200000 100 (-(100 : Nat)) = .ok (m₁, 100, -1) ∧
      kalloc m₁ = (m₂, some kstack) ∧
      copyuvm m₂ 0x200000 100 = .error (.panic "copyuvm: page not present") := by
  have hmaps : Maps execMachine 0x200000 0 0x201000 0x202000 :=
    ⟨by decide, by decide, by decide, by decide⟩
  set m₁ := ({ execMachine.fill 0x202000 pgsize 1 with
    freelist := 0x202000 :: execMachine.freelist } : Machine).setWord 0x201000 0 with hm₁
  refine ⟨m₁, { m₁ with freelist := execPool }, 0x202000,
    growproc_shrink_of_maps (by decide) (by decide) hmaps (by decide) (by decide) (by decide), rfl, ?_⟩
  obtain ⟨rest, hfl⟩ : ∃ rest, ({ m₁ with freelist := execPool } : Machine).freelist =
      0x400000 :: rest := ⟨_, rfl⟩
  have hrest : rest.length = 129 := by
    have hlen : execPool.length = 130 := by simp [execPool]
    rw [show execPool = 0x400000 :: rest from hfl, List.length_cons] at hlen
    omega
  -- the parent's directory slot is kept, its PTE cleared
  have hpde : word m₁.mem (pdeAddr 0x200000 0) = 0x201007 := by
    simp only [m₁, Machine.setWord, Machine.fill, pdeAddr, show pdx 0 = 0 from rfl]
    rw [word_setWord_of_disjoint (by omega), word_write_of_disjoint (by simp)]
    decide
  have hpte : word m₁.mem 0x201000 = 0 := word_setWord_self (by decide)
  refine copyuvm_of_hole hfl execPool_valid execPool_nodup (by omega) (by decide) (by decide)
    (by decide) (by decide) (by decide) (not_mem_execPool (by decide)) ?_ ?_ ?_
  · show word m₁.mem (pdeAddr 0x200000 0) % 2 = 1
    rw [hpde]
  · show pteAddr (word m₁.mem (pdeAddr 0x200000 0)) ∉ execPool
    rw [hpde]
    exact not_mem_execPool (by decide)
  · show word m₁.mem (pteAddr (word m₁.mem (pdeAddr 0x200000 0))) % 2 = 0
    rw [hpde, show pteAddr 0x201007 = 0x201000 from rfl, hpte]

end Xv6.Vm
