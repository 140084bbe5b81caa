import Xv6.PageDir

/-!
# Shrinking a process: `deallocuvm`

`deallocuvm(pgdir, oldsz, newsz)` walks the pages from `PGROUNDUP(newsz)`
below `oldsz`.  Where a directory slot has no page table it skips to the
first page of the next slot; where a PTE is present it frees the page and
clears the entry.  Below `KERNBASE` the skip never wraps, so the loop ends
within its fuel.

The result is exact when the pages of the range are pages `kfree` takes,
each mapped once, and neither the directory nor one of its tables
(`Freeable`).  Then afterwards no page of the range is mapped, no directory
slot and no PTE of a page outside the range has changed, and the free list
has gained each page mapped in the range once.  A directory that maps one
page at two addresses of the range gets it freed twice.
-/

namespace Xv6.Vm

open ByteStore

/-- The page that `va` is mapped to: its slot has a table and its PTE is
present. -/
def mapped (m : Machine) (pgdir va : Nat) : Option Nat :=
  if pde m pgdir (pdx va) % 2 = 1 ∧ slot m pgdir (pdx va) (ptx va) % 2 = 1 then
    some (pteAddr (slot m pgdir (pdx va) (ptx va)))
  else none

/-- A page `deallocuvm` can free without touching its own tables: `kfree`
takes it, and it is neither the directory nor one of its page tables. -/
structure FreeablePage (m : Machine) (pgdir p : Nat) : Prop where
  pos : 0 < p
  kend : m.kend ≤ p
  phystop : p < phystop
  ne_dir : p ≠ pgdir
  ne_table : ∀ i < 1024, pde m pgdir i % 2 = 1 → p ≠ ptab m pgdir i

/-- What `deallocuvm` needs of `pgdir` and the pages from `a₀` below
`oldsz`: no two slots share a table, no table is the directory, and every
page mapped in the range is freeable and mapped at one address only. -/
structure Freeable (m : Machine) (pgdir a₀ oldsz : Nat) : Prop where
  dir_align : pgdir % pgsize = 0
  table_ne_dir : ∀ i < 1024, pde m pgdir i % 2 = 1 → ptab m pgdir i ≠ pgdir
  table_inj : ∀ i < 1024, ∀ j < 1024, pde m pgdir i % 2 = 1 → pde m pgdir j % 2 = 1 →
    ptab m pgdir i = ptab m pgdir j → i = j
  page : ∀ va p, va % pgsize = 0 → a₀ ≤ va → va < oldsz → mapped m pgdir va = some p →
    FreeablePage m pgdir p
  page_inj : ∀ va va' p, va % pgsize = 0 → va' % pgsize = 0 → a₀ ≤ va → va < oldsz →
    a₀ ≤ va' → va' < oldsz → mapped m pgdir va = some p → mapped m pgdir va' = some p → va = va'

section Mapped

variable {m m' : Machine} {pgdir va : Nat}

theorem mapped_of_absent (hd : pde m pgdir (pdx va) % 2 = 0) : mapped m pgdir va = none := by
  simp [mapped, hd]

theorem mapped_of_not_present (hp : slot m pgdir (pdx va) (ptx va) % 2 = 0) :
    mapped m pgdir va = none := by
  simp [mapped, hp]

theorem mapped_of_present (hd : pde m pgdir (pdx va) % 2 = 1)
    (hp : slot m pgdir (pdx va) (ptx va) % 2 = 1) :
    mapped m pgdir va = some (pteAddr (slot m pgdir (pdx va) (ptx va))) := by
  simp [mapped, hd, hp]

/-- Two machines with the same slot and PTE for `va` map it alike. -/
theorem mapped_congr (hd : pde m' pgdir (pdx va) = pde m pgdir (pdx va))
    (hs : slot m' pgdir (pdx va) (ptx va) = slot m pgdir (pdx va) (ptx va)) :
    mapped m' pgdir va = mapped m pgdir va := by
  simp only [mapped, hd, hs]

/-- An address is mapped as the first address of its page. -/
theorem mapped_pgrounddown (m : Machine) (pgdir va : Nat) :
    mapped m pgdir (pgrounddown va) = mapped m pgdir va := by
  have hd : pdx (pgrounddown va) = pdx va := by
    simp only [pdx, pgrounddown, pgsize]
    omega
  have ht : ptx (pgrounddown va) = ptx va := by
    simp only [ptx, pgrounddown, pgsize]
    omega
  simp only [mapped, hd, ht]

end Mapped

/-! ## The loop's arithmetic below `KERNBASE` -/

section Arith

variable {a va : Nat}

/-- Below `KERNBASE` the slot of an address is its quotient by `2 ^ 22`. -/
theorem pdx_of_lt_kernbase (ha : a < kernbase) : pdx a = a / 2 ^ 22 := by
  simp only [pdx, kernbase] at *
  omega

/-- The skip over a slot with no table lands on the first page of the next
slot, which is still below `2 ^ 31`. -/
theorem skip_eq (ha : a < kernbase) :
    ((pgaddr (pdx a + 1) 0 0 + 2 ^ 32 - pgsize) % 2 ^ 32 + pgsize) % 2 ^ 32 =
      (pdx a + 1) * 2 ^ 22 := by
  have hd := pdx_of_lt_kernbase ha
  simp only [pgaddr, Nat.zero_mul, Nat.or_zero, pgsize, kernbase] at *
  omega

/-- Every address from `a` to the next slot's first page is in `a`'s slot. -/
theorem pdx_of_lt_skip (ha : a < kernbase) (hva : a ≤ va) (hlt : va < (pdx a + 1) * 2 ^ 22) :
    pdx va = pdx a := by
  have hd := pdx_of_lt_kernbase ha
  simp only [pdx, kernbase] at *
  omega

/-- The skip moves at least one page on, to an aligned address. -/
theorem skip_gt (ha : a < kernbase) (halign : a % pgsize = 0) :
    a + pgsize ≤ (pdx a + 1) * 2 ^ 22 ∧ (pdx a + 1) * 2 ^ 22 % pgsize = 0 := by
  have hd := pdx_of_lt_kernbase ha
  simp only [pgsize, kernbase] at *
  omega

/-- An aligned address past an aligned `a` is at least a page past it. -/
theorem next_le_of_lt (halign : a % pgsize = 0) (hva : va % pgsize = 0) (hlt : a < va) :
    a + pgsize ≤ va := by
  simp only [pgsize] at *
  omega

theorem next_eq (ha : a < kernbase) : (a + pgsize) % 2 ^ 32 = a + pgsize := by
  simp only [pgsize, kernbase] at *
  omega

end Arith

/-! ## One round of the loop -/

section Round

variable {m : Machine} {pgdir a oldsz fuel : Nat}

theorem deallocuvmLoop_absent (ha : a < oldsz) (hd : pde m pgdir (pdx a) % 2 = 0) :
    deallocuvmLoop pgdir oldsz (fuel + 1) m a =
      deallocuvmLoop pgdir oldsz fuel m
        (((pgaddr (pdx a + 1) 0 0 + 2 ^ 32 - pgsize) % 2 ^ 32 + pgsize) % 2 ^ 32) := by
  rw [deallocuvmLoop, if_pos ha, walkpgdir_of_absent hd]

theorem walkpgdir_of_pde (hd : pde m pgdir (pdx a) % 2 = 1) :
    walkpgdir m pgdir a false = (m, some (ptab m pgdir (pdx a) + 4 * ptx a)) :=
  walkpgdir_of_present hd false

theorem deallocuvmLoop_not_present (ha : a < oldsz) (hd : pde m pgdir (pdx a) % 2 = 1)
    (hp : slot m pgdir (pdx a) (ptx a) % 2 = 0) :
    deallocuvmLoop pgdir oldsz (fuel + 1) m a =
      deallocuvmLoop pgdir oldsz fuel m ((a + pgsize) % 2 ^ 32) := by
  have hp' : word m.mem (ptab m pgdir (pdx a) + 4 * ptx a) &&& pteP = 0 := by
    rw [and_pteP]
    exact hp
  simp only [deallocuvmLoop, if_pos ha, walkpgdir_of_pde hd, hp']
  simp

end Round

/-! ## Freeing one page -/

section FreeOne

variable {m₁ : Machine} {pgdir a p : Nat}

@[simp] theorem pde_with_freelist (m : Machine) (l : List Nat) (pgdir i : Nat) :
    pde { m with freelist := l } pgdir i = pde m pgdir i := rfl

@[simp] theorem slot_with_freelist (m : Machine) (l : List Nat) (pgdir i j : Nat) :
    slot { m with freelist := l } pgdir i j = slot m pgdir i j := rfl

/-- What `kfree` of page `p` and the cleared PTE of `a` leave. -/
def freeClear (m₁ : Machine) (pgdir a p : Nat) : Machine :=
  ({ m₁.fill p pgsize 1 with freelist := p :: m₁.freelist } : Machine).setWord
    (ptab m₁ pgdir (pdx a) + 4 * ptx a) 0

/-- The junk fill of a page that is not the directory keeps every
directory slot. -/
theorem pde_fill_freeable (hdir : pgdir % pgsize = 0) (hpage : FreeablePage m₁ pgdir p)
    (halign : p % pgsize = 0) {i : Nat} (hi : i < 1024) :
    pde (m₁.fill p pgsize 1) pgdir i = pde m₁ pgdir i :=
  pde_fill_of_ne 1 halign hdir hpage.ne_dir hi

variable (hdir : pgdir % pgsize = 0)
  (htd : ∀ i < 1024, pde m₁ pgdir i % 2 = 1 → ptab m₁ pgdir i ≠ pgdir)
  (hpage : FreeablePage m₁ pgdir p) (halign : p % pgsize = 0)
  (hd : pde m₁ pgdir (pdx a) % 2 = 1)
include hdir htd hpage halign hd

theorem pde_freeClear {i : Nat} (hi : i < 1024) : pde (freeClear m₁ pgdir a p) pgdir i = pde m₁ pgdir i := by
  have hfill := pde_fill_freeable hdir hpage halign (pdx_lt a)
  have hne : ptab (m₁.fill p pgsize 1) pgdir (pdx a) ≠ pgdir := by
    rw [ptab_congr hfill]
    exact htd _ (pdx_lt a) hd
  unfold freeClear
  rw [← ptab_congr hfill]
  exact (pde_setWord_table hdir hne (ptx_lt a) hi).trans (pde_fill_freeable hdir hpage halign hi)

/-- Every other PTE of a slot with a table is kept. -/
theorem slot_freeClear
    (hinj : ∀ i < 1024, ∀ j < 1024, pde m₁ pgdir i % 2 = 1 → pde m₁ pgdir j % 2 = 1 →
      ptab m₁ pgdir i = ptab m₁ pgdir j → i = j)
    {i j : Nat} (hi : i < 1024) (hj : j < 1024) (hdi : pde m₁ pgdir i % 2 = 1)
    (hij : i ≠ pdx a ∨ j ≠ ptx a) :
    slot (freeClear m₁ pgdir a p) pgdir i j = slot m₁ pgdir i j := by
  have hfill := pde_fill_freeable hdir hpage halign (pdx_lt a)
  have hfill_i := pde_fill_freeable hdir hpage halign hi
  have hne : ptab (m₁.fill p pgsize 1) pgdir (pdx a) ≠ pgdir := by
    rw [ptab_congr hfill]
    exact htd _ (pdx_lt a) hd
  -- two slots apart have tables apart
  have hsep : ptab (m₁.fill p pgsize 1) pgdir i ≠ ptab (m₁.fill p pgsize 1) pgdir (pdx a) ∨
      j ≠ ptx a := by
    rw [ptab_congr hfill, ptab_congr hfill_i]
    rcases hij with hi' | hj'
    · exact .inl fun h => hi' (hinj i hi _ (pdx_lt a) hdi hd h)
    · exact .inr hj'
  unfold freeClear
  rw [← ptab_congr hfill]
  exact (slot_setWord_table hdir hne (ptx_lt a) hi hj hsep).trans
    (slot_fill_of_ne 1 halign hdir hpage.ne_dir hi hj (hpage.ne_table i hi hdi).symm)

/-- The PTE of `a` is cleared. -/
theorem slot_freeClear_self : slot (freeClear m₁ pgdir a p) pgdir (pdx a) (ptx a) = 0 := by
  have hpde := pde_freeClear hdir htd hpage halign hd (a := a) (pdx_lt a)
  unfold slot
  rw [ptab_congr hpde]
  exact word_setWord_self (by decide)

end FreeOne

/-! ## The loop's invariant -/

/-- Where the loop of `deallocuvm` stands at `a`, against the machine
`m` it started from: every directory slot as it was; every page from `a₀`
below `a` unmapped; the PTE of every page outside them as it was; the
pages passed `oldsz` only over slots with no table; and the free list
grown by `freed`, the pages mapped from `a₀` below `a`, each once. -/
structure Swept (m : Machine) (pgdir a₀ oldsz a : Nat) (freed : List Nat) (m₁ : Machine) :
    Prop where
  pde_eq : ∀ i < 1024, pde m₁ pgdir i = pde m pgdir i
  kend_eq : m₁.kend = m.kend
  cleared : ∀ va, va % pgsize = 0 → a₀ ≤ va → va < a → mapped m₁ pgdir va = none
  slot_eq : ∀ va, va % pgsize = 0 → va < 2 ^ 32 → (va < a₀ ∨ a ≤ va) →
    pde m pgdir (pdx va) % 2 = 1 → slot m₁ pgdir (pdx va) (ptx va) = slot m pgdir (pdx va) (ptx va)
  past : ∀ va, va % pgsize = 0 → oldsz ≤ va → a₀ ≤ va → va < a → pde m pgdir (pdx va) % 2 = 0
  freelist_eq : m₁.freelist = freed ++ m.freelist
  nodup : freed.Nodup
  mem_freed : ∀ p, p ∈ freed ↔
    ∃ va, va % pgsize = 0 ∧ a₀ ≤ va ∧ va < a ∧ mapped m pgdir va = some p

section Sweep

variable {m m₁ : Machine} {pgdir a₀ oldsz a : Nat} {freed : List Nat}

theorem Swept.start (m : Machine) (pgdir a₀ oldsz : Nat) : Swept m pgdir a₀ oldsz a₀ [] m := by
  refine ⟨fun _ _ => rfl, rfl, fun _ _ h₁ h₂ => absurd h₂ (by omega), fun _ _ _ _ _ => rfl,
    fun _ _ _ h₁ h₂ => absurd h₂ (by omega), rfl, List.nodup_nil, fun p => ⟨?_, ?_⟩⟩
  · intro h
    cases h
  · rintro ⟨_, _, h₁, h₂, _⟩
    exact absurd h₂ (by omega)

/-- The machine's tables are the start's, so what `Freeable` says of them
holds here. -/
theorem Swept.table_ne_dir (hs : Swept m pgdir a₀ oldsz a freed m₁)
    (hf : Freeable m pgdir a₀ oldsz) {i : Nat} (hi : i < 1024) (hd : pde m₁ pgdir i % 2 = 1) :
    ptab m₁ pgdir i ≠ pgdir := by
  rw [ptab_congr (hs.pde_eq i hi)]
  exact hf.table_ne_dir i hi (hs.pde_eq i hi ▸ hd)

theorem Swept.table_inj (hs : Swept m pgdir a₀ oldsz a freed m₁)
    (hf : Freeable m pgdir a₀ oldsz) {i j : Nat} (hi : i < 1024) (hj : j < 1024)
    (hdi : pde m₁ pgdir i % 2 = 1) (hdj : pde m₁ pgdir j % 2 = 1)
    (h : ptab m₁ pgdir i = ptab m₁ pgdir j) : i = j := by
  rw [ptab_congr (hs.pde_eq i hi), ptab_congr (hs.pde_eq j hj)] at h
  exact hf.table_inj i hi j hj (hs.pde_eq i hi ▸ hdi) (hs.pde_eq j hj ▸ hdj) h

theorem Swept.freeablePage (hs : Swept m pgdir a₀ oldsz a freed m₁) {p : Nat}
    (hp : FreeablePage m pgdir p) : FreeablePage m₁ pgdir p := by
  refine ⟨hp.pos, hs.kend_eq ▸ hp.kend, hp.phystop, hp.ne_dir, fun i hi hd => ?_⟩
  rw [ptab_congr (hs.pde_eq i hi)]
  exact hp.ne_table i hi (hs.pde_eq i hi ▸ hd)

/-- The pages from `a` on are mapped as at the start. -/
theorem Swept.mapped_eq (hs : Swept m pgdir a₀ oldsz a freed m₁) {va : Nat}
    (hva : va % pgsize = 0) (hva32 : va < 2 ^ 32) (h : a ≤ va) :
    mapped m₁ pgdir va = mapped m pgdir va := by
  by_cases hd : pde m pgdir (pdx va) % 2 = 1
  · exact mapped_congr (hs.pde_eq _ (pdx_lt va)) (hs.slot_eq va hva hva32 (.inr h) hd)
  · rw [mapped_of_absent (by rw [hs.pde_eq _ (pdx_lt va)]; omega), mapped_of_absent (by omega)]

/-- Moving the cursor past pages the start does not map frees nothing more. -/
theorem Swept.mem_freed_of_unmapped (hs : Swept m pgdir a₀ oldsz a freed m₁) {a' : Nat}
    (hle : a ≤ a') (hun : ∀ va, va % pgsize = 0 → a ≤ va → va < a' → mapped m pgdir va = none)
    (p : Nat) :
    p ∈ freed ↔ ∃ va, va % pgsize = 0 ∧ a₀ ≤ va ∧ va < a' ∧ mapped m pgdir va = some p := by
  rw [hs.mem_freed]
  constructor
  · rintro ⟨va, hva, h₁, h₂, hmap⟩
    exact ⟨va, hva, h₁, by omega, hmap⟩
  · rintro ⟨va, hva, h₁, h₂, hmap⟩
    refine ⟨va, hva, h₁, ?_, hmap⟩
    by_contra hge
    rw [hun va hva (by omega) h₂] at hmap
    cases hmap

variable (hs : Swept m pgdir a₀ oldsz a freed m₁) (hold : oldsz ≤ kernbase) (ha : a < oldsz)
  (halign : a % pgsize = 0)
include hs hold ha halign

/-- A slot with no table: the loop skips to the next slot's first page. -/
theorem Swept.skip (hd : pde m₁ pgdir (pdx a) % 2 = 0) :
    Swept m pgdir a₀ oldsz ((pdx a + 1) * 2 ^ 22) freed m₁ := by
  have hk : a < kernbase := by omega
  have hgt := skip_gt hk halign
  have hdm : pde m pgdir (pdx a) % 2 = 0 := hs.pde_eq _ (pdx_lt a) ▸ hd
  -- every address the skip passes is in the slot of `a`
  have hslot : ∀ va, a ≤ va → va < (pdx a + 1) * 2 ^ 22 → pdx va = pdx a :=
    fun va h₁ h₂ => pdx_of_lt_skip hk h₁ h₂
  refine ⟨hs.pde_eq, hs.kend_eq, fun va hva h₁ h₂ => ?_, fun va hva hlt hout hdva => ?_,
    fun va hva h₁ h₀ h₂ => ?_, hs.freelist_eq, hs.nodup,
    hs.mem_freed_of_unmapped (by have := hgt.1; omega) fun va _ h₁ h₂ =>
      mapped_of_absent (hslot va h₁ h₂ ▸ hdm)⟩
  · by_cases hlt : va < a
    · exact hs.cleared va hva h₁ hlt
    · exact mapped_of_absent (hslot va (by omega) h₂ ▸ hd)
  · exact hs.slot_eq va hva hlt (by omega) hdva
  · by_cases hlt : va < a
    · exact hs.past va hva h₁ h₀ hlt
    · exact hslot va (by omega) h₂ ▸ hdm

/-- A PTE that is not present: the loop moves to the next page. -/
theorem Swept.next (hd : pde m₁ pgdir (pdx a) % 2 = 1)
    (hp : slot m₁ pgdir (pdx a) (ptx a) % 2 = 0) :
    Swept m pgdir a₀ oldsz (a + pgsize) freed m₁ := by
  have hk : a < kernbase := by omega
  have hdm : pde m pgdir (pdx a) % 2 = 1 := hs.pde_eq _ (pdx_lt a) ▸ hd
  have hpm : slot m pgdir (pdx a) (ptx a) % 2 = 0 := by
    rw [← hs.slot_eq a halign (by simp only [kernbase] at hk; omega) (.inr le_rfl) hdm]
    exact hp
  -- the only page passed is `a`
  have honly : ∀ va, va % pgsize = 0 → va < a + pgsize → ¬ va < a → va = a := fun va hva h₁ h₂ => by
    by_contra hne
    have := next_le_of_lt halign hva (by omega)
    omega
  refine ⟨hs.pde_eq, hs.kend_eq, fun va hva h₁ h₂ => ?_, fun va hva hlt hout hdva => ?_,
    fun va hva h₁ h₀ h₂ => ?_, hs.freelist_eq, hs.nodup,
    hs.mem_freed_of_unmapped (Nat.le_add_right a pgsize) fun va hva h₁ h₂ => ?_⟩
  · by_cases hlt : va < a
    · exact hs.cleared va hva h₁ hlt
    · rw [honly va hva h₂ hlt]
      exact mapped_of_not_present hp
  · exact hs.slot_eq va hva hlt (by omega) hdva
  · have := honly va hva h₂
    exact hs.past va hva h₁ h₀ (by omega)
  · rw [honly va hva h₂ (by omega)]
    exact mapped_of_not_present hpm

/-- A present PTE: the loop frees its page, clears it and moves to the next
page. -/
theorem Swept.free (hf : Freeable m pgdir a₀ oldsz) (ha₀ : a₀ ≤ a)
    (hd : pde m₁ pgdir (pdx a) % 2 = 1) (hp : slot m₁ pgdir (pdx a) (ptx a) % 2 = 1) :
    Swept m pgdir a₀ oldsz (a + pgsize) (pteAddr (slot m₁ pgdir (pdx a) (ptx a)) :: freed)
      (freeClear m₁ pgdir a (pteAddr (slot m₁ pgdir (pdx a) (ptx a)))) := by
  set p := pteAddr (slot m₁ pgdir (pdx a) (ptx a)) with hp_def
  have hk : a < kernbase := by omega
  have ha32 : a < 2 ^ 32 := by simp only [kernbase] at hk; omega
  have hdm : pde m pgdir (pdx a) % 2 = 1 := hs.pde_eq _ (pdx_lt a) ▸ hd
  -- the page freed is the one the start mapped at `a`
  have hmap : mapped m pgdir a = some p := by
    rw [← hs.mapped_eq halign ha32 le_rfl, mapped_of_present hd hp]
  have hpage := hs.freeablePage (hf.page a p halign ha₀ ha hmap)
  have hpalign : p % pgsize = 0 := pteAddr_mod _
  have htd := fun i (hi : i < 1024) hdi => hs.table_ne_dir hf hi hdi
  have hinj := fun i (hi : i < 1024) j (hj : j < 1024) hdi hdj h => hs.table_inj hf hi hj hdi hdj h
  have hdir := hf.dir_align
  -- every other page keeps its PTE
  have hkeep : ∀ va, va % pgsize = 0 → va < 2 ^ 32 → va ≠ a → pde m₁ pgdir (pdx va) % 2 = 1 →
      slot (freeClear m₁ pgdir a p) pgdir (pdx va) (ptx va) = slot m₁ pgdir (pdx va) (ptx va) := by
    intro va hva hva32 hne hdva
    refine slot_freeClear hdir htd hpage hpalign hd hinj (pdx_lt va) (ptx_lt va) hdva ?_
    by_cases hi : pdx va = pdx a
    · exact .inr fun hj => hne (eq_of_pdx_ptx hva halign hva32 ha32 hi hj)
    · exact .inl hi
  have honly : ∀ va, va % pgsize = 0 → va < a + pgsize → ¬ va < a → va = a := fun va hva h₁ h₂ => by
    by_contra hne
    have := next_le_of_lt halign hva (by omega)
    omega
  have hpde := fun i (hi : i < 1024) => pde_freeClear hdir htd hpage hpalign hd (a := a) hi
  refine ⟨fun i hi => (hpde i hi).trans (hs.pde_eq i hi), hs.kend_eq,
    fun va hva h₁ h₂ => ?_, fun va hva hva32 hout hdva => ?_, fun va hva h₁ h₀ h₂ => ?_,
    by simp [freeClear, hs.freelist_eq], ?_, fun p' => ?_⟩
  · by_cases hlt : va < a
    · -- a page swept before keeps its cleared or missing entry
      have hva32 : va < 2 ^ 32 := by omega
      by_cases hdva : pde m₁ pgdir (pdx va) % 2 = 1
      · rw [mapped_congr (hpde _ (pdx_lt va)) (hkeep va hva hva32 (by omega) hdva)]
        exact hs.cleared va hva h₁ hlt
      · exact mapped_of_absent (by rw [hpde _ (pdx_lt va)]; omega)
    · rw [honly va hva h₂ hlt]
      exact mapped_of_not_present (by rw [slot_freeClear_self hdir htd hpage hpalign hd])
  · have hne : va ≠ a := by rw [pgsize_eq] at hout; omega
    rw [hkeep va hva hva32 hne (hs.pde_eq _ (pdx_lt va) ▸ hdva)]
    exact hs.slot_eq va hva hva32 (by omega) hdva
  · have := honly va hva h₂
    exact hs.past va hva h₁ h₀ (by omega)
  · -- no page freed before is mapped at `a` too
    refine List.nodup_cons.mpr ⟨fun hmem => ?_, hs.nodup⟩
    obtain ⟨va, hva, h₁, h₂, hmapva⟩ := (hs.mem_freed p).mp hmem
    have := hf.page_inj va a p hva halign h₁ (by omega) ha₀ ha hmapva hmap
    omega
  · rw [List.mem_cons, hs.mem_freed]
    constructor
    · rintro (rfl | ⟨va, hva, h₁, h₂, hmapva⟩)
      · exact ⟨a, halign, ha₀, by simp only [pgsize]; omega, hmap⟩
      · exact ⟨va, hva, h₁, by omega, hmapva⟩
    · rintro ⟨va, hva, h₁, h₂, hmapva⟩
      by_cases hlt : va < a
      · exact .inr ⟨va, hva, h₁, hlt, hmapva⟩
      · rw [honly va hva h₂ hlt, hmap] at hmapva
        exact .inl (Option.some.inj hmapva).symm

end Sweep

/-! ## The whole loop -/

/-- From any point of the sweep, with fuel for one round per page left, the
loop returns, past `oldsz`, with the sweep complete. -/
theorem deallocuvmLoop_swept {m : Machine} {pgdir a₀ oldsz : Nat} (hf : Freeable m pgdir a₀ oldsz)
    (hold : oldsz ≤ kernbase) :
    ∀ fuel a freed m₁, a % pgsize = 0 → a₀ ≤ a → oldsz ≤ a + fuel * pgsize →
      Swept m pgdir a₀ oldsz a freed m₁ →
      ∃ a' freed' m', oldsz ≤ a' ∧ deallocuvmLoop pgdir oldsz (fuel + 1) m₁ a = .ok m' ∧
        Swept m pgdir a₀ oldsz a' freed' m' := by
  intro fuel
  -- each round moves at least one page on and spends one unit of fuel
  induction fuel with
  | zero =>
    intro a freed m₁ _ _ hfuel hs
    exact ⟨a, freed, m₁, by omega, deallocuvmLoop_done (by omega), hs⟩
  | succ fuel ih =>
    intro a freed m₁ halign ha₀ hfuel hs
    have hfuel' : oldsz ≤ a + pgsize + fuel * pgsize := by
      rw [Nat.add_mul, Nat.one_mul] at hfuel
      omega
    by_cases ha : a < oldsz
    · have hk : a < kernbase := by omega
      by_cases hd : pde m₁ pgdir (pdx a) % 2 = 1
      · by_cases hp : slot m₁ pgdir (pdx a) (ptx a) % 2 = 1
        · -- a present PTE: its page is freed
          have hmap : mapped m pgdir a = some (pteAddr (slot m₁ pgdir (pdx a) (ptx a))) := by
            rw [← hs.mapped_eq halign (by simp only [kernbase] at hk; omega) le_rfl,
              mapped_of_present hd hp]
          have hpage := hs.freeablePage (hf.page a _ halign ha₀ ha hmap)
          have hfree := kfree_of_valid (m := m₁) (pteAddr_mod _) hpage.kend hpage.phystop
          rw [deallocuvmLoop_present ha (walkpgdir_of_pde hd) hp hpage.pos.ne' hfree,
            next_eq hk]
          exact ih _ _ _ (by simp only [pgsize] at halign ⊢; omega) (by omega) hfuel'
            (hs.free hold ha halign hf ha₀ hd hp)
        · -- a PTE that is not present
          have hp0 : slot m₁ pgdir (pdx a) (ptx a) % 2 = 0 := by omega
          rw [deallocuvmLoop_not_present ha hd hp0, next_eq hk]
          exact ih _ _ _ (by simp only [pgsize] at halign ⊢; omega) (by omega) hfuel'
            (hs.next hold ha halign hd hp0)
      · -- no page table: skip to the next slot
        have hd0 : pde m₁ pgdir (pdx a) % 2 = 0 := by omega
        have hgt := skip_gt hk halign
        rw [deallocuvmLoop_absent ha hd0, skip_eq hk]
        exact ih _ _ _ hgt.2 (by omega) (by omega) (hs.skip hold ha halign hd0)
    · exact ⟨a, freed, m₁, by omega, deallocuvmLoop_done (by omega), hs⟩

theorem deallocuvm_exact (m : Machine) (pgdir oldsz newsz : Nat) (hold : oldsz ≤ kernbase)
    (hf : Freeable m pgdir (pgroundup newsz) oldsz) :
    (oldsz ≤ newsz → deallocuvm m pgdir oldsz newsz = .ok (m, oldsz)) ∧
    (newsz < oldsz → ∃ m' freed, deallocuvm m pgdir oldsz newsz = .ok (m', newsz) ∧
      (∀ va, pgroundup newsz ≤ va → va < oldsz → mapped m' pgdir va = none) ∧
      (∀ i < 1024, pde m' pgdir i = pde m pgdir i) ∧
      (∀ va, va % pgsize = 0 → va < 2 ^ 32 → (va < pgroundup newsz ∨ oldsz ≤ va) →
        pde m pgdir (pdx va) % 2 = 1 →
        slot m' pgdir (pdx va) (ptx va) = slot m pgdir (pdx va) (ptx va)) ∧
      m'.freelist = freed ++ m.freelist ∧ freed.Nodup ∧
      (∀ p, p ∈ freed ↔ ∃ va, va % pgsize = 0 ∧ pgroundup newsz ≤ va ∧ va < oldsz ∧
        mapped m pgdir va = some p)) := by
  refine ⟨fun hle => by rw [deallocuvm, if_pos hle], fun hlt => ?_⟩
  have ha₀ : pgroundup newsz % pgsize = 0 := by simp [pgroundup]
  have hps : pgsize = 4096 := rfl
  -- one round per page of the range is within the fuel `oldsz / PGSIZE + 2`
  have hfuel : oldsz ≤ pgroundup newsz + (oldsz / pgsize + 1) * pgsize := by
    rw [hps]
    omega
  obtain ⟨a', freed, m', hend, hloop, hs⟩ :=
    deallocuvmLoop_swept hf hold _ _ [] m ha₀ le_rfl hfuel (Swept.start m pgdir _ oldsz)
  -- the pages the loop passed beyond `oldsz` have no table
  have hbeyond : ∀ va, va % pgsize = 0 → oldsz ≤ va → pgroundup newsz ≤ va → va < a' →
      mapped m pgdir va = none := fun va hva h₁ h₀ h₂ =>
    mapped_of_absent (hs.past va hva h₁ h₀ h₂)
  refine ⟨m', freed, ?_, fun va h₁ h₂ => ?_, hs.pde_eq, fun va hva hva32 hout hdva => ?_,
    hs.freelist_eq, hs.nodup, fun p => ?_⟩
  · rw [deallocuvm, if_neg (by omega), hloop]
    rfl
  · -- an address is unmapped with the first address of its page
    rw [← mapped_pgrounddown]
    have hround : pgroundup newsz ≤ pgrounddown va := by
      simp only [pgrounddown, pgroundup, hps] at ha₀ h₁ ⊢
      omega
    exact hs.cleared _ (by simp [pgrounddown]) hround (by simp only [pgrounddown, hps]; omega)
  · by_cases hin : va < a'
    · rcases hout with hlow | hhigh
      · exact hs.slot_eq va hva hva32 (.inl hlow) hdva
      · by_cases hlow : va < pgroundup newsz
        · exact hs.slot_eq va hva hva32 (.inl hlow) hdva
        · have := hs.past va hva hhigh (by omega) hin
          omega
    · exact hs.slot_eq va hva hva32 (.inr (by omega)) hdva
  · rw [hs.mem_freed]
    constructor
    · rintro ⟨va, hva, h₁, h₂, hmap⟩
      refine ⟨va, hva, h₁, ?_, hmap⟩
      by_contra hge
      rw [hbeyond va hva (by omega) h₁ h₂] at hmap
      cases hmap
    · rintro ⟨va, hva, h₁, h₂, hmap⟩
      exact ⟨va, hva, h₁, by omega, hmap⟩

/-- A directory at `0x1000` with one page table, at `0x2000`, whose
entries for pages `0` and `0x1000` are `e₀` and `e₁`. -/
def twoPtes (e₀ e₁ : Nat) : Machine :=
  { mem := ByteStore.setWord (ByteStore.setWord (ByteStore.setWord (fun _ => 0) 0x1000 0x2007)
      0x2000 e₀) 0x2004 e₁,
    freelist := [], cr3 := 0x1000, kend := 0x1000, kdata := 0x108000 }

/-- Its only directory slot with a table is slot `0`. -/
theorem pde_twoPtes {e₀ e₁ i : Nat} (hi : i < 1024) (hd : pde (twoPtes e₀ e₁) 0x1000 i % 2 = 1) :
    i = 0 := by
  by_contra hne
  have hzero : pde (twoPtes e₀ e₁) 0x1000 i = 0 := by
    unfold pde twoPtes
    simp only
    rw [word_setWord_of_disjoint (by omega), word_setWord_of_disjoint (by omega),
      word_setWord_of_disjoint (by omega)]
    rfl
  rw [hzero] at hd
  cases hd

/-- The aligned addresses below `0x2000` are its two pages. -/
theorem twoPtes_pages {va : Nat} (hva : va % pgsize = 0) (hlt : va < 0x2000) : va = 0 ∨ va = 0x1000 := by
  simp only [pgsize] at hva
  omega

/-- Two pages mapped to two pages `kfree` takes. -/
theorem twoPtes_freeable : Freeable (twoPtes 0x3007 0x4007) 0x1000 (pgroundup 0) 0x2000 := by
  -- the range holds the pages `0` and `0x1000`
  have hpages : ∀ va, va % pgsize = 0 → pgroundup 0 ≤ va → va < 0x2000 → va = 0 ∨ va = 0x1000 :=
    fun va hva _ hlt => twoPtes_pages hva hlt
  have hpage : ∀ p, (p = 0x3000 ∨ p = 0x4000) → FreeablePage (twoPtes 0x3007 0x4007) 0x1000 p := by
    rintro p (rfl | rfl) <;>
      exact ⟨by decide, by decide, by decide, by decide, fun i hi hd => by
        rw [pde_twoPtes hi hd]
        decide⟩
  have hmap₀ : mapped (twoPtes 0x3007 0x4007) 0x1000 0 = some 0x3000 := by decide
  have hmap₁ : mapped (twoPtes 0x3007 0x4007) 0x1000 0x1000 = some 0x4000 := by decide
  refine ⟨by decide, fun i hi hd => by rw [pde_twoPtes hi hd]; decide,
    fun i hi j hj hdi hdj _ => by rw [pde_twoPtes hi hdi, pde_twoPtes hj hdj],
    fun va p hva hlo hhi hmap => ?_, fun va va' p hva hva' hlo hhi hlo' hhi' hmap hmap' => ?_⟩
  · apply hpage
    rcases hpages va hva hlo hhi with rfl | rfl
    · rw [hmap₀] at hmap
      exact .inl (Option.some.inj hmap).symm
    · rw [hmap₁] at hmap
      exact .inr (Option.some.inj hmap).symm
  · rcases hpages va hva hlo hhi with rfl | rfl <;> rcases hpages va' hva' hlo' hhi' with rfl | rfl <;>
      simp only [hmap₀, hmap₁, Option.some.injEq] at hmap hmap' <;> omega

/-- Shrinking the two-page process to nothing frees both its pages, once each. -/
theorem twoPtes_dealloc_frees :
    ∃ m' freed, deallocuvm (twoPtes 0x3007 0x4007) 0x1000 0x2000 0 = .ok (m', 0) ∧
      m'.freelist = freed ∧ freed.Nodup ∧ (∀ p, p ∈ freed ↔ p = 0x3000 ∨ p = 0x4000) := by
  obtain ⟨m', freed, hdealloc, -, -, -, hfl, hnodup, hmem⟩ :=
    (deallocuvm_exact (twoPtes 0x3007 0x4007) 0x1000 0x2000 0 (by decide) twoPtes_freeable).2
      (by decide)
  have hmap₀ : mapped (twoPtes 0x3007 0x4007) 0x1000 0 = some 0x3000 := by decide
  have hmap₁ : mapped (twoPtes 0x3007 0x4007) 0x1000 0x1000 = some 0x4000 := by decide
  refine ⟨m', freed, hdealloc, by simpa [twoPtes] using hfl, hnodup, fun p => ?_⟩
  rw [hmem]
  constructor
  · rintro ⟨va, hva, -, hhi, hmap⟩
    rcases twoPtes_pages hva hhi with rfl | rfl
    · rw [hmap₀] at hmap
      exact .inl (Option.some.inj hmap).symm
    · rw [hmap₁] at hmap
      exact .inr (Option.some.inj hmap).symm
  · rintro (rfl | rfl)
    · exact ⟨0, by decide, by decide, by decide, hmap₀⟩
    · exact ⟨0x1000, by decide, by decide, by decide, hmap₁⟩

/-- Pages `0` and `0x1000` both mapped to the page `0x3000`:
`deallocuvm` passes it to `kfree` twice, and the free list holds it
twice. -/
theorem deallocuvm_frees_twice :
    mapped (twoPtes 0x3007 0x3007) 0x1000 0 = some 0x3000 ∧
      mapped (twoPtes 0x3007 0x3007) 0x1000 0x1000 = some 0x3000 ∧
      ∃ m', deallocuvm (twoPtes 0x3007 0x3007) 0x1000 0x2000 0 = .ok (m', 0) ∧
        m'.freelist = [0x3000, 0x3000] :=
  ⟨by decide, by decide, _, rfl, rfl⟩

end Xv6.Vm
