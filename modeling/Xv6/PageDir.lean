import Xv6.Vm

/-!
# Building page directories

What `setupkvm`, `mappages` and `allocuvm` do to a page directory, and to
the rest of memory.  The pages a run takes all come from the free list it
starts with, the `pool`.  `Dir` is the shape of a directory under
construction: it and its page tables are pool pages off the free list, and
no two directory slots share a table.  Every write of a run lands in a
pool page, so memory outside the pool reads as before (`Agrees`).

A page is `Unmapped` when its directory slot has no table or its PTE has no
`PTE_P`; `mappages` panics on a page that is not.  Mapping the pages from
`a` to `last` keeps every other page's `Unmapped` and every directory slot
outside `PDX(a) .. PDX(last)` (`MapFrame`), and takes at most one page per
slot it fills (`need`).  From these, `setupkvm` succeeds once the free list
holds enough pages, and leaves the user half and the gap below `DEVSPACE`
without a page table.
-/

namespace Xv6.Vm

open ByteStore

/-! ## Reading a directory -/

/-- Directory slot `i` of `pgdir`. -/
def pde (m : Machine) (pgdir i : Nat) : Nat := word m.mem (pgdir + 4 * i)

/-- The page table slot `i` points at. -/
def ptab (m : Machine) (pgdir i : Nat) : Nat := pteAddr (pde m pgdir i)

/-- Entry `j` of the page table of slot `i`. -/
def slot (m : Machine) (pgdir i j : Nat) : Nat := word m.mem (ptab m pgdir i + 4 * j)

/-- The page of `va` has no present PTE. -/
def Unmapped (m : Machine) (pgdir va : Nat) : Prop :=
  pde m pgdir (pdx va) % 2 = 0 ∨ slot m pgdir (pdx va) (ptx va) % 2 = 0

/-- Memory outside the pool pages, and the registers, as in `m`. -/
structure Agrees (pool : List Nat) (m m' : Machine) : Prop where
  cr3 : m'.cr3 = m.cr3
  kend : m'.kend = m.kend
  kdata : m'.kdata = m.kdata
  mem : ∀ x, (∀ p ∈ pool, x < p ∨ p + pgsize ≤ x) → m'.mem x = m.mem x

/-- A directory under construction from the pool's pages. -/
structure Dir (pool : List Nat) (m : Machine) (pgdir : Nat) : Prop where
  dir_pool : pgdir ∈ pool
  dir_not_free : pgdir ∉ m.freelist
  free_pool : ∀ p ∈ m.freelist, p ∈ pool
  free_nodup : m.freelist.Nodup
  table_pool : ∀ i < 1024, pde m pgdir i % 2 = 1 → ptab m pgdir i ∈ pool
  table_not_free : ∀ i < 1024, pde m pgdir i % 2 = 1 → ptab m pgdir i ∉ m.freelist
  table_ne_dir : ∀ i < 1024, pde m pgdir i % 2 = 1 → ptab m pgdir i ≠ pgdir
  table_inj : ∀ i < 1024, ∀ j < 1024, pde m pgdir i % 2 = 1 → pde m pgdir j % 2 = 1 →
    ptab m pgdir i = ptab m pgdir j → i = j

/-! ## Page arithmetic -/

theorem pgsize_eq : pgsize = 4096 := rfl

theorem pdx_eq (va : Nat) : pdx va = va / 4194304 % 1024 := rfl

/-- Two aligned pages below `2 ^ 32` with the same slot and entry are one. -/
theorem eq_of_pdx_ptx {va va' : Nat} (h : va % pgsize = 0) (h' : va' % pgsize = 0)
    (hlt : va < 2 ^ 32) (hlt' : va' < 2 ^ 32) (hd : pdx va = pdx va') (ht : ptx va = ptx va') :
    va = va' := by
  simp only [pdx, ptx, pgsize] at *
  omega

theorem pdx_mono {a b : Nat} (hab : a ≤ b) : pdx a ≤ pdx b ∨ 2 ^ 32 ≤ b := by
  simp only [pdx]
  omega

/-- The slot of the next page is this one or the one after. -/
theorem pdx_next {a : Nat} (ha : a + pgsize < 2 ^ 32) :
    pdx a ≤ pdx (a + pgsize) ∧ pdx (a + pgsize) ≤ pdx a + 1 := by
  simp only [pdx, pgsize] at *
  omega

/-- A directory entry made by `walkpgdir` for the table `r`. -/
theorem or_flags_eq {r : Nat} (hr : r % pgsize = 0) : r ||| pteP ||| pteW ||| pteU = r + 7 := by
  have hsplit : r = 2 ^ 3 * (r / 8) := by simp only [pgsize] at hr; omega
  rw [show pteP = 1 from rfl, show pteW = 2 from rfl, show pteU = 4 from rfl, Nat.or_assoc,
    Nat.or_assoc, show (1 ||| (2 ||| 4) : Nat) = 7 from rfl, hsplit,
    ← Nat.two_pow_add_eq_or_of_lt (by decide)]

theorem pteAddr_add_seven {r : Nat} (hr : r % pgsize = 0) : pteAddr (r + 7) = r := by
  simp only [pteAddr, pgsize] at *
  omega

/-! ## What one write does to the views -/

section Writes

variable {m m' : Machine} {pgdir : Nat}

theorem ptab_mod (m : Machine) (pgdir i : Nat) : ptab m pgdir i % pgsize = 0 := pteAddr_mod _

theorem ptab_congr {i : Nat} (h : pde m' pgdir i = pde m pgdir i) :
    ptab m' pgdir i = ptab m pgdir i := by
  simp only [ptab, h]

theorem pde_fill_of_ne {p : Nat} (b : UInt8) (hp : p % pgsize = 0) (hdir : pgdir % pgsize = 0)
    (hne : p ≠ pgdir) {i : Nat} (hi : i < 1024) : pde (m.fill p pgsize b) pgdir i = pde m pgdir i :=
  word_write_of_disjoint (by simpa using word_apart_page hp hdir hne hi)

theorem slot_fill_of_ne {p : Nat} (b : UInt8) (hp : p % pgsize = 0) (hdir : pgdir % pgsize = 0)
    (hne : p ≠ pgdir) {i j : Nat} (hi : i < 1024) (hj : j < 1024) (ht : ptab m pgdir i ≠ p) :
    slot (m.fill p pgsize b) pgdir i j = slot m pgdir i j := by
  have hptab := ptab_congr (pde_fill_of_ne (m := m) b hp hdir hne hi)
  unfold slot
  rw [hptab]
  exact word_write_of_disjoint (by simpa using word_apart_page hp (ptab_mod m pgdir i) ht.symm hj)

/-- A table just filled with zeros has no present entry. -/
theorem slot_fill_self {i j : Nat} (hj : j < 1024)
    (hpde : pde (m.fill (ptab m pgdir i) pgsize 0) pgdir i = pde m pgdir i) :
    slot (m.fill (ptab m pgdir i) pgsize 0) pgdir i j = 0 := by
  unfold slot
  rw [ptab_congr hpde]
  exact word_write_zeros (by omega) (by simp only [pgsize]; omega)

/-- Writing entry `j` of the table of slot `i` keeps every directory slot. -/
theorem pde_setWord_table {i j k x : Nat} (hdir : pgdir % pgsize = 0) (hne : ptab m pgdir i ≠ pgdir)
    (hj : j < 1024) (hk : k < 1024) :
    pde (m.setWord (ptab m pgdir i + 4 * j) x) pgdir k = pde m pgdir k :=
  word_setWord_of_disjoint (words_apart hdir (ptab_mod m pgdir i) (Ne.symm hne) hk hj)

theorem slot_setWord_table {i j i' j' x : Nat} (hdir : pgdir % pgsize = 0)
    (hne : ptab m pgdir i ≠ pgdir) (hj : j < 1024) (hi' : i' < 1024)
    (hj' : j' < 1024) (hsep : ptab m pgdir i' ≠ ptab m pgdir i ∨ j' ≠ j) :
    slot (m.setWord (ptab m pgdir i + 4 * j) x) pgdir i' j' = slot m pgdir i' j' := by
  have hptab := ptab_congr (pde_setWord_table (x := x) hdir hne hj hi')
  unfold slot
  rw [hptab]
  apply word_setWord_of_disjoint
  by_cases hsame : ptab m pgdir i' = ptab m pgdir i
  · have hj'' : j' ≠ j := hsep.resolve_left (not_not.mpr hsame)
    rw [hsame]
    omega
  · exact words_apart (ptab_mod m pgdir i') (ptab_mod m pgdir i) hsame hj' hj

theorem pde_setWord_dir_self {i x : Nat} (hx : x < 2 ^ 32) :
    pde (m.setWord (pgdir + 4 * i) x) pgdir i = x :=
  word_setWord_self hx

theorem pde_setWord_dir_of_ne {i k x : Nat} (hne : k ≠ i) :
    pde (m.setWord (pgdir + 4 * i) x) pgdir k = pde m pgdir k :=
  word_setWord_of_disjoint (by omega)

theorem slot_setWord_dir_of_ne {i k j x : Nat} (hdir : pgdir % pgsize = 0) (hne : k ≠ i)
    (ht : ptab m pgdir k ≠ pgdir) (hi : i < 1024) (hj : j < 1024) :
    slot (m.setWord (pgdir + 4 * i) x) pgdir k j = slot m pgdir k j := by
  have hpde : pde (m.setWord (pgdir + 4 * i) x) pgdir k = pde m pgdir k := pde_setWord_dir_of_ne hne
  have hptab := ptab_congr hpde
  unfold slot
  rw [hptab]
  exact word_setWord_of_disjoint (words_apart (ptab_mod m pgdir k) hdir ht hj hi)

end Writes

/-! ## Memory outside the pool -/

section Agrees

variable {pool : List Nat} {m m₁ m₂ : Machine}

theorem Agrees.refl (m : Machine) : Agrees pool m m := ⟨rfl, rfl, rfl, fun _ _ => rfl⟩

theorem Agrees.trans (h₁ : Agrees pool m m₁) (h₂ : Agrees pool m₁ m₂) : Agrees pool m m₂ :=
  ⟨h₂.cr3.trans h₁.cr3, h₂.kend.trans h₁.kend, h₂.kdata.trans h₁.kdata,
    fun x hx => (h₂.mem x hx).trans (h₁.mem x hx)⟩

theorem agrees_pop (rest : List Nat) : Agrees pool m { m with freelist := rest } :=
  ⟨rfl, rfl, rfl, fun _ _ => rfl⟩

theorem agrees_fill {p : Nat} (hp : p ∈ pool) (b : UInt8) : Agrees pool m (m.fill p pgsize b) :=
  ⟨rfl, rfl, rfl, fun x hx => write_of_not_mem (by simpa using hx p hp)⟩

theorem agrees_setWord {p j : Nat} (hp : p ∈ pool) (hj : j < 1024) (x : Nat) :
    Agrees pool m (m.setWord (p + 4 * j) x) := by
  refine ⟨rfl, rfl, rfl, fun y hy => write_of_not_mem ?_⟩
  have := hy p hp
  simp only [length_wordBytes, pgsize] at this ⊢
  omega

end Agrees

/-! ## The frame of mapping a range of pages -/

/-- What mapping the pages from `a` to `last` keeps and makes: memory
outside the pool, every slot with a table, every slot outside the range's,
every other page's `Unmapped`, and a table for each page of the range. -/
structure MapFrame (pool : List Nat) (pgdir a last : Nat) (m m' : Machine) : Prop where
  agrees : Agrees pool m m'
  pde_keep : ∀ i < 1024, pde m pgdir i % 2 = 1 → pde m' pgdir i = pde m pgdir i
  pde_frame : ∀ i < 1024, i < pdx a ∨ pdx last < i → pde m' pgdir i = pde m pgdir i
  unmapped : ∀ va < 2 ^ 32, va % pgsize = 0 → va < a ∨ last < va →
    Unmapped m pgdir va → Unmapped m' pgdir va
  mapped : ∀ va, va % pgsize = 0 → a ≤ va → va ≤ last → pde m' pgdir (pdx va) % 2 = 1

/-- Mapping `a .. l₁`, then `b .. l₂` from the page after `l₁` or earlier. -/
theorem MapFrame.trans {pool : List Nat} {pgdir a b l₁ l₂ : Nat} {m m₁ m₂ : Machine}
    (h₁ : MapFrame pool pgdir a l₁ m m₁) (h₂ : MapFrame pool pgdir b l₂ m₁ m₂) (hab : a ≤ b)
    (hb : b ≤ l₁ + pgsize) (hbl : b ≤ l₂) (hl : l₁ ≤ l₂) (hl₁ : l₁ % pgsize = 0)
    (hl₂ : l₂ < 2 ^ 32) : MapFrame pool pgdir a l₂ m m₂ where
  agrees := h₁.agrees.trans h₂.agrees
  pde_keep i hi hp := by
    have hkeep := h₁.pde_keep i hi hp
    rw [h₂.pde_keep i hi (hkeep ▸ hp), hkeep]
  pde_frame i hi hout := by
    have hmono₁ := pdx_mono hl
    have hmono₂ := pdx_mono hab
    have hmono₃ := pdx_mono hbl
    rw [h₂.pde_frame i hi (by omega), h₁.pde_frame i hi (by omega)]
  unmapped va hva hal hout hun :=
    h₂.unmapped va hva hal (by omega) (h₁.unmapped va hva hal (by omega) hun)
  mapped va hal hlo hhi := by
    by_cases hva : va ≤ l₁
    · have hp := h₁.mapped va hal hlo hva
      rw [h₂.pde_keep _ (pdx_lt va) hp]
      exact hp
    · exact h₂.mapped va hal (by simp only [pgsize] at *; omega) hhi

/-- The page a slot's table costs: none when it has one. -/
def slotCost (m : Machine) (pgdir i : Nat) : Nat := if pde m pgdir i % 2 = 1 then 0 else 1

theorem slotCost_of_present {m : Machine} {pgdir i : Nat} (hp : pde m pgdir i % 2 = 1) : slotCost m pgdir i = 0 := by
  simp [slotCost, hp]

theorem slotCost_of_absent {m : Machine} {pgdir i : Nat} (hp : pde m pgdir i % 2 = 0) : slotCost m pgdir i = 1 := by
  simp [slotCost, hp]

theorem slotCost_le (m : Machine) (pgdir i : Nat) : slotCost m pgdir i ≤ 1 := by
  unfold slotCost
  split_ifs <;> omega

/-- The pages mapping `a .. last` can take: one for each slot of the range,
less one when the first slot has a table. -/
def need (m : Machine) (pgdir a last : Nat) : Nat :=
  pdx last - pdx a + slotCost m pgdir (pdx a)

/-- A range that ends inside the page of its last page. -/
theorem MapFrame.extend_last {pool : List Nat} {pgdir a l l' : Nat} {m m' : Machine}
    (h : MapFrame pool pgdir a l m m') (hl : l % pgsize = 0) (hle : l ≤ l') (hlt : l' < l + pgsize) :
    MapFrame pool pgdir a l' m m' where
  agrees := h.agrees
  pde_keep := h.pde_keep
  pde_frame i hi hout := by
    have hsame : pdx l' = pdx l := by simp only [pdx, pgsize] at *; omega
    exact h.pde_frame i hi (by omega)
  unmapped va hva hal hout hun := h.unmapped va hva hal (by omega) hun
  mapped va hal hlo hhi := h.mapped va hal hlo (by simp only [pgsize] at *; omega)

theorem unmapped_of_view_eq {m m₁ : Machine} {pgdir va : Nat}
    (hpde : ∀ i < 1024, pde m₁ pgdir i = pde m pgdir i)
    (hslot : ∀ i < 1024, pde m pgdir i % 2 = 1 → ∀ j < 1024, slot m₁ pgdir i j = slot m pgdir i j)
    (hun : Unmapped m pgdir va) : Unmapped m₁ pgdir va := by
  rcases hun with habs | hzero
  · exact .inl (by rw [hpde _ (pdx_lt va)]; exact habs)
  · by_cases hp : pde m pgdir (pdx va) % 2 = 1
    · exact .inr (by rw [hslot _ (pdx_lt va) hp _ (ptx_lt va)]; exact hzero)
    · exact .inl (by rw [hpde _ (pdx_lt va)]; omega)

/-- A write no view sees, then a mapping. -/
theorem MapFrame.of_view_eq {pool : List Nat} {pgdir a l : Nat} {m m₁ m₂ : Machine}
    (hag : Agrees pool m m₁) (hpde : ∀ i < 1024, pde m₁ pgdir i = pde m pgdir i)
    (hslot : ∀ i < 1024, pde m pgdir i % 2 = 1 → ∀ j < 1024, slot m₁ pgdir i j = slot m pgdir i j)
    (h : MapFrame pool pgdir a l m₁ m₂) : MapFrame pool pgdir a l m m₂ where
  agrees := hag.trans h.agrees
  pde_keep i hi hp := by
    rw [h.pde_keep i hi (by rw [hpde i hi]; exact hp), hpde i hi]
  pde_frame i hi hout := by rw [h.pde_frame i hi hout, hpde i hi]
  unmapped va hva hal hout hun := h.unmapped va hva hal hout (unmapped_of_view_eq hpde hslot hun)
  mapped := h.mapped

/-! ## The directory invariant under each write -/

section Invariant

variable {pool : List Nat} {m m₁ m₂ : Machine} {pgdir : Nat}

/-- The head of the free list is a pool page that is neither the
directory nor any of its tables. -/
theorem Dir.head_fresh (hd : Dir pool m pgdir) {r : Nat} {rest : List Nat}
    (hfl : m.freelist = r :: rest) :
    r ∈ pool ∧ r ≠ pgdir ∧ r ∉ rest ∧ ∀ i < 1024, pde m pgdir i % 2 = 1 → ptab m pgdir i ≠ r := by
  have hr : r ∈ m.freelist := by simp [hfl]
  have hnodup := hd.free_nodup
  rw [hfl, List.nodup_cons] at hnodup
  refine ⟨hd.free_pool r hr, fun h => hd.dir_not_free (h ▸ hr), hnodup.1, ?_⟩
  intro i hi hp h
  exact hd.table_not_free i hi hp (h ▸ hr)

/-- A write that keeps every directory slot, with a free list taken from
the old one, keeps `Dir`. -/
theorem Dir.of_pde_eq (hd : Dir pool m pgdir) (hsub : ∀ p ∈ m₁.freelist, p ∈ m.freelist)
    (hnodup : m₁.freelist.Nodup) (hpde : ∀ i < 1024, pde m₁ pgdir i = pde m pgdir i) :
    Dir pool m₁ pgdir where
  dir_pool := hd.dir_pool
  dir_not_free h := hd.dir_not_free (hsub _ h)
  free_pool p hp := hd.free_pool p (hsub p hp)
  free_nodup := hnodup
  table_pool i hi hp := by
    rw [ptab_congr (hpde i hi)]
    exact hd.table_pool i hi (hpde i hi ▸ hp)
  table_not_free i hi hp h := by
    rw [ptab_congr (hpde i hi)] at h
    exact hd.table_not_free i hi (hpde i hi ▸ hp) (hsub _ h)
  table_ne_dir i hi hp := by
    rw [ptab_congr (hpde i hi)]
    exact hd.table_ne_dir i hi (hpde i hi ▸ hp)
  table_inj i hi j hj hpi hpj h := by
    rw [ptab_congr (hpde i hi), ptab_congr (hpde j hj)] at h
    exact hd.table_inj i hi j hj (hpde i hi ▸ hpi) (hpde j hj ▸ hpj) h

variable (hpool : ∀ p ∈ pool, p % pgsize = 0 ∧ p < phystop)
include hpool

theorem Dir.aligned (hd : Dir pool m pgdir) : pgdir % pgsize = 0 := (hpool _ hd.dir_pool).1

/-- `kalloc` then `memset`: the head page leaves the free list and is filled;
the directory and its tables read as before. -/
theorem Dir.take (hd : Dir pool m pgdir) {r : Nat} {rest : List Nat} (hfl : m.freelist = r :: rest)
    (b : UInt8) (hm₁ : m₁ = ({ m with freelist := rest } : Machine).fill r pgsize b) :
    Dir pool m₁ pgdir ∧ (∀ k < 1024, pde m₁ pgdir k = pde m pgdir k) ∧
      (∀ k < 1024, pde m pgdir k % 2 = 1 → ∀ j < 1024, slot m₁ pgdir k j = slot m pgdir k j) ∧
      Agrees pool m m₁ := by
  obtain ⟨hr, hrdir, hrest, hrtab⟩ := hd.head_fresh hfl
  have hralign := (hpool r hr).1
  have hdir := hd.aligned hpool
  have hpde : ∀ k < 1024, pde m₁ pgdir k = pde m pgdir k := fun k hk => by
    rw [hm₁]
    exact pde_fill_of_ne (m := { m with freelist := rest }) b hralign hdir hrdir hk
  have hnodup := hd.free_nodup
  rw [hfl, List.nodup_cons] at hnodup
  have hsub : ∀ p ∈ m₁.freelist, p ∈ m.freelist := fun p hp => by
    rw [hm₁] at hp
    rw [hfl]
    exact List.mem_cons_of_mem _ hp
  refine ⟨hd.of_pde_eq hsub (by rw [hm₁]; exact hnodup.2) hpde, hpde, ?_, ?_⟩
  · intro k hk hp j hj
    rw [hm₁]
    exact slot_fill_of_ne (m := { m with freelist := rest }) b hralign hdir hrdir hk hj (hrtab k hk hp)
  · rw [hm₁]
    exact (agrees_pop rest).trans (agrees_fill hr b)

/-- Writing the PTE of `a` in a table that is there: the directory reads
as before apart from that entry. -/
theorem Dir.setWord_table (hd : Dir pool m pgdir) {a x : Nat} (ha : a % pgsize = 0)
    (hlt : a < 2 ^ 32) (hp : pde m pgdir (pdx a) % 2 = 1)
    (hm₂ : m₂ = m.setWord (ptab m pgdir (pdx a) + 4 * ptx a) x) :
    Dir pool m₂ pgdir ∧ MapFrame pool pgdir a a m m₂ := by
  have hdir := hd.aligned hpool
  have hne := hd.table_ne_dir _ (pdx_lt a) hp
  have hpde : ∀ k < 1024, pde m₂ pgdir k = pde m pgdir k := fun k hk => by
    rw [hm₂]
    exact pde_setWord_table hdir hne (ptx_lt a) hk
  refine ⟨hd.of_pde_eq (by rw [hm₂]; exact fun p hp => hp) (by rw [hm₂]; exact hd.free_nodup) hpde,
    ⟨?_, fun k hk _ => hpde k hk, fun k hk _ => hpde k hk, ?_, ?_⟩⟩
  · rw [hm₂]
    exact agrees_setWord (hd.table_pool _ (pdx_lt a) hp) (ptx_lt a) x
  · intro va hva hal hout hun
    rcases hun with habs | hzero
    · exact .inl (by rw [hpde _ (pdx_lt va)]; exact habs)
    · by_cases hpva : pde m pgdir (pdx va) % 2 = 1
      · -- another page: another table, or another entry of the same one
        have hsep : ptab m pgdir (pdx va) ≠ ptab m pgdir (pdx a) ∨ ptx va ≠ ptx a := by
          by_contra hsame
          simp only [not_or, not_not] at hsame
          have hi := hd.table_inj _ (pdx_lt va) _ (pdx_lt a) hpva hp hsame.1
          have := eq_of_pdx_ptx hal ha hva hlt hi hsame.2
          omega
        refine .inr ?_
        rw [hm₂, slot_setWord_table hdir hne (ptx_lt a) (pdx_lt va) (ptx_lt va) hsep]
        exact hzero
      · exact .inl (by rw [hpde _ (pdx_lt va)]; omega)
  · intro va _ hlo hhi
    have hva : va = a := by omega
    rw [hva, hpde _ (pdx_lt a)]
    exact hp

/-- `walkpgdir` making the table of an empty slot from the head page `r`. -/
theorem Dir.alloc (hd : Dir pool m pgdir) {a r : Nat} {rest : List Nat}
    (habs : pde m pgdir (pdx a) % 2 = 0) (hfl : m.freelist = r :: rest)
    (hm₁ : m₁ = (({ m with freelist := rest } : Machine).fill r pgsize 0).setWord
      (pgdir + 4 * pdx a) (r ||| pteP ||| pteW ||| pteU)) :
    Dir pool m₁ pgdir ∧ MapFrame pool pgdir a a m m₁ ∧ ptab m₁ pgdir (pdx a) = r ∧
      ∀ j < 1024, slot m₁ pgdir (pdx a) j = 0 := by
  obtain ⟨hr, hrdir, hrest, hrtab⟩ := hd.head_fresh hfl
  have hralign := (hpool r hr).1
  have hrlt := (hpool r hr).2
  have hdir := hd.aligned hpool
  set m₀ := ({ m with freelist := rest } : Machine).fill r pgsize 0 with hm₀
  obtain ⟨hd₀, hpde₀, hslot₀, hag₀⟩ := hd.take hpool hfl 0 hm₀
  have hval : r ||| pteP ||| pteW ||| pteU = r + 7 := or_flags_eq hralign
  have hself : pde m₁ pgdir (pdx a) = r + 7 := by
    rw [hm₁, hval]
    exact pde_setWord_dir_self (by simp only [phystop] at hrlt; omega)
  have hother : ∀ k < 1024, k ≠ pdx a → pde m₁ pgdir k = pde m pgdir k := fun k _ hk => by
    rw [hm₁, pde_setWord_dir_of_ne hk, hpde₀ k ‹_›]
  have hptab : ptab m₁ pgdir (pdx a) = r := by
    rw [ptab, hself, pteAddr_add_seven hralign]
  have hpresent : pde m₁ pgdir (pdx a) % 2 = 1 := by
    rw [hself]
    simp only [pgsize] at hralign
    omega
  have hzero : ∀ j < 1024, slot m₁ pgdir (pdx a) j = 0 := fun j hj => by
    have hkeep := word_setWord_of_disjoint (d := m₀.mem) (x := r ||| pteP ||| pteW ||| pteU)
      (words_apart hralign hdir hrdir hj (pdx_lt a))
    rw [slot, hptab, hm₁]
    simp only [Machine.setWord]
    rw [hkeep, hm₀]
    exact word_write_zeros (by omega) (by simp only [pgsize]; omega)
  -- the other slots, and their tables, read as before
  have hslot : ∀ k < 1024, pde m pgdir k % 2 = 1 → ∀ j < 1024, slot m₁ pgdir k j = slot m pgdir k j := by
    intro k hk hp j hj
    have hki : k ≠ pdx a := fun h => by rw [h] at hp; omega
    rw [hm₁, slot_setWord_dir_of_ne hdir hki (hd₀.table_ne_dir k hk (by rw [hpde₀ k hk]; exact hp))
      (pdx_lt a) hj, hslot₀ k hk hp j hj]
  refine ⟨⟨hd.dir_pool, ?_, ?_, ?_, ?_, ?_, ?_, ?_⟩, ⟨?_, ?_, ?_, ?_, ?_⟩, hptab, hzero⟩
  · rw [hm₁]
    exact hd₀.dir_not_free
  · rw [hm₁]
    exact hd₀.free_pool
  · rw [hm₁]
    exact hd₀.free_nodup
  · intro k hk hp
    by_cases hki : k = pdx a
    · rw [hki, hptab]
      exact hr
    · rw [ptab_congr (hother k hk hki)]
      exact hd.table_pool k hk (hother k hk hki ▸ hp)
  · intro k hk hp
    have hfl₁ : m₁.freelist = rest := by rw [hm₁]; rfl
    rw [hfl₁]
    by_cases hki : k = pdx a
    · rw [hki, hptab]
      exact hrest
    · rw [ptab_congr (hother k hk hki)]
      exact fun h => hd.table_not_free k hk (hother k hk hki ▸ hp) (by rw [hfl]; exact .tail _ h)
  · intro k hk hp
    by_cases hki : k = pdx a
    · rw [hki, hptab]
      exact hrdir
    · rw [ptab_congr (hother k hk hki)]
      exact hd.table_ne_dir k hk (hother k hk hki ▸ hp)
  · intro k hk k' hk' hp hp' heq
    by_cases hki : k = pdx a <;> by_cases hki' : k' = pdx a
    · rw [hki, hki']
    · rw [hki, hptab, ptab_congr (hother k' hk' hki')] at heq
      exact absurd heq.symm (hrtab k' hk' (hother k' hk' hki' ▸ hp'))
    · rw [hki', hptab, ptab_congr (hother k hk hki)] at heq
      exact absurd heq (hrtab k hk (hother k hk hki ▸ hp))
    · rw [ptab_congr (hother k hk hki), ptab_congr (hother k' hk' hki')] at heq
      exact hd.table_inj k hk k' hk' (hother k hk hki ▸ hp) (hother k' hk' hki' ▸ hp') heq
  · rw [hm₁]
    exact hag₀.trans (agrees_setWord hd.dir_pool (pdx_lt a) _)
  · intro k hk hp
    exact hother k hk (fun h => by rw [h] at hp; omega)
  · intro k hk hout
    exact hother k hk (by omega)
  · -- nothing becomes mapped: the new table is all zeros
    intro va _ _ _ hun
    by_cases hva : pdx va = pdx a
    · exact .inr (by rw [hva, hzero _ (ptx_lt va)])
    · rcases hun with habs' | hzero'
      · exact .inl (by rw [hother _ (pdx_lt va) hva]; exact habs')
      · by_cases hp : pde m pgdir (pdx va) % 2 = 1
        · exact .inr (by rw [hslot _ (pdx_lt va) hp _ (ptx_lt va)]; exact hzero')
        · exact .inl (by rw [hother _ (pdx_lt va) hva]; omega)
  · intro va _ hlo hhi
    rw [show va = a by omega]
    exact hpresent

/-- One round of `mappages` on a page that is not mapped: it maps the
page, taking a page for its table if the slot has none. -/
theorem mappagesLoop_succ (hd : Dir pool m pgdir) (last perm fuel pa : Nat) {a : Nat}
    (ha : a % pgsize = 0) (hlt : a < 2 ^ 32) (hun : Unmapped m pgdir a)
    (hroom : pde m pgdir (pdx a) % 2 = 0 → m.freelist ≠ []) :
    ∃ m₂, Dir pool m₂ pgdir ∧ MapFrame pool pgdir a a m m₂ ∧
      m.freelist.length ≤ m₂.freelist.length + slotCost m pgdir (pdx a) ∧
      mappagesLoop pgdir last perm (fuel + 1) m a pa =
        if a = last then .ok (m₂, 0)
        else mappagesLoop pgdir last perm fuel m₂ ((a + pgsize) % 2 ^ 32) ((pa + pgsize) % 2 ^ 32) := by
  by_cases hp : pde m pgdir (pdx a) % 2 = 1
  · -- the slot has a table, and `Unmapped` says the PTE is not present
    have hwalk : walkpgdir m pgdir a true =
        (m, some (pteAddr (word m.mem (pdeAddr pgdir a)) + 4 * ptx a)) := walkpgdir_of_present hp true
    have hclear : slot m pgdir (pdx a) (ptx a) % 2 = 0 := hun.resolve_left (by omega)
    obtain ⟨hd₂, hframe⟩ := hd.setWord_table hpool ha hlt hp rfl
    refine ⟨_, hd₂, hframe, by simp [slotCost_of_present hp], ?_⟩
    exact mappagesLoop_of_walk hwalk hclear
  · -- `walkpgdir` takes the head page for the table
    obtain ⟨r, rest, hfl⟩ : ∃ r rest, m.freelist = r :: rest := by
      cases h : m.freelist with
      | nil => exact absurd h (hroom (by omega))
      | cons r rest => exact ⟨r, rest, rfl⟩
    have habs : pde m pgdir (pdx a) % 2 = 0 := by omega
    have hwalk : walkpgdir m pgdir a true =
        ((({ m with freelist := rest } : Machine).fill r pgsize 0).setWord (pdeAddr pgdir a)
          (r ||| pteP ||| pteW ||| pteU), some (r + 4 * ptx a)) := walkpgdir_of_alloc habs hfl
    obtain ⟨hd₁, hframe₁, hptab, hzero⟩ := hd.alloc hpool habs hfl rfl
    set m₁ := (({ m with freelist := rest } : Machine).fill r pgsize 0).setWord
      (pgdir + 4 * pdx a) (r ||| pteP ||| pteW ||| pteU)
    have hp₁ := hframe₁.mapped a ha le_rfl le_rfl
    obtain ⟨hd₂, hframe₂⟩ := hd₁.setWord_table hpool ha hlt hp₁ rfl
    refine ⟨_, hd₂, hframe₁.trans hframe₂ le_rfl (by omega) le_rfl le_rfl ha hlt, ?_, ?_⟩
    · have hlen : m₁.freelist = rest := rfl
      simp [slotCost_of_absent habs, hfl, hlen]
    · have hwalk' : walkpgdir m pgdir a true = (m₁, some (ptab m₁ pgdir (pdx a) + 4 * ptx a)) := by
        rw [hwalk, hptab]
        rfl
      exact mappagesLoop_of_walk hwalk' (by rw [← slot, hzero _ (ptx_lt a)])

/-- `mappages`'s loop over the unmapped pages `a .. last` succeeds when the
free list holds `need` pages. -/
theorem mappagesLoop_spec (hd : Dir pool m pgdir) (perm pa : Nat) {a last : Nat}
    (ha : a % pgsize = 0) (hl : last % pgsize = 0) (hal : a ≤ last) (hlt : last < 2 ^ 32)
    (hun : ∀ va, va % pgsize = 0 → a ≤ va → va ≤ last → Unmapped m pgdir va)
    (hroom : need m pgdir a last ≤ m.freelist.length) :
    ∃ m', mappagesLoop pgdir last perm ((last - a) / pgsize + 1) m a pa = .ok (m', 0) ∧
      Dir pool m' pgdir ∧ MapFrame pool pgdir a last m m' ∧
      m.freelist.length ≤ m'.freelist.length + need m pgdir a last := by
  -- induction on the number of pages after `a`
  obtain ⟨n, hn⟩ : ∃ n, (last - a) / pgsize = n := ⟨_, rfl⟩
  induction n generalizing m a pa with
  | zero =>
    have hlast : a = last := by simp only [pgsize] at *; omega
    have hnd : need m pgdir a last = slotCost m pgdir (pdx a) := by
      simp [need, hlast]
    obtain ⟨m₂, hd₂, hframe, hlen, hloop⟩ := mappagesLoop_succ hpool hd last perm 0 pa ha (by omega)
      (hun a ha le_rfl hal)
      (fun habs => by
        rw [need, slotCost_of_absent habs] at hroom
        exact List.ne_nil_of_length_pos (by omega))
    refine ⟨m₂, ?_, hd₂, hlast ▸ hframe, by rw [hnd]; exact hlen⟩
    rw [hn, hloop, if_pos hlast]
  | succ n ih =>
    have hps : pgsize = 4096 := rfl
    have hnext : a + pgsize ≤ last := by simp only [pgsize] at *; omega
    have hroom₁ : pde m pgdir (pdx a) % 2 = 0 → m.freelist ≠ [] := fun habs => by
      rw [need, slotCost_of_absent habs] at hroom
      exact List.ne_nil_of_length_pos (by omega)
    obtain ⟨m₂, hd₂, hframe, hlen, hloop⟩ := mappagesLoop_succ hpool hd last perm (n + 1) pa ha
      (by omega) (hun a ha le_rfl hal) hroom₁
    have hwrap : (a + pgsize) % 2 ^ 32 = a + pgsize := Nat.mod_eq_of_lt (by omega)
    -- the slot of the next page: this one, now with a table, or the next
    have hp₂ := hframe.mapped a ha le_rfl le_rfl
    have hstep := pdx_next (a := a) (by omega)
    have hneed : need m₂ pgdir (a + pgsize) last + slotCost m pgdir (pdx a) ≤
        need m pgdir a last := by
      have hpdx := pdx_mono hnext
      have hcost := slotCost_le m₂ pgdir (pdx (a + pgsize))
      by_cases hsame : pdx (a + pgsize) = pdx a
      · rw [need, need, hsame, slotCost_of_present hp₂]
        omega
      · rw [need, need]
        omega
    obtain ⟨m', hloop', hd', hframe', hlen'⟩ := ih hd₂ ((pa + pgsize) % 2 ^ 32)
      (by simp only [pgsize] at *; omega) hnext
      (fun va hva hlo hhi => hframe.unmapped va (by omega) hva (.inr (by omega))
        (hun va hva (by omega) hhi))
      (by omega) (by simp only [pgsize] at *; omega)
    refine ⟨m', ?_, hd', hframe.trans hframe' (by omega) le_rfl hnext (by omega) ha hlt, by omega⟩
    rw [hn, hloop, if_neg (by omega), hwrap]
    have hfuel : (last - (a + pgsize)) / pgsize + 1 = n + 1 := by simp only [pgsize] at *; omega
    rw [← hfuel]
    exact hloop'

end Invariant

/-! ## `mappages` and `setupkvmLoop` unfolded -/

theorem mappages_eq {m : Machine} {pgdir va size pa perm : Nat} (a last : Nat)
    (ha : pgrounddown va = a) (hlast : pgrounddown ((va + size + 2 ^ 32 - 1) % 2 ^ 32) = last)
    (hal : a ≤ last) :
    mappages m pgdir va size pa perm = mappagesLoop pgdir last perm ((last - a) / pgsize + 1) m a pa := by
  have hlt : last < 2 ^ 32 := by
    rw [← hlast, pgrounddown]
    have := Nat.mod_lt (va + size + 2 ^ 32 - 1) (show 0 < 2 ^ 32 by decide)
    simp only [pgsize]
    omega
  simp only [mappages, ha, hlast]
  rw [show (last + 2 ^ 32 - a) % 2 ^ 32 = last - a by omega]

theorem setupkvmLoop_cons {m m' : Machine} {pgdir virt pstart pend perm : Nat}
    {ks : List (Nat × Nat × Nat × Nat)}
    (h : mappages m pgdir virt ((pend + 2 ^ 32 - pstart) % 2 ^ 32) pstart perm = .ok (m', 0)) :
    setupkvmLoop pgdir ((virt, pstart, pend, perm) :: ks) m = setupkvmLoop pgdir ks m' := by
  rw [setupkvmLoop, h]
  simp

/-! ## `allocuvm` -/

section Alloc

variable {pool : List Nat} (hpool : ∀ p ∈ pool, p % pgsize = 0 ∧ p < phystop)
variable {m : Machine} {pgdir : Nat}
include hpool

/-- One round of `allocuvm`: a page off the free list, zeroed and mapped at
`a`; it takes at most one more page for a table. -/
theorem allocuvm_round (hd : Dir pool m pgdir) {a newsz : Nat} (ha : a % pgsize = 0)
    (hlt : a < newsz) (hnew : newsz ≤ kernbase) (hun : Unmapped m pgdir a)
    (hroom : 2 ≤ m.freelist.length) :
    ∃ m₂, Dir pool m₂ pgdir ∧ MapFrame pool pgdir a a m m₂ ∧
      m.freelist.length ≤ m₂.freelist.length + 2 ∧
      ∀ oldsz fuel, allocuvmLoop pgdir oldsz newsz (fuel + 1) m a =
        allocuvmLoop pgdir oldsz newsz fuel m₂ ((a + pgsize) % 2 ^ 32) := by
  obtain ⟨r, rest, hfl⟩ : ∃ r rest, m.freelist = r :: rest := by
    cases h : m.freelist with
    | nil => simp [h] at hroom
    | cons r rest => exact ⟨r, rest, rfl⟩
  set m₁ := ({ m with freelist := rest } : Machine).fill r pgsize 0 with hm₁
  obtain ⟨hd₁, hpde₁, hslot₁, hag₁⟩ := hd.take hpool hfl 0 hm₁
  have hlen₁ : m₁.freelist.length + 1 = m.freelist.length := by simp [hm₁, hfl]
  have hcost := slotCost_le m₁ pgdir (pdx a)
  obtain ⟨m₂, hloop, hd₂, hframe, hlen₂⟩ := mappagesLoop_spec hpool hd₁ (pteW ||| pteU) r
    ha ha le_rfl (by simp only [kernbase] at hnew; omega)
    (fun va _ hlo hhi => by rw [show va = a by omega]; exact unmapped_of_view_eq hpde₁ hslot₁ hun)
    (by rw [need]; omega)
  refine ⟨m₂, hd₂, hframe.of_view_eq hag₁ hpde₁ hslot₁, by rw [need] at hlen₂; omega, ?_⟩
  intro oldsz fuel
  apply allocuvmLoop_step hlt hfl
  rw [mappages_eq a a (by simp only [pgrounddown, pgsize] at *; omega)
    (by simp only [pgrounddown, kernbase, pgsize] at *; omega) le_rfl]
  simpa using hloop

/-- `allocuvm`'s loop from `a` up to `newsz` succeeds when the pages are
unmapped and the free list holds two pages for each. -/
theorem allocuvmLoop_spec (hd : Dir pool m pgdir) (a fuel : Nat) {oldsz newsz : Nat}
    (ha : a % pgsize = 0)
    (hlt : a < newsz) (hnew : newsz ≤ kernbase)
    (hun : ∀ va, va % pgsize = 0 → a ≤ va → va < newsz → Unmapped m pgdir va)
    (hroom : 2 * ((newsz - a - 1) / pgsize + 1) ≤ m.freelist.length)
    (hfuel : (newsz - a - 1) / pgsize + 1 < fuel) :
    ∃ m', allocuvmLoop pgdir oldsz newsz fuel m a = .ok (m', newsz) ∧ Dir pool m' pgdir ∧
      MapFrame pool pgdir a (newsz - 1) m m' := by
  have hps : pgsize = 4096 := rfl
  rw [hps] at hroom hfuel
  -- induction on the number of pages after `a`
  obtain ⟨n, hn⟩ : ∃ n, (newsz - a - 1) / 4096 = n := ⟨_, rfl⟩
  induction n generalizing m a fuel with
  | zero =>
    obtain ⟨m₂, hd₂, hframe, -, hloop⟩ := allocuvm_round hpool hd ha hlt hnew
      (hun a ha le_rfl hlt) (by omega)
    obtain ⟨fuel', rfl⟩ : ∃ fuel', fuel = fuel' + 1 + 1 := ⟨fuel - 2, by omega⟩
    refine ⟨m₂, ?_, hd₂, hframe.extend_last ha (by omega) (by omega)⟩
    rw [hloop, Nat.mod_eq_of_lt (by simp only [kernbase] at hnew; omega),
      allocuvmLoop_done (by omega)]
  | succ n ih =>
    obtain ⟨m₂, hd₂, hframe, hlen, hloop⟩ := allocuvm_round hpool hd ha hlt hnew
      (hun a ha le_rfl hlt) (by omega)
    obtain ⟨fuel', rfl⟩ : ∃ fuel', fuel = fuel' + 1 := ⟨fuel - 1, by omega⟩
    obtain ⟨m', hloop', hd', hframe'⟩ := ih hd₂ (a + pgsize) fuel'
      (by simp only [pgsize] at *; omega)
      (by omega) (fun va hva hlo hhi => hframe.unmapped va (by simp only [kernbase] at hnew; omega)
        hva (.inr (by omega)) (hun va hva (by omega) hhi))
      (by omega) (by omega) (by omega)
    refine ⟨m', ?_, hd', hframe.trans hframe' (by omega) le_rfl (by omega) (by omega) ha
      (by simp only [kernbase] at hnew; omega)⟩
    rw [hloop, Nat.mod_eq_of_lt (by simp only [kernbase] at hnew; omega)]
    exact hloop'

/-- `allocuvm(pgdir, oldsz, newsz)` growing into unmapped pages, with two
free pages for each, returns `newsz`. -/
theorem allocuvm_spec (hd : Dir pool m pgdir) (oldsz newsz : Nat) (hold : oldsz ≤ newsz)
    (hle : pgroundup oldsz < newsz) (hnew : newsz < kernbase)
    (hun : ∀ va, va % pgsize = 0 → pgroundup oldsz ≤ va → va < newsz → Unmapped m pgdir va)
    (hroom : 2 * ((newsz - pgroundup oldsz - 1) / pgsize + 1) ≤ m.freelist.length) :
    ∃ m', allocuvm m pgdir oldsz newsz = .ok (m', newsz) ∧ Dir pool m' pgdir ∧
      MapFrame pool pgdir (pgroundup oldsz) (newsz - 1) m m' := by
  rw [allocuvm, if_neg (by omega), if_neg (by omega)]
  exact allocuvmLoop_spec hpool hd (pgroundup oldsz) (newsz / pgsize + 2) (by simp [pgroundup, pgsize]) hle (le_of_lt hnew) hun hroom
    (by simp only [pgroundup, pgsize] at hle ⊢; omega)

end Alloc

/-! ## `setupkvm` -/

section Kernel

variable {pool : List Nat} (hpool : ∀ p ∈ pool, p % pgsize = 0 ∧ p < phystop)
variable {m : Machine} {pgdir : Nat}
include hpool

/-- The kernel half is mapped up to `l`: every page of the user half and
above `l` is unmapped, and so is every slot of the user half and above `l`'s. -/
structure KernelUpTo (pool : List Nat) (m : Machine) (pgdir l : Nat) : Prop where
  dir : Dir pool m pgdir
  unmapped : ∀ va < 2 ^ 32, va % pgsize = 0 → va < kernbase ∨ l < va → Unmapped m pgdir va
  empty : ∀ i < 1024, i < pdx kernbase ∨ pdx l < i → pde m pgdir i = 0

/-- Mapping one `kmap` region `a .. last` past `l`. -/
theorem KernelUpTo.region (hk : KernelUpTo pool m pgdir l) (a last perm pa : Nat)
    (ha : a % pgsize = 0) (hl : last % pgsize = 0) (hla : l < a) (hka : kernbase ≤ a)
    (hal : a ≤ last) (hlt : last < 2 ^ 32) (hroom : pdx last - pdx a + 1 ≤ m.freelist.length) :
    ∃ m', mappagesLoop pgdir last perm ((last - a) / pgsize + 1) m a pa = .ok (m', 0) ∧
      KernelUpTo pool m' pgdir last ∧ MapFrame pool pgdir a last m m' ∧
      m.freelist.length ≤ m'.freelist.length + (pdx last - pdx a + 1) := by
  have hcost := slotCost_le m pgdir (pdx a)
  obtain ⟨m', hloop, hd', hframe, hlen⟩ := mappagesLoop_spec hpool hk.dir perm pa
    ha hl hal hlt (fun va hva hlo hhi => hk.unmapped va (by omega) hva (.inr (by omega)))
    (by rw [need]; omega)
  have hmono₁ := pdx_mono hka
  have hmono₂ := pdx_mono (le_of_lt hla)
  have hmono₃ := pdx_mono hal
  refine ⟨m', hloop, ⟨hd', ?_, ?_⟩, hframe, by rw [need] at hlen; omega⟩
  · intro va hva hal' hout
    exact hframe.unmapped va hva hal' (by omega) (hk.unmapped va hva hal' (by omega))
  · intro i hi hout
    rw [hframe.pde_frame i hi (by omega)]
    exact hk.empty i hi (by omega)

omit hpool in
/-- A directory page just filled with zeros. -/
theorem kernelUpTo_start (hfl : m.freelist = pgdir :: rest) (hnodup : m.freelist.Nodup) :
    KernelUpTo m.freelist (({ m with freelist := rest } : Machine).fill pgdir pgsize 0) pgdir
      (kernbase - pgsize) := by
  have hnodup' := hnodup
  rw [hfl, List.nodup_cons] at hnodup'
  have hzero : ∀ i < 1024,
      pde (({ m with freelist := rest } : Machine).fill pgdir pgsize 0) pgdir i = 0 := fun i hi =>
    word_write_zeros (by omega) (by simp only [pgsize]; omega)
  have hsub : ∀ p ∈ rest, p ∈ m.freelist := fun p hp => by
    rw [hfl]
    exact List.mem_cons_of_mem _ hp
  refine ⟨⟨by simp [hfl], hnodup'.1, hsub, hnodup'.2, ?_, ?_, ?_, ?_⟩,
    fun va _ _ _ => .inl (by rw [hzero _ (pdx_lt va)]), fun i hi _ => hzero i hi⟩
  -- no slot has a table yet
  iterate 3
    intro i hi hp
    rw [hzero i hi] at hp
    exact absurd hp (by decide)
  intro i hi _ _ hp
  rw [hzero i hi] at hp
  exact absurd hp (by decide)

end Kernel

/-- `setupkvm` from a free list of distinct pages below `PHYSTOP`, with 121
after the directory's, builds a directory from them: no page table for the
user half or for the gap between `KERNBASE + PHYSTOP` and `DEVSPACE`, and
memory outside those pages as before. -/
theorem setupkvm_spec {m : Machine} {pgdir : Nat} {rest : List Nat} (hfl : m.freelist = pgdir :: rest)
    (hpool : ∀ p ∈ m.freelist, p % pgsize = 0 ∧ p < phystop) (hnodup : m.freelist.Nodup)
    (hroom : 121 ≤ rest.length) (hdata : extmem < m.kdata) (hdata' : m.kdata < phystop)
    (halign : m.kdata % pgsize = 0) :
    ∃ m', setupkvm m = .ok (m', some pgdir) ∧ Dir m.freelist m' pgdir ∧ Agrees m.freelist m m' ∧
      (∀ i < 1024, i < pdx kernbase ∨ (pdx (kernbase + phystop - pgsize) < i ∧ i < pdx devspace) →
        pde m' pgdir i = 0) ∧
      m.freelist.length ≤ m'.freelist.length + 122 := by
  have hps : pgsize = 4096 := rfl
  simp only [extmem, phystop, pgsize] at hdata hdata' halign
  set m₀ := ({ m with freelist := rest } : Machine).fill pgdir pgsize 0 with hm₀
  have hk₀ : KernelUpTo m.freelist m₀ pgdir (kernbase - pgsize) := kernelUpTo_start hfl hnodup
  have hpgdir : pgdir ∈ m.freelist := by simp [hfl]
  have hag₀ : Agrees m.freelist m m₀ := (agrees_pop rest).trans (agrees_fill hpgdir 0)
  have hlen₀ : m₀.freelist.length = rest.length := rfl
  -- the slots the four `kmap` regions reach
  have hpdx₂ : pdx (kernbase + m.kdata - pgsize) ≤ 567 := by
    simp only [pdx_eq, kernbase, pgsize]; omega
  have hpdx₃ : 512 ≤ pdx (m.kdata + kernbase) := by
    simp only [pdx_eq, kernbase]; omega
  -- the four regions, each past the last
  obtain ⟨m₁, hloop₁, hk₁, hf₁, hlen₁⟩ := hk₀.region hpool kernbase
    (kernbase + extmem - pgsize) pteW 0
    (by decide) (by decide) (by decide) le_rfl (by decide) (by decide)
    (by rw [hlen₀, show pdx (kernbase + extmem - pgsize) - pdx kernbase + 1 = 1 from rfl]; omega)
  have hcount₁ : pdx (kernbase + extmem - pgsize) - pdx kernbase + 1 = 1 := rfl
  obtain ⟨m₂, hloop₂, hk₂, hf₂, hlen₂⟩ := hk₁.region hpool kernlink
    (kernbase + m.kdata - pgsize) 0 (kernlink - kernbase)
    (by decide) (by simp only [kernbase, pgsize]; omega) (by decide) (by decide)
    (by simp only [kernlink, kernbase, extmem, pgsize]; omega)
    (by simp only [kernbase, pgsize]; omega)
    (by rw [show pdx kernlink = 512 from rfl]; omega)
  obtain ⟨m₃, hloop₃, hk₃, hf₃, hlen₃⟩ := hk₂.region hpool (m.kdata + kernbase)
    (kernbase + phystop - pgsize) pteW m.kdata
    (by simp only [kernbase, pgsize]; omega) (by decide) (by simp only [kernbase, pgsize]; omega)
    (by simp only [kernbase]; omega) (by simp only [kernbase, phystop, pgsize]; omega) (by decide)
    (by rw [show pdx kernlink = 512 from rfl, show pdx (kernbase + phystop - pgsize) = 567 from rfl] at *
        omega)
  obtain ⟨m₄, hloop₄, hk₄, hf₄, hlen₄⟩ := hk₃.region hpool devspace
    (2 ^ 32 - pgsize) pteW devspace
    (by decide) (by decide) (by decide) (by decide) (by decide) (by decide)
    (by rw [show pdx kernlink = 512 from rfl, show pdx (kernbase + phystop - pgsize) = 567 from rfl,
          show pdx (2 ^ 32 - pgsize) - pdx devspace + 1 = 8 from rfl] at *
        omega)
  refine ⟨m₄, ?_, hk₄.dir, hag₀.trans (hf₁.agrees.trans (hf₂.agrees.trans (hf₃.agrees.trans
    hf₄.agrees))), ?_, ?_⟩
  · have hkmap : kmap ({ m with freelist := rest } : Machine) =
        [(kernbase, 0, extmem, pteW), (kernlink, kernlink - kernbase, m.kdata, 0),
          (m.kdata + kernbase, m.kdata, phystop, pteW), (devspace, devspace, 0, pteW)] := rfl
    have hsetup : setupkvm m = setupkvmLoop pgdir (kmap ({ m with freelist := rest } : Machine)) m₀ := by
      simp [setupkvm, kalloc, hfl, hm₀]
    rw [hsetup, hkmap,
      setupkvmLoop_cons (by
        rw [mappages_eq kernbase (kernbase + extmem - pgsize) (by decide) (by decide)
          (by decide)]
        exact hloop₁),
      setupkvmLoop_cons (by
        rw [mappages_eq kernlink (kernbase + m.kdata - pgsize) (by decide)
          (by simp only [pgrounddown, kernlink, kernbase, extmem, pgsize]; omega)
          (by simp only [kernlink, kernbase, extmem, pgsize]; omega)]
        exact hloop₂),
      setupkvmLoop_cons (by
        rw [mappages_eq (m.kdata + kernbase) (kernbase + phystop - pgsize)
          (by simp only [pgrounddown, kernbase, pgsize]; omega)
          (by simp only [pgrounddown, kernbase, phystop, pgsize]; omega)
          (by simp only [kernbase, phystop, pgsize]; omega)]
        exact hloop₃),
      setupkvmLoop_cons (by
        rw [mappages_eq devspace (2 ^ 32 - pgsize) (by decide) (by decide) (by decide)]
        exact hloop₄)]
    rfl
  · intro i hi hgap
    -- below `DEVSPACE` the last region keeps the slot, and the third left it empty
    have hdev : pdx devspace = 1016 := rfl
    have hbase : pdx kernbase = 512 := rfl
    have hkeep : pde m₄ pgdir i = pde m₃ pgdir i := hf₄.pde_frame i hi (by omega)
    rw [hkeep]
    exact hk₃.empty i hi (hgap.imp_right And.left)
  · rw [hfl, List.length_cons]
    rw [show pdx kernlink = 512 from rfl, show pdx (kernbase + phystop - pgsize) = 567 from rfl,
      show pdx (2 ^ 32 - pgsize) - pdx devspace + 1 = 8 from rfl] at *
    omega

end Xv6.Vm
