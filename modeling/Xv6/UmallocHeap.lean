import Xv6.Umalloc
import Xv6.Tiling
import Xv6.LinkedPath

/-!
# The free list of `umalloc.c` over whole runs

The heap of a process is cut into blocks that lie end to end from its first
unit `start` to the break.  Each block begins with a header that holds its
size; a free block's header also links it into the free list, a cycle from
the static `base` (of size zero, below the heap) through the free blocks in
increasing address order and back to `base`.  No two free blocks touch:
`free` joins a block with a free neighbour on either side.

`Inv` states this of a heap and a ghost list of its blocks.  `free` of a
block `malloc` returned keeps it, and so does `malloc`, whichever of its
branches it takes: a block of the size asked for is taken off the list, a
larger one is cut and its tail handed out, or the heap is grown with
`morecore` and searched again.  The proofs walk the list along ghost paths
of addresses (`LinkedPath`), which also bounds the rounds each loop takes.
-/

namespace Xv6.Umalloc

open LinkedPath Tiling

/-! ## Header writes -/

namespace Heap

variable (h : Heap) (a q x : Nat) (n : UInt32)

@[simp] theorem setPtr_freep : (h.setPtr a q).freep = h.freep := rfl
@[simp] theorem setPtr_brk : (h.setPtr a q).brk = h.brk := rfl
@[simp] theorem setSize_freep : (h.setSize a n).freep = h.freep := rfl
@[simp] theorem setSize_brk : (h.setSize a n).brk = h.brk := rfl

@[simp]
theorem ptr_setPtr : ((h.setPtr a q).mem x).ptr = if x = a then q else (h.mem x).ptr := by
  by_cases hx : x = a <;> simp [setPtr, set, Function.update, hx]

@[simp]
theorem size_setPtr : ((h.setPtr a q).mem x).size = (h.mem x).size := by
  by_cases hx : x = a <;> simp [setPtr, set, Function.update, hx]

@[simp]
theorem ptr_setSize : ((h.setSize a n).mem x).ptr = (h.mem x).ptr := by
  by_cases hx : x = a <;> simp [setSize, set, Function.update, hx]

@[simp]
theorem size_setSize : ((h.setSize a n).mem x).size = if x = a then n else (h.mem x).size := by
  by_cases hx : x = a <;> simp [setSize, set, Function.update, hx]

end Heap

@[simp] theorem headerSize_toNat : headerSize.toNat = 8 := rfl

/-- The pointer of each header: the free list's `next`. -/
def Heap.next (h : Heap) (a : Nat) : Nat := (h.mem a).ptr

/-! ## Blocks -/

/-- A block of the heap: the unit address of its header, its size in units,
and whether it is on the free list. -/
structure Blk where
  addr : Nat
  size : Nat
  free : Bool
  deriving DecidableEq, Repr

/-- The addresses of the free blocks, in the order of the blocks. -/
def freeAddrs (bs : List Blk) : List Nat := (bs.filter Blk.free).map Blk.addr

@[simp] theorem freeAddrs_nil : freeAddrs [] = [] := rfl

@[simp]
theorem freeAddrs_cons (b : Blk) (bs : List Blk) :
    freeAddrs (b :: bs) = if b.free then b.addr :: freeAddrs bs else freeAddrs bs := by
  unfold freeAddrs
  cases hb : b.free <;> simp [hb]

@[simp]
theorem freeAddrs_append (xs ys : List Blk) : freeAddrs (xs ++ ys) = freeAddrs xs ++ freeAddrs ys := by
  simp [freeAddrs, List.filter_append]

theorem mem_freeAddrs {a : Nat} {bs : List Blk} : a ∈ freeAddrs bs ↔ ∃ b ∈ bs, b.free ∧ b.addr = a := by
  simp [freeAddrs, and_assoc]

theorem length_freeAddrs_le (bs : List Blk) : (freeAddrs bs).length ≤ bs.length := by
  simpa [freeAddrs] using List.length_filter_le Blk.free bs

/-- The heap's blocks lie end to end from `start` to the break, the free ones
are linked in address order into a cycle through `base`, and `freep` points
into that cycle. -/
structure Inv (base start : Nat) (h : Heap) (bs : List Blk) : Prop where
  tiles : Tiles Blk.addr Blk.size start bs (h.brk / 8)
  aligned : h.brk % 8 = 0
  low : h.brk < 2 ^ 31
  pos : ∀ b ∈ bs, 0 < b.size
  hdr : ∀ b ∈ bs, (h.mem b.addr).size.toNat = b.size
  apart : bs.IsChain (fun a b => a.free = false ∨ b.free = false)
  below : base < start
  base_size : (h.mem base).size = 0
  links : Linked h.next (base :: freeAddrs bs ++ [base])
  freep : h.freep ∈ base :: freeAddrs bs

section Inv

variable {base start : Nat} {h : Heap} {bs : List Blk}

theorem Inv.bounds (hi : Inv base start h bs) {b : Blk} (hb : b ∈ bs) :
    start ≤ b.addr ∧ b.addr + b.size ≤ h.brk / 8 :=
  hi.tiles.bounds hb

/-- The cycle is in increasing order from `base`. -/
theorem Inv.sorted (hi : Inv base start h bs) : (base :: freeAddrs bs).Pairwise (· < ·) := by
  refine List.Pairwise.cons (fun a ha => ?_) ?_
  · obtain ⟨b, hb, -, rfl⟩ := mem_freeAddrs.mp ha
    have := (hi.bounds hb).1
    have := hi.below
    omega
  · unfold freeAddrs
    rw [List.pairwise_map]
    exact (hi.tiles.sorted hi.pos).filter _

theorem Inv.base_lt (hi : Inv base start h bs) {a : Nat} (ha : a ∈ freeAddrs bs) : base < a :=
  List.rel_of_pairwise_cons hi.sorted ha

/-- Sizes are far below `2 ^ 32` units: the heap ends under `2 ^ 31` bytes. -/
theorem Inv.size_lt (hi : Inv base start h bs) {b : Blk} (hb : b ∈ bs) : b.addr + b.size < 2 ^ 28 := by
  have := (hi.bounds hb).2
  have := hi.low
  omega

theorem Inv.disjoint (hi : Inv base start h bs) {c d : Blk} (hc : c ∈ bs) (hd : d ∈ bs) (hne : c ≠ d) :
    c.addr + c.size ≤ d.addr ∨ d.addr + d.size ≤ c.addr :=
  hi.tiles.disjoint hc hd hne

/-- A block is known by its start. -/
theorem Inv.addr_inj (hi : Inv base start h bs) {c d : Blk} (hc : c ∈ bs) (hd : d ∈ bs) (he : c.addr = d.addr) :
    c = d := by
  by_contra hne
  have := hi.pos c hc
  have := hi.pos d hd
  rcases hi.disjoint hc hd hne with h₁ | h₁ <;> omega

/-- Fewer blocks than units below `2 ^ 31` bytes. -/
theorem Inv.length_lt (hi : Inv base start h bs) : bs.length < 2 ^ 28 := by
  have := hi.tiles.length_le hi.pos
  have := hi.low
  omega

/-- No block starts at `bp` on the free list when a used block starts there. -/
theorem Inv.not_mem_of_used (hi : Inv base start h bs) {xs ys : List Blk} {b : Blk}
    (hbs : bs = xs ++ b :: ys) (hb : b.free = false) : b.addr ∉ freeAddrs bs := by
  intro hm
  obtain ⟨c, hc, hcf, hca⟩ := mem_freeAddrs.mp hm
  rw [hi.addr_inj hc (by simp [hbs]) hca, hb] at hcf
  cases hcf

/-- The free blocks before a used block start below it, and those after it
start at or past its end. -/
theorem Inv.split_order (hi : Inv base start h bs) {xs ys : List Blk} {b : Blk}
    (hbs : bs = xs ++ b :: ys) :
    (∀ r ∈ base :: freeAddrs xs, r < b.addr) ∧ ∀ r ∈ freeAddrs ys, b.addr + b.size ≤ r := by
  have ht := hi.tiles
  rw [hbs] at ht
  obtain ⟨hx, hy⟩ := tiles_append_cons.mp ht
  refine ⟨fun r hr => ?_, fun r hr => ?_⟩
  · rcases List.mem_cons.mp hr with rfl | hr
    · have := hi.below
      have := hx.le
      omega
    · obtain ⟨c, hc, -, rfl⟩ := mem_freeAddrs.mp hr
      have := (hx.bounds hc).2
      have := hi.pos c (by rw [hbs]; exact List.mem_append_left _ hc)
      omega
  · obtain ⟨c, hc, -, rfl⟩ := mem_freeAddrs.mp hr
    exact (hy.bounds hc).1

end Inv

/-! ## `free`'s search -/

/-- The test of `free`'s loop at `p`: `bp` lies on the arc from `p` to the
block after it, or past the end of the list. -/
def gapTest (h : Heap) (bp p : Nat) : Bool :=
  decide ((p < bp ∧ bp < h.next p) ∨ (h.next p ≤ p ∧ (p < bp ∨ bp < h.next p)))

theorem freeSearch_eq_findFrom (h : Heap) (bp : Nat) :
    ∀ fuel p, freeSearch h bp fuel p = findFrom h.next (gapTest h bp) fuel p
  | 0, _ => rfl
  | fuel + 1, p => by
    rw [freeSearch, findFrom, freeSearch_eq_findFrom h bp fuel]
    by_cases h₁ : bp > p ∧ bp < (h.mem p).ptr
    · rw [if_pos h₁, if_pos (by simp [gapTest, Heap.next, h₁.1, h₁.2])]
    by_cases h₂ : p ≥ (h.mem p).ptr ∧ (bp > p ∨ bp < (h.mem p).ptr)
    · rw [if_neg h₁, if_pos h₂, if_pos (by simp [gapTest, Heap.next, h₂.1, h₂.2])]
    · rw [if_neg h₁, if_neg h₂, if_neg]
      · rfl
      · rw [gapTest, decide_eq_true_iff]
        rintro (h₁' | h₂')
        · exact h₁ h₁'
        · exact h₂ h₂'

section Search

variable {base start : Nat} {h : Heap} {bs : List Blk}

/-- From wherever `freep` is, `free`'s loop stops within one round of the
cycle at the greatest node below `bp`. -/
theorem Inv.freeSearch_eq (hi : Inv base start h bs) {bp p fuel : Nat} (hbp : base < bp)
    (hnot : bp ∉ freeAddrs bs) (hp : p ∈ base :: freeAddrs bs)
    (hmax : p < bp ∧ ∀ r ∈ base :: freeAddrs bs, r < bp → r ≤ p)
    (hfuel : (freeAddrs bs).length + 2 ≤ fuel) : freeSearch h bp fuel h.freep = some p := by
  obtain ⟨w, hw, -, hperm⟩ := hi.links.round hi.freep
  have hgap : ∀ q ∈ base :: freeAddrs bs, gapTest h bp q = true ↔
      (q < bp ∧ ∀ r ∈ base :: freeAddrs bs, r < bp → r ≤ q) := fun q hq => by
    rw [gapTest, decide_eq_true_iff]
    exact hi.links.gap_iff hi.sorted hbp hnot hq
  have hmem : ∀ q ∈ h.freep :: w, q ∈ base :: freeAddrs bs := fun q hq => by
    rcases List.mem_cons.mp hq with rfl | hq
    · exact hi.freep
    · exact hperm.subset hq
  rw [freeSearch_eq_findFrom]
  refine findFrom_of_find? hw (find?_eq_some_of_unique ?_ ((hgap p hp).mpr hmax) ?_) ?_
  · exact List.mem_cons_of_mem _ (hperm.symm.subset hp)
  · intro q hq hgq
    obtain ⟨hqb, hqmax⟩ := (hgap q (hmem q hq)).mp hgq
    exact le_antisymm (hmax.2 q (hmem q hq) hqb) (hqmax p hp hmax.1)
  · rw [hperm.length_eq, List.length_cons]
    omega

end Search

/-! ## Putting one free block in place of a run of blocks -/

section Collapse

variable {base start : Nat} {h h' : Heap} {bs A R B : List Blk} {m : Blk}

theorem Inv.nodup (hi : Inv base start h bs) : bs.Nodup := by
  refine (hi.tiles.sorted hi.pos).imp ?_
  intro a b hab he
  rw [he] at hab
  exact lt_irrefl _ hab

/-- A used block is in the new list exactly when it was in the old one and
not in the run. -/
theorem Inv.mem_collapse (hi : Inv base start h bs) (hbs : bs = A ++ R ++ B) (hfree : m.free = true)
    {c : Blk} (hc : c.free = false) : c ∈ A ++ m :: B ↔ c ∈ bs ∧ c ∉ R := by
  have hnd := hi.nodup
  rw [hbs, List.nodup_append, List.nodup_append] at hnd
  have hcm : c ≠ m := fun he => by rw [he, hfree] at hc; cases hc
  simp only [hbs, List.mem_append, List.mem_cons, hcm, false_or]
  constructor
  · rintro (hA | hB)
    · exact ⟨.inl (.inl hA), fun hm => hnd.1.2.2 c hA c hm rfl⟩
    · exact ⟨.inr hB, fun hm => hnd.2.2 c (List.mem_append_right _ hm) c hB rfl⟩
  · rintro ⟨(hA | hm) | hB, hn⟩
    · exact .inl hA
    · exact absurd hm hn
    · exact .inr hB

/-- The blocks around a run lie outside it. -/
theorem Inv.outside_run (hi : Inv base start h bs) (hbs : bs = A ++ R ++ B) {c d : Blk}
    (hc : c ∈ A ++ B) (hd : d ∈ R) : c.addr < d.addr ∨ d.addr + d.size ≤ c.addr := by
  have hs := hi.tiles.pairwise
  rw [hbs, List.pairwise_append, List.pairwise_append] at hs
  rcases List.mem_append.mp hc with hc | hc
  · have := hs.1.2.2 c hc d hd
    have := hi.pos c (by rw [hbs]; simp [hc])
    exact .inl (by omega)
  · exact .inr (hs.2.2 d (List.mem_append_right _ hd) c hc)

/-- What a step has to show to put the blocks `R'` in place of the run
`R` over the same units: the headers of the blocks around it are kept,
the new blocks are well formed, and used and free blocks stay apart and
linked. -/
theorem Inv.replace (hi : Inv base start h bs) (hbs : bs = A ++ R ++ B) {R' : List Blk}
    (htiles : ∀ a c, Tiles Blk.addr Blk.size a R c → Tiles Blk.addr Blk.size a R' c)
    (hpos : ∀ c ∈ R', 0 < c.size) (hbrk : h'.brk = h.brk)
    (hkeep : ∀ x, (∀ d ∈ R, x < d.addr ∨ d.addr + d.size ≤ x) → (h'.mem x).size = (h.mem x).size)
    (hhdr : ∀ c ∈ R', (h'.mem c.addr).size.toNat = c.size)
    (hapart : (A ++ R' ++ B).IsChain (fun a b => a.free = false ∨ b.free = false))
    (hlinks : Linked h'.next (base :: freeAddrs (A ++ R' ++ B) ++ [base]))
    (hfreep : h'.freep ∈ base :: freeAddrs (A ++ R' ++ B)) :
    Inv base start h' (A ++ R' ++ B) := by
  have hrest : ∀ c ∈ A ++ B, c ∈ bs := fun c hc => by
    rw [hbs]
    rcases List.mem_append.mp hc with hc | hc <;> simp [hc]
  -- every block of the new list is a new one or an old one outside the run
  have hcases : ∀ c ∈ A ++ R' ++ B, c ∈ R' ∨ c ∈ A ++ B := fun c hc => by
    simp only [List.mem_append] at hc ⊢
    tauto
  refine ⟨?_, hbrk ▸ hi.aligned, hbrk ▸ hi.low, fun c hc => ?_, fun c hc => ?_, hapart, hi.below,
    ?_, hlinks, hfreep⟩
  · rw [hbrk]
    exact Tiles.swap (hbs ▸ hi.tiles) htiles
  · rcases hcases c hc with hc | hc
    · exact hpos c hc
    · exact hi.pos c (hrest c hc)
  · rcases hcases c hc with hc | hc
    · exact hhdr c hc
    · rw [hkeep c.addr fun d hd => hi.outside_run hbs hc hd]
      exact hi.hdr c (hrest c hc)
  · rw [hkeep base fun d hd => .inl ?_]
    · exact hi.base_size
    · have := (hi.bounds (show d ∈ bs by rw [hbs]; simp [hd])).1
      have := hi.below
      omega

/-- What a step has to show to put the free block `m` in place of the run
`R`: the tiling and the headers of the rest are kept, `m`'s header gives
its size, its neighbours are used, and the free list is relinked through
`m` with every other pointer kept. -/
theorem Inv.collapse (hi : Inv base start h bs) (hbs : bs = A ++ R ++ B)
    (hmid : ∀ a c, Tiles Blk.addr Blk.size a R c → m.addr = a ∧ a + m.size = c)
    (hpos : 0 < m.size) (hfree : m.free = true) (hbrk : h'.brk = h.brk)
    (hsize : ∀ x, (∀ d ∈ R, x ≠ d.addr) → (h'.mem x).size = (h.mem x).size)
    (hmsize : (h'.mem m.addr).size.toNat = m.size)
    (hAl : ∀ c ∈ A.getLast?, c.free = false) (hBh : ∀ c ∈ B.head?, c.free = false)
    (hQ : ∀ a ∈ (base :: freeAddrs A).dropLast, h'.next a = h.next a)
    (hT : ∀ a ∈ freeAddrs B, h'.next a = h.next a)
    (hin : ∀ a ∈ (base :: freeAddrs A).getLast?, h'.next a = m.addr)
    (hout : ∀ t ∈ (freeAddrs B ++ [base]).head?, h'.next m.addr = t)
    (hfreep : h'.freep ∈ base :: freeAddrs A ++ [m.addr]) :
    Inv base start h' (A ++ m :: B) := by
  have hchain := hi.apart
  rw [hbs] at hchain
  have hlinks := hi.links
  have hcyc : base :: freeAddrs bs ++ [base] =
      (base :: freeAddrs A) ++ freeAddrs R ++ (freeAddrs B ++ [base]) := by
    simp [hbs]
  rw [hcyc] at hlinks
  have hshape : base :: freeAddrs (A ++ [m] ++ B) = base :: freeAddrs A ++ m.addr :: freeAddrs B := by
    simp [hfree]
  rw [show A ++ m :: B = A ++ [m] ++ B by simp]
  refine hi.replace hbs (fun a c hac => ?_) (by simpa using hpos) hbrk (fun x hx => hsize x fun d hd => ?_)
    (by simpa using hmsize) ?_ ?_ ?_
  · obtain ⟨h₁, h₂⟩ := hmid a c hac
    simp [h₁, h₂]
  · have := hi.pos d (by rw [hbs]; simp [hd])
    rcases hx d hd with hx | hx <;> omega
  · -- the new block is free and both its neighbours are used
    rw [List.append_assoc, List.singleton_append]
    refine List.isChain_split.mpr ⟨List.isChain_append.mpr ⟨?_, List.isChain_singleton m, ?_⟩,
      List.isChain_cons.mpr ⟨fun c hc => .inr (hBh c hc), ?_⟩⟩
    · exact List.IsChain.left_of_append (List.IsChain.left_of_append hchain)
    · exact fun c hc _ _ => .inl (hAl c hc)
    · exact List.IsChain.right_of_append hchain
  · rw [hshape, List.append_assoc, List.cons_append]
    exact Linked.splice hlinks hQ (by rwa [List.dropLast_concat]) hin hout
  · rw [hshape]
    rcases List.mem_append.mp hfreep with h₁ | h₂
    · exact List.mem_append_left _ h₁
    · exact List.mem_append_right _ (by simp at h₂; simp [h₂])

end Collapse

/-! ## `free` -/

/-- `free`'s first join: the block at `bp` takes in the free block `next`
when it ends there, and is linked to it otherwise. -/
def joinNext (h : Heap) (bp next : Nat) : Heap :=
  if bp + (h.mem bp).size.toNat = next then
    (h.setSize bp ((h.mem bp).size + (h.mem next).size)).setPtr bp (h.mem next).ptr
  else h.setPtr bp next

/-- `free`'s second join: the free block `p` takes in the block at `bp` when
it ends there, and is linked to it otherwise. -/
def joinPrev (h : Heap) (p bp : Nat) : Heap :=
  if p + (h.mem p).size.toNat = bp then
    (h.setSize p ((h.mem p).size + (h.mem bp).size)).setPtr p (h.mem bp).ptr
  else h.setPtr p bp

/-- The heap `free` leaves once its loop has stopped at `p`. -/
def freeStep (h : Heap) (bp p : Nat) : Heap :=
  { joinPrev (joinNext h bp (h.mem p).ptr) p bp with freep := p }

theorem free_eq (h : Heap) (bp fuel : Nat) :
    free h (bp + 1) fuel = (freeSearch h bp fuel h.freep).map (freeStep h bp) := by
  unfold free freeStep joinNext joinPrev
  simp only [Nat.add_sub_cancel]
  cases freeSearch h bp fuel h.freep <;> rfl

theorem joinNext_mem {h : Heap} {bp next a : Nat} (ha : a ≠ bp) : (joinNext h bp next).mem a = h.mem a := by
  unfold joinNext
  split_ifs <;> simp [Heap.setPtr, Heap.setSize, Heap.set, Function.update, ha]

theorem joinPrev_mem {h : Heap} {p bp a : Nat} (ha : a ≠ p) : (joinPrev h p bp).mem a = h.mem a := by
  unfold joinPrev
  split_ifs <;> simp [Heap.setPtr, Heap.setSize, Heap.set, Function.update, ha]

@[simp] theorem joinNext_brk (h : Heap) (bp next : Nat) : (joinNext h bp next).brk = h.brk := by
  unfold joinNext
  split_ifs <;> rfl

@[simp] theorem joinPrev_brk (h : Heap) (p bp : Nat) : (joinPrev h p bp).brk = h.brk := by
  unfold joinPrev
  split_ifs <;> rfl

@[simp] theorem freeStep_brk (h : Heap) (bp p : Nat) : (freeStep h bp p).brk = h.brk := by
  simp [freeStep]

@[simp] theorem freeStep_freep (h : Heap) (bp p : Nat) : (freeStep h bp p).freep = p := rfl

/-- `free` writes no header but those at `p` and `bp`. -/
theorem freeStep_mem {h : Heap} {bp p a : Nat} (hp : a ≠ p) (hbp : a ≠ bp) :
    (freeStep h bp p).mem a = h.mem a := by
  simp only [freeStep]
  rw [joinPrev_mem hp, joinNext_mem hbp]

theorem freeStep_next {h : Heap} {bp p a : Nat} (hp : a ≠ p) (hbp : a ≠ bp) :
    (freeStep h bp p).next a = h.next a := by
  rw [Heap.next, freeStep_mem hp hbp, Heap.next]

theorem UInt32.toNat_add_of_lt {x y : UInt32} (h : x.toNat + y.toNat < 2 ^ 32) :
    (x + y).toNat = x.toNat + y.toNat := by
  rw [UInt32.toNat_add, Nat.mod_eq_of_lt h]

section Free

variable {base start : Nat} {h : Heap} {bs xs ys : List Blk} {b : Blk}

/-- On the left of a used block: a free block that ends where it starts, or
no free block that touches it. -/
theorem Inv.left_cases (hi : Inv base start h bs) (hbs : bs = xs ++ b :: ys) :
    (∃ xl pb, xs = xl ++ [pb] ∧ pb.free = true) ∨
      ((∀ c ∈ xs.getLast?, c.free = false) ∧
        ∀ q ∈ base :: freeAddrs xs, q + (h.mem q).size.toNat < b.addr) := by
  have ht := hi.tiles
  rw [hbs] at ht
  have hx := (tiles_append_cons.mp ht).1
  have hbase : base + (h.mem base).size.toNat < b.addr := by
    rw [hi.base_size]
    have := hi.below
    have := hx.le
    simp only [UInt32.toNat_zero]
    omega
  induction xs using List.reverseRecOn with
  | nil =>
    refine .inr ⟨by simp, fun q hq => ?_⟩
    rw [freeAddrs_nil, List.mem_singleton] at hq
    exact hq ▸ hbase
  | append_singleton xl pb _ =>
    cases hpb : pb.free
    · -- a used block in between: every free block before it ends below it
      refine .inr ⟨by simp [hpb], fun q hq => ?_⟩
      rw [freeAddrs_append, freeAddrs_cons, hpb] at hq
      simp only [Bool.false_eq_true, if_false, freeAddrs_nil, List.append_nil] at hq
      rcases List.mem_cons.mp hq with rfl | hq
      · exact hbase
      obtain ⟨c, hc, -, rfl⟩ := mem_freeAddrs.mp hq
      obtain ⟨m, hxl, hpbt⟩ := tiles_append.mp hx
      have := (hxl.bounds hc).2
      simp only [tiles_cons, tiles_nil] at hpbt
      have := hi.pos pb (by rw [hbs]; simp)
      rw [hi.hdr c (by rw [hbs]; simp [hc])]
      omega
    · exact .inl ⟨xl, pb, rfl, hpb⟩

/-- On the right of a used block: a free block that starts where it ends,
or no free block that touches it. -/
theorem Inv.right_cases (hi : Inv base start h bs) (hbs : bs = xs ++ b :: ys) :
    (∃ nb yr, ys = nb :: yr ∧ nb.free = true) ∨
      ((∀ c ∈ ys.head?, c.free = false) ∧ ∀ q ∈ freeAddrs ys ++ [base], q ≠ b.addr + b.size) := by
  have ht := hi.tiles
  rw [hbs] at ht
  obtain ⟨hx, hy⟩ := tiles_append_cons.mp ht
  have hbase : base ≠ b.addr + b.size := by
    have := hi.below
    have := hx.le
    omega
  cases ys with
  | nil =>
    refine .inr ⟨by simp, fun q hq => ?_⟩
    rw [freeAddrs_nil, List.nil_append, List.mem_singleton] at hq
    exact hq ▸ hbase
  | cons nb yr =>
    cases hnb : nb.free
    · refine .inr ⟨by simp [hnb], fun q hq => ?_⟩
      rw [freeAddrs_cons, hnb] at hq
      simp only [Bool.false_eq_true, if_false, List.mem_append, List.mem_singleton] at hq
      rcases hq with hq | rfl
      · -- a used block in between: every free block after it starts past it
        obtain ⟨c, hc, -, rfl⟩ := mem_freeAddrs.mp hq
        obtain ⟨hnba, hyr⟩ := tiles_cons.mp hy
        have := (hyr.bounds hc).1
        have := hi.pos nb (by rw [hbs]; simp)
        omega
      · exact hbase
    · exact .inl ⟨nb, yr, rfl, hnb⟩

variable {P : List Nat} {p : Nat}

theorem Inv.apart_at (hi : Inv base start h bs) {a c : Blk} (hbs : bs = xs ++ a :: c :: ys) :
    a.free = false ∨ c.free = false := by
  have hchain := hi.apart
  rw [hbs] at hchain
  exact (List.isChain_append_cons_cons.mp hchain).2.1

/-- Each block ends where the next one starts. -/
theorem Inv.adjacent (hi : Inv base start h bs) {a c : Blk} (hbs : bs = xs ++ a :: c :: ys) :
    a.addr + a.size = c.addr := by
  have ht := hi.tiles
  rw [hbs] at ht
  exact (tiles_cons.mp (tiles_append_cons.mp ht).2).1.symm

/-- The blocks on both sides of a free block are used. -/
theorem Inv.used_around (hi : Inv base start h bs) {a : Blk} (hbs : bs = xs ++ a :: ys)
    (ha : a.free = true) : (∀ c ∈ xs.getLast?, c.free = false) ∧ ∀ c ∈ ys.head?, c.free = false := by
  refine ⟨fun c hc => ?_, fun c hc => ?_⟩
  · obtain ⟨xl, rfl⟩ := List.getLast?_eq_some_iff.mp hc
    simpa [ha] using hi.apart_at (show bs = xl ++ c :: a :: ys by simp [hbs])
  · obtain ⟨yr, rfl⟩ := List.head?_eq_some_iff.mp hc
    simpa [ha] using hi.apart_at hbs

/-- The sum of two sizes of blocks of the heap, as a `uint`. -/
theorem Inv.toNat_size_add (hi : Inv base start h bs) {c d : Blk} (hc : c ∈ bs) (hd : d ∈ bs)
    {x : UInt32} (hx : x.toNat ≤ c.size + d.size) : (x + (h.mem d.addr).size).toNat = x.toNat + d.size := by
  have := hi.size_lt hc
  have := hi.size_lt hd
  rw [UInt32.toNat_add_of_lt (by rw [hi.hdr d hd]; omega), hi.hdr d hd]

theorem free_cycle (hbs : bs = xs ++ b :: ys) (hb : b.free = false)
    (hP : base :: freeAddrs xs = P ++ [p]) : base :: freeAddrs bs = P ++ p :: freeAddrs ys := by
  rw [hbs, freeAddrs_append, freeAddrs_cons, if_neg (by simp [hb]), ← List.cons_append, hP]
  simp

/-- Around the greatest node `p` of the free list below a used block: the
nodes before `p` are below it and the last of them points at it, and from
`p` the list goes on with the free blocks after the used block. -/
theorem Inv.free_context (hi : Inv base start h bs) (hbs : bs = xs ++ b :: ys) (hb : b.free = false)
    (hP : base :: freeAddrs xs = P ++ [p]) :
    p < b.addr ∧ (∀ r ∈ P, r < p) ∧ (∀ a ∈ P.getLast?, h.next a = p) ∧
      Linked h.next (p :: (freeAddrs ys ++ [base])) := by
  have hsorted := hi.sorted
  have hlinks := hi.links
  rw [free_cycle hbs hb hP] at hsorted hlinks
  rw [List.append_assoc, List.cons_append] at hlinks
  obtain ⟨hpre, hpost⟩ := List.isChain_split.mp hlinks
  refine ⟨(hi.split_order hbs).1 p (by simp [hP]), fun r hr => ?_, fun a ha => ?_, hpost⟩
  · exact (List.pairwise_append.mp hsorted).2.2 r hr p (by simp)
  · exact (List.isChain_append.mp hpre).2.2 a ha p rfl

/-- `free` of a block with no free neighbour: it goes on the list after `p`. -/
theorem Inv.freeStep_apart (hi : Inv base start h bs) (hbs : bs = xs ++ b :: ys) (hb : b.free = false)
    (hP : base :: freeAddrs xs = P ++ [p]) (hxl : ∀ c ∈ xs.getLast?, c.free = false)
    (hxsize : ∀ q ∈ base :: freeAddrs xs, q + (h.mem q).size.toNat < b.addr)
    (hyh : ∀ c ∈ ys.head?, c.free = false) (hyne : ∀ q ∈ freeAddrs ys ++ [base], q ≠ b.addr + b.size) :
    Inv base start (freeStep h b.addr p) (xs ++ { b with free := true } :: ys) := by
  obtain ⟨hpb, hPp, hpre, hpost⟩ := hi.free_context hbs hb hP
  obtain ⟨t, T, hT⟩ : ∃ t T, freeAddrs ys ++ [base] = t :: T := List.exists_cons_of_ne_nil (by simp)
  rw [hT] at hpost
  have ht : h.next p = t := (linked_cons_cons.mp hpost).1
  have hbmem : b ∈ bs := by simp [hbs]
  have hsz := hi.hdr b hbmem
  -- neither join happens
  have hR : ¬(b.addr + (h.mem b.addr).size.toNat = (h.mem p).ptr) := by
    rw [hsz]
    exact fun he => hyne t (by simp [hT]) (by rw [← ht, Heap.next, ← he])
  have hL : ¬(p + (h.mem p).size.toNat = b.addr) :=
    ne_of_lt (hxsize p (by rw [hP]; simp))
  have hH : freeStep h b.addr p = { (h.setPtr b.addr (h.mem p).ptr).setPtr p b.addr with freep := p } := by
    rw [freeStep, joinNext, if_neg hR, joinPrev, if_neg (by simpa using hL)]
  have hPb : ∀ a ∈ P, a ≠ p ∧ a ≠ b.addr := fun a ha => ⟨ne_of_lt (hPp a ha), by have := hPp a ha; omega⟩
  have hYb : ∀ a ∈ freeAddrs ys, a ≠ p ∧ a ≠ b.addr := fun a ha => by
    have := (hi.split_order hbs).2 a ha
    have := hi.pos b hbmem
    omega
  refine hi.collapse (R := [b]) (by simp [hbs]) (fun a c hac => ?_) (hi.pos b hbmem) rfl (by simp)
    (fun x _ => by simp [hH]) (by simpa [hH] using hsz) hxl hyh ?_ ?_ ?_ ?_ (by simp [hP])
  · simp only [tiles_cons, tiles_nil] at hac
    exact hac
  · rw [hP, List.dropLast_concat]
    exact fun a ha => freeStep_next (hPb a ha).1 (hPb a ha).2
  · exact fun a ha => freeStep_next (hYb a ha).1 (hYb a ha).2
  · rw [hP, List.getLast?_concat]
    rintro a ⟨⟩
    simp [hH, Heap.next]
  · rw [hT]
    rintro a ⟨⟩
    simp [hH, Heap.next, ne_of_gt hpb, ← ht]

/-- `free` of a block whose right neighbour is free: the two are joined and
go on the list after `p`. -/
theorem Inv.freeStep_joinNext {nb : Blk} {yr : List Blk} (hi : Inv base start h bs)
    (hbs : bs = xs ++ b :: nb :: yr) (hb : b.free = false) (hnb : nb.free = true)
    (hP : base :: freeAddrs xs = P ++ [p]) (hxl : ∀ c ∈ xs.getLast?, c.free = false)
    (hxsize : ∀ q ∈ base :: freeAddrs xs, q + (h.mem q).size.toNat < b.addr) :
    Inv base start (freeStep h b.addr p) (xs ++ ⟨b.addr, b.size + nb.size, true⟩ :: yr) := by
  obtain ⟨hpb, hPp, hpre, hpost⟩ := hi.free_context hbs hb hP
  rw [freeAddrs_cons, if_pos hnb, List.cons_append] at hpost
  obtain ⟨ht, hnext⟩ := linked_cons_cons.mp hpost
  have hbmem : b ∈ bs := by simp [hbs]
  have hnbmem : nb ∈ bs := by simp [hbs]
  have hnba : nb.addr = b.addr + b.size := (hi.adjacent hbs).symm
  have hsz := hi.hdr b hbmem
  -- the first join happens, the second does not
  have hpt : (h.mem p).ptr = nb.addr := ht
  have hR : b.addr + (h.mem b.addr).size.toNat = nb.addr := by rw [hsz, hnba]
  have hL : ¬(p + (h.mem p).size.toNat = b.addr) :=
    ne_of_lt (hxsize p (by rw [hP]; simp))
  have hH : freeStep h b.addr p = { ((h.setSize b.addr ((h.mem b.addr).size + (h.mem nb.addr).size)).setPtr
      b.addr (h.mem nb.addr).ptr).setPtr p b.addr with freep := p } := by
    rw [freeStep, hpt, joinNext, if_pos hR, joinPrev, if_neg (by simpa [ne_of_lt hpb] using hL)]
  have hPb : ∀ a ∈ P, a ≠ p ∧ a ≠ b.addr := fun a ha => ⟨ne_of_lt (hPp a ha), by have := hPp a ha; omega⟩
  have hYb : ∀ a ∈ freeAddrs yr, a ≠ p ∧ a ≠ b.addr := fun a ha => by
    have := (hi.split_order (show bs = (xs ++ [b]) ++ nb :: yr by simp [hbs])).2 a ha
    have := hi.pos b hbmem
    have := hi.pos nb hnbmem
    omega
  refine hi.collapse (R := [b, nb]) (by simp [hbs]) (fun a c hac => ?_) (by simp [hi.pos b hbmem])
    rfl (by simp) (fun x hx => ?_) ?_ hxl ((hi.used_around (show bs = (xs ++ [b]) ++ nb :: yr by
      simp [hbs]) hnb).2) ?_ ?_ ?_ ?_ (by simp [hP])
  · simp only [tiles_cons, tiles_nil] at hac ⊢
    exact ⟨hac.1, by omega⟩
  · have hxb : x ≠ b.addr := hx b (by simp)
    simp [hH, hxb]
  · simp only [hH, Heap.size_setPtr, Heap.size_setSize, if_true]
    rw [hi.toNat_size_add hbmem hnbmem (by rw [hsz]; omega), hsz]
  · rw [hP, List.dropLast_concat]
    exact fun a ha => freeStep_next (hPb a ha).1 (hPb a ha).2
  · exact fun a ha => freeStep_next (hYb a ha).1 (hYb a ha).2
  · rw [hP, List.getLast?_concat]
    rintro a ⟨⟩
    simp [hH, Heap.next]
  · intro t ht
    rw [← (List.isChain_cons.mp hnext).1 t ht]
    simp [hH, Heap.next, ne_of_gt hpb]

/-- `free` of a block whose left neighbour `p` is free: `p` takes it in. -/
theorem Inv.freeStep_joinPrev {pb : Blk} {xl : List Blk} (hi : Inv base start h bs)
    (hbs : bs = xl ++ pb :: b :: ys) (hb : b.free = false) (hpb : pb.free = true)
    (hyh : ∀ c ∈ ys.head?, c.free = false) (hyne : ∀ q ∈ freeAddrs ys ++ [base], q ≠ b.addr + b.size) :
    Inv base start (freeStep h b.addr pb.addr) (xl ++ ⟨pb.addr, pb.size + b.size, true⟩ :: ys) := by
  have hbs' : bs = (xl ++ [pb]) ++ b :: ys := by simp [hbs]
  have hP : base :: freeAddrs (xl ++ [pb]) = (base :: freeAddrs xl) ++ [pb.addr] := by simp [hpb]
  obtain ⟨hpbb, hPp, hpre, hpost⟩ := hi.free_context hbs' hb hP
  obtain ⟨t, T, hT⟩ : ∃ t T, freeAddrs ys ++ [base] = t :: T := List.exists_cons_of_ne_nil (by simp)
  rw [hT] at hpost
  have ht : h.next pb.addr = t := (linked_cons_cons.mp hpost).1
  have hbmem : b ∈ bs := by simp [hbs]
  have hpbmem : pb ∈ bs := by simp [hbs]
  have hpba : pb.addr + pb.size = b.addr := hi.adjacent hbs
  have hsz := hi.hdr b hbmem
  have hpsz := hi.hdr pb hpbmem
  -- the first join does not happen, the second does
  have hR : ¬(b.addr + (h.mem b.addr).size.toNat = (h.mem pb.addr).ptr) := by
    rw [hsz]
    exact fun he => hyne t (by simp [hT]) (by rw [← ht, Heap.next, ← he])
  have hL : pb.addr + (h.mem pb.addr).size.toNat = b.addr := by rw [hpsz, hpba]
  have hH : freeStep h b.addr pb.addr = { ((h.setPtr b.addr (h.mem pb.addr).ptr).setSize pb.addr
      ((h.mem pb.addr).size + (h.mem b.addr).size)).setPtr pb.addr (h.mem pb.addr).ptr with
        freep := pb.addr } := by
    rw [freeStep, joinNext, if_neg hR, joinPrev, if_pos (by simpa [ne_of_lt hpbb] using hL)]
    simp
  have hPb : ∀ a ∈ base :: freeAddrs xl, a ≠ pb.addr ∧ a ≠ b.addr := fun a ha =>
    ⟨ne_of_lt (hPp a ha), by have := hPp a ha; omega⟩
  have hYb : ∀ a ∈ freeAddrs ys, a ≠ pb.addr ∧ a ≠ b.addr := fun a ha => by
    have := (hi.split_order hbs').2 a ha
    have := hi.pos b hbmem
    omega
  refine hi.collapse (R := [pb, b]) (by simp [hbs]) (fun a c hac => ?_) (by simp [hi.pos pb hpbmem])
    rfl (by simp) (fun x hx => ?_) ?_ ((hi.used_around hbs hpb).1) hyh ?_ ?_ ?_ ?_ (by simp)
  · simp only [tiles_cons, tiles_nil] at hac ⊢
    exact ⟨hac.1, by omega⟩
  · have hxp : x ≠ pb.addr := hx pb (by simp)
    simp [hH, hxp]
  · simp only [hH, Heap.size_setPtr, Heap.size_setSize, if_true]
    rw [hi.toNat_size_add hpbmem hbmem (by rw [hpsz]; omega), hpsz]
  · exact fun a ha => freeStep_next (hPb a (List.dropLast_subset _ ha)).1
      (hPb a (List.dropLast_subset _ ha)).2
  · exact fun a ha => freeStep_next (hYb a ha).1 (hYb a ha).2
  · intro a ha
    have ha' := List.mem_of_getLast? ha
    rw [freeStep_next (hPb a ha').1 (hPb a ha').2]
    exact hpre a ha
  · rw [hT]
    rintro a ⟨⟩
    simp [hH, Heap.next, ← ht]

/-- `free` of a block between two free blocks: `p` takes in both. -/
theorem Inv.freeStep_joinBoth {pb nb : Blk} {xl yr : List Blk} (hi : Inv base start h bs)
    (hbs : bs = xl ++ pb :: b :: nb :: yr) (hb : b.free = false) (hpb : pb.free = true)
    (hnb : nb.free = true) :
    Inv base start (freeStep h b.addr pb.addr)
      (xl ++ ⟨pb.addr, pb.size + (b.size + nb.size), true⟩ :: yr) := by
  have hbs' : bs = (xl ++ [pb]) ++ b :: nb :: yr := by simp [hbs]
  have hP : base :: freeAddrs (xl ++ [pb]) = (base :: freeAddrs xl) ++ [pb.addr] := by simp [hpb]
  obtain ⟨hpbb, hPp, hpre, hpost⟩ := hi.free_context hbs' hb hP
  rw [freeAddrs_cons, if_pos hnb, List.cons_append] at hpost
  obtain ⟨ht, hnext⟩ := linked_cons_cons.mp hpost
  have hbmem : b ∈ bs := by simp [hbs]
  have hpbmem : pb ∈ bs := by simp [hbs]
  have hnbmem : nb ∈ bs := by simp [hbs]
  have hpba : pb.addr + pb.size = b.addr := hi.adjacent hbs
  have hnba : nb.addr = b.addr + b.size := (hi.adjacent hbs').symm
  have hsz := hi.hdr b hbmem
  have hpsz := hi.hdr pb hpbmem
  -- both joins happen
  have hpt : (h.mem pb.addr).ptr = nb.addr := ht
  have hR : b.addr + (h.mem b.addr).size.toNat = nb.addr := by rw [hsz, hnba]
  have hL : pb.addr + (h.mem pb.addr).size.toNat = b.addr := by rw [hpsz, hpba]
  have hH : freeStep h b.addr pb.addr = { ((((h.setSize b.addr ((h.mem b.addr).size + (h.mem nb.addr).size)).setPtr
      b.addr (h.mem nb.addr).ptr).setSize pb.addr ((h.mem pb.addr).size + ((h.mem b.addr).size +
        (h.mem nb.addr).size))).setPtr pb.addr (h.mem nb.addr).ptr) with freep := pb.addr } := by
    rw [freeStep, hpt, joinNext, if_pos hR, joinPrev, if_pos (by simpa [ne_of_lt hpbb] using hL)]
    simp [ne_of_lt hpbb]
  have hPb : ∀ a ∈ base :: freeAddrs xl, a ≠ pb.addr ∧ a ≠ b.addr := fun a ha =>
    ⟨ne_of_lt (hPp a ha), by have := hPp a ha; omega⟩
  have hYb : ∀ a ∈ freeAddrs yr, a ≠ pb.addr ∧ a ≠ b.addr := fun a ha => by
    have := (hi.split_order (show bs = (xl ++ [pb, b]) ++ nb :: yr by simp [hbs])).2 a ha
    have := hi.pos b hbmem
    have := hi.pos nb hnbmem
    omega
  refine hi.collapse (R := [pb, b, nb]) (by simp [hbs]) (fun a c hac => ?_)
    (by simp [hi.pos pb hpbmem]) rfl (by simp) (fun x hx => ?_) ?_ ((hi.used_around hbs hpb).1)
    ((hi.used_around (show bs = (xl ++ [pb, b]) ++ nb :: yr by simp [hbs]) hnb).2) ?_ ?_ ?_ ?_ (by simp)
  · simp only [tiles_cons, tiles_nil] at hac ⊢
    exact ⟨hac.1, by omega⟩
  · have hxp : x ≠ pb.addr := hx pb (by simp)
    have hxb : x ≠ b.addr := hx b (by simp)
    simp [hH, hxp, hxb]
  · simp only [hH, Heap.size_setPtr, Heap.size_setSize, if_true]
    have hbn := hi.toNat_size_add hbmem hnbmem (x := (h.mem b.addr).size) (by rw [hsz]; omega)
    rw [UInt32.toNat_add_of_lt (by rw [hbn, hpsz, hsz]; have := hi.size_lt hnbmem; omega), hbn, hpsz, hsz]
  · exact fun a ha => freeStep_next (hPb a (List.dropLast_subset _ ha)).1
      (hPb a (List.dropLast_subset _ ha)).2
  · exact fun a ha => freeStep_next (hYb a ha).1 (hYb a ha).2
  · intro a ha
    have ha' := List.mem_of_getLast? ha
    rw [freeStep_next (hPb a ha').1 (hPb a ha').2]
    exact hpre a ha
  · intro t ht
    rw [← (List.isChain_cons.mp hnext).1 t ht]
    simp [hH, Heap.next]

/-- When the block before a used one is free, it is the greatest node of the
list below the used block. -/
theorem free_last_eq {xl : List Blk} {pb : Blk} (hpb : pb.free = true)
    (hP : base :: freeAddrs (xl ++ [pb]) = P ++ [p]) : p = pb.addr := by
  have hP' : (base :: freeAddrs xl) ++ [pb.addr] = P ++ [p] := by
    rw [← hP]
    simp [hpb]
  exact (List.singleton_inj.mp (List.append_inj' hP' rfl).2).symm

/-- A used block is off a run when only the freed block of the run was used. -/
theorem not_mem_run_iff {c : Blk} {mid : List Blk} (hc : c.free = false) (hb : b ∈ mid)
    (hmid : ∀ d ∈ mid, d = b ∨ d.free = true) : c ∉ mid ↔ c ≠ b := by
  constructor
  · intro hn he
    exact hn (he ▸ hb)
  · intro hne hm
    rcases hmid c hm with he | hf
    · exact hne he
    · rw [hc] at hf
      cases hf

/-- `free` of a used block returns within one round of the free list and
keeps the invariant: the block is freed and joined with the free blocks it
touches, and every other used block stays as it was. -/
theorem Inv.free (hi : Inv base start h bs) (hbs : bs = xs ++ b :: ys) (hb : b.free = false)
    {fuel : Nat} (hfuel : bs.length + 2 ≤ fuel) :
    ∃ h', free h (b.addr + 1) fuel = some h' ∧ h'.brk = h.brk ∧
      ∃ bs', Inv base start h' bs' ∧
        (∃ c ∈ bs', c.free = true ∧ c.addr ≤ b.addr ∧ b.addr + b.size ≤ c.addr + c.size) ∧
        ∀ c, c.free = false → (c ∈ bs' ↔ c ∈ bs ∧ c ≠ b) := by
  -- the loop stops at the greatest node `p` of the list below the block
  obtain ⟨P, p, hP⟩ : ∃ P p, base :: freeAddrs xs = P ++ [p] :=
    ⟨_, _, (List.dropLast_append_getLast (List.cons_ne_nil _ _)).symm⟩
  obtain ⟨hpb, hPp, -, -⟩ := hi.free_context hbs hb hP
  have hcyc := free_cycle hbs hb hP
  have hge := (hi.split_order hbs).2
  have hsearch : freeSearch h b.addr fuel h.freep = some p := by
    refine hi.freeSearch_eq ((hi.split_order hbs).1 base List.mem_cons_self)
      (hi.not_mem_of_used hbs hb) (by simp [hcyc]) ⟨hpb, fun r hr hrb => ?_⟩ ?_
    · rw [hcyc] at hr
      rcases List.mem_append.mp hr with hr | hr
      · exact (hPp r hr).le
      rcases List.mem_cons.mp hr with rfl | hr
      · exact le_rfl
      · have := hge r hr
        omega
    · have := length_freeAddrs_le bs
      omega
  rw [free_eq, hsearch, Option.map_some]
  refine ⟨_, rfl, freeStep_brk _ _ _, ?_⟩
  -- which neighbours it joins
  rcases hi.left_cases hbs with ⟨xl, pb, rfl, hpbf⟩ | ⟨hxl, hxsize⟩ <;>
    rcases hi.right_cases hbs with ⟨nb, yr, rfl, hnbf⟩ | ⟨hyh, hyne⟩
  · have hp : p = pb.addr := free_last_eq hpbf hP
    subst hp
    have hbs' : bs = xl ++ [pb, b, nb] ++ yr := by simp [hbs]
    have hadj := hi.adjacent (show bs = xl ++ pb :: b :: nb :: yr by simp [hbs])
    refine ⟨_, hi.freeStep_joinBoth (show bs = xl ++ pb :: b :: nb :: yr by simp [hbs]) hb hpbf hnbf,
      ⟨⟨pb.addr, pb.size + (b.size + nb.size), true⟩, by simp, rfl, by dsimp only; omega,
        by dsimp only; omega⟩, fun c hc => ?_⟩
    rw [hi.mem_collapse hbs' rfl hc, not_mem_run_iff hc (show b ∈ [pb, b, nb] by simp)
      (by simp [hpbf, hnbf])]
  · have hp : p = pb.addr := free_last_eq hpbf hP
    subst hp
    have hbs' : bs = xl ++ [pb, b] ++ ys := by simp [hbs]
    have hadj := hi.adjacent (show bs = xl ++ pb :: b :: ys by simp [hbs])
    refine ⟨_, hi.freeStep_joinPrev (show bs = xl ++ pb :: b :: ys by simp [hbs]) hb hpbf hyh hyne,
      ⟨⟨pb.addr, pb.size + b.size, true⟩, by simp, rfl, by dsimp only; omega, by dsimp only; omega⟩,
      fun c hc => ?_⟩
    rw [hi.mem_collapse hbs' rfl hc, not_mem_run_iff hc (show b ∈ [pb, b] by simp) (by simp [hpbf])]
  · have hbs' : bs = xs ++ [b, nb] ++ yr := by simp [hbs]
    refine ⟨_, hi.freeStep_joinNext hbs hb hnbf hP hxl hxsize,
      ⟨⟨b.addr, b.size + nb.size, true⟩, by simp, rfl, le_rfl, by dsimp only; omega⟩, fun c hc => ?_⟩
    rw [hi.mem_collapse hbs' rfl hc, not_mem_run_iff hc (show b ∈ [b, nb] by simp) (by simp [hnbf])]
  · have hbs' : bs = xs ++ [b] ++ ys := by simp [hbs]
    refine ⟨_, hi.freeStep_apart hbs hb hP hxl hxsize hyh hyne, ⟨{ b with free := true }, by simp, rfl,
      le_rfl, le_rfl⟩, fun c hc => ?_⟩
    rw [hi.mem_collapse hbs' rfl hc, not_mem_run_iff hc (show b ∈ [b] by simp) (by simp)]

end Free

/-! ## `malloc`'s loop at a block that fits -/

/-- What a `malloc` that hands out the block `c` of `nu` units leaves: the
invariant holds of the new heap and its blocks `bs'`, `c` is a used block
that was not among the blocks `bs` before, and the other used blocks are
those there were. -/
structure Carved (base start : Nat) (nu : UInt32) (bs : List Blk) (h' : Heap) (bs' : List Blk) (c : Blk) :
    Prop where
  inv : Inv base start h' bs'
  mem : c ∈ bs'
  fresh : c ∉ bs
  used : c.free = false
  size : c.size = nu.toNat
  others : ∀ d, d.free = false → (d ∈ bs' ↔ d ∈ bs ∨ d = c)


/-- What `malloc`'s loop returns at a block `p` that fits, `prevp` being the
node before it: the block itself when it has just the units asked for, its
tail otherwise. -/
def carve (nu : UInt32) (h : Heap) (prevp p : Nat) : Heap × Nat :=
  if (h.mem p).size = nu then ({ h.setPtr prevp (h.mem p).ptr with freep := prevp }, p + 1)
  else
    let h := h.setSize p ((h.mem p).size - nu)
    let q := p + (h.mem p).size.toNat
    ({ h.setSize q nu with freep := prevp }, q + 1)

theorem mallocLoop_fit {nu : UInt32} {grows : Bool} {fuel : Nat} {h : Heap} {prevp p : Nat}
    (hfit : nu ≤ (h.mem p).size) : mallocLoop nu grows (fuel + 1) h prevp p = some (carve nu h prevp p) := by
  rw [mallocLoop, if_pos hfit, carve]
  split_ifs <;> rfl

/-- A used block in place of another keeps used and free blocks apart. -/
theorem isChain_apart_used {xs ys : List Blk} {b c : Blk}
    (h : (xs ++ b :: ys).IsChain (fun a b => a.free = false ∨ b.free = false)) (hc : c.free = false) :
    (xs ++ c :: ys).IsChain (fun a b => a.free = false ∨ b.free = false) := by
  obtain ⟨hx, hy⟩ := List.isChain_split.mp h
  refine List.isChain_split.mpr ⟨List.isChain_append.mpr ⟨List.IsChain.left_of_append hx,
    List.isChain_singleton c, fun _ _ y hy => .inr ?_⟩, List.isChain_cons.mpr ⟨fun _ _ => .inl hc,
      (List.isChain_cons.mp hy).2⟩⟩
  rw [List.head?_cons, Option.mem_some_iff] at hy
  exact hy ▸ hc

section Carve

variable {base start : Nat} {h : Heap} {bs xs ys : List Blk} {B : Blk} {nu : UInt32} {prevp : Nat}

/-- The node before a free block on the list is the last of the nodes below it. -/
theorem Inv.prev_eq (hi : Inv base start h bs) (hbs : bs = xs ++ B :: ys) (hB : B.free = true)
    (hprev : prevp ∈ base :: freeAddrs bs) (hnext : h.next prevp = B.addr) :
    ∃ Q, base :: freeAddrs xs = Q ++ [prevp] := by
  have hcyc : base :: freeAddrs bs = (base :: freeAddrs xs) ++ B.addr :: freeAddrs ys := by
    simp [hbs, hB]
  have hBbase : base < B.addr := hi.base_lt (by simp [hbs, hB])
  have hsorted := hi.sorted
  rw [hcyc] at hsorted
  have hlow : ∀ r ∈ base :: freeAddrs xs, r < B.addr := fun r hr =>
    (List.pairwise_append.mp hsorted).2.2 r hr B.addr List.mem_cons_self
  have hhigh : ∀ r ∈ freeAddrs ys, B.addr < r := fun r hr =>
    List.rel_of_pairwise_cons (List.pairwise_append.mp hsorted).2.1 hr
  rcases hi.links.sorted_next hi.sorted hprev with ⟨hn, -⟩ | ⟨hlt, -, hleast⟩
  · rw [hnext] at hn
    exact absurd hn (ne_of_gt hBbase)
  rw [hnext] at hlt hleast
  -- `prevp` is the greatest node below the block
  have hmem : prevp ∈ base :: freeAddrs xs := by
    rw [hcyc] at hprev
    rcases List.mem_append.mp hprev with hp | hp
    · exact hp
    rcases List.mem_cons.mp hp with hp | hp
    · exact absurd hp (ne_of_lt hlt)
    · exact absurd (hhigh _ hp) (not_lt.mpr hlt.le)
  have hgreat : ∀ r ∈ base :: freeAddrs xs, r ≤ prevp := fun r hr => by
    by_contra hrp
    have := hleast r (by rw [hcyc]; exact List.mem_append_left _ hr) (lt_of_not_ge hrp)
    exact absurd (hlow r hr) (not_lt.mpr this)
  obtain ⟨Q, hQ⟩ := List.getLast?_eq_some_iff.mp
    (getLast?_of_greatest (List.pairwise_append.mp hsorted).1 hmem hgreat)
  exact ⟨Q, hQ⟩

/-- `malloc` at a block with just the units asked for: the block is taken off
the list, and `prevp` linked past it. -/
theorem Inv.carve_exact (hi : Inv base start h bs) (hbs : bs = xs ++ B :: ys) (hB : B.free = true)
    (hprev : prevp ∈ base :: freeAddrs bs) (hnext : h.next prevp = B.addr) :
    Inv base start { h.setPtr prevp (h.mem B.addr).ptr with freep := prevp }
      (xs ++ [{ B with free := false }] ++ ys) := by
  obtain ⟨Q, hQ⟩ := hi.prev_eq hbs hB hprev hnext
  have hcyc' : base :: freeAddrs bs = Q ++ prevp :: B.addr :: freeAddrs ys := by
    rw [show base :: freeAddrs bs = (base :: freeAddrs xs) ++ B.addr :: freeAddrs ys by simp [hbs, hB], hQ]
    simp
  have hcyc : base :: freeAddrs bs ++ [base] = Q ++ [prevp, B.addr] ++ (freeAddrs ys ++ [base]) := by
    rw [hcyc']
    simp
  have hsorted := hi.sorted
  rw [hcyc'] at hsorted
  have hQp : ∀ a ∈ Q, a < prevp := fun a ha =>
    (List.pairwise_append.mp hsorted).2.2 a ha prevp List.mem_cons_self
  have hYp : ∀ a ∈ freeAddrs ys, prevp < a := fun a ha => by
    have h₁ := List.rel_of_pairwise_cons (List.pairwise_append.mp hsorted).2.1
      (List.mem_cons_of_mem _ ha)
    exact h₁
  have hlinks := hi.links
  rw [hcyc] at hlinks
  have hbmem : B ∈ bs := by simp [hbs]
  refine hi.replace (R := [B]) (by simp [hbs]) (fun a c hac => by simpa using hac) (by simpa using hi.pos B hbmem)
    rfl (fun x _ => by simp) (by simpa using hi.hdr B hbmem) ?_ ?_ ?_
  · rw [List.append_assoc, List.singleton_append]
    have hchain := hi.apart
    rw [hbs] at hchain
    exact isChain_apart_used hchain rfl
  · have hshape : base :: freeAddrs (xs ++ [{ B with free := false }] ++ ys) ++ [base] =
        Q ++ prevp :: (freeAddrs ys ++ [base]) := by
      rw [show base :: freeAddrs (xs ++ [{ B with free := false }] ++ ys) ++ [base] =
        (base :: freeAddrs xs) ++ (freeAddrs ys ++ [base]) by simp, hQ]
      simp
    rw [hshape]
    refine Linked.splice hlinks (fun a ha => ?_) (fun a ha => ?_) (fun a ha => ?_) (fun t ht => ?_)
    · have := hQp a (List.dropLast_subset _ ha)
      simp [Heap.next, ne_of_lt this]
    · rw [List.dropLast_concat] at ha
      have := hYp a ha
      simp [Heap.next, ne_of_gt this]
    · have hne := ne_of_lt (hQp a (List.mem_of_getLast? ha))
      have hlink := (List.isChain_append.mp (List.IsChain.left_of_append hlinks)).2.2 a ha prevp rfl
      simpa [Heap.next, hne] using hlink
    · have hlink := (List.isChain_cons.mp (List.IsChain.right_of_append (show Linked h.next
        ((Q ++ [prevp]) ++ B.addr :: (freeAddrs ys ++ [base])) by simpa using hlinks))).1 t ht
      simpa [Heap.next] using hlink
  · rw [show base :: freeAddrs (xs ++ [{ B with free := false }] ++ ys) = (base :: freeAddrs xs) ++ freeAddrs ys
      by simp, hQ]
    simp

theorem carve_split_eq {h : Heap} {p : Nat} (hne : (h.mem p).size ≠ nu) :
    carve nu h prevp p = ({ (h.setSize p ((h.mem p).size - nu)).setSize
      (p + ((h.mem p).size - nu).toNat) nu with freep := prevp }, p + ((h.mem p).size - nu).toNat + 1) := by
  rw [carve, if_neg hne]
  simp

/-- `malloc` at a larger block: its tail of `nu` units is cut off and handed
out, and its head stays on the list. -/
theorem Inv.carve_split (hi : Inv base start h bs) (hbs : bs = xs ++ B :: ys) (hB : B.free = true)
    (hnu : 0 < nu.toNat) (hlt : nu.toNat < B.size) (hprev : prevp ∈ base :: freeAddrs bs) :
    Inv base start { (h.setSize B.addr ((h.mem B.addr).size - nu)).setSize
        (B.addr + ((h.mem B.addr).size - nu).toNat) nu with freep := prevp }
      (xs ++ [⟨B.addr, B.size - nu.toNat, true⟩, ⟨B.addr + (B.size - nu.toNat), nu.toNat, false⟩] ++ ys) := by
  have hbmem : B ∈ bs := by simp [hbs]
  have hs := hi.hdr B hbmem
  have hsub : ((h.mem B.addr).size - nu).toNat = B.size - nu.toNat := by
    rw [UInt32.toNat_sub_of_le _ _ (UInt32.le_iff_toNat_le.mpr (by omega)), hs]
  rw [hsub]
  have hq : B.addr ≠ B.addr + (B.size - nu.toNat) := by omega
  have hfree : freeAddrs (xs ++ [⟨B.addr, B.size - nu.toNat, true⟩,
      ⟨B.addr + (B.size - nu.toNat), nu.toNat, false⟩] ++ ys) = freeAddrs bs := by
    simp [hbs, hB]
  refine hi.replace (R := [B]) (by simp [hbs]) (fun a c hac => ?_) (by simp; omega) rfl
    (fun x hx => ?_) ?_ ?_ ?_ ?_
  · simp only [tiles_cons, tiles_nil] at hac ⊢
    omega
  · have hx' := hx B List.mem_cons_self
    have h₁ : x ≠ B.addr := by omega
    have h₂ : x ≠ B.addr + (B.size - nu.toNat) := by omega
    simp [h₁, h₂]
  · intro c hc
    simp only [List.mem_cons, List.not_mem_nil, or_false] at hc
    rcases hc with rfl | rfl
    · have hq' : B.size - nu.toNat ≠ 0 := by omega
      simp [hq', hsub]
    · simp
  · -- the head stays free between a used block and the used tail
    rw [List.append_assoc, List.cons_append, List.singleton_append]
    have hchain := hi.apart
    rw [hbs] at hchain
    refine List.isChain_append_cons_cons.mpr ⟨List.isChain_append.mpr ⟨?_, List.isChain_singleton _,
      fun c hc _ _ => .inl ((hi.used_around hbs hB).1 c hc)⟩, .inr rfl,
      List.isChain_cons.mpr ⟨fun _ _ => .inl rfl, ?_⟩⟩
    · exact List.IsChain.left_of_append (List.isChain_split.mp hchain).1
    · exact (List.isChain_cons.mp (List.isChain_split.mp hchain).2).2
  · rw [hfree]
    refine hi.links.frame fun a _ => ?_
    simp [Heap.next]
  · rw [hfree]
    exact hprev

/-- `malloc`'s loop at a free block with room keeps the invariant and hands
out a new used block of exactly the units asked for; the other used blocks
stay as they were. -/
theorem Inv.carve_keeps (hi : Inv base start h bs) (hbs : bs = xs ++ B :: ys) (hB : B.free = true)
    (hnu : 0 < nu.toNat) (hfit : nu.toNat ≤ B.size) (hprev : prevp ∈ base :: freeAddrs bs)
    (hnext : h.next prevp = B.addr) :
    (carve nu h prevp B.addr).1.brk = h.brk ∧ ∃ bs' c, Carved base start nu bs (carve nu h prevp B.addr).1 bs' c ∧
      c.addr + 1 = (carve nu h prevp B.addr).2 := by
  have hbmem : B ∈ bs := by simp [hbs]
  have hs := hi.hdr B hbmem
  have hBpos := hi.pos B hbmem
  have hdB : ∀ d : Blk, d.free = false → d ≠ B := fun d hd he => by
    rw [he, hB] at hd
    cases hd
  by_cases hex : (h.mem B.addr).size = nu
  · -- just the units asked for: the block leaves the list
    have hsize : B.size = nu.toNat := by rw [← hs, hex]
    rw [carve, if_pos hex]
    refine ⟨rfl, _, { B with free := false }, ⟨hi.carve_exact hbs hB hprev hnext, by simp, fun hc => ?_, rfl,
      hsize, fun d hd => ?_⟩, rfl⟩
    · rcases hi.disjoint hc hbmem (hdB _ rfl) with h₁ | h₁ <;> simp only at h₁ <;> omega
    · simp only [hbs, List.mem_append, List.mem_cons, List.not_mem_nil, or_false]
      have := hdB d hd
      tauto
  · -- more: the tail is cut off
    have hlt : nu.toNat < B.size := by
      rw [← hs]
      exact lt_of_le_of_ne (by rw [hs]; exact hfit) fun he => hex (UInt32.ext (by rw [he]))
    have hsub : ((h.mem B.addr).size - nu).toNat = B.size - nu.toNat := by
      rw [UInt32.toNat_sub_of_le _ _ (UInt32.le_iff_toNat_le.mpr (by omega)), hs]
    rw [carve_split_eq hex]
    refine ⟨rfl, _, ⟨B.addr + (B.size - nu.toNat), nu.toNat, false⟩, ⟨hi.carve_split hbs hB hnu hlt hprev,
      by simp, fun hc => ?_, rfl, rfl, fun d hd => ?_⟩, by simp [hsub]⟩
    · -- the tail starts inside the block, where no block of the heap starts
      rcases hi.disjoint hc hbmem (hdB _ rfl) with h₁ | h₁ <;> simp only at h₁ <;> omega
    · have hd1 : d ≠ ⟨B.addr, B.size - nu.toNat, true⟩ := fun he => by rw [he] at hd; cases hd
      simp only [hbs, List.mem_append, List.mem_cons, List.not_mem_nil, or_false]
      have := hdB d hd
      tauto

end Carve

end Xv6.Umalloc
