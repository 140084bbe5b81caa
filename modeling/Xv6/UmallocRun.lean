import Xv6.UmallocMalloc

/-!
# A process's heap over a run of `malloc` and `free`

A run starts from a heap `malloc` has not touched (`freep` null, the break at
the first unit `start` of the heap) and goes through calls of `malloc`, which
return, and of `free` on allocations still live.  `sbrk` grows the heap only
while it stays below `KERNBASE`, as `allocuvm` checks; a request so large that
`morecore`'s byte count wraps is left out.

Along every such run the heap keeps `Inv`, and its used blocks are exactly
the live allocations (`Tracks`).  From that: live blocks lie in the heap,
apart from each other and from the free list, and hold the bytes asked for;
every call returns within `2 ^ 30` rounds; and `malloc` calls `sbrk` only
when no block on the free list has room, so memory just freed is used again.
-/

namespace Xv6.Umalloc

open LinkedPath Tiling

theorem nunits_pos (nbytes : UInt32) : 0 < (nunits nbytes).toNat := by
  have hlt := nbytes.toNat_lt
  simp only [nunits, headerSize, UInt32.toNat_add, UInt32.toNat_sub, UInt32.toNat_div, UInt32.reduceToNat]
  omega

/-- The block of a live allocation: the header before `ap`, of the units
`malloc` asked for. -/
def liveBlk (e : Nat × UInt32) : Blk := ⟨e.1 - 1, (nunits e.2).toNat, false⟩

/-- The used blocks are the blocks of the live allocations, one each. -/
structure Tracks (bs : List Blk) (live : List (Nat × UInt32)) : Prop where
  nodup : (live.map Prod.fst).Nodup
  placed : ∀ e ∈ live, 0 < e.1 ∧ liveBlk e ∈ bs
  used : ∀ b ∈ bs, b.free = false → ∃ n, (b.addr + 1, n) ∈ live

section Tracks

variable {base start : Nat} {h h' : Heap} {bs bs' : List Blk} {live : List (Nat × UInt32)}

theorem Tracks.carve {nbytes : UInt32} {c : Blk} (ht : Tracks bs live)
    (hc : Carved base start (nunits nbytes) bs h' bs' c) : Tracks bs' ((c.addr + 1, nbytes) :: live) := by
  have hcblk : liveBlk (c.addr + 1, nbytes) = c := by
    cases c
    simp only [liveBlk, Nat.add_sub_cancel, Blk.mk.injEq, true_and]
    exact ⟨hc.size.symm, hc.used.symm⟩
  refine ⟨List.nodup_cons.mpr ⟨fun hm => ?_, ht.nodup⟩, fun e he => ?_, fun b hb hbf => ?_⟩
  · -- a live allocation at the same place would be a used block `c` was not
    obtain ⟨e, he, hea⟩ := List.mem_map.mp hm
    obtain ⟨-, heb⟩ := ht.placed e he
    have hin : liveBlk e ∈ bs' := (hc.others _ rfl).mpr (.inl heb)
    have := hc.inv.addr_inj hin hc.mem (by simp [liveBlk, hea])
    exact hc.fresh (this ▸ heb)
  · rcases List.mem_cons.mp he with rfl | he
    · exact ⟨Nat.succ_pos _, hcblk ▸ hc.mem⟩
    · exact ⟨(ht.placed e he).1, (hc.others _ rfl).mpr (.inl (ht.placed e he).2)⟩
  · rcases (hc.others b hbf).mp hb with hb | rfl
    · obtain ⟨n, hn⟩ := ht.used b hb hbf
      exact ⟨n, List.mem_cons_of_mem _ hn⟩
    · exact ⟨nbytes, List.mem_cons_self⟩

theorem Tracks.free {ap : Nat} {n : UInt32} (ht : Tracks bs live) (hi : Inv base start h bs)
    (he : (ap, n) ∈ live) (hused : ∀ c : Blk, c.free = false → (c ∈ bs' ↔ c ∈ bs ∧ c ≠ liveBlk (ap, n))) :
    Tracks bs' (live.erase (ap, n)) := by
  have hnd : live.Nodup := ht.nodup.of_map _
  obtain ⟨hap, hb⟩ := ht.placed _ he
  refine ⟨ht.nodup.sublist (List.erase_sublist.map _), fun e he' => ?_, fun c hc hcf => ?_⟩
  · obtain ⟨hne, he'⟩ := (hnd.mem_erase_iff).mp he'
    obtain ⟨hpos, heb⟩ := ht.placed e he'
    refine ⟨hpos, (hused _ rfl).mpr ⟨heb, fun hblk => hne ?_⟩⟩
    -- two live allocations at one place are one
    have h₁ : e.1 = ap := by
      have := congrArg Blk.addr hblk
      simp only [liveBlk] at this
      omega
    exact List.inj_on_of_nodup_map ht.nodup he' he h₁
  · obtain ⟨hcb, hne⟩ := (hused c hcf).mp hc
    obtain ⟨m, hm⟩ := ht.used c hcb hcf
    refine ⟨m, List.mem_erase_of_ne (fun heq => hne ?_) |>.mpr hm⟩
    have h₁ : c.addr = (liveBlk (ap, n)).addr := by
      simp only [Prod.mk.injEq] at heq
      simp only [liveBlk]
      omega
    exact hi.addr_inj hcb hb h₁

/-- `free` of a live allocation, with whatever fuel it returned with, does
what `Inv.free` says of the allocation's block. -/
theorem free_of_live (hi : Inv base start h bs) (ht : Tracks bs live) {ap : Nat} {n : UInt32}
    (he : (ap, n) ∈ live) {fuel : Nat} (hf : free h ap fuel = some h') :
    ∃ bs', Inv base start h' bs' ∧
      (∃ c ∈ bs', c.free = true ∧ c.addr ≤ ap - 1 ∧ ap - 1 + (nunits n).toNat ≤ c.addr + c.size) ∧
      ∀ c : Blk, c.free = false → (c ∈ bs' ↔ c ∈ bs ∧ c ≠ liveBlk (ap, n)) := by
  obtain ⟨hap, hb⟩ := ht.placed _ he
  obtain ⟨xs, ys, hbs⟩ := List.append_of_mem hb
  obtain ⟨h₁, hf₁, -, bs', hi', hc, hused⟩ :=
    hi.free hbs rfl (show bs.length + 2 ≤ fuel + 2 ^ 30 by have := hi.length_lt; omega)
  obtain ⟨bp, rfl⟩ : ∃ bp, ap = bp + 1 := ⟨ap - 1, by omega⟩
  -- the call's answer is the one reached with more fuel
  have hh : h' = h₁ := Option.some.inj ((free_mono hf _).symm.trans hf₁)
  subst hh
  exact ⟨bs', hi', hc, hused⟩

end Tracks

/-! ## Runs -/

/-- The heap `malloc` sets up on its first call. -/
theorem Inv.init {base start : Nat} {h : Heap} (hbrk : h.brk = 8 * start) (hlow : h.brk < 2 ^ 31)
    (hbelow : base < start) : Inv base start { h.set base { ptr := base, size := 0 } with freep := base } [] where
  tiles := by
    show start = h.brk / 8
    omega
  aligned := by
    show h.brk % 8 = 0
    omega
  low := hlow
  pos := by simp
  hdr := by simp
  apart := List.isChain_nil
  below := hbelow
  base_size := by simp [Heap.set]
  links := by simp [Heap.next, Heap.set, linked_cons_cons]
  freep := List.mem_singleton_self _

theorem malloc_of_freep {base : Nat} {h : Heap} (hfp : h.freep ≠ 0) (nbytes : UInt32) (grows : Bool)
    (fuel : Nat) :
    malloc base h nbytes grows fuel = mallocLoop (nunits nbytes) grows fuel h h.freep (h.mem h.freep).ptr := by
  simp only [malloc, if_neg hfp]

theorem Inv.freep_ne {base start : Nat} {h : Heap} {bs : List Blk} (hi : Inv base start h bs) (hbase : 0 < base) :
    h.freep ≠ 0 := by
  rcases List.mem_cons.mp hi.freep with he | hm
  · omega
  · have := hi.base_lt hm
    omega

/-- What holds of a process's heap at every point of a run: `malloc` has not
been called and nothing is live, or the heap keeps the invariant with the
live allocations as its used blocks. -/
def RunInv (base start : Nat) (h : Heap) (live : List (Nat × UInt32)) : Prop :=
  (h.freep = 0 ∧ live = [] ∧ base < start ∧ h.brk = 8 * start ∧ h.brk < 2 ^ 31) ∨
    ∃ bs, Inv base start h bs ∧ Tracks bs live

section Steps

variable {base start : Nat} {h h' : Heap} {live : List (Nat × UInt32)}

/-- `malloc` runs its loop from `freep` on a heap that keeps the invariant:
the heap as it was, or on the first call the one with `base` set up. -/
theorem RunInv.loop_start (hr : RunInv base start h live) (hbase : 0 < base) (nbytes : UInt32) (grows : Bool)
    (fuel : Nat) :
    ∃ h₀ bs, Inv base start h₀ bs ∧ Tracks bs live ∧ h₀.brk = h.brk ∧
      malloc base h nbytes grows fuel = mallocLoop (nunits nbytes) grows fuel h₀ h₀.freep (h₀.mem h₀.freep).ptr := by
  rcases hr with ⟨hfp, rfl, hbelow, hbrk, hlow⟩ | ⟨bs, hi, ht⟩
  · exact ⟨_, [], Inv.init hbrk hlow hbelow, ⟨List.nodup_nil, by simp, by simp⟩, rfl,
      by simp only [malloc, if_pos hfp]⟩
  · exact ⟨h, bs, hi, ht, rfl, malloc_of_freep (hi.freep_ne hbase) nbytes grows fuel⟩

theorem RunInv.malloc_step (hr : RunInv base start h live) (hbase : 0 < base) {nbytes : UInt32} {grows : Bool}
    {fuel ap : Nat} (hroom : grows = true → h.brk + 8 * (coreUnits (nunits nbytes)).toNat < 2 ^ 31)
    (hm : malloc base h nbytes grows fuel = some (h', ap)) :
    RunInv base start h' (if ap = 0 then live else (ap, nbytes) :: live) := by
  obtain ⟨h₀, bs, hi, ht, hbrk, hloop⟩ := hr.loop_start hbase nbytes grows fuel
  obtain ⟨h₁, ap₁, hspec, hres, -⟩ :=
    hi.mallocLoop_spec (nunits_pos nbytes) (show 2 ^ 30 ≤ fuel + 2 ^ 30 by omega) (hbrk ▸ hroom)
  -- the call's answer is the one reached with more fuel
  rw [hloop] at hm
  obtain ⟨rfl, rfl⟩ := Prod.mk.inj (Option.some.inj ((mallocLoop_mono hm _).symm.trans hspec))
  rcases hres with ⟨rfl, rfl, -⟩ | ⟨bs', c, hc, rfl⟩
  · rw [if_pos rfl]
    exact .inr ⟨bs, hi, ht⟩
  · rw [if_neg (Nat.succ_ne_zero _)]
    exact .inr ⟨bs', hc.inv, ht.carve hc⟩

theorem RunInv.free_step (hr : RunInv base start h live) {ap : Nat} {n : UInt32} {fuel : Nat}
    (he : (ap, n) ∈ live) (hf : free h ap fuel = some h') : RunInv base start h' (live.erase (ap, n)) := by
  rcases hr with ⟨-, rfl, -⟩ | ⟨bs, hi, ht⟩
  · simp at he
  obtain ⟨bs', hi', -, hused⟩ := free_of_live hi ht he hf
  exact .inr ⟨bs', hi', ht.free hi he hused⟩

end Steps

/-- One call of the allocator, with the allocations live before and after
it: a `malloc` that returns, where `sbrk` succeeds only while the heap stays
below `KERNBASE`, or a `free` of a live allocation. -/
inductive Call (base : Nat) : Heap → List (Nat × UInt32) → Heap → List (Nat × UInt32) → Prop
  | malloc {h h' : Heap} {live : List (Nat × UInt32)} {nbytes : UInt32} {grows : Bool} {fuel ap : Nat} :
      (grows = true → h.brk + 8 * (coreUnits (nunits nbytes)).toNat < 2 ^ 31) →
      malloc base h nbytes grows fuel = some (h', ap) →
      Call base h live h' (if ap = 0 then live else (ap, nbytes) :: live)
  | free {h h' : Heap} {live : List (Nat × UInt32)} {ap : Nat} {nbytes : UInt32} {fuel : Nat} :
      (ap, nbytes) ∈ live → free h ap fuel = some h' → Call base h live h' (live.erase (ap, nbytes))

/-- The heaps of a process, whose static `base` lies below the first unit
`start` of its heap, from an untouched heap through any sequence of calls. -/
inductive Reachable (base start : Nat) : Heap → List (Nat × UInt32) → Prop
  | init {h : Heap} : 0 < base → base < start → h.freep = 0 → h.brk = 8 * start → h.brk < 2 ^ 31 →
      Reachable base start h []
  | step {h h' : Heap} {live live' : List (Nat × UInt32)} :
      Reachable base start h live → Call base h live h' live' → Reachable base start h' live'

section Reachable

variable {base start : Nat} {h : Heap} {live : List (Nat × UInt32)}

theorem Reachable.base_pos (hr : Reachable base start h live) : 0 < base := by
  induction hr with
  | init hbase => exact hbase
  | step _ _ ih => exact ih

theorem Reachable.runInv (hr : Reachable base start h live) : RunInv base start h live := by
  induction hr with
  | init _ hbelow hfp hbrk hlow => exact .inl ⟨hfp, rfl, hbelow, hbrk, hlow⟩
  | step hr' hc ih =>
    cases hc with
    | malloc hroom hm => exact ih.malloc_step hr'.base_pos hroom hm
    | free he hf => exact ih.free_step he hf

theorem Reachable.inv_of_live (hr : Reachable base start h live) {e : Nat × UInt32} (he : e ∈ live) :
    ∃ bs, Inv base start h bs ∧ Tracks bs live := by
  rcases hr.runInv with ⟨-, rfl, -⟩ | hinv
  · simp at he
  · exact hinv

theorem Reachable.inv_of_freep (hr : Reachable base start h live) (hfp : h.freep ≠ 0) :
    ∃ bs, Inv base start h bs ∧ Tracks bs live := by
  rcases hr.runInv with ⟨h0, -⟩ | hinv
  · exact absurd h0 hfp
  · exact hinv

end Reachable

/-! ## The free list as `malloc` walks it -/

section Walk

variable {base start : Nat} {h : Heap} {bs : List Blk}

theorem Inv.next_mem (hi : Inv base start h bs) {q : Nat} (hq : q ∈ base :: freeAddrs bs) :
    h.next q ∈ base :: freeAddrs bs := by
  have := hi.links.next_mem_tail (a := q) (by rw [List.dropLast_concat]; exact hq)
  simp only [List.cons_append, List.tail_cons, List.mem_append, List.mem_singleton] at this
  rcases this with h₁ | h₁
  · exact List.mem_cons_of_mem _ h₁
  · rw [h₁]
    exact List.mem_cons_self

/-- Following the pointers from `freep` never leaves the free list. -/
theorem Inv.iterate_mem (hi : Inv base start h bs) (k : Nat) : h.next^[k] h.freep ∈ base :: freeAddrs bs := by
  induction k with
  | zero => exact hi.freep
  | succ k ih =>
    rw [Function.iterate_succ_apply']
    exact hi.next_mem ih

/-- And it reaches every block on it. -/
theorem Inv.exists_iterate (hi : Inv base start h bs) {q : Nat} (hq : q ∈ base :: freeAddrs bs) :
    ∃ k, h.next^[k] h.freep = q := by
  obtain ⟨w, hw, -, hperm⟩ := hi.links.round hi.freep
  exact hw.exists_iterate (List.mem_cons_of_mem _ (hperm.symm.subset hq))

/-- After `free` of a live allocation a free block covers its units. -/
theorem Reachable.free_covers {live : List (Nat × UInt32)} (hr : Reachable base start h live) {ap : Nat}
    {n : UInt32} (he : (ap, n) ∈ live) {fuel : Nat} {h' : Heap} (hf : free h ap fuel = some h') :
    ∃ bs', Inv base start h' bs' ∧
      ∃ c ∈ bs', c.free = true ∧ c.addr ≤ ap - 1 ∧ ap - 1 + (nunits n).toNat ≤ c.addr + c.size := by
  obtain ⟨bs, hi, ht⟩ := hr.inv_of_live he
  obtain ⟨bs', hi', hc, -⟩ := free_of_live hi ht he hf
  exact ⟨bs', hi', hc⟩

end Walk

/-! ## What a program using the heap relies on -/

/-- The heap of a process after its first `malloc(16)`, with `base` at unit
`0x100` and the heap from unit `0x600`. -/
def firstHeap : Heap := ((malloc 0x100 startHeap 16 true 3).getD (startHeap, 0)).1

/-- And after a second `malloc(16)`. -/
def secondHeap : Heap := ((malloc 0x100 firstHeap 16 true 3).getD (firstHeap, 0)).1

theorem reachable_firstHeap : Reachable 0x100 0x600 firstHeap [(0x15FE, 16)] :=
  Reachable.step (Reachable.init (by decide) (by decide) rfl rfl (by decide))
    (Call.malloc (fun _ => by decide) (show malloc 0x100 startHeap 16 true 3 = some (firstHeap, 0x15FE) from rfl))

theorem reachable_secondHeap : Reachable 0x100 0x600 secondHeap [(0x15FB, 16), (0x15FE, 16)] :=
  Reachable.step reachable_firstHeap
    (Call.malloc (fun _ => by decide) (show malloc 0x100 firstHeap 16 true 3 = some (secondHeap, 0x15FB) from rfl))

section Consumers

variable {base start : Nat} {h : Heap} {live : List (Nat × UInt32)}

/-- Along every run, the heap is untouched, or it keeps the invariant: its
blocks lie end to end from `start` to the break with their sizes in their
headers, the free list is a cycle from `base` through exactly the free blocks
in address order with `freep` on it, no two free blocks touch, and the used
blocks are exactly those of the live allocations. -/
theorem heap_invariant (hr : Reachable base start h live) :
    (h.freep = 0 ∧ live = []) ∨ ∃ bs, Inv base start h bs ∧ Tracks bs live := by
  rcases hr.runInv with ⟨hfp, hlive, -⟩ | hinv
  · exact .inl ⟨hfp, hlive⟩
  · exact .inr hinv

theorem heap_invariant_secondHeap :
    Reachable 0x100 0x600 secondHeap [(0x15FB, 16), (0x15FE, 16)] ∧
      ∃ bs, Inv 0x100 0x600 secondHeap bs ∧ Tracks bs [(0x15FB, 16), (0x15FE, 16)] := by
  refine ⟨reachable_secondHeap, ?_⟩
  rcases heap_invariant reachable_secondHeap with ⟨-, hnil⟩ | hinv
  · simp at hnil
  · exact hinv

/-- A live allocation `(ap, n)` owns the `nunits n` units from `ap - 1`: they
lie in the heap, the header at `ap - 1` gives their number, and after it
there is room for the `n` bytes asked for. -/
theorem live_block (hr : Reachable base start h live) {ap : Nat} {n : UInt32} (he : (ap, n) ∈ live) :
    0 < ap ∧ start ≤ ap - 1 ∧ ap - 1 + (nunits n).toNat ≤ h.brk / 8 ∧ (h.mem (ap - 1)).size = nunits n ∧
      (n.toNat + 7 < 2 ^ 32 → n.toNat ≤ usable h ap) := by
  obtain ⟨bs, hi, ht⟩ := hr.inv_of_live he
  obtain ⟨hap, hb⟩ := ht.placed _ he
  have hbd := hi.bounds hb
  have hhdr := hi.hdr _ hb
  simp only [liveBlk] at hbd hhdr
  refine ⟨hap, hbd.1, hbd.2, UInt32.toNat_inj.mp hhdr, fun hn => ?_⟩
  have := nunits_spec hn
  rw [usable, hhdr]
  simp only [headerSize_toNat] at this ⊢
  omega

theorem live_block_secondHeap :
    Reachable 0x100 0x600 secondHeap [(0x15FB, 16), (0x15FE, 16)] ∧
      0 < 0x15FB ∧ 0x600 ≤ 0x15FB - 1 ∧ 0x15FB - 1 + (nunits 16).toNat ≤ secondHeap.brk / 8 ∧
      (secondHeap.mem (0x15FB - 1)).size = nunits 16 ∧
      ((16 : UInt32).toNat + 7 < 2 ^ 32 → (16 : UInt32).toNat ≤ usable secondHeap 0x15FB) :=
  ⟨reachable_secondHeap, live_block reachable_secondHeap (by simp)⟩

/-- Two live allocations own disjoint units. -/
theorem live_blocks_disjoint (hr : Reachable base start h live) {ap ap' : Nat} {n n' : UInt32}
    (he : (ap, n) ∈ live) (he' : (ap', n') ∈ live) (hne : ap ≠ ap') :
    ap - 1 + (nunits n).toNat ≤ ap' - 1 ∨ ap' - 1 + (nunits n').toNat ≤ ap - 1 := by
  obtain ⟨bs, hi, ht⟩ := hr.inv_of_live he
  obtain ⟨hap, hb⟩ := ht.placed _ he
  obtain ⟨hap', hb'⟩ := ht.placed _ he'
  have hblk : liveBlk (ap, n) ≠ liveBlk (ap', n') := fun heq => hne (by
    have := congrArg Blk.addr heq
    simp only [liveBlk] at this
    omega)
  simpa [liveBlk] using hi.disjoint hb hb' hblk

theorem live_blocks_disjoint_secondHeap :
    Reachable 0x100 0x600 secondHeap [(0x15FB, 16), (0x15FE, 16)] ∧ (0x15FB : Nat) ≠ 0x15FE ∧
      (0x15FB - 1 + (nunits 16).toNat ≤ 0x15FE - 1 ∨ 0x15FE - 1 + (nunits 16).toNat ≤ 0x15FB - 1) :=
  ⟨reachable_secondHeap, by decide,
    live_blocks_disjoint reachable_secondHeap (by simp) (by simp) (by decide)⟩

/-- No block on the free list, as `malloc` and `free` walk it from `freep`,
reaches into a live allocation. -/
theorem free_list_avoids_live (hr : Reachable base start h live) {ap : Nat} {n : UInt32}
    (he : (ap, n) ∈ live) (k : Nat) :
    h.next^[k] h.freep + (h.mem (h.next^[k] h.freep)).size.toNat ≤ ap - 1 ∨
      ap - 1 + (nunits n).toNat ≤ h.next^[k] h.freep := by
  obtain ⟨bs, hi, ht⟩ := hr.inv_of_live he
  obtain ⟨hap, hb⟩ := ht.placed _ he
  have hlo := (hi.bounds hb).1
  rcases List.mem_cons.mp (hi.iterate_mem k) with hq | hq
  · -- `base`, below the heap, with no units
    rw [hq, hi.base_size]
    have := hi.below
    simp only [liveBlk] at hlo
    left
    simp only [UInt32.toNat_zero]
    omega
  · obtain ⟨B, hB, hBf, hBa⟩ := mem_freeAddrs.mp hq
    have hne : B ≠ liveBlk (ap, n) := fun heq => by
      rw [heq] at hBf
      simp [liveBlk] at hBf
    rw [← hBa, hi.hdr B hB]
    simpa [liveBlk] using hi.disjoint hB hb hne

theorem free_list_avoids_live_secondHeap :
    Reachable 0x100 0x600 secondHeap [(0x15FB, 16), (0x15FE, 16)] ∧
      (secondHeap.next^[1] secondHeap.freep + (secondHeap.mem (secondHeap.next^[1] secondHeap.freep)).size.toNat ≤
          0x15FB - 1 ∨ 0x15FB - 1 + (nunits 16).toNat ≤ secondHeap.next^[1] secondHeap.freep) :=
  ⟨reachable_secondHeap, free_list_avoids_live reachable_secondHeap (by simp) 1⟩

/-- From any point of a run, `malloc` returns within `2 ^ 30` rounds of its
loops.  It returns a null pointer only when `sbrk` fails, and then the break
stays; the break moves by `coreUnits` of the units asked for, or not at all. -/
theorem malloc_returns (hr : Reachable base start h live) (nbytes : UInt32) {grows : Bool}
    (hroom : grows = true → h.brk + 8 * (coreUnits (nunits nbytes)).toNat < 2 ^ 31) :
    ∃ h' ap, malloc base h nbytes grows (2 ^ 30) = some (h', ap) ∧ (ap = 0 → grows = false ∧ h'.brk = h.brk) ∧
      (h'.brk = h.brk ∨ h'.brk = h.brk + 8 * (coreUnits (nunits nbytes)).toNat) := by
  obtain ⟨h₀, bs, hi, -, hbrk, hloop⟩ := hr.runInv.loop_start hr.base_pos nbytes grows (2 ^ 30)
  obtain ⟨h', ap, hspec, hres, hmove⟩ := hi.mallocLoop_spec (nunits_pos nbytes) le_rfl (hbrk ▸ hroom)
  refine ⟨h', ap, hloop.trans hspec, fun hap => ?_, ?_⟩
  · rcases hres with ⟨-, rfl, hg⟩ | ⟨bs', c, -, hc⟩
    · exact ⟨hg, hbrk⟩
    · omega
  · rcases hmove with hm | ⟨hm, -⟩
    · exact .inl (hm.trans hbrk)
    · exact .inr (by rw [hm, hbrk])

theorem malloc_returns_secondHeap :
    Reachable 0x100 0x600 secondHeap [(0x15FB, 16), (0x15FE, 16)] ∧
      (true = true → secondHeap.brk + 8 * (coreUnits (nunits 4096)).toNat < 2 ^ 31) ∧
      ∃ h' ap, malloc 0x100 secondHeap 4096 true (2 ^ 30) = some (h', ap) ∧
        (ap = 0 → true = false ∧ h'.brk = secondHeap.brk) ∧
        (h'.brk = secondHeap.brk ∨ h'.brk = secondHeap.brk + 8 * (coreUnits (nunits 4096)).toNat) :=
  ⟨reachable_secondHeap, fun _ => by decide, malloc_returns reachable_secondHeap 4096 fun _ => by decide⟩

/-- `free` of a live allocation returns within `2 ^ 30` rounds, the break
where it was. -/
theorem free_returns (hr : Reachable base start h live) {ap : Nat} {n : UInt32} (he : (ap, n) ∈ live) :
    ∃ h', free h ap (2 ^ 30) = some h' ∧ h'.brk = h.brk := by
  obtain ⟨bs, hi, ht⟩ := hr.inv_of_live he
  obtain ⟨hap, hb⟩ := ht.placed _ he
  obtain ⟨xs, ys, hbs⟩ := List.append_of_mem hb
  obtain ⟨h', hf, hbrk, -⟩ := hi.free hbs rfl (show bs.length + 2 ≤ 2 ^ 30 by have := hi.length_lt; omega)
  obtain ⟨bp, rfl⟩ : ∃ bp, ap = bp + 1 := ⟨ap - 1, by omega⟩
  exact ⟨h', hf, hbrk⟩

theorem free_returns_secondHeap :
    Reachable 0x100 0x600 secondHeap [(0x15FB, 16), (0x15FE, 16)] ∧
      ∃ h', free secondHeap 0x15FE (2 ^ 30) = some h' ∧ h'.brk = secondHeap.brk :=
  ⟨reachable_secondHeap, free_returns reachable_secondHeap (n := 16) (by simp)⟩

/-- `malloc` calls `sbrk` only when no block on the free list has room: when
a block it reaches from `freep` has room, it hands out a block and the break
stays. -/
theorem malloc_fit_keeps_break (hr : Reachable base start h live) (hfp : h.freep ≠ 0) {nbytes : UInt32}
    (k : Nat) (hfit : nunits nbytes ≤ (h.mem (h.next^[k] h.freep)).size) {grows : Bool} {fuel ap : Nat}
    {h' : Heap} (hm : malloc base h nbytes grows fuel = some (h', ap)) : h'.brk = h.brk ∧ ap ≠ 0 := by
  obtain ⟨bs, hi, -⟩ := hr.inv_of_freep hfp
  obtain ⟨xs, B, ys, hbs, hB, -, hfitB⟩ := hi.fit_block (nunits_pos nbytes) (hi.iterate_mem k) hfit
  rw [malloc_of_freep hfp] at hm
  obtain ⟨hbrk, bs', c, -, hap⟩ := hi.mallocLoop_of_room (nunits_pos nbytes) ⟨B, by simp [hbs], hB, hfitB⟩ hm
  exact ⟨hbrk, by omega⟩

theorem malloc_fit_keeps_break_secondHeap :
    Reachable 0x100 0x600 secondHeap [(0x15FB, 16), (0x15FE, 16)] ∧ secondHeap.freep ≠ 0 ∧
      nunits 16 ≤ (secondHeap.mem (secondHeap.next^[1] secondHeap.freep)).size ∧
      ∃ h' ap, malloc 0x100 secondHeap 16 true 3 = some (h', ap) ∧ h'.brk = secondHeap.brk ∧ ap ≠ 0 := by
  obtain ⟨h', ap, hm⟩ : ∃ h' ap, malloc 0x100 secondHeap 16 true 3 = some (h', ap) := ⟨_, _, rfl⟩
  have hfp : secondHeap.freep ≠ 0 := by decide
  have hfit : nunits 16 ≤ (secondHeap.mem (secondHeap.next^[1] secondHeap.freep)).size := by decide
  exact ⟨reachable_secondHeap, hfp, hfit, h', ap, hm, malloc_fit_keeps_break reachable_secondHeap hfp 1 hfit hm⟩

/-- `free` puts the units of a live allocation back on the free list: after
it, a block `malloc` reaches from `freep` covers them. -/
theorem free_puts_back (hr : Reachable base start h live) {ap : Nat} {n : UInt32} (he : (ap, n) ∈ live)
    {fuel : Nat} {h' : Heap} (hf : free h ap fuel = some h') :
    ∃ k, h'.next^[k] h'.freep ≤ ap - 1 ∧
      ap - 1 + (nunits n).toNat ≤ h'.next^[k] h'.freep + (h'.mem (h'.next^[k] h'.freep)).size.toNat := by
  obtain ⟨bs', hi', c, hc, hcf, hlo, hhi⟩ := hr.free_covers he hf
  obtain ⟨k, hk⟩ := hi'.exists_iterate (List.mem_cons_of_mem _ (mem_freeAddrs.mpr ⟨c, hc, hcf, rfl⟩))
  refine ⟨k, ?_, ?_⟩
  · rw [hk]
    exact hlo
  · rw [hk, hi'.hdr c hc]
    exact hhi

theorem free_puts_back_secondHeap :
    Reachable 0x100 0x600 secondHeap [(0x15FB, 16), (0x15FE, 16)] ∧
      ∃ h', free secondHeap 0x15FE 3 = some h' ∧ ∃ k, h'.next^[k] h'.freep ≤ 0x15FE - 1 ∧
        0x15FE - 1 + (nunits 16).toNat ≤ h'.next^[k] h'.freep + (h'.mem (h'.next^[k] h'.freep)).size.toNat := by
  obtain ⟨h', hf⟩ : ∃ h', free secondHeap 0x15FE 3 = some h' := ⟨_, rfl⟩
  exact ⟨reachable_secondHeap, h', hf, free_puts_back reachable_secondHeap (by simp) hf⟩

/-- Memory just freed is used again: after `free` of a live allocation, a
`malloc` of no more units hands out a block without calling `sbrk`. -/
theorem free_then_malloc_reuses (hr : Reachable base start h live) {ap : Nat} {n : UInt32}
    (he : (ap, n) ∈ live) {fuel : Nat} {h₁ : Heap} (hf : free h ap fuel = some h₁) {m : UInt32}
    (hle : (nunits m).toNat ≤ (nunits n).toNat) {grows : Bool} {fuel' ap' : Nat} {h₂ : Heap}
    (hm : malloc base h₁ m grows fuel' = some (h₂, ap')) : h₂.brk = h₁.brk ∧ ap' ≠ 0 := by
  obtain ⟨bs', hi', c, hc, hcf, hlo, hhi⟩ := hr.free_covers he hf
  rw [malloc_of_freep (hi'.freep_ne hr.base_pos)] at hm
  obtain ⟨hbrk, bs'', c', -, hap'⟩ :=
    hi'.mallocLoop_of_room (nunits_pos m) ⟨c, hc, hcf, by omega⟩ hm
  exact ⟨hbrk, by omega⟩

theorem free_then_malloc_reuses_secondHeap :
    Reachable 0x100 0x600 secondHeap [(0x15FB, 16), (0x15FE, 16)] ∧
      ∃ h₁, free secondHeap 0x15FE 3 = some h₁ ∧
        ∃ h₂ ap', malloc 0x100 h₁ 16 true 3 = some (h₂, ap') ∧ h₂.brk = h₁.brk ∧ ap' ≠ 0 := by
  have hf : free secondHeap 0x15FE 3 = some ((free secondHeap 0x15FE 3).getD secondHeap) := rfl
  obtain ⟨h₂, ap', hm⟩ : ∃ h₂ ap', malloc 0x100 ((free secondHeap 0x15FE 3).getD secondHeap) 16 true 3 =
      some (h₂, ap') := ⟨_, _, rfl⟩
  exact ⟨reachable_secondHeap, _, hf, h₂, ap', hm,
    free_then_malloc_reuses reachable_secondHeap (by simp) hf le_rfl hm⟩

end Consumers

end Xv6.Umalloc
