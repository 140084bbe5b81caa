import Xv6.UmallocHeap

/-!
# `malloc`'s loop over the whole free list

`malloc` starts its search at the block after `freep` and walks the cycle.
Along a ghost path of the cycle from `freep` round to itself, the loop either
stops at the first block with room, which it carves (`carve`), or comes back
to `freep` with none, calls `morecore` and searches once more (`grow`).  The
block `morecore` frees has at least the units asked for, so the second
search always stops.

Both loops and `free` count their rounds with fuel; a result once reached is
kept with more fuel, and `2 ^ 30` rounds are enough for any heap below
`KERNBASE`, which has fewer than `2 ^ 28` blocks.
-/

namespace Xv6.Umalloc

open LinkedPath Tiling

/-! ## More fuel -/

theorem freeSearch_mono {h : Heap} {bp fuel p q : Nat} (hs : freeSearch h bp fuel p = some q) (k : Nat) :
    freeSearch h bp (fuel + k) p = some q := by
  rw [freeSearch_eq_findFrom] at hs ⊢
  exact findFrom_mono hs k

theorem free_mono {h h' : Heap} {bp fuel : Nat} (hf : free h (bp + 1) fuel = some h') (k : Nat) :
    free h (bp + 1) (fuel + k) = some h' := by
  rw [free_eq] at hf ⊢
  obtain ⟨p, hp, rfl⟩ := Option.map_eq_some_iff.mp hf
  rw [freeSearch_mono hp k, Option.map_some]

/-- The units `morecore` asks `sbrk` for: at least 4096. -/
def coreUnits (nu : UInt32) : UInt32 := if nu < 4096 then 4096 else nu

theorem le_coreUnits (nu : UInt32) : nu.toNat ≤ (coreUnits nu).toNat := by
  unfold coreUnits
  split_ifs with h
  · exact (UInt32.lt_iff_toNat_lt.mp h).le
  · exact le_rfl

theorem morecore_false (h : Heap) (nu : UInt32) (fuel : Nat) : morecore h nu false fuel = some none := rfl

theorem morecore_mono {h : Heap} {nu : UInt32} {grows : Bool} {fuel : Nat} {r : Option Heap}
    (hm : morecore h nu grows fuel = some r) (k : Nat) : morecore h nu grows (fuel + k) = some r := by
  cases grows with
  | false => rwa [morecore_false] at hm ⊢
  | true =>
    simp only [morecore, sbrk] at hm ⊢
    obtain ⟨h', hf, rfl⟩ := Option.map_eq_some_iff.mp hm
    rw [free_mono hf k, Option.map_some]
    rfl

/-- `malloc`'s loop back at `freep` with no block that fits: `morecore`, and
the search again from the new `freep`. -/
def grow (nu : UInt32) (grows : Bool) (fuel : Nat) (h : Heap) : Option (Heap × Nat) :=
  match morecore h nu grows fuel with
  | none => none
  | some none => some (h, 0)
  | some (some h) => mallocLoop nu grows fuel h h.freep (h.mem h.freep).ptr

theorem mallocLoop_grow {nu : UInt32} {grows : Bool} {fuel : Nat} {h : Heap} {prevp : Nat}
    (hsmall : (h.mem h.freep).size < nu) : mallocLoop nu grows (fuel + 1) h prevp h.freep = grow nu grows fuel h := by
  rw [mallocLoop, if_neg (UInt32.not_le.mpr hsmall), if_pos rfl]
  rfl

theorem mallocLoop_mono {nu : UInt32} {grows : Bool} {fuel : Nat} {h : Heap} {prevp p : Nat}
    {r : Heap × Nat} (hm : mallocLoop nu grows fuel h prevp p = some r) (k : Nat) :
    mallocLoop nu grows (fuel + k) h prevp p = some r := by
  induction fuel generalizing h prevp p with
  | zero => simp [mallocLoop] at hm
  | succ fuel ih =>
    rw [Nat.add_right_comm, mallocLoop]
    rw [mallocLoop] at hm
    split_ifs at hm ⊢
    · exact hm
    · exact hm
    · -- back at `freep`: `morecore` keeps its answer, and so does the search after it
      cases hc : morecore h nu grows fuel with
      | none => rw [hc] at hm; cases hm
      | some r' =>
        rw [hc] at hm
        rw [morecore_mono hc k]
        cases r' with
        | none => exact hm
        | some h' => exact ih hm
    · exact ih hm

/-! ## `morecore` -/

theorem UInt32.toInt_toInt32_of_lt {x : UInt32} (h : x.toNat < 2 ^ 31) : x.toInt32.toInt = x.toNat := by
  have : x.toInt32.toInt = x.toBitVec.toInt := rfl
  rw [this, BitVec.toInt_eq_toNat_of_lt (by simp; omega)]
  rfl

/-- When `sbrk`'s argument does not wrap, `morecore` puts a header of
`coreUnits nu` units at the old break and frees the block. -/
theorem morecore_grows (h : Heap) (nu : UInt32) (fuel : Nat) (hroom : 8 * (coreUnits nu).toNat < 2 ^ 31) :
    morecore h nu true fuel = (free (({ h with brk := h.brk + 8 * (coreUnits nu).toNat } : Heap).setSize
      (h.brk / 8) (coreUnits nu)) (h.brk / 8 + 1) fuel).map some := by
  have hmul : ((coreUnits nu) * headerSize).toNat = 8 * (coreUnits nu).toNat := by
    rw [UInt32.toNat_mul, headerSize_toNat, Nat.mod_eq_of_lt (by omega), Nat.mul_comm]
  have hint : ((coreUnits nu) * headerSize).toInt32.toInt = ((8 * (coreUnits nu).toNat : Nat) : Int) := by
    rw [UInt32.toInt_toInt32_of_lt (by omega), hmul]
  simp only [morecore, sbrk]
  rw [show (if nu < 4096 then 4096 else nu) = coreUnits nu from rfl, hint, ← Nat.cast_add, Int.toNat_natCast]
  simp

section Grow

variable {base start : Nat} {h : Heap} {bs : List Blk}

/-- The heap grown by a used block of `n` units at the old break. -/
theorem Inv.extend (hi : Inv base start h bs) {n : UInt32} (hn : 0 < n.toNat) (hroom : h.brk + 8 * n.toNat < 2 ^ 31) :
    Inv base start (({ h with brk := h.brk + 8 * n.toNat } : Heap).setSize (h.brk / 8) n)
      (bs ++ [⟨h.brk / 8, n.toNat, false⟩]) := by
  have hend : ∀ b ∈ bs, b.addr + b.size ≤ h.brk / 8 := fun b hb => (hi.bounds hb).2
  have hstart := hi.tiles.le
  constructor
  · rw [Heap.setSize_brk, show (h.brk + 8 * n.toNat) / 8 = h.brk / 8 + n.toNat by omega]
    exact hi.tiles.snoc rfl
  · have := hi.aligned
    simp only [Heap.setSize_brk]
    omega
  · simpa using hroom
  · intro b hb
    rcases List.mem_append.mp hb with hb | hb
    · exact hi.pos b hb
    · rw [List.mem_singleton.mp hb]
      exact hn
  · intro b hb
    rcases List.mem_append.mp hb with hb | hb
    · have := hend b hb
      have := hi.pos b hb
      rw [Heap.size_setSize, if_neg (by omega)]
      exact hi.hdr b hb
    · rw [List.mem_singleton.mp hb]
      simp
  · exact List.isChain_append.mpr ⟨hi.apart, List.isChain_singleton _, fun _ _ y hy => .inr (by
      rw [List.head?_cons, Option.mem_some_iff] at hy
      rw [← hy])⟩
  · exact hi.below
  · have := hi.below
    rw [Heap.size_setSize, if_neg (by omega)]
    exact hi.base_size
  · have hnext : ((({ h with brk := h.brk + 8 * n.toNat } : Heap).setSize (h.brk / 8) n)).next = h.next := by
      funext a
      simp [Heap.next]
    rw [hnext]
    simpa using hi.links
  · simpa using hi.freep

end Grow

/-! ## One round of the free list -/

/-- `malloc`'s loop passes over nodes that neither have room nor are `freep`. -/
theorem mallocLoop_walk {nu : UInt32} {grows : Bool} {h : Heap} {z f : Nat} {l : List Nat} :
    ∀ {prevp : Nat}, Linked h.next (prevp :: (l ++ [z])) → (∀ q ∈ l, (h.mem q).size < nu ∧ q ≠ h.freep) →
      mallocLoop nu grows (f + l.length) h prevp (h.mem prevp).ptr =
        mallocLoop nu grows f h ((prevp :: l).getLast (List.cons_ne_nil _ _)) z := by
  induction l with
  | nil =>
    intro prevp hl _
    have hz : h.next prevp = z := (linked_cons_cons.mp hl).1
    rw [show (h.mem prevp).ptr = z from hz]
    rfl
  | cons q l ih =>
    intro prevp hl hno
    rw [List.cons_append] at hl
    obtain ⟨hq, hrest⟩ := linked_cons_cons.mp hl
    obtain ⟨hqsmall, hqne⟩ := hno q List.mem_cons_self
    rw [List.length_cons, ← Nat.add_assoc, show (h.mem prevp).ptr = q from hq, mallocLoop,
      if_neg (UInt32.not_le.mpr hqsmall), if_neg hqne,
      ih (by rwa [← List.cons_append] at hrest) fun r hr => hno r (List.mem_cons_of_mem q hr)]
    simp [List.getLast_cons]

section Round

variable {base start : Nat} {h : Heap} {bs : List Blk} {nu : UInt32}

/-- A node of the cycle with room for `nu` units is a free block. -/
theorem Inv.fit_block (hi : Inv base start h bs) (hnu : 0 < nu.toNat) {q : Nat}
    (hq : q ∈ base :: freeAddrs bs) (hfit : nu ≤ (h.mem q).size) :
    ∃ xs B ys, bs = xs ++ B :: ys ∧ B.free = true ∧ B.addr = q ∧ nu.toNat ≤ B.size := by
  rcases List.mem_cons.mp hq with rfl | hq
  · rw [hi.base_size] at hfit
    have := UInt32.le_iff_toNat_le.mp hfit
    simp only [UInt32.toNat_zero] at this
    omega
  · obtain ⟨B, hB, hBf, rfl⟩ := mem_freeAddrs.mp hq
    obtain ⟨xs, ys, rfl⟩ := List.append_of_mem hB
    refine ⟨xs, B, ys, rfl, hBf, rfl, ?_⟩
    rw [← hi.hdr B hB]
    exact UInt32.le_iff_toNat_le.mp hfit

/-- From `freep`, `malloc`'s loop stops within one round of the free list at
the first block with room, or, when no free block has room, comes back to
`freep` and grows the heap. -/
theorem Inv.mallocLoop_round (hi : Inv base start h bs) (hnu : 0 < nu.toNat) (grows : Bool) {fuel : Nat}
    (hfuel : bs.length + 2 ≤ fuel) :
    (∃ xs B ys prevp, bs = xs ++ B :: ys ∧ B.free = true ∧ nu.toNat ≤ B.size ∧
      prevp ∈ base :: freeAddrs bs ∧ h.next prevp = B.addr ∧
      mallocLoop nu grows fuel h h.freep (h.mem h.freep).ptr = some (carve nu h prevp B.addr)) ∨
    ((∀ B ∈ bs, B.free = true → B.size < nu.toNat) ∧ ∃ f, fuel ≤ f + bs.length + 1 ∧
      mallocLoop nu grows fuel h h.freep (h.mem h.freep).ptr = grow nu grows f h) := by
  -- the round from `freep` back to itself, `l` being the nodes in between
  obtain ⟨w, hw, hlast, hperm⟩ := hi.links.round hi.freep
  obtain ⟨l, rfl⟩ := List.getLast?_eq_some_iff.mp hlast
  have hnd : (l ++ [h.freep]).Nodup := hperm.nodup_iff.mpr (hi.sorted.imp ne_of_lt)
  have hlfree : ∀ q ∈ l, q ≠ h.freep := fun q hq => (List.nodup_append.mp hnd).2.2 q hq _ (by simp)
  have hmem : ∀ q ∈ l, q ∈ base :: freeAddrs bs := fun q hq => hperm.subset (List.mem_append_left _ hq)
  have hlen : l.length ≤ bs.length := by
    have := hperm.length_eq
    simp only [List.length_append, List.length_cons] at this
    have := length_freeAddrs_le bs
    omega
  cases hfind : (l ++ [h.freep]).find? (fun q => decide (nu ≤ (h.mem q).size)) with
  | some y =>
    -- the first block with room, after the nodes `as` that have none
    obtain ⟨hyfit, as, cs, hsplit, has⟩ := List.find?_eq_some_iff_append.mp hfind
    have hasl : ∀ q ∈ as, q ∈ l := by
      rcases List.append_eq_append_iff.mp hsplit with ⟨a', rfl, ha'⟩ | ⟨c', rfl, -⟩
      · cases a' with
        | nil => simp
        | cons x t => simp at ha'
      · exact fun q hq => List.mem_append_left _ hq
    have hseg : Linked h.next ((h.freep :: as) ++ [y]) := by
      rw [hsplit, show h.freep :: (as ++ y :: cs) = (h.freep :: as ++ [y]) ++ cs by simp] at hw
      exact (linked_append.mp hw).1
    have hprev : (h.freep :: as).getLast (List.cons_ne_nil _ _) ∈ base :: freeAddrs bs := by
      rcases List.mem_cons.mp (List.getLast_mem (List.cons_ne_nil h.freep as)) with he | hq
      · rw [he]
        exact hi.freep
      · exact hmem _ (hasl _ hq)
    have hy : y ∈ base :: freeAddrs bs := hperm.subset (by rw [hsplit]; simp)
    obtain ⟨xs, B, ys, hbs, hB, rfl, hfit⟩ := hi.fit_block hnu hy (of_decide_eq_true hyfit)
    refine .inl ⟨xs, B, ys, _, hbs, hB, hfit, hprev, hseg.getLast_next (List.cons_ne_nil _ _), ?_⟩
    have hasn : as.length ≤ l.length := by
      have := congrArg List.length hsplit
      simp only [List.length_append, List.length_cons, List.length_nil] at this
      omega
    rw [show fuel = (fuel - as.length - 1 + 1) + as.length by omega,
      mallocLoop_walk hseg fun q hq => ⟨?_, hlfree q (hasl q hq)⟩]
    · exact mallocLoop_fit (of_decide_eq_true hyfit)
    · simpa using has q hq
  | none =>
    -- no block has room: the loop comes round to `freep`
    have hsmall : ∀ q ∈ l ++ [h.freep], (h.mem q).size < nu := fun q hq => by
      simpa using List.find?_eq_none.mp hfind q hq
    obtain ⟨f, rfl⟩ : ∃ f, fuel = f + 1 + l.length := ⟨fuel - l.length - 1, by omega⟩
    refine .inr ⟨fun B hB hBf => ?_, f, by omega, ?_⟩
    · have hq : B.addr ∈ l ++ [h.freep] :=
        hperm.symm.subset (List.mem_cons_of_mem _ (mem_freeAddrs.mpr ⟨B, hB, hBf, rfl⟩))
      have := UInt32.lt_iff_toNat_lt.mp (hsmall _ hq)
      rwa [hi.hdr B hB] at this
    · rw [mallocLoop_walk hw fun q hq => ⟨hsmall q (List.mem_append_left _ hq), hlfree q hq⟩]
      exact mallocLoop_grow (hsmall _ (by simp))

end Round

/-! ## The whole loop -/

theorem grow_false (nu : UInt32) (fuel : Nat) (h : Heap) : grow nu false fuel h = some (h, 0) := rfl

theorem grow_of_morecore {nu : UInt32} {grows : Bool} {fuel : Nat} {h h' : Heap}
    (hm : morecore h nu grows fuel = some (some h')) :
    grow nu grows fuel h = mallocLoop nu grows fuel h' h'.freep (h'.mem h'.freep).ptr := by
  rw [grow, hm]

/-- A block handed out after other used blocks were freed or added is still
new, beside the same used blocks. -/
theorem Carved.of_used_eq {base start : Nat} {nu : UInt32} {bs bs₁ bs' : List Blk} {h' : Heap} {c : Blk}
    (hc : Carved base start nu bs₁ h' bs' c) (hsame : ∀ d : Blk, d.free = false → (d ∈ bs₁ ↔ d ∈ bs)) :
    Carved base start nu bs h' bs' c :=
  ⟨hc.inv, hc.mem, fun hm => hc.fresh ((hsame c hc.used).mpr hm), hc.used, hc.size, fun d hd => by
    rw [hc.others d hd, hsame d hd]⟩

section Spec

variable {base start : Nat} {h : Heap} {bs : List Blk} {nu : UInt32}

/-- `morecore` and the search after it: the heap grows by `coreUnits nu`
units, and the block freed there has room. -/
theorem Inv.grow_spec (hi : Inv base start h bs) (hnu : 0 < nu.toNat) {f : Nat} (hf : 2 ^ 29 ≤ f)
    (hroom : h.brk + 8 * (coreUnits nu).toNat < 2 ^ 31) :
    ∃ h' ap, grow nu true f h = some (h', ap) ∧ h'.brk = h.brk + 8 * (coreUnits nu).toNat ∧
      ∃ bs' c, Carved base start nu bs h' bs' c ∧ c.addr + 1 = ap := by
  have hlen := hi.length_lt
  have hcore := le_coreUnits nu
  -- the new block at the old break, freed
  have hext := hi.extend (show 0 < (coreUnits nu).toNat by omega) hroom
  obtain ⟨h₁, hfree, hbrk₁, bs₁, hi₁, ⟨c, hc, hcf, hca, hcsize⟩, hused⟩ :=
    hext.free (show bs ++ [(⟨h.brk / 8, (coreUnits nu).toNat, false⟩ : Blk)] = bs ++ _ :: [] from rfl) rfl
      (show (bs ++ [(⟨h.brk / 8, (coreUnits nu).toNat, false⟩ : Blk)]).length + 2 ≤ f by simp; omega)
  have hm : morecore h nu true f = some (some h₁) := by
    rw [morecore_grows h nu f (by omega)]
    exact congrArg (Option.map some) hfree
  rw [grow_of_morecore hm]
  have hsame : ∀ d : Blk, d.free = false → (d ∈ bs₁ ↔ d ∈ bs) := fun d hd => by
    rw [hused d hd, List.mem_append, List.mem_singleton]
    constructor
    · rintro ⟨hd' | hd', hne⟩
      · exact hd'
      · exact absurd hd' hne
    · intro hdb
      refine ⟨.inl hdb, fun he => ?_⟩
      have hb := (hi.bounds hdb).2
      have hp := hi.pos d hdb
      rw [he] at hb hp
      simp only at hb hp
      omega
  -- the search again finds a block with room: the freed one has some
  rcases hi₁.mallocLoop_round hnu true (show bs₁.length + 2 ≤ f by have := hi₁.length_lt; omega) with
    ⟨xs, B, ys, prevp, hbs, hB, hfit, hprev, hnext, hloop⟩ | ⟨hnone, -, -, -⟩
  · obtain ⟨hbrk, bs', c', hc', hap⟩ := hi₁.carve_keeps hbs hB hnu hfit hprev hnext
    refine ⟨(carve nu h₁ prevp B.addr).1, (carve nu h₁ prevp B.addr).2, hloop, ?_, bs', c',
      hc'.of_used_eq hsame, hap⟩
    rw [hbrk, hbrk₁]
    simp
  · have := hnone c hc hcf
    simp only at hca hcsize
    omega

/-- `malloc`'s loop from `freep`, with fuel for two rounds and `morecore`:
it hands out a new used block of `nu` units, or, when `sbrk` fails, leaves
the heap as it was and returns a null pointer.  It moves the break only when
no free block has room, and then by `coreUnits nu` units. -/
theorem Inv.mallocLoop_spec (hi : Inv base start h bs) (hnu : 0 < nu.toNat) {grows : Bool} {fuel : Nat}
    (hfuel : 2 ^ 30 ≤ fuel) (hroom : grows = true → h.brk + 8 * (coreUnits nu).toNat < 2 ^ 31) :
    ∃ h' ap, mallocLoop nu grows fuel h h.freep (h.mem h.freep).ptr = some (h', ap) ∧
      ((ap = 0 ∧ h' = h ∧ grows = false) ∨ ∃ bs' c, Carved base start nu bs h' bs' c ∧ c.addr + 1 = ap) ∧
      (h'.brk = h.brk ∨
        (h'.brk = h.brk + 8 * (coreUnits nu).toNat ∧ ∀ B ∈ bs, B.free = true → B.size < nu.toNat)) := by
  have hlen := hi.length_lt
  rcases hi.mallocLoop_round hnu grows (show bs.length + 2 ≤ fuel by omega) with
    ⟨xs, B, ys, prevp, hbs, hB, hfit, hprev, hnext, hloop⟩ | ⟨hnone, f, hf, hloop⟩
  · obtain ⟨hbrk, bs', c, hc, hap⟩ := hi.carve_keeps hbs hB hnu hfit hprev hnext
    exact ⟨(carve nu h prevp B.addr).1, (carve nu h prevp B.addr).2, hloop, .inr ⟨bs', c, hc, hap⟩, .inl hbrk⟩
  · rw [hloop]
    cases grows with
    | false => exact ⟨h, 0, grow_false nu f h, .inl ⟨rfl, rfl, rfl⟩, .inl rfl⟩
    | true =>
      obtain ⟨h', ap, hgrow, hbrk, hcarved⟩ := hi.grow_spec hnu (show 2 ^ 29 ≤ f by omega) (hroom rfl)
      exact ⟨h', ap, hgrow, .inr hcarved, .inr ⟨hbrk, hnone⟩⟩

/-- While a free block has room, `malloc`'s loop hands out a block without
calling `morecore`: the break stays. -/
theorem Inv.mallocLoop_of_room (hi : Inv base start h bs) (hnu : 0 < nu.toNat)
    (hroom : ∃ B ∈ bs, B.free = true ∧ nu.toNat ≤ B.size) {grows : Bool} {fuel ap : Nat} {h' : Heap}
    (hm : mallocLoop nu grows fuel h h.freep (h.mem h.freep).ptr = some (h', ap)) :
    h'.brk = h.brk ∧ ∃ bs' c, Carved base start nu bs h' bs' c ∧ c.addr + 1 = ap := by
  rcases hi.mallocLoop_round hnu grows (show bs.length + 2 ≤ fuel + (bs.length + 2) by omega) with
    ⟨xs, B, ys, prevp, hbs, hB, hfit, hprev, hnext, hloop⟩ | ⟨hnone, -⟩
  · obtain ⟨rfl, rfl⟩ := Prod.ext_iff.mp (Option.some.inj ((mallocLoop_mono hm _).symm.trans hloop))
    exact hi.carve_keeps hbs hB hnu hfit hprev hnext
  · obtain ⟨B, hB, hBf, hBsize⟩ := hroom
    exact absurd hBsize (not_le.mpr (hnone B hB hBf))

end Spec

end Xv6.Umalloc
