import Xv6.DList
import Xv6.Param
import Xv6.Inode

/-!
# The buffer cache (`bio.c`)

`bcache` holds `NBUF` buffers on a circular doubly linked list through
`bcache.head`, most recently used first.  A buffer is a node `some b` and
the head is `none`.  `bget` walks the list forward for a cached copy of a
block and backward for a buffer to recycle; `brelse` moves a buffer whose
last reference it drops to the front.  `ideintr` sets `B_VALID` and clears
`B_DIRTY` on the buffer a process waits for in `iderw`, and `bwrite` and
`log_write` set `B_DIRTY` on a buffer their caller holds.

Every reachable cache is `Shaped` by the order of its list: the pointers
link the buffers in that order into one cycle through the head, every
buffer is on it, and of two buffers that hold the same block the later one
is dead, with no reference and no flag.  `binit` leaves all buffers holding
block `0` of device `0`, so such pairs exist, but only the first of them can
come into use.
-/

namespace Xv6.Bio

abbrev BufId := Fin nbuf

/-- A node of the list: a buffer, or `bcache.head` as `none`. -/
abbrev Node := Option BufId

/-- The fields of `struct buf` the cache reads, with `B_VALID` and `B_DIRTY`
of `flags`. -/
structure Buf where
  valid : Bool
  dirty : Bool
  dev : Nat
  blockno : Nat
  refcnt : Nat
  deriving DecidableEq, Repr

structure BCache where
  buf : BufId → Buf
  next : Node → Node
  prev : Node → Node

namespace BCache

def setBuf (c : BCache) (b : BufId) (x : Buf) : BCache := { c with buf := Function.update c.buf b x }

@[simp] theorem setBuf_next (c : BCache) (b : BufId) (x : Buf) : (c.setBuf b x).next = c.next := rfl

@[simp] theorem setBuf_prev (c : BCache) (b : BufId) (x : Buf) : (c.setBuf b x).prev = c.prev := rfl

@[simp] theorem setBuf_buf_self (c : BCache) (b : BufId) (x : Buf) : (c.setBuf b x).buf b = x := by
  simp [setBuf]

theorem setBuf_buf_of_ne (c : BCache) {a b : BufId} (x : Buf) (h : a ≠ b) :
    (c.setBuf b x).buf a = c.buf a := by
  simp [setBuf, h]

end BCache

/-- `b->dev == dev && b->blockno == blockno`. -/
def Buf.holds (x : Buf) (dev blockno : Nat) : Bool := x.dev == dev && x.blockno == blockno

/-- `b->refcnt == 0 && (b->flags & B_DIRTY) == 0`. -/
def Buf.recyclable (x : Buf) : Bool := x.refcnt == 0 && !x.dirty

/-- A test on the buffer at a node; the head passes none. -/
def onBuf (c : BCache) (f : Buf → Bool) : Node → Bool
  | none => false
  | some b => f (c.buf b)

/-- A buffer of the zeroed `bcache`. -/
def zeroBuf : Buf := { valid := false, dirty := false, dev := 0, blockno := 0, refcnt := 0 }

/-- `binit`: the head linked to itself, then each buffer put in after it.
The buffers' own pointers are all set by the loop, so their values before
do not matter. -/
def binit : BCache :=
  let np := ((List.finRange nbuf).map some).foldl
    (fun np x => DList.insertFront np.1 np.2 none x) (id, id)
  { buf := fun _ => zeroBuf, next := np.1, prev := np.2 }

/-- `bget`: the cached buffer of the block, met walking forward from the
head, with one more reference; or else the first buffer met walking
backward that has no reference and is not dirty, recycled for the block. -/
def bget (c : BCache) (dev blockno : Nat) : Except Fault (BCache × BufId) :=
  match DList.scan c.next none (onBuf c (·.holds dev blockno)) (nbuf + 1) (c.next none) with
  | some (some b) => .ok (c.setBuf b { c.buf b with refcnt := (c.buf b).refcnt + 1 }, b)
  | _ =>
    match DList.scan c.prev none (onBuf c Buf.recyclable) (nbuf + 1) (c.prev none) with
    | some (some b) =>
      .ok (c.setBuf b { dev, blockno, valid := false, dirty := false, refcnt := 1 }, b)
    | _ => .error (.panic "bget: no buffers")

/-- `brelse`: one reference less; a buffer left with none moves to the front. -/
def brelse (c : BCache) (b : BufId) : BCache :=
  let c := c.setBuf b { c.buf b with refcnt := (c.buf b).refcnt - 1 }
  if (c.buf b).refcnt = 0 then
    let np := DList.unlink c.next c.prev (some b)
    let np := DList.insertFront np.1 np.2 none (some b)
    { c with next := np.1, prev := np.2 }
  else c

/-- `b->flags |= B_DIRTY`, as `bwrite` and `log_write` do. -/
def markDirty (c : BCache) (b : BufId) : BCache := c.setBuf b { c.buf b with dirty := true }

/-- What `ideintr` does to the buffer at the head of the disk queue. -/
def ideintr (c : BCache) (b : BufId) : BCache :=
  c.setBuf b { c.buf b with valid := true, dirty := false }

/-- What `bget` does to the buffer it returns, whatever the shape of the
list: one more reference to a cached buffer, or a buffer that had no
reference and was not dirty recycled for the block. -/
theorem bget_cases {c c' : BCache} {dev blockno : Nat} {b : BufId}
    (h : bget c dev blockno = .ok (c', b)) :
    c' = c.setBuf b { c.buf b with refcnt := (c.buf b).refcnt + 1 } ∨
      ((c.buf b).recyclable = true ∧
        c' = c.setBuf b { dev, blockno, valid := false, dirty := false, refcnt := 1 }) := by
  unfold bget at h
  split at h
  · obtain ⟨rfl, rfl⟩ := Prod.mk.inj (Except.ok.inj h)
    exact .inl rfl
  · split at h
    · rename_i hscan
      have hrec := DList.scan_some hscan
      obtain ⟨rfl, rfl⟩ := Prod.mk.inj (Except.ok.inj h)
      exact .inr ⟨hrec, rfl⟩
    · cases h

/-- The steps that change the cache, each atomic under `bcache.lock` or
`idelock`.  A buffer a process holds, between `bget` and `brelse`, has a
reference. -/
inductive Step : BCache → BCache → Prop
  | bget {c c' : BCache} {b : BufId} {dev blockno : Nat} (h : bget c dev blockno = .ok (c', b)) :
      Step c c'
  | markDirty {c : BCache} {b : BufId} (hb : 0 < (c.buf b).refcnt) : Step c (markDirty c b)
  | ideintr {c : BCache} {b : BufId} (hb : 0 < (c.buf b).refcnt) : Step c (ideintr c b)
  | brelse {c : BCache} {b : BufId} (hb : 0 < (c.buf b).refcnt) : Step c (brelse c b)

inductive Reachable : BCache → Prop
  | binit : Reachable binit
  | step {c c' : BCache} : Reachable c → Step c c' → Reachable c'

/-! ## The shape of the cache -/

/-- Two buffers that name the same block. -/
def SameBlock (x y : Buf) : Prop := x.dev = y.dev ∧ x.blockno = y.blockno

/-- A buffer with no reference and no flag. -/
def Buf.Dead (x : Buf) : Prop := x.refcnt = 0 ∧ x.valid = false ∧ x.dirty = false

/-- A later buffer that holds the block an earlier one holds is dead. -/
def DupDead (f : BufId → Buf) (a b : BufId) : Prop := SameBlock (f a) (f b) → (f b).Dead

/-- The cache `c` with its buffers in the list order `order`. -/
structure Shaped (c : BCache) (order : List BufId) : Prop where
  cycle : DList.Cycle c.next c.prev none (order.map some)
  complete : ∀ b, b ∈ order
  dupDead : order.Pairwise (DupDead c.buf)

variable {c : BCache} {order as bs : List BufId} {b : BufId}

theorem SameBlock.symm {x y : Buf} (h : SameBlock x y) : SameBlock y x := ⟨h.1.symm, h.2.symm⟩

theorem holds_iff {x : Buf} {dev blockno : Nat} :
    x.holds dev blockno = true ↔ x.dev = dev ∧ x.blockno = blockno := by
  simp [Buf.holds]

theorem Shaped.nodup (hs : Shaped c order) : order.Nodup :=
  (List.nodup_map_iff (Option.some_injective _)).mp (List.nodup_cons.mp hs.cycle.nodup).2

theorem Shaped.length_lt (hs : Shaped c order) : order.length < nbuf + 1 := by
  have := hs.nodup.length_le_card
  simp only [Fintype.card_fin] at this
  omega

/-- Walking forward from the head meets the buffers in list order. -/
theorem Shaped.scan_next (hs : Shaped c order) (f : Buf → Bool) :
    DList.scan c.next none (onBuf c f) (nbuf + 1) (c.next none) =
      (order.find? fun b => f (c.buf b)).map some := by
  rw [hs.cycle.scan_next _ (by simpa using hs.length_lt), List.find?_map]
  rfl

/-- Walking backward from the head meets them in reverse. -/
theorem Shaped.scan_prev (hs : Shaped c order) (f : Buf → Bool) :
    DList.scan c.prev none (onBuf c f) (nbuf + 1) (c.prev none) =
      (order.reverse.find? fun b => f (c.buf b)).map some := by
  rw [hs.cycle.scan_prev _ (by simpa using hs.length_lt), ← List.map_reverse, List.find?_map]
  rfl

/-- `bget` on the list order: the first buffer holding the block, or else the
last one that may be recycled. -/
theorem Shaped.bget_eq (hs : Shaped c order) (dev blockno : Nat) :
    bget c dev blockno =
      match order.find? (fun b => (c.buf b).holds dev blockno) with
      | some b => .ok (c.setBuf b { c.buf b with refcnt := (c.buf b).refcnt + 1 }, b)
      | none =>
        match order.reverse.find? (fun b => (c.buf b).recyclable) with
        | some b => .ok (c.setBuf b { dev, blockno, valid := false, dirty := false, refcnt := 1 }, b)
        | none => .error (.panic "bget: no buffers") := by
  unfold bget
  rw [hs.scan_next, hs.scan_prev]
  cases order.find? (fun b => (c.buf b).holds dev blockno) <;>
    cases order.reverse.find? (fun b => (c.buf b).recyclable) <;> rfl

/-- Changing the buffer `b` keeps the shape when no buffer before it holds
the new contents' block unless those are dead, and every buffer after it
that holds that block is dead. -/
theorem Shaped.setBuf (hs : Shaped c (as ++ b :: bs)) (x : Buf)
    (hbefore : ∀ a ∈ as, SameBlock (c.buf a) x → x.Dead)
    (hafter : ∀ y ∈ bs, SameBlock x (c.buf y) → (c.buf y).Dead) :
    Shaped (c.setBuf b x) (as ++ b :: bs) := by
  have hnd := hs.nodup
  simp only [List.nodup_append, List.nodup_cons, List.mem_cons] at hnd
  have has : ∀ a ∈ as, a ≠ b := fun a ha he => hnd.2.2 a ha b (.inl rfl) he
  have hbs : ∀ y ∈ bs, y ≠ b := fun y hy he => hnd.2.1.1 (he ▸ hy)
  have hold := hs.dupDead
  rw [List.pairwise_append, List.pairwise_cons] at hold
  obtain ⟨hpas, ⟨hpb, hpbs⟩, hcross⟩ := hold
  refine ⟨hs.cycle, hs.complete, ?_⟩
  rw [List.pairwise_append, List.pairwise_cons]
  refine ⟨?_, ⟨fun y hy => ?_, ?_⟩, fun a ha y hy => ?_⟩
  · refine hpas.imp_of_mem fun {a a'} ha ha' h => ?_
    unfold DupDead
    rw [c.setBuf_buf_of_ne _ (has a ha), c.setBuf_buf_of_ne _ (has a' ha')]
    exact h
  · unfold DupDead
    rw [c.setBuf_buf_self, c.setBuf_buf_of_ne _ (hbs y hy)]
    exact hafter y hy
  · refine hpbs.imp_of_mem fun {y y'} hy hy' h => ?_
    unfold DupDead
    rw [c.setBuf_buf_of_ne _ (hbs y hy), c.setBuf_buf_of_ne _ (hbs y' hy')]
    exact h
  · unfold DupDead
    rw [c.setBuf_buf_of_ne _ (has a ha)]
    rcases List.mem_cons.mp hy with rfl | hy
    · rw [c.setBuf_buf_self]
      exact hbefore a ha
    · rw [c.setBuf_buf_of_ne _ (hbs y hy)]
      exact hcross a ha y (List.mem_cons_of_mem _ hy)

/-- A buffer in use is the first on the list that holds its block. -/
theorem Shaped.first_of_live (hs : Shaped c (as ++ b :: bs)) (hb : ¬(c.buf b).Dead) :
    ∀ a ∈ as, ¬SameBlock (c.buf a) (c.buf b) := fun a ha hsame =>
  hb ((List.pairwise_append.mp hs.dupDead).2.2 a ha b List.mem_cons_self hsame)

theorem Shaped.split (hs : Shaped c order) (b : BufId) : ∃ as bs, order = as ++ b :: bs :=
  List.mem_iff_append.mp (hs.complete b)

theorem not_dead_of_refcnt {x : Buf} (h : 0 < x.refcnt) : ¬x.Dead := fun hd => by
  rw [hd.1] at h
  exact Nat.lt_irrefl 0 h

/-- A change to a buffer in use that keeps its block keeps the shape. -/
theorem Shaped.setBuf_live (hs : Shaped c order) (hb : 0 < (c.buf b).refcnt) (x : Buf)
    (hdev : x.dev = (c.buf b).dev) (hblockno : x.blockno = (c.buf b).blockno) :
    Shaped (c.setBuf b x) order := by
  obtain ⟨as, bs, rfl⟩ := hs.split b
  have hfirst := hs.first_of_live (not_dead_of_refcnt hb)
  refine hs.setBuf x (fun a ha hsame => absurd ⟨hsame.1.trans hdev, hsame.2.trans hblockno⟩
    (hfirst a ha)) (fun y hy hsame => ?_)
  exact (List.pairwise_cons.mp (List.pairwise_append.mp hs.dupDead).2.1).1 y hy
    ⟨hdev.symm.trans hsame.1, hblockno.symm.trans hsame.2⟩

/-- Moving a buffer that is first among those holding its block to the front. -/
theorem Shaped.moveFront (hs : Shaped c (as ++ b :: bs))
    (hfirst : ∀ a ∈ as, ¬SameBlock (c.buf a) (c.buf b)) :
    Shaped { c with
      next := (DList.insertFront (DList.unlink c.next c.prev (some b)).1
        (DList.unlink c.next c.prev (some b)).2 none (some b)).1
      prev := (DList.insertFront (DList.unlink c.next c.prev (some b)).1
        (DList.unlink c.next c.prev (some b)).2 none (some b)).2 } (b :: (as ++ bs)) := by
  have hcycle := hs.cycle
  rw [List.map_append, List.map_cons] at hcycle
  have hpair := hs.dupDead
  rw [List.pairwise_append, List.pairwise_cons] at hpair
  obtain ⟨hpas, ⟨hpb, hpbs⟩, hcross⟩ := hpair
  refine ⟨?_, fun a => ?_, ?_⟩
  · simpa [List.map_append] using hcycle.moveFront
  · rcases List.mem_append.mp (hs.complete a) with ha | ha
    · exact List.mem_cons_of_mem _ (List.mem_append_left _ ha)
    · rcases List.mem_cons.mp ha with rfl | ha
      · exact List.mem_cons_self
      · exact List.mem_cons_of_mem _ (List.mem_append_right _ ha)
  · refine List.pairwise_cons.mpr ⟨fun y hy => ?_, ?_⟩
    · rcases List.mem_append.mp hy with hy | hy
      · exact fun hsame => absurd hsame.symm (hfirst y hy)
      · exact hpb y hy
    · exact List.pairwise_append.mpr ⟨hpas, hpbs, fun a ha y hy =>
        hcross a ha y (List.mem_cons_of_mem _ hy)⟩

/-! ## Every step keeps the shape -/

theorem Shaped.bget (hs : Shaped c order) {c' : BCache} {dev blockno : Nat}
    (h : bget c dev blockno = .ok (c', b)) : Shaped c' order := by
  rw [hs.bget_eq] at h
  cases hfind : order.find? (fun b => (c.buf b).holds dev blockno) with
  | some b' =>
    -- the cached buffer gets one more reference
    rw [hfind] at h
    obtain ⟨rfl, rfl⟩ := Prod.mk.inj (Except.ok.inj h)
    obtain ⟨hholds, as, bs, rfl, hnot⟩ := List.find?_eq_some_iff_append.mp hfind
    refine hs.setBuf _ (fun a ha hsame => ?_) (fun y hy hsame => ?_)
    · obtain ⟨hdev, hblk⟩ := holds_iff.mp hholds
      have hheld : (c.buf a).holds dev blockno = true :=
        holds_iff.mpr ⟨hsame.1.trans hdev, hsame.2.trans hblk⟩
      have hno := hnot a ha
      simp [hheld] at hno
    · exact (List.pairwise_cons.mp (List.pairwise_append.mp hs.dupDead).2.1).1 y hy hsame
  | none =>
    rw [hfind] at h
    cases hfree : order.reverse.find? (fun b => (c.buf b).recyclable) with
    | some b' =>
      -- a buffer is recycled for a block no buffer holds
      rw [hfree] at h
      obtain ⟨rfl, rfl⟩ := Prod.mk.inj (Except.ok.inj h)
      have hnone := List.find?_eq_none.mp hfind
      have hfresh : ∀ a ∈ order, ¬SameBlock (c.buf a)
          { dev, blockno, valid := false, dirty := false, refcnt := 1 } := fun a ha hsame =>
        hnone a ha (holds_iff.mpr hsame)
      obtain ⟨as, bs, rfl⟩ := hs.split b'
      exact hs.setBuf _ (fun a ha hsame => absurd hsame (hfresh a (by simp [ha])))
        (fun y hy hsame => absurd hsame.symm (hfresh y (by simp [hy])))
    | none =>
      rw [hfree] at h
      cases h

theorem Shaped.brelse (hs : Shaped c order) (hb : 0 < (c.buf b).refcnt) :
    Shaped (brelse c b) (if (c.buf b).refcnt = 1 then b :: order.erase b else order) := by
  have hset := hs.setBuf_live hb { c.buf b with refcnt := (c.buf b).refcnt - 1 } rfl rfl
  unfold Xv6.Bio.brelse
  simp only [BCache.setBuf_buf_self]
  by_cases hone : (c.buf b).refcnt = 1
  · -- the last reference: the buffer moves to the front
    rw [if_pos (by omega), if_pos hone]
    obtain ⟨as, bs, rfl⟩ := hs.split b
    have hb' : b ∉ as := fun hm => by
      have hnd := hs.nodup
      simp only [List.nodup_append, List.nodup_cons] at hnd
      exact hnd.2.2 b hm b List.mem_cons_self rfl
    rw [List.erase_append_right _ hb', List.erase_cons_head]
    refine hset.moveFront fun a ha hsame => ?_
    have hab : a ≠ b := by
      rintro rfl
      exact hb' ha
    rw [BCache.setBuf_buf_of_ne _ _ hab, BCache.setBuf_buf_self] at hsame
    exact hs.first_of_live (not_dead_of_refcnt hb) a ha hsame
  · rw [if_neg (by omega), if_neg hone]
    exact hset

theorem Shaped.step (hs : Shaped c order) {c' : BCache} (h : Step c c') :
    ∃ order', Shaped c' order' := by
  cases h with
  | bget h => exact ⟨order, hs.bget h⟩
  | markDirty hb => exact ⟨order, hs.setBuf_live hb _ rfl rfl⟩
  | ideintr hb => exact ⟨order, hs.setBuf_live hb _ rfl rfl⟩
  | brelse hb => exact ⟨_, hs.brelse hb⟩

theorem shaped_binit : Shaped binit (List.finRange nbuf).reverse := by
  have hself : DList.Cycle (id : Node → Node) id none [] := DList.cycle_self rfl rfl
  have hnodup : ((List.finRange nbuf).map some ++ none :: ([] : List Node)).Nodup := by
    simp [List.nodup_append, List.Nodup.map (Option.some_injective _) (List.nodup_finRange nbuf)]
  have hcycle := DList.Cycle.foldl_insertFront hself hnodup
  refine ⟨?_, fun b => by simp, ?_⟩
  · simpa [binit, List.map_reverse] using hcycle
  · -- every buffer of the zeroed cache is dead
    exact List.pairwise_of_forall_mem_list fun _ _ _ _ _ => ⟨rfl, rfl, rfl⟩

/-- A buffer in use: referenced, or holding valid data. -/
def Buf.InUse (x : Buf) : Prop := 0 < x.refcnt ∨ x.valid = true

/-- The claims on the cache: (a) one cycle through the head with every buffer
once, `prev` undoing `next`, and `brelse` moving a buffer to the front
exactly when it drops its last reference; (b) buffers in use hold distinct
blocks; (c) `bget` returns the buffer in use for the block when there is
one, and otherwise recycles only a buffer with no reference that is not
dirty, for a block no buffer holds. -/
def Sound (c : BCache) : Prop :=
  (∃ order : List BufId, DList.Cycle c.next c.prev none (order.map some) ∧ (∀ b, b ∈ order) ∧
    ∀ b, 0 < (c.buf b).refcnt →
      ((c.buf b).refcnt = 1 →
        DList.Cycle (brelse c b).next (brelse c b).prev none ((b :: order.erase b).map some)) ∧
      ((c.buf b).refcnt ≠ 1 → (brelse c b).next = c.next ∧ (brelse c b).prev = c.prev)) ∧
  (∀ a b, a ≠ b → (c.buf a).InUse → (c.buf b).InUse → ¬SameBlock (c.buf a) (c.buf b)) ∧
  ∀ dev blockno c' b, bget c dev blockno = .ok (c', b) →
    ((c.buf b).holds dev blockno = true ∧
        (∀ a, (c.buf a).holds dev blockno = true → (c.buf a).InUse → a = b) ∧
        c'.buf b = { c.buf b with refcnt := (c.buf b).refcnt + 1 }) ∨
      ((∀ a, (c.buf a).holds dev blockno = false) ∧ (c.buf b).refcnt = 0 ∧
        (c.buf b).dirty = false ∧
        c'.buf b = { dev, blockno, valid := false, dirty := false, refcnt := 1 })

end Xv6.Bio
