import Xv6.BlockImage
import Xv6.Allocation

/-!
# Block accounting

The blocks an inode holds sit at its positions: the direct addresses, the
indirect block, and the entries of the indirect block.  An inode is seen as
the kernel sees it: through the cached copy of a slot that holds a reference
to it and has read it, else through its dinode on disk.

`Safe` says what `balloc` and `bfree` rely on: the allocator is sound for
the held blocks (`Allocation.Sound`: every held block is marked, no block is
held twice), the metadata blocks are marked and held by no inode, and the
cache is consistent with the disk (one slot with references per inode, and
a cached copy that differs from its dinode only by addresses the dinode
does not have yet).  Every operation of the block layer keeps `Safe`.  It
does not say that every marked block is held: a block that `bmap` put into a
cached copy without `iupdate` leaks when the slot is recycled.
-/

namespace Xv6

namespace Block

open ByteStore State

/-- A position of an inode that can hold a block. -/
inductive Pos where
  | direct (i : Fin ndirect)
  | indirect
  | entry (j : Fin nindirect)
  deriving DecidableEq, Fintype

/-- The block held at a position, `0` for none. -/
def refAt (d : Disk) (x : DInode) : Pos → Nat
  | .direct i => x.addr i
  | .indirect => x.addr ndirect
  | .entry j => if x.addr ndirect = 0 then 0 else wordOf (read d (x.addr ndirect * bsize + 4 * j) 4)

namespace Slot

/-- A slot with references whose dinode has been read. -/
def live (e : Slot) : Bool := decide (0 < e.ref) && e.valid

theorem live_iff {e : Slot} : e.live = true ↔ 0 < e.ref ∧ e.valid = true := by
  simp [live]

end Slot

/-- The inode `inum` as the kernel sees it. -/
def view (s : State) (inum : Nat) : DInode :=
  match s.icache.find? (fun e => e.live && e.inum == inum) with
  | some e => e.din
  | none => s.dinodes inum

/-- The block each allocated inode holds at each position. -/
def owned (s : State) (o : Nat × Pos) : Nat :=
  if (view s o.1).type = .free then 0 else refAt s.disk (view s o.1) o.2

/-- The dinode `x` on disk and its cached copy `y` agree but for addresses
that only the copy has. -/
structure Coherent (x y : DInode) : Prop where
  type_eq : x.type = y.type
  addr_eq : ∀ i, x.addr i ≠ 0 → x.addr i = y.addr i

structure Safe (s : State) : Prop where
  sound : Allocation.Sound (owned s) (marked s.disk)
  meta_marked : ∀ b < nmeta, marked s.disk b = true
  nmeta_le : ∀ o, owned s o ≠ 0 → nmeta ≤ owned s o
  held_once : ∀ j k, 0 < (s.slot j).ref → 0 < (s.slot k).ref → (s.slot j).inum = (s.slot k).inum →
    j = k
  live_type : ∀ j, (s.slot j).live → (s.slot j).din.type ≠ .free
  coherent : ∀ j, (s.slot j).live → Coherent (s.dinodes (s.slot j).inum) (s.slot j).din
  locked_live : ∀ j, (s.slot j).locked → (s.slot j).live

/-! ## The inode as the kernel sees it -/

section View

variable {s s' : State} {j : Nat} {inum : Nat}

theorem lt_length_of_live (hj : (s.slot j).live) : j < s.icache.length := by
  by_contra hlt
  rw [slot_of_length_le s (Nat.le_of_not_lt hlt)] at hj
  exact absurd hj (by decide)

/-- With one slot of references per inode, a live slot is the inode's view. -/
theorem view_of_live
    (hone : ∀ j k, 0 < (s.slot j).ref → 0 < (s.slot k).ref → (s.slot j).inum = (s.slot k).inum →
      j = k)
    (hj : (s.slot j).live) : view s (s.slot j).inum = (s.slot j).din := by
  have hlt := lt_length_of_live hj
  unfold view
  cases hf : s.icache.find? (fun e => e.live && e.inum == (s.slot j).inum) with
  | none =>
    have hmem : s.slot j ∈ s.icache := slot_eq_getElem s hlt ▸ List.getElem_mem hlt
    have := List.find?_eq_none.mp hf _ hmem
    simp [hj] at this
  | some e =>
    obtain ⟨hp, k, hk, rfl, -⟩ := List.find?_eq_some_iff_getElem.mp hf
    simp only [Bool.and_eq_true, beq_iff_eq] at hp
    rw [← slot_eq_getElem s hk] at hp ⊢
    have hkj := hone k j (Slot.live_iff.mp hp.1).1 (Slot.live_iff.mp hj).1 hp.2
    rw [hkj]

theorem view_of_not_live (h : ∀ j, (s.slot j).live → (s.slot j).inum ≠ inum) :
    view s inum = s.dinodes inum := by
  unfold view
  cases hf : s.icache.find? (fun e => e.live && e.inum == inum) with
  | none => rfl
  | some e =>
    obtain ⟨hp, k, hk, rfl, -⟩ := List.find?_eq_some_iff_getElem.mp hf
    simp only [Bool.and_eq_true, beq_iff_eq] at hp
    rw [← slot_eq_getElem s hk] at hp
    exact absurd hp.2 (h k hp.1)

/-- Views agree when the live slots and the dinodes of the inodes without one agree. -/
theorem view_congr
    (hone : ∀ j k, 0 < (s.slot j).ref → 0 < (s.slot k).ref → (s.slot j).inum = (s.slot k).inum →
      j = k)
    (hone' : ∀ j k, 0 < (s'.slot j).ref → 0 < (s'.slot k).ref →
      (s'.slot j).inum = (s'.slot k).inum → j = k)
    (hlive : ∀ j, (s'.slot j).live →
      (s.slot j).live ∧ (s'.slot j).inum = (s.slot j).inum ∧ (s'.slot j).din = (s.slot j).din ∨
      ((s'.slot j).din = s.dinodes (s'.slot j).inum ∧
        ∀ k, (s.slot k).live → (s.slot k).inum ≠ (s'.slot j).inum))
    (hback : ∀ j, (s.slot j).live → (s'.slot j).live ∧ (s'.slot j).inum = (s.slot j).inum)
    (hdin : s'.dinodes = s.dinodes) (inum : Nat) : view s' inum = view s inum := by
  by_cases h' : ∃ j, (s'.slot j).live ∧ (s'.slot j).inum = inum
  · obtain ⟨j, hj, rfl⟩ := h'
    rw [view_of_live hone' hj]
    rcases hlive j hj with ⟨hjs, hi, hd⟩ | ⟨hd, hnot⟩
    · rw [hi, hd, view_of_live hone hjs]
    · rw [hd, view_of_not_live hnot]
  · simp only [not_exists, not_and] at h'
    rw [view_of_not_live h', hdin, view_of_not_live]
    intro k hk hki
    exact h' k (hback k hk).1 ((hback k hk).2.trans hki)

@[simp] theorem view_setDisk (s : State) (d : Disk) : view (s.setDisk d) = view s := rfl

/-- With no live slot every inode is seen through its dinode. -/
theorem view_of_no_live (h : ∀ e ∈ s.icache, e.live = false) (inum : Nat) :
    view s inum = s.dinodes inum := by
  unfold view
  rw [List.find?_eq_none.mpr fun e he => by simp [h e he]]

end View

/-! ## Changing the disk -/

section Disk

variable {s : State} {d : Disk}

theorem owned_mk (s : State) (inum : Nat) (p : Pos) :
    owned s (inum, p) = if (view s inum).type = .free then 0 else refAt s.disk (view s inum) p :=
  rfl

/-- The blocks held depend on the disk only through the indirect blocks. -/
theorem refAt_congr_disk {d' : Disk} {x : DInode}
    (h : ∀ i < bsize, d' (x.addr ndirect * bsize + i) = d (x.addr ndirect * bsize + i)) (p : Pos) :
    refAt d' x p = refAt d x p := by
  cases p with
  | direct i => rfl
  | indirect => rfl
  | entry j =>
    simp only [refAt]
    split_ifs
    · rfl
    · have hj := j.isLt
      simp only [nindirect_eq] at hj
      rw [read_congr fun i hi => by
        rw [Nat.add_assoc, h _ (by simp only [bsize_eq]; omega)]]

/-- A disk that agrees on every held indirect block holds the same blocks. -/
theorem owned_setDisk
    (h : ∀ inum, owned s (inum, .indirect) ≠ 0 →
      ∀ i < bsize, d (owned s (inum, .indirect) * bsize + i) =
        s.disk (owned s (inum, .indirect) * bsize + i)) (o : Nat × Pos) :
    owned (s.setDisk d) o = owned s o := by
  obtain ⟨inum, p⟩ := o
  simp only [owned_mk, view_setDisk, setDisk_disk]
  by_cases hfree : (view s inum).type = .free
  · simp only [hfree, if_true]
  · simp only [hfree, if_false]
    by_cases hind : (view s inum).addr ndirect = 0
    · cases p <;> simp only [refAt, hind, if_true]
    · have hheld := h inum
      simp only [owned_mk, hfree, if_false, refAt] at hheld
      exact refAt_congr_disk (hheld hind) p

/-- Bytes of a block are unchanged by a write within another block. -/
theorem write_block_of_ne {a b off i : Nat} {bs : List UInt8} (hab : a ≠ b)
    (hlen : off + bs.length ≤ bsize) (hi : i < bsize) :
    write d (b * bsize + off) bs (a * bsize + i) = d (a * bsize + i) := by
  apply write_of_not_mem
  simp only [bsize_eq] at hlen hi ⊢
  rcases Nat.lt_or_gt_of_ne hab with hlt | hlt
  · left
    have : (a + 1) * 512 ≤ b * 512 := Nat.mul_le_mul_right _ hlt
    omega
  · right
    have : (b + 1) * 512 ≤ a * 512 := Nat.mul_le_mul_right _ hlt
    omega

/-- What a live slot holds is what its cached copy names. -/
theorem owned_live {ip : Nat} (hs : Safe s) (hl : (s.slot ip).live) (p : Pos) :
    owned s ((s.slot ip).inum, p) = refAt s.disk (s.slot ip).din p := by
  rw [owned_mk, view_of_live hs.held_once hl, if_neg (hs.live_type ip hl)]

end Disk

/-! ## The cache bookkeeping -/

section Cache

variable {s : State} {ip : Nat} {e : Slot}

theorem Coherent.refl (x : DInode) : Coherent x x := ⟨rfl, fun _ _ => rfl⟩

/-- Where a dinode is coherent with its cached copy, it holds no more. -/
theorem Coherent.refAt_eq {x y : DInode} (h : Coherent x y) (d : Disk) {p : Pos}
    (hp : refAt d x p ≠ 0) : refAt d x p = refAt d y p := by
  cases p with
  | direct i => exact h.addr_eq i hp
  | indirect => exact h.addr_eq ndirect hp
  | entry j =>
    have hind : x.addr ndirect ≠ 0 := by
      intro h0
      simp only [refAt, h0, if_true, ne_eq, not_true_eq_false] at hp
    simp only [refAt, hind, if_false, ← h.addr_eq ndirect hind]

theorem slot_setSlot_eq (hip : ip < s.icache.length) (j : Nat) :
    (s.setSlot ip e).slot j = if j = ip then e else s.slot j := by
  by_cases hj : j = ip
  · subst hj
    rw [slot_setSlot_self s e hip, if_pos rfl]
  · rw [slot_setSlot_of_ne s e (Ne.symm hj), if_neg hj]

theorem Safe.held_once_setSlot (hs : Safe s)
    (hone : 0 < e.ref → ∀ k ≠ ip, 0 < (s.slot k).ref → (s.slot k).inum ≠ e.inum) :
    ∀ j k, 0 < ((s.setSlot ip e).slot j).ref → 0 < ((s.setSlot ip e).slot k).ref →
      ((s.setSlot ip e).slot j).inum = ((s.setSlot ip e).slot k).inum → j = k := by
  intro j k hj hk hjk
  by_cases hip : ip < s.icache.length
  swap
  · simp only [State.setSlot, List.set_eq_of_length_le (Nat.le_of_not_lt hip)] at hj hk hjk
    exact hs.held_once j k hj hk hjk
  rw [slot_setSlot_eq hip, slot_setSlot_eq hip] at *
  by_cases hji : j = ip <;> by_cases hki : k = ip <;>
    simp only [hji, hki, if_true, if_false] at hj hk hjk
  · rw [hji, hki]
  · exact absurd hjk.symm (hone hj k hki hk)
  · exact absurd hjk (hone hk j hji hj)
  · exact hs.held_once j k hj hk hjk

/-- A change of one slot's bookkeeping that keeps every inode's view. -/
theorem Safe.setSlot (hs : Safe s)
    (hone : 0 < e.ref → ∀ k ≠ ip, 0 < (s.slot k).ref → (s.slot k).inum ≠ e.inum)
    (hlive : e.live → (s.slot ip).live ∧ e.inum = (s.slot ip).inum ∧ e.din = (s.slot ip).din ∨
      (e.din = s.dinodes e.inum ∧ e.din.type ≠ .free ∧
        ∀ k, (s.slot k).live → (s.slot k).inum ≠ e.inum))
    (hback : (s.slot ip).live → e.live ∧ e.inum = (s.slot ip).inum)
    (hlock : e.locked → e.live) : Safe (s.setSlot ip e) := by
  by_cases hip : ip < s.icache.length
  swap
  · simp only [State.setSlot, List.set_eq_of_length_le (Nat.le_of_not_lt hip)]
    exact hs
  have hslot := slot_setSlot_eq (e := e) hip
  have hone' := hs.held_once_setSlot hone
  have hview : ∀ inum, view (s.setSlot ip e) inum = view s inum := by
    refine view_congr hs.held_once hone' (fun j hj => ?_) (fun j hj => ?_) rfl
    · rw [hslot] at hj ⊢
      by_cases hji : j = ip
      · subst hji
        rw [if_pos rfl] at hj ⊢
        exact (hlive hj).imp id fun h => ⟨h.1, h.2.2⟩
      · rw [if_neg hji] at hj ⊢
        exact .inl ⟨hj, rfl, rfl⟩
    · rw [hslot]
      by_cases hji : j = ip
      · subst hji
        rw [if_pos rfl]
        exact hback hj
      · rw [if_neg hji]
        exact ⟨hj, rfl⟩
  have howned : ∀ o, owned (s.setSlot ip e) o = owned s o := by
    intro o
    simp only [owned, hview, setSlot_disk]
  refine ⟨hs.sound.congr howned (fun _ => rfl), hs.meta_marked, fun o ho => ?_, hone', ?_, ?_, ?_⟩
  · rw [howned] at ho ⊢
    exact hs.nmeta_le o ho
  · intro j hj
    rw [hslot] at hj ⊢
    by_cases hji : j = ip
    · subst hji
      rw [if_pos rfl] at hj ⊢
      rcases hlive hj with ⟨hl, -, hd⟩ | ⟨-, ht, -⟩
      · rw [hd]
        exact hs.live_type _ hl
      · exact ht
    · rw [if_neg hji] at hj ⊢
      exact hs.live_type j hj
  · intro j hj
    rw [hslot] at hj ⊢
    by_cases hji : j = ip
    · subst hji
      rw [if_pos rfl] at hj ⊢
      rw [setSlot_dinodes]
      rcases hlive hj with ⟨hl, hi, hd⟩ | ⟨hd, -, -⟩
      · rw [hi, hd]
        exact hs.coherent _ hl
      · rw [← hd]
        exact Coherent.refl _
    · rw [if_neg hji] at hj ⊢
      rw [setSlot_dinodes]
      exact hs.coherent j hj
  · intro j hj
    rw [hslot] at hj ⊢
    by_cases hji : j = ip
    · subst hji
      rw [if_pos rfl] at hj ⊢
      exact hlock hj
    · rw [if_neg hji] at hj ⊢
      exact hs.locked_live j hj

/-- One more reference to a slot that has some. -/
theorem Safe.setSlot_ref_succ (hs : Safe s) (hpos : 0 < (s.slot ip).ref) :
    Safe (s.setSlot ip { s.slot ip with ref := (s.slot ip).ref + 1 }) := by
  have hlive : ∀ v : Bool, (v = true ∧ 0 < (s.slot ip).ref + 1) ↔ (v = true ∧ 0 < (s.slot ip).ref) :=
    fun v => ⟨fun h => ⟨h.1, hpos⟩, fun h => ⟨h.1, by omega⟩⟩
  refine hs.setSlot (fun _ k hk hkref hki => hk (hs.held_once k ip hkref hpos hki))
    (fun he => .inl ⟨?_, rfl, rfl⟩) (fun ho => ⟨?_, rfl⟩) (fun hl => ?_)
  · rw [Slot.live_iff] at he ⊢
    exact ⟨hpos, he.2⟩
  · rw [Slot.live_iff] at ho ⊢
    exact ⟨by simp only; omega, ho.2⟩
  · have := Slot.live_iff.mp (hs.locked_live ip hl)
    rw [Slot.live_iff]
    exact ⟨by simp only; omega, this.2⟩

theorem iget_cases {inum : Nat} {s' : State} (h : iget s inum = .ok (s', ip)) :
    ip < s.icache.length ∧
      ((0 < (s.slot ip).ref ∧ (s.slot ip).inum = inum ∧
          s' = s.setSlot ip { s.slot ip with ref := (s.slot ip).ref + 1 }) ∨
        ((s.slot ip).ref = 0 ∧ (∀ k, 0 < (s.slot k).ref → (s.slot k).inum ≠ inum) ∧
          s' = s.setSlot ip { s.slot ip with inum := inum, ref := 1, valid := false })) := by
  unfold iget at h
  cases hfind : s.icache.findIdx? (fun e => decide (0 < e.ref) && e.inum == inum) with
  | some i =>
    rw [hfind] at h
    cases h
    obtain ⟨hlt, hp, -⟩ := List.findIdx?_eq_some_iff_getElem.mp hfind
    simp only [Bool.and_eq_true, decide_eq_true_eq, beq_iff_eq] at hp
    rw [← slot_eq_getElem s hlt] at hp
    exact ⟨hlt, .inl ⟨hp.1, hp.2, rfl⟩⟩
  | none =>
    rw [hfind] at h
    have hnone := List.findIdx?_eq_none_iff.mp hfind
    have hfresh : ∀ k, 0 < (s.slot k).ref → (s.slot k).inum ≠ inum := by
      intro k hk hki
      by_cases hklt : k < s.icache.length
      · have := hnone _ (slot_eq_getElem s hklt ▸ List.getElem_mem hklt)
        simp [hk, hki] at this
      · rw [slot_of_length_le s (Nat.le_of_not_lt hklt)] at hk
        exact absurd hk (by decide)
    cases hfree : s.icache.findIdx? (fun e => e.ref == 0) with
    | some i =>
      rw [hfree] at h
      cases h
      obtain ⟨hlt, hp, -⟩ := List.findIdx?_eq_some_iff_getElem.mp hfree
      simp only [beq_iff_eq] at hp
      rw [← slot_eq_getElem s hlt] at hp
      exact ⟨hlt, .inr ⟨hp, hfresh, rfl⟩⟩
    | none =>
      rw [hfree] at h
      cases h

theorem iget_safe {inum : Nat} {s' : State} (hs : Safe s) (h : iget s inum = .ok (s', ip)) :
    Safe s' := by
  obtain ⟨-, ⟨hpos, -, rfl⟩ | ⟨hzero, hfresh, rfl⟩⟩ := iget_cases h
  · exact hs.setSlot_ref_succ hpos
  · have hnotlive : (s.slot ip).live = false := by
      simp [Slot.live, hzero]
    refine hs.setSlot (fun _ k _ hk => hfresh k hk) (fun he => ?_) (fun ho => ?_) (fun hl => ?_)
    · simp [Slot.live] at he
    · rw [hnotlive] at ho
      cases ho
    · have := hs.locked_live ip hl
      rw [hnotlive] at this
      cases this

theorem idup_safe (hs : Safe s) (hpos : 0 < (s.slot ip).ref) : Safe (idup s ip) :=
  hs.setSlot_ref_succ hpos

theorem ilock_safe {s' : State} (hs : Safe s) (h : ilock s ip = .ok s') : Safe s' := by
  unfold ilock at h
  dsimp only at h
  split_ifs at h with href hlocked hvalid htype
  · cases h
    have hl : (s.slot ip).live := Slot.live_iff.mpr ⟨by omega, hvalid⟩
    exact hs.setSlot (fun hpos k hk hkref hki => hk (hs.held_once k ip hkref (by omega) hki))
      (fun _ => .inl ⟨hl, rfl, rfl⟩) (fun _ => ⟨hl, rfl⟩) (fun _ => hl)
  · cases h
    have hl' : ({ s.slot ip with
        locked := true, valid := true, din := s.dinodes (s.slot ip).inum } : Slot).live :=
      Slot.live_iff.mpr ⟨by simp only; omega, rfl⟩
    refine hs.setSlot (fun hpos k hk hkref hki => hk (hs.held_once k ip hkref (by omega) hki))
      (fun _ => .inr ⟨rfl, htype, fun k hk hki => ?_⟩) (fun ho => ?_) (fun _ => hl')
    · have hkip := hs.held_once k ip (Slot.live_iff.mp hk).1 (by omega) hki
      subst hkip
      exact hvalid (Slot.live_iff.mp hk).2
    · exact absurd (Slot.live_iff.mp ho).2 hvalid

theorem iunlock_safe {s' : State} (hs : Safe s) (h : iunlock s ip = .ok s') : Safe s' := by
  unfold iunlock at h
  split_ifs at h with hbad
  cases h
  have hlive : ∀ v, ({ s.slot ip with locked := v } : Slot).live = (s.slot ip).live := fun _ => rfl
  exact hs.setSlot (fun hpos k hk hkref hki => hk (hs.held_once k ip hkref hpos hki))
    (fun he => .inl ⟨(hlive false) ▸ he, rfl, rfl⟩) (fun ho => ⟨(hlive false).symm ▸ ho, rfl⟩)
    (fun hl => by cases hl)

/-- A slot that stops being live: its inode is seen through its dinode
again, which holds no block the cached copy does not. -/
theorem Safe.setSlot_drop (hs : Safe s) (hlive : e.live = false) (hlock : e.locked = false)
    (hone : 0 < e.ref → ∀ k ≠ ip, 0 < (s.slot k).ref → (s.slot k).inum ≠ e.inum) :
    Safe (s.setSlot ip e) := by
  by_cases hip : ip < s.icache.length
  swap
  · simp only [State.setSlot, List.set_eq_of_length_le (Nat.le_of_not_lt hip)]
    exact hs
  have hslot := slot_setSlot_eq (e := e) hip
  have hone' := hs.held_once_setSlot hone
  -- a live slot after the change is a live slot before it
  have hlive' : ∀ k, ((s.setSlot ip e).slot k).live → k ≠ ip ∧ (s.setSlot ip e).slot k = s.slot k := by
    intro k hk
    rw [hslot] at hk ⊢
    by_cases hki : k = ip
    · rw [if_pos hki, hlive] at hk
      cases hk
    · rw [if_neg hki] at hk ⊢
      exact ⟨hki, rfl⟩
  have hle : ∀ o, owned (s.setSlot ip e) o ≠ 0 → owned (s.setSlot ip e) o = owned s o := by
    rintro ⟨inum, p⟩ ho
    by_cases hex : ∃ k, ((s.setSlot ip e).slot k).live ∧ ((s.setSlot ip e).slot k).inum = inum
    · obtain ⟨k, hk, rfl⟩ := hex
      obtain ⟨-, hks⟩ := hlive' k hk
      have hk' : (s.slot k).live := hks ▸ hk
      rw [owned_mk, owned_mk, view_of_live hone' hk, hks, view_of_live hs.held_once hk',
        setSlot_disk]
    · simp only [not_exists, not_and] at hex
      have hview' := view_of_not_live hex
      by_cases hs' : ∃ k, (s.slot k).live ∧ (s.slot k).inum = inum
      · obtain ⟨k, hk, rfl⟩ := hs'
        have hcoh := hs.coherent k hk
        rw [owned_mk, hview', setSlot_dinodes, setSlot_disk] at ho ⊢
        rw [owned_mk, view_of_live hs.held_once hk, ← hcoh.type_eq]
        by_cases hfree : (s.dinodes (s.slot k).inum).type = .free
        · simp only [hfree, if_true, ne_eq, not_true_eq_false] at ho
        · simp only [hfree, if_false] at ho ⊢
          exact hcoh.refAt_eq s.disk ho
      · simp only [not_exists, not_and] at hs'
        simp only [owned_mk, hview', view_of_not_live hs', setSlot_dinodes, setSlot_disk]
  refine ⟨hs.sound.of_le hle, hs.meta_marked, fun o ho => ?_, hone', ?_, ?_, ?_⟩
  · rw [hle o ho]
    exact hs.nmeta_le o (hle o ho ▸ ho)
  · intro k hk
    obtain ⟨-, hks⟩ := hlive' k hk
    rw [hks] at hk ⊢
    exact hs.live_type k hk
  · intro k hk
    obtain ⟨-, hks⟩ := hlive' k hk
    rw [hks] at hk ⊢
    exact hs.coherent k hk
  · intro k hk
    rw [hslot] at hk ⊢
    by_cases hki : k = ip
    · rw [if_pos hki, hlock] at hk
      cases hk
    · rw [if_neg hki] at hk ⊢
      exact hs.locked_live k hk

/-- `iupdate` of a live slot changes no view: the slot already is its
inode's view. -/
theorem view_iupdate (hs : Safe s) (hl : (s.slot ip).live) : view (iupdate s ip) = view s := by
  funext inum
  by_cases h : ∃ j, (s.slot j).live ∧ (s.slot j).inum = inum
  · obtain ⟨j, hj, rfl⟩ := h
    exact (view_of_live (s := iupdate s ip) hs.held_once hj).trans (view_of_live hs.held_once hj).symm
  · simp only [not_exists, not_and] at h
    rw [view_of_not_live (s := iupdate s ip) h, view_of_not_live h]
    exact Function.update_of_ne (fun he => h ip hl he.symm) _ _

theorem Safe.iupdate (hs : Safe s) (hl : (s.slot ip).live) :
    Safe (Block.iupdate s ip) ∧ ∀ o, owned (Block.iupdate s ip) o = owned s o := by
  have howned : ∀ o, owned (Block.iupdate s ip) o = owned s o := by
    rintro ⟨inum, p⟩
    rw [owned_mk, owned_mk, view_iupdate hs hl]
    rfl
  refine ⟨⟨hs.sound.congr howned fun _ => rfl, hs.meta_marked, fun o ho => ?_, hs.held_once,
    hs.live_type, fun j hj => ?_, hs.locked_live⟩, howned⟩
  · rw [howned] at ho ⊢
    exact hs.nmeta_le o ho
  · -- the dinode written is the slot's own; any other live slot holds another inode
    show Coherent (Function.update s.dinodes (s.slot ip).inum (s.slot ip).din (s.slot j).inum)
      (s.slot j).din
    by_cases hji : j = ip
    · subst hji
      rw [Function.update_self]
      exact Coherent.refl _
    · rw [Function.update_of_ne fun he =>
        hji (hs.held_once j ip (Slot.live_iff.mp hj).1 (Slot.live_iff.mp hl).1 he)]
      exact hs.coherent j hj

end Cache

/-! ## Allocating blocks -/

section Alloc

variable {s : State} {ip : Nat} {d : Disk} {x : Nat}

theorem Safe.setDisk (hs : Safe s) (hsound : Allocation.Sound (owned (s.setDisk d)) (marked d))
    (hmeta : ∀ b < nmeta, marked d b = true)
    (hle : ∀ o, owned (s.setDisk d) o ≠ 0 → nmeta ≤ owned (s.setDisk d) o) : Safe (s.setDisk d) :=
  ⟨hsound, hmeta, hle, hs.held_once, hs.live_type, hs.coherent, hs.locked_live⟩

/-- The bytes of a held indirect block are past the bitmap. -/
theorem Safe.not_inBitmap_indirect (hs : Safe s) {inum i : Nat}
    (hind : owned s (inum, .indirect) ≠ 0) : ¬InBitmap (owned s (inum, .indirect) * bsize + i) :=
  not_inBitmap_of_nmeta_le (hs.nmeta_le _ hind) (Nat.le_add_right _ _)

/-- `balloc` hands out a block past the metadata that nothing holds, and
changes no held block. -/
theorem Safe.balloc {d' : Disk} (hs : Safe s) (h : balloc s.disk = .ok (d', x)) :
    Safe (s.setDisk d') ∧ nmeta ≤ x ∧ x < sb.size ∧ (∀ o, owned s o ≠ x) ∧
      (∀ o, owned (s.setDisk d') o = owned s o) ∧ (∀ b, marked d' b = Function.update (marked s.disk) x true b) ∧
      (∀ i < bsize, d' (x * bsize + i) = 0) ∧
      (∀ a, ¬InBitmap a → (a < x * bsize ∨ x * bsize + bsize ≤ a) → d' a = s.disk a) := by
  obtain ⟨hlt, hfree, -, rfl⟩ := balloc_eq_ok h
  have hx : nmeta ≤ x := by
    by_contra hx
    rw [hs.meta_marked x (by omega)] at hfree
    cases hfree
  have hunheld : ∀ o, owned s o ≠ x :=
    hs.sound.ne_of_not_used hfree (by simp only [nmeta_eq] at hx; omega)
  have hmarked : ∀ b, marked (bzero (setBit s.disk bmapBase x) x) b =
      Function.update (marked s.disk) x true b := fun b => by
    rw [marked_bzero hx, marked_setBit hlt]
  have hoff : ∀ a, ¬InBitmap a → (a < x * bsize ∨ x * bsize + bsize ≤ a) →
      bzero (setBit s.disk bmapBase x) x a = s.disk a := fun a ha hout => by
    rw [bzero, write_of_not_mem (by rw [List.length_replicate]; exact hout),
      setBit_of_not_inBitmap hlt ha]
  have howned : ∀ o, owned (s.setDisk (bzero (setBit s.disk bmapBase x) x)) o = owned s o := by
    refine owned_setDisk fun inum hind i hi => hoff _ (hs.not_inBitmap_indirect hind) ?_
    have hne : owned s (inum, .indirect) ≠ x := hunheld _
    rcases Nat.lt_or_gt_of_ne hne with hlt' | hlt'
    · left
      have : (owned s (inum, .indirect) + 1) * bsize ≤ x * bsize := Nat.mul_le_mul_right _ hlt'
      simp only [bsize_eq] at this hi ⊢
      omega
    · right
      have : (x + 1) * bsize ≤ owned s (inum, .indirect) * bsize := Nat.mul_le_mul_right _ hlt'
      simp only [bsize_eq] at this hi ⊢
      omega
  refine ⟨hs.setDisk ?_ ?_ ?_, hx, hlt, hunheld, howned, hmarked, fun i hi => ?_, hoff⟩
  · refine (hs.sound.congr howned fun _ => rfl).of_used_le fun b hb => ?_
    rw [hmarked, Function.update_apply]
    split_ifs
    · rfl
    · exact hb
  · intro b hb
    rw [hmarked, Function.update_apply]
    split_ifs
    · rfl
    · exact hs.meta_marked b hb
  · intro o ho
    rw [howned] at ho ⊢
    exact hs.nmeta_le o ho
  · rw [bzero, write_of_mem (by omega) (by simp only [List.length_replicate]; omega),
      Nat.add_sub_cancel_left]
    simp only [List.getD_eq_getElem?_getD, List.getElem?_replicate]
    split_ifs
    rfl

/-- The position that address `i` of a dinode is. -/
def Pos.ofAddr (i : Nat) : Pos := if h : i < ndirect then .direct ⟨i, h⟩ else .indirect

theorem Pos.direct_eq_ofAddr {k : Fin ndirect} {i : Nat} : Pos.direct k = Pos.ofAddr i ↔ (k : Nat) = i := by
  unfold Pos.ofAddr
  split_ifs with h
  · rw [Pos.direct.injEq, Fin.ext_iff]
  · simp only [false_iff]
    omega

theorem Pos.indirect_eq_ofAddr {i : Nat} (hi : i < ndirect + 1) :
    Pos.indirect = Pos.ofAddr i ↔ ndirect = i := by
  unfold Pos.ofAddr
  split_ifs with h
  · simp only [false_iff]
    omega
  · simp only [true_iff]
    omega

theorem Pos.entry_ne_ofAddr {j : Fin nindirect} {i : Nat} : Pos.entry j ≠ Pos.ofAddr i := by
  unfold Pos.ofAddr
  split_ifs <;> simp

theorem refAt_ofAddr (d : Disk) (y : DInode) {i : Nat} (hi : i < ndirect + 1) :
    refAt d y (Pos.ofAddr i) = y.addr i := by
  unfold Pos.ofAddr
  split_ifs with h
  · rfl
  · rw [refAt, show i = ndirect by omega]

theorem view_setDin (hs : Safe s) (hl : (s.slot ip).live) (y : DInode) (inum : Nat) :
    view (s.setDin ip y) inum = if inum = (s.slot ip).inum then y else view s inum := by
  have hip := lt_length_of_live hl
  have hslot := slot_setSlot_eq (s := s) (e := { s.slot ip with din := y }) hip
  have hone' : ∀ j k, 0 < ((s.setDin ip y).slot j).ref → 0 < ((s.setDin ip y).slot k).ref →
      ((s.setDin ip y).slot j).inum = ((s.setDin ip y).slot k).inum → j = k :=
    hs.held_once_setSlot fun hpos k hk hkref hki => hk (hs.held_once k ip hkref hpos hki)
  have hl' : ((s.setDin ip y).slot ip).live := by
    rw [setDin, hslot, if_pos rfl]
    exact hl
  have hinum : ((s.setDin ip y).slot ip).inum = (s.slot ip).inum := by
    rw [setDin, hslot, if_pos rfl]
  by_cases heq : inum = (s.slot ip).inum
  · rw [if_pos heq, heq, ← hinum, view_of_live hone' hl', setDin, hslot, if_pos rfl]
  · rw [if_neg heq]
    by_cases hex : ∃ k, ((s.setDin ip y).slot k).live ∧ ((s.setDin ip y).slot k).inum = inum
    · obtain ⟨k, hk, rfl⟩ := hex
      have hki : k ≠ ip := fun hki => heq (hki ▸ hinum)
      have hks : (s.setDin ip y).slot k = s.slot k := by rw [setDin, hslot, if_neg hki]
      rw [view_of_live hone' hk, hks, view_of_live hs.held_once (hks ▸ hk)]
    · simp only [not_exists, not_and] at hex
      rw [view_of_not_live hex, setDin_dinodes, view_of_not_live]
      intro k hk hki
      have hkip : k ≠ ip := fun hkip => heq (hki ▸ hkip ▸ rfl)
      have hks : (s.setDin ip y).slot k = s.slot k := by rw [setDin, hslot, if_neg hkip]
      exact hex k (hks ▸ hk) (hks ▸ hki)

theorem owned_setDin (hs : Safe s) (hl : (s.slot ip).live) (y : DInode) (inum : Nat) (p : Pos) :
    owned (s.setDin ip y) (inum, p) =
      if inum = (s.slot ip).inum then (if y.type = .free then 0 else refAt s.disk y p)
      else owned s (inum, p) := by
  by_cases heq : inum = (s.slot ip).inum
  · rw [owned_mk, view_setDin hs hl, setDin_disk, if_pos heq, if_pos heq]
  · rw [owned_mk, view_setDin hs hl, setDin_disk, if_neg heq, if_neg heq, owned_mk]

/-- A new cached copy of a live slot, of the same type and coherent with
its dinode, with the accounting for its blocks. -/
theorem Safe.setDin (hs : Safe s) (hl : (s.slot ip).live) {y : DInode} (htype : y.type ≠ .free)
    (hcoh : Coherent (s.dinodes (s.slot ip).inum) y)
    (hsound : Allocation.Sound (owned (s.setDin ip y)) (marked s.disk))
    (hle : ∀ o, owned (s.setDin ip y) o ≠ 0 → nmeta ≤ owned (s.setDin ip y) o) :
    Safe (s.setDin ip y) := by
  have hip := lt_length_of_live hl
  have hslot := slot_setSlot_eq (s := s) (e := { s.slot ip with din := y }) hip
  have hslot' : ∀ j, (s.setDin ip y).slot j = if j = ip then { s.slot ip with din := y } else
      s.slot j := hslot
  refine ⟨hsound, hs.meta_marked, hle,
    hs.held_once_setSlot fun hpos k hk hkref hki => hk (hs.held_once k ip hkref hpos hki),
    fun j hj => ?_, fun j hj => ?_, fun j hj => ?_⟩
  · rw [hslot'] at hj ⊢
    by_cases hji : j = ip
    · rw [if_pos hji]
      exact htype
    · rw [if_neg hji] at hj ⊢
      exact hs.live_type j hj
  · rw [hslot'] at hj ⊢
    by_cases hji : j = ip
    · rw [if_pos hji]
      subst hji
      exact hcoh
    · rw [if_neg hji] at hj ⊢
      exact hs.coherent j hj
  · rw [hslot'] at hj ⊢
    by_cases hji : j = ip
    · rw [if_pos hji]
      subst hji
      exact hl
    · rw [if_neg hji] at hj ⊢
      exact hs.locked_live j hj

theorem refAt_congr_addrs {x y : DInode} (h : y.addrs = x.addrs) (d : Disk) (p : Pos) :
    refAt d y p = refAt d x p := by
  have hx : ∀ i, y.addr i = x.addr i := fun i => by simp only [DInode.addr, h]
  cases p <;> simp only [refAt, hx]

/-- A new cached copy of a live slot with the same type and addresses, such
as one with another size or link count. -/
theorem Safe.setDin_addrs (hs : Safe s) (hl : (s.slot ip).live) {y : DInode}
    (htype : y.type = (s.slot ip).din.type) (haddrs : y.addrs = (s.slot ip).din.addrs) :
    Safe (s.setDin ip y) ∧ ∀ o, owned (s.setDin ip y) o = owned s o := by
  have htype' : y.type ≠ .free := htype ▸ hs.live_type ip hl
  have howned : ∀ o, owned (s.setDin ip y) o = owned s o := by
    rintro ⟨inum, p⟩
    rw [owned_setDin hs hl]
    by_cases heq : inum = (s.slot ip).inum
    · rw [if_pos heq, if_neg htype', heq, owned_live hs hl, refAt_congr_addrs haddrs]
    · rw [if_neg heq]
  have hcoh := hs.coherent ip hl
  refine ⟨hs.setDin hl htype' ⟨hcoh.type_eq.trans htype.symm, fun i hi => (hcoh.addr_eq i hi).trans ?_⟩
    (hs.sound.congr howned fun _ => rfl) (fun o ho => ?_), howned⟩
  · simp only [DInode.addr, haddrs]
  · rw [howned] at ho ⊢
    exact hs.nmeta_le o ho

/-- `ip->addrs[i] = x` for an address that was zero, with a block `x` that
is marked and held nowhere; a new indirect block must be zero. -/
theorem Safe.setAddr (hs : Safe s) (hl : (s.slot ip).live) {i : Nat} (hi : i < ndirect + 1)
    (h0 : (s.slot ip).din.addr i = 0) (hmarked : marked s.disk x = true)
    (hfresh : ∀ o, owned s o ≠ x) (hx : nmeta ≤ x)
    (hzero : i = ndirect → ∀ j < bsize, s.disk (x * bsize + j) = 0) :
    Safe (s.setAddr ip i x) ∧
      ∀ o, owned (s.setAddr ip i x) o =
        Function.update (owned s) ((s.slot ip).inum, Pos.ofAddr i) x o := by
  have htype := hs.live_type ip hl
  have hnew : ∀ inum p, owned (s.setAddr ip i x) (inum, p) =
      Function.update (owned s) ((s.slot ip).inum, Pos.ofAddr i) x (inum, p) := by
    intro inum p
    rw [State.setAddr, owned_setDin hs hl, Function.update_apply]
    simp only [Prod.mk.injEq]
    by_cases heq : inum = (s.slot ip).inum
    · subst heq
      rw [if_pos rfl, DInode.setAddr_type, if_neg htype, owned_mk, view_of_live hs.held_once hl,
        if_neg htype]
      simp only [true_and]
      cases p with
      | direct k => simp only [refAt, DInode.addr_setAddr _ _ hi, Pos.direct_eq_ofAddr]
      | indirect => simp only [refAt, DInode.addr_setAddr _ _ hi, Pos.indirect_eq_ofAddr hi]
      | entry j =>
        rw [if_neg Pos.entry_ne_ofAddr]
        simp only [refAt, DInode.addr_setAddr _ _ hi]
        by_cases hind : ndirect = i
        · subst hind
          have hj := j.isLt
          simp only [nindirect_eq] at hj
          have hword : read s.disk (x * bsize + 4 * j) 4 = [0, 0, 0, 0] := by
            apply List.ext_getElem (by simp)
            intro k hk _
            simp only [length_read] at hk
            rw [getElem_read, Nat.add_assoc, hzero rfl _ (by simp only [bsize_eq]; omega)]
            interval_cases k <;> rfl
          have hx0 : x ≠ 0 := by
            simp only [nmeta_eq] at hx
            omega
          simp only [if_true, h0, hword, hx0, if_false]
          rfl
        · simp only [hind, if_false]
    · rw [if_neg heq, if_neg (by rintro ⟨h, -⟩; exact heq h)]
  have hold : owned s ((s.slot ip).inum, Pos.ofAddr i) = 0 := by
    rw [owned_mk, view_of_live hs.held_once hl, if_neg htype, refAt_ofAddr _ _ hi, h0]
  have hcoh := hs.coherent ip hl
  refine ⟨hs.setDin hl (by rw [DInode.setAddr_type]; exact htype) ⟨?_, fun k hk => ?_⟩ ?_ ?_,
    fun o => hnew o.1 o.2⟩
  · rw [DInode.setAddr_type]
    exact hcoh.type_eq
  · rw [DInode.addr_setAddr _ _ hi]
    split_ifs with hki
    · subst hki
      exact absurd ((hcoh.addr_eq k hk).trans h0) hk
    · exact hcoh.addr_eq k hk
  · exact (hs.sound.assign_of_used hold hfresh hmarked).congr (fun o => hnew o.1 o.2) fun _ => rfl
  · rintro ⟨inum, p⟩ ho
    change owned (s.setAddr ip i x) (inum, p) ≠ 0 at ho
    change nmeta ≤ owned (s.setAddr ip i x) (inum, p)
    rw [hnew, Function.update_apply] at ho ⊢
    split_ifs at ho ⊢
    · exact hx
    · exact hs.nmeta_le _ ho

theorem marked_write_of_nmeta_le {b off : Nat} {bs : List UInt8} (hb : nmeta ≤ b) (y : Nat) :
    marked (write d (b * bsize + off) bs) y = marked d y :=
  marked_congr (fun _ ha => write_of_not_mem (.inl (by
    have := not_inBitmap_of_nmeta_le (a := b * bsize) hb le_rfl
    simp only [InBitmap, bmapBase_eq, bsize_eq, nmeta_eq] at ha hb this ⊢
    omega))) y

/-- A write inside a block past the metadata that is no inode's indirect
block: a data block of a file. -/
theorem Safe.writeData (hs : Safe s) {b off : Nat} {bs : List UInt8}
    (hb : ∀ inum, owned s (inum, .indirect) ≠ b) (hnmeta : nmeta ≤ b) (hlen : off + bs.length ≤ bsize) :
    Safe (s.setDisk (write s.disk (b * bsize + off) bs)) ∧
      ∀ o, owned (s.setDisk (write s.disk (b * bsize + off) bs)) o = owned s o := by
  have howned : ∀ o, owned (s.setDisk (write s.disk (b * bsize + off) bs)) o = owned s o :=
    owned_setDisk fun inum _ _ hi => write_block_of_ne (hb inum) hlen hi
  have hmarked := @marked_write_of_nmeta_le s.disk b off bs hnmeta
  refine ⟨hs.setDisk (hs.sound.congr howned hmarked) (fun b hb => by rw [hmarked]; exact hs.meta_marked b hb)
    (fun o ho => ?_), howned⟩
  rw [howned] at ho ⊢
  exact hs.nmeta_le o ho

/-- `a[bn] = x` in the indirect block of a live slot, for an entry that was
zero and a block `x` that is marked and held nowhere. -/
theorem Safe.setEntry (hs : Safe s) (hl : (s.slot ip).live) {bn : Nat} (hbn : bn < nindirect)
    (hind : (s.slot ip).din.addr ndirect ≠ 0)
    (h0 : wordOf (read s.disk ((s.slot ip).din.addr ndirect * bsize + 4 * bn) 4) = 0)
    (hmarked : marked s.disk x = true) (hfresh : ∀ o, owned s o ≠ x) (hx : nmeta ≤ x)
    (hxlt : x < 2 ^ 32) :
    Safe (s.setDisk (write s.disk ((s.slot ip).din.addr ndirect * bsize + 4 * bn) (wordBytes x))) ∧
      ∀ o, owned (s.setDisk (write s.disk ((s.slot ip).din.addr ndirect * bsize + 4 * bn)
        (wordBytes x))) o = Function.update (owned s) ((s.slot ip).inum, .entry ⟨bn, hbn⟩) x o := by
  set ind := (s.slot ip).din.addr ndirect with hind_def
  have htype := hs.live_type ip hl
  have hview := view_of_live hs.held_once hl
  have hheld : owned s ((s.slot ip).inum, .indirect) = ind := by
    rw [owned_mk, hview, if_neg htype]
    rfl
  have hlen : 4 * bn + (wordBytes x).length ≤ bsize := by
    simp only [length_wordBytes, bsize_eq]
    simp only [nindirect_eq] at hbn
    omega
  have hnew : ∀ inum p, owned (s.setDisk (write s.disk (ind * bsize + 4 * bn) (wordBytes x)))
      (inum, p) = Function.update (owned s) ((s.slot ip).inum, .entry ⟨bn, hbn⟩) x (inum, p) := by
    intro inum p
    rw [Function.update_apply]
    simp only [Prod.mk.injEq]
    by_cases heq : inum = (s.slot ip).inum
    · subst heq
      rw [owned_mk, owned_mk, view_setDisk, hview, if_neg htype, if_neg htype, setDisk_disk]
      cases p with
      | direct k => simp [refAt]
      | indirect => simp [refAt]
      | entry j =>
        simp only [refAt, ← hind_def, hind, if_false, true_and, Pos.entry.injEq]
        by_cases hj : j = ⟨bn, hbn⟩
        · subst hj
          rw [if_pos rfl]
          have hread := read_write_self (d := s.disk) (ind * bsize + 4 * bn) (wordBytes x)
          rw [length_wordBytes] at hread
          rw [hread, wordOf_wordBytes hxlt]
        · have hjne : (j : Nat) ≠ bn := fun h => hj (Fin.ext h)
          rw [if_neg hj, read_write_of_disjoint (by simp only [length_wordBytes]; omega)]
    · rw [if_neg (by rintro ⟨h, -⟩; exact heq h), owned_mk, owned_mk, view_setDisk, setDisk_disk]
      split_ifs with hfree
      · rfl
      · refine refAt_congr_disk (fun i hi => write_block_of_ne ?_ hlen hi) p
        intro heqb
        by_cases h0' : (view s inum).addr ndirect = 0
        · rw [h0'] at heqb
          exact hind heqb.symm
        · have hown : owned s (inum, .indirect) = (view s inum).addr ndirect := by
            rw [owned_mk, if_neg hfree]
            rfl
          exact heq (congrArg Prod.fst (hs.sound.injective _ _ (hown.trans (heqb.trans hheld.symm))
            (by rw [hown]; exact h0')))
  have hindm : nmeta ≤ ind := hheld ▸ hs.nmeta_le _ (by rw [hheld]; exact hind)
  have hmk := @marked_write_of_nmeta_le s.disk ind (4 * bn) (wordBytes x) hindm
  have hold : owned s ((s.slot ip).inum, .entry ⟨bn, hbn⟩) = 0 := by
    rw [owned_mk, hview, if_neg htype]
    simp only [refAt, ← hind_def, hind, if_false]
    exact h0
  refine ⟨hs.setDisk ((hs.sound.assign_of_used hold hfresh hmarked).congr (fun o => hnew o.1 o.2) hmk)
    (fun b hb => by rw [hmk]; exact hs.meta_marked b hb) (fun o ho => ?_), fun o => hnew o.1 o.2⟩
  change owned (s.setDisk (write s.disk (ind * bsize + 4 * bn) (wordBytes x))) (o.1, o.2) ≠ 0 at ho
  rw [hnew, Function.update_apply] at ho
  change nmeta ≤ owned (s.setDisk (write s.disk (ind * bsize + 4 * bn) (wordBytes x))) (o.1, o.2)
  rw [hnew, Function.update_apply]
  split_ifs at ho ⊢
  · exact hx
  · exact hs.nmeta_le _ ho

end Alloc

/-! ## Room to grow

A file has room to grow to `MAXFILE` blocks when the free blocks and the
blocks it holds already are together as many as its positions.  Every
allocation for the file moves one block from the first to the second.
-/

section Room

variable {s s' : State} {inum : Nat}

def Pos.toSum : Pos → Fin ndirect ⊕ Unit ⊕ Fin nindirect
  | .direct i => .inl i
  | .indirect => .inr (.inl ())
  | .entry j => .inr (.inr j)

theorem Pos.toSum_injective : Function.Injective Pos.toSum := by
  rintro (i | _ | j) (i' | _ | j') h <;>
    simp only [Pos.toSum, reduceCtorEq, Sum.inl.injEq, Sum.inr.injEq] at h
  · rw [h]
  · rfl
  · rw [h]

theorem card_pos_le : Fintype.card Pos ≤ maxfile + 1 := by
  have h := Fintype.card_le_of_injective _ Pos.toSum_injective
  rw [Fintype.card_sum, Fintype.card_sum, Fintype.card_fin, Fintype.card_fin, Fintype.card_unit] at h
  simp only [maxfile_eq]
  simp only [ndirect_eq, nindirect_eq] at h
  omega

/-- The free blocks and the blocks file `inum` holds. -/
def room (s : State) (inum : Nat) : Nat :=
  Allocation.free (marked s.disk) sb.size + Allocation.nheld fun p => owned s (inum, p)

theorem room_assign {x : Nat} {p : Pos}
    (howned : ∀ o, owned s' o = Function.update (owned s) (inum, p) x o)
    (hmarked : ∀ b, marked s'.disk b = Function.update (marked s.disk) x true b)
    (h0 : owned s (inum, p) = 0) (hx0 : x ≠ 0) (hx : marked s.disk x = false) (hxn : x < sb.size) :
    room s' inum = room s inum := by
  have hown : (fun q => owned s' (inum, q)) = Function.update (fun q => owned s (inum, q)) p x := by
    funext q
    rw [howned, Function.update_apply, Function.update_apply]
    simp only [Prod.mk.injEq, true_and]
  rw [room, room, funext hmarked, hown]
  exact Allocation.free_add_nheld_assign h0 hx0 hx hxn

theorem room_congr (howned : ∀ o, owned s' o = owned s o)
    (hmarked : ∀ b, marked s'.disk b = marked s.disk b) : room s' inum = room s inum := by
  rw [room, room, funext hmarked, funext howned]

/-- With room for a whole file, `balloc` for an empty position of it finds
a free block. -/
theorem balloc_ok_of_room (hroom : maxfile + 1 ≤ room s inum) {p : Pos} (h0 : owned s (inum, p) = 0) :
    ∃ d x, balloc s.disk = .ok (d, x) := by
  have hlt : Allocation.nheld (fun q => owned s (inum, q)) < maxfile + 1 :=
    (@Allocation.nheld_lt_card Pos (fun q => owned s (inum, q)) _ p h0).trans_le card_pos_le
  obtain ⟨b, hb, hfree⟩ := Allocation.exists_not_used_of_free_pos
    (show 0 < Allocation.free (marked s.disk) sb.size by rw [room] at hroom; omega)
  cases hballoc : balloc s.disk with
  | error e => exact absurd (balloc_eq_error hballoc b hb) (by rw [hfree]; decide)
  | ok r => exact ⟨r.1, r.2, rfl⟩

end Room

/-! ## `bmap` -/

section Bmap

variable {s s' : State} {ip bn b : Nat}

/-- The position that holds block `bn` of a file (`bmap` panics past
`MAXFILE`). -/
def Pos.data (bn : Nat) : Pos :=
  if h : bn < ndirect then .direct ⟨bn, h⟩
  else if h' : bn - ndirect < nindirect then .entry ⟨bn - ndirect, h'⟩ else .indirect

theorem Pos.data_of_lt (h : bn < ndirect) : Pos.data bn = .direct ⟨bn, h⟩ := by
  unfold Pos.data
  rw [dif_pos h]

theorem Pos.data_of_ge (h1 : ¬bn < ndirect) (h2 : bn - ndirect < nindirect) :
    Pos.data bn = .entry ⟨bn - ndirect, h2⟩ := by
  unfold Pos.data
  rw [dif_neg h1, dif_pos h2]

theorem Pos.ofAddr_of_lt (h : bn < ndirect) : Pos.ofAddr bn = .direct ⟨bn, h⟩ := by
  unfold Pos.ofAddr
  rw [dif_pos h]

theorem Pos.data_ne_indirect (h : bn < maxfile) : Pos.data bn ≠ .indirect := by
  unfold Pos.data
  simp only [maxfile_eq] at h
  split_ifs with h1 h2
  · exact fun h => Pos.noConfusion h
  · exact fun h => Pos.noConfusion h
  · simp only [ndirect_eq, nindirect_eq] at h1 h2
    omega

theorem Pos.data_injective {bn' : Nat} (h : bn < maxfile) (h' : bn' < maxfile)
    (heq : Pos.data bn = Pos.data bn') : bn = bn' := by
  have hlt : ∀ {k}, k < maxfile → ¬k < ndirect → k - ndirect < nindirect := fun hk hk1 => by
    simp only [maxfile_eq] at hk
    simp only [ndirect_eq, nindirect_eq] at hk1 ⊢
    omega
  by_cases h1 : bn < ndirect <;> by_cases h1' : bn' < ndirect
  · rw [Pos.data_of_lt h1, Pos.data_of_lt h1'] at heq
    simp only [Pos.direct.injEq, Fin.mk.injEq] at heq
    exact heq
  · rw [Pos.data_of_lt h1, Pos.data_of_ge h1' (hlt h' h1')] at heq
    exact Pos.noConfusion heq
  · rw [Pos.data_of_ge h1 (hlt h h1), Pos.data_of_lt h1'] at heq
    exact Pos.noConfusion heq
  · rw [Pos.data_of_ge h1 (hlt h h1), Pos.data_of_ge h1' (hlt h' h1')] at heq
    simp only [Pos.entry.injEq, Fin.mk.injEq] at heq
    omega

/-- A block held at a data position is no file's indirect block. -/
theorem Safe.indirect_ne (hs : Safe s) {o : Nat × Pos} (ho : o.2 ≠ .indirect) (h0 : owned s o ≠ 0)
    (inum : Nat) : owned s (inum, .indirect) ≠ owned s o := fun he =>
  ho (congrArg Prod.snd (hs.sound.injective _ _ he.symm h0))

/-- From `s` to `s'` the file in slot `ip` at most gained blocks: the state
is safe, the slot differs at most in its dinode, whose size is the same, and
the file has the same room. -/
structure Grows (s s' : State) (ip : Nat) : Prop where
  safe : Safe s'
  slot_eq : s'.slot ip = { s.slot ip with din := (s'.slot ip).din }
  size_eq : (s'.slot ip).din.size = (s.slot ip).din.size
  room_eq : room s' (s.slot ip).inum = room s (s.slot ip).inum

theorem Grows.refl (hs : Safe s) : Grows s s ip := ⟨hs, rfl, rfl, rfl⟩

theorem Grows.inum_eq (h : Grows s s' ip) : (s'.slot ip).inum = (s.slot ip).inum := by
  rw [h.slot_eq]

theorem Grows.live_eq (h : Grows s s' ip) : (s'.slot ip).live = (s.slot ip).live := by
  rw [h.slot_eq]
  rfl

theorem Grows.locked_eq (h : Grows s s' ip) : (s'.slot ip).locked = (s.slot ip).locked := by
  rw [h.slot_eq]

theorem Grows.trans {s₂ : State} (h₁ : Grows s s' ip) (h₂ : Grows s' s₂ ip) : Grows s s₂ ip := by
  refine ⟨h₂.safe, ?_, by rw [h₂.size_eq, h₁.size_eq], by rw [← h₁.inum_eq, h₂.room_eq, h₁.inum_eq, h₁.room_eq]⟩
  have h := h₂.slot_eq
  rw [h₁.slot_eq] at h
  exact h

/-- What `bmap` of block `bn` of the file in slot `ip` did, from `s` to
`s'`, returning block `b`. -/
structure Bmapped (s s' : State) (ip bn b : Nat) : Prop extends Grows s s' ip where
  held : owned s' ((s.slot ip).inum, Pos.data bn) = b
  ne_zero : b ≠ 0
  kept : owned s ((s.slot ip).inum, Pos.data bn) ≠ 0 → b = owned s ((s.slot ip).inum, Pos.data bn)
  others : ∀ o, o ≠ ((s.slot ip).inum, Pos.data bn) → o.2 ≠ .indirect → owned s' o = owned s o
  bytes : ∀ o, o.2 ≠ .indirect → owned s o ≠ 0 →
    ∀ i < bsize, s'.disk (owned s o * bsize + i) = s.disk (owned s o * bsize + i)
  fresh : owned s ((s.slot ip).inum, Pos.data bn) = 0 → ∀ i < bsize, s'.disk (b * bsize + i) = 0

theorem Bmapped.of_held (hs : Safe s)
    (hheld : owned s ((s.slot ip).inum, Pos.data bn) = b) (hb : b ≠ 0) : Bmapped s s ip bn b :=
  ⟨Grows.refl hs, hheld, hb, fun _ => hheld.symm, fun _ _ _ => rfl, fun _ _ _ _ _ => rfl,
    fun h0 => absurd (hheld ▸ h0) hb⟩

/-- A held block's bytes, past the bitmap and not the block `balloc` just
handed out, survive `balloc`. -/
theorem Safe.balloc_bytes {d : Disk} {x : Nat} (hs : Safe s) (h : Block.balloc s.disk = .ok (d, x))
    {o : Nat × Pos} (ho : owned s o ≠ 0) {i : Nat} (hi : i < bsize) :
    d (owned s o * bsize + i) = s.disk (owned s o * bsize + i) := by
  obtain ⟨-, -, -, hfresh, -, -, -, hoff⟩ := hs.balloc h
  refine hoff _ (not_inBitmap_of_nmeta_le (hs.nmeta_le o ho) (Nat.le_add_right _ _)) ?_
  rcases Nat.lt_or_gt_of_ne (hfresh o) with hlt | hlt
  · left
    have : (owned s o + 1) * bsize ≤ x * bsize := Nat.mul_le_mul_right _ hlt
    simp only [bsize_eq] at this hi ⊢
    omega
  · right
    have : (x + 1) * bsize ≤ owned s o * bsize := Nat.mul_le_mul_right _ hlt
    simp only [bsize_eq] at this hi ⊢
    omega

theorem bmap_direct_bmapped (hs : Safe s) (hl : (s.slot ip).live) (h1 : bn < ndirect)
    (h : bmap s ip bn = .ok (s', b)) : Bmapped s s' ip bn b := by
  have htype := hs.live_type ip hl
  have hview := view_of_live hs.held_once hl
  have hpos := Pos.data_of_lt h1
  have hold : owned s ((s.slot ip).inum, Pos.data bn) = (s.slot ip).din.addr bn := by
    rw [owned_mk, hview, if_neg htype, hpos]
    rfl
  unfold bmap at h
  rw [if_pos h1] at h
  simp only at h
  split_ifs at h with h0
  · obtain ⟨⟨d, x⟩, hb, h⟩ := Except.bind_eq_ok_iff.mp h
    simp only [Except.ok.injEq, Prod.mk.injEq] at h
    obtain ⟨rfl, rfl⟩ := h
    obtain ⟨hs₁, hx, hlt, hfresh, howned, hmarked, hzero, -⟩ := hs.balloc hb
    have hl₁ : ((s.setDisk d).slot ip).live := hl
    obtain ⟨hs', hnew⟩ := hs₁.setAddr hl₁ (by omega) h0
      (by rw [setDisk_disk, hmarked, Function.update_self]) (fun o => by rw [howned]; exact hfresh o)
      hx (fun h => absurd h (by omega))
    have hip : ip < (s.setDisk d).icache.length := lt_length_of_live hl
    rw [Pos.ofAddr_of_lt h1, ← hpos, setDisk_slot, show owned (s.setDisk d) = owned s from
      funext howned] at hnew
    have hx0 : x ≠ 0 := by
      simp only [nmeta_eq] at hx
      omega
    refine ⟨⟨hs', ?_, ?_, room_assign hnew (fun b => hmarked b) (hold.trans h0) hx0 (balloc_eq_ok hb).2.1 hlt⟩,
      ?_, hx0, fun h => absurd (hold.trans h0) h, fun o ho _ => ?_,
      fun o _ ho i hi => hs.balloc_bytes hb ho hi, fun _ i hi => hzero i hi⟩
    · rw [State.slot_setAddr_self _ _ _ hip]
      rfl
    · rw [State.slot_setAddr_self _ _ _ hip, DInode.setAddr_size, setDisk_slot]
    · rw [hnew, Function.update_self]
    · rw [hnew, Function.update_of_ne ho]
  · cases h
    exact Bmapped.of_held hs hold h0

/-- The indirect block of a live slot, loaded or allocated. -/
theorem bmapLoadIndirect_safe {s₁ : State} {ind : Nat} (hs : Safe s) (hl : (s.slot ip).live)
    (h : bmapLoadIndirect s ip = .ok (s₁, ind)) :
    Safe s₁ ∧ s₁.slot ip = { s.slot ip with din := (s₁.slot ip).din } ∧
      (s₁.slot ip).din.addr ndirect = ind ∧ ind ≠ 0 ∧
      (∀ o, o ≠ ((s.slot ip).inum, .indirect) → owned s₁ o = owned s o) ∧
      (∀ o, owned s o ≠ 0 → ∀ i < bsize, s₁.disk (owned s o * bsize + i) = s.disk (owned s o * bsize + i)) ∧
      room s₁ (s.slot ip).inum = room s (s.slot ip).inum ∧ (s₁.slot ip).din.size = (s.slot ip).din.size := by
  unfold bmapLoadIndirect at h
  split_ifs at h with h0
  · obtain ⟨⟨d, a⟩, hb, h⟩ := Except.bind_eq_ok_iff.mp h
    simp only [pure, Except.pure, Except.ok.injEq, Prod.mk.injEq] at h
    obtain ⟨rfl, rfl⟩ := h
    obtain ⟨hs₁, hx, hlt, hfresh, howned, hmarked, hzero, -⟩ := hs.balloc hb
    have hl₁ : ((s.setDisk d).slot ip).live := hl
    obtain ⟨hs', hnew⟩ := hs₁.setAddr hl₁ (by simp) h0
      (by rw [setDisk_disk, hmarked, Function.update_self]) (fun o => by rw [howned]; exact hfresh o)
      hx (fun _ j hj => hzero j hj)
    have hip : ip < (s.setDisk d).icache.length := lt_length_of_live hl
    have hind : Pos.ofAddr ndirect = .indirect := by simp [Pos.ofAddr]
    rw [hind, setDisk_slot, show owned (s.setDisk d) = owned s from funext howned] at hnew
    have ha0 : a ≠ 0 := by
      simp only [nmeta_eq] at hx
      omega
    refine ⟨hs', ?_, ?_, ha0, fun o ho => ?_, fun o ho i hi => hs.balloc_bytes hb ho hi,
      room_assign hnew (fun b => hmarked b) ?_ ha0 (balloc_eq_ok hb).2.1 hlt, ?_⟩
    · rw [State.slot_setAddr_self _ _ _ hip]
      rfl
    · rw [State.slot_setAddr_self _ _ _ hip]
      exact DInode.addr_setAddr _ _ (by simp) |>.trans (if_pos rfl)
    · rw [hnew, Function.update_of_ne ho]
    · rw [owned_live hs hl]
      exact h0
    · rw [State.slot_setAddr_self _ _ _ hip, DInode.setAddr_size, setDisk_slot]
  · simp only [pure, Except.pure, Except.ok.injEq, Prod.mk.injEq] at h
    obtain ⟨rfl, rfl⟩ := h
    exact ⟨hs, rfl, rfl, h0, fun _ _ => rfl, fun _ _ _ _ => rfl, rfl, rfl⟩

/-- Entry `k` of the indirect block of a live slot, read or allocated. -/
theorem bmapEntry_safe {s₁ : State} {ind k : Nat} (hs : Safe s₁) (hl : (s₁.slot ip).live)
    (hk : k < nindirect) (hind : (s₁.slot ip).din.addr ndirect = ind) (hind0 : ind ≠ 0)
    (h : bmapEntry s₁ ind k = .ok (s', b)) :
    Safe s' ∧ s'.icache = s₁.icache ∧
      (∀ o, owned s' o = Function.update (owned s₁) ((s₁.slot ip).inum, .entry ⟨k, hk⟩) b o) ∧
      b ≠ 0 ∧ (owned s₁ ((s₁.slot ip).inum, .entry ⟨k, hk⟩) ≠ 0 →
        b = owned s₁ ((s₁.slot ip).inum, .entry ⟨k, hk⟩)) ∧
      (∀ o, o.2 ≠ .indirect → owned s₁ o ≠ 0 →
        ∀ i < bsize, s'.disk (owned s₁ o * bsize + i) = s₁.disk (owned s₁ o * bsize + i)) ∧
      (owned s₁ ((s₁.slot ip).inum, .entry ⟨k, hk⟩) = 0 → ∀ i < bsize, s'.disk (b * bsize + i) = 0) ∧
      room s' (s₁.slot ip).inum = room s₁ (s₁.slot ip).inum := by
  have hheld : owned s₁ ((s₁.slot ip).inum, .indirect) = ind := by
    rw [owned_live hs hl]
    exact hind
  have hentry : owned s₁ ((s₁.slot ip).inum, .entry ⟨k, hk⟩) =
      wordOf (read s₁.disk (ind * bsize + 4 * k) 4) := by
    rw [owned_live hs hl]
    simp only [refAt, hind, hind0, if_false]
  have hlen : 4 * k + (wordBytes b).length ≤ bsize := by
    simp only [length_wordBytes, bsize_eq]
    simp only [nindirect_eq] at hk
    omega
  -- a block held at a data position is not the indirect block
  have hne : ∀ o, o.2 ≠ .indirect → owned s₁ o ≠ 0 → owned s₁ o ≠ ind := fun o ho h0 he =>
    ho (congrArg Prod.snd (hs.sound.injective _ _ (he.trans hheld.symm) h0))
  unfold bmapEntry at h
  simp only at h
  split_ifs at h with h0
  · obtain ⟨⟨d, x⟩, hb, h⟩ := Except.bind_eq_ok_iff.mp h
    simp only [Except.ok.injEq, Prod.mk.injEq] at h
    obtain ⟨rfl, rfl⟩ := h
    obtain ⟨hs₂, hx, hxlt, hfresh, howned, hmarked, hzero, -⟩ := hs.balloc hb
    have hl₂ : ((s₁.setDisk d).slot ip).live := hl
    have hread : read d (ind * bsize + 4 * k) 4 = read s₁.disk (ind * bsize + 4 * k) 4 :=
      read_congr fun i hi => by
        have := hs.balloc_bytes hb (o := ((s₁.slot ip).inum, .indirect)) (by rw [hheld]; exact hind0)
          (i := 4 * k + i) (by simp only [nindirect_eq] at hk; simp only [bsize_eq]; omega)
        rw [hheld, ← Nat.add_assoc] at this
        exact this
    obtain ⟨hs', hnew⟩ := hs₂.setEntry hl₂ hk (by rw [setDisk_slot, hind]; exact hind0)
      (by rw [setDisk_slot, hind, setDisk_disk, hread, ← h0])
      (by rw [setDisk_disk, hmarked, Function.update_self]) (fun o => by rw [howned]; exact hfresh o) hx
      (by simp only [sb_size] at hxlt; omega)
    rw [setDisk_slot, hind, setDisk_disk, setDisk_setDisk] at hs' hnew
    rw [show owned (s₁.setDisk d) = owned s₁ from funext howned] at hnew
    have hindm : nmeta ≤ ind := hheld ▸ hs.nmeta_le _ (by rw [hheld]; exact hind0)
    refine ⟨hs', rfl, hnew, ?_, fun hne0 => absurd (hentry ▸ h0) hne0, fun o ho hne0 i hi => ?_,
      fun _ i hi => ?_, room_assign hnew (fun y => ?_) (hentry.trans h0) ?_ (balloc_eq_ok hb).2.1 hxlt⟩
    · simp only [nmeta_eq] at hx
      omega
    · change write d (ind * bsize + 4 * k) (wordBytes x) _ = _
      rw [write_block_of_ne (hne o ho hne0) hlen hi, hs.balloc_bytes hb hne0 hi]
    · change write d (ind * bsize + 4 * k) (wordBytes x) _ = _
      rw [write_block_of_ne (fun he => hfresh _ (hheld.trans he.symm)) hlen hi, hzero i hi]
    · rw [setDisk_disk, marked_write_of_nmeta_le hindm, hmarked]
    · simp only [nmeta_eq] at hx
      omega
  · simp only [Except.ok.injEq, Prod.mk.injEq] at h
    obtain ⟨rfl, rfl⟩ := h
    refine ⟨hs, rfl, fun o => ?_, h0, fun _ => hentry.symm, fun _ _ _ _ _ => rfl,
      fun h => absurd (hentry ▸ h) h0, rfl⟩
    rw [Function.update_eq_self_iff.mpr hentry.symm]

theorem bmap_indirect_bmapped (hs : Safe s) (hl : (s.slot ip).live) (h1 : ¬bn < ndirect)
    (h2 : bn - ndirect < nindirect) (h : bmap s ip bn = .ok (s', b)) : Bmapped s s' ip bn b := by
  rw [bmap_indirect h1 h2] at h
  obtain ⟨⟨s₁, ind⟩, hload, hentry⟩ := Except.bind_eq_ok_iff.mp h
  obtain ⟨hs₁, hslot₁, haddr, hind0, hothers, hbytes, hroom₁, hsize₁⟩ := bmapLoadIndirect_safe hs hl hload
  have hl₁ : (s₁.slot ip).live := by
    rw [hslot₁]
    exact hl
  have hinum : (s₁.slot ip).inum = (s.slot ip).inum := by rw [hslot₁]
  obtain ⟨hs', hicache, hnew, hb0, hkept, hbytes', hfresh, hroom'⟩ :=
    bmapEntry_safe hs₁ hl₁ h2 haddr hind0 hentry
  have hslot' : s'.slot ip = s₁.slot ip := by simp only [State.slot, hicache]
  have hpos := Pos.data_of_ge h1 h2
  -- entries of the file are not its indirect block, so loading it kept them
  have hentry₁ : owned s₁ ((s.slot ip).inum, Pos.data bn) = owned s ((s.slot ip).inum, Pos.data bn) :=
    hothers _ (by rw [hpos]; simp)
  refine ⟨⟨hs', by rw [hslot']; exact hslot₁, by rw [hslot', hsize₁], by rw [← hinum, hroom', hinum, hroom₁]⟩,
    ?_, hb0, fun h0 => ?_, fun o ho hoi => ?_, fun o hoi ho i hi => ?_, fun h0 => ?_⟩
  · rw [hnew, hinum, hpos, Function.update_self]
  · rw [← hentry₁, hpos, ← hinum] at h0 ⊢
    exact hkept h0
  · rw [hnew, hinum, ← hpos, Function.update_of_ne ho, hothers o (fun he => hoi (by rw [he]))]
  · have ho₁ : owned s₁ o = owned s o := hothers o (fun he => hoi (by rw [he]))
    rw [← ho₁, hbytes' o hoi (ho₁ ▸ ho) i hi, ho₁, hbytes o ho i hi]
  · rw [← hentry₁, hpos, ← hinum] at h0
    exact hfresh h0

theorem bmapLoadIndirect_ok (hs : Safe s) (hl : (s.slot ip).live)
    (hroom : maxfile + 1 ≤ room s (s.slot ip).inum) : ∃ s₁ ind, bmapLoadIndirect s ip = .ok (s₁, ind) := by
  unfold bmapLoadIndirect
  split_ifs with h0
  · obtain ⟨d, x, hb⟩ := balloc_ok_of_room hroom (p := .indirect) (by rw [owned_live hs hl]; exact h0)
    rw [hb]
    exact ⟨_, _, rfl⟩
  · exact ⟨_, _, rfl⟩

theorem bmapEntry_ok {ind k : Nat} (hs : Safe s) (hl : (s.slot ip).live) (hk : k < nindirect)
    (hind : (s.slot ip).din.addr ndirect = ind) (hind0 : ind ≠ 0)
    (hroom : maxfile + 1 ≤ room s (s.slot ip).inum) : ∃ s' b, bmapEntry s ind k = .ok (s', b) := by
  unfold bmapEntry
  simp only
  split_ifs with h0
  · have hentry : owned s ((s.slot ip).inum, .entry ⟨k, hk⟩) = 0 := by
      rw [owned_live hs hl]
      simp only [refAt, hind, hind0, if_false]
      exact h0
    obtain ⟨d, x, hb⟩ := balloc_ok_of_room hroom hentry
    rw [hb]
    exact ⟨_, _, rfl⟩
  · exact ⟨_, _, rfl⟩

/-- With room for a whole file, `bmap` of a block below `MAXFILE` returns. -/
theorem bmap_ok (hs : Safe s) (hl : (s.slot ip).live) (hroom : maxfile + 1 ≤ room s (s.slot ip).inum)
    (hbn : bn < maxfile) : ∃ s' b, bmap s ip bn = .ok (s', b) := by
  by_cases h1 : bn < ndirect
  · unfold bmap
    rw [if_pos h1]
    simp only
    split_ifs with h0
    · obtain ⟨d, x, hb⟩ := balloc_ok_of_room hroom (p := .direct ⟨bn, h1⟩)
        (by rw [owned_live hs hl]; exact h0)
      rw [hb]
      exact ⟨_, _, rfl⟩
    · exact ⟨_, _, rfl⟩
  have h2 : bn - ndirect < nindirect := by
    simp only [maxfile_eq] at hbn
    simp only [ndirect_eq, nindirect_eq] at h1 ⊢
    omega
  obtain ⟨s₁, ind, hload⟩ := bmapLoadIndirect_ok hs hl hroom
  obtain ⟨hs₁, hslot₁, haddr, hind0, -, -, hroom₁, -⟩ := bmapLoadIndirect_safe hs hl hload
  have hl₁ : (s₁.slot ip).live := by
    rw [hslot₁]
    exact hl
  have hinum : (s₁.slot ip).inum = (s.slot ip).inum := by rw [hslot₁]
  obtain ⟨s', b, hentry⟩ := bmapEntry_ok hs₁ hl₁ h2 haddr hind0 (by rw [hinum, hroom₁]; exact hroom)
  rw [bmap_indirect h1 h2, hload]
  exact ⟨s', b, hentry⟩

/-- Every `bmap` of a live slot that returns. -/
theorem bmap_bmapped (hs : Safe s) (hl : (s.slot ip).live) (h : bmap s ip bn = .ok (s', b)) :
    Bmapped s s' ip bn b := by
  by_cases h1 : bn < ndirect
  · exact bmap_direct_bmapped hs hl h1 h
  by_cases h2 : bn - ndirect < nindirect
  · exact bmap_indirect_bmapped hs hl h1 h2 h
  unfold bmap at h
  rw [if_neg h1, if_neg h2] at h
  cases h

end Bmap

end Block

end Xv6
