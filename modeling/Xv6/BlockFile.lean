import Xv6.BlockSafety
import Xv6.BlockImage

/-!
# File contents, `readi` and `writei`

Byte `i` of a file is byte `i % BSIZE` of the block that holds block
`i / BSIZE` of it, or zero where no block does (a hole); its contents are
its first `size` bytes.  `readi` returns a slice of the contents and changes
none of them, although it allocates a block for every hole it reads;
`writei` lays its bytes over the contents from its offset on and grows the
size to cover them.  Both return whenever the file has room to grow to
`MAXFILE` blocks.  The `T_DEV` branches of both, which go to the device
switch, are outside the block layer.
-/

namespace Xv6

namespace Block

open ByteStore State

/-- Byte `i` of the file whose dinode is `x`, for `i` below
`MAXFILE * BSIZE`. -/
def fileByte (d : Disk) (x : DInode) (i : Nat) : UInt8 :=
  let b := refAt d x (Pos.data (i / bsize))
  if b = 0 then 0 else d (b * bsize + i % bsize)

def contents (d : Disk) (x : DInode) : List UInt8 := (List.range x.size).map (fileByte d x)

@[simp] theorem length_contents (d : Disk) (x : DInode) : (contents d x).length = x.size := by
  simp [contents]

/-- What `readi` is for: the bytes of `f` from `off` on, at most `n` of
them, and nothing for an offset past the end or a range that overflows 32
bits. -/
def readSpec (f : List UInt8) (off n : Nat) : Option (List UInt8) :=
  if f.length < off ∨ 2 ^ 32 ≤ off + n then none else some ((f.drop off).take n)

/-! ## Bytes -/

section Bytes

variable {s s' : State} {ip bn b i : Nat}

theorem fileByte_live (hs : Safe s) (hl : (s.slot ip).live) (i : Nat) :
    fileByte s.disk (s.slot ip).din i =
      if owned s ((s.slot ip).inum, Pos.data (i / bsize)) = 0 then 0
      else s.disk (owned s ((s.slot ip).inum, Pos.data (i / bsize)) * bsize + i % bsize) := by
  rw [fileByte, owned_live hs hl]

/-- `bmap` changes no byte of the file: a block it allocates was a hole and
is zero. -/
theorem Bmapped.fileByte_eq (h : Bmapped s s' ip bn b) (hs : Safe s) (hl : (s.slot ip).live)
    (hi : i / bsize < maxfile) :
    fileByte s'.disk (s'.slot ip).din i = fileByte s.disk (s.slot ip).din i := by
  have hl' : (s'.slot ip).live := h.live_eq ▸ hl
  have hmod : i % bsize < bsize := Nat.mod_lt _ (by decide)
  have hind := Pos.data_ne_indirect hi
  rw [fileByte_live h.safe hl', fileByte_live hs hl, h.inum_eq]
  by_cases ho : Pos.data (i / bsize) = Pos.data bn
  · rw [ho, h.held, if_neg h.ne_zero]
    by_cases h0 : owned s ((s.slot ip).inum, Pos.data bn) = 0
    · rw [if_pos h0]
      exact h.fresh h0 _ hmod
    · rw [if_neg h0, h.kept h0]
      exact h.bytes _ (ho ▸ hind) h0 _ hmod
  · rw [h.others _ (fun he => ho (congrArg Prod.snd he)) hind]
    split_ifs with h0
    · rfl
    · exact h.bytes _ hind h0 _ hmod

/-- Within the block `bmap` returned, the file's bytes are the block's. -/
theorem Bmapped.fileByte_block (h : Bmapped s s' ip bn b) (hl : (s.slot ip).live)
    (hi : i / bsize = bn) : fileByte s'.disk (s'.slot ip).din i = s'.disk (b * bsize + i % bsize) := by
  rw [fileByte_live h.safe (h.live_eq ▸ hl), h.inum_eq, hi, h.held, if_neg h.ne_zero]

/-- Writing bytes into a data block of a file: safe, and nothing the file
has changes but its bytes. -/
theorem Safe.grows_write (hs : Safe s)
    (hb : owned s ((s.slot ip).inum, Pos.data bn) = b) (hb0 : b ≠ 0) (hbn : bn < maxfile) {k : Nat}
    {bs : List UInt8} (hlen : k + bs.length ≤ bsize) :
    Grows s (s.setDisk (write s.disk (b * bsize + k) bs)) ip ∧
      ∀ o, owned (s.setDisk (write s.disk (b * bsize + k) bs)) o = owned s o := by
  have h0 : owned s ((s.slot ip).inum, Pos.data bn) ≠ 0 := by rw [hb]; exact hb0
  have hnmeta : nmeta ≤ b := hb ▸ hs.nmeta_le _ h0
  obtain ⟨hs', howned⟩ := hs.writeData (fun inum => hb ▸ hs.indirect_ne (Pos.data_ne_indirect hbn) h0 inum)
    hnmeta hlen
  exact ⟨⟨hs', rfl, rfl, room_congr howned (marked_write_of_nmeta_le hnmeta)⟩, howned⟩

/-- A write within a data block of a live file lays its bytes over the
file's. -/
theorem fileByte_write (hs : Safe s) (hl : (s.slot ip).live)
    (hb : owned s ((s.slot ip).inum, Pos.data bn) = b) (hb0 : b ≠ 0) (hbn : bn < maxfile) {k : Nat}
    {bs : List UInt8} (hlen : k + bs.length ≤ bsize) (hi : i / bsize < maxfile) :
    fileByte (write s.disk (b * bsize + k) bs) (s.slot ip).din i =
      if bn * bsize + k ≤ i ∧ i < bn * bsize + k + bs.length then bs.getD (i - (bn * bsize + k)) 0
      else fileByte s.disk (s.slot ip).din i := by
  obtain ⟨hg, howned⟩ := hs.grows_write hb hb0 hbn hlen
  have h := fileByte_live hg.safe (hg.live_eq ▸ hl) i
  rw [setDisk_disk, setDisk_slot, howned] at h
  rw [h, fileByte_live hs hl]
  have hdiv := Nat.div_add_mod i bsize
  have hmod : i % bsize < bsize := Nat.mod_lt _ (by decide)
  by_cases hio : i / bsize = bn
  · -- `i` lies in block `bn`: the write covers it when its offset in the block is in range
    rw [hio, hb, if_neg hb0, if_neg hb0]
    rw [hio] at hdiv
    by_cases hin : bn * bsize + k ≤ i ∧ i < bn * bsize + k + bs.length
    · rw [if_pos hin]
      simp only [bsize_eq] at hdiv hmod hlen hin ⊢
      rw [write_of_mem (by omega) (by omega)]
      congr 1
      omega
    · rw [if_neg hin]
      simp only [bsize_eq] at hdiv hmod hlen hin ⊢
      rw [write_of_not_mem (by omega)]
  · have hout : ¬(bn * bsize + k ≤ i ∧ i < bn * bsize + k + bs.length) := by
      rintro ⟨h1, h2⟩
      apply hio
      simp only [bsize_eq] at h1 h2 hlen ⊢
      omega
    rw [if_neg hout]
    split_ifs with h0
    · rfl
    · -- the block holding `i` is another position's, so not the one written
      refine write_block_of_ne (fun he => hio (Pos.data_injective hi hbn ?_)) hlen hmod
      exact congrArg Prod.snd (hs.sound.injective _ _ (he.trans hb.symm) h0)

end Bytes

/-! ## The loops -/

section Loops

variable {s : State} {ip : Nat}

/-- The block a round of the loops starts in is below `MAXFILE`, and the
round moves at least one byte and stays within the block. -/
theorem round_facts {n tot off : Nat} (htot : tot < n) (hend : off + (n - tot) ≤ maxfile * bsize) :
    off / bsize < maxfile ∧ 0 < min (n - tot) (bsize - off % bsize) ∧
      off % bsize + min (n - tot) (bsize - off % bsize) ≤ bsize := by
  simp only [maxfile_eq, bsize_eq] at hend ⊢
  omega

/-- The bytes a round of the loops reads or writes lie in the block of its
first byte. -/
theorem div_add_of_lt {off k m : Nat} (hm : off % bsize + m ≤ bsize) (hk : k < m) :
    (off + k) / bsize = off / bsize ∧ (off + k) % bsize = off % bsize + k := by
  simp only [bsize_eq] at hm ⊢
  omega

/-- `readiLoop` with fuel for every round returns the file's bytes from
`off` on, and changes none of them. -/
theorem readiLoop_spec {n : Nat} (fuel : Nat) {tot off : Nat} (out : List UInt8) (hs : Safe s)
    (hl : (s.slot ip).live) (hroom : maxfile + 1 ≤ room s (s.slot ip).inum)
    (hend : off + (n - tot) ≤ maxfile * bsize) (hfuel : n - tot < fuel) :
    ∃ s', readiLoop ip n fuel s tot off out =
        .ok (s', out ++ (List.range (n - tot)).map fun k => fileByte s.disk (s.slot ip).din (off + k)) ∧
      Grows s s' ip ∧
      ∀ i, i / bsize < maxfile → fileByte s'.disk (s'.slot ip).din i = fileByte s.disk (s.slot ip).din i := by
  induction fuel generalizing s tot off out with
  | zero => omega
  | succ fuel ih =>
    by_cases htot : tot < n
    · obtain ⟨hbn, hm0, hmb⟩ := round_facts htot hend
      obtain ⟨s₁, b, hb⟩ := bmap_ok hs hl hroom hbn
      have hB := bmap_bmapped hs hl hb
      obtain ⟨m, hm⟩ : ∃ m, m = min (n - tot) (bsize - off % bsize) := ⟨_, rfl⟩
      rw [← hm] at hm0 hmb
      have hmn : m ≤ n - tot := hm ▸ Nat.min_le_left _ _
      obtain ⟨s', hrun, hg, hbytes⟩ := @ih s₁ (tot + m) (off + m) (out ++ read s₁.disk (b * bsize + off % bsize) m) hB.safe
        (hB.live_eq ▸ hl) (by rw [hB.inum_eq, hB.room_eq]; exact hroom) (by omega) (by omega)
      refine ⟨s', ?_, hB.toGrows.trans hg, fun i hi => (hbytes i hi).trans (hB.fileByte_eq hs hl hi)⟩
      rw [readiLoop, if_pos htot, hb, Except.ok_bind]
      simp only [← hm]
      rw [hrun, List.append_assoc]
      -- the round's bytes, then the rest
      have hsplit : n - tot = m + (n - (tot + m)) := by omega
      rw [hsplit, List.range_add, List.map_append, List.map_map]
      congr 4
      · apply List.ext_getElem (by simp)
        intro k hk _
        obtain ⟨hdiv, hmod⟩ := div_add_of_lt hmb (by simpa using hk)
        have hi : (off + k) / bsize < maxfile := hdiv ▸ hbn
        rw [getElem_read, List.getElem_map, List.getElem_range, ← hB.fileByte_eq hs hl hi,
          hB.fileByte_block hl hdiv, hmod, Nat.add_assoc]
      · refine List.map_congr_left fun k hk => ?_
        have hk : off + m + k < maxfile * bsize := by
          rw [List.mem_range] at hk
          omega
        rw [Function.comp_apply, hB.fileByte_eq hs hl (Nat.div_lt_of_lt_mul (by rwa [Nat.mul_comm] at hk)),
          Nat.add_assoc]
    · rw [readiLoop, if_neg htot]
      have hzero : n - tot = 0 := by omega
      rw [hzero]
      exact ⟨s, by simp, Grows.refl hs, fun _ _ => rfl⟩

theorem getD_take_drop {src : List UInt8} {tot m j : Nat} (hj : j < m) :
    ((src.drop tot).take m).getD j 0 = src.getD (tot + j) 0 := by
  simp [List.getD_eq_getElem?_getD, hj]

/-- `writeiLoop` with fuel for every round lays `n - tot` bytes of `src`
from `tot` on over the file's bytes from `off` on. -/
theorem writeiLoop_spec {src : List UInt8} {n : Nat} (fuel : Nat) {tot off : Nat} (hs : Safe s)
    (hl : (s.slot ip).live) (hroom : maxfile + 1 ≤ room s (s.slot ip).inum) (hsrc : n ≤ src.length)
    (hend : off + (n - tot) ≤ maxfile * bsize) (hfuel : n - tot < fuel) :
    ∃ s', writeiLoop ip src n fuel s tot off = .ok (s', off + (n - tot)) ∧ Grows s s' ip ∧
      ∀ i, i / bsize < maxfile → fileByte s'.disk (s'.slot ip).din i =
        if off ≤ i ∧ i < off + (n - tot) then src.getD (tot + (i - off)) 0
        else fileByte s.disk (s.slot ip).din i := by
  induction fuel generalizing s tot off with
  | zero => omega
  | succ fuel ih =>
    by_cases htot : tot < n
    · obtain ⟨hbn, hm0, hmb⟩ := round_facts htot hend
      obtain ⟨s₁, b, hb⟩ := bmap_ok hs hl hroom hbn
      have hB := bmap_bmapped hs hl hb
      have hl₁ : (s₁.slot ip).live := hB.live_eq ▸ hl
      obtain ⟨m, hm⟩ : ∃ m, m = min (n - tot) (bsize - off % bsize) := ⟨_, rfl⟩
      rw [← hm] at hm0 hmb
      have hmn : m ≤ n - tot := hm ▸ Nat.min_le_left _ _
      have hlen : ((src.drop tot).take m).length = m := by
        simp only [List.length_take, List.length_drop]
        omega
      have hheld : owned s₁ ((s₁.slot ip).inum, Pos.data (off / bsize)) = b := by
        rw [hB.inum_eq]
        exact hB.held
      obtain ⟨hg₂, -⟩ := hB.safe.grows_write hheld hB.ne_zero hbn
        (show off % bsize + ((src.drop tot).take m).length ≤ bsize by rw [hlen]; exact hmb)
      -- the round lays its `m` bytes over the file's
      have hround : ∀ i, i / bsize < maxfile →
          fileByte (write s₁.disk (b * bsize + off % bsize) ((src.drop tot).take m)) (s₁.slot ip).din i =
            if off ≤ i ∧ i < off + m then src.getD (tot + (i - off)) 0
            else fileByte s.disk (s.slot ip).din i := by
        intro i hi
        rw [fileByte_write hB.safe hl₁ hheld hB.ne_zero hbn (by rw [hlen]; exact hmb) hi,
          Nat.div_add_mod', hlen, hB.fileByte_eq hs hl hi]
        split_ifs with hin
        · exact getD_take_drop (by omega)
        · rfl
      obtain ⟨s', hrun, hg, hbytes⟩ := @ih _ (tot + m) (off + m) hg₂.safe (hg₂.live_eq ▸ hl₁)
        (by rw [hg₂.inum_eq, hg₂.room_eq, hB.inum_eq, hB.room_eq]; exact hroom) (by omega) (by omega)
      refine ⟨s', ?_, (hB.toGrows.trans hg₂).trans hg, fun i hi => ?_⟩
      · rw [writeiLoop, if_pos htot, hb, Except.ok_bind]
        simp only [← hm]
        rw [hrun]
        congr 2
        omega
      · rw [hbytes i hi, setDisk_disk, setDisk_slot, hround i hi]
        split_ifs <;> first | rfl | omega | (congr 1; omega)
    · rw [writeiLoop, if_neg htot]
      have hzero : n - tot = 0 := by omega
      rw [hzero, Nat.add_zero]
      exact ⟨s, rfl, Grows.refl hs, fun i _ => by rw [if_neg (by omega)]⟩

end Loops

/-! ## `readi` and `writei` -/

section Calls

variable {s : State} {ip : Nat}

theorem div_lt_maxfile {i : Nat} (h : i < maxfile * bsize) : i / bsize < maxfile :=
  Nat.div_lt_of_lt_mul (by rwa [Nat.mul_comm] at h)

theorem contents_congr {d d' : Disk} {x x' : DInode} (hsize : x'.size = x.size)
    (h : ∀ i < x.size, fileByte d' x' i = fileByte d x i) : contents d' x' = contents d x := by
  unfold contents
  rw [hsize]
  exact List.map_congr_left fun i hi => h i (List.mem_range.mp hi)

/-- Contents whose bytes are `src` laid over `f` from `off` on, up to the
end of both, are `f.overwrite off src`. -/
theorem contents_eq_overwrite {d : Disk} {x : DInode} {f src : List UInt8} {off : Nat}
    (hoff : off ≤ f.length) (hsize : x.size = max f.length (off + src.length))
    (h : ∀ i < x.size, fileByte d x i = if off ≤ i ∧ i < off + src.length then src.getD (i - off) 0
      else f.getD i 0) :
    contents d x = f.overwrite off src := by
  apply List.ext_getElem?
  intro i
  rw [List.getElem?_overwrite hoff]
  by_cases hi : i < x.size
  · have hc : (contents d x)[i]? = some (fileByte d x i) := by simp [contents, hi]
    rw [hc, h i hi]
    split_ifs with hin
    · rw [List.getD_eq_getElem?_getD, List.getElem?_eq_getElem (by omega)]
      rfl
    · rw [List.getD_eq_getElem?_getD, List.getElem?_eq_getElem (by omega)]
      rfl
  · have hc : (contents d x)[i]? = none := by simp [contents, hi]
    rw [hc]
    split_ifs with hin
    · exact (List.getElem?_eq_none (by omega)).symm
    · exact (List.getElem?_eq_none (by omega)).symm

/-- `readi` of a live file that has room returns the slice of its contents
that `readSpec` names, and changes none of them. -/
theorem readi_spec (hs : Safe s) (hl : (s.slot ip).live) (hroom : maxfile + 1 ≤ room s (s.slot ip).inum)
    (hsize : (s.slot ip).din.size ≤ maxfile * bsize) (off n : UInt32) :
    ∃ s', readi s ip off n = .ok (s', readSpec (contents s.disk (s.slot ip).din) off.toNat n.toNat) ∧
      Grows s s' ip ∧ contents s'.disk (s'.slot ip).din = contents s.disk (s.slot ip).din := by
  unfold readi readSpec
  simp only [length_contents, UInt32.add_lt_self_iff]
  by_cases hbad : (s.slot ip).din.size < off.toNat ∨ 2 ^ 32 ≤ off.toNat + n.toNat
  · rw [if_pos hbad, if_pos hbad]
    exact ⟨s, rfl, Grows.refl hs, rfl⟩
  rw [if_neg hbad, if_neg hbad]
  -- the count `readi` clips to the end of the file
  obtain ⟨m, hm⟩ : ∃ m, m = if (s.slot ip).din.size < off.toNat + n.toNat
      then (s.slot ip).din.size - off.toNat else n.toNat := ⟨_, rfl⟩
  have hmlen : m = min n.toNat ((s.slot ip).din.size - off.toNat) := by
    rw [hm]
    split_ifs <;> omega
  obtain ⟨s', hrun, hg, hbytes⟩ := @readiLoop_spec s ip m (m + 1) 0 off.toNat [] hs hl hroom
    (by omega) (by omega)
  refine ⟨s', ?_, hg, contents_congr hg.size_eq fun i hi => hbytes i (div_lt_maxfile (by omega))⟩
  simp only [← hm]
  rw [hrun]
  simp only [Except.ok_bind, List.nil_append, Nat.sub_zero]
  congr 3
  apply List.ext_getElem (by simp [hmlen])
  intro k hk _
  simp only [List.length_map, List.length_range] at hk
  simp [contents, hmlen] at hk ⊢

/-- `writei` of a live file that has room, at an offset within the file and
for bytes that end within `MAXFILE` blocks, returns their count and lays them
over the contents. -/
theorem writei_spec (hs : Safe s) (hl : (s.slot ip).live) (hroom : maxfile + 1 ≤ room s (s.slot ip).inum)
    (hsize : (s.slot ip).din.size ≤ maxfile * bsize) {src : List UInt8} {off : UInt32}
    (hoff : off.toNat ≤ (s.slot ip).din.size) (hend : off.toNat + src.length ≤ maxfile * bsize) :
    ∃ s', writei s ip src off = .ok (s', some src.length) ∧ Safe s' ∧
      s'.slot ip = { s.slot ip with din := (s'.slot ip).din } ∧
      contents s'.disk (s'.slot ip).din = (contents s.disk (s.slot ip).din).overwrite off.toNat src := by
  have hbound : maxfile * bsize < 2 ^ 32 := by decide
  have hn : (UInt32.ofNat src.length).toNat = src.length :=
    UInt32.toNat_ofNat_of_lt' (by simp only [UInt32.size]; omega)
  unfold writei
  simp only [hn, UInt32.add_lt_self_iff]
  rw [if_neg (by omega), if_neg (by omega)]
  obtain ⟨s₁, hrun, hg, hbytes⟩ := @writeiLoop_spec s ip src src.length (src.length + 1) 0 off.toNat
    hs hl hroom le_rfl (by omega) (by omega)
  rw [hrun, Except.ok_bind]
  simp only [Nat.sub_zero, Nat.zero_add] at hbytes ⊢
  have hl₁ : (s₁.slot ip).live := hg.live_eq ▸ hl
  have hip : ip < s₁.icache.length := lt_length_of_live hl₁
  -- a copy of the slot's dinode with its addresses and the size the write reaches
  have hcont : ∀ x' : DInode, x'.addrs = (s₁.slot ip).din.addrs →
      x'.size = max (s.slot ip).din.size (off.toNat + src.length) →
      contents s₁.disk x' = (contents s.disk (s.slot ip).din).overwrite off.toNat src := by
    intro x' haddrs hsize'
    refine contents_eq_overwrite (by simp only [length_contents]; exact hoff)
      (by rw [length_contents]; exact hsize') fun i hi => ?_
    have hi' : i / bsize < maxfile := div_lt_maxfile (by omega)
    rw [fileByte, refAt_congr_addrs haddrs, ← fileByte, hbytes i hi']
    split_ifs with hin
    · rfl
    · have hlt : i < (s.slot ip).din.size := by omega
      simp [contents, List.getD_eq_getElem?_getD, hlt]
  by_cases hgrow : 0 < src.length ∧ (s₁.slot ip).din.size < off.toNat + src.length
  · rw [if_pos hgrow]
    obtain ⟨hs₂, -⟩ := hg.safe.setDin_addrs hl₁ (y := { (s₁.slot ip).din with size := off.toNat + src.length })
      rfl rfl
    have hslot₂ := slot_setDin_self s₁ { (s₁.slot ip).din with size := off.toNat + src.length } hip
    obtain ⟨hs₃, -⟩ := hs₂.iupdate (by rw [hslot₂]; exact hl₁)
    refine ⟨_, rfl, hs₃, ?_, ?_⟩
    · rw [iupdate_slot, hslot₂, hg.slot_eq]
    · rw [iupdate_slot, iupdate_disk, setDin_disk, hslot₂]
      exact hcont _ rfl (by rw [hg.size_eq] at hgrow; simp only; omega)
  · rw [if_neg hgrow]
    refine ⟨s₁, rfl, hg.safe, hg.slot_eq, hcont _ rfl ?_⟩
    rw [hg.size_eq] at hgrow ⊢
    omega

/-- The contents model of files.  On a safe state, for a locked file of at
most `MAXFILE` blocks with room to grow to `MAXFILE` blocks, `writei` at an
offset within the file, of bytes that end within `MAXFILE` blocks, returns
their count, lays them over the contents and leaves the size at the larger of
the old size and their end; `readi` returns what `readSpec` names and changes
no byte of the contents. -/
theorem readi_writei_contents (hs : Safe s) (hlock : (s.slot ip).locked = true)
    (hsize : (s.slot ip).din.size ≤ maxfile * bsize) (hroom : maxfile + 1 ≤ room s (s.slot ip).inum) :
    (∀ (src : List UInt8) (off : UInt32), off.toNat ≤ (s.slot ip).din.size →
      off.toNat + src.length ≤ maxfile * bsize →
      ∃ s', writei s ip src off = .ok (s', some src.length) ∧
        (s'.slot ip).din.size = max (s.slot ip).din.size (off.toNat + src.length) ∧
        contents s'.disk (s'.slot ip).din = (contents s.disk (s.slot ip).din).overwrite off.toNat src) ∧
    ∀ off n : UInt32, ∃ s',
      readi s ip off n = .ok (s', readSpec (contents s.disk (s.slot ip).din) off.toNat n.toNat) ∧
      contents s'.disk (s'.slot ip).din = contents s.disk (s.slot ip).din := by
  have hl := hs.locked_live ip hlock
  refine ⟨fun src off hoff hend => ?_, fun off n => ?_⟩
  · obtain ⟨s', hw, -, -, hc⟩ := writei_spec hs hl hroom hsize hoff hend
    refine ⟨s', hw, ?_, hc⟩
    have hlen := congrArg List.length hc
    rwa [length_contents, List.length_overwrite (by rw [length_contents]; exact hoff),
      length_contents] at hlen
  · obtain ⟨s', hr, -, hc⟩ := readi_spec hs hl hroom hsize off n
    exact ⟨s', hr, hc⟩

end Calls

/-! ## An empty file

A state with one empty regular file, inode `2`, locked in slot `0`, on a
disk whose bitmap marks the metadata blocks and nothing else, or every block.
-/

section EmptyFile

/-- A disk that is zero but for the bitmap block: every bit set when `full`,
else the bits of the blocks below `nmeta` (seven bytes and three bits). -/
def bitmapDisk (full : Bool) : Disk := fun a =>
  if bmapBase ≤ a ∧ a < bmapBase + bsize then
    if full || decide (a < bmapBase + 7) then 0xFF else if a = bmapBase + 7 then 0x07 else 0
  else 0

def emptyFile : DInode := { DInode.zero with type := .file, nlink := 1 }

def emptyFileSlot : Slot := { inum := 2, ref := 1, valid := true, locked := true, din := emptyFile }

def emptyFileState (full : Bool) : State where
  disk := bitmapDisk full
  dinodes := Function.update (fun _ => DInode.zero) 2 emptyFile
  icache := [emptyFileSlot]

variable {full : Bool}

theorem emptyFileState_slot (j : Nat) :
    (emptyFileState full).slot j = if j = 0 then emptyFileSlot else default := by
  cases j <;> rfl

theorem emptyFileState_owned (o : Nat × Pos) : owned (emptyFileState full) o = 0 := by
  obtain ⟨inum, p⟩ := o
  have hview : ∀ i, (view (emptyFileState full) inum).addr i = 0 := fun i => by
    unfold view
    split
    · rename_i e he
      rw [List.mem_singleton.mp (List.mem_of_find?_eq_some he)]
      exact DInode.addr_zero i
    · show (Function.update (fun _ => DInode.zero) 2 emptyFile inum).addr i = 0
      rw [Function.update_apply]
      split_ifs
      · exact DInode.addr_zero i
      · exact DInode.addr_zero i
  rw [owned_mk]
  split_ifs
  · rfl
  · cases p <;> simp [refAt, hview]

theorem emptyFileState_safe : Safe (emptyFileState full) := by
  have hslot := @emptyFileState_slot full
  -- only slot `0` holds a reference; the default slot is neither live nor locked
  have hdef : (default : Slot).live = false ∧ (default : Slot).locked = false ∧
      ¬0 < (default : Slot).ref := by decide
  refine ⟨⟨fun o h => absurd (emptyFileState_owned o) h, fun o _ _ h => absurd (emptyFileState_owned o) h⟩,
    ?_, fun o h => absurd (emptyFileState_owned o) h, fun j k hj hk _ => ?_, fun j hj => ?_,
    fun j hj => ?_, fun j hj => ?_⟩
  · cases full <;> decide
  · rw [hslot] at hj hk
    split_ifs at hj hk with h1 h2 h2
    · rw [h1, h2]
    all_goals exact absurd ‹0 < (default : Slot).ref› hdef.2.2
  · rw [hslot] at hj ⊢
    split_ifs at hj ⊢
    · decide
    · exact absurd hj (by rw [hdef.1]; decide)
  · rw [hslot] at hj ⊢
    split_ifs at hj ⊢
    · show Coherent (Function.update (fun _ => DInode.zero) 2 emptyFile 2) emptyFile
      rw [Function.update_self]
      exact Coherent.refl _
    · exact absurd hj (by rw [hdef.1]; decide)
  · rw [hslot] at hj ⊢
    split_ifs at hj ⊢
    · decide
    · exact absurd hj (by rw [hdef.2.1]; decide)

theorem emptyFileState_room : maxfile + 1 ≤ room (emptyFileState false) 2 := by
  have hheld : Allocation.nheld (fun p => owned (emptyFileState false) (2, p)) = 0 := by
    simp [Allocation.nheld, emptyFileState_owned]
  rw [room, hheld, Nat.add_zero]
  decide +kernel

theorem readi_writei_contents_emptyFile :
    Safe (emptyFileState false) ∧ ((emptyFileState false).slot 0).locked = true ∧
    ((emptyFileState false).slot 0).din.size ≤ maxfile * bsize ∧
    maxfile + 1 ≤ room (emptyFileState false) ((emptyFileState false).slot 0).inum ∧
    ((∀ (src : List UInt8) (off : UInt32), off.toNat ≤ ((emptyFileState false).slot 0).din.size →
      off.toNat + src.length ≤ maxfile * bsize →
      ∃ s', writei (emptyFileState false) 0 src off = .ok (s', some src.length) ∧
        (s'.slot 0).din.size = max ((emptyFileState false).slot 0).din.size (off.toNat + src.length) ∧
        contents s'.disk (s'.slot 0).din =
          (contents (emptyFileState false).disk ((emptyFileState false).slot 0).din).overwrite off.toNat src) ∧
    ∀ off n : UInt32, ∃ s',
      readi (emptyFileState false) 0 off n =
        .ok (s', readSpec (contents (emptyFileState false).disk ((emptyFileState false).slot 0).din)
          off.toNat n.toNat) ∧
      contents s'.disk (s'.slot 0).din =
        contents (emptyFileState false).disk ((emptyFileState false).slot 0).din) :=
  ⟨emptyFileState_safe, rfl, by decide, emptyFileState_room,
    readi_writei_contents emptyFileState_safe rfl (by decide) emptyFileState_room⟩

/-- On a full disk, `writei` of one byte at the start of an empty file
panics: the contents model needs room to grow. -/
theorem writei_full_disk_panics :
    Safe (emptyFileState true) ∧ ((emptyFileState true).slot 0).locked = true ∧
    writei (emptyFileState true) 0 [0] 0 = .error (.panic "balloc: out of blocks") := by
  refine ⟨emptyFileState_safe, rfl, ?_⟩
  have hfull : balloc (bitmapDisk true) = .error (.panic "balloc: out of blocks") :=
    balloc_full (by decide +kernel)
  have haddr : ∀ i, emptyFile.addr i = 0 := DInode.addr_zero
  simp [writei, writeiLoop, bmap, emptyFileState, State.slot, emptyFileSlot, haddr, hfull]

end EmptyFile

/-! ## A hole in the root directory

`mkfs` rounds the root's size up past its last block.  With thirty host
files the root's thirty-two records fill block `0` of it exactly, its size
becomes `1024`, and its block `1` is a hole.  Reading the hole, as
`dirlookup` does, allocates block `60` into the cached copy alone
(`readi_dinodes`); the dinode never names it, and once the slot is recycled
no inode does, while the bitmap marks it.
-/

section RootHole

/-- Thirty empty host files, named `A` to `^`. -/
def hostFiles : List (List UInt8 × List UInt8) :=
  (List.range 30).map fun i => ([UInt8.ofNat (65 + i)], [])

/-- The root of the image of `hostFiles`, read at offset `512` and unlocked. -/
def holeRead : Except Fault State := do
  let s ← mkfsState hostFiles
  let (s, ip) ← iget s rootino
  let s ← ilock s ip
  let (s, _) ← readi s ip 512 16
  iunlock s ip

/-- Then the root's last reference dropped and its slot taken for inode `2`. -/
def holeLeak : Except Fault State := do
  let s ← holeRead
  let s ← iput s 0
  let (s, _) ← iget s 2
  pure s

/-- Block `b` is marked, no slot is live, and no dinode below `ninodes` names
`b` or has an indirect block. -/
def unheldCheck (b : Nat) (s : State) : Bool :=
  marked s.disk b && s.icache.all (fun e => !e.live) &&
    (List.range sb.ninodes).all fun inum =>
      (List.range (ndirect + 1)).all (fun i => (s.dinodes inum).addr i != b) &&
        (s.dinodes inum).addr ndirect == 0

/-- With no live slot, a block that no dinode names and that is no entry of
an indirect block is held nowhere. -/
theorem owned_ne_of_dinodes {s : State} {b inum : Nat} (hlive : ∀ e ∈ s.icache, e.live = false)
    (haddr : ∀ i < ndirect + 1, (s.dinodes inum).addr i ≠ b) (hind : (s.dinodes inum).addr ndirect = 0)
    (hb : b ≠ 0) (p : Pos) : owned s (inum, p) ≠ b := by
  rw [owned_mk, view_of_no_live hlive]
  split_ifs
  · exact hb.symm
  · cases p with
    | direct i => exact haddr i (by omega)
    | indirect => exact haddr ndirect (by omega)
    | entry j =>
      simp only [refAt, hind, if_true]
      exact hb.symm

theorem mkfs_root_hole_leaks :
    ∃ s, holeLeak = .ok s ∧ marked s.disk 60 = true ∧ nmeta ≤ 60 ∧
      ∀ o : Nat × Pos, o.1 < sb.ninodes → owned s o ≠ 60 := by
  have hcheck : holeLeak.toOption.any (unheldCheck 60) = true := by decide +kernel
  obtain ⟨s, hrun, hc⟩ := Except.exists_of_toOption_any hcheck
  simp only [unheldCheck, Bool.and_eq_true, List.all_eq_true, List.mem_range, Bool.not_eq_true',
    bne_iff_ne, beq_iff_eq] at hc
  obtain ⟨⟨hmarked, hlive⟩, hinodes⟩ := hc
  refine ⟨s, hrun, hmarked, by decide, ?_⟩
  rintro ⟨inum, p⟩ hinum
  obtain ⟨haddr, hind⟩ := hinodes inum hinum
  exact owned_ne_of_dinodes hlive haddr hind (by decide) p

theorem root_hole_not_written_back :
    ∃ s, holeRead = .ok s ∧ 0 < (s.slot 0).ref ∧ (s.slot 0).valid = true ∧ (s.slot 0).locked = false ∧
      (s.slot 0).inum = rootino ∧ (s.slot 0).din.addr 1 = 60 ∧ (s.dinodes rootino).addr 1 = 0 := by
  have hcheck : holeRead.toOption.any (fun s => decide (0 < (s.slot 0).ref ∧ (s.slot 0).valid = true ∧
      (s.slot 0).locked = false ∧ (s.slot 0).inum = rootino ∧ (s.slot 0).din.addr 1 = 60 ∧
      (s.dinodes rootino).addr 1 = 0)) = true := by decide +kernel
  obtain ⟨s, hrun, hc⟩ := Except.exists_of_toOption_any hcheck
  exact ⟨s, hrun, of_decide_eq_true hc⟩

end RootHole

end Block

end Xv6
