import Xv6.BlockFs
import Xv6.SysFile

/-!
# The blocks a transaction logs

Every block the file system changes goes to `log_write` inside a
transaction, and the log admits an operation on the promise that it logs at
most `MAXOPBLOCKS` distinct blocks.  The functions below are those of the
block layer with the blocks they pass to `log_write`, in order: the bitmap
block and the cleared block of each `balloc`, the indirect block when
`bmap` fills one of its entries, each data block `writei` writes, and the
inode block of the `iupdate` that grows the file.  Dropping the list gives
back the model's own function.

`filewrite` cuts a write into chunks of `((MAXOPBLOCKS-1-1-2)/2) * BSIZE`
bytes, one transaction each.  A chunk at any offset touches at most four
blocks of the file, and each of them brings at most one indirect block of
its own along, so with the bitmap block and the inode block a transaction
logs at most `MAXOPBLOCKS` blocks, whatever the state.
-/

namespace Xv6

namespace Block

open ByteStore State

/-- `sb.inodestart`: the inode blocks follow the boot block, the superblock
and the log. -/
def inodestart : Nat := 2 + nlog

/-- `IBLOCK(i, sb)`: the block that holds dinode `i`. -/
def iblock (inum : Nat) : Nat := inum / ipb + inodestart

/-! ## The logged block layer -/

/-- `balloc` with what it logs: the bitmap block that marks the new block,
then the new block, which `bzero` clears. -/
def ballocLogged (d : Disk) : Except Fault (Disk × Nat × List Nat) :=
  match ballocLoop d (sb.size / bpb + 1) 0 with
  | some (b, bi) =>
    let a := bblock b * bsize + bi / 8
    let d := write d a [d a ||| mask bi]
    .ok (bzero d (b + bi), b + bi, [bblock b, b + bi])
  | none => .error (.panic "balloc: out of blocks")

/-- The first half of the indirect case of `bmap` with what it logs: the
allocation of the indirect block, if there is none. -/
def bmapLoadIndirectLogged (s : State) (ip : Nat) : Except Fault (State × Nat × List Nat) :=
  if (s.slot ip).din.addr ndirect = 0 then do
    let (d, a, l) ← ballocLogged s.disk
    pure ((s.setDisk d).setAddr ip ndirect a, a, l)
  else pure (s, (s.slot ip).din.addr ndirect, [])

/-- The second half with what it logs: the allocation of entry `bn` of the
indirect block `ind`, then `ind` itself, whose entry it writes. -/
def bmapEntryLogged (s : State) (ind bn : Nat) : Except Fault (State × Nat × List Nat) :=
  let addr := wordOf (read s.disk (ind * bsize + 4 * bn) 4)
  if addr = 0 then do
    let (d, addr, l) ← ballocLogged s.disk
    .ok (s.setDisk (write d (ind * bsize + 4 * bn) (wordBytes addr)), addr, l ++ [ind])
  else .ok (s, addr, [])

/-- `bmap` with what it logs, its indirect case in the two halves of
`bmap_indirect`. -/
def bmapLogged (s : State) (ip bn : Nat) : Except Fault (State × Nat × List Nat) :=
  if bn < ndirect then
    let addr := (s.slot ip).din.addr bn
    if addr = 0 then do
      let (d, addr, l) ← ballocLogged s.disk
      .ok ((s.setDisk d).setAddr ip bn addr, addr, l)
    else .ok (s, addr, [])
  else if bn - ndirect < nindirect then do
    let (s, ind, l₁) ← bmapLoadIndirectLogged s ip
    let (s, addr, l₂) ← bmapEntryLogged s ind (bn - ndirect)
    .ok (s, addr, l₁ ++ l₂)
  else .error (.panic "bmap: out of range")

/-- The loop of `writei` with what it logs: per round, what `bmap` logs and
the data block. -/
def writeiLoopLogged (ip : Nat) (src : List UInt8) (n : Nat) : Nat → State → Nat → Nat →
    Except Fault (State × Nat × List Nat)
  | 0, _, _, _ => .error .hang
  | fuel + 1, s, tot, off =>
    if tot < n then do
      let (s, b, l₁) ← bmapLogged s ip (off / bsize)
      let m := min (n - tot) (bsize - off % bsize)
      let s := s.setDisk (write s.disk (b * bsize + off % bsize) ((src.drop tot).take m))
      let (s, off, l₂) ← writeiLoopLogged ip src n fuel s (tot + m) (off + m)
      .ok (s, off, l₁ ++ b :: l₂)
    else .ok (s, off, [])

/-- `writei` with what it logs: the loop's blocks, and the inode block when
the size grows. -/
def writeiLogged (s : State) (ip : Nat) (src : List UInt8) (off : UInt32) :
    Except Fault (State × Option Nat × List Nat) :=
  let n : UInt32 := UInt32.ofNat src.length
  let x := (s.slot ip).din
  if x.size < off.toNat ∨ off + n < off then .ok (s, none, [])
  else if maxfile * bsize < off.toNat + n.toNat then .ok (s, none, [])
  else do
    let (s, off, l) ← writeiLoopLogged ip src n.toNat (n.toNat + 1) s 0 off.toNat
    if 0 < n.toNat ∧ (s.slot ip).din.size < off then
      pure (iupdate (s.setDin ip { (s.slot ip).din with size := off }) ip, some n.toNat,
        l ++ [iblock (s.slot ip).inum])
    else pure (s, some n.toNat, l)

/-! ## Dropping the log -/

section Erase

variable {s s' : State} {d : Disk} {ip bn : Nat}

/-- The outer loop of `balloc` runs once, at bitmap block `bblock 0`. -/
theorem ballocLogged_eq (d : Disk) :
    ballocLogged d = (balloc d).map fun r => (r.1, r.2, [sb.bmapstart, r.2]) := by
  unfold ballocLogged balloc
  rw [ballocLoop_eq]
  cases ballocScan d 0 bpb 0 <;> rfl

theorem bmapLoadIndirectLogged_map (s : State) (ip : Nat) :
    (bmapLoadIndirectLogged s ip).map (fun r => (r.1, r.2.1)) = bmapLoadIndirect s ip := by
  unfold bmapLoadIndirectLogged bmapLoadIndirect
  simp only [ballocLogged_eq]
  split_ifs <;> cases balloc s.disk <;> rfl

theorem bmapEntryLogged_map (s : State) (ind bn : Nat) :
    (bmapEntryLogged s ind bn).map (fun r => (r.1, r.2.1)) = bmapEntry s ind bn := by
  unfold bmapEntryLogged bmapEntry
  simp only [ballocLogged_eq]
  split_ifs <;> cases balloc s.disk <;> rfl

theorem bmapLogged_map (s : State) (ip bn : Nat) :
    (bmapLogged s ip bn).map (fun r => (r.1, r.2.1)) = bmap s ip bn := by
  by_cases h₁ : bn < ndirect
  · unfold bmapLogged bmap
    simp only [ballocLogged_eq, if_pos h₁]
    split_ifs <;> cases balloc s.disk <;> rfl
  by_cases h₂ : bn - ndirect < nindirect
  · rw [bmap_indirect h₁ h₂, ← bmapLoadIndirectLogged_map]
    unfold bmapLogged
    rw [if_neg h₁, if_pos h₂]
    cases bmapLoadIndirectLogged s ip with
    | error e => rfl
    | ok r =>
      obtain ⟨s₁, ind, l₁⟩ := r
      change _ = bmapEntry s₁ ind (bn - ndirect)
      rw [← bmapEntryLogged_map]
      simp only [Except.ok_bind]
      cases bmapEntryLogged s₁ ind (bn - ndirect) <;> rfl
  · unfold bmapLogged bmap
    rw [if_neg h₁, if_neg h₂, if_neg h₁, if_neg h₂]
    rfl

theorem writeiLoopLogged_map (ip : Nat) (src : List UInt8) (n fuel : Nat) (s : State)
    (tot off : Nat) :
    (writeiLoopLogged ip src n fuel s tot off).map (fun r => (r.1, r.2.1)) =
      writeiLoop ip src n fuel s tot off := by
  induction fuel generalizing s tot off with
  | zero => rfl
  | succ fuel ih =>
    unfold writeiLoopLogged writeiLoop
    split_ifs with htot
    · rw [← bmapLogged_map]
      cases bmapLogged s ip (off / bsize) with
      | error e => rfl
      | ok r =>
        obtain ⟨s₁, b, l₁⟩ := r
        simp only [Except.map, Except.ok_bind]
        rw [← ih]
        cases writeiLoopLogged ip src n fuel _ _ _ <;> rfl
    · rfl

theorem writeiLogged_map (s : State) (ip : Nat) (src : List UInt8) (off : UInt32) :
    (writeiLogged s ip src off).map (fun r => (r.1, r.2.1)) = writei s ip src off := by
  unfold writeiLogged writei
  dsimp only
  split_ifs
  · rfl
  · rfl
  · rw [← writeiLoopLogged_map]
    cases writeiLoopLogged ip src _ _ s 0 off.toNat with
    | error e => rfl
    | ok r =>
      obtain ⟨s₁, off', l⟩ := r
      simp only [Except.map, Except.ok_bind]
      split_ifs <;> rfl

end Erase

/-! ## What one transaction logs -/

/-- `max` of `filewrite`: the bytes of one transaction, leaving room for the
inode, the indirect block, the allocation blocks and two blocks of slop for
a write that is not aligned. -/
def filewriteMax : Nat := (maxopblocks - 1 - 1 - 2) / 2 * bsize

/-- The blocks of a file that `n` bytes from offset `off` lie in. -/
def blocksSpanned (off n : Nat) : Nat :=
  if n = 0 then 0 else (off + n - 1) / bsize - off / bsize + 1

/-- A round of `writei` takes the rest of one block. -/
theorem blocksSpanned_round (off : Nat) {k : Nat} (hk : 0 < k) :
    blocksSpanned off k =
      blocksSpanned (off + min k (bsize - off % bsize)) (k - min k (bsize - off % bsize)) + 1 := by
  unfold blocksSpanned
  rw [if_neg (Nat.pos_iff_ne_zero.mp hk)]
  by_cases hfit : k ≤ bsize - off % bsize
  · -- the write ends in this block
    simp only [min_eq_left hfit, Nat.sub_self]
    rw [if_pos trivial]
    simp only [bsize_eq] at hfit ⊢
    omega
  · -- the next round starts at the next block
    have hmore : k - (bsize - off % bsize) ≠ 0 := by omega
    simp only [min_eq_right (Nat.le_of_not_le hfit)]
    rw [if_neg hmore]
    simp only [bsize_eq] at hfit ⊢
    omega

/-- A chunk of `filewrite` lies in at most four blocks, wherever it starts. -/
theorem blocksSpanned_le_four (off : Nat) {k : Nat} (hk : k ≤ filewriteMax) :
    blocksSpanned off k ≤ 4 := by
  simp only [filewriteMax, maxopblocks, bsize_eq] at hk
  simp only [blocksSpanned, bsize_eq]
  split_ifs <;> omega

section Footprint

variable {s s' : State} {d d' : Disk} {ip : Nat} {l : List Nat}

theorem ballocLogged_log {x : Nat} (h : ballocLogged d = .ok (d', x, l)) :
    l = [sb.bmapstart, x] := by
  rw [ballocLogged_eq] at h
  cases hb : balloc d with
  | error e => simp [hb, Except.map] at h
  | ok r =>
    simp only [hb, Except.map, Except.ok.injEq, Prod.mk.injEq] at h
    obtain ⟨-, rfl, rfl⟩ := h
    rfl

theorem bmapLoadIndirectLogged_log {ind : Nat} (h : bmapLoadIndirectLogged s ip = .ok (s', ind, l)) :
    ∀ y ∈ l, y = sb.bmapstart ∨ y = ind := by
  unfold bmapLoadIndirectLogged at h
  split_ifs at h
  · obtain ⟨⟨d, a, l₀⟩, hb, h⟩ := Except.bind_eq_ok_iff.mp h
    cases h
    rw [ballocLogged_log hb]
    simp
  · cases h
    simp

theorem bmapEntryLogged_log {ind bn b : Nat} (h : bmapEntryLogged s ind bn = .ok (s', b, l)) :
    ∀ y ∈ l, y = sb.bmapstart ∨ y = b ∨ y = ind := by
  unfold bmapEntryLogged at h
  dsimp only at h
  split_ifs at h
  · obtain ⟨⟨d, a, l₀⟩, hb, h⟩ := Except.bind_eq_ok_iff.mp h
    cases h
    rw [ballocLogged_log hb]
    simp
  · cases h
    simp

/-- Besides the bitmap block, `bmap` logs the block it returns and one
indirect block. -/
theorem bmapLogged_log {bn b : Nat} (h : bmapLogged s ip bn = .ok (s', b, l)) :
    ∃ ind, ∀ y ∈ l, y = sb.bmapstart ∨ y = b ∨ y = ind := by
  unfold bmapLogged at h
  dsimp only at h
  split_ifs at h
  · obtain ⟨⟨d, a, l₀⟩, hb, h⟩ := Except.bind_eq_ok_iff.mp h
    cases h
    rw [ballocLogged_log hb]
    exact ⟨0, by simp⟩
  · cases h
    exact ⟨0, by simp⟩
  · obtain ⟨⟨s₁, ind, l₁⟩, hload, h⟩ := Except.bind_eq_ok_iff.mp h
    obtain ⟨⟨s₂, b₂, l₂⟩, hentry, h⟩ := Except.bind_eq_ok_iff.mp h
    cases h
    refine ⟨ind, fun y hy => ?_⟩
    rcases List.mem_append.mp hy with hy | hy
    · rcases bmapLoadIndirectLogged_log hload y hy with h | h
      · exact .inl h
      · exact .inr (.inr h)
    · exact bmapEntryLogged_log hentry y hy

/-- Over the rounds of `writei`, besides the bitmap block, two blocks a
round: its data block and its indirect block. -/
theorem writeiLoopLogged_log {src : List UInt8} {n fuel tot off off' : Nat}
    (h : writeiLoopLogged ip src n fuel s tot off = .ok (s', off', l)) :
    ∃ E : List Nat, E.length ≤ 2 * blocksSpanned off (n - tot) ∧
      ∀ y ∈ l, y = sb.bmapstart ∨ y ∈ E := by
  induction fuel generalizing s tot off l with
  | zero => cases h
  | succ fuel ih =>
    unfold writeiLoopLogged at h
    split_ifs at h with htot
    · obtain ⟨⟨s₁, b, l₁⟩, hbmap, h⟩ := Except.bind_eq_ok_iff.mp h
      obtain ⟨⟨s₂, off₂, l₂⟩, hrest, h⟩ := Except.bind_eq_ok_iff.mp h
      cases h
      obtain ⟨ind, hl₁⟩ := bmapLogged_log hbmap
      obtain ⟨E, hlen, hE⟩ := ih hrest
      refine ⟨b :: ind :: E, ?_, fun y hy => ?_⟩
      · -- the rest of the write starts where this round's block ends
        have hround := blocksSpanned_round off (Nat.sub_pos_of_lt htot)
        have hrest : n - (tot + min (n - tot) (bsize - off % bsize)) =
            n - tot - min (n - tot) (bsize - off % bsize) := by omega
        rw [hrest] at hlen
        simp only [List.length_cons]
        omega
      · rcases List.mem_append.mp hy with hy | hy
        · rcases hl₁ y hy with h | h | h
          · exact .inl h
          · exact .inr (by simp [h])
          · exact .inr (by simp [h])
        · rcases List.mem_cons.mp hy with h | hy
          · exact .inr (by simp [h])
          · rcases hE y hy with h | h
            · exact .inl h
            · exact .inr (by simp [h])
    · cases h
      exact ⟨[], by simp, by simp⟩

/-- A `writei` of at most a chunk of `filewrite` logs at most
`MAXOPBLOCKS` distinct blocks, from any state and at any offset. -/
theorem writeiLogged_log {src : List UInt8} {off : UInt32} {r : Option Nat}
    (h : writeiLogged s ip src off = .ok (s', r, l)) (hn : src.length ≤ filewriteMax) :
    l.toFinset.card ≤ maxopblocks := by
  unfold writeiLogged at h
  dsimp only at h
  split_ifs at h with h₁ h₂
  · cases h
    simp
  · cases h
    simp
  obtain ⟨⟨s₁, off₁, l₁⟩, hloop, h⟩ := Except.bind_eq_ok_iff.mp h
  obtain ⟨E, hlen, hE⟩ := writeiLoopLogged_log hloop
  have hsrc : (UInt32.ofNat src.length).toNat = src.length := by
    simp only [filewriteMax, maxopblocks, bsize_eq] at hn
    rw [UInt32.toNat_ofNat', Nat.mod_eq_of_lt (by omega)]
  rw [hsrc, Nat.sub_zero] at hlen
  have hspan := blocksSpanned_le_four off.toNat hn
  -- the loop's blocks, and the inode block when the size grows
  have hsub : l.toFinset ⊆ insert sb.bmapstart (insert (iblock (s₁.slot ip).inum) E.toFinset) := by
    intro y hy
    rw [List.mem_toFinset] at hy
    simp only [Finset.mem_insert, List.mem_toFinset]
    split_ifs at h
    · cases h
      rcases List.mem_append.mp hy with hy | hy
      · rcases hE y hy with h | h
        · exact .inl h
        · exact .inr (.inr h)
      · exact .inr (.inl (List.mem_singleton.mp hy))
    · cases h
      rcases hE y hy with h | h
      · exact .inl h
      · exact .inr (.inr h)
  calc l.toFinset.card
      ≤ (insert sb.bmapstart (insert (iblock (s₁.slot ip).inum) E.toFinset)).card :=
        Finset.card_le_card hsub
    _ ≤ E.toFinset.card + 2 := by
        refine (Finset.card_insert_le _ _).trans ?_
        exact Nat.add_le_add_right (Finset.card_insert_le _ _) 1
    _ ≤ E.length + 2 := Nat.add_le_add_right (List.toFinset_card_le E) 2
    _ ≤ maxopblocks := by
        simp only [maxopblocks]
        omega

/-! ## `filewrite` -/

/-- The `FD_INODE` branch of `filewrite` on the inode of slot `ip`, from
file offset `off` with `i` bytes of `src` written: each chunk runs in a
transaction of its own, and the list holds the blocks each transaction
logs.  It returns the state, the offset, the bytes written and the
transactions. -/
def filewriteLoop (ip : Nat) (src : List UInt8) :
    Nat → State → Nat → Nat → Except Fault (State × Nat × Nat × List (List Nat))
  | 0, _, _, _ => .error .hang
  | fuel + 1, s, off, i =>
    if i < src.length then do
      let n1 := min (src.length - i) filewriteMax
      let s ← ilock s ip
      let (s, r, l) ← writeiLogged s ip ((src.drop i).take n1) (UInt32.ofNat off)
      -- `f->off += r` for a positive count
      let off := off + r.getD 0
      let s ← iunlock s ip
      match r with
      | none => .ok (s, off, i, [l])
      | some r =>
        if r ≠ n1 then .error (.panic "short filewrite")
        else do
          let (s, off, i, ls) ← filewriteLoop ip src fuel s off (i + r)
          .ok (s, off, i, l :: ls)
    else .ok (s, off, i, [])

/-- Every transaction of `filewrite` logs at most `MAXOPBLOCKS` distinct
blocks, from any state. -/
theorem filewriteLoop_log {src : List UInt8} {fuel off i off' i' : Nat}
    {ls : List (List Nat)} (h : filewriteLoop ip src fuel s off i = .ok (s', off', i', ls)) :
    ∀ l ∈ ls, l.toFinset.card ≤ maxopblocks := by
  induction fuel generalizing s off i ls with
  | zero => cases h
  | succ fuel ih =>
    unfold filewriteLoop at h
    split_ifs at h with hi
    · obtain ⟨s₁, -, h⟩ := Except.bind_eq_ok_iff.mp h
      obtain ⟨⟨s₂, r, l⟩, hwrite, h⟩ := Except.bind_eq_ok_iff.mp h
      obtain ⟨s₃, -, h⟩ := Except.bind_eq_ok_iff.mp h
      -- the chunk is at most `max` bytes
      have hchunk := writeiLogged_log hwrite
        (by rw [List.length_take]; exact min_le_of_left_le (min_le_right _ _))
      cases r with
      | none =>
        cases h
        simpa using hchunk
      | some r =>
        simp only [] at h
        split_ifs at h
        obtain ⟨⟨s₄, off₄, i₄, ls₄⟩, hrest, h⟩ := Except.bind_eq_ok_iff.mp h
        cases h
        intro l' hl'
        rcases List.mem_cons.mp hl' with rfl | hl'
        · exact hchunk
        · exact ih hrest l' hl'
    · cases h
      simp

end Footprint

end Block

end Xv6
