import Xv6.Bio
import Xv6.Log

/-!
# The log and the buffer cache together

`log_write` writes nothing to the disk: it records the block number in the
header of the open transaction (once, however often the block is written:
absorption) and sets `B_DIRTY` on the caller's buffer.  The flag pins the
buffer in the cache, since `bget` recycles only a buffer with no reference
and no `B_DIRTY`.  `commit` copies the block to the log, and
`install_trans` writes it home with `bwrite`, whose disk interrupt clears
the flag.

The system is the log, the cache and the disk queue `idequeue`, with a step
for each atomic action of any process.  The file-system code calls
`log_write` on a buffer `bread` returned, for a block outside the log, and
`bwrite` only in `commit`: on a log block (`write_log`, `write_head`) or on
the home block of the entry `install_trans` installs next.  Two ghost fields
record the calls `log_write` received since the last commit, each with its
buffer, and how many entries `install_trans` has written.

`log_absorption` says that in every reachable state the header's block
numbers are distinct and are exactly those passed to `log_write` since the
last commit, and that each buffer passed to `log_write` holds its block
with `B_DIRTY` set until `install_trans` writes that block.
-/

namespace Xv6.LogBuffers

open Logging Bio

/-- `ROOTDEV`, the device of the file system and of its log. -/
def rootdev : Nat := 1

/-- A block of the log region: the header and the log blocks. -/
def InLog (l : Log) (blockno : Nat) : Prop := l.start ≤ blockno ∧ blockno < l.start + l.size

instance (l : Log) (blockno : Nat) : Decidable (InLog l blockno) :=
  inferInstanceAs (Decidable (_ ∧ _))

/-- The log, the cache and the disk queue, with two ghost fields. -/
structure Sys where
  log : Log
  cache : BCache
  idequeue : List BufId
  /-- The `log_write` calls since the last commit: block and buffer. -/
  passed : List (Nat × BufId)
  /-- The entries of the header that `install_trans` has written. -/
  installed : Nat

/-- After boot: the log of `initlog`, the cache of `binit`, no disk
request. -/
def init : Sys := { log := initlog, cache := binit, idequeue := [], passed := [], installed := 0 }

/-- A buffer its holder got from `bread`: referenced, valid, and not
waiting for the disk. -/
def Ready (s : Sys) (b : BufId) : Prop :=
  0 < (s.cache.buf b).refcnt ∧ (s.cache.buf b).valid = true ∧ b ∉ s.idequeue

/-- The atomic actions of the processes on the log, the cache and the disk
queue. -/
inductive Step : Sys → Sys → Prop
  | beginOp {s : Sys} {l : Log} (h : beginOp s.log = some l) : Step s { s with log := l }
  | endOp {s : Sys} {l : Log} {commit : Bool} (h : endOp s.log = .ok (l, commit)) :
      Step s { s with log := l }
  | bget {s : Sys} {c : BCache} {dev blockno : Nat} {b : BufId}
      (h : Bio.bget s.cache dev blockno = .ok (c, b)) : Step s { s with cache := c }
  | brelse {s : Sys} {b : BufId} (hb : 0 < (s.cache.buf b).refcnt) :
      Step s { s with cache := Bio.brelse s.cache b }
  /-- `bread`'s `iderw` of a buffer that is not valid. -/
  | read {s : Sys} {b : BufId} (hb : 0 < (s.cache.buf b).refcnt)
      (hv : (s.cache.buf b).valid = false) (hq : b ∉ s.idequeue) :
      Step s { s with idequeue := s.idequeue ++ [b] }
  /-- The disk finishes the request at the head of the queue. -/
  | ideintr {s : Sys} {b : BufId} {rest : List BufId} (hq : s.idequeue = b :: rest) :
      Step s { s with cache := Bio.ideintr s.cache b, idequeue := rest }
  | logWrite {s : Sys} {b : BufId} {l : Log} (hb : Ready s b) (hdev : (s.cache.buf b).dev = rootdev)
      (hout : ¬InLog s.log (s.cache.buf b).blockno)
      (h : logWrite s.log (s.cache.buf b).blockno = .ok l) :
      Step s { s with
        log := l
        cache := markDirty s.cache b
        passed := s.passed ++ [((s.cache.buf b).blockno, b)] }
  /-- `bwrite` of a log block, by `write_log` or `write_head`. -/
  | writeLog {s : Sys} {b : BufId} (hc : s.log.committing = true)
      (hb : 0 < (s.cache.buf b).refcnt) (hq : b ∉ s.idequeue)
      (hin : InLog s.log (s.cache.buf b).blockno) :
      Step s { s with cache := markDirty s.cache b, idequeue := s.idequeue ++ [b] }
  /-- `install_trans`'s `bwrite` of the home block of the next entry. -/
  | install {s : Sys} {b : BufId} (hc : s.log.committing = true)
      (hi : s.installed < s.log.lh.length) (hblk : (s.cache.buf b).blockno = s.log.lh[s.installed])
      (hb : 0 < (s.cache.buf b).refcnt) (hq : b ∉ s.idequeue) :
      Step s { s with
        cache := markDirty s.cache b
        idequeue := s.idequeue ++ [b]
        installed := s.installed + 1 }
  /-- `log.lh.n = 0` once every entry is installed, and `end_op` clears
  `log.committing`. -/
  | endCommit {s : Sys} (hc : s.log.committing = true) (hall : s.installed = s.log.lh.length) :
      Step s { s with log := endCommit s.log, passed := [], installed := 0 }

inductive Reachable : Sys → Prop
  | init : Reachable init
  | step {s s' : Sys} : Reachable s → Step s s' → Reachable s'

/-! ## The pin -/

/-- A buffer pinned for the block `x`: it holds `x` on the log's device,
valid and dirty. -/
def Pin (y : Buf) (x : Nat) : Prop :=
  y.dev = rootdev ∧ y.blockno = x ∧ y.valid = true ∧ y.dirty = true

/-- The entries of the header not yet written by `install_trans`. -/
def Pending (s : Sys) (x : Nat) : Prop := x ∈ s.log.lh.drop s.installed

/-- The invariant: the header holds distinct blocks outside the log, those
passed to `log_write`, and each buffer passed for a pending entry is pinned
and not queued for the disk. -/
structure Pinned (s : Sys) : Prop where
  nodup : s.log.lh.Nodup
  passed : ∀ x, x ∈ s.log.lh ↔ ∃ b, (x, b) ∈ s.passed
  outside : ∀ x ∈ s.log.lh, ¬InLog s.log x
  pin : ∀ x b, (x, b) ∈ s.passed → Pending s x → Pin (s.cache.buf b) x ∧ b ∉ s.idequeue

section Pin

variable {c : BCache} {b r : BufId} {x : Nat}

theorem Pin.markDirty (h : Pin (c.buf b) x) : Pin ((markDirty c r).buf b) x := by
  unfold Bio.markDirty
  by_cases hbr : b = r
  · subst hbr
    simp only [BCache.setBuf_buf_self]
    exact ⟨h.1, h.2.1, h.2.2.1, rfl⟩
  · rwa [BCache.setBuf_buf_of_ne _ _ hbr]

/-- A change of the reference count keeps every pin. -/
theorem Pin.setRefcnt (h : Pin (c.buf b) x) (n : Nat) :
    Pin ((c.setBuf r { c.buf r with refcnt := n }).buf b) x := by
  by_cases hbr : b = r
  · subst hbr
    simpa [Pin] using h
  · rwa [BCache.setBuf_buf_of_ne _ _ hbr]

theorem Pin.setBuf_of_ne (h : Pin (c.buf b) x) (hbr : b ≠ r) (y : Buf) :
    Pin ((c.setBuf r y).buf b) x := by
  rwa [BCache.setBuf_buf_of_ne _ _ hbr]

/-- `bget` keeps every pin: a cached buffer gains a reference, and a
recycled one was not dirty, so not pinned. -/
theorem Pin.bget {c' : BCache} {dev blockno : Nat} (h : Pin (c.buf b) x)
    (hget : Bio.bget c dev blockno = .ok (c', r)) : Pin (c'.buf b) x := by
  rcases bget_cases hget with rfl | ⟨hrec, rfl⟩
  · exact h.setRefcnt _
  · have hbr : b ≠ r := by
      rintro rfl
      simp [Buf.recyclable, h.2.2.2] at hrec
    exact h.setBuf_of_ne hbr _

theorem brelse_buf (c : BCache) (r : BufId) :
    (Bio.brelse c r).buf = (c.setBuf r { c.buf r with refcnt := (c.buf r).refcnt - 1 }).buf := by
  unfold Bio.brelse
  dsimp only
  split <;> rfl

theorem Pin.brelse (h : Pin (c.buf b) x) : Pin ((Bio.brelse c r).buf b) x := by
  rw [brelse_buf]
  exact h.setRefcnt _

end Pin

/-! ## Each step keeps the invariant -/

section Steps

variable {s : Sys}

/-- A step that changes neither the header, the log's place, the ghost
fields nor the disk queue, and keeps every pin. -/
theorem Pinned.of_pins {s' : Sys} (hs : Pinned s) (hlh : s'.log.lh = s.log.lh)
    (hstart : s'.log.start = s.log.start) (hsize : s'.log.size = s.log.size)
    (hpassed : s'.passed = s.passed) (hinst : s'.installed = s.installed)
    (hq : s'.idequeue = s.idequeue)
    (hpin : ∀ b x, Pin (s.cache.buf b) x → Pin (s'.cache.buf b) x) : Pinned s' := by
  have hlog : InLog s'.log = InLog s.log := by
    funext y
    simp only [InLog, hstart, hsize]
  refine ⟨hlh ▸ hs.nodup, fun y => ?_, fun y hy => ?_, fun y b hy hp => ?_⟩
  · rw [hlh, hpassed]
    exact hs.passed y
  · rw [hlog]
    exact hs.outside y (hlh ▸ hy)
  · have hp' : Pending s y := by
      unfold Pending at hp ⊢
      rwa [hlh, hinst] at hp
    obtain ⟨hpin', hnq⟩ := hs.pin y b (hpassed ▸ hy) hp'
    exact ⟨hpin b y hpin', hq ▸ hnq⟩

/-- A pinned buffer is valid, so `bread` never queues it. -/
theorem Pinned.read {b : BufId} (hs : Pinned s) (hv : (s.cache.buf b).valid = false) :
    Pinned { s with idequeue := s.idequeue ++ [b] } := by
  refine ⟨hs.nodup, hs.passed, hs.outside, fun y b' hy hp => ?_⟩
  obtain ⟨hpin, hnq⟩ := hs.pin y b' hy hp
  refine ⟨hpin, fun hm => ?_⟩
  rcases List.mem_append.mp hm with hm | hm
  · exact hnq hm
  · obtain rfl := List.mem_singleton.mp hm
    simp [hpin.2.2.1] at hv

/-- The disk finishes only a queued buffer, and no pinned buffer is
queued. -/
theorem Pinned.ideintr {b : BufId} {rest : List BufId} (hs : Pinned s)
    (hq : s.idequeue = b :: rest) :
    Pinned { s with cache := Bio.ideintr s.cache b, idequeue := rest } := by
  refine ⟨hs.nodup, hs.passed, hs.outside, fun y b' hy hp => ?_⟩
  obtain ⟨hpin, hnq⟩ := hs.pin y b' hy hp
  rw [hq] at hnq
  have hne : b' ≠ b := fun he => hnq (he ▸ List.mem_cons_self)
  exact ⟨hpin.setBuf_of_ne hne _, fun hm => hnq (List.mem_cons_of_mem _ hm)⟩

/-- A `bwrite` of a log block meets no pinned buffer: pinned blocks lie
outside the log. -/
theorem Pinned.writeLog {b : BufId} (hs : Pinned s) (hin : InLog s.log (s.cache.buf b).blockno) :
    Pinned { s with cache := markDirty s.cache b, idequeue := s.idequeue ++ [b] } := by
  refine ⟨hs.nodup, hs.passed, hs.outside, fun y b' hy hp => ?_⟩
  obtain ⟨hpin, hnq⟩ := hs.pin y b' hy hp
  have hne : b' ≠ b := by
    rintro rfl
    have hlh : y ∈ s.log.lh := List.mem_of_mem_drop hp
    exact hs.outside y hlh (hpin.2.1 ▸ hin)
  refine ⟨hpin.markDirty, fun hm => ?_⟩
  rcases List.mem_append.mp hm with hm | hm
  · exact hnq hm
  · exact hne (List.mem_singleton.mp hm)

/-- The entry `install_trans` writes is not among those after it, since
the header's blocks are distinct: no other pinned buffer is queued. -/
theorem Pinned.install {b : BufId} (hs : Pinned s) (hi : s.installed < s.log.lh.length)
    (hblk : (s.cache.buf b).blockno = s.log.lh[s.installed]) :
    Pinned { s with
      cache := markDirty s.cache b
      idequeue := s.idequeue ++ [b]
      installed := s.installed + 1 } := by
  refine ⟨hs.nodup, hs.passed, hs.outside, fun y b' hy hp => ?_⟩
  -- the header from the entry being installed on
  have hdrop : s.log.lh.drop s.installed =
      s.log.lh[s.installed] :: s.log.lh.drop (s.installed + 1) := List.drop_eq_getElem_cons hi
  have hnd := hs.nodup.sublist (List.drop_sublist s.installed _)
  rw [hdrop, List.nodup_cons] at hnd
  have hp' : Pending s y := by
    unfold Pending
    rw [hdrop]
    exact List.mem_cons_of_mem _ hp
  obtain ⟨hpin, hnq⟩ := hs.pin y b' hy hp'
  have hne : b' ≠ b := by
    rintro rfl
    exact hnd.1 (hblk ▸ hpin.2.1 ▸ hp)
  refine ⟨hpin.markDirty, fun hm => ?_⟩
  rcases List.mem_append.mp hm with hm | hm
  · exact hnq hm
  · exact hne (List.mem_singleton.mp hm)

/-- `log_write` pins the caller's buffer for its block, and either finds
the block in the header or appends it. -/
theorem Pinned.logWrite {b : BufId} {l : Log} (hs : Pinned s) (hb : Ready s b)
    (hdev : (s.cache.buf b).dev = rootdev) (hout : ¬InLog s.log (s.cache.buf b).blockno)
    (h : Logging.logWrite s.log (s.cache.buf b).blockno = .ok l) :
    Pinned { s with
      log := l
      cache := markDirty s.cache b
      passed := s.passed ++ [((s.cache.buf b).blockno, b)] } := by
  set y := (s.cache.buf b).blockno with hy
  have hnew : Pin ((markDirty s.cache b).buf b) y := by
    simp [Bio.markDirty, Pin, hdev, hb.2.1, hy]
  -- the header after the call, and the entries it leaves pending
  have hlog := logWrite_eq_ok h
  have hold : ∀ x ∈ s.log.lh, x ∈ l.lh.drop s.installed → Pending s x := by
    intro x hx hd
    split_ifs at hlog with hmem
    · rw [hlog] at hd
      exact hd
    · subst hlog
      rw [List.drop_append] at hd
      rcases List.mem_append.mp hd with hd | hd
      · exact hd
      · obtain rfl := List.mem_singleton.mp (List.mem_of_mem_drop hd)
        exact absurd hx hmem
  have hlh : ∀ x, x ∈ l.lh ↔ x ∈ s.log.lh ∨ x = y := by
    intro x
    split_ifs at hlog with hmem
    · subst hlog
      constructor
      · exact .inl
      · rintro (hx | rfl)
        · exact hx
        · exact hmem
    · subst hlog
      simp
  have hplace : InLog l = InLog s.log := by
    funext z
    split_ifs at hlog <;> subst hlog <;> rfl
  refine ⟨?_, fun x => ?_, fun x hx => ?_, fun x b' hx hp => ?_⟩
  · split_ifs at hlog with hmem
    · exact hlog ▸ hs.nodup
    · subst hlog
      exact hs.nodup.append (List.nodup_singleton y) (by simpa using hmem)
  · rw [hlh, hs.passed]
    simp only [List.mem_append, List.mem_singleton, Prod.mk.injEq]
    constructor
    · rintro (⟨b', hb'⟩ | rfl)
      · exact ⟨b', .inl hb'⟩
      · exact ⟨b, .inr ⟨rfl, rfl⟩⟩
    · rintro ⟨b', hb' | ⟨rfl, rfl⟩⟩
      · exact .inl ⟨b', hb'⟩
      · exact .inr rfl
  · rw [hplace]
    rcases (hlh x).mp hx with hx | rfl
    · exact hs.outside x hx
    · exact hout
  · rcases List.mem_append.mp hx with hx | hx
    · -- an earlier call: its entry was pending before
      obtain ⟨hpin, hnq⟩ := hs.pin x b' hx (hold x ((hs.passed x).mpr ⟨b', hx⟩) hp)
      exact ⟨hpin.markDirty, hnq⟩
    · obtain ⟨rfl, rfl⟩ := Prod.mk.inj (List.mem_singleton.mp hx)
      exact ⟨hnew, hb.2.2⟩

/-- An empty header with no call since the commit: after boot, and after
the commit clears the header. -/
theorem Pinned.of_empty (hlh : s.log.lh = []) (hpassed : s.passed = []) : Pinned s := by
  refine ⟨hlh ▸ List.nodup_nil, fun x => ?_, fun x hx => ?_, fun x b hx _ => ?_⟩
  · simp [hlh, hpassed]
  · simp [hlh] at hx
  · simp [hpassed] at hx

theorem Pinned.step {s' : Sys} (hs : Pinned s) (h : Step s s') : Pinned s' := by
  cases h with
  | beginOp h =>
    obtain rfl := beginOp_eq_some h
    exact hs.of_pins rfl rfl rfl rfl rfl rfl fun _ _ hp => hp
  | endOp h =>
    obtain ⟨hlh, hstart, hsize⟩ := endOp_eq_ok h
    exact hs.of_pins hlh hstart hsize rfl rfl rfl fun _ _ hp => hp
  | bget h => exact hs.of_pins rfl rfl rfl rfl rfl rfl fun _ _ hp => hp.bget h
  | brelse _ => exact hs.of_pins rfl rfl rfl rfl rfl rfl fun _ _ hp => hp.brelse
  | read _ hv _ => exact hs.read hv
  | ideintr hq => exact hs.ideintr hq
  | logWrite hb hdev hout h => exact hs.logWrite hb hdev hout h
  | writeLog _ _ _ hin => exact hs.writeLog hin
  | install _ hi hblk _ _ => exact hs.install hi hblk
  | endCommit _ _ => exact Pinned.of_empty rfl rfl

end Steps

theorem Reachable.pinned {s : Sys} (h : Reachable s) : Pinned s := by
  induction h with
  | init => exact Pinned.of_empty rfl rfl
  | step _ hstep ih => exact ih.step hstep

/-- In every reachable state the header's blocks are distinct and are those
passed to `log_write` since the last commit, and each buffer passed for a
block that `install_trans` has not yet written holds that block, with
`B_DIRTY` set. -/
theorem log_absorption {s : Sys} (h : Reachable s) :
    s.log.lh.Nodup ∧ (∀ x, x ∈ s.log.lh ↔ ∃ b, (x, b) ∈ s.passed) ∧
      ∀ x b, (x, b) ∈ s.passed → x ∈ s.log.lh.drop s.installed →
        (s.cache.buf b).holds rootdev x = true ∧ (s.cache.buf b).dirty = true := by
  have hs := h.pinned
  refine ⟨hs.nodup, hs.passed, fun x b hx hp => ?_⟩
  obtain ⟨⟨hdev, hblk, -, hdirty⟩, -⟩ := hs.pin x b hx hp
  exact ⟨by simp [Buf.holds, hdev, hblk], hdirty⟩

/-- The state after a transaction's `log_write` of block 50 from boot:
`begin_op`, the `bget` of `bread`, its disk read and interrupt, then
`log_write` on the buffer, the first of the cache. -/
def written : Sys :=
  { log := { initlog with outstanding := 1, lh := [50] }
    cache := markDirty (Bio.ideintr (binit.setBuf ⟨0, by decide⟩
      { dev := rootdev, blockno := 50, valid := false, dirty := false, refcnt := 1 })
      ⟨0, by decide⟩) ⟨0, by decide⟩
    idequeue := []
    passed := [(50, ⟨0, by decide⟩)]
    installed := 0 }

theorem written_absorbed : Reachable written ∧ written.log.lh.Nodup ∧
    (∀ x, x ∈ written.log.lh ↔ ∃ b, (x, b) ∈ written.passed) ∧
    ∀ x b, (x, b) ∈ written.passed → x ∈ written.log.lh.drop written.installed →
      (written.cache.buf b).holds rootdev x = true ∧ (written.cache.buf b).dirty = true := by
  have hget : Bio.bget binit rootdev 50 = .ok (binit.setBuf ⟨0, by decide⟩
      { dev := rootdev, blockno := 50, valid := false, dirty := false, refcnt := 1 },
      ⟨0, by decide⟩) := by
    rw [shaped_binit.bget_eq]
    rfl
  have h1 : Reachable { init with log := { initlog with outstanding := 1 } } :=
    .step .init (.beginOp rfl)
  have h2 := h1.step (.bget hget)
  have h3 := h2.step (.read (b := ⟨0, by decide⟩) (by decide) (by decide) (by decide))
  have h4 := h3.step (.ideintr (b := ⟨0, by decide⟩) rfl)
  have h5 := h4.step
    (.logWrite (b := ⟨0, by decide⟩) ⟨by decide, by decide, by decide⟩ rfl (by decide) rfl)
  exact ⟨h5, log_absorption h5⟩

end Xv6.LogBuffers
