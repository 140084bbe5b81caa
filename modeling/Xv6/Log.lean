import Xv6.Writes
import Xv6.BlockFs

/-!
# The log (`log.c`)

Two views of `log.c`.  In memory, the log is the state `begin_op`,
`log_write` and `end_op` share under `log.lock`: the count of outstanding
operations, the committing flag and the header `log.lh` of the open
transaction, whose `n` block numbers are kept as a list.  On disk, `commit`
and `recover_from_log` are the block writes they make, in order, over a
disk `ℕ → α` of block contents.  `write_head` overwrites the count and the
block numbers at the front of the header block and keeps the rest of it, so
it is an operation `enc` on the old contents; `read_head` is a decoding
`dec`.
-/

namespace Xv6.Logging

open Block

/-! ## The in-memory log -/

/-- `struct log`, without its lock and device. -/
structure Log where
  start : Nat
  size : Nat
  outstanding : Int
  committing : Bool
  /-- `log.lh.block[0 .. log.lh.n)`. -/
  lh : List Nat
  deriving DecidableEq, Repr

/-- `log.lh.n`. -/
def Log.n (l : Log) : Nat := l.lh.length

/-- The log after `initlog`: `mkfs` puts the header at block 2 and gives the
log `nlog` blocks, and `recover_from_log` leaves the header empty. -/
def initlog : Log :=
  { start := 2, size := nlog, outstanding := 0, committing := false, lh := [] }

/-- One pass of `begin_op`'s loop: `none` when the caller sleeps. -/
def beginOp (l : Log) : Option Log :=
  if l.committing then none
  else if (l.n : Int) + (l.outstanding + 1) * maxopblocks > logsize then none
  else some { l with outstanding := l.outstanding + 1 }

/-- `log_write` of block `b`; a block already in the header is absorbed. -/
def logWrite (l : Log) (b : Nat) : Except Fault Log :=
  if l.n ≥ logsize ∨ l.n ≥ l.size - 1 then .error (.panic "too big a transaction")
  else if l.outstanding < 1 then .error (.panic "log_write outside of trans")
  else if b ∈ l.lh then .ok l
  else .ok { l with lh := l.lh ++ [b] }

/-- `end_op` up to its call of `commit`, with `do_commit`. -/
def endOp (l : Log) : Except Fault (Log × Bool) :=
  let l := { l with outstanding := l.outstanding - 1 }
  if l.committing then .error (.panic "log.committing")
  else if l.outstanding = 0 then .ok ({ l with committing := true }, true)
  else .ok (l, false)

/-- The rest of `end_op` when it commits: `commit` empties the header, then
the committing flag is cleared. -/
def endCommit (l : Log) : Log := { l with lh := [], committing := false }

/-- `begin_op` changes only the count of outstanding operations. -/
theorem beginOp_eq_some {l l' : Log} (h : beginOp l = some l') :
    l' = { l with outstanding := l.outstanding + 1 } := by
  unfold beginOp at h
  split_ifs at h
  exact (Option.some.inj h).symm

/-- `end_op` leaves the header and the log's place as they were. -/
theorem endOp_eq_ok {l l' : Log} {commit : Bool} (h : endOp l = .ok (l', commit)) :
    l'.lh = l.lh ∧ l'.start = l.start ∧ l'.size = l.size := by
  unfold endOp at h
  dsimp only at h
  split_ifs at h <;> cases h <;> exact ⟨rfl, rfl, rfl⟩

/-- A `log_write` that returns adds the block to the header unless it is
there already (absorption), and changes nothing else. -/
theorem logWrite_eq_ok {l l' : Log} {b : Nat} (h : logWrite l b = .ok l') :
    l' = if b ∈ l.lh then l else { l with lh := l.lh ++ [b] } := by
  unfold logWrite at h
  split_ifs at h with _ _ hb <;> cases h
  · rw [if_pos hb]
  · rw [if_neg hb]

/-- Operations that log distinct blocks one after another. -/
def logWrites (l : Log) (bs : List Nat) : Except Fault Log := bs.foldlM logWrite l

/-- Three operations are admitted together, since `3 * MAXOPBLOCKS` is
`LOGSIZE`; the first two log ten blocks each and the third nine, so none
exceeds `MAXOPBLOCKS`, and the third's tenth block panics: `mkfs` gives the
log `LOGSIZE` blocks, of which the header takes one. -/
theorem log_write_panics_within_budget :
    ∃ l₁ l₂ l₃ l, beginOp initlog = some l₁ ∧ beginOp l₁ = some l₂ ∧ beginOp l₂ = some l₃ ∧
      logWrites l₃ (List.range' 100 29) = .ok l ∧
      logWrite l 129 = .error (.panic "too big a transaction") := by
  refine ⟨_, _, _, { initlog with outstanding := 3, lh := List.range' 100 29 },
    rfl, rfl, rfl, ?_, ?_⟩
  · decide +kernel
  · -- twenty-nine blocks are logged, and `log.size - 1` is twenty-nine
    decide +kernel

/-! ## The log on disk -/

section Disk

variable {α : Type*}

/-- `write_log`: block `tail` of the header goes from the cache to log block
`start + tail + 1`. -/
def writeLog (start : Nat) (lh : List Nat) (cache : Nat → α) : List (Nat × α) :=
  lh.mapIdx fun tail b => (start + tail + 1, cache b)

@[simp] theorem length_writeLog (start : Nat) (lh : List Nat) (cache : Nat → α) :
    (writeLog start lh cache).length = lh.length :=
  List.length_mapIdx

/-- `write_head` over the disk `d`. -/
def writeHead (enc : List Nat → α → α) (start : Nat) (lh : List Nat) (d : Nat → α) :
    List (Nat × α) :=
  [(start, enc lh (d start))]

@[simp] theorem length_writeHead (enc : List Nat → α → α) (start : Nat) (lh : List Nat)
    (d : Nat → α) : (writeHead enc start lh d).length = 1 := rfl

/-- `install_trans` from entry `tail` of the header on; each log block is read
after the earlier entries were installed. -/
def installTrans (start : Nat) : Nat → List Nat → (Nat → α) → List (Nat × α)
  | _, [], _ => []
  | tail, b :: bs, d =>
    (b, d (start + tail + 1)) ::
      installTrans start (tail + 1) bs (Function.update d b (d (start + tail + 1)))

/-- `commit` of the header `lh` over the disk `d`: write the log, write the
header (the commit point), install, and write the empty header. -/
def commitWrites (enc : List Nat → α → α) (start : Nat) (lh : List Nat) (cache : Nat → α)
    (d : Nat → α) : List (Nat × α) :=
  if 0 < lh.length then
    let w₁ := writeLog start lh cache
    let w₂ := w₁ ++ writeHead enc start lh (Writes.apply w₁ d)
    let w₃ := w₂ ++ installTrans start 0 lh (Writes.apply w₂ d)
    w₃ ++ writeHead enc start [] (Writes.apply w₃ d)
  else []

/-- `recover_from_log` over the disk `d`. -/
def recoverWrites (enc : List Nat → α → α) (dec : α → List Nat) (start : Nat) (d : Nat → α) :
    List (Nat × α) :=
  let w := installTrans start 0 (dec (d start)) d
  w ++ writeHead enc start [] (Writes.apply w d)

end Disk

end Xv6.Logging
