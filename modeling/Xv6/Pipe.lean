import Xv6.Ring

/-!
# Pipes (`pipe.c`)

A pipe is a circular buffer of `PIPESIZE` bytes with two free-running 32-bit
counters, `nread` and `nwrite`, indexed modulo `PIPESIZE`.  Under
`p->lock`, `pipewrite`, `piperead` and `pipeclose` run in stretches that end
where they release the lock or sleep; a sleeping writer later resumes with
the bytes it has still to store.  Any interleaving of such stretches, by any
number of processes, is a list of `Event`s.

The buffer holds the `nwrite - nread` bytes (modulo `2 ^ 32`) from `nread`
on.  Because `PIPESIZE` divides `2 ^ 32`, the cell a counter names does not
change when it wraps, so the buffer stays a FIFO across the wrap: the bytes
read, followed by the bytes still buffered, are the bytes buffered before
followed by the bytes written.
-/

namespace Xv6.Pipes

def pipesize : Nat := 512

/-- `struct pipe`, without its lock; `data` is read only below `PIPESIZE`. -/
structure Pipe where
  data : Nat → UInt8
  nread : UInt32
  nwrite : UInt32
  readopen : Bool
  writeopen : Bool

/-- The cell `n % PIPESIZE` of `data`. -/
def slot (n : UInt32) : Nat := (n % 512).toNat

namespace Pipe

/-- `p->data[p->nwrite++ % PIPESIZE] = c`. -/
def put (p : Pipe) (c : UInt8) : Pipe :=
  { p with data := Function.update p.data (slot p.nwrite) c, nwrite := p.nwrite + 1 }

/-- `p->data[p->nread++ % PIPESIZE]`. -/
def get (p : Pipe) : UInt8 × Pipe := (p.data (slot p.nread), { p with nread := p.nread + 1 })

end Pipe

/-- The pipe `pipealloc` makes in the page `kalloc` returned. -/
def pipealloc (data : Nat → UInt8) : Pipe :=
  { data, nread := 0, nwrite := 0, readopen := true, writeopen := true }

/-- `pipeclose`, with whether it frees the pipe. -/
def pipeclose (p : Pipe) (writable : Bool) : Pipe × Bool :=
  let p := if writable then { p with writeopen := false } else { p with readopen := false }
  (p, !p.readopen && !p.writeopen)

/-- How a stretch of `pipewrite` ends: it returned `n`, it sleeps on a full
pipe, or it returned `-1`. -/
inductive WriteStop
  | done
  | sleep
  | fail
  deriving DecidableEq, Repr

/-- `pipewrite`'s loop over the bytes it has still to store, until it
returns or sleeps: the pipe, the number of bytes stored, and how it stopped. -/
def pipewriteLoop (p : Pipe) (killed : Bool) : List UInt8 → Pipe × Nat × WriteStop
  | [] => (p, 0, .done)
  | c :: cs =>
    if p.nwrite = p.nread + 512 then
      (p, 0, if p.readopen = false ∨ killed = true then .fail else .sleep)
    else
      let r := pipewriteLoop (p.put c) killed cs
      (r.1, r.2.1 + 1, r.2.2)

/-- How a stretch of `piperead` ends: it returned the bytes it copied, it
sleeps on an empty pipe, or it returned `-1`. -/
inductive ReadStop
  | done (bytes : List UInt8)
  | sleep
  | fail
  deriving DecidableEq, Repr

/-- `piperead`'s copy loop of at most `n` bytes. -/
def pipereadCopy (p : Pipe) : Nat → List UInt8 × Pipe
  | 0 => ([], p)
  | n + 1 =>
    if p.nread = p.nwrite then ([], p)
    else
      let r := pipereadCopy p.get.2 n
      (p.get.1 :: r.1, r.2)

/-- A stretch of `piperead`: the wait for a byte or a closed write end, then
the copy. -/
def piperead (p : Pipe) (n : Int) (killed : Bool) : Pipe × ReadStop :=
  if p.nread = p.nwrite ∧ p.writeopen = true then
    (p, if killed then .fail else .sleep)
  else
    let r := pipereadCopy p n.toNat
    (r.2, .done r.1)

/-- A stretch of a process's pipe call under `p->lock`. -/
inductive Event
  /-- `pipewrite`, from its start or from a wakeup, with the bytes it has
  still to store. -/
  | write (addr : List UInt8) (killed : Bool)
  | read (n : Int) (killed : Bool)
  | close (writable : Bool)

namespace Pipe

/-- One stretch: the pipe after it, the bytes it stored and the bytes it returned. -/
def step (p : Pipe) : Event → Pipe × List UInt8 × List UInt8
  | .write addr killed =>
    let r := pipewriteLoop p killed addr
    (r.1, addr.take r.2.1, [])
  | .read n killed =>
    match piperead p n killed with
    | (p', .done bytes) => (p', [], bytes)
    | (p', _) => (p', [], [])
  | .close writable => ((pipeclose p writable).1, [], [])

/-- A run of stretches: the pipe after them, all bytes stored and all bytes
returned, in order. -/
def run (p : Pipe) : List Event → Pipe × List UInt8 × List UInt8
  | [] => (p, [], [])
  | e :: es =>
    let r := p.step e
    let r' := r.1.run es
    (r'.1, r.2.1 ++ r'.2.1, r.2.2 ++ r'.2.2)

/-! ## The buffer -/

/-- `nwrite - nread`, modulo `2 ^ 32`. -/
def count (p : Pipe) : Nat := (p.nwrite - p.nread).toNat

/-- The buffered bytes, oldest first. -/
def contents (p : Pipe) : List UInt8 := Ring.view pipesize p.data p.nread.toNat p.count

variable {p : Pipe}

theorem slot_eq (n : UInt32) : slot n = n.toNat % pipesize := by
  simp [slot, UInt32.toNat_mod, pipesize]

theorem count_lt_two_pow : p.count < 2 ^ 32 := UInt32.toNat_lt _

theorem nwrite_toNat : p.nwrite.toNat = (p.nread.toNat + p.count) % 2 ^ 32 := by
  have := p.nread.toNat_lt
  have := p.nwrite.toNat_lt
  simp only [count, UInt32.toNat_sub]
  omega

theorem full_iff : p.nwrite = p.nread + 512 ↔ p.count = pipesize := by
  have := p.nread.toNat_lt
  have := p.nwrite.toNat_lt
  simp only [UInt32.ext_iff, UInt32.toNat_add, count, UInt32.toNat_sub, pipesize]
  simp only [UInt32.reduceToNat]
  omega

theorem empty_iff : p.nread = p.nwrite ↔ p.count = 0 := by
  have := p.nread.toNat_lt
  have := p.nwrite.toNat_lt
  simp only [UInt32.ext_iff, count, UInt32.toNat_sub]
  omega

/-- The cell `nwrite` names is the one after the buffered bytes: `PIPESIZE`
divides `2 ^ 32`. -/
theorem slot_nwrite : slot p.nwrite = (p.nread.toNat + p.count) % pipesize := by
  rw [slot_eq, nwrite_toNat, pipesize]
  omega

theorem count_put (h : p.count < pipesize) (c : UInt8) : (p.put c).count = p.count + 1 := by
  have := p.nread.toNat_lt
  have := p.nwrite.toNat_lt
  simp only [put, count, UInt32.toNat_sub, UInt32.toNat_add, pipesize] at h ⊢
  simp only [UInt32.reduceToNat]
  omega

theorem contents_put (h : p.count < pipesize) (c : UInt8) :
    (p.put c).contents = p.contents ++ [c] := by
  rw [contents, count_put h]
  show Ring.view pipesize (Function.update p.data (slot p.nwrite) c) p.nread.toNat (p.count + 1) = _
  rw [slot_nwrite]
  exact Ring.view_push h c

theorem count_get (h : p.count ≠ 0) : p.get.2.count = p.count - 1 := by
  have := p.nread.toNat_lt
  have := p.nwrite.toNat_lt
  simp only [get, count, UInt32.toNat_sub, UInt32.toNat_add] at h ⊢
  simp only [UInt32.reduceToNat]
  omega

theorem contents_get (h : p.count ≠ 0) : p.get.1 :: p.get.2.contents = p.contents := by
  obtain ⟨m, hm⟩ : ∃ m, p.count = m + 1 := ⟨p.count - 1, by omega⟩
  have hhead : p.get.2.nread.toNat % pipesize = (p.nread.toNat + 1) % pipesize := by
    simp only [get, UInt32.toNat_add, UInt32.reduceToNat, pipesize]
    omega
  rw [contents, contents, count_get h, hm, Ring.view_succ, Nat.add_sub_cancel,
    Ring.view_congr_head hhead]
  simp [get, slot_eq]

/-! ## Stretches keep the buffer a FIFO -/

/-- What a stretch may rely on: at most `PIPESIZE` bytes are buffered. -/
def Wf (p : Pipe) : Prop := p.count ≤ pipesize

/-- The write loop stores a prefix of its bytes, each after those buffered. -/
theorem pipewriteLoop_spec (killed : Bool) (addr : List UInt8) (hp : p.Wf) :
    (pipewriteLoop p killed addr).1.Wf ∧
      (pipewriteLoop p killed addr).1.contents =
        p.contents ++ addr.take (pipewriteLoop p killed addr).2.1 := by
  induction addr generalizing p with
  | nil => exact ⟨hp, by simp [pipewriteLoop]⟩
  | cons c cs ih =>
    by_cases hfull : p.nwrite = p.nread + 512
    · simp [pipewriteLoop, hfull, hp]
    · -- room for one more byte: store it and go on
      have hlt : p.count < pipesize := lt_of_le_of_ne hp (mt full_iff.mpr hfull)
      have hput : (p.put c).Wf := by
        unfold Wf
        rw [count_put hlt]
        exact hlt
      obtain ⟨hwf, hcontents⟩ := ih hput
      simp only [pipewriteLoop, hfull, if_false]
      refine ⟨hwf, ?_⟩
      rw [hcontents, contents_put hlt, List.take_succ_cons, List.append_assoc, List.singleton_append]

/-- The copy loop returns the oldest buffered bytes and leaves the rest. -/
theorem pipereadCopy_spec (n : Nat) (hp : p.Wf) :
    (pipereadCopy p n).2.Wf ∧ (pipereadCopy p n).1 ++ (pipereadCopy p n).2.contents = p.contents ∧
      (pipereadCopy p n).2.writeopen = p.writeopen := by
  induction n generalizing p with
  | zero => exact ⟨hp, by simp [pipereadCopy]⟩
  | succ n ih =>
    by_cases hempty : p.nread = p.nwrite
    · simp [pipereadCopy, hempty, hp]
    · have hne : p.count ≠ 0 := mt empty_iff.mpr hempty
      have hget : p.get.2.Wf := by
        unfold Wf
        rw [count_get hne]
        exact le_trans (Nat.sub_le _ _) hp
      obtain ⟨hwf, hcontents, hopen⟩ := ih hget
      simp only [pipereadCopy, hempty, if_false]
      refine ⟨hwf, ?_, hopen⟩
      rw [List.cons_append, hcontents, contents_get hne]

theorem step_spec (e : Event) (hp : p.Wf) :
    (p.step e).1.Wf ∧ (p.step e).2.2 ++ (p.step e).1.contents = p.contents ++ (p.step e).2.1 := by
  cases e with
  | write addr killed =>
    obtain ⟨hwf, hcontents⟩ := pipewriteLoop_spec killed addr hp
    exact ⟨hwf, by simpa [step] using hcontents⟩
  | read n killed =>
    simp only [step, piperead]
    by_cases hwait : p.nread = p.nwrite ∧ p.writeopen = true
    · rw [if_pos hwait]
      cases killed <;> exact ⟨hp, by simp⟩
    · rw [if_neg hwait]
      obtain ⟨hwf, hcontents, -⟩ := pipereadCopy_spec n.toNat hp
      exact ⟨hwf, by simpa using hcontents⟩
  | close writable =>
    -- closing an end changes neither the counters nor the data
    cases writable <;> exact ⟨hp, by simp [step, pipeclose, contents, count]⟩

theorem run_spec (es : List Event) (hp : p.Wf) :
    (p.run es).1.Wf ∧ (p.run es).2.2 ++ (p.run es).1.contents = p.contents ++ (p.run es).2.1 := by
  induction es generalizing p with
  | nil => exact ⟨hp, by simp [run]⟩
  | cons e es ih =>
    obtain ⟨hwf, hstep⟩ := step_spec e hp
    obtain ⟨hwf', hrun⟩ := ih hwf
    refine ⟨hwf', ?_⟩
    -- the rest of the run, then the first stretch, each as a FIFO
    simp only [run]
    rw [List.append_assoc, hrun, ← List.append_assoc, hstep, List.append_assoc]

theorem pipereadCopy_nil {m : Nat} (h : (pipereadCopy p (m + 1)).1 = []) : p.nread = p.nwrite := by
  by_contra hne
  simp [pipereadCopy, hne] at h

/-- `piperead` of at least one byte returns none only when the pipe is empty
and its write end closed. -/
theorem piperead_nothing {n : Int} {killed : Bool} {p' : Pipe} (hn : 0 < n)
    (h : piperead p n killed = (p', .done [])) : p.nread = p.nwrite ∧ p.writeopen = false := by
  unfold piperead at h
  by_cases hwait : p.nread = p.nwrite ∧ p.writeopen = true
  · rw [if_pos hwait] at h
    cases killed <;> simp at h
  · rw [if_neg hwait] at h
    obtain ⟨m, hm⟩ : ∃ m, n.toNat = m + 1 := ⟨n.toNat - 1, by omega⟩
    have hcopy : (pipereadCopy p (m + 1)).1 = [] := by
      rw [← hm]
      exact ReadStop.done.inj (Prod.mk.inj h).2
    have hempty := pipereadCopy_nil hcopy
    exact ⟨hempty, by simpa [hempty] using hwait⟩

/-- With its write end closed, `piperead` of an empty pipe returns at once
with nothing: end of file. -/
theorem piperead_eof {n : Int} {killed : Bool} (hempty : p.nread = p.nwrite)
    (hw : p.writeopen = false) : piperead p n killed = (p, .done []) := by
  unfold piperead
  rw [if_neg (by simp [hw])]
  cases n.toNat with
  | zero => rfl
  | succ m => simp [pipereadCopy, hempty]

end Pipe

@[simp] theorem pipealloc_count (data : Nat → UInt8) : (pipealloc data).count = 0 := by
  simp [Pipe.count, pipealloc]

@[simp] theorem pipealloc_contents (data : Nat → UInt8) : (pipealloc data).contents = [] := by
  simp [Pipe.contents]

/-- Any interleaving of stretches on a new pipe: at most `PIPESIZE` bytes are
buffered, the bytes returned by all reads are a prefix of the bytes stored by
all writes, and a read of at least one byte returns none only on an empty
pipe with its write end closed. -/
theorem pipe_fifo (data : Nat → UInt8) (es : List Event) :
    ((pipealloc data).run es).1.count ≤ pipesize ∧
      ((pipealloc data).run es).2.2 <+: ((pipealloc data).run es).2.1 ∧
      ∀ (p p' : Pipe) (n : Int) (killed : Bool), 0 < n → piperead p n killed = (p', .done []) →
        p.nread = p.nwrite ∧ p.writeopen = false := by
  have hwf : (pipealloc data).Wf := by simp [Pipe.Wf]
  obtain ⟨hrun, hfifo⟩ := Pipe.run_spec es hwf
  refine ⟨hrun, ?_, fun p p' n killed hn h => Pipe.piperead_nothing hn h⟩
  rw [pipealloc_contents, List.nil_append] at hfifo
  exact ⟨_, hfifo⟩

end Xv6.Pipes
