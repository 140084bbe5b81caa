import Xv6.Inode

/-!
# `pushcli` and `popcli`

`pushcli` turns interrupts off and counts one more level in `ncli`; the
outermost one records in `intena` whether interrupts were on.  `popcli`
counts one level less and turns interrupts back on when the count reaches
zero and `intena` says they were on.  Over any sequence of the two in which
the `popcli`s never outnumber the `pushcli`s, interrupts stay off while a
level is open, and each time the count returns to zero the flag is what it
was before the outermost `pushcli` (`Nested.run`).

`ncli` and `intena` belong to the CPU, while the nesting belongs to a kernel
thread.  `sched` saves `intena` and the process restores it when it runs
again, so a process finds the nesting it left (`sched_resumes`).  The
scheduler's own thread restores nothing after its `swtch`: its `release` of
`ptable.lock` closes the level with the `intena` of the process that
switched to it.
-/

namespace Xv6.Cli

/-- The fields of `struct cpu` that `pushcli` and `popcli` keep, and the
flag `FL_IF` of `eflags`. -/
structure Cpu where
  ncli : Int
  intena : Bool
  ifl : Bool
  deriving DecidableEq, Repr

def pushcli (c : Cpu) : Cpu :=
  -- `eflags` is read before `cli()`
  let eflags := c.ifl
  let c := { c with ifl := false }
  let c := if c.ncli = 0 then { c with intena := eflags } else c
  { c with ncli := c.ncli + 1 }

def popcli (c : Cpu) : Except Fault Cpu :=
  if c.ifl then .error (.panic "popcli - interruptible")
  else
    let c := { c with ncli := c.ncli - 1 }
    if c.ncli < 0 then .error (.panic "popcli")
    else if c.ncli = 0 ∧ c.intena = true then .ok { c with ifl := true }
    else .ok c

inductive Op
  | pushcli
  | popcli
  deriving DecidableEq, Repr

def step (c : Cpu) : Op → Except Fault Cpu
  | .pushcli => .ok (pushcli c)
  | .popcli => popcli c

def run (c : Cpu) : List Op → Except Fault Cpu
  | [] => .ok c
  | op :: ops => do
    let c ← step c op
    run c ops

/-- What an operation adds to `ncli`. -/
def Op.delta : Op → Int
  | .pushcli => 1
  | .popcli => -1

/-- The `pushcli`s of `ops` less its `popcli`s. -/
def depth (ops : List Op) : Int := (ops.map Op.delta).sum

@[simp] theorem depth_nil : depth [] = 0 := rfl

@[simp] theorem depth_cons (op : Op) (ops : List Op) : depth (op :: ops) = op.delta + depth ops := by
  simp [depth]

section Spec

variable {c : Cpu}

@[simp] theorem pushcli_ncli (c : Cpu) : (pushcli c).ncli = c.ncli + 1 := by
  unfold pushcli
  dsimp only
  split_ifs <;> rfl

@[simp] theorem pushcli_ifl (c : Cpu) : (pushcli c).ifl = false := by
  unfold pushcli
  dsimp only
  split_ifs <;> rfl

theorem pushcli_intena (c : Cpu) :
    (pushcli c).intena = if c.ncli = 0 then c.ifl else c.intena := by
  unfold pushcli
  dsimp only
  split_ifs <;> rfl

/-- With interrupts off and a level open, `popcli` closes the level, and
turns interrupts on when it was the last one and `intena` is set. -/
theorem popcli_of_pos (hoff : c.ifl = false) (hpos : 0 < c.ncli) :
    popcli c = .ok { c with ncli := c.ncli - 1, ifl := decide (c.ncli = 1) && c.intena } := by
  unfold popcli
  rw [if_neg (by simp [hoff]), if_neg (by simp only; omega)]
  by_cases hon : c.ncli = 1 ∧ c.intena = true
  · rw [if_pos ⟨by simp only; omega, hon.2⟩]
    simp [hon]
  · rw [if_neg (fun h => hon ⟨by simp only at h; omega, h.2⟩)]
    cases hi : c.intena <;> simp_all

end Spec

/-! ## One CPU's nesting -/

/-- A nesting opened with the interrupt flag `b`: interrupts are off while
a level is open and `intena` holds `b`; with no level open the flag is `b`. -/
structure Nested (b : Bool) (c : Cpu) : Prop where
  nonneg : 0 ≤ c.ncli
  closed : c.ncli = 0 → c.ifl = b
  off : 0 < c.ncli → c.ifl = false
  intena : 0 < c.ncli → c.intena = b

section Nesting

variable {b : Bool} {c : Cpu}

/-- A CPU with no level open starts a nesting with its own flag. -/
theorem nested_start (h : c.ncli = 0) : Nested c.ifl c :=
  ⟨by omega, fun _ => rfl, fun h' => by omega, fun h' => by omega⟩

theorem Nested.pushcli (h : Nested b c) : Nested b (pushcli c) := by
  have hnonneg := h.nonneg
  refine ⟨by simp; omega, fun h' => by simp at h'; omega, fun _ => pushcli_ifl c, fun _ => ?_⟩
  rw [pushcli_intena]
  split_ifs with h0
  · -- the outermost level records the flag
    exact h.closed h0
  · exact h.intena (by omega)

/-- With a level open, `popcli` never panics, and it closes the level. -/
theorem Nested.popcli (h : Nested b c) (hpos : 0 < c.ncli) :
    ∃ c', popcli c = .ok c' ∧ c'.ncli = c.ncli - 1 ∧ Nested b c' := by
  have hoff := h.off hpos
  have hintena := h.intena hpos
  refine ⟨_, popcli_of_pos hoff hpos, rfl, ⟨by simp only; omega, fun h' => ?_,
    fun h' => ?_, fun _ => hintena⟩⟩
  · -- the last level: the flag comes back from `intena`
    simp only at h'
    simp [show c.ncli = 1 by omega, hintena]
  · simp only at h'
    simp [show c.ncli ≠ 1 by omega]

/-- Every sequence whose `popcli`s never outnumber the levels open keeps the
nesting, ending with its depth added to `ncli`. -/
theorem Nested.run (h : Nested b c) {ops : List Op}
    (hops : ∀ k, 0 ≤ c.ncli + depth (ops.take k)) :
    ∃ c', run c ops = .ok c' ∧ c'.ncli = c.ncli + depth ops ∧ Nested b c' := by
  induction ops generalizing c with
  | nil => exact ⟨c, rfl, by simp, h⟩
  | cons op ops ih =>
    have hfirst := hops 1
    simp only [List.take_succ_cons, List.take_zero, depth_cons, depth_nil, Int.add_zero] at hfirst
    -- the rest of the sequence, from the CPU after the first operation
    have hrest : ∀ {c' : Cpu}, c'.ncli = c.ncli + op.delta →
        ∀ k, 0 ≤ c'.ncli + depth (ops.take k) := by
      intro c' hc' k
      have := hops (k + 1)
      simp only [List.take_succ_cons, depth_cons] at this
      omega
    cases op with
    | pushcli =>
      obtain ⟨c', hrun, hncli, hnested⟩ := ih h.pushcli (hrest (pushcli_ncli c))
      refine ⟨c', by rw [Xv6.Cli.run]; exact hrun, ?_, hnested⟩
      rw [hncli, pushcli_ncli, depth_cons, Op.delta]
      omega
    | popcli =>
      obtain ⟨c₁, hpop, hncli₁, h₁⟩ := h.popcli (by simp only [Op.delta] at hfirst; omega)
      obtain ⟨c', hrun, hncli, hnested⟩ := ih h₁ (hrest (by rw [hncli₁]; rfl))
      refine ⟨c', by rw [Xv6.Cli.run, step, hpop]; exact hrun, ?_, hnested⟩
      rw [hncli, hncli₁, depth_cons, Op.delta]
      omega

end Nesting

/-! ## Kernel threads on one CPU -/

/-- What the running thread does: a `pushcli` or `popcli`; sets or
clears the flag (`sti` in `scheduler`, the interrupt gate of a trap,
`iret`); calls `sched`; or, on the scheduler's thread, `swtch`es to
process `p`. -/
inductive Event (P : Type)
  | op (o : Op)
  | setIf (b : Bool)
  | sched
  | swtch (p : P)
  deriving DecidableEq, Repr

/-- One CPU, the thread running on it (`none` for the scheduler's), and
the `intena` that each process switched out in `sched` keeps in its
frame. -/
structure Sys (P : Type) where
  cpu : Cpu
  cur : Option P
  saved : P → Option Bool

/-- What `sched` checks of the CPU before it switches. -/
def schedChecks (c : Cpu) : Except Fault Unit :=
  if c.ncli ≠ 1 then .error (.panic "sched locks")
  else if c.ifl then .error (.panic "sched interruptible")
  else .ok ()

section Threads

variable {P : Type} [DecidableEq P]

/-- One event; `none` when it panics or is not one the running thread
takes. -/
def Sys.step (s : Sys P) : Event P → Option (Sys P)
  | .op o => (Xv6.Cli.step s.cpu o).toOption.map fun c => { s with cpu := c }
  | .setIf b => some { s with cpu := { s.cpu with ifl := b } }
  | .sched =>
    match s.cur with
    | some p => (schedChecks s.cpu).toOption.map fun _ =>
        { s with cur := none, saved := Function.update s.saved p (some s.cpu.intena) }
    | none => none
  | .swtch p =>
    match s.cur with
    | none =>
      -- back in `sched` the process puts its `intena` back; a new one
      -- starts in `forkret` and restores nothing
      let cpu := match s.saved p with
        | some b => { s.cpu with intena := b }
        | none => s.cpu
      some { cpu := cpu, cur := some p, saved := Function.update s.saved p none }
    | some _ => none

def Sys.run (s : Sys P) : List (Event P) → Option (Sys P)
  | [] => some s
  | e :: es => (s.step e).bind fun s => Sys.run s es

theorem schedChecks_ok {c : Cpu} {u : Unit} (h : (schedChecks c).toOption = some u) :
    c.ncli = 1 ∧ c.ifl = false := by
  unfold schedChecks at h
  split_ifs at h with h₁ h₂
  · cases h
  · cases h
  · simp_all

/-- What `sched` does, from a process's thread. -/
theorem Sys.step_sched {s s' : Sys P} {p : P} (hcur : s.cur = some p)
    (h : s.step .sched = some s') :
    s.cpu.ncli = 1 ∧ s.cpu.ifl = false ∧
      s' = { s with cur := none, saved := Function.update s.saved p (some s.cpu.intena) } := by
  simp only [Sys.step, hcur, Option.map_eq_some_iff] at h
  obtain ⟨u, hok, rfl⟩ := h
  exact ⟨(schedChecks_ok hok).1, (schedChecks_ok hok).2, rfl⟩

/-- A process that is not running keeps its frame through every event but
the scheduler's `swtch` to it, and does not start running. -/
theorem Sys.step_saved_of_ne {s s' : Sys P} {p : P} {e : Event P} (hcur : s.cur ≠ some p)
    (he : e ≠ .swtch p) (h : s.step e = some s') : s'.saved p = s.saved p ∧ s'.cur ≠ some p := by
  cases e with
  | op o =>
    simp only [Sys.step, Option.map_eq_some_iff] at h
    obtain ⟨c, -, rfl⟩ := h
    exact ⟨rfl, hcur⟩
  | setIf b =>
    cases h
    exact ⟨rfl, hcur⟩
  | sched =>
    cases hq : s.cur with
    | none => simp [Sys.step, hq] at h
    | some q =>
      obtain ⟨-, -, rfl⟩ := Sys.step_sched hq h
      have hqp : p ≠ q := fun hpq => hcur (hpq ▸ hq)
      exact ⟨Function.update_of_ne hqp _ _, by simp⟩
  | swtch q =>
    have hqp : p ≠ q := fun hpq => he (hpq ▸ rfl)
    cases hq : s.cur with
    | some _ => simp [Sys.step, hq] at h
    | none =>
      simp only [Sys.step, hq, Option.some.injEq] at h
      subst h
      exact ⟨Function.update_of_ne hqp _ _, by simpa using Ne.symm hqp⟩

theorem Sys.run_saved_of_ne {s s' : Sys P} {p : P} {evs : List (Event P)}
    (hcur : s.cur ≠ some p) (hevs : ∀ e ∈ evs, e ≠ .swtch p) (h : s.run evs = some s') :
    s'.saved p = s.saved p := by
  induction evs generalizing s with
  | nil =>
    cases h
    rfl
  | cons e es ih =>
    simp only [Sys.run, Option.bind_eq_some_iff] at h
    obtain ⟨s₁, h₁, hrest⟩ := h
    have hstep := Sys.step_saved_of_ne hcur (hevs e (by simp)) h₁
    rw [ih hstep.2 (fun e' he' => hevs e' (by simp [he'])) hrest, hstep.1]

/-- A process that gives up the CPU in `sched` gets it back as it left
it, whatever ran in between, when the scheduler switches to it holding one
level with interrupts off. -/
theorem sched_resumes {s s₁ s₂ s₃ : Sys P} {p : P} {evs : List (Event P)}
    (hcur : s.cur = some p) (hsched : s.step .sched = some s₁)
    (hrun : s₁.run evs = some s₂) (hevs : ∀ e ∈ evs, e ≠ .swtch p)
    (hlock : s₂.cpu.ncli = 1) (hoff : s₂.cpu.ifl = false)
    (hswtch : s₂.step (.swtch p) = some s₃) : s₃.cpu = s.cpu ∧ s₃.cur = some p := by
  obtain ⟨hncli, hifl, rfl⟩ := Sys.step_sched hcur hsched
  -- the frame `sched` left is still there when the scheduler switches back
  have hsaved : s₂.saved p = some s.cpu.intena := by
    rw [Sys.run_saved_of_ne (by simp) hevs hrun]
    simp
  cases hq : s₂.cur with
  | some _ => simp [Sys.step, hq] at hswtch
  | none =>
    simp only [Sys.step, hq, hsaved, Option.some.injEq] at hswtch
    subst hswtch
    refine ⟨?_, rfl⟩
    cases hc : s.cpu
    cases hc₂ : s₂.cpu
    simp_all

end Threads

/-- The CPU as `mpmain` enters `scheduler`: no level open, interrupts
off, no process run yet. -/
def Sys.init (P : Type) : Sys P := ⟨⟨0, false, false⟩, none, fun _ => none⟩

theorem interrupt_nesting :
    (∀ (c : Cpu) (ops : List Op), c.ncli = 0 → (∀ k, 0 ≤ depth (ops.take k)) →
      ∃ c', run c ops = .ok c' ∧ c'.ncli = depth ops ∧
        (0 < c'.ncli → c'.ifl = false ∧ c'.intena = c.ifl) ∧ (c'.ncli = 0 → c'.ifl = c.ifl)) ∧
    (∀ (P : Type) [DecidableEq P] (s s₁ s₂ s₃ : Sys P) (p : P) (evs : List (Event P)),
      s.cur = some p → s.step .sched = some s₁ → s₁.run evs = some s₂ →
      (∀ e ∈ evs, e ≠ .swtch p) → s₂.cpu.ncli = 1 → s₂.cpu.ifl = false →
      s₂.step (.swtch p) = some s₃ → s₃.cpu = s.cpu ∧ s₃.cur = some p) := by
  refine ⟨fun c ops h0 hops => ?_, fun P _ s s₁ s₂ s₃ p evs => sched_resumes⟩
  obtain ⟨c', hrun, hncli, hnested⟩ := (nested_start h0).run (by simpa [h0] using hops)
  exact ⟨c', hrun, by simpa [h0] using hncli,
    fun hpos => ⟨hnested.off hpos, hnested.intena hpos⟩, hnested.closed⟩

/-- A process in `sleep`, holding `ptable.lock`, taken with interrupts
on. -/
def sleeping : Sys Unit := ⟨⟨1, true, false⟩, some (), fun _ => none⟩

/-- The scheduler's `release`, `sti` and `acquire` before it
switches back. -/
def schedulerRound : List (Event Unit) := [.op .popcli, .setIf true, .op .pushcli]

theorem sleep_resumes_nested :
    ∃ s₁ s₂ s₃, sleeping.step .sched = some s₁ ∧ s₁.run schedulerRound = some s₂ ∧
      s₂.cpu.ncli = 1 ∧ s₂.cpu.ifl = false ∧ s₂.step (.swtch ()) = some s₃ ∧
      s₃.cpu = sleeping.cpu ∧ s₃.cur = some () := by
  refine ⟨_, _, _, rfl, rfl, rfl, rfl, rfl, ?_⟩
  exact interrupt_nesting.2 Unit _ _ _ _ () schedulerRound rfl rfl rfl (by decide) rfl rfl rfl

/-- `scheduler`'s `sti` and `acquire` and the first run of a
process, whose `forkret` releases `ptable.lock`; a timer interrupt,
`yield`'s `acquire` and `sched`; the scheduler's `release`.  Then
the next round: `sti`, `acquire`, and the switch back into the process's
`sched`, whose caller `yield` releases the lock. -/
def yieldTrace : List (Event Unit) :=
  [.setIf true, .op .pushcli, .swtch (), .op .popcli, .setIf false, .op .pushcli, .sched,
    .op .popcli, .setIf true, .op .pushcli, .swtch (), .op .popcli]

/-- The scheduler's thread opens its level with interrupts on (after the
first event) and closes it, back from `swtch`, with them off (after the
eighth).  On the CPU, the level opened with interrupts on after the ninth
event closes with them off, in the process that restored its own
`intena`. -/
theorem sched_breaks_nesting :
    ((Sys.init Unit).run (yieldTrace.take 1)).map (fun s => (s.cpu, s.cur)) =
        some (⟨0, false, true⟩, none) ∧
      ((Sys.init Unit).run (yieldTrace.take 8)).map (fun s => (s.cpu, s.cur)) =
        some (⟨0, false, false⟩, none) ∧
      ((Sys.init Unit).run (yieldTrace.take 9)).map (fun s => (s.cpu, s.cur)) =
        some (⟨0, false, true⟩, none) ∧
      ((Sys.init Unit).run yieldTrace).map (fun s => (s.cpu, s.cur)) =
        some (⟨0, false, false⟩, some ()) := by
  decide

end Xv6.Cli
