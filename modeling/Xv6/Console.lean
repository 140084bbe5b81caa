import Xv6.Ring

/-!
# Console input (`console.c`)

`input` is a circular buffer of `INPUT_BUF` characters with three
free-running 32-bit indices: `r`, where `consoleread` takes the next
character; `w`, the end of the committed input; and `e`, the end of the line
being edited.  `consoleintr` handles a batch of characters under
`cons.lock`.  `consoleread` runs under the same lock in stretches that end
where it sleeps on `input.r` or returns; a sleeping read resumes with the
bytes it still wants.  Any interleaving of batches and stretches is a list
of `Event`s.

What the buffer is for is a line editor, `Line`: the committed input not
yet read, and the line being typed, which backspace and `^U` edit and which
a newline, a `^D` or a full buffer commits.  The buffer holds the committed
input from `r` to `w` and the line from `w` to `e`; because `INPUT_BUF`
divides `2 ^ 32`, the cell an index names does not change when it wraps.
-/

namespace Xv6.Console

/-- `INPUT_BUF`. -/
def inputBuf : Nat := 128

/-- `C(x)`, the character typed as Control-`x`. -/
def ctrl (x : Char) : UInt8 := (x.toNat - '@'.toNat).toUInt8

/-- A character as the byte the buffer holds. -/
def ch (c : Char) : UInt8 := c.toNat.toUInt8

/-- The global `input`. -/
structure Input where
  buf : Nat → UInt8
  r : UInt32
  w : UInt32
  e : UInt32

/-- The cell `n % INPUT_BUF` of `buf`. -/
def slot (n : UInt32) : Nat := (n % 128).toNat

/-- How a stretch of `consoleread` ends: it returned `target - n`, it sleeps
on `input.r`, or it returned `-1` for a killed process. -/
inductive ReadStop
  | done
  | sleep
  | fail
  deriving DecidableEq, Repr

namespace Input

/-- `input` as the kernel starts: zero. -/
def init : Input := { buf := fun _ => 0, r := 0, w := 0, e := 0 }

/-- The `^U` loop, given `e - w` rounds: it erases while the line is not
empty and the character before `e` is not a newline. -/
def killLine (s : Input) : Nat → Input
  | 0 => s
  | k + 1 =>
    if s.e ≠ s.w ∧ s.buf (slot (s.e - 1)) ≠ ch '\n' then killLine { s with e := s.e - 1 } k
    else s

/-- One character of `consoleintr`'s loop. -/
def intr (s : Input) (c : UInt8) : Input :=
  if c = ctrl 'P' then s
  else if c = ctrl 'U' then s.killLine (s.e - s.w).toNat
  else if c = ctrl 'H' ∨ c = 0x7f then
    if s.e ≠ s.w then { s with e := s.e - 1 } else s
  else if c ≠ 0 ∧ s.e - s.r < 128 then
    let c := if c = ch '\r' then ch '\n' else c
    let s := { s with buf := Function.update s.buf (slot s.e) c, e := s.e + 1 }
    if c = ch '\n' ∨ c = ctrl 'D' ∨ s.e = s.r + 128 then { s with w := s.e } else s
  else s

/-- `consoleintr` over the characters `getc` returns before it returns `-1`. -/
def consoleintr (s : Input) (cs : List UInt8) : Input := cs.foldl intr s

/-- `consoleread`'s loop under `cons.lock`, from the start of the call or
from a wakeup, with `n` of `target` bytes still wanted: the input after it,
the bytes it copied, the bytes still wanted, and how it stopped. -/
def readLoop (target : Nat) (killed : Bool) (s : Input) :
    Nat → Input × List UInt8 × Nat × ReadStop
  | 0 => (s, [], 0, .done)
  | n + 1 =>
    if s.r = s.w then (s, [], n + 1, if killed then .fail else .sleep)
    else
      let c := s.buf (slot s.r)
      let s := { s with r := s.r + 1 }
      if c = ctrl 'D' then
        -- saved for the next call unless this one copied nothing
        ((if n + 1 < target then { s with r := s.r - 1 } else s), [], n + 1, .done)
      else if c = ch '\n' then (s, [c], n, .done)
      else
        let x := readLoop target killed s n
        (x.1, c :: x.2.1, x.2.2)

end Input

/-- A batch of `consoleintr`, or a stretch of `consoleread` with `n` of
`target` bytes still wanted by a process whose killed flag is `killed`. -/
inductive Event
  | intr (cs : List UInt8)
  | read (target n : Nat) (killed : Bool)

namespace Input

/-- One event: the input after it and the bytes a read copied. -/
def step (s : Input) : Event → Input × List UInt8
  | .intr cs => (s.consoleintr cs, [])
  | .read target n killed =>
    let x := readLoop target killed s n
    (x.1, x.2.1)

/-- A run of events: the input after them and all bytes copied, in order. -/
def run (s : Input) : List Event → Input × List UInt8
  | [] => (s, [])
  | e :: es =>
    let x := s.step e
    let y := x.1.run es
    (y.1, x.2 ++ y.2)

end Input

/-! ## The line editor -/

/-- What the console's input is for: the committed input not yet read, and
the line being edited. -/
structure Line where
  unread : List UInt8
  line : List UInt8

namespace Line

/-- A typed character: the editor after it and the characters it commits. -/
def intr (a : Line) (c : UInt8) : Line × List UInt8 :=
  if c = ctrl 'P' then (a, [])
  else if c = ctrl 'U' then ({ a with line := [] }, [])
  else if c = ctrl 'H' ∨ c = 0x7f then ({ a with line := a.line.dropLast }, [])
  else if c ≠ 0 ∧ a.unread.length + a.line.length < inputBuf then
    let c := if c = ch '\r' then ch '\n' else c
    let line := a.line ++ [c]
    if c = ch '\n' ∨ c = ctrl 'D' ∨ a.unread.length + line.length = inputBuf then
      (⟨a.unread ++ line, []⟩, line)
    else (⟨a.unread, line⟩, [])
  else (a, [])

def consoleintr (a : Line) : List UInt8 → Line × List UInt8
  | [] => (a, [])
  | c :: cs =>
    let x := a.intr c
    let y := x.1.consoleintr cs
    (y.1, x.2 ++ y.2)

/-- A read of the committed input: up to `n` characters, through the first
newline, stopping before a `^D`, which it takes only when nothing was copied. -/
def read (target : Nat) (killed : Bool) (a : Line) : Nat → Line × List UInt8 × Nat × ReadStop
  | 0 => (a, [], 0, .done)
  | n + 1 =>
    match a.unread with
    | [] => (a, [], n + 1, if killed then .fail else .sleep)
    | c :: rest =>
      if c = ctrl 'D' then
        ((if n + 1 < target then a else { a with unread := rest }), [], n + 1, .done)
      else if c = ch '\n' then ({ a with unread := rest }, [c], n, .done)
      else
        let x := read target killed { a with unread := rest } n
        (x.1, c :: x.2.1, x.2.2)

/-- One event: the editor after it, the bytes a read copied, and the
characters a batch committed. -/
def step (a : Line) : Event → Line × List UInt8 × List UInt8
  | .intr cs =>
    let x := a.consoleintr cs
    (x.1, [], x.2)
  | .read target n killed =>
    let x := read target killed a n
    (x.1, x.2.1, [])

def run (a : Line) : List Event → Line × List UInt8 × List UInt8
  | [] => (a, [], [])
  | e :: es =>
    let x := a.step e
    let y := x.1.run es
    (y.1, x.2.1 ++ y.2.1, x.2.2 ++ y.2.2)

/-- Characters other than `^D`. -/
def notEof (c : UInt8) : Bool := c != ctrl 'D'

variable {a : Line}

/-- Typing only ever appends to the committed input. -/
theorem intr_unread (c : UInt8) : (a.intr c).1.unread = a.unread ++ (a.intr c).2 := by
  unfold intr
  dsimp only
  split_ifs <;> simp

theorem consoleintr_unread (cs : List UInt8) :
    (a.consoleintr cs).1.unread = a.unread ++ (a.consoleintr cs).2 := by
  induction cs generalizing a with
  | nil => simp [consoleintr]
  | cons c cs ih => simp only [consoleintr, ih, intr_unread, List.append_assoc]

/-- A read copies the committed input in order, leaving the line as it is;
a `^D` it takes is copied nowhere. -/
theorem read_fifo (target : Nat) (killed : Bool) (n : Nat) :
    (a.read target killed n).2.1 ++ (a.read target killed n).1.unread.filter notEof =
      a.unread.filter notEof ∧ (a.read target killed n).1.line = a.line := by
  induction n generalizing a with
  | zero => simp [read]
  | succ n ih =>
    rcases a with ⟨_ | ⟨c, rest⟩, line⟩
    · simp [read]
    · by_cases hd : c = ctrl 'D'
      · -- a `^D` is copied nowhere, whether it is taken or saved
        have hfilter : (c :: rest).filter notEof = rest.filter notEof := by simp [notEof, hd]
        simp only [read, if_pos hd]
        split_ifs <;> simp [hfilter]
      · have heof : notEof c = true := by simp [notEof, hd]
        by_cases hnl : c = ch '\n'
        · simp only [read, if_neg hd, if_pos hnl]
          simp [heof]
        · obtain ⟨hfifo, hline⟩ := ih (a := ⟨rest, line⟩)
          simp only [read, hd, hnl, if_false, List.cons_append, hfifo, hline, List.filter_cons, heof,
            if_true, and_self]

theorem step_fifo (e : Event) :
    (a.step e).2.1 ++ (a.step e).1.unread.filter notEof =
      (a.unread ++ (a.step e).2.2).filter notEof := by
  cases e with
  | intr cs => simp [step, consoleintr_unread]
  | read target n killed => simpa [step] using (read_fifo target killed n).1

theorem run_fifo (es : List Event) :
    (a.run es).2.1 ++ (a.run es).1.unread.filter notEof =
      (a.unread ++ (a.run es).2.2).filter notEof := by
  induction es generalizing a with
  | nil => simp [run]
  | cons e es ih =>
    -- the rest of the run, then the first event, each as a FIFO
    let x := a.step e
    let y := x.1.run es
    calc (x.2.1 ++ y.2.1) ++ y.1.unread.filter notEof
        = x.2.1 ++ (x.1.unread ++ y.2.2).filter notEof := by rw [List.append_assoc, ih]
      _ = (x.2.1 ++ x.1.unread.filter notEof) ++ y.2.2.filter notEof := by
          rw [List.filter_append, List.append_assoc]
      _ = (a.unread ++ (x.2.2 ++ y.2.2)).filter notEof := by
          rw [step_fifo e, ← List.filter_append, List.append_assoc]

end Line

/-! ## The buffer holds a line editor -/

namespace Input

/-- `w - r` and `e - r`, modulo `2 ^ 32`: the committed characters not yet
read, and those and the line together. -/
def ready (s : Input) : Nat := (s.w - s.r).toNat

def filled (s : Input) : Nat := (s.e - s.r).toNat

/-- The characters from `r` to `e`. -/
def chars (s : Input) : List UInt8 := Ring.view inputBuf s.buf s.r.toNat s.filled

/-- The line editor the buffer holds: the characters from `r` to `w`, and
those from `w` to `e`. -/
def toLine (s : Input) : Line := ⟨s.chars.take s.ready, s.chars.drop s.ready⟩

/-- What every event keeps: `w - r ≤ e - r ≤ INPUT_BUF` modulo `2 ^ 32`, and
no newline in the line, which a newline commits. -/
structure Inv (s : Input) : Prop where
  ready_le : s.ready ≤ s.filled
  filled_le : s.filled ≤ inputBuf
  newline : ch '\n' ∉ s.toLine.line

variable {s : Input}

theorem slot_eq (n : UInt32) : slot n = n.toNat % inputBuf := by
  simp [slot, UInt32.toNat_mod, inputBuf]

@[simp] theorem length_chars : s.chars.length = s.filled := Ring.length_view

theorem length_unread (h : s.ready ≤ s.filled) : s.toLine.unread.length = s.ready := by
  simp [toLine, h]

theorem length_line : s.toLine.line.length = s.filled - s.ready := by
  simp [toLine]

theorem e_toNat : s.e.toNat = (s.r.toNat + s.filled) % 2 ^ 32 := by
  have := s.r.toNat_lt
  have := s.e.toNat_lt
  simp only [filled, UInt32.toNat_sub]
  omega

theorem e_eq_w_iff : s.e = s.w ↔ s.filled = s.ready := by
  have := s.r.toNat_lt
  have := s.w.toNat_lt
  have := s.e.toNat_lt
  simp only [UInt32.ext_iff, filled, ready, UInt32.toNat_sub]
  omega

theorem r_eq_w_iff : s.r = s.w ↔ s.ready = 0 := by
  have := s.r.toNat_lt
  have := s.w.toNat_lt
  simp only [UInt32.ext_iff, ready, UInt32.toNat_sub]
  omega

theorem room_iff : s.e - s.r < 128 ↔ s.filled < inputBuf := by
  simp [UInt32.lt_iff_toNat_lt, filled, inputBuf]

/-! ### The four ways the indices move -/

/-- Storing a character at `e`: the line gains it. -/
theorem chars_store (h : s.filled < inputBuf) (c : UInt8) :
    ({ s with buf := Function.update s.buf (slot s.e) c, e := s.e + 1 } : Input).filled =
        s.filled + 1 ∧
      ({ s with buf := Function.update s.buf (slot s.e) c, e := s.e + 1 } : Input).chars =
        s.chars ++ [c] := by
  have hfilled : ({ s with buf := Function.update s.buf (slot s.e) c, e := s.e + 1 } : Input).filled =
      s.filled + 1 := by
    have := s.r.toNat_lt
    have := s.e.toNat_lt
    simp only [filled, UInt32.toNat_sub, UInt32.toNat_add, inputBuf] at h ⊢
    simp only [UInt32.reduceToNat]
    omega
  refine ⟨hfilled, ?_⟩
  have hslot : slot s.e = (s.r.toNat + s.filled) % inputBuf := by
    rw [slot_eq, e_toNat, inputBuf]
    omega
  unfold chars
  rw [hfilled]
  dsimp only
  rw [hslot]
  exact Ring.view_push h c

/-- Erasing the character before `e`. -/
theorem chars_erase (h : 0 < s.filled) :
    ({ s with e := s.e - 1 } : Input).filled = s.filled - 1 ∧
      s.chars = ({ s with e := s.e - 1 } : Input).chars ++ [s.buf (slot (s.e - 1))] := by
  have hfilled : ({ s with e := s.e - 1 } : Input).filled = s.filled - 1 := by
    have := s.r.toNat_lt
    have := s.e.toNat_lt
    simp only [filled, UInt32.toNat_sub] at h ⊢
    simp only [UInt32.reduceToNat]
    omega
  refine ⟨hfilled, ?_⟩
  have hslot : slot (s.e - 1) = (s.r.toNat + (s.filled - 1)) % inputBuf := by
    have := s.e.toNat_lt
    rw [slot_eq, UInt32.toNat_sub, e_toNat, inputBuf]
    simp only [UInt32.reduceToNat]
    omega
  obtain ⟨m, hm⟩ : ∃ m, s.filled = m + 1 := ⟨s.filled - 1, by omega⟩
  simp only [chars, hfilled, hslot, hm, Nat.add_sub_cancel]
  exact Ring.view_concat

/-- Taking the character at `r`. -/
theorem chars_advance (h : 0 < s.ready) (hle : s.ready ≤ s.filled) :
    ({ s with r := s.r + 1 } : Input).ready = s.ready - 1 ∧
      ({ s with r := s.r + 1 } : Input).filled = s.filled - 1 ∧
      s.chars = s.buf (slot s.r) :: ({ s with r := s.r + 1 } : Input).chars := by
  have := s.r.toNat_lt
  have := s.w.toNat_lt
  have := s.e.toNat_lt
  have hready : ({ s with r := s.r + 1 } : Input).ready = s.ready - 1 := by
    simp only [ready, UInt32.toNat_sub, UInt32.toNat_add] at h ⊢
    simp only [UInt32.reduceToNat]
    omega
  have hfilled : ({ s with r := s.r + 1 } : Input).filled = s.filled - 1 := by
    simp only [ready, filled, UInt32.toNat_sub, UInt32.toNat_add] at h hle ⊢
    simp only [UInt32.reduceToNat]
    omega
  refine ⟨hready, hfilled, ?_⟩
  have hhead : (s.r + 1).toNat % inputBuf = (s.r.toNat + 1) % inputBuf := by
    simp only [UInt32.toNat_add, UInt32.reduceToNat, inputBuf]
    omega
  obtain ⟨m, hm⟩ : ∃ m, s.filled = m + 1 := ⟨s.filled - 1, by omega⟩
  simp only [chars, hfilled, hm, Nat.add_sub_cancel, slot_eq]
  rw [Ring.view_succ, Ring.view_congr_head hhead]

/-! ### Each move as an edit of the line editor -/

theorem toLine_store (hi : s.Inv) (h : s.filled < inputBuf) (c : UInt8) :
    ({ s with buf := Function.update s.buf (slot s.e) c, e := s.e + 1 } : Input).toLine =
      ⟨s.toLine.unread, s.toLine.line ++ [c]⟩ := by
  obtain ⟨-, hchars⟩ := chars_store h c
  have hready : ({ s with buf := Function.update s.buf (slot s.e) c, e := s.e + 1 } : Input).ready =
      s.ready := rfl
  have hle : s.ready ≤ s.chars.length := by simpa using hi.ready_le
  simp only [toLine, hchars, hready]
  rw [List.take_append_of_le_length hle, List.drop_append_of_le_length hle]

/-- The last character of the line is the one before `e`. -/
theorem toLine_erase (h : s.ready < s.filled) :
    s.toLine = ⟨({ s with e := s.e - 1 } : Input).toLine.unread,
      ({ s with e := s.e - 1 } : Input).toLine.line ++ [s.buf (slot (s.e - 1))]⟩ := by
  obtain ⟨hfilled, hchars⟩ := chars_erase (by omega : 0 < s.filled)
  have hready : ({ s with e := s.e - 1 } : Input).ready = s.ready := rfl
  have hle : s.ready ≤ ({ s with e := s.e - 1 } : Input).chars.length := by
    simp only [length_chars, hfilled]
    omega
  simp only [toLine, hready]
  rw [hchars, List.take_append_of_le_length hle, List.drop_append_of_le_length hle]

/-- Cutting the line: `e` moves back to `w`. -/
theorem toLine_cut (h : s.ready ≤ s.filled) :
    ({ s with e := s.w } : Input).toLine = ⟨s.toLine.unread, []⟩ := by
  have hchars : s.chars = ({ s with e := s.w } : Input).chars ++
      Ring.view inputBuf s.buf (s.r.toNat + s.ready) (s.filled - s.ready) := by
    have hview : Ring.view inputBuf s.buf s.r.toNat (s.ready + (s.filled - s.ready)) =
        Ring.view inputBuf s.buf s.r.toNat s.ready ++
          Ring.view inputBuf s.buf (s.r.toNat + s.ready) (s.filled - s.ready) :=
      Ring.view_add _ _
    rw [Nat.add_sub_cancel' h] at hview
    exact hview
  have hready : ({ s with e := s.w } : Input).ready = s.ready := rfl
  have hlen : ({ s with e := s.w } : Input).chars.length = s.ready := by simp [filled, ready]
  simp only [toLine, hready]
  rw [hchars, List.take_append_of_le_length hlen.ge, ← hlen, List.take_length, List.drop_length]

/-- Committing the line: `w` moves to `e`. -/
theorem toLine_commit :
    ({ s with w := s.e } : Input).toLine = ⟨s.toLine.unread ++ s.toLine.line, []⟩ := by
  show (⟨s.chars.take s.filled, s.chars.drop s.filled⟩ : Line) =
    ⟨s.chars.take s.ready ++ s.chars.drop s.ready, []⟩
  rw [List.take_append_drop, ← length_chars, List.take_length, List.drop_length]

theorem toLine_advance (hi : s.Inv) (h : 0 < s.ready) :
    s.toLine = ⟨s.buf (slot s.r) :: ({ s with r := s.r + 1 } : Input).toLine.unread,
      ({ s with r := s.r + 1 } : Input).toLine.line⟩ := by
  obtain ⟨hready, -, hchars⟩ := chars_advance h hi.ready_le
  obtain ⟨m, hm⟩ : ∃ m, s.ready = m + 1 := ⟨s.ready - 1, by omega⟩
  simp only [toLine, hready, hm, Nat.add_sub_cancel]
  rw [hchars, List.take_succ_cons, List.drop_succ_cons]

/-! ### Every event keeps `Inv` and edits the line editor as `Line` says -/

theorem Inv.erase (hi : s.Inv) (h : s.ready < s.filled) : ({ s with e := s.e - 1 } : Input).Inv := by
  obtain ⟨hfilled, -⟩ := chars_erase (by omega : 0 < s.filled)
  have hline := hi.newline
  rw [toLine_erase h] at hline
  exact ⟨by simp only [hfilled]; exact Nat.le_sub_one_of_lt h, by rw [hfilled]; have := hi.filled_le; omega,
    fun hin => hline (List.mem_append_left _ hin)⟩

theorem Inv.cut (hi : s.Inv) : ({ s with e := s.w } : Input).Inv := by
  have hfilled : ({ s with e := s.w } : Input).filled = s.ready := rfl
  refine ⟨by rw [hfilled]; rfl, by rw [hfilled]; exact hi.ready_le.trans hi.filled_le, ?_⟩
  rw [toLine_cut hi.ready_le]
  simp

theorem Inv.commit (h : s.filled ≤ inputBuf) : ({ s with w := s.e } : Input).Inv := by
  refine ⟨le_refl _, h, ?_⟩
  rw [toLine_commit]
  simp

theorem Inv.store (hi : s.Inv) (h : s.filled < inputBuf) {c : UInt8} (hc : c ≠ ch '\n') :
    ({ s with buf := Function.update s.buf (slot s.e) c, e := s.e + 1 } : Input).Inv := by
  obtain ⟨hfilled, -⟩ := chars_store h c
  have hready : ({ s with buf := Function.update s.buf (slot s.e) c, e := s.e + 1 } : Input).ready =
      s.ready := rfl
  refine ⟨by rw [hfilled, hready]; have := hi.ready_le; omega, by rw [hfilled]; omega, ?_⟩
  rw [toLine_store hi h c]
  simp only [List.mem_append, List.mem_singleton, not_or]
  exact ⟨hi.newline, fun he => hc he.symm⟩

theorem Inv.advance (hi : s.Inv) (h : 0 < s.ready) : ({ s with r := s.r + 1 } : Input).Inv := by
  obtain ⟨hready, hfilled, -⟩ := chars_advance h hi.ready_le
  have hline := hi.newline
  rw [toLine_advance hi h] at hline
  exact ⟨by rw [hready, hfilled]; have := hi.ready_le; omega,
    by rw [hfilled]; have := hi.filled_le; omega, hline⟩

/-- The `^U` loop erases the whole line: no character of it is a newline. -/
theorem killLine_eq (hi : s.Inv) : s.killLine (s.e - s.w).toNat = { s with e := s.w } := by
  have hk : (s.e - s.w).toNat = s.filled - s.ready := by
    have := s.r.toNat_lt
    have := s.w.toNat_lt
    have := s.e.toNat_lt
    have := hi.ready_le
    simp only [filled, ready, UInt32.toNat_sub] at this ⊢
    omega
  rw [hk]
  clear hk
  -- one round per character of the line
  generalize hm : s.filled - s.ready = m
  induction m generalizing s with
  | zero =>
    have he : s.e = s.w := e_eq_w_iff.mpr (by have := hi.ready_le; omega)
    obtain ⟨buf, r, w, e⟩ := s
    simp only at he
    subst he
    rfl
  | succ m ih =>
    have hlt : s.ready < s.filled := by omega
    have hne : s.e ≠ s.w := fun he => by have := e_eq_w_iff.mp he; omega
    have hlast : s.buf (slot (s.e - 1)) ≠ ch '\n' := by
      intro hnl
      have hline := hi.newline
      rw [toLine_erase hlt, hnl] at hline
      exact hline (List.mem_append_right _ (List.mem_singleton_self _))
    obtain ⟨hfilled, -⟩ := chars_erase (by omega : 0 < s.filled)
    have hm' : ({ s with e := s.e - 1 } : Input).filled - ({ s with e := s.e - 1 } : Input).ready = m := by
      rw [hfilled]
      show s.filled - 1 - s.ready = m
      omega
    rw [killLine, if_pos ⟨hne, hlast⟩, ih (hi.erase hlt) hm']

theorem intr_refines (hi : s.Inv) (c : UInt8) :
    (s.intr c).Inv ∧ (s.intr c).toLine = (s.toLine.intr c).1 := by
  unfold intr Line.intr
  dsimp only
  by_cases hP : c = ctrl 'P'
  · rw [if_pos hP, if_pos hP]
    exact ⟨hi, rfl⟩
  by_cases hU : c = ctrl 'U'
  · rw [if_neg hP, if_neg hP, if_pos hU, if_pos hU, killLine_eq hi]
    exact ⟨hi.cut, toLine_cut hi.ready_le⟩
  by_cases hH : c = ctrl 'H' ∨ c = 0x7f
  · rw [if_neg hP, if_neg hP, if_neg hU, if_neg hU, if_pos hH, if_pos hH]
    by_cases he : s.e = s.w
    · -- an empty line stays empty
      have hempty : s.toLine.line = [] := by
        rw [← List.length_eq_zero_iff, length_line, e_eq_w_iff.mp he, Nat.sub_self]
      rw [if_neg (not_not.mpr he)]
      exact ⟨hi, by rw [hempty, List.dropLast_nil, ← hempty]⟩
    · have hlt : s.ready < s.filled := lt_of_le_of_ne hi.ready_le (fun h => he (e_eq_w_iff.mpr h.symm))
      rw [if_pos he, toLine_erase hlt]
      exact ⟨hi.erase hlt, by simp⟩
  have hlen : s.toLine.unread.length + s.toLine.line.length = s.filled := by
    rw [length_unread hi.ready_le, length_line]
    have := hi.ready_le
    omega
  simp only [if_neg hP, if_neg hU, if_neg hH, room_iff, hlen]
  by_cases hroom : c ≠ 0 ∧ s.filled < inputBuf
  · rw [if_pos hroom, if_pos hroom]
    -- the character, with a carriage return read as a newline, goes on the line
    generalize hc' : (if c = ch '\r' then ch '\n' else c) = c'
    have hfull : s.e + 1 = s.r + 128 ↔
        s.toLine.unread.length + (s.toLine.line ++ [c']).length = inputBuf := by
      have := s.r.toNat_lt
      have := s.e.toNat_lt
      have := hroom.2
      rw [List.length_append, List.length_singleton, ← Nat.add_assoc, hlen]
      simp only [UInt32.ext_iff, UInt32.toNat_add, filled, UInt32.toNat_sub, inputBuf] at this ⊢
      simp only [UInt32.reduceToNat]
      omega
    have hstored := toLine_store hi hroom.2 c'
    by_cases hcommit : c' = ch '\n' ∨ c' = ctrl 'D' ∨ s.e + 1 = s.r + 128
    · have hcommit' : c' = ch '\n' ∨ c' = ctrl 'D' ∨
          s.toLine.unread.length + (s.toLine.line ++ [c']).length = inputBuf := by
        rwa [← hfull]
      rw [if_pos hcommit, if_pos hcommit']
      obtain ⟨hfilled, -⟩ := chars_store hroom.2 c'
      refine ⟨Inv.commit (by rw [hfilled]; exact hroom.2), ?_⟩
      have hcommitted :=
        toLine_commit (s := { s with buf := Function.update s.buf (slot s.e) c', e := s.e + 1 })
      dsimp only at hcommitted
      rw [hcommitted, hstored]
    · have hcommit' : ¬(c' = ch '\n' ∨ c' = ctrl 'D' ∨
          s.toLine.unread.length + (s.toLine.line ++ [c']).length = inputBuf) := by
        rwa [← hfull]
      rw [if_neg hcommit, if_neg hcommit']
      exact ⟨hi.store hroom.2 (fun h => hcommit (.inl h)), hstored⟩
  · rw [if_neg hroom, if_neg hroom]
    exact ⟨hi, rfl⟩

theorem consoleintr_refines (hi : s.Inv) (cs : List UInt8) :
    (s.consoleintr cs).Inv ∧ (s.consoleintr cs).toLine = (s.toLine.consoleintr cs).1 := by
  induction cs generalizing s with
  | nil => exact ⟨hi, rfl⟩
  | cons c cs ih =>
    obtain ⟨hi', hline⟩ := intr_refines hi c
    obtain ⟨hi'', hline'⟩ := ih hi'
    refine ⟨hi'', ?_⟩
    show ((s.intr c).consoleintr cs).toLine = ((s.toLine.intr c).1.consoleintr cs).1
    rw [hline', hline]

/-- A stretch of `consoleread` takes what the line editor's read takes. -/
theorem readLoop_refines (hi : s.Inv) (target : Nat) (killed : Bool) (n : Nat) :
    (readLoop target killed s n).1.Inv ∧
      (readLoop target killed s n).1.toLine = (s.toLine.read target killed n).1 ∧
      (readLoop target killed s n).2 = (s.toLine.read target killed n).2 := by
  induction n generalizing s with
  | zero => exact ⟨hi, rfl, rfl⟩
  | succ n ih =>
    rw [readLoop]
    by_cases hrw : s.r = s.w
    · -- no committed input: the reader sleeps or fails
      have hempty : s.toLine.unread = [] := by
        rw [← List.length_eq_zero_iff, length_unread hi.ready_le, r_eq_w_iff.mp hrw]
      rw [if_pos hrw]
      dsimp only
      rcases hl : s.toLine with ⟨u, l⟩
      rw [hl] at hempty
      subst hempty
      exact ⟨hi, rfl, rfl⟩
    · have hpos : 0 < s.ready := Nat.pos_of_ne_zero (fun h => hrw (r_eq_w_iff.mpr h))
      have hi' := hi.advance hpos
      obtain ⟨ih₁, ih₂, ih₃⟩ := ih hi'
      rw [if_neg hrw]
      dsimp only
      rw [toLine_advance hi hpos]
      simp only [Line.read]
      by_cases hd : s.buf (slot s.r) = ctrl 'D'
      · rw [if_pos hd, if_pos hd]
        by_cases hn : n + 1 < target
        · -- the `^D` is put back: the input is as before
          have hback : ({ s with r := s.r + 1 - 1 } : Input) = s := by simp
          rw [if_pos hn, if_pos hn, hback, toLine_advance hi hpos]
          exact ⟨hi, rfl, rfl⟩
        · rw [if_neg hn, if_neg hn]
          exact ⟨hi', rfl, rfl⟩
      · rw [if_neg hd, if_neg hd]
        by_cases hnl : s.buf (slot s.r) = ch '\n'
        · rw [if_pos hnl, if_pos hnl]
          exact ⟨hi', rfl, rfl⟩
        · rw [if_neg hnl, if_neg hnl]
          exact ⟨ih₁, ih₂, by rw [ih₃]⟩

theorem step_refines (hi : s.Inv) (e : Event) :
    (s.step e).1.Inv ∧ (s.step e).1.toLine = (s.toLine.step e).1 ∧
      (s.step e).2 = (s.toLine.step e).2.1 := by
  cases e with
  | intr cs =>
    obtain ⟨hi', hline⟩ := consoleintr_refines hi cs
    exact ⟨hi', hline, rfl⟩
  | read target n killed =>
    obtain ⟨hi', hline, hout⟩ := readLoop_refines hi target killed n
    exact ⟨hi', hline, by simp only [step, Line.step, hout]⟩

theorem run_refines (hi : s.Inv) (es : List Event) :
    (s.run es).1.Inv ∧ (s.run es).1.toLine = (s.toLine.run es).1 ∧
      (s.run es).2 = (s.toLine.run es).2.1 := by
  induction es generalizing s with
  | nil => exact ⟨hi, rfl, rfl⟩
  | cons e es ih =>
    obtain ⟨hi', hline, hout⟩ := step_refines hi e
    obtain ⟨hi'', hline', hout'⟩ := ih hi'
    refine ⟨hi'', ?_, ?_⟩
    · show ((s.step e).1.run es).1.toLine = ((s.toLine.step e).1.run es).1
      rw [hline', hline]
    · show (s.step e).2 ++ ((s.step e).1.run es).2 =
        (s.toLine.step e).2.1 ++ ((s.toLine.step e).1.run es).2.1
      rw [hout', hline, hout]

/-- A stretch never wants more bytes than it started with. -/
theorem readLoop_le (target : Nat) (killed : Bool) (s : Input) (n : Nat) :
    (readLoop target killed s n).2.2.1 ≤ n := by
  induction n generalizing s with
  | zero => exact le_refl 0
  | succ n ih =>
    rw [readLoop]
    by_cases hrw : s.r = s.w
    · rw [if_pos hrw]
    · rw [if_neg hrw]
      dsimp only
      split_ifs
      · exact le_refl _
      · exact le_refl _
      · exact Nat.le_succ n
      · exact (ih _).trans (Nat.le_succ n)

/-- A stretch that had copied nothing and returns `0` took a `^D` first. -/
theorem readLoop_zero {target n : Nat} {killed : Bool} {s' : Input} {out : List UInt8} {n' : Nat}
    (h : readLoop target killed s n = (s', out, n', .done)) (hn : 0 < n) (htarget : n ≤ target)
    (hzero : target - n' = 0) : s.r ≠ s.w ∧ s.buf (slot s.r) = ctrl 'D' := by
  obtain ⟨m, rfl⟩ : ∃ m, n = m + 1 := ⟨n - 1, by omega⟩
  rw [readLoop] at h
  by_cases hrw : s.r = s.w
  · rw [if_pos hrw] at h
    cases killed <;> simp at h
  · rw [if_neg hrw] at h
    refine ⟨hrw, ?_⟩
    by_contra hd
    dsimp only at h
    rw [if_neg hd] at h
    -- otherwise a character was copied, and fewer than `target` bytes are still wanted
    have hle : n' ≤ m := by
      split_ifs at h
      · simp only [Prod.mk.injEq] at h
        exact h.2.2.1.ge
      · simp only [Prod.mk.injEq] at h
        rw [← (Prod.mk.inj h.2.2).1]
        exact readLoop_le target killed _ m
    omega

theorem inv_init : init.Inv := by
  refine ⟨le_refl _, by simp [filled, init, inputBuf], ?_⟩
  simp [toLine, chars, init, filled]

theorem toLine_init : init.toLine = ⟨[], []⟩ := by
  simp [toLine, chars, init, filled]

end Input

/-- Any interleaving of `consoleintr` batches and `consoleread` stretches,
from the kernel's zeroed `input`: `w - r ≤ e - r ≤ INPUT_BUF` modulo
`2 ^ 32`; a typed character only appends to the committed input, so
backspace and `^U` erase nothing from `r` to `w`; the buffer holds the line
editor's state and the reads return what the editor's reads return, and
those bytes, followed by what is left to read, are the committed
characters in order (a carriage return committed as a newline), with every
`^D` left out; and a stretch that wants `n > 0` bytes of a call that has
copied none returns `0` only when the first character it takes is `^D`. -/
theorem console_line_discipline (es : List Event) :
    let s := (Input.init.run es).1
    let a := (Line.mk [] []).run es
    s.ready ≤ s.filled ∧ s.filled ≤ inputBuf ∧
      (∀ c, (s.intr c).toLine = (s.toLine.intr c).1 ∧
        (s.intr c).toLine.unread = s.toLine.unread ++ (s.toLine.intr c).2) ∧
      s.toLine = a.1 ∧ (Input.init.run es).2 = a.2.1 ∧
      a.2.1 ++ s.toLine.unread.filter Line.notEof = a.2.2.filter Line.notEof ∧
      ∀ target n killed s' out n', Input.readLoop target killed s n = (s', out, n', .done) →
        0 < n → n ≤ target → target - n' = 0 → s.r ≠ s.w ∧ s.buf (slot s.r) = ctrl 'D' := by
  intro s a
  obtain ⟨hi, hline, hout⟩ := Input.run_refines Input.inv_init es
  rw [Input.toLine_init] at hline hout
  refine ⟨hi.ready_le, hi.filled_le, fun c => ?_, hline, hout, ?_,
    fun _ _ _ _ _ _ h hn ht hz => Input.readLoop_zero h hn ht hz⟩
  · obtain ⟨-, hc⟩ := Input.intr_refines hi c
    exact ⟨hc, by rw [hc, Line.intr_unread]⟩
  · -- the line editor's reads are a FIFO of what it committed
    have hfifo := Line.run_fifo (a := ⟨[], []⟩) es
    rw [hline]
    simpa using hfifo

end Xv6.Console
