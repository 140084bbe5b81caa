import Xv6.Log

/-!
# Crash atomicity of the log

`commit` makes its block writes one at a time, and a crash may stop it after
any number of them; at the next boot `recover_from_log` runs, and a crash may
stop that too, any number of times.  Every disk these crashes leave is
`Recoverable`: either its header is empty and the home blocks all hold their
old contents or all hold their new ones, or its header names the
transaction, the log blocks hold the new contents, and each home block holds
its old or its new contents.  Every prefix of `commit`'s writes, and every
prefix of a recovery's writes from a recoverable disk, leaves a recoverable
disk; a recovery that runs to its end leaves the old home contents or the
new ones, never a mix.
-/

namespace Xv6.Logging

open Writes

variable {α : Type*}

/-- A block outside the `size` blocks of the log from `start` on: a home
location. -/
def Home (start size x : Nat) : Prop := x < start ∨ start + size ≤ x

theorem Home.ne_log {start size x i : Nat} (h : Home start size x) (hi : i < size) :
    x ≠ start + i := by
  unfold Home at h
  omega

/-! ## What `install_trans` writes -/

section Install

variable {start tail : Nat} {bs : List Nat} {d : Nat → α}

theorem mem_installTrans {w : Nat × α} (h : w ∈ installTrans start tail bs d) : w.1 ∈ bs := by
  induction bs generalizing tail d with
  | nil => simp [installTrans] at h
  | cons b bs ih =>
    rcases List.mem_cons.mp h with rfl | h
    · exact List.mem_cons_self
    · exact List.mem_cons_of_mem _ (ih h)

theorem installTrans_covers {b : Nat} (hb : b ∈ bs) :
    ∃ w ∈ installTrans start tail bs d, w.1 = b := by
  induction bs generalizing tail d with
  | nil => simp at hb
  | cons c bs ih =>
    rcases List.mem_cons.mp hb with rfl | hb
    · exact ⟨_, List.mem_cons_self, rfl⟩
    · obtain ⟨w, hw, hwb⟩ := @ih (tail + 1) (Function.update d c (d (start + tail + 1))) hb
      exact ⟨w, List.mem_cons_of_mem _ hw, hwb⟩

/-- When the log blocks from `tail` on hold the cached contents of the header's
blocks, and those are home blocks, every block is installed with its cached
contents: installing one block does not touch the log blocks read later. -/
theorem installTrans_value {size : Nat} {cache : Nat → α}
    (hlog : ∀ i (hi : i < bs.length), d (start + tail + i + 1) = cache bs[i])
    (hhome : ∀ b ∈ bs, Home start size b) (hlen : tail + bs.length < size) :
    ∀ w ∈ installTrans start tail bs d, w.2 = cache w.1 := by
  induction bs generalizing tail d with
  | nil => simp [installTrans]
  | cons b bs ih =>
    simp only [List.length_cons] at hlen
    intro w hw
    rcases List.mem_cons.mp hw with rfl | hw
    · exact hlog 0 (by simp)
    · refine ih ?_ (fun c hc => hhome c (List.mem_cons_of_mem _ hc)) (by omega) w hw
      intro i hi
      have hne : b ≠ start + (tail + i + 2) :=
        (hhome b List.mem_cons_self).ne_log (show tail + i + 2 < size by omega)
      have hidx : start + (tail + 1) + i + 1 = start + tail + (i + 1) + 1 := by omega
      rw [hidx, Function.update_of_ne (by omega), hlog (i + 1) (by simp; omega)]
      rfl

end Install

/-! ## Transactions and the disks a crash leaves -/

/-- The format of the header block: `write_head` puts a header of at most
`LOGSIZE` entries over the old contents, and `read_head` reads it back. -/
structure HeadFormat (α : Type*) where
  enc : List Nat → α → α
  dec : α → List Nat
  dec_enc : ∀ lh a, lh.length ≤ logsize → dec (enc lh a) = lh

/-- `struct logheader` as the list of its `int`s, the count and then the block
numbers: `write_head` overwrites the first `n + 1` of them and keeps the rest. -/
def logheader : HeadFormat (List Nat) where
  enc lh a := lh.length :: lh ++ a.drop (lh.length + 1)
  dec a := (a.drop 1).take (a.headD 0)
  dec_enc lh a _ := by simp

/-- A transaction as `commit` finds it: the disk before it, whose header is
empty; the header `lh`, which `log_write` keeps below both `LOGSIZE` and
`log.size - 1` entries; the cached new contents of its blocks; and its blocks
outside the log. -/
structure Txn (f : HeadFormat α) where
  start : Nat
  size : Nat
  disk : Nat → α
  lh : List Nat
  cache : Nat → α
  clean : f.dec (disk start) = []
  le_logsize : lh.length ≤ logsize
  lt_size : lh.length < size
  home : ∀ b ∈ lh, Home start size b

namespace Txn

variable {f : HeadFormat α} (t : Txn f)

/-- The disk with the transaction installed. -/
def installed (x : Nat) : α := if x ∈ t.lh then t.cache x else t.disk x

/-- The writes of `commit`. -/
def commit : List (Nat × α) := commitWrites f.enc t.start t.lh t.cache t.disk

end Txn

/-- The writes of `recover_from_log` over `d`. -/
def HeadFormat.recovery (f : HeadFormat α) (start : Nat) (d : Nat → α) : List (Nat × α) :=
  recoverWrites f.enc f.dec start d

/-- Recoveries from `d` that crash after `k` of their writes, for each `k` of
`ks` in turn. -/
def HeadFormat.crashRecoveries (f : HeadFormat α) (start : Nat) :
    List Nat → (Nat → α) → Nat → α
  | [], d => d
  | k :: ks, d => f.crashRecoveries start ks (apply ((f.recovery start d).take k) d)

section Crash

variable {f : HeadFormat α} (t : Txn f)

/-- The disks from which recovery restores the old or the new home contents. -/
inductive Recoverable (d : Nat → α) : Prop
  | old (hhead : f.dec (d t.start) = [])
      (hhome : ∀ x, Home t.start t.size x → d x = t.disk x)
  | new (hhead : f.dec (d t.start) = [])
      (hhome : ∀ x, Home t.start t.size x → d x = t.installed x)
  | committed (hhead : f.dec (d t.start) = t.lh)
      (hlog : ∀ i (hi : i < t.lh.length), d (t.start + i + 1) = t.cache t.lh[i])
      (hhome : ∀ x, Home t.start t.size x → d x = t.disk x ∨ d x = t.installed x)

variable {t}

theorem Txn.size_pos : 0 < t.size := by
  have := t.lt_size
  omega

theorem Txn.home_ne_start {x : Nat} (hx : Home t.start t.size x) : x ≠ t.start := by
  simpa using hx.ne_log t.size_pos

theorem Txn.home_ne_log {x i : Nat} (hx : Home t.start t.size x) (hi : i < t.lh.length) :
    x ≠ t.start + i + 1 := by
  simpa [Nat.add_assoc] using hx.ne_log (show i + 1 < t.size by have := t.lt_size; omega)

theorem Txn.installed_of_not_mem {x : Nat} (hx : x ∉ t.lh) : t.installed x = t.disk x := by
  simp [Txn.installed, hx]

theorem Txn.installed_of_mem {x : Nat} (hx : x ∈ t.lh) : t.installed x = t.cache x := by
  simp [Txn.installed, hx]

/-- Writing an empty header over a disk whose home blocks are all old or all
new leaves a recoverable disk of the same kind. -/
theorem Recoverable.clear {d : Nat → α} (a : α)
    (hhome : (∀ x, Home t.start t.size x → d x = t.disk x) ∨
      (∀ x, Home t.start t.size x → d x = t.installed x)) :
    Recoverable t (Function.update d t.start (f.enc [] a)) := by
  have hhead : f.dec (Function.update d t.start (f.enc [] a) t.start) = [] := by
    rw [Function.update_self]
    exact f.dec_enc [] a (Nat.zero_le _)
  have hkeep : ∀ x, Home t.start t.size x → Function.update d t.start (f.enc [] a) x = d x :=
    fun x hx => Function.update_of_ne (t.home_ne_start hx) _ _
  rcases hhome with hold | hnew
  · exact .old hhead fun x hx => (hkeep x hx).trans (hold x hx)
  · exact .new hhead fun x hx => (hkeep x hx).trans (hnew x hx)

/-! ### Recovery -/

theorem Recoverable.empty_home {d : Nat → α} (h : Recoverable t d) (hhead : f.dec (d t.start) = []) :
    (∀ x, Home t.start t.size x → d x = t.disk x) ∨
      (∀ x, Home t.start t.size x → d x = t.installed x) := by
  rcases h with ⟨-, hold⟩ | ⟨-, hnew⟩ | ⟨hlh, -, hhome⟩
  · exact .inl hold
  · exact .inr hnew
  · -- an empty header naming the transaction: the transaction is empty
    have hnil : t.lh = [] := hlh.symm.trans hhead
    refine .inl fun x hx => ?_
    have hx' : x ∉ t.lh := by simp [hnil]
    rcases hhome x hx with h | h
    · exact h
    · exact h.trans (t.installed_of_not_mem hx')

/-- The writes of recovering a disk whose header names the transaction: each
one installs a block of the transaction with its new contents. -/
theorem Recoverable.install_value {d : Nat → α}
    (hlog : ∀ i (hi : i < t.lh.length), d (t.start + i + 1) = t.cache t.lh[i]) :
    ∀ w ∈ installTrans t.start 0 t.lh d, w.2 = t.cache w.1 :=
  installTrans_value (fun i hi => by simpa using hlog i hi) t.home (by simpa using t.lt_size)

theorem installTrans_keeps_log {d : Nat → α} (k : Nat) {y : Nat}
    (hy : ¬Home t.start t.size y) : apply ((installTrans t.start 0 t.lh d).take k) d y = d y := by
  refine apply_of_forall_ne (fun w hw hwy => hy ?_) d
  rw [← hwy]
  exact t.home w.1 (mem_installTrans (List.mem_of_mem_take hw))

/-- A recovery from a disk whose header names the transaction, stopped inside
`install_trans`, leaves it so. -/
theorem Recoverable.install_prefix {d : Nat → α} (hhead : f.dec (d t.start) = t.lh)
    (hlog : ∀ i (hi : i < t.lh.length), d (t.start + i + 1) = t.cache t.lh[i])
    (hhome : ∀ x, Home t.start t.size x → d x = t.disk x ∨ d x = t.installed x) (k : Nat) :
    Recoverable t (apply ((installTrans t.start 0 t.lh d).take k) d) := by
  have hvalue := Recoverable.install_value hlog
  refine .committed ?_ ?_ ?_
  · rw [installTrans_keeps_log k (fun hs => t.home_ne_start hs rfl), hhead]
  · intro i hi
    rw [installTrans_keeps_log k (fun hs => t.home_ne_log hs hi rfl), hlog i hi]
  · intro x hx
    by_cases hmem : x ∈ t.lh
    · have hwrites : ∀ w ∈ (installTrans t.start 0 t.lh d).take k, w.1 = x → w.2 = t.cache x := by
        intro w hw hwx
        rw [← hwx]
        exact hvalue w (List.mem_of_mem_take hw)
      rcases apply_eq_or hwrites d with h | h
      · rw [h]
        exact hhome x hx
      · exact .inr (h.trans (t.installed_of_mem hmem).symm)
    · have hnone : ∀ w ∈ (installTrans t.start 0 t.lh d).take k, w.1 ≠ x := by
        intro w hw hwx
        exact hmem (hwx ▸ mem_installTrans (List.mem_of_mem_take hw))
      rw [apply_of_forall_ne hnone d]
      exact hhome x hx

/-- A finished `install_trans` from a disk whose header names the transaction
leaves every home block with its new contents. -/
theorem Recoverable.install_all {d : Nat → α}
    (hlog : ∀ i (hi : i < t.lh.length), d (t.start + i + 1) = t.cache t.lh[i])
    (hhome : ∀ x, Home t.start t.size x → d x = t.disk x ∨ d x = t.installed x) :
    ∀ x, Home t.start t.size x → apply (installTrans t.start 0 t.lh d) d x = t.installed x := by
  have hvalue := Recoverable.install_value hlog
  intro x hx
  by_cases hmem : x ∈ t.lh
  · have hwrites : ∀ w ∈ installTrans t.start 0 t.lh d, w.1 = x → w.2 = t.cache x := by
      intro w hw hwx
      rw [← hwx]
      exact hvalue w hw
    rw [t.installed_of_mem hmem]
    exact apply_eq_of_mem hwrites (installTrans_covers hmem) d
  · have hnone : ∀ w ∈ installTrans t.start 0 t.lh d, w.1 ≠ x := by
      intro w hw hwx
      exact hmem (hwx ▸ mem_installTrans hw)
    rw [apply_of_forall_ne hnone d]
    rcases hhome x hx with h | h
    · exact h.trans (t.installed_of_not_mem hmem).symm
    · exact h

/-- Every prefix of a recovery's writes from a recoverable disk leaves a
recoverable disk. -/
theorem Recoverable.recovery_take {d : Nat → α} (h : Recoverable t d) (k : Nat) :
    Recoverable t (apply ((f.recovery t.start d).take k) d) := by
  by_cases hclean : f.dec (d t.start) = []
  · -- nothing to install: the only write is the empty header
    have hw : f.recovery t.start d = [(t.start, f.enc [] (d t.start))] := by
      simp [HeadFormat.recovery, recoverWrites, hclean, installTrans, writeHead]
    rw [hw]
    cases k with
    | zero => exact h
    | succ k =>
      rw [List.take_succ_cons, List.take_nil, apply_cons, apply_nil]
      exact Recoverable.clear _ (h.empty_home hclean)
  · obtain ⟨hhead, hlog, hhome⟩ : f.dec (d t.start) = t.lh ∧
        (∀ i (hi : i < t.lh.length), d (t.start + i + 1) = t.cache t.lh[i]) ∧
        ∀ x, Home t.start t.size x → d x = t.disk x ∨ d x = t.installed x := by
      rcases h with ⟨hh, -⟩ | ⟨hh, -⟩ | ⟨hh, hl, hx⟩
      · exact absurd hh hclean
      · exact absurd hh hclean
      · exact ⟨hh, hl, hx⟩
    simp only [HeadFormat.recovery, recoverWrites, hhead]
    by_cases hk : k ≤ (installTrans t.start 0 t.lh d).length
    · rw [List.take_append_of_le_length hk]
      exact Recoverable.install_prefix hhead hlog hhome k
    · -- the empty header was written after every block was installed
      rw [List.take_append, List.take_of_length_le (by omega),
        List.take_of_length_le (by simp [writeHead]; omega), apply_append]
      exact Recoverable.clear _ (.inr (Recoverable.install_all hlog hhome))

theorem Recoverable.crashRecoveries {d : Nat → α} (h : Recoverable t d) (ks : List Nat) :
    Recoverable t (f.crashRecoveries t.start ks d) := by
  induction ks generalizing d with
  | nil => exact h
  | cons k ks ih => exact ih (h.recovery_take k)

/-- A recovery that runs to its end leaves the old or the new home contents. -/
theorem Recoverable.recover {d : Nat → α} (h : Recoverable t d) :
    (∀ x, Home t.start t.size x → apply (f.recovery t.start d) d x = t.disk x) ∨
      (∀ x, Home t.start t.size x → apply (f.recovery t.start d) d x = t.installed x) := by
  have hall := h.recovery_take (f.recovery t.start d).length
  rw [List.take_length] at hall
  refine hall.empty_home ?_
  -- the last write of a recovery is the empty header
  simp only [HeadFormat.recovery, recoverWrites, writeHead, apply_append, apply_cons, apply_nil,
    Function.update_self]
  exact f.dec_enc [] _ (Nat.zero_le _)

/-! ### Commit -/

theorem writeLog_keeps_home {d : Nat → α} (k : Nat) {x : Nat} (hx : Home t.start t.size x) :
    apply ((writeLog t.start t.lh t.cache).take k) d x = d x := by
  refine apply_of_forall_ne (fun w hw hwx => ?_) d
  obtain ⟨i, hi, rfl⟩ := List.mem_mapIdx.mp (List.mem_of_mem_take hw)
  exact t.home_ne_log hx hi hwx.symm

theorem writeLog_keeps_start {d : Nat → α} (k : Nat) :
    apply ((writeLog t.start t.lh t.cache).take k) d t.start = d t.start := by
  refine apply_of_forall_ne (fun w hw hwx => ?_) d
  obtain ⟨i, hi, rfl⟩ := List.mem_mapIdx.mp (List.mem_of_mem_take hw)
  change t.start + i + 1 = t.start at hwx
  omega

theorem writeLog_log {d : Nat → α} {i : Nat} (hi : i < t.lh.length) :
    apply (writeLog t.start t.lh t.cache) d (t.start + i + 1) = t.cache t.lh[i] := by
  refine apply_eq_of_mem (fun w hw hwx => ?_) ⟨_, List.mem_mapIdx.mpr ⟨i, hi, rfl⟩, rfl⟩ d
  obtain ⟨j, hj, rfl⟩ := List.mem_mapIdx.mp hw
  -- log block `start + j + 1` is entry `j`'s
  obtain rfl : j = i := by simp at hwx; omega
  rfl

/-- The disk just after the header write, the commit point. -/
def Txn.committed : Nat → α :=
  apply (writeLog t.start t.lh t.cache ++
    writeHead f.enc t.start t.lh (apply (writeLog t.start t.lh t.cache) t.disk)) t.disk

theorem Txn.committed_start : f.dec (t.committed t.start) = t.lh := by
  simp only [Txn.committed, writeHead, apply_append, apply_cons, apply_nil, Function.update_self]
  exact f.dec_enc _ _ t.le_logsize

theorem Txn.recoverable_committed : Recoverable t t.committed := by
  have hkeep : ∀ y, y ≠ t.start → t.committed y = apply (writeLog t.start t.lh t.cache) t.disk y :=
    fun y hy => by
      simp only [Txn.committed, writeHead, apply_append, apply_cons, apply_nil]
      exact Function.update_of_ne hy _ _
  refine .committed t.committed_start (fun i hi => ?_) (fun x hx => .inl ?_)
  · rw [hkeep _ (by omega), writeLog_log hi]
  · have h := @writeLog_keeps_home _ _ t t.disk (writeLog t.start t.lh t.cache).length x hx
    rw [List.take_length] at h
    rw [hkeep x (t.home_ne_start hx), h]

/-- After the commit point, `commit` makes the writes of a recovery. -/
theorem Txn.commit_eq (hn : 0 < t.lh.length) :
    t.commit = (writeLog t.start t.lh t.cache ++
      writeHead f.enc t.start t.lh (apply (writeLog t.start t.lh t.cache) t.disk)) ++
      f.recovery t.start t.committed := by
  simp only [Txn.commit, commitWrites, if_pos hn, HeadFormat.recovery, recoverWrites,
    t.committed_start]
  simp only [Txn.committed, List.append_assoc, apply_append]

/-- Every prefix of `commit`'s writes leaves a recoverable disk. -/
theorem Txn.recoverable_commit_take (k : Nat) : Recoverable t (apply (t.commit.take k) t.disk) := by
  by_cases hn : 0 < t.lh.length
  · rw [t.commit_eq hn]
    by_cases hk : k ≤ t.lh.length
    · -- stopped inside write_log: the header is still empty
      rw [List.take_append_of_le_length (by simp; omega), List.take_append_of_le_length (by simp; omega)]
      refine .old ?_ fun x hx => writeLog_keeps_home k hx
      rw [writeLog_keeps_start k]
      exact t.clean
    · rw [List.take_append, List.take_of_length_le (by simp [writeHead]; omega), apply_append]
      exact t.recoverable_committed.recovery_take _
  · -- an empty transaction writes nothing
    have hc : t.commit = [] := by simp [Txn.commit, commitWrites, hn]
    rw [hc, List.take_nil, apply_nil]
    exact .old t.clean fun x _ => rfl

/-- A crash at any point of `commit`, then recoveries that crash at any point,
then a recovery that runs to its end: the home blocks hold the contents from
before the transaction, or the contents with all of it installed. -/
theorem recover_after_crashes (k : Nat) (ks : List Nat) :
    (∀ x, Home t.start t.size x →
        apply (f.recovery t.start (f.crashRecoveries t.start ks (apply (t.commit.take k) t.disk)))
          (f.crashRecoveries t.start ks (apply (t.commit.take k) t.disk)) x = t.disk x) ∨
      (∀ x, Home t.start t.size x →
        apply (f.recovery t.start (f.crashRecoveries t.start ks (apply (t.commit.take k) t.disk)))
          (f.crashRecoveries t.start ks (apply (t.commit.take k) t.disk)) x = t.installed x) :=
  ((t.recoverable_commit_take k).crashRecoveries ks).recover

end Crash

end Xv6.Logging
