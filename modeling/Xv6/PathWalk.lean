import Mathlib.Data.List.TakeWhile
import Xv6.Path

/-!
# `namex` against a walk of the path's elements

The specification reads the path as its list of elements, the non-empty
parts between slashes before its NUL, each cut to `DIRSIZ` bytes, and walks
them over the initial inodes: one `dirlookup` per element, each in a
directory of type `T_DIR` that the caller may search.  `skipelem` splits off
exactly the first element, so `namex`'s loop follows the walk one element a
round.

What makes the loop read the initial inodes is `Freed`: an `iput` of the
loop may free an inode with no links, but only when it drops the last
reference, and then no slot with a reference holds that inode valid, so an
`ilock` of it later panics instead of reading the freed copy.  That needs
the cache to hold each inode in at most one slot with a reference
(`FsState.Distinct`), which `iget`, `idup` of a held slot and `iput` keep.
-/

namespace Xv6

open FsState

/-- The elements of a path: its non-empty parts between slashes, up to its
first NUL, each cut to `DIRSIZ` bytes. -/
def pathElems (path : List UInt8) : List (List UInt8) :=
  (((path.takeWhile (· ≠ 0)).splitOnP (· == slash)).filter (!·.isEmpty)).map (·.take dirsiz)

section Elems

variable {path rest elem t n p : List UInt8}

theorem pathElems_slash (p : List UInt8) : pathElems (slash :: p) = pathElems p := by
  simp [pathElems, List.splitOnP_cons_eq_if_modifyHead, slash]

theorem takeWhile_ne_zero_of_headD (h : p.headD 0 = 0) : p.takeWhile (· ≠ 0) = [] := by
  cases p with
  | nil => rfl
  | cons c p =>
      simp only [List.headD_cons] at h
      subst h
      simp

theorem pathElems_of_headD_zero (h : p.headD 0 = 0) : pathElems p = [] := by
  rw [pathElems, takeWhile_ne_zero_of_headD h]
  rfl

theorem pathElems_dropWhile (p : List UInt8) :
    pathElems (p.dropWhile (· = slash)) = pathElems p := by
  induction p with
  | nil => rfl
  | cons c p ih =>
      by_cases hc : c = slash
      · subst hc
        rw [List.dropWhile_cons, if_pos (by simp), ih, pathElems_slash]
      · rw [List.dropWhile_cons, if_neg (by simpa using hc)]

/-- An element followed by the end of the path or by a slash. -/
theorem pathElems_append (helem : ∀ c ∈ elem, c ≠ slash ∧ c ≠ 0) (hne : elem ≠ [])
    (ht : t.headD 0 = 0 ∨ t.headD 0 = slash) :
    pathElems (elem ++ t) = elem.take dirsiz :: pathElems t := by
  have hsep : ∀ c ∈ elem, (c == slash) = false := fun c hc => by simpa using (helem c hc).1
  have htake : (elem ++ t).takeWhile (· ≠ 0) = elem ++ t.takeWhile (· ≠ 0) :=
    List.takeWhile_append_of_pos fun c hc => by simpa using (helem c hc).2
  have hkeep : (!elem.isEmpty) = true := by simpa using hne
  rcases ht with ht | ht
  · rw [pathElems_of_headD_zero ht]
    simp only [pathElems, htake, takeWhile_ne_zero_of_headD ht, List.append_nil,
      List.splitOnP_eq_singleton hsep, List.filter_cons, hkeep, if_true, List.filter_nil,
      List.map_cons, List.map_nil]
  · obtain ⟨t', rfl⟩ : ∃ t', t = slash :: t' := by
      cases t with
      | nil => exact absurd ht (by decide)
      | cons c t' => exact ⟨t', by simpa using ht⟩
    have hcons : (slash :: t').takeWhile (· ≠ 0) = slash :: t'.takeWhile (· ≠ 0) := by
      simp [slash]
    rw [pathElems_slash]
    simp only [pathElems, htake, hcons, List.splitOnP_append_cons_of_forall_mem hsep slash
      (by simp), List.filter_cons, hkeep, if_true, List.map_cons]

theorem headD_dropWhile_slash (p : List UInt8) : (p.dropWhile (· = slash)).headD 0 ≠ slash := by
  have h := List.head?_dropWhile_not (fun c => decide (c = slash)) p
  cases hh : (p.dropWhile (· = slash)) with
  | nil => decide
  | cons c q =>
      rw [hh] at h
      simpa using h

/-- What `skipelem` splits off is the path's first element; what it leaves
is shorter, starts with no slash, and holds the other elements. -/
theorem skipelem_eq_some (h : skipelem path = some (n, rest)) :
    pathElems path = n :: pathElems rest ∧ rest.length < path.length ∧ rest.headD 0 ≠ slash := by
  unfold skipelem at h
  dsimp only at h
  split_ifs at h with hz
  cases h
  set q := path.dropWhile (· = slash) with hq
  set elem := q.takeWhile (fun c => c ≠ slash ∧ c ≠ 0) with helem_def
  have hsplit : elem ++ q.drop elem.length = q := by
    have hpre : elem = q.take elem.length := List.prefix_iff_eq_take.mp (List.takeWhile_prefix _)
    conv_rhs => rw [← List.take_append_drop elem.length q, ← hpre]
  have hdrop : q.drop elem.length = q.dropWhile (fun c => c ≠ slash ∧ c ≠ 0) :=
    List.append_cancel_left (hsplit.trans List.takeWhile_append_dropWhile.symm)
  -- `q` starts with a byte that is neither a slash nor a NUL, so the element is not empty
  obtain ⟨c, q', hcq⟩ : ∃ c q', q = c :: q' := by
    cases hq' : q with
    | nil => rw [hq'] at hz; exact absurd rfl hz
    | cons c q' => exact ⟨c, q', rfl⟩
  have hc0 : c ≠ 0 := by simpa [hcq] using hz
  have hcs : c ≠ slash := by simpa [← hq, hcq] using headD_dropWhile_slash path
  have hne : elem ≠ [] := by simp [helem_def, hcq, hc0, hcs]
  have helem : ∀ c ∈ elem, c ≠ slash ∧ c ≠ 0 := fun c hc => by
    simpa using List.mem_takeWhile_imp hc
  have ht : (q.drop elem.length).headD 0 = 0 ∨ (q.drop elem.length).headD 0 = slash := by
    rw [hdrop]
    have hnot := List.head?_dropWhile_not (fun c => decide (c ≠ slash ∧ c ≠ 0)) q
    cases hh : q.dropWhile (fun c => decide (c ≠ slash ∧ c ≠ 0)) with
    | nil => exact .inl rfl
    | cons d r =>
        rw [hh] at hnot
        simp only [List.head?_cons, decide_eq_false_iff_not, not_and, not_not] at hnot
        by_cases hd : d = slash
        · exact .inr (by simpa using hd)
        · exact .inl (by simpa using hnot hd)
  refine ⟨?_, ?_, headD_dropWhile_slash _⟩
  · rw [← pathElems_dropWhile path, ← hq]
    conv_lhs => rw [← hsplit]
    rw [pathElems_append helem hne ht, pathElems_dropWhile]
  · have hle := List.length_dropWhile_le (fun c => decide (c = slash)) (q.drop elem.length)
    have hqle : q.length ≤ path.length := List.length_dropWhile_le _ path
    have hlen : 0 < elem.length := List.length_pos_of_ne_nil hne
    have hdl : (q.drop elem.length).length = q.length - elem.length := List.length_drop
    have hel : elem.length ≤ q.length := by rw [← hsplit, List.length_append]; omega
    omega

theorem pathElems_of_skipelem_none (h : skipelem path = none) : pathElems path = [] := by
  unfold skipelem at h
  dsimp only at h
  split_ifs at h with hz
  rw [← pathElems_dropWhile path]
  exact pathElems_of_headD_zero hz

/-- After an element, the path has no elements left exactly when it has
reached its end. -/
theorem pathElems_eq_nil_iff (hs : p.headD 0 ≠ slash) : pathElems p = [] ↔ p.headD 0 = 0 := by
  refine ⟨fun hnil => ?_, pathElems_of_headD_zero⟩
  by_contra hz
  have hkeep : p.dropWhile (· = slash) = p := by
    cases p with
    | nil => rfl
    | cons c p => rw [List.dropWhile_cons, if_neg (by simpa using hs)]
  have hskip : skipelem p ≠ none := by
    simp only [skipelem, hkeep, if_neg hz]
    simp
  obtain ⟨⟨n, rest⟩, hsome⟩ := Option.ne_none_iff_exists'.mp hskip
  rw [(skipelem_eq_some hsome).1] at hnil
  exact List.cons_ne_nil _ _ hnil

end Elems

/-! ## The walk -/

/-- A directory a walk may pass: `T_DIR`, and the caller may search it. -/
def searchable (uid : UInt32) (x : Inode) : Bool :=
  x.type == .dir && hasExecutePermission uid x

/-- One step of a walk from directory `d`: the inode `dirlookup` finds for
`n` there, when the caller may search `d`. -/
def lookupStep (inodes : Nat → Inode) (uid : UInt32) (d : Nat) (n : List UInt8) : Option Nat :=
  if searchable uid (inodes d) then
    match dirlookupLoop (inodes d) n (inodes d).size 0 with
    | .ok (some (next, _)) => some next
    | _ => none
  else none

/-- The inode reached from `d` by successive lookups of `names`. -/
def walk (inodes : Nat → Inode) (uid : UInt32) : Nat → List (List UInt8) → Option Nat
  | d, [] => some d
  | d, n :: names => (lookupStep inodes uid d n).bind fun next => walk inodes uid next names

/-- The directory reached by the lookups of all of `names` but the last, if
the caller may search it, and the last name. -/
def walkParent (inodes : Nat → Inode) (uid : UInt32) :
    Nat → List (List UInt8) → Option (Nat × List UInt8)
  | _, [] => none
  | d, [n] => if searchable uid (inodes d) then some (d, n) else none
  | d, n :: m :: names =>
      (lookupStep inodes uid d n).bind fun next => walkParent inodes uid next (m :: names)

/-- What `namex` returns from directory `d` over `elems`, as slot `r` of
`s'` and name `nm`: for `namei` the inode the walk reaches, for
`nameiparent` the directory before the last lookup and the last name. -/
def Resolves (inodes : Nat → Inode) (uid : UInt32) (parent : Bool) (d : Nat)
    (elems : List (List UInt8)) (s' : FsState) (r : Option Nat) (nm : List UInt8) : Prop :=
  if parent then (r.map fun j => ((s'.slot j).inum, nm)) = walkParent inodes uid d elems
  else r.map (fun j => (s'.slot j).inum) = walk inodes uid d elems

section Resolves

variable {inodes : Nat → Inode} {uid : UInt32} {b : Bool} {d next : Nat} {n : List UInt8}
  {ns : List (List UInt8)} {s' : FsState} {r : Option Nat} {nm : List UInt8}

theorem lookupStep_of_found {inum off : Nat} (hs : searchable uid (inodes d) = true)
    (hfound : dirlookupLoop (inodes d) n (inodes d).size 0 = .ok (some (inum, off))) :
    lookupStep inodes uid d n = some inum := by
  simp [lookupStep, hs, hfound]

/-- A walk stops at a directory the caller may not search. -/
theorem resolves_of_not_searchable (hs : searchable uid (inodes d) = false) :
    Resolves inodes uid b d (n :: ns) s' none nm := by
  have hstep : lookupStep inodes uid d n = none := by simp [lookupStep, hs]
  cases b with
  | false => simp [Resolves, walk, hstep]
  | true =>
      cases ns with
      | nil => simp [Resolves, walkParent, hs]
      | cons m ns => simp [Resolves, walkParent, hstep]

/-- A walk stops where a lookup finds nothing, unless `nameiparent` has
stopped before it. -/
theorem resolves_of_lookupStep_none (hstep : lookupStep inodes uid d n = none)
    (hmore : b = true → ns ≠ []) : Resolves inodes uid b d (n :: ns) s' none nm := by
  cases b with
  | false => simp [Resolves, walk, hstep]
  | true =>
      obtain ⟨m, ns, rfl⟩ := List.exists_cons_of_ne_nil (hmore rfl)
      simp [Resolves, walkParent, hstep]

/-- A walk goes on from the inode a lookup finds. -/
theorem resolves_cons (hstep : lookupStep inodes uid d n = some next)
    (hmore : b = true → ns ≠ []) (h : Resolves inodes uid b next ns s' r nm) :
    Resolves inodes uid b d (n :: ns) s' r nm := by
  cases b with
  | false => simpa [Resolves, walk, hstep] using h
  | true =>
      obtain ⟨m, ns, rfl⟩ := List.exists_cons_of_ne_nil (hmore rfl)
      simpa [Resolves, walkParent, hstep] using h

end Resolves

/-! ## The walk's bookkeeping -/

section Bookkeeping

variable {s₀ s s' : FsState} {ip inum : Nat}

/-- The inodes of `s` are those of `s₀` but for some that `iput` freed on
the way, none of which a slot with a reference holds valid: an `ilock` of
one would panic. -/
def Freed (s₀ s : FsState) : Prop :=
  ∀ inum, s.inodes inum = s₀.inodes inum ∨
    ((s.inodes inum).type = .free ∧
      ∀ j, 0 < (s.slot j).ref → (s.slot j).inum = inum → (s.slot j).valid = false)

theorem Freed.refl (s : FsState) : Freed s s := fun _ => .inl rfl

/-- A step that keeps the inodes, and after which every slot with a reference
and a valid copy had both before and holds the same inode, keeps `Freed`. -/
theorem Freed.of_slots (h : Freed s₀ s) (hinodes : s'.inodes = s.inodes)
    (hslot : ∀ j, 0 < (s'.slot j).ref → (s'.slot j).valid = true →
      0 < (s.slot j).ref ∧ (s.slot j).valid = true ∧ (s'.slot j).inum = (s.slot j).inum) :
    Freed s₀ s' := by
  intro inum
  rw [hinodes]
  refine (h inum).imp id fun hx => ⟨hx.1, fun j hj hinum => ?_⟩
  cases hv : (s'.slot j).valid
  · rfl
  · obtain ⟨hj', hv', he⟩ := hslot j hj hv
    rw [hx.2 j hj' (he ▸ hinum)] at hv'
    exact absurd hv' (by decide)

/-- Writing slot `ip` again with the inode it holds keeps `Distinct` and
`Freed`, when the slot has a reference only if it had one, and a valid copy
only if it had one. -/
theorem setSlot_keep_walk (hd : s.Distinct) (hf : Freed s₀ s) (hlt : ip < s.icache.length)
    {e : Slot} (hinum : e.inum = (s.slot ip).inum) (href : 0 < e.ref → 0 < (s.slot ip).ref)
    (hvalid : e.valid = true → (s.slot ip).valid = true) :
    (s.setSlot ip e).Distinct ∧ Freed s₀ (s.setSlot ip e) := by
  have hslot := s.slot_setSlot_eq_ite e hlt
  refine ⟨hd.of_slots fun k hk => ?_, hf.of_slots rfl fun k hk hv => ?_⟩
  · rw [hslot] at hk ⊢
    split_ifs at hk ⊢ with hki
    · subst hki
      exact ⟨href hk, hinum⟩
    · exact ⟨hk, rfl⟩
  · rw [hslot] at hk hv ⊢
    split_ifs at hk hv ⊢ with hki
    · subst hki
      exact ⟨href hk, hvalid hv, hinum⟩
    · exact ⟨hk, hv, rfl⟩

theorem iget_walk (h : iget s inum = .ok (s', ip)) (hd : s.Distinct) (hf : Freed s₀ s) :
    s'.Distinct ∧ Freed s₀ s' ∧ (s'.slot ip).inum = inum ∧ 0 ≤ (s.slot ip).ref ∧
      (∀ k, (s'.slot k).ref = (s.slot k).ref + if k = ip then 1 else 0) ∧
      (∀ k, (s'.slot k).locked = (s.slot k).locked) := by
  obtain ⟨hlt, ⟨hpos, hinum, rfl⟩ | ⟨hzero, hnone, rfl⟩⟩ := iget_eq_ok_cases h
  · -- one more reference on the slot already holding `inum`
    have hslot := s.slot_setSlot_eq_ite { s.slot ip with ref := (s.slot ip).ref + 1 } hlt
    obtain ⟨hd', hf'⟩ := setSlot_keep_walk (e := { s.slot ip with ref := (s.slot ip).ref + 1 })
      hd hf hlt rfl (fun _ => hpos) id
    refine ⟨hd', hf', ?_, hpos.le, fun k => ?_, fun k => ?_⟩
    · rw [hslot, if_pos rfl, hinum]
    · rw [hslot]
      split_ifs <;> simp_all
    · rw [hslot]
      split_ifs <;> simp_all
  · -- a recycled slot, invalid until `ilock` reads it
    have hslot := s.slot_setSlot_eq_ite { s.slot ip with inum := inum, ref := 1, valid := false } hlt
    refine ⟨fun j k hj hk he => ?_, hf.of_slots rfl fun k hk hv => ?_, ?_, hzero.ge,
      fun k => ?_, fun k => ?_⟩
    · rw [hslot, hslot] at he
      rw [hslot] at hj hk
      split_ifs at hj hk he with hji hki
      · rw [hji, hki]
      · exact absurd he.symm (hnone k hk)
      · exact absurd he (hnone j hj)
      · exact hd j k hj hk he
    · -- the recycled slot is invalid, so only the others are left
      rw [hslot] at hk hv ⊢
      split_ifs at hk hv ⊢
      exact ⟨hk, hv, rfl⟩
    · rw [hslot, if_pos rfl]
    · rw [hslot]
      split_ifs with hki
      · subst hki
        simp [hzero]
      · simp
    · rw [hslot]
      split_ifs <;> simp_all

/-- `ilock` of a slot reads the inode of `s₀`: one that `iput` freed on the
way is held invalid, and reading it back would panic. -/
theorem ilock_walk (h : ilock s ip = .ok s') (hd : s.Distinct) (hf : Freed s₀ s) :
    s.inode ip = s₀.inodes (s.slot ip).inum ∧ s'.Distinct ∧ Freed s₀ s' ∧
      (∀ k, (s'.slot k).inum = (s.slot k).inum) ∧ (∀ k, (s'.slot k).ref = (s.slot k).ref) ∧
      (s.slot ip).locked = false ∧
      (∀ k, (s'.slot k).locked = if k = ip then true else (s.slot k).locked) := by
  obtain ⟨href, hunl, hread, rfl⟩ := ilock_eq h
  have hlt : ip < s.icache.length := s.lt_length_of_ref_pos (by omega)
  have hslot := s.slot_setSlot_eq_ite { s.slot ip with locked := true, valid := true } hlt
  have hintact : s.inode ip = s₀.inodes (s.slot ip).inum := by
    rcases hf (s.slot ip).inum with heq | ⟨hfree, hval⟩
    · exact heq
    · rw [hval ip (by omega) rfl] at hread
      simp only [Bool.false_eq_true, false_or] at hread
      exact absurd hfree hread
  refine ⟨hintact, hd.of_slots fun k hk => ?_, fun inum => ?_, fun k => ?_, fun k => ?_, hunl,
    fun k => ?_⟩
  · rw [hslot] at hk ⊢
    split_ifs at hk ⊢ with hki
    · exact ⟨hki ▸ hk, hki ▸ rfl⟩
    · exact ⟨hk, rfl⟩
  · -- the slot made valid holds an inode as it was in `s₀`
    rw [setSlot_inodes]
    by_cases hi : inum = (s.slot ip).inum
    · exact .inl (hi ▸ hintact)
    · refine (hf inum).imp id fun hx => ⟨hx.1, fun j hj hinum => ?_⟩
      rw [hslot] at hj hinum ⊢
      split_ifs at hj hinum ⊢ with hji
      · exact absurd hinum.symm hi
      · exact hx.2 j hj hinum
  · rw [hslot]
    split_ifs with hki <;> simp [hki]
  · rw [hslot]
    split_ifs with hki <;> simp [hki]
  · rw [hslot]
    split_ifs <;> rfl

theorem iunlock_walk (h : iunlock s ip = .ok s') (hd : s.Distinct) (hf : Freed s₀ s) :
    s'.Distinct ∧ Freed s₀ s' ∧ (∀ k, (s'.slot k).inum = (s.slot k).inum) ∧
      (∀ k, (s'.slot k).ref = (s.slot k).ref) ∧ (s.slot ip).locked = true ∧
      (∀ k, (s'.slot k).locked = if k = ip then false else (s.slot k).locked) := by
  obtain ⟨hl, href, rfl⟩ := iunlock_eq h
  have hlt : ip < s.icache.length := s.lt_length_of_ref_pos (by omega)
  have hslot := s.slot_setSlot_eq_ite { s.slot ip with locked := false } hlt
  obtain ⟨hd', hf'⟩ := setSlot_keep_walk (e := { s.slot ip with locked := false }) hd hf hlt rfl
    id id
  refine ⟨hd', hf', fun k => ?_, fun k => ?_, hl, fun k => ?_⟩
  · rw [hslot]
    split_ifs with hki <;> simp [hki]
  · rw [hslot]
    split_ifs with hki <;> simp [hki]
  · rw [hslot]
    split_ifs <;> rfl

/-- `iput` of a slot with a reference: one reference fewer, and the inode
freed when that was the last one to an inode with no links. -/
theorem iput_walk (h : iput s ip = .ok s') (hd : s.Distinct) (hf : Freed s₀ s)
    (href : 0 < (s.slot ip).ref) :
    s'.Distinct ∧ Freed s₀ s' ∧ (∀ k, (s'.slot k).inum = (s.slot k).inum) ∧
      (∀ k, (s'.slot k).ref = (s.slot k).ref - if k = ip then 1 else 0) ∧
      (∀ k, (s'.slot k).locked = (s.slot k).locked) := by
  have hlt : ip < s.icache.length := s.lt_length_of_ref_pos href
  obtain ⟨-, ⟨hv, -, hone, rfl⟩ | ⟨-, rfl⟩⟩ := iput_cases h
  · -- the last reference: the inode is freed and its slot invalid
    have hslot := (s.modify ip fun x => { itrunc x with type := .free }).slot_setSlot_eq_ite
      { s.slot ip with valid := false, ref := 0 } (by simpa using hlt)
    simp only [slot_modify] at hslot
    refine ⟨hd.of_slots fun k hk => ?_, fun inum => ?_, fun k => ?_, fun k => ?_, fun k => ?_⟩
    · rw [hslot] at hk ⊢
      split_ifs at hk ⊢ with hki
      · simp at hk
      · exact ⟨hk, rfl⟩
    · simp only [setSlot_inodes, modify_inodes, Function.update_apply]
      split_ifs with hi
      · -- no other slot with a reference holds the freed inode
        refine .inr ⟨rfl, fun j hj hinum => ?_⟩
        rw [hslot] at hj hinum ⊢
        split_ifs at hj hinum ⊢ with hji
        · simp at hj
        · exact absurd (hd j ip hj href (hinum.trans hi)) hji
      · refine (hf inum).imp id fun hx => ⟨hx.1, fun j hj hinum => ?_⟩
        rw [hslot] at hj hinum ⊢
        split_ifs at hj hinum ⊢ with hji
        · simp at hj
        · exact hx.2 j hj hinum
    · rw [hslot]
      split_ifs with hki <;> simp [hki]
    · rw [hslot]
      split_ifs with hki <;> simp [hki, hone]
    · rw [hslot]
      split_ifs with hki <;> simp [hki]
  · -- a reference fewer, the inode kept
    have hslot := s.slot_setSlot_eq_ite { s.slot ip with ref := (s.slot ip).ref - 1 } hlt
    obtain ⟨hd', hf'⟩ := setSlot_keep_walk (e := { s.slot ip with ref := (s.slot ip).ref - 1 })
      hd hf hlt rfl (fun _ => href) id
    refine ⟨hd', hf', fun k => ?_, fun k => ?_, fun k => ?_⟩
    · rw [hslot]
      split_ifs with hki <;> simp [hki]
    · rw [hslot]
      split_ifs with hki <;> simp [hki]
    · rw [hslot]
      split_ifs with hki <;> simp [hki]

theorem iunlockput_walk (h : iunlockput s ip = .ok s') (hd : s.Distinct) (hf : Freed s₀ s)
    (href : 0 < (s.slot ip).ref) :
    s'.Distinct ∧ Freed s₀ s' ∧ (∀ k, (s'.slot k).inum = (s.slot k).inum) ∧
      (∀ k, (s'.slot k).ref = (s.slot k).ref - if k = ip then 1 else 0) ∧ (s.slot ip).locked = true ∧
      (∀ k, (s'.slot k).locked = if k = ip then false else (s.slot k).locked) := by
  obtain ⟨s₁, hunlock, hput⟩ := Except.bind_eq_ok_iff.mp h
  obtain ⟨hd₁, hf₁, hinum₁, href₁, hl, hlock₁⟩ := iunlock_walk hunlock hd hf
  obtain ⟨hd₂, hf₂, hinum₂, href₂, hlock₂⟩ := iput_walk hput hd₁ hf₁ (by rw [href₁]; exact href)
  exact ⟨hd₂, hf₂, fun k => (hinum₂ k).trans (hinum₁ k), fun k => by rw [href₂, href₁], hl,
    fun k => by rw [hlock₂, hlock₁]⟩

theorem idup_walk (hd : s.Distinct) (hf : Freed s₀ s) (href : 0 < (s.slot ip).ref) :
    (idup s ip).Distinct ∧ Freed s₀ (idup s ip) ∧ (∀ k, ((idup s ip).slot k).inum = (s.slot k).inum) ∧
      (∀ k, ((idup s ip).slot k).ref = (s.slot k).ref + if k = ip then 1 else 0) ∧
      (∀ k, ((idup s ip).slot k).locked = (s.slot k).locked) := by
  have hlt : ip < s.icache.length := s.lt_length_of_ref_pos href
  have hslot := s.slot_setSlot_eq_ite { s.slot ip with ref := (s.slot ip).ref + 1 } hlt
  obtain ⟨hd', hf'⟩ := setSlot_keep_walk (e := { s.slot ip with ref := (s.slot ip).ref + 1 })
    hd hf hlt rfl (fun _ => href) id
  refine ⟨hd', hf', fun k => ?_, fun k => ?_, fun k => ?_⟩
  · rw [idup, hslot]
    split_ifs with hki <;> simp [hki]
  · rw [idup, hslot]
    split_ifs with hki <;> simp [hki]
  · rw [idup, hslot]
    split_ifs with hki <;> simp [hki]

end Bookkeeping

/-! ## `namex`'s loop against the walk -/

section Loop

variable {s₀ s s₁ s' : FsState} {uid : UInt32} {b : Bool} {r : Option Nat} {nm : List UInt8}
  {ip : Nat}

/-- A round that locks `ip` and lets it go with `iunlockput`: the walk's
reference on `ip` is dropped, and no lock is left held. -/
theorem lock_unlockput_walk (hd : s.Distinct) (hf : Freed s₀ s) (href : 0 < (s.slot ip).ref)
    (hlock : ilock s ip = .ok s₁) (hput : iunlockput s₁ ip = .ok s') :
    s'.Distinct ∧ Freed s₀ s' ∧ (∀ k, (s'.slot k).ref + (if k = ip then 1 else 0) = (s.slot k).ref) ∧
      (∀ k, (s'.slot k).locked = (s.slot k).locked) := by
  obtain ⟨-, hd₁, hf₁, -, href₁, hunl, hlock₁⟩ := ilock_walk hlock hd hf
  obtain ⟨hd₂, hf₂, -, href₂, -, hlock₂⟩ := iunlockput_walk hput hd₁ hf₁ (by rw [href₁]; exact href)
  refine ⟨hd₂, hf₂, fun k => ?_, fun k => ?_⟩
  · rw [href₂, href₁]
    split_ifs <;> omega
  · rw [hlock₂, hlock₁]
    split_ifs with hki
    · exact hki ▸ hunl.symm
    · rfl

/-- `nameiparent`'s early stop: `ip` is locked and unlocked, and the walk
keeps its reference. -/
theorem lock_unlock_walk (hd : s.Distinct) (hf : Freed s₀ s) (hlock : ilock s ip = .ok s₁)
    (hun : iunlock s₁ ip = .ok s') :
    s'.Distinct ∧ Freed s₀ s' ∧ (∀ k, (s'.slot k).inum = (s.slot k).inum) ∧
      (∀ k, (s'.slot k).ref = (s.slot k).ref) ∧ (∀ k, (s'.slot k).locked = (s.slot k).locked) := by
  obtain ⟨-, hd₁, hf₁, hinum₁, href₁, hunl, hlock₁⟩ := ilock_walk hlock hd hf
  obtain ⟨hd₂, hf₂, hinum₂, href₂, -, hlock₂⟩ := iunlock_walk hun hd₁ hf₁
  refine ⟨hd₂, hf₂, fun k => (hinum₂ k).trans (hinum₁ k), fun k => (href₂ k).trans (href₁ k),
    fun k => ?_⟩
  rw [hlock₂, hlock₁]
  split_ifs with hki
  · exact hki ▸ hunl.symm
  · rfl

/-- A round that finds `next`: the walk's reference moves from `ip` to the
slot `iget` hands out for the inode found. -/
theorem lock_get_unlockput_walk {s₂ : FsState} {inum next : Nat} (hd : s.Distinct)
    (hf : Freed s₀ s) (href : 0 < (s.slot ip).ref) (hlock : ilock s ip = .ok s₁)
    (hget : iget s₁ inum = .ok (s₂, next)) (hput : iunlockput s₂ ip = .ok s') :
    s'.Distinct ∧ Freed s₀ s' ∧ (s'.slot next).inum = inum ∧ 0 < (s'.slot next).ref ∧
      (∀ k, (s'.slot k).ref + (if k = ip then 1 else 0) =
        (s.slot k).ref + if k = next then 1 else 0) ∧
      (∀ k, (s'.slot k).locked = (s.slot k).locked) := by
  obtain ⟨-, hd₁, hf₁, -, href₁, hunl, hlock₁⟩ := ilock_walk hlock hd hf
  obtain ⟨hd₂, hf₂, hinum₂, hnext, href₂, hlock₂⟩ := iget_walk hget hd₁ hf₁
  have hpos₂ : 0 < (s₂.slot ip).ref := by
    have := href₂ ip
    rw [href₁] at this
    split_ifs at this <;> omega
  obtain ⟨hd₃, hf₃, hinum₃, href₃, -, hlock₃⟩ := iunlockput_walk hput hd₂ hf₂ hpos₂
  refine ⟨hd₃, hf₃, (hinum₃ next).trans hinum₂, ?_, fun k => ?_, fun k => ?_⟩
  · rw [href₃, href₂ next, if_pos rfl]
    have := href₁ ip
    split_ifs with hni
    · subst hni
      omega
    · omega
  · rw [href₃, href₂, href₁]
    split_ifs <;> omega
  · rw [hlock₃, hlock₂, hlock₁]
    split_ifs with hki
    · exact hki ▸ hunl.symm
    · rfl

/-- `namex`'s loop from slot `ip`, on which the walk holds a reference,
returns what the walk over the path's elements from `ip`'s inode in the
initial inodes reaches, and moves the walk's reference to the slot it
returns. -/
theorem namexLoop_walks {fuel : Nat} {path name : List UInt8} (hfuel : path.length < fuel)
    (hd : s.Distinct) (hf : Freed s₀ s) (href : 0 < (s.slot ip).ref)
    (h : namexLoop uid b fuel s ip path name = .ok (s', r, nm)) :
    Resolves s₀.inodes uid b (s.slot ip).inum (pathElems path) s' r nm ∧ s'.Distinct ∧
      Freed s₀ s' ∧
      (∀ k, (s'.slot k).ref + (if k = ip then 1 else 0) =
        (s.slot k).ref + if r = some k then 1 else 0) ∧
      (∀ k, (s'.slot k).locked = (s.slot k).locked) := by
  induction fuel generalizing s ip path name with
  | zero => omega
  | succ fuel ih =>
      cases hskip : skipelem path with
      | none =>
          -- no element left: `namei` returns the slot it holds, `nameiparent` lets it go
          rw [pathElems_of_skipelem_none hskip]
          simp only [namexLoop, hskip] at h
          cases b with
          | true =>
              simp only [if_true] at h
              obtain ⟨s₁, hput, h⟩ := Except.bind_eq_ok_iff.mp h
              cases h
              obtain ⟨hd₁, hf₁, -, href₁, hlock₁⟩ := iput_walk hput hd hf href
              refine ⟨by simp [Resolves, walkParent], hd₁, hf₁, fun k => ?_, hlock₁⟩
              rw [href₁, if_neg (show (none : Option Nat) ≠ some k by simp)]
              split_ifs <;> omega
          | false =>
              simp only [Bool.false_eq_true, if_false] at h
              cases h
              refine ⟨by simp [Resolves, walk], hd, hf, fun k => ?_, fun k => rfl⟩
              simp only [Option.some.injEq]
              split_ifs <;> omega
      | some p =>
          obtain ⟨n, rest⟩ := p
          obtain ⟨helems, hlen, hrest⟩ := skipelem_eq_some hskip
          rw [helems]
          simp only [namexLoop, hskip] at h
          obtain ⟨s₁, hlock, h⟩ := Except.bind_eq_ok_iff.mp h
          obtain ⟨hintact, -, -, hinum₁, -, -, -⟩ := ilock_walk hlock hd hf
          -- every check of the round reads the inode as it was at the start
          have hnode : s₁.inode ip = s₀.inodes (s.slot ip).inum := by
            rw [(ilock_cacheOnly hlock).inode_eq, hintact]
          rw [hnode] at h
          split_ifs at h with hdir hexec hstop
          · obtain ⟨s₂, hput, h⟩ := Except.bind_eq_ok_iff.mp h
            cases h
            obtain ⟨hd₂, hf₂, href₂, hlock₂⟩ := lock_unlockput_walk hd hf href hlock hput
            exact ⟨resolves_of_not_searchable (by simp [searchable, hdir]), hd₂, hf₂,
              fun k => by simpa using href₂ k, hlock₂⟩
          · obtain ⟨s₂, hput, h⟩ := Except.bind_eq_ok_iff.mp h
            cases h
            obtain ⟨hd₂, hf₂, href₂, hlock₂⟩ := lock_unlockput_walk hd hf href hlock hput
            have hs : searchable uid (s₀.inodes (s.slot ip).inum) = false := by
              simp only [searchable, Bool.and_eq_false_iff]
              exact .inr (by simpa using hexec)
            exact ⟨resolves_of_not_searchable hs, hd₂, hf₂, fun k => by simpa using href₂ k, hlock₂⟩
          · -- `nameiparent` stops before the last element
            have hs : searchable uid (s₀.inodes (s.slot ip).inum) = true := by
              simpa [searchable] using ⟨not_not.mp hdir, by simpa using hexec⟩
            obtain ⟨s₂, hun, h⟩ := Except.bind_eq_ok_iff.mp h
            cases h
            obtain ⟨hd₂, hf₂, hinum₂, href₂, hlock₂⟩ := lock_unlock_walk hd hf hlock hun
            obtain ⟨rfl, hz⟩ : b = true ∧ rest.headD 0 = 0 := by simpa using hstop
            refine ⟨?_, hd₂, hf₂, fun k => ?_, hlock₂⟩
            · rw [pathElems_of_headD_zero hz]
              simp only [Resolves, if_true, Option.map_some, hinum₂, walkParent, hs]
            · simp only [href₂, Option.some.injEq]
              split_ifs <;> omega
          · have hs : searchable uid (s₀.inodes (s.slot ip).inum) = true := by
              simpa [searchable] using ⟨not_not.mp hdir, by simpa using hexec⟩
            have hmore : b = true → pathElems rest ≠ [] := fun hb hnil => hstop (by
              rw [hb, (pathElems_eq_nil_iff hrest).mp hnil]
              rfl)
            obtain ⟨⟨s₂, found⟩, hlook, h⟩ := Except.bind_eq_ok_iff.mp h
            simp only at h
            cases found with
            | none =>
                obtain ⟨hs₂, -, hnone⟩ := dirlookup_eq_ok_none hlook
                rw [hnode] at hnone
                obtain ⟨s₃, hput, h⟩ := Except.bind_eq_ok_iff.mp h
                rw [hs₂] at hput
                cases h
                obtain ⟨hd₃, hf₃, href₃, hlock₃⟩ := lock_unlockput_walk hd hf href hlock hput
                exact ⟨resolves_of_lookupStep_none (by simp [lookupStep, hs, hnone]) hmore, hd₃,
                  hf₃, fun k => by simpa using href₃ k, hlock₃⟩
            | some found =>
                obtain ⟨next, off⟩ := found
                obtain ⟨-, inum, hfound, hget⟩ := dirlookup_eq_ok_some hlook
                rw [hnode] at hfound
                obtain ⟨s₃, hput, h⟩ := Except.bind_eq_ok_iff.mp h
                obtain ⟨hd₃, hf₃, hinum₃, hpos₃, href₃, hlock₃⟩ :=
                  lock_get_unlockput_walk hd hf href hlock hget hput
                obtain ⟨hres, hd', hf', href', hlock'⟩ := ih (by omega) hd₃ hf₃ hpos₃ h
                rw [hinum₃] at hres
                refine ⟨resolves_cons (lookupStep_of_found hs hfound) hmore hres, hd', hf',
                  fun k => ?_, fun k => (hlock' k).trans (hlock₃ k)⟩
                have h₁ := href' k
                have h₂ := href₃ k
                split_ifs at h₁ h₂ ⊢ <;> omega


/-- `namex` once it holds its first reference, on slot `ip` holding `d`. -/
theorem namex_from {d : Nat} {path : List UInt8} (hd₁ : s₁.Distinct)
    (hf₁ : Freed s s₁) (hinum : (s₁.slot ip).inum = d) (hnn : 0 ≤ (s.slot ip).ref)
    (href₁ : ∀ k, (s₁.slot k).ref = (s.slot k).ref + if k = ip then 1 else 0)
    (hlock₁ : ∀ k, (s₁.slot k).locked = (s.slot k).locked)
    (hloop : namexLoop uid b (path.length + 1) s₁ ip path [] = .ok (s', r, nm)) :
    Resolves s.inodes uid b d (pathElems path) s' r nm ∧
      (∀ k, (s'.slot k).ref = (s.slot k).ref + if r = some k then 1 else 0) ∧
      (∀ k, (s'.slot k).locked = (s.slot k).locked) := by
  have hpos : 0 < (s₁.slot ip).ref := by
    rw [href₁, if_pos rfl]
    omega
  obtain ⟨hres, -, -, href', hlock'⟩ := namexLoop_walks (Nat.lt_succ_self _) hd₁ hf₁ hpos hloop
  refine ⟨hinum ▸ hres, fun k => ?_, fun k => (hlock' k).trans (hlock₁ k)⟩
  have h₁ := href' k
  have h₂ := href₁ k
  split_ifs at h₁ h₂ ⊢ <;> omega

/-- `namex` walks from the root for a path that starts with a slash, else
from the current directory.  `namei` returns the inode reached by successive
`dirlookup`s of the path's elements; `nameiparent` returns the directory
before the last lookup, with the last element in `name`.  A walk passes only
directories of type `T_DIR` that the caller may search.  Of the references
`namex` takes, only the one on the inode it returns is left, and no lock is
left held.  The cache holds each inode in at most one slot with a reference,
and the current directory in one, as in every state the kernel reaches. -/
theorem namex_walks {s s' : FsState} {uid : UInt32} {cwd : Nat} {path : List UInt8} {b : Bool}
    {r : Option Nat} {nm : List UInt8} (hd : s.Distinct) (hcwd : 0 < (s.slot cwd).ref)
    (h : namex s uid cwd path b = .ok (s', r, nm)) :
    (if b then (r.map fun j => ((s'.slot j).inum, nm)) =
        walkParent s.inodes uid (if path.headD 0 = slash then rootino else (s.slot cwd).inum)
          (pathElems path)
      else r.map (fun j => (s'.slot j).inum) =
        walk s.inodes uid (if path.headD 0 = slash then rootino else (s.slot cwd).inum)
          (pathElems path)) ∧
      (∀ k, (s'.slot k).ref = (s.slot k).ref + if r = some k then 1 else 0) ∧
      (∀ k, (s'.slot k).locked = (s.slot k).locked) := by
  unfold namex at h
  split_ifs at h with hroot
  · -- from the root: `iget(ROOTDEV, ROOTINO)`
    obtain ⟨⟨s₁, ip⟩, hget, hloop⟩ := Except.bind_eq_ok_iff.mp h
    obtain ⟨hd₁, hf₁, hinum₁, hnn, href₁, hlock₁⟩ := iget_walk hget hd (Freed.refl s)
    rw [if_pos hroot]
    exact namex_from hd₁ hf₁ hinum₁ hnn href₁ hlock₁ hloop
  · -- from the current directory: `idup(myproc()->cwd)`
    obtain ⟨hd₁, hf₁, hinum₁, href₁, hlock₁⟩ := idup_walk hd (Freed.refl s) hcwd
    rw [if_neg hroot]
    exact namex_from hd₁ hf₁ (hinum₁ cwd) hcwd.le href₁ hlock₁ h

/-- A root directory holding `.` and the file `a` (inode `2`), searchable by
its owner `0`; its slot `0` is held as the current directory, slot `1` is
free. -/
def walkFs : FsState where
  inodes := fun i =>
    if i = rootino then
      { perm := modeXusr, type := .dir, major := 0, minor := 0, nlink := 1,
        data := direntBytes rootino [46] ++ direntBytes 2 [97], owner := 0 }
    else if i = 2 then
      { perm := 0, type := .file, major := 0, minor := 0, nlink := 1, data := [], owner := 0 }
    else default
  icache := [⟨rootino, 1, true, false⟩, ⟨0, 0, false, false⟩]
  ninodes := 3

theorem walkFs_distinct : walkFs.Distinct := by
  intro j k hj hk _
  have hj' : j < 2 := walkFs.lt_length_of_ref_pos hj
  have hk' : k < 2 := walkFs.lt_length_of_ref_pos hk
  interval_cases j <;> interval_cases k <;> simp_all [walkFs, FsState.slot]

theorem namei_walks_to_file :
    ∃ s', namex walkFs 0 0 [slash, 97] false = .ok (s', some 1, [97]) ∧
      walk walkFs.inodes 0 rootino (pathElems [slash, 97]) = some (s'.slot 1).inum ∧
      (s'.slot 1).inum = 2 ∧ (s'.slot 0).ref = 1 ∧ (s'.slot 1).ref = 1 := by
  obtain ⟨s', hrun⟩ : ∃ s', namex walkFs 0 0 [slash, 97] false = .ok (s', some 1, [97]) :=
    ⟨_, rfl⟩
  obtain ⟨hres, href, -⟩ := namex_walks walkFs_distinct (by decide) hrun
  have hwalk : walk walkFs.inodes 0 rootino (pathElems [slash, 97]) = some 2 := by decide
  simp only [Bool.false_eq_true, if_false, Option.map_some, show [slash, 97].headD 0 = slash from rfl,
    if_true, hwalk, Option.some.injEq] at hres
  refine ⟨s', hrun, by rw [hwalk, hres], hres, ?_, ?_⟩
  · rw [href 0]
    decide
  · rw [href 1]
    decide

end Loop

end Xv6
