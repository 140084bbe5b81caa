import Xv6.Inode

/-!
# Directories

A directory's contents are a sequence of 16-byte `struct dirent` records:
an `inum` as a little-endian `ushort` and a name of `DIRSIZ` bytes, the
record with `inum` zero being free.  `dirlookup` reads them one record at a
time through `readi` and `dirlink` writes one through `writei`; both loops
stop at the size, so the record count is their fuel.
-/

namespace Xv6

open FsState

/-- `sizeof(struct dirent)`. -/
def direntSize : Nat := 16

def namecmp (s t : List UInt8) : Int := strncmp dirsiz s t

/-- The record `dirlink` writes for `name` and `inum`. -/
def direntBytes (inum : Nat) (name : List UInt8) : List UInt8 :=
  UInt8.ofNat inum :: UInt8.ofNat (inum / 256) :: strncpy dirsiz name

def direntInum (de : List UInt8) : Nat :=
  (de.getD 0 0).toNat + 256 * (de.getD 1 0).toNat

def direntName (de : List UInt8) : List UInt8 := de.drop 2

/-- The loop of `dirlookup` from offset `off`: the first record in use
whose name matches, with its offset. -/
def dirlookupLoop (dp : Inode) (name : List UInt8) :
    Nat → Nat → Except Fault (Option (Nat × Nat))
  | 0, _ => .ok none
  | fuel + 1, off =>
      if off < dp.size then
        match readi dp (UInt32.ofNat off) (UInt32.ofNat direntSize) with
        | some de =>
            if de.length ≠ direntSize then .error (.panic "dirlookup read")
            else if direntInum de = 0 then dirlookupLoop dp name fuel (off + direntSize)
            else if namecmp name (direntName de) = 0 then .ok (some (direntInum de, off))
            else dirlookupLoop dp name fuel (off + direntSize)
        | none => .error (.panic "dirlookup read")
      else .ok none

/-- `dirlookup`: the slot of the inode `name` names in directory `dp`,
referenced through `iget`, and the offset of its record. -/
def dirlookup (s : FsState) (dp : Nat) (name : List UInt8) :
    Except Fault (FsState × Option (Nat × Nat)) :=
  if (s.inode dp).type ≠ .dir then .error (.panic "dirlookup not DIR")
  else
    match dirlookupLoop (s.inode dp) name (s.inode dp).size 0 with
    | .error e => .error e
    | .ok none => .ok (s, none)
    | .ok (some (inum, off)) =>
        match iget s inum with
        | .error e => .error e
        | .ok (s, ip) => .ok (s, some (ip, off))

/-- Whether the contents of a directory hold a record in use for `name`. -/
def hasEntry (dp : Inode) (name : List UInt8) : Bool :=
  match dirlookupLoop dp name dp.size 0 with
  | .ok (some _) => true
  | _ => false

/-- The loop of `dirlink` looking for a free record: its offset, or the
size when every record is in use. -/
def dirlinkOffset (dp : Inode) : Nat → Nat → Except Fault Nat
  | 0, off => .ok off
  | fuel + 1, off =>
      if off < dp.size then
        match readi dp (UInt32.ofNat off) (UInt32.ofNat direntSize) with
        | some de =>
            if de.length ≠ direntSize then .error (.panic "dirlink read")
            else if direntInum de = 0 then .ok off
            else dirlinkOffset dp fuel (off + direntSize)
        | none => .error (.panic "dirlink read")
      else .ok off

/-- `dirlink`: `-1` when `name` is present, else the record for `name` and
`inum` written into the first free record. -/
def dirlink (s : FsState) (dp : Nat) (name : List UInt8) (inum : Nat) :
    Except Fault (FsState × Int) := do
  let (s, found) ← dirlookup s dp name
  match found with
  | some (ip, _) =>
      let s ← iput s ip
      return (s, -1)
  | none =>
      let off ← dirlinkOffset (s.inode dp) (s.inode dp).size 0
      match writei (s.inode dp) (direntBytes inum name) (UInt32.ofNat off) with
      | some x => return (s.modify dp fun _ => x, 0)
      | none => throw (.panic "dirlink")

/-! ## Records -/

section Records

variable {s s' : FsState} {x : Inode} {name : List UInt8} {dp inum : Nat}

/-- The bytes of the record at offset `off`. -/
def record (x : Inode) (off : Nat) : List UInt8 := (x.data.drop off).take direntSize

/-- Whether `dirlookup` stops at the record `de` when it looks for `name`:
the record is in use and its name matches. -/
def entryMatches (name de : List UInt8) : Bool :=
  direntInum de != 0 && namecmp name (direntName de) == 0

/-- Below `2^32` the offsets of `readi` do not wrap, and a record read
within the file is the record at that offset. -/
theorem readi_record {off : Nat} (hoff : off ≤ x.size) (hbound : off + direntSize < 2 ^ 32) :
    readi x (UInt32.ofNat off) (UInt32.ofNat direntSize) = some (record x off) := by
  have ho : (UInt32.ofNat off).toNat = off := by
    rw [UInt32.toNat_ofNat', Nat.mod_eq_of_lt (by omega)]
  have hn : (UInt32.ofNat direntSize).toNat = direntSize := rfl
  have hwrap : ¬UInt32.ofNat off + UInt32.ofNat direntSize < UInt32.ofNat off := by
    rw [UInt32.lt_iff_toNat_lt, UInt32.toNat_add, ho, hn, Nat.mod_eq_of_lt hbound]
    omega
  unfold readi
  rw [if_neg (not_or.mpr ⟨by omega, hwrap⟩), ho, hn]
  rfl

/-- One round of the `dirlookup` loop inside the file: the record in use
whose name matches ends it, and any other record is passed over. -/
theorem dirlookupLoop_succ {fuel off : Nat} (hoff : off < x.size)
    (hbound : off + direntSize < 2 ^ 32) :
    dirlookupLoop x name (fuel + 1) off =
      if (record x off).length ≠ direntSize then .error (.panic "dirlookup read")
      else if entryMatches name (record x off) then .ok (some (direntInum (record x off), off))
      else dirlookupLoop x name fuel (off + direntSize) := by
  rw [dirlookupLoop, if_pos hoff, readi_record hoff.le hbound]
  dsimp only
  by_cases hfree : direntInum (record x off) = 0 <;> simp [entryMatches, hfree]

theorem dirlookupLoop_eq_ok_none {fuel off : Nat} (h : dirlookupLoop x name fuel off = .ok none)
    {k : Nat} (hk : k < fuel) (hlt : off + direntSize * k < x.size)
    (hbound : off + direntSize * k + direntSize < 2 ^ 32) :
    (record x (off + direntSize * k)).length = direntSize ∧
      entryMatches name (record x (off + direntSize * k)) = false := by
  induction fuel generalizing off k with
  | zero => omega
  | succ fuel ih =>
      have hoff : off < x.size := by simp only [direntSize] at hlt; omega
      rw [dirlookupLoop_succ hoff (by simp only [direntSize] at hbound ⊢; omega)] at h
      have hlen : (record x off).length = direntSize := by
        by_contra hne
        rw [if_pos hne] at h
        cases h
      have hpass : entryMatches name (record x off) = false := by
        by_contra hm
        rw [Bool.not_eq_false] at hm
        rw [if_neg (not_not.mpr hlen), if_pos hm] at h
        cases h
      rw [if_neg (not_not.mpr hlen), if_neg (by simp [hpass])] at h
      cases k with
      | zero =>
          simp only [Nat.mul_zero, Nat.add_zero]
          exact ⟨hlen, hpass⟩
      | succ k =>
          have hshift : off + direntSize + direntSize * k = off + direntSize * (k + 1) := by
            rw [Nat.mul_succ]
            omega
          rw [← hshift] at hlt hbound ⊢
          exact ih h (by omega) hlt hbound

/-- The loop finds the first matching record when every record before it
is passed over. -/
theorem dirlookupLoop_eq_ok_some {m fuel off : Nat} (hm : m < fuel)
    (hlt : off + direntSize * m < x.size) (hbound : off + direntSize * m + direntSize < 2 ^ 32)
    (hpass : ∀ k < m, (record x (off + direntSize * k)).length = direntSize ∧
      entryMatches name (record x (off + direntSize * k)) = false)
    (hlen : (record x (off + direntSize * m)).length = direntSize)
    (hmatch : entryMatches name (record x (off + direntSize * m)) = true) :
    dirlookupLoop x name fuel off =
      .ok (some (direntInum (record x (off + direntSize * m)), off + direntSize * m)) := by
  induction m generalizing fuel off with
  | zero =>
      obtain ⟨fuel, rfl⟩ : ∃ f, fuel = f + 1 := ⟨fuel - 1, by omega⟩
      simp only [Nat.mul_zero, Nat.add_zero] at hlt hbound hlen hmatch ⊢
      rw [dirlookupLoop_succ hlt hbound, if_neg (not_not.mpr hlen), if_pos hmatch]
  | succ m ih =>
      obtain ⟨fuel, rfl⟩ : ∃ f, fuel = f + 1 := ⟨fuel - 1, by omega⟩
      have hshift : ∀ k, off + direntSize + direntSize * k = off + direntSize * (k + 1) := by
        intro k
        rw [Nat.mul_succ]
        omega
      obtain ⟨hlen₀, hpass₀⟩ := hpass 0 (by omega)
      simp only [Nat.mul_zero, Nat.add_zero] at hlen₀ hpass₀
      have hoff : off < x.size := by simp only [direntSize] at hlt; omega
      have hnext := @ih fuel (off + direntSize) (by omega)
        (by rw [hshift]; exact hlt) (by rw [hshift]; exact hbound)
        (fun k hk => by rw [hshift]; exact hpass (k + 1) (by omega))
        (by rw [hshift]; exact hlen) (by rw [hshift]; exact hmatch)
      rw [hshift] at hnext
      rw [dirlookupLoop_succ hoff (by simp only [direntSize] at hbound ⊢; omega),
        if_neg (not_not.mpr hlen₀), if_neg (by simp [hpass₀]), hnext]

/-- The offset `dirlink` picks is a whole number of records from where it
starts. -/
theorem dirlinkOffset_eq_ok {fuel off o : Nat} (h : dirlinkOffset x fuel off = .ok o) :
    ∃ m, o = off + direntSize * m := by
  induction fuel generalizing off with
  | zero =>
      cases h
      exact ⟨0, rfl⟩
  | succ fuel ih =>
      unfold dirlinkOffset at h
      split_ifs at h with hoff
      · split at h
        · split_ifs at h with hlen hfree
          · cases h
            exact ⟨0, rfl⟩
          · obtain ⟨m, rfl⟩ := ih h
            exact ⟨m + 1, by rw [Nat.mul_succ]; omega⟩
        · cases h
      · cases h
        exact ⟨0, rfl⟩

theorem dirlookup_eq_ok_none (h : dirlookup s dp name = .ok (s', none)) :
    s' = s ∧ (s.inode dp).type = .dir ∧
      dirlookupLoop (s.inode dp) name (s.inode dp).size 0 = .ok none := by
  unfold dirlookup at h
  split_ifs at h with hdir
  split at h
  · cases h
  · cases h
    exact ⟨rfl, not_not.mp hdir, by assumption⟩
  · split at h <;> cases h

theorem dirlookup_eq_ok_some {ip off : Nat} (h : dirlookup s dp name = .ok (s', some (ip, off))) :
    (s.inode dp).type = .dir ∧ ∃ inum,
      dirlookupLoop (s.inode dp) name (s.inode dp).size 0 = .ok (some (inum, off)) ∧
        iget s inum = .ok (s', ip) := by
  unfold dirlookup at h
  split_ifs at h with hdir
  split at h
  · cases h
  · cases h
  · next inum off' hloop =>
      split at h
      · cases h
      · next s₁ ip' hget =>
          cases h
          exact ⟨not_not.mp hdir, inum, hloop, hget⟩

@[simp] theorem length_direntBytes (inum : Nat) (name : List UInt8) :
    (direntBytes inum name).length = direntSize := by
  simp [direntBytes, direntSize]

theorem direntInum_direntBytes {inum : Nat} (name : List UInt8) (h : inum < 2 ^ 16) :
    direntInum (direntBytes inum name) = inum := by
  simp only [direntInum, direntBytes, List.getD_cons_zero, List.getD_cons_succ,
    UInt8.toNat_ofNat']
  omega

theorem entryMatches_direntBytes {inum : Nat} (name : List UInt8) (h₀ : 0 < inum)
    (h : inum < 2 ^ 16) : entryMatches name (direntBytes inum name) = true := by
  have hname : namecmp name (direntName (direntBytes inum name)) = 0 := by
    rw [namecmp, strncmp_eq_zero_iff, direntName, direntBytes, List.drop_succ_cons,
      List.drop_succ_cons, List.drop_zero, cstr_strncpy, List.take_take, min_self]
  simp [entryMatches, direntInum_direntBytes name h, hname, Nat.pos_iff_ne_zero.mp h₀]

theorem record_overwrite_self {off : Nat} (bs : List UInt8) (hoff : off ≤ x.size)
    (hbs : bs.length = direntSize) :
    record { x with data := x.data.overwrite off bs } off = bs := by
  have hread : ((x.data.overwrite off bs).drop off).take bs.length = bs :=
    List.take_drop_overwrite hoff
  rw [hbs] at hread
  exact hread

theorem record_overwrite_of_le {off r : Nat} (bs : List UInt8) (hoff : off ≤ x.size)
    (hr : r + direntSize ≤ off) :
    record { x with data := x.data.overwrite off bs } r = record x r :=
  List.take_drop_overwrite_of_disjoint hoff (Or.inl hr)

/-- Where the lookup of `name` passed over every record, a matching
record laid over one of them, or just past them, is the one it finds. -/
theorem dirlookupLoop_overwrite {m : Nat} {bs : List UInt8}
    (hnone : dirlookupLoop x name x.size 0 = .ok none) (hle : direntSize * m ≤ x.size)
    (hmax : direntSize * m + direntSize ≤ maxfile * bsize) (hbs : bs.length = direntSize)
    (hmatch : entryMatches name bs = true) :
    dirlookupLoop { x with data := x.data.overwrite (direntSize * m) bs } name
        ({ x with data := x.data.overwrite (direntSize * m) bs }).size 0 =
      .ok (some (direntInum bs, direntSize * m)) := by
  set y : Inode := { x with data := x.data.overwrite (direntSize * m) bs } with hy
  have hsize : y.size = max x.size (direntSize * m + direntSize) := by
    simp only [hy, Inode.size]
    rw [List.length_overwrite hle, hbs]
  have hnew : record y (0 + direntSize * m) = bs := by
    rw [Nat.zero_add]
    exact record_overwrite_self bs hle hbs
  have hsize16 : y.size = max x.size (16 * m + 16) := hsize
  have hle16 : 16 * m ≤ x.size := hle
  have hmax16 : 16 * m + 16 ≤ 71168 := by simpa [direntSize] using hmax
  have hfound : dirlookupLoop y name y.size 0 =
      .ok (some (direntInum (record y (0 + direntSize * m)), 0 + direntSize * m)) :=
    dirlookupLoop_eq_ok_some (by rw [hsize16]; omega) (by show 0 + 16 * m < y.size; rw [hsize16]; omega)
    (by show 0 + 16 * m + 16 < 2 ^ 32; omega)
    (fun k hk => by
      have hk' : direntSize * k + direntSize ≤ direntSize * m := by
        show 16 * k + 16 ≤ 16 * m
        omega
      have hold := dirlookupLoop_eq_ok_none hnone (k := k)
        (by show k < x.size; omega) (by show 0 + 16 * k < x.size; omega)
        (by show 0 + 16 * k + 16 < 2 ^ 32; omega)
      rw [Nat.zero_add] at hold ⊢
      rw [hy, record_overwrite_of_le bs hle hk']
      exact hold)
    (by rw [hnew, hbs]) (by rw [hnew]; exact hmatch)
  rwa [hnew, Nat.zero_add] at hfound

/-- `dirlink` that returns `0` found no record for `name` and wrote one
into the directory, and nothing else. -/
theorem dirlink_eq_ok {r : Int} (h : dirlink s dp name inum = .ok (s', r)) (hr : 0 ≤ r) :
    r = 0 ∧ (s.inode dp).type = .dir ∧
      dirlookupLoop (s.inode dp) name (s.inode dp).size 0 = .ok none ∧
      ∃ o y, dirlinkOffset (s.inode dp) (s.inode dp).size 0 = .ok o ∧
        writei (s.inode dp) (direntBytes inum name) (UInt32.ofNat o) = some y ∧
        s' = s.modify dp fun _ => y := by
  unfold dirlink at h
  obtain ⟨⟨s₁, found⟩, hlook, hrest⟩ := Except.bind_eq_ok_iff.mp h
  cases found with
  | some found =>
      obtain ⟨ip, off⟩ := found
      obtain ⟨s₂, -, hret⟩ := Except.bind_eq_ok_iff.mp hrest
      cases hret
      omega
  | none =>
      obtain ⟨rfl, hdir, hnone⟩ := dirlookup_eq_ok_none hlook
      obtain ⟨o, hoff, hwrite'⟩ := Except.bind_eq_ok_iff.mp hrest
      cases hwrite : writei (s₁.inode dp) (direntBytes inum name) (UInt32.ofNat o) with
      | none =>
          rw [hwrite] at hwrite'
          cases hwrite'
      | some y =>
          rw [hwrite] at hwrite'
          cases hwrite'
          exact ⟨rfl, hdir, hnone, o, y, hoff, hwrite, rfl⟩

/-- A `dirlink` that returns `0` changes the contents of the directory and
nothing else. -/
theorem dirlink_modify {r : Int} (h : dirlink s dp name inum = .ok (s', r)) (hr : 0 ≤ r) :
    ∃ d, s' = s.modify dp fun x => { x with data := d } := by
  obtain ⟨-, -, -, o, y, -, hwrite, rfl⟩ := dirlink_eq_ok h hr
  refine ⟨y.data, ?_⟩
  simp only [FsState.modify]
  congr 1
  exact writei_eq_some_data hwrite

/-- After a `dirlink` of `name` that returns `0`, the lookup of `name` in
the directory finds the new record. -/
theorem dirlink_lookup (h : dirlink s dp name inum = .ok (s', 0)) (h₀ : 0 < inum)
    (h₁ : inum < 2 ^ 16) :
    ∃ o, dirlookupLoop (s'.inode dp) name (s'.inode dp).size 0 = .ok (some (inum, o)) := by
  obtain ⟨-, -, hnone, o, y, hoff, hwrite, rfl⟩ := dirlink_eq_ok h le_rfl
  obtain ⟨hle, hmax, rfl⟩ := writei_eq_some hwrite (by simp [direntSize])
  obtain ⟨m, hm⟩ := dirlinkOffset_eq_ok hoff
  rw [length_direntBytes] at hmax
  -- the write lands on a record boundary, also where the offset wraps
  obtain ⟨m', hm'⟩ : ∃ m', (UInt32.ofNat o).toNat = direntSize * m' :=
    ⟨(UInt32.ofNat o).toNat / 16, by simp only [UInt32.toNat_ofNat', hm, direntSize]; omega⟩
  rw [hm'] at hle hmax
  rw [inode_modify_self, hm']
  refine ⟨direntSize * m', ?_⟩
  rw [dirlookupLoop_overwrite hnone hle hmax (length_direntBytes inum name)
    (entryMatches_direntBytes name h₀ h₁), direntInum_direntBytes name h₁]

theorem hasEntry_eq_false_iff : hasEntry x name = false ↔
    ∀ e, dirlookupLoop x name x.size 0 ≠ .ok (some e) := by
  unfold hasEntry
  split <;> simp_all

theorem hasEntry_of_lookup {e : Nat × Nat} (h : dirlookupLoop x name x.size 0 = .ok (some e)) :
    hasEntry x name = true := by
  simp [hasEntry, h]

/-- The lookup depends on the name only through what `namecmp` sees of it. -/
theorem dirlookupLoop_congr_name {name' : List UInt8}
    (h : ∀ de, namecmp name de = 0 ↔ namecmp name' de = 0) (fuel off : Nat) :
    dirlookupLoop x name fuel off = dirlookupLoop x name' fuel off := by
  induction fuel generalizing off with
  | zero => rfl
  | succ fuel ih => simp only [dirlookupLoop, ih, h]

/-- A name and its first `DIRSIZ` bytes compare alike. -/
theorem namecmp_take_cstr (name de : List UInt8) :
    namecmp ((cstr name).take dirsiz) de = 0 ↔ namecmp name de = 0 := by
  rw [namecmp, namecmp, strncmp_eq_zero_iff, strncmp_eq_zero_iff,
    cstr_eq_self (fun h => zero_not_mem_cstr name (List.mem_of_mem_take h)),
    List.take_take, min_self]

end Records

end Xv6
