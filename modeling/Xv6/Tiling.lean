import Mathlib.Tactic

/-!
# Blocks laid end to end

A list of blocks, each with a start and a length, `Tiles` an interval `[s, e)`
when the first starts at `s`, each next one starts where the one before
ends, and the last ends at `e`.  This is how an allocator's heap is cut into
free and used blocks.

The lemmas split a tiling at any block (`tiles_append_cons`), put other
blocks over the units of a run (`Tiles.swap`), so that a block can be cut in
two or neighbours joined into one, extend it at its end, and give the order
facts: blocks of positive length start in
increasing order, each one ends before the next begins, and every block
lies inside the interval.
-/

namespace Tiling

variable {β : Type*} (addr len : β → Nat)

/-- The blocks `bs` lie end to end from `s` to `e`. -/
def Tiles : Nat → List β → Nat → Prop
  | s, [], e => s = e
  | s, b :: bs, e => addr b = s ∧ Tiles (s + len b) bs e

variable {addr len}

@[simp]
theorem tiles_nil {s e : Nat} : Tiles addr len s [] e ↔ s = e := Iff.rfl

@[simp]
theorem tiles_cons {s e : Nat} {b : β} {bs : List β} :
    Tiles addr len s (b :: bs) e ↔ addr b = s ∧ Tiles addr len (s + len b) bs e := Iff.rfl

theorem tiles_append {s e : Nat} {xs ys : List β} :
    Tiles addr len s (xs ++ ys) e ↔ ∃ m, Tiles addr len s xs m ∧ Tiles addr len m ys e := by
  induction xs generalizing s with
  | nil => simp
  | cons x xs ih =>
    simp only [List.cons_append, tiles_cons, ih]
    constructor
    · rintro ⟨hx, m, h₁, h₂⟩
      exact ⟨m, ⟨hx, h₁⟩, h₂⟩
    · rintro ⟨m, ⟨hx, h₁⟩, h₂⟩
      exact ⟨hx, m, h₁, h₂⟩

/-- A tiling taken apart at one of its blocks: the blocks before it end
where it starts, and those after it start where it ends. -/
theorem tiles_append_cons {s e : Nat} {xs ys : List β} {b : β} :
    Tiles addr len s (xs ++ b :: ys) e ↔
      Tiles addr len s xs (addr b) ∧ Tiles addr len (addr b + len b) ys e := by
  rw [tiles_append]
  constructor
  · rintro ⟨m, h₁, hb, h₂⟩
    exact ⟨hb ▸ h₁, hb ▸ h₂⟩
  · rintro ⟨h₁, h₂⟩
    exact ⟨addr b, h₁, rfl, h₂⟩

/-- One more block at the end. -/
theorem Tiles.snoc {s m : Nat} {bs : List β} (h : Tiles addr len s bs m) {b : β} (hb : addr b = m) :
    Tiles addr len s (bs ++ [b]) (m + len b) :=
  tiles_append.mpr ⟨m, h, hb, rfl⟩

/-- The interval grows from its start. -/
theorem Tiles.le {s e : Nat} {bs : List β} (h : Tiles addr len s bs e) : s ≤ e := by
  induction bs generalizing s with
  | nil => exact (tiles_nil.mp h).le
  | cons b bs ih =>
    have := ih (tiles_cons.mp h).2
    omega

/-- Every block lies inside the interval. -/
theorem Tiles.bounds {s e : Nat} {bs : List β} (h : Tiles addr len s bs e) {b : β} (hb : b ∈ bs) :
    s ≤ addr b ∧ addr b + len b ≤ e := by
  obtain ⟨xs, ys, rfl⟩ := List.append_of_mem hb
  obtain ⟨h₁, h₂⟩ := tiles_append_cons.mp h
  exact ⟨h₁.le, h₂.le⟩

/-- A block ends no later than any block after it begins. -/
theorem Tiles.pairwise {s e : Nat} {bs : List β} (h : Tiles addr len s bs e) :
    bs.Pairwise (fun a b => addr a + len a ≤ addr b) := by
  induction bs generalizing s with
  | nil => exact List.Pairwise.nil
  | cons b bs ih =>
    obtain ⟨hb, hs⟩ := tiles_cons.mp h
    refine List.Pairwise.cons (fun c hc => ?_) (ih hs)
    have := (hs.bounds hc).1
    omega

/-- Two different blocks of a tiling do not overlap. -/
theorem Tiles.disjoint {s e : Nat} {bs : List β} (h : Tiles addr len s bs e) {a b : β} (ha : a ∈ bs)
    (hb : b ∈ bs) (hne : a ≠ b) : addr a + len a ≤ addr b ∨ addr b + len b ≤ addr a := by
  have hp := h.pairwise
  rcases List.Pairwise.forall_of_forall_of_flip
      (R := fun x y => x = y ∨ addr x + len x ≤ addr y ∨ addr y + len y ≤ addr x)
      (fun _ _ => .inl rfl) (hp.imp fun hxy => .inr (.inl hxy)) (hp.imp fun hxy => .inr (.inr hxy)) ha hb
    with he | hd
  · exact absurd he hne
  · exact hd

/-- With blocks of positive length, starts increase strictly. -/
theorem Tiles.sorted {s e : Nat} {bs : List β} (h : Tiles addr len s bs e) (hpos : ∀ b ∈ bs, 0 < len b) :
    bs.Pairwise (fun a b => addr a < addr b) :=
  h.pairwise.imp_of_mem fun {a _} ha _ hab => by
    have := hpos a ha
    omega

/-- Blocks of positive length are no more than the units they cover. -/
theorem Tiles.length_le {s e : Nat} {bs : List β} (h : Tiles addr len s bs e) (hpos : ∀ b ∈ bs, 0 < len b) :
    s + bs.length ≤ e := by
  induction bs generalizing s with
  | nil => simp [tiles_nil.mp h]
  | cons b bs ih =>
    have := ih (tiles_cons.mp h).2 fun c hc => hpos c (List.mem_cons_of_mem b hc)
    have := hpos b List.mem_cons_self
    simp only [List.length_cons]
    omega

/-- Putting the blocks `mid'` in place of a run `mid` over the same units. -/
theorem Tiles.swap {s e : Nat} {xs mid mid' ys : List β} (h : Tiles addr len s (xs ++ mid ++ ys) e)
    (hmid : ∀ a c, Tiles addr len a mid c → Tiles addr len a mid' c) :
    Tiles addr len s (xs ++ mid' ++ ys) e := by
  obtain ⟨m₂, hxm, hy⟩ := tiles_append.mp h
  obtain ⟨m₁, hx, hm⟩ := tiles_append.mp hxm
  exact tiles_append.mpr ⟨m₂, tiles_append.mpr ⟨m₁, hx, hmid m₁ m₂ hm⟩, hy⟩

end Tiling
