import Mathlib.Tactic

/-!
# Singly linked paths

Nodes linked through one pointer map `next`.  A path is `Linked` when each
node's `next` is the node after it; a cycle through `a` is a path
`a :: l ++ [a]`.

A loop that follows `next` until a test holds (`findFrom`) finds along a
linked path what `List.find?` finds on it.  From any node of a cycle a
path leads once round the cycle back to that node (`Linked.round`), so a
loop started anywhere on a cycle meets every node.  On a cycle kept in
increasing order the pointer of each node is the least node above it, and
that of the greatest node is the head (`Linked.sorted_next`): this is what
lets an address-ordered free list be searched by comparing neighbours.
-/

namespace LinkedPath

variable {α : Type*} (next : α → α)

/-- Each node of `path` is followed by the node `next` gives. -/
def Linked (path : List α) : Prop := path.IsChain (fun a b => next a = b)

/-- Follow `next` from `x` for at most `fuel` nodes, to the first that passes `p`. -/
def findFrom (p : α → Bool) : Nat → α → Option α
  | 0, _ => none
  | fuel + 1, x => if p x then some x else findFrom p fuel (next x)

variable {next}

@[simp]
theorem linked_nil : Linked next [] := List.isChain_nil

@[simp]
theorem linked_singleton (a : α) : Linked next [a] := List.isChain_singleton a

theorem linked_cons_cons {a b : α} {l : List α} :
    Linked next (a :: b :: l) ↔ next a = b ∧ Linked next (b :: l) :=
  List.isChain_cons_cons

/-- Two linked paths, the first ending where the second's head is linked. -/
theorem linked_append {l₁ l₂ : List α} :
    Linked next (l₁ ++ l₂) ↔
      Linked next l₁ ∧ Linked next l₂ ∧ ∀ x ∈ l₁.getLast?, ∀ y ∈ l₂.head?, next x = y :=
  List.isChain_append

/-- Links survive a change of the pointers of nodes off the path (the last
node's pointer is not part of it). -/
theorem Linked.frame {next' : α → α} {l : List α} (h : Linked next l)
    (hsame : ∀ a ∈ l.dropLast, next' a = next a) : Linked next' l := by
  induction l with
  | nil => exact linked_nil
  | cons a l ih =>
    cases l with
    | nil => exact linked_singleton a
    | cons b l =>
      obtain ⟨hab, hrest⟩ := linked_cons_cons.mp h
      refine linked_cons_cons.mpr ⟨(hsame a (by simp)).trans hab, ih hrest fun c hc => ?_⟩
      exact hsame c (by simp only [List.dropLast_cons_cons]; exact List.mem_cons_of_mem a hc)

/-- Along a linked path the loop finds what `List.find?` finds. -/
theorem findFrom_of_find? {p : α → Bool} {x y : α} :
    ∀ {l : List α} {fuel : Nat}, Linked next (x :: l) → (x :: l).find? p = some y →
      l.length < fuel → findFrom next p fuel x = some y
  | _, 0, _, _, hfuel => absurd hfuel (Nat.not_lt_zero _)
  | [], fuel + 1, _, hfind, _ => by
    rw [List.find?_singleton] at hfind
    by_cases hp : p x = true
    · rw [if_pos hp] at hfind
      rw [findFrom, if_pos hp, hfind]
    · rw [if_neg hp] at hfind
      cases hfind
  | b :: l, fuel + 1, hlink, hfind, hfuel => by
    obtain ⟨hxb, hrest⟩ := linked_cons_cons.mp hlink
    rw [findFrom]
    by_cases hp : p x = true
    · rw [List.find?_cons_of_pos hp] at hfind
      rw [if_pos hp, hfind]
    · rw [List.find?_cons_of_neg hp] at hfind
      rw [if_neg hp, hxb]
      exact findFrom_of_find? hrest hfind (by simp only [List.length_cons] at hfuel; omega)

/-- More fuel finds what less fuel found. -/
theorem findFrom_mono {p : α → Bool} {y : α} {fuel : Nat} {x : α} (h : findFrom next p fuel x = some y)
    (k : Nat) : findFrom next p (fuel + k) x = some y := by
  induction fuel generalizing x with
  | zero => simp [findFrom] at h
  | succ fuel ih =>
    rw [Nat.add_right_comm, findFrom]
    rw [findFrom] at h
    split_ifs at h ⊢
    · exact h
    · exact ih h

/-- The last node before `z` on a path points at `z`. -/
theorem Linked.getLast_next {l : List α} {z : α} (h : Linked next (l ++ [z])) (hl : l ≠ []) :
    next (l.getLast hl) = z :=
  (linked_append.mp h).2.2 _ (List.getLast?_eq_some_getLast hl) z rfl

/-- Every node of a path is reached from its head by following `next`. -/
theorem Linked.exists_iterate {x y : α} {l : List α} (h : Linked next (x :: l)) (hy : y ∈ x :: l) :
    ∃ k, next^[k] x = y := by
  induction l generalizing x with
  | nil => exact ⟨0, (List.mem_singleton.mp hy).symm⟩
  | cons b l ih =>
    rcases List.mem_cons.mp hy with rfl | hy
    · exact ⟨0, rfl⟩
    · obtain ⟨hxb, hrest⟩ := linked_cons_cons.mp h
      obtain ⟨k, hk⟩ := ih hrest hy
      exact ⟨k + 1, by rw [Function.iterate_succ_apply, hxb, hk]⟩

/-- The next node of a node on a path (not its last) is on the rest of the path. -/
theorem Linked.next_mem_tail {l : List α} (h : Linked next l) {a : α} (ha : a ∈ l.dropLast) :
    next a ∈ l.tail := by
  induction l with
  | nil => simp at ha
  | cons x l ih =>
    cases l with
    | nil => simp at ha
    | cons y l =>
      obtain ⟨hxy, hrest⟩ := linked_cons_cons.mp h
      rw [List.dropLast_cons_cons, List.mem_cons] at ha
      rcases ha with rfl | ha
      · rw [hxy]
        exact List.mem_cons_self
      · exact List.mem_cons_of_mem y (ih hrest ha)

/-- Putting `m` in place of the nodes `M` between `Q` and `T`: the pointers of
the other nodes are kept, the last of `Q` now points at `m`, and `m` at the
head of `T`. -/
theorem Linked.splice {next' : α → α} {Q M T : List α} {m : α} (h : Linked next (Q ++ M ++ T))
    (hQ : ∀ a ∈ Q.dropLast, next' a = next a) (hT : ∀ a ∈ T.dropLast, next' a = next a)
    (hin : ∀ a ∈ Q.getLast?, next' a = m) (hout : ∀ t ∈ T.head?, next' m = t) :
    Linked next' (Q ++ m :: T) := by
  have hQ' : Linked next Q := List.IsChain.left_of_append (List.IsChain.left_of_append h)
  have hT' : Linked next T := List.IsChain.right_of_append h
  refine linked_append.mpr ⟨hQ'.frame hQ, List.isChain_cons.mpr ⟨hout, hT'.frame hT⟩, ?_⟩
  intro a ha y hy
  rw [List.head?_cons, Option.mem_some_iff] at hy
  exact hy ▸ hin a ha

/-- From any node of a cycle, a path round the whole cycle back to it. -/
theorem Linked.round {a x : α} {l : List α} (h : Linked next (a :: l ++ [a])) (hx : x ∈ a :: l) :
    ∃ w, Linked next (x :: w) ∧ w.getLast? = some x ∧ w.Perm (a :: l) := by
  obtain ⟨u, v, huv⟩ := List.append_of_mem hx
  rw [huv, List.append_assoc, List.cons_append] at h
  -- the cycle is cut at `x`: the nodes before it, and those after it with the head
  obtain ⟨hpre, hpost⟩ := List.isChain_split.mp h
  refine ⟨v ++ u ++ [x], ?_, by simp, ?_⟩
  · cases u with
    | nil =>
      rw [List.nil_append, List.cons.injEq] at huv
      rw [huv.1] at hpost
      rw [List.append_nil]
      exact hpost
    | cons c u =>
      rw [List.cons_append, List.cons.injEq] at huv
      rw [huv.1] at hpost
      have : x :: (v ++ (c :: u) ++ [x]) = (x :: v) ++ c :: (u ++ [x]) := by simp
      rw [this]
      exact List.isChain_split.mpr ⟨by simpa using hpost, hpre⟩
  · rw [huv]
    calc List.Perm (v ++ u ++ [x]) (x :: (v ++ u)) := List.perm_append_comm
      List.Perm _ (x :: (u ++ v)) := List.Perm.cons x List.perm_append_comm
      List.Perm _ (u ++ x :: v) := List.perm_middle.symm

/-- The only node that passes `p` is what `List.find?` finds. -/
theorem find?_eq_some_of_unique {p : α → Bool} {y : α} :
    ∀ {l : List α}, y ∈ l → p y = true → (∀ z ∈ l, p z = true → z = y) → l.find? p = some y
  | z :: l, hy, hpy, huniq => by
    by_cases hpz : p z = true
    · rw [List.find?_cons_of_pos hpz, huniq z List.mem_cons_self hpz]
    · rw [List.find?_cons_of_neg hpz]
      rcases List.mem_cons.mp hy with rfl | hy
      · exact absurd hpy hpz
      · exact find?_eq_some_of_unique hy hpy fun c hc hpc => huniq c (List.mem_cons_of_mem _ hc) hpc

section Sorted

variable [LinearOrder α]

/-- On a path in increasing order that ends at `z`, the pointer of a node
is the least node above it, or `z` for the greatest one. -/
theorem Linked.next_least {z q : α} :
    ∀ {l : List α}, Linked next (l ++ [z]) → l.Pairwise (· < ·) → q ∈ l →
      (next q = z ∧ ∀ r ∈ l, r ≤ q) ∨ (q < next q ∧ next q ∈ l ∧ ∀ r ∈ l, q < r → next q ≤ r)
  | [b], h, _, hq => by
    rw [List.mem_singleton] at hq
    subst hq
    exact .inl ⟨(linked_cons_cons.mp h).1, by simp⟩
  | b :: c :: l, h, hs, hq => by
    obtain ⟨hbc, hrest⟩ := linked_cons_cons.mp h
    obtain ⟨hb, hs'⟩ := List.pairwise_cons.mp hs
    rcases List.mem_cons.mp hq with rfl | hq
    · -- the first node points at the second, the least above it
      refine .inr ⟨hbc ▸ hb c List.mem_cons_self, hbc ▸ List.mem_cons_of_mem _ List.mem_cons_self,
        fun r hr hqr => ?_⟩
      rcases List.mem_cons.mp hr with rfl | hr
      · exact absurd hqr (lt_irrefl _)
      rcases List.mem_cons.mp hr with rfl | hr
      · exact hbc.le
      · exact hbc ▸ (List.rel_of_pairwise_cons hs' hr).le
    · have hbq := hb q hq
      rcases Linked.next_least hrest hs' hq with ⟨hz, hmax⟩ | ⟨hlt, hmem, hleast⟩
      · refine .inl ⟨hz, fun r hr => ?_⟩
        rcases List.mem_cons.mp hr with rfl | hr
        · exact hbq.le
        · exact hmax r hr
      · refine .inr ⟨hlt, List.mem_cons_of_mem _ hmem, fun r hr hqr => ?_⟩
        rcases List.mem_cons.mp hr with rfl | hr
        · exact absurd (hbq.trans hqr) (lt_irrefl _)
        · exact hleast r hr hqr

/-- On a cycle in increasing order from its head, the pointer of a node is
the least node above it, and the greatest node points back at the head. -/
theorem Linked.sorted_next {a q : α} {l : List α} (h : Linked next (a :: l ++ [a]))
    (hs : (a :: l).Pairwise (· < ·)) (hq : q ∈ a :: l) :
    (next q = a ∧ ∀ r ∈ a :: l, r ≤ q) ∨
      (q < next q ∧ next q ∈ a :: l ∧ ∀ r ∈ a :: l, q < r → next q ≤ r) :=
  h.next_least hs hq

/-- The test of an insertion into a cycle kept in increasing order: a value
above the head and off the cycle lies on the arc from a node to its
successor (round past the greatest node back to the head) exactly at the
greatest node below it. -/
theorem Linked.gap_iff {a x q : α} {l : List α} (h : Linked next (a :: l ++ [a]))
    (hs : (a :: l).Pairwise (· < ·)) (hax : a < x) (hx : x ∉ l) (hq : q ∈ a :: l) :
    ((q < x ∧ x < next q) ∨ (next q ≤ q ∧ (q < x ∨ x < next q))) ↔
      (q < x ∧ ∀ r ∈ a :: l, r < x → r ≤ q) := by
  rcases h.sorted_next hs hq with ⟨hn, hmax⟩ | ⟨hlt, hmem, hleast⟩
  · -- the greatest node: its arc wraps to the head, below `x`
    rw [hn]
    have haq := hmax a List.mem_cons_self
    constructor
    · rintro (⟨hqx, hxa⟩ | ⟨-, hqx | hxa⟩)
      · exact absurd (hax.trans hxa) (lt_irrefl _)
      · exact ⟨hqx, fun r hr _ => hmax r hr⟩
      · exact absurd (hax.trans hxa) (lt_irrefl _)
    · rintro ⟨hqx, -⟩
      exact .inr ⟨haq, .inl hqx⟩
  · -- any other node: its arc is the gap up to the least node above it
    constructor
    · rintro (⟨hqx, hxn⟩ | ⟨hnq, -⟩)
      · refine ⟨hqx, fun r hr hrx => ?_⟩
        by_contra hrq
        exact absurd ((hleast r hr (lt_of_not_ge hrq)).trans_lt hrx) (not_lt.mpr hxn.le)
      · exact absurd (hlt.trans_le hnq) (lt_irrefl _)
    · rintro ⟨hqx, hbelow⟩
      refine .inl ⟨hqx, lt_of_le_of_ne (not_lt.mp fun hnx => ?_) fun he => ?_⟩
      · exact absurd ((hbelow _ hmem hnx).trans_lt hlt) (lt_irrefl _)
      · rcases List.mem_cons.mp hmem with ha | hl
        · exact absurd (he.trans ha) (ne_of_gt hax)
        · exact hx (he ▸ hl)

/-- The greatest element of a list in increasing order is its last. -/
theorem getLast?_of_greatest {q : α} :
    ∀ {l : List α}, l.Pairwise (· < ·) → q ∈ l → (∀ r ∈ l, r ≤ q) → l.getLast? = some q
  | [b], _, hq, _ => by
    rw [List.mem_singleton] at hq
    rw [hq]
    rfl
  | b :: c :: l, hs, hq, hmax => by
    obtain ⟨hb, hs'⟩ := List.pairwise_cons.mp hs
    rw [List.getLast?_cons_cons]
    rcases List.mem_cons.mp hq with rfl | hq
    · exact absurd (hb c List.mem_cons_self) (not_lt.mpr (hmax c (by simp)))
    · exact getLast?_of_greatest hs' hq fun r hr => hmax r (List.mem_cons_of_mem _ hr)

end Sorted

end LinkedPath
