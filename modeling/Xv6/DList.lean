import Mathlib.Tactic

/-!
# Circular doubly linked lists

Nodes linked through two pointer maps, `next` and `prev`.  A path of nodes
is `Linked` when each node's `next` is the node after it and that node's
`prev` is the node before it.  A `Cycle` through a head `h` is the nodes
`h :: l`, each once, linked from `h` round to `h` again.

Taking a node out of a cycle (`unlink`) leaves a cycle of the other nodes in
the same order, and putting a node in right after the head (`insertFront`)
makes it the first; both are written as the pointer assignments they are
made of.  Following `next` from the head meets the nodes of `l` in order,
and following `prev` meets them in reverse.
-/

namespace DList

variable {α : Type*} [DecidableEq α]

/-- `a` and `b` follow each other both ways. -/
def Link (next prev : α → α) (a b : α) : Prop := next a = b ∧ prev b = a

/-- Each node of `path` is linked to the next one. -/
def Linked (next prev : α → α) (path : List α) : Prop := path.IsChain (Link next prev)

/-- The nodes `h :: l`, each once, linked into a cycle from `h` round to `h`. -/
structure Cycle (next prev : α → α) (h : α) (l : List α) : Prop where
  nodup : (h :: l).Nodup
  linked : Linked next prev (h :: l ++ [h])

/-- `x->next = h->next; x->prev = h; h->next->prev = x; h->next = x`. -/
def insertFront (next prev : α → α) (h x : α) : (α → α) × (α → α) :=
  let next₁ := Function.update next x (next h)
  let prev₁ := Function.update prev x h
  let prev₂ := Function.update prev₁ (next₁ h) x
  (Function.update next₁ h x, prev₂)

/-- `x->next->prev = x->prev; x->prev->next = x->next`. -/
def unlink (next prev : α → α) (x : α) : (α → α) × (α → α) :=
  let prev₁ := Function.update prev (next x) (prev x)
  (Function.update next (prev₁ x) (next x), prev₁)

variable {next prev next' prev' : α → α}

omit [DecidableEq α] in
/-- Links that only the pointers of other nodes changed survive. -/
theorem Linked.frame {path : List α} (h : Linked next prev path)
    (hnext : ∀ a ∈ path.dropLast, next' a = next a) (hprev : ∀ b ∈ path.tail, prev' b = prev b) :
    Linked next' prev' path := by
  unfold Linked at *
  rw [List.isChain_iff_getElem] at *
  intro i hi
  obtain ⟨hn, hp⟩ := h i hi
  have hlt : i < path.dropLast.length := by simp; omega
  have hlt' : i < path.tail.length := by simp; omega
  have ha : path[i] ∈ path.dropLast := by
    rw [← List.getElem_dropLast hlt]
    exact List.getElem_mem hlt
  have hb : path[i + 1] ∈ path.tail := by
    rw [← List.getElem_tail hlt']
    exact List.getElem_mem hlt'
  exact ⟨(hnext _ ha).trans hn, (hprev _ hb).trans hp⟩

omit [DecidableEq α] in
theorem linked_cons_cons {a b : α} {l : List α} :
    Linked next prev (a :: b :: l) ↔ Link next prev a b ∧ Linked next prev (b :: l) :=
  List.isChain_cons_cons

omit [DecidableEq α] in
/-- The one-node cycle `binit` starts from: the head linked to itself. -/
theorem cycle_self {h : α} (hn : next h = h) (hp : prev h = h) : Cycle next prev h [] :=
  ⟨List.nodup_singleton h, linked_cons_cons.mpr ⟨⟨hn, hp⟩, List.isChain_singleton h⟩⟩

/-- Putting `x` in right after the head makes it the first node. -/
theorem Cycle.insertFront {h x : α} {l : List α} (hc : Cycle next prev h l) (hx : x ∉ h :: l) :
    Cycle (insertFront next prev h x).1 (insertFront next prev h x).2 h (x :: l) := by
  obtain ⟨hnodup, hlinked⟩ := hc
  have hxh : x ≠ h := fun he => hx (he ▸ List.mem_cons_self)
  have hhx : h ≠ x := Ne.symm hxh
  -- the node that followed the head
  obtain ⟨f, m, hm⟩ : ∃ f m, l ++ [h] = f :: m := List.exists_cons_of_ne_nil (by simp)
  have hnd : (f :: m).Nodup := by
    rw [← hm]
    exact (List.nodup_cons.mp hnodup).2.append (List.nodup_singleton h)
      (by simpa using (List.nodup_cons.mp hnodup).1)
  have hmem : ∀ y ∈ f :: m, y ∈ h :: l := fun y hy => by
    rw [← hm] at hy
    simp only [List.mem_append, List.mem_singleton] at hy
    rcases hy with hy | rfl
    · exact List.mem_cons_of_mem _ hy
    · exact List.mem_cons_self
  have hxf : x ≠ f := fun he => hx (hmem x (he ▸ List.mem_cons_self))
  rw [show h :: l ++ [h] = h :: f :: m by simp [hm]] at hlinked
  obtain ⟨⟨hnext, hprev⟩, hrest⟩ := linked_cons_cons.mp hlinked
  have hnodup' : (h :: x :: l).Nodup := by
    simp only [List.nodup_cons, List.mem_cons, not_or] at hnodup hx ⊢
    exact ⟨⟨hhx, hnodup.1⟩, hx.2, hnodup.2⟩
  refine ⟨hnodup', ?_⟩
  rw [show h :: x :: l ++ [h] = h :: x :: f :: m by simp [hm]]
  refine linked_cons_cons.mpr ⟨⟨?_, ?_⟩, linked_cons_cons.mpr ⟨⟨?_, ?_⟩, ?_⟩⟩
  · simp [DList.insertFront]
  · simp [DList.insertFront, hhx, hnext, hxf]
  · simp [DList.insertFront, hxh, hnext]
  · simp [DList.insertFront, hhx, hnext]
  · -- the rest of the cycle keeps its links
    refine hrest.frame (fun a ha => ?_) (fun b hb => ?_)
    · have hal : a ∈ l := by
        rw [← hm] at ha
        simpa using ha
      have hah : a ≠ h := fun he => (List.nodup_cons.mp hnodup).1 (he ▸ hal)
      have hax : a ≠ x := fun he => hx (he ▸ List.mem_cons_of_mem _ hal)
      simp [DList.insertFront, hah, hax]
    · have hbf : b ≠ f := fun he => (List.nodup_cons.mp hnd).1 (he ▸ hb)
      have hbx : b ≠ x := fun he => hx (he ▸ hmem b (List.mem_cons_of_mem _ hb))
      simp [DList.insertFront, hhx, hnext, hbf, hbx]

/-- Taking `x` out leaves the other nodes linked in the same order. -/
theorem Cycle.unlink {h x : α} {l₁ l₂ : List α} (hc : Cycle next prev h (l₁ ++ x :: l₂)) :
    Cycle (unlink next prev x).1 (unlink next prev x).2 h (l₁ ++ l₂) := by
  obtain ⟨hnodup, hlinked⟩ := hc
  have hfacts := hnodup
  simp only [List.nodup_cons, List.nodup_append, List.mem_append, List.mem_cons, not_or] at hfacts
  obtain ⟨⟨hhl₁, hhx, hhl₂⟩, hl₁, ⟨hxl₂, hl₂⟩, hdisj⟩ := hfacts
  -- `n` follows `x`, and `p` precedes it
  obtain ⟨n, q, hq⟩ : ∃ n q, l₂ ++ [h] = n :: q := List.exists_cons_of_ne_nil (by simp)
  obtain ⟨ps, p, hp⟩ : ∃ ps p, h :: l₁ = ps ++ [p] :=
    ⟨_, _, (List.dropLast_append_getLast (List.cons_ne_nil h l₁)).symm⟩
  have hn : n = h ∨ n ∈ l₂ := by
    have : n ∈ l₂ ++ [h] := hq ▸ List.mem_cons_self
    simp only [List.mem_append, List.mem_singleton] at this
    exact this.symm
  have hpmem : p = h ∨ p ∈ l₁ := by
    have : p ∈ h :: l₁ := hp ▸ List.mem_append_right ps (List.mem_singleton_self p)
    exact List.mem_cons.mp this
  have hxn : x ≠ n := by
    rcases hn with rfl | hn
    · exact Ne.symm hhx
    · exact fun he => hxl₂ (he ▸ hn)
  rw [show h :: (l₁ ++ x :: l₂) ++ [h] = (ps ++ [p]) ++ x :: n :: q by rw [← hq, ← hp]; simp]
    at hlinked
  unfold Linked at hlinked
  rw [List.isChain_append] at hlinked
  obtain ⟨hleft, hright, hjoin⟩ := hlinked
  obtain ⟨⟨hnext_x, hprev_n⟩, hright⟩ := linked_cons_cons.mp hright
  obtain ⟨-, hprev_x⟩ : Link next prev p x := hjoin p (by simp) x (by simp)
  -- so the two assignments link `p` and `n` directly
  have hnext₁ : (DList.unlink next prev x).1 = Function.update next p n := by
    simp [DList.unlink, hnext_x, Function.update_of_ne hxn, hprev_x]
  have hprev₁ : (DList.unlink next prev x).2 = Function.update prev n p := by
    simp [DList.unlink, hnext_x, hprev_x]
  refine ⟨hnodup.sublist (List.Sublist.cons_cons h
    (List.Sublist.append_left (List.sublist_cons_self x l₂) l₁)), ?_⟩
  rw [show h :: (l₁ ++ l₂) ++ [h] = (ps ++ [p]) ++ n :: q by rw [← hq, ← hp]; simp,
    hnext₁, hprev₁]
  unfold Linked
  rw [List.isChain_append]
  refine ⟨?_, ?_, ?_⟩
  · -- the nodes up to `p` keep their links
    refine Linked.frame hleft (fun a ha => ?_) (fun b hb => ?_)
    · have hpsp : (ps ++ [p]).Nodup := hp ▸ List.nodup_cons.mpr ⟨hhl₁, hl₁⟩
      simp only [List.dropLast_concat] at ha
      exact Function.update_of_ne ((List.nodup_append.mp hpsp).2.2 a ha p
        (List.mem_singleton_self p)) _ _
    · have hbl : b ∈ l₁ := by
        rw [← hp] at hb
        exact hb
      have hbn : b ≠ n := by
        rcases hn with rfl | hn
        · exact fun he => hhl₁ (he ▸ hbl)
        · exact hdisj b hbl n (.inr hn)
      exact Function.update_of_ne hbn _ _
  · -- and so do the nodes from `n` on
    refine Linked.frame hright (fun a ha => ?_) (fun b hb => ?_)
    · have hal : a ∈ l₂ := by
        rw [← hq] at ha
        simpa using ha
      have hap : a ≠ p := by
        rcases hpmem with rfl | hpl
        · exact fun he => hhl₂ (he ▸ hal)
        · exact fun he => hdisj p hpl a (.inr hal) he.symm
      exact Function.update_of_ne hap _ _
    · have hnq : (n :: q).Nodup := hq ▸ hl₂.append (List.nodup_singleton h) (by simpa using hhl₂)
      have hbn : b ≠ n := by
        rintro rfl
        exact (List.nodup_cons.mp hnq).1 hb
      exact Function.update_of_ne hbn _ _
  · intro a ha b hb
    simp only [List.getLast?_concat, Option.mem_def, Option.some.injEq] at ha
    simp only [List.head?_cons, Option.mem_def, Option.some.injEq] at hb
    subst ha hb
    exact ⟨by simp, by simp⟩

/-- A node taken out and put back after the head becomes the first. -/
theorem Cycle.moveFront {h x : α} {l₁ l₂ : List α} (hc : Cycle next prev h (l₁ ++ x :: l₂)) :
    Cycle (DList.insertFront (DList.unlink next prev x).1 (DList.unlink next prev x).2 h x).1
      (DList.insertFront (DList.unlink next prev x).1 (DList.unlink next prev x).2 h x).2
      h (x :: (l₁ ++ l₂)) := by
  have hx : x ∉ h :: (l₁ ++ l₂) := by
    have hnd := hc.nodup
    simp only [List.nodup_cons, List.nodup_append, List.mem_append, List.mem_cons, not_or]
      at hnd ⊢
    obtain ⟨⟨-, hhx, -⟩, -, ⟨hxl₂, -⟩, hdisj⟩ := hnd
    exact ⟨Ne.symm hhx, fun hxl₁ => hdisj x hxl₁ x (.inl rfl) rfl, hxl₂⟩
  exact hc.unlink.insertFront hx

/-- `binit`'s loop: the nodes `xs` put in after the head, one after another,
end up in reverse order before the nodes already there. -/
theorem Cycle.foldl_insertFront {h : α} :
    ∀ {xs l : List α} {next prev : α → α}, Cycle next prev h l → (xs ++ h :: l).Nodup →
      Cycle (xs.foldl (fun np x => DList.insertFront np.1 np.2 h x) (next, prev)).1
        (xs.foldl (fun np x => DList.insertFront np.1 np.2 h x) (next, prev)).2 h (xs.reverse ++ l)
  | [], _, _, _, hc, _ => by simpa using hc
  | x :: xs, l, next, prev, hc, hnd => by
    have hx : x ∉ h :: l := fun hm => by
      simp only [List.cons_append, List.nodup_cons, List.mem_append] at hnd
      exact hnd.1 (.inr hm)
    have hperm : (xs ++ h :: x :: l).Perm (x :: (xs ++ h :: l)) :=
      (List.Perm.append_left xs (List.Perm.swap x h l)).trans List.perm_middle
    have hnd' : (xs ++ h :: x :: l).Nodup := hperm.nodup_iff.mpr (by simpa using hnd)
    simpa [List.foldl_cons] using Cycle.foldl_insertFront (hc.insertFront hx) hnd'

/-- Follow `step` from `x` until `stop`, over at most `fuel` nodes, to the first
node that satisfies `p`. -/
def scan (step : α → α) (stop : α) (p : α → Bool) : Nat → α → Option α
  | 0, _ => none
  | fuel + 1, x => if x = stop then none else if p x then some x else scan step stop p fuel (step x)

/-- A scan finds only a node that satisfies its test. -/
theorem scan_some {step : α → α} {stop : α} {p : α → Bool} {fuel : Nat} {x y : α}
    (h : scan step stop p fuel x = some y) : p y = true := by
  induction fuel generalizing x with
  | zero => simp [scan] at h
  | succ fuel ih =>
    unfold scan at h
    split_ifs at h with hstop hp
    · exact (Option.some.inj h) ▸ hp
    · exact ih h

/-- Along a path that ends at `stop`, the scan finds what `List.find?` finds. -/
theorem scan_eq_find {step : α → α} {stop : α} {p : α → Bool} :
    ∀ {l : List α} {fuel : Nat}, (l ++ [stop]).IsChain (fun a b => step a = b) → stop ∉ l →
      l.length < fuel → scan step stop p fuel ((l ++ [stop]).headD stop) = l.find? p
  | [], fuel + 1, _, _, _ => by simp [scan]
  | a :: l, fuel + 1, hchain, hstop, hfuel => by
    have hastop : a ≠ stop := fun he => hstop (he ▸ List.mem_cons_self)
    obtain ⟨b, l', hl'⟩ : ∃ b l', l ++ [stop] = b :: l' := List.exists_cons_of_ne_nil (by simp)
    rw [List.cons_append, hl', List.isChain_cons_cons] at hchain
    have ih := @scan_eq_find step stop p l fuel (hl' ▸ hchain.2)
      (fun hm => hstop (List.mem_cons_of_mem _ hm)) (by simp at hfuel; omega)
    rw [hl', List.headD_cons] at ih
    by_cases hpa : p a = true
    · simp [scan, hastop, hpa]
    · simp only [List.cons_append, hl', List.headD_cons, scan, hastop, if_false, hpa,
        Bool.false_eq_true, List.find?_cons]
      rw [hchain.1, ih]

/-- Following `next` from the head meets the nodes in order. -/
theorem Cycle.scan_next {h : α} {l : List α} (hc : Cycle next prev h l) (p : α → Bool) {fuel : Nat}
    (hfuel : l.length < fuel) : scan next h p fuel (next h) = l.find? p := by
  have hchain : (h :: l ++ [h]).IsChain (fun a b => next a = b) := hc.linked.imp fun _ _ hab => hab.1
  obtain ⟨b, l', hl'⟩ : ∃ b l', l ++ [h] = b :: l' := List.exists_cons_of_ne_nil (by simp)
  rw [List.cons_append, hl', List.isChain_cons_cons] at hchain
  have hh : h ∉ l := (List.nodup_cons.mp hc.nodup).1
  have := scan_eq_find (p := p) (hl' ▸ hchain.2) hh hfuel
  rw [hl', List.headD_cons] at this
  rw [hchain.1, this]

/-- Following `prev` from the head meets the nodes in reverse order. -/
theorem Cycle.scan_prev {h : α} {l : List α} (hc : Cycle next prev h l) (p : α → Bool) {fuel : Nat}
    (hfuel : l.length < fuel) : scan prev h p fuel (prev h) = l.reverse.find? p := by
  have hchain : (h :: l ++ [h]).reverse.IsChain (fun a b => prev a = b) :=
    List.isChain_reverse.mpr (hc.linked.imp fun _ _ hab => hab.2)
  rw [show (h :: l ++ [h]).reverse = h :: (l.reverse ++ [h]) by simp] at hchain
  obtain ⟨b, l', hl'⟩ : ∃ b l', l.reverse ++ [h] = b :: l' := List.exists_cons_of_ne_nil (by simp)
  rw [hl', List.isChain_cons_cons] at hchain
  have hh : h ∉ l.reverse := by simpa using (List.nodup_cons.mp hc.nodup).1
  have := scan_eq_find (p := p) (hl' ▸ hchain.2) hh (by simpa using hfuel)
  rw [hl', List.headD_cons] at this
  rw [hchain.1, this]

end DList
