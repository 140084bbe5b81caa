import Mathlib.Computability.Language

/-!
# Star patterns

A star pattern is a sequence of pieces, each a class of symbols taken once
or any number of times; its language is the product of the pieces'
languages, a starred piece's being Mathlib's Kleene star of its class.  A
text contains a match when one of its factors is in the language, the
factor pinned to the text's start, to its end, or to both.

The lemmas read a pattern one piece at a time, the way a backtracking
matcher does: a piece taken once consumes one symbol of its class, and a
starred piece either stops or consumes one symbol and stays.  A search that
is not pinned to the start is a search from the start of some suffix.
-/

namespace StarPattern

open Computability

variable {α : Type*}

/-- A piece of a pattern: one symbol of the class `p`, or any number of
them. -/
inductive Piece (α : Type*)
  | one (p : α → Bool)
  | star (p : α → Bool)

/-- The words of one symbol of the class `p`. -/
def sym (p : α → Bool) : Language α := {w | ∃ a, p a ∧ w = [a]}

/-- The words a piece stands for. -/
def Piece.lang : Piece α → Language α
  | .one p => sym p
  | .star p => (sym p)∗

/-- The words a pattern stands for: a word of each piece, in order. -/
def lang (ps : List (Piece α)) : Language α := (ps.map Piece.lang).prod

/-- `text` begins with a word of `L`, which ends it when `stop` holds. -/
def StartsWith (L : Language α) (stop : Prop) (text : List α) : Prop :=
  ∃ v w, text = v ++ w ∧ v ∈ L ∧ (stop → w = [])

/-- `text` has a factor in `L`: a prefix when `start` holds, a suffix when
`stop` holds. -/
def Found (L : Language α) (start stop : Prop) (text : List α) : Prop :=
  ∃ u v w, text = u ++ v ++ w ∧ v ∈ L ∧ (start → u = []) ∧ (stop → w = [])

/-! ## Languages -/

section Lang

variable {p : α → Bool} {ps : List (Piece α)} {w : List α}

theorem mem_sym : w ∈ sym p ↔ ∃ a, p a ∧ w = [a] := Iff.rfl

/-- Any number of symbols of a class: the words all of whose symbols are in
it. -/
theorem mem_kstar_sym : w ∈ (sym p)∗ ↔ ∀ a ∈ w, p a := by
  rw [Language.mem_kstar]
  constructor
  · rintro ⟨L, rfl, hL⟩ a ha
    obtain ⟨y, hy, hay⟩ := List.mem_flatten.mp ha
    obtain ⟨b, hb, rfl⟩ := hL y hy
    rw [List.mem_singleton] at hay
    exact hay ▸ hb
  · intro h
    refine ⟨w.map ([·]), (List.flatMap_singleton' w).symm, ?_⟩
    simp only [List.mem_map]
    rintro _ ⟨a, ha, rfl⟩
    exact ⟨a, h a ha, rfl⟩

@[simp] theorem mem_lang_nil : w ∈ lang ([] : List (Piece α)) ↔ w = [] := Iff.rfl

theorem lang_cons (x : Piece α) (ps : List (Piece α)) : lang (x :: ps) = x.lang * lang ps :=
  List.prod_cons

/-- A piece taken once consumes one symbol of its class. -/
theorem mem_lang_one : w ∈ lang (.one p :: ps) ↔ ∃ a w', w = a :: w' ∧ p a ∧ w' ∈ lang ps := by
  rw [lang_cons, Language.mem_mul]
  constructor
  · rintro ⟨_, ⟨a, ha, rfl⟩, w', hw', rfl⟩
    exact ⟨a, w', rfl, ha, hw'⟩
  · rintro ⟨a, w', rfl, ha, hw'⟩
    exact ⟨[a], ⟨a, ha, rfl⟩, w', hw', rfl⟩

/-- A starred piece stops, or consumes one symbol of its class and stays. -/
theorem mem_lang_star :
    w ∈ lang (.star p :: ps) ↔
      w ∈ lang ps ∨ ∃ a w', w = a :: w' ∧ p a ∧ w' ∈ lang (.star p :: ps) := by
  simp only [lang_cons, Language.mem_mul, Piece.lang, mem_kstar_sym]
  constructor
  · rintro ⟨u, hu, v, hv, rfl⟩
    cases u with
    | nil => exact .inl hv
    | cons a u =>
      have hu' := List.forall_mem_cons.mp hu
      exact .inr ⟨a, u ++ v, rfl, hu'.1, u, hu'.2, v, hv, rfl⟩
  · rintro (hw | ⟨a, _, rfl, ha, u, hu, v, hv, rfl⟩)
    · exact ⟨[], by simp, w, hw, rfl⟩
    · exact ⟨a :: u, List.forall_mem_cons.mpr ⟨ha, hu⟩, v, hv, rfl⟩

end Lang

/-! ## Searching a text -/

section Search

variable {p : α → Bool} {ps : List (Piece α)} {L : Language α} {start stop : Prop}
  {text : List α}

/-- The empty pattern matches at the start of every text, and of only the
empty one when it must end it. -/
theorem startsWith_nil : StartsWith (lang ([] : List (Piece α))) stop text ↔ (stop → text = []) := by
  constructor
  · rintro ⟨v, w, rfl, rfl, hw⟩ hs
    simpa using hw hs
  · intro h
    exact ⟨[], text, rfl, rfl, h⟩

theorem startsWith_one :
    StartsWith (lang (.one p :: ps)) stop text ↔
      ∃ a t, text = a :: t ∧ p a ∧ StartsWith (lang ps) stop t := by
  simp only [StartsWith, mem_lang_one]
  constructor
  · rintro ⟨_, w, rfl, ⟨a, v, rfl, ha, hv⟩, hw⟩
    exact ⟨a, v ++ w, rfl, ha, v, w, rfl, hv, hw⟩
  · rintro ⟨a, _, rfl, ha, v, w, rfl, hv, hw⟩
    exact ⟨a :: v, w, rfl, ⟨a, v, rfl, ha, hv⟩, hw⟩

theorem startsWith_star :
    StartsWith (lang (.star p :: ps)) stop text ↔
      StartsWith (lang ps) stop text ∨
        ∃ a t, text = a :: t ∧ p a ∧ StartsWith (lang (.star p :: ps)) stop t := by
  simp only [StartsWith]
  constructor
  · rintro ⟨v, w, rfl, hv, hw⟩
    rcases mem_lang_star.mp hv with hv | ⟨a, v', rfl, ha, hv'⟩
    · exact .inl ⟨v, w, rfl, hv, hw⟩
    · exact .inr ⟨a, v' ++ w, rfl, ha, v', w, rfl, hv', hw⟩
  · rintro (⟨v, w, rfl, hv, hw⟩ | ⟨a, _, rfl, ha, v, w, rfl, hv, hw⟩)
    · exact ⟨v, w, rfl, mem_lang_star.mpr (.inl hv), hw⟩
    · exact ⟨a :: v, w, rfl, mem_lang_star.mpr (.inr ⟨a, v, rfl, ha, hv⟩), hw⟩

/-- A search pinned to the start. -/
theorem found_of_start (h : start) : Found L start stop text ↔ StartsWith L stop text := by
  constructor
  · rintro ⟨u, v, w, rfl, hv, hu, hw⟩
    obtain rfl := hu h
    exact ⟨v, w, by simp, hv, hw⟩
  · rintro ⟨v, w, rfl, hv, hw⟩
    exact ⟨[], v, w, by simp, hv, fun _ => rfl, hw⟩

/-- A search not pinned to the start: a search from the start of one of the
suffixes, the empty one included. -/
theorem found_of_not_start (h : ¬start) :
    Found L start stop text ↔ ∃ t ∈ text.tails, StartsWith L stop t := by
  simp only [List.mem_tails]
  constructor
  · rintro ⟨u, v, w, rfl, hv, -, hw⟩
    exact ⟨v ++ w, ⟨u, by simp⟩, v, w, rfl, hv, hw⟩
  · rintro ⟨_, ⟨u, rfl⟩, v, w, rfl, hv, hw⟩
    exact ⟨u, v, w, by simp, hv, fun hs => absurd hs h, hw⟩

end Search

end StarPattern
