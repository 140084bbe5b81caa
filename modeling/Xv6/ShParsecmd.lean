import Xv6.ShGrammar

/-!
# `parsecmd` from end to end

`parsecmd` runs `parseline` with `4 * strlen + 8` rounds, checks that
nothing but whitespace is left, and writes the NULs.  With the totality
and completeness of `Xv6.ShGrammar` this gives the whole contract of the
shell's parser (`parsecmd_spec`): it panics or returns, it returns exactly on
the lines whose tokens the grammar derives, and each argument and file name
of the command it returns is a word token of the line, which after
`nulterminate` reads back as that word.

`nulterminate` writes a NUL at the end of every word of the tree.  None of
these ends lies inside another word: a word ends at the end of the line or
at a byte that is not a word byte, and every byte of a word is one.
-/

namespace Xv6.Sh

/-! ## `nulterminate` -/

theorem getElem?_set_zero (b : List UInt8) (j i : Nat) :
    (b.set j 0)[i]? = if j = i then b[i]?.map (fun _ => 0) else b[i]? := by
  rw [List.getElem?_set]
  split_ifs with hji hlt
  · subst hji
    rw [List.getElem?_eq_getElem hlt]
    rfl
  · subst hji
    rw [List.getElem?_eq_none (Nat.le_of_not_lt hlt)]
    rfl
  · rfl

/-- Zeroing a byte under `Q` and then under `P` zeroes it under either. -/
theorem ite_zero_ite_zero (P Q : Prop) [Decidable P] [Decidable Q] (o : Option UInt8) :
    (if P then (if Q then o.map (fun _ => 0) else o).map (fun _ => (0 : UInt8))
      else if Q then o.map (fun _ => 0) else o) =
      if Q ∨ P then o.map (fun _ => 0) else o := by
  by_cases hP : P <;> by_cases hQ : Q <;> simp [hP, hQ, Option.map_map, Function.comp_def]

theorem getElem?_foldl_set_zero (argv : List (Nat × Nat)) (b : List UInt8) (i : Nat) :
    (argv.foldl (fun b a => b.set a.2 0) b)[i]? =
      if i ∈ argv.map Prod.snd then b[i]?.map (fun _ => 0) else b[i]? := by
  induction argv generalizing b with
  | nil => simp
  | cons a argv ih =>
    rw [List.foldl_cons, ih, getElem?_set_zero, ite_zero_ite_zero]
    exact if_congr (by simp [eq_comm]) rfl rfl

/-- `nulterminate` zeroes the ends of the arguments and file names of the
command, and leaves every other byte. -/
theorem getElem?_nulterminate (c : Cmd) (b : List UInt8) (i : Nat) :
    (nulterminate c b)[i]? =
      if i ∈ c.spans.map Prod.snd then b[i]?.map (fun _ => 0) else b[i]? := by
  induction c generalizing b with
  | exec argv => exact getElem?_foldl_set_zero argv b i
  | redir cmd file mode fd ih =>
    rw [nulterminate, getElem?_set_zero, ih, ite_zero_ite_zero]
    exact if_congr (by simp [Cmd.spans, eq_comm]) rfl rfl
  | pipe left right ihl ihr =>
    rw [nulterminate, ihr, ihl, ite_zero_ite_zero]
    exact if_congr (by simp [Cmd.spans]) rfl rfl
  | list left right ihl ihr =>
    rw [nulterminate, ihr, ihl, ite_zero_ite_zero]
    exact if_congr (by simp [Cmd.spans]) rfl rfl
  | back cmd ih => exact ih b

/-- A word of the line that a buffer keeps, with a NUL or the end of the
buffer after it, reads back from the buffer as the word. -/
theorem cstr_drop_of_word {l b : List UInt8} {q eq : Nat} (hrun : WordRun l q eq)
    (hsame : ∀ i, q ≤ i → i < eq → b[i]? = l[i]?) (hend : b[eq]? = l[eq]?.map (fun _ => 0)) :
    cstr (b.drop q) = (l.drop q).take (eq - q) := by
  have hq := hrun.lt
  have hsplit : b.drop q = (l.drop q).take (eq - q) ++ b.drop eq := by
    rw [← List.take_append_drop (eq - q) (b.drop q), List.drop_drop,
      show q + (eq - q) = eq by omega]
    congr 1
    apply List.ext_getElem?
    intro j
    rw [List.getElem?_take, List.getElem?_take, List.getElem?_drop, List.getElem?_drop]
    split_ifs with hj
    · exact hsame (q + j) (by omega) (by omega)
    · rfl
  -- the bytes of a word lie before the line's NUL
  have hnz : (0 : UInt8) ∉ (l.drop q).take (eq - q) := by
    intro h
    obtain ⟨j, hj⟩ := List.mem_iff_getElem?.mp h
    rw [List.getElem?_take, List.getElem?_drop] at hj
    split_ifs at hj with hlt
    have hzero : charAt l (q + j) = 0 := by
      rw [charAt, List.getD_eq_getElem?_getD, hj]
      rfl
    exact charAt_ne_zero (by have := hrun.le; omega) hzero
  have hrest : cstr (b.drop eq) = [] := by
    cases hd : b.drop eq with
    | nil => rfl
    | cons x xs =>
      have hx : b[eq]? = some x := by
        rw [← Nat.add_zero eq, ← List.getElem?_drop, hd]
        rfl
      rw [hend] at hx
      obtain ⟨y, -, rfl⟩ := Option.map_eq_some_iff.mp hx
      rw [cstr_cons, if_pos rfl]
  rw [hsplit, cstr_append_of_zero_not_mem hnz, hrest, List.append_nil]

/-- The end of a word is never inside another word. -/
theorem not_inside_of_wordRun {l : List UInt8} {q eq q' eq' : Nat} (hrun : WordRun l q eq)
    (hrun' : WordRun l q' eq') : ¬ (q ≤ eq' ∧ eq' < eq) := by
  rintro ⟨h₁, h₂⟩
  rcases hrun'.right with he | he
  · have := hrun.le
    omega
  · rw [hrun.word eq' h₁ h₂] at he
    cases he

/-- When every argument and file name of `c` is a word of the line, after
`nulterminate` each of them reads back as its word. -/
theorem cstr_nulterminate {l : List UInt8} {c : Cmd} (hc : ∀ w ∈ c.spans, WordRun l w.1 w.2)
    {w : Nat × Nat} (hw : w ∈ c.spans) :
    cstr ((nulterminate c l).drop w.1) = (l.drop w.1).take (w.2 - w.1) := by
  have hrun := hc w hw
  refine cstr_drop_of_word hrun (fun i h₁ h₂ => ?_) ?_
  · -- no end of a word is inside this one
    rw [getElem?_nulterminate, if_neg]
    intro hi
    obtain ⟨w', hw', rfl⟩ := List.mem_map.mp hi
    exact not_inside_of_wordRun hrun (hc w' hw') ⟨h₁, h₂⟩
  · rw [getElem?_nulterminate, if_pos (List.mem_map_of_mem hw)]

/-! ## `parsecmd` -/

section Parsecmd

variable {l : List UInt8}

/-- After `parseline` returns, `parsecmd` returns when no token is left and
panics otherwise. -/
theorem parsecmd_of_parseline {c : Cmd} {p' : Nat}
    (h : parseline l (strlen l) (4 * strlen l + 8) 0 = .ok (c, p')) (hp' : p' ≤ strlen l) :
    parsecmd l = if lex l p' = [] then .ok (c, nulterminate c l) else .error (.panic "syntax") := by
  have hpeek : peek l (strlen l) p' [] = (headIn (lex l p') [], skipWs l (strlen l) p') :=
    peek_eq hp' (by simp)
  simp only [parsecmd, h, hpeek, bind, Except.bind]
  by_cases hnil : lex l p' = []
  · rw [if_pos hnil, if_neg (not_not.mpr ((lex_eq_nil_iff hp').mp hnil))]
  · rw [if_neg hnil, if_pos (mt (lex_eq_nil_iff hp').mpr hnil)]

theorem parsecmd_of_parseline_error {e : Fault}
    (h : parseline l (strlen l) (4 * strlen l + 8) 0 = .error e) : parsecmd l = .error e := by
  simp only [parsecmd, h, bind, Except.bind]

theorem parsecmd_fuel (l : List UInt8) : 4 * (lex l 0).length + 8 ≤ 4 * strlen l + 8 := by
  have := length_lex_le (l := l) (Nat.zero_le _)
  omega

end Parsecmd

/-- The shell's parser: `parsecmd` fails only by a panic, it returns a command
exactly when the tokens of the line derive `line`, and each argument and
file name of that command is a word token of the line, a maximal run of
word bytes, which after `nulterminate` reads back as that run. -/
theorem parsecmd_spec (l : List UInt8) :
    (∀ e, parsecmd l = .error e → ∃ msg, e = .panic msg) ∧
    ((∃ r, parsecmd l = .ok r) ↔ Line ((lex l 0).map Token.kind)) ∧
    ∀ c b, parsecmd l = .ok (c, b) → ∀ w ∈ c.spans, ∃ t ∈ lex l 0, t.kind = .word ∧
      (t.q, t.eq) = w ∧ WordRun l t.q t.eq ∧ cstr (b.drop t.q) = (l.drop t.q).take (t.eq - t.q) := by
  have htotal := (totalAt l _ 0 (Nat.zero_le _)).1 (parsecmd_fuel l)
  refine ⟨?_, ⟨?_, ?_⟩, ?_⟩
  · -- every failure is a panic: the fuel never runs out
    intro e he
    rcases htotal with ⟨msg, h⟩ | ⟨c, p', u, h, hp', -⟩
    · rw [parsecmd_of_parseline_error h, Except.error.injEq] at he
      exact ⟨msg, he.symm⟩
    · rw [parsecmd_of_parseline h hp'] at he
      split at he
      · cases he
      · rw [Except.error.injEq] at he
        exact ⟨_, he.symm⟩
  · -- a command only from a derivation of the whole line
    rintro ⟨r, hr⟩
    rcases htotal with ⟨msg, h⟩ | ⟨c, p', u, h, hp', hv, hL, -⟩
    · rw [parsecmd_of_parseline_error h] at hr
      cases hr
    · rw [parsecmd_of_parseline h hp'] at hr
      split at hr
      · next hnil =>
        rw [hv, hnil, List.append_nil]
        exact hL
      · cases hr
  · -- and from every one
    intro hL
    obtain ⟨c, p', h, hv, hp'⟩ := (completeAt l _ 0 (Nat.zero_le _)).1 (parsecmd_fuel l) (lex l 0) []
      (List.append_nil _).symm hL (fun t ht => by cases ht)
    exact ⟨_, by rw [parsecmd_of_parseline h hp', if_pos hv]⟩
  · intro c b hcb w hw
    rcases htotal with ⟨msg, h⟩ | ⟨c', p', u, h, hp', hv, -, hs⟩
    · rw [parsecmd_of_parseline_error h] at hcb
      cases hcb
    rw [parsecmd_of_parseline h hp'] at hcb
    split at hcb
    swap
    · cases hcb
    next hnil =>
    rw [Except.ok.injEq, Prod.mk.injEq] at hcb
    obtain ⟨rfl, rfl⟩ := hcb
    have hu : lex l 0 = u := by rw [hv, hnil, List.append_nil]
    -- every word of the line is a maximal run of word bytes
    have hruns := lex_wordRun (Nat.zero_le (strlen l)) (.inl (.inl rfl))
    have hc : ∀ w ∈ c'.spans, WordRun l w.1 w.2 := by
      intro w hw
      obtain ⟨t, ht, hk, rfl⟩ := hs w hw
      exact hruns t (hu ▸ ht) hk
    obtain ⟨t, ht, hk, rfl⟩ := hs w hw
    exact ⟨t, hu ▸ ht, hk, rfl, hruns t (hu ▸ ht) hk, cstr_nulterminate hc hw⟩

end Xv6.Sh
