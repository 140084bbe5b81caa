import Xv6.ShParse

/-!
# What the shell's parser accepts

The grammar of the command line, over the kinds of the tokens `gettoken`
reads:

    line  := pipe ('&')* (';' line)?
    pipe  := exec ('|' pipe)?
    exec  := '(' line ')' redir* | redir* (word redir*)*    at most MAXARGS - 1 words
    redir := ('<' | '>' | '>>') word

`parsecmd` returns a command exactly when the tokens of the line derive
`line`, and panics otherwise; it never runs out of its fuel.  Each argument
and file name of the command is a word token of the line, and after
`nulterminate` the string there is exactly that word (`parsecmd_spec`).

Each parse function has a step lemma per case of its code, read off the
token sequence.  Over these, `*_total` says what it returns with enough
fuel (a panic, or a command from a prefix the grammar derives) and
`*_complete` that from a derivation followed by a token the grammar lets
follow, it returns that derivation's command and stops there.  The loops of
`parseline`, `parseexec` and `parseredirs` are proved by induction on their
fuel; the four functions that call each other, by one induction over all
four.
-/

namespace Xv6.Sh

/-! ## The grammar -/

/-- `<`, `>` and `>>`. -/
def Tok.isRedir : Tok → Bool
  | .lt => true
  | .gt => true
  | .append => true
  | _ => false

/-- `redir*` -/
inductive Redirs : List Tok → Prop
  | nil : Redirs []
  | cons {k : Tok} {ks : List Tok} (hk : k.isRedir = true) (h : Redirs ks) :
      Redirs (k :: .word :: ks)

/-- `(word redir*)*`, with `n` words. -/
inductive Words : Nat → List Tok → Prop
  | nil : Words 0 []
  | cons {n : Nat} {rs ks : List Tok} (hr : Redirs rs) (h : Words n ks) :
      Words (n + 1) (.word :: rs ++ ks)

mutual

inductive Line : List Tok → Prop
  | pipe {ks : List Tok} (k : Nat) (h : Pipe ks) : Line (ks ++ List.replicate k .amp)
  | seq {ks rest : List Tok} (k : Nat) (h : Pipe ks) (hl : Line rest) :
      Line (ks ++ List.replicate k .amp ++ .semi :: rest)

inductive Pipe : List Tok → Prop
  | exec {ks : List Tok} (h : Exec ks) : Pipe ks
  | pipe {ks rest : List Tok} (h : Exec ks) (hp : Pipe rest) : Pipe (ks ++ .pipe :: rest)

inductive Exec : List Tok → Prop
  | block {ks rs : List Tok} (hl : Line ks) (hr : Redirs rs) :
      Exec (.lparen :: ks ++ .rparen :: rs)
  | simple {rs ws : List Tok} (n : Nat) (hr : Redirs rs) (hw : Words n ws) (hn : n < maxargs) :
      Exec (rs ++ ws)

end

/-- The tokens after a derivation: none, or one whose kind is in `ks`. -/
def StopsAt (ks : List Tok) (v : List Token) : Prop := ∀ t ∈ v.head?, t.kind ∈ ks

/-- `(q, eq)` is a word token of `u`. -/
def WordOf (u : List Token) (w : Nat × Nat) : Prop := ∃ t ∈ u, t.kind = .word ∧ (t.q, t.eq) = w

/-- The arguments and file names of a command. -/
def Cmd.spans : Cmd → List (Nat × Nat)
  | .exec argv => argv
  | .redir cmd file _ _ => cmd.spans ++ [file]
  | .pipe left right => left.spans ++ right.spans
  | .list left right => left.spans ++ right.spans
  | .back cmd => cmd.spans

/-! ## What `peek` sees -/

section Heads

theorem redirToks_first (k : Tok) : ['<'.toUInt8, '>'.toUInt8].contains k.first = k.isRedir := by
  cases k <;> decide

theorem stopToks_first (k : Tok) :
    ['|'.toUInt8, ')'.toUInt8, '&'.toUInt8, ';'.toUInt8].contains k.first =
      decide (k ∈ [.pipe, .rparen, .amp, .semi]) := by
  cases k <;> decide

theorem oneTok_first {c : Char} {k k' : Tok} (hk : k'.first = c.toUInt8)
    (hinj : ∀ j : Tok, j.first = c.toUInt8 → j = k') : [c.toUInt8].contains k.first = decide (k = k') := by
  by_cases h : k = k'
  · subst h
    simp [hk]
  · have hne : k.first ≠ c.toUInt8 := fun he => h (hinj k he)
    simp [hne, h]

theorem ampToks_first (k : Tok) : ['&'.toUInt8].contains k.first = decide (k = .amp) :=
  oneTok_first rfl (by intro j hj; cases j <;> first | rfl | exact absurd hj (by decide))

theorem semiToks_first (k : Tok) : [';'.toUInt8].contains k.first = decide (k = .semi) :=
  oneTok_first rfl (by intro j hj; cases j <;> first | rfl | exact absurd hj (by decide))

theorem pipeToks_first (k : Tok) : ['|'.toUInt8].contains k.first = decide (k = .pipe) :=
  oneTok_first rfl (by intro j hj; cases j <;> first | rfl | exact absurd hj (by decide))

theorem lparenToks_first (k : Tok) : ['('.toUInt8].contains k.first = decide (k = .lparen) :=
  oneTok_first rfl (by intro j hj; cases j <;> first | rfl | exact absurd hj (by decide))

theorem rparenToks_first (k : Tok) : [')'.toUInt8].contains k.first = decide (k = .rparen) :=
  oneTok_first rfl (by intro j hj; cases j <;> first | rfl | exact absurd hj (by decide))

@[simp] theorem headIn_nil (toks : List UInt8) : headIn [] toks = false := rfl

@[simp] theorem headIn_cons (t : Token) (ts : List Token) (toks : List UInt8) :
    headIn (t :: ts) toks = toks.contains t.kind.first := rfl

theorem headIn_eq_false {ts : List Token} {toks : List UInt8}
    (h : ∀ t ∈ ts.head?, toks.contains t.kind.first = false) : headIn ts toks = false := by
  cases ts with
  | nil => rfl
  | cons t ts => exact h t rfl

theorem headIn_eq_true {ts : List Token} {toks : List UInt8} (h : headIn ts toks = true) :
    ∃ t ts', ts = t :: ts' ∧ toks.contains t.kind.first = true := by
  cases ts with
  | nil => cases h
  | cons t ts' => exact ⟨t, ts', rfl, h⟩

/-- A token list whose first token, if it has one, fails `P` has a first token. -/
theorem exists_cons_of_not_head {P : Tok → Prop} {v : List Token}
    (h : ¬ ∀ t ∈ v.head?, P t.kind) : ∃ t ts, v = t :: ts ∧ ¬ P t.kind := by
  cases v with
  | nil => exact absurd (fun t ht => by cases ht) h
  | cons t ts => exact ⟨t, ts, rfl, fun ht => h fun t' ht' => by cases ht'; exact ht⟩

/-- What holds of the first kind of `u`, or of the first token after it
when `u` is empty, holds of the first token of `u ++ v`. -/
theorem head_append {P : Tok → Prop} {u v : List Token}
    (hu : ∀ k ∈ (u.map Token.kind).head?, P k) (hv : ∀ t ∈ v.head?, P t.kind) :
    ∀ t ∈ (u ++ v).head?, P t.kind := by
  cases u with
  | nil => exact hv
  | cons t u =>
    intro t' ht'
    cases ht'
    exact hu t.kind rfl

end Heads

/-- `peek` answers from the first token, and moves over whitespace only. -/
theorem peek_view {l : List UInt8} {p : Nat} (hp : p ≤ strlen l) (toks : List UInt8)
    (htoks : ∀ c ∈ toks, c ∈ symbols) :
    ∃ p', peek l (strlen l) p toks = (headIn (lex l p) toks, p') ∧ lex l p' = lex l p ∧
      p' ≤ strlen l :=
  ⟨_, peek_eq hp htoks, lex_skipWs hp, skipWs_le hp⟩

theorem kind_ne_eof_of_lex_cons {l : List UInt8} {p : Nat} {t : Token} {ts : List Token}
    (h : lex l p = t :: ts) : t.kind ≠ .eof := by
  rw [lex] at h
  split at h
  · next hc =>
    rw [List.cons.injEq] at h
    rw [← h.1]
    exact hc.2
  · cases h

theorem length_le_of_lex_append {l : List UInt8} {p p' : Nat} {u : List Token}
    (h : lex l p = u ++ lex l p') : (lex l p').length ≤ (lex l p).length := by
  rw [h, List.length_append]
  omega

/-! ## `parseredirs` -/

theorem spans_redirFor {k : Tok} (hk : k.isRedir = true) (cmd : Cmd) (file : Nat × Nat) :
    (redirFor k cmd file).spans = cmd.spans ++ [file] := by
  cases k <;> first | rfl | exact absurd hk (by decide)

section Redirs

variable {l : List UInt8} {p : Nat}

/-- No redirection next: `parseredirs` returns `cmd`. -/
theorem parseredirs_stop (fuel : Nat) (cmd : Cmd) (hp : p ≤ strlen l)
    (h : ∀ t ∈ (lex l p).head?, t.kind.isRedir = false) :
    ∃ p', parseredirs l (strlen l) (fuel + 1) cmd p = .ok (cmd, p') ∧ lex l p' = lex l p ∧
      p' ≤ strlen l := by
  obtain ⟨p₁, hpeek, hv, hp₁⟩ := peek_view hp ['<'.toUInt8, '>'.toUInt8] (by simp [symbols])
  have hno : headIn (lex l p) ['<'.toUInt8, '>'.toUInt8] = false :=
    headIn_eq_false fun t ht => (redirToks_first _).trans (h t ht)
  refine ⟨p₁, ?_, hv, hp₁⟩
  rw [parseredirs.eq_2, hpeek, hno]
  rfl

/-- A redirection and its file: `parseredirs` wraps `cmd` and goes on. -/
theorem parseredirs_redir (fuel : Nat) (cmd : Cmd) (hp : p ≤ strlen l) {t w : Token} {ts : List Token}
    (h : lex l p = t :: w :: ts) (ht : t.kind.isRedir = true) (hw : w.kind = .word) :
    ∃ p', parseredirs l (strlen l) (fuel + 1) cmd p =
        parseredirs l (strlen l) fuel (redirFor t.kind cmd (w.q, w.eq)) p' ∧
      lex l p' = ts ∧ p' ≤ strlen l := by
  obtain ⟨p₁, hpeek, hv₁, hp₁⟩ := peek_view hp ['<'.toUInt8, '>'.toUInt8] (by simp [symbols])
  obtain ⟨p₂, hg₂, hv₂, hp₂⟩ := gettoken_of_lex_cons hp₁ (hv₁.trans h)
  obtain ⟨p₃, hg₃, hv₃, hp₃⟩ := gettoken_of_lex_cons hp₂ hv₂
  refine ⟨p₃, ?_, hv₃, hp₃⟩
  rw [parseredirs.eq_2, hpeek, h]
  simp only [headIn_cons, redirToks_first, ht, if_true, hg₂, hg₃, hw, ne_eq, not_true_eq_false,
    if_false]

/-- A redirection without a word after it panics. -/
theorem parseredirs_missing (fuel : Nat) (cmd : Cmd) (hp : p ≤ strlen l) {t : Token} {ts : List Token}
    (h : lex l p = t :: ts) (ht : t.kind.isRedir = true) (hw : ∀ w ∈ ts.head?, w.kind ≠ .word) :
    parseredirs l (strlen l) (fuel + 1) cmd p = .error (.panic "missing file for redirection") := by
  obtain ⟨p₁, hpeek, hv₁, hp₁⟩ := peek_view hp ['<'.toUInt8, '>'.toUInt8] (by simp [symbols])
  obtain ⟨p₂, hg₂, hv₂, hp₂⟩ := gettoken_of_lex_cons hp₁ (hv₁.trans h)
  rw [parseredirs.eq_2, hpeek, h]
  simp only [headIn_cons, redirToks_first, ht, if_true, hg₂]
  -- the second token is not a word: another kind, or the end
  cases ts with
  | nil =>
    have hend := (gettoken_of_lex_nil hp₂ hv₂).1
    simp [hend]
  | cons w ts =>
    obtain ⟨p₃, hg₃, -, -⟩ := gettoken_of_lex_cons hp₂ hv₂
    simp [hg₃, hw w rfl]

/-- `parseredirs` with a round per token: a panic, or `cmd` wrapped in the
redirections of a prefix that `redir*` derives. -/
theorem parseredirs_total : ∀ fuel cmd p, p ≤ strlen l → (lex l p).length < fuel →
    (∃ msg, parseredirs l (strlen l) fuel cmd p = .error (.panic msg)) ∨
    ∃ c p' u, parseredirs l (strlen l) fuel cmd p = .ok (c, p') ∧ p' ≤ strlen l ∧
      lex l p = u ++ lex l p' ∧ Redirs (u.map Token.kind) ∧
      ∀ w ∈ c.spans, w ∈ cmd.spans ∨ WordOf u w := by
  intro fuel
  induction fuel with
  | zero => exact fun _ _ _ hlen => absurd hlen (Nat.not_lt_zero _)
  | succ fuel ih =>
    intro cmd p hp hlen
    by_cases hs : ∀ t ∈ (lex l p).head?, t.kind.isRedir = false
    · obtain ⟨p', hrun, hv, hp'⟩ := parseredirs_stop fuel cmd hp hs
      exact .inr ⟨cmd, p', [], hrun, hp', by simp [hv], .nil, fun w hw => .inl hw⟩
    -- a redirection is next
    obtain ⟨t, ts, hlex, ht⟩ := exists_cons_of_not_head (P := fun k => k.isRedir = false) hs
    rw [Bool.not_eq_false] at ht
    cases ts with
    | nil => exact .inl ⟨_, parseredirs_missing fuel cmd hp hlex ht (by simp)⟩
    | cons w ts =>
      by_cases hw : w.kind = .word
      · obtain ⟨p₁, hrun, hv₁, hp₁⟩ := parseredirs_redir fuel cmd hp hlex ht hw
        have hlen₁ : (lex l p₁).length < fuel := by
          rw [hlex] at hlen
          rw [hv₁]
          simp only [List.length_cons] at hlen
          omega
        rw [hrun]
        rcases ih _ p₁ hp₁ hlen₁ with hpanic | ⟨c, p', u, hres, hp', hv, hR, hspans⟩
        · exact .inl hpanic
        · refine .inr ⟨c, p', t :: w :: u, hres, hp', by rw [hlex, ← hv₁, hv]; rfl, ?_, ?_⟩
          · simp only [List.map_cons, hw]
            exact .cons ht hR
          · intro x hx
            rcases hspans x hx with hx | ⟨t', ht', hk, he⟩
            · rw [spans_redirFor ht, List.mem_append, List.mem_singleton] at hx
              rcases hx with hx | rfl
              · exact .inl hx
              · exact .inr ⟨w, by simp, hw, rfl⟩
            · exact .inr ⟨t', by simp [ht'], hk, he⟩
      · exact .inl ⟨_, parseredirs_missing fuel cmd hp hlex ht (by simpa using hw)⟩

theorem map_kind_eq_cons {u : List Token} {k : Tok} {ks : List Tok}
    (h : u.map Token.kind = k :: ks) : ∃ t u', u = t :: u' ∧ t.kind = k ∧ u'.map Token.kind = ks := by
  obtain ⟨t, u', rfl, hk, hks⟩ := List.map_eq_cons_iff.mp h
  exact ⟨t, u', rfl, hk, hks⟩

/-- From the tokens of `redir*`, followed by no redirection, `parseredirs`
reads exactly them. -/
theorem parseredirs_complete {ks : List Tok} (hR : Redirs ks) :
    ∀ {fuel} (cmd : Cmd) {p u v}, p ≤ strlen l → (lex l p).length < fuel → lex l p = u ++ v →
      u.map Token.kind = ks → (∀ t ∈ v.head?, t.kind.isRedir = false) →
      ∃ c p', parseredirs l (strlen l) fuel cmd p = .ok (c, p') ∧ lex l p' = v ∧
        p' ≤ strlen l := by
  induction hR with
  | nil =>
    intro fuel cmd p u v hp hlen hlex hu hv
    obtain rfl : u = [] := List.map_eq_nil_iff.mp hu
    obtain ⟨fuel, rfl⟩ : ∃ f, fuel = f + 1 := ⟨fuel - 1, by omega⟩
    obtain ⟨p', hrun, hv', hp'⟩ := parseredirs_stop fuel cmd hp (by rw [hlex]; exact hv)
    exact ⟨cmd, p', hrun, by rw [hv', hlex]; rfl, hp'⟩
  | cons hk _ ih =>
    intro fuel cmd p u v hp hlen hlex hu hv
    obtain ⟨t, u₁, rfl, htk, hu₁⟩ := map_kind_eq_cons hu
    obtain ⟨w, u', rfl, hwk, hu'⟩ := map_kind_eq_cons hu₁
    obtain ⟨fuel, rfl⟩ : ∃ f, fuel = f + 1 := ⟨fuel - 1, by omega⟩
    obtain ⟨p₁, hrun, hv₁, hp₁⟩ := parseredirs_redir fuel cmd hp hlex (htk ▸ hk) hwk
    rw [hrun]
    refine ih _ hp₁ ?_ hv₁ hu' hv
    rw [hv₁]
    rw [hlex] at hlen
    simp only [List.append_eq, List.cons_append, List.length_cons, List.length_append] at hlen ⊢
    omega

end Redirs

/-! ## The `&` loop of `parseline` -/

section Backs

variable {l : List UInt8} {p : Nat}

theorem parselineBacks_stop (fuel : Nat) (cmd : Cmd) (hp : p ≤ strlen l)
    (h : ∀ t ∈ (lex l p).head?, t.kind ≠ .amp) :
    ∃ p', parselineBacks l (strlen l) (fuel + 1) cmd p = .ok (cmd, p') ∧ lex l p' = lex l p ∧
      p' ≤ strlen l := by
  obtain ⟨p₁, hpeek, hv, hp₁⟩ := peek_view hp ['&'.toUInt8] (by simp [symbols])
  have hno : headIn (lex l p) ['&'.toUInt8] = false :=
    headIn_eq_false fun t ht => (ampToks_first _).trans (decide_eq_false (h t ht))
  refine ⟨p₁, ?_, hv, hp₁⟩
  rw [parselineBacks.eq_2, hpeek, hno]
  rfl

theorem parselineBacks_amp (fuel : Nat) (cmd : Cmd) (hp : p ≤ strlen l) {t : Token}
    {ts : List Token} (h : lex l p = t :: ts) (ht : t.kind = .amp) :
    ∃ p', parselineBacks l (strlen l) (fuel + 1) cmd p =
        parselineBacks l (strlen l) fuel (.back cmd) p' ∧ lex l p' = ts ∧ p' ≤ strlen l := by
  obtain ⟨p₁, hpeek, hv₁, hp₁⟩ := peek_view hp ['&'.toUInt8] (by simp [symbols])
  obtain ⟨p₂, hg₂, hv₂, hp₂⟩ := gettoken_of_lex_cons hp₁ (hv₁.trans h)
  refine ⟨p₂, ?_, hv₂, hp₂⟩
  rw [parselineBacks.eq_2, hpeek, h]
  simp only [headIn_cons, ampToks_first, ht, decide_true, if_true, hg₂]

/-- The loop reads the run of `&` ahead and wraps `cmd` once for each; it
never fails. -/
theorem parselineBacks_total : ∀ fuel cmd p, p ≤ strlen l → (lex l p).length < fuel →
    ∃ c p' u k, parselineBacks l (strlen l) fuel cmd p = .ok (c, p') ∧ p' ≤ strlen l ∧
      lex l p = u ++ lex l p' ∧ u.map Token.kind = List.replicate k .amp ∧ c.spans = cmd.spans := by
  intro fuel
  induction fuel with
  | zero => exact fun _ _ _ hlen => absurd hlen (Nat.not_lt_zero _)
  | succ fuel ih =>
    intro cmd p hp hlen
    by_cases hs : ∀ t ∈ (lex l p).head?, t.kind ≠ .amp
    · obtain ⟨p', hrun, hv, hp'⟩ := parselineBacks_stop fuel cmd hp hs
      exact ⟨cmd, p', [], 0, hrun, hp', by simp [hv], rfl, rfl⟩
    obtain ⟨t, ts, hlex, ht⟩ := exists_cons_of_not_head (P := fun k => k ≠ .amp) hs
    rw [not_not] at ht
    obtain ⟨p₁, hrun, hv₁, hp₁⟩ := parselineBacks_amp fuel cmd hp hlex ht
    have hlen₁ : (lex l p₁).length < fuel := by
      rw [hlex, List.length_cons] at hlen
      rw [hv₁]
      omega
    obtain ⟨c, p', u, k, hres, hp', hv, hk, hspans⟩ := ih _ p₁ hp₁ hlen₁
    refine ⟨c, p', t :: u, k + 1, hrun.trans hres, hp', ?_, ?_, hspans⟩
    · rw [hlex, ← hv₁, hv]
      rfl
    · rw [List.map_cons, hk, ht]
      rfl

/-- From a run of `&` followed by no `&`, the loop stops right after it. -/
theorem parselineBacks_complete : ∀ {u : List Token} {k fuel} (cmd : Cmd) {p v},
    p ≤ strlen l → (lex l p).length < fuel → lex l p = u ++ v →
    u.map Token.kind = List.replicate k .amp → (∀ t ∈ v.head?, t.kind ≠ .amp) →
    ∃ c p', parselineBacks l (strlen l) fuel cmd p = .ok (c, p') ∧ lex l p' = v ∧
      p' ≤ strlen l := by
  intro u
  induction u with
  | nil =>
    intro k fuel cmd p v hp hlen hlex _ hv
    obtain ⟨fuel, rfl⟩ : ∃ f, fuel = f + 1 := ⟨fuel - 1, by omega⟩
    obtain ⟨p', hrun, hv', hp'⟩ := parselineBacks_stop fuel cmd hp (by rw [hlex]; exact hv)
    exact ⟨cmd, p', hrun, by rw [hv', hlex]; rfl, hp'⟩
  | cons t u ih =>
    intro k fuel cmd p v hp hlen hlex hk hv
    rw [List.cons_append] at hlex
    obtain ⟨k, rfl⟩ : ∃ j, k = j + 1 := ⟨k - 1, by cases k <;> simp_all⟩
    rw [List.map_cons, List.replicate_succ, List.cons.injEq] at hk
    obtain ⟨fuel, rfl⟩ : ∃ f, fuel = f + 1 := ⟨fuel - 1, by omega⟩
    obtain ⟨p₁, hrun, hv₁, hp₁⟩ := parselineBacks_amp fuel cmd hp hlex hk.1
    rw [hrun]
    refine ih _ hp₁ ?_ hv₁ hk.2 hv
    rw [hlex, List.length_cons] at hlen
    rw [hv₁]
    omega

end Backs

/-! ## The argument loop of `parseexec` -/

theorem WordOf.mono {u u' : List Token} {w : Nat × Nat} (h : WordOf u w) (hsub : ∀ t ∈ u, t ∈ u') :
    WordOf u' w := by
  obtain ⟨t, ht, hk, he⟩ := h
  exact ⟨t, hsub t ht, hk, he⟩

theorem Redirs.head {ks : List Tok} (h : Redirs ks) : ∀ k ∈ ks.head?, k.isRedir = true := by
  cases h with
  | nil => intro k hk; cases hk
  | cons hk _ => intro k' hk'; cases hk'; exact hk

theorem Words.head {n : Nat} {ks : List Tok} (h : Words n ks) : ∀ k ∈ ks.head?, k = .word := by
  cases h with
  | nil => intro k hk; cases hk
  | cons _ _ => intro k hk; cases hk; rfl

theorem word_not_stop : Tok.word ∉ [.pipe, .rparen, .amp, .semi] := by decide

section Args

variable {l : List UInt8} {p : Nat}

/-- At one of `|)&;` or at the end of the line the loop stops. -/
theorem parseexecArgs_stop (fuel : Nat) (ret : Cmd) (argv : List (Nat × Nat)) (hp : p ≤ strlen l)
    (h : StopsAt [.pipe, .rparen, .amp, .semi] (lex l p)) :
    ∃ p', parseexecArgs l (strlen l) (fuel + 1) ret argv p = .ok (ret, argv, p') ∧
      lex l p' = lex l p ∧ p' ≤ strlen l := by
  obtain ⟨p₁, hpeek, hv₁, hp₁⟩ :=
    peek_view hp ['|'.toUInt8, ')'.toUInt8, '&'.toUInt8, ';'.toUInt8] (by simp [symbols])
  cases hlex : lex l p with
  | nil =>
    -- `peek` sees nothing and `gettoken` returns 0
    obtain ⟨he, hv₂, hp₂⟩ := gettoken_of_lex_nil hp₁ (hv₁.trans hlex)
    rcases hg : gettoken l (strlen l) p₁ with ⟨tok, q, eq, p₂⟩
    rw [hg] at he hv₂ hp₂
    refine ⟨p₂, ?_, hv₂, hp₂⟩
    rw [parseexecArgs.eq_2, hpeek, hlex]
    simp only [headIn_nil, Bool.false_eq_true, if_false, hg, he, if_true]
  | cons t ts =>
    refine ⟨p₁, ?_, hv₁.trans hlex, hp₁⟩
    rw [parseexecArgs.eq_2, hpeek, hlex]
    simp only [headIn_cons, stopToks_first, decide_eq_true (h t (by simp [hlex])), if_true]

/-- A token that is neither a word nor one of `|)&;` is a syntax error. -/
theorem parseexecArgs_syntax (fuel : Nat) (ret : Cmd) (argv : List (Nat × Nat)) (hp : p ≤ strlen l)
    {t : Token} {ts : List Token} (h : lex l p = t :: ts)
    (hs : t.kind ∉ [.pipe, .rparen, .amp, .semi]) (hw : t.kind ≠ .word) :
    parseexecArgs l (strlen l) (fuel + 1) ret argv p = .error (.panic "syntax") := by
  obtain ⟨p₁, hpeek, hv₁, hp₁⟩ :=
    peek_view hp ['|'.toUInt8, ')'.toUInt8, '&'.toUInt8, ';'.toUInt8] (by simp [symbols])
  obtain ⟨p₂, hg₂, -, -⟩ := gettoken_of_lex_cons hp₁ (hv₁.trans h)
  rw [parseexecArgs.eq_2, hpeek, h]
  simp only [headIn_cons, stopToks_first, decide_eq_false hs, Bool.false_eq_true, if_false, hg₂,
    kind_ne_eof_of_lex_cons h, hw, ne_eq, not_false_eq_true, if_true]

/-- The `MAXARGS`-th word panics. -/
theorem parseexecArgs_toomany (fuel : Nat) (ret : Cmd) (argv : List (Nat × Nat)) (hp : p ≤ strlen l)
    {t : Token} {ts : List Token} (h : lex l p = t :: ts) (hw : t.kind = .word)
    (hn : maxargs ≤ argv.length + 1) :
    parseexecArgs l (strlen l) (fuel + 1) ret argv p = .error (.panic "too many args") := by
  obtain ⟨p₁, hpeek, hv₁, hp₁⟩ :=
    peek_view hp ['|'.toUInt8, ')'.toUInt8, '&'.toUInt8, ';'.toUInt8] (by simp [symbols])
  obtain ⟨p₂, hg₂, -, -⟩ := gettoken_of_lex_cons hp₁ (hv₁.trans h)
  rw [parseexecArgs.eq_2, hpeek, h]
  simp only [headIn_cons, stopToks_first, hw, decide_eq_false word_not_stop, hg₂, reduceCtorEq,
    ne_eq, not_true_eq_false, List.length_append, List.length_singleton, hn, Bool.false_eq_true,
    if_false, if_true]

/-- A word below the limit is an argument; the redirections after it follow. -/
theorem parseexecArgs_word (fuel : Nat) (ret : Cmd) (argv : List (Nat × Nat)) (hp : p ≤ strlen l)
    {t : Token} {ts : List Token} (h : lex l p = t :: ts) (hw : t.kind = .word)
    (hn : argv.length + 1 < maxargs) :
    ∃ p', parseexecArgs l (strlen l) (fuel + 1) ret argv p = (do
        let (ret, p) ← parseredirs l (strlen l) fuel ret p'
        parseexecArgs l (strlen l) fuel ret (argv ++ [(t.q, t.eq)]) p) ∧
      lex l p' = ts ∧ p' ≤ strlen l := by
  obtain ⟨p₁, hpeek, hv₁, hp₁⟩ :=
    peek_view hp ['|'.toUInt8, ')'.toUInt8, '&'.toUInt8, ';'.toUInt8] (by simp [symbols])
  obtain ⟨p₂, hg₂, hv₂, hp₂⟩ := gettoken_of_lex_cons hp₁ (hv₁.trans h)
  refine ⟨p₂, ?_, hv₂, hp₂⟩
  have hle : ¬ maxargs ≤ argv.length + 1 := Nat.not_le_of_lt hn
  rw [parseexecArgs.eq_2, hpeek, h]
  simp only [headIn_cons, stopToks_first, hw, decide_eq_false word_not_stop, hg₂, reduceCtorEq,
    ne_eq, not_true_eq_false, List.length_append, List.length_singleton, hle, Bool.false_eq_true,
    if_false]

/-- The loop with a round per token: a panic, or the words and redirections
of a prefix that `(word redir*)*` derives, no more of them than `argv` has
room for. -/
theorem parseexecArgs_total : ∀ fuel ret argv p, p ≤ strlen l → (lex l p).length < fuel →
    argv.length < maxargs →
    (∃ msg, parseexecArgs l (strlen l) fuel ret argv p = .error (.panic msg)) ∨
    ∃ ret' argv' p' u n, parseexecArgs l (strlen l) fuel ret argv p = .ok (ret', argv', p') ∧
      p' ≤ strlen l ∧ lex l p = u ++ lex l p' ∧ Words n (u.map Token.kind) ∧
      argv.length + n < maxargs ∧ (∀ w ∈ ret'.spans, w ∈ ret.spans ∨ WordOf u w) ∧
      ∀ w ∈ argv', w ∈ argv ∨ WordOf u w := by
  intro fuel
  induction fuel with
  | zero => exact fun _ _ _ _ hlen => absurd hlen (Nat.not_lt_zero _)
  | succ fuel ih =>
    intro ret argv p hp hlen hargv
    by_cases hs : StopsAt [.pipe, .rparen, .amp, .semi] (lex l p)
    · obtain ⟨p', hrun, hv, hp'⟩ := parseexecArgs_stop fuel ret argv hp hs
      exact .inr ⟨ret, argv, p', [], 0, hrun, hp', by simp [hv], .nil, hargv,
        fun w hw => .inl hw, fun w hw => .inl hw⟩
    obtain ⟨t, ts, hlex, ht⟩ :=
      exists_cons_of_not_head (P := fun k => k ∈ ([.pipe, .rparen, .amp, .semi] : List Tok)) hs
    by_cases hw : t.kind = .word
    swap
    · exact .inl ⟨_, parseexecArgs_syntax fuel ret argv hp hlex ht hw⟩
    by_cases hn : maxargs ≤ argv.length + 1
    · exact .inl ⟨_, parseexecArgs_toomany fuel ret argv hp hlex hw hn⟩
    -- an argument: the redirections after it, then the next round
    obtain ⟨p₁, hrun, hv₁, hp₁⟩ := parseexecArgs_word fuel ret argv hp hlex hw (by omega)
    have hlen₁ : (lex l p₁).length < fuel := by
      rw [hlex, List.length_cons] at hlen
      rw [hv₁]
      omega
    rw [hrun]
    rcases parseredirs_total fuel ret p₁ hp₁ hlen₁ with
      ⟨msg, hpanic⟩ | ⟨r, p₂, u₁, hr, hp₂, hv₂, hR, hrs⟩
    · exact .inl ⟨msg, by rw [hpanic]; rfl⟩
    have hlen₂ : (lex l p₂).length < fuel := lt_of_le_of_lt (length_le_of_lex_append hv₂) hlen₁
    have hargv₂ : (argv ++ [(t.q, t.eq)]).length < maxargs := by
      rw [List.length_append, List.length_singleton]
      omega
    rw [hr]
    rcases ih r (argv ++ [(t.q, t.eq)]) p₂ hp₂ hlen₂ hargv₂ with
      hpanic | ⟨ret', argv', p', u₂, n, hres, hp', hv, hW, hn', hrs', has'⟩
    · exact .inl hpanic
    have hsub₁ : ∀ x ∈ u₁, x ∈ t :: u₁ ++ u₂ := fun x hx => by simp [hx]
    have hsub₂ : ∀ x ∈ u₂, x ∈ t :: u₁ ++ u₂ := fun x hx => by simp [hx]
    refine .inr ⟨ret', argv', p', t :: u₁ ++ u₂, n + 1, hres, hp', ?_, ?_, ?_, ?_, ?_⟩
    · rw [hlex, ← hv₁, hv₂, hv]
      simp
    · simp only [List.map_append, List.map_cons, hw]
      exact .cons hR hW
    · rw [List.length_append, List.length_singleton] at hn'
      omega
    · intro w hw'
      rcases hrs' w hw' with hw' | hw'
      · rcases hrs w hw' with hw' | hw'
        · exact .inl hw'
        · exact .inr (hw'.mono hsub₁)
      · exact .inr (hw'.mono hsub₂)
    · intro w hw'
      rcases has' w hw' with hw' | hw'
      · rw [List.mem_append, List.mem_singleton] at hw'
        rcases hw' with hw' | rfl
        · exact .inl hw'
        · exact .inr ⟨t, by simp, hw, rfl⟩
      · exact .inr (hw'.mono hsub₂)

theorem isRedir_of_stop {k : Tok} (h : k ∈ [.pipe, .rparen, .amp, .semi]) : k.isRedir = false := by
  simp only [List.mem_cons, List.not_mem_nil, or_false] at h
  rcases h with rfl | rfl | rfl | rfl <;> rfl

/-- From the tokens of `(word redir*)*` followed by one of `|)&;` or the end,
with room for the words, the loop reads exactly them. -/
theorem parseexecArgs_complete {n : Nat} {ks : List Tok} (hW : Words n ks) :
    ∀ {fuel} (ret : Cmd) (argv : List (Nat × Nat)) {p u v}, p ≤ strlen l →
      (lex l p).length < fuel → lex l p = u ++ v →
      u.map Token.kind = ks → StopsAt [.pipe, .rparen, .amp, .semi] v →
      argv.length + n < maxargs →
      ∃ ret' argv' p', parseexecArgs l (strlen l) fuel ret argv p = .ok (ret', argv', p') ∧
        lex l p' = v ∧ p' ≤ strlen l := by
  induction hW with
  | nil =>
    intro fuel ret argv p u v hp hlen hlex hu hv _
    obtain rfl : u = [] := List.map_eq_nil_iff.mp hu
    obtain ⟨fuel, rfl⟩ : ∃ f, fuel = f + 1 := ⟨fuel - 1, by omega⟩
    obtain ⟨p', hrun, hv', hp'⟩ := parseexecArgs_stop fuel ret argv hp (by rw [hlex]; exact hv)
    exact ⟨ret, argv, p', hrun, by rw [hv', hlex]; rfl, hp'⟩
  | cons hr hW ih =>
    intro fuel ret argv p u v hp hlen hlex hu hv hn
    obtain ⟨t, u', rfl, htk, hu'⟩ := map_kind_eq_cons hu
    obtain ⟨u₁, u₂, rfl, hu₁, hu₂⟩ := List.map_eq_append_iff.mp hu'
    rw [List.cons_append, List.append_assoc] at hlex
    obtain ⟨fuel, rfl⟩ : ∃ f, fuel = f + 1 := ⟨fuel - 1, by omega⟩
    obtain ⟨p₁, hrun, hv₁, hp₁⟩ := parseexecArgs_word fuel ret argv hp hlex htk (by omega)
    have hlen₁ : (u₁ ++ (u₂ ++ v)).length < fuel := by
      rw [hlex, List.length_cons] at hlen
      omega
    -- the redirections stop at the next word or at what follows the words
    have hfollow : ∀ t ∈ (u₂ ++ v).head?, t.kind.isRedir = false :=
      head_append (P := fun k => k.isRedir = false)
        (fun k hk => by rw [hu₂] at hk; rw [hW.head k hk]; rfl)
        (fun t ht => isRedir_of_stop (hv t ht))
    obtain ⟨r, p₂, hr', hv₂, hp₂⟩ := parseredirs_complete hr ret hp₁ (by rw [hv₁]; exact hlen₁) hv₁ hu₁ hfollow
    rw [hrun, hr']
    refine ih _ _ hp₂ ?_ hv₂ hu₂ hv ?_
    · rw [hv₂]
      rw [List.length_append] at hlen₁
      omega
    · rw [List.length_append, List.length_singleton]
      omega

end Args


/-! ## The four parse functions that call each other -/

theorem spans_setArgv (c : Cmd) (argv : List (Nat × Nat)) :
    ∀ w ∈ (c.setArgv argv).spans, w ∈ argv ∨ w ∈ c.spans := by
  induction c with
  | exec _ => exact fun w hw => .inl hw
  | redir c file mode fd ih =>
    intro w hw
    rw [Cmd.setArgv, Cmd.spans, List.mem_append] at hw
    rcases hw with hw | hw
    · rcases ih w hw with hw | hw
      · exact .inl hw
      · exact .inr (List.mem_append_left _ hw)
    · exact .inr (List.mem_append_right _ hw)
  | pipe _ _ => exact fun w hw => .inr hw
  | list _ _ => exact fun w hw => .inr hw
  | back _ => exact fun w hw => .inr hw

theorem length_lt_of_lex_cons {l : List UInt8} {p p₁ p₂ : Nat} {u : List Token} {t : Token}
    {ts : List Token} (h : lex l p = u ++ lex l p₁) (h₁ : lex l p₁ = t :: ts) (h₂ : lex l p₂ = ts) :
    (lex l p₂).length < (lex l p).length := by
  rw [h, h₁, h₂, List.length_append, List.length_cons]
  omega

/-- What a parse function returns from `p`: a panic, or a command read from
a prefix `u` of the tokens that `G` derives, whose words are tokens of `u`. -/
def Parsed (l : List UInt8) (G : List Tok → Prop) (p : Nat) (r : Except Fault (Cmd × Nat)) :
    Prop :=
  (∃ msg, r = .error (.panic msg)) ∨
  ∃ c p' u, r = .ok (c, p') ∧ p' ≤ strlen l ∧ lex l p = u ++ lex l p' ∧ G (u.map Token.kind) ∧
    ∀ w ∈ c.spans, WordOf u w

/-- The four functions at fuel `N` from every position with few enough
tokens left: four rounds a token and a few more. -/
def TotalAt (l : List UInt8) (N : Nat) : Prop :=
  ∀ p, p ≤ strlen l →
    (4 * (lex l p).length + 8 ≤ N → Parsed l Line p (parseline l (strlen l) N p)) ∧
    (4 * (lex l p).length + 7 ≤ N → Parsed l Pipe p (parsepipe l (strlen l) N p)) ∧
    (4 * (lex l p).length + 6 ≤ N → Parsed l Exec p (parseexec l (strlen l) N p)) ∧
    (4 * (lex l p).length + 5 ≤ N → Parsed l Exec p (parseblock l (strlen l) N p))

section Total

variable {l : List UInt8} {p N : Nat}

theorem parseline_total (ih : TotalAt l N) (hp : p ≤ strlen l)
    (hN : 4 * (lex l p).length + 8 ≤ N + 1) : Parsed l Line p (parseline l (strlen l) (N + 1) p) := by
  rcases (ih p hp).2.1 (by omega) with ⟨msg, h₁⟩ | ⟨c₁, p₁, u₁, h₁, hp₁, hv₁, hG₁, hs₁⟩
  · exact .inl ⟨msg, by simp only [parseline.eq_2, h₁, bind, Except.bind]⟩
  have hlen₁ := length_le_of_lex_append hv₁
  obtain ⟨c₂, p₂, u₂, k, h₂, hp₂, hv₂, hk, hs₂⟩ := parselineBacks_total N c₁ p₁ hp₁ (by omega)
  obtain ⟨p₃, hpeek, hv₃, hp₃⟩ := peek_view hp₂ [';'.toUInt8] (by simp [symbols])
  have hpre : lex l p = (u₁ ++ u₂) ++ lex l p₂ := by rw [hv₁, hv₂, List.append_assoc]
  have hspans₂ : ∀ w ∈ c₂.spans, WordOf (u₁ ++ u₂) w := fun w hw =>
    (hs₁ w (hs₂ ▸ hw)).mono fun x hx => List.mem_append_left _ hx
  cases hsemi : headIn (lex l p₂) [';'.toUInt8]
  · -- no `;`: the line is the pipe and its `&`s
    refine .inr ⟨c₂, p₃, u₁ ++ u₂, ?_, hp₃, by rw [hv₃, hpre], ?_, hspans₂⟩
    · simp only [parseline.eq_2, h₁, h₂, hpeek, hsemi, bind, Except.bind, Bool.false_eq_true,
        if_false]
    · rw [List.map_append, hk]
      exact .pipe k hG₁
  · -- `;` and the rest of the line
    obtain ⟨t, ts, hlex₂, ht⟩ := headIn_eq_true hsemi
    rw [semiToks_first, decide_eq_true_eq] at ht
    obtain ⟨p₄, hg₄, hv₄, hp₄⟩ := gettoken_of_lex_cons hp₃ (hv₃.trans hlex₂)
    have hlen₄ := length_lt_of_lex_cons hpre hlex₂ hv₄
    rcases (ih p₄ hp₄).1 (by omega) with ⟨msg, h₄⟩ | ⟨c₄, p', u₄, h₄, hp', hv', hG₄, hs₄⟩
    · exact .inl ⟨msg, by
        simp only [parseline.eq_2, h₁, h₂, hpeek, hsemi, if_true, hg₄, h₄, bind, Except.bind]⟩
    refine .inr ⟨.list c₂ c₄, p', u₁ ++ u₂ ++ t :: u₄, ?_, hp', ?_, ?_, ?_⟩
    · simp only [parseline.eq_2, h₁, h₂, hpeek, hsemi, if_true, hg₄, h₄, bind, Except.bind]
    · rw [hpre, hlex₂, ← hv₄, hv']
      simp
    · simp only [List.map_append, List.map_cons, hk, ht]
      exact .seq k hG₁ hG₄
    · intro w hw
      rw [Cmd.spans, List.mem_append] at hw
      rcases hw with hw | hw
      · exact (hspans₂ w hw).mono fun x hx => List.mem_append_left _ hx
      · exact (hs₄ w hw).mono fun x hx => List.mem_append_right _ (List.mem_cons_of_mem _ hx)

theorem parsepipe_total (ih : TotalAt l N) (hp : p ≤ strlen l)
    (hN : 4 * (lex l p).length + 7 ≤ N + 1) : Parsed l Pipe p (parsepipe l (strlen l) (N + 1) p) := by
  rcases (ih p hp).2.2.1 (by omega) with ⟨msg, h₁⟩ | ⟨c₁, p₁, u₁, h₁, hp₁, hv₁, hG₁, hs₁⟩
  · exact .inl ⟨msg, by simp only [parsepipe.eq_2, h₁, bind, Except.bind]⟩
  obtain ⟨p₂, hpeek, hv₂, hp₂⟩ := peek_view hp₁ ['|'.toUInt8] (by simp [symbols])
  cases hbar : headIn (lex l p₁) ['|'.toUInt8]
  · refine .inr ⟨c₁, p₂, u₁, ?_, hp₂, by rw [hv₂, hv₁], .exec hG₁, hs₁⟩
    simp only [parsepipe.eq_2, h₁, hpeek, hbar, bind, Except.bind, Bool.false_eq_true, if_false]
  · -- `|` and the pipe on its right
    obtain ⟨t, ts, hlex₁, ht⟩ := headIn_eq_true hbar
    rw [pipeToks_first, decide_eq_true_eq] at ht
    obtain ⟨p₃, hg₃, hv₃, hp₃⟩ := gettoken_of_lex_cons hp₂ (hv₂.trans hlex₁)
    have hlen₃ := length_lt_of_lex_cons hv₁ hlex₁ hv₃
    rcases (ih p₃ hp₃).2.1 (by omega) with ⟨msg, h₃⟩ | ⟨c₃, p', u₃, h₃, hp', hv', hG₃, hs₃⟩
    · exact .inl ⟨msg, by
        simp only [parsepipe.eq_2, h₁, hpeek, hbar, if_true, hg₃, h₃, bind, Except.bind]⟩
    refine .inr ⟨.pipe c₁ c₃, p', u₁ ++ t :: u₃, ?_, hp', ?_, ?_, ?_⟩
    · simp only [parsepipe.eq_2, h₁, hpeek, hbar, if_true, hg₃, h₃, bind, Except.bind]
    · rw [hv₁, hlex₁, ← hv₃, hv']
      simp
    · simp only [List.map_append, List.map_cons, ht]
      exact .pipe hG₁ hG₃
    · intro w hw
      rw [Cmd.spans, List.mem_append] at hw
      rcases hw with hw | hw
      · exact (hs₁ w hw).mono fun x hx => List.mem_append_left _ hx
      · exact (hs₃ w hw).mono fun x hx => List.mem_append_right _ (List.mem_cons_of_mem _ hx)

theorem parseblock_total (ih : TotalAt l N) (hp : p ≤ strlen l)
    (hN : 4 * (lex l p).length + 5 ≤ N + 1) : Parsed l Exec p (parseblock l (strlen l) (N + 1) p) := by
  obtain ⟨p₁, hpeek, hv₁, hp₁⟩ := peek_view hp ['('.toUInt8] (by simp [symbols])
  cases hopen : headIn (lex l p) ['('.toUInt8]
  · exact .inl ⟨"parseblock", by
      simp only [parseblock.eq_2, hpeek, hopen, Bool.not_false, if_true]⟩
  obtain ⟨t, ts, hlex, ht⟩ := headIn_eq_true hopen
  rw [lparenToks_first, decide_eq_true_eq] at ht
  obtain ⟨p₂, hg₂, hv₂, hp₂⟩ := gettoken_of_lex_cons hp₁ (hv₁.trans hlex)
  have hlen₂ := length_lt_of_lex_cons (u := []) rfl hlex hv₂
  rcases (ih p₂ hp₂).1 (by omega) with ⟨msg, h₃⟩ | ⟨c, p₃, u₁, h₃, hp₃, hv₃, hL, hs⟩
  · exact .inl ⟨msg, by
      simp only [parseblock.eq_2, hpeek, hopen, hg₂, Bool.not_true, Bool.false_eq_true, if_false,
        h₃, bind, Except.bind]⟩
  obtain ⟨p₄, hpeek₄, hv₄, hp₄⟩ := peek_view hp₃ [')'.toUInt8] (by simp [symbols])
  cases hclose : headIn (lex l p₃) [')'.toUInt8]
  · exact .inl ⟨"syntax - missing )", by
      simp only [parseblock.eq_2, hpeek, hopen, hg₂, Bool.not_true, Bool.false_eq_true, if_false,
        h₃, hpeek₄, hclose, bind, Except.bind, Bool.not_false, if_true]⟩
  -- `)` and the redirections after the block
  obtain ⟨t', ts', hlex₃, ht'⟩ := headIn_eq_true hclose
  rw [rparenToks_first, decide_eq_true_eq] at ht'
  obtain ⟨p₅, hg₅, hv₅, hp₅⟩ := gettoken_of_lex_cons hp₄ (hv₄.trans hlex₃)
  have hlen₅ := length_lt_of_lex_cons hv₃ hlex₃ hv₅
  have hstep : parseblock l (strlen l) (N + 1) p = parseredirs l (strlen l) N c p₅ := by
    simp only [parseblock.eq_2, hpeek, hopen, hg₂, h₃, hpeek₄, hclose, hg₅, bind, Except.bind,
      Bool.not_true, Bool.false_eq_true, if_false]
  rw [hstep]
  rcases parseredirs_total N c p₅ hp₅ (by omega) with
    hpanic | ⟨c', p', u₂, h₆, hp', hv', hR, hrs⟩
  · exact .inl hpanic
  refine .inr ⟨c', p', t :: u₁ ++ t' :: u₂, h₆, hp', ?_, ?_, ?_⟩
  · rw [hlex, ← hv₂, hv₃, hlex₃, ← hv₅, hv']
    simp
  · simp only [List.map_append, List.map_cons, ht, ht']
    exact .block hL hR
  · intro w hw
    rcases hrs w hw with hw | hw
    · exact (hs w hw).mono fun x hx => List.mem_append_left _ (List.mem_cons_of_mem _ hx)
    · exact hw.mono fun x hx => List.mem_append_right _ (List.mem_cons_of_mem _ hx)

theorem parseexec_total (ih : TotalAt l N) (hp : p ≤ strlen l)
    (hN : 4 * (lex l p).length + 6 ≤ N + 1) : Parsed l Exec p (parseexec l (strlen l) (N + 1) p) := by
  obtain ⟨p₁, hpeek, hv₁, hp₁⟩ := peek_view hp ['('.toUInt8] (by simp [symbols])
  cases hopen : headIn (lex l p) ['('.toUInt8]
  swap
  · -- a block: what `parseblock` reads from the same tokens
    have hstep : parseexec l (strlen l) (N + 1) p = parseblock l (strlen l) N p₁ := by
      simp only [parseexec.eq_2, hpeek, hopen, if_true]
    have hblock := (ih p₁ hp₁).2.2.2 (by rw [hv₁]; omega)
    rw [Parsed, hv₁] at hblock
    rwa [hstep]
  -- redirections, then the arguments and their redirections
  rcases parseredirs_total N (.exec []) p₁ hp₁ (by rw [hv₁]; omega) with
    ⟨msg, h₂⟩ | ⟨r, p₂, u₁, h₂, hp₂, hv₂, hR, hrs⟩
  · exact .inl ⟨msg, by
      simp only [parseexec.eq_2, hpeek, hopen, h₂, Bool.false_eq_true, if_false, bind,
        Except.bind]⟩
  have hlen₂ : (lex l p₂).length < N := by
    have := length_le_of_lex_append hv₂
    rw [hv₁] at this
    omega
  rcases parseexecArgs_total N r [] p₂ hp₂ hlen₂ (by decide) with
    ⟨msg, h₃⟩ | ⟨ret, argv, p', u₂, n, h₃, hp', hv', hW, hn, hrs', has'⟩
  · exact .inl ⟨msg, by
      simp only [parseexec.eq_2, hpeek, hopen, h₂, h₃, Bool.false_eq_true, if_false, bind,
        Except.bind]⟩
  refine .inr ⟨ret.setArgv argv, p', u₁ ++ u₂, ?_, hp', ?_, ?_, ?_⟩
  · simp only [parseexec.eq_2, hpeek, hopen, h₂, h₃, Bool.false_eq_true, if_false, bind,
      Except.bind]
  · rw [← hv₁, hv₂, hv', List.append_assoc]
  · rw [List.map_append]
    exact .simple n hR hW (by simpa using hn)
  · intro w hw
    rcases spans_setArgv ret argv w hw with hw | hw
    · rcases has' w hw with hw | hw
      · cases hw
      · exact hw.mono fun x hx => List.mem_append_right _ hx
    · rcases hrs' w hw with hw | hw
      · rcases hrs w hw with hw | hw
        · cases hw
        · exact hw.mono fun x hx => List.mem_append_left _ hx
      · exact hw.mono fun x hx => List.mem_append_right _ hx

/-- With four rounds of fuel a token and a few more, each of the four parse
functions panics or returns what the grammar derives; by induction on the
fuel, over all four at once. -/
theorem totalAt (l : List UInt8) : ∀ N, TotalAt l N := by
  intro N
  induction N with
  | zero => exact fun p _ => ⟨by omega, by omega, by omega, by omega⟩
  | succ N ih =>
    intro p hp
    exact ⟨parseline_total ih hp, parsepipe_total ih hp, parseexec_total ih hp,
      parseblock_total ih hp⟩

end Total


/-! ## Completeness -/

theorem StopsAt.mono {ks ks' : List Tok} {v : List Token} (h : StopsAt ks v)
    (hsub : ∀ k ∈ ks, k ∈ ks') : StopsAt ks' v :=
  fun t ht => hsub _ (h t ht)

theorem stopsAt_cons {ks : List Tok} {t : Token} {ts : List Token} (h : t.kind ∈ ks) :
    StopsAt ks (t :: ts) := by
  intro t' ht'
  cases ht'
  exact h

theorem headIn_of_stopsAt {ks : List Tok} {v : List Token} {toks : List UInt8} (hv : StopsAt ks v)
    (h : ∀ k ∈ ks, toks.contains k.first = false) : headIn v toks = false :=
  headIn_eq_false fun t ht => h _ (hv t ht)

theorem head_of_map_eq_replicate {u : List Token} {n : Nat} {a : Tok}
    (h : u.map Token.kind = List.replicate n a) : ∀ k ∈ (u.map Token.kind).head?, k = a := by
  intro k hk
  rw [h] at hk
  exact List.eq_of_mem_replicate (List.mem_of_mem_head? hk)

/-- After `(word redir*)*` and one of `|)&;` or the end, no redirection
comes first. -/
theorem not_redir_of_words {n : Nat} {ks : List Tok} (hW : Words n ks) {u v : List Token}
    (hu : u.map Token.kind = ks) (hv : StopsAt [.pipe, .rparen, .amp, .semi] v) :
    ∀ t ∈ (u ++ v).head?, t.kind.isRedir = false := by
  have hh : ∀ k ∈ (u.map Token.kind).head?, k = .word := by
    rw [hu]
    exact hW.head
  exact head_append (P := fun k => k.isRedir = false) (fun k hk => by rw [hh k hk]; rfl)
    (fun t ht => isRedir_of_stop (hv t ht))

theorem lparen_not_redir {k : Tok} (h : k.isRedir = true) : ['('.toUInt8].contains k.first = false := by
  cases k <;> first | rfl | exact absurd h (by decide)

/-- From a prefix `u` of the tokens that `G` derives, followed by a token
in `follow` or by the end, the parse returns and stops right after `u`. -/
def Reads (l : List UInt8) (G : List Tok → Prop) (follow : List Tok) (p : Nat)
    (r : Except Fault (Cmd × Nat)) : Prop :=
  ∀ u v, lex l p = u ++ v → G (u.map Token.kind) → StopsAt follow v →
    ∃ c p', r = .ok (c, p') ∧ lex l p' = v ∧ p' ≤ strlen l

/-- The four functions at fuel `N`, each from a derivation followed by what
the grammar lets follow it: a line by `)`, a pipe also by `&` or `;`, a
command also by `|`; `parseblock` from a command that starts with `(`. -/
def CompleteAt (l : List UInt8) (N : Nat) : Prop :=
  ∀ p, p ≤ strlen l →
    (4 * (lex l p).length + 8 ≤ N → Reads l Line [.rparen] p (parseline l (strlen l) N p)) ∧
    (4 * (lex l p).length + 7 ≤ N →
      Reads l Pipe [.rparen, .amp, .semi] p (parsepipe l (strlen l) N p)) ∧
    (4 * (lex l p).length + 6 ≤ N →
      Reads l Exec [.pipe, .rparen, .amp, .semi] p (parseexec l (strlen l) N p)) ∧
    (4 * (lex l p).length + 5 ≤ N →
      Reads l (fun ks => Exec ks ∧ ks.head? = some .lparen) [.pipe, .rparen, .amp, .semi] p
        (parseblock l (strlen l) N p))

section Complete

variable {l : List UInt8} {p N : Nat}

theorem parseline_complete (ih : CompleteAt l N) (hp : p ≤ strlen l)
    (hN : 4 * (lex l p).length + 8 ≤ N + 1) :
    Reads l Line [.rparen] p (parseline l (strlen l) (N + 1) p) := by
  intro u v hlex hL hv
  generalize hks : u.map Token.kind = ks at hL
  cases hL with
  | pipe k hP =>
    obtain ⟨u₁, u₂, rfl, hu₁, hu₂⟩ := List.map_eq_append_iff.mp hks
    rw [List.append_assoc] at hlex
    -- the pipe stops at its first `&`, or where the line stops
    have hf₁ : StopsAt [.rparen, .amp, .semi] (u₂ ++ v) :=
      head_append (fun k hk => by rw [head_of_map_eq_replicate hu₂ k hk]; decide)
        (hv.mono (by decide))
    obtain ⟨c₁, p₁, h₁, hv₁, hp₁⟩ :=
      (ih p hp).2.1 (by omega) u₁ (u₂ ++ v) hlex (by rw [hu₁]; exact hP) hf₁
    have hlen₁ : (lex l p₁).length < N := by
      have := length_le_of_lex_append (hv₁ ▸ hlex)
      omega
    obtain ⟨c₂, p₂, h₂, hv₂, hp₂⟩ := parselineBacks_complete c₁ hp₁ hlen₁ hv₁ hu₂
      (fun t ht => by rw [(List.mem_singleton.mp (hv t ht))]; decide)
    obtain ⟨p₃, hpeek, hv₃, hp₃⟩ := peek_view hp₂ [';'.toUInt8] (by simp [symbols])
    have hno : headIn (lex l p₂) [';'.toUInt8] = false := by
      rw [hv₂]
      exact headIn_of_stopsAt hv (by decide)
    refine ⟨c₂, p₃, ?_, hv₃.trans hv₂, hp₃⟩
    simp only [parseline.eq_2, h₁, h₂, hpeek, hno, bind, Except.bind, Bool.false_eq_true, if_false]
  | seq k hP hL' =>
    obtain ⟨a, b, rfl, ha, hb⟩ := List.map_eq_append_iff.mp hks
    obtain ⟨u₁, u₂, rfl, hu₁, hu₂⟩ := List.map_eq_append_iff.mp ha
    obtain ⟨t, u₃, rfl, ht, hu₃⟩ := map_kind_eq_cons hb
    rw [List.append_assoc, List.append_assoc, List.cons_append] at hlex
    have hf₁ : StopsAt [.rparen, .amp, .semi] (u₂ ++ t :: (u₃ ++ v)) :=
      head_append (fun k hk => by rw [head_of_map_eq_replicate hu₂ k hk]; decide)
        (stopsAt_cons (by rw [ht]; decide))
    obtain ⟨c₁, p₁, h₁, hv₁, hp₁⟩ :=
      (ih p hp).2.1 (by omega) u₁ _ hlex (by rw [hu₁]; exact hP) hf₁
    have hlen₁ : (lex l p₁).length < N := by
      have := length_le_of_lex_append (hv₁ ▸ hlex)
      omega
    obtain ⟨c₂, p₂, h₂, hv₂, hp₂⟩ := parselineBacks_complete c₁ hp₁ hlen₁ hv₁ hu₂
      (fun t' ht' => by cases ht'; rw [ht]; decide)
    obtain ⟨p₃, hpeek, hv₃, hp₃⟩ := peek_view hp₂ [';'.toUInt8] (by simp [symbols])
    obtain ⟨p₄, hg₄, hv₄, hp₄⟩ := gettoken_of_lex_cons hp₃ (hv₃.trans hv₂)
    have hlen₄ : (lex l p₄).length < (lex l p).length := by
      rw [hv₄, hlex]
      simp only [List.length_append, List.length_cons]
      omega
    obtain ⟨c₄, p', h₄, hv', hp'⟩ :=
      (ih p₄ hp₄).1 (by omega) u₃ v hv₄ (by rw [hu₃]; exact hL') hv
    refine ⟨.list c₂ c₄, p', ?_, hv', hp'⟩
    simp only [parseline.eq_2, h₁, h₂, hpeek, hv₂, headIn_cons, semiToks_first, ht, decide_true,
      if_true, hg₄, h₄, bind, Except.bind]

theorem parsepipe_complete (ih : CompleteAt l N) (hp : p ≤ strlen l)
    (hN : 4 * (lex l p).length + 7 ≤ N + 1) :
    Reads l Pipe [.rparen, .amp, .semi] p (parsepipe l (strlen l) (N + 1) p) := by
  intro u v hlex hP hv
  generalize hks : u.map Token.kind = ks at hP
  cases hP with
  | exec hE =>
    obtain ⟨c₁, p₁, h₁, hv₁, hp₁⟩ :=
      (ih p hp).2.2.1 (by omega) u v hlex (by rw [hks]; exact hE) (hv.mono (by decide))
    obtain ⟨p₂, hpeek, hv₂, hp₂⟩ := peek_view hp₁ ['|'.toUInt8] (by simp [symbols])
    have hno : headIn (lex l p₁) ['|'.toUInt8] = false := by
      rw [hv₁]
      exact headIn_of_stopsAt hv (by decide)
    refine ⟨c₁, p₂, ?_, hv₂.trans hv₁, hp₂⟩
    simp only [parsepipe.eq_2, h₁, hpeek, hno, bind, Except.bind, Bool.false_eq_true, if_false]
  | pipe hE hP' =>
    obtain ⟨u₁, b, rfl, hu₁, hb⟩ := List.map_eq_append_iff.mp hks
    obtain ⟨t, u₃, rfl, ht, hu₃⟩ := map_kind_eq_cons hb
    rw [List.append_assoc, List.cons_append] at hlex
    obtain ⟨c₁, p₁, h₁, hv₁, hp₁⟩ := (ih p hp).2.2.1 (by omega) u₁ _ hlex
      (by rw [hu₁]; exact hE) (stopsAt_cons (by rw [ht]; decide))
    obtain ⟨p₂, hpeek, hv₂, hp₂⟩ := peek_view hp₁ ['|'.toUInt8] (by simp [symbols])
    obtain ⟨p₃, hg₃, hv₃, hp₃⟩ := gettoken_of_lex_cons hp₂ (hv₂.trans hv₁)
    have hlen₃ : (lex l p₃).length < (lex l p).length := by
      rw [hv₃, hlex]
      simp only [List.length_append, List.length_cons]
      omega
    obtain ⟨c₃, p', h₃, hv', hp'⟩ :=
      (ih p₃ hp₃).2.1 (by omega) u₃ v hv₃ (by rw [hu₃]; exact hP') hv
    refine ⟨.pipe c₁ c₃, p', ?_, hv', hp'⟩
    simp only [parsepipe.eq_2, h₁, hpeek, hv₁, headIn_cons, pipeToks_first, ht, decide_true,
      if_true, hg₃, h₃, bind, Except.bind]

theorem parseblock_complete (ih : CompleteAt l N) (hp : p ≤ strlen l)
    (hN : 4 * (lex l p).length + 5 ≤ N + 1) :
    Reads l (fun ks => Exec ks ∧ ks.head? = some .lparen) [.pipe, .rparen, .amp, .semi] p
      (parseblock l (strlen l) (N + 1) p) := by
  intro u v hlex hG hv
  obtain ⟨hE, hhead⟩ := hG
  generalize hks : u.map Token.kind = ks at hE hhead
  cases hE with
  | simple n hR hW hn =>
    -- a simple command never starts with `(`
    exfalso
    cases hR with
    | nil => exact absurd (hW.head _ hhead) (by decide)
    | cons hk _ =>
      cases hhead
      exact absurd hk (by decide)
  | block hL hR =>
    obtain ⟨a, b, rfl, ha, hb⟩ := List.map_eq_append_iff.mp hks
    obtain ⟨t, u₁, rfl, ht, hu₁⟩ := map_kind_eq_cons ha
    obtain ⟨t', u₂, rfl, ht', hu₂⟩ := map_kind_eq_cons hb
    simp only [List.cons_append, List.append_assoc] at hlex
    obtain ⟨p₁, hpeek, hv₁, hp₁⟩ := peek_view hp ['('.toUInt8] (by simp [symbols])
    obtain ⟨p₂, hg₂, hv₂, hp₂⟩ := gettoken_of_lex_cons hp₁ (hv₁.trans hlex)
    have hlen₂ : (lex l p₂).length < (lex l p).length := by
      rw [hv₂, hlex, List.length_cons]
      omega
    obtain ⟨c, p₃, h₃, hv₃, hp₃⟩ := (ih p₂ hp₂).1 (by omega) u₁ _ hv₂
      (by rw [hu₁]; exact hL) (stopsAt_cons (by rw [ht']; decide))
    obtain ⟨p₄, hpeek₄, hv₄, hp₄⟩ := peek_view hp₃ [')'.toUInt8] (by simp [symbols])
    obtain ⟨p₅, hg₅, hv₅, hp₅⟩ := gettoken_of_lex_cons hp₄ (hv₄.trans hv₃)
    have hlen₅ : (lex l p₅).length < N := by
      rw [hv₅]
      rw [hlex] at hN
      simp only [List.length_append, List.length_cons] at hN ⊢
      omega
    obtain ⟨c', p', h₆, hv', hp'⟩ := parseredirs_complete hR c hp₅ hlen₅ hv₅ hu₂
      (fun t ht => isRedir_of_stop (hv t ht))
    refine ⟨c', p', ?_, hv', hp'⟩
    simp only [parseblock.eq_2, hpeek, hlex, headIn_cons, lparenToks_first, ht, decide_true,
      Bool.not_true, Bool.false_eq_true, if_false, hg₂, h₃, hpeek₄, hv₃, rparenToks_first, ht',
      hg₅, h₆, bind, Except.bind]

theorem parseexec_complete (ih : CompleteAt l N) (hp : p ≤ strlen l)
    (hN : 4 * (lex l p).length + 6 ≤ N + 1) :
    Reads l Exec [.pipe, .rparen, .amp, .semi] p (parseexec l (strlen l) (N + 1) p) := by
  intro u v hlex hE hv
  obtain ⟨p₁, hpeek, hv₁, hp₁⟩ := peek_view hp ['('.toUInt8] (by simp [symbols])
  generalize hks : u.map Token.kind = ks at hE
  cases hE with
  | block hL hR =>
    -- `(`: `parseblock` reads the same tokens
    obtain ⟨t, u', rfl, ht, -⟩ := map_kind_eq_cons hks
    have hopen : headIn (lex l p) ['('.toUInt8] = true := by
      rw [hlex, List.cons_append, headIn_cons, lparenToks_first, ht]
      rfl
    have hblock := (ih p₁ hp₁).2.2.2 (by rw [hv₁]; omega) (t :: u') v (hv₁.trans hlex)
      ⟨by rw [hks]; exact .block hL hR, by rw [List.map_cons, List.head?_cons, ht]⟩ hv
    simp only [parseexec.eq_2, hpeek, hopen, if_true]
    exact hblock
  | simple n hR hW hn =>
    obtain ⟨u₁, u₂, rfl, hu₁, hu₂⟩ := List.map_eq_append_iff.mp hks
    rw [List.append_assoc] at hlex
    -- the first token is a redirection, a word, or what follows the command
    have hh₁ : ∀ k ∈ (u₁.map Token.kind).head?, k.isRedir = true := by
      rw [hu₁]
      exact hR.head
    have hh₂ : ∀ k ∈ (u₂.map Token.kind).head?, k = .word := by
      rw [hu₂]
      exact hW.head
    have hstop : ∀ k ∈ [Tok.pipe, .rparen, .amp, .semi], ['('.toUInt8].contains k.first = false := by
      decide
    have hopen : headIn (lex l p) ['('.toUInt8] = false := by
      rw [hlex]
      refine headIn_eq_false (head_append (P := fun k => ['('.toUInt8].contains k.first = false)
        (fun k hk => lparen_not_redir (hh₁ k hk))
        (head_append (P := fun k => ['('.toUInt8].contains k.first = false) (fun k hk => ?_)
          (fun t ht => hstop _ (hv t ht))))
      rw [hh₂ k hk]
      rfl
    have hlen₁ : (lex l p₁).length < N := by
      rw [hv₁]
      omega
    obtain ⟨r, p₂, h₂, hv₂, hp₂⟩ := parseredirs_complete hR (.exec []) hp₁ hlen₁ (hv₁.trans hlex) hu₁
      (not_redir_of_words hW hu₂ hv)
    have hlen₂ : (lex l p₂).length < N := by
      have := length_le_of_lex_append (hv₂ ▸ hv₁.trans hlex)
      rw [hv₁] at this
      omega
    obtain ⟨ret, argv, p', h₃, hv', hp'⟩ :=
      parseexecArgs_complete hW r [] hp₂ hlen₂ hv₂ hu₂ hv (by simpa using hn)
    refine ⟨ret.setArgv argv, p', ?_, hv', hp'⟩
    simp only [parseexec.eq_2, hpeek, hopen, h₂, h₃, Bool.false_eq_true, if_false, bind,
      Except.bind]

/-- From a derivation followed by what the grammar lets follow it, each of
the four parse functions returns and stops right after it; by induction on
the fuel, over all four at once. -/
theorem completeAt (l : List UInt8) : ∀ N, CompleteAt l N := by
  intro N
  induction N with
  | zero => exact fun p _ => ⟨by omega, by omega, by omega, by omega⟩
  | succ N ih =>
    intro p hp
    exact ⟨parseline_complete ih hp, parsepipe_complete ih hp, parseexec_complete ih hp,
      parseblock_complete ih hp⟩

end Complete

end Xv6.Sh
