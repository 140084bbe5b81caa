import Xv6.CString

/-!
# The shell's lexer

`gettoken` and `peek` of `sh.c` read the line the shell got from `gets`: a
byte list whose end is `es = s + strlen(s)`.  A pointer into the line is a
position, and `*s` reads the byte there, the NUL at `es` and past the end.

`gettoken` skips whitespace, reads one token (a symbol, `>>`, or a run of
bytes that are neither whitespace nor symbols) and skips the whitespace
after it.  `lex l p` is the sequence of tokens `gettoken` reads from `p` up
to the NUL.  `peek` answers from the first byte of its first token
(`peek_eq`), `gettoken` takes that token off (`gettoken_of_lex_cons`), and
every word token is a maximal run of word bytes (`lex_wordRun`).
-/

namespace Xv6.Sh

/-- `whitespace[]`, `" \t\r\n\v"`. -/
def whitespace : List UInt8 := [' '.toUInt8, '\t'.toUInt8, '\r'.toUInt8, '\n'.toUInt8, 11]

/-- `symbols[]`, `"<|>&;()"`. -/
def symbols : List UInt8 :=
  ['<'.toUInt8, '|'.toUInt8, '>'.toUInt8, '&'.toUInt8, ';'.toUInt8, '('.toUInt8, ')'.toUInt8]

/-- `*s` at position `p`: the NUL past the end of the line. -/
def charAt (l : List UInt8) (p : Nat) : UInt8 := l.getD p 0

/-- A byte of a word: `!strchr(whitespace, c) && !strchr(symbols, c)`. -/
def isWordChar (c : UInt8) : Bool := !whitespace.contains c && !symbols.contains c

/-- `while(s < es && good(*s)) s++;` from `p`, with `n` rounds left. -/
def scanLoop (good : UInt8 → Bool) (l : List UInt8) (es : Nat) : Nat → Nat → Nat
  | 0, p => p
  | n + 1, p => if p < es ∧ good (charAt l p) = true then scanLoop good l es n (p + 1) else p

/-- The loop ends within `es - p` rounds. -/
def scan (good : UInt8 → Bool) (l : List UInt8) (es p : Nat) : Nat :=
  scanLoop good l es (es - p) p

/-- `while(s < es && strchr(whitespace, *s)) s++;` -/
def skipWs (l : List UInt8) (es p : Nat) : Nat := scan whitespace.contains l es p

/-- The end of the word at `p`. -/
def wordEnd (l : List UInt8) (es p : Nat) : Nat := scan isWordChar l es p

/-- What `gettoken` returns: `0` at the end of the line, the symbol itself,
`'+'` for `>>`, and `'a'` for a word. -/
inductive Tok
  | eof
  | pipe
  | lparen
  | rparen
  | semi
  | amp
  | lt
  | gt
  | append
  | word
  deriving DecidableEq, Repr

/-- The `switch(*s)` of `gettoken` at `s`: the token and the position after
it. -/
def tokenAt (l : List UInt8) (es s : Nat) : Tok × Nat :=
  let c := charAt l s
  if c = 0 then (.eof, s)
  else if c = '|'.toUInt8 then (.pipe, s + 1)
  else if c = '('.toUInt8 then (.lparen, s + 1)
  else if c = ')'.toUInt8 then (.rparen, s + 1)
  else if c = ';'.toUInt8 then (.semi, s + 1)
  else if c = '&'.toUInt8 then (.amp, s + 1)
  else if c = '<'.toUInt8 then (.lt, s + 1)
  else if c = '>'.toUInt8 then
    if charAt l (s + 1) = '>'.toUInt8 then (.append, s + 2) else (.gt, s + 1)
  else (.word, wordEnd l es s)

/-- `gettoken(ps, es, &q, &eq)`: the token, `q`, `eq`, and the new `*ps`. -/
def gettoken (l : List UInt8) (es p : Nat) : Tok × Nat × Nat × Nat :=
  let s := skipWs l es p
  let (ret, e) := tokenAt l es s
  (ret, s, e, skipWs l es e)

/-- `peek(ps, es, toks)`: whether the next byte is one of `toks`, and the new
`*ps`. -/
def peek (l : List UInt8) (es p : Nat) (toks : List UInt8) : Bool × Nat :=
  let s := skipWs l es p
  (charAt l s != 0 && toks.contains (charAt l s), s)

/-- The first byte of a token of this kind; every word gets `'a'`, which is
no symbol, as no word's first byte is. -/
def Tok.first : Tok → UInt8
  | .eof => 0
  | .pipe => '|'.toUInt8
  | .lparen => '('.toUInt8
  | .rparen => ')'.toUInt8
  | .semi => ';'.toUInt8
  | .amp => '&'.toUInt8
  | .lt => '<'.toUInt8
  | .gt => '>'.toUInt8
  | .append => '>'.toUInt8
  | .word => 'a'.toUInt8

/-! ## The NUL at `strlen` -/

section Line

variable {l : List UInt8}

/-- The line ends in its NUL at `strlen`. -/
theorem charAt_strlen (l : List UInt8) : charAt l (strlen l) = 0 := by
  induction l with
  | nil => rfl
  | cons c l ih =>
    by_cases hc : c = 0
    · simp [strlen, hc, charAt]
    · simp only [strlen, hc, if_false]
      exact ih

/-- Before `strlen` no byte is the NUL. -/
theorem charAt_ne_zero {i : Nat} (h : i < strlen l) : charAt l i ≠ 0 := by
  induction l generalizing i with
  | nil => simp [strlen] at h
  | cons c l ih =>
    by_cases hc : c = 0
    · simp [strlen, hc] at h
    · simp only [strlen, hc, if_false] at h
      cases i with
      | zero => exact hc
      | succ i => exact ih (by omega)

end Line

/-! ## The scanning loops -/

section Scan

variable {good : UInt8 → Bool} {l : List UInt8} {es p i : Nat}

theorem le_scanLoop (n p : Nat) : p ≤ scanLoop good l es n p := by
  induction n generalizing p with
  | zero => exact le_rfl
  | succ n ih =>
    rw [scanLoop]
    split_ifs
    · exact Nat.le_of_succ_le (ih (p + 1))
    · exact le_rfl

theorem scanLoop_le {n : Nat} (hp : p ≤ es) : scanLoop good l es n p ≤ es := by
  induction n generalizing p with
  | zero => exact hp
  | succ n ih =>
    rw [scanLoop]
    split_ifs with h
    · exact ih h.1
    · exact hp

theorem scanLoop_good {n : Nat} (h₁ : p ≤ i) (h₂ : i < scanLoop good l es n p) :
    good (charAt l i) = true := by
  induction n generalizing p with
  | zero =>
    simp only [scanLoop] at h₂
    omega
  | succ n ih =>
    rw [scanLoop] at h₂
    split_ifs at h₂ with h
    · by_cases hi : i = p
      · exact hi ▸ h.2
      · exact ih (by omega) h₂
    · omega

theorem scanLoop_stop {n : Nat} (hn : es ≤ p + n) (h : scanLoop good l es n p < es) :
    good (charAt l (scanLoop good l es n p)) = false := by
  induction n generalizing p with
  | zero =>
    simp only [scanLoop] at h
    omega
  | succ n ih =>
    rw [scanLoop] at h ⊢
    split_ifs at h ⊢ with hc
    · exact ih (by omega) h
    · exact Bool.eq_false_iff.mpr fun hg => hc ⟨h, hg⟩

theorem scanLoop_self {n : Nat} (h : ¬(p < es ∧ good (charAt l p) = true)) :
    scanLoop good l es n p = p := by
  cases n with
  | zero => rfl
  | succ n => rw [scanLoop, if_neg h]

theorem le_scan (p : Nat) : p ≤ scan good l es p := le_scanLoop _ _

theorem scan_le (hp : p ≤ es) : scan good l es p ≤ es := scanLoop_le hp

/-- Every byte the loop passes is good. -/
theorem scan_good (h₁ : p ≤ i) (h₂ : i < scan good l es p) : good (charAt l i) = true :=
  scanLoop_good h₁ h₂

/-- The loop stops at a byte that is not good, or at `es`. -/
theorem scan_stop (h : scan good l es p < es) : good (charAt l (scan good l es p)) = false :=
  scanLoop_stop (by omega) h

theorem scan_self (h : ¬(p < es ∧ good (charAt l p) = true)) : scan good l es p = p :=
  scanLoop_self h

@[simp] theorem scan_scan : scan good l es (scan good l es p) = scan good l es p := by
  apply scan_self
  rintro ⟨hlt, hg⟩
  rw [scan_stop hlt] at hg
  cases hg

/-- A good byte before `es` is passed. -/
theorem lt_scan (hp : p < es) (hg : good (charAt l p) = true) : p < scan good l es p := by
  unfold scan
  obtain ⟨n, hn⟩ : ∃ n, es - p = n + 1 := ⟨es - p - 1, by omega⟩
  rw [hn, scanLoop, if_pos ⟨hp, hg⟩]
  exact Nat.lt_of_lt_of_le (Nat.lt_succ_self p) (le_scanLoop n (p + 1))

end Scan

/-! ## One token -/

section Token

variable {l : List UInt8} {es s p : Nat}

theorem tokenAt_eof_iff : (tokenAt l es s).1 = .eof ↔ charAt l s = 0 := by
  by_cases hc : charAt l s = 0
  · simp [tokenAt, hc]
  · simp only [tokenAt, hc, if_false, iff_false]
    split_ifs <;> simp

theorem tokenAt_of_zero (h : charAt l s = 0) : tokenAt l es s = (.eof, s) := by
  simp [tokenAt, h]

/-- A symbol byte starts a token with that first byte: one byte long, or
two for `>>`. -/
theorem tokenAt_symbol (h : charAt l s ∈ symbols) :
    (tokenAt l es s).1.first = charAt l s ∧ (tokenAt l es s).1 ≠ .eof ∧
      (tokenAt l es s).1 ≠ .word ∧
      ((tokenAt l es s).2 = s + 1 ∨
        ((tokenAt l es s).2 = s + 2 ∧ charAt l (s + 1) = '>'.toUInt8)) := by
  simp only [symbols, List.mem_cons, List.not_mem_nil, or_false] at h
  unfold tokenAt
  rcases h with h | h | h | h | h | h | h <;> simp +decide [h]
  -- `>` or `>>`
  split_ifs with h2 <;> simp [Tok.first, h2]

/-- Any other byte but the NUL starts a word. -/
theorem tokenAt_word (h0 : charAt l s ≠ 0) (h : charAt l s ∉ symbols) :
    tokenAt l es s = (.word, wordEnd l es s) := by
  simp only [symbols, List.mem_cons, List.not_mem_nil, or_false, not_or] at h
  obtain ⟨h1, h2, h3, h4, h5, h6, h7⟩ := h
  simp [tokenAt, h0, h1, h2, h3, h4, h5, h6, h7]

theorem gettoken_eq (l : List UInt8) (es p : Nat) :
    gettoken l es p = ((tokenAt l es (skipWs l es p)).1, skipWs l es p,
      (tokenAt l es (skipWs l es p)).2, skipWs l es (tokenAt l es (skipWs l es p)).2) := rfl

@[simp] theorem skipWs_skipWs : skipWs l es (skipWs l es p) = skipWs l es p := scan_scan

theorem le_skipWs (p : Nat) : p ≤ skipWs l es p := le_scan p

theorem skipWs_ws {i : Nat} (h₁ : p ≤ i) (h₂ : i < skipWs l es p) :
    whitespace.contains (charAt l i) = true :=
  scan_good h₁ h₂

theorem wordEnd_le (hp : p ≤ es) : wordEnd l es p ≤ es := scan_le hp

theorem wordEnd_word {i : Nat} (h₁ : p ≤ i) (h₂ : i < wordEnd l es p) :
    isWordChar (charAt l i) = true :=
  scan_good h₁ h₂

theorem wordEnd_stop (h : wordEnd l es p < es) : isWordChar (charAt l (wordEnd l es p)) = false :=
  scan_stop h

theorem lt_wordEnd (hp : p < es) (hw : isWordChar (charAt l p) = true) : p < wordEnd l es p :=
  lt_scan hp hw

@[simp] theorem gettoken_skipWs : gettoken l es (skipWs l es p) = gettoken l es p := by
  simp only [gettoken_eq, skipWs, scan_scan]

/-- Where `gettoken` starts, no whitespace is left before the NUL. -/
theorem skipWs_stop (h : skipWs l es p < es) : whitespace.contains (charAt l (skipWs l es p)) = false :=
  scan_stop h

theorem isWordChar_of {c : UInt8} (hws : whitespace.contains c = false) (h : c ∉ symbols) :
    isWordChar c = true := by
  unfold isWordChar
  rw [hws]
  simpa using h

/-- A token that is not the end starts before the NUL, is not empty, and ends
by the NUL. -/
theorem tokenAt_lt (hs : s ≤ strlen l)
    (hws : s < strlen l → whitespace.contains (charAt l s) = false)
    (h : (tokenAt l (strlen l) s).1 ≠ .eof) :
    s < strlen l ∧ s < (tokenAt l (strlen l) s).2 ∧ (tokenAt l (strlen l) s).2 ≤ strlen l := by
  have hc : charAt l s ≠ 0 := fun hc => h (tokenAt_eof_iff.mpr hc)
  have hlt : s < strlen l := by
    rcases Nat.lt_or_eq_of_le hs with h' | h'
    · exact h'
    · exact absurd (h' ▸ charAt_strlen l) hc
  by_cases hsym : charAt l s ∈ symbols
  · obtain ⟨-, -, -, he⟩ := (tokenAt_symbol hsym : (tokenAt l (strlen l) s).1.first = _ ∧ _)
    rcases he with he | ⟨he, h2⟩
    · exact ⟨hlt, by omega, by omega⟩
    · -- the second `>` of `>>` is before the NUL
      have hlt2 : s + 1 < strlen l := by
        by_contra hge
        rw [show s + 1 = strlen l by omega, charAt_strlen] at h2
        exact absurd h2 (by decide)
      exact ⟨hlt, by omega, by omega⟩
  · rw [tokenAt_word hc hsym]
    exact ⟨hlt, lt_scan hlt (isWordChar_of (hws hlt) hsym), scan_le hlt.le⟩

/-- `gettoken` keeps `*ps` by the NUL. -/
theorem gettoken_le (hp : p ≤ strlen l) : (gettoken l (strlen l) p).2.2.2 ≤ strlen l := by
  rw [gettoken_eq]
  have hs : skipWs l (strlen l) p ≤ strlen l := scan_le hp
  by_cases h : (tokenAt l (strlen l) (skipWs l (strlen l) p)).1 = .eof
  · rw [tokenAt_of_zero (tokenAt_eof_iff.mp h)]
    exact scan_le hs
  · exact scan_le (tokenAt_lt hs skipWs_stop h).2.2

/-- A token that is not the end moves `*ps` on. -/
theorem gettoken_advance (hp : p ≤ strlen l) (h : (gettoken l (strlen l) p).1 ≠ .eof) :
    p < (gettoken l (strlen l) p).2.2.2 := by
  rw [gettoken_eq] at h ⊢
  have hlt := tokenAt_lt (scan_le hp) skipWs_stop h
  calc p ≤ skipWs l (strlen l) p := le_scan p
    _ < (tokenAt l (strlen l) (skipWs l (strlen l) p)).2 := hlt.2.1
    _ ≤ _ := le_scan _

end Token

/-! ## The token sequence -/

/-- A token `gettoken` reads: its kind and `[q, eq)`. -/
structure Token where
  kind : Tok
  q : Nat
  eq : Nat
  deriving DecidableEq, Repr

-- `h` is read by the termination proof only
set_option linter.unusedVariables false in
/-- The tokens `gettoken` reads from `p` before the end of the line. -/
def lex (l : List UInt8) (p : Nat) : List Token :=
  if h : p ≤ strlen l ∧ (gettoken l (strlen l) p).1 ≠ .eof then
    ⟨(gettoken l (strlen l) p).1, (gettoken l (strlen l) p).2.1, (gettoken l (strlen l) p).2.2.1⟩ ::
      lex l (gettoken l (strlen l) p).2.2.2
  else []
termination_by strlen l + 1 - p
decreasing_by
  have := gettoken_advance h.1 h.2
  omega

/-- `peek` on a token sequence: whether its first token starts with one of
`toks`. -/
def headIn (ts : List Token) (toks : List UInt8) : Bool :=
  match ts with
  | [] => false
  | t :: _ => toks.contains t.kind.first

section Lex

variable {l : List UInt8} {p : Nat}

theorem lex_of_eof (h : (gettoken l (strlen l) p).1 = .eof) : lex l p = [] := by
  rw [lex, dif_neg fun h' => h'.2 h]

theorem lex_of_ne_eof (hp : p ≤ strlen l) (h : (gettoken l (strlen l) p).1 ≠ .eof) :
    lex l p = ⟨(gettoken l (strlen l) p).1, (gettoken l (strlen l) p).2.1,
      (gettoken l (strlen l) p).2.2.1⟩ :: lex l (gettoken l (strlen l) p).2.2.2 := by
  rw [lex, dif_pos ⟨hp, h⟩]

theorem skipWs_le (hp : p ≤ strlen l) : skipWs l (strlen l) p ≤ strlen l := scan_le hp

/-- Whitespace before the next token changes no token. -/
@[simp] theorem lex_skipWs (hp : p ≤ strlen l) : lex l (skipWs l (strlen l) p) = lex l p := by
  by_cases h : (gettoken l (strlen l) p).1 = .eof
  · rw [lex_of_eof h, lex_of_eof (by rwa [gettoken_skipWs])]
  · rw [lex_of_ne_eof hp h, lex_of_ne_eof (skipWs_le hp) (by rwa [gettoken_skipWs]),
      gettoken_skipWs]

/-- `gettoken` takes the first token off the sequence. -/
theorem gettoken_of_lex_cons {t : Token} {ts : List Token} (hp : p ≤ strlen l)
    (h : lex l p = t :: ts) :
    ∃ p', gettoken l (strlen l) p = (t.kind, t.q, t.eq, p') ∧ lex l p' = ts ∧ p' ≤ strlen l := by
  by_cases he : (gettoken l (strlen l) p).1 = .eof
  · rw [lex_of_eof he] at h
    cases h
  · rw [lex_of_ne_eof hp he, List.cons.injEq] at h
    obtain ⟨rfl, rfl⟩ := h
    exact ⟨_, rfl, rfl, gettoken_le hp⟩

/-- At the end, `gettoken` returns `0` and stays at the end. -/
theorem gettoken_of_lex_nil (hp : p ≤ strlen l) (h : lex l p = []) :
    (gettoken l (strlen l) p).1 = .eof ∧ lex l (gettoken l (strlen l) p).2.2.2 = [] ∧
      (gettoken l (strlen l) p).2.2.2 ≤ strlen l := by
  have he : (gettoken l (strlen l) p).1 = .eof := by
    by_contra hne
    rw [lex_of_ne_eof hp hne] at h
    cases h
  refine ⟨he, ?_, gettoken_le hp⟩
  have hz : tokenAt l (strlen l) (skipWs l (strlen l) p) = (.eof, skipWs l (strlen l) p) :=
    tokenAt_of_zero (tokenAt_eof_iff.mp he)
  show lex l (skipWs l (strlen l) (tokenAt l (strlen l) (skipWs l (strlen l) p)).2) = []
  rw [hz, skipWs_skipWs, lex_skipWs hp, h]

/-- `peek` answers from the first byte of the next token, for sets of
symbols. -/
theorem peek_eq (hp : p ≤ strlen l) {toks : List UInt8} (htoks : ∀ c ∈ toks, c ∈ symbols) :
    peek l (strlen l) p toks = (headIn (lex l p) toks, skipWs l (strlen l) p) := by
  have hs := skipWs_le hp
  simp only [peek, Prod.mk.injEq, and_true]
  by_cases hc : charAt l (skipWs l (strlen l) p) = 0
  · rw [lex_of_eof (by rw [gettoken_eq]; exact tokenAt_eof_iff.mpr hc)]
    simp [hc, headIn]
  · have hne : (gettoken l (strlen l) p).1 ≠ .eof := by
      rw [gettoken_eq]
      exact fun h => hc (tokenAt_eof_iff.mp h)
    rw [lex_of_ne_eof hp hne, gettoken_eq, show (charAt l (skipWs l (strlen l) p) != 0) = true from
      bne_iff_ne.mpr hc, Bool.true_and]
    simp only [headIn]
    by_cases hsym : charAt l (skipWs l (strlen l) p) ∈ symbols
    · rw [(tokenAt_symbol hsym).1]
    · -- a word: its first byte and `'a'` are both outside `toks`
      rw [tokenAt_word hc hsym]
      have h₁ : toks.contains (charAt l (skipWs l (strlen l) p)) = false := by
        simpa using fun hmem => hsym (htoks _ hmem)
      have h₂ : toks.contains Tok.word.first = false := by
        simpa using fun hmem => absurd (htoks _ hmem) (by decide)
      rw [h₁, h₂]

/-- No token is left exactly when `peek` reaches the NUL. -/
theorem lex_eq_nil_iff (hp : p ≤ strlen l) : lex l p = [] ↔ skipWs l (strlen l) p = strlen l := by
  have hs := skipWs_le hp
  constructor
  · intro h
    have he := (gettoken_of_lex_nil hp h).1
    rw [gettoken_eq, tokenAt_eof_iff] at he
    by_contra hne
    exact charAt_ne_zero (by omega) he
  · intro h
    apply lex_of_eof
    rw [gettoken_eq, tokenAt_eof_iff, h]
    exact charAt_strlen l

/-- At most one token per byte. -/
theorem length_lex_le (hp : p ≤ strlen l) : (lex l p).length ≤ strlen l - p := by
  induction p using lex.induct l with
  | case1 p h ih =>
    rw [lex_of_ne_eof h.1 h.2, List.length_cons]
    have hadv := gettoken_advance h.1 h.2
    have hle := gettoken_le h.1
    have := ih hle
    omega
  | case2 p h =>
    rw [lex, dif_neg h]
    exact Nat.zero_le _

end Lex

/-! ## Word tokens -/

/-- No word byte right before `p`: a run of word bytes can start there. -/
def Boundary (l : List UInt8) (p : Nat) : Prop := p = 0 ∨ isWordChar (charAt l (p - 1)) = false

/-- `[q, eq)` is a maximal run of word bytes of the line. -/
structure WordRun (l : List UInt8) (q eq : Nat) : Prop where
  lt : q < eq
  le : eq ≤ strlen l
  word : ∀ i, q ≤ i → i < eq → isWordChar (charAt l i) = true
  left : Boundary l q
  right : eq = strlen l ∨ isWordChar (charAt l eq) = false

/-- Where `gettoken` may be called: a word byte at `p` starts a run. -/
def Sep (l : List UInt8) (p : Nat) : Prop :=
  Boundary l p ∨ isWordChar (charAt l p) = false ∨ strlen l ≤ p

section Words

variable {l : List UInt8} {p : Nat}

theorem not_isWordChar_of_ws {c : UInt8} (h : whitespace.contains c = true) :
    isWordChar c = false := by
  unfold isWordChar
  rw [h]
  rfl

theorem not_isWordChar_of_symbol {c : UInt8} (h : c ∈ symbols) : isWordChar c = false := by
  unfold isWordChar
  rw [List.contains_iff_mem.mpr h, Bool.not_true, Bool.and_false]

/-- Past skipped whitespace, the byte before is whitespace. -/
theorem boundary_skipWs (h : p < skipWs l (strlen l) p) : Boundary l (skipWs l (strlen l) p) := by
  have h₁ : p ≤ skipWs l (strlen l) p - 1 := by omega
  have h₂ : skipWs l (strlen l) p - 1 < skipWs l (strlen l) p := by omega
  exact .inr (not_isWordChar_of_ws (skipWs_ws h₁ h₂))

/-- A word token starts a run. -/
theorem boundary_of_word (hsep : Sep l p)
    (hw : isWordChar (charAt l (skipWs l (strlen l) p)) = true)
    (hlt : skipWs l (strlen l) p < strlen l) : Boundary l (skipWs l (strlen l) p) := by
  rcases Nat.lt_or_eq_of_le (le_skipWs p : p ≤ skipWs l (strlen l) p) with h | h
  · exact boundary_skipWs h
  · rw [← h] at hw hlt ⊢
    rcases hsep with hb | hnw | hend
    · exact hb
    · rw [hw] at hnw
      cases hnw
    · omega

/-- After any token, `gettoken` may be called again. -/
theorem sep_gettoken (h : (gettoken l (strlen l) p).1 ≠ .eof) :
    Sep l (gettoken l (strlen l) p).2.2.2 := by
  rw [gettoken_eq] at h ⊢
  set s := skipWs l (strlen l) p
  set e := (tokenAt l (strlen l) s).2
  rcases Nat.lt_or_eq_of_le (le_skipWs e : e ≤ skipWs l (strlen l) e) with he | he
  · exact .inl (boundary_skipWs he)
  · show Sep l (skipWs l (strlen l) e)
    rw [← he]
    have hc : charAt l s ≠ 0 := fun hc => h (tokenAt_eof_iff.mpr hc)
    by_cases hsym : charAt l s ∈ symbols
    · -- a symbol token ends in a symbol byte
      obtain ⟨-, -, -, hend⟩ := (tokenAt_symbol hsym : (tokenAt l (strlen l) s).1.first = _ ∧ _)
      refine .inl (.inr ?_)
      rcases hend with hend | ⟨hend, h2⟩
      · rw [show e = s + 1 from hend, Nat.add_sub_cancel]
        exact not_isWordChar_of_symbol hsym
      · rw [show e = s + 2 from hend, show s + 2 - 1 = s + 1 by omega, h2]
        decide
    · -- a word token ends where the run stops
      have hword : e = wordEnd l (strlen l) s := by
        simp only [e, tokenAt_word hc hsym]
      by_cases hlt : e < strlen l
      · rw [hword] at hlt ⊢
        exact .inr (.inl (wordEnd_stop hlt))
      · exact .inr (.inr (by omega))

/-- Every word token of the sequence is a maximal run of word bytes. -/
theorem lex_wordRun (hp : p ≤ strlen l) (hsep : Sep l p) :
    ∀ t ∈ lex l p, t.kind = .word → WordRun l t.q t.eq := by
  induction p using lex.induct l with
  | case1 p h ih =>
    rw [lex_of_ne_eof h.1 h.2]
    intro t ht hkind
    rw [List.mem_cons] at ht
    rcases ht with rfl | ht
    · -- the first token: a word read from `s = skipWs p`
      simp only at hkind ⊢
      rw [gettoken_eq] at hkind ⊢
      set s := skipWs l (strlen l) p
      have hlt := tokenAt_lt (skipWs_le h.1) skipWs_stop (by rw [hkind]; decide)
      have hc : charAt l s ≠ 0 := charAt_ne_zero hlt.1
      have hsym : charAt l s ∉ symbols := fun hsym =>
        (tokenAt_symbol hsym : (tokenAt l (strlen l) s).1.first = _ ∧ _).2.2.1 hkind
      have hword := isWordChar_of (skipWs_stop hlt.1) hsym
      rw [tokenAt_word hc hsym]
      dsimp only
      refine ⟨lt_wordEnd hlt.1 hword, wordEnd_le hlt.1.le, fun i h₁ h₂ => wordEnd_word h₁ h₂,
        boundary_of_word hsep hword hlt.1, ?_⟩
      by_cases hend : wordEnd l (strlen l) s < strlen l
      · exact .inr (wordEnd_stop hend)
      · exact .inl (le_antisymm (wordEnd_le hlt.1.le) (by omega))
    · exact ih (gettoken_le h.1) (sep_gettoken h.2) t ht hkind
  | case2 p h =>
    rw [lex, dif_neg h]
    simp

end Words

end Xv6.Sh
