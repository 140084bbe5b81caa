import Xv6.StarPattern

/-!
# grep

`grep.c`: the regular-expression matcher of Kernighan and Pike (`match`,
`matchhere`, `matchstar`) and the loop that reads the input into `buf` and
writes the lines the pattern matches.  A C string is the list of its
characters before the NUL, so `*s == '\0'` is the end of the list.

`match_iff_found` says what the matcher decides: the pattern, without a
leading `'^'`, is read left to right into the pieces of a star pattern
(`pieces`), and `match` says whether the text has a factor in their
language, a prefix after a `'^'` and a suffix before a final `'$'`.

The reading loop carries a line that a read cut off over to the next read,
but empties `buf` whenever it holds no newline at all (`p == buf`).  When
every read brings a newline, grep writes exactly the lines the pattern
matches (`grep_of_newline_chunks`); a read without one drops what `buf`
held (`grepLoop_drop`), so a line that arrives in two reads is lost.
-/

namespace Xv6.Grep

open StarPattern

/-! ## The matcher -/

/-- `matchstar(c, re, text)`: search for `c*re` at the beginning of `text`,
with `matchhere(re, ·)` as `here`.  The do-while loop tries `here`, then
steps over one character while it is `c` (any character when `c` is
`'.'`). -/
def matchstar (here : List Char → Bool) (c : Char) : List Char → Bool
  | [] => here []
  | t :: text => here (t :: text) || ((t == c || c == '.') && matchstar here c text)

/-- `matchhere(re, text)`: search for `re` at the beginning of `text`. -/
def matchhere : List Char → List Char → Bool
  | [], _ => true
  | c :: '*' :: re, text => matchstar (matchhere re) c text
  | ['$'], text => text.isEmpty
  | _ :: _, [] => false
  | c :: re, t :: text => (c == '.' || c == t) && matchhere re text

/-- `match(re, text)`: search for `re` anywhere in `text`.  Without a
leading `'^'` the do-while loop tries `matchhere` at every suffix of `text`,
the empty one last. -/
def match' : List Char → List Char → Bool
  | '^' :: re, text => matchhere re text
  | re, text => text.tails.any (matchhere re)

/-! ## What the matcher decides -/

/-- The characters a pattern character stands for: any one for `'.'`,
itself otherwise. -/
def atom (c t : Char) : Bool := c == '.' || t == c

/-- The pattern read left to right: a character followed by `'*'` stands for
any number of its characters, a final `'$'` pins the match to the end of the
text (the second component), and any other character stands for one of its
characters. -/
def pieces : List Char → List (Piece Char) × Bool
  | [] => ([], false)
  | c :: '*' :: re => (.star (atom c) :: (pieces re).1, (pieces re).2)
  | ['$'] => ([], true)
  | c :: re => (.one (atom c) :: (pieces re).1, (pieces re).2)

/-- The pattern after a leading `'^'`. -/
def body : List Char → List Char
  | '^' :: re => re
  | re => re

/-- The end is pinned exactly when the pattern ends with `'$'`: a `'$'`
that is not last stands for itself, and a last one cannot be a starred
character. -/
theorem pieces_snd (re : List Char) : (pieces re).2 = true ↔ re.getLast? = some '$' := by
  induction re using pieces.induct with
  | case1 => simp [pieces]
  | case2 c re ih =>
    rw [pieces, ih]
    cases re <;> simp
  | case3 => simp [pieces]
  | case4 c re hstar hdollar ih =>
    rw [pieces.eq_4 c re hstar hdollar, ih]
    cases re with
    | nil => simpa using hdollar
    | cons d re => simp

section Search

variable {ps : List (Piece Char)} {stop : Prop}

/-- matchstar's loop, given that `here` is a search for the rest of the
pattern. -/
theorem matchstar_iff {here : List Char → Bool} (c : Char)
    (hhere : ∀ t, here t = true ↔ StartsWith (lang ps) stop t) (text : List Char) :
    matchstar here c text = true ↔ StartsWith (lang (.star (atom c) :: ps)) stop text := by
  induction text with
  | nil =>
    rw [startsWith_star]
    simp [matchstar, hhere]
  | cons t text ih =>
    rw [startsWith_star]
    simp [matchstar, hhere, ih, atom, Bool.or_comm]

theorem matchhere_iff (re text : List Char) :
    matchhere re text = true ↔ StartsWith (lang (pieces re).1) (pieces re).2 text := by
  induction re using pieces.induct generalizing text with
  | case1 => simp [matchhere, pieces, startsWith_nil]
  | case2 c re ih =>
    exact matchstar_iff c (fun t => ih t) text
  | case3 => simp [matchhere, pieces, startsWith_nil]
  | case4 c re hstar hdollar ih =>
    rw [pieces.eq_4 c re hstar hdollar, startsWith_one]
    cases text with
    | nil => simp [matchhere.eq_4 c re hstar hdollar]
    | cons t text =>
      rw [matchhere.eq_5 c re t text hstar hdollar]
      simp [ih, atom, @eq_comm _ c t]

end Search

/-- `match(re, text)` returns 1 exactly when `text` has a factor in the
language of the pattern after a leading `'^'`, pinned to the start of the
text when there is a `'^'` and to its end when that pattern ends with
`'$'`. -/
theorem match_iff_found (re text : List Char) :
    match' re text = true ↔
      Found (lang (pieces (body re)).1) (re.head? = some '^') ((body re).getLast? = some '$')
        text := by
  rw [← pieces_snd]
  by_cases hc : re.head? = some '^'
  · -- the search pinned to the start
    obtain ⟨re, rfl⟩ : ∃ re', re = '^' :: re' := by
      cases re with
      | nil => simp at hc
      | cons c re => exact ⟨re, by simpa using hc⟩
    rw [found_of_start hc]
    exact matchhere_iff re text
  · have hmatch : match' re text = text.tails.any (matchhere re) := by
      unfold match'
      split <;> simp_all
    have hbody : body re = re := by
      unfold body
      split <;> simp_all
    rw [hmatch, hbody, found_of_not_start hc, List.any_eq_true]
    simp only [matchhere_iff]

/-! ## The reading loop -/

/-- `sizeof(buf)`. -/
def bufsize : Nat := 1024

/-- `strchr(s, c)` of `ulib.c`: the characters of `s` before the first `c`
and those after it; `none` when the NUL comes first. -/
def strchr (s : List Char) (c : Char) : Option (List Char × List Char) :=
  match s with
  | [] => none
  | x :: s =>
    if x = '\x00' then none
    else if x = c then some ([], s)
    else (strchr s c).map fun (l, r) => (x :: l, r)

theorem strchr_some {s l r : List Char} {c : Char} (h : strchr s c = some (l, r)) :
    s = l ++ c :: r ∧ c ∉ l := by
  induction s generalizing l with
  | nil => simp [strchr] at h
  | cons x s ih =>
    unfold strchr at h
    split_ifs at h with h0 hc
    · obtain ⟨rfl, rfl⟩ := Prod.mk.inj (Option.some.inj h)
      simp [hc]
    · obtain ⟨⟨l', r'⟩, hs, hl⟩ := Option.map_eq_some_iff.mp h
      obtain ⟨rfl, rfl⟩ := Prod.mk.inj hl
      obtain ⟨rfl, hl'⟩ := ih hs
      simp [hl', Ne.symm hc]

/-- Without a NUL in `s`, `strchr` finds `c` whenever it is there. -/
theorem strchr_none {s : List Char} {c : Char} (h0 : '\x00' ∉ s) (h : strchr s c = none) :
    c ∉ s := by
  induction s with
  | nil => simp
  | cons x s ih =>
    have hx : x ≠ '\x00' := fun hx => h0 (hx ▸ List.mem_cons_self)
    unfold strchr at h
    rw [if_neg hx] at h
    split_ifs at h with hc
    rw [Option.map_eq_none_iff] at h
    simp only [List.mem_cons, not_or]
    exact ⟨Ne.symm hc, ih (fun h' => h0 (List.mem_cons_of_mem x h')) h⟩

-- `h` is used by the termination proof only
set_option linter.unusedVariables false in
/-- The inner `while` loop, over the bytes from `p` to `buf + m`: what it
writes to fd 1, and the bytes from where `p` stops. -/
def scanLines (pattern p : List Char) : List Char × List Char :=
  match h : strchr p '\n' with
  | none => ([], p)
  | some (line, q) =>
    -- `*q = 0` ends the line for `match`; a matching line is written with its newline
    let rest := scanLines pattern q
    ((if match' pattern line then line ++ ['\n'] else []) ++ rest.1, rest.2)
termination_by p.length
decreasing_by
  have hp := congrArg List.length (strchr_some h).1
  simp only [List.length_append, List.length_cons] at hp
  omega

/-- The outer `while` loop, with the `m` bytes at `buf` in `carry`: each
`read` returns the next of `chunks`, and 0 once they are used up.  `none` is
a chunk longer than the `sizeof(buf)-m-1` bytes asked for, which no `read`
returns. -/
def grepLoop (pattern carry : List Char) : List (List Char) → Option (List Char)
  | [] => some []
  | chunk :: chunks =>
    if chunk = [] then some []
    else if bufsize - carry.length - 1 < chunk.length then none
    else
      let buf := carry ++ chunk
      let scan := scanLines pattern buf
      -- `p == buf`, as offsets into `buf`: no newline, and `m = 0` drops the
      -- buffer; otherwise the bytes from `p` move to its front
      let carry := if scan.2.length = buf.length then [] else scan.2
      (grepLoop pattern carry chunks).map (scan.1 ++ ·)

/-- `grep(pattern, fd)`: what it writes to fd 1 when the reads of `fd`
return `chunks`. -/
def grep (pattern : List Char) (chunks : List (List Char)) : Option (List Char) :=
  grepLoop pattern [] chunks

/-- `strchr` finds only what is there. -/
theorem strchr_of_not_mem {s : List Char} {c : Char} (h : c ∉ s) : strchr s c = none := by
  cases hs : strchr s c with
  | none => rfl
  | some lr =>
    obtain ⟨hsplit, -⟩ := strchr_some hs
    exact absurd (hsplit ▸ List.mem_append_right _ List.mem_cons_self) h

/-! ## What grep writes -/

/-- The newline-terminated lines of `s`, without their newlines. -/
def completeLines (s : List Char) : List (List Char) := (s.splitOn '\n').dropLast

/-- The characters of `s` after its last newline. -/
def lastLine (s : List Char) : List Char := (s.splitOn '\n').getLast (List.splitOn_ne_nil _ _)

/-- The lines of `s` that `pattern` matches, each with its newline, in
order. -/
def matchedLines (pattern s : List Char) : List Char :=
  ((completeLines s).filter (match' pattern)).flatMap (· ++ ['\n'])

section Lines

variable {l s : List Char}

/-- Induction over the lines of a text: a text without a newline, or a
line, its newline and the rest. -/
@[elab_as_elim]
theorem lines_induction {motive : List Char → Prop} (last : ∀ l, '\n' ∉ l → motive l)
    (line : ∀ l s, '\n' ∉ l → motive s → motive (l ++ '\n' :: s)) (s : List Char) : motive s := by
  induction hn : s.length using Nat.strong_induction_on generalizing s with
  | _ n ih =>
    by_cases hs : '\n' ∈ s
    · -- split at the first newline
      obtain ⟨l, r, hl, rfl, -⟩ := List.exists_erase_eq hs
      simp only [List.length_append, List.length_cons] at hn
      exact line l r hl (ih r.length (by omega) r rfl)
    · exact last s hs

theorem completeLines_of_not_mem (h : '\n' ∉ l) : completeLines l = [] := by
  simp [completeLines, List.splitOn_eq_singleton h]

theorem lastLine_of_not_mem (h : '\n' ∉ l) : lastLine l = l := by
  simp [lastLine, List.splitOn_eq_singleton h]

theorem completeLines_line (h : '\n' ∉ l) (s : List Char) :
    completeLines (l ++ '\n' :: s) = l :: completeLines s := by
  rw [completeLines, List.splitOn_append_cons_self_of_not_mem h,
    List.dropLast_cons_of_ne_nil (List.splitOn_ne_nil _ _)]
  rfl

theorem lastLine_line (h : '\n' ∉ l) (s : List Char) : lastLine (l ++ '\n' :: s) = lastLine s := by
  simp only [lastLine, List.splitOn_append_cons_self_of_not_mem h]
  exact List.getLast_cons (List.splitOn_ne_nil _ _)

theorem lastLine_suffix (s : List Char) : lastLine s <:+ s := by
  induction s using lines_induction with
  | last l hl => rw [lastLine_of_not_mem hl]
  | line l s hl ih =>
    rw [lastLine_line hl]
    exact ih.trans (List.suffix_append_of_suffix (List.suffix_cons _ _))

theorem newline_not_mem_lastLine (s : List Char) : '\n' ∉ lastLine s := by
  induction s using lines_induction with
  | last l hl => rwa [lastLine_of_not_mem hl]
  | line l s hl ih => rwa [lastLine_line hl]

theorem lastLine_length_lt (h : '\n' ∈ s) : (lastLine s).length < s.length := by
  obtain ⟨l, r, hl, rfl, -⟩ := List.exists_erase_eq h
  rw [lastLine_line hl]
  have := (lastLine_suffix r).length_le
  simp only [List.length_append, List.length_cons]
  omega

/-- The lines of a text cut in two: those of the first part, then those
of its last line followed by the second part. -/
theorem completeLines_append (s t : List Char) :
    completeLines (s ++ t) = completeLines s ++ completeLines (lastLine s ++ t) := by
  induction s using lines_induction with
  | last l hl => rw [completeLines_of_not_mem hl, lastLine_of_not_mem hl, List.nil_append]
  | line l s hl ih =>
    rw [List.append_assoc, List.cons_append, completeLines_line hl, completeLines_line hl,
      lastLine_line hl, ih, List.cons_append]

theorem matchedLines_append (pattern s t : List Char) :
    matchedLines pattern (s ++ t) =
      matchedLines pattern s ++ matchedLines pattern (lastLine s ++ t) := by
  rw [matchedLines, matchedLines, matchedLines, completeLines_append, List.filter_append,
    List.flatMap_append]

end Lines

/-! ## The reading loop, line by line -/

section Loop

variable {pattern : List Char}

/-- Without a NUL in what `p` points to, the inner loop writes the matched
lines there and stops at the last line. -/
theorem scanLines_eq {p : List Char} (h0 : '\x00' ∉ p) :
    scanLines pattern p = (matchedLines pattern p, lastLine p) := by
  induction p using scanLines.induct pattern with
  | case1 p hnone =>
    have hp := strchr_none h0 hnone
    rw [scanLines, hnone]
    simp [matchedLines, completeLines_of_not_mem hp, lastLine_of_not_mem hp]
  | case2 p line q hsome ih =>
    obtain ⟨rfl, hl⟩ := strchr_some hsome
    have hq : '\x00' ∉ q := fun hq => h0 (List.mem_append_right _ (List.mem_cons_of_mem _ hq))
    rw [scanLines, hsome]
    simp only [ih hq, matchedLines, completeLines_line hl, lastLine_line hl, List.filter_cons]
    split <;> simp

theorem scanLines_of_not_mem {p : List Char} (h : '\n' ∉ p) : scanLines pattern p = ([], p) := by
  rw [scanLines]
  split
  · rfl
  · rename_i hsome
    simp [strchr_of_not_mem h] at hsome

/-- A read that leaves `buf` without a newline drops it: from there the
loop writes what it writes from an empty buffer. -/
theorem grepLoop_drop {carry chunk : List Char} {chunks : List (List Char)} (hchunk : chunk ≠ [])
    (hfit : chunk.length ≤ bufsize - carry.length - 1) (hnl : '\n' ∉ carry ++ chunk) :
    grepLoop pattern carry (chunk :: chunks) = grepLoop pattern [] chunks := by
  rw [grepLoop, if_neg hchunk, if_neg (by omega)]
  simp [scanLines_of_not_mem hnl]

/-- While every read brings a newline, the loop writes the matched lines of
what it reads after the line it carries. -/
theorem grepLoop_of_newline_chunks {carry out : List Char} {chunks : List (List Char)}
    (hcarry : '\n' ∉ carry) (hcarry0 : '\x00' ∉ carry) (hnl : ∀ c ∈ chunks, '\n' ∈ c)
    (h0 : ∀ c ∈ chunks, '\x00' ∉ c) (h : grepLoop pattern carry chunks = some out) :
    out = matchedLines pattern (carry ++ chunks.flatten) := by
  induction chunks generalizing carry out with
  | nil =>
    simp only [grepLoop, Option.some.injEq] at h
    simp [← h, matchedLines, completeLines_of_not_mem hcarry]
  | cons chunk chunks ih =>
    have hchunk : chunk ≠ [] := List.ne_nil_of_mem (hnl chunk List.mem_cons_self)
    have hbuf0 : '\x00' ∉ carry ++ chunk := by
      simpa [hcarry0] using h0 chunk List.mem_cons_self
    have hlt := lastLine_length_lt (List.mem_append_right carry (hnl chunk List.mem_cons_self))
    rw [grepLoop, if_neg hchunk] at h
    split_ifs at h with hfit
    -- `p` has moved past the newline, so the last line is carried over
    simp only [scanLines_eq hbuf0, hlt.ne, ite_false] at h
    obtain ⟨out', h', rfl⟩ := Option.map_eq_some_iff.mp h
    have hlast0 : '\x00' ∉ lastLine (carry ++ chunk) :=
      fun hm => hbuf0 ((lastLine_suffix _).subset hm)
    rw [ih (newline_not_mem_lastLine _) hlast0 (fun c hc => hnl c (List.mem_cons_of_mem _ hc))
      (fun c hc => h0 c (List.mem_cons_of_mem _ hc)) h', ← matchedLines_append,
      List.flatten_cons, List.append_assoc]

end Loop

/-- When every read brings a newline and the input has no NUL, grep writes
exactly the newline-terminated lines of the input that the pattern matches,
each with its newline, in input order. -/
theorem grep_of_newline_chunks {pattern out : List Char} {chunks : List (List Char)}
    (hnl : ∀ c ∈ chunks, '\n' ∈ c) (h0 : ∀ c ∈ chunks, '\x00' ∉ c)
    (h : grep pattern chunks = some out) : out = matchedLines pattern chunks.flatten :=
  grepLoop_of_newline_chunks List.not_mem_nil List.not_mem_nil hnl h0 h

/-- The same line, read at once and read in two parts: grep writes it in
the first run, and in the second drops its first part with `buf` and
matches the empty line that the newline then ends. -/
theorem grep_chunking_loses_line (pattern l : List Char) (hl : l ≠ []) (hnl : '\n' ∉ l)
    (h0 : '\x00' ∉ l) (hlen : l.length < bufsize - 1) (hm : match' pattern l = true) :
    grep pattern [l ++ ['\n']] = some (l ++ ['\n']) ∧
      grep pattern [l, ['\n']] = some (if match' pattern [] then ['\n'] else []) := by
  have hnewline : completeLines ['\n'] = [[]] := completeLines_line List.not_mem_nil []
  constructor
  · have hbuf0 : '\x00' ∉ l ++ ['\n'] := by simp [h0]
    rw [grep, grepLoop, if_neg (by simp), if_neg (by simp only [bufsize] at hlen ⊢; simp; omega)]
    simp [scanLines_eq hbuf0, matchedLines, completeLines_line hnl, lastLine_line hnl,
      completeLines_of_not_mem List.not_mem_nil, lastLine_of_not_mem List.not_mem_nil, hm,
      grepLoop]
  · rw [grep, grepLoop_drop hl (by simp only [bufsize] at hlen ⊢; simp; omega) (by simpa using hnl),
      grepLoop, if_neg (by simp), if_neg (by simp [bufsize])]
    have hlast : lastLine ['\n'] = [] := lastLine_line List.not_mem_nil []
    simp [scanLines_eq (by decide : '\x00' ∉ ['\n']), matchedLines, hnewline, hlast, grepLoop]
    split <;> simp [*]

theorem grep_ab_split :
    grep ['a'] [['a', 'b', '\n']] = some ['a', 'b', '\n'] ∧
      grep ['a'] [['a', 'b'], ['\n']] = some [] :=
  grep_chunking_loses_line ['a'] ['a', 'b'] (by decide) (by decide) (by decide) (by decide)
    (by decide)

end Xv6.Grep
