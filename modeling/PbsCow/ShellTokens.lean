import Mathlib.Data.List.DropRight
import PbsCow.ShellParser

namespace PbsCow.Shell
set_option autoImplicit true

/-- The characters of the string in the buffer. -/
def line (buf : List Char) : List Char := buf.takeWhile (· ≠ nul)

/-- The tokens of a text that starts at position `i`: blanks separate them, `>>` is one token, and a
word goes on to the next blank or symbol. -/
def lex : Nat → List Char → List Token
  | _, [] => []
  | i, c :: cs =>
    if whitespace.contains c then lex (i + 1) cs
    else if c = '>' ∧ cs.head? = some '>' then ⟨'+', i, i + 2⟩ :: lex (i + 2) cs.tail
    else if symbols.contains c then ⟨c, i, i + 1⟩ :: lex (i + 1) cs
    else
      let n := (cs.takeWhile isWord).length + 1
      ⟨'a', i, i + n⟩ :: lex (i + n) (cs.dropWhile isWord)
termination_by _ cs => cs.length
decreasing_by
  · exact Nat.lt_succ_self _
  · simp only [List.length_tail, List.length_cons]
    omega
  · exact Nat.lt_succ_self _
  · exact Nat.lt_succ_of_le (List.length_dropWhile_le _ _)

def tokens (buf : List Char) : List Token := lex 0 (line buf)

/-- The tokens that are left when the parser is at `s`. -/
def rest (buf : List Char) (s : Nat) : List Token := lex s ((line buf).drop s)

theorem rest_zero (buf : List Char) : rest buf 0 = tokens buf := by
  rw [rest, tokens, List.drop_zero]

section Line

variable {buf toks cs : List Char} {s i : Nat} {c : Char}

theorem strlen_eq : strlen buf = (line buf).length := rfl

/-- What the parser reads at `s`: the end of the line, or its next character. -/
theorem char_cases (hs : s ≤ strlen buf) :
    (s = strlen buf ∧ (line buf).drop s = [] ∧ char buf s = nul) ∨
    ∃ c cs, s < strlen buf ∧ (line buf).drop s = c :: cs ∧ char buf s = c ∧ c ≠ nul ∧
      (line buf).drop (s + 1) = cs := by
  have happ : line buf ++ buf.dropWhile (· ≠ nul) = buf := List.takeWhile_append_dropWhile
  have hchar : char buf s = (line buf ++ buf.dropWhile (· ≠ nul)).getD s nul := by rw [happ, char]
  rw [List.getD_eq_getElem?_getD] at hchar
  rw [strlen_eq] at hs ⊢
  rcases Nat.eq_or_lt_of_le hs with rfl | hlt
  · left
    refine ⟨rfl, List.drop_of_length_le (Nat.le_refl _), ?_⟩
    rw [hchar, List.getElem?_append_right (Nat.le_refl _), Nat.sub_self]
    cases hd : buf.dropWhile (· ≠ nul) with
    | nil => rfl
    | cons c cs =>
      have hc := List.head?_dropWhile_not (· ≠ nul) buf
      rw [hd] at hc
      simpa using hc
  · right
    have hc : (line buf)[s] ≠ nul := by
      have hmem : (line buf)[s] ∈ buf.takeWhile (· ≠ nul) := List.getElem_mem hlt
      simpa using List.mem_takeWhile_imp hmem
    refine ⟨(line buf)[s], _, hlt, List.drop_eq_getElem_cons hlt, ?_, hc, rfl⟩
    rw [hchar, List.getElem?_append_left hlt, List.getElem?_eq_getElem hlt, Option.getD_some]

theorem drop_scanned (p : Char → Bool) (l : List Char) (s : Nat) :
    l.drop (s + ((l.drop s).takeWhile p).length) = (l.drop s).dropWhile p := by
  rw [← List.drop_drop]
  nth_rewrite 2 [← List.takeWhile_append_dropWhile (p := p) (l := l.drop s)]
  exact List.drop_left

theorem scan_eq (p : Char → Bool) (hs : s ≤ strlen buf) :
    scan buf p (strlen buf - s) s = s + (((line buf).drop s).takeWhile p).length := by
  induction h : strlen buf - s generalizing s with
  | zero =>
    obtain rfl : s = strlen buf := by omega
    rw [scan, strlen_eq, List.drop_length, List.takeWhile_nil, List.length_nil, Nat.add_zero]
  | succ n ih =>
    rcases char_cases hs with ⟨hend, _, _⟩ | ⟨c, cs, hlt, hd, hc, _, hd'⟩
    · omega
    · rw [scan, hd, hc, List.takeWhile_cons]
      by_cases hp : p c = true
      · rw [if_pos hp, if_pos hp, ih hlt (by omega), hd', List.length_cons]
        omega
      · rw [if_neg hp, if_neg hp, List.length_nil, Nat.add_zero]

theorem scan_le (p : Char → Bool) (hs : s ≤ strlen buf) : scan buf p (strlen buf - s) s ≤ strlen buf := by
  have hle := (List.takeWhile_prefix (l := (line buf).drop s) p).length_le
  rw [List.length_drop, ← strlen_eq] at hle
  rw [scan_eq p hs]
  omega

theorem scan_drop (p : Char → Bool) (hs : s ≤ strlen buf) :
    (line buf).drop (scan buf p (strlen buf - s) s) = ((line buf).drop s).dropWhile p := by
  rw [scan_eq p hs, drop_scanned]

theorem lex_dropWhile (i : Nat) (l : List Char) :
    lex (i + (l.takeWhile whitespace.contains).length) (l.dropWhile whitespace.contains) = lex i l := by
  induction l generalizing i with
  | nil => rfl
  | cons c cs ih =>
    rw [List.takeWhile_cons, List.dropWhile_cons]
    by_cases hc : whitespace.contains c = true
    · rw [if_pos hc, if_pos hc, lex, if_pos hc, List.length_cons, ← ih (i + 1)]
      congr 1
      omega
    · rw [if_neg hc, if_neg hc, List.length_nil, Nat.add_zero]

theorem skip_le (hs : s ≤ strlen buf) : skip buf (strlen buf) s ≤ strlen buf := scan_le _ hs

theorem rest_skip (hs : s ≤ strlen buf) : rest buf (skip buf (strlen buf) s) = rest buf s := by
  rw [rest, skip, scan_drop _ hs, scan_eq _ hs, lex_dropWhile, rest]

/-- The parser stands at the end of the line, or at the first character of a token. -/
theorem skip_cases (hs : s ≤ strlen buf) :
    (skip buf (strlen buf) s = strlen buf ∧ rest buf s = []) ∨
    ∃ c cs, (line buf).drop (skip buf (strlen buf) s) = c :: cs ∧ char buf (skip buf (strlen buf) s) = c ∧
      skip buf (strlen buf) s < strlen buf ∧ c ≠ nul ∧ whitespace.contains c = false ∧
      rest buf s = lex (skip buf (strlen buf) s) (c :: cs) := by
  rcases char_cases (skip_le hs) with ⟨hend, hd, _⟩ | ⟨c, cs, hlt, hd, hc, hne, _⟩
  · left
    refine ⟨hend, ?_⟩
    rw [← rest_skip hs, rest, hd, lex]
  · right
    refine ⟨c, cs, hd, hc, hlt, hne, ?_, ?_⟩
    · have hh := List.head?_dropWhile_not whitespace.contains ((line buf).drop s)
      rw [← scan_drop _ hs] at hh
      rw [skip] at hd
      simpa [hd] using hh
    · rw [← rest_skip hs, rest, hd]

theorem lex_symbol (hb : whitespace.contains c = false) (hc : symbols.contains c = true)
    (ha : ¬(c = '>' ∧ cs.head? = some '>')) : lex i (c :: cs) = ⟨c, i, i + 1⟩ :: lex (i + 1) cs := by
  rw [lex, hb, if_neg Bool.false_ne_true, if_neg ha, if_pos hc]

/-- The `switch` of `gettoken` finds the first token of a text that does not begin with a blank. -/
theorem tokenAt_spec (hd : (line buf).drop s = c :: cs) (hs : s < strlen buf)
    (hb : whitespace.contains c = false) :
    lex s (c :: cs) = tokenAt buf (strlen buf) s :: rest buf (tokenAt buf (strlen buf) s).eq ∧
      (tokenAt buf (strlen buf) s).eq ≤ strlen buf ∧ (tokenAt buf (strlen buf) s).ret ≠ nul := by
  obtain ⟨hc, hne, hd'⟩ : char buf s = c ∧ c ≠ nul ∧ (line buf).drop (s + 1) = cs := by
    rcases char_cases (Nat.le_of_lt hs) with ⟨hend, _⟩ | ⟨_, _, _, he, hc, hne, hd'⟩
    · omega
    · rw [hd] at he
      injection he with h₁ h₂
      subst h₁ h₂
      exact ⟨hc, hne, hd'⟩
  rw [tokenAt, hc, if_neg hne]
  by_cases h₆ : c ∈ ['|', '(', ')', ';', '&', '<']
  · have hsym : symbols.contains c = true := by
      simp only [List.mem_cons, List.not_mem_nil, or_false] at h₆
      rcases h₆ with rfl | rfl | rfl | rfl | rfl | rfl <;> rfl
    have hgt : c ≠ '>' := by
      intro he
      subst he
      simp at h₆
    rw [if_pos h₆, lex_symbol hb hsym fun h => hgt h.1, rest, hd']
    exact ⟨rfl, hs, hne⟩
  · rw [if_neg h₆]
    by_cases hgt : c = '>'
    · subst hgt
      rw [if_pos rfl]
      rcases char_cases (Nat.succ_le_of_lt hs) with ⟨hend, hnil, hc'⟩ | ⟨c', cs', hlt, hcons, hc', _, hd''⟩
      · rw [hc', if_neg (by decide), lex_symbol hb rfl, rest, hd']
        · exact ⟨rfl, hs, hne⟩
        · rw [← hd', hnil]
          simp
      · rw [hc', ← hd', hcons]
        by_cases h₂ : c' = '>'
        · subst h₂
          rw [if_pos rfl, lex, hb, if_neg Bool.false_ne_true, if_pos ⟨rfl, rfl⟩, rest, hd'']
          exact ⟨rfl, hlt, (by decide : '+' ≠ nul)⟩
        · rw [if_neg h₂, lex_symbol hb rfl (fun h => h₂ (by simpa using h.2)), rest, hcons]
          exact ⟨rfl, hs, hne⟩
    · have hsym : symbols.contains c = false := by
        simp only [List.mem_cons, List.not_mem_nil, or_false, not_or] at h₆
        simp [symbols, h₆, hgt]
      have hw : isWord c = true := by rw [isWord, hb, hsym]; rfl
      have hscan := scan_eq isWord (Nat.le_of_lt hs)
      rw [hd, List.takeWhile_cons_of_pos hw, List.length_cons] at hscan
      have hdrop := scan_drop isWord (Nat.le_of_lt hs)
      rw [hd, List.dropWhile_cons_of_pos hw] at hdrop
      rw [if_neg hgt, lex, hb, if_neg Bool.false_ne_true, if_neg (fun h => hgt h.1), hsym,
        if_neg Bool.false_ne_true, rest, hdrop, hscan]
      exact ⟨rfl, hscan ▸ scan_le isWord (Nat.le_of_lt hs), (by decide : 'a' ≠ nul)⟩

/-- The character that `peek` sees of a token. -/
def Token.first (t : Token) : Char := if t.ret = '+' then '>' else t.ret

def headIn (toks : List Char) : List Token → Bool
  | [] => false
  | t :: _ => toks.contains t.first

theorem tokenAt_first (hne : char buf s ≠ nul)
    (ht : toks.all symbols.contains = true) :
    toks.contains (tokenAt buf es s).first = toks.contains (char buf s) := by
  rw [tokenAt, if_neg hne]
  by_cases h₆ : char buf s ∈ ['|', '(', ')', ';', '&', '<']
  · rw [if_pos h₆, Token.first, if_neg]
    dsimp only
    intro he
    rw [he] at h₆
    simp at h₆
  · rw [if_neg h₆]
    by_cases hgt : char buf s = '>'
    · rw [if_pos hgt, hgt]
      by_cases h₂ : char buf (s + 1) = '>'
      · rw [if_pos h₂]
        rfl
      · rw [if_neg h₂]
        rfl
    · have hna (c : Char) (hc : c ∉ symbols) : toks.contains c = false := by
        simpa using fun h => hc (by simpa using List.all_eq_true.1 ht c h)
      rw [if_neg hgt, Token.first, if_neg (by decide : 'a' ≠ '+'), hna 'a' (by decide), hna]
      simp only [List.mem_cons, List.not_mem_nil, or_false, not_or] at h₆
      simp [symbols, h₆, hgt]

theorem peek_spec (hs : s ≤ strlen buf) (ht : toks.all symbols.contains = true) :
    Wp (peek buf (strlen buf) toks) NoError
      (fun b s' => s' ≤ strlen buf ∧ rest buf s' = rest buf s ∧ b = headIn toks (rest buf s)) s := by
  simp only [peek, wp_bind, wp_get, wp_set, wp_pure]
  refine ⟨skip_le hs, rest_skip hs, ?_⟩
  rcases skip_cases hs with ⟨hend, hr⟩ | ⟨c, cs, hd, hc, hlt, hne, hb, hr⟩
  · rw [hend, hr]
    rcases char_cases (Nat.le_refl (strlen buf)) with ⟨_, _, hc⟩ | ⟨_, _, hlt, _⟩
    · simp [hc, headIn]
    · exact absurd hlt (Nat.lt_irrefl _)
  · rw [hr, (tokenAt_spec hd hlt hb).1, headIn, tokenAt_first (by rwa [hc]) ht, hc]
    simp [hne]

theorem gettoken_spec (hs : s ≤ strlen buf) :
    Wp (gettoken buf (strlen buf)) NoError
      (fun t s' => s' ≤ strlen buf ∧ (rest buf s = [] ∧ t.ret = nul ∧ rest buf s' = [] ∨
        rest buf s = t :: rest buf s' ∧ t.ret ≠ nul)) s := by
  simp only [gettoken, wp_bind, wp_get, wp_set, wp_pure]
  rcases skip_cases hs with ⟨hend, hr⟩ | ⟨c, cs, hd, hc, hlt, hne, hb, hr⟩
  · have ht : tokenAt buf (strlen buf) (strlen buf) = ⟨nul, strlen buf, strlen buf⟩ := by
      rcases char_cases (Nat.le_refl (strlen buf)) with ⟨_, _, hc⟩ | ⟨_, _, hlt, _⟩
      · rw [tokenAt, hc, if_pos rfl]
      · exact absurd hlt (Nat.lt_irrefl _)
    rw [hend, ht]
    refine ⟨skip_le (Nat.le_refl _), .inl ⟨hr, rfl, ?_⟩⟩
    rw [rest_skip (Nat.le_refl _), rest, strlen_eq, List.drop_length, lex]
  · obtain ⟨hlex, hle, hret⟩ := tokenAt_spec hd hlt hb
    exact ⟨skip_le hle, .inr ⟨by rw [hr, hlex, rest_skip hle], hret⟩⟩

end Line

end PbsCow.Shell
