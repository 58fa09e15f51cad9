import PbsCow.ShellCompleteness

namespace PbsCow.Shell
set_option autoImplicit true

/-- The string that starts at `q`. -/
def cstring (buf : List Char) (q : Nat) : List Char := (buf.drop q).takeWhile (· ≠ nul)

/-- The arguments and the file names of a command. -/
def Cmd.words : Cmd → List (Nat × Nat)
  | .execcmd argv => argv
  | .redircmd cmd file efile _ _ => cmd.words ++ [(file, efile)]
  | .pipecmd left right => left.words ++ right.words
  | .listcmd left right => left.words ++ right.words
  | .backcmd cmd => cmd.words

/-- A byte that can stand inside a word. -/
def InWord (c : Char) : Prop := isWord c = true ∧ c ≠ nul

section Lexer

variable {l : List Char} {t : Token} {i : Nat}

/-- A word token covers word characters, and stops before one that is not. -/
theorem lex_word (h : t ∈ lex i l) (ht : t.ret = 'a') :
    ∃ pre w post, l = pre ++ (w ++ post) ∧ t.q = i + pre.length ∧ t.eq = t.q + w.length ∧
      (∀ c ∈ w, isWord c = true) ∧ ∀ c, post.head? = some c → isWord c = false := by
  fun_induction lex i l with
  | case1 => cases h
  | case2 i c cs _ ih =>
    obtain ⟨pre, w, post, rfl, hq, heq, hw, hp⟩ := ih h
    exact ⟨c :: pre, w, post, rfl, by rw [hq, List.length_cons]; omega, heq, hw, hp⟩
  | case3 i c cs _ hgt ih =>
    rcases List.mem_cons.1 h with rfl | h
    · exact absurd ht (by decide : '+' ≠ 'a')
    · obtain ⟨pre, w, post, hl, hq, heq, hw, hp⟩ := ih h
      refine ⟨c :: '>' :: pre, w, post, ?_, by rw [hq, List.length_cons, List.length_cons]; omega, heq, hw, hp⟩
      rw [List.cons_append, List.cons_append, ← hl, List.cons_head?_tail hgt.2]
  | case4 i c cs _ _ hsym ih =>
    rcases List.mem_cons.1 h with rfl | h
    · subst ht
      exact absurd hsym (by decide)
    · obtain ⟨pre, w, post, rfl, hq, heq, hw, hp⟩ := ih h
      exact ⟨c :: pre, w, post, rfl, by rw [hq, List.length_cons]; omega, heq, hw, hp⟩
  | case5 i c cs hb _ hsym n ih =>
    have hcs : c :: cs = (c :: cs.takeWhile isWord) ++ cs.dropWhile isWord := by
      rw [List.cons_append, List.takeWhile_append_dropWhile]
    rcases List.mem_cons.1 h with rfl | h
    · refine ⟨[], c :: cs.takeWhile isWord, cs.dropWhile isWord, hcs, rfl, rfl, ?_, ?_⟩
      · intro c' hc'
        rcases List.mem_cons.1 hc' with rfl | hc'
        · simp only [isWord, Bool.not_eq_true] at hb hsym ⊢
          rw [hb, hsym]
          rfl
        · exact List.mem_takeWhile_imp hc'
      · intro c' hc'
        have hh := List.head?_dropWhile_not isWord cs
        rw [hc'] at hh
        simpa using hh
    · obtain ⟨pre, w, post, hl, hq, heq, hw, hp⟩ := ih h
      refine ⟨(c :: cs.takeWhile isWord) ++ pre, w, post, ?_, ?_, heq, hw, hp⟩
      · rw [List.append_assoc, ← hl]
        exact hcs
      · rw [hq, List.length_append, List.length_cons]
        omega

end Lexer

section Words

variable {buf : List Char} {t : Token}

theorem char_line (hj : j < strlen buf) : (line buf)[j]? = some (char buf j) ∧ char buf j ≠ nul := by
  rcases char_cases (Nat.le_of_lt hj) with ⟨he, _⟩ | ⟨c, cs, _, hd, hc, hne, _⟩
  · omega
  · have hh := congrArg List.head? hd
    rw [List.head?_drop] at hh
    rw [hc]
    exact ⟨hh, hne⟩

theorem char_strlen (buf : List Char) : char buf (strlen buf) = nul := by
  rcases char_cases (Nat.le_refl (strlen buf)) with ⟨_, _, hc⟩ | ⟨_, _, hlt, _⟩
  · exact hc
  · exact absurd hlt (Nat.lt_irrefl _)

/-- A word of the line: its bytes can stand inside a word, and the byte at its end cannot. -/
theorem tokens_word (h : t ∈ tokens buf) (ht : t.ret = 'a') :
    t.q ≤ t.eq ∧ (∀ j, t.q ≤ j → j < t.eq → InWord (char buf j)) ∧ ¬InWord (char buf t.eq) := by
  obtain ⟨pre, w, post, hl, hq, heq, hw, hp⟩ := lex_word h ht
  rw [Nat.zero_add] at hq
  have hlen : strlen buf = pre.length + (w.length + post.length) := by
    rw [strlen_eq, hl, List.length_append, List.length_append]
  refine ⟨by omega, ?_, ?_⟩
  · intro j hqj hj
    obtain ⟨hc, hne⟩ := char_line (show j < strlen buf by omega)
    rw [hl, List.getElem?_append_right (by omega), List.getElem?_append_left (by omega)] at hc
    exact ⟨hw _ (List.mem_of_getElem? hc), hne⟩
  · intro hin
    have hlt : t.eq < strlen buf := by
      by_contra hge
      obtain rfl | hlt : post = [] ∨ 0 < post.length := by
        cases post with
        | nil => exact .inl rfl
        | cons => exact .inr (Nat.succ_pos _)
      · have he : t.eq = strlen buf := by
          rw [hlen, List.length_nil]
          omega
        rw [he] at hin
        exact hin.2 (char_strlen buf)
      · omega
    obtain ⟨hc, _⟩ := char_line hlt
    rw [hl, List.getElem?_append_right (by omega), List.getElem?_append_right (by omega),
      show t.eq - pre.length - w.length = 0 by omega, ← List.head?_eq_getElem?] at hc
    have hno := hp _ hc
    rw [hin.1] at hno
    cases hno

end Words

section Strings

variable {buf b : List Char} {i j q e : Nat}

theorem char_set : char (buf.set j nul) i = if j = i then nul else char buf i := by
  rw [char, List.getD_eq_getElem?_getD, List.getElem?_set]
  by_cases hji : j = i
  · rw [if_pos hji, if_pos hji]
    by_cases hlt : j < buf.length
    · rw [if_pos hlt, Option.getD_some]
    · rw [if_neg hlt, Option.getD_none]
  · rw [if_neg hji, if_neg hji, char, List.getD_eq_getElem?_getD]

def endWords (ws : List (Nat × Nat)) (buf : List Char) : List Char :=
  ws.foldl (fun buf w => buf.set w.2 nul) buf

theorem nulterminate_eq (c : Cmd) (buf : List Char) : nulterminate c buf = endWords c.words buf := by
  induction c generalizing buf with
  | execcmd argv => rfl
  | redircmd c file efile mode fd ih =>
    rw [nulterminate, ih, Cmd.words, endWords, endWords, List.foldl_append]
    rfl
  | pipecmd left right ihl ihr => rw [nulterminate, ihl, ihr, Cmd.words, endWords, endWords, endWords, List.foldl_append]
  | listcmd left right ihl ihr => rw [nulterminate, ihl, ihr, Cmd.words, endWords, endWords, endWords, List.foldl_append]
  | backcmd c ih => rw [nulterminate, ih, Cmd.words]

theorem char_endWords_of_not_mem (h : ∀ w ∈ ws, w.2 ≠ i) : char (endWords ws buf) i = char buf i := by
  induction ws generalizing buf with
  | nil => rfl
  | cons w ws ih =>
    have hi : char (endWords ws (buf.set w.2 nul)) i = char (buf.set w.2 nul) i :=
      ih fun w' hw' => h w' (List.mem_cons_of_mem _ hw')
    rw [char_set, if_neg (h w List.mem_cons_self)] at hi
    exact hi

theorem char_endWords_of_nul (h : char buf i = nul) : char (endWords ws buf) i = nul := by
  induction ws generalizing buf with
  | nil => exact h
  | cons w ws ih =>
    apply ih
    rw [char_set, h]
    exact ite_self nul

theorem char_endWords_of_mem (h : w ∈ ws) : char (endWords ws buf) w.2 = nul := by
  induction ws generalizing buf with
  | nil => cases h
  | cons w' ws ih =>
    rcases List.mem_cons.1 h with rfl | h
    · have hset : char (buf.set w.2 nul) w.2 = nul := by rw [char_set, if_pos rfl]
      rw [endWords, List.foldl_cons]
      exact char_endWords_of_nul hset
    · exact ih h

theorem drop_of_char (h : char buf q ≠ nul) : buf.drop q = char buf q :: buf.drop (q + 1) := by
  by_cases hq : q < buf.length
  · rw [List.drop_eq_getElem_cons hq, char, List.getD_eq_getElem?_getD, List.getElem?_eq_getElem hq,
      Option.getD_some]
  · rw [char, List.getD_eq_getElem?_getD, List.getElem?_eq_none (by omega)] at h
    exact absurd rfl h

theorem cstring_of_nul (h : char b q = nul) : cstring b q = [] := by
  rw [cstring]
  cases hd : b.drop q with
  | nil => rfl
  | cons c cs =>
    have hc : b[q]? = some c := by rw [← List.head?_drop, hd]; rfl
    rw [char, List.getD_eq_getElem?_getD, hc, Option.getD_some] at h
    rw [List.takeWhile_cons, if_neg (by simp [h])]

/-- A string that agrees with the line up to a zero byte at `e`. -/
theorem cstring_eq (hqe : q ≤ e) (he : char b e = nul)
    (h : ∀ j, q ≤ j → j < e → char b j = char buf j ∧ char buf j ≠ nul) :
    cstring b q = (buf.drop q).take (e - q) := by
  induction hn : e - q generalizing q with
  | zero =>
    obtain rfl : q = e := by omega
    rw [cstring_of_nul he, List.take_zero]
  | succ n ih =>
    obtain ⟨hc, hne⟩ := h q (Nat.le_refl q) (by omega)
    have htail : cstring b (q + 1) = (buf.drop (q + 1)).take n := ih (by omega) (fun j hj => h j (by omega)) (by omega)
    rw [cstring] at htail ⊢
    rw [drop_of_char hne, drop_of_char (by rwa [hc]), hc, List.takeWhile_cons, if_pos (by simpa using hne), htail,
      List.take_succ_cons]

end Strings

theorem Cmd.words_redirs (rs : List Redir) (c : Cmd) :
    (rs.foldl Cmd.redir c).words = c.words ++ rs.map fun r => (r.file, r.efile) := by
  induction rs generalizing c with
  | nil => simp
  | cons r rs ih =>
    rw [List.foldl_cons, ih, Cmd.redir, Cmd.words, List.append_assoc]
    rfl

theorem Cmd.words_backs (n : Nat) (c : Cmd) : (Cmd.backcmd^[n] c).words = c.words := by
  induction n generalizing c with
  | zero => rfl
  | succ n ih => exact ih (.backcmd c)

/-- The word at `w` is one of the tokens. -/
def IsToken (ts : List Token) (w : Nat × Nat) : Prop := ∃ t ∈ ts, t.ret = 'a' ∧ w = (t.q, t.eq)

theorem IsToken.mono (h : IsToken ts w) (hs : ∀ t ∈ ts, t ∈ us) : IsToken us w := by
  obtain ⟨t, ht, hret, he⟩ := h
  exact ⟨t, hs t ht, hret, he⟩

theorem Redirs.words (h : Redirs ts rs) : ∀ r ∈ rs, IsToken ts (r.file, r.efile) := by
  induction h with
  | nil => simp
  | cons ho hw _ ih =>
    intro r hr
    rcases List.mem_cons.1 hr with rfl | hr
    · exact ⟨_, by simp, hw, rfl⟩
    · exact (ih r hr).mono fun t ht => by simp [ht]

theorem Args.words (h : Args ts args rs) :
    (∀ w ∈ args, IsToken ts w) ∧ ∀ r ∈ rs, IsToken ts (r.file, r.efile) := by
  induction h with
  | nil => simp
  | cons hw hr _ ih =>
    constructor
    · intro w hmem
      rcases List.mem_cons.1 hmem with rfl | hmem
      · exact ⟨_, by simp, hw, rfl⟩
      · exact (ih.1 w hmem).mono fun t ht => by simp [ht]
    · intro r hmem
      rcases List.mem_append.1 hmem with hmem | hmem
      · exact (hr.words r hmem).mono fun t ht => by simp [ht]
      · exact (ih.2 r hmem).mono fun t ht => by simp [ht]

theorem Derives.words (h : Derives nt ts c) : ∀ w ∈ c.words, IsToken ts w := by
  induction h with
  | line _ _ ih =>
    intro w hw
    rw [Cmd.words_backs] at hw
    exact (ih w hw).mono fun t ht => by simp [ht]
  | list _ _ _ _ ihp ihl =>
    intro w hw
    rw [Cmd.words, Cmd.words_backs] at hw
    rcases List.mem_append.1 hw with hw | hw
    · exact (ihp w hw).mono fun t ht => by simp [ht]
    · exact (ihl w hw).mono fun t ht => by simp [ht]
  | exec _ ih => exact ih
  | pipe _ _ _ ihe ihp =>
    intro w hw
    rcases List.mem_append.1 hw with hw | hw
    · exact (ihe w hw).mono fun t ht => by simp [ht]
    · exact (ihp w hw).mono fun t ht => by simp [ht]
  | block _ _ _ hr ih =>
    intro w hw
    rw [Cmd.words_redirs] at hw
    rcases List.mem_append.1 hw with hw | hw
    · exact (ih w hw).mono fun t ht => by simp [ht]
    · obtain ⟨r, hr', rfl⟩ := List.mem_map.1 hw
      exact (hr.words r hr').mono fun t ht => by simp [ht]
  | simple hr ha _ =>
    intro w hw
    rw [Cmd.words_redirs] at hw
    rcases List.mem_append.1 hw with hw | hw
    · exact (ha.words.1 w hw).mono fun t ht => by simp [ht]
    · obtain ⟨r, hr', rfl⟩ := List.mem_map.1 hw
      rcases List.mem_append.1 hr' with hr' | hr'
      · exact (hr.words r hr').mono fun t ht => by simp [ht]
      · exact (ha.words.2 r hr').mono fun t ht => by simp [ht]

/-- The end of one word is not inside another, so ending all the words leaves each as it was. -/
theorem cstring_nulterminate (h : Derives .line (tokens buf) cmd) (hw : w ∈ cmd.words) :
    ∃ t ∈ tokens buf, t.ret = 'a' ∧ w = (t.q, t.eq) ∧
      cstring (nulterminate cmd buf) t.q = (buf.drop t.q).take (t.eq - t.q) := by
  obtain ⟨t, ht, hret, rfl⟩ := h.words w hw
  obtain ⟨hle, hin, _⟩ := tokens_word ht hret
  refine ⟨t, ht, hret, rfl, ?_⟩
  rw [nulterminate_eq]
  apply cstring_eq hle (char_endWords_of_mem hw)
  intro j hqj hj
  refine ⟨char_endWords_of_not_mem ?_, (hin j hqj hj).2⟩
  rintro w' hw' rfl
  obtain ⟨t', ht', hret', rfl⟩ := h.words w' hw'
  exact (tokens_word ht' hret').2.2 (hin _ hqj hj)

theorem rest_nil (hs : s ≤ strlen buf) : skip buf (strlen buf) s = strlen buf ↔ rest buf s = [] := by
  rcases skip_cases hs with ⟨hend, hr⟩ | ⟨c, cs, hd, _, hlt, _, hb, hr⟩
  · exact ⟨fun _ => hr, fun _ => hend⟩
  · rw [hr, (tokenAt_spec hd hlt hb).1]
    constructor
    · intro he
      omega
    · intro he
      cases he

theorem parseall_sound (buf : List Char) (k : Nat) :
    Wp (parseall (need (tokens buf).length .line + k) buf) Ends (fun c _ => Derives .line (tokens buf) c) 0 := by
  have hline := (sound buf (need (tokens buf).length .line + k)).line 0 (Nat.zero_le _)
    (by rw [rest_zero, need]; omega)
  apply hline.bind
  intro c s hp
  obtain ⟨hs, ts, hr, hd⟩ := hp
  rw [rest_zero] at hr
  simp only [peek, wp_bind, wp_get, wp_set, wp_pure]
  apply Wp.ite
  · intro _
    exact wp_panic
  · intro he
    rw [(rest_nil hs).1 (not_not.1 he), List.append_nil] at hr
    rw [hr]
    exact hd

theorem parseall_complete (h : Derives .line (tokens buf) cmd) (k : Nat) :
    Wp (parseall (need (tokens buf).length .line + k) buf) NoError (fun c _ => c = cmd) 0 := by
  have hline := h.complete 0 [] (need (tokens buf).length .line + k) (Nat.zero_le _)
    (by rw [rest_zero, List.append_nil]) (.inl rfl) (by rw [rest_zero]; omega)
  apply Wp.bind hline
  intro c s hp
  obtain ⟨hs, hr, rfl⟩ := hp
  simp only [peek, wp_bind, wp_get, wp_set, wp_pure]
  apply Wp.ite_neg (not_not.2 ((rest_nil hs).2 hr))
  rfl

/-- With any fuel from the number of tokens on, `parsecmd` ends, accepts the lines of the grammar with the
command of the derivation, and leaves each word of the command as a string. -/
theorem parsecmd_grammar (buf : List Char) (k : Nat) :
    let run := parsecmd (need (tokens buf).length .line + k) buf
    run ≠ .error .endless ∧
    (∀ cmd, (∃ buf', run = .ok (cmd, buf')) ↔ Derives .line (tokens buf) cmd) ∧
    (∀ cmd cmd', Derives .line (tokens buf) cmd → Derives .line (tokens buf) cmd' → cmd = cmd') ∧
    ∀ cmd buf', run = .ok (cmd, buf') → ∀ w ∈ cmd.words, ∃ t ∈ tokens buf, t.ret = 'a' ∧ w = (t.q, t.eq) ∧
      cstring buf' t.q = (buf.drop t.q).take (t.eq - t.q) := by
  have hsound := parseall_sound buf k
  have hcomplete {cmd} (h : Derives .line (tokens buf) cmd) := parseall_complete h k
  dsimp only [parsecmd]
  cases hp : parseall (need (tokens buf).length .line + k) buf 0 with
  | error e =>
    have hno {cmd} (h : Derives .line (tokens buf) cmd) : False := (hcomplete h).of_eq_error hp
    refine ⟨?_, ?_, fun _ _ h _ => (hno h).elim, ?_⟩
    · intro he
      injection he with he
      exact hsound.of_eq_error hp he
    · intro cmd
      constructor
      · intro h
        obtain ⟨_, h⟩ := h
        cases h
      · intro h
        exact (hno h).elim
    · intro _ _ h
      cases h
  | ok r =>
    have hd : Derives .line (tokens buf) r.1 := hsound.of_eq_ok hp
    have huniq {cmd} (h : Derives .line (tokens buf) cmd) : r.1 = cmd := (hcomplete h).of_eq_ok hp
    refine ⟨?_, ?_, fun _ _ h h' => (huniq h).symm.trans (huniq h'), ?_⟩
    · intro he
      cases he
    · intro cmd
      constructor
      · intro h
        obtain ⟨_, h⟩ := h
        injection h with h
        injection h with h
        exact h ▸ hd
      · intro h
        obtain rfl := huniq h
        exact ⟨_, rfl⟩
    · intro cmd buf' h w hw
      injection h with h
      injection h with h₁ h₂
      subst h₁ h₂
      exact cstring_nulterminate hd hw

end PbsCow.Shell
