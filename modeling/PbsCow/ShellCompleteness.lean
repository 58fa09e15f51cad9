import PbsCow.ShellSoundness

namespace PbsCow.Shell
set_option autoImplicit true

/-- What may come after a phrase: nothing, or a token that begins with one of `toks`. -/
def Follows (toks : List Char) (ts : List Token) : Prop := ts = [] ∨ headIn toks ts = true

section Follows

variable {toks toks' : List Char} {ts us : List Token} {t : Token}

theorem Follows.cons (h : t.first ∈ toks) : Follows toks (t :: ts) := .inr (by simpa [headIn] using h)

theorem Follows.not_headIn (h : Follows toks ts) (hd : (toks.all fun c => !toks'.contains c) = true) : headIn toks' ts = false := by
  rcases h with rfl | h
  · rfl
  · obtain ⟨t, us, rfl, ht⟩ := headIn_true h
    simpa [headIn] using List.all_eq_true.1 hd _ ht

theorem Follows.mono (h : Follows toks ts) (hs : ∀ c ∈ toks, c ∈ toks') : Follows toks' ts := by
  rcases h with rfl | h
  · exact .inl rfl
  · obtain ⟨t, us, rfl, ht⟩ := headIn_true h
    exact .cons (hs _ ht)

theorem Follows.widen (h : Follows toks ts) (hs : toks.all toks'.contains = true) : Follows toks' ts :=
  h.mono fun c hc => by simpa using List.all_eq_true.1 hs c hc

theorem Redirs.follows (hr : Redirs us rs) (h : Follows toks ts) : Follows ('<' :: '>' :: toks) (us ++ ts) := by
  cases hr with
  | nil => exact h.mono fun c hc => List.mem_cons_of_mem _ (List.mem_cons_of_mem _ hc)
  | cons ho hw hr =>
    apply Follows.cons
    exact List.mem_append_left toks ho.first

theorem Args.follows (ha : Args us args rs) (h : Follows toks ts) : Follows ('a' :: toks) (us ++ ts) := by
  cases ha with
  | nil => exact h.mono fun c hc => List.mem_cons_of_mem _ hc
  | cons hw hr ha =>
    apply Follows.cons
    rw [Token.first_of_ret hw (by decide)]
    exact List.mem_cons_self

theorem Follows.backs (hb : ∀ b ∈ us, b.ret = '&') (h : Follows toks ts) : Follows ('&' :: toks) (us ++ ts) := by
  cases us with
  | nil => exact h.mono fun c hc => List.mem_cons_of_mem _ hc
  | cons b us =>
    apply Follows.cons
    rw [Token.first_of_ret (hb b List.mem_cons_self) (by decide)]
    exact List.mem_cons_self

theorem headIn_of_ret (h : t.ret = c) (hc : c ≠ '+') : headIn [c] (t :: ts) = true := by
  simp [headIn, Token.first_of_ret h hc]

end Follows

/-- A parser that has read `ts` is at a place where `r` is left, with the command `c`. -/
def At (buf : List Char) (r : List Token) (c : Cmd) (c' : Cmd) (s : Nat) : Prop :=
  s ≤ strlen buf ∧ rest buf s = r ∧ c' = c

section Rules

variable {buf : List Char} {s fuel : Nat} {r : List Token} {toks : List Char} {Q : Cmd → Nat → Prop}

theorem Wp.peek_yes {x y : Parser Cmd} (hs : s ≤ strlen buf) (ht : toks.all symbols.contains = true)
    (hh : headIn toks (rest buf s) = true)
    (hx : ∀ s', s' ≤ strlen buf → rest buf s' = rest buf s → Wp x NoError Q s') :
    Wp (do if ← peek buf (strlen buf) toks then x else y) NoError Q s := by
  apply Wp.ifPeek hs ht
  · intro s' hs' hr' _
    exact hx s' hs' hr'
  · intro _ _ _ hf
    rw [hh] at hf
    cases hf

theorem Wp.peek_no {x y : Parser Cmd} (hs : s ≤ strlen buf) (ht : toks.all symbols.contains = true)
    (hh : headIn toks (rest buf s) = false)
    (hy : ∀ s', s' ≤ strlen buf → rest buf s' = rest buf s → Wp y NoError Q s') :
    Wp (do if ← peek buf (strlen buf) toks then x else y) NoError Q s := by
  apply Wp.ifPeek hs ht
  · intro _ _ _ hf
    rw [hh] at hf
    cases hf
  · intro s' hs' hr' _
    exact hy s' hs' hr'

theorem parseredirs_complete (hrd : Redirs ts rs) (hs : s ≤ strlen buf) (hr : rest buf s = ts ++ r)
    (hh : headIn ['<', '>'] r = false) (hf : (rest buf s).length < fuel) :
    Wp (parseredirs buf (strlen buf) fuel cmd) NoError (At buf r (rs.foldl Cmd.redir cmd)) s := by
  induction hrd generalizing cmd s fuel with
  | nil =>
    obtain ⟨fuel, rfl⟩ := Nat.exists_eq_succ_of_ne_zero (Nat.ne_zero_of_lt hf)
    rw [parseredirs]
    apply Wp.peek_no hs rfl (by rw [hr]; exact hh)
    intro s₁ hs₁ hr₁
    exact ⟨hs₁, hr₁.trans hr, rfl⟩
  | @cons mode fd ts rs op w ho hw _ ih =>
    obtain ⟨fuel, rfl⟩ := Nat.exists_eq_succ_of_ne_zero (Nat.ne_zero_of_lt hf)
    rw [List.cons_append, List.cons_append] at hr
    rw [hr, List.length_cons, List.length_cons] at hf
    rw [parseredirs]
    apply Wp.peek_yes hs rfl
    · rw [hr]
      simpa [headIn] using ho.first
    · intro s₁ hs₁ hr₁
      apply Wp.gettoken hs₁ (hr₁.trans hr)
      intro s₂ hs₂ hr₂
      apply Wp.gettoken hs₂ hr₂
      intro s₃ hs₃ hr₃
      apply Wp.ite_neg (not_not.2 hw)
      rw [ho.redirect]
      exact ih hs₃ hr₃ (by rw [hr₃]; omega)

theorem parseargs_complete (ha : Args us args rs) (hs : s ≤ strlen buf) (hr : rest buf s = us ++ r)
    (hfol : Follows ['|', ')', '&', ';'] r) (hn : argc + args.length < MAXARGS)
    (hf : (rest buf s).length < fuel) :
    Wp (parseargs buf (strlen buf) fuel argc ret) NoError (At buf r (rs.foldl Cmd.redir (ret.args args))) s := by
  induction ha generalizing argc ret s fuel with
  | nil =>
    obtain ⟨fuel, rfl⟩ := Nat.exists_eq_succ_of_ne_zero (Nat.ne_zero_of_lt hf)
    rw [List.nil_append] at hr
    rw [parseargs]
    rcases hfol with rfl | hfol
    · apply Wp.peek_no hs rfl (by rw [hr]; rfl)
      intro s₁ hs₁ hr₁
      apply Wp.bind (gettoken_spec hs₁)
      intro t s₂ h
      obtain ⟨hs₂, ⟨_, hnul, hr₂⟩ | ⟨hcons, _⟩⟩ := h
      · apply Wp.ite_pos hnul
        exact ⟨hs₂, hr₂, rfl⟩
      · rw [hr₁, hr] at hcons
        cases hcons
    · apply Wp.peek_yes hs rfl (by rw [hr]; exact hfol)
      intro s₁ hs₁ hr₁
      exact ⟨hs₁, hr₁.trans hr, rfl⟩
  | @cons ts rs us args rs' w hw hrd ha ih =>
    obtain ⟨fuel, rfl⟩ := Nat.exists_eq_succ_of_ne_zero (Nat.ne_zero_of_lt hf)
    rw [List.length_cons] at hn
    rw [List.cons_append, List.append_assoc] at hr
    rw [hr, List.length_cons] at hf
    rw [parseargs]
    apply Wp.peek_no hs rfl
    · rw [hr]
      simp only [headIn, Token.first_of_ret hw (by decide)]
      decide
    · intro s₁ hs₁ hr₁
      apply Wp.gettoken hs₁ (hr₁.trans hr)
      intro s₂ hs₂ hr₂
      apply Wp.ite_neg (by rw [hw]; decide)
      apply Wp.ite_neg (not_not.2 hw)
      apply Wp.ite_neg (by omega)
      apply (parseredirs_complete hrd hs₂ hr₂ ((ha.follows hfol).not_headIn rfl)
        (by rw [hr₂]; omega)).bind
      intro c s₃ h
      obtain ⟨hs₃, hr₃, rfl⟩ := h
      rw [List.length_append, ← hr₃] at hf
      have hwp : Wp (parseargs buf (strlen buf) fuel (argc + 1) (rs.foldl Cmd.redir (ret.arg w.q w.eq))) NoError
          (At buf r (rs'.foldl Cmd.redir ((rs.foldl Cmd.redir (ret.arg w.q w.eq)).args args))) s₃ :=
        ih hs₃ hr₃ (by omega) (by omega)
      rw [Cmd.args_redirs, ← List.foldl_append] at hwp
      exact hwp

theorem parsebacks_complete (hb : ∀ b ∈ bs, b.ret = '&') (hs : s ≤ strlen buf) (hr : rest buf s = bs ++ r)
    (hh : headIn ['&'] r = false) (hf : (rest buf s).length < fuel) :
    Wp (parsebacks buf (strlen buf) fuel cmd) NoError (At buf r (Cmd.backcmd^[bs.length] cmd)) s := by
  induction bs generalizing cmd s fuel with
  | nil =>
    obtain ⟨fuel, rfl⟩ := Nat.exists_eq_succ_of_ne_zero (Nat.ne_zero_of_lt hf)
    rw [parsebacks]
    apply Wp.peek_no hs rfl (by rw [hr]; exact hh)
    intro s₁ hs₁ hr₁
    exact ⟨hs₁, hr₁.trans hr, rfl⟩
  | cons b bs ih =>
    obtain ⟨fuel, rfl⟩ := Nat.exists_eq_succ_of_ne_zero (Nat.ne_zero_of_lt hf)
    rw [List.cons_append] at hr
    rw [hr, List.length_cons] at hf
    rw [parsebacks]
    apply Wp.peek_yes hs rfl
      (by rw [hr]; exact headIn_of_ret (hb b List.mem_cons_self) (by decide))
    intro s₁ hs₁ hr₁
    apply Wp.gettoken hs₁ (hr₁.trans hr)
    intro s₂ hs₂ hr₂
    exact ih (fun b' hb' => hb b' (List.mem_cons_of_mem _ hb')) hs₂ hr₂ (by rw [hr₂]; omega)

end Rules

/-- The tokens that may come after a phrase. -/
def follow : Nonterminal → List Char
  | .line => [')']
  | .pipe => ['&', ';', ')']
  | .exec => ['|', '&', ';', ')']

def parse (buf : List Char) (es fuel : Nat) : Nonterminal → Parser Cmd
  | .line => parseline buf es fuel
  | .pipe => parsepipe buf es fuel
  | .exec => parseexec buf es fuel

def need (n : Nat) : Nonterminal → Nat
  | .line => 5 * n + 5
  | .pipe => 5 * n + 4
  | .exec => 5 * n + 3

/-- The parser of `nt` finds the phrase `ts` wherever it stands. -/
def Complete (buf : List Char) (nt : Nonterminal) (ts : List Token) (c : Cmd) : Prop :=
  ∀ s r fuel, s ≤ strlen buf → rest buf s = ts ++ r → Follows (follow nt) r →
    need (rest buf s).length nt ≤ fuel → Wp (parse buf (strlen buf) fuel nt) NoError (At buf r c) s

section Phrases

variable {buf : List Char} {ts us : List Token} {c d : Cmd}

theorem Complete.backs {k : Cmd → Parser Cmd} (h : Complete buf .pipe ts c) (hb : ∀ b ∈ bs, b.ret = '&') (hs : s ≤ strlen buf)
    (hr : rest buf s = ts ++ (bs ++ r)) (hfol : Follows [';', ')'] r)
    (hf : 5 * (rest buf s).length + 4 ≤ fuel)
    (hk : ∀ s', s' ≤ strlen buf → rest buf s' = r → Wp (k (Cmd.backcmd^[bs.length] c)) NoError Q s') :
    Wp (do let cmd ← parsepipe buf (strlen buf) fuel
           let cmd ← parsebacks buf (strlen buf) fuel cmd
           k cmd) NoError Q s := by
  apply (h s (bs ++ r) fuel hs hr (hfol.backs hb) hf).bind
  intro c' s₁ h₁
  obtain ⟨hs₁, hr₁, rfl⟩ := h₁
  have hlen := congrArg List.length hr
  rw [List.length_append, ← hr₁] at hlen
  apply (parsebacks_complete hb hs₁ hr₁ (hfol.not_headIn rfl) (by omega)).bind
  intro c'' s₂ h₂
  obtain ⟨hs₂, hr₂, rfl⟩ := h₂
  exact hk s₂ hs₂ hr₂

theorem Complete.line (h : Complete buf .pipe ts c) (hb : ∀ b ∈ bs, b.ret = '&') :
    Complete buf .line (ts ++ bs) (Cmd.backcmd^[bs.length] c) := by
  intro s r fuel hs hr hfol hf
  rw [need] at hf
  obtain ⟨fuel, rfl⟩ := Nat.exists_eq_succ_of_ne_zero (Nat.ne_zero_of_lt hf)
  rw [List.append_assoc] at hr
  rw [parse, parseline]
  apply h.backs hb hs hr (hfol.widen rfl) (by omega)
  intro s₁ hs₁ hr₁
  apply Wp.peek_no hs₁ rfl (by rw [hr₁]; exact hfol.not_headIn rfl)
  intro s₂ hs₂ hr₂
  exact ⟨hs₂, hr₂.trans hr₁, rfl⟩

theorem Complete.list (h : Complete buf .pipe ts c) (hb : ∀ b ∈ bs, b.ret = '&') (hsemi : semi.ret = ';')
    (hl : Complete buf .line us d) :
    Complete buf .line (ts ++ bs ++ semi :: us) (.listcmd (Cmd.backcmd^[bs.length] c) d) := by
  intro s r fuel hs hr hfol hf
  rw [need] at hf
  obtain ⟨fuel, rfl⟩ := Nat.exists_eq_succ_of_ne_zero (Nat.ne_zero_of_lt hf)
  rw [List.append_assoc, List.append_assoc, List.cons_append] at hr
  have hlen := congrArg List.length hr
  simp only [List.length_append, List.length_cons] at hlen
  rw [parse, parseline]
  apply h.backs hb hs hr (.cons (by rw [Token.first_of_ret hsemi (by decide)]; decide)) (by omega)
  intro s₁ hs₁ hr₁
  apply Wp.peek_yes hs₁ rfl (by rw [hr₁]; exact headIn_of_ret hsemi (by decide))
  intro s₂ hs₂ hr₂
  apply Wp.gettoken hs₂ (hr₂.trans hr₁)
  intro s₃ hs₃ hr₃
  apply (hl s₃ r fuel hs₃ hr₃ hfol (by rw [hr₃, List.length_append, need]; omega)).bind
  intro d' s₄ h₄
  obtain ⟨hs₄, hr₄, rfl⟩ := h₄
  exact ⟨hs₄, hr₄, rfl⟩

theorem Complete.exec (h : Complete buf .exec ts c) : Complete buf .pipe ts c := by
  intro s r fuel hs hr hfol hf
  rw [need] at hf
  obtain ⟨fuel, rfl⟩ := Nat.exists_eq_succ_of_ne_zero (Nat.ne_zero_of_lt hf)
  rw [parse, parsepipe]
  apply (h s r fuel hs hr (hfol.widen rfl) (by rw [need]; omega)).bind
  intro c' s₁ h₁
  obtain ⟨hs₁, hr₁, rfl⟩ := h₁
  apply Wp.peek_no hs₁ rfl (by rw [hr₁]; exact hfol.not_headIn rfl)
  intro s₂ hs₂ hr₂
  exact ⟨hs₂, hr₂.trans hr₁, rfl⟩

theorem Complete.pipe (h : Complete buf .exec ts c) (hbar : bar.ret = '|') (hp : Complete buf .pipe us d) :
    Complete buf .pipe (ts ++ bar :: us) (.pipecmd c d) := by
  intro s r fuel hs hr hfol hf
  rw [need] at hf
  obtain ⟨fuel, rfl⟩ := Nat.exists_eq_succ_of_ne_zero (Nat.ne_zero_of_lt hf)
  rw [List.append_assoc, List.cons_append] at hr
  have hlen := congrArg List.length hr
  simp only [List.length_append, List.length_cons] at hlen
  rw [parse, parsepipe]
  apply (h s (bar :: (us ++ r)) fuel hs hr
    (.cons (by rw [Token.first_of_ret hbar (by decide)]; decide)) (by rw [need]; omega)).bind
  intro c' s₁ h₁
  obtain ⟨hs₁, hr₁, rfl⟩ := h₁
  apply Wp.peek_yes hs₁ rfl (by rw [hr₁]; exact headIn_of_ret hbar (by decide))
  intro s₂ hs₂ hr₂
  apply Wp.gettoken hs₂ (hr₂.trans hr₁)
  intro s₃ hs₃ hr₃
  apply (hp s₃ r fuel hs₃ hr₃ hfol (by rw [hr₃, List.length_append, need]; omega)).bind
  intro d' s₄ h₄
  obtain ⟨hs₄, hr₄, rfl⟩ := h₄
  exact ⟨hs₄, hr₄, rfl⟩

theorem Complete.block (ho : opn.ret = '(') (hl : Complete buf .line ts c) (hc : cls.ret = ')')
    (hrd : Redirs us rs) : Complete buf .exec (opn :: (ts ++ cls :: us)) (rs.foldl Cmd.redir c) := by
  intro s r fuel hs hr hfol hf
  rw [need] at hf
  obtain ⟨fuel, rfl⟩ : ∃ n, fuel = n + 2 := ⟨fuel - 2, by omega⟩
  rw [List.cons_append, List.append_assoc, List.cons_append] at hr
  have hlen := congrArg List.length hr
  simp only [List.length_append, List.length_cons] at hlen
  have hopn (s') (h : rest buf s' = rest buf s) : headIn ['('] (rest buf s') = true := by
    rw [h, hr]
    exact headIn_of_ret ho (by decide)
  rw [parse, parseexec]
  apply Wp.peek_yes hs rfl (hopn s rfl)
  intro s₁ hs₁ hr₁
  rw [parseblock]
  apply Wp.peek_yes hs₁ rfl (hopn s₁ hr₁)
  intro s₂ hs₂ hr₂
  apply Wp.gettoken hs₂ (hr₂.trans (hr₁.trans hr))
  intro s₃ hs₃ hr₃
  apply (hl s₃ (cls :: (us ++ r)) fuel hs₃ hr₃
    (.cons (by rw [Token.first_of_ret hc (by decide)]; decide))
    (by rw [hr₃, List.length_append, List.length_cons, List.length_append, need]; omega)).bind
  intro c' s₄ h₄
  obtain ⟨hs₄, hr₄, rfl⟩ := h₄
  apply Wp.peek_yes hs₄ rfl (by rw [hr₄]; exact headIn_of_ret hc (by decide))
  intro s₅ hs₅ hr₅
  apply Wp.gettoken hs₅ (hr₅.trans hr₄)
  intro s₆ hs₆ hr₆
  exact parseredirs_complete hrd hs₆ hr₆ (hfol.not_headIn rfl)
    (by rw [hr₆, List.length_append]; omega)

theorem Complete.simple (hrd : Redirs ts rs) (ha : Args us args rs') (hn : args.length < MAXARGS) :
    Complete buf .exec (ts ++ us) ((rs ++ rs').foldl Cmd.redir (.execcmd args)) := by
  intro s r fuel hs hr hfol hf
  rw [need] at hf
  obtain ⟨fuel, rfl⟩ := Nat.exists_eq_succ_of_ne_zero (Nat.ne_zero_of_lt hf)
  rw [List.append_assoc] at hr
  have hlen := congrArg List.length hr
  simp only [List.length_append] at hlen
  have hargs := ha.follows hfol
  rw [parse, parseexec]
  apply Wp.peek_no hs rfl (by rw [hr]; exact (hrd.follows hargs).not_headIn rfl)
  intro s₁ hs₁ hr₁
  apply (parseredirs_complete hrd hs₁ (hr₁.trans hr) (hargs.not_headIn rfl)
    (by rw [hr₁]; omega)).bind
  intro c s₂ h₂
  obtain ⟨hs₂, hr₂, rfl⟩ := h₂
  have hwp : Wp (parseargs buf (strlen buf) fuel 0 (rs.foldl Cmd.redir (.execcmd []))) NoError
      (At buf r (rs'.foldl Cmd.redir ((rs.foldl Cmd.redir (.execcmd [])).args args))) s₂ :=
    parseargs_complete ha hs₂ hr₂ (hfol.widen rfl) (by omega) (by rw [hr₂, List.length_append]; omega)
  rw [Cmd.args_redirs, Cmd.args_execcmd, List.nil_append, ← List.foldl_append] at hwp
  exact hwp

theorem Derives.complete (h : Derives nt ts c) : Complete buf nt ts c := by
  induction h with
  | line _ hb ih => exact ih.line hb
  | list _ hb hsemi _ ihp ihl => exact ihp.list hb hsemi ihl
  | exec _ ih => exact ih.exec
  | pipe _ hbar _ ihe ihp => exact ihe.pipe hbar ihp
  | block ho _ hc hr ih => exact .block ho ih hc hr
  | simple hr ha hn => exact .simple hr ha hn

end Phrases

end PbsCow.Shell
