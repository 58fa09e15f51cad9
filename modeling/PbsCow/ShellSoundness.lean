import PbsCow.ShellGrammar

namespace PbsCow.Shell
set_option autoImplicit true

section Rules

variable {buf toks : List Char} {s : Nat} {t : Token} {ts : List Token} {x y : Parser α}
  {E : Stop → Prop} {Q : α → Nat → Prop}

theorem Wp.ifPeek (hs : s ≤ strlen buf) (ht : toks.all symbols.contains = true)
    (hx : ∀ s', s' ≤ strlen buf → rest buf s' = rest buf s → headIn toks (rest buf s) = true → Wp x E Q s')
    (hy : ∀ s', s' ≤ strlen buf → rest buf s' = rest buf s → headIn toks (rest buf s) = false → Wp y E Q s') :
    Wp (do if ← peek buf (strlen buf) toks then x else y) E Q s := by
  apply Wp.bind ((peek_spec hs ht).weaken fun _ h => h.elim)
  intro b s' h
  obtain ⟨hs', hr, hb⟩ := h
  cases b with
  | true => exact hx s' hs' hr hb.symm
  | false => exact hy s' hs' hr hb.symm

theorem Wp.gettoken {f : Token → Parser α} (hs : s ≤ strlen buf) (hr : rest buf s = t :: ts)
    (hf : ∀ s', s' ≤ strlen buf → rest buf s' = ts → Wp (f t) E Q s') :
    Wp (Shell.gettoken buf (strlen buf) >>= f) E Q s := by
  apply Wp.bind ((gettoken_spec hs).weaken fun _ h => h.elim)
  intro t' s' h
  obtain ⟨hs', h⟩ := h
  rcases h with ⟨hnil, _⟩ | ⟨hcons, _⟩
  · rw [hnil] at hr
    cases hr
  · rw [hr] at hcons
    injection hcons with h₁ h₂
    subst h₁
    exact hf s' hs' h₂.symm

end Rules

/-- The parser may panic, but every loop and every recursion of it ends. -/
def Ends (e : Stop) : Prop := e ≠ .endless

theorem wp_panic : Wp (panic m : Parser α) Ends Q s := by
  intro h
  cases h

/-- What a parser of `nt` has done when it returns. -/
def Parsed (nt : Nonterminal) (buf : List Char) (s : Nat) (c : Cmd) (s' : Nat) : Prop :=
  s' ≤ strlen buf ∧ ∃ ts, rest buf s = ts ++ rest buf s' ∧ Derives nt ts c

theorem parseredirs_sound (hs : s ≤ strlen buf) (hf : (rest buf s).length < fuel) :
    Wp (parseredirs buf (strlen buf) fuel cmd) Ends (fun c s' => s' ≤ strlen buf ∧
      ∃ ts rs, rest buf s = ts ++ rest buf s' ∧ Redirs ts rs ∧ c = rs.foldl Cmd.redir cmd) s := by
  induction fuel generalizing s cmd with
  | zero => omega
  | succ fuel ih =>
    rw [parseredirs]
    apply Wp.ifPeek hs rfl
    · intro s₁ hs₁ hr₁ hb
      obtain ⟨op, us, hop, hfirst⟩ := headIn_true hb
      obtain ⟨mode, fd, ho⟩ := Opens.of_first hfirst
      apply Wp.gettoken hs₁ (hr₁.trans hop)
      intro s₂ hs₂ hr₂
      apply Wp.bind ((gettoken_spec hs₂).weaken fun _ h => h.elim)
      intro w s₃ h
      obtain ⟨hs₃, h⟩ := h
      apply Wp.ite
      · intro _
        exact wp_panic
      · intro hw
        have hw : w.ret = 'a' := not_not.1 hw
        have hcons : rest buf s₂ = w :: rest buf s₃ := by
          rcases h with ⟨_, hnul, _⟩ | ⟨hcons, _⟩
          · rw [hw] at hnul
            exact absurd hnul (by decide)
          · exact hcons
        have hrs : rest buf s = op :: w :: rest buf s₃ := by rw [hop, ← hr₂, hcons]
        rw [hrs] at hf
        simp only [List.length_cons] at hf
        apply (ih hs₃ (by omega)).mono
        intro c s' h
        obtain ⟨hs', ts, rs, hr, hrd, rfl⟩ := h
        refine ⟨hs', op :: w :: ts, ⟨w.q, w.eq, mode, fd⟩ :: rs, ?_, .cons ho hw hrd, ?_⟩
        · rw [hrs, hr]
          rfl
        · rw [ho.redirect]
          rfl
    · intro s₁ hs₁ hr₁ _
      exact ⟨hs₁, [], [], hr₁.symm, .nil, rfl⟩

theorem parseargs_sound (hs : s ≤ strlen buf) (hf : (rest buf s).length < fuel) (hargc : argc < MAXARGS) :
    Wp (parseargs buf (strlen buf) fuel argc ret) Ends (fun c s' => s' ≤ strlen buf ∧
      ∃ ts args rs, rest buf s = ts ++ rest buf s' ∧ Args ts args rs ∧ argc + args.length < MAXARGS ∧
        c = rs.foldl Cmd.redir (ret.args args)) s := by
  induction fuel generalizing s argc ret with
  | zero => omega
  | succ fuel ih =>
    have hdone {s₁} (hs₁ : s₁ ≤ strlen buf) (hr₁ : rest buf s₁ = rest buf s) :
        s₁ ≤ strlen buf ∧ ∃ ts args rs, rest buf s = ts ++ rest buf s₁ ∧ Args ts args rs ∧
          argc + args.length < MAXARGS ∧ ret = rs.foldl Cmd.redir (ret.args args) :=
      ⟨hs₁, [], [], [], hr₁.symm, .nil, hargc, rfl⟩
    rw [parseargs]
    apply Wp.ifPeek hs rfl
    · intro s₁ hs₁ hr₁ _
      exact hdone hs₁ hr₁
    · intro s₁ hs₁ hr₁ _
      apply Wp.bind ((gettoken_spec hs₁).weaken fun _ h => h.elim)
      intro w s₂ h
      obtain ⟨hs₂, h⟩ := h
      apply Wp.ite
      · intro hnul
        rcases h with ⟨hnil, _, hnil₂⟩ | ⟨_, hne⟩
        · exact hdone hs₂ (by rw [hnil₂, ← hr₁, hnil])
        · exact absurd hnul hne
      · intro hne
        have hcons : rest buf s = w :: rest buf s₂ := by
          rcases h with ⟨_, hnul, _⟩ | ⟨hcons, _⟩
          · exact absurd hnul hne
          · rw [← hr₁, hcons]
        rw [hcons, List.length_cons] at hf
        apply Wp.ite
        · intro _
          exact wp_panic
        · intro hw
          have hw : w.ret = 'a' := not_not.1 hw
          apply Wp.ite
          · intro _
            exact wp_panic
          · intro hmax
            apply (parseredirs_sound hs₂ (by omega)).bind
            intro c s₃ h
            obtain ⟨hs₃, ts, rs, hr₂, hrd, rfl⟩ := h
            rw [hr₂, List.length_append] at hf
            apply (ih hs₃ (by omega) (by omega)).mono
            intro c s' h
            obtain ⟨hs', us, args, rs', hr₃, ha, hlen, rfl⟩ := h
            refine ⟨hs', w :: (ts ++ us), (w.q, w.eq) :: args, rs ++ rs', ?_, .cons hw hrd ha, ?_, ?_⟩
            · rw [hcons, hr₂, hr₃, List.cons_append, List.append_assoc]
            · rw [List.length_cons]
              omega
            · rw [Cmd.args_redirs, List.foldl_append]
              rfl

theorem parsebacks_sound (hs : s ≤ strlen buf) (hf : (rest buf s).length < fuel) :
    Wp (parsebacks buf (strlen buf) fuel cmd) Ends (fun c s' => s' ≤ strlen buf ∧
      ∃ bs, rest buf s = bs ++ rest buf s' ∧ (∀ b ∈ bs, b.ret = '&') ∧
        c = Cmd.backcmd^[bs.length] cmd) s := by
  induction fuel generalizing s cmd with
  | zero => omega
  | succ fuel ih =>
    rw [parsebacks]
    apply Wp.ifPeek hs rfl
    · intro s₁ hs₁ hr₁ hb
      obtain ⟨b, us, hcons, hret⟩ := headIn_single hb (by decide)
      apply Wp.gettoken hs₁ (hr₁.trans hcons)
      intro s₂ hs₂ hr₂
      rw [hcons, ← hr₂, List.length_cons] at hf
      apply (ih hs₂ (by omega)).mono
      intro c s' h
      obtain ⟨hs', bs, hr, hbs, rfl⟩ := h
      refine ⟨hs', b :: bs, by rw [hcons, ← hr₂, hr]; rfl, ?_, rfl⟩
      intro b' hb'
      rcases List.mem_cons.1 hb' with rfl | hb'
      · exact hret
      · exact hbs b' hb'
    · intro s₁ hs₁ hr₁ _
      exact ⟨hs₁, [], hr₁.symm, by simp, rfl⟩

/-- What the four functions that call one another do with enough fuel: from `block`, which is called on
a parenthesis, each level needs one more. -/
structure Sound (buf : List Char) (fuel : Nat) : Prop where
  line : ∀ s, s ≤ strlen buf → 5 * (rest buf s).length + 5 ≤ fuel →
    Wp (parseline buf (strlen buf) fuel) Ends (Parsed .line buf s) s
  pipe : ∀ s, s ≤ strlen buf → 5 * (rest buf s).length + 4 ≤ fuel →
    Wp (parsepipe buf (strlen buf) fuel) Ends (Parsed .pipe buf s) s
  exec : ∀ s, s ≤ strlen buf → 5 * (rest buf s).length + 3 ≤ fuel →
    Wp (parseexec buf (strlen buf) fuel) Ends (Parsed .exec buf s) s
  block : ∀ s, s ≤ strlen buf → 5 * (rest buf s).length + 2 ≤ fuel →
    Wp (parseblock buf (strlen buf) fuel) Ends (Parsed .exec buf s) s

variable {buf : List Char} {s fuel : Nat}

theorem Sound.parseline (h : Sound buf fuel) (hs : s ≤ strlen buf)
    (hf : 5 * (rest buf s).length + 5 ≤ fuel + 1) :
    Wp (parseline buf (strlen buf) (fuel + 1)) Ends (Parsed .line buf s) s := by
  rw [Shell.parseline]
  apply (h.pipe s hs (by omega)).bind
  intro c s₁ hp
  obtain ⟨hs₁, ts, hr₁, hpipe⟩ := hp
  have hlen₁ := congrArg List.length hr₁
  rw [List.length_append] at hlen₁
  apply (parsebacks_sound hs₁ (by omega)).bind
  intro c' s₂ hb
  obtain ⟨hs₂, bs, hr₂, hbs, rfl⟩ := hb
  have hlen₂ := congrArg List.length hr₂
  rw [List.length_append] at hlen₂
  apply Wp.ifPeek hs₂ rfl
  · intro s₃ hs₃ hr₃ hb
    obtain ⟨semi, us, hcons, hsemi⟩ := headIn_single hb (by decide)
    have hlen₃ := congrArg List.length hcons
    rw [List.length_cons] at hlen₃
    apply Wp.gettoken hs₃ (hr₃.trans hcons)
    intro s₄ hs₄ hr₄
    apply (h.line s₄ hs₄ (by rw [hr₄]; omega)).bind
    intro d s' hl
    obtain ⟨hs', vs, hr', hline⟩ := hl
    refine ⟨hs', ts ++ bs ++ semi :: vs, ?_, .list hpipe hbs hsemi hline⟩
    rw [hr₁, hr₂, hcons, ← hr₄, hr', List.append_assoc, List.append_assoc, List.cons_append]
  · intro s₃ hs₃ hr₃ _
    refine ⟨hs₃, ts ++ bs, ?_, .line hpipe hbs⟩
    rw [hr₁, hr₂, hr₃, List.append_assoc]

theorem Sound.parsepipe (h : Sound buf fuel) (hs : s ≤ strlen buf)
    (hf : 5 * (rest buf s).length + 4 ≤ fuel + 1) :
    Wp (parsepipe buf (strlen buf) (fuel + 1)) Ends (Parsed .pipe buf s) s := by
  rw [Shell.parsepipe]
  apply (h.exec s hs (by omega)).bind
  intro c s₁ he
  obtain ⟨hs₁, ts, hr₁, hexec⟩ := he
  have hlen₁ := congrArg List.length hr₁
  rw [List.length_append] at hlen₁
  apply Wp.ifPeek hs₁ rfl
  · intro s₂ hs₂ hr₂ hb
    obtain ⟨bar, us, hcons, hbar⟩ := headIn_single hb (by decide)
    have hlen₂ := congrArg List.length hcons
    rw [List.length_cons] at hlen₂
    apply Wp.gettoken hs₂ (hr₂.trans hcons)
    intro s₃ hs₃ hr₃
    apply (h.pipe s₃ hs₃ (by rw [hr₃]; omega)).bind
    intro d s' hp
    obtain ⟨hs', vs, hr', hpipe⟩ := hp
    refine ⟨hs', ts ++ bar :: vs, ?_, .pipe hexec hbar hpipe⟩
    rw [hr₁, hcons, ← hr₃, hr', List.append_assoc, List.cons_append]
  · intro s₂ hs₂ hr₂ _
    exact ⟨hs₂, ts, by rw [hr₁, hr₂], .exec hexec⟩

theorem Sound.parseblock (h : Sound buf fuel) (hs : s ≤ strlen buf)
    (hf : 5 * (rest buf s).length + 2 ≤ fuel + 1) :
    Wp (parseblock buf (strlen buf) (fuel + 1)) Ends (Parsed .exec buf s) s := by
  rw [Shell.parseblock]
  apply Wp.ifPeek hs rfl
  · intro s₁ hs₁ hr₁ hb
    obtain ⟨opn, us, hcons, hopn⟩ := headIn_single hb (by decide)
    have hlen₁ := congrArg List.length hcons
    rw [List.length_cons] at hlen₁
    apply Wp.gettoken hs₁ (hr₁.trans hcons)
    intro s₂ hs₂ hr₂
    apply (h.line s₂ hs₂ (by rw [hr₂]; omega)).bind
    intro c s₃ hl
    obtain ⟨hs₃, ts, hr₃, hline⟩ := hl
    have hlen₃ := congrArg List.length hr₃
    rw [List.length_append, hr₂] at hlen₃
    apply Wp.ifPeek hs₃ rfl
    · intro s₄ hs₄ hr₄ hb
      obtain ⟨cls, vs, hcons', hcls⟩ := headIn_single hb (by decide)
      have hlen₄ := congrArg List.length hcons'
      rw [List.length_cons] at hlen₄
      apply Wp.gettoken hs₄ (hr₄.trans hcons')
      intro s₅ hs₅ hr₅
      apply (parseredirs_sound hs₅ (by rw [hr₅]; omega)).mono
      intro d s' hd
      obtain ⟨hs', ws, rs, hr', hrd, rfl⟩ := hd
      refine ⟨hs', opn :: (ts ++ cls :: ws), ?_, .block hopn hline hcls hrd⟩
      rw [hcons, ← hr₂, hr₃, hcons', ← hr₅, hr', List.cons_append, List.append_assoc, List.cons_append]
    · intro _ _ _ _
      exact wp_panic
  · intro _ _ _ _
    exact wp_panic

theorem Sound.parseexec (h : Sound buf fuel) (hs : s ≤ strlen buf)
    (hf : 5 * (rest buf s).length + 3 ≤ fuel + 1) :
    Wp (parseexec buf (strlen buf) (fuel + 1)) Ends (Parsed .exec buf s) s := by
  rw [Shell.parseexec]
  apply Wp.ifPeek hs rfl
  · intro s₁ hs₁ hr₁ _
    apply (h.block s₁ hs₁ (by rw [hr₁]; omega)).mono
    intro c s' hp
    rwa [Parsed, hr₁] at hp
  · intro s₁ hs₁ hr₁ _
    apply (parseredirs_sound hs₁ (by rw [hr₁]; omega)).bind
    intro c s₂ hp
    obtain ⟨hs₂, ts, rs, hr₂, hrd, rfl⟩ := hp
    have hlen₂ := congrArg List.length hr₂
    rw [List.length_append, hr₁] at hlen₂
    apply (parseargs_sound hs₂ (by omega) (by decide)).mono
    intro c s' hp
    obtain ⟨hs', us, args, rs', hr', ha, hn, rfl⟩ := hp
    refine ⟨hs', ts ++ us, ?_, ?_⟩
    · rw [← hr₁, hr₂, hr', List.append_assoc]
    · rw [Cmd.args_redirs, Cmd.args_execcmd, List.nil_append, ← List.foldl_append]
      apply Derives.simple hrd ha
      omega

theorem sound (buf : List Char) (fuel : Nat) : Sound buf fuel := by
  induction fuel with
  | zero => constructor <;> intros <;> omega
  | succ fuel ih =>
    exact ⟨fun _ hs hf => ih.parseline hs hf, fun _ hs hf => ih.parsepipe hs hf,
      fun _ hs hf => ih.parseexec hs hf, fun _ hs hf => ih.parseblock hs hf⟩

end PbsCow.Shell
