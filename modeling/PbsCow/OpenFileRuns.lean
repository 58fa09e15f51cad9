import PbsCow.OpenFileEnds

namespace PbsCow.OpenFiles
set_option autoImplicit true

variable {s s' : Mem} {t t' np : Slot} {o : Nat → Option Nat} {k : Nat → Int}

theorem one_self (f : Nat) : one f f = 1 := if_pos rfl

theorem one_nonneg (f g : Nat) : 0 ≤ one f g := by
  rw [one]
  split
  · exact Int.one_nonneg
  · exact Int.le_refl 0

theorem At.take (h : At t o k none s) : At t o (fun g => k g + one f g) none (s.take t f) where
  state := h.state
  ofile := h.ofile
  held := by
    refine (held_hold ..).trans ?_
    funext g
    change s.held t g + 1 * one f g = _
    rw [h.held, one_mul]
  closing := h.closing

theorem At.dup (h : At t o k none s) : At t o (fun g => k g + one f g) none (s.dup t f) where
  state := h.state
  ofile := h.ofile
  held := by
    refine (held_hold ..).trans ?_
    funext g
    change s.held t g + 1 * one f g = _
    rw [h.held, one_mul]
  closing := h.closing

/-- The file that `filealloc` returns is nobody else's. -/
theorem Inv.fresh_take (h : Inv s) (hf : f < NFILE) (h0 : (s.file f).ref = 0) : Fresh t f (s.take t f) := by
  have hself : (s.take t f).file f = { s.file f with ref := 1 } := Function.update_self ..
  refine ⟨hf, by rw [hself], ?_, ?_⟩
  · have hnone : s.share t f = 0 := by
      have hshares := h.shares f hf
      rw [h0] at hshares
      exact hshares.zero t
    have hshare : (s.take t f).share t f = s.share t f + 1 := by
      refine (share_hold _ t f 1 t f).trans ?_
      rw [if_pos ⟨rfl, rfl⟩]
      rfl
    rw [hshare, hnone]
    rfl
  · rw [hself]
    exact h.unused f hf h0

theorem Fresh.take (h : Fresh t f s) (h0 : (s.file f').ref = 0) : f ≠ f' ∧ Fresh t f (s.take t f') := by
  have hne : f ≠ f' := by
    rintro rfl
    rw [h.ref] at h0
    cases h0
  have hother : (s.take t f').file f = s.file f := Function.update_of_ne hne ..
  refine ⟨hne, h.range, by rw [hother, h.ref], ?_, by rw [hother, h.type]⟩
  refine (share_hold _ t f' 1 t f).trans ?_
  rw [if_neg fun hc => hne hc.2, add_zero]
  exact h.mine

theorem Fresh.install (h : Fresh t f s) (hfd : fd < NOFILE) (hnone : s.ofile t fd = none) : Fresh t f (s.install t fd f) := by
  refine ⟨h.range, h.ref, ?_, h.type⟩
  have hnot : ¬(none : Option Nat) = some f := nofun
  rw [Mem.install, share_hold, share_setOfile s t fd (some f) hfd, hnone, h.mine]
  simp only [and_self, if_true, if_neg hnot]
  rfl

/-- What `pipealloc` stores makes its two files the ends of the pipe. -/
theorem Inv.pipeinit (h : Inv s) (h₀ : Fresh t f₀ s) (h₁ : Fresh t f₁ s) (hne : f₀ ≠ f₁)
    (hpage : s.page pi = .taken t) : Inv (s.pipeinit f₀ f₁ pi) ∧ Guar t s (s.pipeinit f₀ f₁ pi) := by
  obtain ⟨u, hu⟩ : ∃ u, u = s.pipeinit f₀ f₁ pi := ⟨_, rfl⟩
  have hfile₁ : u.file f₁ = { s.file f₁ with type := .FD_PIPE, readable := false, writable := true, pipe := pi } := by
    rw [hu]
    refine (Function.update_self ..).trans ?_
    have he : Function.update s.file f₀ { s.file f₀ with type := .FD_PIPE, readable := true, writable := false, pipe := pi } f₁ =
      s.file f₁ := Function.update_of_ne hne.symm ..
    change { Function.update s.file f₀ { s.file f₀ with type := .FD_PIPE, readable := true, writable := false, pipe := pi } f₁ with
      type := .FD_PIPE, readable := false, writable := true, pipe := pi } = _
    rw [he]
  have hfile₀ : u.file f₀ = { s.file f₀ with type := .FD_PIPE, readable := true, writable := false, pipe := pi } := by
    rw [hu]
    refine (Function.update_of_ne hne ..).trans ?_
    exact Function.update_self ..
  have hother (g : Nat) (hg₀ : g ≠ f₀) (hg₁ : g ≠ f₁) : u.file g = s.file g := by
    rw [hu]
    exact (Function.update_of_ne hg₁ ..).trans (Function.update_of_ne hg₀ ..)
  have hpageSelf : u.page pi = .pipe ⟨true, true⟩ := by
    rw [hu]
    exact Function.update_self ..
  have hpageOther (i : Nat) (hi : i ≠ pi) : u.page i = s.page i := by
    rw [hu]
    exact Function.update_of_ne hi ..
  have hrefs (g : Nat) : (u.file g).ref = (s.file g).ref := by
    by_cases hg₁ : g = f₁
    · rw [hg₁, hfile₁]
    · by_cases hg₀ : g = f₀
      · rw [hg₀, hfile₀]
      · rw [hother g hg₀ hg₁]
  have hend₀ : u.endOf (.inl f₀) = some (pi, false) := by
    rw [Mem.endOf, hfile₀, if_pos ⟨h₀.range, rfl⟩]
  have hend₁ : u.endOf (.inl f₁) = some (pi, true) := by
    rw [Mem.endOf, hfile₁, if_pos ⟨h₁.range, rfl⟩]
  have hendOther (x : Nat ⊕ Slot) (hx₀ : x ≠ .inl f₀) (hx₁ : x ≠ .inl f₁) : u.endOf x = s.endOf x := by
    cases x with
    | inl g =>
      rw [Mem.endOf, Mem.endOf, hother g]
      · rintro rfl
        exact hx₀ rfl
      · rintro rfl
        exact hx₁ rfl
    | inr i =>
      rw [Mem.endOf, Mem.endOf, hu]
      rfl
  have hnoPipe (p : Pipe) : s.page pi ≠ .pipe p := by
    rw [hpage]
    intro he
    cases he
  have hnobody (x : Nat ⊕ Slot) (writable : Bool) : s.endOf x ≠ some (pi, writable) := by
    intro hx
    have hopens := (h.pipes.ends pi writable).1 ⟨x, hx⟩
    rw [not_opens hnoPipe] at hopens
    cases hopens
  have hnone (f : Nat) (hf : Fresh t f s) : s.endOf (.inl f) = none := by
    rw [Mem.endOf, if_neg]
    rintro ⟨_, htype⟩
    rw [hf.type] at htype
    cases htype
  -- who has an end of a pipe that is not the new one had it before
  have hwho (x : Nat ⊕ Slot) (e : Nat × Bool) : u.endOf x = some e ↔
      x = .inl f₀ ∧ e = (pi, false) ∨ x = .inl f₁ ∧ e = (pi, true) ∨ s.endOf x = some e := by
    constructor
    · intro hx
      by_cases hx₀ : x = .inl f₀
      · rw [hx₀, hend₀] at hx
        exact .inl ⟨hx₀, (Option.some.inj hx).symm⟩
      · by_cases hx₁ : x = .inl f₁
        · rw [hx₁, hend₁] at hx
          exact .inr (.inl ⟨hx₁, (Option.some.inj hx).symm⟩)
        · rw [hendOther x hx₀ hx₁] at hx
          exact .inr (.inr hx)
    · intro hx
      rcases hx with ⟨rfl, rfl⟩ | ⟨rfl, rfl⟩ | hx
      · exact hend₀
      · exact hend₁
      · rw [hendOther x]
        · exact hx
        · rintro rfl
          rw [hnone f₀ h₀] at hx
          cases hx
        · rintro rfl
          rw [hnone f₁ h₁] at hx
          cases hx
  have hpipes : Piped u := by
    constructor
    · intro pi' writable
      by_cases hpi : pi' = pi
      · subst hpi
        rw [opens_pipe hpageSelf]
        cases writable with
        | false => exact ⟨fun _ => rfl, fun _ => ⟨_, hend₀⟩⟩
        | true => exact ⟨fun _ => rfl, fun _ => ⟨_, hend₁⟩⟩
      · rw [Mem.opens, hpageOther pi' hpi, ← Mem.opens, ← h.pipes.ends]
        simp [hwho, hpi]
    · intro x x' e hx hx'
      rcases (hwho x e).1 hx with ⟨rfl, rfl⟩ | ⟨rfl, rfl⟩ | hs
      · rcases (hwho x' _).1 hx' with ⟨rfl, _⟩ | ⟨_, he⟩ | hs'
        · rfl
        · cases he
        · exact absurd hs' (hnobody _ _)
      · rcases (hwho x' _).1 hx' with ⟨_, he⟩ | ⟨rfl, _⟩ | hs'
        · cases he
        · rfl
        · exact absurd hs' (hnobody _ _)
      · rcases (hwho x' e).1 hx' with ⟨_, rfl⟩ | ⟨_, rfl⟩ | hs'
        · exact absurd hs (hnobody _ _)
        · exact absurd hs (hnobody _ _)
        · exact h.pipes.alone _ _ _ hs hs'
    · intro i j hi
      have hi' : s.closing i = some (.kfree j) := by
        rw [hu] at hi
        exact hi
      have hp := h.pipes.closed i j hi'
      rw [hpageOther j]
      · exact hp
      · rintro rfl
        exact hnoPipe _ hp
    · intro i i' j hi hi'
      rw [hu] at hi hi'
      exact h.pipes.last i i' j hi hi'
    · intro j hj
      have hjp : j ≠ pi := by
        rintro rfl
        rw [hpageSelf] at hj
        cases hj
      rw [hpageOther j hjp] at hj
      obtain ⟨i, hi⟩ := h.pipes.dead j hj
      refine ⟨i, ?_⟩
      rw [hu]
      exact hi
  rw [← hu]
  have hshare (i : Slot) (g : Nat) : u.share i g = s.share i g := by rw [hu]; rfl
  constructor
  · refine ⟨by rw [hu]; exact h.panic, fun g hg => ?_, by rw [hu]; exact h.range, fun g hg h0 => ?_,
      by rw [hu]; exact h.idle, by rw [hu]; exact h.empty, hpipes⟩
    · simp only [hrefs, hshare]
      exact h.shares g hg
    · rw [hrefs] at h0
      rw [hother g]
      · exact h.unused g hg h0
      · rintro rfl
        rw [h₀.ref] at h0
        cases h0
      · rintro rfl
        rw [h₁.ref] at h0
        cases h0
  · refine ⟨fun _ _ => by rw [hu]; exact ⟨rfl, rfl⟩, fun _ _ hr => by rw [hu]; exact ⟨hr, rfl⟩,
      fun _ _ _ hi => by rw [hu]; exact ⟨hi, rfl⟩, fun g _ h0 _ => ?_, fun i t' ht' hi => ?_⟩
    · apply hother g
      · rintro rfl
        rw [h₀.mine] at h0
        cases h0
      · rintro rfl
        rw [h₁.mine] at h0
        cases h0
    · rw [hpageOther i]
      · exact hi
      · rintro rfl
        rw [hpage] at hi
        cases hi
        exact absurd rfl ht'

/-- Both files of a pipe are closed. -/
theorem ok_closeBoth {c : Code} (hat : At t o (fun g => one f g + one f' g) none s) (hf : f < NFILE) (hf' : f' < NFILE)
    (hk : ∀ s, Inv s → At t o 0 none s → Ok t c s) : Ok t (fileclose t f (fileclose t f' c)) s := by
  apply ok_fileclose hat hf
  · have h₁ := slots_nonneg o f
    have h₂ := one_nonneg f' f
    rw [one_self]
    omega
  intro s _ ha
  have ha' := ha.congr (one f') fun g => by ring
  apply ok_fileclose ha' hf'
  · have h₁ := slots_nonneg o f'
    rw [one_self]
    omega
  intro s hi ha
  exact hk s hi (ha.congr 0 fun g => Int.sub_self _)

theorem ok_pipealloc {c : Option (Nat × Nat) → Code} (hat : At t o 0 none s)
    (hfail : ∀ s, Inv s → At t o 0 none s → Ok t (c none) s)
    (hok : ∀ s f f', Inv s → f < NFILE → f' < NFILE → At t o (fun g => one f g + one f' g) none s →
      Ok t (c (some (f, f'))) s) : Ok t (pipealloc t c) s := by
  apply ok_filealloc (stable_at t o 0 none) hat (fun s h => h.state) hfail
  intro s f₀ hi ha hf₀ h0 _
  have hfirst : At t o (one f₀) none (s.take t f₀) ∧ Fresh t f₀ (s.take t f₀) :=
    ⟨ha.take.congr (one f₀) fun g => Int.zero_add _, hi.fresh_take hf₀ h0⟩
  apply ok_filealloc stable_fresh hfirst (fun s h => h.1.state)
  · intro s _ hp
    apply ok_fileclose hp.1 hf₀
    · have h₁ := slots_nonneg o f₀
      rw [one_self]
      omega
    · intro s hi ha
      exact hfail s hi (ha.congr 0 fun g => Int.sub_self _)
  intro s f₁ hi hp hf₁ h0 _
  obtain ⟨hne, hfresh₀⟩ := hp.2.take h0
  have hboth : (At t o (fun g => one f₀ g + one f₁ g) none (s.take t f₁) ∧ Fresh t f₀ (s.take t f₁)) ∧
      (At t o (fun g => one f₀ g + one f₁ g) none (s.take t f₁) ∧ Fresh t f₁ (s.take t f₁)) :=
    ⟨⟨hp.1.take, hfresh₀⟩, ⟨hp.1.take, hi.fresh_take hf₁ h0⟩⟩
  have hstable := (stable_fresh (t := t) (o := o) (k := fun g => one f₀ g + one f₁ g) (c := none) (f := f₀)).and
    (stable_fresh (t := t) (o := o) (k := fun g => one f₀ g + one f₁ g) (c := none) (f := f₁))
  apply Contract.Ok.pick hstable hboth
  intro s w hi hp
  split
  · next pi =>
    apply Contract.Ok.act hstable hp
    intro s s' hi hp he
    split at he
    · next hfree =>
      injection he with he
      subst he
      obtain ⟨hi', hg⟩ := hi.kalloc hp.1.1.state hfree
      refine ⟨hi', hg, ?_⟩
      have hpage : (s.setPage pi (.taken t)).page pi = .taken t := Function.update_self ..
      have ha : At t o (fun g => one f₀ g + one f₁ g) none (s.setPage pi (.taken t)) :=
        ⟨hp.1.1.state, hp.1.1.ofile, hp.1.1.held, hp.1.1.closing⟩
      have hfresh (f : Nat) (hf : Fresh t f s) : Fresh t f (s.setPage pi (.taken t)) := ⟨hf.range, hf.ref, hf.mine, hf.type⟩
      apply Contract.Ok.modify (hstable.and (stable_taken pi)) ⟨⟨⟨ha, hfresh f₀ hp.1.2⟩, ⟨ha, hfresh f₁ hp.2.2⟩⟩, hpage⟩
      intro s hi hp
      obtain ⟨⟨⟨ha, hfresh₀⟩, ⟨_, hfresh₁⟩⟩, hpage⟩ := hp
      obtain ⟨hi', hg⟩ := hi.pipeinit hfresh₀ hfresh₁ hne hpage
      refine ⟨hi', hg, ?_⟩
      exact hok _ f₀ f₁ hi' hf₀ hf₁ ⟨ha.state, ha.ofile, ha.held, ha.closing⟩
    · cases he
  · exact ok_closeBoth hp.1.1 hf₀ hf₁ hfail

theorem ok_user (ha : At t o 0 none s) : Ok t (.goto .user) s := ⟨o, ha⟩

theorem ok_argfd {c : Option Nat → Code} (hat : At t o 0 none s) (hnone : ∀ s, At t o 0 none s → Ok t (c none) s)
    (hsome : ∀ s f, At t o 0 none s → fd < NOFILE → o fd = some f → f < NFILE → Ok t (c (some f)) s) :
    Ok t (argfd t fd c) s := by
  apply ok_read (stable_at t o 0 none) hat
  intro s hi ha
  split
  · next hlt =>
    cases hf : s.ofile t fd with
    | none => exact hnone s ha
    | some f => exact hsome s f ha hlt (ha.ofile ▸ hf) (hi.range t fd f hf).2
  · exact hnone s ha

theorem ok_sysDup (hat : At t o 0 none s) : Ok t (sysDup t fd (.goto .user)) s := by
  apply ok_argfd hat
  · exact fun s ha => ok_user ha
  · intro s f ha hfd hsome hrange
    apply ok_fdalloc (stable_at t o 0 none) ha (fun _ h => h) hrange
    · exact fun s _ ha => ok_user ha
    intro s fd' hi _ hlt hnone _ ha
    -- until `filedup`, two slots share one reference
    apply ok_filedup (stable_at _ _ _ _) ha (fun _ h => h) hrange
    · have hslots := slots_update o hlt (some f) f
      have hone := slots_pos hfd hsome
      have hnot : ¬(none : Option Nat) = some f := nofun
      rw [hnone, if_neg hnot, if_pos rfl] at hslots
      rw [one_self]
      change 1 ≤ _ + (0 - 1 : Int)
      omega
    intro s _ ha _
    apply ok_user
    exact ha.dup.congr 0 fun g => by
      change (0 : Int) - one f g + one f g = 0
      ring

theorem ok_sysClose (hat : At t o 0 none s) : Ok t (sysClose t fd (.goto .user)) s := by
  apply ok_argfd hat
  · exact fun s ha => ok_user ha
  · intro s f ha _ hsome hrange
    apply ok_clear ha hsome
    intro s _ ha
    apply ok_fileclose ha hrange
    · have hnn := slots_nonneg (Function.update o fd none) f
      rw [one_self]
      change 1 ≤ _ + (0 + 1 : Int)
      omega
    intro s _ ha
    exact ok_user (ha.congr 0 fun g => by
      change (0 : Int) + one f g - one f g = 0
      ring)

theorem ok_sysOpen (hat : At t o 0 none s) : Ok t (sysOpen t type ip major omode (.goto .user)) s := by
  apply ok_answer (stable_at t o 0 none) hat
  · intro s _ ha
    apply ok_filealloc (stable_at t o 0 none) ha (fun s h => h.state) fun s _ ha => ok_user ha
    intro s f hi ha hf h0 _
    have hfirst : At t o (one f) none (s.take t f) ∧ Fresh t f (s.take t f) :=
      ⟨ha.take.congr (one f) fun g => Int.zero_add _, hi.fresh_take hf h0⟩
    apply ok_fdalloc stable_fresh hfirst (fun s h => h.1) hf
    · intro s _ hp
      apply ok_fileclose hp.1 hf
      · have hnn := slots_nonneg o f
        rw [one_self]
        omega
      · intro s _ ha
        exact ok_user (ha.congr 0 fun g => Int.sub_self _)
    intro s fd _ hp hlt hnone _ ha
    have hfresh : Fresh t f (s.install t fd f) := hp.2.install hlt (by rw [hp.1.ofile]; exact hnone)
    apply Contract.Ok.modify stable_fresh ⟨ha, hfresh⟩
    intro s hi hp
    obtain ⟨x, hx⟩ : ∃ x, x = openFile type ip major omode (s.file f) := ⟨_, rfl⟩
    have href : x.ref = (s.file f).ref := by
      rw [hx, openFile]
      split <;> rfl
    have htype : x.type ≠ .FD_PIPE := by
      rw [hx, openFile]
      split <;> nofun
    rw [← hx]
    have hpipes : Piped (s.setFile f x) := by
      apply hi.pipes.congr (s.setFile f x) _ rfl fun _ _ => Iff.rfl
      have hself : (s.setFile f x).file f = x := Function.update_self ..
      have hother (g : Nat) (hg : g ≠ f) : (s.setFile f x).file g = s.file g := Function.update_of_ne hg ..
      funext y
      cases y with
      | inl g =>
        rw [Mem.endOf, Mem.endOf]
        by_cases hg : g = f
        · subst hg
          rw [hself, if_neg fun hc => htype hc.2, if_neg fun hc => by rw [hp.2.type] at hc; cases hc.2]
        · rw [hother g hg]
      | inr i => rfl
    obtain ⟨hi', hg⟩ := hi.setFile hp.2 x href hpipes
    have ha : At t _ _ none (s.setFile f x) := ⟨hp.1.state, hp.1.ofile, hp.1.held, hp.1.closing⟩
    exact ⟨hi', hg, ok_user (ha.congr 0 fun g => Int.sub_self _)⟩
  · exact fun s _ ha => ok_user ha

theorem ok_sysPipe (hat : At t o 0 none s) : Ok t (sysPipe t (.goto .user)) s := by
  apply ok_pipealloc hat fun s _ ha => ok_user ha
  intro s rf wf _ hrf hwf ha
  apply ok_fdalloc (stable_at _ _ _ _) ha (fun _ h => h) hrf
  · exact fun s _ ha => ok_closeBoth ha hrf hwf fun s _ ha => ok_user ha
  intro s fd₀ _ _ hlt₀ hnone₀ _ ha
  have ha₀ := ha.congr (one wf) fun g => by ring
  apply ok_fdalloc (stable_at _ _ _ _) ha₀ (fun _ h => h) hwf
  · intro s _ ha
    apply ok_clear ha (Function.update_self ..)
    intro s _ ha
    exact ok_closeBoth (ha.congr (fun g => one rf g + one wf g) fun g => Int.add_comm ..) hrf hwf fun s _ ha => ok_user ha
  intro s fd₁ _ _ hlt₁ hnone₁ _ ha
  have hne : fd₀ ≠ fd₁ := by
    rintro rfl
    rw [Function.update_self] at hnone₁
    cases hnone₁
  have ha₁ := ha.congr 0 fun g => Int.sub_self _
  apply ok_answer (stable_at _ _ _ _) ha₁
  · exact fun s _ ha => ok_user ha
  · intro s _ ha
    apply ok_clear (f := rf) ha
    · rw [Function.update_of_ne hne, Function.update_self]
    intro s _ ha
    apply ok_clear (f := wf) ha
    · rw [Function.update_of_ne hne.symm, Function.update_self]
    intro s _ ha
    have hboth := ha.congr (fun g => one rf g + one wf g) fun g => by
      change (0 : Int) + one rf g + one wf g = _
      ring
    exact ok_closeBoth hboth hrf hwf fun s _ ha => ok_user ha

theorem stable_used : Stable t fun s => s.state np = .USED t := by
  intro s s' h hr
  obtain ⟨_, _, t', ht', hg⟩ := hr
  exact (hg.embryo np t ht'.symm h).1

/-- The slot that `fork` has, and makes something else. -/
theorem Inv.leave (h : Inv s) (ha : At t o 0 none s) (hnp : s.state np = .USED t) (x : State)
    (hempty : x = .UNUSED ∨ x = .ZOMBIE → ∀ fd, s.ofile np fd = none) :
    Inv (s.setState np x) ∧ Guar t s (s.setState np x) ∧ At t o 0 none (s.setState np x) := by
  have hne : t ≠ np := by
    rintro rfl
    rw [ha.state] at hnp
    cases hnp
  refine ⟨h.setState x (fun _ => h.idle np (by rw [hnp]; nofun)) hempty, Guar.setState x (.inr (by rw [hnp]; nofun)) ?_,
    ⟨(Function.update_of_ne hne ..).trans ha.state, ha.ofile, ha.held, ha.closing⟩⟩
  intro t' ht' hc
  rw [hnp] at hc
  cases hc
  exact ht' rfl

/-- The loop of `fork` gives the child one more reference for each open file. -/
theorem ok_forkLoop {c : Code} (hn : n ≤ NOFILE) (hat : At t o 0 none s ∧ Embryo t np n s)
    (hk : ∀ s, Inv s → At t o 0 none s ∧ s.state np = .USED t → Ok t c s) (hi : Inv s) : Ok t (forkLoop t np n c) s := by
  induction n generalizing s with
  | zero => exact hk s hi ⟨hat.1, hat.2.state⟩
  | succ n ih =>
    apply ok_read ((stable_at t o 0 none).and (stable_embryo np _)) hat
    intro s hi hp
    have hrest : At t o 0 none s ∧ Embryo t np n s := ⟨hp.1, hp.2.state, fun fd hfd => hp.2.none fd (by omega)⟩
    split
    · exact ih (by omega) hrest hi
    · next f hf =>
      rw [hp.1.ofile] at hf
      have hrange := hi.range t _ f (hp.1.ofile ▸ hf)
      have hone := slots_pos hrange.1 hf
      have hstable := (stable_at t o 0 none).and (stable_embryo np (n + 1))
      apply ok_filedup hstable hp (fun s h => h.1) hrange.2
      · change 1 ≤ _ + (0 : Int)
        omega
      intro s _ hp _
      have ha : At t o (one f) none (s.dup t f) := hp.1.dup.congr (one f) fun g => Int.zero_add _
      have hstable' := (stable_at t o (one f) none).and (stable_embryo np (n + 1))
      apply Contract.Ok.modify hstable' ⟨ha, hp.2.state, hp.2.none⟩
      intro s hi hp
      have hmine : 1 ≤ s.share t f := by
        rw [hp.1.share, one_self]
        omega
      have hnone : s.ofile np (NOFILE - (n + 1)) = none := hp.2.none _ (Nat.le_refl _)
      obtain ⟨hi', hg⟩ := hi.give hrange.1 hrange.2 hmine hp.1.state hp.2.state hnone
      refine ⟨hi', hg, ih (by omega) ⟨⟨hp.1.state, ?_, ?_, hp.1.closing⟩, hp.2.state, fun fd hfd => ?_⟩ hi'⟩
      · have hne : t ≠ np := by
          rintro rfl
          have hstate := hp.2.state
          rw [hp.1.state] at hstate
          cases hstate
        exact (Function.update_of_ne hne ..).trans hp.1.ofile
      · refine (held_hold ..).trans ?_
        funext g
        change s.held t g + -1 * one f g = 0
        rw [hp.1.held]
        ring
      · have hfd' : fd ≠ NOFILE - (n + 1) := by omega
        change Function.update s.ofile np _ np fd = none
        rw [Function.update_self, Function.update_of_ne hfd']
        exact hp.2.none fd (by omega)

theorem ok_fork (hat : At t o 0 none s) : Ok t (fork t np (.goto .user)) s := by
  apply Contract.Ok.act (stable_at t o 0 none) hat
  intro s s' hi ha he
  split at he
  · next hunused =>
    injection he with he
    subst he
    have hne : t ≠ np := by
      rintro rfl
      rw [ha.state] at hunused
      cases hunused
    have hidle := hi.idle np (by rw [hunused]; nofun)
    have hi' : Inv (s.setState np (.USED t)) :=
      hi.setState (.USED t) (fun _ => hidle) fun hc => by rcases hc with hc | hc <;> cases hc
    have hg : Guar t s (s.setState np (.USED t)) := by
      apply Guar.setState
      · exact .inr (by rw [hunused]; nofun)
      · intro t' _
        rw [hunused]
        nofun
    have hself : (s.setState np (.USED t)).state np = .USED t := Function.update_self ..
    have ha' : At t o 0 none (s.setState np (.USED t)) :=
      ⟨(Function.update_of_ne hne ..).trans ha.state, ha.ofile, ha.held, ha.closing⟩
    have hembryo : Embryo t np NOFILE (s.setState np (.USED t)) := ⟨hself, fun fd _ => hi.empty np (.inl hunused) fd⟩
    refine ⟨hi', hg, ?_⟩
    apply ok_answer ((stable_at t o 0 none).and (stable_embryo np _)) ⟨ha', hembryo⟩
    · intro s hi hp
      apply ok_forkLoop (Nat.le_refl _) hp _ hi
      intro s _ hp
      apply Contract.Ok.modify ((stable_at t o 0 none).and stable_used) hp
      intro s hi hp
      obtain ⟨hi', hg, ha⟩ := hi.leave hp.1 hp.2 .RUNNABLE fun hc => by rcases hc with hc | hc <;> cases hc
      exact ⟨hi', hg, ok_user ha⟩
    · intro s _ hp
      apply Contract.Ok.modify ((stable_at t o 0 none).and (stable_embryo np _)) hp
      intro s hi hp
      obtain ⟨hi', hg, ha⟩ := hi.leave hp.1 hp.2.state .UNUSED fun _ fd => hp.2.none fd (by omega)
      exact ⟨hi', hg, ok_user ha⟩
  · cases he

/-- The loop of `exit` closes each file before it clears the slot. -/
theorem ok_exitLoop {c : Code} (hn : n ≤ NOFILE) (hat : At t o 0 none s) (hdone : ∀ fd, fd < NOFILE - n → o fd = none)
    (hk : ∀ s o, Inv s → At t o 0 none s → (∀ fd, fd < NOFILE → o fd = none) → Ok t c s) (hi : Inv s) :
    Ok t (exitLoop t n c) s := by
  induction n generalizing s o with
  | zero => exact hk s o hi hat hdone
  | succ n ih =>
    have hstep (o' : Nat → Option Nat) (hnow : o' (NOFILE - (n + 1)) = none) (hsame : ∀ fd, fd ≠ NOFILE - (n + 1) → o' fd = o fd)
        (fd : Nat) (hfd : fd < NOFILE - n) : o' fd = none := by
      by_cases he : fd = NOFILE - (n + 1)
      · rw [he, hnow]
      · rw [hsame fd he]
        exact hdone fd (by omega)
    apply ok_read (stable_at t o 0 none) hat
    intro s hi ha
    split
    · next hnone =>
      rw [ha.ofile] at hnone
      exact ih (by omega) ha (hstep o hnone fun _ _ => rfl) hi
    · next f hf =>
      rw [ha.ofile] at hf
      have hrange := hi.range t _ f (ha.ofile ▸ hf)
      have hone := slots_pos hrange.1 hf
      apply ok_fileclose ha hrange.2
      · change 1 ≤ _ + (0 : Int)
        omega
      intro s _ ha
      apply ok_clear ha hf
      intro s hi ha
      have ha' := ha.congr 0 fun g => by
        change (0 : Int) - one f g + one f g = 0
        ring
      exact ih (by omega) ha' (hstep _ (Function.update_self ..) fun fd hfd => Function.update_of_ne hfd ..) hi

theorem ok_exit (hi : Inv s) (hat : At t o 0 none s) : Ok t (exit t) s := by
  apply ok_exitLoop (Nat.le_refl _) hat (fun fd hfd => by omega) _ hi
  intro s o _ ha hnone
  apply Contract.Ok.modify (stable_at t o 0 none) ha
  intro s hi ha
  have hall (fd : Nat) : s.ofile t fd = none := by
    cases hf : s.ofile t fd with
    | none => rfl
    | some f =>
      have hsome := hf
      rw [ha.ofile, hnone fd (hi.range t fd f hf).1] at hsome
      cases hsome
  have hself : (s.setState t .ZOMBIE).state t = .ZOMBIE := Function.update_self ..
  have hg : Guar t s (s.setState t .ZOMBIE) := by
    apply Guar.setState _ (.inl rfl)
    intro t' _
    rw [ha.state]
    nofun
  refine ⟨hi.setState .ZOMBIE (fun _ => ⟨ha.held, ha.closing⟩) fun _ => hall, hg, ?_⟩
  intro hrun
  rw [hself] at hrun
  cases hrun

theorem ok_wait (hat : At t o 0 none s) : Ok t (wait np (.goto .user)) s := by
  apply Contract.Ok.modify (stable_at t o 0 none) hat
  intro s hi ha
  split
  · next hzombie =>
    have hne : t ≠ np := by
      rintro rfl
      rw [ha.state] at hzombie
      cases hzombie
    refine ⟨hi.setState .UNUSED (fun _ => hi.idle np (by rw [hzombie]; nofun)) fun _ => hi.empty np (.inr hzombie), ?_,
      ok_user ⟨(Function.update_of_ne hne ..).trans ha.state, ha.ofile, ha.held, ha.closing⟩⟩
    apply Guar.setState _ (.inr (by rw [hzombie]; nofun))
    intro t' _
    rw [hzombie]
    nofun
  · exact ⟨hi, .refl t s, ok_user ha⟩

theorem stable_pre (t : Slot) (l : Label) : Stable t (l.pre t) := by
  intro s s' h hr
  cases l with
  | scheduled =>
    intro hrun
    obtain ⟨hi, _, t', ht', hg⟩ := hr
    obtain ⟨hheld, hclosing⟩ := hg.private_ t ht'.symm
    rw [hheld, hclosing]
    by_cases hold : s.state t = .RUNNABLE
    · exact h hold
    · exact hi.idle t hold
  | user =>
    obtain ⟨o, ha⟩ := h
    exact ⟨o, stable_at t o 0 none s s' ha hr⟩

/-- Every slot keeps the invariant, whatever the others do that keep it. -/
theorem sound : contract.Sound (fun _ _ _ => True) body where
  refl := Guar.refl
  pre := stable_pre
  post t := by
    intro s s' h _
    exact h
  body t l s hi hpre _ := by
    cases l with
    | scheduled =>
      apply Contract.Ok.act (stable_pre t .scheduled) hpre
      intro s s' hi hp he
      split at he
      · next hrun =>
        injection he with he
        subst he
        obtain ⟨hheld, hclosing⟩ := hp hrun
        exact ⟨hi, .refl t s, s.ofile t, hrun, rfl, hheld, hclosing⟩
      · cases he
    | user =>
      obtain ⟨o, ha⟩ := hpre
      apply Contract.Ok.pick (stable_at t o 0 none) ha
      intro s w hi ha
      split
      · exact ok_sysOpen ha
      · exact ok_sysDup ha
      · exact ok_sysClose ha
      · exact ok_sysPipe ha
      · exact ok_fork ha
      · exact ok_exit hi ha
      · exact ok_wait ha
      · exact ok_user ha

theorem inv_start : Inv start.mem where
  panic := rfl
  shares f _ := by
    constructor
    · symm
      apply Finset.sum_eq_zero
      intro t _
      change slots (fun _ => none) f + 0 = 0
      rw [slots]
      simp
    · intro t
      have hnn := slots_nonneg (fun _ => none) f
      change 0 ≤ slots (fun _ => none) f + 0
      omega
  range t fd f h := by cases h
  unused f _ _ := rfl
  idle t _ := ⟨rfl, rfl⟩
  empty t _ fd := rfl
  pipes := by
    have hend (x : Nat ⊕ Slot) : start.mem.endOf x = none := by
      cases x with
      | inl f => exact if_neg fun hc => by cases hc.2
      | inr t => rfl
    constructor
    · intro pi writable
      constructor
      · intro h
        obtain ⟨x, hx⟩ := h
        rw [hend] at hx
        cases hx
      · intro h
        cases h
    · intro x x' e hx
      rw [hend] at hx
      cases hx
    · intro t pi h
      cases h
    · intro t t' pi h
      cases h
    · intro pi h
      cases h

/-- Where a slot is between two of its system calls. -/
def Between (x : Threads Slot Mem Input Label) (t : Slot) : Prop := ∃ l, x.code t = .goto l

/-- In no interleaving does `filedup` or `fileclose` panic. Whenever no process is in a system call, each file's `ref`
is the number of the descriptors that point to it, and the page of a pipe is in use exactly as long as one of
the pipe's two files is. -/
theorem open_files_exact (h : Reach body start x) :
    x.mem.panic = none ∧ ((∀ t, Between x t) →
      (∀ f, f < NFILE → (x.mem.file f).ref = ∑ t, slots (x.mem.ofile t) f) ∧
      (∀ pi, (∃ p, x.mem.page pi = .pipe p) ↔
        ∃ f, f < NFILE ∧ 0 < (x.mem.file f).ref ∧ (x.mem.file f).type = .FD_PIPE ∧ (x.mem.file f).pipe = pi)) := by
  have hstart : contract.Kept (fun _ _ _ => True) start := ⟨inv_start, fun t _ => ⟨rfl, rfl⟩⟩
  have hkept := hstart.reach sound h
  have hi : Inv x.mem := hkept.inv
  refine ⟨hi.panic, fun hbetween => ?_⟩
  have hquiet (t : Slot) : x.mem.held t = 0 ∧ x.mem.closing t = none := by
    obtain ⟨l, hl⟩ := hbetween t
    have hok := hkept.ok t
    rw [hl] at hok
    cases l with
    | scheduled =>
      by_cases hrun : x.mem.state t = .RUNNABLE
      · exact hok hrun
      · exact hi.idle t hrun
    | user =>
      obtain ⟨o, ha⟩ := hok
      exact ⟨ha.held, ha.closing⟩
  constructor
  · intro f hf
    rw [(hi.shares f hf).sum]
    apply Finset.sum_congr rfl
    intro t _
    rw [Mem.share, (hquiet t).1]
    exact Int.add_zero _
  intro pi
  constructor
  · intro hpage
    obtain ⟨p, hp⟩ := hpage
    have halive : ∃ writable, x.mem.opens pi writable = true := by
      by_contra hnone
      rw [not_exists] at hnone
      have hdead : p = ⟨false, false⟩ := by
        apply pipe_dead
        have hread := hnone false
        have hwrite := hnone true
        rw [opens_pipe hp] at hread hwrite
        simp only [Pipe.opens, Bool.false_eq_true, if_false, if_true] at hread hwrite
        simp [hread, hwrite]
      rw [hdead] at hp
      obtain ⟨t, ht⟩ := hi.pipes.dead pi hp
      rw [(hquiet t).2] at ht
      cases ht
    obtain ⟨writable, hopens⟩ := halive
    obtain ⟨y, hy⟩ := (hi.pipes.ends pi writable).2 hopens
    cases y with
    | inl f =>
      rw [Mem.endOf] at hy
      split at hy
      · next hf =>
        have hshares := hi.shares f hf.1
        have hnn := Int.le_trans (hshares.nonneg ⟨0, by decide⟩) (hshares.le _)
        have hne : (x.mem.file f).ref ≠ 0 := by
          intro h0
          have htype := hi.unused f hf.1 h0
          rw [hf.2] at htype
          cases htype
        exact ⟨f, hf.1, by omega, hf.2, congrArg Prod.fst (Option.some.inj hy)⟩
      · cases hy
    | inr t =>
      rw [Mem.endOf, (hquiet t).2] at hy
      cases hy
  · intro hex
    obtain ⟨f, hf, _, htype, hpipe⟩ := hex
    have hend : x.mem.endOf (.inl f) = some (pi, (x.mem.file f).writable) := by
      rw [Mem.endOf, if_pos ⟨hf, htype⟩, hpipe]
    have hopens := (hi.pipes.ends pi _).1 ⟨_, hend⟩
    rw [Mem.opens] at hopens
    split at hopens
    · next p hp => exact ⟨p, hp⟩
    · cases hopens

/-- The first process makes a pipe in page 7, and is back in its user's code. -/
theorem open_files_exact_pipe : ∃ x, Reach body start x ∧ (x.mem.file 1).pipe = 7 ∧ x.mem.panic = none ∧
    ((∀ t, Between x t) → (x.mem.file 1).ref = ∑ t, slots (x.mem.ofile t) 1) := by
  have hrun : ∃ x, start.run body ((⟨0, by decide⟩, .answer true) :: (⟨0, by decide⟩, .answer true) ::
      (⟨0, by decide⟩, .answer true) :: (⟨0, by decide⟩, .call .pipe) :: (⟨0, by decide⟩, .answer true) ::
      (⟨0, by decide⟩, .answer true) :: (⟨0, by decide⟩, .page (some 7)) ::
      List.replicate 5 (⟨0, by decide⟩, .answer true)) = some x ∧ (x.mem.file 1).pipe = 7 := ⟨_, rfl, rfl⟩
  obtain ⟨x, hx, hpipe⟩ := hrun
  have hreach : Reach body start x := .of_run hx
  have hall := open_files_exact hreach
  exact ⟨x, hreach, hpipe, hall.1, fun hbetween => (hall.2 hbetween).1 1 (by decide)⟩

end PbsCow.OpenFiles
