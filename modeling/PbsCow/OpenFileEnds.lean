import PbsCow.OpenFileSteps

namespace PbsCow.OpenFiles
set_option autoImplicit true

variable {s s' : Mem} {t t' : Slot}

/-- A step of `t` that changes pages only, and where `t` is in `fileclose`. -/
theorem Inv.pages (s' : Mem) (h : Inv s) (hrun : s.state t = .RUNNABLE) (hfile : s'.file = s.file)
    (hofile : s'.ofile = s.ofile) (hheld : s'.held = s.held) (hstate : s'.state = s.state) (hpanic : s'.panic = s.panic)
    (hclosing : ∀ t', t' ≠ t → s'.closing t' = s.closing t') (hpipes : Piped s')
    (htaken : ∀ pi t', t' ≠ t → s.page pi = .taken t' → s'.page pi = .taken t') : Inv s' ∧ Guar t s s' := by
  have hshare (i : Slot) (f : Nat) : s'.share i f = s.share i f := by rw [Mem.share, Mem.share, hofile, hheld]
  constructor
  · refine ⟨hpanic.trans h.panic, fun f hf => ?_, ?_, ?_, fun i hi => ?_, ?_, hpipes⟩
    · simp only [hfile, hshare]
      exact h.shares f hf
    · rw [hofile]
      exact h.range
    · rw [hfile]
      exact h.unused
    · rw [hstate] at hi
      have hne : i ≠ t := by
        rintro rfl
        exact hi hrun
      rw [hheld, hclosing i hne]
      exact h.idle i hi
    · rw [hstate, hofile]
      exact h.empty
  · refine ⟨fun i hi => ⟨by rw [hheld], hclosing i hi⟩, fun i _ hr => ?_, fun i j _ hu => ?_, fun f _ _ _ => by rw [hfile],
      htaken⟩
    · rw [hstate, hofile]
      exact ⟨hr, rfl⟩
    · rw [hstate, hofile]
      exact ⟨hu, rfl⟩

theorem opens_setPage (s : Mem) (pi : Nat) (p : Page) (hpi : pi' ≠ pi) :
    (s.setPage pi p).opens pi' writable = s.opens pi' writable := by
  rw [Mem.opens, Mem.opens, Mem.setPage]
  dsimp only
  rw [Function.update_of_ne hpi]

theorem not_opens (h : ∀ p, s.page pi ≠ .pipe p) : s.opens pi writable = false := by
  rw [Mem.opens]
  split
  · next p hp => exact absurd hp (h p)
  · rfl

theorem opens_pipe (h : s.page pi = .pipe p) : s.opens pi writable = p.opens writable := by rw [Mem.opens, h]

theorem opens_shut (p : Pipe) (writable writable' : Bool) :
    (p.shut writable).opens writable' = (p.opens writable' && writable != writable') := by
  cases p
  cases writable <;> cases writable' <;> simp [Pipe.shut, Pipe.opens]

theorem Piped.dead_opens (h : s.page pi = .pipe ⟨false, false⟩) (writable : Bool) : s.opens pi writable = false := by
  rw [opens_pipe h]
  cases writable <;> rfl

/-- `fileclose` has an open end of a pipe before it calls `pipeclose`. -/
theorem Piped.page_of_closing (h : Piped s) (hc : s.closing t = some (.pipeclose pi writable)) :
    ∃ p, s.page pi = .pipe p ∧ p.opens writable = true := by
  have hend : s.endOf (.inr t) = some (pi, writable) := by rw [Mem.endOf, hc]
  have hopens := (h.ends pi writable).1 ⟨_, hend⟩
  rw [Mem.opens] at hopens
  split at hopens
  · next p hp => exact ⟨p, hp, hopens⟩
  · cases hopens

theorem pipe_dead (p : Pipe) (h : ¬(p.readopen || p.writeopen) = true) : p = ⟨false, false⟩ := by
  cases p with
  | mk r w => cases r <;> cases w <;> simp at h ⊢

theorem Inv.shut (h : Inv s) (ha : At t o k (some (.pipeclose pi writable)) s) (hp : s.page pi = .pipe p)
    (hopens : p.opens writable = true) :
    Inv (s.shut t pi writable) ∧ Guar t s (s.shut t pi writable) ∧
      At t o k (if (p.shut writable).readopen || (p.shut writable).writeopen then none else some (.kfree pi))
        (s.shut t pi writable) := by
  obtain ⟨c, hc⟩ : ∃ c, c = (if (p.shut writable).readopen || (p.shut writable).writeopen then none
    else some (Closing.kfree pi)) := ⟨_, rfl⟩
  obtain ⟨u, hu⟩ : ∃ u, u = (s.setPage pi (.pipe (p.shut writable))).setClosing t c := ⟨_, rfl⟩
  have hshut : s.shut t pi writable = u := by
    rw [Mem.shut, hp]
    rw [hu, hc]
  rw [hshut, ← hc]
  have hpageSelf : u.page pi = .pipe (p.shut writable) := by
    rw [hu]
    exact Function.update_self ..
  have hpageOther (i : Nat) (hi : i ≠ pi) : u.page i = s.page i := by
    rw [hu]
    exact Function.update_of_ne hi ..
  have hself : u.closing t = c := by
    rw [hu]
    exact Function.update_self ..
  have hothers (i : Slot) (hi : i ≠ t) : u.closing i = s.closing i := by
    rw [hu]
    exact Function.update_of_ne hi ..
  have hopen : s.opens pi writable = true := by rw [opens_pipe hp, hopens]
  have hend : s.endOf (.inr t) = some (pi, writable) := by rw [Mem.endOf, ha.closing]
  have hkind : c = none ∨ c = some (.kfree pi) ∧ p.shut writable = ⟨false, false⟩ := by
    rw [hc]
    split
    · exact .inl rfl
    · next hnot => exact .inr ⟨rfl, pipe_dead _ hnot⟩
  have hendT : u.endOf (.inr t) = none := by
    rw [Mem.endOf, hself]
    rcases hkind with hk | ⟨hk, _⟩ <;> rw [hk]
  have hendOther (x : Nat ⊕ Slot) (hx : x ≠ .inr t) : u.endOf x = s.endOf x := by
    cases x with
    | inl f => rw [Mem.endOf, Mem.endOf, hu]; rfl
    | inr i => rw [Mem.endOf, Mem.endOf, hothers i fun he => hx (he ▸ rfl)]
  have hnotDead (i : Slot) (j : Nat) (hi : s.closing i = some (.kfree j)) : j ≠ pi := by
    rintro rfl
    rw [Piped.dead_opens (h.pipes.closed i j hi)] at hopen
    cases hopen
  have hpipes : Piped u := by
    constructor
    · intro pi' writable'
      by_cases hsame : pi' = pi ∧ writable' = writable
      · obtain ⟨rfl, rfl⟩ := hsame
        rw [opens_pipe hpageSelf, opens_shut, bne_self_eq_false, Bool.and_false]
        simp only [Bool.false_eq_true, iff_false, not_exists]
        intro x hx
        by_cases hxt : x = .inr t
        · rw [hxt, hendT] at hx
          cases hx
        · rw [hendOther x hxt] at hx
          exact hxt (h.pipes.alone _ _ _ hx hend)
      · have hflag : u.opens pi' writable' = s.opens pi' writable' := by
          by_cases hpi : pi' = pi
          · subst hpi
            have hw : (writable != writable') = true := by
              rw [bne_iff_ne]
              rintro rfl
              exact hsame ⟨rfl, rfl⟩
            rw [opens_pipe hpageSelf, opens_shut, opens_pipe hp, hw, Bool.and_true]
          · rw [Mem.opens, Mem.opens, hpageOther pi' hpi]
        rw [hflag, ← h.pipes.ends]
        constructor
        · intro hex
          obtain ⟨x, hx⟩ := hex
          have hxt : x ≠ .inr t := by
            rintro rfl
            rw [hendT] at hx
            cases hx
          exact ⟨x, by rwa [hendOther x hxt] at hx⟩
        · intro hex
          obtain ⟨x, hx⟩ := hex
          refine ⟨x, ?_⟩
          rw [hendOther x]
          · exact hx
          · rintro rfl
            rw [hend] at hx
            cases hx
            exact hsame ⟨rfl, rfl⟩
    · intro x x' e hx hx'
      have hxt (y : Nat ⊕ Slot) (hy : u.endOf y = some e) : s.endOf y = some e := by
        rw [hendOther y] at hy
        · exact hy
        · rintro rfl
          rw [hendT] at hy
          cases hy
      exact h.pipes.alone _ _ _ (hxt x hx) (hxt x' hx')
    · intro i j hi
      by_cases hit : i = t
      · subst hit
        rw [hself] at hi
        rcases hkind with hk | ⟨hk, hdead⟩
        · rw [hk] at hi
          cases hi
        · rw [hk] at hi
          cases hi
          rw [hpageSelf, hdead]
      · rw [hothers i hit] at hi
        rw [hpageOther j (hnotDead i j hi)]
        exact h.pipes.closed i j hi
    · intro i i' j hi hi'
      have hmine (a b : Slot) (ha' : u.closing a = some (.kfree j)) (hb : u.closing b = some (.kfree j)) (hat : a = t) :
          b = t := by
        by_contra hbt
        rw [hothers b hbt] at hb
        rw [hat, hself] at ha'
        rcases hkind with hk | ⟨hk, _⟩
        · rw [hk] at ha'
          cases ha'
        · rw [hk] at ha'
          cases ha'
          exact hnotDead b _ hb rfl
      by_cases hit : i = t
      · rw [hit, hmine i i' hi hi' hit]
      · by_cases hit' : i' = t
        · exact absurd (hmine i' i hi' hi hit') hit
        · rw [hothers i hit] at hi
          rw [hothers i' hit'] at hi'
          exact h.pipes.last i i' j hi hi'
    · intro j hj
      by_cases hjp : j = pi
      · subst hjp
        rw [hpageSelf] at hj
        injection hj with hj
        refine ⟨t, ?_⟩
        rw [hself, hc, hj]
        rfl
      · rw [hpageOther j hjp] at hj
        obtain ⟨i, hi⟩ := h.pipes.dead j hj
        refine ⟨i, ?_⟩
        rw [hothers i]
        · exact hi
        · rintro rfl
          rw [ha.closing] at hi
          cases hi
  have hall := h.pages u ha.state (by rw [hu]; rfl) (by rw [hu]; rfl) (by rw [hu]; rfl) (by rw [hu]; rfl)
    (by rw [hu]; rfl) hothers hpipes fun i t' _ hi => by
      rw [hpageOther i]
      · exact hi
      · rintro rfl
        rw [hp] at hi
        cases hi
  refine ⟨hall.1, hall.2, ?_, ?_, ?_, hself⟩
  · rw [hu]
    exact ha.state
  · rw [hu]
    exact ha.ofile
  · rw [hu]
    exact ha.held

theorem Inv.kfree (h : Inv s) (ha : At t o k (some (.kfree pi)) s) :
    Inv ((s.setPage pi .free).setClosing t none) ∧ Guar t s ((s.setPage pi .free).setClosing t none) ∧
      At t o k none ((s.setPage pi .free).setClosing t none) := by
  obtain ⟨u, hu⟩ : ∃ u, u = (s.setPage pi .free).setClosing t none := ⟨_, rfl⟩
  have hpageSelf : u.page pi = .free := by
    rw [hu]
    exact Function.update_self ..
  have hpageOther (i : Nat) (hi : i ≠ pi) : u.page i = s.page i := by
    rw [hu]
    exact Function.update_of_ne hi ..
  have hself : u.closing t = none := by
    rw [hu]
    exact Function.update_self ..
  have hothers (i : Slot) (hi : i ≠ t) : u.closing i = s.closing i := by
    rw [hu]
    exact Function.update_of_ne hi ..
  have hdead := h.pipes.closed t pi ha.closing
  have hend : u.endOf = s.endOf := by
    funext x
    cases x with
    | inl f => rw [Mem.endOf, Mem.endOf, hu]; rfl
    | inr i =>
      rw [Mem.endOf, Mem.endOf]
      by_cases hi : i = t
      · rw [hi, hself, ha.closing]
      · rw [hothers i hi]
  have hkfree (i : Slot) (j : Nat) : u.closing i = some (.kfree j) ↔ i ≠ t ∧ s.closing i = some (.kfree j) := by
    by_cases hi : i = t
    · rw [hi, hself]
      simp
    · rw [hothers i hi]
      simp [hi]
  have hnot (i : Slot) (j : Nat) (hi : i ≠ t) (hc : s.closing i = some (.kfree j)) : j ≠ pi := by
    rintro rfl
    exact hi (h.pipes.last i t j hc ha.closing)
  have hpipes : Piped u := by
    constructor
    · intro pi' writable
      rw [hend]
      by_cases hpi : pi' = pi
      · subst hpi
        have hflag : u.opens pi' writable = s.opens pi' writable := by
          rw [Piped.dead_opens hdead, Mem.opens, hpageSelf]
        rw [hflag]
        exact h.pipes.ends pi' writable
      · rw [Mem.opens, hpageOther pi' hpi]
        exact h.pipes.ends pi' writable
    · rw [hend]
      exact h.pipes.alone
    · intro i j hi
      obtain ⟨hit, hi⟩ := (hkfree i j).1 hi
      rw [hpageOther j (hnot i j hit hi)]
      exact h.pipes.closed i j hi
    · intro i i' j hi hi'
      exact h.pipes.last i i' j ((hkfree i j).1 hi).2 ((hkfree i' j).1 hi').2
    · intro j hj
      have hjp : j ≠ pi := by
        rintro rfl
        rw [hpageSelf] at hj
        cases hj
      rw [hpageOther j hjp] at hj
      obtain ⟨i, hi⟩ := h.pipes.dead j hj
      refine ⟨i, (hkfree i j).2 ⟨?_, hi⟩⟩
      rintro rfl
      rw [ha.closing] at hi
      cases hi
      exact hjp rfl
  rw [← hu]
  have hall := h.pages u ha.state (by rw [hu]; rfl) (by rw [hu]; rfl) (by rw [hu]; rfl) (by rw [hu]; rfl)
    (by rw [hu]; rfl) hothers hpipes fun i t' _ hi => by
      rw [hpageOther i]
      · exact hi
      · rintro rfl
        rw [hdead] at hi
        cases hi
  refine ⟨hall.1, hall.2, ?_, ?_, ?_, hself⟩
  · rw [hu]
    exact ha.state
  · rw [hu]
    exact ha.ofile
  · rw [hu]
    exact ha.held

/-- A page that is no pipe becomes another that is none. -/
theorem Piped.setPage (h : Piped s) (hold : ∀ p, s.page pi ≠ .pipe p) (hnew : ∀ p, x ≠ .pipe p) : Piped (s.setPage pi x) := by
  have hself : (s.setPage pi x).page pi = x := Function.update_self ..
  have hother (i : Nat) (hi : i ≠ pi) : (s.setPage pi x).page i = s.page i := Function.update_of_ne hi ..
  have hend : (s.setPage pi x).endOf = s.endOf := endOf_congr s _ (fun _ _ => ⟨rfl, fun _ => ⟨rfl, rfl⟩⟩) rfl
  constructor
  · intro pi' writable
    have hflag : (s.setPage pi x).opens pi' writable = s.opens pi' writable := by
      by_cases hpi : pi' = pi
      · subst hpi
        rw [not_opens hold, not_opens]
        rw [hself]
        exact hnew
      · exact opens_setPage s pi x hpi
    rw [hend, hflag]
    exact h.ends pi' writable
  · rw [hend]
    exact h.alone
  · intro i j hi
    rw [hother j]
    · exact h.closed i j hi
    · rintro rfl
      exact hold _ (h.closed i j hi)
  · exact h.last
  · intro j hj
    rw [hother j] at hj
    · exact h.dead j hj
    · rintro rfl
      rw [hself] at hj
      exact hnew _ hj

theorem Inv.kalloc (h : Inv s) (hrun : s.state t = .RUNNABLE) (hfree : s.page pi = .free) :
    Inv (s.setPage pi (.taken t)) ∧ Guar t s (s.setPage pi (.taken t)) := by
  have hpipes : Piped (s.setPage pi (.taken t)) := by
    apply h.pipes.setPage
    · intro p
      rw [hfree]
      nofun
    · nofun
  apply h.pages (s.setPage pi (.taken t)) hrun rfl rfl rfl rfl rfl (fun _ _ => rfl) hpipes
  intro i t' _ hi
  have hne : i ≠ pi := by
    rintro rfl
    rw [hfree] at hi
    cases hi
  exact (Function.update_of_ne hne ..).trans hi

variable {s s' : Mem} {t t' np : Slot} {o : Nat → Option Nat} {k : Nat → Int}

theorem Guar.refl (t : Slot) (s : Mem) : Guar t s s :=
  ⟨fun _ _ => ⟨rfl, rfl⟩, fun _ _ hr => ⟨hr, rfl⟩, fun _ _ _ hu => ⟨hu, rfl⟩, fun _ _ _ _ => rfl, fun _ _ _ hp => hp⟩

/-- What the code of a slot assumes where it starts over: it has no reference but those of its slots. -/
def Label.pre (t : Slot) (l : Label) (s : Mem) : Prop :=
  match l with
  | .scheduled => s.state t = .RUNNABLE → s.held t = 0 ∧ s.closing t = none
  | .user => ∃ o, At t o 0 none s

def contract : Contract Slot Mem Label where
  inv := Inv
  guar := Guar
  pre t l := l.pre t
  post _ _ := False

abbrev Stable (t : Slot) (P : Mem → Prop) : Prop := contract.Stable t P

abbrev Ok (t : Slot) (c : Code) (s : Mem) : Prop := contract.Ok (fun _ _ _ => True) t c s

theorem At.congr (k' : Nat → Int) (h : At t o k c s) (hk : ∀ g, k g = k' g) : At t o k' c s := by
  have he : k = k' := funext hk
  rwa [← he]

theorem stable_at (t : Slot) (o : Nat → Option Nat) (k : Nat → Int) (c : Option Closing) : Stable t (At t o k c) := by
  intro s s' h hr
  obtain ⟨_, _, t', ht', hg⟩ := hr
  obtain ⟨hstate, hofile⟩ := hg.runnable t ht'.symm h.state
  obtain ⟨hheld, hclosing⟩ := hg.private_ t ht'.symm
  exact ⟨hstate, hofile.trans h.ofile, hheld.trans h.held, hclosing.trans h.closing⟩

theorem stable_fresh : Stable t fun s => At t o k c s ∧ Fresh t f s := by
  intro s s' h hr
  have ha := stable_at t o k c s s' h.1 hr
  refine ⟨ha, ?_⟩
  obtain ⟨hi, _, t', ht', hg⟩ := hr
  have hrange := h.2.range
  have halone := (hi.shares f hrange).alone (h.2.mine.trans h.2.ref.symm) ht'
  have hfile : s'.file f = s.file f := by
    apply hg.file f hrange halone
    rw [h.2.ref]
    decide
  refine ⟨hrange, by rw [hfile, h.2.ref], ?_, by rw [hfile, h.2.type]⟩
  rw [ha.share, ← h.1.share]
  exact h.2.mine

/-- The child that `fork` is making has none of the last `n` files yet. -/
structure Embryo (t np : Slot) (n : Nat) (s : Mem) : Prop where
  state : s.state np = .USED t
  none : ∀ fd, NOFILE - n ≤ fd → s.ofile np fd = none

theorem stable_embryo (np : Slot) (n : Nat) : Stable t (Embryo t np n) := by
  intro s s' h hr
  obtain ⟨_, _, t', ht', hg⟩ := hr
  obtain ⟨hstate, hofile⟩ := hg.embryo np t ht'.symm h.state
  refine ⟨hstate, ?_⟩
  rw [hofile]
  exact h.none

theorem stable_taken (pi : Nat) : Stable t fun s => s.page pi = .taken t := by
  intro s s' h hr
  obtain ⟨_, _, t', ht', hg⟩ := hr
  exact hg.taken pi t ht'.symm h

section Actions

variable {P : Mem → Prop} (hP : Stable t P) (hs : P s)

include hP hs

theorem ok_filealloc {c : Option Nat → Code} (hrun : ∀ s, P s → s.state t = .RUNNABLE)
    (hfail : ∀ s, Inv s → P s → Ok t (c none) s)
    (hok : ∀ s f, Inv s → P s → f < NFILE → (s.file f).ref = 0 → Inv (s.take t f) → Ok t (c (some f)) (s.take t f)) :
    Ok t (filealloc t c) s := by
  apply Contract.Ok.act hP hs
  intro s s' hi hp hf
  injection hf with hf
  subst hf
  cases hfree : s.freeFile with
  | none => exact ⟨hi, .refl t s, hfail s hi hp⟩
  | some f =>
    obtain ⟨hlt, h0⟩ := freeFile_some hfree
    obtain ⟨hi', hg⟩ := hi.take (hrun s hp) hlt h0
    exact ⟨hi', hg, hok s f hi hp hlt h0 hi'⟩

theorem ok_filedup {c : Code} (hat : ∀ s, P s → At t o k none s) (hf : f < NFILE) (hmine : 1 ≤ slots o f + k f)
    (hk : ∀ s, Inv s → P s → Inv (s.dup t f) → Ok t c (s.dup t f)) : Ok t (filedup t f c) s := by
  apply Contract.Ok.act hP hs
  intro s s' hi hp he
  have ha := hat s hp
  have hshare : 1 ≤ s.share t f := by rwa [ha.share]
  have hpos := hi.ref_pos hf hshare
  injection he with he
  rw [if_neg (by omega)] at he
  subst he
  obtain ⟨hi', hg⟩ := hi.dup ha.state hf hshare
  refine ⟨hi', hg, ?_⟩
  rw [if_neg (by omega)]
  exact hk s hi hp hi'

theorem ok_fdalloc {c : Option Nat → Code} (hat : ∀ s, P s → At t o k none s) (hf : f < NFILE)
    (hfail : ∀ s, Inv s → P s → Ok t (c none) s)
    (hok : ∀ s fd, Inv s → P s → fd < NOFILE → o fd = none → Inv (s.install t fd f) →
      At t (Function.update o fd (some f)) (fun g => k g - one f g) none (s.install t fd f) →
      Ok t (c (some fd)) (s.install t fd f)) : Ok t (fdalloc t f c) s := by
  apply Contract.Ok.act hP hs
  intro s s' hi hp he
  injection he with he
  subst he
  cases hfree : s.freeFd t with
  | none => exact ⟨hi, .refl t s, hfail s hi hp⟩
  | some fd =>
    obtain ⟨hlt, hnone⟩ := freeFd_some hfree
    have ha := hat s hp
    obtain ⟨hi', hg, ha'⟩ := hi.install ha hlt hnone hf
    rw [ha.ofile] at hnone
    exact ⟨hi', hg, hok s fd hi hp hlt hnone hi' ha'⟩

theorem ok_answer {c c' : Code} (hyes : ∀ s, Inv s → P s → Ok t c s) (hno : ∀ s, Inv s → P s → Ok t c' s) :
    Ok t (answer c c') s := by
  apply Contract.Ok.pick hP hs
  intro s w hi hp
  split
  · exact hyes s hi hp
  · exact hno s hi hp

theorem ok_read {c : Mem → Code} (hk : ∀ s, Inv s → P s → Ok t (c s) s) : Ok t (.read c) s :=
  Contract.Ok.read (fun s => Guar.refl t s) hP hs hk

end Actions

theorem ok_clear {c : Code} (hat : At t o k none s) (hsome : o fd = some f)
    (hk : ∀ s, Inv s → At t (Function.update o fd none) (fun g => k g + one f g) none s → Ok t c s) :
    Ok t (clear t fd c) s := by
  apply Contract.Ok.modify (stable_at t o k none) hat
  intro s hi ha
  obtain ⟨hi', hg, ha'⟩ := hi.clear ha hsome
  exact ⟨hi', hg, hk _ hi' ha'⟩

theorem ok_pipeclose {c : Code} (hat : At t o k (some (.pipeclose pi writable)) s)
    (hk : ∀ s, Inv s → At t o k none s → Ok t c s) : Ok t (pipeclose t pi writable c) s := by
  apply Contract.Ok.act (stable_at t o k _) hat
  intro s s' hi ha he
  injection he with he
  subst he
  obtain ⟨p, hp, hopens⟩ := hi.pipes.page_of_closing ha.closing
  obtain ⟨hi', hg, ha'⟩ := hi.shut ha hp hopens
  refine ⟨hi', hg, ?_⟩
  rw [hp]
  dsimp only
  split
  · next hopen =>
    rw [if_pos hopen] at ha'
    exact hk _ hi' ha'
  · next hopen =>
    rw [if_neg hopen] at ha'
    apply Contract.Ok.modify (stable_at t o k _) ha'
    intro s hi ha
    obtain ⟨hi', hg, ha'⟩ := hi.kfree ha
    exact ⟨hi', hg, hk _ hi' ha'⟩

/-- `fileclose` gives back a reference that the process has, and closes the pipe with the last of them. -/
theorem ok_fileclose {c : Code} (hat : At t o k none s) (hf : f < NFILE) (hmine : 1 ≤ slots o f + k f)
    (hk : ∀ s, Inv s → At t o (fun g => k g - one f g) none s → Ok t c s) : Ok t (fileclose t f c) s := by
  apply Contract.Ok.act (stable_at t o k none) hat
  intro s s' hi ha he
  have hshare : 1 ≤ s.share t f := by rwa [ha.share]
  have hpos := hi.ref_pos hf hshare
  injection he with he
  rw [if_neg (by omega)] at he
  subst he
  obtain ⟨hi', hg, ha'⟩ := hi.drop ha hf hshare
  refine ⟨hi', hg, ?_⟩
  rw [if_neg (by omega)]
  have hlast : s.lastPipe f = none ∨ s.lastPipe f = some (.pipeclose (s.file f).pipe (s.file f).writable) := by
    rw [Mem.lastPipe]
    split
    · exact .inl rfl
    · split
      · exact .inr rfl
      · exact .inl rfl
  rcases hlast with hlast | hlast
  · rw [hlast] at ha' ⊢
    exact hk _ hi' ha'
  · rw [hlast] at ha' ⊢
    exact ok_pipeclose ha' hk

end PbsCow.OpenFiles
