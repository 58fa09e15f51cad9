import PbsCow.KernelSwitch

namespace PbsCow
set_option autoImplicit true

variable {C : Type}

/-- Another slot, when CPU `c` takes or drops the process in the only slot that it has locked. -/
theorem SameLogs.fine_of_cpu {s s' : Kmem C} (h : SameLogs s s') (hi : KernelInv s)
    (hj : SameSlot s s' j) (hl : s.lock (.proc j) ≠ some c)
    (hc : ∀ c', c' ≠ c → s'.cpu c' = s.cpu c') (h₁ : s.cpu c ≠ some j) (h₂ : s'.cpu c ≠ some j) :
    Fine s' j := by
  refine h.fine (hi.fine j) hj (fun c' => ?_) fun c' hlock => hc c' ?_
  · by_cases hc' : c' = c
    · subst hc'
      exact ⟨fun he => (h₂ he).elim, fun he => (h₁ he).elim⟩
    · rw [hc c' hc']
  · rintro rfl
    exact hl hlock

theorem KernelInv.awake {s : Kmem C} (hi : KernelInv s) (hl : s.lock (.proc i) = some c)
    (hc : s.cpu c ≠ some i) (hs : (s.proc i).state ≠ .SLEEPING) : s.asleep i = none := by
  cases ha : s.asleep i with
  | none => rfl
  | some chan => exact (hs ((hi.asleep_iff hl hc chan).1 ha).1).elim

/-- The scheduler of CPU `c` makes its choice run. Nobody else can have it: its lock is held. -/
theorem dispatch_step {s s' : Kmem C} (hi : KernelInv s) (ha : At c none [.proc h] s)
    (hr : (s.proc h).state = .RUNNABLE) (hlogs : SameLogs s s')
    (hself : s'.proc h = { s.proc h with state := .RUNNING })
    (hsame : ∀ j, j ≠ h → SameSlot s s' j) (hcpu : s'.cpu c = some h)
    (hcpu' : ∀ c', c' ≠ c → s'.cpu c' = s.cpu c') (hstack : s'.stack = s.stack)
    (hsaved : s'.saved = s.saved) (hasl : s'.asleep h = s.asleep h)
    (hctx : s'.context h = s.context h) (hfk : s'.forker h = s.forker h) :
    (KernelInv s' ∧ KernelGuar c s s') ∧ Enters c h s' := by
  have hl : s.lock (.proc h) = some c := (ha.holds _).2 (by simp)
  have hn : s.asleep h = none := hi.awake hl (by rw [ha.cpu]; simp) (by rw [hr]; simp)
  have hother (c' : C) (hc : s.cpu c' = some h) : c' = c := by
    have := (hi.fine h).lock_of_cpu (by rw [hr]; simp) hc
    rw [hl] at this
    injection this with this
    exact this.symm
  have hst : (s'.proc h).state = .RUNNING := by rw [hself]
  have hne (x : ProcState) (hx : x ≠ .RUNNING) : (s'.proc h).state ≠ x := fun he => hx (he ▸ hst)
  have hg : KernelGuar c s s' := by
    refine ⟨fun c' hc => ⟨hcpu' c' hc, by rw [hstack]⟩, fun l c' _ => by rw [hlogs.lock],
      fun j hj => ?_, fun j _ hj => ?_, fun j _ hz => ?_, fun j _ => ?_, fun j chan _ hj => ?_,
      fun n _ => by rw [hlogs.woken, hlogs.cond]; exact ⟨rfl, rfl⟩⟩
    · have hjh := hsame j fun he => hj (he ▸ hl)
      exact ⟨hjh.state, hjh.asleep⟩
    · have hjh := hsame j fun he => by
        rw [he, hr] at hj
        cases hj
      exact ⟨hjh.state.trans hj, hjh.asleep⟩
    · by_cases hjh : j = h
      · subst hjh
        exact (hne .ZOMBIE (by simp) hz).elim
      · exact (hsame j hjh).state.symm.trans hz
    · by_cases hjh : j = h
      · rw [hjh, hself]
        exact .inl rfl
      · exact .inl (hsame j hjh).parent
    · by_cases hjh : j = h
      · rw [hjh, hasl, ← hjh] at hj
        exact hj
      · exact (hsame j hjh).asleep.symm.trans hj
  have hf := hi.fine h
  have hfine : Fine s' h := by
    refine ⟨fun _ => ⟨c, hcpu⟩, fun _ _ => .inl hst, fun chan hch => ?_,
      fun he => (hne .SLEEPING (by simp) he).elim, fun he => (hne .UNUSED (by simp) he).elim,
      fun he => (hne .USED (by simp) he).elim, by rw [hctx]; exact hf.entry, ?_,
      fun he => (hne .ZOMBIE (by simp) he).elim, fun e he hid => ?_, fun r hr' hid => ?_, ?_⟩
    · rw [hasl, hn] at hch
      cases hch
    · rw [hself, hfk, hlogs.initproc]
      exact hf.parent
    · rw [hlogs.exits] at he
      rw [hlogs.uid] at hid
      have := hf.exited e he hid
      simp [hr] at this
    · rw [hlogs.reaps] at hr'
      rw [hlogs.uid] at hid
      have := hf.reaped r hr' hid
      simp [hr] at this
    · rw [hlogs.uid, hlogs.nextuid]
      exact hf.uid
  refine ⟨⟨hlogs.inv hi hg (fun j => ?_) (fun c' q hq => ?_) fun a b q hqa hqb => ?_, hg⟩,
    hcpu, hst, hasl.trans hn, fun k => by rw [hlogs.lock]; exact ha.holds k⟩
  · by_cases hjh : j = h
    · exact hjh ▸ hfine
    · refine hlogs.fine_of_cpu hi (hsame j hjh) (fun hlock => ?_) hcpu' (by rw [ha.cpu]; simp) ?_
      · have := (ha.holds _).1 hlock
        simp [hjh] at this
      · rw [hcpu]
        simpa using Ne.symm hjh
  · rw [hstack] at hq
    have hc : c' ≠ c := by
      rintro rfl
      rw [ha.stack] at hq
      cases hq
    rw [hcpu' c' hc, hsaved]
    exact hi.stack c' q hq
  · by_cases hac : a = c
    · by_cases hbc : b = c
      · rw [hac, hbc]
      · rw [hac, hcpu] at hqa
        rw [hcpu' b hbc, ← hqa] at hqb
        exact hac.trans (hother b hqb).symm
    · rw [hcpu' a hac] at hqa
      by_cases hbc : b = c
      · rw [hbc, hcpu] at hqb
        rw [← hqb] at hqa
        exact (hother a hqa).trans hbc.symm
      · rw [hcpu' b hbc] at hqb
        exact hi.one a b q hqa hqb

/-- The scheduler of CPU `c` is done with a process. -/
theorem back_step {s s' : Kmem C} (hi : KernelInv s) (hv : Leaves c h none [.proc h] s)
    (hlogs : SameLogs s s') (hsame : ∀ j, SameSlot s s' j) (hcpu : s'.cpu c = none)
    (hcpu' : ∀ c', c' ≠ c → s'.cpu c' = s.cpu c') (hstack : s'.stack = s.stack)
    (hsaved : s'.saved = s.saved) :
    (KernelInv s' ∧ KernelGuar c s s') ∧ At c none [.proc h] s' ∧ (s'.proc h).state ≠ .USED := by
  have hg : KernelGuar c s s' :=
    ⟨fun c' hc => ⟨hcpu' c' hc, by rw [hstack]⟩, fun l c' _ => by rw [hlogs.lock],
      fun j _ => ⟨(hsame j).state, (hsame j).asleep⟩,
      fun j _ hj => ⟨(hsame j).state.trans hj, (hsame j).asleep⟩,
      fun j _ hz => (hsame j).state.symm.trans hz, fun j _ => .inl (hsame j).parent,
      fun j chan _ hj => (hsame j).asleep.symm.trans hj,
      fun n _ => by rw [hlogs.woken, hlogs.cond]; exact ⟨rfl, rfl⟩⟩
  have hf := hi.fine h
  have hj := hsame h
  have hfine : Fine s' h := by
    refine ⟨fun he => (hv.state (hj.state.symm.trans he)).elim, fun c' hc => ?_, fun chan hch => ?_,
      ?_, ?_, fun he => (hv.not_used (hj.state.symm.trans he)).elim, by rw [hj.context]; exact hf.entry,
      ?_, fun hz => ?_, ?_, ?_, ?_⟩
    · by_cases hcc : c' = c
      · rw [hcc, hcpu] at hc
        cases hc
      · rw [hcpu' c' hcc] at hc
        exact (hcc (hi.one c' c h hc hv.cpu)).elim
    · rw [hj.asleep] at hch
      left
      rw [hj.state, hj.chan]
      by_cases hs : (s.proc h).state = .SLEEPING
      · have := (hf.sleeping hs).symm.trans hch
        injection this with this
        exact ⟨hs, this⟩
      · rw [hv.asleep hs] at hch
        cases hch
    · rw [hj.state, hj.asleep, hj.chan]
      exact hf.sleeping
    · rw [hj.state, hj.parent]
      exact hf.unused
    · rw [hj.parent, hj.forker, hlogs.initproc]
      exact hf.parent
    · rw [hj.state] at hz
      obtain ⟨e, he, ho⟩ := hf.zombie hz
      obtain ⟨h₁, h₂, h₃, h₄, h₅⟩ := hj.record hz
      refine ⟨e, by rwa [hlogs.exits], ?_⟩
      rw [Exit.Of, hlogs.uid, h₁, h₂, h₃, h₄, h₅]
      exact ho
    · rw [hlogs.exits, hlogs.uid, hj.state]
      exact hf.exited
    · rw [hlogs.reaps, hlogs.uid, hj.state]
      exact hf.reaped
    · rw [hlogs.uid, hlogs.nextuid]
      exact hf.uid
  refine ⟨⟨hlogs.inv hi hg (fun j => ?_) (fun c' q hq => ?_) fun a b q hqa hqb => ?_, hg⟩,
    ⟨by rw [hstack]; exact hv.stack, hcpu, by simp, fun k => by rw [hlogs.lock]; exact hv.holds k⟩,
    by rw [hj.state]; exact hv.not_used⟩
  · by_cases hjh : j = h
    · exact hjh ▸ hfine
    · refine hlogs.fine_of_cpu hi (hsame j) (fun hlock => ?_) hcpu' ?_ (by rw [hcpu]; simp)
      · have := (hv.holds _).1 hlock
        simp [hjh] at this
      · rw [hv.cpu]
        simpa using Ne.symm hjh
  · rw [hstack] at hq
    have hc : c' ≠ c := by
      rintro rfl
      rw [hv.stack] at hq
      cases hq
    rw [hcpu' c' hc, hsaved]
    exact hi.stack c' q hq
  · have hac : a ≠ c := fun he => by
      rw [he, hcpu] at hqa
      cases hqa
    have hbc : b ≠ c := fun he => by
      rw [he, hcpu] at hqb
      cases hqb
    rw [hcpu' a hac] at hqa
    rw [hcpu' b hbc] at hqb
    exact hi.one a b q hqa hqb

end PbsCow
