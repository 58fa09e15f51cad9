import PbsCow.KernelExits

namespace PbsCow
set_option autoImplicit true

variable {C : Type}

theorem Kmem.NoMiss.missOnly {s : Kmem C} (h : s.NoMiss) (R : Slot → Prop) : s.MissOnly R :=
  fun p i hp hz hpar => (h p i hp hz hpar).elim

theorem Kmem.MissOnly.noMiss {s : Kmem C} (h : s.MissOnly fun _ => False) : s.NoMiss :=
  fun p i hp hz hpar => h p i hp hz hpar

theorem Steady.noMiss (hw : .wait ∈ l) : Steady (C := C) c me l Kmem.NoMiss := by
  have h : Steady c me l (Kmem.MissOnly (C := C) fun _ => False) := Steady.missOnly hw _
  refine ⟨fun l' hl s s' hs hr => ?_, fun s f g h => h⟩
  obtain ⟨ha, hm⟩ := h.stable l' hl s s' ⟨hs.1, hs.2.missOnly _⟩ hr
  exact ⟨ha, hm.noMiss⟩

theorem Woken.missOnly {s s' : Kmem C} (h : Woken (.proc (some q)) i s s')
    (hm : s.MissOnly fun p => p = q ∧ p ∈ i :: r) : s'.MissOnly fun p => p = q ∧ p ∈ r := by
  intro p j hp hz hpar
  rw [h.zombie j] at hz
  rw [h.parent j] at hpar
  obtain ⟨he, hmem⟩ := hm p j (h.asleep p _ hp) hz hpar
  refine ⟨he, (List.mem_cons.1 hmem).resolve_left fun hpi => ?_⟩
  subst he hpi
  exact h.self hp

theorem Woken.noMiss {s s' : Kmem C} (h : Woken chan i s s') (hm : s.NoMiss) : s'.NoMiss := by
  intro p j hp hz
  rw [h.zombie j] at hz
  rw [h.parent j]
  exact hm p j (h.asleep p _ hp) hz

theorem Woken.awake {s s' : Kmem C} (h : Woken (.proc q) i s s') (hm : s.Awake q R) :
    s'.Awake q fun p => R p ∧ p ≠ i := by
  intro p hq hp
  refine ⟨hm p hq (h.asleep p _ hp), fun hpi => ?_⟩
  subst hq hpi
  exact h.self hp

/-- A zombie that its CPU has still to leave does not make its parent miss it. -/
theorem setZombie_noMiss {s : Kmem C} (hn : s.NoMiss) (hp : s.asleep p = none)
    (hw : ∀ q, (s.proc p).parent = some q → s.asleep q = some (.proc (some q)) → q = p) :
    (Smp.setZombie p status s).NoMiss := by
  intro q i hq hz hpar
  change s.asleep q = some (.proc (some q)) at hq
  by_cases hi : i = p
  · subst hi
    have hpar : (s.proc i).parent = some q := by
      simpa [Smp.setZombie] using hpar
    have he := hw q hpar hq
    rw [he, hp] at hq
    cases hq
  · rw [Smp.setZombie, Kmem.setProc_of_ne _ hi] at hz hpar
    exact hn q i hq hz hpar

theorem reap_noMiss {s : Kmem C} (hn : s.NoMiss) : (Smp.reap p x addr pp s).NoMiss := by
  intro q i hq hz
  have hi : i ≠ pp := by
    rintro rfl
    simp [Smp.reap, Smp.freeproc] at hz
  rw [Smp.reap, Smp.freeproc, Kmem.setProc_of_ne _ hi] at hz ⊢
  exact hn q i hq hz

variable [DecidableEq C]

/-- `exit` drops `wait_lock` when nobody can miss the zombie, and never returns. -/
theorem KernelOk.bury {s : Kmem C} (hv : Leaves c p (some p) [.proc p, .wait] s) (hn : s.NoMiss) :
    KernelOk c (Smp.release c .wait (Smp.sched c p (.dead p))) s := by
  have hstable : kernelContract.Stable c fun s : Kmem C =>
      Leaves c p (some p) [.proc p, .wait] s ∧ s.NoMiss := by
    intro s s' hs hr
    refine ⟨Leaves.stable _ _ _ _ s s' hs.1 hr, ?_⟩
    obtain ⟨_, _, c', hc, hg⟩ := hr
    exact hg.noMiss (Kmem.not_held ((hs.1.holds _).2 (by simp)) hc) hs.2
  refine .act hstable ⟨hv, hn⟩ fun s s' hi hs hf => ?_
  obtain ⟨hv, hn⟩ := hs
  rw [Kmem.release] at hf
  split at hf
  case isFalse => cases hf
  case isTrue hx =>
    injection hf with hf
    subst hf
    obtain ⟨hi', hg⟩ := hi.drop hx (by simp) (fun _ => hn) (by simp)
    refine ⟨hi', hg, KernelOk.sched rfl ⟨hv.stack, hv.cpu, hv.state, hv.not_used, hv.asleep, by simp,
      fun k => ?_⟩⟩
    dsimp only
    rw [owner_drop, hv.holds k]
    simp only [List.mem_cons, List.not_mem_nil, or_false]
    refine ⟨fun h => h.1.resolve_right h.2, fun h => ⟨.inl h, ?_⟩⟩
    rw [h]
    simp

/-- Each child of the process goes to `init`, which is woken in case that the child is a zombie. -/
theorem KernelOk.reparent {s : Kmem C} (hinit : p ≠ Smp.first) (ha : At c (some p) [.wait] s)
    (hn : s.NoMiss) (hk : ∀ s, At c (some p) [.wait] s → s.NoMiss → KernelOk c k s) :
    KernelOk c (Smp.reparent c p k l) s := by
  induction l generalizing s with
  | nil => exact hk s ha hn
  | cons pp l ih =>
    have hN : Steady c (some p) [.wait] (Kmem.NoMiss (C := C)) := .noMiss (by simp)
    have hM (R : Slot → Prop) : Steady c (some p) [.wait] (Kmem.MissOnly (C := C) R) :=
      .missOnly (by simp) R
    refine .read hN ha hn fun s _ ha hn => ?_
    split
    case isFalse => exact ih ha hn
    case isTrue hpar =>
      refine .modify (hN.and (.child (by simp) p pp)) ha ⟨hn, hpar⟩ fun s hi ha hs => ?_
      obtain ⟨hstep, ha', hm⟩ := reparent_step hi ha hs.2 hs.1
      refine ⟨hstep, .read (hM _) ha' hm fun s hi ha hm => ?_⟩
      rw [hi.init]
      refine .wakeup (Q := fun r => Kmem.MissOnly fun q => q = Smp.first ∧ q ∈ r) (fun r => hM _)
        (by simp) (fun i r s s' hw hq => hw.missOnly hq) ha (fun q i hq hz hpar => ?_)
        fun s ha hq => ih ha fun q i hq' hz hpar => ?_
      · have he := hm q i hq hz hpar
        refine ⟨he, ?_⟩
        subst he
        simp [Smp.slots, Ne.symm hinit]
      · have := (hq q i hq' hz hpar).2
        simp at this

theorem KernelOk.exit {s : Kmem C} (ha : At c (some p) [] s) : KernelOk c (Smp.exit c p status) s := by
  have hN {l : List Lock} (hl : .wait ∈ l) : Steady c (some p) l (Kmem.NoMiss (C := C)) := .noMiss hl
  refine .read (.true c _ _) ha trivial fun s hi ha _ => ?_
  split
  case isTrue => exact trivial
  case isFalse hne =>
    rw [hi.init] at hne
    refine .acquire (.true c _ []) ha trivial fun s hi hfree _ ha => ?_
    refine .reparent hne ha (hi.noMiss hfree.1) fun s ha hn => ?_
    refine .read (hN (by simp)) ha hn fun s _ ha hn => ?_
    generalize hv : (s.proc p).parent = v
    -- the parent is awake once `wakeup` has passed its slot, and cannot go to sleep without the lock
    have hQ {l : List Lock} (hl : .wait ∈ l) (r : List Slot) : Steady c (some p) l fun s : Kmem C =>
        s.NoMiss ∧ (s.proc p).parent = v ∧ s.Awake v fun q => q = p ∨ q ∈ r :=
      .and (hN hl) (.and (.parent hl p v) (.awake hl v _))
    refine .wakeup (hQ (by simp)) (by simp) (fun i r s s' hw hq => ?_) ha ⟨hn, hv, fun q _ _ => ?_⟩
      fun s ha hq => ?_
    · refine ⟨hw.noMiss hq.1, (hw.parent p).trans hq.2.1, fun q hvq hq' => ?_⟩
      obtain ⟨hR, hne⟩ := hw.awake hq.2.2 q hvq hq'
      exact hR.imp_right fun hmem => (List.mem_cons.1 hmem).resolve_left hne
    · by_cases hqp : q = p
      · exact .inl hqp
      · simp [Smp.slots, hqp]
    · refine .acquire (hQ (by simp) []) ha hq fun s hi hfree hq ha => ?_
      refine .modify (hQ (by simp) []) ha hq fun s hi ha hq => ?_
      obtain ⟨hr, hasl⟩ := ha.run p rfl
      refine ⟨setZombie_step hi ha status, .bury ⟨ha.stack, ha.cpu, ?_, ?_, fun _ => hasl, by simp,
        ha.holds⟩ (setZombie_noMiss hq.1 hasl fun q hpar hq' => ?_)⟩
      · simp [Smp.setZombie]
      · simp [Smp.setZombie]
      · have := hq.2.2 q (hq.2.1.symm.trans hpar) hq'
        simpa using this

theorem KernelOk.killed {s : Kmem C} {k : Bool → Code C} (hl : ∀ i, .proc i ∉ l)
    (hQ : Steady c me l Q) (ha : At c me l s) (hq : Q s)
    (hk : ∀ s b, At c me l s → Q s → KernelOk c (k b) s) : KernelOk c (Smp.killed c p k) s := by
  have hQ' : Steady c me (.proc p :: l) Q := hQ.mono (by simp)
  refine .acquire hQ ha hq fun s hi hfree hq ha => ?_
  refine .read (.and hQ' (.state (i := p) (by simp) fun st => st ≠ .USED)) ha
    ⟨hQ.lock s _ _ hq, hi.not_used hfree.1⟩ fun s _ ha hs => ?_
  exact .releaseSlot l (by simp) hQ' ha hs.1 hs.2 (mem_drop_head (hl p)) fun s ha hq => hk s _ ha hq

/-- `wait` returns: it drops the lock of the child that it looked at, and `wait_lock`. -/
theorem KernelOk.waited {s : Kmem C} (ha : At c (some p) [.proc pp, .wait] s) (hn : s.NoMiss)
    (hu : (s.proc pp).state ≠ .USED) :
    KernelOk c (Smp.release c (.proc pp) (Smp.release c .wait (.goto (.point p .user)))) s := by
  refine .releaseSlot [.wait] (by simp) (.noMiss (by simp)) ha hn hu (mem_drop_head (by simp)) fun s ha hn => ?_
  exact .release [] (.noMiss (by simp)) ha hn (by simp) (fun s _ _ hn => ⟨by simp, fun _ => hn, by simp⟩)
    fun s ha _ => ha

theorem KernelOk.waitScan {s : Kmem C} (ha : At c (some p) [.wait] s) (hn : s.NoMiss)
    (hl : s.Left p l) : KernelOk c (Smp.waitScan c p x addr l havekids) s := by
  have hN {l : List Lock} (hw : .wait ∈ l) : Steady c (some p) l (Kmem.NoMiss (C := C)) := .noMiss hw
  induction l generalizing s havekids with
  | nil =>
    have hQ : Steady c (some p) [.wait] fun s : Kmem C => s.NoMiss ∧ s.Left p [] :=
      .and (hN (by simp)) (.left (by simp) p [])
    have hover (s : Kmem C) (ha : At c (some p) [.wait] s) (hn : s.NoMiss) :
        KernelOk c (Smp.release c .wait (.goto (.point p .user))) s :=
      .release [] (hN (by simp)) ha hn (by simp) (fun s _ _ hn => ⟨by simp, fun _ => hn, by simp⟩)
        fun s ha _ => ha
    have hagain (b : Bool) (s : Kmem C) (ha : At c (some p) [.wait] s) (hq : s.NoMiss ∧ s.Left p []) :
        KernelOk c (if b then Smp.release c .wait (.goto (.point p .user))
          else Smp.sleep c p (.proc (some p)) .wait (.wait x addr)) s := by
      split
      case isTrue => exact hover s ha hq.1
      case isFalse =>
        refine .sleep rfl (by simp) hQ ha hq fun s _ hq => ⟨fun _ => ⟨hq.1, fun i hz hpar => ?_⟩, by simp⟩
        have := hq.2 i hz hpar
        simp at this
    rw [Smp.waitScan]
    split
    case isFalse => exact hover s ha hn
    case isTrue =>
      split
      case isTrue => exact .read hQ ha ⟨hn, hl⟩ fun s _ ha hq => hagain _ s ha hq
      case isFalse => exact .killed (by simp) hQ ha ⟨hn, hl⟩ fun s b ha hq => hagain b s ha hq
  | cons pp l ih =>
    have hQ {k : List Lock} (hw : .wait ∈ k) (r : List Slot) : Steady c (some p) k fun s : Kmem C =>
        s.NoMiss ∧ s.Left p r := .and (hN hw) (.left hw p r)
    -- a slot that is not a zombie child now will not become one under the lock
    have hskip (s : Kmem C) (hl : s.Left p (pp :: l))
        (h : (s.proc pp).state = .ZOMBIE → (s.proc pp).parent ≠ some p) : s.Left p l := by
      intro i hz hpar
      refine (List.mem_cons.1 (hl i hz hpar)).resolve_left fun hi => ?_
      subst hi
      exact h hz hpar
    rw [Smp.waitScan]
    refine .read (hQ (by simp) _) ha ⟨hn, hl⟩ fun s _ ha hq => ?_
    split
    case isFalse hpar => exact ih ha hq.1 (hskip s hq.2 fun _ => hpar)
    case isTrue hpar =>
      have hC {k : List Lock} (hw : .wait ∈ k) : Steady c (some p) k fun s : Kmem C =>
          (s.NoMiss ∧ s.Left p (pp :: l)) ∧ (s.proc pp).parent = some p :=
        .and (hQ hw _) (.child hw p pp)
      have hst (P : ProcState → Prop) : Steady c (some p) [.proc pp, .wait] fun s : Kmem C =>
          P (s.proc pp).state := .state (by simp) P
      refine .acquire (hC (by simp)) ha ⟨hq, hpar⟩ fun s hi hfree hq ha => ?_
      refine .read (.and (hC (by simp)) (hst (· ≠ .USED))) ha ⟨hq, hi.not_used hfree.1⟩
        fun s _ ha hq => ?_
      have hreap (s : Kmem C) (ha : At c (some p) [.proc pp, .wait] s)
          (hq : ((s.NoMiss ∧ s.Left p (pp :: l)) ∧ (s.proc pp).parent = some p) ∧
            (s.proc pp).state = .ZOMBIE) :
          KernelOk c (.modify (Smp.reap p x addr pp) (Smp.release c (.proc pp)
            (Smp.release c .wait (.goto (.point p .user))))) s := by
        refine .modify (.and (hC (by simp)) (hst (· = .ZOMBIE))) ha hq fun s hi ha hq => ?_
        obtain ⟨hstep, ha'⟩ := reap_step hi ha hq.2 hq.1.2 x addr
        exact ⟨hstep, .waited ha' (reap_noMiss hq.1.1.1) (by simp [Smp.reap, Smp.freeproc])⟩
      split
      case isTrue hz =>
        refine .pick (.and (hC (by simp)) (hst (· = .ZOMBIE))) ha ⟨hq.1, hz⟩ fun s w ha hq => ?_
        split
        case h_1 =>
          split
          case isTrue => exact .waited ha hq.1.1.1 (by rw [hq.2]; simp)
          case isFalse => exact hreap s ha hq
        case h_2 => exact hreap s ha hq
      case isFalse hz =>
        refine .releaseSlot [.wait] (by simp) (hQ (by simp) l) ha
          ⟨hq.1.1.1, hskip s hq.1.1.2 fun h => (hz h).elim⟩ hq.2 (mem_drop_head (by simp))
          fun s ha hq => ?_
        exact ih ha hq.1 hq.2

theorem KernelOk.wait {s : Kmem C} (ha : At c (some p) [] s) :
    KernelOk c (Smp.acquire c .wait (Smp.waitScan c p x addr Smp.slots false)) s :=
  .acquire (.true c _ []) ha trivial fun _ hi hfree _ ha =>
    .waitScan ha (hi.noMiss hfree.1) fun i _ _ => by simp [Smp.slots]

end PbsCow
