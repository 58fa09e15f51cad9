import PbsCow.KernelForks

namespace PbsCow
set_option autoImplicit true

variable {C : Type}

/-- Only the processes in `R` may sleep in `wait` while a child of theirs is a zombie. -/
def Kmem.MissOnly (R : Slot → Prop) (s : Kmem C) : Prop :=
  ∀ p i, s.asleep p = some (.proc (some p)) → (s.proc i).state = .ZOMBIE →
    (s.proc i).parent = some p → R p

/-- The zombies among the children of `p` are in the list. -/
def Kmem.Left (p : Slot) (l : List Slot) (s : Kmem C) : Prop :=
  ∀ i, (s.proc i).state = .ZOMBIE → (s.proc i).parent = some p → i ∈ l

/-- The process `q` does not sleep in `wait`, unless it is in `R`. -/
def Kmem.Awake (q : Option Slot) (R : Slot → Prop) (s : Kmem C) : Prop :=
  ∀ p, q = some p → s.asleep p = some (.proc (some p)) → R p

/-- A zombie after a step of a CPU without `wait_lock` was one before it, with the same parent. -/
theorem KernelGuar.child {s s' : Kmem C} (hg : KernelGuar c s s') (hl : s.lock .wait ≠ some c)
    (hz : (s'.proc i).state = .ZOMBIE) :
    (s.proc i).state = .ZOMBIE ∧ (s'.proc i).parent = (s.proc i).parent := by
  have hz' := hg.zombie i hl hz
  refine ⟨hz', (hg.parent i hl).resolve_right fun hu => ?_⟩
  rw [hu.1] at hz'
  cases hz'

theorem Steady.missOnly (hw : .wait ∈ l) (R : Slot → Prop) :
    Steady (C := C) c me l (Kmem.MissOnly R) := by
  refine ⟨fun l' hl s s' hs hr => ⟨At.stable c me l' s s' hs.1 hr, fun p i hp hz hpar => ?_⟩,
    fun _ _ _ h => h⟩
  obtain ⟨_, _, c', hc, hg⟩ := hr
  have hlock := Kmem.not_held ((hs.1.holds _).2 (hl hw)) hc
  obtain ⟨hz', he⟩ := hg.child hlock hz
  exact hs.2 p i (hg.asleep p _ hlock hp) hz' (he ▸ hpar)

theorem Steady.left (hw : .wait ∈ l) (p : Slot) (r : List Slot) :
    Steady (C := C) c me l (Kmem.Left p r) := by
  refine ⟨fun l' hl s s' hs hr => ⟨At.stable c me l' s s' hs.1 hr, fun i hz hpar => ?_⟩,
    fun _ _ _ h => h⟩
  obtain ⟨_, _, c', hc, hg⟩ := hr
  obtain ⟨hz', he⟩ := hg.child (Kmem.not_held ((hs.1.holds _).2 (hl hw)) hc) hz
  exact hs.2 i hz' (he ▸ hpar)

theorem Steady.awake (hw : .wait ∈ l) (q : Option Slot) (R : Slot → Prop) :
    Steady (C := C) c me l (Kmem.Awake q R) := by
  refine ⟨fun l' hl s s' hs hr => ⟨At.stable c me l' s s' hs.1 hr, fun p hq hp => ?_⟩,
    fun _ _ _ h => h⟩
  obtain ⟨_, _, c', hc, hg⟩ := hr
  exact hs.2 p hq (hg.asleep p _ (Kmem.not_held ((hs.1.holds _).2 (hl hw)) hc) hp)

/-- While a process holds `wait_lock`, its children stay its children: only the parent that forks
writes `np->parent` without the lock. -/
theorem Steady.child (hw : .wait ∈ l) (p i : Slot) :
    Steady (C := C) c (some p) l fun s => (s.proc i).parent = some p := by
  refine ⟨fun l' hl s s' hs hr => ⟨At.stable c (some p) l' s s' hs.1 hr, ?_⟩, fun _ _ _ h => h⟩
  obtain ⟨hi, _, c', hc, hg⟩ := hr
  rcases hg.parent i (Kmem.not_held ((hs.1.holds _).2 (hl hw)) hc) with he | ⟨hu, hlock⟩
  · exact he.trans hs.2
  · obtain ⟨c₁, hc₁, hpar⟩ := (hi.fine i).used hu
    rw [hlock] at hc₁
    injection hc₁ with hc₁
    subst hc₁
    exact (hs.1.not_cpu hi hc (hpar p hs.2)).elim

/-- A running process that holds `wait_lock` keeps its parent. -/
theorem Steady.parent (hw : .wait ∈ l) (p : Slot) (v : Option Slot) :
    Steady (C := C) c (some p) l fun s => (s.proc p).parent = v := by
  refine ⟨fun l' hl s s' hs hr => ⟨At.stable c (some p) l' s s' hs.1 hr, ?_⟩, fun _ _ _ h => h⟩
  obtain ⟨_, _, c', hc, hg⟩ := hr
  rcases hg.parent p (Kmem.not_held ((hs.1.holds _).2 (hl hw)) hc) with he | ⟨hu, _⟩
  · exact he.trans hs.2
  · rw [(hs.1.run p rfl).1] at hu
    cases hu

/-- A write of the holder of `wait_lock` that changes only who the parent of a slot is. -/
theorem SlotStep.adopt {s s' : Kmem C} (h : SlotStep i s s') (hi : KernelInv s)
    (hw : s.lock .wait = some c) (hc : s.cpu c = some p) (hl : s.lock (.proc i) ≠ some c)
    (hp : (s.proc i).parent = some p) (hself : s'.proc i = { s.proc i with parent := some s.initproc })
    (ha : s'.asleep i = s.asleep i) (hctx : s'.context i = s.context i) :
    KernelInv s' ∧ KernelGuar c s s' := by
  have hst : (s'.proc i).state = (s.proc i).state := by rw [hself]
  have hall (j : Slot) : (s'.proc j).state = (s.proc j).state ∧ s'.asleep j = s.asleep j := by
    by_cases hj : j = i
    · exact hj ▸ ⟨hst, ha⟩
    · rw [h.proc j hj]
      exact ⟨rfl, h.asleep j hj⟩
  have hg : KernelGuar c s s' := by
    refine ⟨fun c' _ => by rw [h.cpu, h.stack]; exact ⟨rfl, rfl⟩, fun l c' _ => by rw [h.lock],
      fun j _ => hall j, fun j _ hj => ⟨(hall j).1.trans hj, (hall j).2⟩,
      fun _ hn => (hn hw).elim, fun _ hn => (hn hw).elim,
      fun j chan _ hj => (hall j).2.symm.trans hj,
      fun n _ => by rw [h.woken, h.cond]; exact ⟨rfl, rfl⟩⟩
  have hf := hi.fine i
  have hunused : (s.proc i).state ≠ .UNUSED := by
    intro hu
    rw [hf.unused hu] at hp
    cases hp
  have hused : (s.proc i).state ≠ .USED := by
    intro hu
    obtain ⟨c', hc', hpar⟩ := hf.used hu
    rw [hi.one c' c p (hpar p hp) hc] at hc'
    exact hl hc'
  refine ⟨h.inv hi hg ⟨fun hr => ?_, fun c' hcpu => ?_, fun chan hch => ?_, ?_,
    fun hu => (hunused (hst ▸ hu)).elim, fun hu => (hused (hst ▸ hu)).elim,
    by rw [hctx]; exact hf.entry, fun q hq => ?_, fun hz => ?_, ?_, ?_, ?_⟩, hg⟩
  · rw [hst] at hr
    rw [h.cpu]
    exact hf.running hr
  · rw [h.cpu] at hcpu
    rw [hst, h.lock]
    exact hf.cpu c' hcpu
  · rw [ha] at hch
    rw [hself, h.lock, h.cpu]
    exact hf.asleep chan hch
  · rw [hself, ha]
    exact hf.sleeping
  · rw [hself] at hq
    injection hq with hq
    rw [h.initproc]
    exact .inr hq.symm
  · rw [hst] at hz
    obtain ⟨e, he, ho⟩ := hf.zombie hz
    refine ⟨e, by rwa [h.exits], ?_⟩
    rw [Exit.Of, h.uid, hself]
    exact ho
  · rw [h.exits, h.uid, hst]
    exact hf.exited
  · rw [h.reaps, h.uid, hst]
    exact hf.reaped
  · rw [h.uid, h.nextuid]
    exact hf.uid

/-- A child whose parent exits becomes a child of `init`, which may miss it until it is woken. -/
theorem reparent_step {s : Kmem C} (hi : KernelInv s) (ha : At c (some p) [.wait] s)
    (hp : (s.proc pp).parent = some p) (hn : s.NoMiss) :
    (KernelInv (s.setProc pp fun q => { q with parent := some s.initproc }) ∧
      KernelGuar c s (s.setProc pp fun q => { q with parent := some s.initproc })) ∧
    At c (some p) [.wait] (s.setProc pp fun q => { q with parent := some s.initproc }) ∧
    (s.setProc pp fun q => { q with parent := some s.initproc }).MissOnly (· = Smp.first) := by
  have hself := s.setProc_self pp fun q => { q with parent := some s.initproc }
  have hstep := SlotStep.setProc s pp fun q => { q with parent := some s.initproc }
  have hl : s.lock (.proc pp) ≠ some c := fun h => by
    have := (ha.holds _).1 h
    simp at this
  refine ⟨hstep.adopt hi ((ha.holds _).2 (by simp)) ha.cpu hl hp hself rfl rfl,
    ha.slotStep hstep fun he => ?_, fun q i hq hz hpar => ?_⟩
  · rw [hself]
    exact ha.run pp he
  · by_cases hip : i = pp
    · subst hip
      rw [hself] at hpar
      injection hpar with hpar
      exact hpar ▸ hi.init
    · rw [hstep.proc i hip] at hz hpar
      exact (hn q i hq hz hpar).elim

/-- The last writes of `exit`: the process becomes a zombie under both locks. -/
theorem setZombie_step {s : Kmem C} (hi : KernelInv s) (ha : At c (some p) [.proc p, .wait] s)
    (status : BitVec 32) :
    KernelInv (Smp.setZombie p status s) ∧ KernelGuar c s (Smp.setZombie p status s) := by
  have hself : (Smp.setZombie p status s).proc p =
      { s.proc p with xstate := status, state := .ZOMBIE, etime := s.ticks } := by
    simp [Smp.setZombie]
  have hproc (j : Slot) (hj : j ≠ p) : (Smp.setZombie p status s).proc j = s.proc j := by
    rw [Smp.setZombie, Kmem.setProc_of_ne _ hj]
  have hexits : (Smp.setZombie p status s).exits =
    ⟨s.uid p, (s.proc p).pid, status, (s.proc p).rtime, (s.proc p).ctime, s.ticks⟩ :: s.exits := rfl
  have hst : ((Smp.setZombie p status s).proc p).state = .ZOMBIE := by rw [hself]
  have hne (x : ProcState) (hx : x ≠ .ZOMBIE) : ((Smp.setZombie p status s).proc p).state ≠ x :=
    fun he => hx (he ▸ hst)
  obtain ⟨hr, hn⟩ := ha.run p rfl
  have hl := (ha.holds (.proc p)).2 (by simp)
  have hw := (ha.holds .wait).2 (by simp)
  have hf := hi.fine p
  have hnew (e : Exit) (he : e ∈ s.exits) : e.uid ≠ s.uid p := by
    intro hid
    have := hf.exited e he hid
    simp [hr] at this
  have hg : KernelGuar c s (Smp.setZombie p status s) := by
    refine ⟨fun _ _ => ⟨rfl, rfl⟩, fun _ _ _ => Iff.rfl, fun j hj => ?_, fun j hj hr => ?_,
      fun _ h => (h hw).elim, fun _ h => (h hw).elim, fun _ _ _ h => h, fun _ _ => ⟨rfl, rfl⟩⟩
    · rw [hproc j fun he => hj (he ▸ hl)]
      exact ⟨rfl, rfl⟩
    · rw [hproc j fun he => hj (he ▸ ha.cpu)]
      exact ⟨hr, rfl⟩
  have hfine : Fine (Smp.setZombie p status s) p := by
    refine ⟨fun he => (hne .RUNNING (by simp) he).elim, fun c' hcpu => .inr ?_, fun chan hch => ?_,
      fun he => (hne .SLEEPING (by simp) he).elim, fun he => (hne .UNUSED (by simp) he).elim,
      fun he => (hne .USED (by simp) he).elim, hf.entry, ?_, fun _ => ⟨_, hexits ▸ List.mem_cons_self, ?_⟩,
      fun _ _ _ => .inl hst, fun r hmem hid => ?_, hf.uid⟩
    · rw [hi.one c' c p hcpu ha.cpu]
      exact hl
    · have hch : s.asleep p = some chan := hch
      rw [hn] at hch
      cases hch
    · rw [hself]
      exact hf.parent
    · rw [Exit.Of, hself]
      rfl
    · have := hf.reaped r hmem hid
      rw [hr] at this
      cases this
  refine ⟨⟨fun j => ?_, hi.stack, hi.one, hi.uids, hi.init, fun e he => ?_, ?_, fun r hmem => ?_,
    hi.reap_once, fun h => ?_, fun n h hwk => hg.noSleeper (s.free_ne h) (hi.noSleeper n h hwk),
    hi.cond⟩, hg⟩
  · by_cases hj : j = p
    · exact hj ▸ hfine
    · have hp := hproc j hj
      refine (hi.fine j).other ⟨by rw [hp], by rw [hp], by rw [hp], fun _ => by simp [hp], rfl, rfl, rfl⟩
        rfl (fun _ => Iff.rfl) (fun _ _ => rfl) rfl rfl (le_refl _) (fun e he => ?_)
        (fun e he hid => ?_) fun _ h _ => h
      · rw [hexits]
        exact List.mem_cons_of_mem _ he
      · rw [hexits] at he
        cases he with
        | head => exact (hj (hi.uids p j hid).symm).elim
        | tail _ he => exact he
  · rw [hexits] at he
    cases he with
    | head => exact hf.uid
    | tail _ he => exact hi.exits e he
  · rw [hexits, List.map_cons, List.nodup_cons]
    refine ⟨fun hmem => ?_, hi.exit_once⟩
    obtain ⟨e, he, hid⟩ := List.mem_map.1 hmem
    exact hnew e he hid
  · obtain ⟨e, he, ho⟩ := hi.reaps r hmem
    refine ⟨e, ?_, ho⟩
    rw [hexits]
    exact List.mem_cons_of_mem _ he
  · have h : s.lock .wait = none := h
    rw [hw] at h
    cases h

/-- `wait` frees a zombie under both locks, and reports it to its parent. -/
theorem reap_step {s : Kmem C} (hi : KernelInv s) (ha : At c (some p) [.proc pp, .wait] s)
    (hz : (s.proc pp).state = .ZOMBIE) (hp : (s.proc pp).parent = some p) (x : Bool) (addr : Nat) :
    (KernelInv (Smp.reap p x addr pp s) ∧ KernelGuar c s (Smp.reap p x addr pp s)) ∧
    At c (some p) [.proc pp, .wait] (Smp.reap p x addr pp s) := by
  have hself : (Smp.reap p x addr pp s).proc pp = { s.proc pp with
      trapframe := 0, pagetable := 0, sz := 0, pid := 0, parent := none, chan := .none,
      killed := false, xstate := 0, state := .UNUSED } := by
    simp [Smp.reap, Smp.freeproc]
  have hproc (j : Slot) (hj : j ≠ pp) : (Smp.reap p x addr pp s).proc j = s.proc j := by
    rw [Smp.reap, Smp.freeproc, Kmem.setProc_of_ne _ hj]
  generalize hr : (Reap.mk (s.uid pp) p (s.proc pp).parent (s.forker pp) (s.proc pp).pid
    (if addr ≠ 0 then some (s.proc pp).xstate else none) (if x then some (s.proc pp).rtime else none)
    (if x then some ((s.proc pp).etime - (s.proc pp).ctime - (s.proc pp).rtime) else none)) = r
  have hreaps : (Smp.reap p x addr pp s).reaps = r :: s.reaps := by
    rw [← hr]
    rfl
  have hst : ((Smp.reap p x addr pp s).proc pp).state = .UNUSED := by rw [hself]
  have hne (y : ProcState) (hy : y ≠ .UNUSED) : ((Smp.reap p x addr pp s).proc pp).state ≠ y :=
    fun he => hy (he ▸ hst)
  have hpp : p ≠ pp := by
    rintro rfl
    rw [(ha.run p rfl).1] at hz
    cases hz
  have hl := (ha.holds (.proc pp)).2 (by simp)
  have hw := (ha.holds .wait).2 (by simp)
  have hf := hi.fine pp
  have hg : KernelGuar c s (Smp.reap p x addr pp s) := by
    refine ⟨fun _ _ => ⟨rfl, rfl⟩, fun _ _ _ => Iff.rfl, fun j hj => ?_, fun j _ hj => ?_,
      fun _ h => (h hw).elim, fun _ h => (h hw).elim, fun _ _ _ h => h, fun _ _ => ⟨rfl, rfl⟩⟩
    · rw [hproc j fun he => hj (he ▸ hl)]
      exact ⟨rfl, rfl⟩
    · have hne : j ≠ pp := by
        rintro rfl
        rw [hz] at hj
        cases hj
      rw [hproc j hne]
      exact ⟨hj, rfl⟩
  have hfine : Fine (Smp.reap p x addr pp s) pp := by
    refine ⟨fun he => (hne .RUNNING (by simp) he).elim,
      fun c' hcpu => .inr (hf.lock_of_cpu (by rw [hz]; simp) hcpu), fun chan hch => ?_,
      fun he => (hne .SLEEPING (by simp) he).elim, fun _ => by rw [hself],
      fun he => (hne .USED (by simp) he).elim, hf.entry, fun q hq => ?_,
      fun he => (hne .ZOMBIE (by simp) he).elim, fun _ _ _ => .inr hst, fun _ _ _ => hst, hf.uid⟩
    · have hch : s.asleep pp = some chan := hch
      rw [hi.awake hl (by rw [ha.cpu]; simpa using hpp) (by rw [hz]; simp)] at hch
      cases hch
    · rw [hself] at hq
      cases hq
  have hof : ∃ e ∈ s.exits, r.Of e s.initproc := by
    obtain ⟨e, he, ho⟩ := hf.zombie hz
    rw [Exit.Of] at ho
    subst hr ho
    refine ⟨_, he, rfl, hp, hf.parent p hp, rfl, fun v hv => ?_, fun v hv => ?_, fun v hv => ?_⟩
    · by_cases h0 : addr = 0
      · simp [h0] at hv
      · simpa [h0, eq_comm] using hv
    · cases x with
      | false => cases hv
      | true => exact (Option.some.inj hv).symm
    · cases x with
      | false => cases hv
      | true => exact (Option.some.inj hv).symm
  have hid : r.uid = s.uid pp := by rw [← hr]
  refine ⟨⟨⟨fun j => ?_, hi.stack, hi.one, hi.uids, hi.init, hi.exits, hi.exit_once, fun r' hmem => ?_,
    ?_, fun h => ?_, fun n h hwk => hg.noSleeper (s.free_ne h) (hi.noSleeper n h hwk), hi.cond⟩, hg⟩,
    ha.stack, ha.cpu, fun q hq => ?_, ha.holds⟩
  · by_cases hj : j = pp
    · exact hj ▸ hfine
    · have hp := hproc j hj
      refine (hi.fine j).other ⟨by rw [hp], by rw [hp], by rw [hp], fun _ => by simp [hp], rfl, rfl, rfl⟩
        rfl (fun _ => Iff.rfl) (fun _ _ => rfl) rfl rfl (le_refl _) (fun _ h => h)
        (fun _ h _ => h) fun r' hmem hid' => ?_
      rw [hreaps] at hmem
      cases hmem with
      | head => exact (hj (hi.uids pp j (hid ▸ hid')).symm).elim
      | tail _ hmem => exact hmem
  · rw [hreaps] at hmem
    cases hmem with
    | head => exact hof
    | tail _ hmem => exact hi.reaps r' hmem
  · rw [hreaps, List.map_cons, List.nodup_cons]
    refine ⟨fun hmem => ?_, hi.reap_once⟩
    obtain ⟨r', hr', he⟩ := List.mem_map.1 hmem
    have := hf.reaped r' hr' (he.trans hid)
    rw [hz] at this
    cases this
  · have h : s.lock .wait = none := h
    rw [hw] at h
    cases h
  · injection hq with hq
    subst hq
    rw [hproc p hpp]
    exact ha.run p rfl

end PbsCow
