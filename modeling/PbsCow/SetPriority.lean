import PbsCow.Turns

namespace PbsCow
set_option autoImplicit true

/-- No two slots have one pid, and the pid of a slot that is not in use is 0. -/
structure Named (t : Sys) : Prop where
  next : 0 < t.nextpid
  lt : ∀ i, (t.proc i).pid < t.nextpid
  unused : ∀ i, (t.proc i).state = .UNUSED → (t.proc i).pid = 0
  unique : ∀ i j, (t.proc i).pid = (t.proc j).pid → (t.proc i).pid ≠ 0 → i = j

def KeepsNames (t t' : Sys) : Prop := Named t → Named t'

theorem KeepsNames.of_same {t t' : Sys} (hn : t'.nextpid = t.nextpid)
    (h : ∀ i, (t'.proc i).pid = (t.proc i).pid ∧
      ((t'.proc i).state = .UNUSED → (t.proc i).state = .UNUSED)) : KeepsNames t t' := by
  intro ht
  refine ⟨by rw [hn]; exact ht.next, fun i => ?_, fun i hi => ?_, fun i j he h0 => ?_⟩
  · rw [hn, (h i).1]
    exact ht.lt i
  · rw [(h i).1]
    exact ht.unused i ((h i).2 hi)
  · rw [(h i).1, (h j).1] at he
    rw [(h i).1] at h0
    exact ht.unique i j he h0

theorem KeepsNames.setProc {t : Sys} {p : Slot} {f : Proc → Proc}
    (hf : (f (t.proc p)).pid = (t.proc p).pid)
    (hu : (f (t.proc p)).state = .UNUSED → (t.proc p).state = .UNUSED) :
    KeepsNames t (t.setProc p f) := by
  refine of_same rfl fun i => ?_
  by_cases hi : i = p
  · rw [hi, t.setProc_self]
    exact ⟨hf, hu⟩
  · rw [t.setProc_of_ne hi]
    exact ⟨rfl, id⟩

theorem KeepsNames.quiet {t t' : Sys} (h : Quiet t t') (hn : t'.nextpid = t.nextpid) :
    KeepsNames t t' :=
  of_same hn fun i => ⟨h.pid i, (h.unused i).1⟩

/-- `allocpid` gives a pid that no slot has. -/
theorem Named.alloc {t : Sys} {p : Slot} (h : Named t) :
    Named (({ t with nextpid := t.nextpid + 1 } : Sys).setProc p fun q => { q with
      pid := t.nextpid, state := .USED }) := by
  have hnext := h.next
  refine ⟨?_, fun i => ?_, fun i hi => ?_, fun i j he h0 => ?_⟩
  · show 0 < t.nextpid + 1
    omega
  · show _ < t.nextpid + 1
    by_cases hi : i = p
    · rw [hi, Sys.setProc_self]
      show t.nextpid < _
      omega
    · rw [Sys.setProc_of_ne _ hi]
      have := h.lt i
      show (t.proc i).pid < _
      omega
  · by_cases hip : i = p
    · rw [hip, Sys.setProc_self] at hi
      cases hi
    · rw [Sys.setProc_of_ne _ hip] at hi ⊢
      exact h.unused i hi
  · by_cases hi : i = p
    · by_cases hj : j = p
      · rw [hi, hj]
      · rw [hi, Sys.setProc_self, Sys.setProc_of_ne _ hj] at he
        exact absurd he (h.lt j).ne'
    · by_cases hj : j = p
      · rw [hj, Sys.setProc_self, Sys.setProc_of_ne _ hi] at he
        exact absurd he (h.lt i).ne
      · rw [Sys.setProc_of_ne _ hi, Sys.setProc_of_ne _ hj] at he
        rw [Sys.setProc_of_ne _ hi] at h0
        exact h.unique i j he h0

theorem Named.free {t : Sys} {p : Slot} (h : Named t) : Named (t.setProc p fun q => { q with
    pagetable := 0, sz := 0, pid := 0, parent := none, chan := .none, killed := false, xstate := 0,
    state := .UNUSED }) := by
  refine ⟨h.next, fun i => ?_, fun i hi => ?_, fun i j he h0 => ?_⟩
  · by_cases hi : i = p
    · rw [hi, Sys.setProc_self]
      exact h.next
    · rw [Sys.setProc_of_ne _ hi]
      exact h.lt i
  · by_cases hip : i = p
    · rw [hip, Sys.setProc_self]
    · rw [Sys.setProc_of_ne _ hip] at hi ⊢
      exact h.unused i hi
  · have hi : i ≠ p := by
      rintro rfl
      rw [Sys.setProc_self] at h0
      exact h0 rfl
    rw [Sys.setProc_of_ne _ hi] at he h0
    by_cases hj : j = p
    · rw [hj, Sys.setProc_self] at he
      exact (h0 he).elim
    · rw [Sys.setProc_of_ne _ hj] at he
      exact h.unique i j he h0

instance KeepsNames.framed : Framed KeepsNames where
  trans h h' ht := h' (h ht)
  frame hn h := .of_same hn fun i => ⟨(h i).pid, (h i).state⟩
  free h := h.free
  alloc _ h := h.alloc
  init := .setProc rfl id
  setPriority _ _ := .setProc rfl id

theorem killScan_keepsNames {t : Sys} (pid : Int) (l : List Slot) :
    Wp (killScan pid l) AnyError (fun _ t' => KeepsNames t t') t := by
  induction l with
  | nil => exact wp_pure.2 id
  | cons p l ih =>
    rw [killScan, wp_bind, wp_get]
    refine .ite (fun _ => wp_bind.2 (wp_setProc.2 (wp_pure.2 ?_))) fun _ => ih
    apply KeepsNames.setProc rfl
    dsimp only
    split
    · intro h
      cases h
    · exact id

theorem step_keepsNames {t : Sys} : Wp (step L op) AnyError (fun _ t' => KeepsNames t t') t :=
  Framed.step (fun _ _ _ _ => .setProc rfl id) fun _ _ pid _ _ _ _ _ => killScan_keepsNames pid _

/-- No event gives a process the pid of another. -/
theorem Named.event {m : Machine} (h : Named m.sys) (ev : Event) :
    Wp (Machine.event L ev) AnyError (fun _ m' => Named m'.sys) m := by
  cases ev with
  | round c =>
    refine wp_round (fun _ => h) (fun _ _ => ?_) fun p _ _ hp => ?_
    · exact KeepsNames.quiet (m.scanned_quiet _) rfl h
    · exact KeepsNames.quiet (Machine.dispatched_quiet c hp) rfl h
  | user c op => exact wp_user (Q := Named) (fun _ => h) fun _ _ _ => step_keepsNames.mono fun _ _ hk => hk h
  | tick =>
    have hq : Quiet m.sys m.ticked.sys := (clockintr_quiet (m.cpu 0) m.sys).of_eq_ok rfl
    exact .of_ok (m.event_tick L) (KeepsNames.quiet hq rfl h)

/-- The process in slot `i` is there and has this pid. -/
def Sys.HasPid (t : Sys) (i : Slot) (pid : Int) : Prop :=
  (t.proc i).state ≠ .UNUSED ∧ (t.proc i).pid = pid

/-- What `set_priority(pid, new_priority)` promises if it returns `ret`. -/
structure Sys.PrioritySet (t t' : Sys) (pid new_priority ret : Int) (yields : Bool) : Prop where
  refused : new_priority < 0 ∨ new_priority > 100 ∨ (∀ i, ¬ t.HasPid i pid) →
    ret = -1 ∧ yields = false ∧ t' = t
  done : 0 ≤ new_priority → new_priority ≤ 100 → ∀ i, t.HasPid i pid →
    ret = (t.proc i).static_pri.toInt ∧
      (yields = true ↔ new_priority < (t.proc i).static_pri.toInt) ∧
      t' = t.setProc i fun q => { q with rbi := 25, static_pri := BitVec.ofInt 32 new_priority }

/-- The condition: `pid` is not that of the slots that are not in use, or there are none. -/
def Sys.NamesProcess (t : Sys) (pid new_priority : Int) : Prop :=
  pid ≠ 0 ∨ new_priority < 0 ∨ new_priority > 100 ∨ ∀ i, (t.proc i).state ≠ .UNUSED

theorem setPriorityScan_none {t : Sys} (l : List Slot) (h : ∀ i ∈ l, (t.proc i).pid ≠ pid) (old : Int)
    (b : Bool) : setPriorityScan pid n l old b t = .ok ((old, b), t) := by
  induction l with
  | nil => rfl
  | cons p l ih =>
    have hp : (t.proc p).pid ≠ pid := h p (List.mem_cons_self ..)
    have hrest := ih fun i hi => h i (List.mem_cons_of_mem _ hi)
    rw [← hrest]
    simp only [setPriorityScan]
    change (if (t.proc p).pid = pid then _ else setPriorityScan pid n l old b : Ker (Int × Bool)) t = _
    rw [if_neg hp]

theorem setPriorityScan_one {t : Sys} (l : List Slot) (hl : l.Nodup) (hi : i ∈ l)
    (hpid : (t.proc i).pid = pid) (h : ∀ j, (t.proc j).pid = pid → j = i) (old : Int) :
    setPriorityScan pid n l old false t = .ok (((t.proc i).static_pri.toInt,
      decide (n < (t.proc i).static_pri.toInt)),
      t.setProc i fun q => { q with rbi := 25, static_pri := BitVec.ofInt 32 n }) := by
  induction l with
  | nil => cases hi
  | cons p l ih =>
    obtain ⟨hp, hl⟩ := List.nodup_cons.1 hl
    simp only [setPriorityScan]
    by_cases hpi : p = i
    · subst hpi
      change (if (t.proc p).pid = pid then _ else _ : Ker (Int × Bool)) t = _
      rw [if_pos hpid]
      refine setPriorityScan_none l (fun j hj => ?_) _ _
      have hjp : j ≠ p := by
        rintro rfl
        exact hp hj
      rw [Sys.setProc_of_ne _ hjp]
      exact fun he => hjp (h j he)
    · have hp' : (t.proc p).pid ≠ pid := fun he => hpi (h p he)
      have hi' : i ∈ l := by
        rcases List.mem_cons.1 hi with rfl | hi
        · exact (hpi rfl).elim
        · exact hi
      change (if (t.proc p).pid = pid then _ else setPriorityScan pid n l old false : Ker (Int × Bool)) t = _
      rw [if_neg hp']
      exact ih hl hi'

/-- A call that finds a slot does not return -1. -/
theorem setPriorityScan_found {t : Sys} (l : List Slot) (h0 : 0 ≤ n) (h100 : n ≤ 100)
    (hpri : ∀ i, (t.proc i).static_pri.toNat ≤ 100) (old : Int) (b : Bool)
    (h : 0 ≤ old ∨ ∃ i ∈ l, (t.proc i).pid = pid) :
    Wp (setPriorityScan pid n l old b) NoError (fun r _ => 0 ≤ r.1) t := by
  induction l generalizing t old b with
  | nil =>
    rcases h with h | ⟨i, hi, _⟩
    · exact wp_pure.2 h
    · cases hi
  | cons p l ih =>
    rw [setPriorityScan, wp_bind, wp_get]
    refine .ite (fun hp => ?_) fun hp => ?_
    · rw [wp_bind, wp_setProc]
      refine ih (fun i => ?_) _ _ (.inl ?_)
      · by_cases hi : i = p
        · rw [hi, t.setProc_self]
          exact toNat_ofInt_le h0 h100
        · rw [t.setProc_of_ne hi]
          exact hpri i
      · have := hpri p
        rw [BitVec.toInt_eq_toNat_of_lt (by omega)]
        omega
    · refine ih hpri _ _ ?_
      rcases h with h | ⟨i, hi, he⟩
      · exact .inl h
      · rcases List.mem_cons.1 hi with rfl | hi
        · exact (hp he).elim
        · exact .inr ⟨i, hi, he⟩

/-- `set_priority` keeps its promise exactly if `pid` is not that of the slots that are not in use. -/
theorem Named.setPriority {t : Sys} (h : Named t) (hne : ∀ i, (t.proc i).state ≠ .UNUSED → (t.proc i).pid ≠ 0)
    (hpri : ∀ i, (t.proc i).static_pri.toNat ≤ 100) (pid n : Int) :
    Wp (sysSetPriority pid n) NoError (fun r t' => t.PrioritySet t' pid n r.1 r.2 ↔
      t.NamesProcess pid n) t := by
  rw [sysSetPriority]
  refine .ite (fun hn => wp_pure.2 ?_) fun hn => ?_
  · refine ⟨fun _ => .inr (hn.imp_right .inl), fun _ => ⟨fun _ => ⟨rfl, rfl, rfl⟩, fun h0 h100 => ?_⟩⟩
    omega
  have h0 : 0 ≤ n := by omega
  have h100 : n ≤ 100 := by omega
  by_cases hex : ∃ i, t.HasPid i pid
  · obtain ⟨i, hu, rfl⟩ := hex
    have hone (j : Slot) (hj : (t.proc j).pid = (t.proc i).pid) : j = i :=
      h.unique j i hj (by rw [hj]; exact hne i hu)
    refine .of_ok (setPriorityScan_one _ (List.nodup_finRange _) (List.mem_finRange i) rfl hone _) ?_
    refine ⟨fun _ => .inl (hne i hu), fun _ => ⟨fun hr => ?_, fun _ _ j hj => ?_⟩⟩
    · rcases hr with hr | hr | hr
      · omega
      · omega
      · exact (hr i ⟨hu, rfl⟩).elim
    · obtain rfl : j = i := hone j hj.2
      exact ⟨rfl, decide_eq_true_iff, rfl⟩
  · have hno (i : Slot) : ¬ t.HasPid i pid := fun hi => hex ⟨i, hi⟩
    by_cases hstray : ∃ i, (t.proc i).pid = pid
    · obtain ⟨i, rfl⟩ := hstray
      have hu : (t.proc i).state = .UNUSED := by
        by_contra hu
        exact hno i ⟨hu, rfl⟩
      have hzero := h.unused i hu
      refine (setPriorityScan_found _ h0 h100 hpri _ _ (.inr ⟨i, List.mem_finRange i, rfl⟩)).mono ?_
      intro r t' hr
      refine ⟨fun hset => ?_, fun hc => ?_⟩
      · have hret := (hset.refused (.inr (.inr hno))).1
        omega
      · rcases hc with hc | hc | hc | hc
        · exact (hc hzero).elim
        · omega
        · omega
        · exact (hc i hu).elim
    · refine .of_ok (setPriorityScan_none _ (fun i _ he => hstray ⟨i, he⟩) _ _) ?_
      refine ⟨fun _ => ?_, fun _ => ⟨fun _ => ⟨rfl, rfl, rfl⟩, fun _ _ i hi => (hno i hi).elim⟩⟩
      by_cases hp : pid = 0
      · refine .inr (.inr (.inr fun i hi => hstray ⟨i, ?_⟩))
        rw [h.unused i hi, hp]
      · exact .inl hp

/-- What the runs of the machine keep. -/
structure Ranked (L : Layout) (t : Sys) : Prop where
  sound : Sound L t
  named : Named t
  pri : ∀ i, (t.proc i).static_pri.toNat ≤ 100

theorem Ranked.event {m : Machine} (h : Ranked L m.sys) (ev : Event) :
    Wp (Machine.event L ev) AnyError (fun _ m' => Ranked L m'.sys) m := by
  have hpri := stable_static_pri.event (L := L) h.pri ev fun _ _ _ i => by
    rw [Proc.refresh_static_pri]
    exact h.pri i
  refine ((h.sound.event ev).and ((h.named.event ev).and hpri)).mono ?_
  rintro _ m' ⟨⟨hs, _⟩, hn, hp⟩
  exact ⟨hs, hn, hp⟩

theorem boot_ranked (L : Layout) (ram : Nat → Page) (beyond : Nat → BitVec 32) :
    ∃ m, onSys (boot L) (Machine.start ram beyond) = .ok ((), m) ∧ Ranked L m.sys ∧
      ∃ i, (m.sys.proc i).state = .UNUSED := by
  obtain ⟨t, p, g, r, x, ht, hb, hboot⟩ := onSys_boot L ram beyond
  obtain ⟨hsound, htab, hpri⟩ := boot_sound hboot
  obtain ⟨j, _, hj⟩ := hb.exists_unused
  refine ⟨_, hboot, ⟨hsound, ⟨hsound.pids.next, hsound.pids.lt, htab.marked.pid, fun i j he h0 => ?_⟩,
    hpri⟩, j, hj⟩
  have hself (i : Slot) (hi : (t.proc i).pid ≠ 0) : i = p := by
    by_contra hip
    exact hi (htab.marked.pid i (hb.alone i hip))
  rw [hself i h0, hself j (by rw [← he]; exact h0)]

end PbsCow
