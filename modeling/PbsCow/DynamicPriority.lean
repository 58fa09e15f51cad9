import PbsCow.Priority
import PbsCow.BootTable
import PbsCow.Rounds

namespace PbsCow
set_option autoImplicit true

/-- Nothing wraps around when `_rbi` computes the index of `q`. -/
def Proc.Fits (q : Proc) : Prop :=
  q.rbi = 25 ∨ 3 * q.my_rtime.toNat < 2 ^ 32 ∧
    q.my_rtime.toNat + q.my_wtime.toNat + q.my_stime.toNat + 1 < 2 ^ 32 ∧
    q.my_stime.toNat + q.my_wtime.toNat ≤ 3 * q.my_rtime.toNat

/-- The priorities of `q` are in range. -/
structure Proc.InRange (q : Proc) : Prop where
  static_pri : q.static_pri.toNat ≤ 100
  curr_rbi : 0 ≤ q.curr_rbi.toInt ∧ q.curr_rbi.toInt ≤ 150
  dp : q.static_pri.toNat ≤ q.dp ∧ q.dp ≤ 100

/-- What is behind it. -/
structure Proc.Bounded (q : Proc) : Prop where
  static_pri : q.static_pri.toNat ≤ 100
  curr_rbi : q.curr_rbi.toNat ≤ 150

theorem toInt_of_small {a : BitVec 32} (h : a.toNat < 2 ^ 31) : a.toInt = a.toNat := by
  rw [BitVec.toInt_eq_toNat_cond, if_pos (by omega)]

theorem Proc.Bounded.inRange (h : Proc.Bounded q) : q.InRange := by
  obtain ⟨hs, hr⟩ := h
  have hsum : (q.static_pri + q.curr_rbi).toNat = q.static_pri.toNat + q.curr_rbi.toNat := by
    rw [BitVec.toNat_add]
    omega
  have hdp : q.dp = min ((q.static_pri.toNat : Int) + q.curr_rbi.toNat) 100 := by
    rw [dp, toInt_of_small (by omega), hsum]
    rfl
  refine ⟨hs, ?_, ?_⟩
  · rw [toInt_of_small (by omega)]
    omega
  · rw [hdp]
    omega

/-- The index is at most 100, and 25 at first. -/
theorem Proc.Fits.rbi_le (h : Proc.Fits q) : (_rbi q).1.toNat ≤ 150 := by
  rw [_rbi]
  split
  · exact (by decide : (25 : BitVec 32).toNat ≤ 150)
  · rename_i hflag
    have e1 : (1 : BitVec 32).toNat = 1 := rfl
    have e3 : (3 : BitVec 32).toNat = 3 := rfl
    have e50 : (50 : BitVec 32).toNat = 50 := rfl
    obtain ⟨h3, hsum, hle⟩ := h.resolve_left hflag
    have hden : (q.my_rtime + q.my_wtime + q.my_stime + 1).toNat =
        q.my_rtime.toNat + q.my_wtime.toNat + q.my_stime.toNat + 1 := by
      simp only [BitVec.toNat_add, e1]
      omega
    have hnum : (3 * q.my_rtime - q.my_stime - q.my_wtime).toNat =
        3 * q.my_rtime.toNat - q.my_stime.toNat - q.my_wtime.toNat := by
      simp only [BitVec.toNat_sub, BitVec.toNat_mul, e3]
      omega
    generalize q.my_rtime + q.my_wtime + q.my_stime + 1 = d at hden
    generalize 3 * q.my_rtime - q.my_stime - q.my_wtime = n at hnum
    have hd0 : d ≠ 0#32 := by
      rintro rfl
      simp at hden
    have hquot : (n.smtUDiv d).toNat ≤ 2 := by
      rw [BitVec.smtUDiv_eq, if_neg hd0, BitVec.toNat_udiv, hnum, hden]
      exact Nat.le_of_lt_succ (Nat.div_lt_of_lt_mul (by omega))
    have ha : (50 * n.smtUDiv d).toNat ≤ 100 := by
      rw [BitVec.toNat_mul, e50, Nat.mod_eq_of_lt (by omega)]
      omega
    dsimp only
    split
    · decide
    · omega

theorem Proc.refresh_static_pri (q : Proc) : q.refresh.static_pri = q.static_pri := by
  rw [refresh, _rbi]
  split <;> rfl

theorem Proc.Bounded.refresh (h : Proc.Bounded q) (hf : q.Fits) : q.refresh.Bounded :=
  ⟨by rw [refresh_static_pri]; exact h.static_pri, hf.rbi_le⟩

theorem toNat_ofInt_le {n : Int} (h0 : 0 ≤ n) (h100 : n ≤ 100) : (BitVec.ofInt 32 n).toNat ≤ 100 := by
  rw [BitVec.toNat_ofInt]
  omega

theorem stable_static_pri : Stable fun q => q.static_pri.toNat ≤ 100 where
  same h hs := by
    injection hs with h1
    rwa [h1]
  zero := by decide
  init hs := by
    injection hs with h1
    rw [h1]
    decide
  pri h0 h100 _ := toNat_ofInt_le h0 h100

theorem stable_bounded : Stable Proc.Bounded where
  same h hs := by
    injection hs with h1 h2
    injection h2 with h2 h3
    exact ⟨h1 ▸ h.static_pri, h3 ▸ h.curr_rbi⟩
  zero := ⟨by decide, by decide⟩
  init hs := by
    injection hs with h1 h2
    injection h2 with h2 h3
    exact ⟨by rw [h1]; decide, by rw [h3]; decide⟩
  pri h0 h100 h := ⟨toNat_ofInt_le h0 h100, h.curr_rbi⟩

/-- The event is not a scan in which the index of a slot wraps around. -/
def Event.NoWrap (m : Machine) (ev : Event) : Prop :=
  ∀ c, ev = .round c → m.cpu c = none → ∀ i, (m.sys.proc i).Fits

/-- The static priority is always in range; in a run in which no scan computes an index that wraps
around, so are the indices and the dynamic priorities. -/
theorem priorities_in_range (L : Layout) (ram : Nat → Page) (beyond : Nat → BitVec 32)
    (evs : List Event) :
    Wp (do onSys (boot L); runWith (Machine.event L) evs) InitExiting
      (fun _ m => ∀ i, (m.sys.proc i).static_pri.toNat ≤ 100) (Machine.start ram beyond) ∧
    ((∀ u m, onSys (boot L) (Machine.start ram beyond) = .ok (u, m) →
        Meets (Machine.event L) Event.NoWrap evs m) →
      Wp (do onSys (boot L); runWith (Machine.event L) evs) InitExiting
        (fun _ m => ∀ i, (m.sys.proc i).InRange ∧
          ((m.sys.proc i).Fits → (_rbi (m.sys.proc i)).1.toNat ≤ 150 ∧ (m.seen i).InRange))
        (Machine.start ram beyond)) := by
  have hsafe := machine_run L ram beyond evs
  constructor
  · suffices h : Wp (do onSys (boot L); runWith (Machine.event L) evs) AnyError
        (fun _ m => ∀ i, (m.sys.proc i).static_pri.toNat ≤ 100) (Machine.start ram beyond) from
      (hsafe.and h).mono fun _ _ h => h.2
    refine .bind (stable_static_pri.onSys_boot L ram beyond) fun _ m hm => ?_
    refine .runWith hm (fun ev m hm => stable_static_pri.event hm ev fun _ _ _ i => ?_) evs
    rw [Proc.refresh_static_pri]
    exact hm i
  · intro h
    have hbounded : Wp (do onSys (boot L); runWith (Machine.event L) evs) AnyError
        (fun _ m => ∀ i, (m.sys.proc i).Bounded) (Machine.start ram beyond) := by
      obtain ⟨t, _, _, _, _, _, _, hboot⟩ := onSys_boot L ram beyond
      refine .bind_ok hboot ((h _ _ hboot).run ?_ fun ev _ m hm hc => ?_)
      · exact (stable_bounded.onSys_boot L ram beyond).of_eq_ok hboot
      · exact stable_bounded.event hm ev fun c hev hcpu i => (hm i).refresh (hc c hev hcpu i)
    refine (hsafe.and hbounded).mono ?_
    rintro _ m ⟨_, hm⟩ i
    exact ⟨(hm i).inRange, fun hf => ⟨hf.rbi_le, ((hm i).refresh hf).inRange⟩⟩

theorem BootTable.fits {t : Sys} (h : BootTable t) (i : Slot) : (t.proc i).Fits := by
  by_cases hi : (t.proc i).state = .UNUSED
  · rw [h.zero i hi]
    exact .inr ⟨by decide, by decide, by decide⟩
  · exact .inl (h.newborn i hi).rbi

theorem priorities_in_range_round :
    Wp (do onSys (boot imageLayout); runWith (Machine.event imageLayout) [.round 0]) InitExiting
      (fun _ m => ∀ i, (m.sys.proc i).InRange) (Machine.start (fun _ _ => 0) fun _ => 0) := by
  generalize imageLayout = L
  generalize (fun _ _ => 0 : Nat → Page) = ram
  generalize (fun _ => 0 : Nat → BitVec 32) = beyond
  refine ((priorities_in_range L ram beyond _).2 fun u m hm => ?_).mono fun _ m h i => (h i).1
  have hboot : Wp (onSys (boot L)) AnyError (fun _ m => BootTable m.sys) (Machine.start ram beyond) :=
    wp_zoom.2 (boot_table L ram)
  exact ⟨fun _ _ _ i => (hboot.of_eq_ok hm).fits i, fun _ _ _ => trivial⟩

/-- The machine after a tick. -/
def Machine.ticked (m : Machine) : Machine :=
  let t : Sys := { m.sys with ticks := m.sys.ticks + 1 }
  { m with sys := t.updateTime.countTicks.wakeup (m.cpu 0) .ticks }

theorem Machine.ticked_runnable {m : Machine} (hi : (m.sys.proc i).state = .RUNNABLE) :
    m.ticked.sys.proc i = { m.sys.proc i with my_wtime := (m.sys.proc i).my_wtime + 1 } := by
  simp [ticked, Sys.wakeup, Sys.countTicks, Sys.updateTime, hi]

theorem Machine.ticked_unused {m : Machine} (hi : (m.sys.proc i).state = .UNUSED) :
    m.ticked.sys.proc i = m.sys.proc i := by
  simp [ticked, Sys.wakeup, Sys.countTicks, Sys.updateTime, hi]

/-- One process is runnable, and it has waited for `n` ticks. -/
structure Machine.Waiting (m : Machine) (p : Slot) (n : BitVec 32) : Prop where
  state : (m.sys.proc p).state = .RUNNABLE
  alone : ∀ i, i ≠ p → (m.sys.proc i).state = .UNUSED
  my_wtime : (m.sys.proc p).my_wtime = n
  my_rtime : (m.sys.proc p).my_rtime = 0
  my_stime : (m.sys.proc p).my_stime = 0
  static_pri : (m.sys.proc p).static_pri = 50
  rbi : (m.sys.proc p).rbi = 25

theorem Machine.Waiting.ticked {m : Machine} (h : m.Waiting p n) : m.ticked.Waiting p (n + 1) := by
  have hp := Machine.ticked_runnable h.state
  refine ⟨by rw [hp, h.state], fun i hi => ?_, by rw [hp, h.my_wtime], by rw [hp, h.my_rtime],
    by rw [hp, h.my_stime], by rw [hp, h.static_pri], by rw [hp, h.rbi]⟩
  rw [Machine.ticked_unused (h.alone i hi), h.alone i hi]

theorem rbi_of_waiting {q : Proc} (h : q.rbi ≠ 25) (hw : q.my_wtime = 3) (hr : q.my_rtime = 0)
    (hs : q.my_stime = 0) : (_rbi q).1 = 2147483598 := by
  rw [_rbi, if_neg h]
  dsimp only
  rw [hw, hr, hs]
  decide

theorem Proc.refresh_curr_rbi (q : Proc) : q.refresh.curr_rbi = (_rbi q).1 := rfl

theorem BootTable.waiting {m : Machine} (h : BootTable m.sys)
    (hb : Booted L m.sys p .RUNNABLE g r x) : m.Waiting p 0 := by
  have hn := h.newborn p (by rw [hb.state]; simp)
  exact ⟨hb.state, hb.alone, hn.my_wtime, hn.my_rtime, hn.my_stime, hn.static_pri, hn.rbi⟩

/-- The first scan that sees the process dispatches it, and the next one computes its index. -/
theorem Machine.Waiting.rounds {m : Machine} (h : m.Waiting p 3) (h0 : m.cpu 0 = none)
    (h1 : m.cpu 1 = none) : ∃ m', runWith (event L) [.round 0, .round 1] m = .ok ([(), ()], m') ∧
      (m'.sys.proc p).curr_rbi.toInt = 2147483598 ∧ (m'.sys.proc p).dp = -2147483648 := by
  obtain ⟨p', hp', hs⟩ := scheduler_some h.state 0
  obtain ⟨hrun, _⟩ := best_spec hp'
  obtain rfl : p' = p := by
    by_contra hne
    rw [seen, Proc.refresh_state, h.alone p' hne] at hrun
    cases hrun
  have hnone (i : Slot) : ((m.dispatched 0 p').sys.proc i).state ≠ .RUNNABLE := by
    rw [dispatched_state]
    split
    · simp
    · rename_i hi
      rw [h.alone i hi]
      simp
  have hcpu : (m.dispatched 0 p').cpu 1 = none := by
    rw [dispatched_cpu, Function.update_of_ne (by decide), h1]
  have hev0 : event L (.round 0) m = .ok ((), m.dispatched 0 p') := (event_round h0).trans hs
  have hev1 : event L (.round 1) (m.dispatched 0 p') =
      .ok ((), (m.dispatched 0 p').scanned (List.finRange NPROC)) :=
    (event_round hcpu).trans (scheduler_none hnone 1)
  refine ⟨(m.dispatched 0 p').scanned (List.finRange NPROC), ?_, ?_⟩
  · exact runWith_cons hev0 (runWith_cons hev1 rfl)
  · have hseen : m.seen p' = { m.sys.proc p' with rbi := -1, curr_rbi := 25 } := by
      simp [seen, Proc.refresh, _rbi, h.rbi]
    have hrbi : (_rbi ((m.dispatched 0 p').sys.proc p')).1 = 2147483598 := by
      rw [dispatched_proc, if_pos rfl, hseen]
      exact rbi_of_waiting (show (-1 : BitVec 32) ≠ 25 by decide) h.my_wtime h.my_rtime h.my_stime
    have hpri : ((m.dispatched 0 p').sys.proc p').static_pri = 50 := by
      simp only [dispatched_proc, hseen, if_true, h.static_pri]
    rw [scanned_proc, seen, Proc.dp, Proc.refresh_static_pri, hpri, Proc.refresh_curr_rbi, hrbi]
    decide

theorem boot_priority_wraps (L : Layout) (ram : Nat → Page) (beyond : Nat → BitVec 32) :
    ∃ m p, (do onSys (boot L); runWith (Machine.event L) [.tick, .tick, .tick, .round 0, .round 1])
        (Machine.start ram beyond) = .ok ([(), (), (), (), ()], m) ∧
      (m.sys.proc p).curr_rbi.toInt = 2147483598 ∧ (m.sys.proc p).dp = -2147483648 := by
  obtain ⟨t, p, g, r, x, ht, hb, hboot⟩ := onSys_boot L ram beyond
  generalize hm : ({ Machine.start ram beyond with sys := t } : Machine) = m at hboot
  have hw : m.Waiting p 0 := by
    refine BootTable.waiting (L := L) (g := g) (r := r) (x := x) ?_ ?_
    · rw [← hm]
      exact (boot_table L ram).of_eq_ok ht
    · rw [← hm]
      exact hb
  have hcpu (c : Nat) : m.cpu c = none := by
    rw [← hm]
    rfl
  obtain ⟨m', hrun, hres⟩ := hw.ticked.ticked.ticked.rounds (L := L) (hcpu 0) (hcpu 1)
  refine ⟨m', p, ?_, hres⟩
  simp only [bind, StateT.bind, hboot, Except.bind]
  exact runWith_cons rfl (runWith_cons rfl (runWith_cons rfl hrun))

/-- A process that has waited for three ticks and has not run. -/
theorem priority_wraps :
    ∃ m p, (do onSys (boot imageLayout)
               runWith (Machine.event imageLayout) [.tick, .tick, .tick, .round 0, .round 1])
        (Machine.start (fun _ _ => 0) fun _ => 0) = .ok ([(), (), (), (), ()], m) ∧
      (m.sys.proc p).curr_rbi.toInt = 2147483598 ∧ (m.sys.proc p).dp = -2147483648 :=
  boot_priority_wraps imageLayout _ _

end PbsCow
