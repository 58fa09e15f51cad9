import PbsCow.Scheduler
import PbsCow.Quiet
import Mathlib.Data.List.MinMax
import Mathlib.Data.Prod.Lex
import Mathlib.Logic.Equiv.Defs

namespace PbsCow
set_option autoImplicit true

/-- The order of the PBS specification: a smaller dynamic priority, then more switches, then an
earlier creation. -/
def Proc.Precedes (q h : Proc) : Prop :=
  q.dp < h.dp ∨ q.dp = h.dp ∧ (h.tot_sche.toInt < q.tot_sche.toInt ∨
    q.tot_sche.toInt = h.tot_sche.toInt ∧ q.ctime.toNat < h.ctime.toNat)

/-- A complete tie. -/
def Proc.Ties (q h : Proc) : Prop := q.dp = h.dp ∧ q.tot_sche = h.tot_sche ∧ q.ctime = h.ctime

/-- A process as the scan sees it. -/
def Proc.refresh (q : Proc) : Proc := { (_rbi q).2 with curr_rbi := (_rbi q).1 }

theorem Proc.refresh_state (q : Proc) : q.refresh.state = q.state := by
  rw [refresh, _rbi]
  split <;> rfl

theorem Proc.beats_iff (q h : Proc) : q.beats h = true ↔ q.Precedes h := by
  have e : q.tot_sche = h.tot_sche ↔ q.tot_sche.toInt = h.tot_sche.toInt := BitVec.toInt_inj.symm
  simp only [beats, Precedes, e, BitVec.lt_def]
  split_ifs <;> simp only [true_iff, false_iff] <;> omega

/-- The order, with the slot to break ties. -/
def Proc.rank (q : Proc) (i : Slot) : Int ×ₗ Int ×ₗ Nat ×ₗ Slot :=
  toLex (q.dp, toLex (-q.tot_sche.toInt, toLex (q.ctime.toNat, i)))

theorem Proc.rank_lt (q h : Proc) (i j : Slot) :
    q.rank i < h.rank j ↔ q.Precedes h ∨ q.Ties h ∧ i < j := by
  have e : q.tot_sche = h.tot_sche ↔ q.tot_sche.toInt = h.tot_sche.toInt := BitVec.toInt_inj.symm
  have e' : q.ctime = h.ctime ↔ q.ctime.toNat = h.ctime.toNat := BitVec.toNat_inj.symm
  simp only [rank, Prod.Lex.toLex_lt_toLex, Precedes, Ties, e, e', Fin.lt_def]
  omega

theorem Proc.ties_of_not_precedes {q h : Proc} (hq : ¬ q.Precedes h) (hh : ¬ h.Precedes q) :
    q.Ties h := by
  have e : q.tot_sche = h.tot_sche ↔ q.tot_sche.toInt = h.tot_sche.toInt := BitVec.toInt_inj.symm
  have e' : q.ctime = h.ctime ↔ q.ctime.toNat = h.ctime.toNat := BitVec.toNat_inj.symm
  simp only [Precedes, Ties, e, e'] at hq hh ⊢
  omega

/-- A process that is seen later takes the place only if it precedes. -/
theorem Proc.rank_lt_of_lt {q h : Proc} {i j : Slot} (hij : j < i) :
    q.rank i < h.rank j ↔ q.beats h = true := by
  rw [rank_lt, beats_iff]
  exact ⟨fun hr => hr.resolve_right fun hr' => lt_asymm hij hr'.2, .inl⟩

/-- The best of the runnable processes in a table. -/
def best (T : Slot → Proc) (l : List Slot) (high_pri : Option Slot) : Option Slot :=
  (l.filter fun i => (T i).state = .RUNNABLE).foldl
    (List.argAux fun i j => (T i).rank i < (T j).rank j) high_pri

/-- The machine after a scan of the slots in `l`. -/
def Machine.scanned (m : Machine) (l : List Slot) : Machine := { m with
  sys := { m.sys with proc := fun i => if i ∈ l then (m.sys.proc i).refresh else m.sys.proc i }
  writes := (l.map fun i : Slot => Loc.proc i).reverse ++ m.writes }

theorem Machine.scanned_cons (m : Machine) (hp : p ∉ l) :
    (m.putProc p Proc.refresh).scanned l = m.scanned (p :: l) := by
  have hproc : (fun i => if i ∈ l then ((m.putProc p Proc.refresh).sys.proc i).refresh else
      (m.putProc p Proc.refresh).sys.proc i) =
      fun i => if i ∈ p :: l then (m.sys.proc i).refresh else m.sys.proc i := by
    funext i
    by_cases hi : i = p
    · subst hi
      rw [if_neg hp, if_pos (by simp)]
      exact m.sys.setProc_self
    · rw [show (m.putProc p Proc.refresh).sys.proc i = m.sys.proc i from m.sys.setProc_of_ne hi]
      simp [hi]
  rw [scanned, hproc, scanned]
  simp [putProc, Sys.setProc]

/-- The scan refreshes every slot and finds the best one. -/
theorem pbsScan_spec {m : Machine} {T : Slot → Proc} {l : List Slot} (hl : l.Pairwise (· < ·))
    (hT : ∀ i ∈ l, T i = (m.sys.proc i).refresh)
    (hh : ∀ h, high_pri = some h → T h = m.sys.proc h ∧ ∀ i ∈ l, h < i) :
    Wp (pbsScan l high_pri) NoError (fun r m' => r = best T l high_pri ∧ m' = m.scanned l) m := by
  induction l generalizing m high_pri with
  | nil => exact wp_pure.2 ⟨rfl, by simp [Machine.scanned]⟩
  | cons p l ih =>
    obtain ⟨hlt, hl⟩ := List.pairwise_cons.1 hl
    have hlast := m.scanned_cons (p := p) (l := l) fun hp => lt_irrefl p (hlt p hp)
    rw [pbsScan, wp_bind]
    show Wp _ _ _ (m.putProc p Proc.refresh)
    generalize hm : m.putProc p Proc.refresh = m₁ at hlast ⊢
    have hself : m₁.sys.proc p = T p := by
      rw [← hm, hT p (by simp)]
      exact m.sys.setProc_self
    have hother (i : Slot) (hi : i ≠ p) : m₁.sys.proc i = m.sys.proc i := by
      rw [← hm]
      exact m.sys.setProc_of_ne hi
    have hnext (high : Option Slot) (h' : ∀ h, high = some h → T h = m₁.sys.proc h ∧ ∀ i ∈ l, h < i)
        (hb : best T l high = best T (p :: l) high_pri) : Wp (pbsScan l high) NoError
          (fun r m' => r = best T (p :: l) high_pri ∧ m' = m.scanned (p :: l)) m₁ := by
      rw [← hlast, ← hb]
      refine ih hl (fun i hi => ?_) h'
      rw [hother i (hlt i hi).ne']
      exact hT i (by simp [hi])
    have hold (h : Slot) (hs : high_pri = some h) : T h = m₁.sys.proc h ∧ ∀ i ∈ l, h < i := by
      obtain ⟨he, hi⟩ := hh h hs
      rw [hother h (hi p (by simp)).ne]
      exact ⟨he, fun i hil => hi i (by simp [hil])⟩
    have hnew (h : Slot) (hs : some p = some h) : T h = m₁.sys.proc h ∧ ∀ i ∈ l, h < i := by
      obtain rfl : p = h := by injection hs
      exact ⟨hself.symm, hlt⟩
    rw [wp_bind, wp_get, hself]
    refine .ite (fun hr => ?_) fun hr => hnext high_pri hold (by simp [best, hr])
    cases high_pri with
    | none => exact hnext (some p) hnew (by simp [best, hr, List.argAux])
    | some h =>
      have hrank := Proc.rank_lt_of_lt (q := T p) (h := T h) ((hh h rfl).2 p (by simp))
      dsimp only
      rw [← (hold h rfl).1]
      refine .ite (fun hb => ?_) fun hb => ?_
      · exact hnext (some p) hnew (by simp [best, hr, List.argAux, hrank.2 hb])
      · exact hnext (some h) hold (by simp [best, hr, List.argAux, mt hrank.1 hb])

/-- The table as one scan computes it. -/
def Machine.seen (m : Machine) (i : Slot) : Proc := (m.sys.proc i).refresh

/-- A whole scan. -/
theorem pbsScan_all (m : Machine) :
    pbsScan (List.finRange NPROC) none m = .ok (best m.seen (List.finRange NPROC) none,
      m.scanned (List.finRange NPROC)) := by
  have hw : Wp (pbsScan (List.finRange NPROC) none) NoError _ m :=
    pbsScan_spec (T := m.seen) (List.pairwise_lt_finRange NPROC) (fun _ _ => rfl) nofun
  obtain ⟨r, m', he, rfl, rfl⟩ := hw.exists_ok
  exact he

theorem best_eq_none {T : Slot → Proc} :
    best T (List.finRange NPROC) none = none ↔ ∀ i, (T i).state ≠ .RUNNABLE := by
  simp [best]

theorem best_spec {T : Slot → Proc} (h : best T (List.finRange NPROC) none = some p) :
    (T p).state = .RUNNABLE ∧ ∀ q, (T q).state = .RUNNABLE →
      ¬ (T q).Precedes (T p) ∧ ((T q).Ties (T p) → p ≤ q) := by
  have hmem : p ∈ List.argmin (fun i => (T i).rank i)
      ((List.finRange NPROC).filter fun i => (T i).state = .RUNNABLE) := h
  have hp := List.argmin_mem hmem
  simp only [List.mem_filter, List.mem_finRange, true_and, decide_eq_true_eq] at hp
  refine ⟨hp, fun q hq => ?_⟩
  have hnot := List.not_lt_of_mem_argmin (a := q) (by simpa using hq) hmem
  rw [Proc.rank_lt, not_or, not_and, not_lt] at hnot
  exact hnot

/-- A round that finds no process changes no state. -/
theorem scheduler_none {m : Machine} (h : ∀ i, (m.sys.proc i).state ≠ .RUNNABLE) (c : Nat) :
    scheduler c m = .ok ((), m.scanned (List.finRange NPROC)) := by
  have hb : best m.seen (List.finRange NPROC) none = none :=
    best_eq_none.2 fun i => by rw [Machine.seen, Proc.refresh_state]; exact h i
  simp only [scheduler, bind, StateT.bind, pbsScan_all, Except.bind, hb]
  rfl

/-- The machine after a round that switches to `p`. -/
def Machine.dispatched (m : Machine) (c : Nat) (p : Slot) : Machine :=
  let m' := (m.scanned (List.finRange NPROC)).putProc p fun q => { q with state := .RUNNING }
  { m' with cpu := Function.update m'.cpu c (some p), writes := .cpu c :: m'.writes }

theorem scheduler_some {m : Machine} (h : (m.sys.proc i).state = .RUNNABLE) (c : Nat) :
    ∃ p, best m.seen (List.finRange NPROC) none = some p ∧
      scheduler c m = .ok ((), m.dispatched c p) := by
  obtain ⟨p, hp⟩ : ∃ p, best m.seen (List.finRange NPROC) none = some p := by
    rw [← Option.ne_none_iff_exists']
    intro hb
    exact best_eq_none.1 hb i (by rw [Machine.seen, Proc.refresh_state, h])
  have hr : ((m.scanned (List.finRange NPROC)).sys.proc p).state = .RUNNABLE := by
    simpa [Machine.scanned, Machine.seen] using (best_spec hp).1
  refine ⟨p, hp, ?_⟩
  simp only [scheduler, bind, StateT.bind, pbsScan_all, Except.bind, hp, get, getThe,
    MonadStateOf.get, StateT.get, pure, Except.pure, hr, if_true]
  rfl

theorem Machine.event_round {m : Machine} (hc : m.cpu c = none) :
    event L (.round c) m = scheduler c m := by
  simp only [event, bind, StateT.bind, get, getThe, MonadStateOf.get, StateT.get, pure, Except.pure,
    Except.bind, hc, if_true]

theorem wp_round {m : Machine} {Q : Unit → Machine → Prop} (hbusy : m.cpu c ≠ none → Q () m)
    (hnone : m.cpu c = none → (∀ i, (m.sys.proc i).state ≠ .RUNNABLE) →
      Q () (m.scanned (List.finRange NPROC)))
    (hsome : ∀ p, m.cpu c = none → best m.seen (List.finRange NPROC) none = some p →
      (m.sys.proc p).state = .RUNNABLE → Q () (m.dispatched c p)) :
    Wp (Machine.event L (.round c)) E Q m := by
  rw [Machine.event, wp_bind, wp_get]
  refine .ite (fun hc => ?_) fun hc => wp_pure.2 (hbusy hc)
  by_cases hex : ∃ i, (m.sys.proc i).state = .RUNNABLE
  · obtain ⟨i, hi⟩ := hex
    obtain ⟨p, hp, hs⟩ := scheduler_some hi c
    have hrun := (best_spec hp).1
    rw [Machine.seen, Proc.refresh_state] at hrun
    exact .of_ok hs (hsome p hc hp hrun)
  · have hidle (i : Slot) (hi : (m.sys.proc i).state = .RUNNABLE) : False := hex ⟨i, hi⟩
    exact .of_ok (scheduler_none hidle c) (hnone hc hidle)

/-- What an operation does to the kernel is what its event does to it. -/
theorem wp_user {m : Machine} {Q : Sys → Prop}
    (hskip : (∀ p, m.cpu c = some p → op.slot ≠ some p) → Q m.sys)
    (hstep : ∀ p, m.cpu c = some p → op.slot = some p →
      Wp (step L op) E (fun _ t' => Q t') m.sys) :
    Wp (Machine.event L (.user c op)) E (fun _ m' => Q m'.sys) m := by
  rw [Machine.event, wp_bind, wp_get]
  cases hc : m.cpu c with
  | none => exact wp_pure.2 (hskip fun p hp => by simp [hc] at hp)
  | some p =>
    refine .ite (fun hop => ?_) fun hop => wp_pure.2 (hskip fun p' hp' => ?_)
    swap
    · rw [hc] at hp'
      cases hp'
      exact hop
    simp only [runOp, wp_bind, wp_get, wp_modify]
    rw [onSys, wp_zoom]
    refine (hstep p hc hop).mono fun _ t' ht => ?_
    refine .ite (fun _ => ?_) fun _ => wp_pure.2 ht
    simp only [wp_bind, wp_modify, schedulerBack, incTotSche, lt_irrefl, dif_neg, not_false_eq_true,
      putCpu]
    exact ht

theorem Machine.scanned_proc (m : Machine) (i : Slot) :
    (m.scanned (List.finRange NPROC)).sys.proc i = m.seen i := by
  simp [scanned, seen]

theorem Machine.dispatched_proc (m : Machine) (c : Nat) (p i : Slot) :
    (m.dispatched c p).sys.proc i =
      if i = p then { m.seen i with state := .RUNNING } else m.seen i := by
  show ((m.scanned (List.finRange NPROC)).sys.setProc p fun q =>
    { q with state := .RUNNING }).proc i = _
  by_cases hi : i = p
  · rw [hi, if_pos rfl, Sys.setProc_self, scanned_proc]
  · rw [if_neg hi, Sys.setProc_of_ne _ hi, scanned_proc]

theorem Machine.dispatched_state (m : Machine) (c : Nat) (p i : Slot) :
    ((m.dispatched c p).sys.proc i).state =
      if i = p then .RUNNING else (m.sys.proc i).state := by
  rw [dispatched_proc]
  split
  · rfl
  · rw [seen, Proc.refresh_state]

theorem Machine.dispatched_cpu (m : Machine) (c : Nat) (p : Slot) :
    (m.dispatched c p).cpu = Function.update m.cpu c (some p) := rfl

/-- One round dispatches a process if there is a runnable one, and then the first of those that no
other precedes; another order of the table makes a difference only among complete ties. -/
theorem scheduler_picks_best (m : Machine) (c : Nat) (hc : m.cpu c = none) :
    ∃ m', scheduler c m = .ok ((), m') ∧
      ((∃ p, m'.cpu c = some p) ↔ ∃ i, (m.sys.proc i).state = .RUNNABLE) ∧
      ∀ p, m'.cpu c = some p →
        (m.sys.proc p).state = .RUNNABLE ∧
        (∀ i, (m'.sys.proc i).state = if i = p then .RUNNING else (m.sys.proc i).state) ∧
        (∀ q, (m.sys.proc q).state = .RUNNABLE →
          ¬ (m.seen q).Precedes (m.seen p) ∧ ((m.seen q).Ties (m.seen p) → p ≤ q)) ∧
        ∀ (σ : Equiv.Perm Slot) (n n' : Machine), (∀ i, n.sys.proc i = m.sys.proc (σ i)) →
          scheduler c n = .ok ((), n') →
          ∃ p', n'.cpu c = some p' ∧ (m.seen (σ p')).Ties (m.seen p) := by
  by_cases hex : ∃ i, (m.sys.proc i).state = .RUNNABLE
  · obtain ⟨i, hi⟩ := hex
    obtain ⟨p, hp, hs⟩ := scheduler_some hi c
    obtain ⟨hrun, hbest⟩ := best_spec hp
    have hcpu : (m.dispatched c p).cpu c = some p := Function.update_self ..
    rw [Machine.seen, Proc.refresh_state] at hrun
    refine ⟨_, hs, ⟨fun _ => ⟨i, hi⟩, fun _ => ⟨p, hcpu⟩⟩, fun p' hp' => ?_⟩
    obtain rfl : p = p' := by
      rw [hcpu] at hp'
      injection hp'
    refine ⟨hrun, m.dispatched_state c p, fun q hq => hbest q ?_, ?_⟩
    · rwa [Machine.seen, Proc.refresh_state]
    · intro σ n n' hσ hn'
      have hseen (j : Slot) : n.seen j = m.seen (σ j) := by rw [Machine.seen, hσ, Machine.seen]
      obtain ⟨p', hp', hs'⟩ := scheduler_some (m := n) (i := σ.symm i) (by simpa [hσ] using hi) c
      obtain ⟨hrun', hbest'⟩ := best_spec hp'
      obtain rfl : n' = n.dispatched c p' := by
        rw [hn'] at hs'
        injection hs' with hs'
        exact congrArg Prod.snd hs'
      refine ⟨p', Function.update_self .., Proc.ties_of_not_precedes ?_ ?_⟩
      · exact (hbest _ (by rwa [← hseen])).1
      · have hback : n.seen (σ.symm p) = m.seen p := by rw [hseen, Equiv.apply_symm_apply]
        rw [← hseen, ← hback]
        refine (hbest' _ ?_).1
        rw [hback, Machine.seen, Proc.refresh_state, hrun]
  · have hnone (i : Slot) : (m.sys.proc i).state ≠ .RUNNABLE := fun hi => hex ⟨i, hi⟩
    refine ⟨_, scheduler_none hnone c, ⟨fun ⟨p, hp⟩ => ?_, fun hi => (hex hi).elim⟩, fun p hp => ?_⟩
    · exact absurd (hc.symm.trans hp) (by simp)
    · exact absurd (hc.symm.trans hp) (by simp)

/-- A table of processes that tie completely. -/
def Machine.alike : Machine :=
  { Machine.start (fun _ _ => 0) (fun _ => 0) with
    sys := { Sys.start fun _ _ => 0 with proc := fun _ => { Proc.zero with state := .RUNNABLE } } }

theorem scheduler_picks_first :
    ∃ m', scheduler 0 Machine.alike = .ok ((), m') ∧ m'.cpu 0 = some ⟨0, by decide⟩ := by
  obtain ⟨m', hs, hex, hp⟩ := scheduler_picks_best Machine.alike 0 rfl
  obtain ⟨p, hcpu⟩ := hex.2 ⟨⟨0, by decide⟩, rfl⟩
  obtain ⟨_, _, hbest, _⟩ := hp p hcpu
  have hle : p ≤ ⟨0, by decide⟩ := (hbest ⟨0, by decide⟩ rfl).2 ⟨rfl, rfl, rfl⟩
  refine ⟨m', hs, hcpu.trans (congrArg some (Fin.ext ?_))⟩
  exact Nat.le_zero.1 hle

end PbsCow
