import PbsCow.Pick
import PbsCow.Userinit

namespace PbsCow
set_option autoImplicit true

/-- A slot keeps what the kernel's invariant reads of it. -/
def Proc.SameSlot (q q' : Proc) : Prop :=
  q.SameMem q' ∧ q'.parent = q.parent ∧ q'.state = q.state ∧ q'.pid = q.pid

theorem Quiet.of_slots {t t' : Sys} (hm : t'.mem = t.mem) (hs : t.SameStatic t')
    (hi : t'.initproc = t.initproc) (hp : ∀ i, (t.proc i).SameSlot (t'.proc i)) : Quiet t t' := by
  refine ⟨⟨hm, fun i => (hp i).1, hs⟩, fun i => ?_, fun i hi => ?_, fun i _ hi => ?_, hi,
    fun i => (hp i).2.2.2⟩
  · rw [(hp i).2.2.1]
  · rwa [(hp i).2.2.1] at hi
  · rwa [(hp i).2.1]

theorem Proc.refresh_sameSlot (q : Proc) : q.SameSlot q.refresh := by
  rw [refresh, _rbi]
  split <;> exact ⟨⟨rfl, rfl, rfl⟩, rfl, rfl, rfl⟩

/-- A scan touches no memory and no state. -/
theorem Machine.scanned_quiet (m : Machine) (l : List Slot) : Quiet m.sys (m.scanned l).sys := by
  refine .of_slots rfl ⟨rfl, rfl, rfl, rfl⟩ rfl fun i => ?_
  simp only [scanned]
  split
  · exact (m.sys.proc i).refresh_sameSlot
  · exact ⟨.refl _, rfl, rfl, rfl⟩

theorem Machine.dispatched_quiet {m : Machine} (c : Nat) (hp : (m.sys.proc p).state = .RUNNABLE) :
    Quiet m.sys (m.dispatched c p).sys := by
  have hs : ((m.scanned (List.finRange NPROC)).sys.proc p).state = .RUNNABLE := by
    rw [scanned_proc, seen, Proc.refresh_state, hp]
  refine (m.scanned_quiet (List.finRange NPROC)).trans ?_
  exact .setProc (p := p) (f := fun q => { q with state := .RUNNING }) rfl (fun _ => ⟨rfl, rfl, rfl⟩)
    (by rw [hs]; simp) (by simp) (by simp)

theorem Sys.updateTime_quiet (t : Sys) : Quiet t t.updateTime := by
  refine .of_slots rfl ⟨rfl, rfl, rfl, rfl⟩ rfl fun i => ?_
  simp only [updateTime]
  split <;> exact ⟨⟨rfl, rfl, rfl⟩, rfl, rfl, rfl⟩

theorem Sys.countTicks_quiet (t : Sys) : Quiet t t.countTicks := by
  refine .of_slots rfl ⟨rfl, rfl, rfl, rfl⟩ rfl fun i => ?_
  simp only [countTicks]
  split <;> exact ⟨⟨rfl, rfl, rfl⟩, rfl, rfl, rfl⟩

/-- A tick of the clock touches no memory. -/
theorem clockintr_quiet (me : Option Slot) (t : Sys) :
    Wp (clockintr me) NoError (fun _ t' => Quiet t t') t := by
  simp only [clockintr, wp_bind, wp_modify]
  have htick : Quiet t { t with ticks := t.ticks + 1 } :=
    .of_slots rfl ⟨rfl, rfl, rfl, rfl⟩ rfl fun _ => ⟨.refl _, rfl, rfl, rfl⟩
  exact ((htick.trans (Sys.updateTime_quiet _)).trans (Sys.countTicks_quiet _)).trans (.wakeup _ me _)

/-- Every event keeps the invariant of the kernel; nothing but the exit of the first process stops
the machine. -/
theorem Inv.event {m : Machine} (h : Inv L m.sys) (ev : Event) :
    Wp (Machine.event L ev) InitExiting (fun _ m' => Inv L m'.sys) m := by
  cases ev with
  | round c =>
    refine wp_round (fun _ => h) (fun _ _ => (m.scanned_quiet _).inv h) fun p _ _ hp => ?_
    exact (Machine.dispatched_quiet c hp).inv h
  | user c op =>
    exact wp_user (Q := Inv L) (fun _ => h) fun _ _ _ => (h.step op).mono fun _ _ ht => ht.inv
  | tick =>
    rw [Machine.event, wp_bind, wp_get, onSys, wp_zoom]
    exact ((clockintr_quiet _ _).weaken fun _ hf => hf.elim).mono fun _ _ hq => hq.inv h

/-- The kernel boots on the machine. -/
theorem onSys_boot (L : Layout) (ram : Nat → Page) (beyond : Nat → BitVec 32) :
    ∃ t p g r x, boot L (Sys.start ram) = .ok ((), t) ∧ Booted L t p .RUNNABLE g r x ∧
      onSys (boot L) (Machine.start ram beyond) =
        .ok ((), { Machine.start ram beyond with sys := t }) := by
  obtain ⟨_, t, ht, p, g, r, x, hb⟩ := (boot_spec L ram).exists_ok
  refine ⟨t, p, g, r, x, ht, hb, ?_⟩
  simp only [onSys, zoom, Machine.start, ht]

theorem machine_run (L : Layout) (ram : Nat → Page) (beyond : Nat → BitVec 32) (evs : List Event) :
    Wp (do onSys (boot L); runWith (Machine.event L) evs) InitExiting (fun _ m => Inv L m.sys)
      (Machine.start ram beyond) := by
  obtain ⟨t, p, g, r, x, ht, hb, hboot⟩ := onSys_boot L ram beyond
  exact .bind_ok hboot (.runWith (I := fun m : Machine => Inv L m.sys) hb.toInv (fun ev _ h => h.event ev) evs)

end PbsCow
