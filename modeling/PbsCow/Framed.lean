import PbsCow.Tidy

namespace PbsCow
set_option autoImplicit true

/-- Programs that change the table as `R` says, whatever state they start in. -/
def Moves (R : Sys → Sys → Prop) (x : Ker α) : Prop := ∀ t, Wp x AnyError (fun _ t' => R t t') t

/-- What the scheduler compares, but for the time of creation. -/
def Proc.sched (q : Proc) : BitVec 32 × BitVec 32 × BitVec 32 := (q.static_pri, q.tot_sche, q.curr_rbi)

/-- What `_rbi` reads: the counters of ticks, and the flag. -/
def Proc.clock (q : Proc) : BitVec 32 × BitVec 32 × BitVec 32 × BitVec 32 :=
  (q.my_rtime, q.my_stime, q.my_wtime, q.rbi)

structure Proc.Frame (q q' : Proc) : Prop extends q.SameMarks q' where
  sched : q'.sched = q.sched
  clock : q'.clock = q.clock

/-- Relations between tables that allow what the system calls do that neither take a slot nor set a
priority. -/
class Gentle (R : Sys → Sys → Prop) : Prop where
  trans : ∀ {t t' t'' : Sys}, R t t' → R t' t'' → R t t''
  frame : ∀ {t t' : Sys}, t'.nextpid = t.nextpid → (∀ i, (t.proc i).Frame (t'.proc i)) → R t t'
  free : ∀ {t : Sys} {p : Slot}, R t (t.setProc p fun q => { q with
    pagetable := 0, sz := 0, pid := 0, parent := none, chan := .none, killed := false, xstate := 0,
    state := .UNUSED })

/-- Relations between tables that allow what most of the kernel does to them. -/
class Framed (R : Sys → Sys → Prop) : Prop extends Gentle R where
  alloc : ∀ {t : Sys} {p : Slot}, (t.proc p).state = .UNUSED →
    R t (({ t with nextpid := t.nextpid + 1 } : Sys).setProc p fun q => { q with
      pid := t.nextpid, state := .USED })
  init : ∀ {t : Sys} {p : Slot}, R t (t.setProc p fun q => { q with
    rtime := 0, etime := 0, ctime := t.ticks, my_wtime := 0, my_rtime := 0, my_stime := 0,
    static_pri := 50, rbi := 25, tot_sche := 0, curr_rbi := 0 })
  setPriority : ∀ {t : Sys} {p : Slot} {n : Int}, 0 ≤ n → n ≤ 100 →
    R t (t.setProc p fun q => { q with rbi := 25, static_pri := BitVec.ofInt 32 n })

namespace Gentle

variable {R : Sys → Sys → Prop} [Gentle R]

theorem of_same {t t' : Sys} (hn : t'.nextpid = t.nextpid) (hp : t'.proc = t.proc) : R t t' :=
  frame hn fun i => by rw [hp]; exact ⟨⟨rfl, rfl, fun h => h⟩, rfl, rfl⟩

theorem refl (t : Sys) : R t t := of_same rfl rfl

theorem setProc {t : Sys} {p : Slot} {f : Proc → Proc} (hf : (t.proc p).Frame (f (t.proc p))) :
    R t (t.setProc p f) := by
  refine frame rfl fun i => ?_
  by_cases hi : i = p
  · subst hi
    rwa [t.setProc_self]
  · rw [t.setProc_of_ne hi]
    exact ⟨⟨rfl, rfl, fun h => h⟩, rfl, rfl⟩

theorem wakeup (t : Sys) (me : Option Slot) (chan : Chan) : R t (t.wakeup me chan) := by
  refine frame rfl fun i => ?_
  simp only [Sys.wakeup]
  split
  · exact ⟨⟨rfl, rfl, by simp⟩, rfl, rfl⟩
  · exact ⟨⟨rfl, rfl, fun h => h⟩, rfl, rfl⟩

theorem reparent (t : Sys) (p : Slot) : R t (t.reparent p) := by
  rw [Sys.reparent]
  generalize List.finRange NPROC = l
  induction l generalizing t with
  | nil => exact refl t
  | cons pp l ih =>
    rw [List.foldl_cons]
    refine Gentle.trans ?_ (ih _)
    split
    · refine Gentle.trans (setProc ?_) (wakeup _ _ _)
      exact ⟨⟨rfl, rfl, fun h => h⟩, rfl, rfl⟩
    · exact refl t

end Gentle

namespace Moves

variable {R : Sys → Sys → Prop}

theorem throw (e : Panic) : Moves R (throw e : Ker α) := fun _ => trivial

theorem get {f : Sys → Ker α} (hf : ∀ t, Moves R (f t)) : Moves R (get >>= f) :=
  fun t => wp_bind.2 (wp_get.2 (hf t t))

theorem ite {c : Prop} [Decidable c] {x y : Ker α} (hx : Moves R x) (hy : Moves R y) :
    Moves R (if c then x else y) :=
  fun t => .ite (fun _ => hx t) fun _ => hy t

theorem modify {f : Sys → Sys} (hf : ∀ t, R t (f t)) : Moves R (modify f : Ker PUnit) :=
  fun t => wp_modify.2 (hf t)

section Gentle

variable [Gentle R]

theorem pure (a : α) : Moves R (pure a) := fun t => wp_pure.2 (Gentle.refl t)

theorem bind {x : Ker α} {f : α → Ker β} (hx : Moves R x) (hf : ∀ a, Moves R (f a)) :
    Moves R (x >>= f) :=
  fun t => .bind (hx t) fun a t' h => (hf a t').mono fun _ _ h' => Gentle.trans h h'

theorem onMem (x : Kern α) : Moves R (PbsCow.onMem x) :=
  fun _ => Tidy.onMem.mono fun _ _ h => Gentle.of_same h.2 h.1

theorem setProc {f : Proc → Proc} (hf : ∀ q : Proc, q.Frame (f q)) :
    Moves R (PbsCow.setProc p f) :=
  fun _ => wp_setProc.2 (Gentle.setProc (hf _))

theorem freeproc (L : Layout) (p : Slot) : Moves R (PbsCow.freeproc L p) := by
  have hlast (q : Proc) : Moves R (do
      PbsCow.setProc p fun q => { q with trapframe := 0 }
      if q.pagetable ≠ 0 then PbsCow.onMem (procFreepagetable L q.pagetable q.sz)
      PbsCow.setProc p fun q => { q with
        pagetable := 0, sz := 0, pid := 0, parent := none, chan := .none, killed := false,
        xstate := 0, state := .UNUSED }) := by
    refine .bind (.setProc fun _ => ⟨⟨rfl, rfl, fun h => h⟩, rfl, rfl⟩) fun _ => ?_
    have hfree : Moves R (PbsCow.setProc p fun q => { q with
        pagetable := 0, sz := 0, pid := 0, parent := none, chan := .none, killed := false,
        xstate := 0, state := .UNUSED }) := fun _ => wp_setProc.2 Gentle.free
    exact .ite (.bind (.onMem _) fun _ => hfree) hfree
  rw [PbsCow.freeproc]
  exact .get fun t => .ite (.bind (.onMem _) fun _ => hlast _) (hlast _)

theorem growproc (L : Layout) (p : Slot) (n : Int) : Moves R (PbsCow.growproc L p n) := by
  have hlast (sz : Nat) : Moves R (do
      PbsCow.setProc p fun q => { q with sz := sz }
      return (0 : Int)) :=
    .bind (.setProc fun _ => ⟨⟨rfl, rfl, fun h => h⟩, rfl, rfl⟩) fun _ => .pure _
  rw [PbsCow.growproc]
  refine .get fun t => .ite (.bind (.onMem _) fun _ => .ite (.pure _) (hlast _)) ?_
  exact .ite (.bind (.onMem _) fun _ => hlast _) (hlast _)

theorem exit (p : Slot) (status : BitVec 32) : Moves R (PbsCow.exit p status) := by
  rw [PbsCow.exit]
  refine .get fun t => .ite (.throw _) ?_
  refine .bind (.modify fun t => Gentle.reparent t p) fun _ => .bind (.modify fun t => Gentle.wakeup t _ _) fun _ => ?_
  exact .get fun t => .setProc fun _ => ⟨⟨rfl, rfl, by simp⟩, rfl, rfl⟩

theorem waitScan (L : Layout) (p : Slot) (addr : Nat) (l : List Slot) (havekids : Bool) :
    Moves R (PbsCow.waitScan L p addr l havekids) := by
  induction l generalizing havekids with
  | nil => exact .pure _
  | cons pp l ih =>
    rw [PbsCow.waitScan]
    have hfree (q : Proc) : Moves R (do
        PbsCow.freeproc L pp
        return (.inl q.pid : Int ⊕ Bool)) := .bind (.freeproc L pp) fun _ => .pure _
    refine .get fun t => .ite (.ite (.get fun t' => ?_) (ih _)) (ih _)
    exact .ite (.bind (.onMem _) fun _ => .ite (.pure _) (hfree _)) (hfree _)

theorem goSleep (p : Slot) (chan : Chan) (a : α) : Moves R (do
    PbsCow.setProc p fun q => { q with chan := chan, state := .SLEEPING }
    return a) :=
  .bind (.setProc fun _ => ⟨⟨rfl, rfl, by simp⟩, rfl, rfl⟩) fun _ => .pure _

theorem wait (L : Layout) (p : Slot) (addr : Nat) : Moves R (PbsCow.wait L p addr) := by
  rw [PbsCow.wait]
  refine .bind (.waitScan L p addr _ _) ?_
  rintro (ret | havekids)
  · exact .pure _
  · exact .get fun t => .ite (.pure _) (.goSleep p _ _)

theorem waitx (L : Layout) (p : Slot) (addr : Nat) (wtime rtime : BitVec 32) :
    Moves R (PbsCow.waitx L p addr wtime rtime) := by
  have hscan : Moves R (waitxScan L p addr wtime rtime (List.finRange NPROC) false) := by
    intro t
    have hw := waitScan (R := R) L p addr (List.finRange NPROC) false t
    rwa [← waitxScan_fst L p addr wtime rtime, wp_map] at hw
  rw [PbsCow.waitx]
  refine .bind hscan ?_
  rintro ⟨ret | havekids, times⟩
  · exact .pure _
  · exact .get fun t => .ite (.pure _) (.goSleep p _ _)

theorem sysWaitx (L : Layout) (p : Slot) (addr addr1 addr2 : Nat) (wtime rtime : BitVec 32) :
    Moves R (PbsCow.sysWaitx L p addr addr1 addr2 wtime rtime) := by
  rw [PbsCow.sysWaitx]
  refine .bind (.waitx L p addr _ _) ?_
  rintro (_ | ⟨ret, w, r⟩)
  · exact .pure _
  · refine .get fun t => .bind (.onMem _) fun _ => .ite (.pure _) ?_
    exact .bind (.onMem _) fun _ => .ite (.pure _) (.pure _)

theorem setReturn (p : Slot) (r : Reply) : Moves R (PbsCow.setReturn p r) := by
  rw [PbsCow.setReturn]
  refine .get fun t => ?_
  cases r.ret t with
  | none => exact .pure _
  | some n => exact .onMem _

theorem pipealloc : Moves R PbsCow.pipealloc := by
  rw [PbsCow.pipealloc]
  exact .bind (.onMem _) fun _ => .ite (.bind (.modify fun t => Gentle.of_same rfl rfl) fun _ => .pure _)
    (.pure _)

theorem pipeclose (L : Layout) (p : Slot) (page : Nat) (writable : Bool) :
    Moves R (PbsCow.pipeclose L p page writable) := by
  rw [PbsCow.pipeclose]
  refine .get fun t => ?_
  cases t.pipes.find? fun q => q.page = page with
  | none => exact .pure _
  | some pi =>
    refine .bind (.modify fun t => Gentle.wakeup t _ _) fun _ => .ite ?_ (.modify fun t => Gentle.of_same rfl rfl)
    exact .bind (.modify fun t => Gentle.of_same rfl rfl) fun _ => .onMem _

theorem sysPipe (L : Layout) (p : Slot) (fdarray : Nat) (fd0 fd1 : BitVec 32) :
    Moves R (PbsCow.sysPipe L p fdarray fd0 fd1) := by
  have hfds : Moves R (copyoutFds L p fdarray fd0 fd1) := by
    rw [copyoutFds]
    exact .get fun t => .bind (.onMem _) fun _ => .ite (.pure _) (.onMem _)
  rw [PbsCow.sysPipe]
  refine .bind .pipealloc fun _ => .ite (.pure _) (.bind hfds fun _ => .ite ?_ (.pure _))
  exact .bind (.pipeclose L p _ _) fun _ => .bind (.pipeclose L p _ _) fun _ => .pure _

theorem exec (L : Layout) (p : Slot) (ip : Option (List Byte)) (argv : List (List Byte)) :
    Moves R (PbsCow.exec L p ip argv) := by
  cases ip with
  | none => exact .pure _
  | some ip =>
    rw [PbsCow.exec]
    refine .get fun t => .bind (.onMem _) ?_
    rintro (_ | image)
    · exact .pure _
    · refine .bind (.onMem _) fun _ => .bind (.setProc fun _ => ⟨⟨rfl, rfl, fun h => h⟩, rfl, rfl⟩) ?_
      exact fun _ => .bind (.onMem _) fun _ => .bind (.onMem _) fun _ => .bind (.onMem _) fun _ => .pure _

theorem fetchArgs (p : Slot) (uargv n i : Nat) (argv : List (List Byte)) :
    Moves R (PbsCow.fetchArgs p uargv n i argv) := by
  have haddr (addr : Nat) : Moves R (fetchaddr p addr) := by
    rw [fetchaddr]
    exact .get fun t => .ite (.pure _) (.bind (.onMem _) fun _ => .ite (.pure _) (.pure _))
  induction n generalizing i argv with
  | zero => exact .pure _
  | succ n ih =>
    rw [PbsCow.fetchArgs]
    refine .bind (haddr _) ?_
    rintro (_ | uarg)
    · exact .pure _
    · refine .ite (.pure _) (.bind (.onMem _) fun _ => .ite (.pure _) ?_)
      refine .bind (.modify fun t => Gentle.of_same rfl rfl) fun _ => .get fun t => .bind (.onMem _) ?_
      exact fun _ => .bind (.onMem _) fun _ => .ite (.pure _) (ih _ _)

theorem sysExec (L : Layout) (namei : List Byte → Option (List Byte)) (p : Slot) (path uargv : Nat) :
    Moves R (PbsCow.sysExec L namei p path uargv) := by
  have hfree : Moves R (freeArgs L) := by
    rw [freeArgs]
    exact .get fun t => .bind (.modify fun t => Gentle.of_same rfl rfl) fun _ => .onMem _
  rw [PbsCow.sysExec]
  refine .get fun t => .bind (.onMem _) fun _ => .ite (.pure _) (.bind (.fetchArgs p _ _ _ _) ?_)
  rintro (_ | argv)
  · exact .bind hfree fun _ => .pure _
  · exact .bind (.exec L p _ _) fun _ => .bind hfree fun _ => .pure _

/-- The system calls that neither mark a process nor take a slot nor set a priority. -/
theorem gentle (L : Layout) (p : Slot) (c : Syscall) (hk : ∀ pid, c ≠ .kill pid) (hf : c ≠ .fork)
    (hs : ∀ pid n, c ≠ .setPriority pid n) : Moves R (PbsCow.syscall L p c) := by
  cases c with
  | fork => exact (hf rfl).elim
  | setPriority pid new_priority => exact (hs pid new_priority rfl).elim
  | kill pid => exact (hk pid rfl).elim
  | exit status => exact .bind (.exit p status) fun _ => .pure _
  | wait addr =>
    refine .bind (.wait L p addr) ?_
    rintro (_ | ret)
    · exact .pure _
    · exact .pure _
  | sbrk n => exact .get fun t => .bind (.growproc L p _) fun _ => .ite (.pure _) (.pure _)
  | exec namei path uargv => exact .bind (.sysExec L namei p path uargv) fun _ => .pure _
  | pipe fdarray fd0 fd1 => exact .bind (.sysPipe L p fdarray fd0 fd1) fun _ => .pure _
  | close page writable => exact .bind (.pipeclose L p page writable) fun _ => .pure _
  | read dstva src => exact .get fun t => .bind (.onMem _) fun _ => .pure _
  | sleep chan => exact .goSleep p chan _
  | waitx addr addr1 addr2 wtime rtime =>
    refine .bind (.sysWaitx L p addr addr1 addr2 wtime rtime) ?_
    rintro (_ | ret)
    · exact .pure _
    · exact .pure _

theorem exitIfKilled {k : Ker Reply} (hk : Moves R k) :
    Moves R (PbsCow.exitIfKilled p k) :=
  .get fun _ => .ite (.bind (.exit p _) fun _ => .pure _) hk

end Gentle

variable [Framed R]

theorem allocproc (L : Layout) : Moves R (PbsCow.allocproc L) := by
  intro t
  rw [PbsCow.allocproc, wp_bind, wp_get]
  cases hf : (List.finRange NPROC).find? fun p => (t.proc p).state = .UNUSED with
  | none => exact wp_pure.2 (Gentle.refl t)
  | some p =>
    have hfail : Moves R (do
        PbsCow.freeproc L p
        return (none : Option Slot)) := .bind (.freeproc L p) fun _ => .pure _
    have hp : (t.proc p).state = .UNUSED := by simpa using List.find?_some hf
    refine .bind (P := fun pid t' => pid = t.nextpid ∧ t' = { t with nextpid := t.nextpid + 1 })
      ⟨rfl, rfl⟩ ?_
    rintro _ _ ⟨rfl, rfl⟩
    rw [wp_bind, wp_setProc]
    refine Wp.mono (Moves.bind (R := R) (.onMem _) (fun trapframe => ?_) _) fun _ _ h =>
      Gentle.trans (Framed.alloc hp) h
    refine .bind (.setProc fun _ => ⟨⟨rfl, rfl, fun h => h⟩, rfl, rfl⟩) fun _ => .ite hfail ?_
    refine .bind (.onMem _) fun pagetable => ?_
    refine .bind (.setProc fun _ => ⟨⟨rfl, rfl, fun h => h⟩, rfl, rfl⟩) fun _ => .ite hfail ?_
    exact fun _ => wp_bind.2 (wp_get.2 (wp_bind.2 (wp_setProc.2 (wp_pure.2 Framed.init))))

theorem fork (L : Layout) (p : Slot) : Moves R (PbsCow.fork L p) := by
  rw [PbsCow.fork]
  refine .bind (.allocproc L) ?_
  rintro (_ | np)
  · exact .pure _
  refine .get fun t => .get fun t' => .bind (.onMem _) fun _ => .ite ?_ ?_
  · exact .bind (.freeproc L np) fun _ => .pure _
  · refine .bind (.setProc fun _ => ⟨⟨rfl, rfl, fun h => h⟩, rfl, rfl⟩) fun _ => .bind (.onMem _) fun _ => ?_
    refine .bind (.onMem _) fun _ => .bind (.setProc fun _ => ⟨⟨rfl, rfl, by simp⟩, rfl, rfl⟩) fun _ => ?_
    exact .pure _

theorem sysSetPriority (pid new_priority : Int) :
    Moves R (PbsCow.sysSetPriority pid new_priority) := by
  have hscan (h : ¬ (new_priority < 0 ∨ new_priority > 100)) (l : List Slot) (old : Int)
      (do_yield : Bool) : Moves R (setPriorityScan pid new_priority l old do_yield) := by
    induction l generalizing old do_yield with
    | nil => exact .pure _
    | cons p l ih =>
      rw [setPriorityScan]
      refine .get fun t => .ite (.bind ?_ fun _ => ih _ _) (ih _ _)
      exact fun _ => wp_setProc.2 (Framed.setPriority (by omega) (by omega))
  rw [PbsCow.sysSetPriority]
  by_cases h : new_priority < 0 ∨ new_priority > 100
  · rw [if_pos h]
    exact .pure _
  · rw [if_neg h]
    exact hscan h _ _ _

/-- Every system call but `kill` leaves the marks alone. -/
theorem syscall (L : Layout) (p : Slot) (c : Syscall) (hc : ∀ pid, c ≠ .kill pid) :
    Moves R (PbsCow.syscall L p c) := by
  by_cases hf : c = .fork
  · subst hf
    refine .bind (.fork L p) ?_
    rintro (_ | np)
    · exact .pure _
    · exact .pure _
  · by_cases hs : ∃ pid n, c = .setPriority pid n
    · obtain ⟨pid, n, rfl⟩ := hs
      refine .bind (.sysSetPriority pid n) fun _ => .ite (.bind (.setReturn p _) fun _ => ?_) (.pure _)
      exact .bind (.setProc fun _ => ⟨⟨rfl, rfl, by simp⟩, rfl, rfl⟩) fun _ => .pure _
    · exact .gentle L p c hc hf fun pid n he => hs ⟨pid, n, he⟩

end Moves

theorem uservec_table {t : Sys} : Wp (uservec p regs) AnyError
    (fun _ t' => t'.proc = t.proc ∧ t'.nextpid = t.nextpid) t := by
  rw [uservec, wp_bind, wp_get]
  refine .bind Tidy.onMem ?_
  rintro _ t₁ ⟨hp₁, hn₁⟩
  refine Tidy.onMem.mono ?_
  rintro _ t₂ ⟨hp₂, hn₂⟩
  exact ⟨hp₂.trans hp₁, hn₂.trans hn₁⟩

theorem tryStore_table {t : Sys} : Wp (tryStore p va b) AnyError
    (fun _ t' => t'.proc = t.proc ∧ t'.nextpid = t.nextpid) t := by
  rw [tryStore, wp_bind, wp_get]
  cases t.mem.userStore (t.proc p).pagetable va b with
  | none => exact wp_pure.2 ⟨rfl, rfl⟩
  | some m => exact wp_bind.2 (wp_set.2 (wp_pure.2 ⟨rfl, rfl⟩))

/-- The causes for which `usertrap` may mark the process itself. -/
def Cause.Faults : Cause → Prop
  | .storeFault _ => True
  | .unexpected => True
  | _ => False

namespace Gentle

variable {R : Sys → Sys → Prop}

theorem setkilled {t : Sys} (hset : ∀ t : Sys, (t.proc p).state ≠ .UNUSED →
      R t (t.setProc p fun q => { q with killed := true }))
    (hp : (t.proc p).state ≠ .UNUSED) :
    Wp (PbsCow.setkilled p) AnyError (fun _ t' => R t t' ∧ (t'.proc p).state ≠ .UNUSED) t := by
  rw [PbsCow.setkilled, wp_setProc]
  exact ⟨hset t hp, by rwa [t.setProc_self]⟩

variable [Gentle R]

theorem storePageFault {t : Sys} (hset : ∀ t : Sys, (t.proc p).state ≠ .UNUSED →
      R t (t.setProc p fun q => { q with killed := true }))
    (hp : (t.proc p).state ≠ .UNUSED) :
    Wp (storePageFault L p addr) AnyError (fun _ t' => R t t') t := by
  have hlast (t₁ : Sys) (hp₁ : (t₁.proc p).state ≠ .UNUSED) (n : Nat) (h : R t t₁) :
      Wp (do
        if (← onMem (cowalloc L n (PGROUNDDOWN addr))) < 0 then PbsCow.setkilled p) AnyError
        (fun _ t' => R t t') t₁ := by
    refine .bind Tidy.onMem ?_
    rintro ret t₂ ⟨hp₂, hn₂⟩
    have h₂ : R t t₂ := Gentle.trans h (of_same hn₂ hp₂)
    refine .ite (fun _ => ?_) fun _ => wp_pure.2 h₂
    exact (setkilled hset (by rwa [hp₂])).mono fun _ _ h' => Gentle.trans h₂ h'.1
  rw [PbsCow.storePageFault, wp_bind, wp_get]
  refine .bind Tidy.onMem ?_
  rintro sp t₁ ⟨hp₁, hn₁⟩
  have h₁ : R t t₁ := of_same hn₁ hp₁
  have hne₁ : (t₁.proc p).state ≠ .UNUSED := by rwa [hp₁]
  refine .ite (fun _ => .bind (setkilled hset hne₁) ?_) fun _ => hlast t₁ hne₁ _ h₁
  rintro _ t₂ ⟨h₂, hne₂⟩
  exact hlast t₂ hne₂ _ (Gentle.trans h₁ h₂)

/-- A trap does nothing to the table that `R` does not allow, if marking the process and the system
call do not. -/
theorem usertrap {t : Sys} (hp : (t.proc p).state ≠ .UNUSED)
    (hset : cause.Faults → ∀ t : Sys, (t.proc p).state ≠ .UNUSED →
      R t (t.setProc p fun q => { q with killed := true }))
    (hsys : ∀ c, cause = .syscall c → (t.proc p).killed = false → ∀ t₁ : Sys, t₁.proc = t.proc →
      t₁.nextpid = t.nextpid → Wp (syscall L p c) AnyError (fun _ t' => R t₁ t') t₁) :
    Wp (usertrap L p regs cause) AnyError (fun _ t' => R t t') t := by
  rw [PbsCow.usertrap.eq_def]
  refine .bind uservec_table ?_
  rintro _ t₁ ⟨hp₁, hn₁⟩
  suffices h : Wp _ AnyError (fun _ t' => R t₁ t') t₁ from
    h.mono fun _ _ h' => Gentle.trans (of_same hn₁ hp₁) h'
  cases cause with
  | syscall c =>
    dsimp only
    rw [PbsCow.exitIfKilled, wp_bind, wp_get]
    refine .ite (fun _ => Moves.bind (.exit p _) (fun _ => .pure _) t₁) fun hkilled => ?_
    rw [hp₁] at hkilled
    rw [wp_bind, wp_get]
    refine .bind Tidy.onMem ?_
    rintro _ t₂ ⟨hp₂, hn₂⟩
    have hsame : R t₁ t₂ := of_same hn₂ hp₂
    refine .bind (hsys c rfl (by simpa using hkilled) t₂ (hp₂.trans hp₁) (hn₂.trans hn₁)) fun r t₃ h₃ => ?_
    have h₃ : R t₁ t₃ := Gentle.trans hsame h₃
    refine .ite (fun _ => wp_pure.2 h₃) fun _ => ?_
    refine (Moves.bind (R := R) (.setReturn p r) (fun _ => .exitIfKilled (.pure _)) t₃).mono ?_
    exact fun _ _ h' => Gentle.trans h₃ h'
  | storeFault addr =>
    refine .bind (storePageFault (hset trivial) (by rwa [hp₁])) fun _ t₂ h₂ => ?_
    exact (Moves.exitIfKilled (R := R) (.pure _) t₂).mono fun _ _ h' => Gentle.trans h₂ h'
  | timer =>
    refine Moves.exitIfKilled ?_ t₁
    exact .bind (.setProc fun _ => ⟨⟨rfl, rfl, by simp⟩, rfl, rfl⟩) fun _ => .pure _
  | unexpected =>
    refine .bind (setkilled (hset trivial) (by rwa [hp₁])) fun _ t₂ h₂ => ?_
    exact (Moves.exitIfKilled (R := R) (.pure _) t₂).mono fun _ _ h' => Gentle.trans h₂.1 h'

theorem whenState {k : Ker Out} {t : Sys} (hk : (t.proc p).state = st →
    Wp k AnyError (fun _ t' => R t t') t) :
    Wp (whenState p st k) AnyError (fun _ t' => R t t') t := by
  rw [PbsCow.whenState, wp_bind, wp_get]
  exact .ite hk fun _ => wp_pure.2 (refl t)

theorem store {t : Sys} (hp : (t.proc p).state ≠ .UNUSED)
    (hset : ∀ t : Sys, (t.proc p).state ≠ .UNUSED →
      R t (t.setProc p fun q => { q with killed := true })) :
    Wp (store L p regs va b) AnyError (fun _ t' => R t t') t := by
  rw [PbsCow.store]
  refine .bind tryStore_table ?_
  rintro r t₁ ⟨hp₁, hn₁⟩
  have h₁ : R t t₁ := of_same hn₁ hp₁
  rcases r with _ | ⟨⟩
  · refine .bind (usertrap (R := R) (p := p) (by rwa [hp₁])
      (fun _ => hset) (by simp)) ?_
    intro r t₂ h₂
    have hretry {k : Option Unit → Ker Out} (hsome : k (some ()) = pure .stored)
        (hnone : k none = pure .faulted) :
        Wp (tryStore p va b >>= k) AnyError (fun _ t' => R t t') t₂ := by
      refine .bind tryStore_table ?_
      rintro r t₃ ⟨hp₃, hn₃⟩
      have h₃ : R t t₃ := Gentle.trans (Gentle.trans h₁ h₂) (of_same hn₃ hp₃)
      rcases r with _ | ⟨⟩
      · rw [hnone]
        exact wp_pure.2 h₃
      · rw [hsome]
        exact wp_pure.2 h₃
    cases r <;> first | exact hretry rfl rfl | exact wp_pure.2 (Gentle.trans h₁ h₂)
  · exact wp_pure.2 h₁

end Gentle

/-- The process that an operation may mark. -/
def Op.Faults (p : Slot) : Op → Prop
  | .load p' _ _ => p' = p
  | .store p' _ _ _ => p' = p
  | .trap p' _ cause => p' = p ∧ cause.Faults
  | .dispatch _ => False

/-- One operation does nothing to the table that `R` does not allow, if marking the process and the
system call do not. -/
theorem Gentle.step {R : Sys → Sys → Prop} [Gentle R] {t : Sys}
    (hset : ∀ p, op.Faults p → ∀ t : Sys, (t.proc p).state ≠ .UNUSED →
      R t (t.setProc p fun q => { q with killed := true }))
    (hsys : ∀ p regs c, op = .trap p regs (.syscall c) → (t.proc p).state = .RUNNING →
      (t.proc p).killed = false → ∀ t₁ : Sys, t₁.proc = t.proc → t₁.nextpid = t.nextpid →
      Wp (syscall L p c) AnyError (fun _ t' => R t₁ t') t₁) :
    Wp (step L op) AnyError (fun _ t' => R t t') t := by
  cases op with
  | dispatch p =>
    refine Gentle.whenState fun _ => Moves.bind ?_ (fun _ => .pure _) t
    exact .setProc fun _ => ⟨⟨rfl, rfl, by simp⟩, rfl, rfl⟩
  | load p regs va =>
    refine Gentle.whenState fun hp => ?_
    rw [load, wp_bind, wp_get]
    cases t.mem.userLoad (t.proc p).pagetable va with
    | some b => exact wp_pure.2 (Gentle.refl t)
    | none =>
      refine .bind (Gentle.usertrap (R := R) (p := p) (by rw [hp]; simp)
        (fun _ => hset p rfl) (by simp)) ?_
      exact fun _ _ h => wp_pure.2 h
  | store p regs va b =>
    exact Gentle.whenState fun hp => Gentle.store (by rw [hp]; simp) (hset p rfl)
  | trap p regs cause =>
    refine Gentle.whenState fun hp => ?_
    refine .bind (Gentle.usertrap (R := R) (by rw [hp]; simp) (fun hc => hset p ⟨rfl, hc⟩) ?_)
      fun _ _ h => wp_pure.2 h
    rintro c rfl hk
    exact hsys p regs c rfl hp hk

/-- The same where taking a slot and setting a priority are allowed, and a `kill` is. -/
theorem Framed.step {R : Sys → Sys → Prop} [Framed R] {t : Sys}
    (hset : ∀ p, op.Faults p → ∀ t : Sys, (t.proc p).state ≠ .UNUSED →
      R t (t.setProc p fun q => { q with killed := true }))
    (hkill : ∀ p regs pid, op = .trap p regs (.syscall (.kill pid)) → (t.proc p).state = .RUNNING →
      (t.proc p).killed = false → ∀ t₁ : Sys, t₁.proc = t.proc →
      Wp (kill pid) AnyError (fun _ t' => R t₁ t') t₁) :
    Wp (step L op) AnyError (fun _ t' => R t t') t := by
  refine Gentle.step hset fun p regs c he hp hk t₁ ht₁ _ => ?_
  by_cases hc : ∃ pid, c = .kill pid
  · obtain ⟨pid, rfl⟩ := hc
    exact .bind (hkill p regs pid he hp hk t₁ ht₁) fun _ _ h => wp_pure.2 h
  · exact Moves.syscall L p c (fun pid hpid => hc ⟨pid, hpid⟩) t₁

instance Tidy.framed : Framed (Tidy K) where
  trans := .trans
  frame hn h := .of_sameMarks hn fun i => (h i).toSameMarks
  alloc h := (Taken.alloc h).tidy
  init := .setProc ⟨rfl, rfl, fun h => h⟩
  free := .of_cleaned (le_refl _) (fun _ hj => Sys.setProc_of_ne _ hj) (by rw [Sys.setProc_self])
    (by rw [Sys.setProc_self])
  setPriority _ _ := .setProc ⟨rfl, rfl, fun h => h⟩

end PbsCow
