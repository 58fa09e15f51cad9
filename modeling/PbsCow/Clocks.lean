import PbsCow.CleanSlots
import PbsCow.DynamicPriority

namespace PbsCow
set_option autoImplicit true

/-- What happens to what `_rbi` reads: a process keeps it, and a new process starts with no ticks and
the flag set. -/
structure Renews (t t' : Sys) : Prop where
  next : t.nextpid ≤ t'.nextpid
  slot : ∀ i, (t'.proc i).pid = 0 ∨
    (t'.proc i).pid = (t.proc i).pid ∧ (t'.proc i).clock = (t.proc i).clock ∨
    t.nextpid ≤ (t'.proc i).pid ∧ (t'.proc i).pid < t'.nextpid ∧ (t'.proc i).clock = (0, 0, 0, 25)

theorem Renews.trans {t t' t'' : Sys} (h : Renews t t') (h' : Renews t' t'') : Renews t t'' := by
  refine ⟨h.next.trans h'.next, fun i => ?_⟩
  rcases h'.slot i with h0 | ⟨hp, hc⟩ | ⟨hn, hlt, hc⟩
  · exact .inl h0
  · rw [hp, hc]
    rcases h.slot i with h0 | hs | ⟨hn, hlt, hc⟩
    · exact .inl h0
    · exact .inr (.inl hs)
    · exact .inr (.inr ⟨hn, hlt.trans_le h'.next, hc⟩)
  · exact .inr (.inr ⟨h.next.trans hn, hlt, hc⟩)

theorem Renews.of_slots {t t' : Sys} (hn : t.nextpid ≤ t'.nextpid)
    (h : ∀ i, (t'.proc i).pid = (t.proc i).pid ∧ (t'.proc i).clock = (t.proc i).clock) : Renews t t' :=
  ⟨hn, fun i => .inr (.inl (h i))⟩

theorem Renews.setProc {t : Sys} {p : Slot} {f : Proc → Proc}
    (hf : (f (t.proc p)).pid = 0 ∨
      (f (t.proc p)).pid = (t.proc p).pid ∧ (f (t.proc p)).clock = (t.proc p).clock) :
    Renews t (t.setProc p f) := by
  refine ⟨le_refl _, fun i => ?_⟩
  by_cases hi : i = p
  · rw [hi, t.setProc_self]
    rcases hf with h0 | h
    · exact .inl h0
    · exact .inr (.inl h)
  · rw [t.setProc_of_ne hi]
    exact .inr (.inl ⟨rfl, rfl⟩)

instance Renews.gentle : Gentle Renews where
  trans := .trans
  frame hn h := .of_slots hn.ge fun i => ⟨(h i).pid, (h i).clock⟩
  free := .setProc (.inl rfl)

theorem Proc.Newborn.clock (h : Proc.Newborn q) : q.clock = (0, 0, 0, 25) := by
  rw [Proc.clock, h.my_rtime, h.my_stime, h.my_wtime, h.rbi]

theorem ForkClean.renews {t t' : Sys} (h : ForkClean t r t') : Renews t t' := by
  cases r with
  | none =>
    refine ⟨Cleaned.next h, fun i => ?_⟩
    rcases Cleaned.slot h i with he | ⟨h0, _⟩
    · exact .inr (.inl (by rw [he]; exact ⟨rfl, rfl⟩))
    · exact .inl h0
  | some p =>
    obtain ⟨htaken, hnew⟩ := h
    have hn := htaken.next
    refine ⟨by omega, fun i => ?_⟩
    by_cases hi : i = p
    · rw [hi]
      exact .inr (.inr ⟨htaken.pid.ge, by rw [htaken.pid]; omega, hnew.clock⟩)
    · rw [htaken.other i hi]
      exact .inr (.inl ⟨rfl, rfl⟩)

theorem killScan_renews {t : Sys} (pid : Int) (l : List Slot) :
    Wp (killScan pid l) AnyError (fun _ t' => Renews t t') t := by
  induction l with
  | nil => exact wp_pure.2 (Gentle.refl t)
  | cons p l ih =>
    rw [killScan, wp_bind, wp_get]
    refine .ite (fun _ => wp_bind.2 (wp_setProc.2 (wp_pure.2 ?_))) fun _ => ih
    exact .setProc (.inr ⟨rfl, rfl⟩)

/-- The operation is a successful `set_priority` for `pid`. -/
def Op.SetsPriority (t : Sys) (op : Op) (pid : Int) : Prop :=
  ∃ p regs n, op = .trap p regs (.syscall (.setPriority pid n)) ∧ 0 ≤ n ∧ n ≤ 100 ∧
    (t.proc p).state = .RUNNING ∧ (t.proc p).killed = false

/-- An operation that sets no priority. -/
theorem step_renews {t : Sys} (h : ∀ pid, ¬ op.SetsPriority t pid) :
    Wp (step L op) AnyError (fun _ t' => Renews t t') t := by
  refine Gentle.step (fun _ _ _ _ => .setProc (.inr ⟨rfl, rfl⟩)) fun p regs c he hp hk t₁ ht₁ _ => ?_
  cases c with
  | kill pid => exact .bind (killScan_renews pid _) fun _ _ h => wp_pure.2 h
  | fork =>
    refine .bind fork_clean fun r t' h => ?_
    cases r with
    | none => exact wp_pure.2 h.renews
    | some np => exact wp_pure.2 h.renews
  | setPriority pid n =>
    have hn : n < 0 ∨ n > 100 := by
      by_contra hn
      exact h pid ⟨p, regs, n, he, by omega, by omega, hp, hk⟩
    have hfail : sysSetPriority pid n = pure (-1, false) := by
      rw [sysSetPriority]
      exact if_pos hn
    rw [syscall, hfail]
    exact wp_pure.2 (Gentle.refl t₁)
  | _ => exact Moves.gentle L p _ (by simp) (by simp) (by simp) t₁

/-- A process after a `set_priority` for `pid`. -/
structure Proc.Reset (x : Int) (q q' : Proc) : Prop where
  pid : q'.pid = q.pid
  rtime : q'.my_rtime = q.my_rtime
  stime : q'.my_stime = q.my_stime
  wtime : q'.my_wtime = q.my_wtime
  rbi : q'.rbi = if q.pid = x then 25 else q.rbi
  killed : q'.killed = q.killed

theorem Proc.Reset.clock (h : Proc.Reset x q q') : q'.clock =
    (q.my_rtime, q.my_stime, q.my_wtime, if q.pid = x then 25 else q.rbi) := by
  rw [Proc.clock, h.rtime, h.stime, h.wtime, h.rbi]

theorem setPriorityScan_spec {t : Sys} (pid n : Int) (l : List Slot) (old : Int) (b : Bool) :
    Wp (setPriorityScan pid n l old b) AnyError (fun _ t' => ∀ i, t'.proc i =
      if i ∈ l ∧ (t.proc i).pid = pid then { t.proc i with rbi := 25, static_pri := BitVec.ofInt 32 n }
      else t.proc i) t := by
  induction l generalizing t old b with
  | nil => exact wp_pure.2 fun i => by simp
  | cons p l ih =>
    rw [setPriorityScan, wp_bind, wp_get]
    refine .ite (fun hp => ?_) fun hp => (ih _ _).mono fun _ t' h i => ?_
    · rw [wp_bind, wp_setProc]
      refine (ih _ _).mono fun _ t' h i => ?_
      rw [h i]
      by_cases hi : i = p
      · rw [hi, t.setProc_self]
        simp [hp]
      · rw [t.setProc_of_ne hi]
        simp [hi]
    · rw [h i]
      by_cases hi : i = p
      · rw [hi]
        simp [hp]
      · simp [hi]

theorem sysSetPriority_spec {t : Sys} (pid : Int) (h0 : 0 ≤ n) (h100 : n ≤ 100) :
    Wp (sysSetPriority pid n) AnyError (fun _ t' => ∀ i, (t.proc i).Reset pid (t'.proc i)) t := by
  rw [sysSetPriority]
  refine .ite_neg (by omega) ((setPriorityScan_spec pid n _ _ _).mono fun _ t' h i => ?_)
  rw [h i]
  by_cases hp : (t.proc i).pid = pid
  · rw [if_pos ⟨List.mem_finRange i, hp⟩]
    exact ⟨rfl, rfl, rfl, rfl, (if_pos hp).symm, rfl⟩
  · rw [if_neg fun hc => hp hc.2]
    exact ⟨rfl, rfl, rfl, rfl, (if_neg hp).symm, rfl⟩

theorem setReturn_table {t : Sys} : Wp (setReturn p r) AnyError (fun _ t' => t'.proc = t.proc) t := by
  rw [setReturn, wp_bind, wp_get]
  cases r.ret t with
  | none => exact wp_pure.2 rfl
  | some n => exact Tidy.onMem.mono fun _ _ h => h.1

/-- A successful `set_priority`. -/
theorem step_resets {t : Sys} (h : op.SetsPriority t pid) :
    Wp (step L op) AnyError (fun _ t' => ∀ i, (t.proc i).Reset pid (t'.proc i)) t := by
  obtain ⟨p, regs, n, rfl, h0, h100, hp, hk⟩ := h
  rw [step, whenState, wp_bind, wp_get]
  refine .ite_pos hp (.bind (P := fun _ t' => ∀ i, (t.proc i).Reset pid (t'.proc i)) ?_ fun _ _ h =>
    wp_pure.2 h)
  rw [usertrap.eq_def]
  refine .bind uservec_table ?_
  rintro _ t₁ ⟨ht₁, _⟩
  dsimp only
  rw [exitIfKilled, wp_bind, wp_get]
  refine .ite_neg (by rw [ht₁, hk]; simp) ?_
  rw [wp_bind, wp_get]
  refine .bind Tidy.onMem ?_
  rintro _ t₂ ⟨ht₂, _⟩
  have hsame : t₂.proc = t.proc := ht₂.trans ht₁
  rw [syscall, wp_bind, wp_bind]
  refine (sysSetPriority_spec pid h0 h100).mono fun r t₃ h₃ => ?_
  rw [hsame] at h₃
  refine .ite (fun _ => ?_) fun _ => ?_
  · refine .bind setReturn_table fun _ t₄ ht₄ => ?_
    rw [wp_bind, wp_setProc]
    refine wp_pure.2 (.ite_pos rfl (wp_pure.2 fun i => ?_))
    by_cases hi : i = p
    · subst hi
      rw [Sys.setProc_self, ht₄]
      exact ⟨(h₃ i).pid, (h₃ i).rtime, (h₃ i).stime, (h₃ i).wtime, (h₃ i).rbi, (h₃ i).killed⟩
    · rw [Sys.setProc_of_ne _ hi, ht₄]
      exact h₃ i
  · refine wp_pure.2 (.ite_neg (by simp) (.bind setReturn_table fun _ t₄ ht₄ => ?_))
    rw [exitIfKilled, wp_bind, wp_get]
    refine .ite_neg (by rw [ht₄, (h₃ p).killed, hk]; simp) (wp_pure.2 fun i => ?_)
    rw [ht₄]
    exact h₃ i

theorem Op.SetsPriority.unique {t : Sys} (h : Op.SetsPriority t op x) (h' : Op.SetsPriority t op y) :
    x = y := by
  obtain ⟨_, _, _, rfl, _⟩ := h
  obtain ⟨_, _, _, he, _⟩ := h'
  injection he with _ _ he
  injection he with he
  injection he

theorem Op.IsFork.eq (h : Op.IsFork op) : ∃ p regs, op = .trap p regs (.syscall .fork) := by
  cases op with
  | trap p regs cause =>
    cases cause with
    | syscall c =>
      cases c with
      | fork => exact ⟨p, regs, rfl⟩
      | _ => exact h.elim
    | _ => exact h.elim
  | _ => exact h.elim

instance : Framed fun t t' : Sys => t.nextpid ≤ t'.nextpid where
  trans := le_trans
  frame hn _ := hn.ge
  free := le_refl _
  alloc _ := by
    show _ ≤ _ + 1
    omega
  init := le_refl _
  setPriority _ _ := le_refl _

theorem step_next {t : Sys} : Wp (step L op) AnyError (fun _ t' => t.nextpid ≤ t'.nextpid) t := by
  refine Framed.step (R := fun t t' : Sys => t.nextpid ≤ t'.nextpid) (fun _ _ _ _ => le_refl _)
    fun _ _ pid _ _ _ t₁ _ => ?_
  exact (killScan_renews pid _).mono fun _ _ h => h.next

/-- Every process has a pid, and no pid is one that `allocpid` has not given. -/
structure Pids (t : Sys) : Prop where
  next : 0 < t.nextpid
  lt : ∀ i, (t.proc i).pid < t.nextpid
  ne : ∀ i, (t.proc i).state ≠ .UNUSED → (t.proc i).pid ≠ 0

/-- What `_rbi` reads of the process in a slot: it is a new one, or it was there and has `clock`. -/
def Passed (t t' : Sys) (i : Slot) (clock : BitVec 32 × BitVec 32 × BitVec 32 × BitVec 32) : Prop :=
  (t'.proc i).pid ≠ (t.proc i).pid ∧ (t'.proc i).clock = (0, 0, 0, 25) ∨
  (t'.proc i).pid = (t.proc i).pid ∧ (t.proc i).state ≠ .UNUSED ∧ (t'.proc i).clock = clock

theorem Quiet.pids {t t' : Sys} (h : Quiet t t') (hn : t'.nextpid = t.nextpid) (hp : Pids t) : Pids t' := by
  refine ⟨by rw [hn]; exact hp.next, fun i => ?_, fun i hi => ?_⟩
  · rw [h.pid i, hn]
    exact hp.lt i
  · rw [h.pid i]
    exact hp.ne i fun hu => hi ((h.unused i).2 hu)

/-- An operation that is no `set_priority`. -/
theorem StepPost.passed {t t' : Sys} (h : StepPost L op t out t') (hp : Pids t) (hr : Renews t t')
    (hf : op.IsFork → ∀ np, out = .reply (.child np) → Taken np t t') :
    Pids t' ∧ ∀ i, (t'.proc i).state ≠ .UNUSED → Passed t t' i (t.proc i).clock := by
  have hchild (i : Slot) (hi : (t'.proc i).state ≠ .UNUSED) :
      t.nextpid ≤ (t'.proc i).pid ∨
        (t.proc i).state ≠ .UNUSED ∧ (t'.proc i).pid = (t.proc i).pid := by
    by_cases hc : op.IsFork ∧ out = .reply (.child i)
    · exact .inl (hf hc.1 i hc.2).pid.ge
    · exact .inr (h.kept i hc hi)
  have hne (i : Slot) (hi : (t'.proc i).state ≠ .UNUSED) : (t'.proc i).pid ≠ 0 := by
    have hnext := hp.next
    rcases hchild i hi with hn | ⟨hu, he⟩
    · omega
    · rw [he]
      exact hp.ne i hu
  refine ⟨⟨lt_of_lt_of_le hp.next hr.next, fun i => ?_, hne⟩, fun i hi => ?_⟩
  · have hlt := hp.lt i
    have hnext := hp.next
    have hle := hr.next
    rcases hr.slot i with h0 | ⟨he, _⟩ | ⟨_, hn, _⟩
    · omega
    · omega
    · exact hn
  · have hlt := hp.lt i
    rcases hr.slot i with h0 | ⟨he, hc⟩ | ⟨hn, _, hc⟩
    · exact (hne i hi h0).elim
    · rcases hchild i hi with hn | ⟨hu, _⟩
      · omega
      · exact .inr ⟨he, hu, hc⟩
    · exact .inl ⟨by omega, hc⟩

/-- What an operation makes of what `_rbi` reads. -/
def Op.Resets (op : Op) (t : Sys) (i : Slot) : Prop := op.SetsPriority t (t.proc i).pid

theorem step_passed {t : Sys} (h : Inv L t) (hp : Pids t) :
    Wp (step L op) AnyError (fun _ t' => Inv L t' ∧ Pids t' ∧ ∀ i, (t'.proc i).state ≠ .UNUSED →
      (¬ op.Resets t i → Passed t t' i (t.proc i).clock) ∧
      (op.Resets t i → Passed t t' i
        ((t.proc i).my_rtime, (t.proc i).my_stime, (t.proc i).my_wtime, 25))) t := by
  have hpost : Wp (step L op) AnyError (StepPost L op t) t := (h.step op).weaken fun _ _ => trivial
  by_cases hset : ∃ pid, op.SetsPriority t pid
  · obtain ⟨pid, hset⟩ := hset
    have hnext : Wp (step L op) AnyError (fun _ t' => t.nextpid ≤ t'.nextpid) t := step_next
    have hall := hpost.and ((step_resets (L := L) hset).and hnext)
    refine hall.mono ?_
    rintro out t' ⟨hs, hr, hn⟩
    have hnf (j : Slot) : ¬ (op.IsFork ∧ out = .reply (.child j)) := by
      obtain ⟨_, _, _, rfl, _⟩ := hset
      exact fun hf => hf.1
    refine ⟨hs.inv, ⟨lt_of_lt_of_le hp.next hn, fun i => ?_, fun i hi => ?_⟩, fun i hi => ?_⟩
    · rw [(hr i).pid]
      exact lt_of_lt_of_le (hp.lt i) hn
    · rw [(hr i).pid]
      exact hp.ne i (hs.kept i (hnf i) hi).1
    · have hu := (hs.kept i (hnf i) hi).1
      have hc := (hr i).clock
      refine ⟨fun hno => .inr ⟨(hr i).pid, hu, ?_⟩, fun hyes => .inr ⟨(hr i).pid, hu, ?_⟩⟩
      · rw [hc, if_neg]
        · rfl
        · rintro rfl
          exact hno hset
      · rw [hc, if_pos (hyes.unique hset)]
  · have hno (pid : Int) : ¬ op.SetsPriority t pid := fun hp => hset ⟨pid, hp⟩
    have hfork : Wp (step L op) AnyError (fun out t' => op.IsFork → ∀ np, out = .reply (.child np) →
        Taken np t t') t := by
      by_cases hf : op.IsFork
      · obtain ⟨p, regs, rfl⟩ := hf.eq
        exact fork_child.mono fun _ _ hc _ => hc
      · exact .of_forall fun _ _ hf' => (hf hf').elim
    refine (hpost.and ((step_renews hno).and hfork)).mono ?_
    rintro out t' ⟨hs, hr, hf⟩
    obtain ⟨hp', hpass⟩ := hs.passed hp hr hf
    exact ⟨hs.inv, hp', fun i hi => ⟨fun _ => hpass i hi, fun hyes => (hno _ hyes).elim⟩⟩

end PbsCow
