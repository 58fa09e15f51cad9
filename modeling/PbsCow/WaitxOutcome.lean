import PbsCow.BootTable
import PbsCow.UserBytes

namespace PbsCow
set_option autoImplicit true

/-- No pid is negative. -/
structure Numbered (t : Sys) : Prop where
  next : 0 < t.nextpid
  pid : ∀ i, 0 ≤ (t.proc i).pid

def KeepsNumbers (t t' : Sys) : Prop := Numbered t → Numbered t'

theorem KeepsNumbers.of_same {t t' : Sys} (hn : t'.nextpid = t.nextpid)
    (h : ∀ i, (t'.proc i).pid = (t.proc i).pid) : KeepsNumbers t t' := by
  intro ht
  refine ⟨by rw [hn]; exact ht.next, fun i => ?_⟩
  rw [h i]
  exact ht.pid i

theorem KeepsNumbers.setProc {t : Sys} {p : Slot} {f : Proc → Proc}
    (hf : (f (t.proc p)).pid = (t.proc p).pid) : KeepsNumbers t (t.setProc p f) := by
  refine of_same rfl fun i => ?_
  by_cases hi : i = p
  · rw [hi, t.setProc_self]
    exact hf
  · rw [t.setProc_of_ne hi]

/-- A slot may get a pid that is not negative. -/
theorem Numbered.setPid {t : Sys} {p : Slot} {f : Proc → Proc} (h : Numbered t) (hn : t.nextpid ≤ n)
    (hf : 0 ≤ (f (t.proc p)).pid) : Numbered (({ t with nextpid := n } : Sys).setProc p f) := by
  have hnext := h.next
  refine ⟨?_, fun i => ?_⟩
  · show 0 < n
    omega
  · by_cases hi : i = p
    · rw [hi, Sys.setProc_self]
      exact hf
    · rw [Sys.setProc_of_ne _ hi]
      exact h.pid i

instance KeepsNumbers.framed : Framed KeepsNumbers where
  trans h h' ht := h' (h ht)
  frame hn h := .of_same hn fun i => (h i).pid
  free h := h.setPid (le_refl _) (le_refl _)
  alloc _ h := h.setPid (Int.le_add_one (le_refl _)) (le_of_lt h.next)
  init := .setProc rfl
  setPriority _ _ := .setProc rfl

theorem killScan_keepsNumbers {t : Sys} (pid : Int) (l : List Slot) :
    Wp (killScan pid l) AnyError (fun _ t' => KeepsNumbers t t') t := by
  induction l with
  | nil => exact wp_pure.2 id
  | cons p l ih =>
    rw [killScan, wp_bind, wp_get]
    exact .ite (fun _ => wp_bind.2 (wp_setProc.2 (wp_pure.2 (.setProc rfl)))) fun _ => ih

theorem Reachable.numbered {t : Sys} (h : Reachable L t) : Numbered t := by
  obtain ⟨ram, ops, outs, h⟩ := h
  have hboot : Wp (PbsCow.boot L) AnyError (fun _ t => Numbered t) (Sys.start ram) := by
    refine (boot_table L ram).mono fun _ t ht => ⟨ht.marked.next, fun i => ?_⟩
    by_cases hu : (t.proc i).state = .UNUSED
    · rw [ht.marked.pid i hu]
    · rw [ht.pid i hu]
      decide
  have hstep (op : Op) (t : Sys) (ht : Numbered t) : Wp (step L op) AnyError (fun _ t' => Numbered t') t :=
    (Framed.step (R := KeepsNumbers) (fun _ _ _ _ => .setProc rfl)
      fun _ _ pid _ _ _ _ _ => killScan_keepsNumbers pid _).mono fun _ _ hk => hk ht
  have hrun : Wp (do PbsCow.boot L; PbsCow.run L ops) AnyError (fun _ t => Numbered t) (Sys.start ram) := by
    refine .bind hboot fun _ t ht => ?_
    rw [run_eq]
    exact .runWith ht (fun op t ht => hstep op t ht) ops
  exact hrun.of_eq_ok h

/-- `q` is a child that `p` may reap. -/
def Sys.DeadChild (t : Sys) (p q : Slot) : Prop := (t.proc q).parent = some p ∧ (t.proc q).state = .ZOMBIE

instance : Decidable (Sys.DeadChild t p q) := inferInstanceAs (Decidable (_ ∧ _))

/-- The child that `waitx` finds. -/
def Sys.deadChild (t : Sys) (p : Slot) : Option Slot :=
  (List.finRange NPROC).find? fun q => decide (t.DeadChild p q)

def Sys.HasChild (t : Sys) (p : Slot) : Prop := ∃ q, (t.proc q).parent = some p

def Proc.wtime (q : Proc) : BitVec 32 := q.etime - q.ctime - q.rtime

/-- The status of the child can be copied to `addr`. -/
def Room.StatusFits (R : Room) (addr : Nat) : Prop := addr = 0 ∨ (R.copyout addr 4).1 = 4

/-- What a scan that has found child `q` ends with. -/
def ReapPost (L : Layout) (t : Sys) (p q : Slot) (addr : Nat) (R : Room)
    (out : (Int ⊕ Bool) × BitVec 32 × BitVec 32) (t' : Sys) : Prop :=
  out.2 = ((t.proc q).wtime, (t.proc q).rtime) ∧
    (R.StatusFits addr ∧ out.1 = .inl (t.proc q).pid ∧ Reaped L t p q R t' ∨
      ¬ R.StatusFits addr ∧ out.1 = .inl (-1) ∧
        CopyoutDone L t p addr (intBytes (t.proc q).xstate) (R.copyout addr 4) (-1) t')

theorem Reaped.of_copyout {t t₁ t' : Sys} (hp : t₁.proc = t.proc)
    (h : Reaped L t₁ p q (R.copyout dstva len).2 t') : Reaped L t p q R t' := by
  obtain ⟨R', hR', hfree, hsame⟩ := h.room
  refine ⟨h.inv, fun j hj => (h.others j hj).trans (by rw [hp]), h.unused, R', hR', hfree, fun w => ?_⟩
  obtain ⟨hu, hm⟩ := Room.copyoutLoop_user len R dstva len w
  exact ⟨(hsame w).1.trans hu, (hsame w).2.trans hm⟩

theorem Inv.waitxScan_dead {t : Sys} {p q : Slot} (h : Inv L t) (hp : (t.proc p).state = .RUNNING)
    (hR : t.HasRoom p R) (hq : l.find? (fun q => decide (t.DeadChild p q)) = some q) :
    Wp (waitxScan L p addr wtime rtime l havekids) NoError (ReapPost L t p q addr R) t := by
  have hp0 : (t.proc p).state ≠ .UNUSED := by rw [hp]; simp
  induction l generalizing havekids with
  | nil => cases hq
  | cons i l ih =>
    rw [List.find?_cons] at hq
    rw [waitxScan, wp_bind, wp_get]
    by_cases hi : t.DeadChild p i
    · rw [decide_eq_true hi] at hq
      obtain rfl : i = q := by injection hq
      have hne : p ≠ i := by
        rintro rfl
        rw [hi.2] at hp
        cases hp
      have hi0 : (t.proc i).state ≠ .UNUSED := by rw [hi.2]; simp
      refine .ite_pos hi.1 (.ite_pos hi.2 ?_)
      rw [wp_bind, wp_get]
      refine .ite (fun ha => ?_) fun ha => ?_
      · refine .bind (h.copyout_stores hp0 hR) ?_
        rintro ret t₁ hdone
        refine .ite (fun hneg => wp_pure.2 ⟨rfl, .inr ?_⟩) fun hneg => ?_
        · rcases hdone.ret with ⟨rfl, _⟩ | ⟨rfl, hlt⟩
          · exact absurd hneg (by decide)
          · refine ⟨?_, rfl, hdone⟩
            rintro (h0 | h4)
            · exact ha h0
            · exact absurd h4 (Nat.ne_of_lt hlt)
        · obtain ⟨_, hfour⟩ : ret = 0 ∧ (R.copyout addr 4).1 = 4 := by
            rcases hdone.ret with hd | ⟨rfl, _⟩
            · exact hd
            · exact absurd (by decide) hneg
          have hproc := hdone.proc
          have hreap : Wp (freeproc L i) NoError (fun _ t' => Reaped L t₁ p i _ t') t₁ :=
            hdone.inv.reap_room (by rwa [hproc]) (by rwa [hproc]) hne hdone.room
          refine .bind hreap ?_
          rintro _ t₂ ht₂
          exact wp_pure.2 ⟨rfl, .inl ⟨.inr hfour, rfl, ht₂.of_copyout hproc⟩⟩
      · rw [ne_eq, not_not] at ha
        refine .bind (h.reap_room hp0 hi0 hne hR) ?_
        rintro _ t₂ ht₂
        exact wp_pure.2 ⟨rfl, .inl ⟨.inl ha, rfl, ht₂⟩⟩
    · rw [decide_eq_false hi] at hq
      refine .ite (fun hpar => .ite_neg (fun hz => hi ⟨hpar, hz⟩) (ih hq)) fun _ => ih hq

/-- A scan that finds no child to reap. -/
theorem waitxScan_none {t : Sys} (hl : ∀ q ∈ l, ¬ t.DeadChild p q) :
    waitxScan L p addr wtime rtime l havekids t =
      .ok ((.inr (havekids || l.any fun q => decide ((t.proc q).parent = some p)), wtime, rtime), t) := by
  induction l generalizing havekids with
  | nil =>
    rw [List.any_nil, Bool.or_false]
    rfl
  | cons q l ih =>
    have hq := hl q List.mem_cons_self
    have hrest (havekids : Bool) : waitxScan L p addr wtime rtime l havekids t = _ :=
      ih fun i hi => hl i (List.mem_cons_of_mem q hi)
    have hscan : Wp (waitxScan L p addr wtime rtime (q :: l) havekids) NoError (fun out t' =>
        out = (.inr (havekids || (q :: l).any fun q => decide ((t.proc q).parent = some p)), wtime, rtime) ∧
          t' = t) t := by
      rw [waitxScan, wp_bind, wp_get]
      refine .ite (fun hpar => .ite_neg (fun hz => hq ⟨hpar, hz⟩) (.of_ok (hrest true) ⟨?_, rfl⟩))
        fun hpar => .of_ok (hrest havekids) ⟨?_, rfl⟩
      · rw [List.any_cons, decide_eq_true hpar, Bool.true_or, Bool.or_true]
      · rw [List.any_cons, decide_eq_false hpar, Bool.false_or]
    obtain ⟨out, t', he, rfl, rfl⟩ := hscan.exists_ok
    exact he

/-- How many bytes of the two times are stored. -/
def Room.times (R : Room) (addr1 addr2 : Nat) : Nat × Nat :=
  ((R.copyout addr1 4).1,
    if (R.copyout addr1 4).1 = 4 then ((R.copyout addr1 4).2.copyout addr2 4).1 else 0)

/-- Byte `a` after so many bytes of the two times have been stored. -/
def timesOverlay (n : Nat × Nat) (addr1 addr2 : Nat) (wtime rtime : BitVec 32) (a : Nat) (b : Byte) : Byte :=
  overlay addr2 ((intBytes rtime).take n.2) a (overlay addr1 ((intBytes wtime).take n.1) a b)

/-- The end of a call that is to return `ret`. -/
structure TimesDone (t : Sys) (p : Slot) (R : Room) (addr1 addr2 : Nat) (wtime rtime : BitVec 32)
    (ret : Int) (out : Option Int) (t' : Sys) : Prop where
  proc : t'.proc = t.proc
  out : out = some (if R.times addr1 addr2 = (4, 4) then ret else -1)
  bytes : ∀ a, t'.userByte p a =
    (t.userByte p a).map (timesOverlay (R.times addr1 addr2) addr1 addr2 wtime rtime a)

theorem Inv.copyTimes {t : Sys} {p : Slot} (h : Inv L t) (hp : (t.proc p).state ≠ .UNUSED)
    (hR : t.HasRoom p R) :
    Wp (do
      let pagetable := ((← get : Sys).proc p).pagetable
      if (← onMem (PbsCow.copyout L pagetable addr1 (intBytes wtime))) < 0 then return some (-1)
      if (← onMem (PbsCow.copyout L pagetable addr2 (intBytes rtime))) < 0 then return some (-1)
      return some ret) NoError (TimesDone t p R addr1 addr2 wtime rtime ret) t := by
  rw [wp_bind, wp_get]
  refine .bind (h.copyout_stores hp hR) ?_
  rintro ret₁ t₁ h₁
  have hpt : (t₁.proc p).pagetable = (t.proc p).pagetable := by rw [h₁.proc]
  rcases h₁.ret with ⟨rfl, hfour⟩ | ⟨rfl, hlt⟩
  · have hfour : (R.copyout addr1 4).1 = 4 := hfour
    have htimes : R.times addr1 addr2 =
        ((R.copyout addr1 4).1, ((R.copyout addr1 4).2.copyout addr2 4).1) := by
      rw [Room.times, if_pos hfour]
    have hnext : Wp (onMem (PbsCow.copyout L (t₁.proc p).pagetable addr2 (intBytes rtime))) NoError
        (CopyoutDone L t₁ p addr2 (intBytes rtime) _) t₁ :=
      h₁.inv.copyout_stores (by rwa [h₁.proc]) h₁.room
    rw [hpt] at hnext
    refine .ite_neg (by decide) (.bind hnext ?_)
    rintro ret₂ t₂ h₂
    have hbytes (a : Nat) : t₂.userByte p a =
        (t.userByte p a).map (timesOverlay (R.times addr1 addr2) addr1 addr2 wtime rtime a) := by
      rw [h₂.bytes, h₁.bytes, Option.map_map, htimes]
      refine congrArg (Option.map · _) ?_
      funext b
      rfl
    rcases h₂.ret with ⟨rfl, hfour₂⟩ | ⟨rfl, hlt₂⟩
    · have hall : R.times addr1 addr2 = (4, 4) := by
        rw [htimes, hfour]
        exact congrArg _ hfour₂
      exact .ite_neg (by decide) (wp_pure.2 ⟨h₂.proc.trans h₁.proc, by rw [if_pos hall], hbytes⟩)
    · have hnot : R.times addr1 addr2 ≠ (4, 4) := by
        rw [htimes]
        intro he
        exact absurd (Prod.mk.inj he).2 (Nat.ne_of_lt hlt₂)
      exact .ite_pos (by decide) (wp_pure.2 ⟨h₂.proc.trans h₁.proc, by rw [if_neg hnot], hbytes⟩)
  · have hlt : (R.copyout addr1 4).1 < 4 := hlt
    have htimes : R.times addr1 addr2 = ((R.copyout addr1 4).1, 0) := by
      rw [Room.times, if_neg (Nat.ne_of_lt hlt)]
    have hnot : R.times addr1 addr2 ≠ (4, 4) := by
      rw [htimes]
      intro he
      cases (Prod.mk.inj he).2
    refine .ite_pos (by decide) (wp_pure.2 ⟨h₁.proc, by rw [if_neg hnot], fun a => ?_⟩)
    rw [h₁.bytes, htimes]
    refine congrArg (Option.map · _) ?_
    funext b
    rw [timesOverlay, List.take_zero, overlay_nil]
    rfl

theorem Sys.deadChild_some {t : Sys} (h : t.deadChild p = some q) : t.DeadChild p q := by
  have hq := List.find?_some h
  rwa [decide_eq_true_iff] at hq

theorem Sys.deadChild_congr {t t' : Sys} (h : t'.proc = t.proc) (p : Slot) :
    t'.deadChild p = t.deadChild p := by
  refine congrArg (List.find? · _) ?_
  funext q
  exact decide_eq_decide.2 (by rw [Sys.DeadChild, Sys.DeadChild, h])

theorem Sys.deadChild_none {t : Sys} (h : t.deadChild p = none) (q : Slot) : ¬ t.DeadChild p q := by
  have hq := List.find?_eq_none.1 h q (List.mem_finRange q)
  rwa [decide_eq_true_iff] at hq

/-- With children, and none of them dead, the process goes to sleep. -/
theorem sysWaitx_sleeps {t : Sys} (hd : t.deadChild p = none) (hc : t.HasChild p)
    (hk : (t.proc p).killed = false) (wtime rtime : BitVec 32) :
    Wp (sysWaitx L p addr addr1 addr2 wtime rtime) NoError (fun ret _ => ret = none) t := by
  have hany : (List.finRange NPROC).any (fun q => decide ((t.proc q).parent = some p)) = true := by
    obtain ⟨q, hq⟩ := hc
    exact List.any_eq_true.2 ⟨q, List.mem_finRange q, decide_eq_true hq⟩
  have hscan : waitxScan L p addr wtime rtime (List.finRange NPROC) false t = _ :=
    waitxScan_none fun q _ => t.deadChild_none hd q
  rw [hany] at hscan
  rw [sysWaitx, waitx, wp_bind, wp_bind]
  refine .of_ok hscan ?_
  dsimp only
  rw [wp_bind, wp_get]
  refine .ite_neg (by rw [hk]; simp) ?_
  rw [wp_bind, wp_setProc]
  exact wp_pure.2 (wp_pure.2 rfl)

/-- Without children the two variables are copied out as they are. -/
theorem Inv.sysWaitx_childless {t : Sys} {p : Slot} (h : Inv L t) (hp : (t.proc p).state = .RUNNING)
    (hR : t.HasRoom p R) (hd : t.deadChild p = none)
    (hno : ¬ (t.HasChild p ∧ (t.proc p).killed = false)) (wtime rtime : BitVec 32) :
    Wp (PbsCow.sysWaitx L p addr addr1 addr2 wtime rtime) NoError
      (TimesDone t p R addr1 addr2 wtime rtime (-1)) t := by
  have hscan : waitxScan L p addr wtime rtime (List.finRange NPROC) false t = _ :=
    waitxScan_none fun q _ => t.deadChild_none hd q
  rw [PbsCow.sysWaitx, PbsCow.waitx, wp_bind, wp_bind]
  refine .of_ok hscan ?_
  dsimp only
  rw [wp_bind, wp_get]
  refine .ite_pos ?_ (wp_pure.2 (h.copyTimes (by rw [hp]; simp) hR))
  rw [Bool.or_eq_true, Bool.not_eq_true']
  by_contra hc
  rw [not_or, Bool.not_eq_false, Bool.not_eq_true] at hc
  obtain ⟨q, _, hq⟩ := List.any_eq_true.1 hc.1
  exact hno ⟨⟨q, of_decide_eq_true hq⟩, hc.2⟩

/-- With a child to reap. -/
theorem Inv.sysWaitx_child {t : Sys} {p q : Slot} (h : Inv L t) (hp : (t.proc p).state = .RUNNING)
    (hR : t.HasRoom p R) (hd : t.deadChild p = some q) (wtime rtime : BitVec 32) :
    Wp (PbsCow.sysWaitx L p addr addr1 addr2 wtime rtime) NoError (fun ret t' => ∃ t₁,
      R.StatusFits addr ∧ Reaped L t p q R t₁ ∧ (∃ R₁, t₁.HasRoom p R₁ ∧ 4 ≤ R₁.free ∧
          (∀ w, (R₁.page w).user = (R.page w).user ∧ (R₁.page w).mapped = (R.page w).mapped) ∧
          TimesDone t₁ p R₁ addr1 addr2 (t.proc q).wtime (t.proc q).rtime (t.proc q).pid ret t') ∨
      ¬ R.StatusFits addr ∧ CopyoutDone L t p addr (intBytes (t.proc q).xstate) (R.copyout addr 4) (-1) t₁ ∧
        TimesDone t₁ p (R.copyout addr 4).2 addr1 addr2 (t.proc q).wtime (t.proc q).rtime (-1) ret t') t := by
  rw [PbsCow.sysWaitx, PbsCow.waitx, wp_bind, wp_bind]
  refine (h.waitxScan_dead hp hR hd).mono ?_
  rintro ⟨ret | havekids, w, r⟩ t₁ ⟨htimes, hout⟩
  · obtain ⟨rfl, rfl⟩ : w = (t.proc q).wtime ∧ r = (t.proc q).rtime := Prod.mk.inj htimes
    refine wp_pure.2 ?_
    rcases hout with ⟨hs, hret, hreap⟩ | ⟨hs, hret, hdone⟩
    · obtain rfl : ret = (t.proc q).pid := by injection hret
      obtain ⟨R₁, hR₁, hfree, hsame⟩ := hreap.room
      have hne : p ≠ q := by
        rintro rfl
        have hz := (t.deadChild_some hd).2
        rw [hp] at hz
        cases hz
      have hp₁ : (t₁.proc p).state ≠ .UNUSED := by
        rw [hreap.others p hne, hp]
        simp
      refine (hreap.inv.copyTimes hp₁ hR₁).mono fun _ t' ht' => ?_
      exact ⟨t₁, .inl ⟨hs, hreap, R₁, hR₁, hfree, hsame, ht'⟩⟩
    · obtain rfl : ret = -1 := by injection hret
      have hp₁ : (t₁.proc p).state ≠ .UNUSED := by
        rw [hdone.proc, hp]
        simp
      refine (hdone.inv.copyTimes hp₁ hdone.room).mono fun _ t' ht' => ?_
      exact ⟨t₁, .inr ⟨hs, hdone, ht'⟩⟩
  · rcases hout with ⟨_, hret, _⟩ | ⟨_, hret, _⟩ <;> cases hret

end PbsCow
