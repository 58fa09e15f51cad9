import PbsCow.WaitxOutcome
import PbsCow.Refinement

namespace PbsCow
set_option autoImplicit true

/-- The bytes that a call is to fill with the times of a child. -/
def InTimes (addr1 addr2 a : Nat) : Prop := addr1 ≤ a ∧ a < addr1 + 4 ∨ addr2 ≤ a ∧ a < addr2 + 4

/-- User code of `p` finds the `int` `n` at `va`. -/
def Sys.HoldsInt (t : Sys) (p : Slot) (va : Nat) (n : BitVec 32) : Prop :=
  ∀ i, i < 4 → t.userByte p (va + i) = (intBytes n)[i]?

/-- Whatever is in the variables that `sys_waitx` does not initialise: a call that returns -1 has reaped
no child and has written no byte of the times, so that whatever byte was there still is; a call that
returns a pid has reaped that child and has stored its times. -/
structure AllOrNothing (L : Layout) (t : Sys) (p : Slot) (addr addr1 addr2 : Nat) : Prop where
  unreaped : ∀ wtime rtime, Wp (sysWaitx L p addr addr1 addr2 wtime rtime) NoError
    (fun ret t' => ret = some (-1) → t'.proc = t.proc) t
  unwritten : ∀ wtime rtime a b, InTimes addr1 addr2 a → t.userByte p a ≠ none →
    Wp (sysWaitx L p addr addr1 addr2 wtime rtime) NoError
      (fun ret t' => ret = some (-1) → t'.userByte p a = some b) (t.poke p a b)
  reaped : ∀ wtime rtime pid, pid ≠ -1 → Wp (sysWaitx L p addr addr1 addr2 wtime rtime) NoError
    (fun ret t' => ret = some pid → ∃ q, t.DeadChild p q ∧ (t.proc q).pid = pid ∧
      (t'.proc q).state = .UNUSED ∧ t'.HoldsInt p addr1 (t.proc q).wtime ∧
      t'.HoldsInt p addr2 (t.proc q).rtime) t

/-- If there is a child to reap and its status can be copied, user code reaches the pages of both times,
which agree where they overlap. Otherwise the process goes to sleep, or no byte of the first time can be
stored, and none of the status has been stored there. -/
def Sys.WaitxFits (t : Sys) (p : Slot) (R : Room) (addr addr1 addr2 : Nat) : Prop :=
  match t.deadChild p with
  | some q =>
    R.StatusFits addr ∧
        (∀ w, InRange addr1 4 w ∨ InRange addr2 4 w → (R.page w).user = true) ∧
        (∀ i j, i < 4 → j < 4 → addr1 + i = addr2 + j →
          (intBytes (t.proc q).wtime)[i]? = (intBytes (t.proc q).rtime)[j]?) ∨
      ¬ R.StatusFits addr ∧ ((R.copyout addr 4).2.copyout addr1 4).1 = 0 ∧
        ∀ k, k < (R.copyout addr 4).1 → ¬ InTimes addr1 addr2 (addr + k)
  | none => t.HasChild p ∧ (t.proc p).killed = false ∨ (R.copyout addr1 4).1 = 0

theorem Room.times_eq_zero {R : Room} (h : (R.copyout addr1 4).1 = 0) (addr2 : Nat) :
    R.times addr1 addr2 = (0, 0) := by
  rw [Room.times, h]
  rfl

theorem timesOverlay_zero (addr1 addr2 : Nat) (wtime rtime : BitVec 32) (a : Nat) (b : Byte) :
    timesOverlay (0, 0) addr1 addr2 wtime rtime a b = b := by
  rw [timesOverlay, List.take_zero, List.take_zero, overlay_nil, overlay_nil]

theorem timesOverlay_first (hn : 0 < n.1) (addr1 addr2 : Nat) (wtime rtime : BitVec 32) (b b' : Byte) :
    timesOverlay n addr1 addr2 wtime rtime addr1 b = timesOverlay n addr1 addr2 wtime rtime addr1 b' := by
  rw [timesOverlay, timesOverlay, overlay_const b b' (Nat.le_refl _)]
  rw [List.length_take]
  show _ < _ + min _ 4
  omega

theorem byte_fixed_ne_const {f : Byte → Byte} (h : ∀ b, f b = b) (hc : ∀ b b', f b = f b') : False := by
  have h01 : (0 : Byte) = 1 := (h 0).symm.trans ((hc 0 1).trans (h 1))
  exact absurd h01 (by decide)

theorem Inv.stored_ne_none {t : Sys} {p : Slot} (h : Inv L t) (hp : (t.proc p).state ≠ .UNUSED)
    (hR : t.HasRoom p R) (hk : k < (R.copyout va len).1) : t.userByte p (va + k) ≠ none :=
  h.userByte_ne_none hp hR (Room.copyoutLoop_stored _ _ _ _ hk)

/-- A call that fails on every path is all or nothing iff it leaves every byte of the times. -/
theorem Inv.allOrNothing_failed {t : Sys} {p : Slot} {F : BitVec 32 → BitVec 32 → Nat → Byte → Byte}
    (h : Inv L t) (hp : (t.proc p).state ≠ .UNUSED) (hR : t.HasRoom p R)
    (hcall : ∀ t₀ : Sys, t₀.proc = t.proc → Inv L t₀ → t₀.HasRoom p R → ∀ wtime rtime,
      Wp (PbsCow.sysWaitx L p addr addr1 addr2 wtime rtime) NoError (fun ret t' => ret = some (-1) ∧
        t'.proc = t₀.proc ∧ ∀ a, t'.userByte p a = (t₀.userByte p a).map (F wtime rtime a)) t₀) :
    AllOrNothing L t p addr addr1 addr2 ↔ ∀ wtime rtime a b, InTimes addr1 addr2 a →
      t.userByte p a ≠ none → F wtime rtime a b = b := by
  constructor
  · intro hall wtime rtime a b ha hne
    obtain ⟨hi, hR', hb⟩ := h.poke hp hR hne b
    obtain ⟨ret, t', _, hsame, hret, _, hbytes⟩ :=
      ((hall.unwritten wtime rtime a b ha hne).and (hcall (t.poke p a b) rfl hi hR' wtime rtime)).exists_ok
    have he := hbytes a
    rw [hsame hret, hb] at he
    injection he with he
    exact he.symm
  · intro hF
    refine ⟨fun wtime rtime => ?_, fun wtime rtime a b ha hne => ?_, fun wtime rtime pid hpid => ?_⟩
    · exact (hcall t rfl h hR wtime rtime).mono fun _ _ hpost _ => hpost.2.1
    · obtain ⟨hi, hR', hb⟩ := h.poke hp hR hne b
      refine (hcall (t.poke p a b) rfl hi hR' wtime rtime).mono ?_
      rintro ret t' ⟨_, _, hbytes⟩ _
      rw [hbytes a, hb, Option.map_some, hF wtime rtime a b ha hne]
    · refine (hcall t rfl h hR wtime rtime).mono ?_
      rintro ret t' ⟨hret, _⟩ hpid'
      rw [hret] at hpid'
      injection hpid' with he
      exact (hpid he.symm).elim

/-- Without children. -/
theorem Inv.allOrNothing_childless {t : Sys} {p : Slot} (h : Inv L t) (hp : (t.proc p).state = .RUNNING)
    (hR : t.HasRoom p R) (hd : t.deadChild p = none)
    (hno : ¬ (t.HasChild p ∧ (t.proc p).killed = false)) :
    AllOrNothing L t p addr addr1 addr2 ↔ (R.copyout addr1 4).1 = 0 := by
  have hp0 : (t.proc p).state ≠ .UNUSED := by rw [hp]; simp
  refine (h.allOrNothing_failed (F := timesOverlay (R.times addr1 addr2) addr1 addr2) hp0 hR
    fun t₀ he hi hR₀ wtime rtime => ?_).trans ⟨fun hF => ?_, fun hzero _ _ _ _ _ _ => ?_⟩
  · have hd₀ : t₀.deadChild p = none := (Sys.deadChild_congr he p).trans hd
    have hno₀ : ¬ (t₀.HasChild p ∧ (t₀.proc p).killed = false) := by
      simpa only [Sys.HasChild, he] using hno
    refine (hi.sysWaitx_childless (by rwa [he]) hR₀ hd₀ hno₀ wtime rtime).mono fun ret t' ht' => ?_
    exact ⟨by rw [ht'.out, ite_self], ht'.proc, ht'.bytes⟩
  · by_contra hpos
    have hpos : 0 < (R.copyout addr1 4).1 := Nat.pos_of_ne_zero hpos
    have hread := h.stored_ne_none hp0 hR hpos
    exact byte_fixed_ne_const (fun b => hF 0 0 addr1 b (.inl ⟨Nat.le_refl _, by omega⟩) hread)
      fun b b' => timesOverlay_first hpos _ _ _ _ b b'
  · rw [R.times_eq_zero hzero, timesOverlay_zero]

/-- With a child whose status cannot be copied. -/
theorem Inv.allOrNothing_status {t : Sys} {p q : Slot} (h : Inv L t) (hp : (t.proc p).state = .RUNNING)
    (hR : t.HasRoom p R) (hd : t.deadChild p = some q) (hs : ¬ R.StatusFits addr) :
    AllOrNothing L t p addr addr1 addr2 ↔ ((R.copyout addr 4).2.copyout addr1 4).1 = 0 ∧
      ∀ k, k < (R.copyout addr 4).1 → ¬ InTimes addr1 addr2 (addr + k) := by
  have hp0 : (t.proc p).state ≠ .UNUSED := by rw [hp]; simp
  refine (h.allOrNothing_failed (F := fun _ _ a b => timesOverlay ((R.copyout addr 4).2.times addr1 addr2)
    addr1 addr2 (t.proc q).wtime (t.proc q).rtime a
    (overlay addr ((intBytes (t.proc q).xstate).take (R.copyout addr 4).1) a b)) hp0 hR
    fun t₀ he hi hR₀ wtime rtime => ?_).trans ⟨fun hF => ?_, ?_⟩
  · have hd₀ : t₀.deadChild p = some q := (Sys.deadChild_congr he p).trans hd
    refine (hi.sysWaitx_child (by rwa [he]) hR₀ hd₀ wtime rtime).mono ?_
    rintro ret t' ⟨t₁, ⟨hs', _⟩ | ⟨_, h₁, h₂⟩⟩
    · exact (hs hs').elim
    · refine ⟨by rw [h₂.out, ite_self], h₂.proc.trans h₁.proc, fun a => ?_⟩
      rw [h₂.bytes, h₁.bytes, Option.map_map, he]
      rfl
  · have hzero : ((R.copyout addr 4).2.copyout addr1 4).1 = 0 := by
      by_contra hpos
      have hpos : 0 < ((R.copyout addr 4).2.copyout addr1 4).1 := Nat.pos_of_ne_zero hpos
      have huser : (R.page ((addr1 + 0) / PGSIZE)).user = true := by
        rw [← (Room.copyoutLoop_user 4 R addr 4 _).1]
        exact Room.copyoutLoop_stored _ _ _ _ hpos
      have hread := h.userByte_ne_none hp0 hR huser
      exact byte_fixed_ne_const (fun b => hF 0 0 addr1 b (.inl ⟨Nat.le_refl _, by omega⟩) hread)
        fun b b' => timesOverlay_first hpos _ _ _ _ _ _
    refine ⟨hzero, fun k hk hin => ?_⟩
    refine byte_fixed_ne_const (fun b => hF 0 0 (addr + k) b hin (h.stored_ne_none hp0 hR hk))
      fun b b' => congrArg _ (overlay_const b b' (Nat.le_add_right _ _) ?_)
    have hle := R.copyout_le addr 4
    rw [List.length_take]
    show _ < _ + min _ 4
    omega
  · rintro ⟨hzero, hmiss⟩ wtime rtime a b hin _
    rw [Room.times_eq_zero hzero, timesOverlay_zero]
    rcases Nat.lt_or_ge a addr with hlo | hlo
    · exact overlay_of_lt _ _ hlo
    · refine overlay_of_ge _ ?_
      rw [List.length_take]
      by_contra hhi
      refine hmiss (a - addr) (by omega) ?_
      rwa [Nat.add_sub_cancel' hlo]

theorem Room.copyout_user (R : Room) (dstva len w : Nat) :
    ((R.copyout dstva len).2.page w).user = (R.page w).user ∧
      ((R.copyout dstva len).2.page w).mapped = (R.page w).mapped :=
  Room.copyoutLoop_user len R dstva len w

/-- With four free pages both times are stored exactly if user code reaches their pages. -/
theorem Room.times_eq_iff {R : Room} (hfree : 4 ≤ R.free)
    (hm : ∀ w, (R.page w).user = true → (R.page w).mapped = true) :
    R.times addr1 addr2 = (4, 4) ↔ ∀ w, InRange addr1 4 w ∨ InRange addr2 4 w → (R.page w).user = true := by
  constructor
  · intro h
    rw [Room.times] at h
    obtain ⟨h1, h2⟩ := Prod.mk.inj h
    rw [if_pos h1] at h2
    rintro w (hw | hw)
    · exact ((R.copyout_eq_iff addr1 4).1 h1 (by decide) w hw).2.1
    · rw [← (R.copyout_user addr1 4 w).1]
      exact ((Room.copyout_eq_iff _ addr2 4).1 h2 (by decide) w hw).2.1
  · intro hu
    have hloss := R.copyoutLoop_free 4 addr1 4
    have htwo (a : Nat) : (a % PGSIZE + 4 + (PGSIZE - 1)) / PGSIZE ≤ 2 := by
      simp only [PGSIZE]
      omega
    have h1 : (R.copyout addr1 4).1 = 4 := by
      refine (R.copyout_eq_iff addr1 4).2 (Room.fits_of_user ?_ fun w hw => ?_)
      · exact (htwo addr1).trans (by omega)
      · exact ⟨hm w (hu w (.inl hw)), hu w (.inl hw)⟩
    have h2 : ((R.copyout addr1 4).2.copyout addr2 4).1 = 4 := by
      refine (Room.copyout_eq_iff _ addr2 4).2 (Room.fits_of_user ?_ fun w hw => ?_)
      · have hleft : 2 ≤ (R.copyout addr1 4).2.free := by
          have := htwo addr1
          rw [Room.copyout]
          omega
        exact (htwo addr2).trans hleft
      · rw [(R.copyout_user addr1 4 w).1, (R.copyout_user addr1 4 w).2]
        exact ⟨hm w (hu w (.inr hw)), hu w (.inr hw)⟩
    rw [Room.times, if_pos h1, h1, h2]

theorem Sys.HasRoom.mapped {t : Sys} (h : t.HasRoom p R) (w : Nat) (hu : (R.page w).user = true) :
    (R.page w).mapped = true := by
  obtain ⟨free, _, _, rfl⟩ := h
  obtain ⟨hw, ha⟩ := Room.of_user.1 hu
  exact Room.of_mapped.2 ⟨hw, ha.ne_zero⟩

theorem timesOverlay_second (addr1 addr2 : Nat) (wtime rtime : BitVec 32) (b : Byte) (hj : j < 4) :
    some (timesOverlay (4, 4) addr1 addr2 wtime rtime (addr2 + j) b) = (intBytes rtime)[j]? := by
  have hlt : j < (intBytes rtime).length := hj
  rw [List.getElem?_eq_getElem hlt]
  exact congrArg some (overlay_add _ hlt)

theorem timesOverlay_miss (wtime rtime : BitVec 32) (b : Byte) (hi : i < 4)
    (hmiss : ∀ j, j < 4 → addr1 + i ≠ addr2 + j) :
    some (timesOverlay (4, 4) addr1 addr2 wtime rtime (addr1 + i) b) = (intBytes wtime)[i]? := by
  have hlt : i < (intBytes wtime).length := hi
  have hout (b : Byte) : overlay addr2 (intBytes rtime) (addr1 + i) b = b := by
    rcases Nat.lt_or_ge (addr1 + i) addr2 with hlo | hlo
    · exact overlay_of_lt _ _ hlo
    · refine overlay_of_ge _ (Nat.le_of_not_lt fun hhi => ?_)
      have hj : addr1 + i < addr2 + 4 := hhi
      exact hmiss (addr1 + i - addr2) (by omega) (by omega)
  rw [List.getElem?_eq_getElem hlt]
  exact congrArg some ((hout _).trans (overlay_add b hlt))

/-- Both times are in place. -/
theorem TimesDone.holds {t t' : Sys} (h : TimesDone t p R addr1 addr2 wtime rtime ret o t')
    (hall : R.times addr1 addr2 = (4, 4))
    (hread : ∀ a, InTimes addr1 addr2 a → t.userByte p a ≠ none)
    (hagree : ∀ i j, i < 4 → j < 4 → addr1 + i = addr2 + j → (intBytes wtime)[i]? = (intBytes rtime)[j]?) :
    t'.HoldsInt p addr1 wtime ∧ t'.HoldsInt p addr2 rtime := by
  have hbytes := h.bytes
  rw [hall] at hbytes
  have hsecond : t'.HoldsInt p addr2 rtime := by
    intro j hj
    obtain ⟨b, hb⟩ := Option.ne_none_iff_exists'.1 (hread (addr2 + j) (.inr ⟨by omega, by omega⟩))
    rw [hbytes, hb]
    exact timesOverlay_second _ _ _ _ b hj
  refine ⟨fun i hi => ?_, hsecond⟩
  by_cases hover : ∃ j, j < 4 ∧ addr1 + i = addr2 + j
  · obtain ⟨j, hj, he⟩ := hover
    rw [hagree i j hi hj he, he]
    exact hsecond j hj
  · obtain ⟨b, hb⟩ := Option.ne_none_iff_exists'.1 (hread (addr1 + i) (.inl ⟨by omega, by omega⟩))
    rw [hbytes, hb]
    exact timesOverlay_miss _ _ b hi fun j hj he => hover ⟨j, hj, he⟩

theorem InTimes.page (h : InTimes addr1 addr2 a) : InRange addr1 4 (a / PGSIZE) ∨ InRange addr2 4 (a / PGSIZE) := by
  rcases h with ⟨hlo, hhi⟩ | ⟨hlo, hhi⟩
  · obtain ⟨k, rfl⟩ := Nat.exists_eq_add_of_le hlo
    exact .inl (.of_lt (by omega))
  · obtain ⟨k, rfl⟩ := Nat.exists_eq_add_of_le hlo
    exact .inr (.of_lt (by omega))

/-- With a child whose status can be copied. -/
theorem Inv.allOrNothing_reaped {t : Sys} {p q : Slot} (h : Inv L t) (hnum : Numbered t)
    (hp : (t.proc p).state = .RUNNING) (hR : t.HasRoom p R) (hd : t.deadChild p = some q)
    (hs : R.StatusFits addr) :
    AllOrNothing L t p addr addr1 addr2 ↔
      (∀ w, InRange addr1 4 w ∨ InRange addr2 4 w → (R.page w).user = true) ∧
      ∀ i j, i < 4 → j < 4 → addr1 + i = addr2 + j →
        (intBytes (t.proc q).wtime)[i]? = (intBytes (t.proc q).rtime)[j]? := by
  have hdead := t.deadChild_some hd
  have hpid : (t.proc q).pid ≠ -1 := by
    have := hnum.pid q
    omega
  have hpq : p ≠ q := by
    rintro rfl
    have hz := hdead.2
    rw [hp] at hz
    cases hz
  constructor
  · intro hall
    obtain ⟨ret, t', _, hun, hre, t₁, ⟨_, hreap, R₁, hR₁, hfree, hsame, hdone⟩ | ⟨hs', _⟩⟩ :=
      ((hall.unreaped 0 0).and ((hall.reaped 0 0 _ hpid).and (h.sysWaitx_child hp hR hd 0 0))).exists_ok
    · have hfour : R₁.times addr1 addr2 = (4, 4) := by
        by_contra hne
        have hproc := hun (by rw [hdone.out, if_neg hne])
        have hz := hreap.unused
        rw [← hdone.proc, hproc, hdead.2] at hz
        cases hz
      refine ⟨fun w hw => ?_, fun i j hi hj he => ?_⟩
      · rw [← (hsame w).1]
        exact (Room.times_eq_iff hfree hR₁.mapped).1 hfour w hw
      · obtain ⟨q', hdead', _, hu, hw, hr⟩ := hre (by rw [hdone.out, if_pos hfour])
        obtain rfl : q' = q := by
          by_contra hne
          rw [hdone.proc, hreap.others q' hne, hdead'.2] at hu
          cases hu
        rw [← hw i hi, ← hr j hj, he]
    · exact (hs' hs).elim
  · rintro ⟨huser, hagree⟩
    have hcall (t₀ : Sys) (he : t₀.proc = t.proc) (hi : Inv L t₀) (hR₀ : t₀.HasRoom p R)
        (wtime rtime : BitVec 32) : Wp (PbsCow.sysWaitx L p addr addr1 addr2 wtime rtime) NoError
          (fun ret t' => ret = some (t.proc q).pid ∧ (t'.proc q).state = .UNUSED ∧
            t'.HoldsInt p addr1 (t.proc q).wtime ∧ t'.HoldsInt p addr2 (t.proc q).rtime) t₀ := by
      have hd₀ : t₀.deadChild p = some q := (Sys.deadChild_congr he p).trans hd
      refine (hi.sysWaitx_child (by rwa [he]) hR₀ hd₀ wtime rtime).mono ?_
      rintro ret t' ⟨t₁, ⟨_, hreap, R₁, hR₁, hfree, hsame, hdone⟩ | ⟨hs', _⟩⟩
      · have huser₁ (w : Nat) (hw : InRange addr1 4 w ∨ InRange addr2 4 w) : (R₁.page w).user = true := by
          rw [(hsame w).1]
          exact huser w hw
        have hfour := (Room.times_eq_iff hfree hR₁.mapped).2 huser₁
        have hp₁ : (t₁.proc p).state ≠ .UNUSED := by
          rw [hreap.others p hpq, he, hp]
          simp
        have hread (a : Nat) (ha : InTimes addr1 addr2 a) : t₁.userByte p a ≠ none :=
          hreap.inv.userByte_ne_none hp₁ hR₁ (huser₁ _ ha.page)
        rw [he] at hdone
        refine ⟨by rw [hdone.out, if_pos hfour], ?_, hdone.holds hfour hread hagree⟩
        rw [hdone.proc]
        exact hreap.unused
      · exact (hs' hs).elim
    have hnot {ret : Option Int} (hret : ret = some (t.proc q).pid) (hfail : ret = some (-1)) : False := by
      rw [hret] at hfail
      injection hfail with he
      exact hpid he
    refine ⟨fun wtime rtime => ?_, fun wtime rtime a b _ hne => ?_, fun wtime rtime pid _ => ?_⟩
    · exact (hcall t rfl h hR wtime rtime).mono fun _ _ hpost hfail => (hnot hpost.1 hfail).elim
    · obtain ⟨hi, hR', _⟩ := h.poke (by rw [hp]; simp) hR hne b
      exact (hcall (t.poke p a b) rfl hi hR' wtime rtime).mono fun _ _ hpost hfail => (hnot hpost.1 hfail).elim
    · refine (hcall t rfl h hR wtime rtime).mono ?_
      rintro ret t' ⟨hret, hu, hw, hr⟩ hpid'
      refine ⟨q, hdead, ?_, hu, hw, hr⟩
      rw [hret] at hpid'
      injection hpid'

theorem Inv.allOrNothing_iff {t : Sys} {p : Slot} (h : Inv L t) (hnum : Numbered t)
    (hp : (t.proc p).state = .RUNNING) (hR : t.HasRoom p R) :
    AllOrNothing L t p addr addr1 addr2 ↔ t.WaitxFits p R addr addr1 addr2 := by
  rw [Sys.WaitxFits]
  cases hd : t.deadChild p with
  | none =>
    by_cases hc : t.HasChild p ∧ (t.proc p).killed = false
    · have hcall (t₀ : Sys) (he : t₀.proc = t.proc) (wtime rtime : BitVec 32) :
          Wp (PbsCow.sysWaitx L p addr addr1 addr2 wtime rtime) NoError (fun ret _ => ret = none) t₀ := by
        refine sysWaitx_sleeps ((Sys.deadChild_congr he p).trans hd) ?_ ?_ wtime rtime
        · simpa only [Sys.HasChild, he] using hc.1
        · rw [he]
          exact hc.2
      refine iff_of_true ⟨fun w r => ?_, fun w r a b _ _ => ?_, fun w r pid _ => ?_⟩ (.inl hc)
      · refine (hcall t rfl w r).mono fun _ _ hret hfail => ?_
        rw [hret] at hfail
        cases hfail
      · refine (hcall (t.poke p a b) rfl w r).mono fun _ _ hret hfail => ?_
        rw [hret] at hfail
        cases hfail
      · refine (hcall t rfl w r).mono fun _ _ hret hfail => ?_
        rw [hret] at hfail
        cases hfail
    · exact (h.allOrNothing_childless hp hR hd hc).trans (or_iff_right hc).symm
  | some q =>
    by_cases hs : R.StatusFits addr
    · refine (h.allOrNothing_reaped hnum hp hR hd hs).trans ?_
      exact ⟨fun hfit => .inl ⟨hs, hfit⟩, fun hfit => (hfit.resolve_right fun hno => hno.1 hs).2⟩
    · refine (h.allOrNothing_status hp hR hd hs).trans ?_
      exact ⟨fun hfit => .inr ⟨hs, hfit⟩, fun hfit => (hfit.resolve_left fun hyes => hs hyes.1).2⟩

/-- The first process has a page of its own from address 0 on. -/
theorem Booted.copyout_room {t : Sys} (h : Booted L t p st g r x) (hR : t.HasRoom p R) :
    (R.copyout 8 4).1 = 4 := by
  obtain rfl := (h.inv.good.hasRoom_iff h.root h.mem).1 hR
  refine (Room.copyout_eq_iff _ 8 4).2 fun _ w hw => ?_
  obtain rfl : w = 0 := by
    have hlt := hw.2
    simp only [PGSIZE] at hlt
    omega
  have hbit {i : Nat} (hi : i < 10) : (g.pt r 0).getLsbD i = initFlags.getLsbD i := by
    rw [h.pte]
    exact getLsbD_mkPte x _ hi
  have ha : Accessible (g.pt r 0) := by
    rw [Accessible, flag_V, flag_U, hbit (by decide), hbit (by decide)]
    exact ⟨by decide, by decide⟩
  refine ⟨Room.of_mapped.2 ⟨by decide, ha.ne_zero⟩, Room.of_user.2 ⟨by decide, ha⟩, fun hc => ?_⟩
  rw [Ghost.room, Room.of_page _ _ _ (by decide), flag_COW, hbit (by decide)] at hc
  have hcow : initFlags.getLsbD 8 = true := hc
  exact absurd hcow (by decide)

theorem Reachable.init_orphans {t : Sys}
    (h : (do PbsCow.boot L; PbsCow.run L [.dispatch p]) (Sys.start ram) = .ok (outs, t)) : t.Orphans := by
  have hrun : Wp (do PbsCow.boot L; PbsCow.run L [.dispatch p]) AnyError (fun _ t => t.Orphans)
      (Sys.start ram) := by
    refine .bind (boot_orphans L ram) fun _ t₁ h₁ => ?_
    rw [PbsCow.run, step, whenState]
    have hnext (out : Out) (t₂ : Sys) (h₂ : t₂.Orphans) :
        Wp (do return out :: (← PbsCow.run L [])) AnyError (fun _ t => t.Orphans) t₂ := wp_pure.2 h₂
    refine wp_bind.2 (wp_bind.2 (wp_get.2 (.ite (fun _ => ?_) fun _ => wp_pure.2 (hnext _ _ h₁))))
    exact wp_bind.2 (wp_setProc.2 (wp_pure.2 (hnext _ _ (h₁.setProc rfl))))
  exact hrun.of_eq_ok h

end PbsCow
