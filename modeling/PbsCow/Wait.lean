import PbsCow.Quiet

namespace PbsCow
set_option autoImplicit true

theorem Settled.congr {t t' : Sys} (h : Settled t) (hp : t'.proc = t.proc) : Settled t' := by
  obtain ⟨hu, hl, hn⟩ := h
  exact ⟨by rwa [hp], by rwa [hp], by rwa [hp]⟩

/-- `copyout` keeps the invariant, whatever it returns. -/
theorem SysInv.copyout {t : Sys} {p : Slot} (h : SysInv L t g) (hp : (t.proc p).pagetable ≠ 0) :
    Wp (copyout L (t.proc p).pagetable dstva src) NoError
      (fun _ s' => ∃ g', SysInv L ({ t with mem := s' } : Sys) g') t.mem := by
  obtain ⟨r, x, hr, hmem, hs, hh, hx, hpos, _⟩ := h.space hp
  rw [hr]
  refine (h.good.copyout hmem (hh.highOk hx hpos)).mono ?_
  rintro ret s' ⟨g', hg, hb, hsh, _⟩
  exact ⟨g', h.memStep hr hmem hg hb (hsh.shape hs) hsh.high⟩

theorem Inv.copyout {t : Sys} {p : Slot} (h : Inv L t) (hp : (t.proc p).state ≠ .UNUSED) :
    Wp (onMem (copyout L (t.proc p).pagetable dstva src)) NoError
      (fun _ t' => Inv L t' ∧ t'.proc = t.proc) t := by
  obtain ⟨g, hg⟩ := h.sys
  rw [wp_onMem]
  refine (hg.copyout (h.settled.used p hp).1).mono ?_
  rintro _ s' h'
  exact ⟨⟨h.settled.congr rfl, h'⟩, rfl⟩

theorem Kept.of_others {t t' : Sys} (ho : ∀ j, j ≠ p → t'.proc j = t.proc j)
    (hp : (t'.proc p).state = .UNUSED) : Kept new t t' := by
  intro j _ hj
  have hjp : j ≠ p := by
    rintro rfl
    exact hj hp
  rw [ho j hjp] at hj ⊢
  exact ⟨hj, rfl⟩

theorem FreeprocPost.inv {t t' : Sys} {pp : Slot} (h : FreeprocPost L pp t g t') (hs : Settled t) :
    Inv L t' ∧ SameView t t' ∧ Kept (fun _ => False) t t' ∧ ∀ j, j ≠ pp → t'.proc j = t.proc j := by
  obtain ⟨g', h', ho, hu, _⟩ := h
  refine ⟨⟨⟨fun i hi => ?_, fun i hi => ?_, fun i => ?_⟩, g', h'⟩, fun j hj => ?_,
    .of_others ho.proc hu.state, ho.proc⟩
  · by_cases hip : i = pp
    · rw [hip]
      exact hu
    · rw [ho.proc i hip] at hi ⊢
      exact hs.unused i hi
  · have hip : i ≠ pp := by
      rintro rfl
      exact hi hu.state
    rw [ho.proc i hip] at hi ⊢
    exact hs.used i hi
  · by_cases hip : i = pp
    · rw [hip, hu.state]
      simp
    · rw [ho.proc i hip]
      exact hs.not_used i
  · have hjp : j ≠ pp := by
      rintro rfl
      exact hj hu.state
    have hj' := ho.proc j hjp
    rw [hj'] at hj
    exact ⟨hj, by rw [hj'], ho.pages j hjp (hs.used j hj).1⟩

/-- A `wait` that is over has freed one child at most. -/
structure WaitPost (L : Layout) (p : Slot) (addr : Nat) (t t' : Sys) : Prop where
  inv : Inv L t'
  state : (t'.proc p).state = (t.proc p).state
  view : addr = 0 → SameView t t'
  kept : Kept (fun _ => False) t t'

theorem Inv.reap {t : Sys} {p pp : Slot} (h : Inv L t) (hp : (t.proc p).state = .RUNNING)
    (hz : (t.proc pp).state = .ZOMBIE) :
    Wp (freeproc L pp) NoError
      (fun _ t' => Inv L t' ∧ SameView t t' ∧ Kept (fun _ => False) t t' ∧ t'.proc p = t.proc p) t := by
  obtain ⟨g, hg⟩ := h.sys
  refine hg.freeproc.mono fun _ t' hpost => ?_
  obtain ⟨h', hv, hk, ho⟩ := hpost.inv h.settled
  refine ⟨h', hv, hk, ho p ?_⟩
  rintro rfl
  rw [hp] at hz
  cases hz

theorem Inv.waitScan {t : Sys} {p : Slot} (h : Inv L t) (hp : (t.proc p).state = .RUNNING) :
    Wp (waitScan L p addr l havekids) NoError (fun ret t' => match ret with
      | .inl _ => WaitPost L p addr t t'
      | .inr _ => t = t') t := by
  induction l generalizing havekids with
  | nil => exact wp_pure.2 rfl
  | cons pp l ih =>
    rw [PbsCow.waitScan]
    simp only [wp_bind, wp_get]
    refine .ite (fun _ => .ite (fun hz => ?_) fun _ => ih) fun _ => ih
    rw [wp_bind, wp_get]
    refine .ite (fun ha => ?_) fun ha => ?_
    · refine wp_bind.2 ((h.copyout (p := p) (by rw [hp]; simp)).mono ?_)
      rintro ret t₁ ⟨h₁, hp₁⟩
      refine .ite (fun _ => ?_) fun _ => ?_
      · exact wp_pure.2 ⟨h₁, by rw [hp₁], fun h0 => (ha h0).elim, .of_same hp₁⟩
      · refine wp_bind.2 ((h₁.reap (p := p) (by rw [hp₁, hp]) (by rw [hp₁, hz])).mono ?_)
        rintro _ t₂ ⟨h₂, _, hk₂, hp₂⟩
        exact wp_pure.2 ⟨h₂, by rw [hp₂, hp₁], fun h0 => (ha h0).elim, .trans (.of_same hp₁) hk₂⟩
    · refine wp_bind.2 ((h.reap hp hz).mono ?_)
      rintro _ t₂ ⟨h₂, hv, hk₂, hp₂⟩
      exact wp_pure.2 ⟨h₂, by rw [hp₂], fun _ => hv, hk₂⟩

theorem Inv.wait {t : Sys} {p : Slot} (h : Inv L t) (hp : (t.proc p).state = .RUNNING) :
    Wp (wait L p addr) NoError (fun ret t' => match ret with
      | some _ => WaitPost L p addr t t'
      | none => Quiet t t') t := by
  rw [PbsCow.wait]
  refine .bind (h.waitScan hp) ?_
  rintro (ret | havekids) t₁ hpost
  · exact wp_pure.2 hpost
  · obtain rfl : t = t₁ := hpost
    simp only [wp_bind, wp_get]
    refine .ite (fun _ => wp_pure.2 ⟨h, rfl, fun _ => .refl t, .of_same rfl⟩) fun _ => ?_
    refine wp_bind.2 (wp_setProc.2 (wp_pure.2 ?_))
    exact .setProc rfl (fun _ => ⟨rfl, rfl, rfl⟩) (by rw [hp]; simp) (by simp) (by simp)

/-- Apart from the times `waitx` scans as `wait` does. -/
theorem waitxScan_fst (L : Layout) (p : Slot) (addr : Nat) (wtime rtime : BitVec 32) (l : List Slot)
    (havekids : Bool) :
    Prod.fst <$> waitxScan L p addr wtime rtime l havekids = waitScan L p addr l havekids := by
  induction l generalizing havekids with
  | nil => rfl
  | cons pp l ih =>
    rw [waitxScan, PbsCow.waitScan]
    simp only [map_bind, apply_ite (Prod.fst <$> ·), map_pure, ih]

theorem Inv.waitx {t : Sys} {p : Slot} (h : Inv L t) (hp : (t.proc p).state = .RUNNING) :
    Wp (waitx L p addr wtime rtime) NoError (fun ret t' => match ret with
      | some _ => WaitPost L p addr t t'
      | none => Quiet t t') t := by
  have hscan : Wp (PbsCow.waitScan L p addr (List.finRange NPROC) false) NoError _ t := h.waitScan hp
  rw [← waitxScan_fst L p addr wtime rtime, wp_map] at hscan
  rw [PbsCow.waitx]
  refine .bind hscan ?_
  rintro ⟨ret | havekids, times⟩ t₁ hpost
  · exact wp_pure.2 hpost
  · obtain rfl : t = t₁ := hpost
    simp only [wp_bind, wp_get]
    refine .ite (fun _ => wp_pure.2 ⟨h, rfl, fun _ => .refl t, .of_same rfl⟩) fun _ => ?_
    refine wp_bind.2 (wp_setProc.2 (wp_pure.2 ?_))
    exact .setProc rfl (fun _ => ⟨rfl, rfl, rfl⟩) (by rw [hp]; simp) (by simp) (by simp)

theorem Inv.sysWaitx {t : Sys} {p : Slot} (h : Inv L t) (hp : (t.proc p).state = .RUNNING) :
    Wp (sysWaitx L p addr addr1 addr2 wtime rtime) NoError (fun ret t' => match ret with
      | some _ => Inv L t' ∧ (t'.proc p).state = (t.proc p).state ∧ Kept (fun _ => False) t t'
      | none => Quiet t t') t := by
  rw [PbsCow.sysWaitx]
  refine .bind (h.waitx hp) ?_
  rintro (_ | ⟨ret, wtime, rtime⟩) t₁ hpost
  · exact wp_pure.2 hpost
  have hw : WaitPost L p addr t t₁ := hpost
  have hne : (t₁.proc p).state ≠ .UNUSED := by
    rw [hw.state, hp]
    simp
  rw [wp_bind, wp_get]
  refine .bind (hw.inv.copyout hne) ?_
  rintro _ t₂ ⟨h₂, hp₂⟩
  have hk₂ := hw.kept.trans (.of_same hp₂)
  refine .ite (fun _ => wp_pure.2 ⟨h₂, by rw [hp₂, hw.state], hk₂⟩) fun _ => ?_
  have hcopy : Wp (onMem (PbsCow.copyout L (t₂.proc p).pagetable addr2 (intBytes rtime))) NoError _ t₂ :=
    h₂.copyout (by rwa [hp₂])
  rw [hp₂] at hcopy
  refine .bind hcopy ?_
  rintro _ t₃ ⟨h₃, hp₃⟩
  refine .ite (fun _ => ?_) fun _ => ?_
  · exact wp_pure.2 ⟨h₃, by rw [hp₃, hw.state], hw.kept.trans (.of_same hp₃)⟩
  · exact wp_pure.2 ⟨h₃, by rw [hp₃, hw.state], hw.kept.trans (.of_same hp₃)⟩

/-- Changing fields that neither memory nor the state of a slot depends on. -/
theorem Quiet.setFields {t : Sys} {p : Slot} {f : Proc → Proc} (hm : ∀ q : Proc, q.SameMem (f q))
    (hs : ∀ q, (f q).state = q.state) (hp : ∀ q, (f q).parent = q.parent)
    (hpid : ∀ q, (f q).pid = q.pid) : Quiet t (t.setProc p f) := by
  refine ⟨t.setProc_sameMem (hm _), fun i => ?_, fun i => ?_, fun i _ => ?_, rfl, fun i => ?_⟩ <;>
    by_cases hi : i = p
  · rw [hi, t.setProc_self, hs]
  · rw [t.setProc_of_ne hi]
  · rw [hi, t.setProc_self, hs]
    exact fun h => h
  · rw [t.setProc_of_ne hi]
    exact fun h => h
  · rw [hi, t.setProc_self, hp]
    exact fun h => h
  · rw [t.setProc_of_ne hi]
    exact fun h => h
  · rw [hi, t.setProc_self, hpid]
  · rw [t.setProc_of_ne hi]

/-- `set_priority` changes no state, whichever slots have the pid. -/
theorem Quiet.setPriorityScan {t : Sys} {pid : Int} (l : List Slot) :
    Wp (setPriorityScan pid new_priority l old do_yield) NoError (fun _ t' => Quiet t t' ∧
      ∀ i, (t'.proc i).state = (t.proc i).state) t := by
  induction l generalizing t old do_yield with
  | nil => exact wp_pure.2 ⟨.refl t, fun _ => rfl⟩
  | cons p l ih =>
    rw [PbsCow.setPriorityScan, wp_bind, wp_get]
    refine .ite (fun _ => ?_) fun _ => ih
    rw [wp_bind, wp_setProc]
    have hset : Quiet t (t.setProc p fun q =>
        { q with rbi := 25, static_pri := BitVec.ofInt 32 new_priority }) :=
      .setFields (fun _ => ⟨rfl, rfl, rfl⟩) (fun _ => rfl) (fun _ => rfl) fun _ => rfl
    refine ih.mono ?_
    rintro _ t' ⟨hq, hs⟩
    refine ⟨hset.trans hq, fun i => (hs i).trans ?_⟩
    by_cases hi : i = p
    · rw [hi, t.setProc_self]
    · rw [t.setProc_of_ne hi]

/-- `kill` marks at most one slot; an unused slot keeps its state. -/
theorem Inv.killScan {t : Sys} (l : List Slot) :
    Wp (killScan pid l) NoError (fun _ t' => Quiet t t' ∧ ∀ i, (t.proc i).state ≠ .SLEEPING →
      (t'.proc i).state = (t.proc i).state) t := by
  induction l with
  | nil => exact wp_pure.2 ⟨.refl t, fun _ _ => rfl⟩
  | cons p l ih =>
    rw [PbsCow.killScan]
    simp only [wp_bind, wp_get]
    refine .ite (fun _ => ?_) fun _ => ih
    refine wp_bind.2 (wp_setProc.2 (wp_pure.2 ⟨?_, fun i hi => ?_⟩))
    · refine ⟨t.setProc_sameMem ⟨rfl, rfl, rfl⟩, fun i => ?_, fun i => ?_, fun i _ => ?_, rfl,
        fun i => ?_⟩ <;> by_cases hip : i = p
      · subst hip
        rw [Sys.setProc_self]
        cases (t.proc i).state <;> simp
      · rw [Sys.setProc_of_ne _ hip]
      · subst hip
        rw [Sys.setProc_self]
        cases (t.proc i).state <;> simp
      · rw [Sys.setProc_of_ne _ hip]
        exact fun h => h
      · subst hip
        rw [Sys.setProc_self]
        exact fun h => h
      · rw [Sys.setProc_of_ne _ hip]
        exact fun h => h
      · subst hip
        rw [Sys.setProc_self]
      · rw [Sys.setProc_of_ne _ hip]
    · by_cases hip : i = p
      · subst hip
        rw [Sys.setProc_self]
        exact if_neg hi
      · rw [Sys.setProc_of_ne _ hip]

end PbsCow
