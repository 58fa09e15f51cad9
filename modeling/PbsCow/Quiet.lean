import PbsCow.Growproc
import PbsCow.Trap

namespace PbsCow
set_option autoImplicit true

/-- What holds between the operations of the kernel. -/
structure Inv (L : Layout) (t : Sys) : Prop where
  settled : Settled t
  sys : ∃ g, SysInv L t g

/-- Every process that there is was there before, with the same size and the same memory. -/
def SameView (t t' : Sys) : Prop :=
  ∀ j, (t'.proc j).state ≠ .UNUSED →
    (t.proc j).state ≠ .UNUSED ∧ (t'.proc j).sz = (t.proc j).sz ∧ t'.pages j = t.pages j

theorem SameView.refl (t : Sys) : SameView t t := fun _ hj => ⟨hj, rfl, rfl⟩

theorem SameView.trans {t t' t'' : Sys} (h : SameView t t') (h' : SameView t' t'') :
    SameView t t'' := by
  intro j hj
  obtain ⟨h1, h2, h3⟩ := h' j hj
  obtain ⟨h4, h5, h6⟩ := h j h1
  exact ⟨h4, h2.trans h5, h3.trans h6⟩

/-- Every process that there is was there before, with the same pid, but for the new ones. -/
def Kept (new : Slot → Prop) (t t' : Sys) : Prop :=
  ∀ j, ¬ new j → (t'.proc j).state ≠ .UNUSED →
    (t.proc j).state ≠ .UNUSED ∧ (t'.proc j).pid = (t.proc j).pid

theorem Kept.of_same {t t' : Sys} (h : t'.proc = t.proc) : Kept new t t' := by
  intro j _ hj
  rw [h] at hj ⊢
  exact ⟨hj, rfl⟩

theorem Kept.trans {t t' t'' : Sys} (h : Kept new t t') (h' : Kept new t' t'') : Kept new t t'' := by
  intro j hn hj
  obtain ⟨hj', hp'⟩ := h' j hn hj
  obtain ⟨hj, hp⟩ := h j hn hj'
  exact ⟨hj, hp'.trans hp⟩

/-- Scheduling and bookkeeping: no memory is touched, and no slot is taken or given back. -/
structure Quiet (t t' : Sys) : Prop where
  sameMem : t.SameMem t'
  unused : ∀ i, (t'.proc i).state = .UNUSED ↔ (t.proc i).state = .UNUSED
  used : ∀ i, (t'.proc i).state = .USED → (t.proc i).state = .USED
  orphan : ∀ i, (t.proc i).state = .UNUSED → (t.proc i).parent = none → (t'.proc i).parent = none
  init : t'.initproc = t.initproc
  pid : ∀ i, (t'.proc i).pid = (t.proc i).pid

theorem Quiet.refl (t : Sys) : Quiet t t :=
  ⟨.refl t, fun _ => .rfl, fun _ h => h, fun _ _ h => h, rfl, fun _ => rfl⟩

theorem Quiet.trans {t t' t'' : Sys} (h : Quiet t t') (h' : Quiet t' t'') : Quiet t t'' where
  sameMem := h.sameMem.trans h'.sameMem
  unused i := (h'.unused i).trans (h.unused i)
  used i hi := h.used i (h'.used i hi)
  orphan i hi hp := h'.orphan i ((h.unused i).2 hi) (h.orphan i hi hp)
  init := h'.init.trans h.init
  pid i := (h'.pid i).trans (h.pid i)

theorem Quiet.kept {t t' : Sys} (h : Quiet t t') : Kept new t t' :=
  fun j _ hj => ⟨fun hu => hj ((h.unused j).2 hu), h.pid j⟩

theorem Quiet.sameView {t t' : Sys} (h : Quiet t t') : SameView t t' := by
  intro j hj
  obtain ⟨h1, h2, _⟩ := h.sameMem.proc j
  refine ⟨fun hu => hj ((h.unused j).2 hu), h1, ?_⟩
  rw [Sys.pages, Sys.pages, h.sameMem.mem, h2]

theorem Quiet.inv {t t' : Sys} (h : Quiet t t') (hi : Inv L t) : Inv L t' := by
  obtain ⟨⟨hu, hl, hn⟩, g, hg⟩ := hi
  refine ⟨⟨fun i hi => ?_, fun i hi => ?_, fun i hi => hn i (h.used i hi)⟩, g, hg.sameMem h.sameMem⟩
  · have hi' := (h.unused i).1 hi
    obtain ⟨_, h1, h2, h3, h4⟩ := hu i hi'
    obtain ⟨e1, e2, e3⟩ := h.sameMem.proc i
    exact ⟨hi, e2.trans h1, e3.trans h2, e1.trans h3, h.orphan i hi' h4⟩
  · obtain ⟨h1, h2⟩ := hl i fun hu' => hi ((h.unused i).2 hu')
    obtain ⟨_, e2, e3⟩ := h.sameMem.proc i
    exact ⟨by rwa [e2], by rwa [e3]⟩

/-- Changing fields of a slot in use that memory does not depend on. -/
theorem Quiet.setProc {t : Sys} {p : Slot} {f : Proc → Proc}
    (hpid : (f (t.proc p)).pid = (t.proc p).pid) (hm : ∀ q : Proc, q.SameMem (f q))
    (hp : (t.proc p).state ≠ .UNUSED) (hu : (f (t.proc p)).state ≠ .UNUSED)
    (hn : (f (t.proc p)).state = .USED → (t.proc p).state = .USED) : Quiet t (t.setProc p f) := by
  refine ⟨t.setProc_sameMem (hm _), fun i => ?_, fun i => ?_, fun i hi => ?_, rfl, fun i => ?_⟩
  · by_cases hi : i = p
    · subst hi
      rw [t.setProc_self]
      exact iff_of_false hu hp
    · rw [t.setProc_of_ne hi]
  · by_cases hi : i = p
    · subst hi
      rw [t.setProc_self]
      exact hn
    · rw [t.setProc_of_ne hi]
      exact fun h => h
  · have hip : i ≠ p := by
      rintro rfl
      exact hp hi
    rw [t.setProc_of_ne hip]
    exact fun h => h
  · by_cases hi : i = p
    · rw [hi, t.setProc_self, hpid]
    · rw [t.setProc_of_ne hi]

theorem Quiet.wakeup (t : Sys) (me : Option Slot) (chan : Chan) : Quiet t (t.wakeup me chan) := by
  refine ⟨⟨rfl, fun i => ?_, ⟨rfl, rfl, rfl, rfl⟩⟩, fun i => ?_, fun i => ?_, fun i hi => ?_, rfl,
    fun i => ?_⟩ <;> simp only [Sys.wakeup] <;> split
  · exact ⟨rfl, rfl, rfl⟩
  · exact .refl _
  · next hc => simp [hc.2.1]
  · exact .rfl
  · intro h
    cases h
  · exact fun h => h
  · exact fun h => h
  · exact fun h => h
  · rfl
  · rfl

theorem wakeup_state {t : Sys} (me : Option Slot) (chan : Chan) (h : (t.proc q).state ≠ .SLEEPING) :
    (t.wakeup me chan).proc q = t.proc q := by
  simp only [Sys.wakeup]
  rw [if_neg]
  rintro ⟨_, hs, _⟩
  exact h hs

/-- One turn of `reparent`. -/
theorem Quiet.adopt {t : Sys} {pp : Slot} (hu : (t.proc pp).state = .UNUSED → (t.proc pp).parent = none)
    (hp : (t.proc pp).parent = some p) :
    Quiet t ((t.setProc pp fun q => { q with parent := t.initproc }).wakeup (some p)
      (.proc t.initproc)) := by
  have hne : (t.proc pp).state ≠ .UNUSED := by
    intro h
    rw [hu h] at hp
    cases hp
  have hq := Quiet.setProc (f := fun q => { q with parent := t.initproc })
    rfl (fun _ => ⟨rfl, rfl, rfl⟩) hne hne fun h => h
  exact hq.trans (.wakeup _ _ _)

theorem Quiet.reparent {t : Sys} (h : ∀ i, (t.proc i).state = .UNUSED → (t.proc i).parent = none)
    (p : Slot) : Quiet t (t.reparent p) := by
  rw [Sys.reparent]
  generalize List.finRange NPROC = l
  induction l generalizing t with
  | nil => exact .refl t
  | cons pp l ih =>
    rw [List.foldl_cons]
    split
    · next hp =>
      have hq := Quiet.adopt (h pp) hp
      refine hq.trans (ih fun i hi => ?_)
      have hi' := (hq.unused i).1 hi
      exact hq.orphan i hi' (h i hi')
    · exact ih h

/-- `reparent` leaves every process that is not asleep in its state. -/
theorem reparent_state {t : Sys} {q : Slot} (h : (t.proc q).state ≠ .SLEEPING) (p : Slot) :
    ((t.reparent p).proc q).state = (t.proc q).state := by
  rw [Sys.reparent]
  generalize List.finRange NPROC = l
  induction l generalizing t with
  | nil => rfl
  | cons pp l ih =>
    rw [List.foldl_cons]
    split
    · have hs : ((t.setProc pp fun q => { q with parent := t.initproc }).proc q).state =
          (t.proc q).state := by
        by_cases hq : q = pp
        · rw [hq, Sys.setProc_self]
        · rw [Sys.setProc_of_ne _ hq]
      have hw := wakeup_state (some p) (.proc t.initproc) (by rw [hs]; exact h)
      rw [ih (by rw [hw, hs]; exact h), hw, hs]
    · exact ih h

/-- Only the first process may not exit. -/
def InitExiting (e : Panic) : Prop := e = .initExiting

/-- `exit` turns its caller into a zombie. -/
theorem Inv.exit {t : Sys} {p : Slot} (h : Inv L t) (hp : (t.proc p).state = .RUNNING) :
    Wp (exit p status) InitExiting
      (fun _ t' => Quiet t t' ∧ (t'.proc p).state = .ZOMBIE ∧ t.initproc ≠ some p) t := by
  rw [PbsCow.exit]
  simp only [wp_bind, wp_get]
  refine .ite (fun _ => wp_throw.2 rfl) fun hinit => ?_
  simp only [wp_bind, wp_modify, wp_get, wp_setProc]
  have h₁ := Quiet.reparent (fun i hi => (h.settled.unused i hi).parent) p
  have hs₁ := reparent_state (by rw [hp]; simp) p
  generalize t.reparent p = t₁ at h₁ hs₁ ⊢
  have h₂ := h₁.trans (.wakeup t₁ (some p) (.proc (t₁.proc p).parent))
  have hs₂ := wakeup_state (t := t₁) (q := p) (some p) (.proc (t₁.proc p).parent)
    (by rw [hs₁, hp]; simp)
  generalize t₁.wakeup (some p) (.proc (t₁.proc p).parent) = t₂ at h₂ hs₂ ⊢
  refine ⟨h₂.trans (.setProc rfl (fun _ => ⟨rfl, rfl, rfl⟩) ?_ (by simp) (by simp)), ?_,
    fun h => hinit h.symm⟩
  · rw [hs₂, hs₁, hp]
    simp
  · rw [Sys.setProc_self]

end PbsCow
