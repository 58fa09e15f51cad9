import PbsCow.Held

namespace PbsCow
set_option autoImplicit true

theorem Inv.pipealloc {t : Sys} (h : Inv L t) :
    Wp pipealloc NoError (fun _ t' => Inv L t' ∧ t'.proc = t.proc) t := by
  obtain ⟨g, hg⟩ := h.sys
  rw [PbsCow.pipealloc, wp_bind, wp_onMem]
  cases hf : g.free with
  | nil =>
    refine .of_ok (kalloc_nil (hf ▸ hg.good.rep.page.freeRep)) (.ite_neg (by simp) (wp_pure.2 ?_))
    exact ⟨h, rfl⟩
  | cons x f =>
    have hfree := hg.good.rep.free_of_cons hf
    have hm := (hg.good.rep.page.managed x).1 (by simp [hfree])
    refine .of_ok (kalloc_cons (hf ▸ hg.good.rep.page.freeRep)) (.ite_pos (Nat.ne_of_gt hm.pos) ?_)
    rw [wp_bind, wp_modify]
    exact wp_pure.2 ⟨⟨h.settled.congr rfl, _, hg.takePipe hf rfl⟩, rfl⟩

theorem Inv.retype {t : Sys} {pipes' : List Pipe} (h : Inv L t)
    (hp : pipes'.map Pipe.page = t.pipes.map Pipe.page) :
    Inv L { t with pipes := pipes' } := by
  obtain ⟨g, hg⟩ := h.sys
  refine ⟨h.settled.congr rfl, g, hg.reheld hg.good rfl rfl rfl rfl (fun _ _ _ _ => .rfl)
    (fun _ _ _ _ => .rfl) ?_ hg.args⟩
  rw [hp]
  exact hg.pipes

/-- The pipe at `page` is one of the open pipes, and the only one at that address. -/
theorem filter_page {pipes : List Pipe} (hnd : (pipes.map Pipe.page).Nodup) (hq : q ∈ pipes) :
    (pipes.map Pipe.page).Perm
      (q.page :: (pipes.filter fun q' => decide (q'.page ≠ q.page)).map Pipe.page) := by
  induction pipes with
  | nil => cases hq
  | cons a l ih =>
    obtain ⟨hna, hnd'⟩ := List.nodup_cons.1 hnd
    by_cases ha : a.page = q.page
    · have hall : l.filter (fun q' => decide (q'.page ≠ q.page)) = l := by
        refine List.filter_eq_self.2 fun b hb => ?_
        have hne : b.page ≠ q.page := by
          intro hbq
          exact hna (List.mem_map.2 ⟨b, hb, hbq.trans ha.symm⟩)
        simpa using hne
      rw [List.map_cons, List.filter_cons_of_neg (by simp [ha]), hall, ha]
    · have hql : q ∈ l := by
        rcases List.mem_cons.1 hq with rfl | hm
        · exact (ha rfl).elim
        · exact hm
      rw [List.map_cons, List.filter_cons_of_pos (by simpa using ha), List.map_cons]
      exact ((ih hnd' hql).cons a.page).trans (.swap ..)

theorem Inv.pipeclose {t : Sys} {p : Slot} (h : Inv L t) (hp : (t.proc p).state = .RUNNING) :
    Wp (pipeclose L p page writable) NoError (fun _ t' => Stays L p t t') t := by
  rw [PbsCow.pipeclose]
  simp only [wp_bind, wp_get]
  cases hfind : t.pipes.find? fun q => decide (q.page = page) with
  | none => exact wp_pure.2 (.refl h p)
  | some pi =>
    have hpage : pi.page = page := by simpa using List.find?_some hfind
    have hmem : pi ∈ t.pipes := List.mem_of_find?_eq_some hfind
    simp only [wp_bind, wp_modify]
    generalize hc : (if writable then nreadChan page else nwriteChan page) = chan
    have hq := Quiet.wakeup t (some p) chan
    have h₁ := hq.inv h
    have hk₁ : Kept (fun _ => False) t (t.wakeup (some p) chan) := hq.kept
    have hs₁ : ((t.wakeup (some p) chan).proc p).state = (t.proc p).state := by
      rw [wakeup_state _ _ (by rw [hp]; simp)]
    have hpipes : (t.wakeup (some p) chan).pipes = t.pipes := rfl
    generalize t.wakeup (some p) chan = t₁ at h₁ hk₁ hs₁ hpipes ⊢
    refine .ite (fun _ => ?_) fun _ => ?_
    · simp only [wp_bind, wp_modify, wp_onMem]
      obtain ⟨g, hg⟩ := h₁.sys
      obtain ⟨x, hx, ho⟩ := hg.static.pipe pi (by rw [hpipes]; exact hmem)
      rw [← hpage, hx]
      refine .of_ok (kfree_held hg.good.rep ho) ?_
      have hperm := filter_page hg.static.distinct (q := pi) (by rw [hpipes]; exact hmem)
      rw [hx] at hperm
      exact ⟨⟨h₁.settled.congr rfl, _, hg.releasePipe ho hperm rfl⟩, hs₁, hk₁⟩
    · rw [wp_modify]
      refine ⟨h₁.retype ?_, hs₁, hk₁⟩
      rw [List.map_map]
      refine List.map_congr_left fun q _ => ?_
      simp only [Function.comp_apply]
      split
      · next he => cases writable <;> simp [Pipe.close, he, hpage]
      · rfl

theorem Inv.copyoutFds {t : Sys} {p : Slot} (h : Inv L t) (hp : (t.proc p).state ≠ .UNUSED) :
    Wp (copyoutFds L p fdarray fd0 fd1) NoError (fun _ t' => Inv L t' ∧ t'.proc = t.proc) t := by
  rw [PbsCow.copyoutFds]
  simp only [wp_bind, wp_get]
  refine (h.copyout hp).mono ?_
  rintro ret t₁ ⟨h₁, hp₁⟩
  refine .ite (fun _ => wp_pure.2 ⟨h₁, hp₁⟩) fun _ => ?_
  have hpt : (t.proc p).pagetable = (t₁.proc p).pagetable := by rw [hp₁]
  rw [hpt]
  refine (h₁.copyout (p := p) (by rwa [hp₁])).mono ?_
  rintro _ t₂ ⟨h₂, hp₂⟩
  exact ⟨h₂, hp₂.trans hp₁⟩

theorem Inv.sysPipe {t : Sys} {p : Slot} (h : Inv L t) (hp : (t.proc p).state = .RUNNING) :
    Wp (sysPipe L p fdarray fd0 fd1) NoError (fun _ t' => Stays L p t t') t := by
  rw [PbsCow.sysPipe]
  refine .bind h.pipealloc ?_
  rintro page t₁ ⟨h₁, hp₁⟩
  have hs₁ : (t₁.proc p).state = (t.proc p).state := by rw [hp₁]
  refine .ite (fun _ => wp_pure.2 ⟨h₁, hs₁, .of_same hp₁⟩) fun _ => ?_
  refine .bind (h₁.copyoutFds (p := p) (by rw [hs₁, hp]; simp)) ?_
  rintro ret t₂ ⟨h₂, hp₂⟩
  have hs₂ : (t₂.proc p).state = (t.proc p).state := by rw [hp₂, hs₁]
  have hk₂ : Kept (fun _ => False) t t₂ := .of_same (hp₂.trans hp₁)
  refine .ite (fun _ => ?_) fun _ => wp_pure.2 ⟨h₂, hs₂, hk₂⟩
  refine .bind (h₂.pipeclose (p := p) (by rw [hs₂, hp])) ?_
  rintro _ t₃ ⟨h₃, hs₃, hk₃⟩
  refine .bind (h₃.pipeclose (p := p) (by rw [hs₃, hs₂, hp])) ?_
  rintro _ t₄ ⟨h₄, hs₄, hk₄⟩
  exact wp_pure.2 ⟨h₄, by rw [hs₄, hs₃, hs₂], hk₂.trans (hk₃.trans hk₄)⟩

theorem NotForked.keeps {t t' : Sys} {p : Slot} (h : NotForked L p t g t') (hs : Settled t) :
    Inv L t' ∧ SameView t t' ∧ ∀ j, (t.proc j).state ≠ .UNUSED → t'.proc j = t.proc j := by
  obtain ⟨⟨g', hi, _⟩, ho, hu, _⟩ := h
  refine ⟨⟨⟨fun i hi' => ?_, fun i hi' => ?_, fun i => ?_⟩, g', hi⟩, fun j hj => ?_, ho.proc⟩
  · by_cases hc : (t.proc i).state = .UNUSED
    · exact hu i hc
    · rw [ho.proc i hc] at hi'
      exact (hc hi').elim
  · by_cases hc : (t.proc i).state = .UNUSED
    · exact (hi' (hu i hc).state).elim
    · rw [ho.proc i hc]
      exact hs.used i hc
  · by_cases hc : (t.proc i).state = .UNUSED
    · rw [(hu i hc).state]
      simp
    · rw [ho.proc i hc]
      exact hs.not_used i
  · have hc : (t.proc j).state ≠ .UNUSED := fun hc => hj (hu j hc).state
    exact ⟨hc, by rw [ho.proc j hc], ho.pages j hc (hs.used j hc).1⟩

theorem Forked.toInv {t t' : Sys} {p np : Slot} (h : Forked L p np t g t') (hs : Settled t) :
    Inv L t' := by
  obtain ⟨g', hg, _⟩ := h.inv
  refine ⟨⟨fun i hi => ?_, fun i hi => ?_, fun i => ?_⟩, g', hg⟩ <;> by_cases hin : i = np
  · rw [hin, h.state] at hi
    cases hi
  · rw [h.others.proc i hin] at hi ⊢
    exact hs.unused i hi
  · rw [hin]
    exact ⟨h.pagetable, h.trapframe⟩
  · rw [h.others.proc i hin] at hi ⊢
    exact hs.used i hi
  · rw [hin, h.state]
    simp
  · rw [h.others.proc i hin]
    exact hs.not_used i

theorem GrowprocPost.toInv {t t' : Sys} {p : Slot} (h : GrowprocPost L p n t ret t') (hs : Settled t)
    (hp : (t.proc p).state ≠ .UNUSED) : Inv L t' := by
  have hf := h.proc
  refine ⟨⟨fun i hi => ?_, fun i hi => ?_, fun i => ?_⟩, h.inv⟩ <;> by_cases hin : i = p
  · rw [hin, hf] at hi
    exact (hp hi).elim
  · rw [h.others.proc i hin] at hi ⊢
    exact hs.unused i hi
  · rw [hin, hf]
    exact hs.used p hp
  · rw [h.others.proc i hin] at hi ⊢
    exact hs.used i hi
  · rw [hin, hf]
    exact hs.not_used p
  · rw [h.others.proc i hin]
    exact hs.not_used i

end PbsCow
