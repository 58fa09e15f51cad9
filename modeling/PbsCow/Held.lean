import PbsCow.Commit
import Mathlib.Data.List.Perm.Basic

namespace PbsCow
set_option autoImplicit true

/-- The addresses of the pages that the kernel holds for `k`. -/
structure HeldList (g : Ghost) (k : Holder) (l : List Nat) : Prop where
  nodup : l.Nodup
  mem : ∀ z, z ∈ l ↔ ∃ y, z = y * PGSIZE ∧ g.own y = .held k

theorem HeldList.congr (h : HeldList g k l) (ho : ∀ y, g'.own y = .held k ↔ g.own y = .held k) :
    HeldList g' k l :=
  ⟨h.nodup, fun z => by simp only [h.mem z, ho]⟩

theorem page_inj (h : y * PGSIZE = x * PGSIZE) : y = x :=
  Nat.eq_of_mul_eq_mul_right (by decide) h

theorem HeldList.mem_page (h : HeldList g k l) (x : Nat) : x * PGSIZE ∈ l ↔ g.own x = .held k := by
  rw [h.mem]
  constructor
  · rintro ⟨y, he, ho⟩
    rwa [page_inj he]
  · exact fun ho => ⟨x, rfl, ho⟩

theorem HeldList.add (h : HeldList g k l) (hx : g.own x ≠ .held k)
    (ho : ∀ y, g'.own y = .held k ↔ y = x ∨ g.own y = .held k) (hl : l'.Perm (x * PGSIZE :: l)) :
    HeldList g' k l' := by
  refine ⟨hl.nodup_iff.2 (List.nodup_cons.2 ⟨fun hm => hx ((h.mem_page x).1 hm), h.nodup⟩),
    fun z => ?_⟩
  rw [hl.mem_iff, List.mem_cons, h.mem]
  constructor
  · rintro (rfl | ⟨y, rfl, hy⟩)
    · exact ⟨x, rfl, (ho x).2 (.inl rfl)⟩
    · exact ⟨y, rfl, (ho y).2 (.inr hy)⟩
  · rintro ⟨y, rfl, hy⟩
    rcases (ho y).1 hy with rfl | hy
    · exact .inl rfl
    · exact .inr ⟨y, rfl, hy⟩

theorem HeldList.remove (h : HeldList g k l) (hl : l.Perm (x * PGSIZE :: l'))
    (ho : ∀ y, g'.own y = .held k ↔ y ≠ x ∧ g.own y = .held k) : HeldList g' k l' := by
  obtain ⟨hx, hnd⟩ := List.nodup_cons.1 (hl.nodup_iff.1 h.nodup)
  refine ⟨hnd, fun z => ?_⟩
  have hz := h.mem z
  rw [hl.mem_iff, List.mem_cons] at hz
  constructor
  · intro hm
    obtain ⟨y, rfl, hy⟩ := hz.1 (.inr hm)
    refine ⟨y, rfl, (ho y).2 ⟨?_, hy⟩⟩
    rintro rfl
    exact hx hm
  · rintro ⟨y, rfl, hy⟩
    obtain ⟨hyx, hy⟩ := (ho y).1 hy
    rcases hz.2 ⟨y, rfl, hy⟩ with he | hm
    · exact (hyx (page_inj he)).elim
    · exact hm

theorem SysInv.pipes (h : SysInv L t g) : HeldList g .pipe (t.pipes.map Pipe.page) := by
  refine ⟨h.static.distinct, fun z => ⟨fun hz => ?_, ?_⟩⟩
  · obtain ⟨q, hq, rfl⟩ := List.mem_map.1 hz
    exact h.static.pipe q hq
  · rintro ⟨y, rfl, hy⟩
    obtain ⟨q, hq, he⟩ := h.holder y _ hy
    exact List.mem_map.2 ⟨q, hq, he⟩

theorem SysInv.args (h : SysInv L t g) : HeldList g .argbuf t.argv := by
  refine ⟨h.static.args_distinct, fun z => ⟨fun hz => h.static.args z hz, ?_⟩⟩
  rintro ⟨y, rfl, hy⟩
  exact h.holder y _ hy

/-- A change to the pages that the kernel holds for pipes and arguments. -/
theorem SysInv.reheld {t t' : Sys} (h : SysInv L t g) (hg : Good L t'.mem g' t.roots)
    (hproc : t'.proc = t.proc) (hker : t'.kernel_pagetable = t.kernel_pagetable)
    (hdisk : t'.disk = t.disk) (hpt : g'.pt = g.pt)
    (htab : ∀ y r l p, g'.own y = .table r l p ↔ g.own y = .table r l p)
    (hown : ∀ y k, k ≠ .pipe → k ≠ .argbuf → (g'.own y = .held k ↔ g.own y = .held k))
    (hpipe : HeldList g' .pipe (t'.pipes.map Pipe.page)) (harg : HeldList g' .argbuf t'.argv) :
    SysInv L t' g' := by
  have hroots : t'.roots = t.roots := Sys.roots_congr fun i => by rw [hproc]
  have hst := h.static
  refine ⟨by rwa [hroots], fun i => ?_, by rw [hproc]; exact h.inj, fun y r l p hy => ?_,
    by rw [hroots, hker]; exact h.kernel, ?_, fun y k hy => ?_, by rw [hker]; exact h.aligned⟩
  · rw [hproc]
    exact (h.slot i).congr (fun x hx => (hown x _ (by simp) (by simp)).2 hx) fun r _ _ => by rw [hpt]
  · rw [hroots, hker]
    exact h.tables y r l p ((htab y r l p).1 hy)
  · rw [hker, hdisk]
    refine ⟨(htab _ _ _ _).2 hst.live, by rw [hpt]; exact hst.leaf, by rw [hpt]; exact hst.direct,
      fun i hi => ?_, hst.nrings, fun i x hx => ?_, fun q hq => ?_, hpipe.nodup, fun x hx => ?_,
      harg.nodup⟩
    · obtain ⟨x, hx, ho⟩ := hst.kstack i hi
      exact ⟨x, by rw [hpt, hx], (hown x _ (by simp) (by simp)).2 ho⟩
    · obtain ⟨y, hy, ho⟩ := hst.ring i x hx
      exact ⟨y, hy, (hown y _ (by simp) (by simp)).2 ho⟩
    · exact (hpipe.mem _).1 (List.mem_map.2 ⟨q, hq, rfl⟩)
    · exact (harg.mem x).1 hx
  · have hback (hp : k ≠ .pipe) (ha : k ≠ .argbuf) : Holds t g y k :=
      h.holder y k ((hown y k hp ha).1 hy)
    cases k with
    | trapframe i =>
      obtain ⟨hi, hx⟩ := hback (by simp) (by simp)
      exact ⟨hi, by rw [hproc]; exact hx⟩
    | kstack i =>
      show i < NPROC ∧ _
      rw [hker, hpt]
      exact hback (by simp) (by simp)
    | ring i =>
      show t'.disk[i]? = _
      rw [hdisk]
      exact hback (by simp) (by simp)
    | pipe => exact List.mem_map.1 ((hpipe.mem_page y).2 hy)
    | argbuf => exact (harg.mem_page y).2 hy
    | fresh => exact hback (by simp) (by simp)

theorem SysInv.takePipe {t t' : Sys} (h : SysInv L t g) (hf : g.free = x :: f)
    (ht : t' = { t with mem := t.mem.alloc x, pipes := ⟨x * PGSIZE, true, true⟩ :: t.pipes }) :
    SysInv L t' ((g.take x f).setOwn x (.held .pipe)) := by
  have hfree := h.good.rep.free_of_cons hf
  subst ht
  refine h.reheld (h.good.alloc hf) rfl rfl rfl rfl
    (fun y r l p => g.take_setOwn hfree (by simp) (by simp) y)
    (fun y k hp _ => g.take_setOwn hfree (by simpa using hp) (by simp) y) ?_ ?_
  · exact h.pipes.add (by simp [hfree]) g.take_setOwn_held (.refl _)
  · exact h.args.congr fun y => g.take_setOwn hfree (by simp) (by simp) y

theorem SysInv.takeArg {t t' : Sys} (h : SysInv L t g) (hf : g.free = x :: f)
    (ht : t' = { t with mem := t.mem.alloc x, argv := t.argv ++ [x * PGSIZE] }) :
    SysInv L t' ((g.take x f).setOwn x (.held .argbuf)) := by
  have hfree := h.good.rep.free_of_cons hf
  subst ht
  refine h.reheld (h.good.alloc hf) rfl rfl rfl rfl
    (fun y r l p => g.take_setOwn hfree (by simp) (by simp) y)
    (fun y k _ ha => g.take_setOwn hfree (by simpa using ha) (by simp) y) ?_ ?_
  · exact h.pipes.congr fun y => g.take_setOwn hfree (by simp) (by simp) y
  · exact h.args.add (by simp [hfree]) g.take_setOwn_held List.perm_append_comm

theorem SysInv.releasePipe {t t' : Sys} {pipes : List Pipe} (h : SysInv L t g) (hx : g.own x = .held .pipe)
    (hl : (t.pipes.map Pipe.page).Perm (x * PGSIZE :: pipes.map Pipe.page))
    (ht : t' = { t with mem := t.mem.release x, pipes := pipes }) :
    SysInv L t' (g.setFree x) := by
  subst ht
  refine h.reheld (h.good.release hx) rfl rfl rfl rfl
    (fun y r l p => g.setFree_iff (by simp) (by simp [hx]) y)
    (fun y k hp _ => g.setFree_iff (by simp) (by rw [hx]; simpa using hp.symm) y) ?_ ?_
  · exact h.pipes.remove hl g.setFree_held
  · exact h.args.congr fun y => g.setFree_iff (by simp) (by simp [hx]) y

theorem SysInv.releaseArg {t t' : Sys} (h : SysInv L t g) (hx : g.own x = .held .argbuf)
    (hl : t.argv = x * PGSIZE :: argv) (ht : t' = { t with mem := t.mem.release x, argv := argv }) :
    SysInv L t' (g.setFree x) := by
  subst ht
  refine h.reheld (h.good.release hx) rfl rfl rfl rfl
    (fun y r l p => g.setFree_iff (by simp) (by simp [hx]) y)
    (fun y k _ ha => g.setFree_iff (by simp) (by rw [hx]; simpa using ha.symm) y) ?_ ?_
  · exact h.pipes.congr fun y => g.setFree_iff (by simp) (by simp [hx]) y
  · exact h.args.remove (by rw [hl]) g.setFree_held

theorem Good.copyinLoop_spec (h : Good L s g S) (hr : r ∈ S) :
    Wp (copyinLoop (r * PGSIZE) fuel srcva len dst) NoError (fun _ s' => s = s') s := by
  induction fuel generalizing srcva len dst with
  | zero => exact wp_pure.2 rfl
  | succ fuel ih =>
    rw [copyinLoop]
    refine .ite (fun _ => wp_pure.2 rfl) fun _ => .bind (h.walkaddr hr) ?_
    rintro pa _ ⟨rfl, _⟩
    refine .ite (fun _ => wp_pure.2 rfl) fun _ => ?_
    rw [wp_bind, wp_get]
    exact ih

theorem Good.copyinstrLoop_spec (h : Good L s g S) (hr : r ∈ S) :
    Wp (copyinstrLoop (r * PGSIZE) fuel srcva len dst) NoError (fun _ s' => s = s') s := by
  induction fuel generalizing srcva len dst with
  | zero => exact wp_pure.2 rfl
  | succ fuel ih =>
    rw [copyinstrLoop]
    refine .ite (fun _ => wp_pure.2 rfl) fun _ => .bind (h.walkaddr hr) ?_
    rintro pa _ ⟨rfl, _⟩
    refine .ite (fun _ => wp_pure.2 rfl) fun _ => ?_
    rw [wp_bind, wp_get]
    exact .ite (fun _ => wp_pure.2 rfl) fun _ => ih

/-- Reading from user memory changes nothing. -/
theorem Inv.copyin {t : Sys} {p : Slot} (h : Inv L t) (hp : (t.proc p).state ≠ .UNUSED) :
    Wp (onMem (copyin (t.proc p).pagetable srcva len)) NoError (fun _ t' => t = t') t := by
  obtain ⟨g, hg⟩ := h.sys
  obtain ⟨r, _, hr, hmem, _⟩ := hg.space (h.settled.used p hp).1
  rw [wp_onMem, hr]
  refine (hg.good.copyinLoop_spec hmem).mono ?_
  rintro _ _ rfl
  rfl

theorem Inv.copyinstr {t : Sys} {p : Slot} (h : Inv L t) (hp : (t.proc p).state ≠ .UNUSED) :
    Wp (onMem (copyinstr (t.proc p).pagetable srcva len)) NoError (fun _ t' => t = t') t := by
  obtain ⟨g, hg⟩ := h.sys
  obtain ⟨r, _, hr, hmem, _⟩ := hg.space (h.settled.used p hp).1
  rw [wp_onMem, hr]
  refine (hg.good.copyinstrLoop_spec hmem).mono ?_
  rintro _ _ rfl
  rfl

theorem Inv.fetchaddr {t : Sys} {p : Slot} (h : Inv L t) (hp : (t.proc p).state ≠ .UNUSED) :
    Wp (fetchaddr p addr) NoError (fun _ t' => t = t') t := by
  rw [PbsCow.fetchaddr]
  simp only [wp_bind, wp_get]
  refine .ite (fun _ => wp_pure.2 rfl) fun _ => wp_bind.2 ((h.copyin hp).mono ?_)
  rintro ⟨ret, b⟩ _ rfl
  exact .ite (fun _ => wp_pure.2 rfl) fun _ => wp_pure.2 rfl

/-- The string is copied to the page that was allocated for it. -/
theorem SysInv.fillArg {t : Sys} (h : SysInv L t g) (hx : g.own x = .held k) :
    Wp (onMem (memmoveIn (x * PGSIZE) str)) NoError
      (fun _ t' => SysInv L t' g ∧ t'.proc = t.proc) t := by
  simp only [wp_onMem, memmoveIn, wp_modify, page_div]
  exact ⟨h.setPage (.inr ⟨k, hx⟩), trivial⟩

theorem Inv.fetchArgs {t : Sys} {p : Slot} (h : Inv L t) (hp : (t.proc p).state ≠ .UNUSED) :
    Wp (fetchArgs p uargv n i argv) NoError (fun _ t' => Inv L t' ∧ t'.proc = t.proc) t := by
  induction n generalizing t i argv with
  | zero => exact wp_pure.2 ⟨h, rfl⟩
  | succ n ih =>
    rw [PbsCow.fetchArgs]
    refine .bind (h.fetchaddr hp) ?_
    rintro (_ | uarg) _ rfl
    · exact wp_pure.2 ⟨h, rfl⟩
    refine .ite (fun _ => wp_pure.2 ⟨h, rfl⟩) fun _ => ?_
    obtain ⟨g, hg⟩ := h.sys
    rw [wp_bind, wp_onMem]
    cases hf : g.free with
    | nil =>
      refine .of_ok (kalloc_nil (hf ▸ hg.good.rep.page.freeRep)) (.ite_pos rfl (wp_pure.2 ?_))
      exact ⟨h, rfl⟩
    | cons x f =>
      have hfree := hg.good.rep.free_of_cons hf
      have hm := (hg.good.rep.page.managed x).1 (by simp [hfree])
      refine .of_ok (kalloc_cons (hf ▸ hg.good.rep.page.freeRep)) (.ite_neg (Nat.ne_of_gt hm.pos) ?_)
      rw [wp_bind, wp_modify]
      have h₁ := hg.takeArg hf rfl
      generalize ht₁ : ({ t with mem := t.mem.alloc x, argv := t.argv ++ [x * PGSIZE] } : Sys) = t₁
        at h₁
      have hproc₁ : t₁.proc = t.proc := by rw [← ht₁]
      have hi₁ : Inv L t₁ := ⟨h.settled.congr hproc₁, _, h₁⟩
      have hp₁ : (t₁.proc p).state ≠ .UNUSED := by rwa [hproc₁]
      show Wp _ _ _ t₁
      rw [wp_bind, wp_get]
      refine .bind (hi₁.copyinstr hp₁) ?_
      rintro ⟨ret, str⟩ _ rfl
      refine .bind (h₁.fillArg (Ghost.setOwn_own_self _)) ?_
      rintro _ t₂ ⟨h₂, hproc₂⟩
      have hi₂ : Inv L t₂ := ⟨hi₁.settled.congr hproc₂, _, h₂⟩
      have hproc : t₂.proc = t.proc := hproc₂.trans hproc₁
      refine .ite (fun _ => wp_pure.2 ⟨hi₂, hproc⟩) fun _ => ?_
      refine (ih hi₂ (by rwa [hproc])).mono ?_
      rintro _ t₃ ⟨hi₃, hproc₃⟩
      exact ⟨hi₃, hproc₃.trans hproc⟩

theorem SysInv.kfreeAll {t : Sys} (h : SysInv L t g) :
    Wp (kfreeAll L t.argv) NoError
      (fun _ s' => ∃ g', SysInv L ({ t with mem := s', argv := [] } : Sys) g' ∧ g'.pt = g.pt ∧
        g.free.length ≤ g'.free.length) t.mem := by
  generalize hl : t.argv = l
  induction l generalizing t g with
  | nil =>
    refine wp_pure.2 ⟨g, ?_, rfl, Nat.le_refl _⟩
    rw [← hl]
    exact h
  | cons z l ih =>
    obtain ⟨x, rfl, hx⟩ := (h.args.mem z).1 (by simp [hl])
    refine .bind_ok (kfree_held h.good.rep hx) ((ih (h.releaseArg hx hl rfl) rfl).mono ?_)
    rintro _ s' ⟨g', h', hp, hle⟩
    exact ⟨g', h', hp, Nat.le_of_succ_le hle⟩

theorem Inv.freeArgs {t : Sys} (h : Inv L t) :
    Wp (freeArgs L) NoError (fun _ t' => Inv L t' ∧ t'.proc = t.proc) t := by
  obtain ⟨g, hg⟩ := h.sys
  simp only [PbsCow.freeArgs, wp_bind, wp_get, wp_modify, wp_onMem]
  refine hg.kfreeAll.mono ?_
  rintro _ s' ⟨g', h', _⟩
  exact ⟨⟨h.settled.congr rfl, g', h'⟩, trivial⟩

theorem Inv.sysExec {t : Sys} {p : Slot} (h : Inv L t) (hp : (t.proc p).state ≠ .UNUSED) :
    Wp (sysExec L namei p path uargv) NoError (fun _ t' => Stays L p t t') t := by
  rw [PbsCow.sysExec]
  simp only [wp_bind, wp_get]
  refine (h.copyinstr hp).mono ?_
  rintro ⟨ret, name⟩ _ rfl
  refine .ite (fun _ => wp_pure.2 (.refl h p)) fun _ => .bind (h.fetchArgs hp) ?_
  rintro (_ | argv) t₁ ⟨h₁, hp₁⟩
  · refine .bind h₁.freeArgs ?_
    rintro _ t₂ ⟨h₂, hp₂⟩
    exact wp_pure.2 ⟨h₂, by rw [hp₂, hp₁], .of_same (hp₂.trans hp₁)⟩
  · refine .bind (h₁.exec (p := p) (by rwa [hp₁])) ?_
    rintro ret t₂ ⟨h₂, hs₂, hk₂⟩
    refine .bind h₂.freeArgs ?_
    rintro _ t₃ ⟨h₃, hp₃⟩
    exact wp_pure.2 ⟨h₃, by rw [hp₃, hs₂, hp₁], (Kept.of_same hp₁).trans (hk₂.trans (.of_same hp₃))⟩

end PbsCow
