import PbsCow.Kvmmake
import PbsCow.Step

namespace PbsCow
set_option autoImplicit true

/-- A page has been taken for the owner `o`; the other pages are held as before. -/
structure Took (L : Layout) (k x : Nat) (o : Holder) (g : Ghost) (s' : Mem) (g' : Ghost) : Prop where
  booting : Booting L k s' g'
  pos : 0 < x * PGSIZE
  pt : g'.pt = g.pt
  owner : g'.own x = .held o
  held : ∀ y o', g.own y = .held o' → g'.own y = .held o'
  holder : ∀ y o', g'.own y = .held o' → g.own y = .held o' ∨ y = x ∧ o' = o

theorem Booting.kalloc (h : Booting L k s g) (ho : .held o ∈ bootOwners k)
    (hnone : ∀ y, g.own y ≠ .held o) :
    Wp kalloc NoError (fun ret s' => ∃ x g', ret = x * PGSIZE ∧ Took L k x o g s' g') s := by
  cases hf : g.free with
  | nil =>
    have hlen := h.free_length
    rw [hf] at hlen
    simp at hlen
  | cons x f =>
    have hfree := h.good.rep.free_of_cons hf
    have hm := (h.good.rep.page.managed x).1 (by simp [hfree])
    have hown {y : Nat} (hy : y ≠ x) : ((g.take x f).setOwn x (.held o)).own y = g.own y := by
      rw [Ghost.setOwn_own _ hy, Ghost.take_own _ hy]
    refine .of_ok (kalloc_cons (hf ▸ h.good.rep.page.freeRep)) ⟨x, _, rfl, h.alloc hf ho hnone, hm.pos,
      rfl, Ghost.setOwn_own_self _, fun y o' hy => ?_, fun y o' hy => ?_⟩
    · refine (hown ?_).trans hy
      rintro rfl
      rw [hfree] at hy
      cases hy
    · by_cases hyx : y = x
      · rw [hyx, Ghost.setOwn_own_self, Owner.held.injEq] at hy
        exact .inr ⟨hyx, hy.symm⟩
      · exact .inl (hown hyx ▸ hy)

theorem Booting.setPage (h : Booting L k s g) (hx : g.own x = .held o) :
    Booting L k (s.setPage x pg) g :=
  ⟨h.good.setPage (.inr ⟨o, hx⟩), h.live, h.own, h.held⟩

/-- The three rings of the disk have been allocated. -/
theorem KernelSpace.virtioDiskInit (h : KernelSpace L k s g) :
    Wp virtioDiskInit NoError (fun disk s' => ∃ g', Booting L k s' g' ∧ g'.pt = g.pt ∧
      disk.length = 3 ∧ (∀ i x, disk[i]? = some x → ∃ y, x = y * PGSIZE ∧ g'.own y = .held (.ring i)) ∧
      (∀ y o, g.own y = .held o → g'.own y = .held o) ∧
      (∀ y o, g'.own y = .held o → g.own y = .held o ∨ ∃ i, o = .ring i ∧
        disk[i]? = some (y * PGSIZE))) s := by
  have hring (y i : Nat) : g.own y ≠ .held (.ring i) := by
    intro hy
    obtain ⟨j, _, hj⟩ := h.holder y _ hy
    cases hj
  rw [PbsCow.virtioDiskInit]
  refine .bind (h.booting.kalloc (o := .ring 0) (by simp [bootOwners]) fun y => hring y 0) ?_
  rintro _ s₁ ⟨a, g₁, rfl, h₁⟩
  refine .bind (h₁.booting.kalloc (o := .ring 1) (by simp [bootOwners]) fun y hy => ?_) ?_
  · rcases h₁.holder y _ hy with ho | ⟨_, ho⟩
    · exact hring y 1 ho
    · cases ho
  rintro _ s₂ ⟨b, g₂, rfl, h₂⟩
  refine .bind (h₂.booting.kalloc (o := .ring 2) (by simp [bootOwners]) fun y hy => ?_) ?_
  · rcases h₂.holder y _ hy with ho | ⟨_, ho⟩
    · rcases h₁.holder y _ ho with ho | ⟨_, ho⟩
      · exact hring y 2 ho
      · cases ho
    · cases ho
  rintro _ s₃ ⟨c, g₃, rfl, h₃⟩
  have hpos : ¬ (a * PGSIZE = 0 ∨ b * PGSIZE = 0 ∨ c * PGSIZE = 0) := by
    have h1 := h₁.pos
    have h2 := h₂.pos
    have h3 := h₃.pos
    omega
  refine .ite_neg hpos ?_
  have ha : g₃.own a = .held (.ring 0) := h₃.held a _ (h₂.held a _ h₁.owner)
  have hb : g₃.own b = .held (.ring 1) := h₃.held b _ h₂.owner
  simp only [memset, wp_bind, wp_modify, wp_pure, page_div]
  refine ⟨g₃, ((h₃.booting.setPage ha).setPage hb).setPage h₃.owner, ?_, rfl, fun i x hx => ?_,
    fun y o hy => h₃.held y o (h₂.held y o (h₁.held y o hy)), fun y o hy => ?_⟩
  · rw [h₃.pt, h₂.pt, h₁.pt]
  · rcases i with _ | _ | _ | i
    · exact ⟨a, (Option.some.inj hx).symm, ha⟩
    · exact ⟨b, (Option.some.inj hx).symm, hb⟩
    · exact ⟨c, (Option.some.inj hx).symm, h₃.owner⟩
    · simp at hx
  · rcases h₃.holder y o hy with ho | ⟨rfl, rfl⟩
    · rcases h₂.holder y o ho with ho | ⟨rfl, rfl⟩
      · rcases h₁.holder y o ho with ho | ⟨rfl, rfl⟩
        · exact .inl ho
        · exact .inr ⟨0, rfl, rfl⟩
      · exact .inr ⟨1, rfl, rfl⟩
    · exact .inr ⟨2, rfl, rfl⟩

/-- The kernel's own data before there is a process. -/
structure Idle (L : Layout) (t : Sys) (g : Ghost) : Prop where
  inv : SysInv L t g
  zero : ∀ i, t.proc i = .zero
  free : 885 ≤ g.free.length

theorem KernelSpace.idle {t : Sys} (h : KernelSpace L k s g) (hb : Booting L k t.mem g')
    (hpt : g'.pt = g.pt) (hlen : t.disk.length = 3)
    (hring : ∀ i x, t.disk[i]? = some x → ∃ y, x = y * PGSIZE ∧ g'.own y = .held (.ring i))
    (hheld : ∀ y o, g.own y = .held o → g'.own y = .held o)
    (hholder : ∀ y o, g'.own y = .held o → g.own y = .held o ∨ ∃ i, o = .ring i ∧
      t.disk[i]? = some (y * PGSIZE))
    (hz : ∀ i, t.proc i = .zero) (hk : t.kernel_pagetable = k * PGSIZE) (hpipes : t.pipes = [])
    (hargv : t.argv = []) : Idle L t g' := by
  have hroots : t.roots = ∅ := by
    ext r
    rw [t.mem_roots]
    simp [hz, Proc.zero]
  refine ⟨⟨by rw [hroots]; exact hb.good, fun i => ?_, fun i j _ hne => ?_, fun x r l p hx => ?_,
    by simp [hroots], ?_, fun x o hx => ?_, by rw [hk, page_mod]⟩, hz, hb.free_length⟩
  · rw [hz]
    exact ⟨.inl rfl, .inl ⟨rfl, rfl⟩⟩
  · rw [hz] at hne
    exact (hne rfl).elim
  · rw [hk, page_div]
    rcases hb.own x with ho | ho | ho
    · rw [ho] at hx
      cases hx
    · rw [ho] at hx
      cases hx
    · rw [hx] at ho
      simp only [bootOwners, List.mem_append, List.mem_cons, List.mem_map, Owner.table.injEq,
        List.not_mem_nil, reduceCtorEq, and_false, exists_false, or_false] at ho
      rcases ho with (⟨rfl, _⟩ | ⟨rfl, _⟩ | ⟨rfl, _⟩ | ⟨rfl, _⟩ | ⟨rfl, _⟩ | ⟨rfl, _⟩ | ⟨rfl, _⟩ |
        ⟨rfl, _⟩) | ⟨_, _, rfl, _⟩ <;> exact .inr rfl
  · rw [hk, page_div, hpipes, hargv]
    refine ⟨hb.live, by rw [hpt]; exact h.leaf, by rw [hpt]; exact h.direct, fun i hi => ?_, hlen, hring,
      by simp, by simp, by simp, by simp⟩
    obtain ⟨x, hx, ho⟩ := h.kstack i hi
    exact ⟨x, by rw [hpt, hx], hheld x _ ho⟩
  · rcases hholder x o hx with ho | ⟨i, rfl, hi⟩
    · obtain ⟨i, hi, rfl⟩ := h.holder x o ho
      obtain ⟨y, hy, ho'⟩ := h.kstack i hi
      obtain rfl := h.booting.held ho ho'
      refine ⟨hi, ?_⟩
      rw [hk, page_div, hpt, hy]
      exact ppn_mkPte (h.booting.good.rep.page.lt44 (by rw [ho]; simp)) (by decide)
    · exact hi

def initFlags : Word := PTE_W ||| PTE_R ||| PTE_X ||| PTE_U ||| PTE_V

theorem initFlags_ok : UserFlags initFlags := ⟨by decide, by decide, by decide, by decide⟩

/-- The first page of an empty address space holds the program `src`. -/
theorem Good.uvmfirst (h : Good L s g S) (hr : r ∈ S) (h0 : g.pt r 0 = 0) (hfree : 3 < g.free.length)
    (hlen : src.length < PGSIZE) :
    Wp (uvmfirst (r * PGSIZE) src) NoError (fun _ s' => ∃ g' x, Good L s' g' S ∧
      Frame S {r} s s' g g' ∧ Uses 3 g g' ∧ g'.own x = .user ∧
      g'.pt r = Function.update (g.pt r) 0 (mkPte x initFlags) ∧
      s'.ram x = Page.setBytes (fun _ => 0) 0 src) s := by
  rw [PbsCow.uvmfirst]
  refine .ite_neg (by omega) ?_
  cases hf : g.free with
  | nil =>
    rw [hf] at hfree
    simp at hfree
  | cons x f =>
    have hxfree := h.rep.free_of_cons hf
    have hm := (h.rep.page.managed x).1 (by simp [hxfree])
    refine .bind_ok (kalloc_cons (hf ▸ h.rep.page.freeRep)) (.ite_neg (Nat.ne_of_gt hm.pos) ?_)
    rw [memset, page_div, repeatByte_zero, wp_bind, wp_modify]
    have ht := h.take hf fun _ => 0
    have hmap := ht.mapHeld (v := 0) (f := PTE_W ||| PTE_R ||| PTE_X ||| PTE_U) hr (by decide) h0
      g.take_own_self initFlags_ok
    rw [Nat.zero_mul] at hmap
    refine .bind hmap ?_
    rintro ret s' ⟨g', hg, hfr, hd, huse, ⟨rfl, hp, hx⟩ | ⟨rfl, _, hempty, _⟩⟩
    · simp only [memmoveIn, wp_modify, page_div, page_mod]
      have hsd := hd x (.inr ⟨_, g.take_own_self⟩)
      have hz : s'.ram x = fun _ => 0 := hsd.trans (Function.update_self _ _ _)
      have hfr' := hfr.of_take h.space hxfree (by simp [hx])
      have hlt := hg.rep.page.lt44 (x := x) (by simp [hx])
      have hpx : ppn (g'.pt r 0) = x := by
        rw [hp, Function.update_self]
        exact ppn_mkPte hlt initFlags_ok.lt
      have hw : (g'.pt r 0).getLsbD 2 = true := by
        rw [hp, Function.update_self]
        exact (getLsbD_mkPte x initFlags (by decide)).trans (by decide)
      refine ⟨g', x, hg.setPage (.inl hx), ⟨hfr'.pt, fun r' hr' hR v hv hne => ?_, fun y k hk hne => ?_,
        hfr'.holder, hfr'.tables⟩, ?_, hx, hp, ?_⟩
      · refine Eq.trans (Function.update_of_ne ?_ _ _) (hfr'.page r' hr' hR v hv hne)
        intro he
        have hrr : r' ≠ r := by simpa using hR
        have hpt := hfr'.pt r' hR
        have hmaps : Maps (g'.pt r' v) (ppn (g'.pt r 0)) := by
          rw [hpt, hpx]
          exact ⟨hne, he⟩
        exact hrr (hg.space.excl r hr 0 (by decide) hw r' hr' v hv hmaps).1
      · obtain ⟨h1, h2⟩ := hfr'.held y k hk hne
        refine ⟨h1, Eq.trans (Function.update_of_ne ?_ _ _) h2⟩
        rintro rfl
        rw [hx] at h1
        cases h1
      · simp only [Uses, Ghost.take_free, hf, List.length_cons] at huse ⊢
        omega
      · rw [hz]
        exact Function.update_self _ _ _
    · have hle : f.length ≤ 0 + 2 := by simpa [Uses, hempty] using huse
      rw [hf, List.length_cons] at hfree
      omega

/-- The system as `main` leaves it: only the first process `p` is there, in state `st`, with one
page. -/
structure Booted (L : Layout) (t : Sys) (p : Slot) (st : ProcState) (g : Ghost) (r x : Nat) :
    Prop where
  inv : SysInv L t g
  settled : Settled t
  init : t.initproc = some p
  alone : ∀ j, j ≠ p → (t.proc j).state = .UNUSED
  state : (t.proc p).state = st
  killed : (t.proc p).killed = false
  sz : (t.proc p).sz = PGSIZE
  root : (t.proc p).pagetable = r * PGSIZE
  mem : r ∈ t.roots
  pte : g.pt r 0 = mkPte x initFlags
  lt : x < 2 ^ 44
  page : t.mem.ram x = Page.setBytes (fun _ => 0) 0 initcode
  free : 876 ≤ g.free.length

theorem Booted.exists_unused {t : Sys} (h : Booted L t p st g r x) :
    ∃ i, i ≠ p ∧ (t.proc i).state = .UNUSED := by
  have : Nontrivial Slot := inferInstanceAs (Nontrivial (Fin 64))
  obtain ⟨i, hi⟩ := exists_ne p
  exact ⟨i, hi, h.alone i hi⟩

theorem SysInv.storeHeld {t : Sys} (h : SysInv L t g) (hx : g.own x = .held o) (hi : i < 512) :
    SysInv L { t with mem := t.mem.store (x * PGSIZE + 8 * i) w } g := by
  rw [Mem.store_slot _ x hi]
  exact h.setPage (.inr ⟨o, hx⟩)

theorem Mem.store_ram (s : Mem) (hi : i < 512) (hy : y ≠ x) :
    (s.store (x * PGSIZE + 8 * i) w).ram y = s.ram y := by
  rw [Mem.store_slot _ x hi]
  exact Function.update_of_ne hy _ _

theorem Idle.userinit {t : Sys} (h : Idle L t g) :
    Wp (userinit L) NoError (fun _ t' => ∃ p g' r x, Booted L t' p .RUNNABLE g' r x) t := by
  have hunused (i : Slot) : (t.proc i).state = .UNUSED ∧ Unused (t.proc i) := by
    rw [h.zero]
    exact ⟨rfl, rfl, rfl, rfl, rfl, rfl⟩
  have hlen := h.free
  rw [PbsCow.userinit]
  refine .bind (h.inv.allocproc fun i _ => (hunused i).2) ?_
  rintro (_ | p) t₁ hpost
  · obtain ⟨_, _, _, _, _, hfail | hfail⟩ := hpost
    · exact (hfail ⟨0, by decide⟩ (hunused _).1).elim
    · omega
  obtain ⟨_, g₁, h₁, ho₁, hfresh, huse₁, _, _, hk₁⟩ := hpost
  obtain ⟨r, y, hr, hpos, hmem, hs, hy, hown⟩ := hfresh.shape h₁
  simp only [wp_bind, wp_modify, wp_get, wp_onMem, hr, hy]
  have hlen₁ : g.free.length ≤ g₁.free.length + 6 := huse₁
  have h₂ : SysInv L ({ t₁ with initproc := some p } : Sys) g₁ :=
    h₁.sameMem ⟨rfl, fun _ => .refl _, ⟨rfl, rfl, rfl, rfl⟩⟩
  refine (h₂.good.uvmfirst hmem (hs.none 0 (Nat.le_refl 0) (by decide)) (by omega)
    (by decide)).mono ?_
  rintro _ s₃ ⟨g₃, x, hg₃, hfr, huse₃, hx, hp, hpage⟩
  have hlen₃ : g₁.free.length ≤ g₃.free.length + 3 := huse₃
  have hshape : Shape g₃ r (npages PGSIZE) := by
    have hn : npages PGSIZE = 1 := by decide
    rw [hn]
    refine ⟨fun w hw => ?_, fun w hw hw' => ?_, by decide⟩
    · obtain rfl : w = 0 := by omega
      rw [hp, Function.update_self]
      exact initFlags_ok.mkPte_ne_zero x
    · rw [hp, Function.update_of_ne (by omega)]
      exact hs.none w (Nat.zero_le w) hw'
  have h₃ := h₂.resize (p := p) (f := fun q => { q with sz := PGSIZE }) hr hmem hg₃ hfr.bare hshape
    (fun v hv => by rw [hp, Function.update_of_ne (by simp only [TFV] at hv; omega)]) rfl rfl
  have hown₃ := (hfr.held y _ hown (by simp)).1
  have hxy : x ≠ y := by
    rintro rfl
    rw [hx] at hown₃
    cases hown₃
  have e1 (z : Nat) : z + tfEpc = z + 8 * 3 := rfl
  have e2 (z : Nat) : z + tfSp = z + 8 * 6 := rfl
  have h₄ := (h₃.storeHeld (i := 3) (w := 0) hown₃ (by decide)).storeHeld (i := 6)
    (w := BitVec.ofNat 64 PGSIZE) hown₃ (by decide)
  have h₅ := h₄.sameMem (Sys.setProc_sameMem (i := p) _
    (f := fun q => { q with state := .RUNNABLE }) ⟨rfl, rfl, rfl⟩)
  simp only [wp_setProc, storeWord, wp_modify, e1, e2]
  generalize ht : Sys.setProc _ p (fun q => { q with state := .RUNNABLE }) = t₅ at h₅ ⊢
  have hself : t₅.proc p = { t₁.proc p with sz := PGSIZE, state := .RUNNABLE } := by
    rw [← ht, Sys.setProc_self]
    simp only [Sys.setProc, Function.update_self]
  have hother (j : Slot) (hj : j ≠ p) : t₅.proc j = .zero := by
    rw [← ht, Sys.setProc_of_ne _ hj]
    exact (Function.update_of_ne hj _ t₁.proc).trans ((ho₁.proc j hj).trans (h.zero j))
  have hpage₅ : t₅.mem.ram x = s₃.ram x := by
    rw [← ht]
    exact (Mem.store_ram _ (by decide) hxy).trans (Mem.store_ram _ (by decide) hxy)
  have hroot : (t₅.proc p).pagetable = r * PGSIZE := by rw [hself, ← hr]
  have hinit : t₅.initproc = some p := by rw [← ht]; rfl
  refine ⟨p, g₃, r, x, h₅, ⟨fun i hi => ?_, fun i hi => ?_, fun i hi => ?_⟩, hinit, fun j hj => ?_,
    by rw [hself], ?_, by rw [hself], hroot, t₅.root_mem hroot hpos, ?_,
    hg₃.rep.page.lt44 (by simp [hx]), hpage₅.trans hpage, by omega⟩
  · have hip : i ≠ p := by
      rintro rfl
      rw [hself] at hi
      cases hi
    rw [hother i hip, ← h.zero i]
    exact (hunused i).2
  · by_cases hip : i = p
    · rw [hip, hself]
      exact ⟨hfresh.pagetable, hfresh.trapframe⟩
    · rw [hother i hip] at hi
      exact (hi rfl).elim
  · by_cases hip : i = p
    · rw [hip, hself] at hi
      cases hi
    · rw [hother i hip] at hi
      cases hi
  · rw [hother j hj]
    rfl
  · rw [hself]
    show (t₁.proc p).killed = false
    rw [hk₁, h.zero]
    rfl
  · rw [hp, Function.update_self]

/-- The kernel boots, whatever RAM holds. -/
theorem boot_spec (L : Layout) (ram : Nat → Page) :
    Wp (boot L) NoError (fun _ t => ∃ p g r x, Booted L t p .RUNNABLE g r x) (Sys.start ram) := by
  rw [boot]
  simp only [wp_bind, wp_onMem]
  refine (kinit_good rfl).mono ?_
  rintro _ s₁ ⟨g₁, hg₁, hown⟩
  refine (kvmmake_spec hg₁ hown).mono ?_
  rintro _ s₂ ⟨k, g₂, rfl, _, h₂⟩
  simp only [wp_modify]
  refine h₂.virtioDiskInit.mono ?_
  rintro disk s₃ ⟨g₃, hb, hpt, hlen, hring, hheld, hholder⟩
  refine Idle.userinit (g := g₃) ?_
  exact h₂.idle hb hpt hlen hring hheld hholder (fun _ => rfl) rfl rfl rfl

theorem Booted.toInv {t : Sys} (h : Booted L t p st g r x) : Inv L t := ⟨h.settled, g, h.inv⟩

/-- Any run of a booted kernel keeps the invariant; nothing but the exit of the first process stops
it. -/
theorem boot_run (L : Layout) (ram : Nat → Page) (ops : List Op) :
    Wp (do boot L; run L ops) InitExiting (fun _ t => Inv L t) (Sys.start ram) := by
  refine .bind ((boot_spec L ram).weaken fun _ hf => hf.elim) ?_
  rintro _ t ⟨p, g, r, x, hb⟩
  exact (hb.toInv.run ops).mono fun _ _ h => h.1

theorem Reachable.inv {t : Sys} (h : Reachable L t) : Inv L t := by
  obtain ⟨ram, ops, outs, h⟩ := h
  exact (boot_run L ram ops).of_eq_ok h

end PbsCow
