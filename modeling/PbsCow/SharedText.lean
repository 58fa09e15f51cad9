import PbsCow.Isolation

namespace PbsCow
set_option autoImplicit true

/-- An ELF file with one segment, of one page of zeros that user code may read and execute. -/
def textFile : List Byte :=
  [0x7F, 0x45, 0x4C, 0x46] ++ List.replicate 28 0 ++ [64] ++ List.replicate 23 0 ++ [1] ++
    List.replicate 7 0 ++ [1, 0, 0, 0, 5, 0, 0, 0] ++ List.replicate 32 0 ++ [0, 0x10] ++
    List.replicate 14 0

def textFlags : Word := PTE_R ||| PTE_U ||| PTE_X ||| PTE_V

theorem textFlags_ok : UserFlags textFlags := ⟨by decide, by decide, by decide, by decide⟩

/-- The program header of `textFile`. -/
theorem textFile_proghdr : Proghdr.parse (readi textFile 64 proghdrSize) = ⟨1, 5, 0, 0, 0, 4096⟩ := by
  rw [Proghdr.parse, Proghdr.mk.injEq]
  decide +kernel

theorem textFile_proghdr_length : (readi textFile 64 proghdrSize).length = proghdrSize := by
  decide +kernel

theorem Good.loadText (h : Good L s g S) (hr : r ∈ S) (hs : Shape g r (npages 0))
    (hfree : 3 < g.free.length) (hn : n = 1) (hoff : off = 64) :
    Wp (loadSegments L (r * PGSIZE) textFile n off 0) NoError (fun res s' => res = (some (), PGSIZE) ∧
      ∃ g' y, Filled L S r 0 1 s s' g g' ∧ Uses 3 g g' ∧ y < 2 ^ 44 ∧ g'.pt r 0 = mkPte y textFlags) s := by
  have h0 : npages 0 = 0 := rfl
  have h1 : npages 4096 = 1 := rfl
  have hseg : loadseg (r * PGSIZE) 0 textFile 0 0 = pure 0 := rfl
  have hp : flags2perm 5 = PTE_X := by decide
  rw [hn, hoff, loadSegments]
  simp only [textFile_proghdr, textFile_proghdr_length, hp, ne_eq, not_true_eq_false, if_false]
  rw [if_neg (by decide), if_neg (by decide), if_neg (by decide)]
  refine .bind (h.uvmalloc hr hs textFlags_ok) ?_
  rintro ret s₁ ⟨g₁, hg₁, hfr₁, ⟨hret, huse, hs₁, hgr⟩ | ⟨_, _, hshort, _⟩⟩
  · have hret' : ret = PGSIZE := hret
    subst hret'
    refine .ite_neg (by decide) (.ite_neg (by decide) ?_)
    rw [hseg]
    refine wp_bind.2 (wp_pure.2 (.ite_neg (by decide) (wp_pure.2 ⟨rfl, g₁, ?_⟩)))
    obtain ⟨y, hy, he, _⟩ := hgr.new 0 (Nat.le_refl _) (by decide)
    exact ⟨y, .of_grown h hg₁ hfr₁ hs₁ (by decide) textFlags_ok (by decide) hgr, huse, hy, he⟩
  · exact absurd hshort (by rw [show 3 * (npages ((0 + 4096) % 2 ^ 64) - npages 0) = 3 from rfl]; omega)

theorem textFile_elfhdr : Elfhdr.parse (readi textFile 0 elfhdrSize) = ⟨ELF_MAGIC, 0, 64, 1⟩ := by
  rw [Elfhdr.parse, Elfhdr.mk.injEq]
  decide +kernel

theorem textFile_elfhdr_length : (readi textFile 0 elfhdrSize).length = elfhdrSize := by
  decide +kernel

theorem Good.fillText (h : Good L s g S) (hr : r ∈ S) (hs : Shape g r (npages 0)) (hh : HighOk g r)
    (hfree : 9 < g.free.length) (hargv : argv = []) (hn : elf.phnum = 1) (hoff : elf.phoff = 64) :
    Wp (fillImage L (r * PGSIZE) textFile elf argv) NoError (fun res s' => ∃ sp g' y,
      res = (some sp, 3 * PGSIZE) ∧ Filled L S r 0 3 s s' g g' ∧ Uses 9 g g' ∧ y < 2 ^ 44 ∧
        g'.pt r 0 = mkPte y textFlags) s := by
  rw [fillImage]
  refine .bind (h.loadText hr hs (by omega) hn (by simp [hoff])) ?_
  rintro ⟨ok, sz⟩ s₁ ⟨heq, g₁, y, hf₁, hu₁, hy, he₁⟩
  obtain ⟨rfl, rfl⟩ := Prod.mk.injEq .. ▸ heq
  have h1 : npages PGSIZE = 1 := rfl
  refine .ite_neg (by simp) ?_
  refine (hf₁.good.addStack_spec hr (by rw [h1]; exact hf₁.shape)
    (hh.congr hf₁.high)).mono ?_
  rintro ⟨sp, sz⟩ s₂ ⟨g₂, hf₂, hres⟩
  simp only [Uses, h1] at hu₁ hres hf₂ ⊢
  rcases hres hargv with ⟨_, hshort⟩ | ⟨hsp, rfl, hu₂⟩
  · omega
  obtain ⟨sp, rfl⟩ := Option.ne_none_iff_exists'.1 hsp
  rw [npages_page] at hf₂
  refine ⟨sp, g₂, y, rfl, hf₁.trans hf₂, by omega, hy, ?_⟩
  rw [hf₂.old 0 (by decide) (by rw [he₁, getLsbD_mkPte _ _ (by decide)]; decide), he₁]

/-- `exec` of `textFile` without arguments gets an image if there is memory for it. -/
theorem Good.buildText (h : Good L s g S) (hlt : tf < 2 ^ 44) (hpos : 0 < tf * PGSIZE)
    (hfree : 14 < g.free.length) (hip : ip = textFile) (hargv : argv = []) :
    Wp (buildImage L (tf * PGSIZE) ip argv) NoError (fun res s' => ∃ im r g' y,
      res = some im ∧ im.sz = 3 * PGSIZE ∧ im.pagetable = r * PGSIZE ∧ 0 < r * PGSIZE ∧
        g.own r = .free ∧ Good L s' g' (insert r S) ∧ Bare S {r} s s' g g' ∧ Shape g' r 3 ∧
        High L g' r tf ∧ Uses 14 g g' ∧ y < 2 ^ 44 ∧ g'.pt r 0 = mkPte y textFlags) s := by
  rw [buildImage, hip]
  simp only [textFile_elfhdr_length, textFile_elfhdr, ne_eq, not_true_eq_false, if_false]
  generalize helf : (⟨ELF_MAGIC, 0, 64, 1⟩ : Elfhdr) = elf
  refine .bind h.procPagetable ?_
  rintro ret s₁ (⟨_, hshort, _⟩ | ⟨r, g₁, rfl, hr, hcr, hs, hh, hu₁⟩)
  · omega
  refine .ite_neg (Nat.ne_of_gt hr) ?_
  simp only [Uses] at hu₁
  refine .bind (hcr.good.fillText (Finset.mem_insert_self r S) hs (hh.highOk hlt hpos) (by omega) hargv
    (by rw [← helf]) (by rw [← helf])) ?_
  rintro _ s₂ ⟨sp, g₂, y, rfl, hf₂, hu₂, hy, he₂⟩
  simp only [Uses] at hu₂ ⊢
  exact wp_pure.2 ⟨_, r, g₂, y, rfl, rfl, rfl, hr, hcr.fresh, hf₂.good,
    hcr.frame.bare.trans hf₂.bare.resize, hf₂.shape, hh.congr hf₂.high, by omega, hy, he₂⟩

/-- Process `p` runs `textFile`: its first page is read-only and it has two more. -/
structure RunsText (L : Layout) (p : Slot) (k : Nat) (t : Sys) (g : Ghost) (r y : Nat) : Prop where
  inv : SysInv L t g
  settled : Settled t
  state : (t.proc p).state = .RUNNING
  killed : (t.proc p).killed = false
  sz : (t.proc p).sz = 3 * PGSIZE
  root : (t.proc p).pagetable = r * PGSIZE
  lt : y < 2 ^ 44
  pte : g.pt r 0 = mkPte y textFlags
  free : k ≤ g.free.length

theorem SysInv.execText {t : Sys} {p : Slot} (h : SysInv L t g) (hst : Settled t)
    (hp : (t.proc p).state = .RUNNING) (hk : (t.proc p).killed = false)
    (hfree : k + 15 ≤ g.free.length) (hip : ip = textFile) (hargv : argv = []) :
    Wp (exec L p (some ip) argv) NoError (fun ret t' => ret = 0 ∧
      (∀ j, j ≠ p → t'.proc j = t.proc j) ∧ ∃ g' r y, RunsText L p k t' g' r y) t := by
  have hne : (t.proc p).state ≠ .UNUSED := by
    rw [hp]
    simp
  rcases (h.slot p).trapframe with hz | ⟨x, hx, hown⟩
  · exact ((hst.used p hne).2 hz).elim
  have hlt := h.good.rep.page.lt44 (x := x) (by simp [hown])
  have hpos := h.good.rep.page.pos (x := x) (by simp [hown])
  rw [PbsCow.exec, wp_bind, wp_get]
  simp only [hx]
  rw [wp_bind, wp_onMem]
  refine (h.good.buildText hlt hpos (by omega) hip hargv).mono ?_
  rintro _ s₁ ⟨im, r, g₁, y, rfl, hsz, him, hr, hfresh, hg₁, hb₁, hs₁, hh₁, hu₁, hy, he₁⟩
  refine (h.commitImage hst hne him hr hfresh hg₁ hb₁ (by rw [hsz]; exact hs₁) hx hh₁ argv.length).mono ?_
  rintro ret t' ⟨rfl, g', hc⟩
  have hproc : t'.proc p = { t.proc p with pagetable := im.pagetable, sz := im.sz } := by
    rw [hc.proc, Sys.setProc_self]
  refine ⟨by rw [hargv]; rfl, fun j hj => by rw [hc.proc, Sys.setProc_of_ne _ hj], g', r, y, hc.inv,
    hc.settled, ?_, ?_, ?_, ?_, hy, ?_, ?_⟩
  · rw [hproc]
    exact hp
  · rw [hproc]
    exact hk
  · rw [hproc]
    exact hsz
  · rw [hproc]
    exact him
  · rw [hc.pt, he₁]
  · have hle := hc.free
    simp only [Uses] at hu₁
    omega

/-- Bytes copied in from one page. -/
theorem Good.copyin_page (h : Good L s g S) (hr : r ∈ S) (hv : srcva / PGSIZE < TFV)
    (ha : Accessible (g.pt r (srcva / PGSIZE))) (hlen : 0 < len)
    (hfit : srcva % PGSIZE + len ≤ PGSIZE) :
    Wp (copyin (r * PGSIZE) srcva len) NoError (fun res s' => s = s' ∧
      res = (0, (s.ram (ppn (g.pt r (srcva / PGSIZE)))).bytes (srcva % PGSIZE) len)) s := by
  obtain ⟨k, rfl⟩ := Nat.exists_eq_succ_of_ne_zero (Nat.ne_of_gt hlen)
  have hoff : srcva - srcva / PGSIZE * PGSIZE = srcva % PGSIZE := by
    rw [Nat.mul_comm, Nat.mod_eq_sub_mul_div]
  have hmin : min (PGSIZE - srcva % PGSIZE) (k + 1) = k + 1 := Nat.min_eq_right (by omega)
  rw [copyin, copyinLoop]
  refine .ite_neg (by omega) ?_
  simp only [PGROUNDDOWN, hoff, hmin, Nat.sub_self]
  refine .bind (h.walkaddr hr) ?_
  rintro pa _ ⟨rfl, ⟨_, _, rfl⟩ | ⟨rfl, hna⟩⟩
  · refine .ite_neg (h.pos hr hv ha.ne_zero) ?_
    rw [wp_bind, wp_get]
    simp only [PTE2PA_eq, page_div, List.nil_append]
    cases k with
    | zero => exact wp_pure.2 ⟨rfl, rfl⟩
    | succ k => exact .ite_pos rfl (wp_pure.2 ⟨rfl, rfl⟩)
  · exact (hna ⟨Nat.lt_trans hv (by decide), ha⟩).elim

/-- A string that ends in the page in which it starts. -/
theorem Good.copyinstr_page (h : Good L s g S) (hr : r ∈ S) (hv : srcva / PGSIZE < TFV)
    (ha : Accessible (g.pt r (srcva / PGSIZE))) (hmax : 0 < len)
    (hnull : ((s.ram (ppn (g.pt r (srcva / PGSIZE)))).bytes (srcva % PGSIZE)
      (min (PGSIZE - srcva % PGSIZE) len)).contains 0 = true) :
    Wp (copyinstr (r * PGSIZE) srcva len) NoError (fun res s' => s = s' ∧ res.1 = 0) s := by
  obtain ⟨k, rfl⟩ := Nat.exists_eq_succ_of_ne_zero (Nat.ne_of_gt hmax)
  have hoff : srcva - srcva / PGSIZE * PGSIZE = srcva % PGSIZE := by
    rw [Nat.mul_comm, Nat.mod_eq_sub_mul_div]
  rw [copyinstr, copyinstrLoop]
  refine .ite_neg (by omega) ?_
  simp only [PGROUNDDOWN, hoff]
  refine .bind (h.walkaddr hr) ?_
  rintro pa _ ⟨rfl, ⟨_, _, rfl⟩ | ⟨rfl, hna⟩⟩
  · refine .ite_neg (h.pos hr hv ha.ne_zero) ?_
    rw [wp_bind, wp_get]
    simp only [PTE2PA_eq, page_div]
    exact .ite_pos hnull (wp_pure.2 ⟨rfl, rfl⟩)
  · exact (hna ⟨Nat.lt_trans hv (by decide), ha⟩).elim

/-- The page of the first process, before it has run. -/
def initPage : Page := Page.setBytes (fun _ => 0) 0 initcode

/-- Process `p` is about to `exec`; page `x` is its only one. -/
structure RunsInit (L : Layout) (p : Slot) (t : Sys) (g : Ghost) (r x : Nat) : Prop where
  inv : SysInv L t g
  settled : Settled t
  state : (t.proc p).state = .RUNNING
  killed : (t.proc p).killed = false
  sz : (t.proc p).sz = PGSIZE
  root : (t.proc p).pagetable = r * PGSIZE
  mem : r ∈ t.roots
  pte : g.pt r 0 = mkPte x initFlags
  page : t.mem.ram x = initPage
  lt : x < 2 ^ 44

theorem RunsInit.accessible (h : RunsInit L p t g r x) : Accessible (g.pt r 0) := by
  rw [h.pte]
  exact initFlags_ok.accessible (by decide) x

theorem RunsInit.ppn (h : RunsInit L p t g r x) : PbsCow.ppn (g.pt r 0) = x := by
  rw [h.pte, ppn_mkPte h.lt (by decide)]

/-- The path that `initcode` passes to `exec`, at address 36. -/
theorem RunsInit.fetchPath {t : Sys} (h : RunsInit L p t g r x) (ha : addr = 36) (hl : len = 128) :
    Wp (onMem (copyinstr (t.proc p).pagetable addr len)) NoError
      (fun res t' => t = t' ∧ res.1 = 0) t := by
  have hd : addr / PGSIZE = 0 := by rw [ha]; decide
  have hm : addr % PGSIZE = 36 := by rw [ha]; decide
  rw [wp_onMem, h.root]
  refine (h.inv.good.copyinstr_page h.mem (by rw [hd]; decide) (by rw [hd]; exact h.accessible)
    (by omega) ?_).mono ?_
  · rw [hd, h.ppn, h.page, hm, hl]
    decide +kernel
  · rintro res _ ⟨rfl, hres⟩
    exact ⟨rfl, hres⟩

/-- Address 64 holds a null pointer. -/
theorem RunsInit.fetchNull {t : Sys} (h : RunsInit L p t g r x) (ha : addr = 64) :
    Wp (fetchaddr p addr) NoError (fun res t' => t = t' ∧ res = some 0) t := by
  have hd : addr / PGSIZE = 0 := by rw [ha]; decide
  have hm : addr % PGSIZE = 64 := by rw [ha]; decide
  rw [fetchaddr, wp_bind, wp_get]
  refine .ite_neg (by rw [h.sz, ha]; decide) ?_
  rw [wp_bind, wp_onMem, h.root]
  refine (h.inv.good.copyin_page h.mem (by rw [hd]; decide) (by rw [hd]; exact h.accessible)
    (by decide) (by rw [hm]; decide)).mono ?_
  rintro _ _ ⟨rfl, rfl⟩
  rw [hd, h.ppn, h.page, hm]
  refine .ite_neg (by simp) (wp_pure.2 ⟨rfl, ?_⟩)
  decide +kernel

theorem RunsInit.fetchNoArgs {t : Sys} (h : RunsInit L p t g r x) (ha : uargv = 64) (hn : 0 < n) :
    Wp (fetchArgs p uargv n 0 []) NoError (fun res t' => t = t' ∧ res = some []) t := by
  obtain ⟨k, rfl⟩ := Nat.exists_eq_succ_of_ne_zero (Nat.ne_of_gt hn)
  rw [fetchArgs]
  refine .bind (h.fetchNull (by simp [ha])) ?_
  rintro _ _ ⟨rfl, rfl⟩
  exact .ite_pos rfl (wp_pure.2 ⟨rfl, rfl⟩)

theorem RunsText.freeArgs {t : Sys} (h : RunsText L p k t g r y) :
    Wp (freeArgs L) NoError (fun _ t' => t'.proc = t.proc ∧ ∃ g', RunsText L p k t' g' r y) t := by
  simp only [PbsCow.freeArgs, wp_bind, wp_get, wp_modify, wp_onMem]
  refine h.inv.kfreeAll.mono ?_
  rintro _ s' ⟨g', h', hp, hle⟩
  exact ⟨trivial, g', h', h.settled.congr rfl, h.state, h.killed, h.sz, h.root, h.lt, by rw [hp, h.pte],
    h.free.trans hle⟩

theorem RunsInit.sysExec {t : Sys} (h : RunsInit L p t g r x) (hfree : k + 15 ≤ g.free.length)
    (ha : path = 36) (hu : uargv = 64) (hf : ∀ name, namei name = some textFile) :
    Wp (sysExec L namei p path uargv) NoError (fun ret t' => ret = 0 ∧
      (∀ j, j ≠ p → t'.proc j = t.proc j) ∧ ∃ g' r' y, RunsText L p k t' g' r' y) t := by
  rw [PbsCow.sysExec, wp_bind, wp_get]
  generalize hl : MAXPATH = len
  generalize hn : MAXARG = n
  have hpos : 0 < n := by
    rw [← hn]
    decide
  refine .bind (h.fetchPath ha hl.symm) ?_
  rintro ⟨ret, name⟩ _ ⟨rfl, hret⟩
  refine .ite_neg (by rw [show ret = 0 from hret]; decide) (.bind (h.fetchNoArgs hu hpos) ?_)
  rintro (_ | argv) _ ⟨rfl, hargv⟩
  · cases hargv
  rw [hf]
  generalize hip : textFile = ip
  refine .bind (h.inv.execText h.settled h.state h.killed hfree hip.symm (Option.some.inj hargv)) ?_
  rintro _ t₁ ⟨rfl, ho, g₁, r₁, y, h₁⟩
  refine .bind h₁.freeArgs ?_
  rintro _ t₂ ⟨hp₂, g₂, h₂⟩
  exact wp_pure.2 ⟨rfl, fun j hj => by rw [hp₂, ho j hj], g₂, r₁, y, h₂⟩

/-- Writing to a trapframe does not touch a page that a process maps. -/
theorem Touched.ram {t t' : Sys} {p : Slot} (h : Touched L t t') (hg : SysInv L t g)
    (hp : (t.proc p).state ≠ .UNUSED) (hr : (t.proc p).pagetable = r * PGSIZE) (hm : r ∈ t.roots)
    (hv : v < TFV) (hne : g.pt r v ≠ 0) : t'.mem.ram (ppn (g.pt r v)) = t.mem.ram (ppn (g.pt r v)) := by
  have hroots : t'.roots = t.roots := Sys.roots_congr fun i => by rw [h.proc]
  have hview := congrFun (h.view p (by rwa [h.proc])).2.2 v
  rw [Sys.pages, Sys.pages, h.proc, hr, hg.good.pages_some hm hv hne,
    (h.inv g hg).good.pages_some (by rwa [hroots]) hv hne, Option.some.injEq, UPage.mk.injEq] at hview
  exact hview.2

theorem RunsInit.touched {t t' : Sys} (h : RunsInit L p t g r x) (ht : Touched L t t') :
    RunsInit L p t' g r x := by
  have hroots : t'.roots = t.roots := Sys.roots_congr fun i => by rw [ht.proc]
  have hram := ht.ram h.inv (by rw [h.state]; simp) h.root h.mem (by decide : 0 < TFV)
    h.accessible.ne_zero
  rw [h.ppn] at hram
  exact ⟨ht.inv g h.inv, h.settled.congr ht.proc, by rw [ht.proc, h.state], by rw [ht.proc, h.killed],
    by rw [ht.proc, h.sz], by rw [ht.proc, h.root], by rw [hroots]; exact h.mem, h.pte,
    hram.trans h.page, h.lt⟩

theorem RunsText.touched {t t' : Sys} (h : RunsText L p k t g r y) (ht : Touched L t t') :
    RunsText L p k t' g r y :=
  ⟨ht.inv g h.inv, h.settled.congr ht.proc, by rw [ht.proc, h.state], by rw [ht.proc, h.killed],
    by rw [ht.proc, h.sz], by rw [ht.proc, h.root], h.lt, h.pte, h.free⟩

theorem Touched.pteAt {t t' : Sys} {p : Slot} (h : Touched L t t') (hg : ∃ g, SysInv L t g)
    (hp : (t.proc p).pagetable ≠ 0) (hv : v < MAXV) :
    t'.pteAt (t'.proc p).pagetable v = t.pteAt (t.proc p).pagetable v := by
  obtain ⟨g, hg⟩ := hg
  obtain ⟨r, hr, hm, _⟩ := hg.highOk hp
  have hroots : t'.roots = t.roots := Sys.roots_congr fun i => by rw [h.proc]
  rw [Sys.pteAt, Sys.pteAt, h.proc, hr, hg.pte hm hv, (h.inv g hg).pte (by rwa [hroots]) hv]

/-- A system call that returns to a process that nobody has killed. -/
theorem Inv.usertrap_syscall {t : Sys} {p : Slot} {c : Syscall} (h : Inv L t)
    (hp : (t.proc p).state = .RUNNING) (hk : (t.proc p).killed = false)
    (hc : ∀ t₁, Touched L t t₁ → Wp (PbsCow.syscall L p c) E (fun r t₂ => r ≠ .stopped ∧ Inv L t₂ ∧
      (t₂.proc p).state = .RUNNING ∧ (t₂.proc p).killed = false ∧ ∀ t', Touched L t₂ t' → Q r t') t₁)
    (regs : Regs) : Wp (PbsCow.usertrap L p regs (.syscall c)) E Q t := by
  have hne : (t.proc p).state ≠ .UNUSED := by
    rw [hp]
    simp
  have e2 (x : Nat) : x + tfEpc = x + 8 * 3 := rfl
  rw [PbsCow.usertrap.eq_def]
  refine .bind ((h.uservec hne regs).weaken fun _ hf => hf.elim) ?_
  rintro _ t₁ ⟨ht₁, _⟩
  have h₁ := ht₁.toInv h
  dsimp only
  rw [PbsCow.exitIfKilled, wp_bind, wp_get]
  refine .ite_neg (by rw [ht₁.proc, hk]; simp) ?_
  rw [wp_bind, wp_get]
  simp only [e2]
  refine .bind ((h₁.storeTrapframe (by rwa [ht₁.proc]) (by decide) _).weaken fun _ hf => hf.elim) ?_
  rintro _ t₂ ⟨ht₂, _⟩
  refine .bind (hc t₂ (ht₁.trans ht₂)) ?_
  rintro r t₃ ⟨hr, h₃, hp₃, hk₃, hQ⟩
  refine .ite_neg hr (.bind ((h₃.setReturn (p := p) (by rw [hp₃]; simp) r).weaken fun _ hf => hf.elim) ?_)
  intro _ t₄ ht₄
  rw [PbsCow.exitIfKilled, wp_bind, wp_get]
  exact .ite_neg (by rw [ht₄.proc, hk₃]; simp) (wp_pure.2 (hQ t₄ ht₄))

/-- The trap in which the first process executes `textFile`. -/
theorem RunsInit.usertrap {t : Sys} (h : RunsInit L p t g r x) (hfree : k + 15 ≤ g.free.length)
    (ha : path = 36) (hu : uargv = 64) (hf : ∀ name, namei name = some textFile) (regs : Regs) :
    Wp (usertrap L p regs (.syscall (.exec namei path uargv))) NoError (fun ret t' => ret = .value 0 ∧
      (∀ j, j ≠ p → t'.proc j = t.proc j) ∧ ∃ g' r' y, RunsText L p k t' g' r' y) t := by
  refine Inv.usertrap_syscall ⟨h.settled, g, h.inv⟩ h.state h.killed (fun t₁ ht₁ => ?_) regs
  rw [syscall]
  refine .bind ((h.touched ht₁).sysExec hfree ha hu hf) ?_
  rintro _ t₂ ⟨rfl, ho₂, g₂, r₂, y, h₂⟩
  refine wp_pure.2 ⟨by simp, ⟨h₂.settled, g₂, h₂.inv⟩, h₂.state, h₂.killed, fun t' ht' => ?_⟩
  refine ⟨rfl, fun j hj => ?_, g₂, r₂, y, h₂.touched ht'⟩
  rw [ht'.proc, ho₂ j hj, ht₁.proc]

/-- The trap in which it forks. -/
theorem RunsText.usertrap {t : Sys} (h : RunsText L p 13 t g r y) (hq : (t.proc q).state = .UNUSED)
    (regs : Regs) :
    Wp (usertrap L p regs (.syscall .fork)) NoError (fun ret t' => ∃ np, ret = .child np ∧ np ≠ p ∧
      (t'.proc p).state = .RUNNING ∧ (t'.proc np).state = .RUNNABLE ∧ Inv L t' ∧
      t'.SharedReadOnly p np 0) t := by
  have hne : (t.proc p).state ≠ .UNUSED := by
    rw [h.state]
    simp
  refine Inv.usertrap_syscall ⟨h.settled, g, h.inv⟩ h.state h.killed (fun t₁ ht₁ => ?_) regs
  have h₁ := h.touched ht₁
  rw [syscall]
  refine .bind (h₁.inv.fork h₁.settled (by rw [ht₁.proc]; exact hne)) ?_
  rintro (_ | np) t₂ hpost
  · rcases NotForked.reason hpost with hfull | hshort
    · exact (hfull q (by rw [ht₁.proc, hq])).elim
    · have hfree := h₁.free
      rw [h₁.sz, npages_page] at hshort
      omega
  have hf : Forked L p np t₁ g t₂ := hpost
  have hpn : p ≠ np := by
    rintro rfl
    exact absurd hf.unused (by rw [h₁.state]; simp)
  have hproc := hf.others.proc p hpn
  have hi := hf.toInv h₁.settled
  refine wp_pure.2 ⟨by simp, hi, by rw [hproc, h₁.state], by rw [hproc, h₁.killed], fun t' ht' => ?_⟩
  refine ⟨np, rfl, hpn.symm, by rw [ht'.proc, hproc, h₁.state], by rw [ht'.proc, hf.state],
    ht'.toInv hi, ?_⟩
  have hp0 : (t₁.proc p).pagetable ≠ 0 := (h₁.settled.used p (by rw [h₁.state]; simp)).1
  obtain ⟨r', hr', hm', _⟩ := h₁.inv.highOk hp0
  obtain rfl := page_inj (hr'.symm.trans h₁.root)
  have hold : t₁.mem.pte (t₁.proc p).pagetable (0 * PGSIZE) = mkPte y textFlags := by
    rw [h₁.root, h₁.inv.pte hm' (by decide), h₁.pte]
  have hcow : cowPte (mkPte y textFlags) = mkPte y textFlags :=
    (textFlags_ok.leaf h₁.lt).cow_of_not_W (by rw [getLsbD_mkPte _ _ (by decide)]; decide)
  obtain ⟨he, he'⟩ := hf.ptes 0 (by rw [h₁.sz, npages_page]; decide)
  rw [hold, hcow] at he he'
  have hpar : t'.pteAt (t'.proc p).pagetable 0 = mkPte y textFlags := by
    rw [ht'.pteAt hi.sys (by rw [hproc]; exact hp0) (by decide), Sys.pteAt, hproc, he]
  have hkid : t'.pteAt (t'.proc np).pagetable 0 = mkPte y textFlags := by
    rw [ht'.pteAt hi.sys hf.pagetable (by decide), Sys.pteAt, he']
  have hbit {i : Nat} (hi : i < 10) := getLsbD_mkPte y textFlags hi
  rw [Sys.SharedReadOnly, hpar]
  refine ⟨by decide, ?_, 0, by decide, ?_, by rw [hkid]⟩
  · rw [ReadOnly, Accessible, flag_V, flag_U, flag_W, flag_COW, hbit (by decide), hbit (by decide),
      hbit (by decide), hbit (by decide)]
    decide
  · rw [hkid, Readable, flag_V, flag_U, flag_R, hbit (by decide), hbit (by decide), hbit (by decide)]
    decide

theorem run_trap {t : Sys} {p : Slot} (hp : (t.proc p).state = .RUNNING)
    (h : Wp (usertrap L p regs cause) NoError Q t) :
    ∃ r t', run L [.trap p regs cause] t = .ok ([.reply r], t') ∧ Q r t' := by
  obtain ⟨r, t', hr, hq⟩ := h.exists_ok
  refine ⟨r, t', ?_, hq⟩
  have hstep : step L (.trap p regs cause) t = .ok (.reply r, t') := by
    simp only [step, whenState, get, getThe, MonadStateOf.get, StateT.get, bind, StateT.bind,
      Except.bind, pure, Except.pure, hp, if_true, hr]
    rfl
  simp only [run, bind, StateT.bind, hstep, Except.bind]
  rfl

theorem Booted.runsInit {t : Sys} (h : Booted L t p .RUNNING g r x) : RunsInit L p t g r x :=
  ⟨h.inv, h.settled, h.state, h.killed, h.sz, h.root, h.mem, h.pte, h.page, h.lt⟩

/-- The first process executes a file with a read-only segment, and forks. -/
def textOps (p : Slot) : List Op :=
  [.dispatch p, .trap p ⟨0, 0⟩ (.syscall (.exec (fun _ => some textFile) 36 64)),
    .trap p ⟨0, 0⟩ (.syscall .fork)]

theorem run_textOps (L : Layout) (ram : Nat → Page) :
    ∃ t p q, (do boot L; run L (textOps p)) (Sys.start ram) =
        .ok ([.done, .reply (.value 0), .reply (.child q)], t) ∧ Reachable L t ∧ q ≠ p ∧
      (t.proc p).state = .RUNNING ∧ (t.proc q).state = .RUNNABLE ∧ t.SharedReadOnly p q 0 := by
  obtain ⟨_, t, ht, p, g, r, x, hb⟩ := (boot_spec L ram).exists_ok
  obtain ⟨t₁, hrun₁, hb₁⟩ := hb.dispatch
  have hlen := hb₁.free
  obtain ⟨_, t₂, hrun₂, rfl, ho₂, g₂, r₂, y, h₂⟩ := run_trap hb₁.state
    (hb₁.runsInit.usertrap (k := 13) (by omega) rfl rfl (fun _ => rfl) ⟨0, 0⟩)
  obtain ⟨i, hi, _⟩ := hb.exists_unused
  obtain ⟨_, t₃, hrun₃, q, rfl, hqp, hp₃, hq₃, _, hs⟩ := run_trap h₂.state
    (h₂.usertrap (q := i) (by rw [ho₂ i hi, hb₁.alone i hi]) ⟨0, 0⟩)
  have hall : (do boot L; run L (textOps p)) (Sys.start ram) =
      .ok ([.done, .reply (.value 0), .reply (.child q)], t₃) := by
    simp only [bind, StateT.bind, ht, Except.bind]
    exact run_append hrun₁ (run_append hrun₂ hrun₃)
  exact ⟨t₃, p, q, hall, ⟨ram, _, _, hall⟩, hqp, hp₃, hq₃, hs⟩

/-- The kernel writes one byte to the parent's text, and the child reads it. -/
theorem copyout_text_not_isolated :
    ∃ t p q b, (do boot imageLayout; run imageLayout (textOps p)) (Sys.start fun _ _ => 0) =
        .ok ([.done, .reply (.value 0), .reply (.child q)], t) ∧ p ≠ q ∧
      (t.proc p).state = .RUNNING ∧ (t.proc q).state = .RUNNABLE ∧
      ¬ Isolated imageLayout t p q 0 [b] := by
  obtain ⟨t, p, q, ht, hreach, hqp, hp, hq, hs⟩ := run_textOps imageLayout fun _ _ => 0
  have hi := hreach.inv
  obtain ⟨g, hg⟩ := hi.sys
  obtain ⟨b, hb⟩ := hg.not_isolated (hi.settled.used p (by rw [hp]; simp)).1
    (hi.settled.used q (by rw [hq]; simp)).1 hs
  exact ⟨t, p, q, b, ht, hqp.symm, hp, hq, by simpa using hb⟩

theorem copyout_isolated_iff_text :
    ∃ t p q, (do boot imageLayout; run imageLayout (textOps p)) (Sys.start fun _ _ => 0) =
        .ok ([.done, .reply (.value 0), .reply (.child q)], t) ∧
      ((∀ dstva src, Isolated imageLayout t p q dstva src) ↔ ∀ v, ¬ t.SharedReadOnly p q v) ∧
      ∀ dstva src, (∀ v, InRange dstva src.length v → ¬ t.SharedReadOnly p q v) →
        Isolated imageLayout t p q dstva src := by
  obtain ⟨t, p, q, ht, hreach, hqp, hp, hq, _⟩ := run_textOps imageLayout fun _ _ => 0
  exact ⟨t, p, q, ht, copyout_isolated_iff hreach hqp.symm (by rw [hp]; simp) (by rw [hq]; simp)⟩

end PbsCow
