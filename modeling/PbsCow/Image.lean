import PbsCow.Exec
import PbsCow.Slots

namespace PbsCow
set_option autoImplicit true

theorem mkPte_clear_U (x : Nat) (f : Word) : mkPte x f &&& ~~~PTE_U = mkPte x (f &&& ~~~PTE_U) := by
  have hm : ∀ i : Fin 64, (~~~PTE_U).getLsbD i.1 = (i.1 != 4) := by decide
  apply BitVec.eq_of_getLsbD_eq
  intro i hi
  simp only [mkPte, PA2PTE, BitVec.getLsbD_and, BitVec.getLsbD_or, BitVec.getLsbD_shiftLeft,
    hm ⟨i, hi⟩]
  by_cases h4 : i = 4
  · simp [h4]
  · rw [bne_iff_ne.2 h4, Bool.and_true, Bool.and_true]

theorem UserFlags.clear_U (h : UserFlags f) : UserFlags (f &&& ~~~PTE_U) := by
  have hb (i : Nat) (hi : (~~~PTE_U).getLsbD i = true) :
      (f &&& ~~~PTE_U).getLsbD i = f.getLsbD i := by
    rw [BitVec.getLsbD_and, hi, Bool.and_true]
  refine ⟨toNat_and_lt h.lt, ?_, ?_, ?_⟩
  · rw [hb 0 (by decide), h.valid]
  · rw [hb 1 (by decide), h.readable]
  · rw [hb 2 (by decide), hb 8 (by decide)]
    exact h.exclusive

/-- `uvmclear` takes a page away from user code. -/
theorem Good.uvmclear (h : Good L s g S) (hr : r ∈ S) (hv : v < TFV) (hne : g.pt r v ≠ 0) :
    Wp (uvmclear (r * PGSIZE) (v * PGSIZE)) NoError (fun _ s' => ∃ g', Good L s' g' S ∧
      Frame S {r} s s' g g' ∧ g'.pt r v ≠ 0 ∧
      g'.pt r = Function.update (g.pt r) v (g.pt r v &&& ~~~PTE_U) ∧ g'.free = g.free) s := by
  have hleaf := h.space.leaf r hr v hv hne
  rw [PbsCow.uvmclear]
  refine .bind (h.rep.walk_false (h.space.live r hr) (va_lt (Nat.lt_trans hv (by decide)))) ?_
  rw [page_div]
  rintro a _ ⟨rfl, ha⟩
  obtain ⟨q, hq, rfl⟩ := h.rep.slot_of_ne_zero hne ha
  refine .ite_neg (h.rep.slot_ne_zero hq) ?_
  simp only [loadWord, storeWord, wp_bind, wp_get, wp_pure, wp_modify, h.rep.load_pte hq]
  have he : g.pt r v &&& ~~~PTE_U = mkPte (ppn (g.pt r v)) (PTE_FLAGS (g.pt r v) &&& ~~~PTE_U) := by
    conv_lhs => rw [hleaf.eq, mkPte_clear_U]
  rw [he]
  refine ⟨_, h.reflag hr hv hne hq hleaf.flags.clear_U fun hw => ?_,
    (Grow.setPte (V := fun _ => True) hq _).frame h.space, ?_, Ghost.setPte_pt_same g, rfl⟩
  · rw [BitVec.getLsbD_and, getLsbD_PTE_FLAGS _ (by decide)] at hw
    exact (Bool.and_eq_true_iff.1 hw).1
  · rw [Ghost.setPte_pt_self]
    exact hleaf.flags.clear_U.mkPte_ne_zero _

/-- The user pages of the address space `r` are mapped by no other, and none of them is COW. -/
def Apart (g : Ghost) (S : Finset Nat) (r : Nat) : Prop :=
  ∀ w, w < TFV → g.pt r w ≠ 0 → (g.pt r w).getLsbD 8 = false ∧
    ∀ r' ∈ S, r' ≠ r → ∀ v, v < TFV → ¬ Maps (g.pt r' v) (ppn (g.pt r w))

/-- The contents of the other address spaces have not changed. -/
def KeepsOthers (g : Ghost) (S : Finset Nat) (r : Nat) (s s' : Mem) : Prop :=
  ∀ r' ∈ S, r' ≠ r → ∀ v, v < TFV → g.pt r' v ≠ 0 → s'.ram (ppn (g.pt r' v)) = s.ram (ppn (g.pt r' v))

/-- The address space `r`, of `n` pages, has been extended to `n'` pages; nothing else that the
kernel keeps track of has changed. -/
structure Filled (L : Layout) (S : Finset Nat) (r n n' : Nat) (s s' : Mem) (g g' : Ghost) : Prop where
  good : Good L s' g' S
  bare : Bare S {r} s s' g g'
  le : n ≤ n'
  shape : Shape g' r n'
  high : ∀ v, TFV ≤ v → g'.pt r v = g.pt r v
  old : ∀ v, v < n → (g.pt r v).getLsbD 8 = false → g'.pt r v = g.pt r v
  apart : Apart g S r → Apart g' S r ∧ KeepsOthers g S r s s'

theorem Apart.of_empty (h : ∀ w, w < TFV → g.pt r w = 0) : Apart g S r :=
  fun w hw hne => (hne (h w hw)).elim

theorem Apart.congr (h : Apart g S r) (hp : ∀ r' ∈ S, r' ≠ r → g'.pt r' = g.pt r')
    (hr : ∀ w, w < TFV → g'.pt r w ≠ 0 → g.pt r w ≠ 0 ∧ ppn (g'.pt r w) = ppn (g.pt r w) ∧
      (g'.pt r w).getLsbD 8 = (g.pt r w).getLsbD 8) : Apart g' S r := by
  intro w hw hne
  obtain ⟨hne', hx, hc'⟩ := hr w hw hne
  obtain ⟨hc, ho⟩ := h w hw hne'
  refine ⟨hc'.trans hc, fun r' hr' hrr v hv => ?_⟩
  rw [hp r' hr' hrr, hx]
  exact ho r' hr' hrr v hv

theorem Frame.keepsOthers (h : Frame S {r} s s' g g') : KeepsOthers g S r s s' :=
  fun r' hr' hrr v hv hne => h.page r' hr' (by simpa using hrr) v hv hne

/-- Writing to a page that is mapped by no other address space. -/
theorem Apart.setPage (h : Apart g S r) (hw : w < TFV) (hne : g.pt r w ≠ 0) (p : Page) :
    KeepsOthers g S r s (s.setPage (ppn (g.pt r w)) p) := by
  intro r' hr' hrr v hv hne'
  refine Function.update_of_ne (fun he => ?_) _ _
  exact (h w hw hne).2 r' hr' hrr v hv ⟨hne', he⟩

theorem KeepsOthers.trans (h : KeepsOthers g S r s s') (hb : Bare S {r} s s' g g')
    (h' : KeepsOthers g' S r s' s'') : KeepsOthers g S r s s'' := by
  intro r' hr' hrr v hv hne
  have hpt : g'.pt r' = g.pt r' := hb.pt r' (by simpa using hrr)
  have hk := h' r' hr' hrr v hv (by rwa [hpt])
  rw [hpt] at hk
  exact hk.trans (h r' hr' hrr v hv hne)

theorem Filled.refl (h : Good L s g S) (hs : Shape g r n) : Filled L S r n n s s g g :=
  ⟨h, .refl _ _ _ _, Nat.le_refl n, hs, fun _ _ => rfl, fun _ _ _ => rfl,
    fun ha => ⟨ha, fun _ _ _ _ _ _ => rfl⟩⟩

theorem Filled.trans (h : Filled L S r n n' s s' g g') (h' : Filled L S r n' n'' s' s'' g' g'') :
    Filled L S r n n'' s s'' g g'' where
  good := h'.good
  bare := h.bare.trans h'.bare
  le := h.le.trans h'.le
  shape := h'.shape
  high v hv := (h'.high v hv).trans (h.high v hv)
  old v hv hc := by
    have he := h.old v hv hc
    rw [h'.old v (Nat.lt_of_lt_of_le hv h.le) (by rwa [he]), he]
  apart ha := by
    obtain ⟨ha₁, hk₁⟩ := h.apart ha
    obtain ⟨ha₂, hk₂⟩ := h'.apart ha₁
    exact ⟨ha₂, hk₁.trans h.bare hk₂⟩

theorem Filled.of_same (hg : Good L s' g' S) (hfr : Frame S {r} s s' g g') (hs : Shape g r n)
    (hsame : SameSpace r s s' g g') : Filled L S r n n s s' g g' := by
  refine ⟨hg, hfr.bare, Nat.le_refl n, hs.congr hsame.pt, fun v _ => by rw [hsame.pt],
    fun v _ _ => by rw [hsame.pt], fun ha => ⟨ha.congr (fun r' _ hrr => ?_) fun w _ hw => ?_, hfr.keepsOthers⟩⟩
  · exact hfr.pt r' (by simpa using hrr)
  · rw [hsame.pt] at hw ⊢
    exact ⟨hw, rfl, rfl⟩

/-- Pages that have been added were mapped by nobody. -/
theorem Grown.apart (hgr : Grown r n k f s s' g g') (h : Good L s g S) (hfr : Frame S {r} s s' g g')
    (hf : UserFlags f) (hc : f.getLsbD 8 = false) (ha : Apart g S r) : Apart g' S r := by
  intro w hw hne
  have hother {r' : Nat} (hrr : r' ≠ r) : g'.pt r' = g.pt r' := hfr.pt r' (by simpa using hrr)
  by_cases hin : n ≤ w ∧ w < n + k
  · obtain ⟨x, hlt, he, _, hu⟩ := hgr.new w hin.1 hin.2
    rw [he]
    refine ⟨by rw [getLsbD_mkPte _ _ (by decide), hc], fun r' hr' hrr v hv hm => hu ?_⟩
    rw [hother hrr, ppn_mkPte hlt hf.lt] at hm
    rw [← hm.2]
    exact h.space.target r' hr' v hv hm.1
  · rw [hgr.old w hin] at hne ⊢
    obtain ⟨hc', ho⟩ := ha w hw hne
    refine ⟨hc', fun r' hr' hrr v hv => ?_⟩
    rw [hother hrr]
    exact ho r' hr' hrr v hv

theorem Filled.of_grown (h : Good L s g S) (hg : Good L s' g' S) (hfr : Frame S {r} s s' g g')
    (hs : Shape g' r n') (hle : n ≤ n') (hf : UserFlags f) (hc : f.getLsbD 8 = false)
    (hgr : Grown r n (n' - n) f s s' g g') : Filled L S r n n' s s' g g' := by
  refine ⟨hg, hfr.bare, hle, hs, fun v hv => hgr.old v ?_, fun v hv _ => hgr.old v (by omega),
    fun ha => ⟨hgr.apart h hfr hf hc ha, hfr.keepsOthers⟩⟩
  have hle' := hs.le
  omega

/-- `copyout` to an address space in the making. -/
theorem Good.filled_copyout (h : Good L s g S) (hr : r ∈ S) (hs : Shape g r n) (hh : HighOk g r) :
    Wp (PbsCow.copyout L (r * PGSIZE) dstva src) NoError
      (fun _ s' => ∃ g', Filled L S r n n s s' g g' ∧ HighOk g' r) s := by
  refine (h.copyout hr hh).mono ?_
  rintro ret s' ⟨g', hg, hb, hsh, hkeep, _⟩
  refine ⟨g', ⟨hg, hb, Nat.le_refl n, hsh.shape hs, hsh.high, fun v _ hc => hsh.plain v hc,
    fun ha => ⟨ha.congr (fun r' _ hrr => hb.pt r' (by simpa using hrr)) fun w hw hne => ?_,
      fun r' hr' hrr v hv hne => ?_⟩⟩, hsh.highOk hh⟩
  · have hne' : g.pt r w ≠ 0 := fun h0 => hne ((hsh.zero w).2 h0)
    rw [hsh.plain w (ha w hw hne').1]
    exact ⟨hne', rfl, rfl⟩
  · refine hkeep r' hr' hrr v hv hne fun w _ hro he => ?_
    have hmax : w < MAXV := by
      by_contra hmax
      exact hro.1.ne_zero (h.space.high r hr w (by omega))
    exact (ha w (hh.user hmax hro.1) hro.1.ne_zero).2 r' hr' hrr v hv ⟨hne, he.symm⟩

/-- `loadseg` fills pages that are mapped for user code. -/
theorem Good.loadsegLoop_spec (h : Good L s g S) (hr : r ∈ S)
    (hacc : ∀ w, u + k ≤ w → w < u + k + n → w < TFV ∧ Accessible (g.pt r w)) :
    Wp (loadsegLoop (r * PGSIZE) (u * PGSIZE) b o z n (k * PGSIZE)) NoError
      (fun _ s' => Good L s' g S ∧ Bare S {r} s s' g g ∧ (Apart g S r → KeepsOthers g S r s s')) s := by
  induction n generalizing s k with
  | zero => exact wp_pure.2 ⟨h, .refl _ _ _ _, fun _ _ _ _ _ _ _ => rfl⟩
  | succ n ih =>
    have hva : u * PGSIZE + k * PGSIZE = (u + k) * PGSIZE := (Nat.add_mul u k PGSIZE).symm
    have hk : k * PGSIZE + PGSIZE = (k + 1) * PGSIZE := (Nat.succ_mul k PGSIZE).symm
    obtain ⟨hv, ha⟩ := hacc (u + k) (Nat.le_refl _) (by omega)
    have hu := h.space.target r hr _ hv ha.ne_zero
    rw [loadsegLoop, hva, hk]
    refine .bind (h.walkaddr hr) ?_
    rintro pa _ ⟨rfl, ⟨_, _, rfl⟩ | ⟨_, hno⟩⟩
    · refine .ite_neg (h.pos hr hv ha.ne_zero) ?_
      simp only [memmoveIn, wp_bind, wp_modify, PTE2PA_eq, page_div]
      have h' (pg : Page) := h.setPage (p := pg) (.inl hu)
      have hb (pg : Page) : Bare S {r} s (s.setPage (ppn (g.pt r (u + k))) pg) g g := .setPage hu
      have hk (hp : Apart g S r) (pg : Page) := hp.setPage (s := s) hv ha.ne_zero pg
      refine .ite (fun _ => wp_pure.2 ⟨h' _, hb _, fun hp => hk hp _⟩) fun _ => ?_
      refine (ih (h' _) fun w hw hw' => hacc w (by omega) (by omega)).mono ?_
      rintro _ s' ⟨hg, hb', hk'⟩
      exact ⟨hg, (hb _).trans hb', fun hp => (hk hp _).trans (hb _) (hk' hp)⟩
    · exact (hno ⟨Nat.lt_trans hv (by decide), ha⟩).elim

theorem leField_lt (b : List Byte) (o n : Nat) : leField b o n < 256 ^ n := by
  have hlen := List.length_take_le n (b.drop o)
  rw [leField]
  refine Nat.lt_of_lt_of_le ?_ (Nat.pow_le_pow_right (by decide) hlen)
  generalize (b.drop o).take n = l
  induction l with
  | nil => simp
  | cons x l ih =>
    rw [List.foldr_cons, List.length_cons, Nat.pow_succ]
    have hx := x.isLt
    omega

theorem flags2perm_ok (flags : Nat) : UserFlags (PTE_R ||| PTE_U ||| flags2perm flags ||| PTE_V) ∧
    (PTE_R ||| PTE_U ||| flags2perm flags ||| PTE_V).getLsbD 4 = true ∧
    (PTE_R ||| PTE_U ||| flags2perm flags ||| PTE_V).getLsbD 8 = false := by
  rw [flags2perm]
  cases flags.testBit 0 <;> cases flags.testBit 1 <;>
    exact ⟨⟨by decide, by decide, by decide, by decide⟩, by decide, by decide⟩

theorem UserFlags.accessible (h : UserFlags f) (hu : f.getLsbD 4 = true) (x : Nat) :
    Accessible (mkPte x f) := by
  rw [Accessible, flag_V, flag_U, getLsbD_mkPte _ _ (by decide), getLsbD_mkPte _ _ (by decide)]
  exact ⟨h.valid, hu⟩

/-- The segments of the file are loaded one after the other, each page accessible to user code. -/
theorem Good.loadSegments_spec (h : Good L s g S) (hr : r ∈ S) (hs : Shape g r (npages sz))
    (hacc : ∀ v, v < npages sz → Accessible (g.pt r v)) :
    Wp (loadSegments L (r * PGSIZE) ip n off sz) NoError (fun res s' => ∃ g',
      Filled L S r (npages sz) (npages res.2) s s' g g' ∧
        ∀ v, v < npages res.2 → Accessible (g'.pt r v)) s := by
  induction n generalizing s g off sz with
  | zero => exact wp_pure.2 ⟨g, .refl h hs, hacc⟩
  | succ n ih =>
    rw [loadSegments]
    refine .ite (fun _ => wp_pure.2 ⟨g, .refl h hs, hacc⟩) fun _ => ?_
    generalize hph : Proghdr.parse _ = ph
    have hmem : ph.memsz < 2 ^ 64 := by
      rw [← hph]
      exact leField_lt _ _ 8
    refine .ite (fun _ => ih h hs hacc) fun _ => ?_
    refine .ite (fun _ => wp_pure.2 ⟨g, .refl h hs, hacc⟩) fun hfs => ?_
    refine .ite (fun _ => wp_pure.2 ⟨g, .refl h hs, hacc⟩) fun hov => ?_
    have hnew : (ph.vaddr + ph.memsz) % 2 ^ 64 = ph.vaddr + ph.memsz := by omega
    obtain ⟨hf, hfu, hfc⟩ := flags2perm_ok ph.flags
    rw [hnew]
    refine .bind (h.uvmalloc hr hs hf) ?_
    rintro ret s₁ ⟨g₁, hg₁, hfr₁, ⟨hret, _, hs₁, hgr⟩ | ⟨rfl, _, _, hsame⟩⟩
    · have hle : npages sz ≤ npages ret := by
        rw [hret]
        exact npages_mono (Nat.le_max_left _ _)
      have hnp : npages (ph.vaddr + ph.memsz) - npages sz = npages ret - npages sz := by
        rw [hret]
        rcases Nat.le_total sz (ph.vaddr + ph.memsz) with hc | hc
        · rw [Nat.max_eq_right hc]
        · have hm := npages_mono hc
          rw [Nat.max_eq_left hc]
          omega
      rw [hnp] at hgr
      have hfill := Filled.of_grown h hg₁ hfr₁ hs₁ hle hf hfc hgr
      have hacc₁ (v : Nat) (hv : v < npages ret) : Accessible (g₁.pt r v) := by
        by_cases hold : v < npages sz
        · rw [hgr.old v (by omega)]
          exact hacc v hold
        · obtain ⟨x, _, he, _⟩ := hgr.new v (by omega) (by omega)
          rw [he]
          exact hf.accessible hfu x
      refine .ite (fun h0 => wp_pure.2 ⟨g₁, ?_, fun v hv => ?_⟩) fun h0 => ?_
      · have hz : sz = ret := by omega
        rwa [← hz] at hfill
      · have hz : sz = ret := by omega
        exact hacc₁ v (hz ▸ hv)
      refine .ite (fun _ => wp_pure.2 ⟨g₁, hfill, hacc₁⟩) fun hal => ?_
      obtain ⟨u, hu⟩ : ∃ u, ph.vaddr = u * PGSIZE :=
        ⟨ph.vaddr / PGSIZE, (Nat.div_mul_cancel (Nat.dvd_of_mod_eq_zero (by omega))).symm⟩
      have hseg : u + pagesBetween 0 (ph.filesz % 2 ^ 32) ≤ npages ret := by
        have hm := Nat.mod_le ph.filesz (2 ^ 32)
        have hle : u * PGSIZE + ph.filesz % 2 ^ 32 ≤ ret := by omega
        refine Nat.le_trans ?_ (npages_mono hle)
        simp only [pagesBetween, npages, PGSIZE]
        omega
      rw [hu, loadseg]
      have hload := hg₁.loadsegLoop_spec (u := u) (k := 0) (n := pagesBetween 0 (ph.filesz % 2 ^ 32))
        (b := ip) (o := ph.off % 2 ^ 32) (z := ph.filesz % 2 ^ 32) hr fun w hw hw' => ?_
      · rw [Nat.zero_mul] at hload
        refine .bind hload ?_
        rintro ok s₂ ⟨hg₂, hb₂, hk₂⟩
        have hfill₂ : Filled L S r (npages sz) (npages ret) s s₂ g g₁ :=
          ⟨hg₂, hfill.bare.trans hb₂, hfill.le, hfill.shape, hfill.high, hfill.old, fun ha =>
            ⟨(hfill.apart ha).1, (hfill.apart ha).2.trans hfill.bare (hk₂ (hfill.apart ha).1)⟩⟩
        refine .ite (fun _ => wp_pure.2 ⟨g₁, hfill₂, hacc₁⟩) fun _ => ?_
        refine (ih hg₂ hs₁ hacc₁).mono ?_
        rintro res s₃ ⟨g₃, hfill₃, hacc₃⟩
        exact ⟨g₃, hfill₂.trans hfill₃, hacc₃⟩
      · have hle := hs₁.le
        exact ⟨by omega, hacc₁ w (by omega)⟩
    · refine .ite_pos rfl (wp_pure.2 ⟨g₁, .of_same hg₁ hfr₁ hs hsame, fun v hv => ?_⟩)
      rw [hsame.pt]
      exact hacc v hv

theorem Good.pushStrings_spec (h : Good L s g S) (hr : r ∈ S) (hs : Shape g r n) (hh : HighOk g r) :
    Wp (pushStrings L (r * PGSIZE) stackbase argv sp ustack) NoError
      (fun _ s' => ∃ g', Filled L S r n n s s' g g' ∧ HighOk g' r) s := by
  induction argv generalizing s g sp ustack with
  | nil => exact wp_pure.2 ⟨g, .refl h hs, hh⟩
  | cons arg argv ih =>
    rw [pushStrings]
    refine .ite (fun _ => wp_pure.2 ⟨g, .refl h hs, hh⟩) fun _ => ?_
    refine .ite (fun _ => wp_pure.2 ⟨g, .refl h hs, hh⟩) fun _ => ?_
    refine .bind (h.filled_copyout hr hs hh) ?_
    rintro ret s₁ ⟨g₁, hf₁, hh₁⟩
    refine .ite (fun _ => wp_pure.2 ⟨g₁, hf₁, hh₁⟩) fun _ => ?_
    refine (ih hf₁.good hf₁.shape hh₁).mono ?_
    rintro _ s₂ ⟨g₂, hf₂, hh₂⟩
    exact ⟨g₂, hf₁.trans hf₂, hh₂⟩

theorem Good.pushArgs_spec (h : Good L s g S) (hr : r ∈ S) (hs : Shape g r n) (hh : HighOk g r) :
    Wp (pushArgs L (r * PGSIZE) sz argv) NoError
      (fun _ s' => ∃ g', Filled L S r n n s s' g g') s := by
  simp only [pushArgs]
  generalize sz - PGSIZE = stackbase
  refine .bind (h.pushStrings_spec hr hs hh) ?_
  rintro (_ | ⟨sp, ustack⟩) s₁ ⟨g₁, hf₁, hh₁⟩
  · exact wp_pure.2 ⟨g₁, hf₁⟩
  refine .ite (fun _ => wp_pure.2 ⟨g₁, hf₁⟩) fun _ => ?_
  refine .bind (hf₁.good.filled_copyout hr hf₁.shape hh₁) ?_
  rintro ret s₂ ⟨g₂, hf₂, _⟩
  refine .ite (fun _ => ?_) fun _ => ?_
  · exact wp_pure.2 ⟨g₂, hf₁.trans hf₂⟩
  · exact wp_pure.2 ⟨g₂, hf₁.trans hf₂⟩

theorem High.congr (h : High L g r tf) (hv : ∀ v, TFV ≤ v → g'.pt r v = g.pt r v) :
    High L g' r tf :=
  ⟨by rw [hv _ (Nat.le_refl _), h.trapframe], by rw [hv _ (Nat.le_succ _), h.trampoline]⟩

/-- The guard page and the stack are mapped above the segments. -/
theorem Filled.stack (h : Good L s g S) (hfr : Frame S {r} s s' g g') (hs : Shape g' r (n + 2))
    (hf : UserFlags f) (hc : f.getLsbD 8 = false) (hgr : Grown r n 2 f s s' g g')
    (hg₁ : Good L s₁ g₁ S) (hfr₁ : Frame S {r} s' s₁ g' g₁)
    (hp : g₁.pt r = Function.update (g'.pt r) n (g'.pt r n &&& ~~~PTE_U)) (hne : g₁.pt r n ≠ 0) :
    Filled L S r n (n + 2) s s₁ g g₁ := by
  have hle := hs.le
  have hb := hfr.bare
  refine ⟨hg₁, hb.trans hfr₁.bare, by omega, ⟨fun w hw => ?_, fun w hw hw' => ?_, hle⟩,
    fun v hv => ?_, fun v hv _ => ?_, fun ha => ⟨?_, hfr.keepsOthers.trans hb hfr₁.keepsOthers⟩⟩
  · by_cases hwn : w = n
    · rwa [hwn]
    · rw [hp, Function.update_of_ne hwn]
      exact hs.mapped w hw
  · rw [hp, Function.update_of_ne (by omega)]
    exact hs.none w hw hw'
  · rw [hp, Function.update_of_ne (by omega), hgr.old v (by omega)]
  · rw [hp, Function.update_of_ne (by omega), hgr.old v (by omega)]
  · -- `uvmclear` changes neither the page nor the COW bit
    have hc₁ : (f &&& ~~~PTE_U).getLsbD 8 = false := by rw [BitVec.getLsbD_and, hc, Bool.false_and]
    obtain ⟨x, hx, he, _⟩ := hgr.new n (Nat.le_refl n) (by omega)
    rw [he, mkPte_clear_U] at hp
    apply (hgr.apart h hfr hf hc ha).congr (fun r' _ hrr => hfr₁.pt r' (by simpa using hrr))
    intro w _ hw
    by_cases hwn : w = n
    · rw [hwn, hp, Function.update_self, he, ppn_mkPte hx hf.lt, ppn_mkPte hx hf.clear_U.lt,
        getLsbD_mkPte _ _ (by decide), getLsbD_mkPte _ _ (by decide), hc, hc₁]
      exact ⟨hf.mkPte_ne_zero x, rfl, rfl⟩
    · rw [hp, Function.update_of_ne hwn] at hw ⊢
      exact ⟨hw, rfl, rfl⟩

theorem subWord_eq (hb : b ≤ a) (ha : a < 2 ^ 64) : subWord a b = a - b := by
  rw [subWord]
  omega

/-- With no arguments only the null pointer that ends `argv` is pushed. -/
theorem Good.pushArgs_nil (h : Good L s g S) (hr : r ∈ S) (hs : Shape g r (n + 2)) (hh : HighOk g r)
    (ha : Accessible (g.pt r (n + 1))) (hc : (g.pt r (n + 1)).getLsbD 8 = false) (hargv : argv = []) :
    Wp (pushArgs L (r * PGSIZE) ((n + 2) * PGSIZE) argv) NoError
      (fun res s' => res ≠ none ∧ Filled L S r (n + 2) (n + 2) s s' g g) s := by
  have hle := hs.le
  have hsp : pushDown ((n + 2) * PGSIZE) 8 = (n + 2) * PGSIZE - 16 := by
    simp only [pushDown]
    rw [subWord_eq] <;> simp only [PGSIZE, TFV] at * <;> omega
  have hlen : ((([] : List Nat) ++ [0]).flatMap wordBytes).length = 8 := rfl
  have hdiv : ((n + 2) * PGSIZE - 16) / PGSIZE = n + 1 := by
    simp only [PGSIZE]
    omega
  simp only [hargv, pushArgs, pushStrings, wp_bind, wp_pure, List.length_nil, Nat.zero_add, Nat.one_mul, hsp]
  rw [if_neg (by simp only [PGSIZE]; omega), wp_bind]
  refine (h.copyout_page hr hh (by rw [hdiv]; omega) (by rwa [hdiv]) (by rwa [hdiv])
    (by rw [hlen]; decide) (by rw [hlen]; simp only [PGSIZE]; omega)).mono ?_
  rintro ret s' ⟨rfl, rfl⟩
  have hu := h.space.target r hr (n + 1) (by omega) ha.ne_zero
  rw [hdiv]
  exact .ite_neg (by decide) (wp_pure.2 ⟨by simp, h.setPage (.inl hu), .setPage hu, Nat.le_refl _, hs,
    fun _ _ => rfl, fun _ _ _ => rfl, fun hp => ⟨hp, hp.setPage (by omega) ha.ne_zero _⟩⟩)

theorem HighOk.congr (h : HighOk g r) (hv : ∀ v, TFV ≤ v → g'.pt r v = g.pt r v) : HighOk g' r := by
  intro v hv' hm
  rw [hv v hv']
  exact h v hv' hm

theorem Good.addStack_spec (h : Good L s g S) (hr : r ∈ S) (hs : Shape g r (npages sz))
    (hh : HighOk g r) :
    Wp (addStack L (r * PGSIZE) sz argv) NoError (fun res s' => ∃ g',
      Filled L S r (npages sz) (npages res.2) s s' g g' ∧ (argv = [] →
        res.1 = none ∧ g.free.length ≤ 6 ∨
        res.1 ≠ none ∧ res.2 = (npages sz + 2) * PGSIZE ∧ Uses 6 g g')) s := by
  have hle := hs.le
  have hnew : npages sz * PGSIZE + 2 * PGSIZE = (npages sz + 2) * PGSIZE :=
    (Nat.add_mul _ 2 PGSIZE).symm
  have hs' : Shape g r (npages (npages sz * PGSIZE)) := by rwa [npages_page]
  have hW : UserFlags (PTE_R ||| PTE_U ||| PTE_W ||| PTE_V) :=
    ⟨by decide, by decide, by decide, by decide⟩
  simp only [addStack, PGROUNDUP_npages (add_le_of_npages hle), hnew]
  generalize npages sz = n at *
  refine .bind (h.uvmalloc hr hs' hW) ?_
  rintro ret s₁ ⟨g₁, hg₁, hfr₁, ⟨rfl, huse, hs₁, hgr⟩ | ⟨rfl, _, hfree, hsame⟩⟩
  · have hmax : max (n * PGSIZE) ((n + 2) * PGSIZE) = (n + 2) * PGSIZE :=
      Nat.max_eq_right (Nat.mul_le_mul_right _ (by omega))
    have hsub : (n + 2) * PGSIZE - 2 * PGSIZE = n * PGSIZE := by
      rw [← Nat.sub_mul, Nat.add_sub_cancel]
    rw [hmax, npages_page] at hs₁
    simp only [npages_page, Nat.add_sub_cancel_left] at hgr huse
    rw [hmax, hsub]
    refine .ite_neg (by simp only [PGSIZE]; omega) ?_
    refine .bind (hg₁.uvmclear hr (v := n) (by have := hs₁.le; omega) (hs₁.mapped n (by omega))) ?_
    rintro _ s₂ ⟨g₂, hg₂, hfr₂, hne₂, hp₂, hfree₂⟩
    have hst := Filled.stack h hfr₁ hs₁ hW (by decide) hgr hg₂ hfr₂ hp₂ hne₂
    have hh₂ := hh.congr hst.high
    by_cases hargv : argv = []
    · -- the stack page is fresh, so that pushing no arguments cannot fail
      obtain ⟨x, _, he, _⟩ := hgr.new (n + 1) (by omega) (by omega)
      have hp : g₂.pt r (n + 1) = mkPte x (PTE_R ||| PTE_U ||| PTE_W ||| PTE_V) := by
        rw [hp₂, Function.update_of_ne (by omega), he]
      have ha : Accessible (g₂.pt r (n + 1)) := by
        rw [hp]
        exact hW.accessible (by decide) x
      have hc : (g₂.pt r (n + 1)).getLsbD 8 = false := by
        rw [hp, getLsbD_mkPte _ _ (by decide)]
        decide
      refine .bind (hg₂.pushArgs_nil hr hst.shape hh₂ ha hc hargv) ?_
      rintro res s₃ ⟨hres, hf₃⟩
      refine wp_pure.2 ⟨g₂, ?_, fun _ => .inr ⟨hres, rfl, ?_⟩⟩
      · rw [npages_page]
        exact hst.trans hf₃
      · rwa [Uses, hfree₂]
    · refine .bind (hg₂.pushArgs_spec hr hst.shape hh₂) ?_
      rintro res s₃ ⟨g₃, hf₃⟩
      refine wp_pure.2 ⟨g₃, ?_, fun h => (hargv h).elim⟩
      rw [npages_page]
      exact hst.trans hf₃
  · refine .ite_pos rfl (wp_pure.2 ⟨g₁, ?_, fun _ => .inl ⟨rfl, ?_⟩⟩)
    · rw [npages_page]
      exact .of_same hg₁ hfr₁ hs hsame
    · simpa only [npages_page, Nat.add_sub_cancel_left] using hfree

end PbsCow
