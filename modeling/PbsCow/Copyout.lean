import PbsCow.Cowalloc

namespace PbsCow
set_option autoImplicit true

/-- `Frame` without the contents of the other address spaces. -/
structure Bare (S R : Finset Nat) (s s' : Mem) (g g' : Ghost) : Prop where
  pt : ∀ r, r ∉ R → g'.pt r = g.pt r
  held : ∀ x k, g.own x = .held k → k ≠ .fresh → g'.own x = .held k ∧ s'.ram x = s.ram x
  holder : ∀ x k, g'.own x = .held k → g.own x = .held k
  tables : ∀ x r l p, r ∉ R → (g'.own x = .table r l p ↔ g.own x = .table r l p)

theorem Frame.bare (h : Frame S R s s' g g') : Bare S R s s' g g' :=
  ⟨h.pt, h.held, h.holder, h.tables⟩

theorem Bare.refl (S R : Finset Nat) (s : Mem) (g : Ghost) : Bare S R s s g g :=
  (Frame.refl S R s g).bare

theorem Bare.trans (h : Bare S R s s' g g') (h' : Bare S R s' s'' g' g'') :
    Bare S R s s'' g g'' where
  pt r hR := (h'.pt r hR).trans (h.pt r hR)
  held x k hk hf := by
    obtain ⟨h1, h2⟩ := h.held x k hk hf
    obtain ⟨h3, h4⟩ := h'.held x k h1 hf
    exact ⟨h3, h4.trans h2⟩
  holder x k hk := h.holder x k (h'.holder x k hk)
  tables x r l p hR := (h'.tables x r l p hR).trans (h.tables x r l p hR)

/-- The contents of a page in use are nobody's business but its owner's. -/
theorem Good.setPage (h : Good L s g S) (hx : g.own x = .user ∨ ∃ k, g.own x = .held k) :
    Good L (s.setPage x p) g S := by
  have hne : g.own x ≠ .free ∧ ∀ r l q, g.own x ≠ .table r l q := by
    rcases hx with hx | ⟨k, hx⟩ <;> simp [hx]
  refine ⟨⟨h.rep.page.setPage hne.1, h.rep.table.congr (fun _ _ _ _ => .rfl) rfl ?_⟩, ?_⟩
  · intro y r l q hy
    refine Function.update_of_ne ?_ _ _
    rintro rfl
    exact hne.2 r l q hy
  · exact h.space.congr h.space.live (fun _ _ _ _ => rfl) (fun _ _ _ _ => rfl) (fun _ => .rfl)
      fun _ _ => rfl

theorem Bare.setPage (hx : g.own x = .user) : Bare S R s (s.setPage x p) g g := by
  refine ⟨fun _ _ => rfl, fun y k hk _ => ⟨hk, Function.update_of_ne ?_ _ _⟩, fun _ _ hk => hk,
    fun _ _ _ _ _ => .rfl⟩
  rintro rfl
  simp [hx] at hk

/-- A page that user code may access. -/
def Accessible (e : Word) : Prop := flag e PTE_V = true ∧ flag e PTE_U = true

instance : Decidable (Accessible e) := inferInstanceAs (Decidable (_ ∧ _))

theorem Accessible.ne_zero (h : Accessible e) : e ≠ 0 := by
  rintro rfl
  exact absurd h.1 (by decide)

theorem HighOk.user (hh : HighOk g r) (hv : v < MAXV) (ha : Accessible (g.pt r v)) : v < TFV := by
  by_contra hlt
  have hu := ha.2
  rw [flag_U, (hh v (by omega) hv ha.ne_zero).2.1] at hu
  cases hu

theorem Rep.walkaddr (h : Rep L s g) (hr : g.Live r) :
    Wp (walkaddr (r * PGSIZE) (v * PGSIZE)) NoError (fun pa s' => s = s' ∧
      (v < MAXV ∧ Accessible (g.pt r v) ∧ pa = PTE2PA (g.pt r v) ∨
        pa = 0 ∧ ¬ (v < MAXV ∧ Accessible (g.pt r v)))) s := by
  have hmax : MAXVA ≤ v * PGSIZE ↔ MAXV ≤ v := by
    rw [MAXVA_eq]
    exact Nat.mul_le_mul_right_iff (by decide)
  rw [PbsCow.walkaddr]
  refine .ite (fun hm => ?_) fun hm => ?_
  · rw [hmax] at hm
    exact wp_pure.2 ⟨rfl, .inr ⟨rfl, fun hc => by omega⟩⟩
  rw [hmax, Nat.not_le] at hm
  refine .bind (h.walk_false hr (va_lt hm)) ?_
  rw [page_div]
  rintro a _ ⟨rfl, ⟨q, hq, rfl⟩ | ⟨hnone, rfl⟩⟩
  · refine .ite_neg (h.slot_ne_zero hq) ?_
    simp only [loadWord, wp_bind, wp_get, wp_pure, h.load_pte hq]
    refine .ite (fun hv => ?_) fun hv => .ite (fun hu => ?_) fun hu => ?_
    · rw [Bool.not_eq_true', ← Bool.not_eq_true] at hv
      exact wp_pure.2 ⟨rfl, .inr ⟨rfl, fun hc => hv hc.2.1⟩⟩
    · rw [Bool.not_eq_true', ← Bool.not_eq_true] at hu
      exact wp_pure.2 ⟨rfl, .inr ⟨rfl, fun hc => hu hc.2.2⟩⟩
    · rw [Bool.not_eq_true', Bool.not_eq_false] at hv hu
      exact wp_pure.2 ⟨rfl, .inl ⟨hm, ⟨hv, hu⟩, rfl⟩⟩
  · refine .ite_pos rfl (wp_pure.2 ⟨rfl, .inr ⟨rfl, fun hc => ?_⟩⟩)
    exact hc.2.ne_zero (h.table.none hnone)

theorem Good.walkaddr (h : Good L s g S) (hr : r ∈ S) :
    Wp (PbsCow.walkaddr (r * PGSIZE) (v * PGSIZE)) NoError (fun pa s' => s = s' ∧
      (v < MAXV ∧ Accessible (g.pt r v) ∧ pa = PTE2PA (g.pt r v) ∨
        pa = 0 ∧ ¬ (v < MAXV ∧ Accessible (g.pt r v)))) s :=
  h.rep.walkaddr (h.space.live r hr)

/-- A user page that is neither writable nor marked COW; `copyout` does not look at `PTE_W`. -/
def ReadOnly (e : Word) : Prop :=
  Accessible e ∧ flag e PTE_W = false ∧ flag e PTE_COW = false

instance : Decidable (ReadOnly e) := inferInstanceAs (Decidable (_ ∧ _))

/-- The address space `r` has the same pages, with private copies of some COW pages. -/
structure SameShape (r : Nat) (g g' : Ghost) : Prop where
  zero : ∀ w, g'.pt r w = 0 ↔ g.pt r w = 0
  high : ∀ w, TFV ≤ w → g'.pt r w = g.pt r w
  plain : ∀ w, (g.pt r w).getLsbD 8 = false → g'.pt r w = g.pt r w

theorem SameShape.refl (r : Nat) (g : Ghost) : SameShape r g g :=
  ⟨fun _ => .rfl, fun _ _ => rfl, fun _ _ => rfl⟩

theorem SameShape.trans (h : SameShape r g g') (h' : SameShape r g' g'') : SameShape r g g'' := by
  refine ⟨fun w => (h'.zero w).trans (h.zero w), fun w hw => (h'.high w hw).trans (h.high w hw),
    fun w hw => ?_⟩
  have he := h.plain w hw
  rw [h'.plain w (by rwa [he]), he]

theorem SameShape.highOk (h : SameShape r g g') (hh : HighOk g r) : HighOk g' r := by
  intro v hv hv'
  rw [h.high v hv]
  exact hh v hv hv'

theorem SameShape.shape (h : SameShape r g g') (hs : Shape g r n) : Shape g' r n :=
  ⟨fun w hw hz => hs.mapped w hw ((h.zero w).1 hz), fun w hw hw' => (h.zero w).2 (hs.none w hw hw'),
    hs.le⟩

theorem Unshared.sameShape (hu : Unshared r v s s' g g') (hv : v < TFV) (hne : g.pt r v ≠ 0)
    (hf : UserFlags (PTE_FLAGS (g.pt r v))) (hc : (g.pt r v).getLsbD 8 = true) :
    SameShape r g g' := by
  obtain ⟨x, _, _, hp⟩ := hu.copy
  refine ⟨fun w => ?_, fun w hw => ?_, fun w hw => ?_⟩
  · rw [hp, Function.update_apply]
    split
    · next he =>
      subst he
      exact iff_of_false (hf.uncow.mkPte_ne_zero x) hne
    · exact .rfl
  · rw [hp, Function.update_of_ne (by omega)]
  · rw [hp, Function.update_of_ne]
    rintro rfl
    rw [hw] at hc
    cases hc

/-- After a successful `cowalloc` page `v` is private and writable, or was left as it is. -/
structure Prepared (L : Layout) (S : Finset Nat) (r v : Nat) (s s' : Mem) (g g' : Ghost) : Prop where
  good : Good L s' g' S
  frame : Frame S {r} s s' g g'
  shape : SameShape r g g'
  other : ∀ w, w ≠ v → g'.pt r w = g.pt r w
  page : (g'.pt r v).getLsbD 2 = true ∧ (g.pt r v).getLsbD 8 = true ∨
    g' = g ∧ s' = s ∧ (g.pt r v).getLsbD 8 = false

theorem CowPost.prepared (h : Good L s g S) (hr : r ∈ S) (hp : CowPost L S r v s g ret s')
    (hret : ¬ ret < 0) : ∃ g', Prepared L S r v s s' g g' := by
  rcases hp with ⟨rfl, _⟩ | ⟨_, rfl, _, _, hc⟩ | ⟨_, hv, hne, hc, _, g', hg, hfr, hu⟩
  · exact absurd (by decide) hret
  · exact ⟨g, h, .refl _ _ _ _, .refl _ _, fun _ _ => rfl, .inr ⟨rfl, rfl, hc⟩⟩
  · have hflags := (h.space.leaf r hr v hv hne).flags
    have hsh := hu.sameShape hv hne hflags hc
    obtain ⟨x, _, _, hpt⟩ := hu.copy
    refine ⟨g', hg, hfr, hsh, fun w hw => by rw [hpt, Function.update_of_ne hw], .inl ⟨?_, hc⟩⟩
    rw [hpt, Function.update_self, getLsbD_mkPte _ _ (by decide), getLsbD_uncowFlags _ (by decide)]
    simp

/-- The pages touched by `len` bytes from `dstva` on. -/
def InRange (dstva len w : Nat) : Prop := dstva / PGSIZE ≤ w ∧ w * PGSIZE < dstva + len

theorem InRange.first (h : 0 < len) : InRange dstva len (dstva / PGSIZE) := by
  refine ⟨Nat.le_refl _, ?_⟩
  have hd := Nat.div_mul_le_self dstva PGSIZE
  omega

theorem InRange.rest (hw : InRange ((dstva / PGSIZE + 1) * PGSIZE)
      (len - min (PGSIZE - dstva % PGSIZE) len) w) :
    InRange dstva len w ∧ w ≠ dstva / PGSIZE := by
  obtain ⟨h1, h2⟩ := hw
  rw [page_div] at h1
  refine ⟨⟨by omega, ?_⟩, by omega⟩
  simp only [PGSIZE] at *
  omega

/-- What `copyout` to `r` does, whatever it returns: it writes to no page of another address space
except through a read-only page of `r` that is shared with it. -/
def CopyoutPost (L : Layout) (S : Finset Nat) (r dstva len : Nat) (s : Mem) (g : Ghost) (ret : Int)
    (s' : Mem) : Prop :=
  ∃ g', Good L s' g' S ∧ Bare S {r} s s' g g' ∧ SameShape r g g' ∧
    (∀ r' ∈ S, r' ≠ r → ∀ v, v < TFV → g.pt r' v ≠ 0 →
      (∀ w, InRange dstva len w → ReadOnly (g.pt r w) → ppn (g.pt r w) ≠ ppn (g.pt r' v)) →
      s'.ram (ppn (g.pt r' v)) = s.ram (ppn (g.pt r' v))) ∧
    ((∀ w, InRange dstva len w → w < MAXV ∧ Accessible (g.pt r w) ∧
      (g.pt r w).getLsbD 8 = false) → ret = 0)

theorem CopyoutPost.of_prepared (hp : Prepared L S r v s s' g g')
    (hno : ¬ ∀ w, InRange dstva len w → w < MAXV ∧ Accessible (g.pt r w) ∧
      (g.pt r w).getLsbD 8 = false) : CopyoutPost L S r dstva len s g ret s' :=
  ⟨g', hp.good, hp.frame.bare, hp.shape,
    fun r' hr' hrr v' hv' hne _ => hp.frame.page r' hr' (by simpa using hrr) v' hv' hne,
    fun hall => (hno hall).elim⟩

/-- A page that `copyout` is about to write is shared only if it is read-only in `g`. -/
theorem Prepared.write (hp : Prepared L S r v s s' g g') (hr : r ∈ S) (hv : v < TFV)
    (ha : Accessible (g'.pt r v)) (hr' : r' ∈ S) (hrr : r' ≠ r) (hv' : v' < TFV)
    (hne : g.pt r' v' ≠ 0) (he : ppn (g'.pt r v) = ppn (g.pt r' v')) :
    ReadOnly (g.pt r v) ∧ ppn (g.pt r v) = ppn (g.pt r' v') := by
  have hpt' : g'.pt r' = g.pt r' := hp.frame.pt r' (by simpa using hrr)
  have hw : (g'.pt r v).getLsbD 2 = false := by
    cases hw : (g'.pt r v).getLsbD 2 with
    | false => rfl
    | true =>
      have hx := hp.good.space.excl r hr v hv hw r' hr' v' hv' (by rw [hpt']; exact ⟨hne, he.symm⟩)
      exact (hrr hx.1).elim
  rcases hp.page with ⟨hw', _⟩ | ⟨rfl, _, hc⟩
  · rw [hw] at hw'
    cases hw'
  · exact ⟨⟨ha, by rwa [flag_W], by rwa [flag_COW]⟩, he⟩

theorem CopyoutPost.step (hp : Prepared L S r (dstva / PGSIZE) s s₁ g g₁) (hr : r ∈ S)
    (hv : dstva / PGSIZE < TFV) (hlen : 0 < len) (ha : Accessible (g₁.pt r (dstva / PGSIZE)))
    (hrest : CopyoutPost L S r ((dstva / PGSIZE + 1) * PGSIZE)
      (len - min (PGSIZE - dstva % PGSIZE) len)
      (s₁.setPage (ppn (g₁.pt r (dstva / PGSIZE))) p) g₁ ret s') :
    CopyoutPost L S r dstva len s g ret s' := by
  obtain ⟨g', hg, hb, hsh, hkeep, hok⟩ := hrest
  have hu := hp.good.space.target r hr _ hv ha.ne_zero
  refine ⟨g', hg, (hp.frame.bare.trans (.setPage hu)).trans hb, hp.shape.trans hsh, ?_, ?_⟩
  · intro r' hr' hrr v' hv' hne hro
    have hpt' : g₁.pt r' = g.pt r' := hp.frame.pt r' (by simpa using hrr)
    have h1 := hkeep r' hr' hrr v' hv' (by rwa [hpt']) fun w hw hro' => by
      obtain ⟨hw', hwv⟩ := InRange.rest hw
      rw [hp.other w hwv] at hro' ⊢
      rw [hpt']
      exact hro w hw' hro'
    rw [hpt'] at h1
    rw [h1, ← hp.frame.page r' hr' (by simpa using hrr) v' hv' hne]
    refine Function.update_of_ne ?_ _ _
    intro he
    obtain ⟨hro', he'⟩ := hp.write hr hv ha hr' hrr hv' hne he.symm
    exact hro _ (.first hlen) hro' he'
  · intro hall
    refine hok fun w hw => ?_
    obtain ⟨hw', hwv⟩ := InRange.rest hw
    rw [hp.other w hwv]
    exact hall w hw'

theorem Good.copyoutLoop_spec (h : Good L s g S) (hr : r ∈ S) (hh : HighOk g r)
    (hfuel : src.length ≤ fuel) :
    Wp (copyoutLoop L (r * PGSIZE) fuel dstva src) NoError
      (CopyoutPost L S r dstva src.length s g) s := by
  induction fuel generalizing s g dstva src with
  | zero =>
    exact wp_pure.2 ⟨g, h, .refl _ _ _ _, .refl _ _, fun _ _ _ _ _ _ _ => rfl, fun _ => rfl⟩
  | succ fuel ih =>
    rw [copyoutLoop]
    refine .ite (fun h0 => ?_) fun h0 => ?_
    · exact wp_pure.2 ⟨g, h, .refl _ _ _ _, .refl _ _, fun _ _ _ _ _ _ _ => rfl, fun _ => rfl⟩
    have hlen : 0 < src.length := Nat.pos_of_ne_zero h0
    simp only [PGROUNDDOWN]
    have hoff : dstva - dstva / PGSIZE * PGSIZE = dstva % PGSIZE := by
      rw [Nat.mul_comm, Nat.mod_eq_sub_mul_div]
    rw [hoff]
    refine .bind (h.cowalloc hr hh) fun ret s₁ hc => .ite (fun hneg => ?_) fun hneg => ?_
    · rcases hc with ⟨_, rfl, hwhy⟩ | ⟨rfl, _⟩ | ⟨rfl, _⟩
      · refine wp_pure.2 ⟨g, h, .refl _ _ _ _, .refl _ _, fun _ _ _ _ _ _ _ => rfl, fun hall => ?_⟩
        obtain ⟨h1, h2, h3⟩ := hall _ (.first hlen)
        rcases hwhy with hmax | hz | ⟨hcow, _⟩
        · omega
        · exact (h2.ne_zero hz).elim
        · rw [h3] at hcow
          cases hcow
      · exact absurd hneg (by decide)
      · exact absurd hneg (by decide)
    obtain ⟨g₁, hp⟩ := hc.prepared h hr hneg
    refine .bind (hp.good.walkaddr hr) ?_
    rintro pa _ ⟨rfl, ⟨hmax, ha, rfl⟩ | ⟨rfl, hna⟩⟩
    · have hv : dstva / PGSIZE < TFV := by
        by_contra hv
        have hb := (hp.shape.highOk hh _ (by omega) hmax ha.ne_zero).2.1
        have hu := ha.2
        rw [flag_U, hb] at hu
        cases hu
      refine .ite_neg (hp.good.pos hr hv ha.ne_zero) ?_
      have hlt : dstva % PGSIZE < PGSIZE := Nat.mod_lt _ (by decide)
      have hdiv : (ppn (g₁.pt r (dstva / PGSIZE)) * PGSIZE + dstva % PGSIZE) / PGSIZE =
          ppn (g₁.pt r (dstva / PGSIZE)) := by
        simp only [PGSIZE] at hlt ⊢
        omega
      simp only [memmoveIn, wp_bind, wp_modify, PTE2PA_eq, hdiv]
      have hu := hp.good.space.target r hr _ hv ha.ne_zero
      have hnext : dstva / PGSIZE * PGSIZE + PGSIZE = (dstva / PGSIZE + 1) * PGSIZE :=
        (Nat.succ_mul _ PGSIZE).symm
      rw [hnext]
      have hih (p : Page) : Wp (copyoutLoop L (r * PGSIZE) fuel ((dstva / PGSIZE + 1) * PGSIZE)
          (src.drop (min (PGSIZE - dstva % PGSIZE) src.length))) NoError _ _ :=
        ih (hp.good.setPage (p := p) (.inl hu)) (hp.shape.highOk hh) (by rw [List.length_drop]; omega)
      simp only [List.length_drop] at hih
      exact (hih _).mono fun ret s' hpost => hpost.step hp hr hv hlen ha
    · refine .ite_pos rfl (wp_pure.2 (.of_prepared hp fun hall => hna ?_))
      obtain ⟨h1, h2, h3⟩ := hall _ (.first hlen)
      rcases hp.page with ⟨_, hcow⟩ | ⟨rfl, _, _⟩
      · rw [h3] at hcow
        cases hcow
      · exact ⟨h1, h2⟩

theorem Good.copyout (h : Good L s g S) (hr : r ∈ S) (hh : HighOk g r) :
    Wp (copyout L (r * PGSIZE) dstva src) NoError (CopyoutPost L S r dstva src.length s g) s :=
  h.copyoutLoop_spec hr hh (Nat.le_refl _)

/-- Bytes copied out to a page that is mapped and not COW are written there. -/
theorem Good.copyout_page (h : Good L s g S) (hr : r ∈ S) (hh : HighOk g r)
    (hv : d / PGSIZE < TFV) (ha : Accessible (g.pt r (d / PGSIZE)))
    (hcow : (g.pt r (d / PGSIZE)).getLsbD 8 = false) (hlen : 0 < b.length)
    (hfit : d % PGSIZE + b.length ≤ PGSIZE) :
    Wp (PbsCow.copyout L (r * PGSIZE) d b) NoError (fun ret s' => ret = 0 ∧
      s' = s.setPage (ppn (g.pt r (d / PGSIZE)))
        ((s.ram (ppn (g.pt r (d / PGSIZE)))).setBytes (d % PGSIZE) b)) s := by
  obtain ⟨k, hk⟩ := Nat.exists_eq_succ_of_ne_zero (Nat.ne_of_gt hlen)
  have hoff : d - d / PGSIZE * PGSIZE = d % PGSIZE := by
    rw [Nat.mul_comm, Nat.mod_eq_sub_mul_div]
  have hmin : min (PGSIZE - d % PGSIZE) b.length = b.length := Nat.min_eq_right (by omega)
  rw [PbsCow.copyout, hk, copyoutLoop]
  refine .ite_neg (Nat.ne_of_gt hlen) ?_
  simp only [PGROUNDDOWN, hoff, hmin, List.take_length, List.drop_length]
  refine .bind (h.cowalloc hr hh) ?_
  rintro ret s₁ hc
  obtain ⟨rfl, rfl⟩ : ret = 0 ∧ s = s₁ := by
    rcases hc with ⟨_, _, hmax | h0 | ⟨h8, _⟩⟩ | ⟨rfl, rfl, _⟩ | ⟨_, _, _, h8, _⟩
    · exact absurd hmax (by simp only [TFV, MAXV] at *; omega)
    · exact (ha.ne_zero h0).elim
    · rw [hcow] at h8
      cases h8
    · exact ⟨rfl, rfl⟩
    · rw [hcow] at h8
      cases h8
  refine .ite_neg (by decide) (.bind (h.walkaddr hr) ?_)
  rintro pa _ ⟨rfl, ⟨_, _, rfl⟩ | ⟨rfl, hna⟩⟩
  · refine .ite_neg (h.pos hr hv ha.ne_zero) ?_
    have hlt : d % PGSIZE < PGSIZE := Nat.mod_lt _ (by decide)
    have hdiv : (ppn (g.pt r (d / PGSIZE)) * PGSIZE + d % PGSIZE) / PGSIZE =
        ppn (g.pt r (d / PGSIZE)) := by
      rw [Nat.mul_comm, Nat.mul_add_div (by decide), Nat.div_eq_of_lt hlt, Nat.add_zero]
    have hmod : (ppn (g.pt r (d / PGSIZE)) * PGSIZE + d % PGSIZE) % PGSIZE =
        d % PGSIZE := by
      rw [Nat.mul_comm, Nat.mul_add_mod, Nat.mod_mod]
    simp only [memmoveIn, wp_bind, wp_modify, PTE2PA_eq, hdiv, hmod]
    cases k with
    | zero => exact wp_pure.2 ⟨rfl, rfl⟩
    | succ k => exact .ite_pos rfl (wp_pure.2 ⟨rfl, rfl⟩)
  · exact (hna ⟨Nat.lt_trans hv (by decide), ha⟩).elim

end PbsCow
