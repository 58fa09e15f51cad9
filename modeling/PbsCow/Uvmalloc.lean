import PbsCow.Fresh

namespace PbsCow
set_option autoImplicit true

/-- The number of pages of a process of `sz` bytes. -/
def npages (sz : Nat) : Nat := (sz + (PGSIZE - 1)) / PGSIZE

theorem PGROUNDUP_npages (h : sz + PGSIZE ≤ 2 ^ 64) : PGROUNDUP sz = npages sz * PGSIZE :=
  PGROUNDUP_eq h

theorem npages_page (n : Nat) : npages (n * PGSIZE) = n := by
  simp only [npages, PGSIZE]
  omega

theorem pagesBetween_npages (u newsz : Nat) :
    pagesBetween (u * PGSIZE) newsz = npages newsz - u := by
  simp only [pagesBetween, npages, PGSIZE]
  omega

theorem npages_mono (h : sz ≤ sz') : npages sz ≤ npages sz' :=
  Nat.div_le_div_right (Nat.add_le_add_right h _)

theorem add_le_of_npages (h : npages sz ≤ TFV) : sz + PGSIZE ≤ 2 ^ 64 := by
  simp only [npages, PGSIZE, TFV] at *
  omega

/-- Distinct user pages lie in distinct physical pages, so there are at most as many. -/
theorem Good.mapped_le (h : Good L s g S) (hr : r ∈ S) (hn : n ≤ TFV)
    (hall : ∀ w, w < n → g.pt r w ≠ 0) : n ≤ 557056 := by
  have hcard := Finset.card_le_card_of_injOn (s := Finset.range n) (t := Finset.range 557056)
    (fun w => ppn (g.pt r w)) ?_ ?_
  · simpa using hcard
  · intro w hw
    have hw : w < n := by simpa using hw
    have hu := h.space.target r hr w (by omega) (hall w hw)
    simpa using ((h.rep.page.managed _).1 (by simp [hu])).lt
  · intro w hw w' hw' he
    have hw : w < n := by simpa using hw
    have hw' : w' < n := by simpa using hw'
    exact h.space.inj r hr w' w (by omega) (by omega) (hall w' hw') ⟨hall w hw, he⟩

theorem Good.uvmdealloc (h : Good L s g S) (hr : r ∈ S) (hn : npages oldsz ≤ TFV)
    (hall : ∀ w, w < npages oldsz → g.pt r w ≠ 0) :
    Wp (uvmdealloc L (r * PGSIZE) oldsz newsz) NoError (fun ret s' =>
      ∃ g', Good L s' g' S ∧ Frame S {r} s s' g g' ∧ Keeps r s s' g' ∧ FreeSuffix g g' ∧
        ret = min oldsz newsz ∧
        g'.pt r = clearRange (g.pt r) (npages newsz) (npages oldsz - npages newsz)) s := by
  rw [PbsCow.uvmdealloc]
  refine .ite (fun hle => ?_) fun hlt => ?_
  · have hd : npages oldsz - npages newsz = 0 := Nat.sub_eq_zero_of_le (npages_mono hle)
    refine wp_pure.2 ⟨g, h, .refl _ _ _ _, fun _ _ _ => rfl, .refl g, (Nat.min_eq_left hle).symm, ?_⟩
    rw [hd, clearRange_zero]
  · have hle : newsz ≤ oldsz := by omega
    have hmin : newsz = min oldsz newsz := (Nat.min_eq_right hle).symm
    have hmono := npages_mono hle
    rw [PGROUNDUP_npages (add_le_of_npages hn), PGROUNDUP_npages (add_le_of_npages (by omega)),
      ← Nat.sub_mul, page_div]
    refine .ite (fun hc => ?_) fun hc => ?_
    · refine .bind (h.uvmunmap_free hr (v := npages newsz) (by omega) ?_) ?_
      · intro w _ hw
        exact hall w (by omega)
      · rintro _ s' ⟨g', hg, hfr, hk, hs, _, hp⟩
        exact wp_pure.2 ⟨g', hg, hfr, hk, hs, hmin, hp⟩
    · have hd : npages oldsz - npages newsz = 0 := by
        have hp : 0 < PGSIZE := by decide
        have hge := Nat.le_of_mul_le_mul_right (Nat.le_of_not_lt hc) hp
        omega
      refine wp_pure.2 ⟨g, h, .refl _ _ _ _, fun _ _ _ => rfl, .refl g, hmin, ?_⟩
      rw [hd, clearRange_zero]

/-- The address space `r` has gained the zeroed pages `v` to `v + n`, and is unchanged elsewhere. -/
structure Grown (r v n : Nat) (f : Word) (s s' : Mem) (g g' : Ghost) : Prop where
  old : ∀ w, ¬ (v ≤ w ∧ w < v + n) → g'.pt r w = g.pt r w
  keep : ∀ w, w < TFV → ¬ (v ≤ w ∧ w < v + n) → g.pt r w ≠ 0 →
    s'.ram (ppn (g.pt r w)) = s.ram (ppn (g.pt r w))
  new : ∀ w, v ≤ w → w < v + n →
    ∃ x, x < 2 ^ 44 ∧ g'.pt r w = mkPte x f ∧ (s'.ram x = fun _ => 0) ∧ g.own x ≠ .user

theorem Grown.refl (r v : Nat) (f : Word) (s : Mem) (g : Ghost) : Grown r v 0 f s s g g :=
  ⟨fun _ _ => rfl, fun _ _ _ _ => rfl, fun w h h' => by omega⟩

theorem Grown.pt_ne_zero (h : Grown r v n f s s' g g') (hf : UserFlags f)
    (hall : ∀ w, w < v → g.pt r w ≠ 0) : ∀ w, w < v + n → g'.pt r w ≠ 0 := by
  intro w hw
  by_cases hv : v ≤ w
  · obtain ⟨x, _, hx, _⟩ := h.new w hv hw
    rw [hx]
    exact hf.mkPte_ne_zero x
  · rw [h.old w (by omega)]
    exact hall w (by omega)

/-- One page gained, and then `n` more. -/
theorem Grown.cons (h : Grown r v 1 f s s' g g') (h' : Grown r (v + 1) n f s' s'' g' g'')
    (hv : v < TFV) (hf : UserFlags f) (hused : ∀ x, g.own x = .user → g'.own x = .user) :
    Grown r v (n + 1) f s s'' g g'' := by
  refine ⟨fun w hw => ?_, fun w hw hw' hm => ?_, fun w hw hw' => ?_⟩
  · rw [h'.old w (by omega), h.old w (by omega)]
  · have hold := h.old w (by omega)
    have h2 := h'.keep w hw (by omega) (by rw [hold]; exact hm)
    rw [hold] at h2
    exact h2.trans (h.keep w hw (by omega) hm)
  · by_cases he : w = v
    · subst he
      obtain ⟨x, hlt, hx, hz, hu⟩ := h.new w (by omega) (by omega)
      have hk := h'.keep w hv (by omega) (by rw [hx]; exact hf.mkPte_ne_zero x)
      rw [hx, ppn_mkPte hlt hf.lt, hz] at hk
      exact ⟨x, hlt, by rw [h'.old w (by omega), hx], hk, hu⟩
    · obtain ⟨x, hlt, hx, hz, hu⟩ := h'.new w (by omega) (by omega)
      exact ⟨x, hlt, hx, hz, fun ho => hu (hused x ho)⟩

/-- The part of the address space below `u * PGSIZE` is as before, and nothing is left above. -/
structure Restored (r u v : Nat) (s s' : Mem) (g g' : Ghost) : Prop where
  pt : g'.pt r = clearRange (g.pt r) u (v - u)
  keep : Keeps r s s' g'

theorem Good.uvmalloc_undo (h : Good L s g S) (hr : r ∈ S) (hv : v ≤ TFV)
    (hall : ∀ w, w < v → g.pt r w ≠ 0) :
    Wp (do
      let _ ← PbsCow.uvmdealloc L (r * PGSIZE) (v * PGSIZE) (u * PGSIZE)
      return 0) NoError (fun ret s' =>
      ∃ g', Good L s' g' S ∧ Frame S {r} s s' g g' ∧ ret = 0 ∧ Restored r u v s s' g g') s := by
  have hd : Wp (PbsCow.uvmdealloc L (r * PGSIZE) (v * PGSIZE) (u * PGSIZE)) NoError _ s :=
    h.uvmdealloc hr (by rwa [npages_page]) (by rwa [npages_page])
  refine .bind hd ?_
  rintro _ s' ⟨g', hg, hfr, hk, _, _, hp⟩
  rw [npages_page, npages_page] at hp
  exact wp_pure.2 ⟨g', hg, hfr, rfl, hp, hk⟩

/-- A page taken from the free list has been mapped at `v`. -/
theorem Good.grown_one (h : Good L s g S) (hr : r ∈ S) (hf : g.free = x :: f)
    (hd : SameData ((s.alloc x).setPage x fun _ => 0) s' (g.take x f))
    (hp : g'.pt r = Function.update (g.pt r) v (mkPte x e)) :
    Grown r v 1 e s s' g g' := by
  have hfree := h.rep.free_of_cons hf
  have hlt := h.rep.page.lt44 (x := x) (by simp [hfree])
  refine ⟨fun w hw => ?_, fun w hw _ hm => ?_, fun w hw hw' => ?_⟩
  · rw [hp, Function.update_of_ne (by omega)]
  · have hu := h.space.target r hr w hw hm
    have hne : ppn (g.pt r w) ≠ x := by
      intro he
      simp [he, hfree] at hu
    rw [hd _ (.inl ((g.take_own hne).trans hu))]
    simp [Mem.setPage, Mem.alloc, hne]
  · have he : w = v := by omega
    refine ⟨x, hlt, ?_, ?_, by simp [hfree]⟩
    · rw [hp, he, Function.update_self]
    · rw [hd x (.inr ⟨_, g.take_own_self⟩)]
      exact Function.update_self _ _ _

/-- A page stays in use as long as whoever maps it does. -/
theorem Good.used_of_mapped (h : Good L s g S) (h' : Good L s' g' S)
    (hpt : ∀ r ∈ S, ∀ v, v < TFV → g.pt r v ≠ 0 → g'.pt r v = g.pt r v) (hx : g.own x = .user) :
    g'.own x = .user := by
  have hpos := h.rep.page.count_user x hx
  rw [h.space.count x hx] at hpos
  obtain ⟨⟨r, v⟩, hm⟩ := Finset.card_pos.1 (by omega : 0 < (mappers g S x).card)
  obtain ⟨hr, hv, hne, hp⟩ := mem_mappers.1 hm
  have he := hpt r hr v hv hne
  rw [← hp, ← he]
  exact h'.space.target r hr v hv (by rwa [he])

theorem Restored.step (h : Restored r u (v + 1) s' s'' g' g'') (hg : Grown r v 1 e s s' g g')
    (hu : u ≤ v) (h0 : g.pt r v = 0) : Restored r u v s s'' g g'' := by
  have hpt : g''.pt r = clearRange (g.pt r) u (v - u) := by
    funext w
    rw [h.pt, clearRange, clearRange]
    by_cases hw : w = v
    · rw [if_pos (by omega), if_neg (by omega), hw, h0]
    · rw [hg.old w (by omega)]
      have hiff : u ≤ w ∧ w < u + (v + 1 - u) ↔ u ≤ w ∧ w < u + (v - u) := by omega
      simp only [hiff]
  refine ⟨hpt, fun w hw hm => ?_⟩
  rw [h.keep w hw hm]
  have hne : w ≠ v := by
    rintro rfl
    rw [h.pt] at hm
    exact hm (if_pos (by omega))
  rw [hpt] at hm ⊢
  by_cases hc : u ≤ w ∧ w < u + (v - u)
  · exact (hm (if_pos hc)).elim
  · rw [clearRange, if_neg hc] at hm ⊢
    exact hg.keep w hw (by omega) hm

theorem Good.uvmallocLoop_spec (h : Good L s g S) (hr : r ∈ S) (huv : u ≤ v) (hv : v ≤ TFV)
    (hall : ∀ w, w < v → g.pt r w ≠ 0) (hnone : ∀ w, v ≤ w → w < TFV → g.pt r w = 0)
    (hf : UserFlags (PTE_R ||| PTE_U ||| xperm ||| PTE_V)) :
    Wp (uvmallocLoop L (r * PGSIZE) (u * PGSIZE) newsz xperm n (v * PGSIZE)) NoError (fun ret s' =>
      ∃ g', Good L s' g' S ∧ Frame S {r} s s' g g' ∧
        (ret = newsz ∧ Uses (3 * n) g g' ∧ v + n ≤ TFV ∧
            Grown r v n (PTE_R ||| PTE_U ||| xperm ||| PTE_V) s s' g g' ∨
          ret = 0 ∧ 0 < n ∧ g.free.length ≤ 3 * n ∧ Restored r u v s s' g g')) s := by
  induction n generalizing s g v with
  | zero =>
    exact wp_pure.2 ⟨g, h, .refl _ _ _ _, .inl ⟨rfl, Nat.le_refl _, hv, .refl _ _ _ _ _⟩⟩
  | succ n ih =>
    -- physical memory runs out long before the address space does
    have hvlt : v < TFV := Nat.lt_of_le_of_lt (h.mapped_le hr hv hall) (by decide)
    rw [uvmallocLoop]
    cases hfr : g.free with
    | nil =>
      refine .bind_ok (kalloc_nil (hfr ▸ h.rep.page.freeRep)) (.ite_pos rfl ?_)
      refine (h.uvmalloc_undo hr hv hall).mono ?_
      rintro ret s' ⟨g', hg, hframe, rfl, hrest⟩
      exact ⟨g', hg, hframe, .inr ⟨rfl, by omega, by simp, hrest⟩⟩
    | cons x f =>
      have hfree := h.rep.free_of_cons hfr
      have hm := (h.rep.page.managed x).1 (by simp [hfree])
      refine .bind_ok (kalloc_cons (hfr ▸ h.rep.page.freeRep)) (.ite_neg (Nat.ne_of_gt hm.pos) ?_)
      simp only [memset, wp_bind, wp_modify, page_div, repeatByte_zero]
      have hgood := h.take hfr fun _ => 0
      refine (hgood.mapHeld hr hvlt (hnone v (Nat.le_refl v) hvlt) g.take_own_self hf).mono ?_
      rintro ret s' ⟨g', hg, hframe, hd, huse, ⟨rfl, hp, hx⟩ | ⟨rfl, hp, hempty, hx, _⟩⟩
      · refine .ite_neg (by decide) ?_
        have hgrown := h.grown_one hr hfr hd hp
        have hframe' := hframe.of_take h.space hfree (by simp [hx])
        have huse' : Uses 3 g g' := by
          simp only [Uses, Ghost.take_free, hfr, List.length_cons] at huse ⊢
          omega
        have hs : v * PGSIZE + PGSIZE = (v + 1) * PGSIZE := (Nat.succ_mul v PGSIZE).symm
        rw [hs]
        have hused (y : Nat) : g.own y = .user → g'.own y = .user :=
          h.used_of_mapped hg fun r' _ w hw hm => by
            by_cases hrr : r' = r
            · subst hrr
              refine hgrown.old w fun hw' => hm ?_
              rw [show w = v by omega]
              exact hnone v (Nat.le_refl v) hvlt
            · rw [hframe'.pt r' (by simpa using hrr)]
        refine (ih hg (by omega) (by omega) (hgrown.pt_ne_zero hf hall) fun w hw hw' => ?_).mono ?_
        · rw [hgrown.old w (by omega)]
          exact hnone w (by omega) hw'
        · rintro ret s'' ⟨g'', hg', hframe'', hret⟩
          refine ⟨g'', hg', hframe'.trans hframe'' fun _ h _ => h, ?_⟩
          rcases hret with ⟨hret, hu, hle, hgr⟩ | ⟨hret, _, hle, hrest⟩
          · refine .inl ⟨hret, ?_, by omega, hgrown.cons hgr hvlt hf hused⟩
            have hu' := huse'.trans hu
            rwa [show 3 + 3 * n = 3 * (n + 1) by omega] at hu'
          · refine .inr ⟨hret, by omega, ?_, hrest.step hgrown huv (hnone v (Nat.le_refl v) hvlt)⟩
            have hu : g.free.length ≤ g'.free.length + 3 := huse'
            rw [hfr] at hu
            omega
      · refine .ite_pos (by decide) (.bind_ok (kfree_held hg.rep hx) ?_)
        have hrel := hg.release hx
        have hframe' : Frame S {r} s (s'.release x) g (g'.setFree x) := by
          refine Frame.of_take (p := fun _ => 0) (f := f) h.space hfree ?_ (by simp)
          exact hframe.trans (.release hg.space hx) fun _ h _ => h
        refine (hrel.uvmalloc_undo (u := u) hr hv fun w hw => ?_).mono ?_
        · show g'.pt r w ≠ 0
          rw [hp]
          exact hall w hw
        · rintro ret s'' ⟨g'', hg', hframe'', rfl, hpt, hkeep⟩
          have hle : f.length ≤ 0 + 2 := by simpa [Uses, hempty] using huse
          have hpt' : g''.pt r = clearRange (g.pt r) u (v - u) := by
            rw [hpt]
            exact congrArg (clearRange · u (v - u)) hp
          refine ⟨g'', hg', hframe'.trans hframe'' fun _ h _ => h, .inr ⟨rfl, by omega, ?_, hpt', ?_⟩⟩
          · rw [List.length_cons]
            omega
          · intro w hw hne
            rw [hkeep w hw hne]
            have he : g''.pt r w = g.pt r w := by
              rw [hpt'] at hne ⊢
              by_cases hc : u ≤ w ∧ w < u + (v - u)
              · exact (hne (if_pos hc)).elim
              · exact if_neg hc
            rw [he] at hne ⊢
            have hu := h.space.target r hr w hw hne
            have hyx : ppn (g.pt r w) ≠ x := by
              intro he
              simp [he, hfree] at hu
            have hram : (s'.release x).ram (ppn (g.pt r w)) = s'.ram (ppn (g.pt r w)) :=
              Function.update_of_ne hyx _ _
            rw [hram, hd _ (.inl ((g.take_own hyx).trans hu))]
            simp [Mem.setPage, Mem.alloc, hyx]

/-- The user part of the address space `r` consists of its first `n` pages. -/
structure Shape (g : Ghost) (r n : Nat) : Prop where
  mapped : ∀ w, w < n → g.pt r w ≠ 0
  none : ∀ w, n ≤ w → w < TFV → g.pt r w = 0
  le : n ≤ TFV

/-- The address space `r` has the same mappings and the same contents. -/
structure SameSpace (r : Nat) (s s' : Mem) (g g' : Ghost) : Prop where
  pt : g'.pt r = g.pt r
  keep : ∀ w, w < TFV → g.pt r w ≠ 0 → s'.ram (ppn (g.pt r w)) = s.ram (ppn (g.pt r w))

theorem SameSpace.refl (r : Nat) (s : Mem) (g : Ghost) : SameSpace r s s g g :=
  ⟨rfl, fun _ _ _ => rfl⟩

theorem SameSpace.trans (h : SameSpace r s s' g g') (h' : SameSpace r s' s'' g' g'') :
    SameSpace r s s'' g g'' := by
  refine ⟨h'.pt.trans h.pt, fun w hw hm => ?_⟩
  have hk := h'.keep w hw (by rwa [h.pt])
  rw [h.pt] at hk
  exact hk.trans (h.keep w hw hm)

theorem Frame.same (h : Frame S R s s' g g') (hr : r ∈ S) (hR : r ∉ R) : SameSpace r s s' g g' :=
  ⟨h.pt r hR, fun w hw hm => h.page r hr hR w hw hm⟩

theorem Shape.congr (h : Shape g r n) (hp : g'.pt r = g.pt r) : Shape g' r n :=
  ⟨fun w hw => by rw [hp]; exact h.mapped w hw,
    fun w hw hw' => by rw [hp]; exact h.none w hw hw', h.le⟩

theorem Grown.shape (h : Grown r v n f s s' g g') (hf : UserFlags f) (hs : Shape g r v)
    (hle : v + n ≤ TFV) : Shape g' r (v + n) where
  mapped := h.pt_ne_zero hf hs.mapped
  none w hw hw' := by
    rw [h.old w (by omega)]
    exact hs.none w (by omega) hw'
  le := hle

theorem Restored.same (h : Restored r u u s s' g g') : SameSpace r s s' g g' := by
  have hp := h.pt
  rw [Nat.sub_self, clearRange_zero] at hp
  exact ⟨hp, fun w hw hm => by simpa only [hp] using h.keep w hw (by rwa [hp])⟩

/-- `uvmalloc` fails only when memory is short, and then the address space is as it was. -/
theorem Good.uvmalloc (h : Good L s g S) (hr : r ∈ S) (hs : Shape g r (npages oldsz))
    (hf : UserFlags (PTE_R ||| PTE_U ||| xperm ||| PTE_V)) :
    Wp (uvmalloc L (r * PGSIZE) oldsz newsz xperm) NoError (fun ret s' =>
      ∃ g', Good L s' g' S ∧ Frame S {r} s s' g g' ∧
        (ret = max oldsz newsz ∧ Uses (3 * (npages newsz - npages oldsz)) g g' ∧
            Shape g' r (npages ret) ∧ Grown r (npages oldsz) (npages newsz - npages oldsz)
              (PTE_R ||| PTE_U ||| xperm ||| PTE_V) s s' g g' ∨
          ret = 0 ∧ oldsz < newsz ∧ g.free.length ≤ 3 * (npages newsz - npages oldsz) ∧
            SameSpace r s s' g g')) s := by
  rw [PbsCow.uvmalloc]
  refine .ite (fun hlt => ?_) fun hle => ?_
  · have hd : npages newsz - npages oldsz = 0 :=
      Nat.sub_eq_zero_of_le (npages_mono (Nat.le_of_lt hlt))
    rw [hd]
    exact wp_pure.2 ⟨g, h, .refl _ _ _ _, .inl ⟨(Nat.max_eq_left (Nat.le_of_lt hlt)).symm,
      Nat.le_refl _, hs, .refl _ _ _ _ _⟩⟩
  · have hle : oldsz ≤ newsz := Nat.le_of_not_lt hle
    have hmono := npages_mono hle
    simp only [PGROUNDUP_npages (add_le_of_npages hs.le), pagesBetween_npages]
    refine (h.uvmallocLoop_spec hr (Nat.le_refl _) hs.le hs.mapped hs.none hf).mono ?_
    rintro ret s' ⟨g', hg, hfr, ⟨rfl, huse, hv, hgr⟩ | ⟨rfl, hn, hfree, hrest⟩⟩
    · refine ⟨g', hg, hfr, .inl ⟨(Nat.max_eq_right hle).symm, huse, ?_, hgr⟩⟩
      have hsh := hgr.shape hf hs hv
      rwa [Nat.add_sub_cancel' hmono] at hsh
    · refine ⟨g', hg, hfr, .inr ⟨rfl, Nat.lt_of_le_of_ne hle ?_, hfree, hrest.same⟩⟩
      rintro rfl
      omega

end PbsCow
