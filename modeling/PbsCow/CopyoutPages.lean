import PbsCow.CowallocContract
import PbsCow.StoreRoom

namespace PbsCow
set_option autoImplicit true

/-- A COW page whose old copy stays in use when it gets a new one. -/
def SharedCow (count : Nat → Int) (e : Word) : Prop := flag e PTE_COW = true ∧ 1 < count (ppn e)

instance : Decidable (SharedCow count e) := inferInstanceAs (Decidable (_ ∧ _))

/-- How many of the pages from `d` up to `w` are COW and shared. -/
def sharedCows (pt : Nat → Word) (count : Nat → Int) (d w : Nat) : Nat :=
  (List.range' d (w - d)).countP fun u => decide (SharedCow count (pt u))

/-- Every page touched is there for user code, and there is a free page for each COW page when its turn
comes: each of those before it has taken one, and has given its old page back unless that is shared. -/
def CopyoutRoom (pt : Nat → Word) (count : Nat → Int) (free : List Nat) (dstva len : Nat) : Prop :=
  0 < len → ∀ w, InRange dstva len w → w * PGSIZE < MAXVA ∧ Accessible (pt w) ∧
    (flag (pt w) PTE_COW = true → sharedCows pt count (dstva / PGSIZE) w < free.length)

/-- The room that an address space with these PTEs leaves `copyout`. -/
def Room.of (pt : Nat → Word) (count : Nat → Int) (free : Nat) : Room where
  page w :=
    if w < MAXV then
      ⟨decide (pt w ≠ 0), decide (Accessible (pt w)), flag (pt w) PTE_COW,
        decide (SharedCow count (pt w))⟩
    else ⟨false, false, false, false⟩
  free := free

theorem Room.of_page (pt : Nat → Word) (count : Nat → Int) (free : Nat) (hw : w < MAXV) :
    (Room.of pt count free).page w = ⟨decide (pt w ≠ 0), decide (Accessible (pt w)),
      flag (pt w) PTE_COW, decide (SharedCow count (pt w))⟩ :=
  if_pos hw

theorem Room.of_user {pt : Nat → Word} {count : Nat → Int} :
    ((Room.of pt count n).page w).user = true ↔ w < MAXV ∧ Accessible (pt w) := by
  rw [Room.of]
  dsimp only
  split
  · next hw => rw [decide_eq_true_iff, and_iff_right hw]
  · next hw => exact iff_of_false Bool.false_ne_true fun h => hw h.1

theorem Room.of_mapped {pt : Nat → Word} {count : Nat → Int} :
    ((Room.of pt count n).page w).mapped = true ↔ w < MAXV ∧ pt w ≠ 0 := by
  rw [Room.of]
  dsimp only
  split
  · next hw => rw [decide_eq_true_iff, and_iff_right hw]
  · next hw => exact iff_of_false Bool.false_ne_true fun h => hw h.1

theorem Room.of_congr (h : ∀ w, w < MAXV → pt' w = pt w) :
    Room.of pt' count n = Room.of pt count n := by
  rw [Room.of, Room.of, Room.mk.injEq, and_iff_left rfl]
  funext w
  split
  · next hw => rw [h w hw]
  · rfl

theorem Room.sharedBefore_of (pt : Nat → Word) (count : Nat → Int) (free : Nat) (hw : w < MAXV) :
    (Room.of pt count free).sharedBefore d w = sharedCows pt count d w := by
  refine List.countP_congr fun u hu => ?_
  rw [List.mem_range'_1] at hu
  rw [Room.of_page pt count free (by omega)]

theorem Room.fits_of_iff : (Room.of pt count l.length).Fits dstva len ↔ CopyoutRoom pt count l dstva len := by
  refine forall_congr' fun _ => forall_congr' fun w => forall_congr' fun _ => ?_
  have hmax : w * PGSIZE < MAXVA ↔ w < MAXV := by
    rw [MAXVA_eq]
    exact Nat.mul_lt_mul_right (by decide)
  rw [Room.of_mapped, Room.of_user, hmax]
  constructor
  · rintro ⟨⟨hw, _⟩, ⟨_, ha⟩, hc⟩
    rw [Room.of_page pt count l.length hw, Room.sharedBefore_of pt count l.length hw] at hc
    exact ⟨hw, ha, hc⟩
  · rintro ⟨hw, ha, hc⟩
    rw [Room.of_page pt count l.length hw, Room.sharedBefore_of pt count l.length hw]
    exact ⟨⟨hw, ha.ne_zero⟩, ⟨hw, ha⟩, hc⟩

/-- The room of the address space `r`. -/
def Ghost.room (g : Ghost) (s : Mem) (r : Nat) : Room := Room.of (g.pt r) s.count g.free.length

theorem FreeRep.unique (h : FreeRep L s l) (h' : FreeRep L s l') : l = l' := by
  refine h.chain.unique h'.chain (fun hm => ?_) fun hm => ?_
  · exact absurd (h.managed 0 hm).pos (by decide)
  · exact absurd (h'.managed 0 hm).pos (by decide)

theorem FreeRep.store (h : FreeRep L s l) (hx : x ∉ l) (hi : i < 512) :
    FreeRep L (s.store (x * PGSIZE + 8 * i) e) l := by
  rw [Mem.store_slot _ x hi]
  exact h.setPage hx

/-- The free list after a page has moved. -/
theorem Good.moved_freeRep (h : Good L s g S) (hr : r ∈ S) (hv : v < TFV) (hne : g.pt r v ≠ 0)
    (hf : g.free = x :: f) (hq : g.own q = .table r 0 (v / 512)) (hi : i < 512) :
    FreeRep L (s.moved x (ppn (g.pt r v)) (q * PGSIZE + 8 * i) e)
      (if s.count (ppn (g.pt r v)) = 1 then ppn (g.pt r v) :: f else f) := by
  have hu := h.space.target r hr v hv hne
  have hux := h.ppn_ne_free hr hv hne hf
  have hmem (y : Nat) (hy : g.own y ≠ .free) : y ∉ x :: f := by
    rwa [← hf, h.rep.page.mem_free]
  have huf : ppn (g.pt r v) ∉ x :: f := hmem _ (by simp [hu])
  have hqf : q ∉ x :: f := hmem _ (by simp [hq])
  have hrep : FreeRep L s (x :: f) := hf ▸ h.rep.page.freeRep
  have hone : ((s.alloc x).setPage x (s.ram (ppn (g.pt r v)))).count (ppn (g.pt r v)) =
      s.count (ppn (g.pt r v)) := Function.update_of_ne hux _ _
  have hcopy := hrep.alloc.setPage (p := s.ram (ppn (g.pt r v))) (List.nodup_cons.1 hrep.nodup).1
  have huf' : ppn (g.pt r v) ∉ f := fun hm => huf (List.mem_cons_of_mem _ hm)
  have hqf' : q ∉ f := fun hm => hqf (List.mem_cons_of_mem _ hm)
  rw [Mem.moved, Mem.drop, hone]
  split
  · have hqu : q ∉ ppn (g.pt r v) :: f := by
      rw [List.mem_cons]
      rintro (rfl | hm)
      · rw [hq] at hu
        cases hu
      · exact hqf' hm
    have hm := (h.rep.page.managed (ppn (g.pt r v))).1 (by simp [hu])
    exact ((hcopy.release hm huf').store hqu hi).store hqu hi
  · exact ((hcopy.setCount huf').store hqf' hi).store hqf' hi

/-- The pages of `r` are the same after `cowalloc` for page `v`, wherever they now are. -/
structure SamePages (r v : Nat) (s s' : Mem) (g g' : Ghost) : Prop where
  flags : ∀ w i, i < 10 → i ≠ 2 → i ≠ 8 → (g'.pt r w).getLsbD i = (g.pt r w).getLsbD i
  high : ∀ w, TFV ≤ w → g'.pt r w = g.pt r w
  self : (g'.pt r v).getLsbD 8 = false
  other : ∀ w, w ≠ v → g'.pt r w = g.pt r w
  data : ∀ w, w < TFV → g.pt r w ≠ 0 → s'.ram (ppn (g'.pt r w)) = s.ram (ppn (g.pt r w))
  count : ∀ w, w < TFV → w ≠ v → g.pt r w ≠ 0 → s'.count (ppn (g.pt r w)) = s.count (ppn (g.pt r w))
  free : g'.free.length + (if SharedCow s.count (g.pt r v) then 1 else 0) = g.free.length

theorem SamePages.accessible (h : SamePages r v s s' g g') (w : Nat) :
    Accessible (g'.pt r w) ↔ Accessible (g.pt r w) := by
  rw [Accessible, Accessible, flag_V, flag_U, flag_V, flag_U, h.flags w 0 (by decide) (by decide) (by decide),
    h.flags w 4 (by decide) (by decide) (by decide)]

theorem SamePages.refl (r v : Nat) (s : Mem) (g : Ghost) (hv : (g.pt r v).getLsbD 8 = false) :
    SamePages r v s s g g where
  flags _ _ _ _ _ := rfl
  high _ _ := rfl
  self := hv
  other _ _ := rfl
  data _ _ _ := rfl
  count _ _ _ _ := rfl
  free := by
    rw [if_neg, Nat.add_zero]
    rintro ⟨hc, _⟩
    rw [flag_COW, hv] at hc
    cases hc

theorem Good.samePages (h : Good L s g S) (hr : r ∈ S) (hv : v < TFV) (hne : g.pt r v ≠ 0)
    (hcow : (g.pt r v).getLsbD 8 = true) (hf : g.free = x :: f) (hg' : Good L s' g' S)
    (hu : Unshared r v s s' g g')
    (hs' : s' = s.moved x (ppn (g.pt r v)) (q * PGSIZE + 8 * (v % 512)) e)
    (hq : g.own q = .table r 0 (v / 512)) : SamePages r v s s' g g' := by
  obtain ⟨y, hy, hram, hpt⟩ := hu.copy
  have hflags := (h.space.leaf r hr v hv hne).flags
  have hux := h.ppn_ne_free hr hv hne hf
  have hother (w : Nat) (hw : w ≠ v) : g'.pt r w = g.pt r w := by rw [hpt, Function.update_of_ne hw]
  have hself : g'.pt r v = mkPte y (uncowFlags (PTE_FLAGS (g.pt r v))) := by
    rw [hpt, Function.update_self]
  have hslot : v % 512 < 512 := Nat.mod_lt _ (by decide)
  refine ⟨fun w i hi h2 h8 => ?_, fun w hw => hother w (by omega), ?_, hother, fun w hw hw0 => ?_,
    fun w hw hwv hw0 => ?_, ?_⟩
  · by_cases hwv : w = v
    · subst hwv
      rw [hself, getLsbD_mkPte _ _ hi, getLsbD_uncowFlags _ (by omega), getLsbD_PTE_FLAGS _ hi]
      rw [bne_iff_ne.2 h8, beq_eq_false_iff_ne.2 h2, Bool.and_true, Bool.or_false]
    · rw [hother w hwv]
  · rw [hself, getLsbD_mkPte _ _ (by decide), uncowFlags_COW]
  · by_cases hwv : w = v
    · subst hwv
      rw [hself, ppn_mkPte hy hflags.uncow.lt, hram]
    · rw [hother w hwv]
      exact hu.keep w hw hwv hw0
  · have hwu : ppn (g.pt r w) ≠ ppn (g.pt r v) := by
      intro he
      exact hwv (h.space.inj r hr v w hv hw hne ⟨hw0, he⟩)
    rw [hs', Mem.moved_count _ hslot hux, if_neg hwu, if_neg (h.ppn_ne_free hr hw hw0 hf)]
  · have hfree := hg'.rep.page.freeRep.unique (hs' ▸ h.moved_freeRep hr hv hne hf hq hslot)
    have hpos := h.rep.page.count_user _ (h.space.target r hr v hv hne)
    rw [hfree, hf, List.length_cons]
    by_cases hone : s.count (ppn (g.pt r v)) = 1
    · rw [if_pos hone, if_neg (fun hs => by have := hs.2; omega), List.length_cons]
    · rw [if_neg hone, if_pos ⟨by rwa [flag_COW], by omega⟩]

theorem SamePages.sharedCow (hp : SamePages r v s s' g g') (h : Good L s g S) (hr : r ∈ S)
    (hh : HighOk g r) (hu : u ≠ v) : SharedCow s'.count (g'.pt r u) ↔ SharedCow s.count (g.pt r u) := by
  rw [SharedCow, SharedCow, hp.other u hu]
  refine and_congr_right fun hc => ?_
  rw [flag_COW] at hc
  have hne : g.pt r u ≠ 0 := by
    intro h0
    rw [h0] at hc
    cases hc
  have hmax : u < MAXV := by
    by_contra hmax
    exact hne (h.space.high r hr u (by omega))
  have hlt : u < TFV := by
    by_contra hlt
    rw [(hh u (by omega) hmax hne).1] at hc
    cases hc
  rw [hp.count u hlt hu hne]

theorem SamePages.ne_zero (hp : SamePages r v s s' g g') (h : Good L s g S) (hr : r ∈ S) (hw : w < TFV)
    (hne : g.pt r w ≠ 0) : g'.pt r w ≠ 0 := by
  intro h0
  have hvalid := (h.space.leaf r hr w hw hne).flag_V
  rw [flag_V, ← hp.flags w 0 (by decide) (by decide) (by decide), h0] at hvalid
  cases hvalid

/-- The room that is left is that of the model. -/
theorem SamePages.room (hp : SamePages r v s s' g g') (h : Good L s g S) (hr : r ∈ S)
    (hh : HighOk g r) (hv : v < MAXV) (hne : g.pt r v ≠ 0)
    (hfree : flag (g.pt r v) PTE_COW = true → 0 < g.free.length) :
    (g.room s r).cowalloc v = some (g'.room s' r) := by
  have hpage := Room.of_page (g.pt r) s.count g.free.length hv
  have hpage' := Room.of_page (g'.pt r) s'.count g'.free.length hv
  have hne' : g'.pt r v ≠ 0 := by
    rcases Nat.lt_or_ge v TFV with hlt | hge
    · exact hp.ne_zero h hr hlt hne
    · rwa [hp.high v hge]
  have hcow : flag (g'.pt r v) PTE_COW = false := by rw [flag_COW, hp.self]
  rw [Room.cowalloc, Ghost.room, hpage, if_pos ⟨decide_eq_true hne, hfree⟩, Option.some.injEq,
    Ghost.room, Room.mk.injEq]
  constructor
  · funext w
    rw [Function.update_apply]
    split
    · next he =>
      subst he
      have hns : ¬ SharedCow s'.count (g'.pt r w) := by
        rintro ⟨hc, _⟩
        rw [hcow] at hc
        cases hc
      rw [hpage', hcow, decide_eq_true hne, decide_eq_true hne', decide_eq_decide.2 (hp.accessible w),
        decide_eq_false hns]
    · next hwv =>
      rw [Room.of, Room.of]
      dsimp only
      rw [decide_eq_decide.2 (hp.sharedCow h hr hh hwv), hp.other w hwv]
  · have hf := hp.free
    simp only [Room.of, decide_eq_true_eq]
    omega

/-- `cowalloc` does to the room what the model says. -/
theorem Good.cowalloc_samePages (h : Good L s g S) (hr : r ∈ S) (hh : HighOk g r) :
    Wp (PbsCow.cowalloc L (r * PGSIZE) (v * PGSIZE)) NoError (fun ret s' =>
      ret = -1 ∧ s = s' ∧ (g.room s r).cowalloc v = none ∨
      ret = 0 ∧ v < MAXV ∧ ∃ g', Good L s' g' S ∧ SamePages r v s s' g g' ∧
        (g.room s r).cowalloc v = some (g'.room s' r)) s := by
  obtain ⟨ret, s', he, hpost⟩ := (h.cowalloc hr hh (v := v)).exists_ok
  refine .of_ok he ?_
  rcases hpost with ⟨rfl, rfl, hwhy⟩ | ⟨rfl, rfl, hv, hne, hcow⟩ | ⟨rfl, hv, hne, hcow, hfree, g', hg', _, hu⟩
  · refine .inl ⟨rfl, rfl, if_neg ?_⟩
    rintro ⟨hm, hroom⟩
    obtain ⟨hv, hne⟩ := Room.of_mapped.1 hm
    rw [Ghost.room, Room.of_page _ _ _ hv] at hroom
    rcases hwhy with hmax | h0 | ⟨hcow, hnil⟩
    · omega
    · exact hne h0
    · have hpos : 0 < g.free.length := hroom (by rwa [flag_COW])
      rw [hnil] at hpos
      exact Nat.lt_irrefl _ hpos
  · have hp : SamePages r v s s g g := .refl _ _ _ _ hcow
    refine .inr ⟨rfl, hv, g, h, hp, hp.room h hr hh hv hne fun hc => ?_⟩
    rw [flag_COW, hcow] at hc
    cases hc
  · have hmax : v < MAXV := Nat.lt_trans hv (by decide)
    obtain ⟨x, f, hf⟩ := List.exists_cons_of_ne_nil hfree
    obtain ⟨q, hq⟩ := h.leaf_table hne
    have hp := h.samePages hr hv hne hcow hf hg' hu ((h.cowalloc_moved hr hv hne hcow hf hq).of_eq_ok he).2 hq
    exact .inr ⟨rfl, hmax, g', hg', hp, hp.room h hr hh hmax hne fun _ => List.length_pos_iff.2 hfree⟩

end PbsCow
