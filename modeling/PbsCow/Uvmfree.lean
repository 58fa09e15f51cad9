import PbsCow.Freewalk

namespace PbsCow
set_option autoImplicit true

theorem flag_or (e a b : Word) : flag e (a ||| b) = (flag e a || flag e b) := by
  have hd : e &&& (a ||| b) = (e &&& a) ||| (e &&& b) := BitVec.and_or_distrib_left
  rw [flag, flag, flag, hd, Bool.eq_iff_iff]
  simp only [bne_iff_ne, Bool.or_eq_true, ne_eq, BitVec.or_eq_zero_iff, not_and_or]

theorem flag_link_leaf (q : Nat) : flag (mkPte q PTE_V) (PTE_R ||| PTE_W ||| PTE_X) = false := by
  rw [flag_or, flag_or, flag_R, flag_W, flag_X, getLsbD_mkPte _ _ (by decide),
    getLsbD_mkPte _ _ (by decide), getLsbD_mkPte _ _ (by decide)]
  decide

/-- The page-table page at level `l + k` above a given one. -/
theorem TableRep.above (h : TableRep ram g) (hy : g.own y = .table r l p) (hk : l + k ≤ 2) :
    ∃ z, g.own z = .table r (l + k) (p / 512 ^ k) := by
  induction k with
  | zero => exact ⟨y, by simpa using hy⟩
  | succ k ih =>
    obtain ⟨z, hz⟩ := ih (by omega)
    obtain ⟨w, hw⟩ := h.parent hz (by omega)
    exact ⟨w, by rw [Nat.add_succ, hw, Nat.div_div_eq_div_mul, ← Nat.pow_succ]⟩

/-- A valid entry of an inner page-table page. -/
theorem Rep.link_valid (h : Rep L s g) (hx : g.own x = .table r (l + 1) p) (hi : i < 512)
    (hv : flag (s.ram x i) PTE_V = true) :
    g.own (ppn (s.ram x i)) = .table r l (p * 512 + i) ∧
      s.ram x i = mkPte (ppn (s.ram x i)) PTE_V := by
  rcases h.table.link hx hi with ⟨q, hq, he⟩ | ⟨_, he⟩
  · have hp : ppn (s.ram x i) = q := by
      rw [he]
      exact ppn_mkPte (h.page.lt44 (by simp [hq])) PTE_V_lt
    rw [hp]
    exact ⟨hq, he⟩
  · rw [he] at hv
    exact absurd hv (by decide)

theorem Rep.link_of_table (h : Rep L s g) (hx : g.own x = .table r (l + 1) p) (hi : i < 512)
    (hq : g.own q = .table r l (p * 512 + i)) :
    flag (s.ram x i) PTE_V = true ∧ ppn (s.ram x i) = q := by
  rcases h.table.link hx hi with ⟨q', hq', he⟩ | ⟨hno, _⟩
  · rw [he, h.table.unique hq hq']
    exact ⟨flag_link q', ppn_mkPte (h.page.lt44 (by simp [hq'])) PTE_V_lt⟩
  · exact (hno q hq).elim

theorem Rep.mem_kids (h : Rep L s g) (hx : g.own x = .table r (l + 1) p) (hi : i < 512)
    (hmem : ∀ {q}, g.own q = .table r l (p * 512 + i) →
      ∀ y, y ∈ tablePages s.ram l q ↔ ∃ k p', k ≤ l ∧ g.own y = .table r (l - k) p' ∧
        p' / 512 ^ k = p * 512 + i) :
    ∀ y, y ∈ kids s.ram l x i ↔ ∃ k p', k ≤ l ∧ g.own y = .table r (l - k) p' ∧
      p' / 512 ^ k = p * 512 + i := by
  intro y
  rw [kids]
  split
  · next hv => exact hmem (h.link_valid hx hi hv).1 y
  · next hv =>
    refine iff_of_false (by simp) ?_
    rintro ⟨k, p', hk, hy, hp⟩
    obtain ⟨q, hq⟩ := h.table.above hy (k := k) (by have := h.table.level hx; omega)
    rw [hp, Nat.sub_add_cancel hk] at hq
    exact hv (h.link_of_table hx hi hq).1

/-- The page-table pages below a page are those whose prefix it covers. -/
theorem Rep.mem_tablePages (h : Rep L s g) (hx : g.own x = .table r l p) (y : Nat) :
    y ∈ tablePages s.ram l x ↔
      ∃ k p', k ≤ l ∧ g.own y = .table r (l - k) p' ∧ p' / 512 ^ k = p := by
  induction l generalizing x p y with
  | zero =>
    rw [tablePages, List.mem_singleton]
    constructor
    · rintro rfl
      exact ⟨0, p, Nat.le_refl 0, hx, by simp⟩
    · rintro ⟨k, p', hk, hy, hp⟩
      have hk : k = 0 := by omega
      subst hk
      rw [Nat.pow_zero, Nat.div_one] at hp
      exact h.table.unique (hp ▸ hy) hx
  | succ l ih =>
    rw [tablePages_succ, List.mem_cons, List.mem_flatMap]
    constructor
    · rintro (rfl | ⟨i, hi, hy⟩)
      · exact ⟨0, p, Nat.zero_le _, hx, by simp⟩
      · have hi : i < 512 := by simpa using (List.mem_range'_1.1 hi).2
        obtain ⟨k, p', hk, hy, hp⟩ := (h.mem_kids hx hi (fun hq y => ih hq y) y).1 hy
        refine ⟨k + 1, p', by omega, by rwa [Nat.add_sub_add_right], ?_⟩
        rw [Nat.pow_succ, ← Nat.div_div_eq_div_mul, hp]
        omega
    · rintro ⟨k, p', hk, hy, hp⟩
      cases k with
      | zero =>
        rw [Nat.pow_zero, Nat.div_one] at hp
        exact .inl (h.table.unique (hp ▸ hy) hx)
      | succ k =>
        rw [Nat.pow_succ, ← Nat.div_div_eq_div_mul] at hp
        have hi : p' / 512 ^ k % 512 < 512 := Nat.mod_lt _ (by decide)
        refine .inr ⟨p' / 512 ^ k % 512, List.mem_range'_1.2 ⟨Nat.zero_le _, by omega⟩, ?_⟩
        refine (h.mem_kids hx hi (fun hq y => ih hq y) y).2 ⟨k, p', by omega, ?_, by omega⟩
        rwa [Nat.add_sub_add_right] at hy

theorem Rep.nodup_tablePages (h : Rep L s g) (hx : g.own x = .table r l p) :
    (tablePages s.ram l x).Nodup := by
  induction l generalizing x p with
  | zero => exact List.nodup_singleton x
  | succ l ih =>
    have hkids {i : Nat} (hi : i < 512) (y : Nat) := h.mem_kids hx hi
      (fun hq y => h.mem_tablePages hq y) y
    rw [tablePages_succ, List.nodup_cons]
    refine ⟨fun hmem => ?_, List.nodup_flatMap.2 ⟨fun i hi => ?_, ?_⟩⟩
    · obtain ⟨i, hi, hy⟩ := List.mem_flatMap.1 hmem
      have hi : i < 512 := by simpa using (List.mem_range'_1.1 hi).2
      obtain ⟨k, p', _, hy, _⟩ := (hkids hi x).1 hy
      rw [hx, Owner.table.injEq] at hy
      omega
    · have hi : i < 512 := by simpa using (List.mem_range'_1.1 hi).2
      rw [kids]
      split
      · next hv => exact ih (h.link_valid hx hi hv).1
      · exact List.nodup_nil
    · refine List.Nodup.pairwise_of_forall_ne (List.nodup_range') fun i hi j hj hij => ?_
      have hi : i < 512 := by simpa using (List.mem_range'_1.1 hi).2
      have hj : j < 512 := by simpa using (List.mem_range'_1.1 hj).2
      intro y hyi hyj
      obtain ⟨k, p', hk, hy, hp⟩ := (hkids hi y).1 hyi
      obtain ⟨k', p'', hk', hy', hp'⟩ := (hkids hj y).1 hyj
      rw [hy, Owner.table.injEq] at hy'
      obtain ⟨_, hl, rfl⟩ := hy'
      have hkk : k = k' := by omega
      subst hkk
      omega

/-- The page-table pages of an address space. -/
theorem Rep.mem_tablePages_root (h : Rep L s g) (hr : g.Live r) (y : Nat) :
    y ∈ tablePages s.ram 2 r ↔ ∃ l p, g.own y = .table r l p := by
  rw [h.mem_tablePages hr]
  constructor
  · rintro ⟨k, p, _, hy, _⟩
    exact ⟨_, p, hy⟩
  · rintro ⟨l, p, hy⟩
    have hl := h.table.level hy
    obtain ⟨z, hz⟩ := h.table.above hy (k := 2 - l) (by omega)
    rw [Nat.add_sub_cancel' hl] at hz
    refine ⟨2 - l, p, Nat.sub_le _ _, ?_, (h.table.root hz).2⟩
    rwa [Nat.sub_sub_self hl]

theorem Rep.leafless (h : Rep L s g) (hx : g.own x = .table r l p)
    (h0 : ∀ v, flag (g.pt r v) PTE_V = false) : Leafless s.ram l x := by
  induction l generalizing x p with
  | zero =>
    intro i hi
    rw [h.table.leaf hx hi, h0]
  | succ l ih =>
    intro i hi hv
    obtain ⟨hq, he⟩ := h.link_valid hx hi hv
    exact ⟨by rw [he]; exact flag_link_leaf _, ih hq⟩

/-- The abstract view once the page tables below root `r` are freed. -/
def Ghost.cut (g : Ghost) (T T' : List Nat) : Ghost :=
  { g with own := fun y => if y ∈ T then .free else g.own y, free := T' ++ g.free }

theorem Ghost.cut_own_table (g : Ghost) (hT : ∀ y, y ∈ T ↔ ∃ l p, g.own y = .table r l p)
    (y r' l p : Nat) :
    (g.cut T U).own y = .table r' l p ↔ g.own y = .table r' l p ∧ r' ≠ r := by
  by_cases hy : y ∈ T
  · obtain ⟨l', p', ho⟩ := (hT y).1 hy
    simp only [Ghost.cut, if_pos hy, ho, Owner.table.injEq, reduceCtorEq, false_iff]
    rintro ⟨⟨rfl, _⟩, hne⟩
    exact hne rfl
  · simp only [Ghost.cut, if_neg hy]
    refine ⟨fun ho => ⟨ho, ?_⟩, fun h => h.1⟩
    rintro rfl
    exact hy ((hT y).2 ⟨l, p, ho⟩)

theorem Ghost.cut_own (g : Ghost) (hT : ∀ y, y ∈ T ↔ ∃ l p, g.own y = .table r l p)
    (hy : ∀ l p, g.own y ≠ .table r l p) : (g.cut T T').own y = g.own y := by
  refine if_neg fun hm => ?_
  obtain ⟨l, p, ho⟩ := (hT y).1 hm
  exact hy l p ho

theorem PageRep.cut (h : PageRep L s g) (hT : ∀ y, y ∈ T ↔ ∃ l p, g.own y = .table r l p)
    (hp : T'.Perm T) (hf : FreeRep L s' (T' ++ g.free))
    (hc : ∀ y, y ∉ T → s'.count y = s.count y) : PageRep L s' (g.cut T T') := by
  have hown {y : Nat} {o : Owner} (ho : o ≠ .free) (hy : (g.cut T T').own y = o) :
      y ∉ T ∧ g.own y = o := by
    by_cases hm : y ∈ T
    · simp only [Ghost.cut, if_pos hm] at hy
      exact (ho hy.symm).elim
    · simp only [Ghost.cut, if_neg hm] at hy
      exact ⟨hm, hy⟩
  refine ⟨hf, fun y => ?_, fun y => ?_, fun y r' l p hy => ?_, fun y k hy => ?_, fun y hy => ?_⟩
  · show y ∈ T' ++ g.free ↔ _
    rw [List.mem_append, hp.mem_iff, h.mem_free]
    by_cases hm : y ∈ T
    · simp [Ghost.cut, hm]
    · simp [Ghost.cut, hm]
  · rw [← h.managed y]
    by_cases hm : y ∈ T
    · obtain ⟨l, p, ho⟩ := (hT y).1 hm
      simp [Ghost.cut, hm, ho]
    · simp [Ghost.cut, hm]
  · obtain ⟨hm, ho⟩ := hown (by simp) hy
    exact (hc y hm).trans (h.count_table y r' l p ho)
  · obtain ⟨hm, ho⟩ := hown (by simp) hy
    exact (hc y hm).trans (h.count_held y k ho)
  · obtain ⟨hm, ho⟩ := hown (by simp) hy
    rw [hc y hm]
    exact h.count_user y ho

theorem TableRep.cut (h : TableRep ram g) (hT : ∀ y, y ∈ T ↔ ∃ l p, g.own y = .table r l p)
    (h0 : ∀ v, g.pt r v = 0) (hr : ∀ y, y ∉ T → ram' y = ram y) : TableRep ram' (g.cut T T') := by
  have hiff := g.cut_own_table (U := T') hT
  have hram {y r' l p : Nat} (hy : g.own y = .table r' l p) (hne : r' ≠ r) : ram' y = ram y := by
    refine hr y fun hm => ?_
    obtain ⟨l', p', ho⟩ := (hT y).1 hm
    rw [hy, Owner.table.injEq] at ho
    exact hne ho.1
  constructor
  · intro x y r' l p hx hy
    exact h.unique ((hiff ..).1 hx).1 ((hiff ..).1 hy).1
  · intro x r' l p hx
    exact h.level ((hiff ..).1 hx).1
  · intro x r' p hx
    exact h.root ((hiff ..).1 hx).1
  · intro x r' l p hx hl
    obtain ⟨hx, hne⟩ := (hiff ..).1 hx
    obtain ⟨y, hy⟩ := h.parent hx hl
    exact ⟨y, (hiff ..).2 ⟨hy, hne⟩⟩
  · intro x r' l p i hx hi
    obtain ⟨hx, hne⟩ := (hiff ..).1 hx
    rw [hram hx hne]
    rcases h.link hx hi with ⟨q, hq, he⟩ | ⟨hq, he⟩
    · exact .inl ⟨q, (hiff ..).2 ⟨hq, hne⟩, he⟩
    · exact .inr ⟨fun q ho => hq q ((hiff ..).1 ho).1, he⟩
  · intro x r' p i hx hi
    obtain ⟨hx, hne⟩ := (hiff ..).1 hx
    rw [hram hx hne]
    exact h.leaf hx hi
  · intro r' v hv
    by_cases hne : r' = r
    · rw [hne]
      exact h0 v
    · exact h.none fun x hx => hv x ((hiff ..).2 ⟨hx, hne⟩)

/-- The address space `r` is gone, and its page-table pages are free. -/
structure Gone (r : Nat) (g g' : Ghost) : Prop where
  no_table : ∀ y l p, g'.own y ≠ .table r l p
  freed : ∀ T : List Nat, T.Nodup → (∀ y ∈ T, ∃ l p, g.own y = .table r l p) →
    g.free.length + T.length ≤ g'.free.length

theorem Gone.length (h : Gone r g g') : g.free.length ≤ g'.free.length :=
  h.freed [] List.nodup_nil (by simp)

theorem Good.freewalk (h : Good L s g S) (hr : g.Live r) (h0 : ∀ v, g.pt r v = 0) :
    Wp (freewalk L 3 (r * PGSIZE)) NoError (fun _ s' => ∃ g', Good L s' g' (S.erase r) ∧
      Frame S {r} s s' g g' ∧ Gone r g g') s := by
  have hT := h.rep.mem_tablePages_root hr
  have hpage := h.rep.page
  have hloose : Loose L s g.free (tablePages s.ram 2 r) := by
    refine ⟨hpage.freeRep, h.rep.nodup_tablePages hr, fun y hy => ?_, fun y hy => ?_,
      fun y hy hf => ?_⟩ <;> obtain ⟨l, p, ho⟩ := (hT y).1 hy
    · exact (hpage.managed y).1 (by simp [ho])
    · exact hpage.count_table y r l p ho
    · rw [hpage.mem_free, ho] at hf
      cases hf
  refine (freewalk_spec hloose (h.rep.leafless hr fun v => by rw [h0]; decide)).mono ?_
  rintro _ s' ⟨⟨T', hp, hf⟩, hram, hcount⟩
  have hnot {y : Nat} (hy : ∀ l p, g.own y ≠ .table r l p) : y ∉ tablePages s.ram 2 r := by
    intro hm
    obtain ⟨l, p, ho⟩ := (hT y).1 hm
    exact hy l p ho
  have hiff := g.cut_own_table (U := T') hT
  refine ⟨g.cut (tablePages s.ram 2 r) T', ⟨⟨hpage.cut hT hp hf hcount, h.rep.table.cut hT h0 hram⟩,
    ?_⟩, ?_, fun y l p ho => ((hiff ..).1 ho).2 rfl, fun U hU hown => ?_⟩
  · refine (h.space.erase fun v _ => h0 v).congr (fun r' hr' => ?_) (fun _ _ _ _ => rfl)
      (fun _ _ _ _ => rfl) (fun y => ?_) fun y hy => hcount y (hnot (by simp [hy]))
    · obtain ⟨hne, hr'⟩ := Finset.mem_erase.1 hr'
      exact (hiff ..).2 ⟨h.space.live r' hr', hne⟩
    · by_cases hm : y ∈ tablePages s.ram 2 r
      · obtain ⟨l, p, ho⟩ := (hT y).1 hm
        simp [Ghost.cut, hm, ho]
      · simp [Ghost.cut, hm]
  · refine ⟨fun _ _ => rfl, fun r' hr' _ v hv hne => ?_, fun y k hk _ => ?_, fun y k hk => ?_,
      fun y r' l p hR => ?_⟩
    · exact hram _ (hnot (by simp [h.space.target r' hr' v hv hne]))
    · exact ⟨(g.cut_own hT (by simp [hk])).trans hk, hram y (hnot (by simp [hk]))⟩
    · by_cases hm : y ∈ tablePages s.ram 2 r
      · simp [Ghost.cut, hm] at hk
      · simpa only [Ghost.cut, if_neg hm] using hk
    · rw [hiff]
      exact and_iff_left (by simpa using hR)
  · have hle := (List.subperm_of_subset hU fun y hy => (hT y).2 (hown y hy)).length_le
    have hcut : (g.cut (tablePages s.ram 2 r) T').free.length = T'.length + g.free.length := by
      rw [Ghost.cut, List.length_append]
    rw [hcut, hp.length_eq]
    omega

theorem FreeSuffix.length (h : FreeSuffix g g') : g.free.length ≤ g'.free.length := by
  obtain ⟨t, ht⟩ := h
  simp [ht]

/-- `uvmfree` of an address space that has only its first `sz` bytes left. -/
theorem Good.uvmfree (h : Good L s g S) (hr : r ∈ S) (hs : Shape g r (npages sz))
    (hhigh : ∀ v, TFV ≤ v → g.pt r v = 0) :
    Wp (uvmfree L (r * PGSIZE) sz) NoError (fun _ s' => ∃ g', Good L s' g' (S.erase r) ∧
      Frame S {r} s s' g g' ∧ Gone r g g') s := by
  have hdone {s' : Mem} {g' : Ghost} (hg : Good L s' g' S) (hfr : Frame S {r} s s' g g')
      (hlen : g.free.length ≤ g'.free.length)
      (hown : ∀ y l p, g'.own y = .table r l p ↔ g.own y = .table r l p) (h0 : ∀ v, g'.pt r v = 0) :
      Wp (PbsCow.freewalk L 3 (r * PGSIZE)) NoError (fun _ s'' => ∃ g'', Good L s'' g'' (S.erase r) ∧
        Frame S {r} s s'' g g'' ∧ Gone r g g'') s' := by
    refine (hg.freewalk (hg.space.live r hr) h0).mono ?_
    rintro _ s'' ⟨g'', hg', hfr', hgone⟩
    refine ⟨g'', hg', hfr.trans hfr' fun _ h _ => h, hgone.no_table, fun T hT ht => ?_⟩
    have hle := hgone.freed T hT fun y hy => by
      obtain ⟨l, p, ho⟩ := ht y hy
      exact ⟨l, p, (hown y l p).2 ho⟩
    omega
  rw [PbsCow.uvmfree]
  refine .ite (fun _ => ?_) fun hz => ?_
  · rw [PGROUNDUP_npages (add_le_of_npages hs.le), page_div]
    have hun := h.uvmunmap_free (v := 0) (n := npages sz) hr (by have := hs.le; omega)
      fun w _ hw => hs.mapped w (by omega)
    rw [Nat.zero_mul] at hun
    refine .bind hun ?_
    rintro _ s' ⟨g', hg, hfr, _, hsuf, hund, hp⟩
    refine hdone hg hfr hsuf.length (fun y l p => hund.tables y r l p) fun v => ?_
    rw [hp, clearRange]
    split
    · rfl
    · by_cases hv : v < TFV
      · exact hs.none v (by omega) hv
      · exact hhigh v (by omega)
  · have hz : sz = 0 := by omega
    subst hz
    refine hdone h (.refl _ _ _ _) (Nat.le_refl _) (fun _ _ _ => .rfl) fun v => ?_
    by_cases hv : v < TFV
    · exact hs.none v (by simp [npages, PGSIZE]) hv
    · exact hhigh v (by omega)

end PbsCow
