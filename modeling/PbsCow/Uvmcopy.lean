import PbsCow.Uvmalloc

namespace PbsCow
set_option autoImplicit true

/-- The flags that `uvmcopy` gives to both mappings of a page. -/
def cowFlags (f : Word) : Word := if flag f PTE_W then (f &&& ~~~PTE_W) ||| PTE_COW else f

def cowPte (e : Word) : Word := mkPte (ppn e) (cowFlags (PTE_FLAGS e))

theorem cowFlags_of_W (h : f.getLsbD 2 = true) : cowFlags f = (f &&& ~~~PTE_W) ||| PTE_COW := by
  rw [cowFlags, flag_W, h]
  rfl

theorem cowFlags_of_not_W (h : f.getLsbD 2 = false) : cowFlags f = f := by
  rw [cowFlags, flag_W, h]
  rfl

theorem getLsbD_clear_W (f : Word) (hi : i < 64) :
    ((f &&& ~~~PTE_W) ||| PTE_COW).getLsbD i = ((f.getLsbD i && i != 2) || i == 8) := by
  have hb : (~~~PTE_W).getLsbD i = (i != 2) ∧ PTE_COW.getLsbD i = (i == 8) := by
    have h : ∀ i : Fin 64, (~~~PTE_W).getLsbD i.1 = (i.1 != 2) ∧ PTE_COW.getLsbD i.1 = (i.1 == 8) := by
      decide
    exact h ⟨i, hi⟩
  rw [BitVec.getLsbD_or, BitVec.getLsbD_and, hb.1, hb.2]

theorem getLsbD_cowFlags (f : Word) (hi : i < 8) (h2 : i ≠ 2) :
    (cowFlags f).getLsbD i = f.getLsbD i := by
  cases hw : f.getLsbD 2 with
  | false => rw [cowFlags_of_not_W hw]
  | true =>
    have h8 : (i == 8) = false := beq_false_of_ne (by omega)
    rw [cowFlags_of_W hw, getLsbD_clear_W f (by omega), bne_iff_ne.2 h2, h8, Bool.and_true,
      Bool.or_false]

theorem cowFlags_W (f : Word) : (cowFlags f).getLsbD 2 = false := by
  cases hw : f.getLsbD 2 with
  | false => rw [cowFlags_of_not_W hw, hw]
  | true =>
    rw [cowFlags_of_W hw, getLsbD_clear_W f (by decide)]
    simp

theorem cowFlags_COW (f : Word) : (cowFlags f).getLsbD 8 = (f.getLsbD 2 || f.getLsbD 8) := by
  cases hw : f.getLsbD 2 with
  | false => rw [cowFlags_of_not_W hw, Bool.false_or]
  | true =>
    rw [cowFlags_of_W hw, getLsbD_clear_W f (by decide)]
    simp

theorem UserFlags.cow (h : UserFlags f) : UserFlags (cowFlags f) where
  lt := by
    cases hw : f.getLsbD 2 with
    | false => rw [cowFlags_of_not_W hw]; exact h.lt
    | true => rw [cowFlags_of_W hw]; exact toNat_or_lt (toNat_and_lt h.lt) (by decide)
  valid := by rw [getLsbD_cowFlags f (by decide) (by decide), h.valid]
  readable := by rw [getLsbD_cowFlags f (by decide) (by decide), h.readable]
  exclusive hw := by
    rw [cowFlags_W] at hw
    cases hw

theorem or_PTE_V (h : f.getLsbD 0 = true) : f ||| PTE_V = f := by
  apply BitVec.eq_of_getLsbD_eq
  intro i hi
  rw [BitVec.getLsbD_or]
  by_cases h0 : i = 0
  · simp [h0, h]
  · have hb : PTE_V.getLsbD i = false := by simp [PTE_V, BitVec.getLsbD_one, h0]
    rw [hb, Bool.or_false]

theorem UserFlags.or_V (h : UserFlags f) : f ||| PTE_V = f := or_PTE_V h.valid

theorem UserLeaf.cow (h : UserLeaf e) (hx : ppn e < 2 ^ 44) : UserLeaf (cowPte e) :=
  h.flags.cow.leaf hx

theorem UserLeaf.ppn_cow (h : UserLeaf e) (hx : ppn e < 2 ^ 44) : ppn (cowPte e) = ppn e :=
  ppn_mkPte hx h.flags.cow.lt

theorem UserLeaf.cow_of_not_W (h : UserLeaf e) (hw : e.getLsbD 2 = false) : cowPte e = e := by
  rw [cowPte, cowFlags_of_not_W, ← h.eq]
  rwa [getLsbD_PTE_FLAGS e (by decide)]

theorem UserLeaf.cow_cow (h : UserLeaf e) (hx : ppn e < 2 ^ 44) : cowPte (cowPte e) = cowPte e :=
  (h.cow hx).cow_of_not_W (by rw [cowPte, getLsbD_mkPte _ _ (by decide), cowFlags_W])

theorem Good.ppn_lt (h : Good L s g S) (hr : r ∈ S) (hv : v < TFV) (hne : g.pt r v ≠ 0) :
    ppn (g.pt r v) < 2 ^ 44 :=
  h.rep.page.lt44 (by simp [h.space.target r hr v hv hne])

/-- Rewriting a PTE with other flags, without making the page newly writable. -/
theorem Good.reflag (h : Good L s g S) (hr : r ∈ S) (hv : v < TFV) (hne : g.pt r v ≠ 0)
    (hq : g.own q = .table r 0 (v / 512)) (hf : UserFlags f)
    (hw : f.getLsbD 2 = true → (g.pt r v).getLsbD 2 = true) :
    Good L (s.store (q * PGSIZE + 8 * (v % 512)) (mkPte (ppn (g.pt r v)) f))
      (g.setPte r v (mkPte (ppn (g.pt r v)) f)) S := by
  have hi : v % 512 < 512 := Nat.mod_lt _ (by decide)
  have hinv := h.space.reflag hr hv hne rfl (h.ppn_lt hr hv hne) hf hw
  refine ⟨h.rep.setPte hq _, ?_⟩
  refine hinv.congr hinv.live (fun _ _ _ _ => rfl) (fun _ _ _ _ => rfl) (fun _ => .rfl) fun x _ => ?_
  rw [Mem.store_slot s q hi]
  rfl

/-- The parent's PTE is marked before the child's is written; nobody else maps the page writable. -/
theorem Good.markCow (h : Good L s g S) (hr : r ∈ S) (hv : v < TFV) (hne : g.pt r v ≠ 0)
    (hq : g.own q = .table r 0 (v / 512)) :
    Good L (s.store (q * PGSIZE + 8 * (v % 512)) (cowPte (g.pt r v)))
      (g.setPte r v (cowPte (g.pt r v))) S :=
  h.reflag hr hv hne hq (h.space.leaf r hr v hv hne).flags.cow
    fun hw => by rw [cowFlags_W] at hw; cases hw

/-- `mappages` and `increase_pgreference` have added a read-only mapping of a page in use. -/
theorem Good.shared (h : Good L s g S) (hr : r ∈ S) (hv : v < TFV) (hne : g.pt r v ≠ 0)
    (hw : (g.pt r v).getLsbD 2 = false) (hr' : r' ∈ S) (h0 : g.pt r' v = 0)
    (hno : ∀ w, w < TFV → ¬ Maps (g.pt r' w) (ppn (g.pt r v))) (hf : UserFlags f)
    (hfw : f.getLsbD 2 = false) (hg : Grow r' V k s s' g g') (hrep : Rep L s' g')
    (hp : g'.pt r' = Function.update (g.pt r') v (mkPte (ppn (g.pt r v)) f)) :
    Good L (s'.setCount (ppn (g.pt r v)) (s'.count (ppn (g.pt r v)) + 1)) g' S := by
  have hu := h.space.target r hr v hv hne
  have hu' := (hg.user_iff _).2 hu
  have hc' := hrep.page.count_user _ hu'
  have hlt := h.ppn_lt hr hv hne
  have hm := h.space.share (t := s.setCount (ppn (g.pt r v)) (s.count (ppn (g.pt r v)) + 1))
    hr hv hne rfl hw hr' hv h0 hno hlt hf hfw fun y => ?_
  · refine ⟨⟨hrep.page.setCount hu' (by omega), hrep.table⟩, ?_⟩
    have hpt (r₁ : Nat) : g'.pt r₁ = (g.setPte r' v (mkPte (ppn (g.pt r v)) f)).pt r₁ := by
      by_cases hrr : r₁ = r'
      · rw [hrr, hp, Ghost.setPte_pt_same]
      · rw [hg.pt r₁ hrr, Ghost.setPte_pt_root _ hrr]
    refine hm.congr (fun r₁ hr₁ => hg.live (h.space.live r₁ hr₁)) (fun r₁ _ w _ => by rw [hpt])
      (fun r₁ _ w _ => by rw [hpt]) hg.user_iff fun y hy => ?_
    have hcy : s'.count y = s.count y := hg.count y (by simp [show g.own y = .user from hy])
    by_cases hyx : y = ppn (g.pt r v)
    · simp only [Mem.setCount, hyx, Function.update_self]
      rw [← hyx, hcy]
    · simp only [Mem.setCount, Function.update_of_ne hyx, hcy]
  · simp only [Mem.setCount, Function.update_apply]

/-- One page of `uvmcopy`, once the parent's PTE is no longer writable, and the rest of the loop. -/
theorem Good.copyStep (h : Good L s g S) (hr : r ∈ S) (hr' : r' ∈ S) (hv : v < TFV)
    (hm : ∀ u, u ≤ v → g.pt r u ≠ 0) (hw : (g.pt r v).getLsbD 2 = false)
    (hdone : ∀ u, u < v → g.pt r' u ≠ 0 ∧ ppn (g.pt r' u) = ppn (g.pt r u))
    (hnone : ∀ u, v ≤ u → u < TFV → g.pt r' u = 0)
    (hfail : ∀ s' g', Good L s' g' S → Frame S {r'} s s' g g' →
      g'.pt r' = clearRange (g.pt r') 0 v → g.free.length ≤ 2 → Q (-1) s')
    (hok : ∀ s' g', Good L s' g' S → Frame S {r'} s s' g g' →
      g'.pt r' = Function.update (g.pt r') v (g.pt r v) → SameData s s' g → Uses 2 g g' →
      (∀ y, g'.own y = .user ↔ g.own y = .user) → Wp k NoError Q s') :
    Wp (do
      if (← mappages (r' * PGSIZE) (v * PGSIZE) PGSIZE (ppn (g.pt r v) * PGSIZE)
          (PTE_FLAGS (g.pt r v))) ≠ 0 then
        uvmunmap L (r' * PGSIZE) 0 v true
        return -1
      increasePgreference (ppn (g.pt r v) * PGSIZE)
      k) NoError Q s := by
  have hleaf := h.space.leaf r hr v hv (hm v (Nat.le_refl v))
  have hlt : v < 67108864 := Nat.lt_trans hv (by decide)
  have h0 := hnone v (Nat.le_refl v) hv
  refine .bind (h.rep.mappages_one (h.space.live r' hr') hlt (by simp [h0])) ?_
  rw [hleaf.flags.or_V, ← hleaf.eq]
  rintro ret s' ⟨g', hrep, hg, ⟨rfl, hp⟩ | ⟨rfl, hp, hempty, _⟩⟩
  · refine .ite_neg (by decide) ?_
    have hu := h.space.target r hr v hv (hm v (Nat.le_refl v))
    have hpos := hrep.page.count_user _ ((hg.user_iff _).2 hu)
    refine .bind_ok (increasePgreference_eq (by omega)) ?_
    have hgood := h.shared hr hv (hm v (Nat.le_refl v)) hw hr' h0 (fun u hu hmap => ?_)
      hleaf.flags (by rwa [getLsbD_PTE_FLAGS _ (by decide)]) hg hrep (by rw [hp, ← hleaf.eq])
    · have hfr := hg.frame h.space
      exact hok _ g' hgood ⟨hfr.pt, hfr.page, hfr.held, hfr.holder, hfr.tables⟩ hp hg.sameData
        hg.uses hg.user_iff
    · by_cases huv : u < v
      · have hinj := h.space.inj r hr v u hv hu (hm v (Nat.le_refl v))
          ⟨hm u (by omega), (hdone u huv).2.symm.trans hmap.2⟩
        omega
      · exact hmap.1 (hnone u (by omega) hu)
  · refine .ite_pos (by decide) ?_
    have hgood : Good L s' g' S := ⟨hrep, hg.spaceInv hp h.space⟩
    have hle : g.free.length ≤ 2 := by simpa [Uses, hempty] using hg.uses
    have hun := hgood.uvmunmap_free (v := 0) (n := v) hr' (by omega) fun u _ hu => by
      rw [hp]
      exact (hdone u (by omega)).1
    rw [Nat.zero_mul] at hun
    refine .bind hun ?_
    rintro _ s'' ⟨g'', hg', hfr, _, _, _, hp'⟩
    refine wp_pure.2 (hfail s'' g'' hg' ((hg.frame h.space).trans hfr fun _ h _ => h) ?_ hle)
    rw [hp', hp]

theorem Ghost.setPte_eq_self (g : Ghost) (h : g.pt r v = e) : g.setPte r v e = g := by
  rw [Ghost.setPte, ← h, Function.update_eq_self, Function.update_eq_self]

/-- The address space `r` is the same, except that writable pages may have become COW pages. -/
structure CowSame (r : Nat) (s s' : Mem) (g g' : Ghost) : Prop where
  pt : ∀ u, g'.pt r u = g.pt r u ∨ u < TFV ∧ g.pt r u ≠ 0 ∧ g'.pt r u = cowPte (g.pt r u)
  keep : ∀ u, u < TFV → g.pt r u ≠ 0 → s'.ram (ppn (g.pt r u)) = s.ram (ppn (g.pt r u))

theorem CowSame.refl (r : Nat) (s : Mem) (g : Ghost) : CowSame r s s g g :=
  ⟨fun _ => .inl rfl, fun _ _ _ => rfl⟩

theorem SameSpace.cowSame (h : SameSpace r s s' g g') : CowSame r s s' g g' :=
  ⟨fun u => .inl (by rw [h.pt]), h.keep⟩

theorem CowSame.trans (hgood : Good L s g S) (hr : r ∈ S) (h : CowSame r s s' g g')
    (h' : CowSame r s' s'' g' g'') : CowSame r s s'' g g'' := by
  refine ⟨fun u => ?_, fun u hu hm => ?_⟩
  · rcases h.pt u with he | ⟨hu, hm, he⟩
    · simpa only [he] using h'.pt u
    · have hleaf := hgood.space.leaf r hr u hu hm
      have hlt := hgood.ppn_lt hr hu hm
      rcases h'.pt u with he' | ⟨_, _, he'⟩
      · exact .inr ⟨hu, hm, he'.trans he⟩
      · exact .inr ⟨hu, hm, by rw [he', he, hleaf.cow_cow hlt]⟩
  · have hppn : ppn (g'.pt r u) = ppn (g.pt r u) ∧ g'.pt r u ≠ 0 := by
      rcases h.pt u with he | ⟨_, _, he⟩
      · rw [he]
        exact ⟨rfl, hm⟩
      · rw [he]
        have hleaf := hgood.space.leaf r hr u hu hm
        exact ⟨hleaf.ppn_cow (hgood.ppn_lt hr hu hm), hleaf.flags.cow.mkPte_ne_zero _⟩
    have hk := h'.keep u hu hppn.2
    rw [hppn.1] at hk
    exact hk.trans (h.keep u hu hm)

/-- `r'` maps the pages `v` to `v + n` of `r`, with the same flags as `r` has now. -/
structure Copied (r r' v n : Nat) (g g' : Ghost) : Prop where
  new : ∀ u, v ≤ u → u < v + n → g'.pt r u = cowPte (g.pt r u) ∧ g'.pt r' u = cowPte (g.pt r u)
  old : ∀ u, ¬ (v ≤ u ∧ u < v + n) → g'.pt r u = g.pt r u ∧ g'.pt r' u = g.pt r' u

theorem Copied.cons (h : ∀ u, (g'.pt r u = if u = v then cowPte (g.pt r u) else g.pt r u) ∧
      (g'.pt r' u = if u = v then cowPte (g.pt r u) else g.pt r' u))
    (h' : Copied r r' (v + 1) n g' g'') : Copied r r' v (n + 1) g g'' := by
  refine ⟨fun u hu hu' => ?_, fun u hu => ?_⟩
  · by_cases huv : u = v
    · obtain ⟨h1, h2⟩ := h'.old u (by omega)
      rw [h1, h2, (h u).1, (h u).2, if_pos huv, if_pos huv]
      exact ⟨rfl, rfl⟩
    · obtain ⟨h1, h2⟩ := h'.new u (by omega) (by omega)
      rw [h1, h2, (h u).1, if_neg huv]
      exact ⟨rfl, rfl⟩
  · obtain ⟨h1, h2⟩ := h'.old u (by omega)
    rw [h1, h2, (h u).1, (h u).2, if_neg (by omega), if_neg (by omega)]
    exact ⟨rfl, rfl⟩

theorem UserLeaf.flags_cow (h : UserLeaf e) (hx : ppn e < 2 ^ 44) :
    PTE_FLAGS (cowPte e) = cowFlags (PTE_FLAGS e) :=
  PTE_FLAGS_mkPte hx h.flags.cow.lt

theorem cowSame_setPte (h : Good L s g S) (hr : r ∈ S) (hv : v < TFV) (hne : g.pt r v ≠ 0)
    (hd : SameData s s' g) : CowSame r s s' g (g.setPte r v (cowPte (g.pt r v))) := by
  refine ⟨fun u => ?_, fun u hu hm => hd _ (.inl (h.space.target r hr u hu hm))⟩
  by_cases huv : u = v
  · subst huv
    exact .inr ⟨hv, hne, Ghost.setPte_pt_self _⟩
  · exact .inl (Ghost.setPte_pt_of_ne _ huv)

/-- No page-table page of a root other than `r'` has been given out or back. -/
def TablesBut (r' : Nat) (g g' : Ghost) : Prop :=
  ∀ x r l p, r ≠ r' → (g'.own x = .table r l p ↔ g.own x = .table r l p)

theorem TablesBut.trans (h : TablesBut r' g g') (h' : TablesBut r' g' g'') : TablesBut r' g g'' :=
  fun x r l p hr => (h' x r l p hr).trans (h x r l p hr)

theorem Frame.tablesBut (h : Frame S {r'} s s' g g') : TablesBut r' g g' :=
  fun x r l p hr => h.tables x r l p (by simpa using hr)

/-- What `uvmcopy` of `n` pages from `v` on guarantees. A failed copy leaves no user page in the
child; the parent may keep COW marks. -/
def CopyPost (L : Layout) (S : Finset Nat) (r r' v n : Nat) (s : Mem) (g : Ghost) (ret : Int)
    (s' : Mem) : Prop :=
  ∃ g', Good L s' g' S ∧ Frame S {r, r'} s s' g g' ∧ CowSame r s s' g g' ∧ TablesBut r' g g' ∧
    (ret = 0 ∧ Copied r r' v n g g' ∧ Uses (2 * n) g g' ∨
      ret = -1 ∧ g'.pt r' = clearRange (g.pt r') 0 v ∧ g.free.length ≤ 2 * n)

/-- The PTEs after page `v` has been copied. -/
def CopiedOne (r r' v : Nat) (g g' : Ghost) : Prop :=
  ∀ u, (g'.pt r u = if u = v then cowPte (g.pt r u) else g.pt r u) ∧
    (g'.pt r' u = if u = v then cowPte (g.pt r u) else g.pt r' u)

theorem CopyPost.step (h : Good L s g S) (hr : r ∈ S) (h0 : g.pt r' v = 0)
    (hfr : Frame S {r, r'} s s' g g') (hc : CowSame r s s' g g') (ht : TablesBut r' g g')
    (huse : Uses 2 g g') (hpt : CopiedOne r r' v g g') (hp : CopyPost L S r r' (v + 1) n s' g' ret s'') :
    CopyPost L S r r' v (n + 1) s g ret s'' := by
  obtain ⟨g'', hg', hfr'', hc', ht', hret⟩ := hp
  refine ⟨g'', hg', hfr.trans hfr'' fun _ h _ => h, hc.trans h hr hc', ht.trans ht', ?_⟩
  rcases hret with ⟨hret, hcop, hu⟩ | ⟨hret, hp', hle⟩
  · refine .inl ⟨hret, .cons hpt hcop, ?_⟩
    have hu' := huse.trans hu
    rwa [show 2 + 2 * n = 2 * (n + 1) by omega] at hu'
  · refine .inr ⟨hret, ?_, ?_⟩
    · rw [hp']
      funext u
      simp only [clearRange]
      by_cases hu : u = v
      · rw [if_pos (by omega), if_neg (by omega), hu, h0]
      · rw [(hpt u).2, if_neg hu]
        have hiff : 0 ≤ u ∧ u < 0 + (v + 1) ↔ 0 ≤ u ∧ u < 0 + v := by omega
        simp only [hiff]
    · have hu : g.free.length ≤ g'.free.length + 2 := huse
      omega

/-- One page of `uvmcopy` after the parent's PTE has been marked; `ih` is the rest of the loop. -/
theorem Good.copyMarked (h : Good L s g S) (hr : r ∈ S) (hr' : r' ∈ S) (hrr : r ≠ r')
    (hv : v < TFV) (hm : ∀ u, u ≤ v → g.pt r u ≠ 0)
    (hdone : ∀ u, u < v → g.pt r' u ≠ 0 ∧ ppn (g.pt r' u) = ppn (g.pt r u))
    (hnone : ∀ u, v ≤ u → u < TFV → g.pt r' u = 0)
    (ih : ∀ s' g', Good L s' g' S → CopiedOne r r' v g g' →
      Wp (uvmcopyLoop L (r * PGSIZE) (r' * PGSIZE) n ((v + 1) * PGSIZE)) NoError
        (CopyPost L S r r' (v + 1) n s' g') s')
    (h₁ : Good L t (g.setPte r v (cowPte (g.pt r v))) S)
    (hfr₁ : Frame S {r} s t g (g.setPte r v (cowPte (g.pt r v)))) (hd₁ : SameData s t g) :
    Wp (do
      if (← mappages (r' * PGSIZE) (v * PGSIZE) PGSIZE (PTE2PA (g.pt r v))
          (cowFlags (PTE_FLAGS (g.pt r v)))) ≠ 0 then
        uvmunmap L (r' * PGSIZE) 0 v true
        return -1
      increasePgreference (PTE2PA (g.pt r v))
      uvmcopyLoop L (r * PGSIZE) (r' * PGSIZE) n (v * PGSIZE + PGSIZE)) NoError
      (CopyPost L S r r' v (n + 1) s g) t := by
  have hne := hm v (Nat.le_refl v)
  have hleaf := h.space.leaf r hr v hv hne
  have hlt := h.ppn_lt hr hv hne
  have hs : v * PGSIZE + PGSIZE = (v + 1) * PGSIZE := (Nat.succ_mul v PGSIZE).symm
  have hfr₁' := hfr₁.mono (T := {r, r'}) (by simp)
  have hc₁ := cowSame_setPte h hr hv hne hd₁
  have hself : (g.setPte r v (cowPte (g.pt r v))).pt r v = cowPte (g.pt r v) :=
    Ghost.setPte_pt_self _
  have hstep := h₁.copyStep (k := uvmcopyLoop L (r * PGSIZE) (r' * PGSIZE) n
    (v * PGSIZE + PGSIZE)) (Q := CopyPost L S r r' v (n + 1) s g) hr hr' hv ?_ ?_ ?_ ?_ ?_ ?_
  · rwa [hself, hleaf.ppn_cow hlt, hleaf.flags_cow hlt, ← PTE2PA_eq] at hstep
  · intro u hu
    by_cases huv : u = v
    · rw [huv, hself]
      exact hleaf.flags.cow.mkPte_ne_zero _
    · rw [Ghost.setPte_pt_of_ne _ huv]
      exact hm u (by omega)
  · rw [hself, cowPte, getLsbD_mkPte _ _ (by decide), cowFlags_W]
  · intro u hu
    rw [Ghost.setPte_pt_of_ne _ (by omega), Ghost.setPte_pt_of_ne _ (by omega)]
    exact hdone u hu
  · intro u hu hu'
    rw [Ghost.setPte_pt_root _ hrr.symm]
    exact hnone u hu hu'
  · intro s' g' hg hfr hp hle
    refine ⟨g', hg, hfr₁'.trans (hfr.mono (by simp)) fun _ h _ => h, ?_, hfr.tablesBut,
      .inr ⟨rfl, ?_, ?_⟩⟩
    · exact hc₁.trans h hr (hfr.same hr (by simpa using hrr)).cowSame
    · rw [hp, Ghost.setPte_pt_root _ hrr.symm]
    · exact Nat.le_trans hle (by omega)
  · intro s' g' hg hfr hp hd huse hown
    have hpt : CopiedOne r r' v g g' := by
      intro u
      rw [hfr.pt r (by simpa using hrr), hp, hself, Ghost.setPte_pt_root _ hrr.symm,
        Ghost.setPte_pt_same]
      by_cases huv : u = v
      · subst huv
        simp
      · simp [huv]
    rw [hs]
    refine (ih s' g' hg hpt).mono fun ret s'' hpost => ?_
    exact hpost.step h hr (hnone v (Nat.le_refl v) hv)
      (hfr₁'.trans (hfr.mono (by simp)) fun _ h _ => h)
      (hc₁.trans h hr (hfr.same hr (by simpa using hrr)).cowSame) hfr.tablesBut huse hpt

theorem Good.uvmcopyLoop_spec (h : Good L s g S) (hr : r ∈ S) (hr' : r' ∈ S) (hrr : r ≠ r')
    (hv : v + n ≤ TFV) (hm : ∀ u, u < v + n → g.pt r u ≠ 0)
    (hdone : ∀ u, u < v → g.pt r' u ≠ 0 ∧ ppn (g.pt r' u) = ppn (g.pt r u))
    (hnone : ∀ u, v ≤ u → u < TFV → g.pt r' u = 0) :
    Wp (uvmcopyLoop L (r * PGSIZE) (r' * PGSIZE) n (v * PGSIZE)) NoError
      (CopyPost L S r r' v n s g) s := by
  induction n generalizing s g v with
  | zero =>
    refine wp_pure.2 ⟨g, h, .refl _ _ _ _, .refl _ _ _, fun _ _ _ _ _ => .rfl,
      .inl ⟨rfl, ⟨?_, fun _ _ => ⟨rfl, rfl⟩⟩, Nat.le_refl _⟩⟩
    intro u hu hu'
    omega
  | succ n ih =>
    have hvlt : v < TFV := by omega
    have hmax : v < MAXV := Nat.lt_trans hvlt (by decide)
    have hne := hm v (by omega)
    have hleaf := h.space.leaf r hr v hvlt hne
    rw [uvmcopyLoop]
    refine .bind (h.rep.walk_false (h.space.live r hr) (va_lt hmax)) ?_
    rw [page_div]
    rintro a _ ⟨rfl, ha⟩
    obtain ⟨q, hq, rfl⟩ := h.rep.slot_of_ne_zero hne ha
    refine .ite_neg (h.rep.slot_ne_zero hq) ?_
    simp only [loadWord, wp_bind, wp_get, wp_pure, h.rep.load_pte hq]
    refine .ite_neg (by simp [hleaf.flag_V]) ?_
    have hnz {u : Nat} (hu : u < v + (n + 1)) : cowPte (g.pt r u) ≠ 0 :=
      (h.space.leaf r hr u (by omega) (hm u hu)).flags.cow.mkPte_ne_zero _
    have hrest : ∀ s' g', Good L s' g' S → CopiedOne r r' v g g' →
        Wp (uvmcopyLoop L (r * PGSIZE) (r' * PGSIZE) n ((v + 1) * PGSIZE)) NoError
          (CopyPost L S r r' (v + 1) n s' g') s' := by
      intro s' g' hg hpt
      refine ih hg (by omega) (fun u hu => ?_) (fun u hu => ?_) fun u hu hu' => ?_
      · rw [(hpt u).1]
        split
        · exact hnz (by omega)
        · exact hm u (by omega)
      · rw [(hpt u).1, (hpt u).2]
        by_cases huv : u = v
        · rw [if_pos huv, if_pos huv]
          exact ⟨hnz (by omega), rfl⟩
        · rw [if_neg huv, if_neg huv]
          exact hdone u (by omega)
      · rw [(hpt u).2, if_neg (by omega)]
        exact hnone u (by omega) hu'
    have hbit : flag (PTE_FLAGS (g.pt r v)) PTE_W = (g.pt r v).getLsbD 2 := by
      rw [flag_W, getLsbD_PTE_FLAGS _ (by decide)]
    have key {t : Mem} := h.copyMarked (t := t) hr hr' hrr hvlt (fun u hu => hm u (by omega))
      hdone hnone hrest
    refine .ite (fun hw => ?_) fun hw => ?_
    · rw [hbit] at hw
      rw [← cowFlags_of_W (by rwa [getLsbD_PTE_FLAGS _ (by decide)])]
      simp only [storeWord, wp_bind, wp_modify]
      have hpte : PA2PTE (PTE2PA (g.pt r v)) ||| cowFlags (PTE_FLAGS (g.pt r v)) =
          cowPte (g.pt r v) := by
        rw [PTE2PA_eq]
        rfl
      rw [hpte]
      have hgrow := Grow.setPte (V := fun _ => True) (s := s) hq (cowPte (g.pt r v))
      have hk := key (h.markCow hr hvlt hne hq) (hgrow.frame h.space) hgrow.sameData
      simpa only [wp_bind] using hk
    · rw [hbit, Bool.not_eq_true] at hw
      have he : g.setPte r v (cowPte (g.pt r v)) = g :=
        g.setPte_eq_self (hleaf.cow_of_not_W hw).symm
      have hk := key (t := s) (by rwa [he]) (by rw [he]; exact .refl _ _ _ _) fun _ _ => rfl
      rw [cowFlags_of_not_W (by rwa [getLsbD_PTE_FLAGS _ (by decide)])] at hk
      simpa only [wp_bind] using hk

/-- `uvmcopy` into an empty address space. -/
theorem Good.uvmcopy (h : Good L s g S) (hr : r ∈ S) (hr' : r' ∈ S) (hrr : r ≠ r')
    (hs : Shape g r (npages sz)) (hs' : Shape g r' 0) :
    Wp (uvmcopy L (r * PGSIZE) (r' * PGSIZE) sz) NoError
      (CopyPost L S r r' 0 (npages sz) s g) s := by
  have hn := pagesBetween_npages 0 sz
  rw [Nat.zero_mul, Nat.sub_zero] at hn
  have hc := h.uvmcopyLoop_spec (v := 0) (n := npages sz) hr hr' hrr
    (by rw [Nat.zero_add]; exact hs.le) (fun u hu => hs.mapped u (by omega))
    (fun u hu => absurd hu (by omega)) hs'.none
  rw [Nat.zero_mul] at hc
  rwa [PbsCow.uvmcopy, hn]

end PbsCow
