import PbsCow.Slots
import PbsCow.Mmu

namespace PbsCow
set_option autoImplicit true

/-- A page as a process sees it. -/
structure UPage where
  flags : Word
  data : Page

/-- The flags a page would have if `fork` had copied it: a COW page is a writable one. -/
def eagerFlags (f : Word) : Word := if flag f PTE_COW then uncowFlags f else f

/-- The user part of an address space. -/
def Mem.pages (s : Mem) (pagetable v : Nat) : Option UPage :=
  let e := s.pte pagetable (v * PGSIZE)
  if v < TFV ∧ flag e PTE_V then some ⟨eagerFlags (PTE_FLAGS e), s.ram (ppn e)⟩ else none

def Sys.pages (t : Sys) (i : Slot) : Nat → Option UPage := t.mem.pages (t.proc i).pagetable

theorem eagerFlags_of_COW (h : f.getLsbD 8 = true) : eagerFlags f = uncowFlags f := by
  rw [eagerFlags, flag_COW, h]
  rfl

theorem eagerFlags_of_not_COW (h : f.getLsbD 8 = false) : eagerFlags f = f := by
  rw [eagerFlags, flag_COW, h]
  rfl

theorem uncowFlags_COW (f : Word) : (uncowFlags f).getLsbD 8 = false := by
  rw [getLsbD_uncowFlags f (by decide)]
  simp

theorem eagerFlags_uncow (h : f.getLsbD 8 = true) :
    eagerFlags (uncowFlags f) = eagerFlags f := by
  rw [eagerFlags_of_not_COW (uncowFlags_COW f), eagerFlags_of_COW h]

/-- Marking a page COW changes nothing for a machine that copies at `fork`. -/
theorem UserFlags.eager_cow (h : UserFlags f) : eagerFlags (cowFlags f) = eagerFlags f := by
  cases hw : f.getLsbD 2 with
  | false => rw [cowFlags_of_not_W hw]
  | true =>
    have hc := h.exclusive hw
    have hc' : (cowFlags f).getLsbD 8 = true := by rw [cowFlags_COW, hw, Bool.true_or]
    rw [eagerFlags_of_COW hc', eagerFlags_of_not_COW hc, cowFlags_of_W hw]
    apply BitVec.eq_of_getLsbD_eq
    intro i hi
    rw [getLsbD_uncowFlags _ hi, getLsbD_clear_W f hi]
    by_cases h2 : i = 2
    · simp [h2, hw]
    · by_cases h8 : i = 8
      · rw [h8, hc]
        rfl
      · have h2' : (i == 2) = false := beq_false_of_ne h2
        have h8' : (i == 8) = false := beq_false_of_ne h8
        rw [bne_iff_ne.2 h2, bne_iff_ne.2 h8, h2', h8', Bool.and_true, Bool.or_false, Bool.and_true,
          Bool.or_false]

theorem Good.pages_none (h : Good L s g S) (hr : r ∈ S) (h0 : v < TFV → g.pt r v = 0) :
    s.pages (r * PGSIZE) v = none := by
  refine if_neg ?_
  rintro ⟨hv, hV⟩
  rw [h.rep.pte_page (h.space.live r hr) (Nat.lt_trans hv (by decide)), h0 hv] at hV
  exact absurd hV (by decide)

theorem Good.pages_some (h : Good L s g S) (hr : r ∈ S) (hv : v < TFV) (hne : g.pt r v ≠ 0) :
    s.pages (r * PGSIZE) v =
      some ⟨eagerFlags (PTE_FLAGS (g.pt r v)), s.ram (ppn (g.pt r v))⟩ := by
  have he := h.rep.pte_page (h.space.live r hr) (Nat.lt_trans hv (by decide : TFV < MAXV))
  rw [Mem.pages, he]
  exact if_pos ⟨hv, (h.space.leaf r hr v hv hne).flag_V⟩

theorem Good.pages_cow (h : Good L s g S) (h' : Good L s' g' S') (hr : r ∈ S) (hr' : r ∈ S')
    (hc : CowSame r s s' g g') : s'.pages (r * PGSIZE) = s.pages (r * PGSIZE) := by
  funext v
  by_cases hv : v < TFV
  · by_cases hne : g.pt r v = 0
    · have h0 : g'.pt r v = 0 := by
        rcases hc.pt v with he | ⟨_, hm, _⟩
        · rw [he, hne]
        · exact (hm hne).elim
      rw [h.pages_none hr fun _ => hne, h'.pages_none hr' fun _ => h0]
    · have hleaf := h.space.leaf r hr v hv hne
      have hlt := h.ppn_lt hr hv hne
      rw [h.pages_some hr hv hne]
      rcases hc.pt v with he | ⟨_, _, he⟩
      · rw [h'.pages_some hr' hv (by rwa [he]), he, hc.keep v hv hne]
      · rw [h'.pages_some hr' hv (by rw [he]; exact hleaf.flags.cow.mkPte_ne_zero _), he,
          hleaf.ppn_cow hlt, hleaf.flags_cow hlt, hleaf.flags.eager_cow, hc.keep v hv hne]
  · rw [h.pages_none hr fun hv' => (hv hv').elim, h'.pages_none hr' fun hv' => (hv hv').elim]

theorem Good.pages_same (h : Good L s g S) (h' : Good L s' g' S') (hr : r ∈ S) (hr' : r ∈ S')
    (hc : SameSpace r s s' g g') : s'.pages (r * PGSIZE) = s.pages (r * PGSIZE) :=
  h.pages_cow h' hr hr' hc.cowSame

/-- A private copy of a COW page looks the same to its owner. -/
theorem Good.pages_unshared (h : Good L s g S) (h' : Good L s' g' S) (hr : r ∈ S) (hv : v < TFV)
    (hne : g.pt r v ≠ 0) (hc : (g.pt r v).getLsbD 8 = true) (hu : Unshared r v s s' g g') :
    s'.pages (r * PGSIZE) = s.pages (r * PGSIZE) := by
  obtain ⟨x, hlt, hcopy, hp⟩ := hu.copy
  have hf := (h.space.leaf r hr v hv hne).flags
  funext w
  by_cases hw : w < TFV
  · by_cases hwv : w = v
    · subst hwv
      have he : g'.pt r w = mkPte x (uncowFlags (PTE_FLAGS (g.pt r w))) := by
        rw [hp, Function.update_self]
      rw [h.pages_some hr hw hne, h'.pages_some hr hw (by rw [he]; exact hf.uncow.mkPte_ne_zero x),
        he, PTE_FLAGS_mkPte hlt hf.uncow.lt, ppn_mkPte hlt hf.uncow.lt, hcopy, eagerFlags_uncow]
      rwa [getLsbD_PTE_FLAGS _ (by decide)]
    · have he : g'.pt r w = g.pt r w := by rw [hp, Function.update_of_ne hwv]
      by_cases hm : g.pt r w = 0
      · rw [h.pages_none hr fun _ => hm, h'.pages_none hr fun _ => by rw [he, hm]]
      · rw [h.pages_some hr hw hm, h'.pages_some hr hw (by rwa [he]), he, hu.keep w hw hwv hm]
  · rw [h.pages_none hr fun hv' => (hw hv').elim, h'.pages_none hr fun hv' => (hw hv').elim]

/-- `sbrk` with a positive argument. -/
theorem Good.pages_grown (h : Good L s g S) (h' : Good L s' g' S) (hr : r ∈ S)
    (hg : Grown r v n f s s' g g') (hf : UserFlags f) (hc : f.getLsbD 8 = false) (w : Nat)
    (hw : w < TFV) :
    s'.pages (r * PGSIZE) w =
      if v ≤ w ∧ w < v + n then some ⟨f, fun _ => 0⟩ else s.pages (r * PGSIZE) w := by
  by_cases hin : v ≤ w ∧ w < v + n
  · obtain ⟨x, hlt, hx, hz, _⟩ := hg.new w hin.1 hin.2
    rw [if_pos hin, h'.pages_some hr hw (by rw [hx]; exact hf.mkPte_ne_zero x), hx,
      PTE_FLAGS_mkPte hlt hf.lt, ppn_mkPte hlt hf.lt, hz, eagerFlags_of_not_COW hc]
  · rw [if_neg hin]
    have he := hg.old w hin
    by_cases hm : g.pt r w = 0
    · rw [h.pages_none hr fun _ => hm, h'.pages_none hr fun _ => by rw [he, hm]]
    · rw [h.pages_some hr hw hm, h'.pages_some hr hw (by rwa [he]), he, hg.keep w hw hin hm]

/-- `sbrk` with a negative argument. -/
theorem Good.pages_cleared (h : Good L s g S) (h' : Good L s' g' S) (hr : r ∈ S)
    (hp : g'.pt r = clearRange (g.pt r) v n) (hk : Keeps r s s' g') (w : Nat) :
    s'.pages (r * PGSIZE) w = if v ≤ w ∧ w < v + n then none else s.pages (r * PGSIZE) w := by
  by_cases hin : v ≤ w ∧ w < v + n
  · rw [if_pos hin]
    exact h'.pages_none hr fun _ => by rw [hp, clearRange, if_pos hin]
  · rw [if_neg hin]
    have he : g'.pt r w = g.pt r w := by rw [hp, clearRange, if_neg hin]
    by_cases hw : w < TFV
    · by_cases hm : g.pt r w = 0
      · rw [h.pages_none hr fun _ => hm, h'.pages_none hr fun _ => by rw [he, hm]]
      · have hk := hk w hw (by rwa [he])
        rw [he] at hk
        rw [h.pages_some hr hw hm, h'.pages_some hr hw (by rwa [he]), he, hk]
    · rw [h.pages_none hr fun hv' => (hw hv').elim, h'.pages_none hr fun hv' => (hw hv').elim]

/-- The child of a `fork` sees what its parent saw. -/
theorem Good.pages_copied (h : Good L s g S) (h' : Good L s' g' S) (hr : r ∈ S) (hr' : r' ∈ S)
    (hs : Shape g r n) (hs' : Shape g r' 0) (hc : CowSame r s s' g g')
    (hcop : Copied r r' 0 n g g') : s'.pages (r' * PGSIZE) = s.pages (r * PGSIZE) := by
  funext v
  by_cases hv : v < TFV
  · by_cases hn : v < n
    · have hne := hs.mapped v hn
      have hleaf := h.space.leaf r hr v hv hne
      have hlt := h.ppn_lt hr hv hne
      have he := (hcop.new v (Nat.zero_le v) (by omega)).2
      rw [h.pages_some hr hv hne,
        h'.pages_some hr' hv (by rw [he]; exact hleaf.flags.cow.mkPte_ne_zero _), he,
        hleaf.ppn_cow hlt, hleaf.flags_cow hlt, hleaf.flags.eager_cow, hc.keep v hv hne]
    · have he := (hcop.old v (by omega)).2
      rw [h.pages_none hr fun _ => hs.none v (by omega) hv,
        h'.pages_none hr' fun _ => by rw [he, hs'.none v (Nat.zero_le v) hv]]
  · rw [h.pages_none hr fun hv' => (hv hv').elim, h'.pages_none hr' fun hv' => (hv hv').elim]

end PbsCow
