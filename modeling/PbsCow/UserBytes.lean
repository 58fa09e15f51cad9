import PbsCow.CopyRoundTrip
import PbsCow.Wait

namespace PbsCow
set_option autoImplicit true

/-- What user code of `p` loads from address `a`. -/
def Sys.userByte (t : Sys) (p : Slot) (a : Nat) : Option Byte := t.mem.userLoad (t.proc p).pagetable a

/-- The state in which user code of `p` finds `b` at `a`. -/
def Sys.poke (t : Sys) (p : Slot) (a : Nat) (b : Byte) : Sys :=
  let x := ppn (t.mem.translate (t.proc p).pagetable a)
  { t with mem := t.mem.setPage x ((t.mem.ram x).setByte (a % PGSIZE) b) }

/-- The room of a process, read off its PTEs and the free list. -/
def Sys.HasRoom (t : Sys) (p : Slot) (R : Room) : Prop :=
  ∃ free, Chain t.mem.ram t.mem.freelist free ∧ 0 ∉ free ∧
    R = Room.of (t.pteAt (t.proc p).pagetable) t.mem.count free.length

theorem Good.free_ne_zero (h : Good L s g S) : 0 ∉ g.free :=
  fun hm => absurd (h.rep.page.freeRep.managed 0 hm).pos (by decide)

theorem Good.hasRoom_iff {t : Sys} {p : Slot} (h : Good L t.mem g S)
    (hp : (t.proc p).pagetable = r * PGSIZE) (hr : r ∈ S) : t.HasRoom p R ↔ R = g.room t.mem r := by
  have hroom : Room.of (t.pteAt (t.proc p).pagetable) t.mem.count g.free.length = g.room t.mem r := by
    rw [hp]
    exact Room.of_congr fun w hw => h.rep.pte_page (h.space.live r hr) hw
  constructor
  · rintro ⟨free, hc, h0, rfl⟩
    rw [hc.unique h.rep.page.freeRep.chain h0 h.free_ne_zero, hroom]
  · rintro rfl
    exact ⟨g.free, h.rep.page.freeRep.chain, h.free_ne_zero, hroom.symm⟩

theorem Inv.exists_room {t : Sys} {p : Slot} (h : Inv L t) (hp : (t.proc p).state ≠ .UNUSED) :
    ∃ R, t.HasRoom p R := by
  obtain ⟨g, hg⟩ := h.sys
  obtain ⟨r, hr, hmem, _⟩ := hg.highOk (h.settled.used p hp).1
  exact ⟨_, (hg.good.hasRoom_iff hr hmem).2 rfl⟩

/-- A call of `copyout` that has stored `stored.1` bytes and leaves the room `stored.2`. -/
structure CopyoutDone (L : Layout) (t : Sys) (p : Slot) (dstva : Nat) (src : List Byte)
    (stored : Nat × Room) (ret : Int) (t' : Sys) : Prop where
  inv : Inv L t'
  proc : t'.proc = t.proc
  ret : ret = 0 ∧ stored.1 = src.length ∨ ret = -1 ∧ stored.1 < src.length
  room : t'.HasRoom p stored.2
  bytes : ∀ a, t'.userByte p a = (t.userByte p a).map (overlay dstva (src.take stored.1) a)

theorem Inv.copyout_stores {t : Sys} {p : Slot} (h : Inv L t) (hp : (t.proc p).state ≠ .UNUSED)
    (hR : t.HasRoom p R) :
    Wp (onMem (PbsCow.copyout L (t.proc p).pagetable dstva src)) NoError
      (CopyoutDone L t p dstva src (R.copyout dstva src.length)) t := by
  obtain ⟨g, hg⟩ := h.sys
  obtain ⟨r, hr, hmem, hh⟩ := hg.highOk (h.settled.used p hp).1
  obtain rfl := (hg.good.hasRoom_iff hr hmem).1 hR
  have hout : Wp (onMem (PbsCow.copyout L (t.proc p).pagetable dstva src)) NoError
      (fun ret t' => CopyoutStores L t.roots r dstva src t.mem g
        ((g.room t.mem r).copyout dstva src.length) ret t'.mem) t := by
    rw [wp_onMem, hr]
    exact hg.good.copyoutLoop_stores hmem hh (Nat.le_refl _)
  refine ((h.copyout hp).and hout).mono ?_
  rintro ret t' ⟨⟨hi, hproc⟩, hret, g', hg', ho, hroom⟩
  have hr' : (t'.proc p).pagetable = r * PGSIZE := by rw [hproc, hr]
  refine ⟨hi, hproc, hret, (hg'.hasRoom_iff hr' hmem).2 hroom.symm, fun a => ?_⟩
  rw [Sys.userByte, Sys.userByte, hr', hr]
  exact ho.userLoad hg.good hg' hmem hh a

/-- What process `p` has after another slot has been freed: its own pages, and four free ones at least. -/
structure Reaped (L : Layout) (t : Sys) (p pp : Slot) (R : Room) (t' : Sys) : Prop where
  inv : Inv L t'
  others : ∀ j, j ≠ pp → t'.proc j = t.proc j
  unused : (t'.proc pp).state = .UNUSED
  room : ∃ R', t'.HasRoom p R' ∧ 4 ≤ R'.free ∧
    ∀ w, (R'.page w).user = (R.page w).user ∧ (R'.page w).mapped = (R.page w).mapped

theorem Inv.reap_room {t : Sys} {p pp : Slot} (h : Inv L t) (hp : (t.proc p).state ≠ .UNUSED)
    (hpp : (t.proc pp).state ≠ .UNUSED) (hne : p ≠ pp) (hR : t.HasRoom p R) :
    Wp (freeproc L pp) NoError (fun _ t' => Reaped L t p pp R t') t := by
  obtain ⟨g, hg⟩ := h.sys
  obtain ⟨r, hr, hmem, hh⟩ := hg.highOk (h.settled.used p hp).1
  obtain ⟨r', hr', _, _⟩ := hg.highOk (h.settled.used pp hpp).1
  obtain rfl := (hg.good.hasRoom_iff hr hmem).1 hR
  have hrr : r ≠ r' := by
    rintro rfl
    exact hne (hg.inj p pp (hr.trans hr'.symm) (h.settled.used p hp).1)
  refine hg.freeproc.mono fun _ t' hpost => ?_
  obtain ⟨hi, _, _, ho⟩ := hpost.inv h.settled
  obtain ⟨g', h', _, hu, _, hsp, hfour⟩ := hpost
  have hpp' := h.settled.used pp hpp
  have hp' : (t'.proc p).state ≠ .UNUSED := by rwa [ho p hne]
  have hr₁ : (t'.proc p).pagetable = r * PGSIZE := by rw [ho p hne, hr]
  have hmem' : r ∈ t'.roots := t'.mem_roots.2 ⟨p, (hi.settled.used p hp').1, by rw [hr₁, page_div]⟩
  have hpt : g'.pt r = g.pt r := by
    apply hsp.pt
    rwa [hr', page_div, Finset.mem_singleton]
  refine ⟨hi, ho, hu.state, g'.room t'.mem r, (h'.good.hasRoom_iff hr₁ hmem').2 rfl, ?_, fun w => ?_⟩
  · have hle := hfour hpp'.1 hpp'.2
    show 4 ≤ g'.free.length
    omega
  · constructor
    · rw [Bool.eq_iff_iff, Ghost.room, Ghost.room, Room.of_user, Room.of_user, hpt]
    · rw [Bool.eq_iff_iff, Ghost.room, Ghost.room, Room.of_mapped, Room.of_mapped, hpt]

/-- User code can load from the pages that `copyout` can reach. -/
theorem Inv.userByte_ne_none {t : Sys} {p : Slot} (h : Inv L t) (hp : (t.proc p).state ≠ .UNUSED)
    (hR : t.HasRoom p R) (hu : (R.page (a / PGSIZE)).user = true) : t.userByte p a ≠ none := by
  obtain ⟨g, hg⟩ := h.sys
  have hp0 := (h.settled.used p hp).1
  obtain ⟨r, hr, hmem, hh⟩ := hg.highOk hp0
  obtain rfl := (hg.good.hasRoom_iff hr hmem).1 hR
  obtain ⟨hmax, ha⟩ := Room.of_user.1 hu
  have hleaf := hg.good.space.leaf r hmem _ (hh.user hmax ha) ha.ne_zero
  have hlt : a < MAXVA := by
    rw [MAXVA_eq]
    exact (Nat.div_lt_iff_lt_mul (by decide)).1 hmax
  have hread : Readable (g.pt r (a / PGSIZE)) := by
    refine ⟨ha.1, ha.2, ?_⟩
    rw [flag_R, ← getLsbD_PTE_FLAGS _ (by decide)]
    exact hleaf.flags.readable
  rw [Sys.userByte, hr, userLoad_eq, hg.good.translate hmem, if_pos hlt, if_pos hread]
  exact Option.some_ne_none _

/-- A poke is seen where it was made, and decides nothing else. -/
theorem Inv.poke {t : Sys} {p : Slot} (h : Inv L t) (hp : (t.proc p).state ≠ .UNUSED)
    (hR : t.HasRoom p R) (ha : t.userByte p a ≠ none) (b : Byte) :
    Inv L (t.poke p a b) ∧ (t.poke p a b).HasRoom p R ∧ (t.poke p a b).userByte p a = some b := by
  obtain ⟨g, hg⟩ := h.sys
  have hp0 := (h.settled.used p hp).1
  obtain ⟨r, hr, hmem, hh⟩ := hg.highOk hp0
  obtain rfl := (hg.good.hasRoom_iff hr hmem).1 hR
  have hread : Readable (t.mem.translate (t.proc p).pagetable a) := by
    by_contra hno
    rw [Sys.userByte, userLoad_eq, if_neg hno] at ha
    exact ha rfl
  have htr : t.mem.translate (t.proc p).pagetable a = g.pt r (a / PGSIZE) := by
    rw [hr, hg.good.translate hmem, if_pos]
    by_contra hmax
    rw [hr, hg.good.translate hmem, if_neg hmax] at hread
    exact absurd hread (by decide)
  have hacc : Accessible (g.pt r (a / PGSIZE)) := htr ▸ hread.accessible
  have hu := hg.good.space.target r hmem _ (hg.user_page hr hp0 hacc) hacc.ne_zero
  rw [← htr] at hu
  have h' := hg.setPage (w := (t.mem.ram (ppn (t.mem.translate (t.proc p).pagetable a))).setByte
    (a % PGSIZE) b) (.inl hu)
  refine ⟨⟨h.settled.congr rfl, g, h'⟩, (h'.good.hasRoom_iff hr hmem).2 rfl, ?_⟩
  have htr' : (t.poke p a b).mem.translate (t.proc p).pagetable a =
      t.mem.translate (t.proc p).pagetable a := by
    rw [hr]
    exact (h'.good.translate hmem a).trans (hg.good.translate hmem a).symm
  show (t.poke p a b).mem.userLoad (t.proc p).pagetable a = some b
  rw [userLoad_eq, htr', if_pos hread]
  exact congrArg some (by rw [Sys.poke, Mem.setPage_self, Page.byte_setByte, if_pos rfl])

end PbsCow
