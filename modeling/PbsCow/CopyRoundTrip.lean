import PbsCow.CopyoutPages
import PbsCow.Isolation

namespace PbsCow
set_option autoImplicit true

/-- The byte at address `a` of the address space `r`. -/
def byteAt (s : Mem) (g : Ghost) (r a : Nat) : Byte := (s.ram (ppn (g.pt r (a / PGSIZE)))).byte (a % PGSIZE)

/-- The bytes `src` have been written to the address space `r` from `dstva` on, and nothing else. -/
structure Overlaid (r dstva : Nat) (src : List Byte) (s s' : Mem) (g g' : Ghost) : Prop where
  flags : ∀ w i, i < 10 → i ≠ 2 → i ≠ 8 → (g'.pt r w).getLsbD i = (g.pt r w).getLsbD i
  high : ∀ w, TFV ≤ w → g'.pt r w = g.pt r w
  data : ∀ a, a / PGSIZE < TFV → g.pt r (a / PGSIZE) ≠ 0 →
    byteAt s' g' r a = overlay dstva src a (byteAt s g r a)

theorem Overlaid.nil (r dstva : Nat) (s : Mem) (g : Ghost) : Overlaid r dstva [] s s g g := by
  refine ⟨fun _ _ _ _ _ => rfl, fun _ _ => rfl, fun a _ _ => ?_⟩
  rw [overlay_nil]

/-- `cowalloc` on its own writes nothing. -/
theorem SamePages.nothing (hp : SamePages r v s s' g g') (dstva : Nat) : Overlaid r dstva [] s s' g g' := by
  refine ⟨hp.flags, hp.high, fun a ha h0 => ?_⟩
  rw [overlay_nil, byteAt, byteAt, hp.data _ ha h0]

theorem Mem.setPage_self (s : Mem) (x : Nat) (p : Page) : (s.setPage x p).ram x = p :=
  Function.update_self _ _ _

theorem Mem.setPage_of_ne (s : Mem) (p : Page) (h : y ≠ x) : (s.setPage x p).ram y = s.ram y :=
  Function.update_of_ne h _ _

/-- One turn of the loop of `copyout`: the first page is written, then the others. -/
theorem SamePages.overlaid (hp : SamePages r (dstva / PGSIZE) s s₁ g g₁) (h : Good L s g S)
    (h₁ : Good L s₁ g₁ S) (hr : r ∈ S) (hv : dstva / PGSIZE < TFV)
    (hne : g₁.pt r (dstva / PGSIZE) ≠ 0) (hn : n = min (PGSIZE - dstva % PGSIZE) src.length)
    (hrest : Overlaid r ((dstva / PGSIZE + 1) * PGSIZE) (src.drop n)
      (s₁.setPage (ppn (g₁.pt r (dstva / PGSIZE)))
        ((s₁.ram (ppn (g₁.pt r (dstva / PGSIZE)))).setBytes (dstva % PGSIZE) (src.take n))) s' g₁ g') :
    Overlaid r dstva src s s' g g' := by
  have hlt : dstva % PGSIZE < PGSIZE := Nat.mod_lt _ (by decide)
  have hd := Nat.div_add_mod' dstva PGSIZE
  refine ⟨fun w i hi h2 h8 => (hrest.flags w i hi h2 h8).trans (hp.flags w i hi h2 h8),
    fun w hw => (hrest.high w hw).trans (hp.high w hw), fun a ha ha0 => ?_⟩
  have ha1 := hp.ne_zero h hr ha ha0
  have hend : (dstva / PGSIZE + 1) * PGSIZE = dstva + n ∨ src.length ≤ n := by
    simp only [PGSIZE] at *
    omega
  rw [hrest.data a ha ha1, ← overlay_take_drop (byteAt s g r a) hend]
  refine congrArg _ ?_
  have hda := Nat.div_add_mod' a PGSIZE
  by_cases hpage : a / PGSIZE = dstva / PGSIZE
  · -- the page that is written
    rw [byteAt, byteAt, hpage, Mem.setPage_self, Page.byte_setBytes_overlay,
      hp.data _ hv (by rwa [hpage] at ha0), ← overlay_shift (dstva / PGSIZE * PGSIZE), hd, ← hpage, hda]
  · have hppn : ppn (g₁.pt r (a / PGSIZE)) ≠ ppn (g₁.pt r (dstva / PGSIZE)) := by
      intro he
      exact hpage (h₁.space.inj r hr _ _ hv ha hne ⟨ha1, he⟩)
    have hout : overlay dstva (src.take n) a (byteAt s g r a) = byteAt s g r a := by
      rcases Nat.lt_or_ge a dstva with hlo | hlo
      · exact overlay_of_lt _ _ hlo
      · refine overlay_of_ge _ ?_
        rw [List.length_take]
        have hge : dstva / PGSIZE < a / PGSIZE := by
          have hle := Nat.div_le_div_right (c := PGSIZE) hlo
          omega
        simp only [PGSIZE] at *
        omega
    rw [hout, byteAt, byteAt, Mem.setPage_of_ne _ _ hppn, hp.data _ ha ha0]

/-- How `copyout` ends that has stored `stored.1` bytes and leaves the room `stored.2`. -/
def CopyoutStores (L : Layout) (S : Finset Nat) (r dstva : Nat) (src : List Byte) (s : Mem) (g : Ghost)
    (stored : Nat × Room) (ret : Int) (s' : Mem) : Prop :=
  (ret = 0 ∧ stored.1 = src.length ∨ ret = -1 ∧ stored.1 < src.length) ∧
    ∃ g', Good L s' g' S ∧ Overlaid r dstva (src.take stored.1) s s' g g' ∧ g'.room s' r = stored.2

theorem Good.copyout_nil (h : Good L s g S) (r dstva : Nat) :
    CopyoutStores L S r dstva [] s g (0, g.room s r) 0 s :=
  ⟨.inl ⟨rfl, rfl⟩, g, h, .nil _ _ _ _, rfl⟩

/-- `copyout` stores what the room says. -/
theorem Good.copyoutLoop_stores (h : Good L s g S) (hr : r ∈ S) (hh : HighOk g r)
    (hfuel : src.length ≤ fuel) :
    Wp (copyoutLoop L (r * PGSIZE) fuel dstva src) NoError (CopyoutStores L S r dstva src s g
      (Room.copyoutLoop fuel (g.room s r) dstva src.length)) s := by
  induction fuel generalizing s g dstva src with
  | zero =>
    obtain rfl := List.length_eq_zero_iff.1 (Nat.le_zero.1 hfuel)
    exact wp_pure.2 (h.copyout_nil r dstva)
  | succ fuel ih =>
    rw [copyoutLoop, Room.copyoutLoop]
    refine .ite (fun h0 => ?_) fun h0 => ?_
    · obtain rfl := List.length_eq_zero_iff.1 h0
      exact wp_pure.2 (h.copyout_nil r dstva)
    have hlen : 0 < src.length := Nat.pos_of_ne_zero h0
    have hoff : dstva - dstva / PGSIZE * PGSIZE = dstva % PGSIZE := by
      rw [Nat.mul_comm, Nat.mod_eq_sub_mul_div]
    have hnext : dstva / PGSIZE * PGSIZE + PGSIZE = (dstva / PGSIZE + 1) * PGSIZE :=
      (Nat.succ_mul _ PGSIZE).symm
    rw [if_neg h0]
    simp only [PGROUNDDOWN, hoff, hnext]
    refine .bind (h.cowalloc_samePages hr hh) ?_
    rintro ret s₁ (⟨rfl, rfl, hnone⟩ | ⟨rfl, hmax, g₁, hg₁, hp, hsome⟩)
    · rw [hnone]
      exact .ite_pos (by decide) (wp_pure.2 ⟨.inr ⟨rfl, hlen⟩, g, h, .nil _ _ _ _, rfl⟩)
    rw [hsome]
    have huser : ((g₁.room s₁ r).page (dstva / PGSIZE)).user = true ↔
        dstva / PGSIZE < MAXV ∧ Accessible (g₁.pt r (dstva / PGSIZE)) := Room.of_user
    refine .ite_neg (by decide) (.bind (hg₁.walkaddr hr) ?_)
    rintro pa _ ⟨rfl, ⟨_, ha, rfl⟩ | ⟨rfl, hna⟩⟩
    · have hh₁ : HighOk g₁ r := hh.congr hp.high
      have hv := hh₁.user hmax ha
      refine .ite_neg (hg₁.pos hr hv ha.ne_zero) ?_
      have hlt : dstva % PGSIZE < PGSIZE := Nat.mod_lt _ (by decide)
      have hdiv : (ppn (g₁.pt r (dstva / PGSIZE)) * PGSIZE + dstva % PGSIZE) / PGSIZE =
          ppn (g₁.pt r (dstva / PGSIZE)) := by
        rw [Nat.mul_comm, Nat.mul_add_div (by decide), Nat.div_eq_of_lt hlt, Nat.add_zero]
      have hmod : (ppn (g₁.pt r (dstva / PGSIZE)) * PGSIZE + dstva % PGSIZE) % PGSIZE =
          dstva % PGSIZE := by
        rw [Nat.mul_comm, Nat.mul_add_mod, Nat.mod_mod]
      simp only [memmoveIn, wp_bind, wp_modify, PTE2PA_eq, hdiv, hmod, huser.2 ⟨hmax, ha⟩, if_true]
      have hu := hg₁.space.target r hr _ hv ha.ne_zero
      have hih (p : Page) : Wp (copyoutLoop L (r * PGSIZE) fuel ((dstva / PGSIZE + 1) * PGSIZE)
          (src.drop (min (PGSIZE - dstva % PGSIZE) src.length))) NoError _ _ :=
        ih (hg₁.setPage (p := p) (.inl hu)) hh₁ (by rw [List.length_drop]; omega)
      have hle := Room.copyoutLoop_le fuel (g₁.room s₁ r) ((dstva / PGSIZE + 1) * PGSIZE)
        (src.length - min (PGSIZE - dstva % PGSIZE) src.length)
      simp only [List.length_drop] at hih
      refine (hih _).mono ?_
      generalize hm : Room.copyoutLoop fuel (g₁.room s₁ r) ((dstva / PGSIZE + 1) * PGSIZE)
        (src.length - min (PGSIZE - dstva % PGSIZE) src.length) = stored at hle
      rintro ret s' ⟨hret, g', hg', ho, hroom⟩
      have hsame (p : Page) : g₁.room (s₁.setPage (ppn (g₁.pt r (dstva / PGSIZE))) p) r = g₁.room s₁ r := rfl
      rw [hsame, hm] at hret ho hroom
      rw [List.length_drop] at hret
      refine ⟨?_, g', hg', ?_, hroom⟩
      · dsimp only
        omega
      · refine hp.overlaid h hg₁ hr hv ha.ne_zero (n := min (PGSIZE - dstva % PGSIZE) src.length) ?_ ?_
        · rw [List.length_take]
          omega
        · rw [List.take_take, List.drop_take, Nat.add_sub_cancel_left, Nat.min_eq_left (Nat.le_add_right _ _)]
          exact ho
    · dsimp only
      rw [if_neg (mt huser.1 hna)]
      exact .ite_pos rfl (wp_pure.2 ⟨.inr ⟨rfl, hlen⟩, g₁, hg₁, hp.nothing dstva, rfl⟩)

/-- The bytes of the address space `r` from `a` on. -/
def bytesAt (s : Mem) (g : Ghost) (r a len : Nat) : List Byte :=
  (List.range len).map fun i => byteAt s g r (a + i)

theorem bytesAt_page (s : Mem) (g : Ghost) (r a : Nat) (hn : n ≤ PGSIZE - a % PGSIZE) :
    (s.ram (ppn (g.pt r (a / PGSIZE)))).bytes (a % PGSIZE) n = bytesAt s g r a n := by
  refine List.map_congr_left fun k hk => ?_
  rw [List.mem_range] at hk
  have hdiv : (a + k) / PGSIZE = a / PGSIZE := by
    simp only [PGSIZE] at *
    omega
  have hmod : (a + k) % PGSIZE = a % PGSIZE + k := by
    simp only [PGSIZE] at *
    omega
  rw [byteAt, hdiv, hmod]

theorem bytesAt_append (s : Mem) (g : Ghost) (r a n m : Nat) :
    bytesAt s g r a n ++ bytesAt s g r (a + n) m = bytesAt s g r a (n + m) := by
  rw [bytesAt, bytesAt, bytesAt, List.range_add, List.map_append, List.map_map]
  simp only [Function.comp_def, Nat.add_assoc]

theorem Good.copyinLoop_bytes (h : Good L s g S) (hr : r ∈ S) (hh : HighOk g r) (hfuel : len ≤ fuel)
    (hall : 0 < len → ∀ w, InRange srcva len w → w < MAXV ∧ Accessible (g.pt r w)) :
    Wp (copyinLoop (r * PGSIZE) fuel srcva len dst) NoError (fun res s' => s = s' ∧
      res = (0, dst ++ bytesAt s g r srcva len)) s := by
  induction fuel generalizing srcva len dst with
  | zero =>
    obtain rfl := Nat.le_zero.1 hfuel
    exact wp_pure.2 ⟨rfl, by rw [bytesAt]; simp⟩
  | succ fuel ih =>
    rw [copyinLoop]
    refine .ite (fun h0 => ?_) fun h0 => ?_
    · subst h0
      exact wp_pure.2 ⟨rfl, by rw [bytesAt]; simp⟩
    have hlen : 0 < len := Nat.pos_of_ne_zero h0
    have hoff : srcva - srcva / PGSIZE * PGSIZE = srcva % PGSIZE := by
      rw [Nat.mul_comm, Nat.mod_eq_sub_mul_div]
    have hnext : srcva / PGSIZE * PGSIZE + PGSIZE = (srcva / PGSIZE + 1) * PGSIZE :=
      (Nat.succ_mul _ PGSIZE).symm
    simp only [PGROUNDDOWN, hoff, hnext]
    obtain ⟨hmax, ha⟩ := hall hlen _ (.first hlen)
    refine .bind (h.walkaddr hr) ?_
    rintro pa _ ⟨rfl, ⟨_, _, rfl⟩ | ⟨rfl, hna⟩⟩
    · refine .ite_neg (h.pos hr (hh.user hmax ha) ha.ne_zero) ?_
      have hn : min (PGSIZE - srcva % PGSIZE) len ≤ PGSIZE - srcva % PGSIZE := Nat.min_le_left _ _
      have hlt : srcva % PGSIZE < PGSIZE := Nat.mod_lt _ (by decide)
      simp only [wp_bind, wp_get, PTE2PA_eq, page_div, bytesAt_page _ _ _ _ hn]
      refine (ih (by omega) fun _ w hw => hall hlen w hw.rest.1).mono ?_
      rintro res _ ⟨rfl, rfl⟩
      have hsplit := bytesAt_append s g r srcva (min (PGSIZE - srcva % PGSIZE) len)
        (len - min (PGSIZE - srcva % PGSIZE) len)
      rw [Nat.add_sub_cancel' (Nat.min_le_right _ _)] at hsplit
      refine ⟨rfl, ?_⟩
      rw [List.append_assoc, ← hsplit]
      rcases Nat.lt_or_ge (PGSIZE - srcva % PGSIZE) len with hlong | hshort
      · rw [Nat.min_eq_left (Nat.le_of_lt hlong)]
        have hva : (srcva / PGSIZE + 1) * PGSIZE = srcva + (PGSIZE - srcva % PGSIZE) := by
          simp only [PGSIZE] at *
          omega
        rw [hva]
      · rw [Nat.min_eq_right hshort, Nat.sub_self]
        rfl
    · exact (hna ⟨hmax, ha⟩).elim

theorem InRange.of_lt (h : k < len) : InRange a len ((a + k) / PGSIZE) := by
  have hle := Nat.div_mul_le_self (a + k) PGSIZE
  exact ⟨Nat.div_le_div_right (Nat.le_add_right a k), by omega⟩

theorem Overlaid.bytes (h : Overlaid r dstva src s s' g g')
    (hall : ∀ k, k < src.length → (dstva + k) / PGSIZE < TFV ∧ g.pt r ((dstva + k) / PGSIZE) ≠ 0) :
    bytesAt s' g' r dstva src.length = src := by
  refine List.ext_getElem (by rw [bytesAt]; simp) fun k hk hk' => ?_
  obtain ⟨hlt, hne⟩ := hall k hk'
  simp only [bytesAt, List.getElem_map, List.getElem_range]
  rw [h.data _ hlt hne, overlay_add _ hk']

theorem Overlaid.readable (h : Overlaid r dstva src s s' g g') (w : Nat) :
    Readable (g'.pt r w) ↔ Readable (g.pt r w) := by
  simp only [Readable, flag_V, flag_U, flag_R, h.flags w 0 (by decide) (by decide) (by decide),
    h.flags w 1 (by decide) (by decide) (by decide), h.flags w 4 (by decide) (by decide) (by decide)]

theorem Overlaid.accessible (h : Overlaid r dstva src s s' g g') (w : Nat) :
    Accessible (g'.pt r w) ↔ Accessible (g.pt r w) := by
  simp only [Accessible, flag_V, flag_U, h.flags w 0 (by decide) (by decide) (by decide),
    h.flags w 4 (by decide) (by decide) (by decide)]

/-- User code loads what has been written, and elsewhere what was there. -/
theorem Overlaid.userLoad (h : Overlaid r dstva src s s' g g') (hg : Good L s g S) (hg' : Good L s' g' S)
    (hr : r ∈ S) (hh : HighOk g r) (a : Nat) :
    s'.userLoad (r * PGSIZE) a = (s.userLoad (r * PGSIZE) a).map (overlay dstva src a) := by
  rw [userLoad_eq, userLoad_eq, hg'.translate hr, hg.translate hr]
  by_cases hmax : a < MAXVA
  · rw [if_pos hmax, if_pos hmax]
    by_cases hread : Readable (g.pt r (a / PGSIZE))
    · have hacc := hread.accessible
      have hpage : a / PGSIZE < MAXV := by
        rw [MAXVA_eq] at hmax
        exact (Nat.div_lt_iff_lt_mul (by decide)).2 hmax
      rw [if_pos hread, if_pos ((h.readable _).2 hread)]
      exact congrArg some (h.data a (hh.user hpage hacc) hacc.ne_zero)
    · rw [if_neg hread, if_neg (mt (h.readable _).1 hread)]
      rfl
  · rw [if_neg hmax, if_neg hmax]
    rfl

/-- Bytes copied out are copied in again as they were, and no other byte that the process can read has
changed. `copyout` succeeds exactly if the pages are there and there is memory for the copies. -/
theorem copyout_copyin {t : Sys} {p : Slot} (h : Reachable L t) (hp : (t.proc p).state ≠ .UNUSED)
    (dstva : Nat) (src : List Byte) :
    ∃ ret s', copyout L (t.proc p).pagetable dstva src t.mem = .ok (ret, s') ∧
      (ret = 0 → copyin (t.proc p).pagetable dstva src.length s' = .ok ((0, src), s') ∧
        ∀ a, a < dstva ∨ dstva + src.length ≤ a →
          s'.userLoad (t.proc p).pagetable a = t.mem.userLoad (t.proc p).pagetable a) ∧
      (ret = 0 ∨ ret = -1) ∧
      ∃ free, Chain t.mem.ram t.mem.freelist free ∧ 0 ∉ free ∧
        (ret = 0 ↔ CopyoutRoom (t.pteAt (t.proc p).pagetable) t.mem.count free dstva src.length) := by
  have hi := h.inv
  obtain ⟨g, hg⟩ := hi.sys
  obtain ⟨r, hr, hmem, hh⟩ := hg.highOk (hi.settled.used p hp).1
  have hfree : 0 ∉ g.free := fun hm => absurd (hg.good.rep.page.freeRep.managed 0 hm).pos (by decide)
  have hroom : (g.room t.mem r).Fits dstva src.length ↔
      CopyoutRoom (t.pteAt (r * PGSIZE)) t.mem.count g.free dstva src.length := by
    rw [← Room.fits_of_iff, Ghost.room]
    exact iff_of_eq (congrArg (Room.Fits · dstva src.length)
      (Room.of_congr fun w hw => (hg.good.rep.pte_page (hg.good.space.live r hmem) hw).symm))
  have hout : Wp (copyout L (r * PGSIZE) dstva src) NoError _ t.mem :=
    hg.good.copyoutLoop_stores hmem hh (Nat.le_refl src.length)
  obtain ⟨ret, s', he, hret, g', hg', ho, _⟩ := hout.exists_ok
  have hall := Room.copyout_eq_iff (g.room t.mem r) dstva src.length
  rw [Room.copyout] at hall
  rw [hr]
  refine ⟨ret, s', he, ?_, ?_, g.free, hg.good.rep.page.freeRep.chain, hfree, ?_⟩
  · rintro rfl
    obtain ⟨_, hn⟩ : (0 : Int) = 0 ∧ _ := hret.resolve_right fun h => absurd h.1 (by decide)
    rw [hn, List.take_length] at ho
    have hpages (hpos : 0 < src.length) (w : Nat) (hw : InRange dstva src.length w) :
        w < MAXV ∧ Accessible (g.pt r w) :=
      Room.of_user.1 (hall.1 hn hpos w hw).2.1
    constructor
    · have hback : Wp (copyin (r * PGSIZE) dstva src.length) NoError _ s' :=
        hg'.copyinLoop_bytes hmem (hh.congr ho.high) (Nat.le_refl src.length) fun hpos w hw =>
          ⟨(hpages hpos w hw).1, (ho.accessible w).2 (hpages hpos w hw).2⟩
      obtain ⟨res, s'', hin, rfl, rfl⟩ := hback.exists_ok
      have hbytes := ho.bytes fun k hk => by
        obtain ⟨hmax, ha⟩ := hpages (Nat.zero_lt_of_lt hk) _ (.of_lt hk)
        exact ⟨hh.user hmax ha, ha.ne_zero⟩
      rwa [List.nil_append, hbytes] at hin
    · intro a ha
      have hsame : overlay dstva src a = id := by
        funext b
        cases ha with
        | inl hlo => exact overlay_of_lt _ _ hlo
        | inr hhi => exact overlay_of_ge _ hhi
      rw [ho.userLoad hg.good hg' hmem hh, hsame, Option.map_id]
      rfl
  · rcases hret with ⟨rfl, _⟩ | ⟨rfl, _⟩
    · exact .inl rfl
    · exact .inr rfl
  · rw [← hroom, ← hall]
    rcases hret with ⟨rfl, hn⟩ | ⟨rfl, hn⟩
    · exact iff_of_true rfl hn
    · exact iff_of_false (by decide) hn.ne

/-- The first process writes to its own page, and reads back what it has written. -/
theorem copyout_copyin_booted : ∃ t p s', Reachable imageLayout t ∧ (t.proc p).state = .RUNNING ∧
    copyout imageLayout (t.proc p).pagetable 8 [1, 2] t.mem = .ok (0, s') ∧
    copyin (t.proc p).pagetable 8 2 s' = .ok ((0, [1, 2]), s') := by
  obtain ⟨t, p, g, r, x, _, hreach, hb⟩ := Reachable.init imageLayout fun _ _ => 0
  obtain ⟨ret, s', he, hback, _, free, _, _, hroom⟩ :=
    copyout_copyin hreach (p := p) (by rw [hb.state]; simp) 8 [1, 2]
  have hpte : t.pteAt (t.proc p).pagetable 0 = mkPte x initFlags := by
    rw [Sys.pteAt, hb.root, hb.inv.pte hb.mem (by decide), hb.pte]
  have hbit {i : Nat} (hi : i < 10) : (mkPte x initFlags).getLsbD i = initFlags.getLsbD i :=
    getLsbD_mkPte x _ hi
  obtain rfl : ret = 0 := by
    rw [hroom]
    rintro - w ⟨_, hw⟩
    obtain rfl : w = 0 := by
      simp only [List.length_cons, List.length_nil, PGSIZE] at hw
      omega
    rw [hpte, Accessible, flag_V, flag_U, flag_COW, hbit (by decide), hbit (by decide), hbit (by decide)]
    exact ⟨by decide, by decide, fun hc => absurd hc (by decide)⟩
  exact ⟨t, p, s', hreach, hb.state, he, (hback rfl).1⟩

end PbsCow
