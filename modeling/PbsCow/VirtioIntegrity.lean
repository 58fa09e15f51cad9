import PbsCow.VirtioRequests

namespace PbsCow.Virtio
set_option autoImplicit true

theorem Request.clear_self (r : Request) : r.clear r.b = { r with cleared := r.cleared + 1 } := if_pos rfl

theorem Request.clear_ne {r : Request} {b : Nat} (h : r.b ≠ b) : r.clear b = r := if_neg h

namespace Consistent

/-- Requests of different threads are for different buffers. -/
theorem buf_inj (h : Consistent s pending done) (hr : s.Sent t r) (hr' : s.Sent t' r') (he : r.b = r'.b) :
    t = t' ∧ r = r' := by
  have ht := h.bufs t t' (.sent r) (.sent r') hr hr' he
  subst ht
  rw [State.Sent, hr] at hr'
  exact ⟨rfl, by injection hr' with hr'; injection hr'⟩

/-- The interrupt handler finds the request that the device has reported. -/
theorem virtioDiskIntr (h : Consistent s pending done) :
    Wp virtioDiskIntr (· = .intrStatus) (fun _ s' => ∃ done', Consistent s' pending done') s := by
  rw [Virtio.virtioDiskIntr, wp_bind, wp_get]
  cases done with
  | nil => exact .ite_pos (h.done_iff.2 rfl) (wp_pure.2 ⟨[], h⟩)
  | cons i done =>
    apply Wp.ite_neg fun he => by cases h.done_iff.1 he
    rw [h.used.1]
    refine Wp.ite (fun _ => wp_bind.2 (wp_throw.2 rfl)) fun _ => ?_
    obtain ⟨t, r, hr, rfl, hc⟩ := (h.heads i).1 (by simp)
    have hok := h.ok t r hr
    rw [hok.info hc]
    apply wp_modify.2
    refine ⟨done, ?_⟩
    have hperm : (pending ++ s.taken ++ r.i0 :: done).Perm (r.i0 :: (pending ++ s.taken ++ done)) :=
      List.perm_middle
    have hn := hperm.nodup_iff.1 h.nodup
    obtain ⟨hni, hn⟩ := List.nodup_cons.1 hn
    have hrep : r.reported = 1 := by
      rcases hok.counts with ⟨_, hrep⟩ | ⟨hc', _⟩
      · rwa [if_pos List.mem_cons_self] at hrep
      · rw [hc] at hc'
        cases hc'
    have hother {t' : Nat} {r' : Request} (hr' : s.Sent t' r') (hne : r' ≠ r) : r'.b ≠ r.b ∧ r'.i0 ≠ r.i0 :=
      ⟨fun he => hne (h.buf_inj hr' hr he).2, fun he => hne (h.head_inj hr' hr he).2⟩
    obtain ⟨hsent, hbufs, hapart, hbusy⟩ := h.record ({ s with
      bdisk := Function.update s.bdisk r.b false
      calls := fun t => (s.calls t).map (Call.map (.clear r.b))
      disk := { s.disk with used_idx := s.disk.used_idx + 1 } }) (records_clear r.b) rfl rfl
    refine ⟨fun t' r'' hs => ?_, hbufs, hapart, hbusy, h.avail, h.availIdx, h.used.2, ?_, hn, fun j => ?_, h.closed⟩
    · obtain ⟨r', hr', rfl⟩ := (hsent t' r'').1 hs
      obtain ⟨hl, hb, hf, hcs⟩ := h.ok t' r' hr'
      by_cases he : r' = r
      · subst he
        rw [r'.clear_self]
        refine ⟨hl.congr (fun _ _ => rfl) fun _ _ => rfl, fun h₀ => ?_, ?_, ?_⟩
        · cases h₀
        · simp
        · exact .inr ⟨by rw [hc], hrep⟩
      · obtain ⟨hbne, hine⟩ := hother hr' he
        rw [Request.clear_ne hbne]
        refine ⟨hl.congr (fun _ _ => rfl) fun _ _ => rfl, hb, ?_, ?_⟩
        · show Function.update s.bdisk r.b false r'.b = true ↔ _
          rw [Function.update_of_ne hbne]
          exact hf
        · simp only [List.mem_cons, or_iff_right hine] at hcs
          exact hcs
    · show s.disk.usedIdx = s.disk.used_idx + 1 + _
      rw [add_ofNat_succ, h.usedIdx, List.length_cons]
    · constructor
      · intro hj
        obtain ⟨t', r', hr', rfl, hc'⟩ := (h.heads j).1 (hperm.mem_iff.2 (List.mem_cons_of_mem _ hj))
        have hne : r' ≠ r := by
          rintro rfl
          exact hni hj
        refine ⟨t', r', (hsent t' r').2 ⟨r', hr', Request.clear_ne (hother hr' hne).1⟩, rfl, hc'⟩
      · rintro ⟨t', r'', hs, rfl, hc'⟩
        obtain ⟨r', hr', rfl⟩ := (hsent t' r'').1 hs
        have hne : r' ≠ r := by
          rintro rfl
          rw [r'.clear_self] at hc'
          cases hc'
        rw [Request.clear_ne (hother hr' hne).1] at hc' ⊢
        have hmem := hperm.mem_iff.1 ((h.heads r'.i0).2 ⟨t', r', hr', rfl, hc'⟩)
        exact List.mem_of_ne_of_mem (hother hr' hne).2 hmem

/-- The condition under which thread `t` may put buffer `b` into the driver. -/
def Alone (s : State) (t b : Nat) : Prop := ∀ t' c, t' ≠ t → s.calls t' = some c → c.buf ≠ b

theorem update_bufs (h : Consistent s pending done) {calls : Nat → Option Call}
    (hc : ∀ c', c = some c' → Alone s t c'.buf) (he : calls = Function.update s.calls t c) :
    ∀ t₁ t₂ c₁ c₂, calls t₁ = some c₁ → calls t₂ = some c₂ → c₁.buf = c₂.buf → t₁ = t₂ := by
  subst he
  intro t₁ t₂ c₁ c₂ h₁ h₂ hb
  by_cases e₁ : t₁ = t
  · by_cases e₂ : t₂ = t
    · rw [e₁, e₂]
    · subst e₁
      rw [Function.update_self] at h₁
      rw [Function.update_of_ne e₂] at h₂
      exact (hc c₁ h₁ t₂ c₂ e₂ h₂ hb.symm).elim
  · rw [Function.update_of_ne e₁] at h₁
    by_cases e₂ : t₂ = t
    · subst e₂
      rw [Function.update_self] at h₂
      exact (hc c₂ h₂ t₁ c₁ e₁ h₁ hb).elim
    · rw [Function.update_of_ne e₂] at h₂
      exact h.bufs t₁ t₂ c₁ c₂ h₁ h₂ hb

/-- A thread leaves whose request is finished, and gives its descriptors back. -/
theorem finish (h : Consistent s pending done) (hr : s.Sent t r) (hc : r.cleared = 1)
    (hcalls : s'.calls = Function.update s.calls t none) (hb : s'.bdisk = s.bdisk)
    (hlast : s'.lastAvail = s.lastAvail) (htaken : s'.taken = s.taken) (hover : ∀ p ∈ s'.closed, p = (1, 1))
    (hinfo : ∀ i, i ≠ r.i0 → info i = s.disk.info i) (hd : Freed r.idx { s.disk with info := info } s'.disk) :
    Consistent s' pending done := by
  have hsent (t' : Nat) (r' : Request) : s'.Sent t' r' ↔ t' ≠ t ∧ s.Sent t' r' := by
    rw [State.Sent, hcalls]
    by_cases ht : t' = t
    · rw [ht, Function.update_self]
      simp
    · rw [Function.update_of_ne ht]
      exact (and_iff_right ht).symm
  have hsep {t' : Nat} {r' : Request} (ht : t' ≠ t) (hr' : s.Sent t' r') (i : Nat) (hi : i ∈ r'.idx) : i ∉ r.idx :=
    fun hi' => ht (h.apart t' t r' r i hr' hr hi hi')
  refine ⟨fun t' r' hr' => ?_, h.update_bufs (fun _ h => by cases h) hcalls,
    fun t₁ t₂ r₁ r₂ i h₁ h₂ => ?_, fun i hi hf => ?_, ?_, ?_, ?_, ?_, ?_, fun j => ?_, hover⟩
  · obtain ⟨ht, hr'⟩ := (hsent t' r').1 hr'
    have hne : r'.i0 ≠ r.i0 := fun he => ht (h.head_inj hr' hr he).1
    refine (h.ok t' r' hr').congr (fun i hi => hd.desc i (hsep ht hr' i hi)) (fun i hi => ?_) ?_ (congrFun hb _)
    · rw [hd.free, if_neg (hsep ht hr' i hi)]
    · rw [hd.rings.info]
      exact congrArg Info.b (hinfo r'.i0 hne)
  · exact h.apart t₁ t₂ r₁ r₂ i ((hsent t₁ r₁).1 h₁).2 ((hsent t₂ r₂).1 h₂).2
  · rw [hd.free] at hf
    by_cases hmem : i ∈ r.idx
    · rw [if_pos hmem] at hf
      cases hf
    · rw [if_neg hmem] at hf
      obtain ⟨t', r', hr', hi'⟩ := h.busy i hi hf
      refine ⟨t', r', (hsent t' r').2 ⟨?_, hr'⟩, hi'⟩
      rintro rfl
      rw [State.Sent, hr] at hr'
      cases hr'
      exact hmem hi'
  · rw [hd.rings.avail, hlast]
    exact h.avail
  · rw [hd.rings.availIdx, hlast]
    exact h.availIdx
  · rw [hd.rings.used, hd.rings.used_idx]
    exact h.used
  · rw [hd.rings.usedIdx, hd.rings.used_idx]
    exact h.usedIdx
  · rw [htaken]
    exact h.nodup
  · rw [htaken, h.heads]
    constructor
    · rintro ⟨t', r', hr', hj, hc'⟩
      refine ⟨t', r', (hsent t' r').2 ⟨?_, hr'⟩, hj, hc'⟩
      rintro rfl
      rw [State.Sent, hr] at hr'
      cases hr'
      rw [hc] at hc'
      cases hc'
    · rintro ⟨t', r', hr', hj, hc'⟩
      exact ⟨t', r', ((hsent t' r').1 hr').2, hj, hc'⟩

theorem virtioDiskDone (h : Consistent s pending done) (hr : s.Sent t r) :
    Wp (virtioDiskDone t r) NoError (fun _ s' => Consistent s' pending done) s := by
  rw [Virtio.virtioDiskDone, wp_bind, wp_get]
  have hok := h.ok t r hr
  by_cases hb : s.bdisk r.b
  · exact .ite_pos hb (wp_pure.2 h)
  · apply Wp.ite_neg hb
    obtain ⟨hc, hrep⟩ : r.cleared = 1 ∧ r.reported = 1 := by
      rcases hok.counts with ⟨hc, _⟩ | hc
      · exact absurd (hok.flag.2 hc) hb
      · exact hc
    rw [wp_bind, onDisk, wp_zoom]
    apply wp_modify.2
    rw [wp_bind, onDisk, wp_zoom]
    refine Wp.mono (Disk.Linked.freeChain (hok.linked.congr (fun _ _ => rfl) fun _ _ => rfl)) fun _ d hd => ?_
    rw [wp_bind, putCall, wp_modify, wp_modify]
    refine h.finish hr hc rfl rfl rfl rfl ?_ (fun i hi => Function.update_of_ne hi ..) hd
    intro p hp
    rcases List.mem_cons.1 hp with rfl | hp
    · rw [hc, hrep]
    · exact h.closed p hp

/-- No descriptors are left, and the thread waits for some. -/
theorem await (h : Consistent s pending done) (hnew : ∀ r, ¬ s.Sent t r) (ha : Alone s t b)
    (hd : s.disk.Same d) :
    Consistent { s with disk := d, calls := Function.update s.calls t (some (.waiting b write)) } pending done := by
  have hsent (t' : Nat) (r' : Request) :
      State.Sent { s with disk := d, calls := Function.update s.calls t (some (.waiting b write)) } t' r' ↔
        s.Sent t' r' := by
    by_cases ht : t' = t
    · subst ht
      exact iff_of_false (by simp [State.Sent]) (hnew r')
    · simp [State.Sent, Function.update_of_ne ht]
  refine ⟨fun t' r' hr' => ?_, h.update_bufs (fun c' hc => ?_) rfl, fun t₁ t₂ r₁ r₂ i h₁ h₂ => ?_,
    fun i hi hf => ?_, ?_, ?_, ?_, ?_, h.nodup, fun j => ?_, h.closed⟩
  · have hok := h.ok t' r' ((hsent t' r').1 hr')
    refine hok.congr (fun i hi => hd.desc i (hok.linked.busy i hi).2) (fun i _ => congrFun hd.free i) ?_ rfl
    show (d.info _).b = _
    rw [hd.rings.info]
  · injection hc with hc
    subst hc
    exact ha
  · exact h.apart t₁ t₂ r₁ r₂ i ((hsent t₁ r₁).1 h₁) ((hsent t₂ r₂).1 h₂)
  · have hf' : s.disk.free i = false := (congrFun hd.free i).symm.trans hf
    obtain ⟨t', r', hr', hi'⟩ := h.busy i hi hf'
    exact ⟨t', r', (hsent t' r').2 hr', hi'⟩
  · show RingHolds _ d.avail _ _
    rw [hd.rings.avail]
    exact h.avail
  · exact hd.rings.availIdx.trans h.availIdx
  · show RingHolds _ d.used d.used_idx _
    rw [hd.rings.used, hd.rings.used_idx]
    exact h.used
  · show d.usedIdx = d.used_idx + _
    rw [hd.rings.usedIdx, hd.rings.used_idx]
    exact h.usedIdx
  · apply (h.heads j).trans
    simp only [hsent]

theorem format_linked {d : Disk} (h : d.Spare [i0, i1, i2]) (b : Nat) (write : Bool) :
    ((d.takeDescs [i0, i1, i2]).format b write i0 i1 i2).Linked i0 i1 i2 := by
  have hn := h.nodup
  simp only [List.nodup_cons, List.mem_cons, List.not_mem_nil, or_false, not_or, List.nodup_nil,
    not_false_eq_true, and_true] at hn
  obtain ⟨⟨h01, h02⟩, h12⟩ := hn
  refine ⟨h.nodup, fun i hi => ⟨(h.free i hi).1, if_pos hi⟩, ?_, ?_, ?_, ?_, ?_, ?_⟩
  · simp [Disk.format, h01, h02, VRING_DESC_F_NEXT]
  · simp [Disk.format, h01, h02]
  · simp only [Disk.format, Function.update_of_ne h12, Function.update_self]
    cases write <;> decide
  · simp [Disk.format, h12]
  · simp [Disk.format, VRING_DESC_F_NEXT, VRING_DESC_F_WRITE]
  · simp [Disk.format]

/-- The device is told of a request whose descriptors were free. -/
theorem send (h : Consistent s pending done) (hnew : ∀ r, ¬ s.Sent t r) (ha : Alone s t b)
    (hspare : s.disk.Spare [i0, i1, i2]) :
    Consistent { s with
      disk := (s.disk.takeDescs [i0, i1, i2]).format b write i0 i1 i2
      bdisk := Function.update s.bdisk b true
      calls := Function.update s.calls t (some (.sent ⟨b, i0, i1, i2, 0, 0⟩)) } (pending ++ [i0]) done := by
  have hapart {t' : Nat} {r' : Request} (hr' : s.Sent t' r') (i : Nat) (hi : i ∈ r'.idx) : i ∉ [i0, i1, i2] := by
    intro hi'
    have hb := ((h.ok t' r' hr').linked.busy i hi).2
    rw [(hspare.free i hi').2] at hb
    cases hb
  have hni : i0 ∉ pending ++ s.taken ++ done := by
    intro hi
    obtain ⟨t', r', hr', rfl, _⟩ := (h.heads i0).1 hi
    exact hapart hr' r'.i0 (by simp [Request.idx]) (by simp)
  have hperm : (pending ++ [i0] ++ s.taken ++ done).Perm (i0 :: (pending ++ s.taken ++ done)) := by
    simp only [List.append_assoc, List.singleton_append]
    exact List.perm_middle
  have hlen : pending.length < NUM := by
    have hsub : i0 :: (pending ++ s.taken ++ done) ⊆ List.range NUM := by
      refine List.cons_subset.2 ⟨List.mem_range.2 (hspare.free i0 (by simp)).1, fun i hi => ?_⟩
      exact List.mem_range.2 (h.head_lt hi)
    have hle := (List.Nodup.subperm (List.nodup_cons.2 ⟨hni, h.nodup⟩) hsub).length_le
    rw [List.length_range] at hle
    simp only [List.length_cons, List.length_append] at hle
    omega
  have hsent (t' : Nat) (r' : Request) :
      (Function.update s.calls t (some (.sent ⟨b, i0, i1, i2, 0, 0⟩)) t' = some (.sent r')) ↔
        (t' = t ∧ r' = ⟨b, i0, i1, i2, 0, 0⟩) ∨ t' ≠ t ∧ s.Sent t' r' := by
    by_cases ht : t' = t
    · rw [ht, Function.update_self]
      simp [eq_comm]
    · rw [Function.update_of_ne ht]
      simp [ht, State.Sent]
  refine ⟨fun t' r' hr' => ?_, h.update_bufs (fun c' hc => ?_) rfl, fun t₁ t₂ r₁ r₂ i h₁ h₂ hi₁ hi₂ => ?_,
    fun i hi hf => ?_, ?_, ?_, h.used, h.usedIdx, ?_, fun j => ?_, h.closed⟩
  · rcases (hsent t' r').1 hr' with ⟨rfl, rfl⟩ | ⟨ht, hr'⟩
    · refine ⟨format_linked hspare b write, fun _ => ?_, ?_, .inl ⟨rfl, ?_⟩⟩
      · simp [Disk.format]
      · simp
      · rw [if_neg fun hd => hni (List.mem_append_right _ hd)]
    · have hne (i : Nat) (hi : i ∈ r'.idx) : i ≠ i0 ∧ i ≠ i1 ∧ i ≠ i2 := by
        have hni := hapart hr' i hi
        simp only [List.mem_cons, List.not_mem_nil, or_false, not_or] at hni
        exact hni
      refine (h.ok t' r' hr').congr (fun i hi => ?_) (fun i hi => if_neg (hapart hr' i hi)) ?_ ?_
      · obtain ⟨h0, h1, h2⟩ := hne i hi
        simp [Disk.format, Disk.takeDescs, h0, h1, h2]
      · have h0 := (hne r'.i0 (by simp [Request.idx])).1
        simp [Disk.format, Disk.takeDescs, h0]
      · exact Function.update_of_ne (ha t' _ ht hr') ..
  · injection hc with hc
    subst hc
    exact ha
  · rcases (hsent t₁ r₁).1 h₁ with ⟨rfl, rfl⟩ | ⟨_, hs₁⟩
    · rcases (hsent t₂ r₂).1 h₂ with ⟨rfl, rfl⟩ | ⟨_, hs₂⟩
      · rfl
      · exact (hapart hs₂ i hi₂ hi₁).elim
    · rcases (hsent t₂ r₂).1 h₂ with ⟨rfl, rfl⟩ | ⟨_, hs₂⟩
      · exact (hapart hs₁ i hi₁ hi₂).elim
      · exact h.apart t₁ t₂ r₁ r₂ i hs₁ hs₂ hi₁ hi₂
  · by_cases hmem : i ∈ [i0, i1, i2]
    · exact ⟨t, ⟨b, i0, i1, i2, 0, 0⟩, (hsent t _).2 (.inl ⟨rfl, rfl⟩), hmem⟩
    · obtain ⟨t', r', hr', hi'⟩ := h.busy i hi ((if_neg hmem).symm.trans hf)
      refine ⟨t', r', (hsent t' r').2 (.inr ⟨?_, hr'⟩), hi'⟩
      rintro rfl
      exact hnew r' hr'
  · show RingHolds _ (Function.update s.disk.avail (ringSlot NUM s.disk.availIdx) i0) _ _
    rw [h.availIdx]
    exact h.avail.push (by decide) hlen i0
  · show s.disk.availIdx + 1 = _
    rw [h.availIdx, index_succ, List.length_append, List.length_singleton]
  · exact hperm.nodup_iff.2 (List.nodup_cons.2 ⟨hni, h.nodup⟩)
  · rw [hperm.mem_iff, List.mem_cons, h.heads]
    constructor
    · rintro (rfl | ⟨t', r', hr', hj, hc⟩)
      · exact ⟨t, _, (hsent t _).2 (.inl ⟨rfl, rfl⟩), rfl, rfl⟩
      · refine ⟨t', r', (hsent t' r').2 (.inr ⟨?_, hr'⟩), hj, hc⟩
        rintro rfl
        exact hnew r' hr'
    · rintro ⟨t', r', hr', hj, hc⟩
      rcases (hsent t' r').1 hr' with ⟨rfl, rfl⟩ | ⟨_, hr'⟩
      · exact .inl hj.symm
      · exact .inr ⟨t', r', hr', hj, hc⟩

theorem virtioDiskRw (h : Consistent s pending done) (hnew : ∀ r, ¬ s.Sent t r) (ha : Alone s t b) :
    Wp (virtioDiskRw t b write) NoError (fun _ s' => ∃ pending', Consistent s' pending' done) s := by
  rw [Virtio.virtioDiskRw, wp_bind, onDisk, wp_zoom]
  refine (alloc3Desc_spec s.disk).mono ?_
  rintro (_ | idx) d hd
  · apply wp_modify.2
    exact ⟨pending, h.await hnew ha hd⟩
  · obtain ⟨hlen, hspare, rfl⟩ := hd
    obtain ⟨i0, i1, i2, rfl⟩ := List.length_eq_three.1 hlen
    rw [wp_bind, wp_modify, putCall, wp_modify]
    exact ⟨pending ++ [i0], h.send hnew ha hspare⟩

end Consistent

theorem Consistent.init : Consistent .init [] [] where
  ok t r hr := by cases hr
  bufs t t' c c' hc := by cases hc
  apart t t' r r' i hr := by cases hr
  busy i _ hf := by cases hf
  avail := trivial
  availIdx := rfl
  used := trivial
  usedIdx := rfl
  nodup := List.nodup_nil
  heads h := by simp [State.Sent, State.init]
  closed p hp := by cases hp

/-- A caller, the interrupt handler or the device takes a step. -/
theorem Consistent.step (h : Consistent s pending done) (hl : Event.Locked s ev) :
    Wp (step ev) (· = .intrStatus) (fun _ s' => ∃ pending' done', Consistent s' pending' done') s := by
  cases ev with
  | rw t b write =>
    rw [Virtio.step, wp_bind, wp_get]
    cases hc : s.calls t with
    | some c => exact wp_pure.2 ⟨pending, done, h⟩
    | none =>
      have hnew (r : Request) : ¬ s.Sent t r := by
        intro hr
        rw [State.Sent, hc] at hr
        cases hr
      have hrw : Wp (Virtio.virtioDiskRw t b write) NoError (fun _ s' => ∃ pending', Consistent s' pending' done) s :=
        h.virtioDiskRw hnew fun t' c _ hc' => hl t' c hc'
      exact (hrw.mono fun _ _ hex => hex.imp fun _ h' => ⟨done, h'⟩).weaken fun _ he => he.elim
  | resume t =>
    rw [Virtio.step, wp_bind, wp_get]
    cases hc : s.calls t with
    | none => exact wp_pure.2 ⟨pending, done, h⟩
    | some c =>
      cases c with
      | waiting b write =>
        have hnew (r : Request) : ¬ s.Sent t r := by
          intro hr
          rw [State.Sent, hc] at hr
          cases hr
        have ha : Alone s t b := fun t' c' ht hc' he => ht (h.bufs t' t c' _ hc' hc he)
        have hrw : Wp (Virtio.virtioDiskRw t b write) NoError (fun _ s' => ∃ pending', Consistent s' pending' done) s :=
          h.virtioDiskRw hnew ha
        exact (hrw.mono fun _ _ hex => hex.imp fun _ h' => ⟨done, h'⟩).weaken fun _ he => he.elim
      | sent r =>
        have hdone := h.virtioDiskDone hc
        exact (hdone.mono fun _ _ h' => ⟨pending, done, h'⟩).weaken fun _ he => he.elim
  | intr => exact h.virtioDiskIntr.mono fun _ _ hex => ⟨pending, hex⟩
  | take => exact (h.deviceTake.mono fun _ _ hex => hex.imp fun _ h' => ⟨done, h'⟩).weaken fun _ he => he.elim
  | report k status =>
    have hrep := h.deviceReport k status
    exact (hrep.mono fun _ _ hex => ⟨pending, hex⟩).weaken fun _ he => he.elim

/-- The descriptors in use are those of the chains of the requests, and no flag is cleared twice, or
before the device has reported the head of the request. -/
structure State.Intact (s : State) : Prop where
  inUse : ∀ i, i < NUM → (s.disk.free i = false ↔ ∃ t r, s.Sent t r ∧ i ∈ r.idx)
  chain : ∀ t r, s.Sent t r → s.disk.Linked r.i0 r.i1 r.i2
  disjoint : ∀ t t' r r', s.Sent t r → s.Sent t' r' → t ≠ t' → r.idx.Disjoint r'.idx
  cleared : ∀ t r, s.Sent t r → r.cleared ≤ r.reported ∧ r.reported ≤ 1
  flag : ∀ t r, s.Sent t r → (s.bdisk r.b = true ↔ r.cleared = 0)
  closed : ∀ p ∈ s.closed, p = (1, 1)
  alloc3Desc : Wp alloc3Desc NoError (fun idx d => idx = none → d.free = s.disk.free) s.disk

theorem Consistent.intact (h : Consistent s pending done) : s.Intact where
  inUse i hi := by
    constructor
    · exact h.busy i hi
    · rintro ⟨t, r, hr, hmem⟩
      exact ((h.ok t r hr).linked.busy i hmem).2
  chain t r hr := (h.ok t r hr).linked
  disjoint t t' r r' hr hr' ht i hi hi' := ht (h.apart t t' r r' i hr hr' hi hi')
  cleared t r hr := by
    rcases (h.ok t r hr).counts with ⟨hc, hrep⟩ | ⟨hc, hrep⟩
    · rw [hc, hrep]
      split <;> decide
    · rw [hc, hrep]
      decide
  flag t r hr := (h.ok t r hr).flag
  closed := h.closed
  alloc3Desc := by
    apply (alloc3Desc_spec s.disk).mono
    rintro idx d hd rfl
    exact hd.free

end PbsCow.Virtio
