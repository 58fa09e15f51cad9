import Mathlib.Data.List.Perm.Subperm
import PbsCow.Lib.Runs
import PbsCow.VirtioDescs

namespace PbsCow.Virtio
set_option autoImplicit true

def Request.idx (r : Request) : List Nat := [r.i0, r.i1, r.i2]

/-- Thread `t` sleeps until its request is finished. -/
def State.Sent (s : State) (t : Nat) (r : Request) : Prop := s.calls t = some (.sent r)

/-- A request whose chain is in the hands of the device or of the interrupt handler, or is finished. -/
structure Request.Ok (s : State) (done : List Nat) (r : Request) : Prop where
  linked : s.disk.Linked r.i0 r.i1 r.i2
  info : r.cleared = 0 → (s.disk.info r.i0).b = some r.b
  flag : s.bdisk r.b = true ↔ r.cleared = 0
  counts : r.cleared = 0 ∧ r.reported = (if r.i0 ∈ done then 1 else 0) ∨ r.cleared = 1 ∧ r.reported = 1

theorem Disk.Linked.congr {d d' : Disk} (h : d.Linked i0 i1 i2)
    (hd : ∀ i ∈ [i0, i1, i2], d'.desc i = d.desc i)
    (hf : ∀ i ∈ [i0, i1, i2], d'.free i = d.free i) : d'.Linked i0 i1 i2 := by
  have e0 := hd i0 (by simp)
  have e1 := hd i1 (by simp)
  have e2 := hd i2 (by simp)
  refine ⟨h.nodup, fun i hi => ?_, ?_, ?_, ?_, ?_, ?_, ?_⟩
  · rw [hf i hi]
    exact h.busy i hi
  · rw [e0]
    exact h.flags0
  · rw [e0]
    exact h.next0
  · rw [e1]
    exact h.flags1
  · rw [e1]
    exact h.next1
  · rw [e2]
    exact h.flags2
  · rw [e2]
    exact h.addr

theorem Request.Ok.congr {r : Request} (h : r.Ok s done) (hd : ∀ i ∈ r.idx, s'.disk.desc i = s.disk.desc i)
    (hf : ∀ i ∈ r.idx, s'.disk.free i = s.disk.free i)
    (hi : (s'.disk.info r.i0).b = (s.disk.info r.i0).b) (hb : s'.bdisk r.b = s.bdisk r.b) : r.Ok s' done := by
  refine ⟨h.linked.congr hd hf, ?_, ?_, h.counts⟩
  · rw [hi]
    exact h.info
  · rw [hb]
    exact h.flag

/-- The invariant of driver and device. `pending` are the heads that the device has not taken, `done`
those that it has reported and the interrupt handler has not seen. -/
structure Consistent (s : State) (pending done : List Nat) : Prop where
  ok : ∀ t r, s.Sent t r → r.Ok s done
  bufs : ∀ t t' c c', s.calls t = some c → s.calls t' = some c' → c.buf = c'.buf → t = t'
  apart : ∀ t t' r r' i, s.Sent t r → s.Sent t' r' → i ∈ r.idx → i ∈ r'.idx → t = t'
  busy : ∀ i, i < NUM → s.disk.free i = false → ∃ t r, s.Sent t r ∧ i ∈ r.idx
  avail : RingHolds NUM s.disk.avail s.lastAvail pending
  availIdx : s.disk.availIdx = s.lastAvail + BitVec.ofNat 16 pending.length
  used : RingHolds NUM s.disk.used s.disk.used_idx done
  usedIdx : s.disk.usedIdx = s.disk.used_idx + BitVec.ofNat 16 done.length
  nodup : (pending ++ s.taken ++ done).Nodup
  heads : ∀ h, h ∈ pending ++ s.taken ++ done ↔ ∃ t r, s.Sent t r ∧ r.i0 = h ∧ r.cleared = 0
  closed : ∀ p ∈ s.closed, p = (1, 1)

namespace Consistent

theorem head_lt (h : Consistent s pending done) (hh : i ∈ pending ++ s.taken ++ done) : i < NUM := by
  obtain ⟨t, r, hr, rfl, _⟩ := (h.heads i).1 hh
  exact ((h.ok t r hr).linked.busy r.i0 (by simp)).1

theorem length_le (h : Consistent s pending done) : (pending ++ s.taken ++ done).length ≤ NUM := by
  have hsub : pending ++ s.taken ++ done ⊆ List.range NUM := fun i hi => List.mem_range.2 (h.head_lt hi)
  have hle := (List.Nodup.subperm h.nodup hsub).length_le
  rwa [List.length_range] at hle

theorem pending_le (h : Consistent s pending done) : pending.length ≤ NUM := by
  have hle := h.length_le
  simp only [List.length_append] at hle
  omega

theorem done_le (h : Consistent s pending done) : done.length ≤ NUM := by
  have hle := h.length_le
  simp only [List.length_append] at hle
  omega

theorem pending_iff (h : Consistent s pending done) : s.lastAvail = s.disk.availIdx ↔ pending = [] := by
  have hlt : pending.length < 2 ^ 16 := lt_of_le_of_lt h.pending_le (by decide)
  rw [eq_comm, h.availIdx, index_eq_self s.lastAvail hlt, List.length_eq_zero_iff]

theorem done_iff (h : Consistent s pending done) : s.disk.used_idx = s.disk.usedIdx ↔ done = [] := by
  have hlt : done.length < 2 ^ 16 := lt_of_le_of_lt h.done_le (by decide)
  rw [eq_comm, h.usedIdx, index_eq_self s.disk.used_idx hlt, List.length_eq_zero_iff]

/-- The request that a head belongs to. -/
theorem head_inj (h : Consistent s pending done) (hr : s.Sent t r) (hr' : s.Sent t' r')
    (he : r.i0 = r'.i0) : t = t' ∧ r = r' := by
  have ht := h.apart t t' r r' r.i0 hr hr' (by simp [Request.idx]) (by simp [Request.idx, he])
  subst ht
  rw [State.Sent, hr] at hr'
  exact ⟨rfl, by injection hr' with hr'; injection hr'⟩

theorem deviceTake (h : Consistent s pending done) :
    Wp deviceTake NoError (fun _ s' => ∃ pending', Consistent s' pending' done) s := by
  rw [Virtio.deviceTake, wp_bind, wp_get]
  cases pending with
  | nil => exact .ite_pos (h.pending_iff.2 rfl) (wp_pure.2 ⟨[], h⟩)
  | cons i pending =>
    refine .ite_neg (fun he => by cases h.pending_iff.1 he) (wp_set.2 ⟨pending, ?_⟩)
    rw [h.avail.1]
    have hperm : (pending ++ (s.taken ++ [i]) ++ done).Perm (i :: pending ++ s.taken ++ done) := by
      rw [← List.append_assoc, List.append_assoc _ [i]]
      have hmiddle : (pending ++ s.taken ++ i :: done).Perm (i :: (pending ++ s.taken ++ done)) := List.perm_middle
      exact hmiddle
    refine ⟨fun t r hr => ?_, h.bufs, h.apart, h.busy, h.avail.2, ?_, h.used, h.usedIdx,
      hperm.nodup_iff.2 h.nodup, fun j => (hperm.mem_iff).trans (h.heads j), h.closed⟩
    · exact (h.ok t r hr).congr (fun _ _ => rfl) (fun _ _ => rfl) rfl rfl
    · show s.disk.availIdx = s.lastAvail + 1 + _
      rw [add_ofNat_succ, h.availIdx, List.length_cons]

end Consistent

/-- Recording something about requests changes neither their chains nor their buffers. -/
structure Records (f : Request → Request) : Prop where
  b : ∀ r, (f r).b = r.b
  idx : ∀ r, (f r).i0 = r.i0 ∧ (f r).i1 = r.i1 ∧ (f r).i2 = r.i2

theorem records_report (h : Nat) : Records (.report h) := by
  constructor <;> intro r <;> rw [Request.report] <;> split <;> simp

theorem records_clear (b : Nat) : Records (.clear b) := by
  constructor <;> intro r <;> rw [Request.clear] <;> split <;> simp

theorem Records.idx_eq (h : Records f) (r : Request) : (f r).idx = r.idx := by
  obtain ⟨h0, h1, h2⟩ := h.idx r
  rw [Request.idx, Request.idx, h0, h1, h2]

theorem map_eq_sent {c : Option Call} : c.map (Call.map f) = some (.sent r') ↔
    ∃ r, c = some (.sent r) ∧ f r = r' := by
  rcases c with _ | c
  · simp
  · cases c <;> simp [Call.map]

theorem map_buf (hf : Records f) {c : Option Call} (h : c.map (Call.map f) = some c') :
    ∃ c₀, c = some c₀ ∧ c₀.buf = c'.buf := by
  rcases c with _ | c
  · cases h
  · refine ⟨c, rfl, ?_⟩
    injection h with h
    rw [← h]
    cases c with
    | waiting b write => rfl
    | sent r => exact (hf.b r).symm

/-- What does not depend on what is recorded. -/
theorem Consistent.record {s : State} (h : Consistent s pending done) (s' : State) (hf : Records f)
    (hcalls : s'.calls = fun t => (s.calls t).map (Call.map f)) (hfree : s'.disk.free = s.disk.free) :
    (∀ t r', s'.Sent t r' ↔ ∃ r, s.Sent t r ∧ f r = r') ∧
    (∀ t t' c c', s'.calls t = some c → s'.calls t' = some c' → c.buf = c'.buf → t = t') ∧
    (∀ t t' r r' i, s'.Sent t r → s'.Sent t' r' → i ∈ r.idx → i ∈ r'.idx → t = t') ∧
    ∀ i, i < NUM → s'.disk.free i = false → ∃ t r, s'.Sent t r ∧ i ∈ r.idx := by
  have hsent (t : Nat) (r' : Request) : s'.Sent t r' ↔ ∃ r, s.Sent t r ∧ f r = r' := by
    rw [State.Sent, hcalls]
    exact map_eq_sent
  refine ⟨hsent, fun t t' c c' hc hc' he => ?_, fun t t' r r' i hr hr' hi hi' => ?_, fun i hi hb => ?_⟩
  · rw [hcalls] at hc hc'
    obtain ⟨c₀, hc₀, e₀⟩ := map_buf hf hc
    obtain ⟨c₁, hc₁, e₁⟩ := map_buf hf hc'
    exact h.bufs t t' c₀ c₁ hc₀ hc₁ (by rw [e₀, e₁, he])
  · obtain ⟨r₀, hr₀, rfl⟩ := (hsent t r).1 hr
    obtain ⟨r₁, hr₁, rfl⟩ := (hsent t' r').1 hr'
    rw [hf.idx_eq] at hi hi'
    exact h.apart t t' r₀ r₁ i hr₀ hr₁ hi hi'
  · rw [hfree] at hb
    obtain ⟨t, r, hr, hmem⟩ := h.busy i hi hb
    exact ⟨t, f r, (hsent t (f r)).2 ⟨r, hr, rfl⟩, by rwa [hf.idx_eq]⟩

theorem Records.live {s s' : State} (hf : Records f) (hsent : ∀ t r', s'.Sent t r' ↔ ∃ r, s.Sent t r ∧ f r = r')
    (hc : ∀ r, (f r).cleared = r.cleared) (h : Nat) : (∃ t r, s.Sent t r ∧ r.i0 = h ∧ r.cleared = 0) ↔
      ∃ t r, s'.Sent t r ∧ r.i0 = h ∧ r.cleared = 0 := by
  constructor
  · rintro ⟨t, r, hr, hh, h₀⟩
    exact ⟨t, f r, (hsent t (f r)).2 ⟨r, hr, rfl⟩, (hf.idx r).1.trans hh, (hc r).trans h₀⟩
  · rintro ⟨t, r', hr', hh, h₀⟩
    obtain ⟨r, hr, rfl⟩ := (hsent t r').1 hr'
    exact ⟨t, r, hr, (hf.idx r).1.symm.trans hh, (hc r).symm.trans h₀⟩

theorem Disk.putStatus_same (d : Disk) (h : Nat) (status : Byte) :
    (d.putStatus h status).desc = d.desc ∧ (d.putStatus h status).free = d.free ∧
      (∀ i, ((d.putStatus h status).info i).b = (d.info i).b) ∧
      (d.putStatus h status).used = d.used ∧ (d.putStatus h status).usedIdx = d.usedIdx ∧
      (d.putStatus h status).used_idx = d.used_idx ∧ (d.putStatus h status).avail = d.avail ∧
      (d.putStatus h status).availIdx = d.availIdx := by
  rw [putStatus]
  split
  · next k _ =>
    refine ⟨rfl, rfl, fun i => ?_, rfl, rfl, rfl, rfl, rfl⟩
    by_cases hi : i = k
    · simp [hi]
    · simp [hi]
  · exact ⟨rfl, rfl, fun _ => rfl, rfl, rfl, rfl, rfl, rfl⟩

theorem Request.report_self (r : Request) : r.report r.i0 = { r with reported := r.reported + 1 } := if_pos rfl

theorem Request.report_cleared (i : Nat) (r : Request) : (r.report i).cleared = r.cleared := by
  rw [report]
  split <;> rfl

theorem Request.report_ne {r : Request} (h : r.i0 ≠ i) : r.report i = r := if_neg h

namespace Consistent

/-- A head that the device has taken is that of a request that it has not reported. -/
theorem report_counts (h : Consistent s pending done) (hi : i ∈ s.taken) (hr : s.Sent t r) (he : r.i0 = i) :
    r.cleared = 0 ∧ r.reported = 0 := by
  obtain ⟨t', r', hr', he', hc⟩ := (h.heads i).1 (by simp [hi])
  obtain ⟨-, rfl⟩ := h.head_inj hr hr' (he.trans he'.symm)
  have hni : i ∉ done := by
    intro hd
    have hd' := List.disjoint_of_nodup_append h.nodup
    exact hd' (List.mem_append_right pending hi) hd
  rcases (h.ok t r hr).counts with ⟨_, hrep⟩ | ⟨hc', _⟩
  · rw [he, if_neg hni] at hrep
    exact ⟨hc, hrep⟩
  · rw [hc] at hc'
    cases hc'

theorem deviceReport (h : Consistent s pending done) (k : Nat) (status : Byte) :
    Wp (deviceReport k status) NoError (fun _ s' => ∃ done', Consistent s' pending done') s := by
  rw [Virtio.deviceReport, wp_bind, wp_get]
  cases hk : s.taken[k]? with
  | none => exact wp_pure.2 ⟨done, h⟩
  | some i =>
    obtain ⟨hlt, hget⟩ := List.getElem?_eq_some_iff.1 hk
    have hi : i ∈ s.taken := List.mem_of_getElem? hk
    have htaken : (i :: s.taken.eraseIdx k).Perm s.taken := by
      rw [← hget]
      exact List.getElem_cons_eraseIdx_perm hlt
    have hperm : (pending ++ s.taken.eraseIdx k ++ (done ++ [i])).Perm (pending ++ s.taken ++ done) := by
      rw [← List.append_assoc]
      apply (List.perm_append_singleton i _).trans
      rw [List.append_assoc, List.append_assoc]
      apply List.perm_middle.symm.trans
      exact (htaken.append_right done).append_left pending
    obtain ⟨hdesc, hfree, hinfo, hused, husedIdx, hused_idx, havail, havailIdx⟩ := s.disk.putStatus_same i status
    have hlen : done.length < NUM := by
      have hle := h.length_le
      have hpos : 0 < s.taken.length := List.length_pos_of_mem hi
      simp only [List.length_append] at hle
      omega
    apply wp_set.2
    refine ⟨done ++ [i], ?_⟩
    obtain ⟨hsent, hbufs, hapart, hbusy⟩ := h.record ({ s with
      disk := { s.disk.putStatus i status with
        used := Function.update (s.disk.putStatus i status).used
          (ringSlot NUM (s.disk.putStatus i status).usedIdx) i
        usedIdx := (s.disk.putStatus i status).usedIdx + 1 }
      taken := s.taken.eraseIdx k
      calls := fun t => (s.calls t).map (Call.map (.report i)) }) (records_report i) rfl hfree
    refine ⟨fun t r' hr' => ?_, hbufs, hapart, hbusy, ?_, ?_, ?_, ?_, ?_, fun j => ?_, h.closed⟩
    · obtain ⟨r, hr, rfl⟩ := (hsent t r').1 hr'
      obtain ⟨hl, hb, hf, hc⟩ := h.ok t r hr
      have hb' : r.cleared = 0 → ((s.disk.putStatus i status).info r.i0).b = some r.b := by
        rw [hinfo]
        exact hb
      by_cases he : r.i0 = i
      · obtain ⟨hc₀, hrep⟩ := h.report_counts hi hr he
        subst he
        rw [r.report_self]
        refine ⟨hl.congr (fun j _ => congrFun hdesc j) fun j _ => congrFun hfree j, hb', hf, .inl ⟨hc₀, ?_⟩⟩
        rw [if_pos (by simp), hrep]
      · rw [Request.report_ne he]
        refine ⟨hl.congr (fun j _ => congrFun hdesc j) fun j _ => congrFun hfree j, hb', hf, ?_⟩
        simp only [List.mem_append, List.mem_singleton, or_iff_left he]
        exact hc
    · show RingHolds _ (s.disk.putStatus i status).avail _ _
      rw [havail]
      exact h.avail
    · show (s.disk.putStatus i status).availIdx = _
      rw [havailIdx]
      exact h.availIdx
    · show RingHolds _ (Function.update _ _ _) (s.disk.putStatus i status).used_idx _
      rw [hused, hused_idx, husedIdx, h.usedIdx]
      exact h.used.push (by decide) hlen i
    · show (s.disk.putStatus i status).usedIdx + 1 = (s.disk.putStatus i status).used_idx + _
      rw [husedIdx, hused_idx, h.usedIdx, index_succ, List.length_append, List.length_singleton]
    · exact hperm.nodup_iff.2 h.nodup
    · apply hperm.mem_iff.trans
      apply (h.heads j).trans
      exact (records_report i).live hsent (Request.report_cleared i) j

end Consistent

end PbsCow.Virtio
