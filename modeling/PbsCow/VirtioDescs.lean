import Mathlib.Data.List.Nodup
import PbsCow.VirtioDisk

namespace PbsCow.Virtio
set_option autoImplicit true

/-- The rings, and what is kept for the interrupt handler. -/
structure Disk.SameRings (d d' : Disk) : Prop where
  avail : d'.avail = d.avail
  availIdx : d'.availIdx = d.availIdx
  used : d'.used = d.used
  usedIdx : d'.usedIdx = d.usedIdx
  used_idx : d'.used_idx = d.used_idx
  info : d'.info = d.info

theorem Disk.SameRings.refl (d : Disk) : d.SameRings d := ⟨rfl, rfl, rfl, rfl, rfl, rfl⟩

theorem Disk.SameRings.trans {d d' d'' : Disk} (h : d.SameRings d') (h' : d'.SameRings d'') :
    d.SameRings d'' :=
  ⟨h'.avail.trans h.avail, h'.availIdx.trans h.availIdx, h'.used.trans h.used,
    h'.usedIdx.trans h.usedIdx, h'.used_idx.trans h.used_idx, h'.info.trans h.info⟩

theorem allocDesc_spec (d : Disk) :
    Wp allocDesc NoError (fun r d' => match r with
      | none => d' = d
      | some i => i < NUM ∧ d.free i = true ∧ d' = { d with free := Function.update d.free i false }) d := by
  rw [allocDesc, wp_bind, wp_get]
  cases hf : (List.range NUM).find? d.free with
  | none => exact wp_pure.2 rfl
  | some i =>
    have hi := List.mem_of_find?_eq_some hf
    exact wp_bind.2 (wp_modify.2 (wp_pure.2 ⟨List.mem_range.1 hi, List.find?_some hf, rfl⟩))

/-- The descriptors of a list that is in use are given back. -/
structure Freed (idx : List Nat) (d d' : Disk) : Prop where
  rings : d.SameRings d'
  free : ∀ i, d'.free i = if i ∈ idx then true else d.free i
  desc : ∀ i, i ∉ idx → d'.desc i = d.desc i

theorem freeDesc_spec {d : Disk} (hi : i < NUM) (hf : d.free i = false) :
    Wp (freeDesc i) NoError (fun _ d' => Freed [i] d d') d := by
  rw [freeDesc]
  refine .ite_neg (Nat.not_le_of_lt hi) ?_
  rw [wp_bind, wp_get]
  refine .ite_neg (by rw [hf]; simp) ?_
  rw [wp_modify]
  refine ⟨⟨rfl, rfl, rfl, rfl, rfl, rfl⟩, fun j => ?_, fun j hj => ?_⟩
  · by_cases hj : j = i
    · rw [hj, if_pos (List.mem_singleton.2 rfl)]
      exact Function.update_self ..
    · rw [if_neg fun h => hj (List.mem_singleton.1 h)]
      exact Function.update_of_ne hj ..
  · exact Function.update_of_ne (fun h => hj (List.mem_singleton.2 h)) ..

theorem Freed.cons {d d' d'' : Disk} (h : Freed [i] d d') (h' : Freed idx d' d'') : Freed (i :: idx) d d'' := by
  refine ⟨h.rings.trans h'.rings, fun j => ?_, fun j hj => ?_⟩
  · rw [h'.free, h.free]
    by_cases hj : j ∈ idx
    · rw [if_pos hj, if_pos (List.mem_cons_of_mem i hj)]
    · by_cases hji : j = i
      · rw [if_neg hj, hji, if_pos (List.mem_singleton.2 rfl), if_pos List.mem_cons_self]
      · rw [if_neg hj, if_neg fun h => hji (List.mem_singleton.1 h), if_neg]
        rintro (_ | ⟨_, h⟩)
        · exact hji rfl
        · exact hj h
  · rw [h'.desc j fun h => hj (List.mem_cons_of_mem i h),
      h.desc j fun h => hj (List.mem_singleton.1 h ▸ List.mem_cons_self)]

theorem freeDescs_spec {d : Disk} (hn : idx.Nodup) (h : ∀ i ∈ idx, i < NUM ∧ d.free i = false) :
    Wp (idx.forM freeDesc) NoError (fun _ d' => Freed idx d d') d := by
  induction idx generalizing d with
  | nil => exact wp_pure.2 ⟨.refl d, fun _ => rfl, fun _ _ => rfl⟩
  | cons i idx ih =>
    obtain ⟨hni, hn⟩ := List.nodup_cons.1 hn
    obtain ⟨hi, hf⟩ := h i List.mem_cons_self
    show Wp (freeDesc i >>= fun _ => idx.forM freeDesc) _ _ _
    refine .bind (freeDesc_spec hi hf) fun _ d₁ h₁ => (ih hn fun j hj => ?_).mono fun _ _ h₂ => h₁.cons h₂
    obtain ⟨hj', hfj⟩ := h j (List.mem_cons_of_mem i hj)
    have hne : j ≠ i := by
      rintro rfl
      exact hni hj
    rw [h₁.free, if_neg fun h => hne (List.mem_singleton.1 h)]
    exact ⟨hj', hfj⟩

/-- The disk with the descriptors of a list taken. -/
def Disk.takeDescs (d : Disk) (idx : List Nat) : Disk :=
  { d with free := fun i => if i ∈ idx then false else d.free i }

/-- The descriptors of a list were free. -/
structure Disk.Spare (d : Disk) (idx : List Nat) : Prop where
  nodup : idx.Nodup
  free : ∀ i ∈ idx, i < NUM ∧ d.free i = true

/-- Nothing has changed but descriptors that are free. -/
structure Disk.Same (d d' : Disk) : Prop where
  rings : d.SameRings d'
  free : d'.free = d.free
  desc : ∀ i, d.free i = false → d'.desc i = d.desc i

theorem Disk.Spare.snoc {d : Disk} (h : d.Spare idx) (hi : i < NUM)
    (hf : (d.takeDescs idx).free i = true) : d.Spare (idx ++ [i]) ∧ i ∉ idx := by
  have hni : i ∉ idx := by
    intro hmem
    simp [takeDescs, hmem] at hf
  have hfi : d.free i = true := by simpa [takeDescs, hni] using hf
  refine ⟨⟨?_, fun j hj => ?_⟩, hni⟩
  · exact List.nodup_append.2 ⟨h.nodup, List.nodup_singleton i, by
      rintro a ha b hb rfl
      exact hni (List.mem_singleton.1 hb ▸ ha)⟩
  · rcases List.mem_append.1 hj with hj | hj
    · exact h.free j hj
    · rw [List.mem_singleton.1 hj]
      exact ⟨hi, hfi⟩

theorem Disk.takeDescs_snoc (d : Disk) (idx : List Nat) (i : Nat) :
    { d.takeDescs idx with free := Function.update (d.takeDescs idx).free i false } =
      d.takeDescs (idx ++ [i]) := by
  simp only [takeDescs, Disk.mk.injEq, true_and, and_true]
  funext j
  by_cases hj : j = i
  · rw [hj, Function.update_self, if_pos (by simp)]
  · rw [Function.update_of_ne hj]
    simp [hj]

/-- Either all descriptors are taken, or none. -/
theorem allocLoop_spec {d : Disk} (k : Nat) (h : d.Spare idx) :
    Wp (allocLoop k idx) NoError (fun r d' => match r with
      | none => d.Same d'
      | some idx' => idx'.length = idx.length + k ∧ d.Spare idx' ∧ d' = d.takeDescs idx') (d.takeDescs idx) := by
  induction k generalizing idx with
  | zero => exact wp_pure.2 ⟨rfl, h, rfl⟩
  | succ k ih =>
    rw [allocLoop]
    refine .bind (allocDesc_spec _) ?_
    rintro (_ | i) d₁ h₁
    · obtain rfl : d₁ = d.takeDescs idx := h₁
      have hbusy (i : Nat) (hi : i ∈ idx) : i < NUM ∧ (d.takeDescs idx).free i = false :=
        ⟨(h.free i hi).1, if_pos hi⟩
      refine .bind (freeDescs_spec h.nodup hbusy) fun _ d₂ h₂ => wp_pure.2 ⟨⟨h₂.rings.avail,
        h₂.rings.availIdx, h₂.rings.used, h₂.rings.usedIdx, h₂.rings.used_idx, h₂.rings.info⟩, ?_, ?_⟩
      · funext j
        rw [h₂.free]
        by_cases hj : j ∈ idx
        · rw [if_pos hj, (h.free j hj).2]
        · rw [if_neg hj]
          exact if_neg hj
      · intro j hj
        refine h₂.desc j fun hmem => ?_
        rw [(h.free j hmem).2] at hj
        cases hj
    · obtain ⟨hi, hf, rfl⟩ := h₁
      obtain ⟨hspare, hni⟩ := h.snoc hi hf
      rw [d.takeDescs_snoc]
      refine (ih hspare).mono ?_
      rintro (_ | idx') d' h'
      · exact h'
      · refine ⟨h'.1.trans ?_, h'.2⟩
        rw [List.length_append, List.length_singleton, Nat.add_right_comm, Nat.add_assoc]

theorem alloc3Desc_spec (d : Disk) :
    Wp alloc3Desc NoError (fun r d' => match r with
      | none => d.Same d'
      | some idx => idx.length = 3 ∧ d.Spare idx ∧ d' = d.takeDescs idx) d := by
  have hd : d.takeDescs [] = d := by
    simp [Disk.takeDescs]
  have hnil : d.Spare [] := ⟨List.nodup_nil, fun _ h => by cases h⟩
  have hspec := allocLoop_spec 3 hnil
  rw [hd] at hspec
  exact hspec

/-- A chain of three descriptors. -/
structure Disk.Linked (d : Disk) (i0 i1 i2 : Nat) : Prop where
  nodup : [i0, i1, i2].Nodup
  busy : ∀ i ∈ [i0, i1, i2], i < NUM ∧ d.free i = false
  flags0 : (d.desc i0).flags &&& VRING_DESC_F_NEXT ≠ 0
  next0 : (d.desc i0).next = i1
  flags1 : (d.desc i1).flags &&& VRING_DESC_F_NEXT ≠ 0
  next1 : (d.desc i1).next = i2
  flags2 : (d.desc i2).flags &&& VRING_DESC_F_NEXT = 0
  addr : (d.desc i2).addr = .status i0

theorem Disk.Linked.freeChain {d : Disk} (h : d.Linked i0 i1 i2) :
    Wp (freeChain i0) NoError (fun _ d' => Freed [i0, i1, i2] d d') d := by
  have hn := h.nodup
  simp only [List.nodup_cons, List.mem_cons, List.not_mem_nil, or_false, not_or, List.nodup_nil,
    not_false_eq_true, and_true] at hn
  obtain ⟨⟨h01, h02⟩, h12⟩ := hn
  obtain ⟨hi0, hf0⟩ := h.busy i0 (by simp)
  obtain ⟨hi1, hf1⟩ := h.busy i1 (by simp)
  obtain ⟨hi2, hf2⟩ := h.busy i2 (by simp)
  show Wp (freeChainLoop (6 + 1 + 1 + 1) i0) _ _ _
  rw [freeChainLoop, wp_bind, wp_get]
  refine .bind (freeDesc_spec hi0 hf0) fun _ d₁ h₁ => .ite_pos h.flags0 ?_
  have e1 := h₁.desc i1 (by simp [Ne.symm h01])
  rw [h.next0, freeChainLoop, wp_bind, wp_get, e1]
  refine .bind (freeDesc_spec hi1 ?_) fun _ d₂ h₂ => .ite_pos h.flags1 ?_
  · rw [h₁.free, if_neg (by simp [Ne.symm h01]), hf1]
  have e2 : d₂.desc i2 = d.desc i2 := by
    rw [h₂.desc i2 (by simp [Ne.symm h12]), h₁.desc i2 (by simp [Ne.symm h02])]
  rw [h.next1, freeChainLoop, wp_bind, wp_get, e2]
  refine .bind (freeDesc_spec hi2 ?_) fun _ d₃ h₃ => .ite_neg (not_not.2 h.flags2) (wp_pure.2 ?_)
  · rw [h₂.free, if_neg (by simp [Ne.symm h12]), h₁.free, if_neg (by simp [Ne.symm h02]), hf2]
  exact h₁.cons (h₂.cons h₃)

end PbsCow.Virtio
