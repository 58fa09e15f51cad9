import PbsCow.PathLookup

namespace PbsCow.Files
set_option autoImplicit true

/-- An entry of the inode table that is in use. -/
def Live (s : State) (i : Nat) : Prop := i < NINODE ∧ 0 < (s.inode i).ref

/-- What the inode table keeps between calls: one entry for an inode, no lock on an unused entry,
and a copy that differs from the disk only under its lock. -/
structure Table (s : State) : Prop where
  nonneg : ∀ i, 0 ≤ (s.inode i).ref
  idle : ∀ i, i < NINODE → (s.inode i).ref = 0 → (s.inode i).locked = false
  distinct : ∀ i j, Live s i → Live s j → (s.inode i).inum = (s.inode j).inum → i = j
  synced : ∀ i, Live s i → (s.inode i).locked = false → (s.inode i).valid →
    (s.inode i).dinode = s.disk (s.inode i).inum

def entry (s : State) (inum : Nat) : Option Nat :=
  (List.range NINODE).find? fun i => (s.inode i).ref > 0 ∧ (s.inode i).inum = inum

/-- The inode of an entry: the copy in it, once that is valid. -/
def shown (s : State) (ip : Inode) : Dinode := if ip.valid then ip.dinode else s.disk ip.inum

/-- The tree of inodes, as one who locks them sees it. -/
def content (s : State) (inum : Nat) : Dinode :=
  match entry s inum with
  | some i => shown s (s.inode i)
  | none => s.disk inum

/-- An inode that `ilock` finds to have no type. -/
def Gone (s : State) (inum : Nat) : Prop :=
  (s.disk inum).type = 0 ∧ ∀ i, Live s i → (s.inode i).inum = inum → (s.inode i).valid = false

/-- The tree in `s'` is the one in `s`, less the inodes that were freed. -/
def Fades (s s' : State) : Prop :=
  ∀ inum, (content s' inum = content s inum ∨ Gone s' inum) ∧ (Gone s inum → Gone s' inum)

theorem Fades.of_eq (h : content s' = content s) (hg : ∀ inum, Gone s inum → Gone s' inum) : Fades s s' :=
  fun inum => ⟨.inl (congrFun h inum), hg inum⟩

theorem Fades.refl (s : State) : Fades s s := .of_eq rfl fun _ => id

theorem Fades.trans (h : Fades s s') (h' : Fades s' s'') : Fades s s'' := by
  intro inum
  refine ⟨?_, fun hg => (h' inum).2 ((h inum).2 hg)⟩
  rcases (h' inum).1 with heq | hg
  · rcases (h inum).1 with heq' | hg'
    · exact .inl (heq.trans heq')
    · exact .inr ((h' inum).2 hg')
  · exact .inr hg

theorem entry_some (h : entry s inum = some i) : Live s i ∧ (s.inode i).inum = inum := by
  have hmem := List.mem_of_find?_eq_some h
  have hi := List.find?_some h
  simp only [gt_iff_lt, decide_eq_true_eq] at hi
  exact ⟨⟨List.mem_range.mp hmem, hi.1⟩, hi.2⟩

theorem entry_none (h : entry s inum = none) (hi : Live s i) : (s.inode i).inum ≠ inum := by
  intro hinum
  have hnone := List.find?_eq_none.mp h i (List.mem_range.mpr hi.1)
  simp [hi.2, hinum] at hnone

theorem Table.content_live (h : Table s) (hi : Live s i) :
    content s (s.inode i).inum = shown s (s.inode i) := by
  rw [content]
  cases he : entry s (s.inode i).inum with
  | none => exact absurd rfl (entry_none he hi)
  | some j =>
    obtain ⟨hj, hinum⟩ := entry_some he
    rw [h.distinct j i hj hi hinum]

theorem content_other (h : ∀ i, Live s i → (s.inode i).inum ≠ inum) : content s inum = s.disk inum := by
  rw [content]
  cases he : entry s inum with
  | none => rfl
  | some j => exact absurd (entry_some he).2 (h j (entry_some he).1)

/-- Entry `i` gets a new value, and no inode changes on disk. -/
def Sets (s : State) (i : Nat) (ip : Inode) (s' : State) : Prop :=
  s'.inode = Function.update s.inode i ip ∧ s'.disk = s.disk

theorem Sets.self (h : Sets s i ip s') : s'.inode i = ip := by
  rw [h.1, Function.update_self]

theorem Sets.other (h : Sets s i ip s') (hj : j ≠ i) : s'.inode j = s.inode j := by
  rw [h.1, Function.update_of_ne hj]

/-- A new value for entry `i` that keeps the table. -/
structure Fits (s : State) (i : Nat) (ip : Inode) : Prop where
  nonneg : 0 ≤ ip.ref
  idle : ip.ref = 0 → ip.locked = false
  distinct : 0 < ip.ref → ∀ j, j ≠ i → Live s j → (s.inode j).inum ≠ ip.inum
  synced : 0 < ip.ref → ip.locked = false → ip.valid → ip.dinode = s.disk ip.inum

theorem Table.set (h : Table s) (hs : Sets s i ip s') (hf : Fits s i ip) : Table s' := by
  have hlive {j : Nat} (hj : j ≠ i) (hl : Live s' j) : Live s j := by
    rwa [Live, hs.other hj] at hl
  constructor
  · intro j
    by_cases hj : j = i
    · rw [hj, hs.self]
      exact hf.nonneg
    · rw [hs.other hj]
      exact h.nonneg j
  · intro j hlt href
    by_cases hj : j = i
    · rw [hj, hs.self] at href ⊢
      exact hf.idle href
    · rw [hs.other hj] at href ⊢
      exact h.idle j hlt href
  · intro j k hlj hlk hinum
    by_cases hj : j = i
    · by_cases hk : k = i
      · rw [hj, hk]
      · rw [hj] at hlj hinum
        have href := hlj.2
        rw [hs.self] at href hinum
        rw [hs.other hk] at hinum
        exact absurd hinum.symm (hf.distinct href k hk (hlive hk hlk))
    · by_cases hk : k = i
      · rw [hk] at hlk hinum
        have href := hlk.2
        rw [hs.self] at href hinum
        rw [hs.other hj] at hinum
        exact absurd hinum (hf.distinct href j hj (hlive hj hlj))
      · rw [hs.other hj, hs.other hk] at hinum
        exact h.distinct j k (hlive hj hlj) (hlive hk hlk) hinum
  · intro j hlj hunlocked hvalid
    rw [hs.2]
    by_cases hj : j = i
    · have href := hlj.2
      rw [hj, hs.self] at href hunlocked hvalid ⊢
      exact hf.synced href hunlocked hvalid
    · have hl := hlive hj hlj
      rw [hs.other hj] at hunlocked hvalid ⊢
      exact h.synced j hl hunlocked hvalid

/-- The tree stays when the new value shows what was there, and when what it hides is on disk. -/
theorem Table.content_set (h : Table s) (hs : Sets s i ip s') (hf : Fits s i ip)
    (hnew : 0 < ip.ref → shown s ip = content s ip.inum)
    (hold : Live s i → (ip.ref = 0 ∨ ip.inum ≠ (s.inode i).inum) →
      s.disk (s.inode i).inum = content s (s.inode i).inum) (hi : i < NINODE) :
    content s' = content s := by
  have htab := h.set hs hf
  funext inum
  by_cases hother : ∃ j, j ≠ i ∧ Live s j ∧ (s.inode j).inum = inum
  · obtain ⟨j, hj, hl, rfl⟩ := hother
    have hl' : Live s' j := by rwa [Live, hs.other hj]
    have hc := htab.content_live hl'
    rw [hs.other hj, shown, hs.2] at hc
    rw [hc, h.content_live hl, shown]
  by_cases hme : 0 < ip.ref ∧ ip.inum = inum
  · obtain ⟨href, rfl⟩ := hme
    have hl' : Live s' i := ⟨hi, by rwa [hs.self]⟩
    have hc := htab.content_live hl'
    rw [hs.self, shown, hs.2] at hc
    rw [hc, ← hnew href, shown]
  · have hnone : ∀ j, Live s' j → (s'.inode j).inum ≠ inum := by
      intro j hl hinum
      by_cases hj : j = i
      · have href := hl.2
        rw [hj, hs.self] at href hinum
        exact hme ⟨href, hinum⟩
      · rw [Live, hs.other hj] at hl
        rw [hs.other hj] at hinum
        exact hother ⟨j, hj, hl, hinum⟩
    rw [content_other hnone, hs.2]
    by_cases hwas : Live s i ∧ (s.inode i).inum = inum
    · obtain ⟨hl, rfl⟩ := hwas
      apply hold hl
      by_cases href : ip.ref = 0
      · exact .inl href
      · exact .inr fun he => hme ⟨lt_of_le_of_ne hf.nonneg (Ne.symm href), he⟩
    · symm
      apply content_other
      intro j hl hinum
      by_cases hj : j = i
      · exact hwas ⟨hj ▸ hl, hj ▸ hinum⟩
      · exact hother ⟨j, hj, hl, hinum⟩

theorem Gone.set (h : Gone s inum) (hs : Sets s i ip s')
    (hi : 0 < ip.ref → ip.inum = inum → ip.valid = false) : Gone s' inum := by
  refine ⟨by rw [hs.2]; exact h.1, fun j hl hinum => ?_⟩
  by_cases hj : j = i
  · have href := hl.2
    rw [hj, hs.self] at href hinum ⊢
    exact hi href hinum
  · rw [Live, hs.other hj] at hl
    rw [hs.other hj] at hinum ⊢
    exact h.2 j hl hinum

/-- A step that keeps the tree. -/
structure Calm (s s' : State) : Prop where
  table : Table s'
  tree : content s' = content s
  gone : ∀ inum, Gone s inum → Gone s' inum

theorem Calm.fades (h : Calm s s') : Fades s s' := .of_eq h.tree h.gone

/-- A value that differs from the old one in the references, the lock and the loaded copy only. -/
theorem Table.touch (h : Table s) (hs : Sets s i ip s') (hi : Live s i) (href : 0 < ip.ref)
    (hinum : ip.inum = (s.inode i).inum) (hshown : shown s ip = content s ip.inum)
    (hsync : ip.locked = false → ip.valid → ip.dinode = s.disk ip.inum)
    (hvalid : ip.valid → (s.inode i).valid = false → (s.disk ip.inum).type ≠ 0) :
    Calm s s' := by
  have hf : Fits s i ip := by
    refine ⟨href.le, fun h0 => absurd h0 href.ne', fun _ j hj hl he => ?_, fun _ => hsync⟩
    exact hj (h.distinct j i hl hi (he.trans hinum))
  refine ⟨h.set hs hf, h.content_set hs hf (fun _ => hshown) (fun _ hor => ?_) hi.1, fun inum hg => ?_⟩
  · rcases hor with h0 | hne
    · exact absurd h0 href.ne'
    · exact absurd hinum hne
  · refine hg.set hs fun _ he => ?_
    by_contra hv
    have hold := hg.2 i hi (hinum.symm.trans he)
    exact hvalid (by simpa using hv) hold (he ▸ hg.1)

end PbsCow.Files
