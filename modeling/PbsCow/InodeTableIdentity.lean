import PbsCow.InodeTableRuns

namespace PbsCow.Itable
set_option autoImplicit true

section

variable {P : Type} {s t : State P} {i : Nat} {p : P}

/-- There is a pointer to the entry, or it is about to be freed through the last one. -/
def State.Used (s : State P) (i : Nat) : Prop := 0 < s.ptrs i ∨ ∃ p, s.calls p = some (.iputTrunc i)

/-- An inode that is used is allocated, and is freed through the last pointer to it. -/
structure Vital (s : State P) (i : Nat) : Prop where
  alone : ∀ p, s.calls p = some (.iputTrunc i) → s.ptrs i = 0 ∧ ∀ q, Call.puts i (s.calls q) = true → q = p
  disk : s.Used i → s.Allocated (s.inode i).key
  type : 0 < (s.inode i).ref → (s.inode i).valid = true → (∀ p, s.calls p ≠ some (.iputUnlock i)) → (s.inode i).type ≠ 0
  valid : ∀ p, (s.inode i).lock = some p → s.calls p ≠ some (.ilock i) → (s.inode i).valid = true

theorem Same.used (hs : Same i s t) : t.Used i ↔ s.Used i := by
  rw [State.Used, hs.ptrs]
  exact or_congr_right (exists_congr fun p => hs.calls p _ rfl)

theorem Vital.same (h : Vital s i) (hs : Same i s t) (hall : s.Used i → t.Allocated (s.inode i).key) : Vital t i where
  alone p := by
    rw [hs.calls p _ rfl, hs.ptrs]
    simp only [hs.puts]
    exact h.alone p
  disk hu := by
    rw [hs.inode]
    exact hall (hs.used.1 hu)
  type := by
    rw [hs.inode]
    intro hr hv hp
    exact h.type hr hv fun p hc => hp p ((hs.calls p _ rfl).2 hc)
  valid p := by
    rw [hs.inode, ne_eq, hs.calls p _ rfl]
    exact h.valid p

/-- A pointer that there is keeps the inode from being freed. -/
theorem Vital.not_trunc (h : Vital s i) (hp : 0 < s.ptrs i) (p : P) : s.calls p ≠ some (.iputTrunc i) := by
  intro hc
  have h0 := (h.alone p hc).1
  omega

variable [Fintype P]

/-- No lookup has found an inode that was not there: the inodes in use are allocated, and so are those that
`ialloc` has marked and not yet got. -/
structure Alive (s : State P) : Prop extends Inv s where
  vital : ∀ i, Vital s i
  marked : ∀ p k, s.calls p = some (.ialloc k) → (s.disk k).type ≠ 0
  once : ∀ p q k, s.calls p = some (.ialloc k) → s.calls q = some (.ialloc k) → p = q

theorem Inv.pos_of_used (h : Inv s) (hu : s.Used i) : 0 < (s.inode i).ref := by
  rcases hu with hu | ⟨p, hp⟩
  · exact h.pos hu
  · apply h.pos_of_puts (p := p)
    rw [hp, Call.puts_iff]
    exact .inl rfl

/-- Nobody has the lock of an entry that is free. -/
theorem Inv.lock_of_free (h : Inv s) (hr : (s.inode i).ref = 0) : (s.inode i).lock = none := by
  cases hl : (s.inode i).lock with
  | none => rfl
  | some q =>
    cases hq : Call.puts i (s.calls q) with
    | true =>
      have hpos := h.pos_of_puts hq
      omega
    | false =>
      have hpos := h.pos ((h.entry i).use ⟨q, hl, hq⟩)
      omega

/-- A step on one entry that may free its inode on the disk, and no other. -/
theorem Alive.step (h : Alive s) (hi : Inv t) (hother : ∀ j, j ≠ i → Same j s t) (hself : Vital t i)
    (hcalls : ∀ p k, t.calls p = some (.ialloc k) → s.calls p = some (.ialloc k))
    (hdisk : ∀ k, (s.disk k).type ≠ 0 → (t.disk k).type = 0 → s.Used i ∧ (s.inode i).key = k) : Alive t where
  toInv := hi
  vital j := by
    by_cases hj : j = i
    · rw [hj]
      exact hself
    · apply (h.vital j).same (hother j hj)
      intro hu
      obtain ⟨htype, hno⟩ := (h.vital j).disk hu
      refine ⟨fun h0 => ?_, fun p hc => hno p (hcalls p _ hc)⟩
      obtain ⟨hui, hkey⟩ := hdisk _ htype h0
      exact hj (h.unique j i (h.pos_of_used hu) (h.pos_of_used hui) hkey.symm)
  marked p k hc := by
    have hc' := hcalls p k hc
    intro h0
    obtain ⟨hu, hkey⟩ := hdisk k (h.marked p k hc') h0
    have hno := ((h.vital i).disk hu).2 p
    rw [hkey] at hno
    exact hno hc'
  once p q k hc hc' := h.once p q k (hcalls p k hc) (hcalls q k hc')

/-- A pointer to an inode that is allocated, and not about to be freed. -/
theorem Alive.got (h : Alive s) (hk : s.Live k) (hg : Got s k t) : Alive t := by
  have hi := h.toInv.got hg
  cases hg with
  | again i hr he hlt =>
    apply h.step hi (fun j hj => same_enter s _ _ hj) _ (fun _ _ => id) fun k hn h0 => absurd h0 hn
    constructor
    · intro p hc
      exact absurd he (hk.2 p i hc)
    · intro _
      rw [enter_inode]
      change State.Allocated _ (s.inode i).key
      rw [he]
      exact hk.1
    · rw [enter_inode]
      exact fun _ hv hp => (h.vital i).type hr hv hp
    · rw [enter_inode]
      exact (h.vital i).valid
  | new i hnone hr hlt =>
    apply h.step hi (fun j hj => same_enter s _ _ hj) _ (fun _ _ => id) fun k hn h0 => absurd h0 hn
    constructor
    · intro p hc
      have hpos := h.toInv.pos_of_puts (p := p) (i := i) (by rw [show s.calls p = _ from hc, Call.puts_iff]; exact .inl rfl)
      omega
    · intro _
      rw [enter_inode]
      exact hk.1
    · rw [enter_inode]
      intro _ hv
      cases hv
    · rw [enter_inode]
      intro p hl
      cases (h.toInv.lock_of_free hr).symm.trans hl

variable [DecidableEq P]

omit [Fintype P] in
/-- The calls after one process has gone on. -/
theorem goes_calls {c : Option Call} {c' : Call} {q : P} (h : Function.update s.calls p c q = some c') :
    q = p ∧ c = some c' ∨ q ≠ p ∧ s.calls q = some c' := by
  by_cases hq : q = p
  · rw [hq, Function.update_self] at h
    exact .inl ⟨hq, h⟩
  · rw [Function.update_of_ne hq] at h
    exact .inr ⟨hq, h⟩

omit [Fintype P] in
/-- A process goes on with `ilock`, through a pointer that it has. -/
theorem Vital.goes (h : Vital s i) (hptr : 0 < s.ptrs i) {c : Option Call} (hc : ∀ c', c = some c' → c' = .ilock i)
    {x : Inode P} (hkey : x.key = (s.inode i).key)
    (htype : x.valid = true → (∀ q, s.calls q ≠ some (.iputUnlock i)) → x.type ≠ 0)
    (hvalid : ∀ q, x.lock = some q → (q = p → c ≠ some (.ilock i)) → (q ≠ p → s.calls q ≠ some (.ilock i)) → x.valid = true)
    (hold : ∀ c', s.calls p = some c' → c' = .ilock i) : Vital ((s.enter i x (s.ptrs i)).goes p c) i where
  alone q hq := by
    rcases goes_calls hq with ⟨-, he⟩ | ⟨-, he⟩
    · cases hc _ he
    · exact absurd he (h.not_trunc hptr q)
  disk _ := by
    have hinode : ((s.enter i x (s.ptrs i)).goes p c).inode i = x := Function.update_self ..
    obtain ⟨hd, hno⟩ := h.disk (.inl hptr)
    rw [hinode, hkey]
    refine ⟨hd, fun q hq => ?_⟩
    rcases goes_calls hq with ⟨-, he⟩ | ⟨-, he⟩
    · cases hc _ he
    · exact hno q he
  type := by
    have hinode : ((s.enter i x (s.ptrs i)).goes p c).inode i = x := Function.update_self ..
    rw [hinode]
    intro _ hv hno
    apply htype hv
    intro q hq
    by_cases he : q = p
    · rw [he] at hq
      cases hold _ hq
    · apply hno q
      exact (Function.update_of_ne he ..).trans hq
  valid q := by
    have hinode : ((s.enter i x (s.ptrs i)).goes p c).inode i = x := Function.update_self ..
    rw [hinode]
    intro hl hq
    apply hvalid q hl
    · intro he
      subst he
      intro hcq
      exact hq ((Function.update_self ..).trans hcq)
    · intro he hcq
      exact hq ((Function.update_of_ne he ..).trans hcq)

omit [Fintype P] in
/-- A process goes on with `iput`: no other frees the inode. -/
theorem Vital.puts (h : Vital s i) (hput : Call.puts i (s.calls p) = true) {c : Option Call}
    (hc : ∀ c', c = some c' → c' = .iputUnlock i ∨ c' = .iputLast i) (hcalls : t.calls = Function.update s.calls p c)
    (hkey : (t.inode i).key = (s.inode i).key) (hptrs : t.ptrs i = s.ptrs i)
    (hdisk : 0 < s.ptrs i → (s.disk (s.inode i).key).type ≠ 0 → (t.disk (s.inode i).key).type ≠ 0)
    (htype : 0 < (t.inode i).ref → (t.inode i).valid = true → (∀ q, t.calls q ≠ some (.iputUnlock i)) → (t.inode i).type ≠ 0)
    (hvalid : ∀ q, (t.inode i).lock = some q → t.calls q ≠ some (.ilock i) → (t.inode i).valid = true) : Vital t i := by
  have hno (q : P) : t.calls q ≠ some (.iputTrunc i) := by
    intro hq
    rw [hcalls] at hq
    rcases goes_calls hq with ⟨-, he⟩ | ⟨hne, he⟩
    · rcases hc _ he with he | he
      · cases he
      · cases he
    · exact hne ((h.alone q he).2 p hput).symm
  constructor
  · exact fun q hq => absurd hq (hno q)
  · intro hu
    rcases hu with hu | ⟨q, hq⟩
    · rw [hptrs] at hu
      obtain ⟨hd, hn⟩ := h.disk (.inl hu)
      rw [hkey]
      refine ⟨hdisk hu hd, fun q hq => ?_⟩
      rw [hcalls] at hq
      rcases goes_calls hq with ⟨-, he⟩ | ⟨-, he⟩
      · rcases hc _ he with he | he
        · cases he
        · cases he
      · exact hn q he
    · exact absurd hq (hno q)
  · exact htype
  · exact hvalid

/-- The one that has marked an inode is the only one to get it. -/
theorem Alive.unmark (h : Alive s) {k : Key} (hc : s.calls p = some (.ialloc k)) :
    Alive (s.goes p none) ∧ (s.goes p none).Live k := by
  have hcalls {q : P} {c : Call} (hq : (s.goes p none).calls q = some c) : q ≠ p ∧ s.calls q = some c := by
    rcases goes_calls hq with ⟨-, he⟩ | hq
    · cases he
    · exact hq
  have hsame (j : Nat) : Same j s (s.goes p none) := by
    apply same_ialloc
    · intro c' hc'
      rw [hc] at hc'
      rw [← Option.some.inj hc']
      rfl
    · intro c' hc'
      cases hc'
  constructor
  · refine ⟨h.toInv.congr hsame, fun j => ?_, fun q k' hq => h.marked q k' (hcalls hq).2, fun q q' k' hq hq' => ?_⟩
    · apply (h.vital j).same (hsame j)
      intro hu
      obtain ⟨hd, hn⟩ := (h.vital j).disk hu
      exact ⟨hd, fun q hq => hn q (hcalls hq).2⟩
    · exact h.once q q' k' (hcalls hq).2 (hcalls hq').2
  · refine ⟨⟨h.marked p k hc, fun q hq => ?_⟩, fun q j hq he => ?_⟩
    · obtain ⟨hne, hq⟩ := hcalls hq
      exact hne (h.once q p k hq hc)
    · have hn := ((h.vital j).disk (.inr ⟨q, (hcalls hq).2⟩)).2 p
      have hkey : (s.inode j).key = k := he
      rw [hkey] at hn
      exact hn hc

omit [Fintype P] in
/-- Nobody goes on with `ialloc`. -/
theorem goes_ialloc {c : Option Call} (hc : ∀ c', c = some c' → c'.entry = some i) (q : P) (k : Key)
    (hq : Function.update s.calls p c q = some (.ialloc k)) : s.calls q = some (.ialloc k) := by
  rcases goes_calls hq with ⟨-, he⟩ | ⟨-, he⟩
  · cases hc _ he
  · exact he

theorem Alive.did (h : Alive s) {e : Event P} (hp : e.Proper s) (hs : e.Sound s) (hd : Did e s t) : Alive t := by
  have hi := h.toInv.did hp hd
  cases hd with
  | nothing => exact h
  | lookup hc hg => exact h.got hs hg
  | ialloc p k type hc h₀ =>
    have hfree (j : Nat) (hu : s.Used j) : (s.inode j).key ≠ k := by
      intro he
      have hd := ((h.vital j).disk hu).1
      rw [he] at hd
      exact hd h₀
    have hdisk (k' : Key) (hn : (s.disk k').type ≠ 0) : ((s.store k ⟨type, 0⟩).disk k').type ≠ 0 := by
      by_cases hk : k' = k
      · rw [hk] at hn
        exact absurd h₀ hn
      · have hsame : (s.store k ⟨type, 0⟩).disk k' = s.disk k' := Function.update_of_ne hk ..
        rwa [hsame]
    refine ⟨hi, fun j => ?_, fun q k' hq => ?_, fun q q' k' hq hq' => ?_⟩
    · have hsame : Same j s ((s.store k ⟨type, 0⟩).goes p (some (.ialloc k))) := by
        refine ⟨rfl, rfl, fun q c he => calls_update ?_ ?_ q c he⟩
        · intro c' hc'
          rw [show (s.store k ⟨type, 0⟩).calls p = none from hc] at hc'
          cases hc'
        · intro c' hc'
          rw [← Option.some.inj hc']
          exact (Option.some_ne_none j).symm
      apply (h.vital j).same hsame
      intro hu
      obtain ⟨hn, hno⟩ := (h.vital j).disk hu
      refine ⟨hdisk _ hn, fun q hq => ?_⟩
      rcases goes_calls hq with ⟨-, he⟩ | ⟨-, he⟩
      · exact hfree j hu (Call.ialloc.inj (Option.some.inj he)).symm
      · exact hno q he
    · rcases goes_calls hq with ⟨-, he⟩ | ⟨-, he⟩
      · rw [← Call.ialloc.inj (Option.some.inj he)]
        have hself : (s.store k ⟨type, 0⟩).disk k = ⟨type, 0⟩ := Function.update_self ..
        change ((s.store k ⟨type, 0⟩).disk k).type ≠ 0
        rw [hself]
        exact hp
      · exact hdisk k' (h.marked q k' he)
    · have hnew (r : P) (he : s.calls r = some (.ialloc k)) : False := h.marked r k he h₀
      rcases goes_calls hq with ⟨hqp, he⟩ | ⟨-, he⟩
      · rcases goes_calls hq' with ⟨hqp', -⟩ | ⟨-, he'⟩
        · rw [hqp, hqp']
        · rw [← Call.ialloc.inj (Option.some.inj he)] at he'
          exact (hnew q' he').elim
      · rcases goes_calls hq' with ⟨-, he'⟩ | ⟨-, he'⟩
        · rw [← Call.ialloc.inj (Option.some.inj he')] at he
          exact (hnew q he).elim
        · exact h.once q q' k' he he'
  | idup i =>
    have hptr : 0 < s.ptrs i := hp
    apply h.step hi (fun j hj => same_enter s _ _ hj) _ (fun _ _ => id) fun k hn h0 => absurd h0 hn
    constructor
    · exact fun p hc => absurd hc ((h.vital i).not_trunc hptr p)
    · intro _
      rw [enter_inode]
      exact (h.vital i).disk (.inl hptr)
    · rw [enter_inode]
      exact fun _ => (h.vital i).type (h.pos hptr)
    · rw [enter_inode]
      exact (h.vital i).valid
  | ilock p i hc hl =>
    have hptr : 0 < s.ptrs i := hp
    have hself : Vital ((s.enter i { s.inode i with lock := some p } (s.ptrs i)).goes p (some (.ilock i))) i := by
      apply (h.vital i).goes hptr
      · exact fun c' hc' => (Option.some.inj hc').symm
      · rfl
      · exact (h.vital i).type (h.pos hptr)
      · intro q hq hself _
        exact absurd rfl (hself (Option.some.inj hq).symm)
      · intro c' hc'
        rw [hc] at hc'
        cases hc'
    apply h.step hi (fun j hj => same_goes _ _ (by rw [hc]; exact on_none i) (on_some rfl) hj) hself
    · intro q k hq
      rcases goes_calls hq with ⟨-, he⟩ | ⟨-, he⟩
      · cases he
      · exact he
    · exact fun k hn h0 => absurd h0 hn
  | setNlink p i nlink hc hl =>
    have hptr := h.holding hc hl
    apply h.step hi (fun j hj => same_enter s _ _ hj) _ (fun _ _ => id) fun k hn h0 => absurd h0 hn
    constructor
    · exact fun p hc => absurd hc ((h.vital i).not_trunc hptr p)
    · intro _
      rw [enter_inode]
      exact (h.vital i).disk (.inl hptr)
    · rw [enter_inode]
      exact (h.vital i).type
    · rw [enter_inode]
      exact (h.vital i).valid
  | iupdate p i hc hl =>
    have hptr := h.holding hc hl
    have hv : (s.inode i).valid = true := by
      apply (h.vital i).valid p hl
      rw [hc]
      exact (Option.some_ne_none _).symm
    have htype : (s.inode i).type ≠ 0 := by
      apply (h.vital i).type (h.pos hptr) hv
      intro q hq
      have hlq := ((h.entry i).held q _ hq rfl).2 rfl
      rw [hl] at hlq
      rw [← Option.some.inj hlq, hc] at hq
      cases hq
    have hdisk (k : Key) (hn : (s.disk k).type ≠ 0) :
        ((s.store (s.inode i).key ⟨(s.inode i).type, (s.inode i).nlink⟩).disk k).type ≠ 0 := by
      by_cases hk : k = (s.inode i).key
      · rw [hk]
        have hself : (s.store (s.inode i).key ⟨(s.inode i).type, (s.inode i).nlink⟩).disk (s.inode i).key =
            ⟨(s.inode i).type, (s.inode i).nlink⟩ := Function.update_self ..
        rw [hself]
        exact htype
      · have hsame : (s.store (s.inode i).key ⟨(s.inode i).type, (s.inode i).nlink⟩).disk k = s.disk k :=
          Function.update_of_ne hk ..
        rwa [hsame]
    have hsame (j : Nat) : Same j s (s.store (s.inode i).key ⟨(s.inode i).type, (s.inode i).nlink⟩) :=
      ⟨rfl, rfl, fun _ _ _ => Iff.rfl⟩
    apply h.step (i := i) hi (fun j _ => hsame j) _ (fun _ _ => id) fun k hn h0 => absurd h0 (hdisk k hn)
    apply (h.vital i).same (hsame i)
    intro hu
    obtain ⟨hn, hno⟩ := (h.vital i).disk hu
    exact ⟨hdisk _ hn, hno⟩
  | iunlock p i hc hl =>
    have hptr := h.holding hc hl
    apply h.step hi (fun j hj => same_enter s _ _ hj) _ (fun _ _ => id) fun k hn h0 => absurd h0 hn
    constructor
    · exact fun p hc => absurd hc ((h.vital i).not_trunc hptr p)
    · intro _
      rw [enter_inode]
      exact (h.vital i).disk (.inl hptr)
    · rw [enter_inode]
      exact (h.vital i).type
    · rw [enter_inode]
      intro q hq
      cases hq
  | iput p i hc =>
    have hptr : 0 < s.ptrs i := hp.1
    apply h.step hi (fun j hj => same_enter s _ _ hj) _ (fun _ _ => id) fun k hn h0 => absurd h0 hn
    constructor
    · exact fun p hc => absurd hc ((h.vital i).not_trunc hptr p)
    · intro _
      rw [enter_inode]
      exact (h.vital i).disk (.inl hptr)
    · rw [enter_inode]
      exact fun _ => (h.vital i).type (h.pos hptr)
    · rw [enter_inode]
      exact (h.vital i).valid
  | iputFree p i hc hr hv hl =>
    have hptr : 0 < s.ptrs i := hp.1
    have hone : s.ptrs i - 1 = 0 ∧ s.puts i = 0 := by
      have href := (h.entry i).ref
      rw [State.refs] at href
      omega
    obtain ⟨t, ht⟩ : ∃ t, t = (s.enter i { s.inode i with lock := some p } (s.ptrs i - 1)).goes p (some (.iputTrunc i)) :=
      ⟨_, rfl⟩
    have hinode : t.inode i = { s.inode i with lock := some p } := by rw [ht]; exact Function.update_self ..
    have hptrs : t.ptrs i = s.ptrs i - 1 := by rw [ht]; exact Function.update_self ..
    have hcalls : t.calls = Function.update s.calls p (some (.iputTrunc i)) := by rw [ht]; rfl
    have hself : Vital t i := by
      constructor
      · intro q hq
        rw [hcalls] at hq
        rcases goes_calls hq with ⟨hqp, -⟩ | ⟨-, he⟩
        · refine ⟨hptrs.trans hone.1, fun q' hq' => ?_⟩
          by_cases hne : q' = p
          · rw [hne, hqp]
          · rw [hcalls, Function.update_of_ne hne] at hq'
            have hpos := puts_pos hq'
            omega
        · exact absurd he ((h.vital i).not_trunc hptr q)
      · intro _
        obtain ⟨hn, hno⟩ := (h.vital i).disk (.inl hptr)
        rw [hinode]
        refine ⟨by rw [ht]; exact hn, fun q hq => ?_⟩
        rw [hcalls] at hq
        exact hno q (goes_ialloc (on_some rfl) q _ hq)
      · rw [hinode]
        intro hr hv hno
        apply (h.vital i).type hr hv
        intro q hq
        by_cases hne : q = p
        · rw [hne, hc] at hq
          cases hq
        · apply hno q
          rw [hcalls, Function.update_of_ne hne]
          exact hq
      · rw [hinode]
        exact fun _ _ _ => hv
    rw [← ht] at hi ⊢
    apply h.step hi _ hself
    · rw [hcalls]
      exact fun q k => goes_ialloc (on_some rfl) q k
    · rw [ht]
      exact fun k hn h0 => absurd h0 hn
    · intro j hj
      rw [ht]
      exact same_goes _ _ (by rw [hc]; exact on_none i) (on_some rfl) hj
  | iallocGet p k hc hg =>
    obtain ⟨ha, hk⟩ := h.unmark hc
    exact ha.got hk hg
  | ilockHit p i hc hv =>
    obtain ⟨hl, hptr⟩ := h.reading hc
    have hsame : s.goes p none = (s.enter i (s.inode i) (s.ptrs i)).goes p none := by rw [enter_self]
    rw [hsame] at hi ⊢
    apply h.step hi
    · exact fun j hj => same_goes _ _ (by rw [hc]; exact on_some rfl) (on_none i) hj
    · apply (h.vital i).goes hptr
      · exact fun c' hc' => by cases hc'
      · rfl
      · exact (h.vital i).type (h.pos hptr)
      · exact fun _ _ _ _ => hv
      · intro c' hc'
        rw [hc] at hc'
        exact (Option.some.inj hc').symm
    · exact fun q k => goes_ialloc (on_none i) q k
    · exact fun k hn h0 => absurd h0 hn
  | ilockRead p i hc hdisk =>
    obtain ⟨hl, hptr⟩ := h.reading hc
    apply h.step hi
    · exact fun j hj => same_goes _ _ (by rw [hc]; exact on_some rfl) (on_none i) hj
    · apply (h.vital i).goes hptr
      · exact fun c' hc' => by cases hc'
      · rfl
      · exact fun _ _ => hdisk
      · exact fun _ _ _ _ => rfl
      · intro c' hc'
        rw [hc] at hc'
        exact (Option.some.inj hc').symm
    · exact fun q k => goes_ialloc (on_none i) q k
    · exact fun k hn h0 => absurd h0 hn
  | iputTrunc p i hc =>
    have hput : Call.puts i (s.calls p) = true := by rw [hc, Call.puts_iff]; exact .inl rfl
    have hl := ((h.entry i).held p _ hc rfl).2 rfl
    have h0 := ((h.vital i).alone p hc).1
    obtain ⟨t, ht⟩ : ∃ t, t = ((s.enter i { s.inode i with type := 0 } (s.ptrs i)).store (s.inode i).key
      ⟨0, (s.inode i).nlink⟩).goes p (some (.iputUnlock i)) := ⟨_, rfl⟩
    have hinode : t.inode i = { s.inode i with type := 0 } := by rw [ht]; exact Function.update_self ..
    have hcalls : t.calls = Function.update s.calls p (some (.iputUnlock i)) := by rw [ht]; rfl
    rw [← ht] at hi ⊢
    apply h.step hi
    · intro j hj
      have hgo : Same j s ((s.enter i { s.inode i with type := 0 } (s.ptrs i)).goes p (some (.iputUnlock i))) :=
        same_goes _ _ (by rw [hc]; exact on_some rfl) (on_some rfl) hj
      rw [ht]
      exact ⟨hgo.inode, hgo.ptrs, hgo.calls⟩
    · apply (h.vital i).puts hput _ hcalls
      · rw [hinode]
      · rw [ht]
        exact Function.update_self ..
      · intro hptr
        omega
      · intro _ _ hno
        apply absurd _ (hno p)
        rw [hcalls, Function.update_self]
      · rw [hinode]
        intro q hq _
        apply (h.vital i).valid q hq
        rw [← Option.some.inj (hl.symm.trans hq), hc]
        intro he
        cases he
      · exact fun c' hc' => .inl (Option.some.inj hc').symm
    · rw [hcalls]
      exact fun q k => goes_ialloc (on_some rfl) q k
    · intro k hn hk
      refine ⟨.inr ⟨p, hc⟩, ?_⟩
      by_contra hne
      apply hn
      rw [← hk, ht]
      exact congrArg Dinode.type (Function.update_of_ne (Ne.symm hne) ..).symm
  | iputUnlock p i hc =>
    have hput : Call.puts i (s.calls p) = true := by rw [hc, Call.puts_iff]; exact .inr (.inl rfl)
    apply h.step hi
    · exact fun j hj => same_goes _ _ (by rw [hc]; exact on_some rfl) (on_some rfl) hj
    · have hinode : ((s.enter i { s.inode i with valid := false, lock := none } (s.ptrs i)).goes p
          (some (.iputLast i))).inode i = { s.inode i with valid := false, lock := none } := Function.update_self ..
      apply (h.vital i).puts hput _ rfl
      · rw [hinode]
      · exact Function.update_self ..
      · exact fun _ => id
      · rw [hinode]
        intro _ hv
        cases hv
      · rw [hinode]
        intro q hq
        cases hq
      · exact fun c' hc' => .inr (Option.some.inj hc').symm
    · exact fun q k => goes_ialloc (on_some rfl) q k
    · exact fun k hn h0 => absurd h0 hn
  | iputLast p i hc =>
    have hput : Call.puts i (s.calls p) = true := by rw [hc, Call.puts_iff]; exact .inr (.inr rfl)
    have hl : (s.inode i).lock ≠ some p := fun he => by cases ((h.entry i).held p _ hc rfl).1 he
    have hpos := h.toInv.pos_of_puts hput
    have hgo {q : P} (hq : q ≠ p) : ((s.enter i { s.inode i with ref := (s.inode i).ref - 1 } (s.ptrs i)).goes p
      none).calls q = s.calls q := Function.update_of_ne hq ..
    apply h.step hi
    · exact fun j hj => same_goes _ _ (by rw [hc]; exact on_some rfl) (on_none i) hj
    · have hinode : ((s.enter i { s.inode i with ref := (s.inode i).ref - 1 } (s.ptrs i)).goes p none).inode i =
          { s.inode i with ref := (s.inode i).ref - 1 } := Function.update_self ..
      apply (h.vital i).puts hput _ rfl
      · rw [hinode]
      · exact Function.update_self ..
      · exact fun _ => id
      · rw [hinode]
        intro _ hv hno
        apply (h.vital i).type hpos hv
        intro q hq
        by_cases hne : q = p
        · rw [hne, hc] at hq
          cases hq
        · exact hno q ((hgo hne).trans hq)
      · rw [hinode]
        intro q hq hn
        apply (h.vital i).valid q hq
        rw [← hgo fun he => hl (he ▸ hq)]
        exact hn
      · intro c' hc'
        cases hc'
    · exact fun q k => goes_ialloc (on_none i) q k
    · exact fun k hn h0 => absurd h0 hn

end

/-- A process unlocks an inode that it has locked. -/
def Event.Locked (s : State P) : Event P → Prop
  | .iunlock p i => (s.inode i).lock = some p
  | _ => True

section

variable {P : Type} [Fintype P] {s : State P} {e : Event P}

theorem inv_init (P : Type) [Fintype P] (disk : Key → Dinode) : Inv (State.init P disk) := by
  have hnone (i : Nat) : (State.init P disk).puts i = 0 := by
    apply Finset.card_eq_zero.2
    apply Finset.filter_eq_empty_iff.2
    intro p _ hp
    cases hp
  constructor
  · intro i
    constructor
    · rw [State.refs, hnone]
      rfl
    · intro hr
      cases hr
    · intro hu
      obtain ⟨p, hl, -⟩ := hu
      cases hl
    · intro p c hc
      cases hc
  · intro i j hr
    cases hr

theorem alive_init (P : Type) [Fintype P] (disk : Key → Dinode) : Alive (State.init P disk) := by
  refine ⟨inv_init P disk, fun i => ?_, fun p k hc => ?_, fun p q k hc => ?_⟩
  · constructor
    · intro p hc
      cases hc
    · intro hu
      rcases hu with hu | ⟨p, hc⟩
      · cases hu
      · cases hc
    · intro hr
      cases hr
    · intro p hl
      cases hl
  · cases hc
  · cases hc

/-- The only panic is that there is no free entry. -/
theorem Alive.panic (h : Alive s) (hp : e.Proper s) (hl : e.Locked s) (hf : Fails e s x) : x = .noInodes := by
  cases hf with
  | noInodes => rfl
  | iunlock hc hn =>
    have hpos := h.pos (h.holding hc hl)
    rcases hn with hn | hn
    · exact absurd hl hn
    · omega
  | ilock hr =>
    have hpos := h.pos hp
    omega
  | noType p i hc ht hv =>
    have hptr := (h.reading hc).2
    exact absurd ht ((h.vital i).disk (.inl hptr)).1
  | schedLocks p q i hc hr hl =>
    have href := (h.entry i).ref
    rw [State.refs] at href
    have hptr : 0 < s.ptrs i := hp.1
    cases hq : Call.puts i (s.calls q) with
    | true =>
      have hpos := puts_pos hq
      omega
    | false =>
      have hmore := hp.2 ⟨q, hl, hq⟩
      omega

variable [DecidableEq P]

/-- An inode has one entry, which counts the pointers to it, whatever processes do with the pointers that they
have. If a lookup does not follow a dangling entry, the only panic is that there is no free entry, and `iput`
frees an inode through the last pointer to it. -/
theorem table_identity (disk : Key → Dinode) (es : List (Event P)) (hp : Meets step Event.Proper es (State.init P disk)) :
    Wp (runWith step es) AnyError (fun _ s =>
      (∀ i, (s.inode i).ref = s.refs i ∧ (0 < (s.inode i).ref → i < NINODE)) ∧
      ∀ i j, 0 < (s.inode i).ref → 0 < (s.inode j).ref → (s.inode i).key = (s.inode j).key → i = j)
      (State.init P disk) ∧
    (Meets step (fun s e => e.Proper s ∧ e.Sound s ∧ e.Locked s) es (State.init P disk) →
      Wp (runWith step es) (fun x => x = .noInodes) (fun _ s => ∀ p i, s.calls p = some (.iputTrunc i) →
        s.ptrs i = 0 ∧ (∀ q, Call.puts i (s.calls q) = true → q = p) ∧ (s.inode i).lock = some p ∧
        s.Allocated (s.inode i).key) (State.init P disk)) := by
  constructor
  · apply Wp.mono (hp.run (inv_init P disk) _)
    · intro _ s hi
      exact ⟨fun i => ⟨(hi.entry i).ref, (hi.entry i).range⟩, hi.unique⟩
    · intro e _ s hi hpe
      exact (((wp_step e s).weaken fun _ _ => trivial)).mono fun _ t hd => hi.did hpe hd
  · intro hm
    apply Wp.mono (hm.run (alive_init P disk) _)
    · intro _ s ha p i hc
      obtain ⟨hptr, honly⟩ := (ha.vital i).alone p hc
      exact ⟨hptr, honly, ((ha.entry i).held p _ hc rfl).2 rfl, (ha.vital i).disk (.inr ⟨p, hc⟩)⟩
    · intro e _ s ha hc
      apply ((wp_step e s).weaken fun x hf => ha.panic hc.1 hc.2.2 hf).mono
      exact fun _ t hd => ha.did hc.1 hc.2.1 hd

/-- While one process frees an inode, another gets it again from `ialloc`. -/
theorem table_identity_reuse : Wp (runWith step [.lookup (0 : Fin 2) ⟨1, 7⟩, .ilock 0 0, .resume 0, .iunlock 0 0, .iput 0 0,
    .resume 0, .ialloc 1 ⟨1, 7⟩ 2, .resume 1]) (fun x => x = .noInodes)
    (fun _ s => ∀ p i, s.calls p = some (.iputTrunc i) → s.ptrs i = 0) (State.init (Fin 2) fun _ => ⟨2, 0⟩) := by
  have hm : Meets step (fun s e => e.Proper s ∧ e.Sound s ∧ e.Locked s) [.lookup (0 : Fin 2) ⟨1, 7⟩, .ilock 0 0, .resume 0,
      .iunlock 0 0, .iput 0 0, .resume 0, .ialloc 1 ⟨1, 7⟩ 2, .resume 1] (State.init (Fin 2) fun _ => ⟨2, 0⟩) := by
    have htype : (2 : BitVec 16) ≠ 0 := by decide
    have hlive : (State.init (Fin 2) fun _ => ⟨2, 0⟩).Live ⟨1, 7⟩ := by
      refine ⟨⟨htype, fun p hc => ?_⟩, fun p i hc => ?_⟩
      · cases hc
      · cases hc
    apply Meets.cons ⟨trivial, hlive, trivial⟩ rfl
    apply Meets.cons ⟨Nat.one_pos, trivial, trivial⟩ rfl
    apply Meets.cons ⟨trivial, trivial, trivial⟩ rfl
    apply Meets.cons ⟨trivial, trivial, rfl⟩ rfl
    apply Meets.cons ⟨⟨Nat.one_pos, fun hu => by obtain ⟨p, hl, -⟩ := hu; cases hl⟩, trivial, trivial⟩ rfl
    apply Meets.cons ⟨trivial, trivial, trivial⟩ rfl
    apply Meets.cons ⟨htype, trivial, trivial⟩ rfl
    exact Meets.cons ⟨trivial, trivial, trivial⟩ rfl trivial
  apply Wp.mono ((table_identity _ _ (hm.mono fun _ _ hc => hc.1)).2 hm)
  exact fun _ s h p i hc => (h p i hc).1

end

end PbsCow.Itable
