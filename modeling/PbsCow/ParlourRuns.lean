import PbsCow.ParlourSteps

namespace PbsCow
set_option autoImplicit true

namespace Parlour

open Pthread

/-- What a thread knows at a label. -/
def Label.At (q : Config) (d : Data) : Label → Prop
  | .tick => d.ticked = false
  | .gate i => d.visit i = .new
  | .comes i => d.visit i = .new
  | .collects i => d.visit i = ⟨.given, true, false, false⟩
  | .allocated j => d.cone j = .waiting
  | .turn j => d.cone j = .waiting ∧ d.ingredients (q.buyer j) ≠ -1
  | .seek j _ => d.cone j = .waiting ∧ d.ingredients (q.buyer j) = 1
  | .prepare j i => ∃ came, d.cone j = .holding i came
  | .make j i curr => d.cone j = .started i curr
  | .exits => ∀ k, d.unserved k = none
  | .close i => ∀ k, i ≤ k → d.unserved k = none
  | _ => True

def contract (q : Config) (D : Tid → Code → Memory → Prop) : Contract Tid Memory Label where
  inv := VisitInv q
  guar := Act q D
  pre t l s := l.tid = t ∧ Live q t s ∧ l.At q s.data
  post _ _ := True

variable {q : Config} {D : Tid → Code → Memory → Prop} {t : Tid}

/-- Thread `t`, which knows `P`, does only what it can do. -/
abbrev Follows (q : Config) (D : Tid → Code → Memory → Prop) (t : Tid) (P : Memory → Prop)
    (k : Code) : Prop :=
  (contract q D).Keeps D t (fun s => Live q t s ∧ P s) k

/-- The same for what the thread knows about the data. -/
abbrev Goes (q : Config) (D : Tid → Code → Memory → Prop) (t : Tid) (L : Data → Prop)
    (k : Code) : Prop := Follows q D t (fun s => L s.data) k

/-- What `t` knows although others take steps. -/
def Known (q : Config) (D : Tid → Code → Memory → Prop) (t : Tid) (P : Memory → Prop) : Prop :=
  ∀ s s' t', P s → t' ≠ t → Frame q D t' s s' → P s'

/-- What `t` knows as long as it runs. -/
def While (q : Config) (D : Tid → Code → Memory → Prop) (t : Tid) (P : Memory → Prop) : Prop :=
  ∀ s s' t', P s → Live q t s → t' ≠ t → Frame q D t' s s' → P s'

theorem Live.frame {s s' : Memory} (h : Live q t s) (ht : t' ≠ t) (hf : Frame q D t' s s') :
    Live q t s' :=
  ⟨h.created, hf.waits t (Ne.symm ht) h.awake, (hf.finished t (Ne.symm ht)).trans h.finished⟩

theorem Known.while (h : Known q D t P) : While q D t P := fun s s' t' hp _ => h s s' t' hp

theorem While.stable (h : While q D t P) : (contract q D).Stable t fun s => Live q t s ∧ P s := by
  rintro s s' ⟨hl, hp⟩ ⟨hi, hi', t', ht, hg⟩
  have hf := Act.frame hg hi
  exact ⟨hl.frame ht hf, h s s' t' hp hl ht hf⟩

theorem Known.and (h : Known q D t P) (h' : Known q D t Q) : Known q D t fun s => P s ∧ Q s := by
  intro s s' t' hp ht hf
  exact ⟨h s s' t' hp.1 ht hf, h' s s' t' hp.2 ht hf⟩

theorem While.and (h : While q D t P) (h' : While q D t Q) : While q D t fun s => P s ∧ Q s := by
  intro s s' t' hp hl ht hf
  exact ⟨h s s' t' hp.1 hl ht hf, h' s s' t' hp.2 hl ht hf⟩

theorem known_true : Known q D t fun _ => True := fun _ _ _ _ _ _ => trivial

theorem known_visit (i : Nat) (P : Visit → Prop) :
    Known q D (.arrival i) fun s => P (s.data.visit i) := by
  intro s s' t' hp ht hf
  rwa [hf.visit i ht]

theorem known_cone (j : Nat) (P : Cone → Prop) :
    Known q D (.queue j) fun s => P (s.data.cone j) := by
  intro s s' t' hp ht hf
  rwa [hf.cone j ht]

theorem known_owes (t : Tid) (c : Cond) : Known q D t fun s => s.data.owes t c = true := by
  intro s s' t' hp ht hf
  rwa [hf.owes t (Ne.symm ht)]

theorem known_owner (t : Tid) (m : Mutex) : Known q D t fun s => s.owner m = some t := by
  intro s s' t' hp ht hf
  exact (hf.owner m t (Ne.symm ht)).2 hp

theorem known_ingredients (t : Tid) (i : Nat) (P : Int → Prop) (hP : ∀ v, P v → v ≠ -1) :
    Known q D t fun s => P (s.data.ingredients i) := by
  intro s s' t' hp ht hf
  rwa [hf.ingredients i (hP _ hp)]

theorem known_ticked : Known q D .counter fun s => s.data.ticked = false := by
  intro s s' t' hp ht hf
  rwa [hf.ticked ht]

theorem known_unserved (P : (Nat → Option Stage) → Prop) :
    Known q D .exit fun s => P s.data.unserved := by
  intro s s' t' hp ht hf
  rwa [hf.unserved ht]

theorem known_said (i : Nat) : Known q D .exit fun s => .notServiced ∉ s.data.said i := by
  intro s s' t' hp ht hf hm
  exact hp (hf.said ht i hm)

theorem known_sec (t : Tid) (T : Int) : Known q D t fun s => T ≤ s.data.sec := by
  intro s s' t' hp ht hf
  exact Int.le_trans hp hf.sec

/-- A second does not pass while the thread runs. -/
theorem while_paced (ht : t ≠ .counter) (P : Int → Prop) :
    While q D t fun s => Paced q D → P s.data.sec := by
  intro s s' t' hp hl ht' hf hpaced
  rw [hf.paced hpaced t (Ne.symm ht') ht hl]
  exact hp hpaced

/-- What the tables say while the thread owns `mutex`. -/
theorem known_tables (t : Tid) (P : Map → (Nat → Int) → (Nat → Int) → Prop) :
    Known q D t fun s => s.owner .mutex = some t ∧ P s.data.map s.data.marr s.data.done := by
  intro s s' t' hp ht hf
  refine ⟨(hf.owner _ t (Ne.symm ht)).2 hp.1, ?_⟩
  have hne : s.owner .mutex ≠ some t' := by
    intro he
    exact ht (Option.some.inj (he.symm.trans hp.1))
  obtain ⟨h₁, h₂, h₃⟩ := hf.mutex hne
  rw [h₁, h₂, h₃]
  exact hp.2

/-- The time for which the thread waits does not come while it runs. -/
theorem while_due (ht : t ≠ .counter) (c : Cond) : While q D t fun s => Due q D t c s.data := by
  intro s s' t' hp hl ht' hf j T he hT
  subst he
  rw [hf.cone j ht'] at hT
  obtain ⟨hc, hs⟩ := hp j T rfl hT
  refine ⟨hc, fun hpaced => ?_⟩
  rw [hf.paced hpaced _ (Ne.symm ht') ht hl]
  exact hs hpaced

theorem neutral_while {L : Data → Prop} (h : While q D t fun s => L s.data) :
    Neutral (contract q D) t fun s => Live q t s ∧ L s.data := by
  refine ⟨h.stable, fun s s' hi hp hs => ?_⟩
  have ha : Act q D t s s' := .lock hs
  refine ⟨hi.act ha, ha, ⟨hp.1.created, ?_, ?_⟩, ?_⟩
  · rcases hs.waits t with he | he
    · exact he.trans hp.1.awake
    · exact he
  · rw [hs.data]
    exact hp.1.finished
  · rw [hs.data]
    exact hp.2

namespace Follows

variable {k : Code} {L : Data → Prop}

theorem weaken (hk : Follows q D t P k) (h : ∀ s, Q s → P s) : Follows q D t Q k :=
  fun s hs => hk s ⟨hs.1, h s hs.2⟩

/-- A step that the thread can do. -/
theorem step {f : Memory → Option Memory} {k : Memory → Code} (hP : While q D t P)
    (h : ∀ s s', VisitInv q s → Live q t s → P s → D t (.act f k) s → f s = some s' →
      Act q D t s s' ∧ (contract q D).Ok D t (k s) s') : Follows q D t P (.act f k) := by
  refine .act hP.stable fun s s' hi hp hd hf => ?_
  obtain ⟨ha, hk⟩ := h s s' hi hp.1 hp.2 hd hf
  exact ⟨hi.act ha, ha, hk⟩

/-- The thread writes to the data and goes on. -/
theorem write {f : Data → Data} (hf : ∀ d, (f d).finished = d.finished) (hP : While q D t P)
    (hk : Follows q D t Q k)
    (hw : ∀ s, VisitInv q s → P s → D t (update f k) s → Write q D t s (f s.data))
    (hQ : ∀ s, P s → Q { s with data := f s.data }) : Follows q D t P (update f k) := by
  refine step hP fun s s' hi hl hp hd h => ?_
  injection h with h
  subst h
  refine ⟨.write hl (hw s hi hp hd), hk _ ⟨⟨hl.created, hl.awake, ?_⟩, hQ s hp⟩⟩
  exact (congrFun (hf s.data) t).trans hl.finished

theorem look {k : Data → Code} (hP : While q D t P)
    (hk : ∀ s, VisitInv q s → Live q t s → P s → (contract q D).Ok D t (k s.data) s) :
    Follows q D t P (look k) := by
  refine step hP fun s s' hi hl hp _ h => ?_
  injection h with h
  subst h
  exact ⟨.lock (.refl t s), hk s hi hl hp⟩

theorem lock (hL : While q D t fun s => L s.data) (hk : Goes q D t L k) :
    Goes q D t L (lock t m k) := keeps_lock (neutral_while hL) hk

theorem lock_own (hL : While q D t fun s => L s.data)
    (hk : Follows q D t (fun s => L s.data ∧ s.owner m = some t) k) :
    Goes q D t L (Pthread.lock t m k) :=
  keeps_lock_own (neutral_while hL) fun s hs => hk s ⟨hs.1.1, hs.1.2, hs.2⟩

theorem unlock (hL : While q D t fun s => L s.data) (hk : Goes q D t L k) :
    Goes q D t L (unlock t m k) := keeps_unlock (neutral_while hL) hk

theorem broadcast (hL : While q D t fun s => L s.data) (hk : Goes q D t L k) :
    Goes q D t L (broadcast c k) := keeps_broadcast (neutral_while hL) hk

theorem goto {l : Label} (ht : l.tid = t) (hl : ∀ s, P s → l.At q s.data) :
    Follows q D t P (.goto l) := fun s hs => ⟨ht, hs.1, hl s hs.2⟩

theorem ret : Follows q D t P .ret := fun _ _ => trivial

theorem returns (hP : While q D t P)
    (h : ∀ s j, P s → t = .queue j → (s.data.cone j).idle = true) : Follows q D t P (returns t) := by
  refine step hP fun s s' hi hl hp _ hs => ?_
  injection hs with hs
  subst hs
  exact ⟨.write hl (.finish fun j hj => h s j hp hj), trivial⟩

/-- The thread does the broadcast that it owes. -/
theorem signal (hL : While q D t fun s => L s.data) (hk : Goes q D t L k)
    (hs : ∀ d, L d → L (d.owe t c false)) :
    Goes q D t (fun d => L d ∧ d.owes t c = true) (signal c (·.owe t c false) k) := by
  have hknown : While q D t fun s => L s.data ∧ s.data.owes t c = true :=
    hL.and (known_owes t c).while
  refine step hknown fun s s' hi hl hp _ h => ?_
  injection h with h
  subst h
  exact ⟨.signal hp.2, hk _ ⟨⟨hl.created, wake_waits c hl.awake, hl.finished⟩, hs _ hp.1⟩⟩

/-- The thread waits for a time that has not come, or for something else. -/
theorem wait (ht : t ≠ .counter) (hL : Known q D t fun s => L s.data)
    (hk : Goes q D t L k) :
    Goes q D t (fun d => L d ∧ Due q D t c d) (condWait t c m k) := by
  have hB : (contract q D).Stable t fun s =>
      (created q t = true ∧ s.data.finished t = false) ∧ L s.data := by
    rintro s s' ⟨⟨hc, hf⟩, hl⟩ ⟨hi, _, t', ht, hg⟩
    have hframe := Act.frame hg hi
    exact ⟨⟨hc, (hframe.finished t (Ne.symm ht)).trans hf⟩, hL s s' t' hl ht hframe⟩
  refine keeps_wait (hL.while.and (while_due ht c)).stable hB (neutral_while hL.while)
    (fun s hi hp hd hown s' hs => ?_) (fun s hi hb s' hs => ?_) (fun s hi hb hw => ?_) hk
  · have ha : Act q D t s s' := hs ▸ .block hp.1 hown hd hp.2.2
    refine ⟨hi.act ha, ha, ?_⟩
    subst hs
    exact ⟨⟨hp.1.created, hp.1.finished⟩, hp.2.1⟩
  · have ha : Act q D t s s' := by
      refine hs ▸ .lock (.wakes t s fun t' => ?_)
      by_cases ht' : t' = t
      · rw [ht', Function.update_self]
        exact .inr rfl
      · exact .inl (Function.update_of_ne ht' _ _)
    refine ⟨hi.act ha, ha, ?_⟩
    subst hs
    exact ⟨⟨hb.1.1, Function.update_self .., hb.1.2⟩, hb.2⟩
  · exact ⟨.lock (.refl t s), ⟨hb.1.1, hw, hb.1.2⟩, hb.2⟩

end Follows

end Parlour

end PbsCow
