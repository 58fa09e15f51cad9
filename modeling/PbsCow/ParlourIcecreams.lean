import PbsCow.ParlourThreads

namespace PbsCow
set_option autoImplicit true

namespace Parlour

open Pthread

namespace Follows

variable {q : Config} {D : Tid → Code → Memory → Prop} {k : Code} {i j : Nat}

/-- The ice cream is as far as `x` tells. -/
abbrev Freezes (q : Config) (D : Tid → Code → Memory → Prop) (j : Nat) (x : Cone) (k : Code) : Prop :=
  Goes q D (.queue j) (fun d => d.cone j = x) k

theorem allocated : Freezes q D j .waiting (allocated q j) := by
  have hw : Known q D (.queue j) fun s => s.data.cone j = .waiting := known_cone j (· = .waiting)
  have hgo : Goes q D (.queue j) (fun d => d.cone j = .waiting ∧ d.ingredients (q.buyer j) ≠ -1)
      (.goto (.turn j)) := .goto rfl fun _ h => h
  refine poll (by simp) hw rfl (fun _ h => h) (fun d h _ => due_of_target (by rw [h]; rfl)) hgo
    fun d h hp => ⟨h, ?_⟩
  exact of_decide_eq_false hp

/-- An ice cream whose customer has been told something goes on if the customer has the ingredients. -/
theorem VisitInv.given (hi : VisitInv q s) (h : s.data.ingredients i ≠ -1)
    (h0 : s.data.ingredients i ≠ 0) : s.data.ingredients i = 1 := by
  rw [hi.ingredients i, Visit.ingredients] at h h0 ⊢
  by_cases hg : (s.data.visit i).stage = .given
  · rw [if_pos hg]
  · rw [if_neg hg] at h h0
    cases he : (s.data.visit i).excluded <;> simp [he] at h h0

theorem turn : Goes q D (.queue j)
    (fun d => d.cone j = .waiting ∧ d.ingredients (q.buyer j) ≠ -1) (turn q j) := by
  have hw : Known q D (.queue j) fun s =>
      s.data.cone j = .waiting ∧ s.data.ingredients (q.buyer j) ≠ -1 :=
    (known_cone j (· = .waiting)).and (known_ingredients _ _ (· ≠ -1) fun _ h => h)
  have howes : Known q D (.queue j) fun s => (s.data.cone j = .waiting ∧
      s.data.ingredients (q.buyer j) ≠ -1) ∧ s.data.owes (.queue j) .fastswap = true :=
    hw.and (known_owes _ _)
  have hend : Goes q D (.queue j) (fun d => d.cone j = .waiting ∧ d.ingredients (q.buyer j) ≠ -1)
      (Pthread.look fun d => if d.ingredients (q.buyer j) = 0 then Parlour.returns (.queue j)
        else .goto (.seek j 0)) := by
    refine look hw.while fun s hi hl hs => ?_
    split
    case isTrue =>
      have hret : Goes q D (.queue j) (fun d => d.cone j = .waiting ∧ d.ingredients (q.buyer j) ≠ -1)
          (Parlour.returns (.queue j)) := by
        refine returns hw.while fun s j' hs he => ?_
        injection he with he
        rw [← he, hs.1]
        rfl
      exact hret s ⟨hl, hs⟩
    case isFalse h0 => exact ⟨rfl, hl, hs.1, VisitInv.given hi hs.2 h0⟩
  refine poll (by simp) hw rfl (fun _ h => h) (fun d h _ => due_of_target (by rw [h.1]; rfl))
    (R := fun d => d.cone j = .waiting ∧ d.ingredients (q.buyer j) ≠ -1) (lock hw.while ?_)
    fun _ h _ => h
  refine write (fun _ => rfl) hw.while (unlock howes.while (signal hw.while hend fun _ h => h))
    (fun _ _ _ _ => .turn) fun s h => ⟨h, ?_⟩
  simp [Data.owe]

theorem claim : Follows q D (.queue j) (fun s => (s.data.cone j = .waiting ∧
      s.data.ingredients (q.buyer j) = 1 ∧ (q.machine i).tm_start ≤ s.data.sec) ∧
      (s.owner .mutex = some (.queue j) ∧ s.data.marr i = 0) ∧
      (Paced q D → s.data.sec + q.time j < (q.machine i).tm_stop)) (claim j i) := by
  have hheld : Known q D (.queue j) fun s => ∃ came, s.data.cone j = .holding i came :=
    known_cone j fun x => ∃ came, x = .holding i came
  have hgo : Goes q D (.queue j) (fun d => ∃ came, d.cone j = .holding i came)
      (.goto (.prepare j i)) := .goto rfl fun _ h => h
  have hknown : While q D (.queue j) fun s => (s.data.cone j = .waiting ∧
      s.data.ingredients (q.buyer j) = 1 ∧ (q.machine i).tm_start ≤ s.data.sec) ∧
      (s.owner .mutex = some (.queue j) ∧ s.data.marr i = 0) ∧
      (Paced q D → s.data.sec + q.time j < (q.machine i).tm_stop) := by
    refine .and (Known.while (.and (known_cone j (· = .waiting)) (.and ?_ (known_sec _ _))))
      (.and (Known.while (known_tables _ fun _ marr _ => marr i = 0))
        (while_paced (by simp) fun sec => sec + q.time j < (q.machine i).tm_stop))
    exact known_ingredients _ _ (· = 1) (by rintro v rfl; decide)
  refine write (fun _ => rfl) hknown (unlock hheld.while hgo) (fun s _ h _ => ?_) fun s h => ⟨s.data.sec, ?_⟩
  · exact .claim h.1.1 h.2.1.1 h.2.1.2 h.1.2.1 h.1.2.2 h.2.2
  · simp [Data.setCone]

theorem seek : Goes q D (.queue j) (fun d => d.cone j = .waiting ∧ d.ingredients (q.buyer j) = 1)
    (seek q j i) := by
  have hw : Known q D (.queue j) fun s =>
      s.data.cone j = .waiting ∧ s.data.ingredients (q.buyer j) = 1 :=
    (known_cone j (· = .waiting)).and (known_ingredients _ _ (· = 1) (by rintro v rfl; decide))
  have hnext (i : Nat) : Goes q D (.queue j)
      (fun d => d.cone j = .waiting ∧ d.ingredients (q.buyer j) = 1)
      (Pthread.unlock (.queue j) .mutex <| .goto (.seek j i)) :=
    unlock hw.while (.goto rfl fun _ h => h)
  rw [Parlour.seek]
  split
  case isTrue =>
    refine lock_own hw.while (look (hw.and (known_owner _ _)).while fun s hi hl hs => ?_)
    -- what `canaccept` says remains true as long as no second passes
    have hcan : While q D (.queue j) fun s' => (s'.data.cone j = .waiting ∧
        s'.data.ingredients (q.buyer j) = 1) ∧ s'.owner .mutex = some (.queue j) ∧
        (Paced q D → s.data.sec + q.time j < (q.machine i).tm_stop →
          s'.data.sec + q.time j < (q.machine i).tm_stop) := by
      refine .and hw.while (.and (known_owner _ _).while ?_)
      exact while_paced (by simp) fun sec => s.data.sec + q.time j < (q.machine i).tm_stop →
        sec + q.time j < (q.machine i).tm_stop
    refine look hcan (fun s' hi' hl' hs' => ?_) s ⟨hl, hs.1, hs.2, fun _ h => h⟩
    split
    case isTrue hif =>
      exact claim s' ⟨hl', ⟨hs'.1.1, hs'.1.2, hif.1⟩, ⟨hs'.2.1, hif.2.2.1⟩,
        fun hp => hs'.2.2 hp hif.2.2.2⟩
    case isFalse => exact hnext (i + 1) s' ⟨hl', hs'.1⟩
  case isFalse =>
    have hdue : While q D (.queue j) fun s => (s.data.cone j = .waiting ∧
        s.data.ingredients (q.buyer j) = 1) ∧ Due q D (.queue j) .cond_sec s.data :=
      hw.while.and (while_due (by simp) _)
    have hwait : Goes q D (.queue j) (fun d => (d.cone j = .waiting ∧
        d.ingredients (q.buyer j) = 1) ∧ Due q D (.queue j) .cond_sec d)
        (Pthread.lock (.queue j) .mutex <| condWait (.queue j) .cond_sec .mutex <|
        Pthread.unlock (.queue j) .mutex <| .goto (.seek j 0)) :=
      lock hdue (wait (by simp) hw (hnext 0))
    exact hwait.weaken fun s h => ⟨h, due_of_target (by rw [h.1]; rfl)⟩

theorem prepare : Goes q D (.queue j) (fun d => ∃ came, d.cone j = .holding i came)
    (prepare q j i) := by
  have hheld : Known q D (.queue j) fun s => ∃ came, s.data.cone j = .holding i came :=
    known_cone j fun x => ∃ came, x = .holding i came
  refine poll (R := fun d => (∃ came, d.cone j = .holding i came) ∧ q.t_arr (q.buyer j) + 1 ≤ d.sec)
    (by simp) hheld rfl (fun _ h => h) (fun d h hp => ?_) ?_ fun d h hp => ⟨h, ?_⟩
  · intro j' T he hT
    injection he with he
    subst he
    obtain ⟨came, h⟩ := h
    rw [h] at hT
    injection hT with hT
    exact ⟨rfl, fun _ => hT ▸ of_decide_eq_true hp⟩
  · refine step (hheld.and (known_sec _ _)).while fun s s' _ hl hs _ h => ?_
    injection h with h
    subst h
    obtain ⟨⟨came, hcone⟩, ht⟩ := hs
    refine ⟨.write hl (.start hcone ht), rfl, ⟨hl.created, hl.awake, hl.finished⟩, ?_⟩
    simp [Label.At, Data.setCone]
  · exact Int.not_lt.1 (of_decide_eq_false hp)

theorem deliver : Goes q D (.queue j) (fun d => d.cone j = .retired i curr rank stop ∧
    d.owes (.queue j) .cond_swapn = true) (deliver j) := by
  have hover : Known q D (.queue j) fun s => s.data.cone j = .retired i curr rank stop :=
    known_cone j (· = .retired i curr rank stop)
  have hret : Freezes q D j (.retired i curr rank stop) (Parlour.returns (.queue j)) := by
    refine returns hover.while fun s j' hs he => ?_
    injection he with he
    rw [← he, hs]
    rfl
  exact unlock (hover.and (known_owes _ _)).while (signal hover.while hret fun _ h => h)

/-- The thread that has counted the last ice cream of the customer tells it. -/
theorem completes : Follows q D (.queue j) (fun s => (s.data.cone j = .counted i curr rank ∧
    s.data.owes (.queue j) .cond_swapn = true) ∧ s.owner .mutex = some (.queue j) ∧
    s.data.done (q.buyer j) = rank) (completes q j i curr rank) := by
  have hknown (x : Cone) : Known q D (.queue j) fun s =>
      (s.data.cone j = x ∧ s.data.owes (.queue j) .cond_swapn = true) ∧
        s.owner .mutex = some (.queue j) ∧ s.data.done (q.buyer j) = rank :=
    ((known_cone j (· = x)).and (known_owes _ _)).and
      (known_tables _ fun _ _ done => done (q.buyer j) = rank)
  refine step (hknown _).while fun s s' _ hl hs _ h => ?_
  injection h with h
  subst h
  refine ⟨.write hl (.complete hs.1.1), ?_⟩
  have hdeliver : Goes q D (.queue j) (fun d => d.cone j = .retired i curr rank s.data.sec ∧
      d.owes (.queue j) .cond_swapn = true) (Parlour.deliver j) := deliver
  refine look (hknown (.completed i curr rank s.data.sec)).while (fun s' _ hl' hs' => ?_) _
    ⟨⟨hl.created, hl.awake, hl.finished⟩, ⟨by simp [Data.setCone], hs.1.2⟩, hs.2⟩
  split
  case isTrue hn =>
    have hrank : rank = (q.num_icecream (q.buyer j) : Int) := hs'.2.2.symm.trans hn
    have hsay : Follows q D (.queue j) (fun s' => (s'.data.cone j = .completed i curr rank s.data.sec ∧
        s'.data.owes (.queue j) .cond_swapn = true) ∧ s'.owner .mutex = some (.queue j) ∧
        s'.data.done (q.buyer j) = rank)
        (say (q.buyer j) .collected (·.setCone j (.retired i curr rank s.data.sec)) <|
          Parlour.deliver j) := by
      refine write (fun _ => rfl) (hknown _).while hdeliver (fun s' _ h hd => .collect h.1.1 hrank hd)
        fun s' h => ⟨?_, h.1.2⟩
      simp [Data.setCone]
    exact hsay s' ⟨hl', hs'⟩
  case isFalse =>
    have hover : Follows q D (.queue j) (fun s' => (s'.data.cone j = .completed i curr rank s.data.sec ∧
        s'.data.owes (.queue j) .cond_swapn = true) ∧ s'.owner .mutex = some (.queue j) ∧
        s'.data.done (q.buyer j) = rank)
        (update (·.setCone j (.retired i curr rank s.data.sec)) <| Parlour.deliver j) := by
      refine write (fun _ => rfl) (hknown _).while hdeliver (fun s' _ h _ => .retired h.1.1)
        fun s' h => ⟨?_, h.1.2⟩
      simp [Data.setCone]
    exact hover s' ⟨hl', hs'⟩

theorem make : Freezes q D j (.started i curr) (make q j i curr) := by
  have hstarted : Known q D (.queue j) fun s => s.data.cone j = .started i curr :=
    known_cone j (· = .started i curr)
  have hready : Known q D (.queue j) fun s =>
      s.data.cone j = .started i curr ∧ curr + q.time j ≤ s.data.sec :=
    hstarted.and (known_sec _ _)
  have hreleased : Known q D (.queue j) fun s =>
      s.data.cone j = .released i curr ∧ s.owner .mutex = some (.queue j) :=
    (known_cone j (· = _)).and (known_owner _ _)
  refine poll (by simp) hstarted rfl (fun _ h => h) (fun d h hp => ?_) (R := fun d =>
    d.cone j = .started i curr ∧ curr + q.time j ≤ d.sec) (lock_own hready.while ?_)
    fun d h hp => ⟨h, Int.not_lt.1 (of_decide_eq_false hp)⟩
  · intro j' T he hT
    injection he with he
    subst he
    rw [h] at hT
    injection hT with hT
    exact ⟨rfl, fun _ => hT ▸ of_decide_eq_true hp⟩
  · refine write (fun _ => rfl) (hready.and (known_owner _ _)).while (step hreleased.while
      fun s s' _ hl hs _ h => ?_) (fun s _ h _ => .release h.1.1 h.2 h.1.2) fun s h => ⟨?_, h.2⟩
    · injection h with h
      subst h
      refine ⟨.write hl (.count hs.1 hs.2), completes _
        ⟨⟨hl.created, hl.awake, hl.finished⟩, ⟨?_, ?_⟩, hs.2, ?_⟩⟩
      · simp [Data.setCone, Data.owe]
      · simp [Data.owe]
      · simp [Data.setCone, Data.owe]
    · simp [Data.setCone]

end Follows

variable {q : Config} {D : Tid → Code → Memory → Prop}

theorem Label.known (l : Label) : Known q D l.tid fun s => l.At q s.data := by
  cases l with
  | tick => exact known_ticked
  | gate i => exact known_visit i (· = _)
  | comes i => exact known_visit i (· = _)
  | collects i => exact known_visit i (· = _)
  | allocated j => exact known_cone j (· = _)
  | turn j =>
    exact (known_cone j (· = _)).and (known_ingredients _ _ (· ≠ -1) fun _ h => h)
  | seek j i =>
    exact (known_cone j (· = _)).and (known_ingredients _ _ (· = 1) (by rintro v rfl; decide))
  | prepare j i => exact known_cone j fun x => ∃ came, x = .holding i came
  | make j i curr => exact known_cone j (· = _)
  | exits => exact known_unserved fun f => ∀ k, f k = none
  | close i => exact known_unserved fun f => ∀ k, i ≤ k → f k = none
  | _ => exact known_true

/-- Every thread does only what it can do. -/
theorem parlour_sound (q : Config) (D : Tid → Code → Memory → Prop) :
    (contract q D).Sound D (body q) := by
  refine ⟨fun t s => .lock (.refl t s), fun t l => ?_, fun _ _ _ _ _ => trivial, fun t l s _ h _ => ?_⟩
  · rintro s s' ⟨rfl, h⟩ hr
    exact ⟨rfl, l.known.while.stable s s' h hr⟩
  · obtain ⟨rfl, hl, hat⟩ := h
    cases l with
    | tick => exact Follows.counter s ⟨hl, hat⟩
    | starts i => exact Follows.starts i s ⟨hl, hat⟩
    | stops i => exact Follows.stops i s ⟨hl, hat⟩
    | gate i => exact Follows.gate s ⟨hl, hat⟩
    | comes i => exact Follows.comes s ⟨hl, hat⟩
    | collects i => exact Follows.collects s ⟨hl, hat⟩
    | allocated j => exact Follows.allocated s ⟨hl, hat⟩
    | turn j => exact Follows.turn s ⟨hl, hat⟩
    | seek j i => exact Follows.seek s ⟨hl, hat⟩
    | prepare j i => exact Follows.prepare s ⟨hl, hat⟩
    | make j i curr => exact Follows.make s ⟨hl, hat⟩
    | exits => exact Follows.exits s ⟨hl, hat⟩
    | close i => exact Follows.close i s ⟨hl, hat⟩

theorem parlour_start (q : Config) (D : Tid → Code → Memory → Prop) :
    (contract q D).Kept D (start q) := by
  refine ⟨⟨fun i h => (h rfl).elim, fun _ => rfl, fun _ h => ?_⟩, fun t => ?_⟩
  · cases h
  have hlive (h : created q t = true) : Live q t (start q).mem :=
    ⟨h, rfl, by simp [start, Data.start, h]⟩
  cases t with
  | counter => exact ⟨rfl, hlive rfl, rfl⟩
  | exit =>
    have hk : Goes q D .exit (fun d => ∀ k, d.unserved k = none)
        (lock .exit .mutex <| .goto .exits) :=
      Follows.lock (Known.while (known_unserved fun f => ∀ k, f k = none)) (.goto rfl fun _ h => h)
    exact hk _ ⟨hlive rfl, fun _ => rfl⟩
  | machine i =>
    dsimp only [start]
    split
    case isTrue hi =>
      have hk : Goes q D (.machine i) (fun _ => True) (lock (.machine i) .mutex_s <|
          .goto (.starts i)) := Follows.lock known_true.while (.goto rfl fun _ _ => trivial)
      exact hk _ ⟨hlive (decide_eq_true hi), trivial⟩
    case isFalse => trivial
  | arrival i =>
    dsimp only [start]
    split
    case isTrue hi => exact ⟨rfl, hlive (decide_eq_true hi), rfl⟩
    case isFalse => trivial
  | queue j =>
    dsimp only [start]
    split
    case isTrue hj => exact ⟨rfl, hlive (decide_eq_true hj), rfl⟩
    case isFalse => trivial

/-- What holds at the start and is kept by every step that a thread can do holds in every run. -/
theorem kept_by_runs {x : Threads Tid Memory Bool Label} (h : ReachIf (body q) D (start q) x)
    (I : Memory → Prop) (hstart : I (start q).mem)
    (hact : ∀ t s s', VisitInv q s → I s → Act q D t s s' → I s') : I x.mem := by
  induction h with
  | refl => exact hstart
  | step h hd hy ih =>
    have hk := (parlour_start q D).reach (parlour_sound q D) h
    exact hact _ _ _ hk.inv ih (hk.guar (parlour_sound q D) hd hy)

end Parlour

end PbsCow
