import PbsCow.ParlourRuns

namespace PbsCow
set_option autoImplicit true

namespace Parlour

open Pthread

variable {q : Config} {D : Tid → Code → Memory → Prop} {t : Tid} {k : Code} {L R : Data → Prop}

theorem due_of_ne (h : ∀ j, t ≠ .queue j) : Due q D t c d := fun j _ he => (h j he).elim

theorem due_of_target (h : (d.cone j).target q j = none) : Due q D (.queue j) c d := by
  intro j' T he hT
  injection he with he
  subst he
  rw [h] at hT
  cases hT

namespace Follows

theorem poll {p : Data → Bool} (ht : t ≠ .counter) (hL : Known q D t fun s => L s.data)
    (hl : l.tid = t) (hat : ∀ d, L d → l.At q d) (hdue : ∀ d, L d → p d = true → Due q D t c d)
    (hk : Goes q D t R k) (hR : ∀ d, L d → p d = false → R d) :
    Goes q D t L (poll t c p l k) := by
  have hgo : Goes q D t L (.goto l) := .goto hl fun s => hat s.data
  have hwhile : While q D t fun s => L s.data ∧ Due q D t c s.data := hL.while.and (while_due ht c)
  have hwait : Follows q D t (fun s => L s.data ∧ Due q D t c s.data)
      (Pthread.lock t .mutex <| condWait t c .mutex <| Pthread.unlock t .mutex <| .goto l) :=
    lock (L := fun d => L d ∧ Due q D t c d) hwhile (wait ht hL (unlock hL.while hgo))
  refine look hL.while fun s _ hlive hs => ?_
  split
  case isTrue hp => exact hwait s ⟨hlive, hs, hdue _ hs hp⟩
  case isFalse hp => exact hk s ⟨hlive, hR _ hs (Bool.eq_false_iff.2 hp)⟩

theorem watch {p : Data → Bool} (ht : ∀ j, t ≠ .queue j) (hc : t ≠ .counter)
    (hL : Known q D t fun s => L s.data) (hl : l.tid = t) (hat : ∀ d, L d → l.At q d)
    (hk : Goes q D t R k) (hR : ∀ d, L d → p d = false → R d) :
    Goes q D t L (watch t c m p l k) := by
  have hgo : Goes q D t L (.goto l) := .goto hl fun s => hat s.data
  refine look hL.while fun s _ hlive hs => ?_
  split
  case isTrue hp => exact wait hc hL hgo s ⟨hlive, hs, due_of_ne ht⟩
  case isFalse hp => exact hk s ⟨hlive, hR _ hs (Bool.eq_false_iff.2 hp)⟩

theorem counter : Follows q D .counter (fun s => s.data.ticked = false) counter := by
  have htrue : Known q D .counter fun _ => True := known_true
  refine step known_ticked.while fun s s' _ hl hp hd h => ?_
  injection h with h
  subst h
  refine ⟨.write hl (.tick hp hd), ?_⟩
  have hk : Goes q D .counter (fun _ => True)
      (Parlour.signal .cond_sec (fun d => { d with ticked := false }) (.goto .tick)) := by
    refine step htrue.while fun s s' _ hl _ _ h => ?_
    injection h with h
    subst h
    exact ⟨.tock rfl, rfl, ⟨hl.created, wake_waits .cond_sec hl.awake, hl.finished⟩, rfl⟩
  exact hk _ ⟨⟨hl.created, hl.awake, hl.finished⟩, trivial⟩

theorem idle_returns (h : ∀ j, t ≠ .queue j) : Goes q D t (fun _ => True) (Parlour.returns t) :=
  returns known_true.while fun _ j _ he => (h j he).elim

theorem starts (i : Nat) : Goes q D (.machine i) (fun _ => True) (starts q i) := by
  have hgo : Goes q D (.machine i) (fun _ => True) (.goto (.stops i)) := .goto rfl fun _ _ => trivial
  exact watch (L := fun _ => True) (R := fun _ => True) (by simp) (by simp) known_true rfl
    (fun _ _ => trivial) (unlock known_true.while (lock known_true.while hgo)) fun _ _ _ => trivial

theorem stops (i : Nat) : Goes q D (.machine i) (fun _ => True) (stops q i) := by
  have hret : Goes q D (.machine i) (fun _ => True) (Parlour.returns (.machine i)) :=
    idle_returns (by simp)
  exact watch (L := fun _ => True) (R := fun _ => True) (by simp) (by simp) known_true rfl
    (fun _ _ => trivial) (unlock known_true.while hret) fun _ _ _ => trivial

theorem exits : Goes q D .exit (fun d => ∀ k, d.unserved k = none) (exits q) := by
  have hknown : Known q D .exit fun s => ∀ k, s.data.unserved k = none :=
    known_unserved fun f => ∀ k, f k = none
  have hgo : Goes q D .exit (fun d => ∀ k, d.unserved k = none) (.goto (.close 0)) :=
    .goto rfl fun _ h k _ => h k
  exact watch (R := fun d => ∀ k, d.unserved k = none) (by simp) (by simp) hknown rfl (fun _ h => h)
    (unlock hknown.while hgo) fun _ h _ => h

/-- `exit_handler` looks at a customer, and prints what it has found. -/
theorem examine (i : Nat) :
    Goes q D .exit (fun d => ∀ k, i ≤ k → d.unserved k = none) (examine q i) := by
  have hgo : Goes q D .exit (fun d => ∀ k, i + 1 ≤ k → d.unserved k = none)
      (.goto (.close (i + 1))) := .goto rfl fun _ h => h
  have hsay : Follows q D .exit (fun s => ((∀ k, i + 1 ≤ k → s.data.unserved k = none) ∧
      s.data.unserved i ≠ none) ∧ .notServiced ∉ s.data.said i)
      (say i .notServiced id (.goto (.close (i + 1)))) :=
    write (fun _ => rfl) ((known_unserved fun f => (∀ k, i + 1 ≤ k → f k = none) ∧ f i ≠ none).and
      (known_said i)).while hgo (fun _ _ h hd => .notServiced h.1.2 h.2 hd) fun _ h => h.1.1
  have hknown : Known q D .exit fun s => ∀ k, i ≤ k → s.data.unserved k = none :=
    known_unserved fun f => ∀ k, i ≤ k → f k = none
  refine step hknown.while fun s s' hi hl hp hd h => ?_
  injection h with h
  subst h
  have hnot : .notServiced ∉ s.data.said i := fun hm => hi.unserved i hm (hp i (Nat.le_refl i))
  dsimp only
  split
  case isTrue hn =>
    refine ⟨.write hl (.examine (hp i (Nat.le_refl i)) hn hd), hsay _
      ⟨⟨hl.created, hl.awake, hl.finished⟩, ⟨fun k hk => ?_, by simp⟩, hnot⟩⟩
    have hne : k ≠ i := Nat.ne_of_gt hk
    simpa [hne] using hp k (Nat.le_of_succ_le hk)
  case isFalse =>
    exact ⟨.lock (.refl _ s), hgo s ⟨hl, fun k hk => hp k (Nat.le_of_succ_le hk)⟩⟩

theorem close (i : Nat) : Goes q D .exit (fun d => ∀ k, i ≤ k → d.unserved k = none) (close q i) := by
  have hret : Goes q D .exit (fun d => ∀ k, i ≤ k → d.unserved k = none)
      (Parlour.returns .exit) :=
    returns (Known.while (known_unserved fun f => ∀ k, i ≤ k → f k = none)) fun _ j _ he => by cases he
  exact Contract.Keeps.ite (examine i) hret

section Arrivals

variable {i : Nat} {v : Visit}

/-- The thread of customer `i` is as far as `v` tells. -/
abbrev Visits (q : Config) (D : Tid → Code → Memory → Prop) (i : Nat) (v : Visit) (k : Code) : Prop :=
  Goes q D (.arrival i) (fun d => d.visit i = v) k

theorem gate : Visits q D i .new (gate i) := by
  have hnew : Known q D (.arrival i) fun s => s.data.visit i = .new := known_visit i (· = .new)
  have howes : Known q D (.arrival i) fun s =>
      s.data.visit i = .new ∧ s.data.owes (.arrival i) .verfastswap = true :=
    hnew.and (known_owes _ _)
  have hgo : Visits q D i .new (.goto (.comes i)) := .goto rfl fun _ h => h
  refine poll (by simp) hnew rfl (fun _ h => h) (fun _ _ _ => due_of_ne (by simp))
    (R := fun d => d.visit i = .new) (lock hnew.while ?_) fun _ h _ => h
  refine write (fun _ => rfl) hnew.while (unlock howes.while (signal hnew.while (lock hnew.while hgo) fun _ h => h))
    (fun _ _ _ _ => .pass) fun s h => ⟨h, ?_⟩
  simp [Data.owe]

theorem advance (hp : v.passed = false)
    (hx : v.stage = .given ∨ v.stage = .unfulfilled ∨ v.stage = .away)
    (hk : Visits q D i { v with passed := true } k) : Visits q D i v (advance i k) := by
  have hv : Known q D (.arrival i) fun s => s.data.visit i = v := known_visit i (· = v)
  refine look hv.while fun s _ hl hs => ?_
  have hstore : Visits q D i v (storeCind i s.data.cind k) := by
    refine write (fun _ => rfl) hv.while hk (fun s _ h hd => .cind ?_ ?_ hd) fun s h => ?_
    · rw [h, hp]
    · rw [h]
      exact hx
    · simp [h]
  exact hstore s ⟨hl, hs⟩

theorem vacate (hp : v.left = false)
    (hx : v.stage = .given ∨ v.stage = .unfulfilled ∨ v.stage = .away ∧ v.passed = true)
    (hk : Visits q D i { v with left := true } k) : Visits q D i v (vacate i k) := by
  have hv : Known q D (.arrival i) fun s => s.data.visit i = v := known_visit i (· = v)
  refine look hv.while fun s _ hl hs => ?_
  have hstore : Visits q D i v (storeSpawned i s.data.spawned k) := by
    refine write (fun _ => rfl) hv.while hk (fun s _ h hd => .spawned ?_ ?_ hd) fun s h => ?_
    · rw [h, hp]
    · rw [h]
      exact hx
    · simp [h]
  exact hstore s ⟨hl, hs⟩

theorem leave (m : Mutex) : Visits q D i v (leave i m) := by
  have hv : Known q D (.arrival i) fun s => s.data.visit i = v := known_visit i (· = v)
  exact unlock hv.while (returns hv.while fun _ j _ he => by cases he)

theorem exclude (hx : x = .unfulfilled ∨ x = .away) :
    Visits q D i ⟨x, true, true, false⟩ (exclude i (Parlour.leave i .mutex)) := by
  have hv : Known q D (.arrival i) fun s => s.data.visit i = ⟨x, true, true, false⟩ :=
    known_visit i (· = _)
  have hleave : Visits q D i ⟨x, true, true, true⟩ (Parlour.leave i .mutex) := leave .mutex
  exact write (fun _ => rfl) hv.while hleave (fun s _ h _ => .exclude h hx) fun s h => by simp [h]

theorem goAway : Visits q D i ⟨.full, false, false, false⟩ (goAway i) := by
  have hv : Known q D (.arrival i) fun s => s.data.visit i = ⟨.full, false, false, false⟩ :=
    known_visit i (· = _)
  have hgo : Visits q D i ⟨.away, false, false, false⟩ (Parlour.advance i <| Parlour.vacate i <|
      Parlour.exclude i <| Parlour.leave i .mutex) :=
    advance rfl (.inr (.inr rfl)) (vacate rfl (.inr (.inr ⟨rfl, rfl⟩)) (exclude (.inr rfl)))
  exact lock hv.while (write (fun _ => rfl) hv.while hgo (fun s _ h hd => .away h hd) fun s h => by
    simp [Data.setStage, h])

/-- The customer is rejected while the thread owns `mutex`. -/
theorem refuse : Follows q D (.arrival i) (fun s => s.data.visit i = ⟨.entered, false, false, false⟩ ∧
    s.owner .mutex = some (.arrival i)) (refuse q i) := by
  have hv (v : Visit) : While q D (.arrival i) fun s =>
      s.data.visit i = v ∧ s.owner .mutex = some (.arrival i) :=
    ((known_visit i (· = v)).and (known_owner _ _)).while
  have hgo : Visits q D i ⟨.unfulfilled, false, false, false⟩ (Parlour.vacate i <|
      Parlour.advance i <| Parlour.exclude i <| Parlour.leave i .mutex) :=
    vacate rfl (.inr (.inl rfl)) (advance rfl (.inr (.inl rfl)) (exclude (.inl rfl)))
  refine write (fun _ => by rfl) (hv _)
    (Q := fun s => s.data.visit i = ⟨.unfulfilled, false, false, false⟩ ∧
      s.owner .mutex = some (.arrival i)) ?_ (fun s _ h hd => .unfulfilled h.1 hd) fun s h => ?_
  · exact write (fun _ => rfl) (hv _) hgo (fun s _ h _ => .settle h.1 h.2) fun s h => h.1
  · refine ⟨?_, h.2⟩
    simp [Data.setStage, h.1]

/-- The customer gets the ingredients while the thread owns `mutex`. -/
theorem give : Follows q D (.arrival i) (fun s => s.data.visit i = ⟨.entered, false, false, false⟩ ∧
    s.owner .mutex = some (.arrival i) ∧ enough s.data.map (q.want i) = true)
    (give i (q.want i)) := by
  have hv : Known q D (.arrival i) fun s => s.data.visit i = ⟨.given, false, false, false⟩ :=
    known_visit i (· = _)
  have hgo : Visits q D i ⟨.given, true, false, false⟩ (.goto (.collects i)) := .goto rfl fun _ h => h
  have hgiven : Visits q D i ⟨.given, false, false, false⟩ (Pthread.unlock (.arrival i) .mutex <|
      Pthread.broadcast .cond_swapn <| Pthread.lock (.arrival i) .mutex_swapn <|
      Parlour.advance i <| .goto (.collects i)) :=
    unlock hv.while (broadcast hv.while (lock hv.while (advance rfl (.inl rfl) hgo)))
  refine write (fun _ => rfl) ((known_visit i (· = _)).and (known_tables _ fun map _ _ =>
    enough map (q.want i) = true)).while hgiven (fun s _ h _ => .give h.1 h.2.1 h.2.2) fun s h => ?_
  simp [Data.setStage, h.1]

theorem tally {k : Map → Code} (hk : Visits q D i v (k (l.foldl insertOrUpdateTopping want))) :
    Visits q D i v (tally i l want k) := by
  have hv : Known q D (.arrival i) fun s => s.data.visit i = v := known_visit i (· = v)
  induction l generalizing want with
  | nil => exact hk
  | cons x l ih => exact lock hv.while (unlock hv.while (ih hk))

theorem order : Visits q D i ⟨.entered, false, false, false⟩ (order q i) := by
  have hv : Known q D (.arrival i) fun s => s.data.visit i = ⟨.entered, false, false, false⟩ :=
    known_visit i (· = _)
  refine lock hv.while (unlock hv.while (tally (lock_own hv.while ?_)))
  refine look (hv.and (known_owner _ _)).while fun s _ hl hs => ?_
  split
  case isTrue he => exact give s ⟨hl, hs.1, hs.2, he⟩
  case isFalse => exact refuse s ⟨hl, hs⟩

theorem room : Visits q D i ⟨.arrived, false, false, false⟩ (room q i) := by
  have hv : Known q D (.arrival i) fun s => s.data.visit i = ⟨.arrived, false, false, false⟩ :=
    known_visit i (· = _)
  refine step hv.while fun s s' _ hl hs hd h => ?_
  injection h with h
  subst h
  refine ⟨.write hl (.room hs hd), ?_⟩
  have hlive (x : Stage) : Live q (.arrival i) { s with data := s.data.setStage i x } :=
    ⟨hl.created, hl.awake, hl.finished⟩
  split
  case isTrue hlt => exact order _ ⟨hlive _, by simp [Data.setStage, hs]⟩
  case isFalse hlt => exact goAway _ ⟨hlive _, by simp [Data.setStage, hs]⟩

theorem comes : Visits q D i .new (comes q i) := by
  have hv : Known q D (.arrival i) fun s => s.data.visit i = .new := known_visit i (· = _)
  have htime : Known q D (.arrival i) fun s => s.data.visit i = .new ∧ q.t_arr i ≤ s.data.sec :=
    hv.and (known_sec _ _)
  refine watch (R := fun d => d.visit i = .new ∧ q.t_arr i ≤ d.sec) (by simp) (by simp) hv rfl
    (fun _ h => h) (unlock htime.while ?_) fun d h hp => ⟨h, ?_⟩
  · exact write (fun _ => rfl) htime.while room (fun s _ h _ => .arrive h.1 h.2) fun s h => by
      simp [Data.setStage, h.1, Visit.new]
  · exact Int.not_lt.1 (of_decide_eq_false hp)

theorem collects : Visits q D i ⟨.given, true, false, false⟩ (collects q i) := by
  have hv : Known q D (.arrival i) fun s => s.data.visit i = ⟨.given, true, false, false⟩ :=
    known_visit i (· = _)
  exact watch (R := fun d => d.visit i = ⟨.given, true, false, false⟩) (by simp) (by simp) hv rfl
    (fun _ h => h) (vacate rfl (.inl rfl) (leave .mutex_swapn)) fun _ h _ => h

end Arrivals

end Follows

end Parlour

end PbsCow
