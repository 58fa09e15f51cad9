import PbsCow.InodeTableCalls

namespace PbsCow.Itable
set_option autoImplicit true

section

variable {P : Type} {s t : State P} {i : Nat} {p : P}

/-- A process is in no call, or in one on the entry. -/
def On (i : Nat) (c : Option Call) : Prop := ∀ c', c = some c' → c'.entry = some i

theorem on_none (i : Nat) : On i none := fun _ h => by cases h

theorem on_some {c : Call} (h : c.entry = some i) : On i (some c) := fun _ hc => Option.some.inj hc ▸ h

theorem enter_self (s : State P) (i : Nat) : s.enter i (s.inode i) (s.ptrs i) = s := by
  rw [State.enter, Function.update_eq_self, Function.update_eq_self]

section

variable [Fintype P]

theorem Inv.store (h : Inv s) (k : Key) (d : Dinode) : Inv (s.store k d) :=
  h.congr fun _ => ⟨rfl, rfl, fun _ _ _ => Iff.rfl⟩

/-- A process that is reading an inode has a pointer to its entry. -/
theorem Inv.reading (h : Inv s) (hc : s.calls p = some (.ilock i)) : (s.inode i).lock = some p ∧ 0 < s.ptrs i := by
  have hl := ((h.entry i).held p _ hc rfl).2 rfl
  refine ⟨hl, (h.entry i).use ⟨p, hl, ?_⟩⟩
  rw [hc]
  rfl

/-- A process that has locked an inode has a pointer to its entry. -/
theorem Inv.holding (h : Inv s) (hc : s.calls p = none) (hl : (s.inode i).lock = some p) : 0 < s.ptrs i := by
  apply (h.entry i).use ⟨p, hl, ?_⟩
  rw [hc]
  rfl

end

variable [DecidableEq P]

/-- Nothing happens to the other entries when a process goes on with a call on one. -/
theorem same_goes {c : Option Call} (x : Inode P) (n : Nat) (hold : On i (s.calls p)) (hnew : On i c) (hj : j ≠ i) :
    Same j s ((s.enter i x n).goes p c) where
  inode := Function.update_of_ne hj ..
  ptrs := Function.update_of_ne hj ..
  calls := by
    apply calls_update
    · intro c' hc he
      rw [hold c' hc] at he
      exact hj (Option.some.inj he).symm
    · intro c' hc he
      rw [hnew c' hc] at he
      exact hj (Option.some.inj he).symm

/-- Nothing happens to the entries when a process goes on with `ialloc`. -/
theorem same_ialloc (s : State P) (p : P) (j : Nat) {c : Option Call} (hold : ∀ c', s.calls p = some c' → c'.entry = none)
    (hnew : ∀ c', c = some c' → c'.entry = none) : Same j s (s.goes p c) where
  inode := rfl
  ptrs := rfl
  calls := by
    apply calls_update
    · intro c' hc he
      rw [hold c' hc] at he
      cases he
    · intro c' hc he
      rw [hnew c' hc] at he
      cases he

variable [Fintype P]

/-- A step in which a process goes on with a call on an entry. -/
theorem Inv.goes (h : Inv s) {c : Option Call} {x : Inode P} {n : Nat} (hold : On i (s.calls p)) (hnew : On i c)
    (hkey : x.key = (s.inode i).key) (hpos : 0 < (s.inode i).ref)
    (href : x.ref - n - (Call.puts i c).toNat = (s.inode i).ref - s.ptrs i - (Call.puts i (s.calls p)).toNat)
    (hlock : ∀ q, q ≠ p → (x.lock = some q ↔ (s.inode i).lock = some q))
    (hheld : ∀ c', c = some c' → (x.lock = some p ↔ c'.holds = some i))
    (huse : ∀ q, x.lock = some q → (q = p → Call.puts i c = false) → (q ≠ p → Call.puts i (s.calls q) = false) →
      0 < n) : Inv ((s.enter i x n).goes p c) := by
  obtain ⟨s', hs'⟩ : ∃ s', s' = (s.enter i x n).goes p c := ⟨_, rfl⟩
  have hinode : s'.inode i = x := by
    rw [hs']
    exact Function.update_self ..
  have hptrs : s'.ptrs i = n := by
    rw [hs']
    exact Function.update_self ..
  have hcalls : s'.calls = Function.update s.calls p c := by
    rw [hs']
    rfl
  have hself : Entry s' i := by
    apply (h.entry i).change hcalls
    · rw [hinode, hptrs]
      exact href
    · exact (h.entry i).range hpos
    · rw [hinode]
      exact hlock
    · rw [hinode]
      exact fun c' hc _ => hheld c' hc
    · intro hu
      obtain ⟨q, hl, hq⟩ := hu
      rw [hinode] at hl
      rw [hptrs]
      apply huse q hl
      · intro he
        rwa [hcalls, he, Function.update_self] at hq
      · intro hne
        rwa [hcalls, Function.update_of_ne hne] at hq
  rw [← hs']
  apply h.stay _ hself _ hpos
  · intro j hj
    rw [hs']
    exact same_goes x n hold hnew hj
  · rw [hinode]
    exact hkey

/-- Whatever a process does with pointers that it has, an inode has one entry, which counts the pointers. -/
theorem Inv.did (h : Inv s) {e : Event P} (hp : e.Proper s) (hd : Did e s t) : Inv t := by
  cases hd with
  | nothing => exact h
  | lookup hc hg => exact h.got hg
  | ialloc p k type hc h₀ =>
    apply (h.store k ⟨type, 0⟩).congr
    intro j
    apply same_ialloc
    · intro c' hc'
      rw [show (s.store k ⟨type, 0⟩).calls p = none from hc] at hc'
      cases hc'
    · intro c' hc'
      rw [← Option.some.inj hc']
      rfl
  | idup i =>
    have hpos := h.pos hp
    apply h.stay (fun j hj => same_enter s _ _ hj) _ (by rw [enter_inode]) hpos
    apply Entry.enter (h.entry i)
    · rw [Int.natCast_add]
      change (s.inode i).ref + 1 - _ = _
      omega
    · exact (h.entry i).range hpos
    · rfl
    · exact fun _ => Nat.succ_pos _
  | ilock p i hc hl =>
    have hptr : 0 < s.ptrs i := hp
    apply h.goes
    · rw [hc]
      exact on_none i
    · exact on_some rfl
    · rfl
    · exact h.pos hptr
    · rw [hc]
      rfl
    · intro q hq
      rw [hl]
      exact iff_of_false (fun he => hq (Option.some.inj he).symm) (Option.some_ne_none q).symm
    · intro c' hc'
      rw [← Option.some.inj hc']
      exact iff_of_true rfl rfl
    · exact fun _ _ _ _ => hptr
  | setNlink p i nlink hc hl =>
    have hptr := h.holding hc hl
    have hpos := h.pos hptr
    apply h.stay (fun j hj => same_enter s _ _ hj) _ (by rw [enter_inode]) hpos
    exact (h.entry i).enter rfl ((h.entry i).range hpos) rfl fun _ => hptr
  | iupdate p i hc hl => exact h.store _ _
  | iunlock p i hc hl =>
    have hpos := h.pos (h.holding hc hl)
    have hsame : s.enter i { s.inode i with lock := none } (s.ptrs i) =
        (s.enter i { s.inode i with lock := none } (s.ptrs i)).goes p none := by
      rw [State.goes, enter_calls, ← hc, Function.update_eq_self]
      rfl
    rw [hsame]
    apply h.goes
    · rw [hc]
      exact on_none i
    · exact on_none i
    · rfl
    · exact hpos
    · rw [hc]
    · intro q hq
      rw [hl]
      exact iff_of_false (Option.some_ne_none q).symm fun he => hq (Option.some.inj he).symm
    · intro c' hc'
      cases hc'
    · intro q hq
      cases hq
  | iput p i hc =>
    have hptr : 0 < s.ptrs i := hp.1
    have hpos := h.pos hptr
    apply h.stay (fun j hj => same_enter s _ _ hj) _ (by rw [enter_inode]) hpos
    apply Entry.enter (h.entry i)
    · change (s.inode i).ref - 1 - ((s.ptrs i - 1 : Nat) : Int) = _
      omega
    · exact (h.entry i).range hpos
    · rfl
    · intro hu
      have hmore := hp.2 hu
      omega
  | iputFree p i hc hr hv hl =>
    have hptr : 0 < s.ptrs i := hp.1
    apply h.goes
    · rw [hc]
      exact on_none i
    · exact on_some rfl
    · rfl
    · exact h.pos hptr
    · rw [hc]
      have hput : Call.puts i (some (.iputTrunc i)) = true := Call.puts_iff.2 (.inl rfl)
      rw [hput]
      change (s.inode i).ref - ((s.ptrs i - 1 : Nat) : Int) - 1 = (s.inode i).ref - s.ptrs i - 0
      omega
    · intro q hq
      rw [hl]
      exact iff_of_false (fun he => hq (Option.some.inj he).symm) (Option.some_ne_none q).symm
    · intro c' hc'
      rw [← Option.some.inj hc']
      exact iff_of_true rfl rfl
    · intro q hq hself _
      have hno := hself (Option.some.inj hq).symm
      cases hno.symm.trans (Call.puts_iff.2 (.inl rfl))
  | iallocGet p k hc hg =>
    apply Inv.got _ hg
    apply h.congr
    intro j
    apply same_ialloc
    · intro c' hc'
      rw [hc] at hc'
      rw [← Option.some.inj hc']
      rfl
    · intro c' hc'
      cases hc'
  | ilockHit p i hc hv =>
    obtain ⟨hl, hptr⟩ := h.reading hc
    rw [← enter_self s i]
    apply h.goes
    · rw [hc]
      exact on_some rfl
    · exact on_none i
    · rfl
    · exact h.pos hptr
    · rw [hc]
      rfl
    · exact fun _ _ => Iff.rfl
    · intro c' hc'
      cases hc'
    · exact fun _ _ _ _ => hptr
  | ilockRead p i hc ht =>
    obtain ⟨hl, hptr⟩ := h.reading hc
    apply h.goes
    · rw [hc]
      exact on_some rfl
    · exact on_none i
    · rfl
    · exact h.pos hptr
    · rw [hc]
      rfl
    · exact fun _ _ => Iff.rfl
    · intro c' hc'
      cases hc'
    · exact fun _ _ _ _ => hptr
  | iputTrunc p i hc =>
    have hput : Call.puts i (s.calls p) = true := by rw [hc, Call.puts_iff]; exact .inl rfl
    have hput' : Call.puts i (some (.iputUnlock i)) = true := Call.puts_iff.2 (.inr (.inl rfl))
    have hl := ((h.entry i).held p _ hc rfl).2 rfl
    have hgo : Inv ((s.enter i { s.inode i with type := 0 } (s.ptrs i)).goes p (some (.iputUnlock i))) := by
      apply h.goes
      · rw [hc]
        exact on_some rfl
      · exact on_some rfl
      · rfl
      · exact h.pos_of_puts hput
      · rw [hput, hput']
      · exact fun _ _ => Iff.rfl
      · intro c' hc'
        rw [← Option.some.inj hc']
        exact iff_of_true hl rfl
      · intro q hq hself _
        have hno := hself (Option.some.inj (hq.symm.trans hl))
        rw [hput'] at hno
        cases hno
    exact hgo.store (s.inode i).key ⟨0, (s.inode i).nlink⟩
  | iputUnlock p i hc =>
    have hput : Call.puts i (s.calls p) = true := by rw [hc, Call.puts_iff]; exact .inr (.inl rfl)
    have hput' : Call.puts i (some (.iputLast i)) = true := Call.puts_iff.2 (.inr (.inr rfl))
    have hl := ((h.entry i).held p _ hc rfl).2 rfl
    apply h.goes
    · rw [hc]
      exact on_some rfl
    · exact on_some rfl
    · rfl
    · exact h.pos_of_puts hput
    · rw [hput, hput']
    · intro q hq
      rw [hl]
      exact iff_of_false (Option.some_ne_none q).symm fun he => hq (Option.some.inj he).symm
    · intro c' hc'
      rw [← Option.some.inj hc']
      exact iff_of_false (Option.some_ne_none p).symm (Option.some_ne_none i).symm
    · intro q hq
      cases hq
  | iputLast p i hc =>
    have hput : Call.puts i (s.calls p) = true := by rw [hc, Call.puts_iff]; exact .inr (.inr rfl)
    have hl : (s.inode i).lock ≠ some p := fun he => by cases ((h.entry i).held p _ hc rfl).1 he
    apply h.goes
    · rw [hc]
      exact on_some rfl
    · exact on_none i
    · rfl
    · exact h.pos_of_puts hput
    · rw [hput]
      change (s.inode i).ref - 1 - (s.ptrs i : Int) - 0 = (s.inode i).ref - s.ptrs i - 1
      omega
    · exact fun _ _ => Iff.rfl
    · intro c' hc'
      cases hc'
    · intro q hq _ hother
      exact (h.entry i).use ⟨q, hq, hother fun he => hl (he ▸ hq)⟩

end

end PbsCow.Itable
