import Mathlib.Algebra.BigOperators.Group.Finset.Piecewise
import PbsCow.InodeTable
import PbsCow.Lib.Runs

namespace PbsCow.Itable
set_option autoImplicit true

/-- The entry that a call is on. -/
def Call.entry : Call → Option Nat
  | .ialloc _ => none
  | .ilock i => some i
  | .iputTrunc i => some i
  | .iputUnlock i => some i
  | .iputLast i => some i

/-- The entry that a call has locked. -/
def Call.holds : Call → Option Nat
  | .ilock i => some i
  | .iputTrunc i => some i
  | .iputUnlock i => some i
  | _ => none

theorem Call.puts_iff : Call.puts i c = true ↔
    c = some (.iputTrunc i) ∨ c = some (.iputUnlock i) ∨ c = some (.iputLast i) := by
  cases c with
  | none => simp [Call.puts]
  | some c => cases c <;> simp [Call.puts]

section

variable {P : Type}

/-- The entry and the calls on it are as they were. -/
structure Same (i : Nat) (s s' : State P) : Prop where
  inode : s'.inode i = s.inode i
  ptrs : s'.ptrs i = s.ptrs i
  calls : ∀ p c, c.entry = some i → (s'.calls p = some c ↔ s.calls p = some c)

theorem Same.refl (i : Nat) (s : State P) : Same i s s := ⟨rfl, rfl, fun _ _ _ => Iff.rfl⟩

theorem Same.puts {s s' : State P} (h : Same i s s') (p : P) : Call.puts i (s'.calls p) = Call.puts i (s.calls p) := by
  rw [Bool.eq_iff_iff, Call.puts_iff, Call.puts_iff, h.calls p _ rfl, h.calls p _ rfl, h.calls p _ rfl]

theorem Same.inUse {s s' : State P} (h : Same i s s') : s'.InUse i ↔ s.InUse i := by
  rw [State.InUse, State.InUse, h.inode]
  exact exists_congr fun p => and_congr_right fun _ => by rw [h.puts p]

/-- A process goes on with a call on an entry, or to another. -/
theorem calls_update [DecidableEq P] {s : State P} {p : P} {c : Option Call} (h : ∀ c', s.calls p = some c' → c'.entry ≠ some i)
    (h' : ∀ c', c = some c' → c'.entry ≠ some i) (q : P) (c' : Call) (hc : c'.entry = some i) :
    Function.update s.calls p c q = some c' ↔ s.calls q = some c' := by
  by_cases hq : q = p
  · rw [hq, Function.update_self]
    exact iff_of_false (fun he => h' c' he hc) fun he => h c' he hc
  · rw [Function.update_of_ne hq]

variable [Fintype P]

theorem Same.refs {s s' : State P} (h : Same i s s') : s'.refs i = s.refs i := by
  rw [State.refs, State.refs, h.ptrs, State.puts, State.puts]
  simp only [h.puts]

/-- The pointers that are being put, when one process goes on. -/
theorem puts_update [DecidableEq P] (s s' : State P) {p : P} {c : Option Call} (h : s'.calls = Function.update s.calls p c) (i : Nat) :
    s'.puts i + (Call.puts i (s.calls p)).toNat = s.puts i + (Call.puts i c).toNat := by
  have hite (b : Bool) : b.toNat = if b = true then 1 else 0 := by cases b <;> rfl
  have hmem : p ∈ Finset.univ := Finset.mem_univ p
  rw [State.puts, State.puts, h, Finset.card_filter, Finset.card_filter, ← Finset.add_sum_erase _ _ hmem,
    ← Finset.add_sum_erase _ (fun q => if Call.puts i (s.calls q) = true then 1 else 0) hmem, Function.update_self]
  have hrest : ∑ q ∈ Finset.univ.erase p, (if Call.puts i (Function.update s.calls p c q) = true then 1 else 0) =
      ∑ q ∈ Finset.univ.erase p, if Call.puts i (s.calls q) = true then 1 else 0 := by
    apply Finset.sum_congr rfl
    intro q hq
    rw [Function.update_of_ne (Finset.ne_of_mem_erase hq)]
  rw [hrest, hite, hite]
  omega

theorem puts_pos {s : State P} {p : P} (h : Call.puts i (s.calls p) = true) : 0 < s.puts i :=
  Finset.card_pos.2 ⟨p, Finset.mem_filter.2 ⟨Finset.mem_univ p, h⟩⟩

/-- An entry counts the pointers to it, and is in use only by those that have one. -/
structure Entry (s : State P) (i : Nat) : Prop where
  ref : (s.inode i).ref = s.refs i
  range : 0 < (s.inode i).ref → i < NINODE
  use : s.InUse i → 0 < s.ptrs i
  held : ∀ p c, s.calls p = some c → c.entry = some i → ((s.inode i).lock = some p ↔ c.holds = some i)

theorem Entry.same {s s' : State P} (h : Entry s i) (hs : Same i s s') : Entry s' i where
  ref := by rw [hs.inode, hs.refs, h.ref]
  range := by
    rw [hs.inode]
    exact h.range
  use := by
    rw [hs.inUse, hs.ptrs]
    exact h.use
  held p c hc hi := by
    rw [hs.inode]
    exact h.held p c ((hs.calls p c hi).1 hc) hi

/-- The entry after its pointers, its lock and one process have changed. -/
theorem Entry.change [DecidableEq P] {s s' : State P} {p : P} {c : Option Call} (h : Entry s i)
    (hcalls : s'.calls = Function.update s.calls p c)
    (href : (s'.inode i).ref - s'.ptrs i - (Call.puts i c).toNat =
      (s.inode i).ref - s.ptrs i - (Call.puts i (s.calls p)).toNat) (hlt : i < NINODE)
    (hlock : ∀ q, q ≠ p → ((s'.inode i).lock = some q ↔ (s.inode i).lock = some q))
    (hheld : ∀ c', c = some c' → c'.entry = some i → ((s'.inode i).lock = some p ↔ c'.holds = some i))
    (huse : s'.InUse i → 0 < s'.ptrs i) : Entry s' i where
  ref := by
    have hold := h.ref
    have hputs := puts_update s s' hcalls i
    rw [State.refs] at hold ⊢
    omega
  range _ := hlt
  use := huse
  held q c' hc hi := by
    rw [hcalls] at hc
    by_cases hq : q = p
    · rw [hq, Function.update_self] at hc
      rw [hq]
      exact hheld c' hc hi
    · rw [Function.update_of_ne hq] at hc
      rw [hlock q hq]
      exact h.held q c' hc hi

/-- An inode has one entry. -/
structure Inv (s : State P) : Prop where
  entry : ∀ i, Entry s i
  unique : ∀ i j, 0 < (s.inode i).ref → 0 < (s.inode j).ref → (s.inode i).key = (s.inode j).key → i = j

variable {s s' : State P} {i : Nat} {p : P}

/-- A step on one entry. -/
theorem Inv.step (h : Inv s) (hother : ∀ j, j ≠ i → Same j s s') (hself : Entry s' i)
    (hkey : 0 < (s'.inode i).ref → ∀ j, j ≠ i → 0 < (s.inode j).ref → (s.inode j).key ≠ (s'.inode i).key) : Inv s' := by
  constructor
  · intro j
    by_cases hj : j = i
    · rw [hj]
      exact hself
    · exact (h.entry j).same (hother j hj)
  · intro j k hj hk he
    by_cases hji : j = i
    · by_cases hki : k = i
      · rw [hji, hki]
      · rw [hji] at hj he
        rw [(hother k hki).inode] at hk he
        exact absurd he.symm (hkey hj k hki hk)
    · rw [(hother j hji).inode] at hj he
      by_cases hki : k = i
      · rw [hki] at hk he
        exact absurd he (hkey hk j hji hj)
      · rw [(hother k hki).inode] at hk he
        exact h.unique j k hj hk he

/-- The key stays, and the entry was not free. -/
theorem Inv.stay (h : Inv s) (hother : ∀ j, j ≠ i → Same j s s') (hself : Entry s' i)
    (hkey : (s'.inode i).key = (s.inode i).key) (hpos : 0 < (s.inode i).ref) : Inv s' := by
  apply h.step hother hself
  intro _ j hj hr he
  exact hj (h.unique j i hr hpos (he.trans hkey))

theorem Inv.congr (h : Inv s) (hsame : ∀ j, Same j s s') : Inv s' := by
  constructor
  · exact fun j => (h.entry j).same (hsame j)
  · intro j k
    rw [(hsame j).inode, (hsame k).inode]
    exact h.unique j k

theorem Inv.pos (h : Inv s) (hp : 0 < s.ptrs i) : 0 < (s.inode i).ref := by
  rw [(h.entry i).ref, State.refs]
  omega

theorem Inv.pos_of_puts (h : Inv s) (hp : Call.puts i (s.calls p) = true) : 0 < (s.inode i).ref := by
  have hpos := puts_pos hp
  rw [(h.entry i).ref, State.refs]
  omega

end

section

variable {P : Type} {E : Panic → Prop}

/-- The state with another entry, and so many pointers to it. -/
def State.enter (s : State P) (i : Nat) (x : Inode P) (n : Nat) : State P :=
  { s with inode := Function.update s.inode i x, ptrs := Function.update s.ptrs i n }

section

variable (s : State P) (i : Nat) (x : Inode P) (n : Nat)

@[simp] theorem enter_inode : (s.enter i x n).inode i = x := Function.update_self ..

@[simp] theorem enter_ptrs : (s.enter i x n).ptrs i = n := Function.update_self ..

@[simp] theorem enter_calls : (s.enter i x n).calls = s.calls := rfl

@[simp] theorem enter_disk : (s.enter i x n).disk = s.disk := rfl

theorem enter_enter (y : Inode P) (m : Nat) : (s.enter i x m).enter i y n = s.enter i y n := by
  rw [State.enter, State.enter, State.enter, Function.update_idem, Function.update_idem]

variable {i}

theorem same_enter {j : Nat} (hj : j ≠ i) : Same j s (s.enter i x n) :=
  ⟨Function.update_of_ne hj .., Function.update_of_ne hj .., fun _ _ _ => Iff.rfl⟩

end

/-- What `iget` does: it takes the entry of the inode, or one that is free. -/
inductive Got (s : State P) (k : Key) : State P → Prop
  | again (i : Nat) (hr : 0 < (s.inode i).ref) (hk : (s.inode i).key = k) (hlt : i < NINODE) :
      Got s k (s.enter i { s.inode i with ref := (s.inode i).ref + 1 } (s.ptrs i + 1))
  | new (i : Nat) (hnone : ∀ j, j < NINODE → 0 < (s.inode j).ref → (s.inode j).key ≠ k) (hr : (s.inode i).ref = 0)
      (hlt : i < NINODE) :
      Got s k (s.enter i { s.inode i with key := k, ref := 1, valid := false } (s.ptrs i + 1))

/-- The state in which a process goes on. -/
def State.goes [DecidableEq P] (s : State P) (p : P) (c : Option Call) : State P :=
  { s with calls := Function.update s.calls p c }

/-- The state with another inode on the disk. -/
def State.store (s : State P) (k : Key) (d : Dinode) : State P := { s with disk := Function.update s.disk k d }

/-- What a process does, where it does not panic. -/
inductive Did [DecidableEq P] : Event P → State P → State P → Prop
  | nothing : Did e s s
  | lookup (hc : s.calls p = none) (hg : Got s k t) : Did (.lookup p k) s t
  | ialloc (p : P) (k : Key) (type : BitVec 16) (hc : s.calls p = none) (h₀ : (s.disk k).type = 0) :
      Did (.ialloc p k type) s ((s.store k ⟨type, 0⟩).goes p (some (.ialloc k)))
  | idup (i : Nat) : Did (.idup i) s (s.enter i { s.inode i with ref := (s.inode i).ref + 1 } (s.ptrs i + 1))
  | ilock (p : P) (i : Nat) (hc : s.calls p = none) (hl : (s.inode i).lock = none) :
      Did (.ilock p i) s ((s.enter i { s.inode i with lock := some p } (s.ptrs i)).goes p (some (.ilock i)))
  | setNlink (p : P) (i : Nat) (nlink : BitVec 16) (hc : s.calls p = none) (hl : (s.inode i).lock = some p) :
      Did (.setNlink p i nlink) s (s.enter i { s.inode i with nlink := nlink } (s.ptrs i))
  | iupdate (p : P) (i : Nat) (hc : s.calls p = none) (hl : (s.inode i).lock = some p) :
      Did (.iupdate p i) s (s.store (s.inode i).key ⟨(s.inode i).type, (s.inode i).nlink⟩)
  | iunlock (p : P) (i : Nat) (hc : s.calls p = none) (hl : (s.inode i).lock = some p) :
      Did (.iunlock p i) s (s.enter i { s.inode i with lock := none } (s.ptrs i))
  | iput (p : P) (i : Nat) (hc : s.calls p = none) :
      Did (.iput p i) s (s.enter i { s.inode i with ref := (s.inode i).ref - 1 } (s.ptrs i - 1))
  | iputFree (p : P) (i : Nat) (hc : s.calls p = none) (hr : (s.inode i).ref = 1) (hv : (s.inode i).valid = true)
      (hl : (s.inode i).lock = none) :
      Did (.iput p i) s
        ((s.enter i { s.inode i with lock := some p } (s.ptrs i - 1)).goes p (some (.iputTrunc i)))
  | iallocGet (p : P) (k : Key) (hc : s.calls p = some (.ialloc k)) (hg : Got (s.goes p none) k t) :
      Did (.resume p) s t
  | ilockHit (p : P) (i : Nat) (hc : s.calls p = some (.ilock i)) (hv : (s.inode i).valid = true) :
      Did (.resume p) s (s.goes p none)
  | ilockRead (p : P) (i : Nat) (hc : s.calls p = some (.ilock i)) (ht : (s.disk (s.inode i).key).type ≠ 0) :
      Did (.resume p) s ((s.enter i { s.inode i with
        type := (s.disk (s.inode i).key).type, nlink := (s.disk (s.inode i).key).nlink, valid := true }
        (s.ptrs i)).goes p none)
  | iputTrunc (p : P) (i : Nat) (hc : s.calls p = some (.iputTrunc i)) :
      Did (.resume p) s (((s.enter i { s.inode i with type := 0 } (s.ptrs i)).store (s.inode i).key
        ⟨0, (s.inode i).nlink⟩).goes p (some (.iputUnlock i)))
  | iputUnlock (p : P) (i : Nat) (hc : s.calls p = some (.iputUnlock i)) :
      Did (.resume p) s ((s.enter i { s.inode i with valid := false, lock := none } (s.ptrs i)).goes p
        (some (.iputLast i)))
  | iputLast (p : P) (i : Nat) (hc : s.calls p = some (.iputLast i)) :
      Did (.resume p) s ((s.enter i { s.inode i with ref := (s.inode i).ref - 1 } (s.ptrs i)).goes p none)

/-- What a process panics for. -/
inductive Fails : Event P → State P → Panic → Prop
  | noInodes : Fails e s .noInodes
  | iunlock (hc : s.calls p = none) (hn : (s.inode i).lock ≠ some p ∨ (s.inode i).ref < 1) :
      Fails (.iunlock p i) s .iunlock
  | ilock (hr : (s.inode i).ref < 1) : Fails (.ilock p i) s .ilock
  | noType (p : P) (i : Nat) (hc : s.calls p = some (.ilock i)) (ht : (s.disk (s.inode i).key).type = 0)
      (hv : (s.inode i).valid = false) : Fails (.resume p) s .noType
  | schedLocks (p q : P) (i : Nat) (hc : s.calls p = none) (hr : (s.inode i).ref = 1) (hl : (s.inode i).lock = some q) :
      Fails (.iput p i) s .schedLocks

variable {s t : State P} {i : Nat}

theorem wp_setInode {f : Inode P → Inode P} : Wp (setInode i f) E Q s ↔ Q ⟨⟩ (s.enter i (f (s.inode i)) (s.ptrs i)) := by
  have hsame : ({ s with inode := Function.update s.inode i (f (s.inode i)) } : State P) =
      s.enter i (f (s.inode i)) (s.ptrs i) := by
    rw [State.enter, Function.update_eq_self]
  rw [setInode, wp_modify, hsame]

theorem wp_point : Wp (point i) E Q s ↔ Q ⟨⟩ (s.enter i (s.inode i) (s.ptrs i + 1)) := by
  have hsame : ({ s with ptrs := Function.update s.ptrs i (s.ptrs i + 1) } : State P) =
      s.enter i (s.inode i) (s.ptrs i + 1) := by
    rw [State.enter, Function.update_eq_self]
  rw [point, wp_modify, hsame]

theorem wp_unpoint : Wp (unpoint i) E Q s ↔ Q ⟨⟩ (s.enter i (s.inode i) (s.ptrs i - 1)) := by
  have hsame : ({ s with ptrs := Function.update s.ptrs i (s.ptrs i - 1) } : State P) =
      s.enter i (s.inode i) (s.ptrs i - 1) := by
    rw [State.enter, Function.update_eq_self]
  rw [unpoint, wp_modify, hsame]

theorem wp_iget (s : State P) (k : Key) : Wp (iget k) (fun e => e = .noInodes) (fun _ t => Got s k t) s := by
  rw [iget, wp_bind, wp_get]
  cases hf : (List.range NINODE).find? fun i => decide ((s.inode i).ref > 0 ∧ (s.inode i).key = k) with
  | some i =>
    have hlt := List.mem_range.1 (List.mem_of_find?_eq_some hf)
    have hi := List.find?_some hf
    rw [decide_eq_true_eq] at hi
    rw [wp_bind, wp_setInode, wp_point, enter_enter, enter_inode, enter_ptrs]
    exact .again i hi.1 hi.2 hlt
  | none =>
    have hnone (j : Nat) (hj : j < NINODE) (hr : 0 < (s.inode j).ref) : (s.inode j).key ≠ k := by
      intro hk
      have hno := List.find?_eq_none.1 hf j (List.mem_range.2 hj)
      exact hno (decide_eq_true ⟨hr, hk⟩)
    cases hf' : (List.range NINODE).find? fun i => decide ((s.inode i).ref = 0) with
    | none => exact rfl
    | some i =>
      have hlt := List.mem_range.1 (List.mem_of_find?_eq_some hf')
      have hi := List.find?_some hf'
      rw [decide_eq_true_eq] at hi
      rw [wp_bind, wp_setInode, wp_point, enter_enter, enter_inode, enter_ptrs]
      exact .new i hnone hi hlt

section

variable {p : P}

theorem wp_setDisk {k : Key} {d : Dinode} : Wp (setDisk k d) E Q s ↔ Q ⟨⟩ (s.store k d) := Iff.rfl

theorem wp_whenIdle {x : Sys P Unit} (hx : s.calls p = none → Wp x E Q s) (hs : Q ⟨⟩ s) : Wp (whenIdle p x) E Q s := by
  rw [whenIdle, wp_bind, wp_get]
  cases hc : s.calls p with
  | none => exact hx hc
  | some c => exact wp_pure.2 hs

variable [DecidableEq P]

theorem wp_putCall {c : Option Call} : Wp (putCall p c) E Q s ↔ Q ⟨⟩ (s.goes p c) := Iff.rfl

theorem wp_ilockRead (hc : s.calls p = some (.ilock i)) :
    Wp (ilockRead p i) (Fails (.resume p) s) (fun _ t => Did (.resume p) s t) s := by
  rw [ilockRead, wp_bind, wp_get]
  apply Wp.ite
  · intro hv
    rw [wp_bind, wp_setInode]
    apply Wp.ite
    · intro ht
      exact .noType p i hc ht (Bool.eq_false_iff.2 hv)
    · intro ht
      rw [wp_putCall]
      exact .ilockRead p i hc ht
  · intro hv
    rw [wp_putCall]
    exact .ilockHit p i hc (not_not.1 hv)

theorem wp_step (e : Event P) (s : State P) : Wp (step e) (Fails e s) (fun _ t => Did e s t) s := by
  cases e with
  | lookup p k =>
    apply wp_whenIdle _ .nothing
    intro hc
    apply ((wp_iget s k).weaken fun e he => by rw [he]; exact .noInodes).mono
    exact fun _ t hg => .lookup hc hg
  | ialloc p k type =>
    apply wp_whenIdle _ .nothing
    intro hc
    rw [iallocTurn, wp_bind, wp_get]
    apply Wp.ite
    · intro h₀
      rw [wp_bind, wp_setDisk, wp_putCall]
      exact .ialloc p k type hc h₀
    · exact fun _ => .nothing
  | idup i =>
    change Wp (idup i) _ _ s
    rw [idup, wp_bind, wp_setInode, wp_point, enter_enter, enter_inode, enter_ptrs]
    exact .idup i
  | ilock p i =>
    apply wp_whenIdle _ .nothing
    intro hc
    rw [ilock, wp_bind, wp_get]
    apply Wp.ite
    · exact fun hr => .ilock hr
    · intro _
      apply Wp.ite
      · exact fun _ => .nothing
      · intro hl
        rw [wp_bind, wp_setInode, wp_putCall]
        exact .ilock p i hc (Option.not_isSome_iff_eq_none.1 hl)
  | setNlink p i nlink =>
    apply wp_whenIdle _ .nothing
    intro hc
    rw [setNlink, wp_bind, wp_get]
    apply Wp.ite
    · intro hl
      rw [wp_setInode]
      exact .setNlink p i nlink hc hl
    · exact fun _ => .nothing
  | iupdate p i =>
    apply wp_whenIdle _ .nothing
    intro hc
    rw [iupdate, wp_bind, wp_get]
    apply Wp.ite
    · exact fun hl => .iupdate p i hc hl
    · exact fun _ => .nothing
  | iunlock p i =>
    apply wp_whenIdle _ .nothing
    intro hc
    rw [iunlock, wp_bind, wp_get]
    apply Wp.ite
    · exact fun hn => .iunlock hc hn
    · intro hn
      rw [not_or, not_not] at hn
      rw [wp_setInode]
      exact .iunlock p i hc hn.1
  | iput p i =>
    apply wp_whenIdle _ .nothing
    intro hc
    rw [iput, wp_bind, wp_get, wp_bind, wp_unpoint]
    apply Wp.ite
    · intro hn
      apply Wp.ite
      · intro hl
        obtain ⟨q, hq⟩ := Option.isSome_iff_exists.1 hl
        exact .schedLocks p q i hc hn.1 hq
      · intro hl
        rw [wp_bind, wp_setInode, enter_enter, enter_inode, enter_ptrs, wp_putCall]
        exact .iputFree p i hc hn.1 hn.2.1 (Option.not_isSome_iff_eq_none.1 hl)
    · intro _
      rw [wp_setInode, enter_enter, enter_inode, enter_ptrs]
      exact .iput p i hc
  | resume p =>
    rw [step, wp_bind, wp_get]
    cases hc : s.calls p with
    | none => exact wp_pure.2 .nothing
    | some c =>
      cases c with
      | ialloc k =>
        rw [wp_bind, wp_putCall]
        apply ((wp_iget _ k).weaken fun e he => by rw [he]; exact .noInodes).mono
        exact fun _ t hg => .iallocGet p k hc hg
      | ilock i => exact wp_ilockRead hc
      | iputTrunc i =>
        change Wp (iputTrunc p i) _ _ s
        rw [iputTrunc, wp_bind, wp_setInode, wp_bind, wp_get, wp_bind, wp_setDisk, enter_inode, wp_putCall]
        exact .iputTrunc p i hc
      | iputUnlock i =>
        change Wp (iputUnlock p i) _ _ s
        rw [iputUnlock, wp_bind, wp_setInode, wp_putCall]
        exact .iputUnlock p i hc
      | iputLast i =>
        change Wp (iputLast p i) _ _ s
        rw [iputLast, wp_bind, wp_setInode, wp_putCall]
        exact .iputLast p i hc

end

variable [Fintype P]

/-- An entry when the calls are the same: the pointers are counted, and whoever has it locked keeps it. -/
theorem Entry.enter (h : Entry s i) {x : Inode P} {n : Nat} (href : x.ref - n = (s.inode i).ref - s.ptrs i)
    (hlt : i < NINODE) (hlock : x.lock = (s.inode i).lock) (huse : s.InUse i → 0 < n) : Entry (s.enter i x n) i := by
  have hold := h.ref
  rw [State.refs] at hold
  constructor
  · rw [enter_inode, State.refs, enter_ptrs]
    change x.ref = ((n + s.puts i : Nat) : Int)
    omega
  · exact fun _ => hlt
  · rw [enter_ptrs]
    intro hu
    apply huse
    obtain ⟨p, hl, hp⟩ := hu
    rw [enter_inode, hlock] at hl
    exact ⟨p, hl, hp⟩
  · rw [enter_inode, hlock]
    exact h.held

theorem Inv.got (h : Inv s) (hg : Got s k t) : Inv t := by
  cases hg with
  | again i hr hk hlt =>
    have hself := (h.entry i).enter (x := { s.inode i with ref := (s.inode i).ref + 1 }) (n := s.ptrs i + 1)
      (by rw [Int.natCast_add]; change (s.inode i).ref + 1 - _ = _; omega) hlt rfl fun _ => Nat.succ_pos _
    exact h.stay (fun j hj => same_enter s _ _ hj) hself (by rw [enter_inode]) hr
  | new i hnone hr hlt =>
    have hself := (h.entry i).enter (x := { s.inode i with key := k, ref := 1, valid := false }) (n := s.ptrs i + 1)
      (by rw [hr, Int.natCast_add]; change (1 : Int) - _ = _; omega) hlt rfl fun _ => Nat.succ_pos _
    apply h.step (fun j hj => same_enter s _ _ hj) hself
    intro _ j _ hj
    rw [enter_inode]
    exact hnone j ((h.entry j).range hj) hj

end

end PbsCow.Itable
