import PbsCow.BufCacheRefs
import PbsCow.Lib.Runs

namespace PbsCow.Bcache
set_option autoImplicit true

theorem firstAlong_some {next : Nat → Nat} (h : firstAlong next head p fuel b = some (some b')) : p b' = true := by
  induction fuel generalizing b with
  | zero => cases h
  | succ fuel ih =>
    rw [firstAlong] at h
    split at h
    · cases h
    · split at h
      · next hp =>
        cases h
        exact hp
      · exact ih h

namespace Inv

/-- A buffer without users is given to another block, which no buffer has. -/
theorem recycle (h : Inv s) (hc : s.calls t = none) (hb : b < NBUF) (hr : (s.buf b).refcnt = 0)
    (hk : ∀ b', b' < NBUF → (s.buf b').block ≠ k) :
    Inv { s with
      buf := Function.update s.buf b { s.buf b with block := k, valid := false, refcnt := 1 }
      calls := Function.update s.calls t (some (.bread b k)) } := by
  obtain ⟨hlock, hcalls, hpins⟩ := h.idle hb hr
  obtain ⟨henter, hother⟩ := callers_enter hc (.bread b k)
  have hsame {b' : Nat} (hne : b' ≠ b) :
      Function.update s.buf b { s.buf b with block := k, valid := false, refcnt := 1 } b' = s.buf b' :=
    Function.update_of_ne hne ..
  refine ⟨h.ring, fun b₁ b₂ h₁ h₂ => ?_, fun b' hb' => ?_, h.few, fun t' c hc' => ?_, fun t' b' k' hc' => ?_,
    fun t' b' hl => ?_, fun p hp => ?_⟩
  · intro hdev he
    by_cases e₁ : b₁ = b
    · by_cases e₂ : b₂ = b
      · rw [e₁, e₂]
      · subst e₁
        simp only [hsame e₂, Function.update_self] at he
        exact (hk b₂ h₂ he.symm).elim
    · by_cases e₂ : b₂ = b
      · subst e₂
        simp only [hsame e₁, Function.update_self] at he
        exact (hk b₁ h₁ he).elim
      · simp only [hsame e₁, hsame e₂] at hdev he
        exact h.unique b₁ b₂ h₁ h₂ hdev he
  · rw [users_eq]
    by_cases hne : b' = b
    · subst hne
      have husers := h.refcnt_toNat hb
      rw [hr, users_eq, hlock] at husers
      have hzero : callers s.calls b' = 0 ∧ pinCount s.pins b' = 0 := by
        have h0 : (0 : BitVec 32).toNat = 0 := rfl
        rw [h0] at husers
        omega
      dsimp only [Call.buf] at henter
      simp only [Function.update_self, hlock, henter, hzero.1, hzero.2]
      rfl
    · simp only [hsame hne, hother b' hne]
      exact h.refcnt b' hb'
  · rcases update_calls hc' with hc' | hc'
    · exact h.calls t' c hc'
    · injection hc' with hc'
      subst hc'
      exact hb
  · rcases update_calls hc' with hc' | hc'
    · have hne : b' ≠ b := hcalls t' _ hc'
      simp only [hsame hne]
      exact h.waits t' b' k' hc'
    · injection hc' with hc'
      cases hc'
      simp
  · by_cases hne : b' = b
    · subst hne
      simp only [Function.update_self, hlock] at hl
      cases hl
    · simp only [hsame hne] at hl ⊢
      exact h.holds t' b' hl
  · simp only [hsame (hpins p hp)]
    exact h.pinned p hp

theorem bget (h : Inv s) (hc : s.calls t = none) : Wp (bget t k) (· ≠ .noFuel) (fun _ s' => Inv s') s := by
  rw [Bcache.bget, wp_bind, wp_get]
  obtain ⟨l, hl, hperm⟩ := h.ring
  have hmem (b : Nat) : b ∈ l ↔ b < NBUF := hperm.mem_iff.trans List.mem_range
  have hlen : l.length < NBUF + 1 := by
    rw [hperm.length_eq, List.length_range]
    exact Nat.lt_succ_self NBUF
  have hhead : head ∉ l := (List.nodup_cons.1 hl.nodup).1
  rw [hl.links.firstAlong hhead _ hlen]
  cases hfind : l.find? fun b => (s.buf b).block = k with
  | some b =>
    have hb : b < NBUF := (hmem b).1 (List.mem_of_find?_eq_some hfind)
    have hk : (s.buf b).block = k := by simpa using List.find?_some hfind
    dsimp only
    rw [wp_bind, setBuf, wp_modify, putCall, wp_modify]
    dsimp only
    obtain ⟨henter, hother⟩ := callers_enter hc (.bread b k)
    refine h.edit hb rfl ?_ hother (fun _ _ => rfl) (fun t' c hc' => ?_) (fun _ _ => rfl)
      (fun t hl => (h.holds t b hl).2) h.few fun p hp => .inl hp
    · dsimp only [Call.buf] at henter
      rw [h.refcnt b hb, users_eq, henter, ← Nat.add_assoc, Nat.add_right_comm _ 1, BitVec.ofNat_add _ 1]
      rfl
    · rcases update_calls hc' with hc' | hc'
      · exact .inl hc'
      · injection hc' with hc'
        subst hc'
        refine .inr ⟨rfl, fun b' k' he => ?_⟩
        cases he
        exact hk
  | none =>
    have hk (b : Nat) (hb : b < NBUF) : (s.buf b).block ≠ k := by
      simpa using List.find?_eq_none.1 hfind b ((hmem b).2 hb)
    dsimp only
    rw [hl.links.reverse.firstAlong (by simpa using hhead) _ (by simpa using hlen)]
    cases hfree : l.reverse.find? fun b => (s.buf b).refcnt = 0 with
    | none => exact wp_throw.2 (by simp)
    | some b =>
      have hb : b < NBUF := (hmem b).1 (List.mem_reverse.1 (List.mem_of_find?_eq_some hfree))
      have hr : (s.buf b).refcnt = 0 := by simpa using List.find?_some hfree
      exact h.recycle hc hb hr hk

end Inv

theorem foldl_pushFront {s : State} (h : Looped s.next s.prev head l) (hn : (bs ++ head :: l).Nodup) :
    ∃ next prev, bs.foldl State.pushFront s = { s with next := next, prev := prev } ∧
      Looped next prev head (bs.reverse ++ l) := by
  induction bs generalizing s l with
  | nil => exact ⟨s.next, s.prev, rfl, h⟩
  | cons b bs ih =>
    obtain ⟨hb, hn⟩ := List.nodup_cons.1 hn
    have hbl : b ∉ head :: l := fun hmem => hb (List.mem_append_right bs hmem)
    have hbh : b ≠ head := fun he => hbl (he ▸ List.mem_cons_self)
    have hpush : Looped (s.pushFront b).next (s.pushFront b).prev head (b :: l) := by
      have hring := h.push hbl
      simp only [State.pushFront]
      rwa [Function.update_of_ne (Ne.symm hbh)]
    have hswap : (bs ++ head :: b :: l).Nodup := by
      refine (((List.Perm.swap b head l).append_left bs).trans List.perm_middle).nodup_iff.2 ?_
      exact List.nodup_cons.2 ⟨hb, hn⟩
    obtain ⟨next, prev, he, hring⟩ := ih hpush hswap
    refine ⟨next, prev, he, ?_⟩
    rw [List.reverse_cons, List.append_assoc]
    exact hring

theorem Inv.binit : Inv binit := by
  have hnil : Looped (Function.update (fun _ => 0) head head) (Function.update (fun _ => 0) head head) head [] :=
    .nil (Function.update_self ..) (Function.update_self ..)
  have hn : (List.range NBUF ++ [head]).Nodup := by
    rw [show head = NBUF by rfl, ← List.range_succ]
    exact List.nodup_range
  obtain ⟨next, prev, he, hring⟩ := foldl_pushFront (s := .zero) hnil hn
  rw [Bcache.binit, he]
  refine ⟨⟨_, hring, ?_⟩, ?_, ?_, ?_, ?_, ?_, ?_, ?_⟩
  · rw [List.append_nil]
    exact List.reverse_perm _
  · intro b b' _ _ hdev
    exact (hdev rfl).elim
  · intro b _
    simp [users_eq, callers, pinCount, State.zero]
  · exact Nat.zero_le _
  · intro t c hc
    cases hc
  · intro t b k hc
    cases hc
  · intro t b hl
    cases hl
  · intro p hp
    cases hp

/-- A process takes a step, or the log. -/
theorem Inv.step (h : Inv s) (hp : Event.Paired s ev) : Wp (step ev) (· ≠ .noFuel) (fun _ s' => Inv s') s := by
  have weaken {x : Sys Unit} (hw : Wp x NoError (fun _ s' => Inv s') s) : Wp x (· ≠ .noFuel) (fun _ s' => Inv s') s :=
    hw.weaken fun _ he => he.elim
  cases ev with
  | bread t k =>
    rw [Bcache.step, wp_bind, wp_get]
    cases hc : s.calls t with
    | none => exact h.bget hc
    | some c => exact wp_pure.2 h
  | fill t b => exact weaken h.breadFill
  | brelse t b =>
    rw [Bcache.step, wp_bind, wp_get]
    cases hc : s.calls t with
    | none =>
      apply (h.brelse hc).weaken
      rintro _ rfl he
      cases he
    | some c => exact wp_pure.2 h
  | resume t =>
    rw [Bcache.step, wp_bind, wp_get]
    cases hc : s.calls t with
    | none => exact wp_pure.2 h
    | some c =>
      cases c with
      | bread b k => exact weaken (h.acquiresleep hc)
      | brelse b => exact weaken (h.brelsePut hc)
  | bpin b => exact weaken (h.bpin hp.1 hp.2)
  | bunpin b =>
    obtain ⟨k, hk⟩ := hp
    exact weaken (h.bunpin hk)

/-- Only a buffer that is not in use is given to another block. -/
def State.Recycles (s s' : State) : Prop := ∀ b, (s'.buf b).block ≠ (s.buf b).block → (s.buf b).refcnt = 0

theorem recycles_update {s s' : State} (hbuf : s'.buf = Function.update s.buf b x)
    (hx : x.block ≠ (s.buf b).block → (s.buf b).refcnt = 0) : s.Recycles s' := by
  intro b' hne
  rw [hbuf] at hne
  by_cases hb : b' = b
  · subst hb
    rw [Function.update_self] at hne
    exact hx hne
  · rw [Function.update_of_ne hb] at hne
    exact (hne rfl).elim

theorem State.Recycles.refl (s : State) : s.Recycles s := fun _ hne => (hne rfl).elim

theorem bget_recycles : Wp (bget t k) AnyError (fun _ s' => s.Recycles s') s := by
  rw [bget, wp_bind, wp_get]
  cases firstAlong s.next head (fun b => (s.buf b).block = k) (NBUF + 1) (s.next head) with
  | none => exact wp_throw.2 trivial
  | some found =>
    cases found with
    | some b => exact recycles_update rfl fun hne => (hne rfl).elim
    | none =>
      dsimp only
      cases hfree : firstAlong s.prev head (fun b => (s.buf b).refcnt = 0) (NBUF + 1) (s.prev head) with
      | none => exact wp_throw.2 trivial
      | some found =>
        cases found with
        | none => exact wp_throw.2 trivial
        | some b => exact recycles_update rfl fun _ => by simpa using firstAlong_some hfree

theorem step_recycles (ev : Event) (s : State) : Wp (step ev) AnyError (fun _ s' => s.Recycles s') s := by
  cases ev with
  | bread t k =>
    rw [step, wp_bind, wp_get]
    cases s.calls t with
    | none => exact bget_recycles
    | some c => exact wp_pure.2 (.refl s)
  | fill t b =>
    rw [step, breadFill, wp_bind, wp_get]
    exact .ite (fun _ => recycles_update rfl fun hne => (hne rfl).elim) fun _ => wp_pure.2 (.refl s)
  | brelse t b =>
    rw [step, wp_bind, wp_get]
    cases s.calls t with
    | none =>
      dsimp only
      rw [brelse, wp_bind, wp_get]
      exact .ite (fun _ => wp_throw.2 trivial) fun _ => recycles_update rfl fun hne => (hne rfl).elim
    | some c => exact wp_pure.2 (.refl s)
  | resume t =>
    rw [step, wp_bind, wp_get]
    cases s.calls t with
    | none => exact wp_pure.2 (.refl s)
    | some c =>
      cases c with
      | bread b k =>
        dsimp only
        rw [acquiresleep, wp_bind, wp_get]
        exact .ite (fun _ => wp_pure.2 (.refl s)) fun _ => recycles_update rfl fun hne => (hne rfl).elim
      | brelse b =>
        dsimp only
        rw [brelsePut, wp_bind, setBuf, wp_modify, wp_bind, putCall, wp_modify, wp_bind, wp_get]
        exact .ite (fun _ => recycles_update rfl fun hne => (hne rfl).elim) fun _ =>
          recycles_update rfl fun hne => (hne rfl).elim
  | bpin b => exact recycles_update rfl fun hne => (hne rfl).elim
  | bunpin b => exact recycles_update rfl fun hne => (hne rfl).elim

/-- What the users of the buffer cache rely on. -/
structure State.Coherent (s : State) : Prop where
  list : ∃ l, Links s.next s.prev head l head ∧ l.Perm (List.range NBUF)
  inverse : ∀ b, b ≤ NBUF → s.prev (s.next b) = b ∧ s.next (s.prev b) = b
  unique : ∀ b b', b < NBUF → b' < NBUF → (s.buf b).block.dev ≠ 0 → (s.buf b).block = (s.buf b').block → b = b'
  refcnt : ∀ b, b < NBUF → (s.buf b).refcnt.toNat = s.users b
  holder : ∀ t b, (s.buf b).lock = some t → b < NBUF ∧ (s.buf b).block = s.asked b
  waiter : ∀ t b k, s.calls t = some (.bread b k) → b < NBUF ∧ (s.buf b).block = k
  pin : ∀ b k, (b, k) ∈ s.pins → b < NBUF ∧ (s.buf b).block = k

theorem Inv.coherent (h : Inv s) : s.Coherent := by
  obtain ⟨l, hl, hperm⟩ := h.ring
  refine ⟨⟨l, hl.links, hperm⟩, fun b hb => hl.inverse ?_, h.unique, fun b hb => h.refcnt_toNat hb, h.holds,
    fun t b k hc => ⟨h.calls t _ hc, h.waits t b k hc⟩, fun b k hp => h.pinned _ hp⟩
  rcases Nat.lt_or_eq_of_le hb with hb | rfl
  · exact List.mem_cons_of_mem _ (hperm.mem_iff.2 (List.mem_range.2 hb))
  · exact List.mem_cons_self

/-- However processes and the log take turns, the cache is coherent, and the next step recycles no
buffer that is in use. -/
theorem cache_coherent (h : Meets step Event.Paired evs binit) :
    Wp (runWith step evs) (· ≠ .noFuel) (fun _ s => s.Coherent ∧
      ∀ ev, Wp (step ev) AnyError (fun _ s' => s.Recycles s') s) binit := by
  have hrun := h.run (I := Inv) Inv.binit fun ev _ s hs hp => hs.step hp
  exact hrun.mono fun _ s hs => ⟨hs.coherent, fun ev => step_recycles ev s⟩

theorem cache_coherent_pinned :
    Wp (runWith step [.bpin 3, .bunpin 3, .bread ⟨0, by decide⟩ ⟨1, 5⟩, .resume ⟨0, by decide⟩]) (· ≠ .noFuel)
      (fun _ s => s.Coherent ∧ ∀ ev, Wp (step ev) AnyError (fun _ s' => s.Recycles s') s) binit := by
  have hpin : Wp (step (.bpin 3)) NoError (fun _ s => ∃ k, (3, k) ∈ s.pins) binit :=
    ⟨(binit.buf 3).block, List.mem_cons_self⟩
  have hmeets (k : Block) : Meets step Event.Paired
      [.bpin 3, .bunpin 3, .bread ⟨0, by decide⟩ k, .resume ⟨0, by decide⟩] binit := by
    refine ⟨⟨by decide, by decide⟩, fun _ s hs => ⟨hpin.of_eq_ok hs, fun _ s' _ => .of_forall (fun ev hev s => ?_) s'⟩⟩
    simp only [List.mem_cons, List.not_mem_nil, or_false] at hev
    rcases hev with rfl | rfl <;> trivial
  -- the elaborator would run the program on a block that is a literal
  generalize (⟨1, 5⟩ : Block) = k
  exact cache_coherent (hmeets k)

end PbsCow.Bcache
