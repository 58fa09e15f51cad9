import Mathlib.Data.List.Perm.Basic
import PbsCow.BufCache
import PbsCow.Lib.Counting
import PbsCow.Lib.Ring

namespace PbsCow.Bcache
set_option autoImplicit true

/-- Whether a process without or with a call is about to hold the buffer, or has just held it. -/
def Call.on (b : Nat) (c : Option Call) : Bool := c.any fun c => c.buf = b

@[simp] theorem Call.on_none (b : Nat) : Call.on b none = false := rfl

@[simp] theorem Call.on_some (b : Nat) (c : Call) : Call.on b (some c) = decide (c.buf = b) := rfl

/-- How many processes are about to hold the buffer, or have just held it. -/
def callers (calls : Fin NPROC → Option Call) (b : Nat) : Nat :=
  (Finset.univ.filter fun t => Call.on b (calls t)).card

def pinCount (pins : List (Nat × Block)) (b : Nat) : Nat := pins.countP fun p => p.1 = b

theorem users_eq (s : State) (b : Nat) :
    s.users b = (s.buf b).lock.isSome.toNat + callers s.calls b + pinCount s.pins b := rfl

/-- One process changes its call. -/
theorem callers_update (calls : Fin NPROC → Option Call) (t : Fin NPROC) (c : Option Call) (b : Nat) :
    callers (Function.update calls t c) b + (Call.on b (calls t)).toNat = callers calls b + (Call.on b c).toNat :=
  Finset.card_filter_update (Call.on b) calls t c

theorem callers_enter (hc : calls t = none) (c : Call) : callers (Function.update calls t (some c)) c.buf =
    callers calls c.buf + 1 ∧ ∀ b, b ≠ c.buf → callers (Function.update calls t (some c)) b = callers calls b := by
  have h (b : Nat) := callers_update calls t (some c) b
  simp only [hc, Call.on_none, Call.on_some, Bool.toNat_false, Nat.add_zero] at h
  refine ⟨?_, fun b hb => ?_⟩
  · rw [h, decide_eq_true rfl, Bool.toNat_true]
  · rw [h, decide_eq_false (Ne.symm hb), Bool.toNat_false, Nat.add_zero]

theorem callers_leave (hc : calls t = some c) : callers calls c.buf = callers (Function.update calls t none) c.buf + 1 ∧
    ∀ b, b ≠ c.buf → callers (Function.update calls t none) b = callers calls b := by
  have h (b : Nat) := callers_update calls t none b
  simp only [hc, Call.on_none, Call.on_some, Bool.toNat_false, Nat.add_zero] at h
  refine ⟨?_, fun b hb => ?_⟩
  · rw [← h, decide_eq_true rfl, Bool.toNat_true]
  · rw [← h, decide_eq_false (Ne.symm hb), Bool.toNat_false, Nat.add_zero]

theorem pinCount_cons (p : Nat × Block) (pins : List (Nat × Block)) (b : Nat) :
    pinCount (p :: pins) b = pinCount pins b + (decide (p.1 = b)).toNat := by
  rw [pinCount, List.countP_cons, pinCount]
  split <;> simp_all

theorem pinCount_append (l₁ l₂ : List (Nat × Block)) (b : Nat) :
    pinCount (l₁ ++ l₂) b = pinCount l₁ b + pinCount l₂ b := List.countP_append

theorem pinCount_erase {pins : List (Nat × Block)} (hp : (b, k) ∈ pins) :
    pinCount pins b = pinCount (pins.eraseP fun p => p.1 = b) b + 1 ∧
      (∀ b', b' ≠ b → pinCount (pins.eraseP fun p => p.1 = b) b' = pinCount pins b') ∧
        (pins.eraseP fun p => p.1 = b).length ≤ pins.length := by
  obtain ⟨q, l₁, l₂, _, hq, rfl, he⟩ := List.exists_of_eraseP (p := fun p => p.1 = b) hp (by simp)
  have hqb : q.1 = b := by simpa using hq
  refine ⟨?_, fun b' hne => ?_, List.length_eraseP_le⟩
  · rw [he, pinCount_append, pinCount_append, pinCount_cons, hq, Bool.toNat_true, Nat.add_assoc]
  · rw [he, pinCount_append, pinCount_append, pinCount_cons, hqb, decide_eq_false (Ne.symm hne)]
    rfl

theorem ofNat_succ_sub (n : Nat) : BitVec.ofNat 32 (n + 1) - 1 = BitVec.ofNat 32 n := by
  rw [BitVec.ofNat_add]
  exact BitVec.add_sub_cancel ..

/-- The invariant of the buffer cache. -/
structure Inv (s : State) : Prop where
  ring : ∃ l, Looped s.next s.prev head l ∧ l.Perm (List.range NBUF)
  unique : ∀ b b', b < NBUF → b' < NBUF → (s.buf b).block.dev ≠ 0 → (s.buf b).block = (s.buf b').block → b = b'
  refcnt : ∀ b, b < NBUF → (s.buf b).refcnt = BitVec.ofNat 32 (s.users b)
  few : s.pins.length ≤ LOGSIZE
  calls : ∀ t c, s.calls t = some c → c.buf < NBUF
  waits : ∀ t b k, s.calls t = some (.bread b k) → (s.buf b).block = k
  holds : ∀ t b, (s.buf b).lock = some t → b < NBUF ∧ (s.buf b).block = s.asked b
  pinned : ∀ p ∈ s.pins, p.1 < NBUF ∧ (s.buf p.1).block = p.2

namespace Inv

theorem users_lt (h : Inv s) (b : Nat) : s.users b < 2 ^ 32 := by
  have hlock : (s.buf b).lock.isSome.toNat ≤ 1 := Bool.toNat_le _
  have hcalls : (Finset.univ.filter fun t => s.inCall b t).card ≤ 64 := by
    apply (Finset.card_le_univ _).trans
    rw [Fintype.card_fin]
    rfl
  have hpins : (s.pins.countP fun p => p.1 = b) ≤ 30 := List.countP_le_length.trans h.few
  rw [State.users]
  omega

theorem refcnt_toNat (h : Inv s) (hb : b < NBUF) : (s.buf b).refcnt.toNat = s.users b := by
  rw [h.refcnt b hb, BitVec.toNat_ofNat]
  exact Nat.mod_eq_of_lt (h.users_lt b)

/-- A buffer without users. -/
theorem idle (h : Inv s) (hb : b < NBUF) (hr : (s.buf b).refcnt = 0) :
    (s.buf b).lock = none ∧ (∀ t c, s.calls t = some c → c.buf ≠ b) ∧ ∀ p ∈ s.pins, p.1 ≠ b := by
  have hu := h.refcnt_toNat hb
  rw [hr, users_eq] at hu
  have hzero : (0 : BitVec 32).toNat = 0 := rfl
  refine ⟨?_, fun t c hc he => ?_, fun p hp he => ?_⟩
  · cases hl : (s.buf b).lock with
    | none => rfl
    | some t =>
      rw [hl, hzero, Option.isSome_some, Bool.toNat_true] at hu
      omega
  · have hpos : 0 < callers s.calls b := by
      refine Finset.card_pos.2 ⟨t, Finset.mem_filter.2 ⟨Finset.mem_univ t, ?_⟩⟩
      rw [hc]
      exact decide_eq_true he
    omega
  · have hpos : 0 < pinCount s.pins b := List.countP_pos_iff.2 ⟨p, hp, by simpa using he⟩
    omega

end Inv

/-- What may change at one buffer that keeps its block, while every buffer keeps its place in the
list. -/
theorem Inv.edit {calls : Fin NPROC → Option Call} (h : Inv s) (hb : b < NBUF) (hx : x.block = (s.buf b).block)
    (hrefcnt : x.refcnt = BitVec.ofNat 32 (x.lock.isSome.toNat + callers calls b + pinCount pins b))
    (hcallers : ∀ b', b' ≠ b → callers calls b' = callers s.calls b')
    (hpins : ∀ b', b' ≠ b → pinCount pins b' = pinCount s.pins b')
    (hcalls : ∀ t c, calls t = some c → s.calls t = some c ∨
      c.buf = b ∧ ∀ b' k, c = .bread b' k → (s.buf b).block = k)
    (hasked : ∀ b', b' ≠ b → asked b' = s.asked b')
    (hholds : ∀ t, x.lock = some t → (s.buf b).block = asked b)
    (hfew : pins.length ≤ LOGSIZE) (hpinned : ∀ p ∈ pins, p ∈ s.pins ∨ p = (b, (s.buf b).block)) :
    Inv { s with buf := Function.update s.buf b x, calls := calls, asked := asked, pins := pins } := by
  have hother {b' : Nat} (hne : b' ≠ b) : Function.update s.buf b x b' = s.buf b' := Function.update_of_ne hne ..
  have hblock (b' : Nat) : (Function.update s.buf b x b').block = (s.buf b').block := by
    by_cases hne : b' = b
    · rw [hne, Function.update_self, hx]
    · rw [hother hne]
  refine ⟨h.ring, fun b₁ b₂ => ?_, fun b' hb' => ?_, hfew, fun t c hc => ?_, fun t b' k hc => ?_, fun t b' hl => ?_,
    fun p hp => ?_⟩
  · simp only [hblock]
    exact h.unique b₁ b₂
  · rw [users_eq]
    by_cases hne : b' = b
    · rw [hne]
      simp only [Function.update_self]
      exact hrefcnt
    · simp only [hother hne, hcallers b' hne, hpins b' hne]
      exact h.refcnt b' hb'
  · rcases hcalls t c hc with hc | ⟨rfl, _⟩
    · exact h.calls t c hc
    · exact hb
  · apply (hblock b').trans
    rcases hcalls t _ hc with hc | ⟨he, hk⟩
    · exact h.waits t b' k hc
    · obtain rfl : b' = b := he
      exact hk b' k rfl
  · simp only [hblock]
    by_cases hne : b' = b
    · subst hne
      simp only [Function.update_self] at hl
      exact ⟨hb, hholds t hl⟩
    · simp only [hother hne] at hl
      rw [hasked b' hne]
      exact h.holds t b' hl
  · simp only [hblock]
    rcases hpinned p hp with hp | rfl
    · exact h.pinned p hp
    · exact ⟨hb, rfl⟩

/-- The calls after one process has changed its own. -/
theorem update_calls {calls : Fin NPROC → Option Call} (h : Function.update calls t c t' = some c') :
    calls t' = some c' ∨ c = some c' := by
  by_cases ht : t' = t
  · rw [ht, Function.update_self] at h
    exact .inr h
  · rw [Function.update_of_ne ht] at h
    exact .inl h

namespace Inv

theorem acquiresleep (h : Inv s) (hc : s.calls t = some (.bread b k)) :
    Wp (acquiresleep t b k) NoError (fun _ s' => Inv s') s := by
  rw [Bcache.acquiresleep, wp_bind, wp_get]
  cases hl : (s.buf b).lock with
  | some t' => exact .ite_pos rfl (wp_pure.2 h)
  | none =>
    apply Wp.ite_neg (by simp)
    rw [wp_bind, setBuf, wp_modify, wp_bind, wp_modify, putCall, wp_modify]
    dsimp only
    have hb : b < NBUF := h.calls t _ hc
    obtain ⟨hleave, hother⟩ := callers_leave hc
    refine h.edit hb rfl ?_ hother (fun _ _ => rfl) (fun t' c hc' => ?_) (fun b' hne => Function.update_of_ne hne ..)
      (fun _ _ => ?_) h.few fun p hp => .inl hp
    · dsimp only [Call.buf] at hleave
      rw [h.refcnt b hb, users_eq, hleave, hl]
      simp [Nat.add_comm]
    · rcases update_calls hc' with hc' | hc'
      · exact .inl hc'
      · cases hc'
    · rw [Function.update_self]
      exact h.waits t b k hc

theorem breadFill (h : Inv s) : Wp (breadFill t b) NoError (fun _ s' => Inv s') s := by
  rw [Bcache.breadFill, wp_bind, wp_get]
  refine .ite (fun hl => ?_) fun _ => wp_pure.2 h
  rw [setBuf, wp_modify]
  obtain ⟨hb, hasked⟩ := h.holds t b hl
  exact h.edit hb rfl (h.refcnt b hb) (fun _ _ => rfl) (fun _ _ => rfl) (fun _ _ hc => .inl hc) (fun _ _ => rfl)
    (fun _ _ => hasked) h.few fun p hp => .inl hp

theorem brelse (h : Inv s) (hc : s.calls t = none) :
    Wp (brelse t b) (· = .brelse) (fun _ s' => Inv s') s := by
  rw [Bcache.brelse, wp_bind, wp_get]
  refine .ite (fun _ => wp_throw.2 rfl) fun hl => ?_
  rw [wp_bind, setBuf, wp_modify, putCall, wp_modify]
  dsimp only
  have hl : (s.buf b).lock = some t := not_not.1 hl
  obtain ⟨hb, hasked⟩ := h.holds t b hl
  obtain ⟨henter, hother⟩ := callers_enter hc (.brelse b)
  refine h.edit hb rfl ?_ hother (fun _ _ => rfl) (fun t' c hc' => ?_) (fun _ _ => rfl) (fun _ hl' => ?_) h.few
    fun p hp => .inl hp
  · dsimp only [Call.buf] at henter
    rw [h.refcnt b hb, users_eq, henter, hl]
    simp [Nat.add_comm]
  · rcases update_calls hc' with hc' | hc'
    · exact .inl hc'
    · injection hc' with hc'
      subst hc'
      exact .inr ⟨rfl, fun _ _ he => by cases he⟩
  · cases hl'

theorem bpin (h : Inv s) (hb : b < NBUF) (hfew : s.pins.length < LOGSIZE) :
    Wp (bpin b) NoError (fun _ s' => Inv s') s := by
  rw [Bcache.bpin, wp_bind, setBuf, wp_modify, wp_modify]
  dsimp only
  refine h.edit hb rfl ?_ (fun _ _ => rfl) (fun b' hne => ?_) (fun _ _ hc => .inl hc) (fun _ _ => rfl)
    (fun t hl => (h.holds t b hl).2) hfew fun p hp => ?_
  · rw [h.refcnt b hb, users_eq, pinCount_cons]
    simp [BitVec.ofNat_add, BitVec.add_assoc]
  · rw [pinCount_cons]
    simp [Ne.symm hne]
  · rcases List.mem_cons.1 hp with rfl | hp
    · simp
    · exact .inl hp

theorem bunpin (h : Inv s) (hp : (b, k) ∈ s.pins) : Wp (bunpin b) NoError (fun _ s' => Inv s') s := by
  rw [Bcache.bunpin, wp_bind, setBuf, wp_modify, wp_modify]
  dsimp only
  have hb : b < NBUF := (h.pinned _ hp).1
  obtain ⟨hcount, hother, hlen⟩ := pinCount_erase hp
  refine h.edit hb rfl ?_ (fun _ _ => rfl) hother (fun _ _ hc => .inl hc) (fun _ _ => rfl)
    (fun t hl => (h.holds t b hl).2) (hlen.trans h.few) fun p hp => .inl (List.mem_of_mem_eraseP hp)
  rw [h.refcnt b hb, users_eq, hcount, ← Nat.add_assoc, ofNat_succ_sub]

/-- A buffer becomes the most recently used. -/
theorem relink (h : Inv s) (hb : b < NBUF) : Inv ((s.unlink b).pushFront b) := by
  obtain ⟨l, hl, hperm⟩ := h.ring
  obtain ⟨xs, ys, rfl⟩ := List.append_of_mem (hperm.mem_iff.2 (List.mem_range.2 hb))
  have hbh : b ≠ head := Nat.ne_of_lt hb
  have hn := (List.nodup_cons.1 hl.nodup).2
  have hnb : s.next b ≠ b := by
    have hmem := (Links.append.1 hl.links).2.next_mem
    intro he
    rw [he] at hmem
    rcases List.mem_append.1 hmem with hmem | hmem
    · exact (List.nodup_cons.1 (List.nodup_append.1 hn).2.1).1 hmem
    · exact hbh (List.mem_singleton.1 hmem)
  have hcons : (b :: (xs ++ ys)).Perm (xs ++ b :: ys) := List.perm_middle.symm
  have hnew : b ∉ head :: (xs ++ ys) := by
    intro hmem
    rcases List.mem_cons.1 hmem with hmem | hmem
    · exact hbh hmem
    · exact (List.nodup_cons.1 (hcons.nodup_iff.2 hn)).1 hmem
  have hring := hl.unlink.push hnew
  refine ⟨⟨b :: (xs ++ ys), ?_, hcons.trans hperm⟩, h.unique, h.refcnt, h.few, h.calls, h.waits, h.holds, h.pinned⟩
  have hprev : Function.update s.prev (s.next b) (s.prev b) b = s.prev b := Function.update_of_ne (Ne.symm hnb) ..
  simp only [State.pushFront, State.unlink, hprev]
  rwa [Function.update_of_ne (Ne.symm hbh)]

theorem brelsePut (h : Inv s) (hc : s.calls t = some (.brelse b)) :
    Wp (brelsePut t b) NoError (fun _ s' => Inv s') s := by
  have hb : b < NBUF := h.calls t _ hc
  have hedit : Inv { s with
      buf := Function.update s.buf b { s.buf b with refcnt := (s.buf b).refcnt - 1 }
      calls := Function.update s.calls t none } := by
    obtain ⟨hleave, hother⟩ := callers_leave hc
    refine h.edit hb rfl ?_ hother (fun _ _ => rfl) (fun t' c hc' => ?_) (fun _ _ => rfl)
      (fun t hl => (h.holds t b hl).2) h.few fun p hp => .inl hp
    · dsimp only [Call.buf] at hleave
      rw [h.refcnt b hb, users_eq, hleave, ← Nat.add_assoc, Nat.add_right_comm, ofNat_succ_sub]
    · rcases update_calls hc' with hc' | hc'
      · exact .inl hc'
      · cases hc'
  rw [Bcache.brelsePut, wp_bind, setBuf, wp_modify, wp_bind, putCall, wp_modify, wp_bind, wp_get]
  refine .ite (fun _ => ?_) fun _ => wp_pure.2 hedit
  rw [wp_bind, wp_modify, wp_modify]
  exact hedit.relink hb

end Inv

end PbsCow.Bcache
