import PbsCow.Cafe

namespace PbsCow
set_option autoImplicit true

namespace Cafe

open Pthread

/-- Nobody has printed or owes a farewell to customer `i`, unless `ex[i]` is set. -/
def Quiet (d : Data) (i : Nat) : Prop := d.ex i = 0 → d.said i = [] ∧ d.owes i = false

/-- `exited_printing` prints a farewell before it sets `ex`, but it holds `mutex_s`. -/
structure FarewellInv (s : Memory) : Prop where
  one : ∀ i, (s.data.said i).length + (s.data.owes i).toNat ≤ 1
  quiet : ∀ i, s.owner .mutex_s ≠ some (.exited i) → Quiet s.data i

structure FarewellGuar (t : Tid) (s s' : Memory) : Prop where
  owner : ∀ m t', t' ≠ t → (s'.owner m = some t' ↔ s.owner m = some t')
  owes : ∀ i, t ≠ .customer i → s'.data.owes i = s.data.owes i
  ex : s.owner .mutex_s ≠ some t → s'.data.ex = s.data.ex
  said : ∀ i, s.owner .mutex_s ≠ some t → s.data.owes i = false →
    s'.data.said i = s.data.said i ∧ s'.data.owes i = false

/-- What the code at a label can rely on. -/
def Label.Farewell : Label → Data → Prop
  | .tick, _ => True
  | .turn _, _ => True
  | .announce _, _ => True
  | .exited i, d => Quiet d i
  | .handler i, d => d.owes i = false
  | .gate i, d => d.owes i = false
  | .arrive i, d => d.owes i = false
  | .search i _ _, d => d.owes i = false
  | .begins i _ _, d => d.owes i = false
  | .make i _ _, d => d.owes i = true
  | .leave i _ _, d => d.owes i = true
  | .waste i _ _, d => d.owes i = false

def farewellContract : Contract Tid Memory Label where
  inv := FarewellInv
  guar := FarewellGuar
  pre t l s := l.tid = t ∧ l.Farewell s.data
  post _ _ := True

/-- A handler gives its customer the coffee only if nobody has printed that the customer left. -/
def StillThere (_ : Tid) (k : Code) (s : Memory) : Prop :=
  ∀ i arrival got, k = take i arrival got → s.data.ex i = 0

theorem FarewellGuar.refl (t : Tid) (s : Memory) : FarewellGuar t s s :=
  ⟨fun _ _ _ => Iff.rfl, fun _ _ => rfl, fun _ => rfl, fun _ _ h => ⟨rfl, h⟩⟩

theorem SyncStep.farewellGuar {s s' : Memory} (h : SyncStep t s s') : FarewellGuar t s s' := by
  refine ⟨h.owner, fun _ _ => by rw [h.data], fun _ => by rw [h.data], fun i _ ho => ?_⟩
  rw [h.data]
  exact ⟨rfl, ho⟩

theorem not_owner {s : Memory} (h : s.owner m = some t) (ht : t' ≠ t) : s.owner m ≠ some t' := by
  rw [h]
  simpa using Ne.symm ht

/-- Threads that do not print a farewell before they set `ex`. -/
theorem neutral_farewell {P : Data → Prop} (ht : ∀ i, t ≠ .exited i) (hP : farewellContract.Stable t fun s => P s.data) :
    Oblivious farewellContract t fun s => P s.data := by
  refine ⟨hP, fun s s' hi hp h => ⟨⟨?_, fun i ho => ?_⟩, SyncStep.farewellGuar h, by rwa [h.data]⟩⟩
  · rw [h.data]
    exact hi.one
  · rw [h.data]
    exact hi.quiet i fun he => ho ((h.owner _ _ fun hti => ht i hti.symm).2 he)

theorem owes_stable (i : Nat) (b : Bool) :
    farewellContract.Stable (.customer i) fun s => s.data.owes i = b := by
  rintro s s' h ⟨_, _, t, ht, hg⟩
  exact (hg.owes i ht).trans h

theorem neutral_owes (i : Nat) (b : Bool) :
    Oblivious farewellContract (.customer i) fun s => s.data.owes i = b :=
  neutral_farewell (P := fun d => d.owes i = b) (by simp) (owes_stable i b)

theorem quiet_stable (i : Nat) : farewellContract.Stable (.exited i) fun s => Quiet s.data i := by
  rintro s s' h ⟨_, hi, t, ht, hg⟩
  by_cases ho : s.owner .mutex_s = some (.exited i)
  · have hn := not_owner ho ht
    intro he
    rw [hg.ex hn] at he
    obtain ⟨hsaid, howes⟩ := h he
    obtain ⟨hs, ho'⟩ := hg.said i hn howes
    exact ⟨hs.trans hsaid, ho'⟩
  · exact hi.quiet i fun h' => ho ((hg.owner _ _ (Ne.symm ht)).1 h')

theorem neutral_quiet (i : Nat) : Oblivious farewellContract (.exited i) fun s => Quiet s.data i := by
  refine ⟨quiet_stable i, fun s s' hi hp h => ⟨⟨?_, fun j ho => ?_⟩, SyncStep.farewellGuar h, ?_⟩⟩
  · rw [h.data]
    exact hi.one
  · rw [h.data]
    by_cases hj : j = i
    · exact hj ▸ hp
    · refine hi.quiet j fun he => ho ((h.owner _ _ ?_).2 he)
      simpa using hj
  · rw [h.data]
    exact hp

/-- Thread `t` keeps the contract while `P` holds. -/
abbrev FarOk (t : Tid) (P : Data → Prop) (k : Code) : Prop :=
  farewellContract.Keeps StillThere t (fun s => P s.data) k

/-- A step that has nothing to do with farewells. -/
structure Mute (s s' : Memory) : Prop where
  owner : s'.owner = s.owner
  ex : s'.data.ex = s.data.ex
  said : s'.data.said = s.data.said
  owes : s'.data.owes = s.data.owes

theorem Mute.quiet {s s' : Memory} (h : Mute s s') (hq : Quiet s.data i) : Quiet s'.data i := by
  intro he
  rw [h.ex] at he
  rw [h.said, h.owes]
  exact hq he

theorem Mute.inv {s s' : Memory} (h : Mute s s') (hi : FarewellInv s) :
    FarewellInv s' ∧ FarewellGuar t s s' := by
  refine ⟨⟨?_, fun i hne => ?_⟩, fun _ _ _ => by rw [h.owner], fun _ _ => by rw [h.owes],
    fun _ => h.ex, fun i _ ho => ?_⟩
  · rw [h.said, h.owes]
    exact hi.one
  · rw [h.owner] at hne
    exact h.quiet (hi.quiet i hne)
  · rw [h.said, h.owes]
    exact ⟨rfl, ho⟩

theorem FarOk.mute {P : Data → Prop} {f : Memory → Option Memory}
    (hN : Oblivious farewellContract t fun s => P s.data)
    (hf : ∀ s s', f s = some s' → Mute s s' ∧ (P s.data → P s'.data)) (hk : FarOk t P k) :
    FarOk t P (.act f fun _ => k) := by
  refine .calm hN.stable (fun s s' hi hp h => ?_) fun _ => hk
  obtain ⟨hm, hp'⟩ := hf s s' h
  obtain ⟨hi', hg⟩ := hm.inv hi
  exact ⟨hi', hg, hp' hp⟩

/-- A write to data that has nothing to do with farewells. -/
theorem FarOk.write {P : Data → Prop} {f : Data → Data}
    (hN : Oblivious farewellContract t fun s => P s.data) (hP : ∀ d, P d → P (f d))
    (hf : ∀ d, ((f d).ex, (f d).said, (f d).owes) = (d.ex, d.said, d.owes)) (hk : FarOk t P k) :
    FarOk t P (update f k) := by
  simp only [Prod.mk.injEq] at hf
  refine .mute hN (fun s s' h => ?_) hk
  injection h with h
  subst h
  obtain ⟨he, hs, ho⟩ := hf s.data
  exact ⟨⟨rfl, he, hs, ho⟩, hP s.data⟩

section Common

variable {P : Data → Prop} (hN : Oblivious farewellContract t fun s => P s.data)
  (hP : ∀ d f, P d → P { d with target := f })

include hN in
theorem FarOk.look {k : Data → Code} (hk : ∀ d, P d → FarOk t P (k d)) : FarOk t P (look k) :=
  keeps_look hN.neutral fun s _ hp => hk s.data hp s hp

include hN hP in
theorem FarOk.block (hk : FarOk t P k) : FarOk t P (block t time k) :=
  .write hN (fun d h => hP d _ h) (fun _ => rfl) (keeps_condWait hN hk)

include hN hP in
theorem FarOk.pause (hl : ∀ s : Memory, P s.data → l.tid = t ∧ l.Farewell s.data)
    (hk : FarOk t P k) : FarOk t P (pause t time l k) :=
  FarOk.look hN fun _ _ =>
    .ite (keeps_lock hN.neutral (FarOk.block hN hP (keeps_unlock hN.neutral fun s hs => hl s hs))) hk

end Common

/-- A handler that owes its customer a farewell if `b`. -/
abbrev HandlerOk (i : Nat) (b : Bool) (k : Code) : Prop := FarOk (.customer i) (·.owes i = b) k

theorem HandlerOk.write {f : Data → Data}
    (hf : ∀ d, ((f d).ex, (f d).said, (f d).owes) = (d.ex, d.said, d.owes)) (hk : HandlerOk i b k) :
    HandlerOk i b (update f k) := by
  refine FarOk.write (neutral_owes i b) (fun d h => ?_) hf hk
  simp only [Prod.mk.injEq] at hf
  rw [(hf d).2.2]
  exact h

theorem HandlerOk.lock (hk : HandlerOk i b k) : HandlerOk i b (lock (.customer i) m k) :=
  keeps_lock (neutral_owes i b).neutral hk

theorem HandlerOk.unlock (hk : HandlerOk i b k) : HandlerOk i b (unlock (.customer i) m k) :=
  keeps_unlock (neutral_owes i b).neutral hk

theorem HandlerOk.look {k : Data → Code} (hk : ∀ d, HandlerOk i b (k d)) : HandlerOk i b (look k) :=
  FarOk.look (neutral_owes i b) fun d _ => hk d

theorem HandlerOk.ite {p : Prop} [Decidable p] (ha : HandlerOk i b k) (hb : HandlerOk i b k') :
    HandlerOk i b (if p then k else k') := Contract.Keeps.ite ha hb

theorem HandlerOk.semWait {sem : Data → Nat} {set : Nat → Data → Data} 
    (hf : ∀ v d, ((set v d).ex, (set v d).said, (set v d).owes) = (d.ex, d.said, d.owes))
    (hk : HandlerOk i b k) : HandlerOk i b (semWait sem set k) := by
  simp only [Prod.mk.injEq] at hf
  refine FarOk.mute (neutral_owes i b) (fun s s' h => ?_) hk
  split at h
  case isFalse => cases h
  case isTrue =>
    injection h with h
    subst h
    obtain ⟨he, hs, ho⟩ := hf (sem s.data - 1) s.data
    exact ⟨⟨rfl, he, hs, ho⟩, fun h => by dsimp only; rw [ho]; exact h⟩

theorem HandlerOk.goto {l : Label} (h : l.tid = .customer i)
    (hl : ∀ d : Data, d.owes i = b → l.Farewell d) : HandlerOk i b (.goto l) :=
  fun s hs => ⟨h, hl s.data hs⟩

theorem HandlerOk.returns : HandlerOk i b (returns i) := .write (fun _ => rfl) fun _ _ => trivial

theorem HandlerOk.finish : HandlerOk i false (finish i got) :=
  .semWait (fun _ _ => rfl) (.write (fun _ => rfl) (.write (fun _ => rfl) (.write (fun _ => rfl)
    (.write (fun _ => rfl) (.write (fun _ => rfl) (keeps_broadcast (neutral_owes i false).neutral HandlerOk.returns))))))

theorem own_stable (t : Tid) (m : Mutex) : farewellContract.Stable t fun s => s.owner m = some t := by
  rintro s s' h ⟨_, _, t', ht, hg⟩
  exact (hg.owner m t (Ne.symm ht)).2 h

/-- A handler that holds `mutex_s` and finds `ex[i]` clear may promise a farewell. -/
theorem promise_step {s : Memory} (hi : FarewellInv s) (ho : s.owner .mutex_s = some (.customer i))
    (he : s.data.ex i = 0) (hs' : s' = { s with data := { s.data with
      ex := Function.update s.data.ex i 1, owes := Function.update s.data.owes i true } }) :
    FarewellInv s' ∧ FarewellGuar (.customer i) s s' := by
  subst hs'
  obtain ⟨hsaid, _⟩ := hi.quiet i (by simp [ho]) he
  refine ⟨⟨fun j => ?_, fun j _ he' => ?_⟩, fun _ _ _ => Iff.rfl, fun j hj => ?_,
    fun hn => (hn ho).elim, fun _ hn => (hn ho).elim⟩
  · dsimp only
    by_cases hj : j = i
    · subst hj
      rw [hsaid, Function.update_self]
      exact Nat.le_refl 1
    · rw [Function.update_of_ne hj]
      exact hi.one j
  · dsimp only at he' ⊢
    by_cases hj : j = i
    · subst hj
      rw [Function.update_self] at he'
      cases he'
    · rw [Function.update_of_ne hj] at he' ⊢
      exact hi.quiet j (by simp [ho]) he'
  · refine Function.update_of_ne ?_ _ _
    rintro rfl
    exact hj rfl

/-- A handler prints the farewell that it owes: nobody else has. -/
theorem say_step {s : Memory} (hi : FarewellInv s) (ho : s.data.owes i = true)
    (hs' : s' = { s with data := { s.data with
      said := Function.update s.data.said i (x :: s.data.said i),
      owes := Function.update s.data.owes i false } }) :
    FarewellInv s' ∧ FarewellGuar (.customer i) s s' := by
  subst hs'
  have hone := hi.one i
  rw [ho] at hone
  have hsaid : s.data.said i = [] := List.eq_nil_of_length_eq_zero (by simpa using hone)
  have hne (j : Nat) (h : s.data.owes j = false) : j ≠ i := by
    rintro rfl
    rw [ho] at h
    cases h
  refine ⟨⟨fun j => ?_, fun j hown he => ?_⟩, fun _ _ _ => Iff.rfl, fun j hj => ?_, fun _ => rfl,
    fun j _ h => ?_⟩
  · dsimp only
    by_cases hj : j = i
    · subst hj
      rw [Function.update_self, Function.update_self, hsaid]
      exact Nat.le_refl 1
    · rw [Function.update_of_ne hj, Function.update_of_ne hj]
      exact hi.one j
  · obtain ⟨h₁, h₂⟩ := hi.quiet j hown he
    dsimp only
    rw [Function.update_of_ne (hne j h₂), Function.update_of_ne (hne j h₂)]
    exact ⟨h₁, h₂⟩
  · refine Function.update_of_ne ?_ _ _
    rintro rfl
    exact hj rfl
  · dsimp only
    rw [Function.update_of_ne (hne j h), Function.update_of_ne (hne j h)]
    exact ⟨rfl, h⟩

theorem HandlerOk.say (hk : HandlerOk i false k) : HandlerOk i true (say i x k) := by
  refine .act (owes_stable i true) fun s s' hi ho _ h => ?_
  injection h with h
  obtain ⟨hi', hg⟩ := say_step hi ho h.symm
  refine ⟨hi', hg, hk s' ?_⟩
  rw [← h]
  exact Function.update_self ..

theorem HandlerOk.promise (hk : HandlerOk i true k) :
    farewellContract.Keeps StillThere (.customer i)
      (fun s => s.owner .mutex_s = some (.customer i) ∧ s.data.ex i = 0)
      (update (fun d => { d with
        ex := Function.update d.ex i 1, owes := Function.update d.owes i true }) k) := by
  have hst : farewellContract.Stable (.customer i) fun s =>
      s.owner .mutex_s = some (.customer i) ∧ s.data.ex i = 0 := by
    intro s s' hs hr
    refine ⟨own_stable _ _ s s' hs.1 hr, ?_⟩
    obtain ⟨_, _, t, ht, hg⟩ := hr
    rw [hg.ex (not_owner hs.1 ht)]
    exact hs.2
  refine .act hst fun s s' hi hs _ h => ?_
  injection h with h
  obtain ⟨hi', hg⟩ := promise_step hi hs.1 hs.2 h.symm
  refine ⟨hi', hg, hk s' ?_⟩
  rw [← h]
  exact Function.update_self ..

/-- Before the coffee is taken, nobody may have printed that the customer left. -/
theorem HandlerOk.take : farewellContract.Keeps StillThere (.customer i)
    (fun s => s.data.owes i = false ∧ s.owner .mutex_s = some (.customer i)) (take i arrival got) := by
  refine .act (.and (owes_stable i false) (own_stable _ _)) fun s s' hi hs hd h => ?_
  injection h with h
  obtain ⟨hi', hg⟩ := promise_step hi hs.2 (hd i arrival got rfl) h.symm
  have hk : HandlerOk i true (Pthread.unlock (.customer i) .mutex_s (.goto (.make i arrival got))) :=
    .unlock (.goto rfl fun _ h => h)
  refine ⟨hi', hg, hk s' ?_⟩
  rw [← h]
  exact Function.update_self ..

theorem HandlerOk.serve (q : Config) : HandlerOk i false (serve q i arrival got) := by
  refine .ite (keeps_lock_own (neutral_owes i false).neutral HandlerOk.take)
    (keeps_lock_own (neutral_owes i false).neutral ?_)
  refine .read (FarewellGuar.refl _) (.and (owes_stable i false) (own_stable _ _)) fun s _ hs => ?_
  dsimp only
  split
  case isTrue he =>
    have hk : HandlerOk i true (.goto (.leave i arrival got)) := .goto rfl fun _ h => h
    exact HandlerOk.promise hk s ⟨hs.2, he⟩
  case isFalse =>
    have hk : HandlerOk i false (Pthread.unlock (.customer i) .mutex_s
      (.goto (.waste i arrival got))) := .unlock (.goto rfl fun _ h => h)
    exact hk s hs.1

theorem HandlerOk.pause (hl : l.tid = .customer i) (hf : ∀ d : Data, d.owes i = b → l.Farewell d)
    (hk : HandlerOk i b k) : HandlerOk i b (pause (.customer i) time l k) :=
  FarOk.pause (neutral_owes i b) (fun _ _ h => h) (fun s h => ⟨hl, hf s.data h⟩) hk

theorem HandlerOk.leave (q : Config) : HandlerOk i true (leave q i arrival got) :=
  .look fun _ => .ite (FarOk.block (neutral_owes i true) (fun _ _ h => h)
    (HandlerOk.goto rfl fun _ h => h)) (.say (.unlock (.goto rfl fun _ h => h)))

/-- A thread that has nothing to do with farewells. -/
abbrev OtherOk (t : Tid) (k : Code) : Prop := FarOk t (fun _ => True) k

theorem neutral_other (ht : ∀ i, t ≠ .exited i) :
    Oblivious farewellContract t fun s => (fun _ => True) s.data :=
  neutral_farewell (P := fun _ => True) ht fun _ _ _ _ => trivial

theorem OtherOk.write {f : Data → Data} (ht : ∀ i, t ≠ .exited i)
    (hf : ∀ d, ((f d).ex, (f d).said, (f d).owes) = (d.ex, d.said, d.owes)) (hk : OtherOk t k) :
    OtherOk t (update f k) :=
  FarOk.write (neutral_other ht) (fun _ _ => trivial) hf hk

/-- `exited_printing` prints its farewell under the mutex, if nobody has promised one. -/
theorem exited_ok (q : Config) (i : Nat) :
    FarOk (.exited i) (Quiet · i) (exited_printing q i) := by
  have hN := neutral_quiet i
  have hover : FarOk (.exited i) (Quiet · i) (unlock (.exited i) .mutex_s .ret) :=
    keeps_unlock hN.neutral fun _ _ => trivial
  refine .pause hN (fun _ _ h => h) (fun _ h => ⟨rfl, h⟩) (keeps_lock_own hN.neutral ?_)
  have hown := own_stable (.exited i) .mutex_s
  refine .read (FarewellGuar.refl _) (.and (quiet_stable i) hown) fun s _ hs => ?_
  dsimp only
  split
  case isFalse => exact hover s hs.1
  case isTrue he =>
    have hst : farewellContract.Stable (.exited i) fun s =>
        (Quiet s.data i ∧ s.owner .mutex_s = some (.exited i)) ∧ s.data.ex i = 0 := by
      intro s s' hs hr
      refine ⟨Contract.Stable.and (quiet_stable i) hown s s' hs.1 hr, ?_⟩
      obtain ⟨_, _, t, ht, hg⟩ := hr
      rw [hg.ex (not_owner hs.1.2 ht)]
      exact hs.2
    refine .act hst ⟨hs, he⟩ fun s s' hi hs h => ?_
    injection h with h
    subst h
    obtain ⟨⟨hq, ho⟩, he⟩ := hs
    obtain ⟨hsaid, howes⟩ := hq he
    have hother (j : Nat) (hj : s.owner .mutex_s ≠ some (.exited j)) : j ≠ i := by
      rintro rfl
      exact hj ho
    refine ⟨⟨fun j => ?_, fun j hj => ?_⟩, ⟨fun _ _ _ => Iff.rfl, fun _ _ => rfl, fun _ => rfl,
      fun _ hn => (hn ho).elim⟩, ?_⟩
    · dsimp only
      by_cases hj : j = i
      · subst hj
        rw [Function.update_self, hsaid, howes]
        exact Nat.le_refl 1
      · rw [Function.update_of_ne hj]
        exact hi.one j
    · intro he'
      dsimp only
      rw [Function.update_of_ne (hother j hj)]
      exact hi.quiet j hj he'
    refine .act hown ho fun s s' hi ho h => ?_
    injection h with h
    subst h
    refine ⟨⟨hi.one, fun j hj he' => ?_⟩, ⟨fun _ _ _ => Iff.rfl, fun _ _ => rfl,
      fun hn => (hn ho).elim, fun _ hn => (hn ho).elim⟩, hover _ fun he' => ?_⟩
    · have hji : j ≠ i := by
        rintro rfl
        exact hj ho
      dsimp only at he'
      rw [Function.update_of_ne hji] at he'
      exact hi.quiet j hj he'
    · dsimp only at he'
      rw [Function.update_self] at he'
      cases he'

theorem OtherOk.counter : OtherOk .counter counter :=
  .write (by simp) (fun _ => rfl) (.write (by simp) (fun _ => rfl)
    (keeps_broadcast (neutral_other (by simp)).neutral fun _ _ => ⟨rfl, trivial⟩))

theorem OtherOk.turn : OtherOk (.arrival i) (turn i) := by
  have hN := neutral_other (t := .arrival i) (by simp)
  exact .look hN fun _ _ => .ite (keeps_condWait hN fun _ _ => ⟨rfl, trivial⟩)
    (keeps_unlock hN.neutral fun _ _ => ⟨rfl, trivial⟩)

theorem OtherOk.announce (q : Config) : OtherOk (.arrival i) (announce q i) := by
  have hN := neutral_other (t := .arrival i) (by simp)
  have hret : OtherOk (.arrival i) .ret := fun _ _ => trivial
  have hk : OtherOk (.arrival i) (update (fun d => { d with
      arrival_spwaned := d.arrival_spwaned + 1 }) (unlock (.arrival i) .arrival_mutex
        (broadcast .cond_arrival .ret))) :=
    .write (by simp) (fun _ => rfl) (keeps_unlock hN.neutral (keeps_broadcast hN.neutral hret))
  exact .pause hN (fun _ _ h => h) (fun _ _ => ⟨rfl, trivial⟩) (keeps_lock hN.neutral hk)

theorem HandlerOk.gate : HandlerOk i false (gate i) :=
  .look fun _ => .ite (keeps_condWait (neutral_owes i false) (HandlerOk.goto rfl fun _ h => h))
    (.unlock (.semWait (fun _ _ => rfl) (.goto rfl fun _ h => h)))

theorem HandlerOk.search (q : Config) : HandlerOk i false (search q i arrival j) :=
  .lock (.look fun _ => .ite (.write (fun _ => rfl) (.unlock (.goto rfl fun _ h => h)))
    (.unlock (.goto rfl fun _ h => h)))

theorem HandlerOk.patience (q : Config) : HandlerOk i false (patience q i arrival got) :=
  .look fun _ => .ite .returns (HandlerOk.look fun _ => .ite .returns (.serve q))

theorem HandlerOk.arrive (q : Config) : HandlerOk i false (arrive q i) :=
  .pause rfl (fun _ h => h) (.look fun _ => .goto rfl fun _ h => h)

theorem HandlerOk.begins (q : Config) : HandlerOk i false (begins q i arrival got) :=
  .pause rfl (fun _ h => h) (.lock (.write (fun _ => rfl) (.unlock (.patience q))))

theorem HandlerOk.make (q : Config) : HandlerOk i true (make q i arrival got) :=
  .pause rfl (fun _ h => h) (.say .finish)

theorem HandlerOk.waste (q : Config) : HandlerOk i false (waste q i arrival got) :=
  .pause rfl (fun _ h => h) (.lock (.write (fun _ => rfl) (.unlock .finish)))

theorem farewell_stable (t : Tid) (l : Label) :
    farewellContract.Stable t (farewellContract.pre t l) := by
  intro s s' h hr
  obtain ⟨rfl, hl⟩ := h
  refine ⟨rfl, ?_⟩
  cases l with
  | tick => trivial
  | turn i => trivial
  | announce i => trivial
  | exited i => exact quiet_stable i s s' hl hr
  | _ => exact owes_stable _ _ s s' hl hr

theorem farewell_sound (q : Config) : farewellContract.Sound StillThere (body q) := by
  refine ⟨FarewellGuar.refl, farewell_stable, fun _ _ _ _ _ => trivial, fun t l s _ h _ => ?_⟩
  obtain ⟨rfl, hl⟩ := h
  cases l with
  | tick => exact OtherOk.counter s trivial
  | turn i => exact OtherOk.turn s trivial
  | announce i => exact OtherOk.announce q s trivial
  | handler i =>
    have hk : HandlerOk i false (.goto (.gate i)) := .goto rfl fun _ h => h
    exact hk.lock s hl
  | gate i => exact HandlerOk.gate s hl
  | arrive i => exact HandlerOk.arrive q s hl
  | search i arrival j => exact HandlerOk.search q s hl
  | begins i arrival got => exact HandlerOk.begins q s hl
  | make i arrival got => exact HandlerOk.make q s hl
  | leave i arrival got => exact HandlerOk.leave q s hl
  | waste i arrival got => exact HandlerOk.waste q s hl
  | exited i => exact exited_ok q i s hl

/-- If the handlers give a coffee only to customers who have not left, each customer gets at most one
farewell. -/
theorem one_farewell (q : Config) (h : ReachIf (body q) StillThere (start q) x) (i : Nat) :
    (x.mem.data.said i).length ≤ 1 := by
  have hstart : farewellContract.Kept StillThere (start q) := by
    refine ⟨⟨fun _ => Nat.zero_le 1, fun _ _ _ => ⟨rfl, rfl⟩⟩, fun t => ?_⟩
    cases t with
    | counter => exact ⟨rfl, trivial⟩
    | arrival i =>
      have hk : OtherOk (.arrival i) ((start q).code (.arrival i)) :=
        .ite (keeps_lock (neutral_other (by simp)).neutral fun _ _ => ⟨rfl, trivial⟩) fun _ _ => trivial
      exact hk _ trivial
    | customer i =>
      have hk : HandlerOk i false ((start q).code (.customer i)) :=
        .ite (.goto rfl fun _ h => h) fun _ _ => trivial
      exact hk _ rfl
    | exited i =>
      have hk : FarOk (.exited i) (Quiet · i) ((start q).code (.exited i)) :=
        .ite (fun _ h => ⟨rfl, h⟩) fun _ _ => trivial
      exact hk _ fun _ => ⟨rfl, rfl⟩
  have := (hstart.reach (farewell_sound q) h).inv.one i
  exact Nat.le_of_add_right_le this

/-- A customer with no patience has left before a barista was free. -/
theorem one_farewell_hurry : ∃ x : Threads Tid Memory Bool Label,
    x.mem.data.said 0 = [.withoutOrder] ∧ (x.mem.data.said 0).length ≤ 1 := by
  let q : Config := ⟨1, [("Espresso", 3)], [⟨1, "Espresso", 0, 0⟩], by decide⟩
  have h₀ : ReachIf (body q) StillThere (start q) (start q) := .refl
  have h₁ := h₀.step (t := .counter) (w := false) (fun _ _ _ _ => rfl) rfl
  have h₂ := h₁.step (t := .counter) (w := false) (fun _ _ _ _ => rfl) rfl
  have h₃ := h₂.step (t := .counter) (w := false) (fun _ _ _ _ => rfl) rfl
  have h₄ := h₃.step (t := .counter) (w := false) (fun _ _ _ _ => rfl) rfl
  have h₅ := h₄.step (t := .counter) (w := false) (fun _ _ _ _ => rfl) rfl
  have h₆ := h₅.step (t := .counter) (w := false) (fun _ _ _ _ => rfl) rfl
  have h₇ := h₆.step (t := .exited 0) (w := false) (fun _ _ _ _ => rfl) rfl
  have h₈ := h₇.step (t := .exited 0) (w := false) (fun _ _ _ _ => rfl) rfl
  have h₉ := h₈.step (t := .exited 0) (w := false) (fun _ _ _ _ => rfl) rfl
  have h₁₀ := h₉.step (t := .exited 0) (w := false) (fun _ _ _ _ => rfl) rfl
  have h₁₁ := h₁₀.step (t := .exited 0) (w := false) (fun _ _ _ _ => rfl) rfl
  exact ⟨_, rfl, one_farewell q h₁₁ 0⟩

/-- The handler has tested that its customer is there; five seconds pass before it decides, and the
customer leaves without the order and then with it. -/
theorem two_farewells : ∃ q x, Reach (body q) (start q) x ∧
    x.mem.data.said 0 = [.withOrder, .withoutOrder] := by
  let q : Config := ⟨1, [("Espresso", 3)], [⟨1, "Espresso", 0, 5⟩], by decide⟩
  let run := steps (.customer 0) 7 ++ steps .counter 2 ++ steps (.customer 0) 8 ++
    steps .counter 4 ++ steps (.customer 0) 6 ++ steps .counter 20 ++ steps (.exited 0) 7 ++
    steps (.customer 0) 6
  have hrun : ((start q).run (body q) run).map (fun x => x.mem.data.said 0) =
      some [.withOrder, .withoutOrder] := by
    decide +kernel
  obtain ⟨x, hx, he⟩ := Option.map_eq_some_iff.1 hrun
  exact ⟨q, x, .of_run hx, he⟩

end Cafe

end PbsCow
