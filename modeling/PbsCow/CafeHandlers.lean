import PbsCow.CafeBaristas

namespace PbsCow
set_option autoImplicit true

namespace Cafe

open Pthread

theorem neutral_barista {R : Data → Prop} (hR : (baristaContract P q).Stable t fun s => R s.data) :
    Oblivious (baristaContract P q) t fun s => R s.data := by
  refine ⟨hR, fun s s' hi hp h => ?_⟩
  have hidle : Idle t s s' := ⟨h.owner, by rw [h.data], by rw [h.data], by rw [h.data]⟩
  obtain ⟨hi', hg⟩ := hidle.inv hi
  exact ⟨hi', hg, by rwa [h.data]⟩

theorem log_stable (P : Prop) (q : Config) (i : Nat) (l : Log) :
    (baristaContract P q).Stable (.customer i) fun s => s.data.log i = l := by
  rintro s s' h ⟨_, _, t, ht, hg⟩
  exact (hg.log i ht).trans h

theorem neutral_log (P : Prop) (q : Config) (i : Nat) (l : Log) :
    Oblivious (baristaContract P q) (.customer i) fun s => s.data.log i = l :=
  neutral_barista (R := fun d => d.log i = l) (log_stable P q i l)

/-- The handler of customer `i`, which has done `l` so far, keeps the contract. -/
abbrev BarOk (P : Prop) (q : Config) (i : Nat) (l : Log) (k : Code) : Prop :=
  (baristaContract P q).Keeps (PatientIf P q) (.customer i) (fun s => s.data.log i = l) k

theorem BarOk.idle {f : Memory → Option Memory}
    (hf : ∀ s s', f s = some s' → Idle (.customer i) s s') (hk : BarOk P q i l k) :
    BarOk P q i l (.act f fun _ => k) := by
  refine .calm (log_stable P q i l) (fun s s' hi hl h => ?_) fun _ => hk
  obtain ⟨hi', hg⟩ := (hf s s' h).inv hi
  exact ⟨hi', hg, by rw [(hf s s' h).log]; exact hl⟩

theorem BarOk.write {f : Data → Data}
    (hf : ∀ d, ((f d).semaphore, (f d).barber, (f d).log) = (d.semaphore, d.barber, d.log))
    (hk : BarOk P q i l k) : BarOk P q i l (update f k) := by
  simp only [Prod.mk.injEq] at hf
  refine .idle (fun s s' h => ?_) hk
  injection h with h
  subst h
  obtain ⟨h₁, h₂, h₃⟩ := hf s.data
  exact ⟨fun _ _ _ => Iff.rfl, h₁, h₂, h₃⟩

theorem BarOk.lock (hk : BarOk P q i l k) : BarOk P q i l (lock (.customer i) m k) :=
  keeps_lock (neutral_log P q i l).neutral hk

theorem BarOk.unlock (hk : BarOk P q i l k) : BarOk P q i l (unlock (.customer i) m k) :=
  keeps_unlock (neutral_log P q i l).neutral hk

theorem BarOk.look {k : Data → Code} (hk : ∀ d, BarOk P q i l (k d)) : BarOk P q i l (look k) :=
  keeps_look (neutral_log P q i l).neutral fun s _ hl => hk s.data s hl

theorem BarOk.ite {p : Prop} [Decidable p] (ha : BarOk P q i l k) (hb : BarOk P q i l k') :
    BarOk P q i l (if p then k else k') := Contract.Keeps.ite ha hb

theorem BarOk.goto {l : Log} {h : Label} (ht : h.tid = .customer i)
    (hl : ∀ d : Data, d.log i = l → h.Handles q d) : BarOk P q i l (.goto h) :=
  fun s hs => ⟨ht, hl s.data hs⟩

theorem BarOk.block (hk : BarOk P q i l k) : BarOk P q i l (block (.customer i) time k) :=
  .write (fun _ => rfl) (keeps_condWait (neutral_log P q i l) hk)

theorem BarOk.pause {l : Log} {h : Label} (ht : h.tid = .customer i)
    (hl : ∀ d : Data, d.log i = l → h.Handles q d) (hk : BarOk P q i l k) :
    BarOk P q i l (pause (.customer i) time h k) :=
  .look fun _ => .ite (.lock (.block (.unlock (.goto ht hl)))) hk

/-- A step that changes what the handler has done. -/
theorem BarOk.record {f : Memory → Option Memory}
    (hf : ∀ s s', BaristaInv P q s → s.data.log i = l → f s = some s' → s'.data.log i = l' ∧
      BaristaInv P q s' ∧ BaristaGuar (.customer i) s s') (hk : BarOk P q i l' k) :
    BarOk P q i l (.act f fun _ => k) := by
  refine .act (log_stable P q i l) fun s s' hi hl _ h => ?_
  obtain ⟨hl', hi', hg⟩ := hf s s' hi hl h
  exact ⟨hi', hg, hk s' hl'⟩

theorem LogStep.record (s : Memory) (i : Nat) (f : Log → Log) (b : Nat → Int) (v : Nat) :
    LogStep i (f (s.data.log i)) s { s with data := { record i f s.data with
      barber := b, semaphore := v } } :=
  ⟨rfl, Function.update_self .., fun _ hj => Function.update_of_ne hj _ _⟩

/-- A step that records something, and neither takes nor gives a barista. -/
structure Notes (i : Nat) (l l' : Log) (d d' : Data) : Prop where
  log : d'.log = Function.update d.log i l'
  barber : d'.barber = d.barber
  semaphore : d'.semaphore + l'.kept.toNat = d.semaphore + l.kept.toNat

theorem Notes.step {s : Memory} (h : Notes i l l' s.data d) (hi : BaristaInv P q s) (hn : i < q.n)
    (hl : s.data.log i = l) (hb : l'.holds = l.holds) (hk : l'.holds = true → l'.kept = true)
    (hg : l'.got = l.got) (hr : P → l'.returned = true → l'.spawns = 1 ∧ l'.resets = 1 ∧ l'.posts = 1) :
    d.log i = l' ∧ BaristaInv P q { s with data := d } ∧
      BaristaGuar (.customer i) s { s with data := d } := by
  subst hl
  have hself : d.log i = l' := by rw [h.log, Function.update_self]
  have hstep : LogStep i l' s { s with data := d } :=
    ⟨rfl, hself, fun j hj => by rw [h.log, Function.update_of_ne hj]⟩
  exact ⟨hself, hstep.same hi hn h.semaphore h.barber hb hk (fun _ => hg) hr⟩

theorem BarOk.note {f : Data → Data} (hn : i < q.n) (l' : Log) (hk : BarOk P q i l' k)
    (hf : ∀ d, d.log i = l → Notes i l l' d (f d)) (hb : l'.holds = l.holds)
    (hk' : l'.holds = true → l'.kept = true) (hg : l'.got = l.got) (hr : P → l'.returned = true → l'.spawns = 1 ∧ l'.resets = 1 ∧ l'.posts = 1) :
    BarOk P q i l (update f k) := by
  refine .record (fun s s' hi hl h => ?_) hk
  injection h with h
  subst h
  exact (hf s.data hl).step hi hn hl hb hk' hg hr

theorem BarOk.returns (hn : i < q.n) (hk : l.holds = true → l.kept = true)
    (hl : P → l.spawns = 1 ∧ l.resets = 1 ∧ l.posts = 1) : BarOk P q i l (returns i) := by
  have hret : BarOk P q i { l with returned := true } .ret := by
    intro s hs j hj _
    injection hj with hj
    rw [← hj, hs]
  exact .note hn _ hret (fun d hd => ⟨by rw [Cafe.record, hd], rfl, rfl⟩) rfl hk rfl fun hP _ => hl hP

/-- The handler has chosen a barista, and gives everything back. -/
theorem BarOk.finish (hn : i < q.n) (hj : got < q.b) : BarOk P q i (.with got) (finish i got) := by
  have hposted : BarOk P q i ⟨true, some got, 1, 1, 1, false⟩
      (Pthread.broadcast .cond_swapn (Cafe.returns i)) :=
    keeps_broadcast (neutral_log P q i _).neutral (BarOk.returns hn (by simp [Log.holds]) fun _ => ⟨rfl, rfl, rfl⟩)
  have hpost : BarOk P q i ⟨true, some got, 1, 1, 0, false⟩
      (semPost Data.semaphore (fun v d => { Cafe.record i (fun l => { l with posts := l.posts + 1 }) d
        with semaphore := v }) <| Pthread.broadcast .cond_swapn (Cafe.returns i)) :=
    .note hn _ hposted (fun d hd => ⟨by simp [Cafe.record, hd], rfl, rfl⟩) rfl (by simp [Log.holds]) rfl
      (by simp)
  have hreset : BarOk P q i ⟨true, some got, 1, 0, 0, false⟩
      (Pthread.update (fun d => Cafe.record i (fun l => { l with resets := l.resets + 1 })
        { d with barber := Function.update d.barber got 0 }) <|
      semPost Data.binary_sem (fun v d => { d with binary_sem := v }) <|
      semPost Data.semaphore (fun v d => { Cafe.record i (fun l => { l with posts := l.posts + 1 }) d
        with semaphore := v }) <| Pthread.broadcast .cond_swapn (Cafe.returns i)) := by
    refine .record (fun s s' hi hl h => ?_) (.write (fun _ => rfl) hpost)
    injection h with h
    subst h
    have hstep := LogStep.record s i (fun l => { l with resets := l.resets + 1 })
      (Function.update s.data.barber got 0) s.data.semaphore
    refine ⟨by simp [Cafe.record, hl], hstep.reset hi hn hj ?_ ?_ ?_ rfl rfl⟩
    · rw [hl]
      rfl
    · rw [hl]
    · rw [hl]
  refine .idle (fun s s' h => ?_) ?_
  · split at h
    case isFalse => cases h
    case isTrue =>
      injection h with h
      subst h
      exact ⟨fun _ _ _ => Iff.rfl, rfl, rfl, rfl⟩
  · exact .note hn _ (.write (fun _ => rfl) hreset)
      (fun d hd => ⟨by simp [Cafe.record, hd, Log.with], rfl, rfl⟩) rfl (fun _ => rfl) rfl (by simp)

/-- The handler gets through the gate, and takes the semaphore. -/
theorem BarOk.gate (hn : i < q.n) : BarOk P q i .before (gate i) := by
  have hgate : BarOk P q i .before (.goto (.gate i)) := .goto rfl fun _ h => ⟨hn, h⟩
  have harrive : BarOk P q i .served (.goto (.arrive i)) := .goto rfl fun _ h => ⟨hn, h⟩
  refine .look fun _ => .ite (keeps_condWait (neutral_log P q i _) hgate) (.unlock ?_)
  refine .record (fun s s' hi hl h => ?_) harrive
  split at h
  case isFalse => cases h
  case isTrue hpos =>
    injection h with h
    subst h
    have hnotes : Notes i .before .served s.data { Cafe.record i (fun l => { l with waited := true })
        s.data with semaphore := s.data.semaphore - 1 } :=
      ⟨by simp [Cafe.record, hl, Log.before, Log.served], rfl, Nat.sub_add_cancel hpos⟩
    exact hnotes.step hi hn hl rfl (fun _ => rfl) rfl (by simp [Log.served])

/-- Nobody else takes a barista while the handler owns `mutex2`. -/
theorem free_stable (P : Prop) (q : Config) (i j : Nat) : (baristaContract P q).Stable (.customer i) fun s =>
    (s.data.log i = .served ∧ s.owner .mutex2 = some (.customer i)) ∧ s.data.barber j = 0 := by
  rintro s s' ⟨⟨hl, ho⟩, hb⟩ ⟨_, _, t, ht, hg⟩
  refine ⟨⟨(hg.log i ht).trans hl, (hg.owner _ _ (Ne.symm ht)).2 ho⟩, ?_⟩
  rcases hg.barber (fun h => ht (Option.some.inj (h.symm.trans ho))) j with h | h
  · exact h.trans hb
  · exact h

theorem BarOk.search (hn : i < q.n) (hj : j < q.b) :
    BarOk P q i .served (search q i arrival j) := by
  have hfound : BarOk P q i (.with j) (Pthread.unlock (.customer i) .mutex2 <|
      .goto (.begins i arrival j)) := .unlock (.goto rfl fun _ h => ⟨hn, hj, h⟩)
  have hnext : BarOk P q i .served (Pthread.unlock (.customer i) .mutex2 <|
      .goto (.search i arrival ((j + 1) % q.b))) :=
    .unlock (.goto rfl fun _ h => ⟨hn, Nat.mod_lt _ q.b_pos, h⟩)
  refine keeps_lock_own (neutral_log P q i _).neutral ?_
  have hstable : (baristaContract P q).Stable (.customer i) fun s =>
      s.data.log i = .served ∧ s.owner .mutex2 = some (.customer i) := by
    rintro s s' ⟨hl, ho⟩ ⟨_, _, t, ht, hg⟩
    exact ⟨(hg.log i ht).trans hl, (hg.owner _ _ (Ne.symm ht)).2 ho⟩
  refine .read (BaristaGuar.refl _) hstable fun s _ hs => ?_
  dsimp only
  split
  case isFalse => exact hnext s hs.1
  case isTrue hfree =>
    refine .act (free_stable P q i j) ⟨hs, hfree⟩ fun s s' hi hs h => ?_
    obtain ⟨⟨hl, ho⟩, hfree⟩ := hs
    injection h with h
    subst h
    have hstep := LogStep.record s i (fun l => { l with got := some j })
      (Function.update s.data.barber j 1) s.data.semaphore
    have hwith : ({ s.data.log i with got := some j } : Log) = .with j := by
      rw [hl]
      rfl
    rw [hwith] at hstep
    obtain ⟨hi', hg⟩ := hstep.choose hi hn hj hl hfree ho rfl rfl
    exact ⟨hi', hg, hfound _ hstep.self⟩

theorem BarOk.serve (hn : i < q.n) (hj : got < q.b) :
    BarOk P q i (.with got) (serve q i arrival got) :=
  .ite (.lock (.write (fun _ => rfl) (.unlock (.goto rfl fun _ h => ⟨hn, hj, h⟩))))
    (.lock (.look fun _ => .ite (.write (fun _ => rfl) (.goto rfl fun _ h => ⟨hn, hj, h⟩))
      (.unlock (.goto rfl fun _ h => ⟨hn, hj, h⟩))))

/-- The handler returns at once, or it serves its customer. -/
theorem BarOk.patience (hn : i < q.n) (hj : got < q.b) :
    BarOk P q i (.with got) (patience q i arrival got) := by
  refine .act (log_stable P q i _) fun s s' hi hl hd h => ?_
  injection h with h
  subst h
  refine ⟨hi, .refl _ _, ?_⟩
  dsimp only
  split
  case isTrue he => exact BarOk.returns hn (fun _ => rfl) (fun hP => ((hd hP i arrival got).1 rfl he).elim) s hl
  case isFalse =>
    refine ⟨_, log_stable P q i _, hl, fun s s' hi hl hd h => ?_⟩
    injection h with h
    subst h
    refine ⟨hi, .refl _ _, ?_⟩
    dsimp only
    split
    case isTrue he =>
      exact BarOk.returns hn (fun _ => rfl) (fun hP => ((hd hP i arrival got).2 rfl he).elim) s hl
    case isFalse => exact BarOk.serve hn hj s hl

/-- What every thread but the handlers does is nothing to the baristas. -/
abbrev AsideOk (P : Prop) (q : Config) (t : Tid) (k : Code) : Prop :=
  (baristaContract P q).Keeps (PatientIf P q) t (fun _ => True) k

theorem neutral_aside (P : Prop) (q : Config) (t : Tid) :
    Oblivious (baristaContract P q) t fun _ => True :=
  neutral_barista (R := fun _ => True) fun _ _ _ _ => trivial

theorem AsideOk.write {f : Data → Data}
    (hf : ∀ d, ((f d).semaphore, (f d).barber, (f d).log) = (d.semaphore, d.barber, d.log))
    (hk : AsideOk P q t k) : AsideOk P q t (update f k) := by
  simp only [Prod.mk.injEq] at hf
  refine .calm (fun _ _ _ _ => trivial) (fun s s' hi _ h => ?_) fun _ => hk
  injection h with h
  subst h
  obtain ⟨h₁, h₂, h₃⟩ := hf s.data
  have hidle : Idle t s { s with data := f s.data } := ⟨fun _ _ _ => Iff.rfl, h₁, h₂, h₃⟩
  obtain ⟨hi', hg⟩ := hidle.inv hi
  exact ⟨hi', hg, trivial⟩

theorem AsideOk.lock (hk : AsideOk P q t k) : AsideOk P q t (lock t m k) :=
  keeps_lock (neutral_aside P q t).neutral hk

theorem AsideOk.unlock (hk : AsideOk P q t k) : AsideOk P q t (unlock t m k) :=
  keeps_unlock (neutral_aside P q t).neutral hk

theorem AsideOk.broadcast (hk : AsideOk P q t k) : AsideOk P q t (broadcast c k) :=
  keeps_broadcast (neutral_aside P q t).neutral hk

theorem AsideOk.condWait (hk : AsideOk P q t k) : AsideOk P q t (condWait t c m k) :=
  keeps_condWait (neutral_aside P q t) hk

theorem AsideOk.look {k : Data → Code} (hk : ∀ d, AsideOk P q t (k d)) : AsideOk P q t (look k) :=
  keeps_look (neutral_aside P q t).neutral fun s _ _ => hk s.data s trivial

theorem AsideOk.ite {p : Prop} [Decidable p] (ha : AsideOk P q t k) (hb : AsideOk P q t k') :
    AsideOk P q t (if p then k else k') := Contract.Keeps.ite ha hb

theorem AsideOk.ret (ht : ∀ i, t ≠ .customer i) : AsideOk P q t .ret :=
  fun _ _ i he => (ht i he).elim

theorem AsideOk.goto (ht : l.tid = t) (hl : ∀ d, l.Handles q d) : AsideOk P q t (.goto l) :=
  fun s _ => ⟨ht, hl s.data⟩

theorem AsideOk.pause (ht : l.tid = t) (hl : ∀ d, l.Handles q d) (hk : AsideOk P q t k) :
    AsideOk P q t (pause t time l k) :=
  .look fun _ => .ite (.lock (.write (fun _ => rfl) (.condWait (.unlock (.goto ht hl))))) hk

theorem AsideOk.exited : AsideOk P q (.exited i) (exited_printing q i) :=
  .pause rfl (fun _ => trivial) (.lock (.look fun _ =>
    .ite (.write (fun _ => rfl) (.write (fun _ => rfl) (.unlock (.ret (by simp))))) (.unlock (.ret (by simp)))))

theorem Label.handles_stable (P : Prop) (q : Config) (l : Label) :
    (baristaContract P q).Stable l.tid fun s => l.Handles q s.data := by
  rintro s s' h ⟨_, _, t, ht, hg⟩
  cases l with
  | tick => trivial
  | turn i => trivial
  | announce i => trivial
  | exited i => trivial
  | handler i => exact ⟨h.1, (hg.log i ht).trans h.2⟩
  | gate i => exact ⟨h.1, (hg.log i ht).trans h.2⟩
  | arrive i => exact ⟨h.1, (hg.log i ht).trans h.2⟩
  | search i arrival j => exact ⟨h.1, h.2.1, (hg.log i ht).trans h.2.2⟩
  | begins i arrival got => exact ⟨h.1, h.2.1, (hg.log i ht).trans h.2.2⟩
  | make i arrival got => exact ⟨h.1, h.2.1, (hg.log i ht).trans h.2.2⟩
  | leave i arrival got => exact ⟨h.1, h.2.1, (hg.log i ht).trans h.2.2⟩
  | waste i arrival got => exact ⟨h.1, h.2.1, (hg.log i ht).trans h.2.2⟩

theorem barista_sound (P : Prop) (q : Config) : (baristaContract P q).Sound (PatientIf P q) (body q) := by
  refine ⟨BaristaGuar.refl, fun t l => ?_, fun t => ?_, fun t l s _ h _ => ?_⟩
  · rintro s s' ⟨rfl, hl⟩ hr
    exact ⟨rfl, l.handles_stable P q s s' hl hr⟩
  · rintro s s' h ⟨_, _, t', ht, hg⟩ i rfl hn
    rw [hg.log i ht]
    exact h i rfl hn
  · obtain ⟨rfl, hl⟩ := h
    cases l with
    | tick =>
      have hk : AsideOk P q .counter counter :=
        .write (fun _ => rfl) (.write (fun _ => rfl) (.broadcast (.goto rfl fun _ => trivial)))
      exact hk s trivial
    | turn i =>
      have hk : AsideOk P q (.arrival i) (turn i) := .look fun _ =>
        .ite (.condWait (.goto rfl fun _ => trivial)) (.unlock (.goto rfl fun _ => trivial))
      exact hk s trivial
    | announce i =>
      have hk : AsideOk P q (.arrival i) (announce q i) :=
        .pause rfl (fun _ => trivial) (.lock (.write (fun _ => rfl) (.unlock (.broadcast (.ret (by simp))))))
      exact hk s trivial
    | exited i => exact AsideOk.exited s trivial
    | handler i =>
      have hk : BarOk P q i .before (lock (.customer i) .mutex <| .goto (.gate i)) :=
        .lock (.goto rfl fun _ h => ⟨hl.1, h⟩)
      exact hk s hl.2
    | gate i => exact BarOk.gate hl.1 s hl.2
    | arrive i =>
      have hk : BarOk P q i .served (arrive q i) := .pause rfl (fun _ h => ⟨hl.1, h⟩)
        (.look fun _ => .goto rfl fun _ h => ⟨hl.1, q.b_pos, h⟩)
      exact hk s hl.2
    | search i arrival j => exact BarOk.search hl.1 hl.2.1 s hl.2.2
    | begins i arrival got =>
      have hk : BarOk P q i (.with got) (begins q i arrival got) :=
        .pause rfl (fun _ h => ⟨hl.1, hl.2.1, h⟩)
          (.lock (.write (fun _ => rfl) (.unlock (BarOk.patience hl.1 hl.2.1))))
      exact hk s hl.2.2
    | make i arrival got =>
      have hk : BarOk P q i (.with got) (make q i arrival got) :=
        .pause rfl (fun _ h => ⟨hl.1, hl.2.1, h⟩) (.write (fun _ => rfl) (BarOk.finish hl.1 hl.2.1))
      exact hk s hl.2.2
    | leave i arrival got =>
      have hk : BarOk P q i (.with got) (leave q i arrival got) :=
        .look fun _ => .ite (.block (.goto rfl fun _ h => ⟨hl.1, hl.2.1, h⟩))
          (.write (fun _ => rfl) (.unlock (.goto rfl fun _ h => ⟨hl.1, hl.2.1, h⟩)))
      exact hk s hl.2.2
    | waste i arrival got =>
      have hk : BarOk P q i (.with got) (waste q i arrival got) :=
        .pause rfl (fun _ h => ⟨hl.1, hl.2.1, h⟩)
          (.lock (.write (fun _ => rfl) (.unlock (BarOk.finish hl.1 hl.2.1))))
      exact hk s hl.2.2

theorem barista_start (P : Prop) (q : Config) : (baristaContract P q).Kept (PatientIf P q) (start q) := by
  refine ⟨⟨?_, ?_, fun _ => .inl rfl, fun _ h => ?_, fun _ _ h => ?_, fun _ _ _ h => ?_, fun _ _ h => ?_⟩,
    fun t => ?_⟩
  · show q.b + countBelow q.n (fun _ => false) = q.b
    rw [countBelow_false, Nat.add_zero]
  · show countBelow q.b (fun _ => decide ((0 : Int) = 1)) = countBelow q.n (fun _ => false)
    rw [countBelow_false]
    exact countBelow_false _
  · cases h
  · cases h
  · cases h
  · cases h
  · cases t with
    | counter => exact ⟨rfl, trivial⟩
    | arrival i =>
      have hk : AsideOk P q (.arrival i) ((start q).code (.arrival i)) :=
        .ite (.lock (.goto rfl fun _ => trivial)) (.ret (by simp))
      exact hk _ trivial
    | exited i =>
      have hk : AsideOk P q (.exited i) ((start q).code (.exited i)) :=
        .ite (.goto rfl fun _ => trivial) (.ret (by simp))
      exact hk _ trivial
    | customer i =>
      dsimp only [start]
      split
      case isTrue hn => exact ⟨rfl, hn, rfl⟩
      case isFalse hn =>
        intro j hj hlt
        injection hj with hj
        exact (hn (hj ▸ hlt)).elim

/-- If no handler returns early because its customer has left, every handler that has returned has
given back its place, its barista and the semaphore once each, and no barista is lost. -/
theorem baristas_conserved (q : Config) (h : ReachIf (body q) (Patient q) (start q) x) :
    (∀ i, i < q.n → x.code (.customer i) = .ret → (x.mem.data.log i).returned = true) ∧
    (∀ i, (x.mem.data.log i).returned = true → (x.mem.data.log i).spawns = 1 ∧
      (x.mem.data.log i).resets = 1 ∧ (x.mem.data.log i).posts = 1) ∧
    x.mem.data.semaphore + countBelow q.n (fun i => (x.mem.data.log i).inside) = q.b ∧
    countBelow q.b (fun j => x.mem.data.barber j = 1) =
      countBelow q.n (fun i => (x.mem.data.log i).busy) := by
  have hx := (barista_start True q).reach (barista_sound True q) (h.mono fun _ _ _ hd _ => hd)
  have hret := hx.inv.returned trivial
  have hinside (i : Nat) : (x.mem.data.log i).inside = (x.mem.data.log i).kept := by
    rw [Log.inside, Log.kept]
    cases hr : (x.mem.data.log i).returned with
    | false => simp
    | true => simp [(hret i hr).2.2]
  have hbusy (i : Nat) : (x.mem.data.log i).busy = (x.mem.data.log i).holds := by
    rw [Log.busy, Log.holds]
    cases hr : (x.mem.data.log i).returned with
    | false => simp
    | true => simp [(hret i hr).2.1]
  refine ⟨fun i hn hcode => ?_, hret, ?_, ?_⟩
  · have hok := hx.ok (.customer i)
    rw [hcode] at hok
    exact hok i rfl hn
  · simp only [hinside]
    exact hx.inv.semaphore
  · simp only [hbusy]
    exact hx.inv.flags

/-- A handler has passed the gate. -/
theorem baristas_conserved_inside : ∃ x : Threads Tid Memory Bool Label,
    (x.mem.data.log 0).inside = true ∧
    x.mem.data.semaphore + countBelow short.n (fun i => (x.mem.data.log i).inside) = short.b := by
  have hd (t : Tid) (k : Code) (s : Memory) (hex : s.data.ex = fun _ => 0)
      (hsec : s.data.sec = -1) : Patient short t k s := by
    refine fun i arrival got => ⟨fun _ => by simp [hex], fun _ => ?_⟩
    rw [hsec]
    cases i with
    | zero => decide
    | succ i => exact of_decide_eq_true rfl
  have h₀ : ReachIf (body short) (Patient short) (start short) (start short) := .refl
  have h₁ := h₀.step (t := .customer 0) (w := false) (hd _ _ _ rfl rfl) rfl
  have h₂ := h₁.step (t := .customer 0) (w := false) (hd _ _ _ rfl rfl) rfl
  have h₃ := h₂.step (t := .customer 0) (w := false) (hd _ _ _ rfl rfl) rfl
  have h₄ := h₃.step (t := .customer 0) (w := false) (hd _ _ _ rfl rfl) rfl
  have h₅ := h₄.step (t := .customer 0) (w := false) (hd _ _ _ rfl rfl) rfl
  have h₆ := h₅.step (t := .customer 0) (w := false) (hd _ _ _ rfl rfl) rfl
  exact ⟨_, rfl, (baristas_conserved short h₆).2.2.1⟩

/-- A customer with no patience leaves in the second in which the handler begins the order. -/
theorem barista_lost : ∃ x, Reach (body short) (start short) x ∧
    x.mem.data.log 0 = ⟨true, some 0, 0, 0, 0, true⟩ ∧
    x.mem.data.semaphore + countBelow short.n (fun i => (x.mem.data.log i).inside) = 0 ∧
    countBelow short.b (fun j => x.mem.data.barber j = 1) = 1 ∧
    countBelow short.n (fun i => (x.mem.data.log i).busy) = 0 := by
  have hrun : ((start short).run (body short) (steps (.customer 0) 7 ++ steps .counter 2 ++
      steps (.customer 0) 8 ++ steps .counter 4 ++ steps (.customer 0) 7)).map
      (fun x => (x.mem.data.log 0, x.mem.data.semaphore, x.mem.data.barber 0)) =
      some (⟨true, some 0, 0, 0, 0, true⟩, 0, 1) := by
    decide +kernel
  obtain ⟨x, hx, he⟩ := Option.map_eq_some_iff.1 hrun
  simp only [Prod.mk.injEq] at he
  obtain ⟨hlog, hsem, hbarber⟩ := he
  have hn : short.n = 1 := rfl
  have hb : short.b = 1 := rfl
  refine ⟨x, .of_run hx, hlog, ?_, ?_, ?_⟩
  · rw [hn, countBelow_succ, hlog, hsem]
    rfl
  · rw [hb, countBelow_succ, hbarber]
    rfl
  · rw [hn, countBelow_succ, hlog]
    rfl

/-- Two handlers never hold one barista, not even if they have returned early; and while a handler
that has the semaphore searches, there is a barista who is free. -/
theorem barista_exclusive (q : Config) (h : Reach (body q) (start q) x) :
    (∀ i i' j, (x.mem.data.log i).holds = true → (x.mem.data.log i').holds = true →
      (x.mem.data.log i).got = some j → (x.mem.data.log i').got = some j → i = i') ∧
    (∀ i arrival j, x.code (.customer i) = .goto (.search i arrival j) →
      i < q.n ∧ x.mem.data.log i = .served) ∧
    ∀ i < q.n, x.mem.data.log i = .served → ∃ j < q.b, x.mem.data.barber j = 0 := by
  have hx := (barista_start False q).reach (barista_sound False q) (h.mono fun _ _ _ _ hf => hf.elim)
  refine ⟨hx.inv.apart, fun i arrival j hcode => ?_, fun i hn hl => hx.inv.free hn hl⟩
  have hok := hx.ok (.customer i)
  rw [hcode] at hok
  exact ⟨hok.2.1, hok.2.2.2⟩

/-- The handler of the first customer has the semaphore, and the barista is free. -/
theorem barista_exclusive_first : ∃ x, Reach (body short) (start short) x ∧
    x.mem.data.log 0 = .served ∧ ∃ j < short.b, x.mem.data.barber j = 0 := by
  have hrun : ((start short).run (body short) (steps (.customer 0) 6)).map
      (fun x => x.mem.data.log 0) = some .served := by
    decide +kernel
  obtain ⟨x, hx, hl⟩ := Option.map_eq_some_iff.1 hrun
  have hreach : Reach (body short) (start short) x := .of_run hx
  exact ⟨x, hreach, hl, (barista_exclusive short hreach).2.2 0 (by decide) hl⟩

end Cafe

end PbsCow
