import PbsCow.UmallocSafe

namespace PbsCow.Umalloc
set_option autoImplicit true

/-- The walk reaches a block that is large enough before it comes back to where it started. -/
theorem Sound.wp_search (h : Sound L s F) (hp : prevp ∈ F) (hn : 0 < n)
    (hsmall : ∀ j, j < k → s.size (s.ptr^[j] (s.ptr prevp)) < n ∧ s.ptr^[j] (s.ptr prevp) ≠ s.freep)
    (hfit : n ≤ s.size (s.ptr^[k] (s.ptr prevp))) (hlt : k < m) :
    Wp (mallocLoop fuel room n m prevp (s.ptr prevp)) NoError (Served L s F n) s := by
  induction k generalizing prevp m with
  | zero =>
    obtain ⟨m, rfl⟩ := Nat.exists_eq_succ_of_ne_zero (Nat.ne_of_gt hlt)
    rw [mallocLoop, wp_bind]
    apply wp_getSize h.brk (h.header (h.ring.ring prevp hp).1)
    exact .ite_pos hfit (h.wp_takeBlock hp hn hfit)
  | succ k ih =>
    obtain ⟨m, rfl⟩ := Nat.exists_eq_succ_of_ne_zero (Nat.ne_of_gt (Nat.lt_of_le_of_lt (Nat.zero_le _) hlt))
    have hq := (h.ring.ring prevp hp).1
    obtain ⟨hlow, hother⟩ := hsmall 0 (Nat.succ_pos k)
    rw [Function.iterate_zero_apply] at hlow hother
    rw [mallocLoop, wp_bind]
    apply wp_getSize h.brk (h.header hq)
    refine .ite_neg (by omega) ?_
    rw [wp_bind, wp_get]
    refine .ite_neg hother ?_
    rw [wp_bind]
    apply wp_getPtr h.brk (h.header hq)
    exact ih hq (fun j hj => hsmall (j + 1) (by omega)) hfit (by omega)

/-- From `freep` on there is such a walk, if a block is large enough. -/
theorem Sound.wp_found (h : Sound L s F) (hn : 0 < n) (hfit : ∃ f, f ∈ F ∧ n ≤ s.size f)
    (hm : 2 * F.card + 1 < m) :
    Wp (mallocLoop fuel room n m s.freep (s.ptr s.freep)) NoError (Served L s F n) s := by
  obtain ⟨f, hf, hfit⟩ := hfit
  obtain ⟨i, hi, hiter⟩ := h.ring.ring.reach (h.ring.ring _ h.freep).1 hf
  have hex : ∃ k, n ≤ s.size (s.ptr^[k] (s.ptr s.freep)) := ⟨i, by rwa [hiter]⟩
  have hmin := Nat.find_min' hex (m := i) (by rwa [hiter])
  apply h.wp_search h.freep hn (k := Nat.find hex) _ (Nat.find_spec hex) (by omega)
  intro j hj
  refine ⟨Nat.lt_of_not_le (Nat.find_min hex hj), fun hback => ?_⟩
  -- the walk would come to the block sooner if it began here
  obtain ⟨d, hd⟩ := Nat.exists_eq_add_of_lt hj
  have hsooner : s.ptr^[d] (s.ptr s.freep) = s.ptr^[Nat.find hex] (s.ptr s.freep) := by
    rw [hd, Nat.add_assoc, Nat.add_comm j, Function.iterate_add_apply, hback, Function.iterate_succ_apply]
  have hspec := Nat.find_spec hex
  rw [← hsooner] at hspec
  exact Nat.find_min hex (by omega) hspec

/-- What `malloc` answers: nothing, or a block of a list that may have grown. -/
def Answer (L : Layout) (s : Heap) (F : Finset Nat) (n a : Nat) (t : Heap) : Prop :=
  (a = 0 ∧ t = s) ∨ ∃ s' F', Grown L s F s' F' ∧ Served L s' F' n a t

theorem Grown.refl (h : Sound L s F) : Grown L s F s F := ⟨h, le_rfl, fun _ hl _ => ⟨hl, rfl⟩⟩

theorem Sound.wp_mallocLoop {n : Nat} (h : Sound L s F) (hfuel : turns ≤ fuel) (hn : 0 < n) (hint : n * 16 < 0x80000000)
    (hp : prevp ∈ F) (hk : s.ptr^[k] (s.ptr prevp) = s.freep) (hm : k + 2 ^ 28 + 2 < m) :
    Wp (mallocLoop fuel room n m prevp (s.ptr prevp)) NoError (Answer L s F n) s := by
  have hhere {m : Nat} {prevp : Nat} (hp : prevp ∈ F) (hm : 2 ^ 28 + 2 < m) (hlow : ¬ n ≤ s.size (s.ptr prevp))
      (hfp : s.ptr prevp = s.freep) :
      Wp (mallocLoop fuel room n m prevp (s.ptr prevp)) NoError (Answer L s F n) s := by
    obtain ⟨m, rfl⟩ := Nat.exists_eq_succ_of_ne_zero (n := m) (by omega)
    rw [mallocLoop, wp_bind]
    apply wp_getSize h.brk (h.header (h.ring.ring prevp hp).1)
    refine .ite_neg hlow ?_
    rw [wp_bind, wp_get]
    refine .ite_pos hfp ?_
    apply (h.wp_morecore hfuel hint room).bind
    intro o t ho
    cases o with
    | none => exact .inl ⟨rfl, ho⟩
    | some p =>
      obtain ⟨rfl, F', hgrown, hfit⟩ := ho
      have hcard := hgrown.sound.card_le
      rw [wp_bind]
      apply wp_getPtr hgrown.sound.brk (hgrown.sound.header hgrown.sound.freep)
      apply (hgrown.sound.wp_found hn hfit (by omega)).mono
      exact fun a u hserved => .inr ⟨t, F', hgrown, hserved⟩
  induction k generalizing prevp m with
  | zero =>
    by_cases hfit : n ≤ s.size (s.ptr prevp)
    · apply (h.wp_search hp hn (k := 0) (fun j hj => absurd hj (Nat.not_lt_zero j)) hfit (by omega)).mono
      exact fun a t hserved => .inr ⟨s, F, .refl h, hserved⟩
    · exact hhere hp (by omega) hfit hk
  | succ k ih =>
    obtain ⟨m, rfl⟩ := Nat.exists_eq_succ_of_ne_zero (n := m) (by omega)
    have hq := (h.ring.ring prevp hp).1
    by_cases hfit : n ≤ s.size (s.ptr prevp)
    · apply (h.wp_search hp hn (k := 0) (fun j hj => absurd hj (Nat.not_lt_zero j)) hfit (by omega)).mono
      exact fun a t hserved => .inr ⟨s, F, .refl h, hserved⟩
    by_cases hfp : s.ptr prevp = s.freep
    · exact hhere hp (by omega) hfit hfp
    rw [mallocLoop, wp_bind]
    apply wp_getSize h.brk (h.header hq)
    refine .ite_neg hfit ?_
    rw [wp_bind, wp_get]
    refine .ite_neg hfp ?_
    rw [wp_bind]
    apply wp_getPtr h.brk (h.header hq)
    exact ih hq hk (by omega)

/-- A heap that `malloc` has not been called on. -/
structure Unused (L : Layout) (s : Heap) : Prop where
  freep : s.freep = 0
  start : L.start ≤ s.brk
  brk : s.brk ≤ PHYSTOP - KERNBASE

theorem Unused.wp_initBase (h : Unused L s) :
    Wp (initBase L) NoError (fun _ t => Sound L t {L.base} ∧ t.brk = s.brk) s := by
  have hhdr : L.base + 16 ≤ s.brk := L.below.trans h.start
  rw [initBase, wp_bind, wp_get]
  refine .ite_pos h.freep ?_
  simp only [wp_bind, wp_modify]
  apply wp_setPtr h.brk hhdr
  refine wp_setSize h.brk hhdr (by decide) ⟨⟨h.start, h.brk, ⟨⟨?_, ?_, ?_, ?_, ?_⟩, ?_⟩, ?_⟩, rfl⟩
  · exact Finset.mem_singleton_self _
  · intro f hf
    rw [Finset.mem_singleton] at hf
    rw [hf]
    dsimp only
    rw [Function.update_self]
    refine ⟨Finset.mem_singleton_self _, .inr ⟨fun x hx => ?_, fun x hx => ?_⟩⟩
    · exact (Finset.mem_singleton.mp hx).le
    · exact (Finset.mem_singleton.mp hx).ge
  · exact Function.update_self ..
  · intro f hf hne
    exact absurd (Finset.mem_singleton.mp hf) hne
  · intro f g hf hg hlt
    rw [Finset.mem_singleton.mp hf, Finset.mem_singleton.mp hg] at hlt
    exact absurd hlt (lt_irrefl _)
  · intro f hf hlt
    rw [Finset.mem_singleton.mp hf] at hlt
    dsimp only at hlt
    rw [Function.update_self] at hlt
    exact absurd hlt (lt_irrefl _)
  · exact Finset.mem_singleton_self _

theorem Sound.wp_initBase (h : Sound L s F) : Wp (initBase L) NoError (fun _ t => t = s) s := by
  have hpos := L.pos
  have hle := h.ring.base_le h.freep
  rw [initBase, wp_bind, wp_get]
  exact .ite_neg (by omega) rfl

/-- The rest of `malloc`, on a list. -/
theorem Sound.wp_rest {n : Nat} (h : Sound L s F) (hfuel : turns ≤ fuel) (hn : 0 < n) (hint : n * 16 < 0x80000000) :
    Wp (getPtr s.freep >>= mallocLoop fuel room n fuel s.freep) NoError (Answer L s F n) s := by
  have hcard := h.card_le
  have hturns : turns = 2 ^ 30 := rfl
  obtain ⟨k, hk, hiter⟩ := h.ring.ring.reach (h.ring.ring _ h.freep).1 h.freep
  rw [wp_bind]
  apply wp_getPtr h.brk (h.header h.freep)
  exact h.wp_mallocLoop hfuel hn hint h.freep hiter (by omega)

/-- A process: its heap, and the blocks that it has been given and has not freed, each with the size
that it has asked for. -/
structure Process where
  heap : Heap
  live : List (Nat × Nat)

/-- A call, or the process writing into its blocks. The call of `free` is for the `i`th live block. -/
inductive Op where
  | malloc (room : Bool) (nbytes : BitVec 32)
  | free (i : Nat)
  | store (ptr size : Nat → Nat)

def inBlock (h : Heap) (live : List (Nat × Nat)) (a : Nat) : Bool :=
  live.any fun b => b.1 + 16 ≤ a ∧ a < after h.size b.1

def onHeap (x : User α) : StateT Process (Except Stop) α :=
  zoom Process.heap (fun h s => { s with heap := h }) x

def step (L : Layout) (fuel : Nat) : Op → StateT Process (Except Stop) Nat
  | .malloc room nbytes => do
    let a ← onHeap (malloc L fuel room nbytes)
    if a ≠ 0 then modify fun s => { s with live := (a - 16, nbytes.toNat) :: s.live }
    return a
  | .free i => do
    match (← get).live[i]? with
    | none => return 0
    | some b =>
      onHeap (free fuel (b.1 + 16))
      modify fun s => { s with live := s.live.eraseIdx i }
      return 0
  | .store ptr size => do
    modify fun s => { s with heap := { s.heap with
      ptr := fun a => if inBlock s.heap s.live a then ptr a else s.heap.ptr a,
      size := fun a => if inBlock s.heap s.live a then size a else s.heap.size a } }
    return 0

/-- A block that `malloc` has returned: large enough, below the break, apart from the free list. -/
structure Given (L : Layout) (h : Heap) (F : Finset Nat) (b : Nat × Nat) : Prop where
  inHeap : InHeap L h.brk h.size b.1
  clear : Clear h.size F b.1
  enough : b.2 + 16 ≤ 16 * h.size b.1

/-- The free list is in order, and the live blocks are good and do not overlap. -/
structure Good (L : Layout) (s : Process) (F : Finset Nat) : Prop where
  sound : Sound L s.heap F
  given : ∀ b, b ∈ s.live → Given L s.heap F b
  apart : s.live.Pairwise fun b c => Apart s.heap.size b.1 c.1

def Safe (L : Layout) (s : Process) : Prop := (Unused L s.heap ∧ s.live = []) ∨ ∃ F, Good L s F

theorem Given.update (h : Given L s F b) (hbrk : s.brk ≤ t.brk) (hc : Clear t.size F' b.1)
    (hsize : t.size b.1 = s.size b.1) : Given L t F' b := by
  have hend : after t.size b.1 = after s.size b.1 := by rw [after, hsize, after]
  exact ⟨⟨h.inHeap.start, hc.pos, by rw [hend]; exact h.inHeap.brk.trans hbrk⟩, hc, by rw [hsize]; exact h.enough⟩

/-- The live blocks stay as they are when the list changes around them. -/
theorem Good.change {live : List (Nat × Nat)} (hs : Sound L t F') (hbrk : s.brk ≤ t.brk)
    (hgiven : ∀ b, b ∈ live → Given L s F b) (hap : live.Pairwise fun b c => Apart s.size b.1 c.1)
    (hc : ∀ b, b ∈ live → Clear t.size F' b.1 ∧ t.size b.1 = s.size b.1) : Good L ⟨t, live⟩ F' := by
  have hend (b : Nat × Nat) (hb : b ∈ live) : after t.size b.1 = after s.size b.1 := by
    rw [after, (hc b hb).2, after]
  refine ⟨hs, fun b hb => (hgiven b hb).update hbrk (hc b hb).1 (hc b hb).2, ?_⟩
  apply hap.imp_of_mem
  intro b c hb hcl h
  rw [Apart, hend b hb, hend c hcl]
  exact h

theorem units_pos (nbytes : BitVec 32) : 0 < units nbytes := Nat.succ_pos _

theorem units_enough (nbytes : BitVec 32) : nbytes.toNat + 16 ≤ 16 * units nbytes := by
  rw [units]
  omega

/-- `malloc` answers with nothing, or with a good block. -/
theorem Good.malloc (h : Good L s F) (ha : Answer L s.heap F (units nbytes) a t) :
    Safe L ⟨t, if a = 0 then s.live else (a - 16, nbytes.toNat) :: s.live⟩ := by
  rcases ha with ⟨rfl, rfl⟩ | ⟨s', F₁, hgrown, b, F₂, rfl, htaken, hbrk⟩
  · rw [if_pos rfl]
    exact .inr ⟨F, h⟩
  · rw [if_neg (by omega), Nat.add_sub_cancel]
    have hclear (c : Nat × Nat) (hc : c ∈ s.live) : Clear s'.size F₁ c.1 ∧ s'.size c.1 = s.heap.size c.1 :=
      hgrown.clear c.1 (h.given c hc).clear (h.given c hc).inHeap.brk
    have hsound : Sound L t F₂ := by
      refine ⟨?_, ?_, ?_, htaken.mem⟩
      · rw [hbrk]
        exact hgrown.sound.start
      · rw [hbrk]
        exact hgrown.sound.brk
      · rw [hbrk]
        exact htaken.ring
    have hgood : Good L ⟨t, s.live⟩ F₂ := by
      apply Good.change hsound (hgrown.brk.trans hbrk.ge) h.given h.apart
      intro c hc
      obtain ⟨hcl, hsz, _⟩ := htaken.clear c.1 (hclear c hc).1
      exact ⟨hcl, hsz.trans (hclear c hc).2⟩
    refine .inr ⟨F₂, hsound, fun c hc => ?_, List.pairwise_cons.mpr ⟨fun c hc => ?_, hgood.apart⟩⟩
    · rcases List.mem_cons.mp hc with rfl | hc
      · refine ⟨?_, htaken.own, ?_⟩
        · rw [hbrk]
          exact htaken.inHeap
        · rw [htaken.units]
          exact units_enough nbytes
      · exact hgood.given c hc
    · exact (htaken.clear c.1 (hclear c hc).1).2.2

theorem Good.wp_free (h : Good L s F) (hfuel : turns ≤ fuel) (hi : s.live[i]? = some b) :
    Wp (free fuel (b.1 + 16)) NoError (fun _ t => Safe L ⟨t, s.live.eraseIdx i⟩) s.heap := by
  have hb := List.mem_of_getElem? hi
  have hgiven := h.given b hb
  apply (h.sound.wp_free hfuel hgiven.inHeap hgiven.clear.apart).mono
  rintro _ t ⟨F', hfreed, hbrk⟩
  have hsub := List.eraseIdx_sublist s.live i
  have hrest (c : Nat × Nat) (hc : c ∈ s.live.eraseIdx i) : Apart s.heap.size b.1 c.1 := by
    obtain ⟨j, hj, hji, rfl⟩ := List.mem_eraseIdx_iff_getElem.mp hc
    obtain ⟨hlt, rfl⟩ := List.getElem?_eq_some_iff.mp hi
    have hpair := List.pairwise_iff_getElem.mp h.apart
    rcases Nat.lt_or_gt_of_ne hji with hlow | hhigh
    · exact (hpair j i hj hlt hlow).symm
    · exact hpair i j hlt hj hhigh
  refine .inr ⟨F', Good.change ⟨?_, ?_, ?_, hfreed.mem⟩ hbrk.ge (fun c hc => h.given c (hsub.subset hc))
    (h.apart.sublist hsub) fun c hc => ?_⟩
  · rw [hbrk]
    exact h.sound.start
  · rw [hbrk]
    exact h.sound.brk
  · rw [hbrk]
    exact hfreed.ring
  · have hcl := (h.given c (hsub.subset hc)).clear
    apply hfreed.clear c.1
    refine ⟨hcl.pos, ?_, fun f hf => ?_⟩
    · rw [Finset.mem_insert]
      refine not_or.mpr ⟨fun he => ?_, hcl.notMem⟩
      have hap := hrest c hc
      have hpos := hcl.pos
      rw [he, Apart, after] at hap
      rw [he] at hpos
      omega
    · rcases Finset.mem_insert.mp hf with rfl | hf
      · exact hrest c hc
      · exact hcl.apart f hf

theorem Good.wp_malloc (h : Good L s F) (hfuel : turns ≤ fuel) (room : Bool) {nbytes : BitVec 32}
    (hsmall : units nbytes * 16 < 0x80000000) :
    Wp (getPtr s.heap.freep >>= mallocLoop fuel room (units nbytes) fuel s.heap.freep) NoError
      (fun a t => Safe L ⟨t, if a = 0 then s.live else (a - 16, nbytes.toNat) :: s.live⟩) s.heap :=
  (h.sound.wp_rest hfuel (units_pos nbytes) hsmall).mono fun _ _ ha => h.malloc ha

/-- What the process writes into its blocks is nobody's header. -/
theorem Good.store (h : Good L s F) (ptr size : Nat → Nat) :
    Good L { s with heap := { s.heap with
      ptr := fun a => if inBlock s.heap s.live a then ptr a else s.heap.ptr a,
      size := fun a => if inBlock s.heap s.live a then size a else s.heap.size a } } F := by
  have hfree {f : Nat} (hf : f ∈ F) : inBlock s.heap s.live f = false := by
    rw [inBlock, List.any_eq_false]
    intro b hb hin
    have hap := (h.given b hb).clear.apart f hf
    simp only [decide_eq_true_eq] at hin
    rw [Apart, after] at hap
    omega
  have hlive {c : Nat × Nat} (hc : c ∈ s.live) : inBlock s.heap s.live c.1 = false := by
    rw [inBlock, List.any_eq_false]
    intro b hb hin
    simp only [decide_eq_true_eq] at hin
    have hpos := (h.given c hc).inHeap.pos
    by_cases hbc : b = c
    · rw [hbc] at hin
      omega
    · have hap : Apart s.heap.size b.1 c.1 := by
        obtain ⟨i, hi, rfl⟩ := List.mem_iff_getElem.mp hb
        obtain ⟨j, hj, rfl⟩ := List.mem_iff_getElem.mp hc
        have hpair := List.pairwise_iff_getElem.mp h.apart
        rcases Nat.lt_trichotomy i j with hlow | rfl | hhigh
        · exact hpair i j hi hj hlow
        · exact absurd rfl hbc
        · exact (hpair j i hj hi hhigh).symm
      simp only [Apart, after] at hap hin
      omega
  have hfsize (f : Nat) (hf : f ∈ F) :
      (if inBlock s.heap s.live f then size f else s.heap.size f) = s.heap.size f := by
    rw [hfree hf]
    rfl
  have hlsize (c : Nat × Nat) (hc : c ∈ s.live) :
      (if inBlock s.heap s.live c.1 then size c.1 else s.heap.size c.1) = s.heap.size c.1 := by
    rw [hlive hc]
    rfl
  refine Good.change (s := s.heap) ?_ (Nat.le_refl _) h.given h.apart ?_
  · refine ⟨h.sound.start, h.sound.brk, ⟨⟨h.sound.ring.base, h.sound.ring.ring.congr fun f hf => ?_, ?_, ?_, ?_⟩, ?_⟩,
      h.sound.freep⟩
    · dsimp only
      rw [hfree hf]
      rfl
    · dsimp only
      rw [hfsize _ h.sound.ring.base, h.sound.ring.flat]
    · intro f hf hne
      have hin := h.sound.ring.inside f hf hne
      refine ⟨hin.start, ?_, ?_⟩
      · dsimp only
        rw [hfsize f hf]
        exact hin.pos
      · have hle := hin.brk
        simp only [after] at hle ⊢
        rwa [hfsize f hf]
    · intro f g hf hg hlt
      have hle := h.sound.ring.apart f g hf hg hlt
      simp only [after] at hle ⊢
      rwa [hfsize f hf]
    · intro f hf
      have hl := h.sound.ring.loose f hf
      simp only [Loose, after] at hl ⊢
      rwa [hfsize f hf, hfree hf]
  · intro c hc
    have hcl := (h.given c hc).clear
    refine ⟨⟨?_, hcl.notMem, fun f hf => ?_⟩, hlsize c hc⟩
    · dsimp only
      rw [hlsize c hc]
      exact hcl.pos
    · have hap := hcl.apart f hf
      simp only [Apart, after] at hap ⊢
      rwa [hfsize f hf, hlsize c hc]

/-- A request whose size in bytes is not negative as an `int`. -/
def Small : Op → Prop
  | .malloc _ nbytes => nbytes.toNat ≤ 0x7FFFFFE0
  | _ => True

theorem Safe.wp_step (h : Safe L s) (hfuel : turns ≤ fuel) (op : Op) (hsmall : Small op) :
    Wp (step L fuel op) NoError (fun _ t => Safe L t) s := by
  cases op with
  | malloc room nbytes =>
    have hunits : units nbytes * 16 < 0x80000000 := by
      have hle : nbytes.toNat ≤ 0x7FFFFFE0 := hsmall
      rw [units]
      omega
    have hmalloc : Wp (Umalloc.malloc L fuel room nbytes) NoError (fun a t =>
        Safe L ⟨t, if a = 0 then s.live else (a - 16, nbytes.toNat) :: s.live⟩) s.heap := by
      rw [Umalloc.malloc]
      rcases h with ⟨hunused, hlive⟩ | ⟨F, hgood⟩
      · apply hunused.wp_initBase.bind
        rintro _ t ⟨hsound, _⟩
        have hgood : Good L ⟨t, s.live⟩ {L.base} := by
          refine ⟨hsound, ?_, ?_⟩
          · rw [hlive]
            exact fun b hb => absurd hb List.not_mem_nil
          · rw [hlive]
            exact .nil
        exact hgood.wp_malloc hfuel room hunits
      · apply hgood.sound.wp_initBase.bind
        rintro _ t rfl
        exact hgood.wp_malloc hfuel room hunits
    rw [step, wp_bind, onHeap, wp_zoom]
    apply hmalloc.mono
    intro a t hsafe
    refine .ite (fun hne => ?_) fun heq => ?_
    · rw [if_neg hne] at hsafe
      exact hsafe
    · rw [if_pos (not_not.mp heq)] at hsafe
      exact hsafe
  | free i =>
    rw [step, wp_bind, wp_get]
    cases hi : s.live[i]? with
    | none => exact h
    | some b =>
      rcases h with ⟨_, hlive⟩ | ⟨F, hgood⟩
      · rw [hlive] at hi
        cases hi
      · simp only [wp_bind, onHeap, wp_zoom]
        exact hgood.wp_free hfuel hi
  | store ptr size =>
    rcases h with ⟨hunused, hlive⟩ | ⟨F, hgood⟩
    · exact .inl ⟨⟨hunused.freep, hunused.start, hunused.brk⟩, hlive⟩
    · exact .inr ⟨F, hgood.store ptr size⟩

/-- A request whose size in bytes is negative or zero as an `int`. -/
def Narrowed (nbytes : BitVec 32) : Prop := 0x7FFFFFE0 < nbytes.toNat ∧ nbytes.toNat ≤ 0xFFFFFFF0

theorem toInt_nonpos (hlow : 0x80000000 ≤ v) (hhigh : v ≤ 0x100000000) : toInt v ≤ 0 := by
  unfold toInt
  rw [Int.bmod_def]
  split <;> omega

theorem wp_skip {x : User α} {f : α → User β} {Q : β → Heap → Prop} (hf : ∀ a t, Wp (f a) AnyError Q t) :
    Wp (x >>= f) AnyError Q s :=
  Wp.bind (P := fun _ _ => True) (.of_forall fun _ _ => trivial) fun a t _ => hf a t

/-- Then `sbrk` does not fail, and `malloc` does not return 0. -/
theorem wp_mallocLoop_narrowed {n : Nat} (hn : 0x80000000 ≤ n * 16) (hle : n * 16 ≤ 0x100000000)
    (m prevp p : Nat) (s : Heap) :
    Wp (mallocLoop fuel room n m prevp p) AnyError (fun a _ => a ≠ 0) s := by
  have htake (prevp p : Nat) (s : Heap) : Wp (takeBlock n prevp p) AnyError (fun a _ => a ≠ 0) s := by
    rw [takeBlock]
    refine wp_skip fun _ _ => .ite (fun _ => ?_) fun _ => ?_
    · refine wp_skip fun _ _ => ?_
      refine wp_skip fun _ _ => ?_
      exact Nat.succ_ne_zero _
    · refine wp_skip fun _ _ => ?_
      refine wp_skip fun _ _ => ?_
      refine wp_skip fun _ _ => ?_
      exact Nat.succ_ne_zero _
  induction m generalizing prevp p s with
  | zero => exact trivial
  | succ m ih =>
    rw [mallocLoop]
    refine wp_skip fun _ s₁ => ?_
    refine .ite (fun _ => htake prevp p s₁) fun _ => ?_
    rw [wp_bind, wp_get]
    refine .ite (fun _ => ?_) fun _ => ?_
    · have hsome : Wp (morecore fuel room n) AnyError (fun o _ => o ≠ none) s₁ := by
        rw [morecore, if_neg (by omega), wp_bind, sbrk, wp_bind, wp_get]
        have hgrow : ∃ sz, growproc room s₁.brk (toInt (n * 16)) = some sz := by
          have hneg := toInt_nonpos hn hle
          unfold growproc
          rw [if_neg (by omega)]
          split <;> exact ⟨_, rfl⟩
        obtain ⟨sz, hsz⟩ := hgrow
        dsimp only
        rw [hsz]
        refine wp_skip fun _ _ => ?_
        refine wp_skip fun _ _ => ?_
        refine wp_skip fun _ _ => ?_
        exact fun h => by cases h
      apply hsome.bind
      intro o s₂ ho
      cases o with
      | none => exact absurd rfl ho
      | some p' =>
        exact wp_skip fun _ _ => ih _ _ _
    · exact wp_skip fun _ _ => ih _ _ _

/-- Such a request is never answered with good memory. -/
theorem wp_step_narrowed (L : Layout) (fuel : Nat) (room : Bool) (nbytes : BitVec 32) (h : Narrowed nbytes)
    (s : Process) : ¬ Wp (step L fuel (.malloc room nbytes)) NoError (fun _ t => Safe L t) s := by
  have hunits : 0x80000000 ≤ units nbytes * 16 ∧ units nbytes * 16 ≤ 0x100000000 := by
    have hlow := h.1
    have hhigh := h.2
    rw [units]
    omega
  intro hsafe
  have hne : Wp (malloc L fuel room nbytes) AnyError (fun a _ => a ≠ 0) s.heap := by
    rw [malloc]
    refine wp_skip fun _ t => wp_skip fun _ u => wp_skip fun p v => ?_
    exact wp_mallocLoop_narrowed hunits.1 hunits.2 fuel _ p v
  rw [step, wp_bind, onHeap, wp_zoom] at hsafe
  obtain ⟨a, t, hok, ht⟩ := hsafe.exists_ok
  have ha := hne.of_eq_ok hok
  rw [if_pos ha] at ht
  rcases ht with ⟨_, hlive⟩ | ⟨F, hgood⟩
  · cases hlive
  · have hgiven := hgood.given _ List.mem_cons_self
    have henough := hgiven.enough
    have hin := hgiven.inHeap.brk
    have hbrk := hgood.sound.brk
    have hmem : PHYSTOP - KERNBASE = 2 ^ 27 := rfl
    have hlow := h.1
    rw [after] at hin
    dsimp only at henough hin hbrk
    omega

/-- `malloc` gives out good memory as long as no request is too large for the `int` of `sbrk`; one
that is negative or zero there never gets any. -/
theorem malloc_safe (L : Layout) :
    (∀ ops, (∀ op, op ∈ ops → Small op) → ∀ fuel, turns ≤ fuel → ∀ s : Process, Unused L s.heap → s.live = [] →
      Wp (runWith (step L fuel) ops) NoError (fun _ t => Safe L t) s) ∧
      ∀ nbytes, Narrowed nbytes → ∀ fuel room s,
        ¬ Wp (step L fuel (.malloc room nbytes)) NoError (fun _ t => Safe L t) s := by
  constructor
  · intro ops hsmall fuel hfuel s hunused hlive
    refine Meets.run (C := fun _ _ => True) (.of_forall (fun _ _ _ => trivial) s) (.inl ⟨hunused, hlive⟩) ?_
    exact fun op hop s hs _ => hs.wp_step hfuel op (hsmall op hop)
  · exact fun nbytes h fuel room s => wp_step_narrowed L fuel room nbytes h s

/-- A program of two pages and a stack. -/
def smallProgram : Layout := ⟨0x1000, 0x4000, by decide, by decide⟩

def smallProcess : Process := ⟨⟨fun _ => 0, fun _ => 0, 0, 0x4000⟩, []⟩

theorem malloc_unsafe :
    ¬ Wp (runWith (step smallProgram turns) [.malloc true 70000, .malloc true 0x80000000]) NoError
      (fun _ t => Safe smallProgram t) smallProcess := by
  intro h
  rw [runWith, wp_bind] at h
  obtain ⟨a, s, _, hs⟩ := h.exists_ok
  rw [wp_bind, runWith, wp_bind] at hs
  apply wp_step_narrowed smallProgram turns true 0x80000000 ⟨by decide, by decide⟩ s
  exact hs.mono fun _ _ ht => ht

end PbsCow.Umalloc
