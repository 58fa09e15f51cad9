import Mathlib.Tactic.Ring
import PbsCow.Lib.Shares
import PbsCow.OpenFiles

namespace PbsCow.OpenFiles
set_option autoImplicit true

variable {s s' : Mem} {t t' np : Slot}

/-- How many of the slots point to a file. -/
def slots (o : Nat → Option Nat) (f : Nat) : Int := ∑ fd ∈ Finset.range NOFILE, if o fd = some f then 1 else 0

/-- The references that a process has, in its slots or in its kernel code. -/
def Mem.share (s : Mem) (t : Slot) (f : Nat) : Int := slots (s.ofile t) f + s.held t f

/-- The end of a pipe that a file is, or that a `fileclose` has taken over. -/
def Mem.endOf (s : Mem) : Nat ⊕ Slot → Option (Nat × Bool)
  | .inl f => if f < NFILE ∧ (s.file f).type = .FD_PIPE then some ((s.file f).pipe, (s.file f).writable) else none
  | .inr t => match s.closing t with
    | some (.pipeclose pi writable) => some (pi, writable)
    | _ => none

def Pipe.opens (p : Pipe) (writable : Bool) : Bool := if writable then p.writeopen else p.readopen

/-- `readopen` or `writeopen` of the pipe in a page. -/
def Mem.opens (s : Mem) (pi : Nat) (writable : Bool) : Bool :=
  match s.page pi with
  | .pipe p => p.opens writable
  | _ => false

/-- An end of a pipe is open as long as one file is that end, or one process is about to close it. -/
structure Piped (s : Mem) : Prop where
  ends : ∀ pi writable, (∃ h, s.endOf h = some (pi, writable)) ↔ s.opens pi writable = true
  alone : ∀ h h' e, s.endOf h = some e → s.endOf h' = some e → h = h'
  closed : ∀ t pi, s.closing t = some (.kfree pi) → s.page pi = .pipe ⟨false, false⟩
  last : ∀ t t' pi, s.closing t = some (.kfree pi) → s.closing t' = some (.kfree pi) → t = t'
  dead : ∀ pi, s.page pi = .pipe ⟨false, false⟩ → ∃ t, s.closing t = some (.kfree pi)

structure Inv (s : Mem) : Prop where
  panic : s.panic = none
  shares : ∀ f, f < NFILE → Shares (s.file f).ref fun t => s.share t f
  range : ∀ t fd f, s.ofile t fd = some f → fd < NOFILE ∧ f < NFILE
  unused : ∀ f, f < NFILE → (s.file f).ref = 0 → (s.file f).type = .FD_NONE
  idle : ∀ t, s.state t ≠ .RUNNABLE → s.held t = 0 ∧ s.closing t = none
  empty : ∀ t, s.state t = .UNUSED ∨ s.state t = .ZOMBIE → ∀ fd, s.ofile t fd = none
  pipes : Piped s

/-- What the code of slot `t` may do. -/
structure Guar (t : Slot) (s s' : Mem) : Prop where
  private_ : ∀ t', t' ≠ t → s'.held t' = s.held t' ∧ s'.closing t' = s.closing t'
  runnable : ∀ t', t' ≠ t → s.state t' = .RUNNABLE → s'.state t' = .RUNNABLE ∧ s'.ofile t' = s.ofile t'
  embryo : ∀ np t', t' ≠ t → s.state np = .USED t' → s'.state np = .USED t' ∧ s'.ofile np = s.ofile np
  file : ∀ f, f < NFILE → s.share t f = 0 → 0 < (s.file f).ref → s'.file f = s.file f
  taken : ∀ pi t', t' ≠ t → s.page pi = .taken t' → s'.page pi = .taken t'

/-- Slot `t` runs, with these open files, and these references in its kernel code. -/
structure At (t : Slot) (o : Nat → Option Nat) (k : Nat → Int) (c : Option Closing) (s : Mem) : Prop where
  state : s.state t = .RUNNABLE
  ofile : s.ofile t = o
  held : s.held t = k
  closing : s.closing t = c

def one (f : Nat) : Nat → Int := fun g => if g = f then 1 else 0

theorem slots_update (o : Nat → Option Nat) (hfd : fd < NOFILE) (x : Option Nat) (g : Nat) :
    slots (Function.update o fd x) g =
      slots o g - (if o fd = some g then 1 else 0) + if x = some g then 1 else 0 := by
  have hmem : fd ∈ Finset.range NOFILE := Finset.mem_range.2 hfd
  rw [slots, slots, ← Finset.add_sum_erase _ _ hmem,
    ← Finset.add_sum_erase _ (fun fd => if o fd = some g then (1 : Int) else 0) hmem, Function.update_self]
  have hrest : ∑ i ∈ (Finset.range NOFILE).erase fd, (if Function.update o fd x i = some g then (1 : Int) else 0) =
      ∑ i ∈ (Finset.range NOFILE).erase fd, if o i = some g then 1 else 0 := by
    apply Finset.sum_congr rfl
    intro i hi
    rw [Function.update_of_ne (Finset.ne_of_mem_erase hi)]
  rw [hrest]
  omega

theorem slots_nonneg (o : Nat → Option Nat) (f : Nat) : 0 ≤ slots o f := by
  apply Finset.sum_nonneg
  intro fd _
  split
  · exact Int.one_nonneg
  · exact Int.le_refl 0

theorem slots_pos {o : Nat → Option Nat} (hfd : fd < NOFILE) (h : o fd = some f) : 1 ≤ slots o f := by
  have hself := slots_update o hfd none f
  have hnn := slots_nonneg (Function.update o fd none) f
  rw [if_pos h, if_neg (nofun)] at hself
  omega

/-- A step that changes neither pages, nor which file or process has which end of a pipe. -/
theorem Piped.congr (s' : Mem) (h : Piped s) (hend : s'.endOf = s.endOf) (hpage : s'.page = s.page)
    (hclosing : ∀ t pi, s'.closing t = some (.kfree pi) ↔ s.closing t = some (.kfree pi)) : Piped s' where
  ends pi writable := by
    rw [hend, Mem.opens, hpage]
    exact h.ends pi writable
  alone := by
    rw [hend]
    exact h.alone
  closed t pi hc := by
    rw [hpage]
    exact h.closed t pi ((hclosing t pi).1 hc)
  last t t' pi hc hc' := h.last t t' pi ((hclosing t pi).1 hc) ((hclosing t' pi).1 hc')
  dead pi hp := by
    rw [hpage] at hp
    obtain ⟨t, ht⟩ := h.dead pi hp
    exact ⟨t, (hclosing t pi).2 ht⟩

theorem endOf_congr (s s' : Mem) (hfile : ∀ f, f < NFILE → (s'.file f).type = (s.file f).type ∧
    ((s.file f).type = .FD_PIPE → (s'.file f).pipe = (s.file f).pipe ∧ (s'.file f).writable = (s.file f).writable))
    (hclosing : s'.closing = s.closing) : s'.endOf = s.endOf := by
  funext h
  cases h with
  | inl f =>
    rw [Mem.endOf, Mem.endOf]
    by_cases hf : f < NFILE ∧ (s.file f).type = .FD_PIPE
    · obtain ⟨htype, hsame⟩ := hfile f hf.1
      obtain ⟨hpipe, hwritable⟩ := hsame hf.2
      rw [if_pos hf, if_pos ⟨hf.1, htype.trans hf.2⟩, hpipe, hwritable]
    · rw [if_neg hf, if_neg]
      intro hf'
      exact hf ⟨hf'.1, (hfile f hf'.1).1.symm.trans hf'.2⟩
  | inr t =>
    rw [Mem.endOf, Mem.endOf, hclosing]

section Updates

variable (s : Mem) (t : Slot) (f : Nat) (d : Int) (x : File) (fd : Nat) (y : Option Nat)

theorem share_hold (t' : Slot) (g : Nat) :
    (s.hold t f d).share t' g = s.share t' g + if t' = t ∧ g = f then d else 0 := by
  rw [Mem.share, Mem.share, Mem.hold]
  by_cases ht : t' = t
  · subst ht
    by_cases hg : g = f
    · subst hg
      simp only [Function.update_self, and_self, if_true]
      omega
    · simp only [Function.update_self, Function.update_of_ne hg, hg, and_false, if_false]
      omega
  · simp only [Function.update_of_ne ht, ht, false_and, if_false]
    omega

theorem share_setOfile (hfd : fd < NOFILE) (t' : Slot) (g : Nat) :
    (s.setOfile t fd y).share t' g = s.share t' g +
      if t' = t then (if y = some g then 1 else 0) - (if s.ofile t fd = some g then 1 else 0) else 0 := by
  rw [Mem.share, Mem.share, Mem.setOfile]
  by_cases ht : t' = t
  · subst ht
    simp only [Function.update_self, if_true]
    rw [slots_update _ hfd]
    omega
  · simp only [Function.update_of_ne ht, ht, if_false]
    omega

end Updates

/-- A step that changes the references of `t` to the file `f` by `d`. -/
theorem Inv.count (s' : Mem) (h : Inv s) (hrun : s.state t = .RUNNABLE) (hofile : s'.ofile = s.ofile) (hstate : s'.state = s.state)
    (hpanic : s'.panic = s.panic) (hheld : s'.held = (s.hold t f d).held)
    (hclosing : ∀ t', t' ≠ t → s'.closing t' = s.closing t') (hfile : ∀ g, g ≠ f → s'.file g = s.file g)
    (href : (s'.file f).ref = (s.file f).ref + d) (hpos : 0 ≤ s.share t f + d)
    (hunused : (s'.file f).ref = 0 → (s'.file f).type = .FD_NONE) (hpipes : Piped s') : Inv s' := by
  have hshare (t' : Slot) (g : Nat) : s'.share t' g = s.share t' g + if t' = t ∧ g = f then d else 0 := by
    rw [← share_hold, Mem.share, Mem.share, hofile, hheld]
    rfl
  refine ⟨hpanic.trans h.panic, fun g hg => ?_, ?_, fun g hg h0 => ?_, fun t' ht' => ?_, ?_, hpipes⟩
  · by_cases hgf : g = f
    · subst hgf
      rw [href]
      apply (h.shares g hg).change _ t d hpos
      · rw [hshare, if_pos ⟨rfl, rfl⟩]
      · intro i hi
        rw [hshare, if_neg fun hc => hi hc.1, add_zero]
    · rw [hfile g hgf]
      have hsame : (fun i => s'.share i g) = fun i => s.share i g := by
        funext i
        rw [hshare, if_neg fun hc => hgf hc.2, add_zero]
      rw [hsame]
      exact h.shares g hg
  · rw [hofile]
    exact h.range
  · by_cases hgf : g = f
    · rw [hgf] at h0 ⊢
      exact hunused h0
    · rw [hfile g hgf] at h0 ⊢
      exact h.unused g hg h0
  · rw [hstate] at ht'
    have hne : t' ≠ t := by
      rintro rfl
      exact ht' hrun
    obtain ⟨h₁, h₂⟩ := h.idle t' ht'
    refine ⟨?_, (hclosing t' hne).trans h₂⟩
    rw [hheld]
    exact (Function.update_of_ne hne ..).trans h₁
  · rw [hstate, hofile]
    exact h.empty

theorem Guar.count (s s' : Mem) (hstate : s'.state = s.state) (hofile : s'.ofile = s.ofile) (hheld : s'.held = (s.hold t f d).held)
    (hclosing : ∀ t', t' ≠ t → s'.closing t' = s.closing t') (hfile : ∀ g, g ≠ f → s'.file g = s.file g)
    (hmine : s.share t f = 0 → ¬0 < (s.file f).ref) (hpage : s'.page = s.page) : Guar t s s' where
  private_ t' ht' := by
    refine ⟨?_, hclosing t' ht'⟩
    rw [hheld]
    exact Function.update_of_ne ht' ..
  runnable t' _ hr := by
    rw [hstate, hofile]
    exact ⟨hr, rfl⟩
  embryo np t' _ hu := by
    rw [hstate, hofile]
    exact ⟨hu, rfl⟩
  file g _ h0 hpos := by
    apply hfile
    rintro rfl
    exact hmine h0 hpos
  taken pi t' _ hp := by
    rw [hpage]
    exact hp

theorem freeFile_some (h : s.freeFile = some f) : f < NFILE ∧ (s.file f).ref = 0 := by
  have hmem := List.mem_of_find?_eq_some h
  have hp := List.find?_some h
  exact ⟨List.mem_range.1 hmem, eq_of_beq hp⟩

theorem freeFd_some (h : s.freeFd t = some fd) : fd < NOFILE ∧ s.ofile t fd = none := by
  have hmem := List.mem_of_find?_eq_some h
  have hp := List.find?_some h
  exact ⟨List.mem_range.1 hmem, Option.isNone_iff_eq_none.1 hp⟩

theorem held_hold (s : Mem) (t : Slot) (f : Nat) (d : Int) : (s.hold t f d).held t = fun g => s.held t g + d * one f g := by
  funext g
  simp only [Mem.hold, Function.update_self, one]
  by_cases hg : g = f
  · rw [hg, Function.update_self, if_pos rfl, mul_one]
  · rw [Function.update_of_ne hg, if_neg hg, mul_zero, add_zero]

theorem At.share (h : At t o k c s) : s.share t f = slots o f + k f := by rw [Mem.share, h.ofile, h.held]

theorem Inv.ref_pos (h : Inv s) (hf : f < NFILE) (hmine : 1 ≤ s.share t f) : 1 ≤ (s.file f).ref :=
  Int.le_trans hmine ((h.shares f hf).le t)

theorem Inv.take (h : Inv s) (hrun : s.state t = .RUNNABLE) (hf : f < NFILE) (h0 : (s.file f).ref = 0) :
    Inv (s.take t f) ∧ Guar t s (s.take t f) := by
  have hself : (s.take t f).file f = { s.file f with ref := 1 } := Function.update_self ..
  have hother (g : Nat) (hg : g ≠ f) : (s.take t f).file g = s.file g := Function.update_of_ne hg ..
  constructor
  · apply h.count (s.take t f) (d := 1) hrun rfl rfl rfl rfl (fun _ _ => rfl) hother
    · rw [hself, h0]
      rfl
    · have hnn := (h.shares f hf).nonneg t
      omega
    · intro hc
      rw [hself] at hc
      cases hc
    · apply h.pipes.congr (s.take t f) (endOf_congr s (s.take t f) (fun g _ => ?_) rfl) rfl fun _ _ => Iff.rfl
      by_cases hg : g = f
      · subst hg
        rw [hself]
        exact ⟨rfl, fun _ => ⟨rfl, rfl⟩⟩
      · rw [hother g hg]
        exact ⟨rfl, fun _ => ⟨rfl, rfl⟩⟩
  · apply Guar.count s (s.take t f) (d := 1) rfl rfl rfl (fun _ _ => rfl) hother _ rfl
    intro _ hpos
    omega

theorem Inv.dup (h : Inv s) (hrun : s.state t = .RUNNABLE) (hf : f < NFILE) (hmine : 1 ≤ s.share t f) :
    Inv (s.dup t f) ∧ Guar t s (s.dup t f) := by
  have hself : (s.dup t f).file f = { s.file f with ref := (s.file f).ref + 1 } := Function.update_self ..
  have hother (g : Nat) (hg : g ≠ f) : (s.dup t f).file g = s.file g := Function.update_of_ne hg ..
  have hpos := h.ref_pos hf hmine
  constructor
  · apply h.count (s.dup t f) (d := 1) hrun rfl rfl rfl rfl (fun _ _ => rfl) hother
    · rw [hself]
    · omega
    · intro hc
      rw [hself] at hc
      dsimp only at hc
      omega
    · apply h.pipes.congr (s.dup t f) (endOf_congr s (s.dup t f) (fun g _ => ?_) rfl) rfl fun _ _ => Iff.rfl
      by_cases hg : g = f
      · subst hg
        rw [hself]
        exact ⟨rfl, fun _ => ⟨rfl, rfl⟩⟩
      · rw [hother g hg]
        exact ⟨rfl, fun _ => ⟨rfl, rfl⟩⟩
  · apply Guar.count s (s.dup t f) (d := 1) rfl rfl rfl (fun _ _ => rfl) hother _ rfl
    intro h0
    omega

/-- The end of a pipe that was the file's is that of the `fileclose` that will close it. -/
theorem Piped.move (h : Piped s) (hnone : s.closing t = none) (hf : s.endOf (.inl f) = some e)
    (hend : s'.endOf = Function.update (Function.update s.endOf (.inl f) none) (.inr t) (some e))
    (hpage : s'.page = s.page) (hclosing : ∀ t' pi, s'.closing t' = some (.kfree pi) ↔ s.closing t' = some (.kfree pi)) :
    Piped s' := by
  have hold (x : Nat ⊕ Slot) (e' : Nat × Bool) : s'.endOf x = some e' ↔
      x = .inr t ∧ e' = e ∨ x ≠ .inr t ∧ x ≠ .inl f ∧ s.endOf x = some e' := by
    rw [hend]
    by_cases hx : x = .inr t
    · subst hx
      rw [Function.update_self]
      simp only [Option.some.injEq, true_and, ne_eq, not_true_eq_false, false_and, or_false]
      exact eq_comm
    · rw [Function.update_of_ne hx]
      by_cases hxf : x = .inl f
      · subst hxf
        rw [Function.update_self]
        simp [hx]
      · rw [Function.update_of_ne hxf]
        simp [hx, hxf]
  have hnot : s.endOf (.inr t) = none := by rw [Mem.endOf, hnone]
  have hwhere (x : Nat ⊕ Slot) (e' : Nat × Bool) (hx : s.endOf x = some e') : x = .inl f ∧ e' = e ∨ s'.endOf x = some e' := by
    by_cases hxf : x = .inl f
    · subst hxf
      exact .inl ⟨rfl, Option.some.inj (hx.symm.trans hf)⟩
    · refine .inr ((hold x e').2 (.inr ⟨?_, hxf, hx⟩))
      rintro rfl
      rw [hnot] at hx
      cases hx
  constructor
  · intro pi writable
    rw [Mem.opens, hpage, ← Mem.opens, ← h.ends]
    constructor
    · intro hex
      obtain ⟨x, hx⟩ := hex
      rcases (hold x _).1 hx with ⟨_, he⟩ | ⟨_, _, hx⟩
      · exact ⟨.inl f, he ▸ hf⟩
      · exact ⟨x, hx⟩
    · intro hex
      obtain ⟨x, hx⟩ := hex
      rcases hwhere x _ hx with ⟨_, he⟩ | hx
      · exact ⟨.inr t, (hold _ _).2 (.inl ⟨rfl, he⟩)⟩
      · exact ⟨x, hx⟩
  · intro x x' e' hx hx'
    rcases (hold x e').1 hx with ⟨rfl, rfl⟩ | ⟨hne, hnf, hx⟩
    · rcases (hold x' e').1 hx' with ⟨rfl, _⟩ | ⟨_, hnf', hx'⟩
      · rfl
      · exact absurd (h.alone _ _ _ hx' hf) hnf'
    · rcases (hold x' e').1 hx' with ⟨_, rfl⟩ | ⟨_, _, hx'⟩
      · exact absurd (h.alone _ _ _ hx hf) hnf
      · exact h.alone _ _ _ hx hx'
  · intro t' pi hc
    rw [hpage]
    exact h.closed t' pi ((hclosing t' pi).1 hc)
  · intro t' t'' pi hc hc'
    exact h.last t' t'' pi ((hclosing t' pi).1 hc) ((hclosing t'' pi).1 hc')
  · intro pi hp
    rw [hpage] at hp
    obtain ⟨t', ht'⟩ := h.dead pi hp
    exact ⟨t', (hclosing t' pi).2 ht'⟩

theorem lastPipe_of_more (h : 0 < (s.file f).ref - 1) : s.lastPipe f = none := if_pos h

theorem Inv.drop (h : Inv s) (ha : At t o k none s) (hf : f < NFILE) (hmine : 1 ≤ s.share t f) :
    Inv (s.drop t f) ∧ Guar t s (s.drop t f) ∧ At t o (fun g => k g - one f g) (s.lastPipe f) (s.drop t f) := by
  have hpos := h.ref_pos hf hmine
  have hheld : (fun g => s.held t g + -1 * one f g) = fun g => k g - one f g := by
    funext g
    rw [ha.held]
    ring
  rw [Mem.drop]
  by_cases hmore : 0 < (s.file f).ref - 1
  · rw [if_pos hmore, lastPipe_of_more hmore]
    obtain ⟨u, hu⟩ : ∃ u, u = (s.setFile f { s.file f with ref := (s.file f).ref - 1 }).hold t f (-1) := ⟨_, rfl⟩
    have hself : u.file f = { s.file f with ref := (s.file f).ref - 1 } := hu ▸ Function.update_self ..
    have hother (g : Nat) (hg : g ≠ f) : u.file g = s.file g := hu ▸ Function.update_of_ne hg ..
    rw [← hu]
    refine ⟨?_, ?_, ?_⟩
    · apply h.count u (d := -1) ha.state (by rw [hu]; rfl) (by rw [hu]; rfl) (by rw [hu]; rfl) (by rw [hu]; rfl)
        (fun _ _ => by rw [hu]; rfl) hother
      · rw [hself]
        rfl
      · omega
      · intro hc
        rw [hself] at hc
        dsimp only at hc
        omega
      · apply h.pipes.congr u (endOf_congr s u (fun g _ => ?_) (by rw [hu]; rfl)) (by rw [hu]; rfl) fun _ _ => by rw [hu]; rfl
        by_cases hg : g = f
        · subst hg
          rw [hself]
          exact ⟨rfl, fun _ => ⟨rfl, rfl⟩⟩
        · rw [hother g hg]
          exact ⟨rfl, fun _ => ⟨rfl, rfl⟩⟩
    · apply Guar.count s u (d := -1) (by rw [hu]; rfl) (by rw [hu]; rfl) (by rw [hu]; rfl) (fun _ _ => by rw [hu]; rfl)
        hother _ (by rw [hu]; rfl)
      intro h0
      omega
    · rw [hu]
      exact ⟨ha.state, ha.ofile, (held_hold ..).trans hheld, ha.closing⟩
  · rw [if_neg hmore]
    obtain ⟨u, hu⟩ : ∃ u, u = ((s.setFile f { s.file f with ref := 0, type := .FD_NONE }).hold t f (-1)).setClosing t
      (s.lastPipe f) := ⟨_, rfl⟩
    have hself : u.file f = { s.file f with ref := 0, type := .FD_NONE } := hu ▸ Function.update_self ..
    have hother (g : Nat) (hg : g ≠ f) : u.file g = s.file g := hu ▸ Function.update_of_ne hg ..
    have hclose : u.closing = Function.update s.closing t (s.lastPipe f) := by rw [hu]; rfl
    have hothers (t' : Slot) (ht' : t' ≠ t) : u.closing t' = s.closing t' := by
      rw [hclose]
      exact Function.update_of_ne ht' ..
    have hkfree (t' : Slot) (pi : Nat) : u.closing t' = some (.kfree pi) ↔ s.closing t' = some (.kfree pi) := by
      by_cases ht' : t' = t
      · subst ht'
        rw [hclose, Function.update_self, ha.closing, Mem.lastPipe, if_neg hmore]
        split <;> simp
      · rw [hothers t' ht']
    rw [← hu]
    refine ⟨?_, ?_, ?_⟩
    · apply h.count u (d := -1) ha.state (by rw [hu]; rfl) (by rw [hu]; rfl) (by rw [hu]; rfl) (by rw [hu]; rfl)
        hothers hother
      · rw [hself]
        dsimp only
        omega
      · omega
      · intro _
        rw [hself]
      · by_cases htype : (s.file f).type = .FD_PIPE
        · have hlast : s.lastPipe f = some (.pipeclose (s.file f).pipe (s.file f).writable) := by
            rw [Mem.lastPipe, if_neg hmore, if_pos htype]
          have hend : s.endOf (.inl f) = some ((s.file f).pipe, (s.file f).writable) := if_pos ⟨hf, htype⟩
          apply h.pipes.move ha.closing hend _ (by rw [hu]; rfl) hkfree
          funext x
          cases x with
          | inl g =>
            rw [Function.update_of_ne (by simp)]
            by_cases hg : g = f
            · subst hg
              rw [Function.update_self, Mem.endOf, hself]
              exact if_neg fun hc => by cases hc.2
            · rw [Function.update_of_ne (by simpa using hg), Mem.endOf, Mem.endOf, hother g hg]
          | inr t' =>
            by_cases ht' : t' = t
            · subst ht'
              rw [Function.update_self, Mem.endOf, hclose, Function.update_self, hlast]
            · rw [Function.update_of_ne (by simpa using ht'), Function.update_of_ne (by simp), Mem.endOf, Mem.endOf,
                hothers t' ht']
        · have hlast : s.lastPipe f = none := by rw [Mem.lastPipe, if_neg hmore, if_neg htype]
          have hsame : u.closing = s.closing := by
            rw [hclose, hlast, ← ha.closing, Function.update_eq_self]
          apply h.pipes.congr u _ (by rw [hu]; rfl) hkfree
          funext x
          cases x with
          | inl g =>
            rw [Mem.endOf, Mem.endOf]
            by_cases hg : g = f
            · subst hg
              rw [hself]
              dsimp only
              rw [if_neg nofun, if_neg fun hc => htype hc.2]
            · rw [hother g hg]
          | inr t' => rw [Mem.endOf, Mem.endOf, hsame]
    · apply Guar.count s u (d := -1) (by rw [hu]; rfl) (by rw [hu]; rfl) (by rw [hu]; rfl) hothers hother _ (by rw [hu]; rfl)
      intro h0
      omega
    · rw [hu]
      exact ⟨ha.state, ha.ofile, (held_hold ..).trans hheld, Function.update_self ..⟩

/-- A slot of the process takes over a reference from its kernel code, or gives it back. -/
theorem Inv.setSlot {y : Option Nat} (h : Inv s) (hrun : s.state t = .RUNNABLE) (hfd : fd < NOFILE)
    (hy : ∀ g, y = some g → g < NFILE)
    (hbal : ∀ g, ((if y = some g then 1 else 0) - (if s.ofile t fd = some g then 1 else 0) : Int) + d * one f g = 0) :
    Inv ((s.setOfile t fd y).hold t f d) ∧ Guar t s ((s.setOfile t fd y).hold t f d) := by
  obtain ⟨u, hu⟩ : ∃ u, u = (s.setOfile t fd y).hold t f d := ⟨_, rfl⟩
  have hshare (t' : Slot) (g : Nat) : u.share t' g = s.share t' g := by
    rw [hu, share_hold, share_setOfile s t fd y hfd]
    have hb := hbal g
    rw [one] at hb
    by_cases ht : t' = t
    · simp only [ht, true_and, if_true]
      by_cases hg : g = f
      · rw [if_pos hg, mul_one] at hb
        rw [if_pos hg]
        omega
      · rw [if_neg hg, mul_zero] at hb
        rw [if_neg hg]
        omega
    · simp only [ht, false_and, if_false]
      omega
  have hfile : u.file = s.file := by rw [hu]; rfl
  have hstate : u.state = s.state := by rw [hu]; rfl
  have hpage : u.page = s.page := by rw [hu]; rfl
  have hclosing : u.closing = s.closing := by rw [hu]; rfl
  have hslots (t' : Slot) (ht : t' ≠ t) : u.ofile t' = s.ofile t' := by
    rw [hu]
    exact Function.update_of_ne ht ..
  have hheld (t' : Slot) (ht : t' ≠ t) : u.held t' = s.held t' := by
    rw [hu]
    exact Function.update_of_ne ht ..
  have hself : u.ofile t = Function.update (s.ofile t) fd y := by
    rw [hu]
    exact Function.update_self ..
  have hne (t' : Slot) (ht' : s.state t' ≠ .RUNNABLE) : t' ≠ t := by
    rintro rfl
    exact ht' hrun
  rw [← hu]
  constructor
  · refine ⟨?_, fun g hg => ?_, fun t' fd' g hg => ?_, ?_, fun t' ht' => ?_, fun t' ht' fd' => ?_, ?_⟩
    · rw [hu]
      exact h.panic
    · simp only [hfile, hshare]
      exact h.shares g hg
    · by_cases ht : t' = t
      · subst ht
        rw [hself, Function.update_apply] at hg
        split at hg
        · next he => exact ⟨he ▸ hfd, hy g hg⟩
        · exact h.range t' fd' g hg
      · rw [hslots t' ht] at hg
        exact h.range t' fd' g hg
    · rw [hfile]
      exact h.unused
    · rw [hstate] at ht'
      rw [hheld t' (hne t' ht'), hclosing]
      exact h.idle t' ht'
    · rw [hstate] at ht'
      have hrun' : s.state t' ≠ .RUNNABLE := by
        rintro he
        rw [he] at ht'
        rcases ht' with ht' | ht' <;> cases ht'
      rw [hslots t' (hne t' hrun')]
      exact h.empty t' ht' fd'
    · apply h.pipes.congr u (endOf_congr s u (fun g _ => ?_) hclosing) hpage fun _ _ => by rw [hclosing]
      rw [hfile]
      exact ⟨rfl, fun _ => ⟨rfl, rfl⟩⟩
  · refine ⟨fun t' ht' => ⟨hheld t' ht', by rw [hclosing]⟩, fun t' ht' hr => ⟨by rw [hstate]; exact hr, hslots t' ht'⟩,
      fun np t' _ hn => ?_, fun g _ _ _ => by rw [hfile], fun pi t' _ hp => by rw [hpage]; exact hp⟩
    have hnp : np ≠ t := by
      apply hne
      rw [hn]
      nofun
    exact ⟨by rw [hstate]; exact hn, hslots np hnp⟩

theorem Inv.install (h : Inv s) (ha : At t o k c s) (hfd : fd < NOFILE) (hnone : s.ofile t fd = none) (hf : f < NFILE) :
    Inv (s.install t fd f) ∧ Guar t s (s.install t fd f) ∧
      At t (Function.update o fd (some f)) (fun g => k g - one f g) c (s.install t fd f) := by
  have hset := h.setSlot (y := some f) (d := -1) (f := f) ha.state hfd (fun g hg => by cases hg; exact hf) fun g => by
    have hnot : ¬(none : Option Nat) = some g := nofun
    rw [hnone, if_neg hnot, one]
    by_cases hg : g = f
    · subst hg
      rw [if_pos rfl, if_pos rfl]
      rfl
    · rw [if_neg hg, if_neg fun he => hg (Option.some.inj he).symm]
      rfl
  refine ⟨hset.1, hset.2, ha.state, ?_, ?_, ha.closing⟩
  · rw [← ha.ofile]
    exact Function.update_self ..
  · refine (held_hold ..).trans ?_
    rw [← ha.held]
    funext g
    change s.held t g + -1 * one f g = s.held t g - one f g
    ring

theorem Inv.clear (h : Inv s) (ha : At t o k c s) (hsome : o fd = some f) :
    Inv (s.clear t fd) ∧ Guar t s (s.clear t fd) ∧
      At t (Function.update o fd none) (fun g => k g + one f g) c (s.clear t fd) := by
  rw [← ha.ofile] at hsome
  have hr := h.range t fd f hsome
  have hset := h.setSlot (y := none) (d := 1) (f := f) ha.state hr.1 (fun g hg => by cases hg) fun g => by
    have hnot : ¬(none : Option Nat) = some g := nofun
    rw [hsome, if_neg hnot, one]
    by_cases hg : g = f
    · subst hg
      rw [if_pos rfl, if_pos rfl]
      rfl
    · rw [if_neg hg, if_neg fun he => hg (Option.some.inj he).symm]
      rfl
  rw [Mem.clear, hsome]
  refine ⟨hset.1, hset.2, ha.state, ?_, ?_, ha.closing⟩
  · rw [← ha.ofile]
    exact Function.update_self ..
  · refine (held_hold ..).trans ?_
    rw [← ha.held]
    funext g
    change s.held t g + 1 * one f g = s.held t g + one f g
    rw [one_mul]

theorem Inv.setState (h : Inv s) (x : State) (hidle : x ≠ .RUNNABLE → s.held np = 0 ∧ s.closing np = none)
    (hempty : x = .UNUSED ∨ x = .ZOMBIE → ∀ fd, s.ofile np fd = none) : Inv (s.setState np x) := by
  have hself : (s.setState np x).state np = x := Function.update_self ..
  have hother (t : Slot) (ht : t ≠ np) : (s.setState np x).state t = s.state t := Function.update_of_ne ht ..
  refine ⟨h.panic, h.shares, h.range, h.unused, fun t ht => ?_, fun t ht => ?_, ?_⟩
  · by_cases hnp : t = np
    · subst hnp
      rw [hself] at ht
      exact hidle ht
    · rw [hother t hnp] at ht
      exact h.idle t ht
  · by_cases hnp : t = np
    · subst hnp
      rw [hself] at ht
      exact hempty ht
    · rw [hother t hnp] at ht
      exact h.empty t ht
  · exact h.pipes.congr _ (endOf_congr s _ (fun _ _ => ⟨rfl, fun _ => ⟨rfl, rfl⟩⟩) rfl) rfl fun _ _ => Iff.rfl

theorem Guar.setState (x : State) (hrun : np = t ∨ s.state np ≠ .RUNNABLE)
    (hused : ∀ t', t' ≠ t → s.state np ≠ .USED t') : Guar t s (s.setState np x) := by
  have hother (i : Slot) (hi : i ≠ np) : (s.setState np x).state i = s.state i := Function.update_of_ne hi ..
  refine ⟨fun _ _ => ⟨rfl, rfl⟩, fun t' ht' hr => ⟨?_, rfl⟩, fun i t' ht' hi => ⟨?_, rfl⟩, fun _ _ _ _ => rfl,
    fun _ _ _ hp => hp⟩
  · rw [hother t']
    · exact hr
    · rintro rfl
      rcases hrun with rfl | hne
      · exact ht' rfl
      · exact hne hr
  · rw [hother i]
    · exact hi
    · rintro rfl
      exact hused t' ht' hi

/-- `fork` gives the child a reference that the kernel code of the parent holds. -/
theorem Inv.give (h : Inv s) (hfd : fd < NOFILE) (hf : f < NFILE) (hmine : 1 ≤ s.share t f) (hrun : s.state t = .RUNNABLE)
    (hnp : s.state np = .USED t) (hnone : s.ofile np fd = none) :
    Inv ((s.setOfile np fd (some f)).hold t f (-1)) ∧ Guar t s ((s.setOfile np fd (some f)).hold t f (-1)) := by
  have hne : np ≠ t := by
    rintro rfl
    rw [hnp] at hrun
    cases hrun
  obtain ⟨u, hu⟩ : ∃ u, u = (s.setOfile np fd (some f)).hold t f (-1) := ⟨_, rfl⟩
  have hshare (t' : Slot) (g : Nat) : u.share t' g =
      s.share t' g + (if t' = np ∧ g = f then 1 else 0) + if t' = t ∧ g = f then -1 else 0 := by
    have hnot : ¬(none : Option Nat) = some g := nofun
    rw [hu, share_hold, share_setOfile s np fd (some f) hfd, hnone, if_neg hnot]
    by_cases ht : t' = np
    · simp only [ht, true_and, if_true, sub_zero, Option.some.injEq, eq_comm]
    · simp only [ht, false_and, if_false]
  have hfile : u.file = s.file := by rw [hu]; rfl
  have hstate : u.state = s.state := by rw [hu]; rfl
  have hpage : u.page = s.page := by rw [hu]; rfl
  have hclosing : u.closing = s.closing := by rw [hu]; rfl
  have hslots (t' : Slot) (ht : t' ≠ np) : u.ofile t' = s.ofile t' := by
    rw [hu]
    exact Function.update_of_ne ht ..
  have hheld (t' : Slot) (ht : t' ≠ t) : u.held t' = s.held t' := by
    rw [hu]
    exact Function.update_of_ne ht ..
  have hself : u.ofile np = Function.update (s.ofile np) fd (some f) := by
    rw [hu]
    exact Function.update_self ..
  rw [← hu]
  constructor
  · refine ⟨?_, fun g hg => ?_, fun t' fd' g hg => ?_, ?_, fun t' ht' => ?_, fun t' ht' fd' => ?_, ?_⟩
    · rw [hu]
      exact h.panic
    · rw [hfile]
      by_cases hgf : g = f
      · subst hgf
        apply (h.shares g hg).give t np 1 Int.one_nonneg hmine hne
        · rw [hshare, if_neg fun hc => hne hc.1.symm, if_pos ⟨rfl, rfl⟩]
          ring
        · rw [hshare, if_pos ⟨rfl, rfl⟩, if_neg fun hc => hne hc.1]
          ring
        · intro i hi hi'
          rw [hshare, if_neg fun hc => hi' hc.1, if_neg fun hc => hi hc.1]
          ring
      · have hsame : (fun i => u.share i g) = fun i => s.share i g := by
          funext i
          rw [hshare, if_neg fun hc => hgf hc.2, if_neg fun hc => hgf hc.2]
          ring
        rw [hsame]
        exact h.shares g hg
    · by_cases ht : t' = np
      · subst ht
        rw [hself, Function.update_apply] at hg
        split at hg
        · next he =>
          cases hg
          exact ⟨he ▸ hfd, hf⟩
        · exact h.range t' fd' g hg
      · rw [hslots t' ht] at hg
        exact h.range t' fd' g hg
    · rw [hfile]
      exact h.unused
    · rw [hstate] at ht'
      have htt : t' ≠ t := by
        rintro rfl
        exact ht' hrun
      rw [hheld t' htt, hclosing]
      exact h.idle t' ht'
    · rw [hstate] at ht'
      have htn : t' ≠ np := by
        rintro rfl
        rw [hnp] at ht'
        rcases ht' with ht' | ht' <;> cases ht'
      rw [hslots t' htn]
      exact h.empty t' ht' fd'
    · apply h.pipes.congr u (endOf_congr s u (fun g _ => ?_) hclosing) hpage fun _ _ => by rw [hclosing]
      rw [hfile]
      exact ⟨rfl, fun _ => ⟨rfl, rfl⟩⟩
  · refine ⟨fun t' ht' => ⟨hheld t' ht', by rw [hclosing]⟩, fun t' ht' hr => ⟨by rw [hstate]; exact hr, hslots t' ?_⟩,
      fun i t' ht' hi => ⟨by rw [hstate]; exact hi, hslots i ?_⟩, fun g _ _ _ => by rw [hfile],
      fun pi t' _ hp => by rw [hpage]; exact hp⟩
    · rintro rfl
      rw [hnp] at hr
      cases hr
    · rintro rfl
      rw [hnp] at hi
      cases hi
      exact ht' rfl

/-- A file that nobody else refers to, and that is nothing yet. -/
structure Fresh (t : Slot) (f : Nat) (s : Mem) : Prop where
  range : f < NFILE
  ref : (s.file f).ref = 1
  mine : s.share t f = 1
  type : (s.file f).type = .FD_NONE

/-- The fields of a file are set that nobody else refers to. -/
theorem Inv.setFile (h : Inv s) (hfresh : Fresh t f s) (x : File) (href : x.ref = (s.file f).ref)
    (hpipes : Piped (s.setFile f x)) : Inv (s.setFile f x) ∧ Guar t s (s.setFile f x) := by
  have hself : (s.setFile f x).file f = x := Function.update_self ..
  have hother (g : Nat) (hg : g ≠ f) : (s.setFile f x).file g = s.file g := Function.update_of_ne hg ..
  have hrefs (g : Nat) : ((s.setFile f x).file g).ref = (s.file g).ref := by
    by_cases hg : g = f
    · rw [hg, hself, href]
    · rw [hother g hg]
  refine ⟨⟨h.panic, fun g hg => ?_, h.range, fun g hg h0 => ?_, h.idle, h.empty, hpipes⟩,
    fun _ _ => ⟨rfl, rfl⟩, fun _ _ hr => ⟨hr, rfl⟩, fun _ _ _ hu => ⟨hu, rfl⟩, fun g _ h0 _ => ?_, fun _ _ _ hp => hp⟩
  · rw [hrefs]
    exact h.shares g hg
  · rw [hrefs] at h0
    have hgf : g ≠ f := by
      rintro rfl
      rw [hfresh.ref] at h0
      cases h0
    rw [hother g hgf]
    exact h.unused g hg h0
  · apply hother
    rintro rfl
    rw [hfresh.mine] at h0
    cases h0

end PbsCow.OpenFiles
