import PbsCow.Syscall
import PbsCow.Eager

namespace PbsCow
set_option autoImplicit true

/-- Only pages that no process sees have been written. -/
structure Touched (L : Layout) (t t' : Sys) : Prop where
  inv : ∀ g, SysInv L t g → SysInv L t' g
  proc : t'.proc = t.proc
  view : SameView t t'

theorem Touched.refl (L : Layout) (t : Sys) : Touched L t t := ⟨fun _ h => h, rfl, .refl t⟩

theorem Touched.trans {t t' t'' : Sys} (h : Touched L t t') (h' : Touched L t' t'') :
    Touched L t t'' :=
  ⟨fun g hg => h'.inv g (h.inv g hg), h'.proc.trans h.proc, h.view.trans h'.view⟩

theorem Touched.toInv {t t' : Sys} (h : Touched L t t') (hi : Inv L t) : Inv L t' := by
  obtain ⟨g, hg⟩ := hi.sys
  exact ⟨hi.settled.congr h.proc, g, h.inv g hg⟩

/-- The trapframe page of a slot in use. -/
theorem Inv.trapframe {t : Sys} {p : Slot} (h : Inv L t) (hp : (t.proc p).state ≠ .UNUSED) :
    ∃ x, (t.proc p).trapframe = x * PGSIZE := by
  obtain ⟨g, hg⟩ := h.sys
  rcases (hg.slot p).trapframe with hz | ⟨x, hx, _⟩
  · exact ((h.settled.used p hp).2 hz).elim
  · exact ⟨x, hx⟩

theorem SysInv.trapframe_held {t : Sys} {p : Slot} (h : SysInv L t g)
    (hx : (t.proc p).trapframe = x * PGSIZE) (hne : (t.proc p).trapframe ≠ 0) :
    g.own x = .held (.trapframe p) := by
  rcases (h.slot p).trapframe with hz | ⟨y, hy, ho⟩
  · exact (hne hz).elim
  · rwa [page_inj (hx.symm.trans hy)]

theorem Inv.storeTrapframe {t : Sys} {p : Slot} (h : Inv L t) (hp : (t.proc p).state ≠ .UNUSED)
    (hi : i < 512) (w : Word) :
    Wp (onMem (storeWord ((t.proc p).trapframe + 8 * i) w)) NoError (fun _ t' => Touched L t t' ∧
      ∀ j, j < 512 → t'.mem.load ((t.proc p).trapframe + 8 * j) =
        if j = i then w else t.mem.load ((t.proc p).trapframe + 8 * j)) t := by
  obtain ⟨x, hx⟩ := h.trapframe hp
  have hne := (h.settled.used p hp).2
  simp only [wp_onMem, storeWord, wp_modify, hx, Mem.store_slot _ x hi]
  refine ⟨⟨fun g hg => hg.setPage (.inr ⟨_, hg.trapframe_held hx hne⟩), rfl, fun j hj => ?_⟩,
    fun j hj => ?_⟩
  · obtain ⟨g, hg⟩ := h.sys
    have ho := hg.others_setHeld (A := fun _ => False)
      (w := Function.update (t.mem.ram x) i w) (hg.trapframe_held hx hne)
    exact ⟨hj, rfl, ho.pages j (fun hf => hf) (h.settled.used j hj).1⟩
  · rw [Mem.load_slot _ x hj, Mem.load_slot _ x hj]
    simp only [Mem.setPage, Function.update_self, Function.update_apply]

/-- The trap has saved the user registers. -/
theorem Inv.uservec {t : Sys} {p : Slot} (h : Inv L t) (hp : (t.proc p).state ≠ .UNUSED)
    (regs : Regs) :
    Wp (uservec p regs) NoError (fun _ t' => Touched L t t' ∧
      t'.mem.load ((t'.proc p).trapframe + tfSp) = regs.sp) t := by
  have e1 (x : Nat) : x + tfSp = x + 8 * 6 := rfl
  have e2 (x : Nat) : x + tfEpc = x + 8 * 3 := rfl
  rw [PbsCow.uservec]
  simp only [wp_bind, wp_get, e1, e2]
  refine (h.storeTrapframe hp (by decide) regs.sp).mono ?_
  rintro _ t₁ ⟨h₁, hl₁⟩
  have hi₁ := h₁.toInv h
  have htf : (t.proc p).trapframe = (t₁.proc p).trapframe := by rw [h₁.proc]
  rw [htf] at hl₁ ⊢
  refine (hi₁.storeTrapframe (p := p) (by rwa [h₁.proc]) (by decide) regs.epc).mono ?_
  rintro _ t₂ ⟨h₂, hl₂⟩
  refine ⟨h₁.trans h₂, ?_⟩
  rw [h₂.proc, hl₂ 6 (by decide), if_neg (by decide), hl₁ 6 (by decide), if_pos rfl]

theorem Inv.setReturn {t : Sys} {p : Slot} (h : Inv L t) (hp : (t.proc p).state ≠ .UNUSED)
    (r : Reply) : Wp (setReturn p r) NoError (fun _ t' => Touched L t t') t := by
  rw [PbsCow.setReturn]
  simp only [wp_bind, wp_get]
  cases r.ret t with
  | none => exact wp_pure.2 (.refl L t)
  | some n =>
    refine (h.storeTrapframe (i := 14) hp (by decide) _).mono ?_
    rintro _ t' ⟨h', _⟩
    exact h'

/-- `if(killed(p)) exit(-1)`, before the rest `k`. -/
theorem Inv.exitIfKilled {t : Sys} {p : Slot} {k : Ker Reply} (h : Inv L t)
    (hp : (t.proc p).state = .RUNNING)
    (hexit : ∀ t', Quiet t t' → (t'.proc p).state = .ZOMBIE → (t.proc p).killed = true →
      Q .stopped t')
    (hk : (t.proc p).killed = false → Wp k InitExiting Q t) :
    Wp (exitIfKilled p k) InitExiting Q t := by
  rw [PbsCow.exitIfKilled]
  simp only [wp_bind, wp_get]
  refine .ite (fun hkill => ?_) fun hkill => hk (by simpa using hkill)
  refine wp_bind.2 ((h.exit hp).mono ?_)
  rintro _ t' ⟨hq, hz, _⟩
  exact wp_pure.2 (hexit t' hq hz hkill)

end PbsCow
