import PbsCow.Usertrap

namespace PbsCow
set_option autoImplicit true

/-- The addresses for which `usertrap` kills the process at once. -/
def GuardHit (addr sp : Nat) : Prop := MAXVA ≤ addr ∨ addr < sp ∧ subWord sp PGSIZE ≤ addr

instance : Decidable (GuardHit addr sp) := inferInstanceAs (Decidable (_ ∨ _))

/-- `p->killed` is set if `b` holds. -/
def Proc.killIf (q : Proc) (b : Bool) : Proc := { q with killed := q.killed || b }

theorem Proc.killIf_false (q : Proc) : q.killIf false = q := by
  rw [Proc.killIf, Bool.or_false]

theorem Sys.setProc_killIf (t : Sys) (p : Slot) (b c : Bool) :
    ((t.setProc p (·.killIf b)).setProc p (·.killIf c)) = t.setProc p (·.killIf (b || c)) := by
  simp only [Sys.setProc, Function.update_self, Function.update_idem, Proc.killIf, Bool.or_assoc]

theorem Sys.setProc_killIf_false (t : Sys) (p : Slot) : t.setProc p (·.killIf false) = t := by
  simp only [Sys.setProc, Proc.killIf_false, Function.update_eq_self]

theorem wp_setkilled {t : Sys} :
    Wp (setkilled p) E Q t ↔ Q ⟨⟩ (t.setProc p (·.killIf true)) := by
  rw [setkilled, wp_setProc]
  simp only [Proc.killIf, Bool.or_true]

/-- What the branch for store page faults does: `cowalloc`, and perhaps a kill. -/
theorem SysInv.storePageFault {t : Sys} {p : Slot} (h : SysInv L t g)
    (hp : (t.proc p).pagetable = r * PGSIZE) (hr : r ∈ t.roots) (hh : HighOk g r)
    (hsp : (t.mem.load ((t.proc p).trapframe + tfSp)).toNat = sp) :
    Wp (storePageFault L p addr) NoError (fun _ t' => ∃ ret s',
      CowPost L t.roots r (addr / PGSIZE) t.mem g ret s' ∧
        t' = ({ t with mem := s' } : Sys).setProc p
          (·.killIf (decide (GuardHit addr sp) || decide (ret < 0)))) t := by
  have tail (b : Bool) : Wp (do
      if (← onMem (cowalloc L (r * PGSIZE) (PGROUNDDOWN addr))) < 0 then setkilled p) NoError
      (fun _ t' => ∃ ret s', CowPost L t.roots r (addr / PGSIZE) t.mem g ret s' ∧
        t' = ({ t with mem := s' } : Sys).setProc p (·.killIf (b || decide (ret < 0))))
      (t.setProc p (·.killIf b)) := by
    rw [wp_bind, wp_onMem]
    refine (h.good.cowalloc hr hh).mono fun ret s' hc => ?_
    refine .ite (fun hneg => wp_setkilled.2 ⟨ret, s', hc, ?_⟩) fun hneg => wp_pure.2 ⟨ret, s', hc, ?_⟩
    · rw [decide_eq_true hneg]
      exact Sys.setProc_killIf ({ t with mem := s' } : Sys) p b true
    · rw [decide_eq_false hneg, Bool.or_false]
      rfl
  simp only [PbsCow.storePageFault, loadWord, wp_bind, wp_get, wp_onMem, wp_pure, hsp, hp]
  refine .ite (fun hg => ?_) fun hg => ?_
  · have hg' : decide (GuardHit addr sp) = true := decide_eq_true hg
    rw [hg', wp_bind, wp_setkilled]
    exact tail true
  · have hg' : decide (GuardHit addr sp) = false := decide_eq_false hg
    have ht := tail false
    rw [t.setProc_killIf_false] at ht
    rw [hg']
    exact ht

/-- `cowalloc` keeps the invariant and what every process sees. -/
theorem CowPost.step {t : Sys} {p : Slot} (hc : CowPost L t.roots r v t.mem g ret s')
    (h : SysInv L t g) (hs : Settled t) (hp : (t.proc p).pagetable = r * PGSIZE) (hr : r ∈ t.roots) :
    ∃ g', SysInv L ({ t with mem := s' } : Sys) g' ∧ SameView t ({ t with mem := s' } : Sys) ∧
      (0 ≤ ret → v < MAXV ∧ (g'.pt r v).getLsbD 8 = false) := by
  rcases hc with ⟨rfl, rfl, _⟩ | ⟨rfl, rfl, hv, _, hcow⟩ | ⟨rfl, hv, hne, hcow, _, g', hg, hfr, hu⟩
  · exact ⟨g, h, .refl t, fun hn => absurd hn (by decide)⟩
  · exact ⟨g, h, .refl t, fun _ => ⟨hv, hcow⟩⟩
  · have hleaf := h.good.space.leaf r hr v hv hne
    have hsh := hu.sameShape hv hne hleaf.flags hcow
    have hpne : (t.proc p).pagetable ≠ 0 := by
      have hl := h.good.space.live r hr
      have hpos := h.good.rep.page.pos (x := r) (by rw [hl]; simp)
      omega
    obtain ⟨r₁, _, hr₁, _, hs₁, _⟩ := h.space hpne
    obtain rfl := page_inj (hr₁.symm.trans hp)
    have h' := h.memStep hp hr hg hfr.bare (hsh.shape hs₁) hsh.high
    have ho := h.memStep_others h' hp hr fun r' hm hne' => hfr.same hm (by simpa using hne')
    refine ⟨g', h', fun j hj => ?_, fun _ => ⟨Nat.lt_trans hv (by decide), ?_⟩⟩
    · by_cases hjp : j = p
      · subst hjp
        refine ⟨hj, rfl, ?_⟩
        rw [Sys.pages, Sys.pages, hp]
        exact h.good.pages_unshared hg hr hv hne hcow hu
      · exact ⟨hj, rfl, ho.pages j hjp (hs.used j hj).1⟩
    · obtain ⟨x, _, _, hpt⟩ := hu.copy
      rw [hpt, Function.update_self, getLsbD_mkPte _ _ (by decide), uncowFlags_COW]

theorem Quiet.killIf {t : Sys} {p : Slot} (hp : (t.proc p).state ≠ .UNUSED) (b : Bool) :
    Quiet t (t.setProc p (·.killIf b)) :=
  .setProc rfl (fun _ => ⟨rfl, rfl, rfl⟩) hp hp fun h => h

/-- After the branch for store page faults: a process that is not killed has no COW page at `addr`. -/
theorem Inv.storePageFault {t : Sys} {p : Slot} (h : Inv L t) (hp : (t.proc p).state ≠ .UNUSED) :
    Wp (storePageFault L p addr) NoError (fun _ t' => Inv L t' ∧ SameView t t' ∧
      (∀ j, (t'.proc j).state = (t.proc j).state ∧ (t'.proc j).pid = (t.proc j).pid) ∧
      ((t'.proc p).killed = false →
        flag (t'.mem.translate (t'.proc p).pagetable addr) PTE_COW = false)) t := by
  obtain ⟨g, hg⟩ := h.sys
  obtain ⟨r, hr, hmem, hh⟩ := hg.highOk (h.settled.used p hp).1
  refine (hg.storePageFault hr hmem hh rfl).mono ?_
  rintro _ t' ⟨ret, s', hc, rfl⟩
  obtain ⟨g', h', hv, hcow⟩ := hc.step hg h.settled hr hmem
  have hi : Inv L ({ t with mem := s' } : Sys) := ⟨h.settled.congr rfl, g', h'⟩
  generalize hb : (decide (GuardHit addr _) || decide (ret < 0)) = b
  have hq := Quiet.killIf (t := ({ t with mem := s' } : Sys)) (p := p) hp b
  refine ⟨hq.inv hi, hv.trans hq.sameView, fun j => ?_, fun hk => ?_⟩
  · by_cases hj : j = p
    · rw [hj, Sys.setProc_self]
      exact ⟨rfl, rfl⟩
    · rw [Sys.setProc_of_ne _ hj]
      exact ⟨rfl, rfl⟩
  rw [Sys.setProc_self] at hk ⊢
  have hbf : b = false := by
    have hk' : ((t.proc p).killed || b) = false := hk
    exact (Bool.or_eq_false_iff.1 hk').2
  rw [← hb, Bool.or_eq_false_iff, decide_eq_false_iff_not, decide_eq_false_iff_not] at hbf
  obtain ⟨hvm, hc8⟩ := hcow (by omega)
  show flag (s'.translate (t.proc p).pagetable addr) PTE_COW = false
  have hroots : ({ t with mem := s' } : Sys).roots = t.roots := rfl
  rw [hr, h'.good.translate (by rw [hroots]; exact hmem), flag_COW]
  split
  · exact hc8
  · rfl

end PbsCow
