import PbsCow.Progress

namespace PbsCow
set_option autoImplicit true

/-- User code of a process with this PTE may load from the page. -/
def Readable (e : Word) : Prop :=
  flag e PTE_V = true ∧ flag e PTE_U = true ∧ flag e PTE_R = true

instance : Decidable (Readable e) := inferInstanceAs (Decidable (_ ∧ _))

/-- Page `v` of `p` is read-only and not marked COW, and `q` can read the same physical page. -/
def Sys.SharedReadOnly (t : Sys) (p q : Slot) (v : Nat) : Prop :=
  v < MAXV ∧ ReadOnly (t.pteAt (t.proc p).pagetable v) ∧
    ∃ w, w < MAXV ∧ Readable (t.pteAt (t.proc q).pagetable w) ∧
      ppn (t.pteAt (t.proc q).pagetable w) = ppn (t.pteAt (t.proc p).pagetable v)

/-- `copyout` to `p`, whatever it returns, leaves every byte that `q` can read as it is. -/
def Isolated (L : Layout) (t : Sys) (p q : Slot) (dstva : Nat) (src : List Byte) : Prop :=
  Wp (onMem (copyout L (t.proc p).pagetable dstva src)) NoError
    (fun _ t' => ∀ a, t'.mem.userLoad (t'.proc q).pagetable a =
      t.mem.userLoad (t.proc q).pagetable a) t

/-- A page that user code can reach is below the trapframe. -/
theorem SysInv.user_page {t : Sys} {p : Slot} (h : SysInv L t g) (hp : (t.proc p).pagetable = r * PGSIZE)
    (hp0 : (t.proc p).pagetable ≠ 0) (ha : Accessible (g.pt r v)) : v < TFV := by
  obtain ⟨r', hr', hm, hh⟩ := h.highOk hp0
  obtain rfl := page_inj (hr'.symm.trans hp)
  by_contra hv
  by_cases hmax : v < MAXV
  · have hu := ha.2
    rw [flag_U, (hh v (by omega) hmax ha.ne_zero).2.1] at hu
    cases hu
  · exact ha.ne_zero (h.good.space.high r' hm v (by omega))

theorem Readable.accessible (h : Readable e) : Accessible e := ⟨h.1, h.2.1⟩

theorem userLoad_eq {s : Mem} : s.userLoad pagetable va =
    if Readable (s.translate pagetable va) then
      some ((s.ram (ppn (s.translate pagetable va))).byte (va % PGSIZE)) else none := by
  rw [Mem.userLoad]
  refine if_congr ?_ rfl rfl
  simp only [Readable, Bool.and_eq_true, and_assoc]

/-- `copyout` that meets no page shared read-only is isolated. -/
theorem SysInv.isolated {t : Sys} {p q : Slot} (h : SysInv L t g) (hp0 : (t.proc p).pagetable ≠ 0)
    (hq0 : (t.proc q).pagetable ≠ 0) (hpq : p ≠ q)
    (hno : ∀ v, InRange dstva src.length v → ¬ t.SharedReadOnly p q v) :
    Isolated L t p q dstva src := by
  obtain ⟨r, hr, hm, hh⟩ := h.highOk hp0
  obtain ⟨r', hr', hm', _⟩ := h.highOk hq0
  have hne : r' ≠ r := by
    rintro rfl
    exact hpq (h.inj p q (hr.trans hr'.symm) hp0)
  rw [Isolated, wp_onMem, hr]
  refine (h.good.copyout hm hh).mono ?_
  rintro ret s' ⟨g', hg', hb, _, hkeep, _⟩ a
  have hpt : g'.pt r' = g.pt r' := hb.pt r' (by simpa using hne)
  have htr : s'.translate (r' * PGSIZE) a = t.mem.translate (r' * PGSIZE) a := by
    rw [hg'.translate hm', h.good.translate hm', hpt]
  show s'.userLoad (t.proc q).pagetable a = _
  rw [hr', userLoad_eq, userLoad_eq, htr]
  refine ite_congr rfl (fun hread => ?_) fun _ => rfl
  rw [h.good.translate hm'] at hread ⊢
  have hva : a < MAXVA := by
    by_contra hva
    rw [if_neg hva] at hread
    exact absurd hread (by decide)
  rw [if_pos hva] at hread ⊢
  have hv := h.user_page hr' hq0 hread.accessible
  rw [hkeep r' hm' hne _ hv hread.accessible.ne_zero fun w hw hro he => ?_]
  have hw' := h.user_page hr hp0 hro.1
  refine hno w hw ⟨Nat.lt_trans hw' (by decide), ?_, _, Nat.lt_trans hv (by decide), ?_, ?_⟩
  · rwa [Sys.pteAt, hr, h.pte hm (Nat.lt_trans hw' (by decide))]
  · rwa [Sys.pteAt, hr', h.pte hm' (Nat.lt_trans hv (by decide))]
  · rw [Sys.pteAt, Sys.pteAt, hr, hr', h.pte hm (Nat.lt_trans hw' (by decide)),
      h.pte hm' (Nat.lt_trans hv (by decide)), he]

/-- A page shared read-only is a way to write to another process. -/
theorem SysInv.not_isolated {t : Sys} {p q : Slot} (h : SysInv L t g) (hp0 : (t.proc p).pagetable ≠ 0)
    (hq0 : (t.proc q).pagetable ≠ 0) (hs : t.SharedReadOnly p q v) :
    ∃ b, ¬ Isolated L t p q (v * PGSIZE) [b] := by
  obtain ⟨hv, hro, w, hw, hread, he⟩ := hs
  obtain ⟨r, hr, hm, hh⟩ := h.highOk hp0
  obtain ⟨r', hr', hm', _⟩ := h.highOk hq0
  have hpte : t.pteAt (t.proc p).pagetable v = g.pt r v := by rw [Sys.pteAt, hr, h.pte hm hv]
  have hpte' : t.pteAt (t.proc q).pagetable w = g.pt r' w := by rw [Sys.pteAt, hr', h.pte hm' hw]
  rw [hpte] at hro he
  rw [hpte'] at hread he
  have hvT := h.user_page hr hp0 hro.1
  have hu := h.good.space.target r hm v hvT hro.1.ne_zero
  have hva : w * PGSIZE < MAXVA := va_lt hw
  have hmod : w * PGSIZE % PGSIZE = 0 := Nat.mul_mod_left w PGSIZE
  generalize hx : ppn (g.pt r v) = x at he hu
  refine ⟨~~~ (t.mem.ram x).byte 0, fun hiso => ?_⟩
  rw [Isolated, wp_onMem, hr] at hiso
  have hdiv : v * PGSIZE / PGSIZE = v := page_div v
  have hwrite := h.good.copyout_page (d := v * PGSIZE) (b := [~~~ (t.mem.ram x).byte 0]) hm hh
    (by rwa [hdiv]) (by rw [hdiv]; exact hro.1) (by rw [hdiv, ← flag_COW]; exact hro.2.2) (by simp)
    (by rw [Nat.mul_mod_left, List.length_singleton]; decide)
  obtain ⟨_, _, _, ⟨_, rfl⟩, hload⟩ := (hwrite.and hiso).exists_ok
  have hload := hload (w * PGSIZE)
  rw [hdiv, hx, Nat.mul_mod_left, Page.setBytes, Page.setBytes] at hload
  have hgood := h.good.setPage (p := (t.mem.ram x).setByte 0 (~~~ (t.mem.ram x).byte 0)) (.inl hu)
  rw [hr', userLoad_eq, userLoad_eq, hgood.translate hm', h.good.translate hm', if_pos hva, page_div,
    if_pos hread, if_pos hread, he, hmod, Option.some.injEq] at hload
  simp only [Mem.setPage, Function.update_self, Page.byte_setByte, if_true] at hload
  exact absurd hload (by generalize (t.mem.ram x).byte 0 = b; revert b; decide)

/-- `copyout` to `p` never reaches memory that `q` reads exactly if no read-only page of `p` that is
not marked COW is shared with `q`; and one call is isolated if it meets no such page. -/
theorem copyout_isolated_iff {t : Sys} {p q : Slot} (h : Reachable L t) (hpq : p ≠ q)
    (hp : (t.proc p).state ≠ .UNUSED) (hq : (t.proc q).state ≠ .UNUSED) :
    ((∀ dstva src, Isolated L t p q dstva src) ↔ ∀ v, ¬ t.SharedReadOnly p q v) ∧
    ∀ dstva src, (∀ v, InRange dstva src.length v → ¬ t.SharedReadOnly p q v) →
      Isolated L t p q dstva src := by
  have hi := h.inv
  obtain ⟨g, hg⟩ := hi.sys
  have hp0 := (hi.settled.used p hp).1
  have hq0 := (hi.settled.used q hq).1
  refine ⟨⟨fun hall v hs => ?_, fun hno dstva src => ?_⟩, fun dstva src hno => ?_⟩
  · obtain ⟨b, hb⟩ := hg.not_isolated hp0 hq0 hs
    exact hb (hall _ _)
  · exact hg.isolated hp0 hq0 hpq fun v _ => hno v
  · exact hg.isolated hp0 hq0 hpq hno

end PbsCow
