import PbsCow.CopyRoundTrip
import PbsCow.Refinement
import PbsCow.Lib.CString

namespace PbsCow
set_option autoImplicit true

/-- What a user program has at `va`. There is no memory at physical address 0. -/
def Mem.userByteAt (s : Mem) (pagetable va : Nat) : Option Byte :=
  let e := s.pte pagetable va
  if va < MAXVA ∧ Accessible e ∧ PTE2PA e ≠ 0 then some ((s.ram (ppn e)).byte (va % PGSIZE)) else none

/-- A page table in the pages that the kernel manages, whatever PTEs it has. -/
def Mem.IsPagetable (L : Layout) (s : Mem) (pagetable : Nat) : Prop :=
  ∃ r g, pagetable = r * PGSIZE ∧ Rep L s g ∧ g.Live r

theorem Rep.userByteAt (h : Rep L s g) (hr : g.Live r) (va : Nat) :
    s.userByteAt (r * PGSIZE) va =
      if va < MAXVA ∧ Accessible (g.pt r (va / PGSIZE)) ∧ PTE2PA (g.pt r (va / PGSIZE)) ≠ 0 then
        some ((s.ram (ppn (g.pt r (va / PGSIZE)))).byte (va % PGSIZE))
      else none := by
  rw [Mem.userByteAt]
  by_cases hva : va < MAXVA
  · rw [h.pte hr (Nat.lt_trans hva (by decide))]
  · rw [if_neg fun hc => hva hc.1, if_neg fun hc => hva hc.1]

theorem Rep.copyinstrLoop_read {max : Nat} (h : Rep L s g) (hr : g.Live r) (hfuel : max ≤ fuel) :
    Wp (copyinstrLoop (r * PGSIZE) fuel srcva max dst) NoError (fun res s' => s' = s ∧
      ∃ bs, res.2 = dst ++ bs ∧ StringRead (s.userByteAt (r * PGSIZE)) srcva max res.1 bs) s := by
  induction fuel generalizing srcva max dst with
  | zero =>
    refine wp_pure.2 ⟨rfl, [], (List.append_nil dst).symm, .fail fun k hk => ?_⟩
    omega
  | succ fuel ih =>
    rw [copyinstrLoop]
    refine .ite (fun h0 => ?_) fun h0 => ?_
    · refine wp_pure.2 ⟨rfl, [], (List.append_nil dst).symm, .fail fun k hk => ?_⟩
      omega
    have hoff : srcva - srcva / PGSIZE * PGSIZE = srcva % PGSIZE := by
      rw [Nat.mul_comm, Nat.mod_eq_sub_mul_div]
    simp only [PGROUNDDOWN, hoff]
    have hnone (hc : ¬ (srcva < MAXVA ∧ Accessible (g.pt r (srcva / PGSIZE)) ∧
        PTE2PA (g.pt r (srcva / PGSIZE)) ≠ 0)) (k : Nat) : ¬ StringAt (s.userByteAt (r * PGSIZE)) srcva k := by
      intro hs
      apply hs.first
      rw [h.userByteAt hr, if_neg hc]
    have hmax : srcva < MAXVA ↔ srcva / PGSIZE < MAXV := by
      rw [MAXVA_eq, Nat.div_lt_iff_lt_mul (by decide)]
      rfl
    refine .bind (h.walkaddr hr) ?_
    rintro pa _ ⟨rfl, ⟨hv, ha, rfl⟩ | ⟨rfl, hno⟩⟩
    · refine .ite (fun hz => ?_) fun hz => ?_
      · exact wp_pure.2 ⟨rfl, [], (List.append_nil dst).symm, .fail fun k _ => hnone (fun hc => hc.2.2 hz) k⟩
      have hlt : srcva % PGSIZE < PGSIZE := Nat.mod_lt _ (by decide)
      simp only [wp_bind, wp_get, PTE2PA_eq, page_div]
      generalize hn : min (PGSIZE - srcva % PGSIZE) max = n
      generalize hb : (s.ram (ppn (g.pt r (srcva / PGSIZE)))).bytes (srcva % PGSIZE) n = bytes
      have hlen : bytes.length = n := by rw [← hb, Page.bytes, List.length_map, List.length_range]
      have hbytes (i : Nat) (hi : i < bytes.length) :
          s.userByteAt (r * PGSIZE) (srcva + i) = some bytes[i] := by
        have hpage : (srcva + i) / PGSIZE = srcva / PGSIZE := by
          simp only [PGSIZE] at *
          omega
        have hin : (srcva + i) % PGSIZE = srcva % PGSIZE + i := by
          simp only [PGSIZE] at *
          omega
        have hva : srcva + i < MAXVA := by
          rw [MAXVA_eq, ← Nat.div_lt_iff_lt_mul (by decide), hpage]
          exact hv
        rw [h.userByteAt hr, hpage, hin, if_pos ⟨hva, ha, hz⟩]
        simp only [← hb, Page.bytes, List.getElem_map, List.getElem_range]
      refine .ite (fun hc => ?_) fun hc => ?_
      · obtain ⟨k, hk, hs, hstr⟩ := StringAt.of_bytes hbytes (by simpa using hc)
        refine wp_pure.2 ⟨rfl, _, List.append_assoc _ _ _, ?_⟩
        rw [← hstr]
        exact .succeed (by omega) hs
      · have hzero : 0 ∉ bytes := by simpa using hc
        refine (ih (by omega)).mono ?_
        rintro ⟨ret, dst'⟩ s' ⟨rfl, bs, rfl, hread⟩
        refine ⟨rfl, bytes ++ bs, List.append_assoc _ _ _, ?_⟩
        have hsplit : max = bytes.length + (max - n) := by omega
        rw [hsplit]
        apply StringRead.append _ hbytes hzero
        rcases Nat.eq_zero_or_pos (max - n) with hend | hpos
        · rw [hend] at hread ⊢
          exact hread.congr_zero _
        · have hnext : srcva / PGSIZE * PGSIZE + PGSIZE = srcva + bytes.length := by
            simp only [PGSIZE] at *
            omega
          rwa [← hnext]
    · refine .ite_pos rfl (wp_pure.2 ⟨rfl, [], (List.append_nil dst).symm, .fail fun k _ => hnone ?_ k⟩)
      exact fun hc => hno ⟨hmax.1 hc.1, hc.2.1⟩

/-- `copyinstr` reads exactly the string that is there. -/
theorem copyinstr_reads (h : s.IsPagetable L pagetable) (srcva max : Nat) :
    Wp (copyinstr pagetable srcva max) NoError (fun res s' => s' = s ∧
      StringRead (s.userByteAt pagetable) srcva max res.1 res.2) s := by
  obtain ⟨r, g, rfl, hrep, hr⟩ := h
  apply (hrep.copyinstrLoop_read hr (Nat.le_refl max)).mono
  rintro ⟨ret, dst⟩ s' ⟨rfl, bs, rfl, hread⟩
  exact ⟨rfl, hread⟩

/-- The page tables of processes are such tables. -/
theorem Inv.isPagetable {t : Sys} {p : Slot} (h : Inv L t) (hp : (t.proc p).state ≠ .UNUSED) :
    t.mem.IsPagetable L (t.proc p).pagetable := by
  obtain ⟨g, hg⟩ := h.sys
  obtain ⟨r, hr, hmem, _⟩ := hg.highOk (h.settled.used p hp).1
  exact ⟨r, g, hr, hg.good.rep, hg.good.space.live r hmem⟩

theorem copyinstr_reads_booted : ∃ t p, Reachable imageLayout t ∧
    Wp (copyinstr (t.proc p).pagetable 0 16) NoError (fun res s' => s' = t.mem ∧
      StringRead (t.mem.userByteAt (t.proc p).pagetable) 0 16 res.1 res.2) t.mem := by
  obtain ⟨t, p, g, r, x, _, hreach, hb⟩ := Reachable.init imageLayout fun _ _ => 0
  exact ⟨t, p, hreach, copyinstr_reads (hreach.inv.isPagetable (by rw [hb.state]; simp)) 0 16⟩

end PbsCow
