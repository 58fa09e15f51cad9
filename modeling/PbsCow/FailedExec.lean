import PbsCow.ExecFile
import PbsCow.FailedFork
import PbsCow.UserBytes

namespace PbsCow
set_option autoImplicit true

/-- The processes and their memory are as they were, and so are the free pages. -/
structure Intact (L : Layout) (t t' : Sys) : Prop where
  proc : t'.proc = t.proc
  trapframe : ∀ j, (t.proc j).trapframe ≠ 0 →
    t'.mem.ram ((t.proc j).trapframe / PGSIZE) = t.mem.ram ((t.proc j).trapframe / PGSIZE)
  bytes : ∀ j, (t.proc j).state ≠ .UNUSED → ∀ a, t'.userByte j a = t.userByte j a
  free : ∀ x, t'.mem.Free x ↔ t.mem.Free x
  count : ∀ x, L.Managed x → t'.mem.count x = t.mem.count x

theorem Intact.refl (L : Layout) (t : Sys) : Intact L t t :=
  ⟨rfl, fun _ _ => rfl, fun _ _ _ => rfl, fun _ => .rfl, fun _ _ => rfl⟩

theorem Frame.undone {t : Sys} (h : Frame t.roots ∅ t.mem s' g g') :
    Undone t ({ t with mem := s' } : Sys) g g' :=
  ⟨⟨rfl, rfl, rfl, rfl⟩, fun r _ v => .inl (congrFun (h.pt r (by simp)) v), h.pt _ (by simp),
    fun r _ x l p => h.tables x r l p (by simp)⟩

/-- A frame that changes no address space leaves what user code loads alone. -/
theorem Frame.userLoad (h : Frame S ∅ s s' g g') (hg : Good L s g S) (hg' : Good L s' g' S) (hr : r ∈ S)
    (hh : HighOk g r) (a : Nat) : s'.userLoad (r * PGSIZE) a = s.userLoad (r * PGSIZE) a := by
  simp only [Mem.userLoad, hg'.translate hr, hg.translate hr, h.pt r (by simp)]
  by_cases hmax : a < MAXVA
  · rw [if_pos hmax]
    by_cases hf : flag (g.pt r (a / PGSIZE)) PTE_V && flag (g.pt r (a / PGSIZE)) PTE_U &&
        flag (g.pt r (a / PGSIZE)) PTE_R
    · have hacc : Accessible (g.pt r (a / PGSIZE)) := by
        simp only [Bool.and_eq_true] at hf
        exact hf.1
      have hv : a / PGSIZE < MAXV := Nat.div_lt_of_lt_mul (by rwa [MAXVA_eq, Nat.mul_comm] at hmax)
      rw [if_pos hf, if_pos hf, h.page r hr (by simp) _ (hh.user hv hacc) hacc.ne_zero]
    · rw [if_neg hf, if_neg hf]
  · rw [if_neg hmax]
    rfl

theorem SysInv.intact {t : Sys} (h : SysInv L t g) (hs : Settled t) (hg : Good L s' g' t.roots)
    (hfr : Frame t.roots ∅ t.mem s' g g') : Intact L t ({ t with mem := s' } : Sys) := by
  have hi' := h.memOnly hg hfr.bare
  have hcount {x : Nat} (hx : L.Managed x) : s'.count x = t.mem.count x :=
    hfr.undone.count h hi' (fun _ => rfl) (fun _ => rfl) hx
  refine ⟨rfl, fun j hj => ?_, fun j hj a => ?_, fun x => ?_, fun x hx => hcount hx⟩
  · rcases (h.slot j).trapframe with hz | ⟨x, hx, hown⟩
    · exact (hj hz).elim
    · rw [hx, page_div]
      exact (hfr.held x _ hown (by simp)).2
  · obtain ⟨r, hr, hmem, hh⟩ := h.highOk (hs.used j hj).1
    simp only [Sys.userByte, hr]
    exact hfr.userLoad h.good hg hmem hh a
  · rw [hi'.free_iff, h.free_iff]
    exact and_congr_right fun hx => by rw [hcount hx]

/-- `exec` with -1 for its result has left the memory alone. -/
theorem Inv.exec_intact {t : Sys} {p : Slot} (h : Inv L t) (hp : (t.proc p).state ≠ .UNUSED)
    (ip : Option (List Byte)) (argv : List (List Byte)) :
    Wp (PbsCow.exec L p ip argv) NoError (fun ret t' => ret = -1 → Intact L t t') t := by
  obtain ⟨g, hg⟩ := h.sys
  have htf := (h.settled.used p hp).2
  rcases (hg.slot p).trapframe with hz | ⟨x, hx, hown⟩
  · exact (htf hz).elim
  have hlt := hg.good.rep.page.lt44 (x := x) (by simp [hown])
  have hpos := hg.good.rep.page.pos (x := x) (by simp [hown])
  cases ip with
  | none => exact wp_pure.2 fun _ => .refl L t
  | some ip =>
    rw [PbsCow.exec, wp_bind, wp_get]
    simp only [hx]
    rw [wp_bind, wp_onMem]
    refine (hg.good.buildImage_spec hlt hpos).mono ?_
    rintro (_ | im) s₁ hpost
    · obtain ⟨g₁, hg₁, hfr₁⟩ := hpost
      exact wp_pure.2 fun _ => hg.intact h.settled hg₁ hfr₁
    obtain ⟨r, g₁, him, hr, hfresh, hg₁, hb₁, hs₁, hh₁⟩ := hpost
    refine (hg.commitImage h.settled hp him hr hfresh hg₁ hb₁ hs₁ hx hh₁ argv.length).mono ?_
    rintro ret t' ⟨rfl, _⟩ hret
    omega

namespace World

def tally (w : World) : (Nat → Int) × Int := w.files.tally

theorem shifts_onFiles {x : Files.Fs α} {d : α → (Nat → Int) × Int} (h : Shifts Files.State.tally x d) :
    Shifts tally (onFiles x) d := by
  intro w
  rw [onFiles, wp_embed]
  exact (h w.files).weaken fun _ _ => trivial

theorem still_onSys (x : Ker α) : Shifts tally (onSys x) fun _ => 0 := by
  intro w
  rw [onSys, wp_embed, Wp]
  cases x w.sys with
  | ok r => exact (add_zero _).symm
  | error e => trivial

/-- What `exec` holds on to when it gives up. -/
def holds (ip : Option Nat) : (Nat → Int) × Int := ip.elim 0 fun ip => Files.held ip + Files.op

theorem shifts_bad (L : Layout) (pagetable sz : Nat) (ip : Option Nat) :
    Shifts tally (bad L pagetable sz ip) fun _ => -holds ip := by
  unfold bad
  cases ip with
  | none => exact .ite (fun _ => .seq (still_onSys _) fun _ => .pure neg_zero) fun _ => .pure neg_zero
  | some ip =>
    have hlast : Shifts tally (do
        onFiles (Files.iunlockput ip)
        onFiles Files.endOp
        return -1) fun _ : Int => -holds (some ip) := by
      refine .bind (shifts_onFiles (Files.shifts_iunlockput ip)) fun _ => ?_
      refine .bind (shifts_onFiles Files.shifts_endOp) fun _ => .pure ?_
      simp only [holds, Option.elim_some]
      abel
    exact .ite (fun _ => .seq (still_onSys _) fun _ => hlast) fun _ => hlast

theorem shifts_execInode (L : Layout) (p : Slot) (path : List Byte) (argv : List (List Byte)) (ip : Nat) :
    Shifts tally (execInode L p path argv ip) fun _ => -holds (some ip) := by
  have hput : -holds (some ip) - -Files.held ip - -Files.op = 0 := by
    simp only [holds, Option.elim_some]
    abel
  rw [execInode]
  refine .get fun w => ?_
  dsimp only
  refine .ite (fun _ => shifts_bad _ _ _ _) fun _ => .ite (fun _ => shifts_bad _ _ _ _) fun _ => ?_
  refine .seq (still_onSys _) fun pagetable => .ite (fun _ => shifts_bad _ _ _ _) fun _ => ?_
  refine .seq (still_onSys _) fun loaded => .ite (fun _ => shifts_bad _ _ _ _) fun _ => ?_
  refine .bind (shifts_onFiles (Files.shifts_iunlockput ip)) fun _ => ?_
  refine .bind (shifts_onFiles Files.shifts_endOp) fun _ => ?_
  rw [hput]
  refine .seq (still_onSys _) fun stack => ?_
  obtain ⟨_ | sp, sz⟩ := stack
  · exact (shifts_bad L pagetable sz none).congr fun _ => neg_zero
  · refine .seq (still_onSys _) fun _ => .seq (.still fun _ => rfl) fun _ => .seq (still_onSys _) fun _ => ?_
    refine .seq (still_onSys _) fun _ => .seq (still_onSys _) fun _ => .seq (still_onSys _) fun _ => ?_
    exact .pure rfl

/-- However `exec` ends, it has put its inode and ended its operation. -/
theorem shifts_exec (L : Layout) (p : Slot) (path : List Byte) (argv : List (List Byte)) :
    Shifts tally (exec L p path argv) fun _ => 0 := by
  rw [exec]
  refine .bind (shifts_onFiles Files.shifts_beginOp) fun _ => .get fun w => ?_
  refine .bind (shifts_onFiles (Files.shifts_namei _ path)) fun o => ?_
  cases o with
  | none => exact .bind (shifts_onFiles Files.shifts_endOp) fun _ => .pure (by simp [Files.heldBy])
  | some ip =>
    refine .seq (shifts_onFiles (Files.still_ilock ip)) fun _ => (shifts_execInode L p path argv ip).congr ?_
    intro _
    simp only [holds, Files.heldBy, Option.elim_some]
    abel

/-- The names and current directories of the processes. -/
def labels (w : World) : (Slot → List Byte) × (Slot → Nat) := (w.name, w.cwd)

theorem labels_onSys (x : Ker α) {w : World} (hw : w.labels = l) :
    Wp (onSys x) AnyError (fun _ w' => w'.labels = l) w := by
  rw [onSys, wp_embed]
  exact .of_forall fun _ _ => hw

theorem labels_onFiles (x : Files.Fs α) {w : World} (hw : w.labels = l) :
    Wp (onFiles x) AnyError (fun _ w' => w'.labels = l) w := by
  rw [onFiles, wp_embed]
  exact .of_forall fun _ _ => hw

theorem labels_bad (L : Layout) (pagetable sz : Nat) (ip : Option Nat) {w : World} (hw : w.labels = l) :
    Wp (bad L pagetable sz ip) AnyError (fun ret w' => ret = -1 → w'.labels = l) w := by
  unfold bad
  cases ip with
  | none =>
    have hlast {w : World} (hw : w.labels = l) :
        Wp (pure (-1) : Code Int) AnyError (fun ret w' => ret = -1 → w'.labels = l) w := wp_pure.2 fun _ => hw
    exact .ite (fun _ => .bind (labels_onSys _ hw) fun _ w₁ h₁ => hlast h₁) fun _ => hlast hw
  | some ip =>
    have hlast {w : World} (hw : w.labels = l) : Wp (do
        onFiles (Files.iunlockput ip)
        onFiles Files.endOp
        return (-1 : Int)) AnyError (fun ret w' => ret = -1 → w'.labels = l) w := by
      refine .bind (labels_onFiles _ hw) fun _ w₁ h₁ => .bind (labels_onFiles _ h₁) fun _ w₂ h₂ => ?_
      exact wp_pure.2 fun _ => h₂
    exact .ite (fun _ => .bind (labels_onSys _ hw) fun _ w₁ h₁ => hlast h₁) fun _ => hlast hw

/-- The name is saved after the last point where `exec` can fail. -/
theorem labels_exec (L : Layout) (p : Slot) (path : List Byte) (argv : List (List Byte)) (w : World) :
    Wp (exec L p path argv) AnyError (fun ret w' => ret = -1 → w'.labels = w.labels) w := by
  rw [exec]
  refine .bind (labels_onFiles _ rfl) fun _ w₁ h₁ => ?_
  rw [wp_bind, wp_get]
  refine .bind (labels_onFiles _ h₁) fun o w₂ h₂ => ?_
  cases o with
  | none => exact .bind (labels_onFiles _ h₂) fun _ w₃ h₃ => wp_pure.2 fun _ => h₃
  | some ip =>
    refine .bind (labels_onFiles _ h₂) fun _ w₃ h₃ => ?_
    rw [execInode, wp_bind, wp_get]
    dsimp only
    refine .ite (fun _ => labels_bad _ _ _ _ h₃) fun _ => .ite (fun _ => labels_bad _ _ _ _ h₃) fun _ => ?_
    refine .bind (labels_onSys _ h₃) fun _ w₄ h₄ => .ite (fun _ => labels_bad _ _ _ _ h₄) fun _ => ?_
    refine .bind (labels_onSys _ h₄) fun _ w₅ h₅ => .ite (fun _ => labels_bad _ _ _ _ h₅) fun _ => ?_
    refine .bind (labels_onFiles _ h₅) fun _ w₆ h₆ => .bind (labels_onFiles _ h₆) fun _ w₇ h₇ => ?_
    refine .bind (labels_onSys _ h₇) fun stack w₈ h₈ => ?_
    obtain ⟨_ | sp, sz⟩ := stack
    · exact labels_bad _ _ _ _ h₈
    · have hany {α : Type} (x : Code α) (w : World) : Wp x AnyError (fun _ _ => True) w :=
        .of_forall fun _ _ => trivial
      refine .bind (hany _ _) fun _ _ _ => .bind (hany _ _) fun _ _ _ => .bind (hany _ _) fun _ _ _ => ?_
      refine .bind (hany _ _) fun _ _ _ => .bind (hany _ _) fun _ _ _ => .bind (hany _ _) fun _ _ _ => ?_
      rw [wp_pure]
      omega

/-- A failed `exec` leaves the caller intact. -/
theorem exec_failed {w : World} {p : Slot} (h : Reachable L w.sys) (hp : (w.sys.proc p).state ≠ .UNUSED)
    (path : List Byte) (argv : List (List Byte)) :
    Wp (exec L p path argv) (fun e => ∀ m, e ≠ .mem m) (fun ret w' => ret = -1 →
      Intact L w.sys w'.sys ∧ w'.name = w.name ∧ w'.cwd = w.cwd ∧
      (∀ i, (w'.files.inode i).ref = (w.files.inode i).ref) ∧
      w'.files.log.outstanding = w.files.log.outstanding) w := by
  have hmem : Wp (exec L p path argv) (fun e => ∀ m, e ≠ .mem m)
      (fun ret w' => ret = -1 → Intact L w.sys w'.sys) w := by
    have hsys (ip : Option (List Byte)) := h.inv.exec_intact hp ip argv
    have hend {x : Code Int} (ip : Option (List Byte)) {w' : World} (hw : w'.sys = w.sys)
        (hx : Follows x (PbsCow.exec L p ip argv) w') :
        Wp x (fun e => ∀ m, e ≠ .mem m) (fun ret w' => ret = -1 → Intact L w.sys w'.sys) w' := by
      rw [← hw] at hsys ⊢
      exact (hx.wp (hsys ip)).weaken fun e he m hm => he m hm
    rw [exec]
    refine .bind (wp_onFiles _ w) fun _ w₁ h₁ => ?_
    rw [wp_bind, wp_get]
    refine .bind (wp_onFiles _ w₁) fun o w₂ h₂ => ?_
    have hw₂ := h₂.1.trans h₁.1
    cases o with
    | none => exact hend none hw₂ (follows_files _ fun _ w₃ => .pure _ w₃)
    | some ip =>
      refine .bind (wp_onFiles _ w₂) fun _ w₃ h₃ => hend (some _) (h₃.1.trans hw₂) (follows_execInode _ _ _ _ _ w₃)
  apply ((hmem.and (shifts_exec L p path argv w)).and (labels_exec L p path argv w)).mono
  rintro ret w' ⟨⟨hsys, htally⟩, hlabels⟩ hret
  rw [add_zero] at htally
  refine ⟨hsys hret, congrArg Prod.fst (hlabels hret), congrArg Prod.snd (hlabels hret), fun i => ?_, ?_⟩
  · exact congrFun (congrArg Prod.fst htally) i
  · exact congrArg Prod.snd htally

theorem exec_failed_booted : ∃ w p, Reachable imageLayout w.sys ∧ (w.sys.proc p).state = .RUNNING ∧
    Wp (exec imageLayout p [] []) (fun e => ∀ m, e ≠ .mem m) (fun ret w' => ret = -1 →
      Intact imageLayout w.sys w'.sys ∧ w'.name = w.name ∧ w'.cwd = w.cwd ∧
      (∀ i, (w'.files.inode i).ref = (w.files.inode i).ref) ∧
      w'.files.log.outstanding = w.files.log.outstanding) w := by
  obtain ⟨t, p, g, r, x, _, hreach, hb⟩ := Reachable.init imageLayout fun _ _ => 0
  let dinode : Files.Dinode := ⟨1, 1, [], []⟩
  let files : Files.State :=
    { inode := fun _ => ⟨1, 1, false, true, dinode⟩, log := ⟨30, 0, false, []⟩, disk := fun _ => dinode,
      bitmap := fun _ => true, inodestart := 32, bmapstart := 45 }
  exact ⟨⟨t, files, fun _ => 0, fun _ => []⟩, p, hreach, hb.state, exec_failed hreach (by rw [hb.state]; simp) [] []⟩

end World

end PbsCow
