import PbsCow.LogRecovery

namespace PbsCow.LogDisk
open Bcache (LOGSIZE)
set_option autoImplicit true

variable {sb : Superblock} {s t : State} {d d' h h₀ h₁ : Disk}

theorem cwp_writeHead {P : Disk → Prop} (hP : P s.disk) (hb : ∀ b ∈ s.log.block, b < 2 ^ 32)
    (hn : s.log.block.length ≤ LOGSIZE) :
    Cwp (writeHead sb) (Crash P s)
      (fun _ t => Outside (· = sb.logstart) s t ∧ header (t.disk sb.logstart) = s.log.block) s := by
  have hlen : s.log.block.length < 2 ^ 31 := Nat.lt_of_le_of_lt hn (by decide)
  rw [writeHead, cwp_bind]
  apply cwp_bread
  intro buf t ht _
  rw [cwp_bind, cwp_get, ht.log]
  have hbefore : P t.disk := by
    rw [ht.disk]
    exact hP
  refine (cwp_bwrite _ _ hbefore ?_).mono (fun e u hu => hu.before (p := fun _ => False) ht.outside) fun _ _ h => h
  refine ⟨ht.outside.trans (outside_written t _ _), ?_⟩
  rw [disk_written, if_pos rfl, header_setHeader _ hb hlen]

namespace Holds

theorem logstart_not_mem (hd : Holds sb d h blocks) : sb.logstart ∉ blocks := by
  intro hm
  have hpos := sb.nonempty
  rcases hd.home _ hm with hlt | hge <;> omega

theorem copy_not_mem (hd : Holds sb d h blocks) (hi : i ≤ blocks.length) : sb.logstart + i ∉ blocks := by
  intro hm
  have hsize := hd.size.2
  rcases hd.home _ hm with hlt | hge <;> omega

/-- The blocks that the header names are as good as written. -/
theorem install (hd : Holds sb d h blocks) (hsame : ∀ x, x ∉ blocks → d' x = d x) : Holds sb d' h blocks where
  header := by
    rw [hsame _ hd.logstart_not_mem]
    exact hd.header
  home := hd.home
  size := hd.size
  copies i b hi := by
    have hlt : i < blocks.length := (List.getElem?_eq_some_iff.1 hi).1
    rw [hd.copies i b hi, Nat.add_assoc, hsame _ (hd.copy_not_mem hlt)]
  same b hb hm := by
    rw [hsame b hm]
    exact hd.same b hb hm

/-- What is after the header is nothing, where the header names no block. -/
theorem scratch (hd : Holds sb d h []) (hn : n < sb.nlog) (hsame : ∀ x, ¬sb.Copy 0 n x → d' x = d x) :
    Holds sb d' h [] where
  header := by
    rw [hsame sb.logstart]
    · exact hd.header
    · rw [Superblock.Copy]
      omega
  home := hd.home
  size := hd.size
  copies i b hi := by cases hi
  same b hb hm := by
    rw [hsame b]
    · exact hd.same b hb hm
    · intro hc
      rw [Superblock.Copy] at hc
      rcases hb with hlt | hge <;> omega

theorem nothing (hheader : LogDisk.header (d sb.logstart) = []) (hsame : ∀ b, sb.Home b → d b = h b) : Holds sb d h [] where
  header := hheader
  home b hb := by cases hb
  size := ⟨Nat.zero_le _, sb.nonempty⟩
  copies i b hi := by cases hi
  same b hb _ := hsame b hb

end Holds

/-- Nothing is committed of the change from `h₀` to `h₁`, which the kernel sees. -/
structure Synced (sb : Superblock) (h₀ h₁ : Disk) (s : State) : Prop where
  disk : Holds sb s.disk h₀ []
  view : ∀ b, sb.Home b → s.view b = h₁ b
  pinned : ∀ b ∈ s.log.block, s.pins b ≠ 0
  clean : ∀ b, b ∉ s.log.block → s.view b = s.disk b
  home : ∀ b ∈ s.log.block, sb.Home b ∧ b < 2 ^ 32
  size : s.log.block.length ≤ LOGSIZE ∧ s.log.block.length < sb.nlog
  nlog : s.log.size = sb.nlog

/-- The contents are installed, and then the header is cleared. -/
theorem cwp_installed (hd : Holds sb s.disk h s.log.block) (hclean : ∀ x, x ∉ s.log.block → s.view x = s.disk x)
    (hnlog : s.log.size = sb.nlog) :
    Cwp (do
      installTrans sb recovering
      setBlock []
      writeHead sb) (Crash (Recovers sb · h) s)
      (fun _ t => Synced sb h h t ∧ t.log = { s.log with block := [] } ∧ (s.power = none → t.power = none)) s := by
  rw [installTrans, cwp_bind, cwp_bind, cwp_get]
  have hcopy (i : Nat) (hi : i < s.log.block.length) : sb.logstart + 0 + i + 1 ∉ s.log.block := by
    rw [Nat.add_zero, Nat.add_assoc]
    exact hd.copy_not_mem hi
  refine ((cwp_installLoop (h := h) (P := (Recovers sb · h)) ?_ ?_ ?_ hclean).mono (fun _ _ hc => hc) fun _ t ht => ?_)
  · intro d' hd'
    exact ⟨s.log.block, hd.install hd'⟩
  · intro b hb i hi he
    exact hcopy i hi (he ▸ hb)
  · intro i b hi
    rw [Nat.add_zero]
    exact hd.copies i b hi
  obtain ⟨hout, hall, hdone⟩ := ht
  rw [cwp_bind, setBlock, cwp_modify]
  obtain ⟨u, hu⟩ : ∃ u : State, u = { t with log := { t.log with block := [] } } := ⟨_, rfl⟩
  rw [← hu]
  have hdisk : u.disk = t.disk := by rw [hu]
  have hview : u.view = t.view := by rw [hu]; rfl
  have hlog : u.log = { s.log with block := [] } := by rw [hu, hout.log]
  have hnone : u.log.block = [] := by rw [hlog]
  have hpower : s.power = none → u.power = none := by
    intro hs
    rw [hu]
    exact hout.power hs
  have hhome (b : Nat) (hb : sb.Home b) : u.disk b = h b := by
    rw [hdisk]
    by_cases hm : b ∈ s.log.block
    · exact hdone b hm
    · rw [hout.disk b hm]
      exact hd.same b hb hm
  refine (cwp_writeHead (P := (Recovers sb · h)) ⟨s.log.block, ?_⟩ ?_ ?_).mono (fun e v hv => ?_) fun _ v hv => ?_
  · rw [hdisk]
    exact hd.install hout.disk
  · intro b hb
    rw [hnone] at hb
    cases hb
  · rw [hnone]
    exact Nat.zero_le _
  · exact ⟨hv.1, fun hs => hv.2.1 (hpower hs), hv.2.2⟩
  · obtain ⟨hv, hheader⟩ := hv
    rw [hnone] at hheader
    have hlogv : v.log.block = [] := by rw [hv.log, hnone]
    have hcleanv (b : Nat) : v.view b = v.disk b := by
      apply hv.clean
      rw [hview, hdisk]
      exact hall b
    have hne (b : Nat) (hb : sb.Home b) : b ≠ sb.logstart := by
      rintro rfl
      have hpos := sb.nonempty
      rcases hb with hb | hb <;> omega
    have hhomev (b : Nat) (hb : sb.Home b) : v.disk b = h b := by
      rw [hv.disk b (hne b hb)]
      exact hhome b hb
    refine ⟨⟨.nothing hheader hhomev, fun b hb => ?_, fun b hb => ?_, fun b _ => hcleanv b, fun b hb => ?_, ?_, ?_⟩,
      ?_, fun hs => hv.power (hpower hs)⟩
    · rw [hcleanv, hhomev b hb]
    · rw [hlogv] at hb
      cases hb
    · rw [hlogv] at hb
      cases hb
    · rw [hlogv]
      exact ⟨Nat.zero_le _, sb.nonempty⟩
    · rw [hv.log, hlog]
      exact hnlog
    · rw [hv.log, hlog]

/-- Where the power fails, one of the two contents is recovered; otherwise it is the new one. -/
theorem cwp_commit (hs : Synced sb h₀ h₁ s) :
    Cwp (commit sb) (Crash (fun d => Recovers sb d h₀ ∨ Recovers sb d h₁) s)
      (fun _ t => Synced sb h₁ h₁ t ∧ t.log = { s.log with block := [] } ∧ (s.power = none → t.power = none)) s := by
  rw [commit, cwp_bind, cwp_get]
  apply Cwp.ite
  · intro _
    have hcopyHome (b : Nat) (hb : sb.Home b) : ¬sb.Copy 0 s.log.block.length b := by
      have hsize := hs.size.2
      rw [Superblock.Copy]
      rcases hb with hlt | hge <;> omega
    rw [writeLog, cwp_bind, cwp_bind, cwp_get]
    refine (cwp_writeLogLoop (P := (Recovers sb · h₀)) ?_ ?_ ?_).mono (fun e t ht => ?_) fun _ t ht => ?_
    · intro d' hd'
      exact ⟨[], hs.disk.scratch hs.size.2 hd'⟩
    · intro b hb
      exact .inr (hs.pinned b hb)
    · intro b hb
      exact hcopyHome b (hs.home b hb).1
    · exact ⟨ht.1, ht.2.1, .inl ht.2.2⟩
    obtain ⟨hout, hcopies⟩ := ht
    rw [cwp_bind]
    refine (cwp_writeHead (P := (Recovers sb · h₀)) ⟨[], ?_⟩ ?_ ?_).mono (fun e u hu => ?_) fun _ u hu => ?_
    · exact hs.disk.scratch hs.size.2 hout.disk
    · rw [hout.log]
      exact fun b hb => (hs.home b hb).2
    · rw [hout.log]
      exact hs.size.1
    · exact ⟨hu.1, (hu.before hout).2.1, .inl hu.2.2⟩
    -- the header has been written, and with it the transaction
    obtain ⟨hu, hheader⟩ := hu
    have hlog : u.log = s.log := hu.log.trans hout.log
    have hne (b : Nat) (hb : sb.Home b) : b ≠ sb.logstart := by
      rintro rfl
      have hpos := sb.nonempty
      rcases hb with hb | hb <;> omega
    have hclean (b : Nat) (hb : b ∉ s.log.block) : u.view b = u.disk b := hu.clean b (hout.clean b (hs.clean b hb))
    have hholds : Holds sb u.disk h₁ s.log.block := by
      refine ⟨by rw [hheader, hout.log], fun b hb => (hs.home b hb).1, hs.size, fun i b hi => ?_, fun b hb hm => ?_⟩
      · have hcopy : t.disk (sb.logstart + i + 1) = s.view b := hcopies i b hi
        rw [hu.disk _ (by omega), hcopy]
        exact (hs.view b (hs.home b (List.mem_of_getElem? hi)).1).symm
      · rw [hu.disk b (hne b hb), hout.disk b (hcopyHome b hb), ← hs.clean b hm]
        exact hs.view b hb
    rw [← hlog] at hholds hclean
    refine (cwp_installed hholds hclean ?_).mono (fun e v hv => ?_) fun _ v hv => ?_
    · rw [hlog]
      exact hs.nlog
    · exact ⟨hv.1, fun h => hv.2.1 (hu.power (hout.power h)), .inr hv.2.2⟩
    · rw [hlog] at hv
      exact ⟨hv.1, hv.2.1, fun h => hv.2.2 (hu.power (hout.power h))⟩
  · intro hempty
    have hnil : s.log.block = [] := List.eq_nil_of_length_eq_zero (by omega)
    have hclean (b : Nat) : s.view b = s.disk b := by
      apply hs.clean
      rw [hnil]
      exact List.not_mem_nil
    have hlog : s.log = { s.log with block := [] } := by rw [← hnil]
    rw [cwp_pure]
    refine ⟨⟨.nothing hs.disk.header fun b hb => ?_, hs.view, hs.pinned, hs.clean, hs.home, hs.size, hs.nlog⟩, hlog, id⟩
    rw [← hclean]
    exact hs.view b hb

/-- Recovery gives the contents, and where the power fails in it the next one does. -/
theorem cwp_initlog (hd : Recovers sb d h) :
    Cwp (initlog sb) (Crash (Recovers sb · h) (.boot d power spill))
      (fun _ t => Synced sb h h t ∧ (power = none → t.power = none)) (.boot d power spill) := by
  obtain ⟨blocks, hd⟩ := hd
  rw [initlog]
  apply Cwp.ite
  · intro hbig
    exact absurd hbig (by decide)
  intro _
  rw [cwp_bind, cwp_modify, recoverFromLog, readHead, cwp_bind, cwp_bind]
  apply cwp_bread
  intro buf t ht hbuf
  rw [ht.view _ (.inl rfl)] at hbuf
  change d sb.logstart = buf at hbuf
  subst hbuf
  have hcount := header_length (d sb.logstart)
  rw [hd.header] at hcount
  apply Cwp.ite
  · intro hover
    rw [← hcount] at hover
    exact absurd hd.size.1 (Nat.not_le.2 hover)
  intro _
  rw [hd.header, setBlock, cwp_modify]
  obtain ⟨u, hu⟩ : ∃ u : State, u = { t with log := { t.log with block := blocks } } := ⟨_, rfl⟩
  have hdisk : u.disk = d := by
    rw [hu]
    exact ht.disk
  have hlog : u.log = ⟨sb.nlog, 0, false, blocks⟩ := by rw [hu, ht.log]
  have hblock : u.log.block = blocks := by rw [hlog]
  have hpower : u.power = power := by
    rw [hu]
    exact ht.power
  have hclean (x : Nat) : u.view x = u.disk x := by
    rw [hu]
    exact ht.clean rfl
  rw [← hu]
  refine (cwp_installed (h := h) ?_ (fun x _ => hclean x) ?_).mono (fun e v hv => ?_) fun _ v hv => ?_
  · rw [hdisk, hblock]
    exact hd
  · rw [hlog]
  · rw [Crash, hpower] at hv
    exact hv
  · rw [hpower] at hv
    exact ⟨hv.1, hv.2.2⟩

end PbsCow.LogDisk
