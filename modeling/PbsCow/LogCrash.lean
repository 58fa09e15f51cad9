import PbsCow.LogCommit
import PbsCow.LogSpace

namespace PbsCow.LogDisk
open Bcache (LOGSIZE)
set_option autoImplicit true

/-- The transactions since the kernel was booted: those whose commit has returned, and the one after them. -/
structure Epoch where
  done : List (List Change)
  cur : List Change

def Epoch.txs (e : Epoch) : List (List Change) := e.done ++ [e.cur]

inductive Machine where
  | up (s : State)
  | down (d : Disk)

/-- A run of the machine from the disk `d₀`, with its epochs, the latest first. The transactions change blocks
that are not in the log. When the power fails, and what the cache gives up, may be anything. -/
inductive Run (sb : Superblock) (d₀ : Disk) : List Epoch → Machine → Prop
  | image : Run sb d₀ [] (.down d₀)
  | boot (hr : Run sb d₀ es (.down d)) (h : runOn (initlog sb) (.boot d p spill) = (.ok (), s)) :
      Run sb d₀ (⟨[], []⟩ :: es) (.up s)
  | bootCrash (hr : Run sb d₀ es (.down d)) (h : runOn (initlog sb) (.boot d power spill) = (.error e, s)) :
      Run sb d₀ es (.down s.disk)
  | environment (hr : Run sb d₀ es (.up s)) : Run sb d₀ es (.up { s with power := p, spill := l })
  | beginOp (hr : Run sb d₀ es (.up s)) (h : runOn beginOp s = (.ok true, t)) : Run sb d₀ es (.up t)
  | change (hr : Run sb d₀ (e :: es) (.up s)) (hhome : sb.Home c.block) (huint : c.block < 2 ^ 32)
      (h : runOn (change c.block c.change) s = (.ok (), t)) :
      Run sb d₀ (⟨e.done, e.cur ++ [c]⟩ :: es) (.up t)
  | endOp (hr : Run sb d₀ es (.up s)) (hnot : s.log.outstanding ≠ 1) (h : runOn (endOp sb) s = (.ok (), t)) :
      Run sb d₀ es (.up t)
  | commit (hr : Run sb d₀ (e :: es) (.up s)) (hlast : s.log.outstanding = 1) (h : runOn (endOp sb) s = (.ok (), t)) :
      Run sb d₀ (⟨e.txs, []⟩ :: es) (.up t)
  | endOpCrash (hr : Run sb d₀ es (.up s)) (h : runOn (endOp sb) s = (.error .powerFailure, t)) :
      Run sb d₀ es (.down t.disk)
  | crash (hr : Run sb d₀ es (.up s)) : Run sb d₀ es (.down s.disk)

/-- The contents are those of `d₀` after a prefix of the transactions of each epoch, which has in it all of those
whose commit returned. -/
inductive Outcome (sb : Superblock) (d₀ : Disk) : List Epoch → Disk → Prop
  | image (hsame : ∀ b, sb.Home b → h b = d₀ b) : Outcome sb d₀ [] h
  | epoch (ho : Outcome sb d₀ es base) (n : Nat) (hdone : e.done.length ≤ n) (hle : n ≤ e.txs.length)
      (hsame : ∀ b, sb.Home b → h b = applyAll base (e.txs.take n) b) : Outcome sb d₀ (e :: es) h

/-- What the machine holds of the transactions of its epochs. -/
inductive Kept (sb : Superblock) (d₀ : Disk) : List Epoch → Machine → Prop
  | up (ho : Outcome sb d₀ es base) (hs : Synced sb (applyAll base e.done) (applyAll base e.txs) s) :
      Kept sb d₀ (e :: es) (.up s)
  | down (ho : Outcome sb d₀ es h) (hd : Recovers sb d h) : Kept sb d₀ es (.down d)

variable {sb : Superblock} {s t : State} {d d₀ h h₀ h₁ : Disk}

theorem Synced.congr (hs : Synced sb h₀ h₁ s) (hdisk : t.disk = s.disk) (hbuf : t.buf = s.buf) (hpins : t.pins = s.pins)
    (hblock : t.log.block = s.log.block) (hsize : t.log.size = s.log.size) : Synced sb h₀ h₁ t := by
  have hview (b : Nat) : t.view b = s.view b := by rw [State.view, State.view, hdisk, hbuf]
  constructor
  · rw [hdisk]
    exact hs.disk
  · intro b hb
    rw [hview]
    exact hs.view b hb
  · rw [hblock, hpins]
    exact hs.pinned
  · intro b hb
    rw [hblock] at hb
    rw [hview, hdisk]
    exact hs.clean b hb
  · rw [hblock]
    exact hs.home
  · rw [hblock]
    exact hs.size
  · rw [hsize]
    exact hs.nlog

theorem cwp_onLog {x : Log.Sys α} (hok : ∀ a log, x s.log = .ok (a, log) → Q a { s with log := log })
    (herr : ∀ e, C (.log e) s) : Cwp (onLog x) C Q s := by
  rw [onLog, cwp_bind, cwp_get]
  split
  · next a log h => exact hok a log h
  · next e h => exact herr e

theorem runOn_onLog {x : Log.Sys α} (h : runOn (onLog x) s = (.ok a, t)) :
    ∃ log, x s.log = .ok (a, log) ∧ t = { s with log := log } := by
  have hw : Cwp (onLog x) (fun _ _ => True) (fun a t => ∃ log, x s.log = .ok (a, log) ∧ t = { s with log := log }) s :=
    cwp_onLog (fun a log h => ⟨log, h, rfl⟩) fun _ => trivial
  exact hw.of_eq_ok h

theorem applyAll_append (d : Disk) (txs txs' : List (List Change)) :
    applyAll d (txs ++ txs') = applyAll (applyAll d txs) txs' := List.foldl_append

theorem applyAll_txs (e : Epoch) (c : Change) (d : Disk) :
    applyAll d (Epoch.txs ⟨e.done, e.cur ++ [c]⟩) = c.apply (applyAll d e.txs) := by
  rw [Epoch.txs, Epoch.txs, applyAll_append, applyAll_append]
  exact List.foldl_append

/-- A change that is logged is part of what the kernel sees, and of nothing else. -/
theorem Synced.change (hs : Synced sb h₀ h₁ s) (c : Change) (hhome : sb.Home c.block) (huint : c.block < 2 ^ 32) :
    Cwp (change c.block c.change) (fun _ _ => True) (fun _ t => Synced sb h₀ (c.apply h₁) t) s := by
  have hseen (b : Nat) : s.view b = s.disk b ∨ s.pins b ≠ 0 := by
    by_cases hb : b ∈ s.log.block
    · exact .inr (hs.pinned b hb)
    · exact .inl (hs.clean b hb)
  rw [LogDisk.change, cwp_bind]
  apply cwp_bread
  intro data t ht hdata
  rw [ht.view _ (hseen _), hs.view _ hhome] at hdata
  subst hdata
  rw [cwp_bind, cwp_modify, logWrite, cwp_bind, cwp_get, cwp_bind]
  apply cwp_onLog
  · intro _ log hlog
    obtain ⟨hroom, hlog⟩ := Log.logWrite_ok hlog
    have ht' : (t.setBuf c.block (c.change (h₁ c.block))).log = s.log := ht.log
    rw [ht'] at hroom hlog ⊢
    obtain ⟨u, hu⟩ : ∃ u, u = { t.setBuf c.block (c.change (h₁ c.block)) with log := log } := ⟨_, rfl⟩
    have hview (x : Nat) : u.view x = if x = c.block then c.change (h₁ c.block) else s.view x := by
      rw [hu]
      refine (view_setBuf t c.block (c.change (h₁ c.block))).trans ?_
      rw [ht.view x (hseen x)]
    have hdisk : u.disk = s.disk := by
      rw [hu]
      exact ht.disk
    have hpins : u.pins = s.pins := by
      rw [hu]
      exact ht.pins
    have hblock : u.log.block = if c.block ∈ s.log.block then s.log.block else s.log.block ++ [c.block] := by
      rw [hu, hlog]
    have hmem (x : Nat) : x ∈ u.log.block ↔ x ∈ s.log.block ∨ x = c.block := by
      rw [hblock]
      split
      · next hin =>
        exact ⟨.inl, fun h => h.elim id fun he => he ▸ hin⟩
      · rw [List.mem_append, List.mem_singleton]
    rw [hs.nlog] at hroom
    have hlen : u.log.block.length ≤ s.log.block.length + 1 := by
      rw [hblock]
      split
      · exact Nat.le_succ _
      · rw [List.length_append, List.length_singleton]
    have hnlog : u.log.size = sb.nlog := by
      rw [hu, hlog]
      exact hs.nlog
    have hlogged (v : State) (hv : v = u ∨ v = { u with pins := Function.update u.pins c.block (u.pins c.block + 1) })
        (hpinned : ∀ b ∈ u.log.block, v.pins b ≠ 0) : Synced sb h₀ (c.apply h₁) v := by
      have hvdisk : v.disk = s.disk := by rcases hv with rfl | rfl <;> exact hdisk
      have hvlog : v.log = u.log := by rcases hv with rfl | rfl <;> rfl
      have hvview : v.view = u.view := by rcases hv with rfl | rfl <;> rfl
      refine ⟨by rw [hvdisk]; exact hs.disk, fun b hb => ?_, by rw [hvlog]; exact hpinned, fun b hb => ?_, fun b hb => ?_,
        ?_, by rw [hvlog]; exact hnlog⟩
      · rw [hvview, hview, Change.apply, Function.update_apply]
        split
        · rfl
        · exact hs.view b hb
      · rw [hvlog, hmem, not_or] at hb
        rw [hvview, hvdisk, hview, if_neg hb.2]
        exact hs.clean b hb.1
      · rw [hvlog, hmem] at hb
        rcases hb with hb | rfl
        · exact hs.home b hb
        · exact ⟨hhome, huint⟩
      · rw [hvlog]
        omega
    rw [← hu]
    apply Cwp.ite
    · intro _
      rw [bpin, cwp_modify]
      apply hlogged _ (.inr rfl)
      intro b hb
      dsimp only
      rw [Function.update_apply]
      split
      · exact Nat.succ_ne_zero _
      · next hne =>
        rw [hpins]
        exact hs.pinned b (((hmem b).1 hb).resolve_right hne)
    · intro hin
      rw [not_not] at hin
      rw [cwp_pure]
      apply hlogged _ (.inl rfl)
      intro b hb
      rw [hpins]
      rcases (hmem b).1 hb with hb | rfl
      · exact hs.pinned b hb
      · exact hs.pinned _ hin
  · intro _
    trivial

theorem Synced.endOp (hs : Synced sb h₀ h₁ s) :
    Cwp (endOp sb) (fun e t => e = .powerFailure → Recovers sb t.disk h₀ ∨ Recovers sb t.disk h₁)
      (fun _ t => Synced sb (if s.log.outstanding = 1 then h₁ else h₀) h₁ t) s := by
  rw [LogDisk.endOp, cwp_bind]
  apply cwp_onLog
  · intro doCommit log hlog
    obtain ⟨hcommit, hlog⟩ := Log.endOp_ok hlog
    obtain ⟨t, ht⟩ : ∃ t, t = { s with log := log } := ⟨_, rfl⟩
    rw [← ht]
    have hst : Synced sb h₀ h₁ t := by
      apply hs.congr
      all_goals rw [ht]
      all_goals rw [hlog]
    apply Cwp.ite
    · intro hyes
      rw [hcommit, decide_eq_true_eq] at hyes
      rw [if_pos (by omega), cwp_bind]
      refine (cwp_commit hst).mono (fun e u hu _ => hu.2.2) fun _ u hu => ?_
      apply cwp_onLog
      · intro _ log' hlog'
        obtain rfl : { u.log with committing := false } = log' := congrArg Prod.snd (Except.ok.inj hlog')
        exact hu.1.congr rfl rfl rfl rfl rfl
      · intro e he
        cases he
    · intro hno
      rw [hcommit, decide_eq_true_eq] at hno
      rw [if_neg (by omega), cwp_pure]
      exact hst
  · intro e he
    cases he

theorem Outcome.returned (ho : Outcome sb d₀ es h) (e : Epoch) : Outcome sb d₀ (e :: es) (applyAll h e.done) := by
  apply ho.epoch e.done.length (Nat.le_refl _)
  · rw [Epoch.txs, List.length_append]
    exact Nat.le_add_right ..
  · intro b _
    rw [Epoch.txs, List.take_left]

theorem Outcome.all (ho : Outcome sb d₀ es h) (e : Epoch) : Outcome sb d₀ (e :: es) (applyAll h e.txs) := by
  apply ho.epoch e.txs.length _ (Nat.le_refl _)
  · intro b _
    rw [List.take_length]
  · rw [Epoch.txs, List.length_append]
    exact Nat.le_add_right ..

theorem applyAll_committed (e : Epoch) (d : Disk) : applyAll d (Epoch.txs ⟨e.txs, []⟩) = applyAll d e.txs :=
  applyAll_append d e.txs [[]]

/-- At every point of a run, recovery would keep the transactions whose commit has returned, and no part of another. -/
theorem Run.kept (hheader : header (d₀ sb.logstart) = []) (hr : Run sb d₀ es m) : Kept sb d₀ es m := by
  induction hr with
  | image => exact .down (.image fun _ _ => rfl) ⟨[], .nothing hheader fun _ _ => rfl⟩
  | boot _ h ih =>
    cases ih with
    | down ho hd =>
      have hs := (cwp_initlog hd).of_eq_ok h
      exact .up ho hs.1
  | bootCrash _ h ih =>
    cases ih with
    | down ho hd =>
      have hs := (cwp_initlog hd).of_eq_error h
      exact .down ho hs.2.2
  | environment _ ih =>
    cases ih with
    | up ho hs => exact .up ho (hs.congr rfl rfl rfl rfl rfl)
  | beginOp _ h ih =>
    cases ih with
    | up ho hs =>
      obtain ⟨log, hlog, rfl⟩ := runOn_onLog h
      obtain ⟨_, rfl⟩ := Log.beginOp_ok hlog
      exact .up ho (hs.congr rfl rfl rfl rfl rfl)
  | change _ hhome huint h ih =>
    cases ih with
    | up ho hs =>
      have hc := (hs.change _ hhome huint).of_eq_ok h
      apply Kept.up ho
      rw [applyAll_txs]
      exact hc
  | endOp _ hnot h ih =>
    cases ih with
    | up ho hs =>
      have ht := hs.endOp.of_eq_ok h
      rw [if_neg hnot] at ht
      exact .up ho ht
  | commit _ hlast h ih =>
    cases ih with
    | up ho hs =>
      have ht := hs.endOp.of_eq_ok h
      rw [if_pos hlast] at ht
      apply Kept.up ho
      rw [applyAll_committed]
      exact ht
  | endOpCrash _ h ih =>
    cases ih with
    | up ho hs =>
      rcases hs.endOp.of_eq_error h rfl with hd | hd
      · exact .down (ho.returned _) hd
      · exact .down (ho.all _) hd
  | crash _ ih =>
    cases ih with
    | up ho hs => exact .down (ho.returned _) ⟨[], hs.disk⟩

/-- After any crash, `initlog` leaves the blocks as after a prefix of the transactions, with those in it whose
commit returned. -/
theorem crash_atomic (hheader : header (d₀ sb.logstart) = []) (hr : Run sb d₀ es (.down d)) (spill : List (Nat → Bool)) :
    ∃ s, runOn (initlog sb) (.boot d none spill) = (.ok (), s) ∧ Outcome sb d₀ es s.disk := by
  cases hr.kept hheader with
  | down ho hd =>
    have hw : Cwp (initlog sb) _ _ (.boot d none spill) := cwp_initlog hd
    obtain ⟨_, s, hs, hsync⟩ := (hw.mono (fun e t ht => ht.2.1 rfl) fun _ _ h => h).exists_ok
    refine ⟨s, hs, ?_⟩
    have hsame (b : Nat) (hb : sb.Home b) : s.disk b = _ := hsync.1.disk.same b hb List.not_mem_nil
    cases ho with
    | image hi =>
      apply Outcome.image
      intro b hb
      rw [hsame b hb, hi b hb]
    | epoch ho n hdone hle he =>
      apply ho.epoch n hdone hle
      intro b hb
      rw [hsame b hb, he b hb]

/-- The power fails after the header has been written, and before the block has. -/
theorem crash_atomic_installing : ∃ d s, Run ⟨2, LOGSIZE, by decide⟩ (fun _ => Block.zero)
      [⟨[], [⟨46, fun _ _ => 7⟩]⟩] (.down d) ∧ d 46 = Block.zero ∧
    runOn (initlog ⟨2, LOGSIZE, by decide⟩) (.boot d none []) = (.ok (), s) ∧
    Outcome ⟨2, LOGSIZE, by decide⟩ (fun _ => Block.zero) [⟨[], [⟨46, fun _ _ => 7⟩]⟩] s.disk := by
  obtain ⟨sb, hsb⟩ : ∃ sb : Superblock, sb = ⟨2, LOGSIZE, by decide⟩ := ⟨_, rfl⟩
  have hboot : ∃ s, runOn (initlog sb) (.boot (fun _ => Block.zero) none []) = (.ok (), s) ∧
      s.log = ⟨LOGSIZE, 0, false, []⟩ ∧ s.disk 46 = Block.zero := by
    rw [hsb]
    exact ⟨_, rfl, rfl, rfl⟩
  obtain ⟨⟨disk, buf, pins, log, power, spill⟩, hboot, hlog, hdisk⟩ := hboot
  dsimp only at hlog hdisk
  subst hlog
  have hbegin : Run sb (fun _ => Block.zero) [⟨[], []⟩]
      (.up ⟨disk, buf, pins, ⟨LOGSIZE, 1, false, []⟩, none, []⟩) := by
    apply Run.beginOp (s := ⟨disk, buf, pins, ⟨LOGSIZE, 0, false, []⟩, none, []⟩)
    · exact .environment (.boot .image hboot)
    · rfl
  have hchange : ∃ t, runOn (change 46 fun _ _ => 7) ⟨disk, buf, pins, ⟨LOGSIZE, 1, false, []⟩, none, []⟩ = (.ok (), t) ∧
      t.log = ⟨LOGSIZE, 1, false, [46]⟩ ∧ t.disk = disk := ⟨_, rfl, rfl, rfl⟩
  obtain ⟨⟨disk', buf', pins', log, power, spill⟩, hchange, hlog, hsame⟩ := hchange
  dsimp only at hlog hsame
  subst hlog hsame hsb
  have hfail : ∃ u, runOn (endOp ⟨2, LOGSIZE, by decide⟩)
      ⟨disk', buf', pins', ⟨LOGSIZE, 1, false, [46]⟩, some 2, []⟩ = (.error .powerFailure, u) ∧
        u.disk 46 = disk' 46 := ⟨_, rfl, rfl⟩
  obtain ⟨u, hfail, hold⟩ := hfail
  have hchanged := Run.change (c := ⟨46, fun _ _ => 7⟩) hbegin (.inr (by decide)) (by decide) hchange
  have hrun := Run.endOpCrash (.environment hchanged) hfail
  obtain ⟨s, hs, ho⟩ := crash_atomic rfl hrun []
  exact ⟨u.disk, s, hrun, hold.trans hdisk, hs, ho⟩

end PbsCow.LogDisk
