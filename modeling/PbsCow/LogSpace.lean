import Mathlib.Algebra.Order.BigOperators.Group.Multiset
import Mathlib.Algebra.Order.Group.Nat
import Mathlib.Data.Fintype.EquivFin
import Mathlib.Order.Interval.Finset.Nat
import Mathlib.Logic.Relation
import PbsCow.Log

namespace PbsCow.Log
open Bcache (MAXOPBLOCKS LOGSIZE)
open Relation (ReflTransGen)
set_option autoImplicit true

structure Superblock where
  nlog : Nat
  logstart : Nat

/-- The log in the superblock that `mkfs` writes. -/
def mkfs : Superblock := ⟨LOGSIZE, 2⟩

/-- `initlog` on a disk with an empty log. -/
def initlog (sb : Superblock) : State := ⟨sb.nlog, 0, false, []⟩

/-- Where the caller of `end_op` is that commits. -/
inductive Phase where
  | running
  | commits
  | committed
  deriving DecidableEq

/-- The log, and for each operation in progress the blocks that it has logged. -/
structure Trans where
  log : State
  ops : Multiset (Finset Nat)
  phase : Phase

def Trans.boot : Trans := ⟨initlog mkfs, 0, .running⟩

/-- The blocks that `commit` writes in the log: the copies, the header, and the header again. -/
def Trans.commitBlocks (t : Trans) : List Nat :=
  if t.log.block = [] then []
  else (List.range t.log.block.length).map (fun tail => mkfs.logstart + tail + 1) ++
    [mkfs.logstart, mkfs.logstart]

inductive Event where
  | beginOp
  | logWrite
  | endOp
  | commit
  | endCommit

/-- A step of one of the processes. No operation logs more than `MAXOPBLOCKS` blocks. -/
inductive Step : Event → Trans → Trans → Prop
  | beginOp (h : beginOp t.log = .ok (true, log)) : Step .beginOp t { t with log, ops := ∅ ::ₘ t.ops }
  | logWrite (hop : o ∈ t.ops) (hshare : (insert b o).card ≤ MAXOPBLOCKS)
      (h : logWrite b t.log = .ok ((), log)) :
      Step .logWrite t { t with log, ops := insert b o ::ₘ t.ops.erase o }
  | endOp (hop : o ∈ t.ops) (h : endOp t.log = .ok (doCommit, log)) :
      Step .endOp t ⟨log, t.ops.erase o, if doCommit then .commits else t.phase⟩
  | commit (hp : t.phase = .commits) (h : commit t.log = .ok ((), log)) :
      Step .commit t { t with log, phase := .committed }
  | endCommit (hp : t.phase = .committed) (h : endCommit t.log = .ok ((), log)) :
      Step .endCommit t { t with log, phase := .running }

/-- A run in which the operations are admitted in states that meet `C`. -/
def Run (C : Trans → Prop) : Trans → Prop :=
  ReflTransGen (fun t t' => ∃ e, Step e t t' ∧ (e = .beginOp → C t)) .boot

/-- What the operations in progress can do without another one. -/
def Later : Trans → Trans → Prop := ReflTransGen fun t t' => ∃ e, Step e t t' ∧ e ≠ .beginOp

/-- No operation that keeps to its share is too big, and `commit` keeps to the log. -/
def Safe (t : Trans) : Prop :=
  (∀ o b, o ∈ t.ops → (insert b o).card ≤ MAXOPBLOCKS → logWrite b t.log ≠ .error .tooBigATransaction) ∧
  (t.phase = .commits → ∀ b, b ∈ t.commitBlocks → mkfs.logstart ≤ b ∧ b < mkfs.logstart + mkfs.nlog)

/-- What the operations in progress may still log. -/
def Trans.share (t : Trans) : Nat := (t.ops.map fun o => MAXOPBLOCKS - o.card).sum

/-- One more operation leaves a block of the log unused. -/
def Roomy (t : Trans) : Prop := t.log.block.length + t.share + MAXOPBLOCKS < t.log.size - 1

structure Inv (t : Trans) : Prop where
  size : t.log.size = LOGSIZE
  outstanding : t.log.outstanding = t.ops.card
  share : ∀ o, o ∈ t.ops → o.card ≤ MAXOPBLOCKS
  logged : ∀ o, o ∈ t.ops → ∀ b, b ∈ o → b ∈ t.log.block
  fits : t.log.block.length ≤ LOGSIZE - 1
  phase : t.phase ≠ .running → t.ops = 0 ∧ t.log.committing
  running : t.phase = .running → t.log.committing = false

theorem logWrite_ok (h : logWrite b log = .ok ((), log')) :
    ¬ (LOGSIZE ≤ log.block.length ∨ log.size - 1 ≤ log.block.length) ∧
      log' = { log with block := if b ∈ log.block then log.block else log.block ++ [b] } := by
  have hw : Wp (logWrite b) AnyError (fun _ log' =>
      ¬ (LOGSIZE ≤ log.block.length ∨ log.size - 1 ≤ log.block.length) ∧
      log' = { log with block := if b ∈ log.block then log.block else log.block ++ [b] }) log := by
    rw [logWrite, wp_bind, wp_get]
    refine .ite (fun _ => trivial) fun hroom => .ite (fun _ => trivial) fun _ => ?_
    refine .ite (fun hnew => ⟨hroom, ?_⟩) fun hold => ⟨hroom, ?_⟩
    · rw [if_neg hnew]
    · rw [if_pos (not_not.mp hold)]
  exact hw.of_eq_ok h

theorem beginOp_ok (h : beginOp log = .ok (true, log')) :
    log.committing = false ∧ log' = { log with outstanding := log.outstanding + 1 } := by
  have hw : Wp beginOp AnyError (fun b log' => b = true →
      log.committing = false ∧ log' = { log with outstanding := log.outstanding + 1 }) log := by
    rw [beginOp, wp_bind, wp_get]
    refine .ite (fun _ h => by cases h) fun hc => .ite (fun _ h => by cases h) fun _ _ => ⟨by simpa using hc, rfl⟩
  exact hw.of_eq_ok h rfl

theorem endOp_ok (h : endOp log = .ok (doCommit, log')) :
    doCommit = decide (log.outstanding - 1 = 0) ∧
      log' = { log with outstanding := log.outstanding - 1, committing := doCommit } := by
  have hw : Wp endOp AnyError (fun doCommit log' => doCommit = decide (log.outstanding - 1 = 0) ∧
      log' = { log with outstanding := log.outstanding - 1, committing := doCommit }) log := by
    rw [endOp]
    simp only [wp_bind, wp_modify, wp_get]
    refine .ite (fun _ => trivial) fun hc => .ite (fun h0 => ⟨?_, rfl⟩) fun h0 => ⟨?_, ?_⟩
    · simpa using h0
    · simpa using h0
    · simp only [Bool.not_eq_true] at hc
      simp [hc]
  exact hw.of_eq_ok h

theorem Trans.share_cons {t : Trans} {o : Finset Nat} (h : o ∈ t.ops) :
    t.share = MAXOPBLOCKS - o.card + ((t.ops.erase o).map fun o => MAXOPBLOCKS - o.card).sum := by
  rw [share, ← Multiset.cons_erase h, Multiset.map_cons, Multiset.sum_cons, Multiset.cons_erase h]

theorem Inv.boot : Inv .boot := by
  refine ⟨rfl, rfl, ?_, ?_, Nat.zero_le _, ?_, fun _ => rfl⟩
  · intro o ho
    cases ho
  · intro o ho
    cases ho
  · intro h
    exact absurd rfl h

theorem Inv.step (h : Inv t) (hs : Step e t t') : Inv t' := by
  cases hs with
  | beginOp hb =>
    obtain ⟨hc, rfl⟩ := beginOp_ok hb
    refine ⟨h.size, ?_, ?_, ?_, h.fits, fun hp => ?_, h.running⟩
    · simp [h.outstanding]
    · intro o ho
      rcases Multiset.mem_cons.mp ho with rfl | ho
      · simp
      · exact h.share o ho
    · intro o ho
      rcases Multiset.mem_cons.mp ho with rfl | ho
      · simp
      · exact h.logged o ho
    · rw [(h.phase hp).2] at hc
      cases hc
  | @logWrite o b log _ hop hshare hw =>
    obtain ⟨hroom, rfl⟩ := logWrite_ok hw
    have hkeep (x : Nat) (hx : x ∈ t.log.block) :
        x ∈ if b ∈ t.log.block then t.log.block else t.log.block ++ [b] := by
      split
      · exact hx
      · exact List.mem_append_left _ hx
    refine ⟨h.size, ?_, ?_, ?_, ?_, fun hp => ?_, h.running⟩
    · have hcard := congrArg Multiset.card (Multiset.cons_erase hop)
      rw [Multiset.card_cons] at hcard ⊢
      rw [h.outstanding, ← hcard]
    · intro x hx
      rcases Multiset.mem_cons.mp hx with rfl | hx
      · exact hshare
      · exact h.share x (Multiset.mem_of_mem_erase hx)
    · intro x hx y hy
      rcases Multiset.mem_cons.mp hx with rfl | hx
      · rcases Finset.mem_insert.mp hy with rfl | hy
        · dsimp only
          split
          · assumption
          · exact List.mem_append_right _ (List.mem_singleton_self y)
        · exact hkeep y (h.logged o hop y hy)
      · exact hkeep y (h.logged x (Multiset.mem_of_mem_erase hx) y hy)
    · have hfits := h.fits
      have hsize := h.size
      dsimp only
      split
      · exact hfits
      · rw [List.length_append]
        simp only [List.length_singleton]
        omega
    · rw [(h.phase hp).1] at hop
      cases hop
  | @endOp o doCommit log _ hop he =>
    obtain ⟨hdo, rfl⟩ := endOp_ok he
    have hcard : t.ops.card = (t.ops.erase o).card + 1 := by
      rw [← Multiset.card_cons, Multiset.cons_erase hop]
    have hout := h.outstanding
    rw [hcard] at hout
    have hrunning : t.phase = .running := by
      by_contra hp
      rw [(h.phase hp).1] at hop
      cases hop
    refine ⟨h.size, ?_, ?_, ?_, h.fits, ?_, ?_⟩
    · simp only [hout]
      omega
    · exact fun x hx => h.share x (Multiset.mem_of_mem_erase hx)
    · exact fun x hx => h.logged x (Multiset.mem_of_mem_erase hx)
    · cases hd : doCommit with
      | true =>
        intro _
        rw [hd] at hdo
        have h0 := of_decide_eq_true hdo.symm
        rw [hout] at h0
        have hcard0 : (t.ops.erase o).card = 0 := by omega
        exact ⟨Multiset.card_eq_zero.mp hcard0, rfl⟩
      | false =>
        intro hp
        exact absurd hrunning hp
    · cases doCommit with
      | true => intro hp; cases hp
      | false => exact fun _ => rfl
  | commit hp hc =>
    cases hc
    have hph := h.phase (by rw [hp]; exact fun hc => by cases hc)
    refine ⟨h.size, h.outstanding, h.share, ?_, Nat.zero_le _, fun _ => hph, fun hr => by cases hr⟩
    intro o ho
    rw [hph.1] at ho
    cases ho
  | endCommit hp hc =>
    cases hc
    exact ⟨h.size, h.outstanding, h.share, h.logged, h.fits, fun hr => absurd rfl hr, fun _ => rfl⟩

theorem Run.inv (h : Run C t) : Inv t := by
  induction h with
  | refl => exact .boot
  | tail _ hs ih =>
    obtain ⟨e, hs, _⟩ := hs
    exact ih.step hs

/-- Whatever the operations do, a commit has no more blocks than the log has after its header. -/
theorem Inv.commitBlocks (h : Inv t) (hb : b ∈ t.commitBlocks) :
    mkfs.logstart ≤ b ∧ b < mkfs.logstart + mkfs.nlog := by
  have hfits := h.fits
  simp only [Trans.commitBlocks] at hb
  simp only [mkfs, LOGSIZE, MAXOPBLOCKS] at *
  split at hb
  · cases hb
  · rcases List.mem_append.mp hb with hb | hb
    · obtain ⟨tail, htail, rfl⟩ := List.mem_map.mp hb
      have hlt := List.mem_range.mp htail
      omega
    · simp only [List.mem_cons, List.not_mem_nil, or_false] at hb
      omega

/-- What the operations in progress may still log leaves a block of the log unused. -/
def Spare (t : Trans) : Prop := t.ops ≠ 0 → t.log.block.length + t.share < t.log.size - 1

theorem Inv.spare_step (h : Inv t) (hspare : Spare t) (hs : Step e t t') (hroomy : e = .beginOp → Roomy t) :
    Spare t' := by
  cases hs with
  | beginOp hb =>
    obtain ⟨-, rfl⟩ := beginOp_ok hb
    intro _
    have hr := hroomy rfl
    simp only [Roomy, Trans.share, Multiset.map_cons, Multiset.sum_cons, Finset.card_empty] at hr ⊢
    omega
  | @logWrite o b log _ hop hshare hw =>
    obtain ⟨-, rfl⟩ := logWrite_ok hw
    intro _
    have hne : t.ops ≠ 0 := fun h0 => by
      rw [h0] at hop
      cases hop
    have hlt := hspare hne
    rw [Trans.share_cons hop] at hlt
    have hmem : insert b o ∈ insert b o ::ₘ t.ops.erase o := Multiset.mem_cons_self _ _
    rw [Trans.share_cons hmem, Multiset.erase_cons_head]
    dsimp only
    by_cases hb : b ∈ o
    · rw [if_pos (h.logged o hop b hb), Finset.insert_eq_of_mem hb]
      exact hlt
    · rw [Finset.card_insert_of_notMem hb] at hshare ⊢
      split
      · omega
      · rw [List.length_append]
        simp only [List.length_singleton]
        omega
  | @endOp o doCommit log _ hop he =>
    obtain ⟨-, rfl⟩ := endOp_ok he
    intro _
    have hne : t.ops ≠ 0 := fun h0 => by
      rw [h0] at hop
      cases hop
    have hlt := hspare hne
    rw [Trans.share_cons hop] at hlt
    simp only [Trans.share]
    omega
  | commit hp hc =>
    intro hne
    exact absurd (h.phase (by rw [hp]; exact fun hc => by cases hc)).1 hne
  | endCommit hp hc =>
    intro hne
    exact absurd (h.phase (by rw [hp]; exact fun hc => by cases hc)).1 hne

theorem Inv.safe (h : Inv t) (hspare : Spare t) : Safe t := by
  refine ⟨fun o b hop _ herr => ?_, fun _ b hb => h.commitBlocks hb⟩
  have hne : t.ops ≠ 0 := fun h0 => by
    rw [h0] at hop
    cases hop
  have hlt := hspare hne
  have hsize := h.size
  have hw : Wp (logWrite b) (fun e => e ≠ .tooBigATransaction) (fun _ _ => True) t.log := by
    rw [logWrite, wp_bind, wp_get]
    refine .ite (fun hfull => by omega) fun _ => .ite (fun _ => ?_) fun _ => .ite (fun _ => trivial) fun _ => trivial
    exact fun he => by cases he
  exact hw.of_eq_error herr rfl

/-- An operation logs a block that no other has logged. -/
theorem Inv.write_fresh (h : Inv t) (hop : o ∈ t.ops) (hshare : o.card < MAXOPBLOCKS)
    (hroom : t.log.block.length < LOGSIZE - 1) (hb : b ∉ t.log.block) :
    Step .logWrite t ⟨{ t.log with block := t.log.block ++ [b] }, insert b o ::ₘ t.ops.erase o, t.phase⟩ ∧
      b ∉ o := by
  have hbo : b ∉ o := fun hbo => hb (h.logged o hop b hbo)
  refine ⟨.logWrite hop (by rw [Finset.card_insert_of_notMem hbo]; exact hshare) ?_, hbo⟩
  have hsize := h.size
  have hcard : 0 < t.ops.card := Multiset.card_pos_iff_exists_mem.mpr ⟨o, hop⟩
  have hout : 1 ≤ t.log.outstanding := by
    rw [h.outstanding]
    exact_mod_cast hcard
  have hw : Wp (logWrite b) NoError (fun _ log => log = { t.log with block := t.log.block ++ [b] }) t.log := by
    rw [logWrite, wp_bind, wp_get]
    refine .ite (fun hfull => by omega) fun _ => .ite (fun hlt => by omega) fun _ => ?_
    exact .ite (fun _ => rfl) fun hold => absurd hb hold
  obtain ⟨_, log, hok, rfl⟩ := hw.exists_ok
  exact hok

/-- Operations that may fill the log can do so, and then one of them is too big. -/
theorem Inv.overrun (h : Inv t) (hne : t.ops ≠ 0) (hfull : t.log.size - 1 ≤ t.log.block.length + t.share) :
    ∃ t', Later t t' ∧ ¬ Safe t' := by
  obtain ⟨k, hk⟩ : ∃ k, k = LOGSIZE - 1 - t.log.block.length := ⟨_, rfl⟩
  induction k generalizing t with
  | zero =>
    obtain ⟨o, hop⟩ := Multiset.exists_mem_of_ne_zero hne
    have hshare := h.share o hop
    obtain ⟨b, hb⟩ : ∃ b, (insert b o).card ≤ MAXOPBLOCKS := by
      rcases Nat.lt_or_ge o.card MAXOPBLOCKS with hlt | hge
      · exact ⟨0, (Finset.card_insert_le 0 o).trans hlt⟩
      · obtain ⟨b, hb⟩ : o.Nonempty := Finset.card_pos.mp (lt_of_lt_of_le (by decide) hge)
        exact ⟨b, by rwa [Finset.insert_eq_of_mem hb]⟩
    refine ⟨t, .refl, fun hsafe => hsafe.1 o b hop hb ?_⟩
    have hsize := h.size
    have hfits := h.fits
    have hw : Wp (logWrite b) (fun e => e = .tooBigATransaction) (fun _ _ => False) t.log := by
      rw [logWrite, wp_bind, wp_get]
      refine .ite (fun _ => rfl) fun hroom => absurd (.inr ?_) hroom
      omega
    cases hr : logWrite b t.log with
    | ok r => exact (hw.of_eq_ok hr).elim
    | error e => rw [hw.of_eq_error hr]
  | succ k ih =>
    have hsize := h.size
    obtain ⟨o, hop, hpos⟩ : ∃ o, o ∈ t.ops ∧ o.card < MAXOPBLOCKS := by
      by_contra hnone
      simp only [not_exists, not_and, not_lt] at hnone
      have hzero : t.share = 0 := by
        rw [Trans.share, Multiset.sum_eq_zero_iff (α := Nat)]
        intro x hx
        obtain ⟨o, ho, rfl⟩ := Multiset.mem_map.mp hx
        exact Nat.sub_eq_zero_of_le (hnone o ho)
      omega
    obtain ⟨b, hb⟩ := Infinite.exists_notMem_finset t.log.block.toFinset
    rw [List.mem_toFinset] at hb
    obtain ⟨hs, hbo⟩ := h.write_fresh hop hpos (by omega) hb
    have hmem : insert b o ∈ insert b o ::ₘ t.ops.erase o := Multiset.mem_cons_self _ _
    obtain ⟨t', hlater, hbad⟩ := ih (h.step hs) (Multiset.cons_ne_zero) (by
      rw [Trans.share_cons hmem, Multiset.erase_cons_head, Finset.card_insert_of_notMem hbo]
      rw [Trans.share_cons hop] at hfull
      simp only [List.length_append, List.length_singleton]
      omega) (by
      simp only [List.length_append, List.length_singleton]
      omega)
    exact ⟨t', .head ⟨_, hs, fun he => by cases he⟩ hlater, hbad⟩

/-- The log has room as long as every operation that is admitted leaves a block unused; one that does
not can run the log full. -/
theorem log_space (t : Trans) :
    (Run Roomy t → Safe t) ∧
      ∀ log, Run (fun _ => True) t → beginOp t.log = .ok (true, log) → ¬ Roomy t →
        ∃ t', Later { t with log, ops := ∅ ::ₘ t.ops } t' ∧ ¬ Safe t' := by
  constructor
  · intro h
    have hspare : Spare t := by
      induction h with
      | refl => exact fun hne => absurd rfl hne
      | tail hrun hs ih =>
        obtain ⟨e, hs, hroomy⟩ := hs
        exact (Run.inv hrun).spare_step ih hs hroomy
    exact (Run.inv h).safe hspare
  · intro log h hb hroomy
    have hinv := (Run.inv h).step (.beginOp hb)
    obtain ⟨-, rfl⟩ := beginOp_ok hb
    apply hinv.overrun Multiset.cons_ne_zero
    simp only [Roomy, Trans.share, Multiset.map_cons, Multiset.sum_cons, Finset.card_empty] at hroomy ⊢
    omega

/-- An operation that has logged nothing logs the next `k` blocks. -/
theorem Run.writes (h : Run (fun _ => True) ⟨⟨LOGSIZE, 3, false, List.range a⟩, ∅ ::ₘ ops, .running⟩)
    (hk : k ≤ MAXOPBLOCKS) (ha : a + k ≤ LOGSIZE - 1) :
    Run (fun _ => True) ⟨⟨LOGSIZE, 3, false, List.range (a + k)⟩, Finset.Ico a (a + k) ::ₘ ops, .running⟩ := by
  induction k with
  | zero => simpa using h
  | succ k ih =>
    have hrun := ih (by omega) (by omega)
    have hcard : (Finset.Ico a (a + k)).card < MAXOPBLOCKS := by
      rw [Nat.card_Ico]
      omega
    have hlen : (List.range (a + k)).length < LOGSIZE - 1 := by
      rw [List.length_range]
      omega
    obtain ⟨hs, -⟩ := hrun.inv.write_fresh (Multiset.mem_cons_self _ _) hcard hlen (b := a + k) (by simp)
    have hIco : insert (a + k) (Finset.Ico a (a + k)) = Finset.Ico a (a + (k + 1)) := by
      ext x
      simp only [Finset.mem_insert, Finset.mem_Ico]
      omega
    rw [Multiset.erase_cons_head, ← List.range_succ, hIco] at hs
    exact hrun.tail ⟨_, hs, fun _ => trivial⟩

/-- Three operations, of which the third may log one more block. -/
def fullLog : Trans :=
  ⟨⟨LOGSIZE, 3, false, List.range 29⟩,
    {Finset.Ico 20 29, Finset.Ico 10 20, Finset.Ico 0 10}, .running⟩

theorem log_exhausted : ¬ ∀ t, Run (fun _ => True) t → Safe t := by
  intro hall
  have hthree : Run (fun _ => True) ⟨⟨LOGSIZE, 3, false, []⟩, ∅ ::ₘ ∅ ::ₘ ∅ ::ₘ 0, .running⟩ := by
    apply ReflTransGen.refl.tail ⟨.beginOp, .beginOp rfl, fun _ => trivial⟩ |>.tail
      ⟨.beginOp, .beginOp rfl, fun _ => trivial⟩ |>.tail ⟨.beginOp, .beginOp rfl, fun _ => trivial⟩
  have hone := Run.writes (a := 0) (k := 10) hthree (by decide) (by decide)
  rw [Multiset.cons_swap] at hone
  have htwo := Run.writes (a := 10) (k := 10) hone (by decide) (by decide)
  rw [Multiset.cons_swap (Finset.Ico 0 (0 + 10)), Multiset.cons_swap] at htwo
  have hrun : Run (fun _ => True) fullLog := Run.writes (a := 20) (k := 9) htwo (by decide) (by decide)
  exact (hall _ hrun).1 (Finset.Ico 20 29) 29 (by decide) (by decide) rfl

end PbsCow.Log
