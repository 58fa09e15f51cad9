import PbsCow.Lib.BlockBytes
import PbsCow.Lib.CrashHoare
import PbsCow.Log

namespace PbsCow.LogDisk
open Bcache (LOGSIZE)
set_option autoImplicit true

def BSIZE : Nat := 1024

/-- The part of the superblock that is about the log: a header block, and the blocks of the copies. -/
structure Superblock where
  logstart : Nat
  nlog : Nat
  nonempty : 0 < nlog

/-- The disk, the buffers with the references that pin them, and the log in memory. `power` is how many
writes reach the disk before the power fails, where it does, and `spill` is what the cache would rather
not hold, for each `bread` in turn. -/
structure State where
  disk : Nat → Block
  buf : Nat → Option Block
  pins : Nat → Nat
  log : Log.State
  power : Option Nat
  spill : List (Nat → Bool)

inductive Stop where
  | powerFailure
  | log (e : Log.Panic)
  | tooBigLogheader
  | headerOverrun

abbrev Sys := ExceptT Stop (StateM State)

def State.boot (disk : Nat → Block) (power : Option Nat) (spill : List (Nat → Bool)) : State :=
  ⟨disk, fun _ => none, fun _ => 0, ⟨0, 0, false, []⟩, power, spill⟩

/-- The contents of a block, as the kernel sees them. -/
def State.view (s : State) (b : Nat) : Block := (s.buf b).getD (s.disk b)

/-- The cache gives up buffers that nothing pins. -/
def State.recycle (s : State) : State :=
  match s.spill with
  | [] => s
  | gone :: spill => { s with buf := fun b => if gone b && s.pins b == 0 then none else s.buf b, spill }

def State.setBuf (s : State) (b : Nat) (data : Block) : State :=
  { s with buf := Function.update s.buf b (some data) }

def onLog (x : Log.Sys α) : Sys α := do
  let s ← get
  match x s.log with
  | .ok (a, log) =>
    set { s with log := log }
    return a
  | .error e => throw (.log e)

def bread (b : Nat) : Sys Block := do
  modify State.recycle
  let s ← get
  set (s.setBuf b (s.view b))
  return s.view b

/-- The buffer of the block is given the data, and written. -/
def bwrite (b : Nat) (data : Block) : Sys Unit := do
  let s ← get
  if s.power = some 0 then throw .powerFailure
  else set { s.setBuf b data with disk := Function.update s.disk b data, power := s.power.map (· - 1) }

def bpin (b : Nat) : Sys Unit := modify fun s => { s with pins := Function.update s.pins b (s.pins b + 1) }

def bunpin (b : Nat) : Sys Unit := modify fun s => { s with pins := Function.update s.pins b (s.pins b - 1) }

/-- `lh->n`, and the entries of `lh->block` that it counts. -/
def headerCount (buf : Block) : Nat := (BitVec.ofNat 32 (buf.uint 0)).toInt.toNat

def header (buf : Block) : List Nat := (List.range (headerCount buf)).map fun i => buf.uint (i + 1)

def setEntries (buf : Block) : Nat → List Nat → Block
  | _, [] => buf
  | i, b :: blocks => setEntries (buf.setUint i b) (i + 1) blocks

def setHeader (buf : Block) (blocks : List Nat) : Block := setEntries (buf.setUint 0 blocks.length) 1 blocks

variable (sb : Superblock)

/-- The loop of `install_trans`, from `tail` on. -/
def installLoop (recovering : Bool) : Nat → List Nat → Sys Unit
  | _, [] => return ()
  | tail, b :: blocks => do
    let lbuf ← bread (sb.logstart + tail + 1)
    let _ ← bread b
    bwrite b lbuf
    if recovering then installLoop recovering (tail + 1) blocks
    else
      bunpin b
      installLoop recovering (tail + 1) blocks

def installTrans (recovering : Bool) : Sys Unit := do
  let s ← get
  installLoop sb recovering 0 s.log.block

/-- `log.lh.n` and its entries of `log.lh.block`. -/
def setBlock (blocks : List Nat) : Sys Unit := modify fun s => { s with log := { s.log with block := blocks } }

def readHead : Sys Unit := do
  let buf ← bread sb.logstart
  if LOGSIZE < headerCount buf then throw .headerOverrun
  else setBlock (header buf)

def writeHead : Sys Unit := do
  let buf ← bread sb.logstart
  let s ← get
  bwrite sb.logstart (setHeader buf s.log.block)

def recoverFromLog : Sys Unit := do
  readHead sb
  installTrans sb true
  setBlock []
  writeHead sb

def initlog : Sys Unit := do
  if BSIZE ≤ 4 * (1 + LOGSIZE) then throw .tooBigLogheader
  else
    modify fun s => { s with log := ⟨sb.nlog, 0, false, s.log.block⟩ }
    recoverFromLog sb

/-- The loop of `write_log`, from `tail` on. -/
def writeLogLoop : Nat → List Nat → Sys Unit
  | _, [] => return ()
  | tail, b :: blocks => do
    let _ ← bread (sb.logstart + tail + 1)
    let data ← bread b
    bwrite (sb.logstart + tail + 1) data
    writeLogLoop (tail + 1) blocks

def writeLog : Sys Unit := do
  let s ← get
  writeLogLoop sb 0 s.log.block

def commit : Sys Unit := do
  let s ← get
  if 0 < s.log.block.length then
    writeLog sb
    writeHead sb
    installTrans sb false
    setBlock []
    writeHead sb

def beginOp : Sys Bool := onLog Log.beginOp

def endOp : Sys Unit := do
  let doCommit ← onLog Log.endOp
  if doCommit then
    commit sb
    onLog Log.endCommit

def logWrite (b : Nat) : Sys Unit := do
  let s ← get
  onLog (Log.logWrite b)
  if b ∉ s.log.block then bpin b

/-- A change to the data of a block, as the callers of `log_write` make it. -/
def change (b : Nat) (f : Block → Block) : Sys Unit := do
  let data ← bread b
  modify fun s => s.setBuf b (f data)
  logWrite b

variable {sb : Superblock} {s t : State}

def Superblock.Home (sb : Superblock) (b : Nat) : Prop := b < sb.logstart ∨ sb.logstart + sb.nlog ≤ b

/-- A change that a transaction makes to a block. -/
structure Change where
  block : Nat
  change : Block → Block

abbrev Disk := Nat → Block

def Change.apply (d : Disk) (c : Change) : Disk := Function.update d c.block (c.change (d c.block))

/-- What a transaction makes of a disk. -/
def applyTx (d : Disk) (tx : List Change) : Disk := tx.foldl Change.apply d

def applyAll (d : Disk) (txs : List (List Change)) : Disk := txs.foldl applyTx d

/-- Recovery from the disk `d` gives the contents `h`, the entries of the header on the disk being `blocks`. -/
structure Holds (sb : Superblock) (d h : Disk) (blocks : List Nat) : Prop where
  header : header (d sb.logstart) = blocks
  home : ∀ b ∈ blocks, sb.Home b
  size : blocks.length ≤ LOGSIZE ∧ blocks.length < sb.nlog
  copies : ∀ i b, blocks[i]? = some b → h b = d (sb.logstart + i + 1)
  same : ∀ b, sb.Home b → b ∉ blocks → d b = h b

def Recovers (sb : Superblock) (d h : Disk) : Prop := ∃ blocks, Holds sb d h blocks

theorem header_length (buf : Block) : (header buf).length = headerCount buf := by
  rw [header, List.length_map, List.length_range]

theorem setEntries_uint (buf : Block) (hb : ∀ b ∈ blocks, b < 2 ^ 32) :
    (setEntries buf i blocks).uint k = if i ≤ k ∧ k < i + blocks.length then blocks.getD (k - i) 0 else buf.uint k := by
  induction blocks generalizing buf i with
  | nil =>
    rw [if_neg]
    · rfl
    · rw [List.length_nil]
      omega
  | cons b blocks ih =>
    rw [setEntries, ih _ fun b' hb' => hb b' (List.mem_cons_of_mem b hb')]
    rw [Block.uint_setUint _ _ _ (hb b List.mem_cons_self), List.length_cons]
    by_cases hk : k = i
    · subst hk
      rw [if_neg (by omega), if_pos rfl, if_pos (by omega), Nat.sub_self]
      rfl
    · rw [if_neg hk]
      by_cases hin : i + 1 ≤ k ∧ k < i + 1 + blocks.length
      · have hsucc : k - i = k - (i + 1) + 1 := by omega
        rw [if_pos hin, if_pos (by omega), hsucc]
        rfl
      · rw [if_neg hin, if_neg (by omega)]

theorem headerCount_setHeader (buf : Block) (hb : ∀ b ∈ blocks, b < 2 ^ 32) (hn : blocks.length < 2 ^ 31) :
    headerCount (setHeader buf blocks) = blocks.length := by
  rw [headerCount, setHeader, setEntries_uint _ hb, if_neg (by omega), Block.uint_setUint _ _ _ (by omega), if_pos rfl,
    BitVec.toInt_eq_toNat_of_lt]
  · rw [BitVec.toNat_ofNat, Nat.mod_eq_of_lt (by omega)]
    rfl
  · rw [BitVec.toNat_ofNat, Nat.mod_eq_of_lt (by omega)]
    omega

/-- What `write_head` has written is what `read_head` reads. -/
theorem header_setHeader (buf : Block) (hb : ∀ b ∈ blocks, b < 2 ^ 32) (hn : blocks.length < 2 ^ 31) :
    header (setHeader buf blocks) = blocks := by
  apply List.ext_getElem
  · rw [header_length, headerCount_setHeader buf hb hn]
  · intro i h₁ h₂
    simp only [header, List.getElem_map, List.getElem_range]
    rw [setHeader, setEntries_uint _ hb, if_pos (by omega), Nat.add_sub_cancel, List.getD_eq_getElem?_getD,
      List.getElem?_eq_getElem h₂]
    rfl

/-- A `bread` leaves what the kernel sees, of a block whose buffer is pinned or has not been changed. -/
structure Read (s t : State) : Prop where
  disk : t.disk = s.disk
  pins : t.pins = s.pins
  log : t.log = s.log
  power : t.power = s.power
  view : ∀ b, s.view b = s.disk b ∨ s.pins b ≠ 0 → t.view b = s.view b

theorem Read.trans (h : Read s t) (h' : Read t u) : Read s u where
  disk := h'.disk.trans h.disk
  pins := h'.pins.trans h.pins
  log := h'.log.trans h.log
  power := h'.power.trans h.power
  view b hb := by
    have hv := h.view b hb
    apply (h'.view b _).trans hv
    rwa [hv, h.disk, h.pins]

theorem Read.clean (h : Read s t) (hb : s.view b = s.disk b) : t.view b = t.disk b := by
  rw [h.view b (.inl hb), h.disk, hb]

theorem read_recycle (s : State) : Read s s.recycle := by
  rw [State.recycle]
  split
  · exact ⟨rfl, rfl, rfl, rfl, fun _ _ => rfl⟩
  · next gone spill _ =>
    refine ⟨rfl, rfl, rfl, rfl, fun b hb => ?_⟩
    rw [State.view]
    dsimp only
    split
    · next hgone =>
      rw [Bool.and_eq_true, beq_iff_eq] at hgone
      rcases hb with hb | hb
      · exact hb.symm
      · exact absurd hgone.2 hb
    · rfl

@[simp] theorem view_setBuf (s : State) (b : Nat) (data : Block) :
    (s.setBuf b data).view x = if x = b then data else s.view x := by
  by_cases hx : x = b
  · subst hx
    simp only [State.view, State.setBuf, Function.update_self, Option.getD_some, if_true]
  · simp only [State.view, State.setBuf, Function.update_of_ne hx, if_neg hx]

theorem cwp_bread (b : Nat) (h : ∀ data t, Read s t → t.view b = data → Q data t) : Cwp (bread b) C Q s := by
  rw [bread, cwp_bind, cwp_modify, cwp_bind, cwp_get, cwp_bind]
  have hr := read_recycle s
  apply h
  · refine hr.trans ⟨rfl, rfl, rfl, rfl, fun x _ => ?_⟩
    rw [view_setBuf]
    split
    · next hx => rw [hx]
    · rfl
  · rw [view_setBuf, if_pos rfl]

/-- The state after a write. -/
def State.written (s : State) (b : Nat) (data : Block) : State :=
  { s.setBuf b data with disk := Function.update s.disk b data, power := s.power.map (· - 1) }

theorem view_written (s : State) (b : Nat) (data : Block) :
    (s.written b data).view x = if x = b then data else s.view x := by
  rw [← view_setBuf]
  rw [State.view, State.view]
  by_cases hx : x = b
  · subst hx
    simp only [State.written, State.setBuf, Function.update_self, Option.getD_some]
  · simp only [State.written, State.setBuf, Function.update_of_ne hx]

theorem disk_written (s : State) (b : Nat) (data : Block) :
    (s.written b data).disk x = if x = b then data else s.disk x := by
  exact Function.update_apply ..

/-- A crash in the program: the disk meets `P`. -/
def Crash (P : Disk → Prop) (s : State) (e : Stop) (t : State) : Prop :=
  e = .powerFailure ∧ s.power ≠ none ∧ P t.disk

theorem cwp_bwrite (b : Nat) (data : Block) (hP : P s.disk) (h : Q ⟨⟩ (s.written b data)) :
    Cwp (bwrite b data) (Crash P s) Q s := by
  rw [bwrite, cwp_bind, cwp_get]
  apply Cwp.ite
  · intro hpower
    rw [cwp_throw]
    refine ⟨rfl, ?_, hP⟩
    rw [hpower]
    exact Option.some_ne_none 0
  · intro _
    exact h

/-- On the disk, only blocks in `p` have changed, and the kernel still sees what is on the disk where it did. -/
structure Outside (p : Nat → Prop) (s t : State) : Prop where
  log : t.log = s.log
  power : s.power = none → t.power = none
  disk : ∀ x, ¬p x → t.disk x = s.disk x
  clean : ∀ x, s.view x = s.disk x → t.view x = t.disk x

theorem Read.outside (h : Read s t) : Outside p s t where
  log := h.log
  power hs := h.power.trans hs
  disk _ _ := by rw [h.disk]
  clean _ := h.clean

theorem Outside.trans (h : Outside p s t) (h' : Outside p t u) : Outside p s u where
  log := h'.log.trans h.log
  power hs := h'.power (h.power hs)
  disk x hx := (h'.disk x hx).trans (h.disk x hx)
  clean x hx := h'.clean x (h.clean x hx)

theorem Outside.mono (h : Outside p s t) (hpq : ∀ x, p x → q x) : Outside q s t where
  log := h.log
  power := h.power
  disk x hx := h.disk x fun hp => hx (hpq x hp)
  clean := h.clean

theorem outside_written (s : State) (b : Nat) (data : Block) : Outside (· = b) s (s.written b data) where
  log := rfl
  power hs := by rw [State.written, hs, Option.map_none]
  disk x hx := by rw [disk_written, if_neg hx]
  clean x hx := by
    rw [view_written, disk_written]
    split
    · rfl
    · exact hx

theorem Crash.before (h : Crash P t e u) (ho : Outside p s t) : Crash P s e u :=
  ⟨h.1, fun hs => h.2.1 (ho.power hs), h.2.2⟩

/-- The block is the one for the copy of the `i`th entry of the log, `i` being at least `tail`. -/
def Superblock.Copy (sb : Superblock) (tail n x : Nat) : Prop := sb.logstart + tail < x ∧ x ≤ sb.logstart + tail + n

/-- `write_log` copies what the kernel sees of the blocks. -/
theorem cwp_writeLogLoop {P : Disk → Prop} (hP : ∀ d, (∀ x, ¬sb.Copy tail blocks.length x → d x = s.disk x) → P d)
    (hseen : ∀ b ∈ blocks, s.view b = s.disk b ∨ s.pins b ≠ 0)
    (hhome : ∀ b ∈ blocks, ¬sb.Copy tail blocks.length b) :
    Cwp (writeLogLoop sb tail blocks) (Crash P s) (fun _ t => Outside (sb.Copy tail blocks.length) s t ∧
      ∀ i b, blocks[i]? = some b → t.disk (sb.logstart + tail + i + 1) = s.view b) s := by
  induction blocks generalizing s tail with
  | nil =>
    rw [writeLogLoop, cwp_pure]
    exact ⟨⟨rfl, id, fun _ _ => rfl, fun _ => id⟩, fun i b hi => by cases hi⟩
  | cons b blocks ih =>
    have hwide (x : Nat) (hx : sb.Copy (tail + 1) blocks.length x) : sb.Copy tail (b :: blocks).length x := by
      rw [Superblock.Copy, List.length_cons] at *
      omega
    have hthis : sb.Copy tail (b :: blocks).length (sb.logstart + tail + 1) := by
      rw [Superblock.Copy, List.length_cons]
      omega
    rw [writeLogLoop, cwp_bind]
    apply cwp_bread
    intro _ t ht _
    rw [cwp_bind]
    apply cwp_bread
    intro data u hu hdata
    have hread := ht.trans hu
    rw [hread.view b (hseen b List.mem_cons_self)] at hdata
    subst hdata
    rw [cwp_bind]
    have hbefore : P u.disk := by
      apply hP
      intro x _
      rw [hread.disk]
    refine (cwp_bwrite _ _ hbefore ?_).mono (fun e v hv => hv.before (p := fun _ => False) hread.outside) fun _ _ h => h
    obtain ⟨v, hv⟩ : ∃ v, v = u.written (sb.logstart + tail + 1) (s.view b) := ⟨_, rfl⟩
    rw [← hv]
    have hout : Outside (· = sb.logstart + tail + 1) s v := hread.outside.trans (hv ▸ outside_written u _ _)
    have hview (x : Nat) (hx : x ≠ sb.logstart + tail + 1) (hs : s.view x = s.disk x ∨ s.pins x ≠ 0) :
        v.view x = s.view x := by
      rw [hv, view_written, if_neg hx]
      exact hread.view x hs
    have hpins : v.pins = s.pins := by
      rw [hv]
      exact hread.pins
    have hsee (x : Nat) (hx : ¬sb.Copy tail (b :: blocks).length x) (hs : s.view x = s.disk x ∨ s.pins x ≠ 0) :
        v.view x = v.disk x ∨ v.pins x ≠ 0 := by
      rw [hview x (fun he => hx (he ▸ hthis)) hs, hout.disk x fun he => hx (he ▸ hthis), hpins]
      exact hs
    refine (ih (s := v) (fun d hd => hP d fun x hx => ?_) (fun b' hb' => ?_) fun b' hb' hc => ?_).mono
      (fun e w hw => hw.before hout) fun _ w hw => ?_
    · rw [hd x fun hc => hx (hwide x hc), hout.disk x fun he => hx (he ▸ hthis)]
    · exact hsee b' (hhome b' (List.mem_cons_of_mem b hb')) (hseen b' (List.mem_cons_of_mem b hb'))
    · exact hhome b' (List.mem_cons_of_mem b hb') (hwide b' hc)
    · obtain ⟨hw, hcopy⟩ := hw
      refine ⟨(hout.mono fun x hx => hx ▸ hthis).trans (hw.mono hwide), fun i b' hi => ?_⟩
      cases i with
      | zero =>
        obtain rfl : b = b' := Option.some.inj hi
        rw [Nat.add_zero, hw.disk, hv, disk_written, if_pos rfl]
        rw [Superblock.Copy]
        omega
      | succ i =>
        have hmem : b' ∈ blocks := List.mem_of_getElem? hi
        have hne : b' ≠ sb.logstart + tail + 1 := by
          intro he
          exact hhome b' (List.mem_cons_of_mem b hmem) (he ▸ hthis)
        rw [← hview b' hne (hseen b' (List.mem_cons_of_mem b hmem)), ← hcopy i b' hi]
        congr 1
        omega

/-- `install_trans` copies the blocks of the log to their places. -/
theorem cwp_installLoop {P : Disk → Prop} {h : Disk} (hP : ∀ d, (∀ x, x ∉ blocks → d x = s.disk x) → P d)
    (hhome : ∀ b ∈ blocks, ∀ i, i < blocks.length → b ≠ sb.logstart + tail + i + 1)
    (hcopies : ∀ i b, blocks[i]? = some b → h b = s.disk (sb.logstart + tail + i + 1))
    (hclean : ∀ x, x ∉ blocks → s.view x = s.disk x) :
    Cwp (installLoop sb recovering tail blocks) (Crash P s) (fun _ t => Outside (· ∈ blocks) s t ∧
      (∀ x, t.view x = t.disk x) ∧ ∀ b ∈ blocks, t.disk b = h b) s := by
  induction blocks generalizing s tail with
  | nil =>
    rw [installLoop, cwp_pure]
    exact ⟨⟨rfl, id, fun _ _ => rfl, fun _ => id⟩, fun x => hclean x List.not_mem_nil, fun b hb => by cases hb⟩
  | cons b blocks ih =>
    have hcopy : sb.logstart + tail + 1 ∉ b :: blocks := by
      intro hm
      exact hhome _ hm 0 (Nat.zero_lt_succ _) rfl
    rw [installLoop, cwp_bind]
    apply cwp_bread
    intro lbuf t ht hlbuf
    rw [ht.view _ (.inl (hclean _ hcopy)), hclean _ hcopy] at hlbuf
    have hb := hcopies 0 b rfl
    rw [Nat.add_zero, hlbuf] at hb
    subst hb
    rw [cwp_bind]
    apply cwp_bread
    intro _ u hu _
    have hread := ht.trans hu
    rw [cwp_bind]
    have hbefore : P u.disk := by
      apply hP
      intro x _
      rw [hread.disk]
    refine (cwp_bwrite _ _ hbefore ?_).mono (fun e v hv => hv.before (p := fun _ => False) hread.outside) fun _ _ h => h
    have hout : Outside (· = b) s (u.written b (h b)) := hread.outside.trans (outside_written u _ _)
    have hcleanv (x : Nat) (hx : x ∉ blocks) : (u.written b (h b)).view x = (u.written b (h b)).disk x := by
      by_cases hxb : x = b
      · rw [view_written, disk_written, if_pos hxb, if_pos hxb]
      · exact hout.clean x (hclean x fun hm => (List.mem_cons.1 hm).elim hxb hx)
    have hself : (u.written b (h b)).disk b = h b := by rw [disk_written, if_pos rfl]
    -- the rest of the loop, the buffer being pinned or not
    have hrest (v : State) (hdisk : v.disk = (u.written b (h b)).disk) (hview : v.view = (u.written b (h b)).view)
        (hv : Outside (· = b) s v) : Cwp (installLoop sb recovering (tail + 1) blocks) (Crash P s)
          (fun _ t => Outside (· ∈ b :: blocks) s t ∧ (∀ x, t.view x = t.disk x) ∧ ∀ b' ∈ b :: blocks, t.disk b' = h b') v := by
      refine (ih (s := v) (fun d hd => hP d fun x hx => ?_) (fun b' hb' i hi he => ?_) (fun i b' hi => ?_)
        fun x hx => ?_).mono (fun e w hw => hw.before hv) fun _ w hw => ?_
      · rw [List.mem_cons, not_or] at hx
        rw [hd x hx.2, hv.disk x hx.1]
      · apply hhome b' (List.mem_cons_of_mem b hb') (i + 1) (Nat.succ_lt_succ hi)
        omega
      · have hlt : i < blocks.length := (List.getElem?_eq_some_iff.1 hi).1
        have hne : sb.logstart + (tail + 1) + i + 1 ≠ b := by
          intro he
          apply hhome b List.mem_cons_self (i + 1) (Nat.succ_lt_succ hlt)
          omega
        rw [hv.disk _ hne, hcopies (i + 1) b' hi]
        congr 1
        omega
      · rw [hview, hdisk]
        exact hcleanv x hx
      · obtain ⟨hw, hwclean, hwh⟩ := hw
        refine ⟨(hv.mono fun x hx => ?_).trans (hw.mono fun x => List.mem_cons_of_mem b), hwclean, fun b' hb' => ?_⟩
        · rw [hx]
          exact List.mem_cons_self
        · by_cases hm : b' ∈ blocks
          · exact hwh b' hm
          · obtain rfl : b' = b := (List.mem_cons.1 hb').resolve_right hm
            rw [hw.disk b' hm, hdisk, hself]
    apply Cwp.ite
    · intro _
      exact hrest _ rfl rfl hout
    · intro _
      rw [cwp_bind, bunpin, cwp_modify]
      exact hrest _ rfl rfl ⟨hout.log, hout.power, hout.disk, hout.clean⟩

end PbsCow.LogDisk
