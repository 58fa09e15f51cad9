import PbsCow.Lib.Allots
import PbsCow.Mkfs

namespace PbsCow.Mkfs
open Blocks (BSIZE NDIRECT NINDIRECT MAXFILE slotOf)
set_option autoImplicit true

/-- The block that an inode names in a slot. -/
def addr (d disk : Nat → Block) (i k : Nat) : Nat :=
  if k ≤ NDIRECT then dinAddr (d i) k
  else if dinAddr (d i) NDIRECT = 0 ∨ NDIRECT + NINDIRECT < k then 0
  else (disk (dinAddr (d i) NDIRECT)).uint (k - (NDIRECT + 1))

theorem dinAddr_setAddr (din : Block) (k l : Nat) (hb : b < 2 ^ 32) :
    dinAddr (setAddr din k b) l = if l = k then b else dinAddr din l := by
  rw [dinAddr, setAddr, Block.uint_setUint _ _ _ hb]
  exact if_congr (Nat.add_left_cancel_iff) rfl rfl

theorem slotOf_ne (bn : Nat) : slotOf bn ≠ NDIRECT := by
  rw [slotOf]
  split <;> omega

theorem slotOf_inj (h : slotOf m = slotOf n) : m = n := by
  rw [slotOf, slotOf] at h
  split at h <;> split at h <;> omega

theorem nmeta_eq : nmeta = 46 := rfl

/-- The blocks below `freeblock` are metadata or belong to one slot of one inode, and the others are zero. -/
structure Core (d : Nat → Block) (s : State) : Prop where
  sectors : s.sectors = FSSIZE
  lower : nmeta ≤ s.freeblock
  upper : s.freeblock ≤ FSSIZE
  allots : Allots (· < nmeta) FSSIZE (fun a : Nat × Nat => addr d s.disk a.1 a.2) (fun b => decide (b < s.freeblock))
  fresh : ∀ b, s.freeblock ≤ b → s.disk b = Block.zero

section

variable {d d' : Nat → Block} {disk' : Nat → Block} {s s' t : State} {i k : Nat}

theorem Core.lt (h : Core d s) (ha : addr d s.disk i k ≠ 0) : addr d s.disk i k < s.freeblock :=
  of_decide_eq_true (h.allots.marked (a := (i, k)) ha)

theorem Core.le (h : Core d s) (ha : addr d s.disk i k ≠ 0) : nmeta ≤ addr d s.disk i k :=
  Nat.le_of_not_lt (h.allots.loose (a := (i, k)) ha)

theorem Core.inj (h : Core d s) (ha : addr d s.disk i k ≠ 0) (he : addr d s.disk i k = addr d s.disk j l) :
    i = j ∧ k = l :=
  Prod.ext_iff.1 (h.allots.inj (a := (i, k)) (b := (j, l)) ha he)

/-- A slot takes the next block. -/
theorem Core.take (h : Core d s) (ha : addr d s.disk i k = 0) (hlt : s.freeblock < FSSIZE)
    (haddr : ∀ j l, addr d' s'.disk j l = if (j, l) = (i, k) then s.freeblock else addr d s.disk j l)
    (hdisk : ∀ b, s.freeblock ≤ b → s'.disk b = Block.zero) (hsectors : s'.sectors = FSSIZE)
    (hfree : s'.freeblock = s.freeblock + 1) : Core d' s' where
  sectors := hsectors
  lower := by
    rw [hfree]
    exact Nat.le_succ_of_le h.lower
  upper := by
    rw [hfree]
    exact hlt
  allots := by
    have hlower := h.lower
    have htake := h.allots.take (a := (i, k)) (b := s.freeblock) ha (decide_eq_false (Nat.lt_irrefl _)) hlt
      (by rw [nmeta_eq] at hlower; omega)
    have href : (fun a : Nat × Nat => addr d' s'.disk a.1 a.2) =
        Function.update (fun a : Nat × Nat => addr d s.disk a.1 a.2) (i, k) s.freeblock := by
      funext a
      rw [haddr, Function.update_apply]
    have hused : (fun b => decide (b < s'.freeblock)) = Function.update (fun b => decide (b < s.freeblock)) s.freeblock true := by
      funext b
      rw [hfree, Function.update_apply]
      by_cases hb : b = s.freeblock
      · rw [if_pos hb, hb]
        exact decide_eq_true (Nat.lt_succ_self _)
      · rw [if_neg hb]
        exact decide_eq_decide.2 (by omega)
    rw [href, hused]
    exact htake
  fresh b hb := by
    rw [hfree] at hb
    exact hdisk b (Nat.le_of_succ_le hb)

/-- Inode `i` has got blocks in some of its slots `K`, which are zero where they are for data. -/
structure Grown (i : Nat) (K : Nat → Prop) (d : Nat → Block) (s : State) (d' : Nat → Block) (s' : State) : Prop where
  core : Core d' s'
  addr : ∀ j k, Mkfs.addr d' s'.disk j k = Mkfs.addr d s.disk j k ∨ j = i ∧ K k ∧ Mkfs.addr d s.disk j k = 0
  data : ∀ j bn, Mkfs.addr d s.disk j (slotOf bn) ≠ 0 →
    s'.disk (Mkfs.addr d s.disk j (slotOf bn)) = s.disk (Mkfs.addr d s.disk j (slotOf bn))
  zero : ∀ j bn, Mkfs.addr d s.disk j (slotOf bn) = 0 → Mkfs.addr d' s'.disk j (slotOf bn) ≠ 0 →
    s'.disk (Mkfs.addr d' s'.disk j (slotOf bn)) = Block.zero
  other : ∀ j, j ≠ i → d' j = d j
  head : ∀ o, o < 12 → d' i o = d i o
  metadata : ∀ b, b < nmeta → s'.disk b = s.disk b
  freeinode : s'.freeinode = s.freeinode

theorem Grown.refl (i : Nat) (K : Nat → Prop) (h : Core d s) : Grown i K d s d s where
  core := h
  addr _ _ := .inl rfl
  data _ _ _ := rfl
  zero _ _ h0 hn := absurd h0 hn
  other _ _ := rfl
  head _ _ := rfl
  metadata _ _ := rfl
  freeinode := rfl

theorem Grown.kept {K : Nat → Prop} (h : Grown i K d s d' s') (ha : Mkfs.addr d s.disk j k ≠ 0) :
    Mkfs.addr d' s'.disk j k = Mkfs.addr d s.disk j k := by
  rcases h.addr j k with he | ⟨-, -, h0⟩
  · exact he
  · exact absurd h0 ha

theorem Grown.trans {K : Nat → Prop} {d'' : Nat → Block} (h : Grown i K d s d' s') (h' : Grown i K d' s' d'' t) :
    Grown i K d s d'' t where
  core := h'.core
  addr j k := by
    rcases h'.addr j k with he | ⟨hj, hk, h0⟩
    · rw [he]
      exact h.addr j k
    · refine .inr ⟨hj, hk, ?_⟩
      by_contra hn
      exact hn ((h.kept hn).symm.trans h0)
  data j bn hn := by
    have hkept := h.kept hn
    have hdata := h'.data j bn (by rwa [hkept])
    rw [hkept] at hdata
    rw [hdata, h.data j bn hn]
  zero j bn h0 hn := by
    by_cases hmid : Mkfs.addr d' s'.disk j (slotOf bn) = 0
    · exact h'.zero j bn hmid hn
    · rw [h'.kept hmid, h'.data j bn hmid]
      exact h.zero j bn h0 hmid
  other j hj := (h'.other j hj).trans (h.other j hj)
  head o ho := (h'.head o ho).trans (h.head o ho)
  metadata b hb := (h'.metadata b hb).trans (h.metadata b hb)
  freeinode := h'.freeinode.trans h.freeinode

/-- The slot that has taken the next block. -/
theorem Core.grown {K : Nat → Prop} (h : Core d s) (d' : Nat → Block) (s' : State) (ha : addr d s.disk i k = 0) (hK : K k) (hlt : s.freeblock < FSSIZE)
    (haddr : ∀ j l, addr d' s'.disk j l = if (j, l) = (i, k) then s.freeblock else addr d s.disk j l)
    (hdisk : ∀ b, (∀ j, addr d s.disk j NDIRECT ≠ 0 → b ≠ addr d s.disk j NDIRECT) → s'.disk b = s.disk b)
    (hsectors : s'.sectors = FSSIZE) (hfree : s'.freeblock = s.freeblock + 1) (hinode : s'.freeinode = s.freeinode)
    (hother : ∀ j, j ≠ i → d' j = d j) (hhead : ∀ o, o < 12 → d' i o = d i o)
    (hmeta : ∀ b, b < nmeta → s'.disk b = s.disk b) :
    Grown i K d s d' s' ∧ addr d' s'.disk i k = s.freeblock := by
  have hfresh (b : Nat) (hb : s.freeblock ≤ b) : s'.disk b = Block.zero := by
    rw [← h.fresh b hb]
    apply hdisk b
    intro j hj he
    have hlt := h.lt hj
    omega
  have hnew : addr d' s'.disk i k = s.freeblock := by rw [haddr, if_pos rfl]
  refine ⟨⟨h.take ha hlt haddr hfresh hsectors hfree, ?_, ?_, ?_, hother, hhead, hmeta, hinode⟩, hnew⟩
  · intro j l
    rw [haddr]
    by_cases he : (j, l) = (i, k)
    · obtain ⟨rfl, rfl⟩ := Prod.mk.inj he
      exact .inr ⟨rfl, hK, ha⟩
    · rw [if_neg he]
      exact .inl rfl
  · intro j bn hn
    apply hdisk
    intro j' _ he
    exact slotOf_ne bn (h.inj hn he).2
  · intro j bn h0 hn
    rw [haddr] at hn ⊢
    by_cases he : (j, slotOf bn) = (i, k)
    · rw [if_pos he]
      exact hfresh _ (Nat.le_refl _)
    · rw [if_neg he] at hn
      exact absurd h0 hn

theorem wp_rsect (hq : sec < s.sectors → Q (s.disk sec) s) : Wp (rsect sec) AnyError Q s := by
  rw [rsect, wp_bind, wp_get]
  apply Wp.ite
  · exact fun _ => trivial
  · intro hlt
    exact hq (Nat.lt_of_not_le hlt)

theorem wp_nextBlock {E : Exit → Prop} : Wp nextBlock E Q s ↔ Q s.freeblock { s with freeblock := s.freeblock + 1 } := Iff.rfl

theorem addr_addrs (d disk : Nat → Block) (i : Nat) (hk : k ≤ NDIRECT) : addr d disk i k = dinAddr (d i) k := if_pos hk

/-- A block is named by an address of the dinode. -/
theorem addr_setAddr (h : Core d s) (hk : k ≤ NDIRECT) (ha : addr d s.disk i k = 0) (j l : Nat) :
    addr (Function.update d i (setAddr (d i) k s.freeblock)) s.disk j l =
      if (j, l) = (i, k) then s.freeblock else addr d s.disk j l := by
  have hb : s.freeblock < 2 ^ 32 := Nat.lt_of_le_of_lt h.upper (by decide)
  have hlower := h.lower
  rw [nmeta_eq] at hlower
  have ha' : dinAddr (d i) k = 0 := (addr_addrs d s.disk i hk).symm.trans ha
  by_cases hj : j = i
  · rw [hj]
    have hself : Function.update d i (setAddr (d i) k s.freeblock) i = setAddr (d i) k s.freeblock := Function.update_self ..
    rw [addr, addr, hself, dinAddr_setAddr _ _ _ hb, dinAddr_setAddr _ _ _ hb]
    by_cases hl : l ≤ NDIRECT
    · rw [if_pos hl, if_pos hl]
      exact if_congr (by simp) rfl rfl
    · have hlk : (i, l) ≠ (i, k) := fun he => hl ((Prod.mk.inj he).2 ▸ hk)
      rw [if_neg hl, if_neg hl, if_neg hlk]
      by_cases hkn : NDIRECT = k
      · have hold : dinAddr (d i) NDIRECT = 0 := by rwa [hkn]
        simp only [hold, if_pos hkn, true_or, if_true]
        rw [h.fresh _ (Nat.le_refl _), Block.uint_zero, ite_self]
      · simp only [if_neg hkn]
  · have hjl : (j, l) ≠ (i, k) := fun he => hj (Prod.mk.inj he).1
    rw [if_neg hjl, addr, Function.update_of_ne hj]
    rfl

/-- An address of the dinode gets a block. -/
theorem wp_placeAddr {K : Nat → Prop} (h : Core d s) (hk : k ≤ NDIRECT) (hK : K k) :
    Wp (placeAddr (d i) k) AnyError (fun din s' => s'.sectors = FSSIZE ∧ (dinAddr din k < FSSIZE →
      dinAddr din k ≠ 0 ∧ Grown i K d s (Function.update d i din) s')) s := by
  rw [placeAddr]
  apply Wp.ite
  · intro h0
    have hlower := h.lower
    rw [nmeta_eq] at hlower
    have hset : dinAddr (setAddr (d i) k s.freeblock) k = s.freeblock := by
      rw [dinAddr_setAddr _ _ _ (Nat.lt_of_le_of_lt h.upper (by decide)), if_pos rfl]
    have ha : addr d s.disk i k = 0 := (addr_addrs d s.disk i hk).trans h0
    rw [wp_bind, wp_nextBlock]
    apply wp_pure.2
    refine ⟨h.sectors, fun hlt => ?_⟩
    rw [hset] at hlt ⊢
    constructor
    · omega
    · apply And.left
      apply h.grown _ { s with freeblock := s.freeblock + 1 } ha hK hlt (addr_setAddr h hk ha)
      · exact fun _ _ => rfl
      · exact h.sectors
      · rfl
      · rfl
      · exact fun j hj => Function.update_of_ne hj ..
      · intro o ho
        rw [Function.update_self, setAddr, Block.setUint, if_neg]
        omega
      · exact fun _ _ => rfl
  · intro hn
    apply wp_pure.2
    rw [Function.update_eq_self]
    exact ⟨h.sectors, fun _ => ⟨hn, .refl i K h⟩⟩

theorem slotOf_direct (h : bn < NDIRECT) : slotOf bn = bn := if_pos h

theorem slotOf_indirect (h : NDIRECT ≤ bn) : slotOf bn = bn + 1 := if_neg (Nat.not_lt_of_le h)

theorem addr_entry (d disk : Nat → Block) (hd : dinAddr (d i) NDIRECT ≠ 0) (hk : NDIRECT < k) (hm : k ≤ MAXFILE) :
    addr d disk i k = (disk (dinAddr (d i) NDIRECT)).uint (k - (NDIRECT + 1)) := by
  rw [addr, if_neg (Nat.not_le_of_lt hk), if_neg]
  intro ho
  rcases ho with ho | ho
  · exact hd ho
  · exact absurd hm (Nat.not_le_of_lt ho)

/-- A block is named by an entry of the indirect block. -/
theorem addr_setEntry (h : Core d s) (hd : dinAddr (d i) NDIRECT ≠ 0) (hk : NDIRECT < k) (hm : k ≤ MAXFILE) (j l : Nat) :
    addr d (Function.update s.disk (dinAddr (d i) NDIRECT)
      ((s.disk (dinAddr (d i) NDIRECT)).setUint (k - (NDIRECT + 1)) s.freeblock)) j l =
      if (j, l) = (i, k) then s.freeblock else addr d s.disk j l := by
  have hb : s.freeblock < 2 ^ 32 := Nat.lt_of_le_of_lt h.upper (by decide)
  have hind : addr d s.disk i NDIRECT = dinAddr (d i) NDIRECT := addr_addrs d s.disk i (Nat.le_refl _)
  by_cases hj : j = i
  · rw [hj, addr]
    by_cases hl : l ≤ NDIRECT
    · have hlk : (i, l) ≠ (i, k) := fun he => absurd hl ((Prod.mk.inj he).2 ▸ Nat.not_le_of_lt hk)
      rw [if_pos hl, if_neg hlk, addr_addrs d s.disk i hl]
    · rw [if_neg hl, Function.update_self, Block.uint_setUint _ _ _ hb]
      by_cases hlk : l = k
      · rw [hlk, if_pos rfl, if_pos rfl, if_neg]
        intro ho
        rcases ho with ho | ho
        · exact hd ho
        · exact absurd hm (Nat.not_le_of_lt ho)
      · have hlk' : (i, l) ≠ (i, k) := fun he => hlk (Prod.mk.inj he).2
        have hne : l - (NDIRECT + 1) ≠ k - (NDIRECT + 1) := by omega
        rw [if_neg hlk', if_neg hne, addr, if_neg hl]
  · have hjl : (j, l) ≠ (i, k) := fun he => hj (Prod.mk.inj he).1
    rw [if_neg hjl, addr, addr]
    apply if_congr Iff.rfl rfl
    by_cases hz : dinAddr (d j) NDIRECT = 0
    · rw [if_pos (.inl hz), if_pos (.inl hz)]
    · have hne : dinAddr (d j) NDIRECT ≠ dinAddr (d i) NDIRECT := by
        intro he
        have hindj : addr d s.disk j NDIRECT = dinAddr (d j) NDIRECT := addr_addrs d s.disk j (Nat.le_refl _)
        exact hj (h.inj (by rwa [hindj]) (by rw [hindj, hind, he])).1
      rw [Function.update_of_ne hne]

/-- What `place` does: the file has a block for `fbn`, unless the image is full. -/
structure Placed (i fbn : Nat) (d : Nat → Block) (s : State) (d' : Nat → Block) (x : Nat) (s' : State) : Prop
    extends Grown i (fun k => k = slotOf fbn ∨ k = NDIRECT ∧ NDIRECT ≤ fbn) d s d' s' where
  sector : x = Mkfs.addr d' s'.disk i (slotOf fbn) ∧ x ≠ 0
  indirect : NDIRECT ≤ fbn → Mkfs.addr d' s'.disk i NDIRECT ≠ 0

theorem wp_place (h : Core d s) (hfbn : fbn < MAXFILE) : Wp (place (d i) fbn) AnyError
    (fun r s' => s'.sectors = FSSIZE ∧ (r.2 < FSSIZE → Placed i fbn d s (Function.update d i r.1) r.2 s')) s := by
  rw [place]
  apply Wp.ite
  · intro hlt
    have hslot := slotOf_direct hlt
    apply (wp_placeAddr (K := fun k => k = slotOf fbn ∨ k = NDIRECT ∧ NDIRECT ≤ fbn) h (Nat.le_of_lt hlt) (.inl hslot.symm)).bind
    intro din s' hs
    apply wp_pure.2
    refine ⟨hs.1, fun hx => ?_⟩
    obtain ⟨hn, hg⟩ := hs.2 hx
    refine ⟨hg, ⟨?_, hn⟩, fun hle => absurd hlt (Nat.not_lt_of_le hle)⟩
    rw [hslot, addr_addrs _ _ _ (Nat.le_of_lt hlt), Function.update_self]
  · intro hge
    have hle := Nat.le_of_not_lt hge
    have hslot := slotOf_indirect hle
    apply (wp_placeAddr (K := fun k => k = slotOf fbn ∨ k = NDIRECT ∧ NDIRECT ≤ fbn) h (Nat.le_refl _) (.inr ⟨rfl, hle⟩)).bind
    intro din s' hs
    rw [wp_bind]
    apply wp_rsect
    intro hsec
    rw [hs.1] at hsec
    obtain ⟨hn, hg⟩ := hs.2 hsec
    have hdin : Function.update d i din i = din := Function.update_self ..
    have hind : addr (Function.update d i din) s'.disk i NDIRECT = dinAddr din NDIRECT := by
      rw [addr_addrs _ _ _ (Nat.le_refl _), hdin]
    have hentry : addr (Function.update d i din) s'.disk i (fbn + 1) = (s'.disk (dinAddr din NDIRECT)).uint (fbn - NDIRECT) := by
      rw [addr_entry (k := fbn + 1) _ _ (by rwa [hdin]) (Nat.lt_succ_of_le hle) hfbn, hdin, Nat.add_sub_add_right]
    apply Wp.ite
    · intro h0
      rw [wp_bind, wp_nextBlock, wp_bind, wsect, wp_modify]
      apply wp_pure.2
      have hfree := hg.core.upper
      have hlower := hg.core.lower
      rw [nmeta_eq] at hlower
      have hset : ((s'.disk (dinAddr din NDIRECT)).setUint (fbn - NDIRECT) s'.freeblock).uint (fbn - NDIRECT) = s'.freeblock := by
        rw [Block.uint_setUint _ _ _ (Nat.lt_of_le_of_lt hfree (by decide)), if_pos rfl]
      have hsectors : max s'.sectors (dinAddr din NDIRECT + 1) = FSSIZE := by
        rw [hs.1]
        exact Nat.max_eq_left hsec
      refine ⟨hsectors, fun hlt => ?_⟩
      rw [hset] at hlt ⊢
      have haddr := addr_setEntry (i := i) (k := fbn + 1) hg.core (by rwa [hdin]) (Nat.lt_succ_of_le hle) hfbn
      rw [hdin, Nat.add_sub_add_right] at haddr
      have hrest (b : Nat) (hb : b ≠ dinAddr din NDIRECT) : Function.update s'.disk (dinAddr din NDIRECT)
          ((s'.disk (dinAddr din NDIRECT)).setUint (fbn - NDIRECT) s'.freeblock) b = s'.disk b := Function.update_of_ne hb ..
      obtain ⟨hlast, hx⟩ := hg.core.grown (K := fun k => k = slotOf fbn ∨ k = NDIRECT ∧ NDIRECT ≤ fbn) (i := i)
        (Function.update d i din) { s' with
          disk := Function.update s'.disk (dinAddr din NDIRECT)
            ((s'.disk (dinAddr din NDIRECT)).setUint (fbn - NDIRECT) s'.freeblock)
          sectors := max s'.sectors (dinAddr din NDIRECT + 1)
          freeblock := s'.freeblock + 1 }
        (hentry.trans h0) (.inl hslot.symm) hlt haddr
        (fun b hb => hrest b (by have hi := hb i; rw [hind] at hi; exact hi hn)) hsectors rfl rfl (fun _ _ => rfl)
        (fun _ _ => rfl) (fun b hb => hrest b (by
          have hge := hg.core.le (i := i) (k := NDIRECT) (by rwa [hind])
          rw [hind] at hge
          omega))
      refine ⟨hg.trans hlast, ⟨?_, by omega⟩, fun _ => ?_⟩
      · rw [hslot]
        exact hx.symm
      · rw [hlast.kept]
        · rwa [hind]
        · rwa [hind]
    · intro hne
      apply wp_pure.2
      refine ⟨hs.1, fun _ => ⟨hg, ⟨?_, hne⟩, fun _ => by rwa [hind]⟩⟩
      rw [hslot, hentry]

end

/-- The inodes have the blocks for their files, and the blocks hold the bytes, with zeroes after the end. -/
structure Holds (f : Nat → List Byte) (d : Nat → Block) (s : State) : Prop extends Core d s where
  slots : ∀ i bn, addr d s.disk i (slotOf bn) ≠ 0 ↔ bn * BSIZE < (f i).length
  indirect : ∀ i, addr d s.disk i NDIRECT ≠ 0 ↔ NDIRECT * BSIZE < (f i).length
  bytes : ∀ i bn o, bn * BSIZE < (f i).length → o < BSIZE →
    s.disk (addr d s.disk i (slotOf bn)) o = (f i).getD (bn * BSIZE + o) 0

/-- What `iappend` leaves alone but for the size: the other inodes, and the blocks before the data. -/
structure Beside (i : Nat) (d : Nat → Block) (s : State) (d' : Nat → Block) (s' : State) : Prop where
  other : ∀ j, j ≠ i → d' j = d j
  head : ∀ o, o < 12 → d' i o = d i o
  metadata : ∀ b, b < nmeta → s'.disk b = s.disk b
  freeinode : s'.freeinode = s.freeinode

section

variable {f : Nat → List Byte} {d d' d'' : Nat → Block} {s s' t : State} {i k : Nat}

theorem Beside.trans (h : Beside i d s d' s') (h' : Beside i d' s' d'' t) : Beside i d s d'' t where
  other j hj := (h'.other j hj).trans (h.other j hj)
  head o ho := (h'.head o ho).trans (h.head o ho)
  metadata b hb := (h'.metadata b hb).trans (h.metadata b hb)
  freeinode := h'.freeinode.trans h.freeinode

/-- The sector of a file is written. -/
def State.write (s : State) (x : Nat) (buf : Block) : State :=
  { s with disk := Function.update s.disk x buf, sectors := max s.sectors (x + 1) }

theorem write_self (s : State) (x : Nat) (buf : Block) : (s.write x buf).disk x = buf := Function.update_self ..

theorem write_other (s : State) (buf : Block) (hb : b ≠ x) : (s.write x buf).disk b = s.disk b := Function.update_of_ne hb ..

theorem addr_write (h : Core d s) (hx : addr d s.disk i (slotOf fbn) ≠ 0) (buf : Block) :
    addr d (s.write (addr d s.disk i (slotOf fbn)) buf).disk = addr d s.disk := by
  obtain ⟨x, hxe⟩ : ∃ x, x = addr d s.disk i (slotOf fbn) := ⟨_, rfl⟩
  rw [← hxe] at hx ⊢
  funext j l
  rw [addr, addr]
  apply if_congr Iff.rfl rfl
  by_cases hz : dinAddr (d j) NDIRECT = 0
  · rw [if_pos (.inl hz), if_pos (.inl hz)]
  · have hne : dinAddr (d j) NDIRECT ≠ x := by
      intro he
      have hind : addr d s.disk j NDIRECT = dinAddr (d j) NDIRECT := addr_addrs d s.disk j (Nat.le_refl _)
      rw [hxe] at hx he
      exact slotOf_ne fbn (h.inj hx (he.symm.trans hind.symm)).2
    rw [write_other s buf hne]

theorem Core.write (h : Core d s) (hx : addr d s.disk i (slotOf fbn) ≠ 0) (buf : Block) :
    Core d (s.write (addr d s.disk i (slotOf fbn)) buf) := by
  have hlt := h.lt hx
  have hupper := h.upper
  constructor
  · change max s.sectors _ = FSSIZE
    rw [h.sectors]
    apply Nat.max_eq_left
    omega
  · exact h.lower
  · exact hupper
  · rw [addr_write h hx]
    exact h.allots
  · intro b hb
    have hne : b ≠ addr d s.disk i (slotOf fbn) := by
      have hb' : s.freeblock ≤ b := hb
      omega
    rw [write_other s buf hne, h.fresh b hb]

theorem Grown.beside {K : Nat → Prop} (h : Grown i K d s d' s') : Beside i d s d' s' :=
  ⟨h.other, h.head, h.metadata, h.freeinode⟩

/-- A block of a file after bytes have been put behind its end. -/
theorem write_append (buf : Block) (bs p : List Byte) (hoff : fbn * BSIZE ≤ bs.length)
    (hold : ∀ o, o < BSIZE → buf o = bs.getD (fbn * BSIZE + o) 0) (ho : o < BSIZE) :
    buf.write (bs.length - fbn * BSIZE) p o = (bs ++ p).getD (fbn * BSIZE + o) 0 := by
  rcases Nat.lt_or_ge o (bs.length - fbn * BSIZE) with hlt | hge
  · rw [Block.write_outside _ _ (.inl hlt), hold o ho, List.getD_append _ _ _ _ (by omega)]
  · rw [List.getD_append_right _ _ _ _ (by omega)]
    obtain ⟨r, rfl⟩ := Nat.exists_eq_add_of_le hge
    have hr : fbn * BSIZE + (bs.length - fbn * BSIZE + r) - bs.length = r := by omega
    rw [hr]
    rcases Nat.lt_or_ge r p.length with hr | hr
    · exact Block.write_inside _ _ hr
    · rw [Block.write_outside _ _ (.inr (by omega)), hold _ ho, List.getD_eq_default _ _ (by omega),
        List.getD_eq_default _ _ hr]

/-- One turn of the loop of `iappend`: the file grows by bytes that fit in the block of its end. -/
theorem Holds.append (h : Holds f d s) (hp : Placed i fbn d s d' x s') (hfbn : fbn = (f i).length / BSIZE) (hne : p ≠ [])
    (hfit : (f i).length + p.length ≤ (fbn + 1) * BSIZE) :
    Holds (Function.update f i (f i ++ p)) d'
      (s'.write x ((s'.disk x).write ((f i).length - fbn * BSIZE) p)) := by
  obtain ⟨hx, hx0⟩ := hp.sector
  rw [hx] at hx0 ⊢
  have hcore := hp.core.write hx0 ((s'.disk (addr d' s'.disk i (slotOf fbn))).write ((f i).length - fbn * BSIZE) p)
  have haddr := addr_write hp.core hx0 ((s'.disk (addr d' s'.disk i (slotOf fbn))).write ((f i).length - fbn * BSIZE) p)
  have hpos : 0 < p.length := List.length_pos_iff.2 hne
  have hstart : fbn * BSIZE ≤ (f i).length := by
    rw [hfbn]
    exact Nat.div_mul_le_self ..
  have hlen : (Function.update f i (f i ++ p) i).length = (f i).length + p.length := by
    rw [Function.update_self, List.length_append]
  have hother {j : Nat} (hj : j ≠ i) : Function.update f i (f i ++ p) j = f j := Function.update_of_ne hj ..
  have hblocks {m n : Nat} (hm : m < n) : m * BSIZE + BSIZE ≤ n * BSIZE := by
    rw [← Nat.succ_mul]
    exact Nat.mul_le_mul_right _ hm
  rw [Nat.succ_mul] at hfit
  refine ⟨hcore, ?_, ?_, ?_⟩
  · intro j bn
    rw [haddr]
    by_cases hj : j = i
    · rw [hj, hlen]
      rcases Nat.lt_trichotomy bn fbn with hlt | heq | hgt
      · have hm := hblocks hlt
        have hold := (h.slots i bn).2 (by omega)
        rw [hp.kept hold]
        exact iff_of_true hold (by omega)
      · rw [heq]
        exact iff_of_true hx0 (by omega)
      · have hm := hblocks hgt
        have hold : addr d s.disk i (slotOf bn) = 0 := by
          by_contra hn
          have hlt := (h.slots i bn).1 hn
          omega
        rcases hp.addr i (slotOf bn) with he | ⟨-, hk, -⟩
        · rw [he]
          exact iff_of_false (fun hn => hn hold) (by omega)
        · rcases hk with hk | hk
          · exact absurd (slotOf_inj hk) (by omega)
          · exact absurd hk.1 (slotOf_ne bn)
    · rw [hother hj, ← h.slots j bn]
      rcases hp.addr j (slotOf bn) with he | ⟨hji, -⟩
      · rw [he]
      · exact absurd hji hj
  · intro j
    rw [haddr]
    by_cases hj : j = i
    · rw [hj, hlen]
      by_cases hge : NDIRECT ≤ fbn
      · have hm := Nat.mul_le_mul_right BSIZE hge
        exact iff_of_true (hp.indirect hge) (by omega)
      · have hm := hblocks (Nat.lt_of_not_le hge)
        rcases hp.addr i NDIRECT with he | ⟨-, hk, -⟩
        · rw [he, h.indirect]
          exact iff_of_false (by omega) (by omega)
        · rcases hk with hk | hk
          · exact absurd hk.symm (slotOf_ne fbn)
          · exact absurd hk.2 hge
    · rw [hother hj, ← h.indirect j]
      rcases hp.addr j NDIRECT with he | ⟨hji, -⟩
      · rw [he]
      · exact absurd hji hj
  · intro j bn o hbn ho
    rw [haddr]
    by_cases hsame : j = i ∧ bn = fbn
    · rw [hsame.1, hsame.2, Function.update_self]
      rw [write_self]
      apply write_append _ _ _ hstart _ ho
      intro r hr
      by_cases hold : addr d s.disk i (slotOf fbn) = 0
      · have hend : (f i).length ≤ fbn * BSIZE := by
          by_contra hlt
          exact (h.slots i fbn).2 (Nat.lt_of_not_le hlt) hold
        rw [hp.zero i fbn hold hx0, List.getD_eq_default _ _ (by omega)]
        rfl
      · rw [hp.kept hold, hp.data i fbn hold]
        exact h.bytes i fbn r ((h.slots i fbn).1 hold) hr
    · have hbn' : bn * BSIZE < (f j).length ∧
          (Function.update f i (f i ++ p) j).getD (bn * BSIZE + o) 0 = (f j).getD (bn * BSIZE + o) 0 := by
        by_cases hj : j = i
        · have hne : bn ≠ fbn := fun he => hsame ⟨hj, he⟩
          rw [hj] at hbn ⊢
          rw [hlen] at hbn
          have hlt : bn < fbn := by
            by_contra hge
            have hm := hblocks (m := fbn) (n := bn) (by omega)
            omega
          have hm := hblocks hlt
          refine ⟨by omega, ?_⟩
          rw [Function.update_self, List.getD_append _ _ _ _ (by omega)]
        · rw [hother hj] at hbn ⊢
          exact ⟨hbn, rfl⟩
      have hold := (h.slots j bn).2 hbn'.1
      have hne : addr d' s'.disk j (slotOf bn) ≠ addr d' s'.disk i (slotOf fbn) := by
        intro he
        obtain ⟨hi, hk⟩ := hp.core.inj hx0 he.symm
        exact hsame ⟨hi.symm, (slotOf_inj hk).symm⟩
      rw [write_other _ _ hne, hp.kept hold, hp.data j bn hold, hbn'.2]
      exact h.bytes j bn o hbn'.1 ho

theorem wp_wsect {E : Exit → Prop} : Wp (wsect x buf) E Q s ↔ Q ⟨⟩ (s.write x buf) := Iff.rfl

theorem Beside.refl (i : Nat) (d : Nat → Block) (s : State) : Beside i d s d s :=
  ⟨fun _ _ => rfl, fun _ _ => rfl, fun _ _ => rfl, rfl⟩

theorem Holds.small (h : Holds f d s) (i : Nat) : (f i).length ≤ MAXFILE * BSIZE := by
  by_contra hlt
  apply (h.slots i MAXFILE).2 (Nat.lt_of_not_le hlt)
  rw [addr, slotOf_indirect (by decide), if_neg (by decide), if_pos (.inr (by decide))]

/-- What the loop of `iappend` leads to. -/
structure Appended (f : Nat → List Byte) (i : Nat) (p : List Byte) (d : Nat → Block) (s : State) (din : Block) (off : Nat)
    (s' : State) : Prop where
  holds : Holds (Function.update f i (f i ++ p)) (Function.update d i din) s'
  off : off = (f i).length + p.length
  beside : Beside i d s (Function.update d i din) s'

theorem Appended.nil (h : Holds f d s) (i : Nat) : Appended f i [] d s (d i) (f i).length s := by
  constructor
  · rw [List.append_nil, Function.update_eq_self, Function.update_eq_self]
    exact h
  · rfl
  · rw [Function.update_eq_self]
    exact .refl i d s

/-- The loop appends the bytes, unless it fails. -/
theorem wp_appendLoop (h : Holds f d s) (hp : p.length ≤ fuel) :
    Wp (appendLoop fuel (d i) (f i).length p) AnyError (fun r s' => Appended f i p d s r.1 r.2 s') s := by
  induction fuel generalizing f d s p with
  | zero =>
    rw [List.length_eq_zero_iff.1 (Nat.le_zero.1 hp)]
    exact wp_pure.2 (.nil h i)
  | succ fuel ih =>
    rw [appendLoop]
    apply Wp.ite
    · intro h0
      rw [List.length_eq_zero_iff.1 h0]
      exact wp_pure.2 (.nil h i)
    · intro hpos
      apply Wp.ite
      · exact fun _ => trivial
      · intro hfbn
        apply (wp_place h.toCore (Nat.lt_of_not_le hfbn)).bind
        intro r s₁ hr
        rw [wp_bind]
        apply wp_rsect
        intro hsec
        rw [hr.1] at hsec
        have hplaced := hr.2 hsec
        rw [wp_bind, wp_wsect]
        obtain ⟨n, hn⟩ : ∃ n, n = min p.length (((f i).length / BSIZE + 1) * BSIZE - (f i).length) := ⟨_, rfl⟩
        rw [← hn]
        have hstart : (f i).length < ((f i).length / BSIZE + 1) * BSIZE := by
          rw [Nat.mul_comm]
          exact Nat.lt_mul_div_succ _ (by decide)
        have hlen : (p.take n).length = n := by
          rw [List.length_take, hn]
          omega
        have hnext : Holds (Function.update f i (f i ++ p.take n)) (Function.update d i r.1)
            (s₁.write r.2 ((s₁.disk r.2).write ((f i).length - (f i).length / BSIZE * BSIZE) (p.take n))) := by
          apply h.append hplaced rfl
          · intro hnil
            rw [hnil, List.length_nil] at hlen
            omega
          · rw [hlen, hn]
            omega
        have hrest := ih (p := p.drop n) hnext (by rw [List.length_drop]; omega)
        rw [Function.update_self, Function.update_self, List.length_append, hlen] at hrest
        apply hrest.mono
        intro r' s' ha
        have hmid : Beside i d s (Function.update d i r.1) (s₁.write r.2 ((s₁.disk r.2).write
            ((f i).length - (f i).length / BSIZE * BSIZE) (p.take n))) := by
          refine ⟨hplaced.other, hplaced.head, fun b hb => ?_, hplaced.freeinode⟩
          have hge := hplaced.core.le (by rw [← hplaced.sector.1]; exact hplaced.sector.2)
          rw [← hplaced.sector.1] at hge
          rw [write_other _ _ (by omega), hplaced.metadata b hb]
        constructor
        · have hholds := ha.holds
          rw [Function.update_self, Function.update_idem, Function.update_idem, List.append_assoc, List.take_append_drop] at hholds
          exact hholds
        · have hoff := ha.off
          rw [Function.update_self, List.length_append, hlen, List.length_drop] at hoff
          omega
        · have hbeside := ha.beside
          rw [Function.update_idem] at hbeside
          exact hmid.trans hbeside

end

end PbsCow.Mkfs
