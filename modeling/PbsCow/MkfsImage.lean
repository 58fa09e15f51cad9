import PbsCow.Mkfs
import PbsCow.MkfsBlocks

namespace PbsCow.Mkfs
open Blocks (BSIZE NDIRECT NINDIRECT MAXFILE slotOf IBLOCK dirent)
open Files (IPB ROOTINO BPB direntSize)
set_option autoImplicit true

/-- The inodes that the kernel reads from the image. -/
def dinodes (disk : Nat → Block) (i : Nat) : Block :=
  if i < NINODES then (disk (IBLOCK i sb)).sub (dinodeSize * (i % IPB)) dinodeSize else Block.zero

/-- The type of an inode when the next one to be allocated is `n`. -/
def typeOf (n i : Nat) : Nat := if i = 0 ∨ n ≤ i then 0 else if i = ROOTINO then T_DIR else T_FILE

/-- The image holds the files, and no others; `size` is what the inodes say of their sizes. -/
structure Made (f : Nat → List Byte) (size : Nat → Nat) (s : State) : Prop extends Holds f (dinodes s.disk) s where
  size : ∀ i, dinSize (dinodes s.disk i) = size i
  type : ∀ i, dinType (dinodes s.disk i) = typeOf s.freeinode i
  nlink : ∀ i, dinNlink (dinodes s.disk i) = if typeOf s.freeinode i = 0 then 0 else 1
  free : ∀ i, typeOf s.freeinode i = 0 → f i = []
  super : s.disk 1 = sbBlock
  log : s.disk 2 = Block.zero

section

variable {f : Nat → List Byte} {size : Nat → Nat} {d d' : Nat → Block} {s s' : State} {i k : Nat}

theorem inode_block (hi : i < NINODES) : 32 ≤ IBLOCK i sb ∧ IBLOCK i sb < 45 := by
  have he : IBLOCK i sb = i / 16 + 32 := rfl
  rw [NINODES] at hi
  omega

theorem uint_sub_zero (b : Block) (hj : j < 16) : (b.sub 0 dinodeSize).uint j = b.uint j := by
  apply Block.uint_congr
  intro o ho
  rw [Block.sub, dinodeSize, if_pos (by omega), Nat.zero_add]

theorem ushort_sub_zero (b : Block) (hj : j < 32) : (b.sub 0 dinodeSize).ushort j = b.ushort j := by
  apply Block.ushort_congr
  intro o ho
  rw [Block.sub, dinodeSize, if_pos (by omega), Nat.zero_add]

/-- What `winode` writes can be read, and the other inodes are as they were. -/
theorem dinodes_write (disk : Nat → Block) (din : Block) (hi : i < NINODES) (j : Nat) :
    dinodes (Function.update disk (IBLOCK i sb) ((disk (IBLOCK i sb)).write (dinodeSize * (i % IPB)) (din.read 0 dinodeSize))) j =
      if j = i then din.sub 0 dinodeSize else dinodes disk j := by
  by_cases hj : j = i
  · rw [if_pos hj, hj, dinodes, if_pos hi, Function.update_self]
    funext o
    rw [Block.sub, Block.sub]
    by_cases ho : o < dinodeSize
    · rw [if_pos ho, if_pos ho, Block.write_sub _ _ ho, Nat.zero_add]
    · rw [if_neg ho, if_neg ho]
  · rw [if_neg hj, dinodes, dinodes]
    apply if_congr Iff.rfl _ rfl
    by_cases hb : IBLOCK j sb = IBLOCK i sb
    · rw [hb, Function.update_self]
      funext o
      rw [Block.sub, Block.sub]
      by_cases ho : o < dinodeSize
      · rw [if_pos ho, if_pos ho, Block.write_outside]
        rw [Block.length_read]
        have hdiv : j / IPB = i / IPB := Nat.add_right_cancel hb
        rw [IPB, dinodeSize] at *
        omega
      · rw [if_neg ho, if_neg ho]
    · rw [Function.update_of_ne hb]

theorem dinodes_congr {disk disk' : Nat → Block} (h : ∀ b, 32 ≤ b → b < 45 → disk' b = disk b) : dinodes disk' = dinodes disk := by
  funext i
  rw [dinodes, dinodes]
  by_cases hi : i < NINODES
  · rw [if_pos hi, if_pos hi, h _ (inode_block hi).1 (inode_block hi).2]
  · rw [if_neg hi, if_neg hi]

/-- What is before the data blocks does not matter, but for the addresses in the inodes. -/
theorem Holds.congr (h : Holds f d s) (hd : ∀ i k, k ≤ NDIRECT → dinAddr (d' i) k = dinAddr (d i) k)
    (hdisk : ∀ b, nmeta ≤ b → s'.disk b = s.disk b) (hsectors : s'.sectors = FSSIZE) (hfree : s'.freeblock = s.freeblock) :
    Holds f d' s' := by
  have haddr : addr d' s'.disk = addr d s.disk := by
    funext j l
    rw [addr, addr, hd j NDIRECT (Nat.le_refl _)]
    by_cases hl : l ≤ NDIRECT
    · rw [if_pos hl, if_pos hl, hd j l hl]
    · rw [if_neg hl, if_neg hl]
      by_cases hz : dinAddr (d j) NDIRECT = 0
      · rw [if_pos (.inl hz), if_pos (.inl hz)]
      · have hind : addr d s.disk j NDIRECT = dinAddr (d j) NDIRECT := addr_addrs d s.disk j (Nat.le_refl _)
        have hge := h.toCore.le (i := j) (k := NDIRECT) (by rwa [hind])
        rw [hind] at hge
        rw [hdisk _ hge]
  refine ⟨⟨hsectors, ?_, ?_, ?_, ?_⟩, ?_, ?_, ?_⟩
  · rw [hfree]
    exact h.lower
  · rw [hfree]
    exact h.upper
  · rw [haddr, hfree]
    exact h.allots
  · intro b hb
    rw [hfree] at hb
    rw [hdisk b (Nat.le_trans h.lower hb), h.fresh b hb]
  · rw [haddr]
    exact h.slots
  · rw [haddr]
    exact h.indirect
  · intro j bn o hbn ho
    have hn := (h.slots j bn).2 hbn
    rw [haddr, hdisk _ (h.toCore.le hn)]
    exact h.bytes j bn o hbn ho

theorem wp_rinode (hi : i < NINODES) (hq : Q (dinodes s.disk i) s) : Wp (rinode i) AnyError Q s := by
  rw [rinode, wp_bind]
  apply wp_rsect
  intro _
  apply wp_pure.2
  rw [dinodes, if_pos hi] at hq
  exact hq

theorem wp_winode (hq : Q ⟨⟩ (s.write (IBLOCK i sb)
    ((s.disk (IBLOCK i sb)).write (dinodeSize * (i % IPB)) (din.read 0 dinodeSize)))) : Wp (winode i din) AnyError Q s := by
  rw [winode, wp_bind]
  apply wp_rsect
  intro _
  exact hq

/-- An inode is written: the image, where it has the right type and size. -/
theorem Made.winode (h : Holds f d s) (hi : i < NINODES) (hmeta : ∀ j, j ≠ i → d j = dinodes s.disk j)
    (haddr : ∀ k, k ≤ NDIRECT → dinAddr din k = dinAddr (d i) k)
    (hsize : ∀ j, (if j = i then dinSize din else dinSize (d j)) = size j)
    (htype : ∀ j, (if j = i then dinType din else dinType (d j)) = typeOf s.freeinode j)
    (hnlink : ∀ j, (if j = i then dinNlink din else dinNlink (d j)) = if typeOf s.freeinode j = 0 then 0 else 1)
    (hfree : ∀ j, typeOf s.freeinode j = 0 → f j = []) (hsuper : s.disk 1 = sbBlock) (hlog : s.disk 2 = Block.zero) :
    Made f size (s.write (IBLOCK i sb) ((s.disk (IBLOCK i sb)).write (dinodeSize * (i % IPB)) (din.read 0 dinodeSize))) := by
  obtain ⟨t, ht⟩ : ∃ t, t = s.write (IBLOCK i sb)
    ((s.disk (IBLOCK i sb)).write (dinodeSize * (i % IPB)) (din.read 0 dinodeSize)) := ⟨_, rfl⟩
  have hblock := inode_block hi
  have hdin (j : Nat) : dinodes t.disk j = if j = i then din.sub 0 dinodeSize else d j := by
    rw [ht]
    apply (dinodes_write s.disk din hi j).trans
    by_cases hj : j = i
    · rw [if_pos hj, if_pos hj]
    · rw [if_neg hj, if_neg hj, hmeta j hj]
  have hrest (b : Nat) (hb : b < 32 ∨ 45 ≤ b) : t.disk b = s.disk b := by
    rw [ht, write_other]
    omega
  have hfreeinode : t.freeinode = s.freeinode := by
    rw [ht]
    rfl
  rw [← ht]
  refine ⟨h.congr ?_ ?_ ?_ ?_, ?_, ?_, ?_, ?_, ?_, ?_⟩
  · intro j k hk
    rw [hdin]
    by_cases hj : j = i
    · rw [if_pos hj, hj, ← haddr k hk, dinAddr, uint_sub_zero _ (by rw [NDIRECT] at hk; omega)]
      rfl
    · rw [if_neg hj]
  · intro b hb
    rw [nmeta_eq] at hb
    exact hrest b (.inr (by omega))
  · rw [ht]
    change max s.sectors _ = FSSIZE
    rw [h.sectors, FSSIZE]
    omega
  · rw [ht]
    rfl
  · intro j
    rw [hdin, ← hsize j]
    by_cases hj : j = i
    · rw [if_pos hj, if_pos hj]
      exact uint_sub_zero _ (by decide)
    · rw [if_neg hj, if_neg hj]
  · intro j
    rw [hdin, hfreeinode, ← htype j]
    by_cases hj : j = i
    · rw [if_pos hj, if_pos hj]
      exact ushort_sub_zero _ (by decide)
    · rw [if_neg hj, if_neg hj]
  · intro j
    rw [hdin, hfreeinode, ← hnlink j]
    by_cases hj : j = i
    · rw [if_pos hj, if_pos hj]
      exact ushort_sub_zero _ (by decide)
    · rw [if_neg hj, if_neg hj]
  · rw [hfreeinode]
    exact hfree
  · rw [hrest 1 (.inl (by decide)), hsuper]
  · rw [hrest 2 (.inl (by decide)), hlog]

/-- A new inode, and one more file, which is empty. -/
theorem wp_ialloc (type : Nat) (h : Made f (fun i => (f i).length) s) (h0 : 0 < s.freeinode) (hlt : s.freeinode < NINODES)
    (htype : type = typeOf (s.freeinode + 1) s.freeinode) :
    Wp (ialloc type) AnyError (fun inum t => inum = s.freeinode ∧ t.freeinode = s.freeinode + 1 ∧
      Made f (fun i => (f i).length) t) s := by
  obtain ⟨n, hn⟩ : ∃ n, n = s.freeinode := ⟨_, rfl⟩
  obtain ⟨din, hdin⟩ : ∃ din, din = setSize ((Block.zero.setUshort 0 type).setUshort 3 1) 0 := ⟨_, rfl⟩
  rw [← hn] at h0 hlt htype ⊢
  have hnil : f n = [] := h.free n (if_pos (.inr (by omega)))
  have hbound : type < 2 ^ 16 := by
    rw [htype, typeOf]
    split
    · decide
    · split <;> decide
  have hold (k : Nat) (hk : k ≤ NDIRECT) : dinAddr (dinodes s.disk n) k = 0 := by
    rw [← addr_addrs (dinodes s.disk) s.disk n hk]
    by_contra hne
    have hlen : 0 < (f n).length := by
      by_cases he : k = NDIRECT
      · rw [he] at hne
        exact Nat.lt_of_le_of_lt (Nat.zero_le _) ((h.indirect n).1 hne)
      · rw [← slotOf_direct (Nat.lt_of_le_of_ne hk he)] at hne
        exact Nat.lt_of_le_of_lt (Nat.zero_le _) ((h.slots n k).1 hne)
    rw [hnil] at hlen
    exact Nat.lt_irrefl _ hlen
  have hnext (j : Nat) (hj : j ≠ n) : typeOf (n + 1) j = typeOf n j := by
    rw [typeOf, typeOf]
    apply if_congr _ rfl rfl
    omega
  rw [ialloc, wp_bind, wp_get, wp_bind, wp_modify, wp_bind, ← hn, ← hdin]
  apply wp_winode
  apply wp_pure.2
  refine ⟨rfl, rfl, ?_⟩
  apply Made.winode (d := dinodes s.disk) (s := { s with freeinode := n + 1 })
  · exact h.toHolds.congr (fun _ _ _ => rfl) (fun _ _ => rfl) h.sectors rfl
  · exact hlt
  · exact fun _ _ => rfl
  · intro k hk
    rw [hold k hk, hdin, dinAddr, setSize, Block.uint_setUint _ _ _ (by decide), if_neg (by omega),
      Block.uint_setUshort _ _ (by omega), Block.uint_setUshort _ _ (by omega)]
    rfl
  · intro j
    by_cases hj : j = n
    · rw [if_pos hj, hj, hnil, hdin, dinSize, setSize, Block.uint_setUint _ _ _ (by decide), if_pos rfl]
      rfl
    · rw [if_neg hj]
      exact h.size j
  · intro j
    by_cases hj : j = n
    · rw [if_pos hj, hj, hdin, dinType, setSize, Block.ushort_setUint _ _ (by decide), Block.ushort_setUshort _ _ _ (by decide),
        if_neg (by decide), Block.ushort_setUshort _ _ _ hbound, if_pos rfl, htype]
    · rw [if_neg hj, h.type j, ← hn]
      exact (hnext j hj).symm
  · intro j
    by_cases hj : j = n
    · have hused : typeOf (n + 1) n ≠ 0 := by
        rw [typeOf, if_neg (by omega)]
        split <;> decide
      rw [if_pos hj, hj, if_neg hused, hdin, dinNlink, setSize, Block.ushort_setUint _ _ (by decide),
        Block.ushort_setUshort _ _ _ (by decide), if_pos rfl]
    · rw [if_neg hj, h.nlink j, ← hn]
      exact if_congr (by rw [← hnext j hj]) rfl rfl
  · intro j hj
    by_cases hjn : j = n
    · rw [hjn, hnil]
    · apply h.free j
      rw [← hn, ← hnext j hjn]
      exact hj
  · exact h.super
  · exact h.log

/-- A file grows. -/
theorem wp_iappend (h : Made f (fun i => (f i).length) s) (h0 : 0 < i) (hi : i < s.freeinode) (hlt : i < NINODES) :
    Wp (iappend i p) AnyError (fun _ t => t.freeinode = s.freeinode ∧
      Made (Function.update f i (f i ++ p)) (fun j => (Function.update f i (f i ++ p) j).length) t) s := by
  rw [iappend, wp_bind]
  apply wp_rinode hlt
  rw [h.size i]
  apply (wp_appendLoop h.toHolds (Nat.le_refl _)).bind
  intro r s₁ ha
  apply wp_winode
  obtain ⟨hholds, hoff, hbeside⟩ := ha
  refine ⟨hbeside.freeinode, ?_⟩
  have hmeta : dinodes s₁.disk = dinodes s.disk := dinodes_congr fun b _ hb => hbeside.metadata b (by rw [nmeta_eq]; omega)
  have hself : Function.update (dinodes s.disk) i r.1 i = r.1 := Function.update_self ..
  have hsmall := hholds.small i
  rw [Function.update_self, List.length_append] at hsmall
  have hoff32 : r.2 < 2 ^ 32 := by
    rw [hoff]
    exact Nat.lt_of_le_of_lt hsmall (by decide)
  have hhead (o : Nat) (ho : o < 8) : setSize r.1 r.2 o = dinodes s.disk i o := by
    have hsame := hbeside.head o (by omega)
    rw [hself] at hsame
    rw [setSize, Block.setUint, if_neg (by omega), hsame]
  apply Made.winode hholds hlt
  · intro j hj
    rw [Function.update_of_ne hj, hmeta]
  · intro k _
    rw [hself, dinAddr, setSize, Block.uint_setUint _ _ _ hoff32, if_neg (by omega)]
    rfl
  · intro j
    by_cases hj : j = i
    · rw [if_pos hj, hj, Function.update_self, List.length_append, dinSize, setSize, Block.uint_setUint _ _ _ hoff32,
        if_pos rfl, hoff]
    · rw [if_neg hj, Function.update_of_ne hj, Function.update_of_ne hj]
      exact h.size j
  · intro j
    rw [hbeside.freeinode, ← h.type j]
    by_cases hj : j = i
    · rw [if_pos hj, hj]
      exact Block.ushort_congr fun o ho => hhead o (by omega)
    · rw [if_neg hj, Function.update_of_ne hj]
  · intro j
    rw [hbeside.freeinode, ← h.nlink j]
    by_cases hj : j = i
    · rw [if_pos hj, hj]
      exact Block.ushort_congr fun o ho => hhead o (by omega)
    · rw [if_neg hj, Function.update_of_ne hj]
  · intro j hj
    rw [hbeside.freeinode] at hj
    have hne : j ≠ i := by
      intro he
      rw [he, typeOf, if_neg (by omega)] at hj
      split at hj <;> cases hj
    rw [Function.update_of_ne hne]
    exact h.free j hj
  · rw [hbeside.metadata 1 (by decide), h.super]
  · rw [hbeside.metadata 2 (by decide), h.log]

end

/-- The bytes of an input file. -/
def Input.bytes (file : Input) : List Byte := (file.reads.getD []).flatten

/-- The entries of the root for files whose inodes start at `n`. -/
def entries (n : Nat) : List Input → List Byte
  | [] => []
  | file :: files => dirent n (fun i => file.shortname.getD i 0) ++ entries (n + 1) files

/-- The files by their inodes, when the next ones start at `n`. -/
def added (f : Nat → List Byte) (n : Nat) : List Input → Nat → List Byte
  | [] => f
  | file :: files =>
    let f := Function.update f ROOTINO (f ROOTINO ++ dirent n fun i => file.shortname.getD i 0)
    added (Function.update f n file.bytes) (n + 1) files

section added

variable {f : Nat → List Byte} {n : Nat}

theorem added_root (hn : ROOTINO < n) (files : List Input) : added f n files ROOTINO = f ROOTINO ++ entries n files := by
  induction files generalizing f n with
  | nil => exact (List.append_nil _).symm
  | cons file files ih =>
    have hne : ROOTINO ≠ n := Nat.ne_of_lt hn
    rw [added, ih (Nat.lt_succ_of_lt hn), Function.update_of_ne hne, Function.update_self, entries, List.append_assoc]

theorem added_other (hi : i ≠ ROOTINO) (h : i < n ∨ n + files.length ≤ i) : added f n files i = f i := by
  induction files generalizing f n with
  | nil => rfl
  | cons file files ih =>
    rw [List.length_cons] at h
    have hne : i ≠ n := by omega
    rw [added, ih (by omega), Function.update_of_ne hne, Function.update_of_ne hi]

theorem added_file (hn : ROOTINO < n) (hk : files[k]? = some file) : added f n files (n + k) = file.bytes := by
  induction files generalizing f n k with
  | nil => cases hk
  | cons file' files ih =>
    cases k with
    | zero =>
      rw [List.getElem?_cons_zero] at hk
      have hlt : n + 0 < n + 1 := Nat.lt_succ_self n
      rw [added, added_other (by omega) (.inl hlt), Nat.add_zero, Function.update_self, Option.some.inj hk]
    | succ k =>
      rw [List.getElem?_cons_succ] at hk
      have hadd : n + (k + 1) = n + 1 + k := by omega
      rw [added, hadd, ih (Nat.lt_succ_of_lt hn) hk]

end added

section

variable {f : Nat → List Byte} {size : Nat → Nat} {s t : State}

theorem wp_iappends (h : Made f (fun i => (f i).length) s) (h0 : 0 < i) (hi : i < s.freeinode) (hlt : i < NINODES)
    (bufs : List (List Byte)) : Wp (iappends i bufs) AnyError (fun _ t => t.freeinode = s.freeinode ∧
      Made (Function.update f i (f i ++ bufs.flatten)) (fun j => (Function.update f i (f i ++ bufs.flatten) j).length) t) s := by
  induction bufs generalizing f s with
  | nil =>
    apply wp_pure.2
    rw [List.flatten_nil, List.append_nil, Function.update_eq_self]
    exact ⟨rfl, h⟩
  | cons buf bufs ih =>
    apply (wp_iappend h h0 hi hlt).bind
    intro _ s₁ hs
    have hrest := ih hs.2 (by rw [hs.1]; exact hi)
    rw [Function.update_self, Function.update_idem, List.append_assoc, ← List.flatten_cons, hs.1] at hrest
    exact hrest

/-- A file is added to the root. -/
theorem wp_addFile (h : Made f (fun i => (f i).length) s) (hn : ROOTINO < s.freeinode) (hlt : s.freeinode < NINODES)
    (file : Input) : Wp (addFile ROOTINO file) AnyError (fun _ t => t.freeinode = s.freeinode + 1 ∧
      Made (added f s.freeinode [file]) (fun i => (added f s.freeinode [file] i).length) t) s := by
  rw [addFile]
  apply Wp.ite
  · exact fun _ => trivial
  · intro _
    cases hr : file.reads with
    | none => trivial
    | some bufs =>
      have htype : T_FILE = typeOf (s.freeinode + 1) s.freeinode := by
        rw [ROOTINO] at hn
        rw [typeOf, if_neg (by omega), if_neg (by rw [ROOTINO]; omega)]
      apply (wp_ialloc T_FILE h (Nat.lt_of_le_of_lt (Nat.zero_le _) hn) hlt htype).bind
      intro inum s₁ hs₁
      obtain ⟨hinum, hfree, hmade⟩ := hs₁
      rw [hinum]
      apply (wp_iappend hmade (i := ROOTINO) (by decide) (by rw [hfree]; exact Nat.lt_succ_of_lt hn) (by decide)).bind
      intro _ s₂ hs₂
      have hrest := wp_iappends hs₂.2 (i := s.freeinode) (Nat.lt_of_le_of_lt (Nat.zero_le _) hn)
        (by rw [hs₂.1, hfree]; exact Nat.lt_succ_self _) hlt bufs
      have hnil : f s.freeinode = [] := h.free _ (if_pos (.inr (Nat.le_refl _)))
      rw [Function.update_of_ne (Nat.ne_of_gt hn), hnil, List.nil_append, hs₂.1, hfree] at hrest
      have hbytes : file.bytes = bufs.flatten := by
        rw [Input.bytes, hr]
        rfl
      rw [← hbytes] at hrest
      exact hrest

theorem added_cons (f : Nat → List Byte) (n : Nat) (file : Input) (files : List Input) :
    added f n (file :: files) = added (added f n [file]) (n + 1) files := rfl

theorem wp_addFiles (files : List Input) (h : Made f (fun i => (f i).length) s) (hn : ROOTINO < s.freeinode)
    (hlt : s.freeinode + files.length ≤ NINODES) : Wp (addFiles ROOTINO files) AnyError
      (fun _ t => t.freeinode = s.freeinode + files.length ∧
        Made (added f s.freeinode files) (fun i => (added f s.freeinode files i).length) t) s := by
  induction files generalizing f s with
  | nil => exact wp_pure.2 ⟨rfl, h⟩
  | cons file files ih =>
    rw [List.length_cons] at hlt
    apply (wp_addFile h hn (by omega) file).bind
    intro _ s₁ hs
    have hrest := ih hs.2 (by rw [hs.1]; exact Nat.lt_succ_of_lt hn) (by rw [hs.1]; omega)
    rw [hs.1, ← added_cons] at hrest
    apply hrest.mono
    intro _ t ht
    refine ⟨?_, ht.2⟩
    rw [ht.1, List.length_cons]
    omega

/-- The sectors of zeroes. -/
theorem zeroSects_ok (hd : s.disk = fun _ => Block.zero) (hs : s.sectors = k) :
    zeroSects (List.range' k n) s = .ok (⟨⟩, { s with sectors := k + n }) := by
  induction n generalizing s k with
  | zero =>
    rw [Nat.add_zero, ← hs]
    rfl
  | succ n ih =>
    have hdisk : (s.write k Block.zero).disk = fun _ => Block.zero := by
      change Function.update s.disk k Block.zero = _
      rw [hd]
      exact Function.update_eq_self k (fun _ => Block.zero)
    have hsectors : (s.write k Block.zero).sectors = k + 1 := by
      change max s.sectors (k + 1) = k + 1
      rw [hs]
      exact Nat.max_eq_right (Nat.le_succ k)
    have hrest := ih hdisk hsectors
    have hwrite : { s.write k Block.zero with sectors := k + 1 + n } = { s with sectors := k + (n + 1) } := by
      rw [Nat.add_right_comm, ← Nat.add_assoc, State.write]
      change State.mk (s.write k Block.zero).disk _ _ _ = _
      rw [hdisk, hd]
    rw [hwrite] at hrest
    exact hrest

theorem bind_of_ok {x : Sys α} {g : α → Sys β} (h : x s = .ok (a, t)) : (x >>= g) s = g a t := by
  simp only [bind, StateT.bind, h, Except.bind]

/-- `main` writes the sectors of zeroes first. -/
theorem main_start (files : List Input) : main files start = build files ⟨fun _ => Block.zero, FSSIZE, 1, nmeta⟩ := by
  have hzero := zeroSects_ok (s := { start with freeblock := nmeta }) (k := 0) (n := FSSIZE) rfl rfl
  rw [← List.range_eq_range', Nat.zero_add] at hzero
  have hfirst : (modify fun s => { s with freeblock := nmeta } : Sys PUnit) start =
      .ok (⟨⟩, { start with freeblock := nmeta }) := rfl
  rw [main, bind_of_ok hfirst, bind_of_ok hzero]
  rfl

/-- The image before the first inode. -/
theorem made_blank (hd : ∀ b, b ≠ 1 → s.disk b = Block.zero) (hsuper : s.disk 1 = sbBlock) (hsectors : s.sectors = FSSIZE)
    (hinode : s.freeinode = 1) (hfree : s.freeblock = nmeta) : Made (fun _ => []) (fun _ => 0) s := by
  have hdin (i : Nat) : dinodes s.disk i = Block.zero := by
    rw [dinodes]
    by_cases hi : i < NINODES
    · have hblock := inode_block hi
      rw [if_pos hi, hd _ (by omega)]
      funext o
      rw [Block.sub]
      exact ite_self _
    · rw [if_neg hi]
  have haddr (i k : Nat) : addr (dinodes s.disk) s.disk i k = 0 := by
    rw [addr, hdin]
    by_cases hk : k ≤ NDIRECT
    · rw [if_pos hk]
      rfl
    · rw [if_neg hk, if_pos (.inl rfl)]
  have htype (i : Nat) : typeOf s.freeinode i = 0 := if_pos (by omega)
  refine ⟨⟨⟨hsectors, Nat.le_of_eq hfree.symm, ?_, ?_, ?_⟩, ?_, ?_, ?_⟩, ?_, ?_, ?_, ?_, hsuper, hd 2 (by decide)⟩
  · rw [hfree]
    decide
  · constructor
    · exact fun hn => absurd (haddr _ _) hn
    · exact fun hn => absurd (haddr _ _) hn
    · exact fun hn => absurd (haddr _ _) hn
    · exact fun hn => absurd (haddr _ _) hn
    · intro b _ hb
      rw [← hfree]
      exact .inl (of_decide_eq_true hb)
    · intro b hb
      apply decide_eq_true
      rw [hfree]
      exact hb
  · intro b hb
    apply hd
    rw [hfree, nmeta_eq] at hb
    omega
  · intro i bn
    exact iff_of_false (fun hn => hn (haddr _ _)) (Nat.not_lt_zero _)
  · intro i
    exact iff_of_false (fun hn => hn (haddr _ _)) (Nat.not_lt_zero _)
  · intro i bn o hlt
    exact absurd hlt (Nat.not_lt_zero _)
  · intro i
    rw [hdin]
    rfl
  · intro i
    rw [hdin, htype]
    rfl
  · intro i
    rw [hdin, if_pos (htype i)]
    rfl
  · exact fun _ _ => rfl

/-- The bitmap is written. -/
theorem Made.bitmap (h : Made f size s) (buf : Block) : Made f size (s.write sb.bmapstart buf) := by
  have hrest (b : Nat) (hb : b ≠ 45) : (s.write sb.bmapstart buf).disk b = s.disk b := write_other s buf hb
  have hdin : dinodes (s.write sb.bmapstart buf).disk = dinodes s.disk := dinodes_congr fun b _ hb => hrest b (Nat.ne_of_lt hb)
  refine ⟨?_, ?_, ?_, ?_, h.free, ?_, ?_⟩
  · rw [hdin]
    apply h.toHolds.congr (fun _ _ _ => rfl)
    · intro b hb
      rw [nmeta_eq] at hb
      exact hrest b (by omega)
    · change max s.sectors (45 + 1) = FSSIZE
      rw [h.sectors]
      rfl
    · rfl
  · rw [hdin]
    exact h.size
  · rw [hdin]
    exact h.type
  · rw [hdin]
    exact h.nlink
  · rw [hrest 1 (by decide), h.super]
  · rw [hrest 2 (by decide), h.log]

/-- The files of the image. -/
def rootFiles (files : List Input) : Nat → List Byte :=
  added (Function.update (fun _ => []) ROOTINO (dirent ROOTINO (fun i => [46].getD i 0) ++ dirent ROOTINO fun i => [46, 46].getD i 0)) 2 files

/-- The sizes, of which that of the root has been rounded up. -/
def sizes (f : Nat → List Byte) : Nat → Nat :=
  Function.update (fun i => (f i).length) ROOTINO (((f ROOTINO).length / BSIZE + 1) * BSIZE)

theorem wp_build (files : List Input) (hn : files.length + 2 ≤ NINODES) (hdisk : s.disk = fun _ => Block.zero)
    (hsectors : s.sectors = FSSIZE) (hinode : s.freeinode = 1) (hfree : s.freeblock = nmeta) : Wp (build files) AnyError
      (fun _ t => t.freeinode = files.length + 2 ∧ Made (rootFiles files) (sizes (rootFiles files)) t ∧
        t.disk sb.bmapstart = setBits Block.zero t.freeblock) s := by
  rw [build]
  rw [wp_bind, wp_wsect]
  have hblank : Made (fun _ => []) (fun _ => 0) (s.write 1 sbBlock) := by
    apply made_blank
    · intro b hb
      rw [write_other _ _ hb, hdisk]
    · exact write_self ..
    · change max s.sectors 2 = FSSIZE
      rw [hsectors]
      rfl
    · exact hinode
    · exact hfree
  have hone : (s.write 1 sbBlock).freeinode = 1 := hinode
  apply (wp_ialloc T_DIR hblank (by rw [hone]; decide) (by rw [hone]; decide) (by rw [hone]; rfl)).bind
  intro root s₂ hs₂
  obtain ⟨hroot, hfree₂, hmade₂⟩ := hs₂
  rw [hone] at hroot hfree₂
  rw [hroot]
  apply Wp.ite
  · exact fun hne => absurd rfl hne
  · intro _
    have hroot0 : 0 < ROOTINO := by decide
    have hrootn : ROOTINO < NINODES := by decide
    apply (wp_iappend hmade₂ hroot0 (by rw [hfree₂]; decide) hrootn).bind
    intro _ s₃ hs₃
    apply (wp_iappend hs₃.2 hroot0 (by rw [hs₃.1, hfree₂]; decide) hrootn).bind
    intro _ s₄ hs₄
    have hfree₄ : s₄.freeinode = 2 := by rw [hs₄.1, hs₃.1, hfree₂]
    have hmade₄ := hs₄.2
    rw [Function.update_self, Function.update_idem, List.nil_append] at hmade₄
    apply (wp_addFiles files hmade₄ (by rw [hfree₄]; decide) (by rw [hfree₄]; omega)).bind
    intro _ s₅ hs₅
    rw [hfree₄] at hs₅
    obtain ⟨hfree₅, hmade₅⟩ := hs₅
    change Made (rootFiles files) (fun i => (rootFiles files i).length) s₅ at hmade₅
    rw [wp_bind]
    apply wp_rinode hrootn
    rw [wp_bind]
    apply wp_winode
    have hround : Made (rootFiles files) (sizes (rootFiles files)) (s₅.write (IBLOCK ROOTINO sb)
        ((s₅.disk (IBLOCK ROOTINO sb)).write (dinodeSize * (ROOTINO % IPB)) ((setSize (dinodes s₅.disk ROOTINO)
          ((dinSize (dinodes s₅.disk ROOTINO) / BSIZE + 1) * BSIZE)).read 0 dinodeSize))) := by
      have hlen := hmade₅.size ROOTINO
      have hsmall := hmade₅.toHolds.small ROOTINO
      have hlt : ((rootFiles files ROOTINO).length / BSIZE + 1) * BSIZE < 2 ^ 32 := by
        rw [BSIZE, MAXFILE, NDIRECT, NINDIRECT] at *
        omega
      have hhead (o : Nat) (ho : o < 8) (v : Nat) : setSize (dinodes s₅.disk ROOTINO) v o = dinodes s₅.disk ROOTINO o := by
        rw [setSize, Block.setUint, if_neg (by omega)]
      rw [hlen]
      apply Made.winode hmade₅.toHolds hrootn
      · exact fun _ _ => rfl
      · intro k _
        rw [dinAddr, setSize, Block.uint_setUint _ _ _ hlt, if_neg (by omega)]
        rfl
      · intro j
        by_cases hj : j = ROOTINO
        · rw [if_pos hj, hj, dinSize, setSize, Block.uint_setUint _ _ _ hlt, if_pos rfl, sizes, Function.update_self]
        · rw [if_neg hj, sizes, Function.update_of_ne hj]
          exact hmade₅.size j
      · intro j
        rw [← hmade₅.type j]
        by_cases hj : j = ROOTINO
        · rw [if_pos hj, hj]
          exact Block.ushort_congr fun o ho => hhead o (by omega) _
        · rw [if_neg hj]
      · intro j
        rw [← hmade₅.nlink j]
        by_cases hj : j = ROOTINO
        · rw [if_pos hj, hj]
          exact Block.ushort_congr fun o ho => hhead o (by omega) _
        · rw [if_neg hj]
      · exact hmade₅.free
      · exact hmade₅.super
      · exact hmade₅.log
    rw [wp_bind, wp_get, balloc]
    apply Wp.ite
    · exact fun _ => trivial
    · intro _
      rw [wp_wsect]
      refine ⟨?_, hround.bitmap _, write_self ..⟩
      change s₅.freeinode = _
      omega

end

end PbsCow.Mkfs
