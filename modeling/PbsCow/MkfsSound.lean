import PbsCow.MkfsImage

namespace PbsCow.Mkfs
open Blocks (BSIZE NDIRECT NINDIRECT MAXFILE slotOf IBLOCK BBLOCK dirent chars dirSlots slot bitOf dinodeAt readsb fsinit)
open Files (IPB BPB ROOTINO DIRSIZ direntSize)
set_option autoImplicit true

theorem getLsbD_bit (hr : r < 8) (q : Nat) : ((1 : Byte) <<< r).getLsbD q = decide (r = q) := by
  change ((1#8) <<< r).getLsbD q = _
  rw [← BitVec.twoPow_eq, BitVec.getLsbD_twoPow, decide_eq_true hr, Bool.true_and]

theorem getLsbD_setBits (used b : Nat) : (setBits Block.zero used (b / 8)).getLsbD (b % 8) = decide (b < used) := by
  induction used with
  | zero => exact BitVec.getLsbD_zero
  | succ i ih =>
    have hsucc : decide (b < i + 1) = (decide (b < i) || decide (i = b)) := by
      rw [← Bool.decide_or]
      exact decide_eq_decide.2 (by omega)
    rw [setBits, hsucc, ← ih]
    by_cases hbyte : b / 8 = i / 8
    · rw [hbyte, Function.update_self, BitVec.getLsbD_or, getLsbD_bit (Nat.mod_lt _ (by decide))]
      congr 1
      exact decide_eq_decide.2 (by omega)
    · rw [Function.update_of_ne hbyte, decide_eq_false (by omega : i ≠ b), Bool.or_false]

theorem bitOf_eq (sb : Blocks.Superblock) (disk : Nat → Block) (b : Nat) :
    bitOf sb disk b = (disk (BBLOCK b sb) (b % BPB / 8)).getLsbD (b % BPB % 8) := by
  have hr : b % BPB % 8 < 8 := Nat.mod_lt _ (by decide)
  change (disk (BBLOCK b sb) (b % BPB / 8) &&& (1#8) <<< (b % BPB % 8) != 0) = _
  rw [← BitVec.twoPow_eq, BitVec.and_twoPow]
  cases h : (disk (BBLOCK b sb) (b % BPB / 8)).getLsbD (b % BPB % 8) with
  | false => rfl
  | true =>
    rw [if_pos rfl, bne_iff_ne]
    intro h0
    have hbit := congrArg (fun x => x.getLsbD (b % BPB % 8)) h0
    simp [hr] at hbit

/-- What the kernel makes of an image that `mkfs` has built. -/
def image (disk : Nat → Block) : Blocks.State where
  sb := sb
  data := disk
  buf _ := none
  bitmap := bitOf sb disk
  dinode i := if i < NINODES then dinodeAt sb disk i else Blocks.Dinode.empty
  inode _ := ⟨0, false, Blocks.Dinode.empty⟩
  logged := []
  room := 29
  ended := []

section

variable {f : Nat → List Byte} {size : Nat → Nat} {s t : State}

theorem fsinit_made (h : Made f size t) : fsinit t.disk = some (image t.disk) := by
  have hmagic : (t.disk 1).uint 0 = FSMAGIC := by
    rw [h.super]
    rfl
  have hsb : readsb (t.disk 1) = sb := by
    rw [h.super]
    rfl
  have hroom : min LOGSIZE ((t.disk 1).uint 4 - 1) = 29 := by
    rw [h.super]
    rfl
  rw [fsinit, hmagic, hsb, hroom, if_neg (not_not.2 rfl)]
  rfl

theorem cur_image (disk : Nat → Block) (i : Nat) : ((image disk).cur i).type = BitVec.ofNat 16 (dinType (dinodes disk i)) ∧
    ((image disk).cur i).nlink = BitVec.ofNat 16 (dinNlink (dinodes disk i)) ∧
    ((image disk).cur i).size = dinSize (dinodes disk i) ∧
    ∀ k, k ≤ NDIRECT → ((image disk).cur i).addrs k = dinAddr (dinodes disk i) k := by
  have hcur : (image disk).cur i = if i < NINODES then dinodeAt sb disk i else Blocks.Dinode.empty := rfl
  rw [hcur, dinodes]
  by_cases hi : i < NINODES
  · rw [if_pos hi, if_pos hi]
    exact ⟨rfl, rfl, rfl, fun k hk => if_pos hk⟩
  · rw [if_neg hi, if_neg hi]
    exact ⟨rfl, rfl, rfl, fun _ _ => rfl⟩

theorem slot_cases (k : Nat) : k = NDIRECT ∨ ∃ bn, k = slotOf bn := by
  rcases Nat.lt_trichotomy k NDIRECT with h | h | h
  · exact .inr ⟨k, (slotOf_direct h).symm⟩
  · exact .inl h
  · refine .inr ⟨k - 1, ?_⟩
    rw [slotOf_indirect (by omega)]
    omega

theorem typeOf_lt (n i : Nat) : typeOf n i < 3 := by
  rw [typeOf]
  split
  · decide
  · split <;> decide

theorem Made.type_eq_zero (h : Made f size t) (i : Nat) : ((image t.disk).cur i).type = 0 ↔ typeOf t.freeinode i = 0 := by
  rw [(cur_image t.disk i).1, h.type i]
  have hlt := typeOf_lt t.freeinode i
  constructor
  · intro h0
    have hnat := congrArg BitVec.toNat h0
    rw [BitVec.toNat_ofNat, Nat.mod_eq_of_lt (by omega)] at hnat
    exact hnat
  · intro h0
    rw [h0]
    rfl

/-- The kernel finds the blocks that `mkfs` has named. -/
theorem Made.addr (h : Made f size t) (i k : Nat) : (image t.disk).addr i k = Mkfs.addr (dinodes t.disk) t.disk i k := by
  obtain ⟨-, -, -, haddrs⟩ := cur_image t.disk i
  rw [Blocks.State.addr]
  by_cases h0 : ((image t.disk).cur i).type = 0
  · have hnil := h.free i ((h.type_eq_zero i).1 h0)
    rw [if_pos h0]
    symm
    by_contra hn
    rcases slot_cases k with hk | ⟨bn, hk⟩
    · rw [hk] at hn
      have hlt := (h.indirect i).1 hn
      rw [hnil] at hlt
      exact Nat.not_lt_zero _ hlt
    · rw [hk] at hn
      have hlt := (h.slots i bn).1 hn
      rw [hnil] at hlt
      exact Nat.not_lt_zero _ hlt
  · rw [if_neg h0, Mkfs.addr, haddrs NDIRECT (Nat.le_refl _)]
    by_cases hk : k ≤ NDIRECT
    · rw [if_pos hk, if_pos hk, haddrs k hk]
    · rw [if_neg hk, if_neg hk]
      rfl

/-- The bytes of a file, with zeroes up to its size. -/
theorem Made.content (h : Made f size t) (i : Nat) :
    (image t.disk).content i = (List.range (size i)).map fun x => (f i).getD x 0 := by
  rw [Blocks.State.content, (cur_image t.disk i).2.2.1, h.size i]
  apply List.map_congr_left
  intro x _
  have hx : x / BSIZE * BSIZE + x % BSIZE = x := by
    rw [Nat.mul_comm]
    exact Nat.div_add_mod x BSIZE
  have hmod : x % BSIZE < BSIZE := Nat.mod_lt _ (by decide)
  rw [Blocks.State.byteAt, Blocks.State.block, h.addr]
  by_cases h0 : Mkfs.addr (dinodes t.disk) t.disk i (slotOf (x / BSIZE)) = 0
  · rw [if_pos h0]
    have hend : ¬ x / BSIZE * BSIZE < (f i).length := fun hlt => (h.slots i _).2 hlt h0
    rw [List.getD_eq_default _ _ (by omega)]
    rfl
  · rw [if_neg h0]
    have hbytes := h.bytes i (x / BSIZE) (x % BSIZE) ((h.slots i _).1 h0) hmod
    rw [hx] at hbytes
    exact hbytes

theorem range_getD (bs : List Byte) : ((List.range bs.length).map fun x => bs.getD x 0) = bs := by
  apply List.ext_getElem
  · rw [List.length_map, List.length_range]
  · intro x _ hx
    rw [List.getElem_map, List.getElem_range, List.getD_eq_getElem _ _ hx]

theorem range_getD_add (bs : List Byte) (m : Nat) :
    ((List.range (bs.length + m)).map fun x => bs.getD x 0) = bs ++ List.replicate m 0 := by
  rw [List.range_add, List.map_append, range_getD, List.map_map]
  congr 1
  apply List.eq_replicate_iff.2
  constructor
  · rw [List.length_map, List.length_range]
  · intro b hb
    obtain ⟨x, -, rfl⟩ := List.mem_map.1 hb
    exact List.getD_eq_default _ _ (Nat.le_add_right ..)

/-- The name that an input file gets in the root. -/
def Input.name (file : Input) : List Byte := chars (fun i => file.shortname.getD i 0) DIRSIZ

theorem length_dirent (inum : Nat) (name : Nat → Byte) : (dirent inum name).length = direntSize := by
  rw [dirent, List.length_cons, List.length_cons, Blocks.length_strncpy]
  rfl

theorem length_entries (n : Nat) (files : List Input) : (entries n files).length = direntSize * files.length := by
  induction files generalizing n with
  | nil => rfl
  | cons file files ih => rw [entries, List.length_append, ih, length_dirent, List.length_cons, Nat.mul_succ, Nat.add_comm]

theorem dirSlots_zeroes (m : Nat) : dirSlots (List.replicate (direntSize * m) 0) = List.replicate m none := by
  induction m with
  | zero => rfl
  | succ m ih =>
    rw [Nat.mul_succ, Nat.add_comm, ← List.replicate_append_replicate, Blocks.dirSlots_append (by rw [List.length_replicate]; rfl), ih,
      Blocks.dirSlots_entry List.length_replicate, Blocks.slot_zeros]
    rfl

theorem dirSlots_cons (h0 : inum ≠ 0) (hlt : inum < 2 ^ 16) (name : Nat → Byte) (bs : List Byte) :
    dirSlots (dirent inum name ++ bs) = some (chars name DIRSIZ, inum) :: dirSlots bs := by
  rw [Blocks.dirSlots_append (by rw [length_dirent]; rfl), Blocks.dirSlots_entry (length_dirent inum name),
    Blocks.slot_dirent hlt h0]
  rfl

theorem dirSlots_entries (files : List Input) (h0 : 0 < n) (hlt : n + files.length ≤ NINODES) (bs : List Byte) :
    dirSlots (entries n files ++ bs) = (files.zipIdx n).map (fun x => some (x.1.name, x.2)) ++ dirSlots bs := by
  induction files generalizing n with
  | nil => rfl
  | cons file files ih =>
    rw [List.length_cons] at hlt
    rw [entries, List.append_assoc, dirSlots_cons (Nat.ne_of_gt h0) (by rw [NINODES] at hlt; omega),
      ih (Nat.succ_pos n) (by omega), List.zipIdx_cons, List.map_cons]
    rfl

theorem rootFiles_root (files : List Input) : rootFiles files ROOTINO =
    dirent ROOTINO (fun i => [46].getD i 0) ++ ((dirent ROOTINO fun i => [46, 46].getD i 0) ++ entries 2 files) := by
  rw [rootFiles, added_root (by decide), Function.update_self, List.append_assoc]

theorem length_root (files : List Input) : (rootFiles files ROOTINO).length = direntSize * (files.length + 2) := by
  rw [rootFiles_root, List.length_append, List.length_append, length_dirent, length_dirent, length_entries, Nat.mul_add]
  omega

/-- The entries of the root, the last of which are empty. -/
theorem dirSlots_root (files : List Input) (hn : files.length + 2 ≤ NINODES) (m : Nat) :
    dirSlots (rootFiles files ROOTINO ++ List.replicate (direntSize * m) 0) =
      some ([46], ROOTINO) :: some ([46, 46], ROOTINO) ::
        ((files.zipIdx 2).map (fun x => some (x.1.name, x.2)) ++ List.replicate m none) := by
  rw [rootFiles_root, List.append_assoc, List.append_assoc, dirSlots_cons (by decide) (by decide),
    dirSlots_cons (by decide) (by decide), dirSlots_entries files (by decide) (by omega), dirSlots_zeroes]
  rfl

/-- Where the entries fill the last block of the root, its size has been rounded up to a block that it does not have. -/
theorem covers_root (files : List Input) : (∀ bn, bn * BSIZE < sizes (rootFiles files) ROOTINO →
    bn * BSIZE < (rootFiles files ROOTINO).length) ↔ (files.length + 2) % 64 ≠ 0 := by
  rw [sizes, Function.update_self, length_root, direntSize, BSIZE]
  constructor
  · intro h h0
    have hlast := h (16 * (files.length + 2) / 1024) (by omega)
    omega
  · intro h0 bn hbn
    omega

theorem Made.file_none (h : Made f size t) (hi : typeOf t.freeinode i = 0) : (image t.disk).file i = none :=
  if_pos ((h.type_eq_zero i).2 hi)

theorem Made.file (h : Made f size t) (hi : typeOf t.freeinode i ≠ 0) : (image t.disk).file i =
    some ⟨BitVec.ofNat 16 (typeOf t.freeinode i), 1, (List.range (size i)).map fun x => (f i).getD x 0⟩ := by
  obtain ⟨htype, hnlink, -, -⟩ := cur_image t.disk i
  rw [h.type i] at htype
  rw [h.nlink i, if_neg hi] at hnlink
  rw [Blocks.State.file, if_neg fun h0 => hi ((h.type_eq_zero i).1 h0), htype, hnlink, h.content]
  rfl

/-- The kernel's invariant of the blocks, but for the sizes. -/
theorem Made.sound (h : Made f size t) (hbits : t.disk sb.bmapstart = setBits Block.zero t.freeblock) :
    (∀ b, b < FSSIZE → ((image t.disk).bitmap b = true ↔ (image t.disk).Referenced b ∨ b < nmeta)) ∧
    (Blocks.Sound (image t.disk) ↔ ∀ i bn, typeOf t.freeinode i ≠ 0 → bn * BSIZE < size i → bn * BSIZE < (f i).length) := by
  have hmark (b : Nat) (hb : b < FSSIZE) : (image t.disk).bitmap b = decide (b < t.freeblock) := by
    have hblock : BBLOCK b sb = sb.bmapstart := by
      rw [BBLOCK, Nat.div_eq_of_lt (Nat.lt_trans hb (by decide)), Nat.zero_add]
    change bitOf sb t.disk b = _
    rw [bitOf_eq, hblock, Nat.mod_eq_of_lt (Nat.lt_trans hb (by decide)), hbits]
    exact getLsbD_setBits t.freeblock b
  have hlt {i k : Nat} (hne : (image t.disk).addr i k ≠ 0) : (image t.disk).addr i k < t.freeblock := by
    rw [h.addr] at hne ⊢
    exact h.toHolds.lt hne
  have hupper := h.toHolds.upper
  constructor
  · intro b hb
    rw [hmark b hb]
    apply (h.toHolds.allots.iff hb).trans
    constructor
    · intro hk
      rcases hk with hk | ⟨a, he, hne⟩
      · exact .inr hk
      · refine .inl ⟨a.1, a.2, ?_, ?_⟩
        · rw [h.addr]
          exact he
        · rwa [← he]
    · intro hk
      rcases hk with ⟨i, k, he, hne⟩ | hk
      · rw [h.addr] at he
        exact .inr ⟨(i, k), he, by rwa [he]⟩
      · exact .inl hk
  · have hcovers (i bn : Nat) (ht : typeOf t.freeinode i ≠ 0) :
        (bn < (((image t.disk).cur i).size + (BSIZE - 1)) / BSIZE → (image t.disk).addr i (slotOf bn) ≠ 0) ↔
          (bn * BSIZE < size i → bn * BSIZE < (f i).length) := by
      rw [Blocks.blocks_lt, (cur_image t.disk i).2.2.1, h.size i, h.addr, h.slots]
    constructor
    · intro hs i bn ht
      exact (hcovers i bn ht).1 (hs.covers i bn fun h0 => ht ((h.type_eq_zero i).1 h0))
    · intro hc
      constructor
      · intro i k i' k' hne he
        rw [h.addr] at hne he
        rw [h.addr] at he
        exact h.toHolds.inj hne he
      · intro i k hne
        have hup := hlt hne
        rw [h.addr] at hne
        refine ⟨?_, Nat.lt_of_lt_of_le hup hupper⟩
        rw [h.addr]
        exact h.toHolds.le hne
      · intro i k hne
        rw [hmark _ (Nat.lt_of_lt_of_le (hlt hne) hupper)]
        exact decide_eq_true (hlt hne)
      · intro b hb
        have hb' : b < nmeta := hb
        have hlower := h.toHolds.lower
        rw [hmark b (Nat.lt_trans hb' (by decide))]
        exact decide_eq_true (Nat.lt_of_lt_of_le hb' hlower)
      · intro i bn ht
        have ht' : typeOf t.freeinode i ≠ 0 := fun h0 => ht ((h.type_eq_zero i).2 h0)
        exact (hcovers i bn ht').2 (hc i bn ht')

/-- Every list of input files with which `mkfs` exits with status 0 makes an image that the kernel accepts, if there
are inodes for them all: the log is empty, the blocks of the inodes are distinct and are those that are marked, the
root names the files, and the files have their bytes. The blocks cover the sizes unless the entries of the root fill its
last block. -/
theorem image_sound (files : List Input) (hn : files.length + 2 ≤ NINODES) (h : main files start = .ok (⟨⟩, t)) :
    ∃ s, fsinit t.disk = some s ∧ s.sb = sb ∧ (t.disk 2).uint 0 = 0 ∧ Blocks.Quiescent s ∧ s.Tidy ∧
      (∃ bytes m, s.file ROOTINO = some ⟨1, 1, bytes⟩ ∧ dirSlots bytes = some ([46], ROOTINO) :: some ([46, 46], ROOTINO) ::
        ((files.zipIdx 2).map (fun x => some (x.1.name, x.2)) ++ List.replicate m none)) ∧
      (∀ k file, files[k]? = some file → s.file (k + 2) = some ⟨2, 1, file.bytes⟩) ∧
      (∀ i, i = 0 ∨ files.length + 2 ≤ i → s.file i = none) ∧
      (∀ b, b < FSSIZE → (s.bitmap b = true ↔ s.Referenced b ∨ b < nmeta)) ∧
      (Blocks.Sound s ↔ (files.length + 2) % 64 ≠ 0) := by
  rw [main_start] at h
  obtain ⟨hfree, hmade, hbits⟩ := (wp_build files hn rfl rfl rfl rfl).of_eq_ok h
  refine ⟨image t.disk, fsinit_made hmade, rfl, ?_, ?_, fun _ => rfl, ?_, ?_, ?_, ?_, ?_⟩
  · rw [hmade.log, Block.uint_zero]
  · refine ⟨(by decide : FSSIZE < 2 ^ 31), ?_, fun _ _ => rfl⟩
    intro i hv
    cases hv
  · have hroot : typeOf t.freeinode ROOTINO = 1 := by
      rw [hfree, typeOf, if_neg (by rw [ROOTINO]; omega), if_pos rfl]
      rfl
    obtain ⟨m, hm⟩ : ∃ m, sizes (rootFiles files) ROOTINO = (rootFiles files ROOTINO).length + direntSize * m := by
      refine ⟨(sizes (rootFiles files) ROOTINO - (rootFiles files ROOTINO).length) / direntSize, ?_⟩
      rw [sizes, Function.update_self, length_root, direntSize, BSIZE]
      omega
    have hfile := hmade.file (i := ROOTINO) (by rw [hroot]; decide)
    rw [hroot] at hfile
    refine ⟨_, m, hfile, ?_⟩
    rw [hm, range_getD_add]
    exact dirSlots_root files hn m
  · intro k file hk
    have hlt : k < files.length := (List.getElem?_eq_some_iff.1 hk).1
    have htype : typeOf t.freeinode (k + 2) = 2 := by
      rw [hfree, typeOf, if_neg (by omega), if_neg (by rw [ROOTINO]; omega)]
      rfl
    rw [hmade.file (by rw [htype]; decide), htype]
    have hbytes : rootFiles files (k + 2) = file.bytes := by
      rw [Nat.add_comm]
      exact added_file (by decide) hk
    have hsize : sizes (rootFiles files) (k + 2) = file.bytes.length := by
      rw [sizes, Function.update_of_ne (by rw [ROOTINO]; omega), hbytes]
    rw [hsize, hbytes, range_getD]
    rfl
  · intro i hi
    apply hmade.file_none
    rw [hfree]
    exact if_pos hi
  · exact (hmade.sound hbits).1
  · rw [(hmade.sound hbits).2, ← covers_root files]
    constructor
    · intro hall bn
      apply hall ROOTINO bn
      rw [hfree, typeOf, if_neg (by rw [ROOTINO]; omega), if_pos rfl]
      decide
    · intro hroot i bn _
      by_cases hi : i = ROOTINO
      · rw [hi]
        exact hroot bn
      · rw [sizes, Function.update_of_ne hi]
        exact id

/-- A file `_ls`, which is read in two pieces. -/
theorem image_sound_ls : ∃ t s, main [⟨[95, 108, 115], some [[127, 69, 76, 70], [1, 2]]⟩] start = .ok (⟨⟩, t) ∧
    fsinit t.disk = some s ∧ s.file 2 = some ⟨2, 1, [127, 69, 76, 70, 1, 2]⟩ ∧ Blocks.Sound s := by
  have hok : (build [⟨[95, 108, 115], some [[127, 69, 76, 70], [1, 2]]⟩]
      ⟨fun _ => Block.zero, FSSIZE, 1, nmeta⟩).isOk = true := by decide +kernel
  rw [← main_start] at hok
  cases h : main [⟨[95, 108, 115], some [[127, 69, 76, 70], [1, 2]]⟩] start with
  | error e =>
    rw [h] at hok
    cases hok
  | ok r =>
    obtain ⟨s, hs, -, -, -, -, -, hfiles, -, -, hsound⟩ := image_sound [⟨[95, 108, 115], some [[127, 69, 76, 70], [1, 2]]⟩]
      (by decide) h
    exact ⟨r.2, s, rfl, hs, hfiles 0 _ rfl, hsound.2 (by decide)⟩

end

end PbsCow.Mkfs
