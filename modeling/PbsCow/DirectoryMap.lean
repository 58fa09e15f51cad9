import PbsCow.DirectoryCalls

namespace PbsCow.Blocks
open Files (DIRSIZ T_DIR direntSize direntInum direntName)
set_option autoImplicit true

/-- The inode numbers that a directory has for names. -/
def Contents.names (v : Contents) (key : List Byte) : Option Nat := SlotTable.find key (dirSlots v.bytes)

/-- There are blocks for a directory to grow by an entry. -/
def State.Extensible (s : State) (dp : Nat) : Prop :=
  (s.cur dp).size + direntSize ≤ MAXFILE * BSIZE ∧ s.missing dp (s.cur dp).size direntSize ≤ s.free

/-- There is a place for one more entry. -/
def State.HasRoom (s : State) (dp : Nat) (v : Contents) : Prop := none ∈ dirSlots v.bytes ∨ s.Extensible dp

variable {sb : Superblock} {kept : Nat → Prop} {s t : State} {dp : Nat} {v : Contents} {E : Stop → Prop}

namespace InDir

variable (h : InDir sb kept dp v s)
include h

theorem accepts (mem : Nat → Byte) (hk : k ≤ v.bytes.length / direntSize) :
    Accepts s dp (.kernel mem) 0 (direntSize * k) direntSize ↔ k < v.bytes.length / direntSize ∨ s.Extensible dp := by
  have hwhole := h.dir.whole
  have hmul : direntSize * (v.bytes.length / direntSize) = v.bytes.length :=
    Nat.mul_div_cancel' (Nat.dvd_of_mod_eq_zero hwhole)
  constructor
  · intro hacc
    by_cases hlt : k < v.bytes.length / direntSize
    · exact .inl hlt
    · obtain rfl : k = v.bytes.length / direntSize := Nat.le_antisymm hk (Nat.le_of_not_lt hlt)
      rw [hmul, ← h.size] at hacc
      exact .inr ⟨(hacc.limits (by decide)).2, hacc.room⟩
  · intro hc
    by_cases hlt : k < v.bytes.length / direntSize
    · have hend : direntSize * k + direntSize ≤ v.bytes.length := by
        rw [← Nat.mul_succ, ← hmul]
        exact Nat.mul_le_mul_left _ hlt
      have hle := h.length_le
      refine ⟨fun _ => ⟨?_, by omega⟩, fun i _ => Option.some_ne_none _, ?_⟩
      · rw [h.size]
        omega
      · have hsub : slots (direntSize * k) direntSize ⊆ s.filled dp := by
          intro j hj
          obtain ⟨bn, hbn, hj⟩ := mem_slots.1 hj
          have hlast := (mem_blocks.1 hbn).2.1
          have hthere : s.addr dp (slotOf bn) ≠ 0 := by
            apply h.covers dp bn h.live
            rw [h.size]
            omega
          rw [mem_filled]
          rcases hj with rfl | ⟨rfl, hind⟩
          · exact hthere
          · exact indirect_of_entry hind hthere
        rw [State.missing, Finset.sdiff_eq_empty_iff_subset.2 hsub]
        exact Nat.zero_le _
    · obtain rfl : k = v.bytes.length / direntSize := Nat.le_antisymm hk (Nat.le_of_not_lt hlt)
      have hext := hc.resolve_left hlt
      rw [hmul, ← h.size]
      exact ⟨fun _ => ⟨Nat.le_refl _, hext.1⟩, fun i _ => Option.some_ne_none _, hext.2⟩

/-- An entry is written whole, or not at all. -/
theorem wp_writeSlot (hk : k ≤ v.bytes.length / direntSize) {de : List Byte}
    {mem : Nat → Byte} (hmem : (List.range direntSize).map mem = de) :
    Wp (writei dp (.kernel mem) 0 (BitVec.ofNat 32 (direntSize * k)) (BitVec.ofNat 32 direntSize)) Refused
      (fun r t => Stands sb kept t ∧ 0 < (t.inode dp).ref ∧ (t.inode dp).valid = true ∧
        (r = direntSize ∧ (k < v.bytes.length / direntSize ∨ s.Extensible dp) ∧
            t.file dp = some { v with bytes := splice v.bytes (direntSize * k) de } ∨
          r ≠ direntSize ∧ ¬(k < v.bytes.length / direntSize ∨ s.Extensible dp) ∧ t.file dp = some v)) s := by
  have hoff := h.toNat_off hk
  have hsize : (BitVec.ofNat 32 direntSize).toNat = direntSize := rfl
  have hlocked : Locked sb kept dp s s := ⟨h.toSynced, h.valid, h.live, rfl⟩
  have hsrc : ∀ i, i < (BitVec.ofNat 32 direntSize).toNat → (Src.kernel mem).byte? (0 + i) ≠ none :=
    fun _ _ => Option.some_ne_none _
  have hout := wp_writei_outcome h.toGood h.valid h.live (.kernel mem) 0 (BitVec.ofNat 32 (direntSize * k))
    (BitVec.ofNat 32 direntSize)
  have htidy := maintains_writei dp 0 (BitVec.ofNat 32 (direntSize * k)) hsrc s h.tidy
  apply (((hlocked.writei hsrc).and htidy).and hout).mono
  intro r t ht
  obtain ⟨⟨⟨hsynced, hstep⟩, htidy⟩, hout⟩ := ht
  refine ⟨⟨hsynced, htidy⟩, ?_, hout.valid.trans h.valid, ?_⟩
  · rw [hout.ref]
    exact h.ref
  · have hiff := hout.complete (by decide)
    rw [hoff, hsize, h.accepts mem hk] at hiff
    have hbytes : (Src.kernel mem).bytes 0 direntSize = de := by
      rw [← hmem, Src.bytes]
      apply List.map_congr_left
      intro i _
      rw [Nat.zero_add]
      rfl
    obtain ⟨f, hf⟩ : ∃ f, f = s.file := ⟨_, rfl⟩
    obtain ⟨g, hg⟩ : ∃ g, g = t.file := ⟨_, rfl⟩
    obtain ⟨c, hc⟩ : ∃ c, c = Result.count r := ⟨_, rfl⟩
    have hfile := h.file
    rw [← hf] at hstep hfile
    rw [← hg, ← hc] at hstep
    rw [← hg]
    cases hstep with
    | refuse _ _ =>
      obtain rfl := Result.count.inj hc
      have hne : ¬(-1 : Int) = direntSize := by decide
      exact .inr ⟨hne, fun hcond => hne (hiff.2 hcond), hfile⟩
    | write m hv _ _ hm =>
      obtain rfl := Result.count.inj hc
      rw [hfile] at hv
      obtain rfl := Option.some.inj hv
      rw [hoff, hsize] at hm
      rw [Function.update_self, hoff]
      by_cases hall : m = direntSize
      · left
        rw [hall] at hiff ⊢
        refine ⟨rfl, hiff.1 rfl, ?_⟩
        rw [hbytes]
      · right
        have hzero : m = 0 := by
          rcases hm with hm | ⟨hlt, hm | hm⟩
          · exact absurd hm hall
          · exact hm
          · rw [direntSize, BSIZE] at *
            omega
        refine ⟨?_, ?_, ?_⟩
        · rwa [ne_eq, Int.natCast_inj]
        · intro hcond
          exact hall (Int.natCast_inj.1 (hiff.2 hcond))
        · rw [hzero]
          congr 1
          exact congrArg (fun b => { v with bytes := b }) (splice_nil v.bytes _)

end InDir

/-- What is left to the slots when one of them is written. -/
theorem Directory.splice (hd : Directory v) (hk : k ≤ v.bytes.length / direntSize) (hde : de.length = direntSize)
    (hslots : SlotTable.Distinct ((dirSlots v.bytes).take k ++ slot de :: (dirSlots v.bytes).drop (k + 1))) :
    Directory { v with bytes := Blocks.splice v.bytes (direntSize * k) de } := by
  refine ⟨hd.type, hd.linked, ?_, ?_⟩
  · have hmul : direntSize * (v.bytes.length / direntSize) = v.bytes.length :=
      Nat.mul_div_cancel' (Nat.dvd_of_mod_eq_zero hd.whole)
    have hle : direntSize * k ≤ v.bytes.length := by
      rw [← hmul]
      exact Nat.mul_le_mul_left _ hk
    rw [Blocks.splice, List.length_append, List.length_append, List.length_take, List.length_drop, hde]
    rw [direntSize] at *
    omega
  · rw [dirSlots_splice hd.whole hk hde]
    exact hslots

/-- What `dirlink` does to the names. -/
inductive Linked (dp : Nat) (key : List Byte) (inum : Nat) (v : Contents) (s : State) : Int → Contents → Prop
  | linked (hnew : v.names key = none) (hroom : s.HasRoom dp v)
      (hnames : v'.names = Function.update v.names key (some inum)) : Linked dp key inum v s 0 v'
  | refused (h : v.names key ≠ none ∨ ¬s.HasRoom dp v) : Linked dp key inum v s (-1) v

theorem InDir.wp_dirlink (h : InDir sb kept dp v s) (name : Nat → Byte) (h₀ : inum ≠ 0) (hi : inum < 2 ^ 16) :
    Wp (dirlink dp name inum) Refused (fun r t => ∃ v', InDir sb kept dp v' t ∧
      Linked dp (chars name DIRSIZ) inum v s r v') s := by
  rw [dirlink]
  apply (h.wp_dirlookup name).bind
  intro r t hr
  cases hr with
  | found pre post i hsplit hpre =>
    apply (h.wp_iput_got i).bind
    intro _ t ht
    refine wp_pure.2 ⟨v, ht, .refused (.inl ?_)⟩
    rw [Contents.names, ne_eq, SlotTable.find_eq_none, hsplit, SlotTable.keys_append, SlotTable.keys_cons_some,
      not_not, List.mem_append]
    exact .inr (List.mem_cons_self ..)
  | absent hkey =>
    rw [wp_bind, wp_get, h.dinode_dp, h.size]
    apply (h.wp_findEmpty (k := 0) (Nat.zero_le _) (Nat.lt_succ_self _) List.not_mem_nil).bind
    intro off t hoff
    obtain ⟨rfl, k, rfl, hk⟩ := hoff
    have hkn : k ≤ v.bytes.length / direntSize := by
      rcases hk with hk | hk
      · exact Nat.le_of_lt hk.1
      · exact Nat.le_of_eq hk.1
    have hroom : k < v.bytes.length / direntSize ∨ t.Extensible dp ↔ t.HasRoom dp v := by
      rcases hk with ⟨hlt, hfree⟩ | ⟨hlast, hfull⟩
      · refine iff_of_true (.inl hlt) (.inl ?_)
        rw [← hfree]
        exact List.mem_of_getElem? (getElem?_dirSlots hlt)
      · rw [State.HasRoom, hlast]
        exact or_congr (iff_of_false (Nat.lt_irrefl _) hfull) Iff.rfl
    -- the slot that is written is free, or there is none
    have hold : dirSlots v.bytes = (dirSlots v.bytes).take k ++ none :: (dirSlots v.bytes).drop (k + 1) ∨
        dirSlots v.bytes = (dirSlots v.bytes).take k ++ (dirSlots v.bytes).drop (k + 1) := by
      rcases hk with ⟨hlt, hfree⟩ | ⟨hlast, -⟩
      · left
        rw [← hfree]
        exact dirSlots_split hlt
      · right
        rw [List.take_of_length_le, List.drop_of_length_le, List.append_nil]
        · rw [length_dirSlots, hlast]
          exact Nat.le_succ _
        · rw [length_dirSlots, hlast]
    obtain ⟨pre, hpre⟩ : ∃ pre, pre = (dirSlots v.bytes).take k := ⟨_, rfl⟩
    obtain ⟨post, hpost⟩ : ∃ post, post = (dirSlots v.bytes).drop (k + 1) := ⟨_, rfl⟩
    rw [← hpre, ← hpost] at hold
    have hkeys : SlotTable.keys (dirSlots v.bytes) = SlotTable.keys pre ++ SlotTable.keys post := by
      rcases hold with hold | hold
      · rw [hold, SlotTable.keys_append]
        rfl
      · rw [hold, SlotTable.keys_append]
    have hfind (j : List Byte) : v.names j = SlotTable.find j (pre ++ post) := by
      rcases hold with hold | hold
      · rw [Contents.names, hold, SlotTable.find_skip]
      · rw [Contents.names, hold]
    have hdistinct : SlotTable.Distinct (pre ++ post) := by
      have hd := h.dir.distinct
      rcases hold with hold | hold
      · rwa [hold, SlotTable.distinct_skip] at hd
      · rwa [hold] at hd
    have hnew : v.names (chars name DIRSIZ) = none := (SlotTable.find_eq_none _).2 hkey
    rw [hkeys, List.mem_append, not_or] at hkey
    have hde := length_dirent inum name
    have hslot := slot_dirent hi h₀ name
    have hmem : ((List.range direntSize).map fun i => (dirent inum name).getD i 0) = dirent inum name := by
      rw [← hde]
      apply List.ext_getElem
      · rw [List.length_map, List.length_range]
      · intro i h₁ h₂
        rw [List.getElem_map, List.getElem_range, List.getD_eq_getElem _ _ h₂]
    apply (h.wp_writeSlot hkn hmem).bind
    intro r t ht
    obtain ⟨hstands, href, hvalid, hres⟩ := ht
    rw [hroom] at hres
    rcases hres with ⟨hr, hroom', hfile⟩ | ⟨hr, hroom', hfile⟩
    · apply Wp.ite_neg (not_not.2 hr)
      have hlinked : SlotTable.Distinct ((dirSlots v.bytes).take k ++ slot (dirent inum name) ::
          (dirSlots v.bytes).drop (k + 1)) := by
        rw [← hpre, ← hpost, hslot]
        exact SlotTable.distinct_insert hdistinct hkey.1 hkey.2 inum
      refine wp_pure.2 ⟨_, ⟨hstands, href, hvalid, hfile, h.dir.splice hkn hde hlinked⟩, .linked hnew hroom' ?_⟩
      funext j
      rw [Contents.names, dirSlots_splice h.dir.whole hkn hde, ← hpre, ← hpost, hslot,
        SlotTable.find_insert hkey.1 hkey.2, Function.update_apply, hfind]
    · apply Wp.ite_pos hr
      exact wp_pure.2 ⟨v, ⟨hstands, href, hvalid, hfile, h.dir⟩, .refused (.inr hroom')⟩

/-- What the entry of a name is cleared for. -/
inductive Unlinked (key : List Byte) (v : Contents) : Option Nat → Contents → Prop
  | unlinked (hold : v.names key = some inum) (hnames : v'.names = Function.update v.names key none) :
      Unlinked key v (some inum) v'
  | absent (h : v.names key = none) : Unlinked key v none v

theorem InDir.wp_unlinkDirent (h : InDir sb kept dp v s) (name : Nat → Byte) :
    Wp (unlinkDirent dp name) Refused (fun r t => ∃ v', InDir sb kept dp v' t ∧
      Unlinked (chars name DIRSIZ) v r v') s := by
  rw [unlinkDirent]
  apply (h.wp_dirlookup name).bind
  intro r t hr
  cases hr with
  | absent hkey => exact wp_pure.2 ⟨v, h, .absent ((SlotTable.find_eq_none _).2 hkey)⟩
  | found pre post i hsplit hpre =>
    have hlt : pre.length < v.bytes.length / direntSize := by
      rw [← length_dirSlots, hsplit, List.length_append, List.length_cons]
      omega
    have hzeros : ((List.range direntSize).map fun _ => (0 : Byte)) = List.replicate direntSize 0 := rfl
    have hde : (List.replicate direntSize (0 : Byte)).length = direntSize := rfl
    have htake : (dirSlots v.bytes).take pre.length = pre := by
      rw [hsplit]
      exact List.take_left' rfl
    have hdrop : (dirSlots v.bytes).drop (pre.length + 1) = post := by
      rw [hsplit, List.drop_append, List.drop_of_length_le (Nat.le_succ _), Nat.add_sub_cancel_left]
      rfl
    have hd := h.dir.distinct
    rw [hsplit] at hd
    apply ((h.got i).wp_writeSlot (Nat.le_of_lt hlt) hzeros).bind
    intro r t ht
    obtain ⟨hstands, href, hvalid, hres⟩ := ht
    rcases hres with ⟨hr, -, hfile⟩ | ⟨-, hfull, -⟩
    · apply Wp.ite_neg (not_not.2 hr)
      have hcleared : SlotTable.Distinct ((dirSlots v.bytes).take pre.length ++
          slot (List.replicate direntSize 0) :: (dirSlots v.bytes).drop (pre.length + 1)) := by
        rw [htake, hdrop, slot_zeros]
        exact SlotTable.distinct_erase hd
      refine wp_pure.2 ⟨_, ⟨hstands, href, hvalid, hfile, h.dir.splice (Nat.le_of_lt hlt) hde hcleared⟩,
        .unlinked ?_ ?_⟩
      · rw [Contents.names, hsplit, SlotTable.find_append, (SlotTable.find_eq_none _).2 hpre, SlotTable.find, if_pos rfl]
        rfl
      · funext j
        rw [Contents.names, dirSlots_splice h.dir.whole (Nat.le_of_lt hlt) hde, htake, hdrop, slot_zeros,
          SlotTable.find_erase hd, Function.update_apply, Contents.names, hsplit]
    · exact absurd (.inl hlt) hfull

end PbsCow.Blocks
