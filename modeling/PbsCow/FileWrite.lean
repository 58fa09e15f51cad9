import Mathlib.Order.Interval.Finset.Nat
import PbsCow.WriteRead

namespace PbsCow.Blocks
set_option autoImplicit true

/-- An open file of an inode. -/
structure File where
  writable : Bool
  ip : Nat
  off : BitVec 32

/-- `max` of `filewrite`. -/
def maxChunk : Nat := (MAXOPBLOCKS - 1 - 1 - 2) / 2 * BSIZE

/-- The loop of `filewrite`, which returns `i` and `f->off`. -/
def filewriteLoop (ip : Nat) (src : Src) (addr n : Nat) : Nat → Nat → BitVec 32 → Fs (Nat × BitVec 32)
  | 0, i, off => return (i, off)
  | fuel + 1, i, off => do
    if n ≤ i then return (i, off)
    else
      let n1 := min (n - i) maxChunk
      beginOp
      ilock ip
      let r ← writei ip src (addr + i) off (BitVec.ofNat 32 n1)
      endOp
      let off := if 0 < r then off + BitVec.ofInt 32 r else off
      if r ≠ n1 then return (i, off)
      else filewriteLoop ip src addr n fuel (i + n1) off

def filewrite (f : File) (src : Src) (addr : Nat) (n : Int) : Fs (Int × File) := do
  if !f.writable then return (-1, f)
  else
    let (i, off) ← filewriteLoop f.ip src addr n.toNat n.toNat 0 f.off
    return (if (i : Int) = n then n else -1, { f with off := off })

/-- The blocks of a range of bytes. -/
def blocks (off n : Nat) : Finset Nat :=
  (Finset.range (off + n)).filter fun bn => off / BSIZE ≤ bn ∧ bn * BSIZE < off + n ∧ 0 < n

/-- The slots of a range of bytes, with that of the indirect block where the range needs it. -/
def slots (off n : Nat) : Finset Nat :=
  (blocks off n).image slotOf ∪ ((blocks off n).filter fun bn => NDIRECT ≤ bn).image fun _ => NDIRECT

theorem mem_blocks : bn ∈ blocks off n ↔ off / BSIZE ≤ bn ∧ bn * BSIZE < off + n ∧ 0 < n := by
  rw [blocks, Finset.mem_filter, Finset.mem_range]
  constructor
  · exact fun h => h.2
  · intro h
    have hle : bn * 1 ≤ bn * BSIZE := Nat.mul_le_mul_left bn (by decide)
    exact ⟨by omega, h⟩

theorem mem_slots : k ∈ slots off n ↔ ∃ bn ∈ blocks off n, k = slotOf bn ∨ k = NDIRECT ∧ NDIRECT ≤ bn := by
  rw [slots, Finset.mem_union, Finset.mem_image, Finset.mem_image]
  constructor
  · intro h
    rcases h with ⟨bn, hbn, rfl⟩ | ⟨bn, hbn, rfl⟩
    · exact ⟨bn, hbn, .inl rfl⟩
    · exact ⟨bn, (Finset.mem_filter.1 hbn).1, .inr ⟨rfl, (Finset.mem_filter.1 hbn).2⟩⟩
  · intro h
    rcases h with ⟨bn, hbn, rfl | ⟨rfl, hle⟩⟩
    · exact .inl ⟨bn, hbn, rfl⟩
    · exact .inr ⟨bn, Finset.mem_filter.2 ⟨hbn, hle⟩, rfl⟩

theorem spans_slots (off n : Nat) : Spans (slots off n) off n := by
  intro hpos bn h₁ h₂
  have hbn : bn ∈ blocks off n := mem_blocks.2 ⟨h₁, h₂, hpos⟩
  exact ⟨mem_slots.2 ⟨bn, hbn, .inl rfl⟩, fun hle => mem_slots.2 ⟨bn, hbn, .inr ⟨rfl, hle⟩⟩⟩

/-- A chunk touches at most four data blocks, and the indirect block. -/
theorem card_slots (h : n ≤ maxChunk) : (slots off n).card ≤ 5 := by
  have hb : (blocks off n).card ≤ 4 := by
    have hsub : blocks off n ⊆ Finset.Ico (off / BSIZE) (off / BSIZE + 4) := by
      intro bn hbn
      obtain ⟨h₁, h₂, h₃⟩ := mem_blocks.1 hbn
      rw [Finset.mem_Ico]
      refine ⟨h₁, ?_⟩
      have hmax : maxChunk = 3072 := rfl
      have hsum := Nat.div_add_mod off BSIZE
      have hlt : off % BSIZE < BSIZE := Nat.mod_lt off (by decide)
      rw [BSIZE] at *
      omega
    have hcard := Finset.card_le_card hsub
    rwa [Nat.card_Ico, Nat.add_sub_cancel_left] at hcard
  have h₁ := Finset.card_union_le ((blocks off n).image slotOf)
    (((blocks off n).filter fun bn => NDIRECT ≤ bn).image fun _ => NDIRECT)
  have h₂ := Finset.card_image_le (s := blocks off n) (f := slotOf)
  have h₃ : (((blocks off n).filter fun bn => NDIRECT ≤ bn).image fun _ => NDIRECT).card ≤ 1 := by
    apply Finset.card_le_one.2
    intro a ha b hb
    obtain ⟨_, _, rfl⟩ := Finset.mem_image.1 ha
    obtain ⟨_, _, rfl⟩ := Finset.mem_image.1 hb
    rfl
  rw [slots]
  omega

/-- A range is the ranges of its two parts. -/
theorem slots_split (hm : 0 < m) (hle : m ≤ n) : slots off n = slots off m ∪ slots (off + m) (n - m) := by
  have hblocks (bn : Nat) : bn ∈ blocks off n ↔ bn ∈ blocks off m ∨ bn ∈ blocks (off + m) (n - m) := by
    rw [mem_blocks, mem_blocks, mem_blocks]
    have hdiv : off / BSIZE ≤ (off + m) / BSIZE := Nat.div_le_div_right (Nat.le_add_right off m)
    have hsum := Nat.div_add_mod (off + m) BSIZE
    have hlt : (off + m) % BSIZE < BSIZE := Nat.mod_lt _ (by decide)
    rw [BSIZE] at *
    omega
  ext k
  rw [Finset.mem_union, mem_slots, mem_slots, mem_slots]
  constructor
  · intro h
    obtain ⟨bn, hbn, hk⟩ := h
    exact ((hblocks bn).1 hbn).imp (fun hb => ⟨bn, hb, hk⟩) fun hb => ⟨bn, hb, hk⟩
  · intro h
    rcases h with ⟨bn, hbn, hk⟩ | ⟨bn, hbn, hk⟩
    · exact ⟨bn, (hblocks bn).2 (.inl hbn), hk⟩
    · exact ⟨bn, (hblocks bn).2 (.inr hbn), hk⟩

variable {kept : Nat → Prop} {s t u : State} {ip : Nat} {src : Src} {a : Nat}

/-- The free blocks that a range needs. -/
def State.missing (s : State) (ip off n : Nat) : Nat := (slots off n \ s.filled ip).card

/-- The range is within the limits, the source can be read, and there are blocks for it. -/
structure Accepts (s : State) (ip : Nat) (src : Src) (a off n : Nat) : Prop where
  limits : 0 < n → off ≤ (s.cur ip).size ∧ off + n ≤ MAXFILE * BSIZE
  readable : ∀ i, i < n → src.byte? (a + i) ≠ none
  room : s.missing ip off n ≤ s.free

theorem mem_filled : k ∈ s.filled ip ↔ s.addr ip k ≠ 0 := by
  rw [State.filled, Finset.mem_filter, Finset.mem_range]
  constructor
  · exact fun h => h.2
  · intro h
    refine ⟨?_, h⟩
    by_contra hge
    apply h
    rw [State.addr]
    split
    · rfl
    · rw [if_neg (by omega), if_pos (.inr (by omega))]

/-- An entry is there only if the indirect block is. -/
theorem indirect_of_entry (hle : NDIRECT ≤ bn) (h : s.addr ip (slotOf bn) ≠ 0) : s.addr ip NDIRECT ≠ 0 := by
  intro h0
  apply h
  rw [State.addr] at h0 ⊢
  split
  · rfl
  · next ht =>
    rw [if_neg ht, if_pos (Nat.le_refl _)] at h0
    rw [slotOf_indirect (Nat.not_lt.2 hle), if_neg (by omega), if_pos (.inl h0)]

theorem Wrote.filled_subset (hw : Wrote ip (slots off n) kept src a off n s m p u) :
    u.filled ip ⊆ s.filled ip ∪ slots off n := by
  intro k hk
  rw [Finset.mem_union, mem_filled]
  exact hw.only k (mem_filled.1 hk)

/-- A write that is complete has filled its slots, -/
theorem Wrote.filled (hw : Wrote ip (slots off n) kept src a off n s n p u) :
    u.filled ip = s.filled ip ∪ slots off n := by
  apply Finset.Subset.antisymm hw.filled_subset
  intro k hk
  rw [mem_filled]
  rcases Finset.mem_union.1 hk with hk | hk
  · rw [hw.mono k (mem_filled.1 hk)]
    exact mem_filled.1 hk
  · obtain ⟨bn, hbn, hk⟩ := mem_slots.1 hk
    have hthere := hw.covered bn (mem_blocks.1 hbn).2.1
    rcases hk with rfl | ⟨rfl, hle⟩
    · exact hthere
    · exact indirect_of_entry hle hthere

theorem card_union_missing (s : State) (ip off n : Nat) :
    (s.filled ip ∪ slots off n).card = (s.filled ip).card + s.missing ip off n := by
  rw [State.missing, ← Finset.union_sdiff_self_eq_union, Finset.card_union_of_disjoint Finset.disjoint_sdiff]

/-- and there were enough free blocks for them. -/
theorem Wrote.free (hw : Wrote ip (slots off n) kept src a off n s n p u) : u.free + s.missing ip off n = s.free := by
  have hcount := hw.count
  rw [hw.filled, card_union_missing] at hcount
  omega

/-- A write is complete when the source can be read and there are enough free blocks. -/
theorem Wrote.complete_iff (hw : Wrote ip (slots off n) kept src a off n s m p u) :
    m = n ↔ (∀ i, i < n → src.byte? (a + i) ≠ none) ∧ s.missing ip off n ≤ s.free := by
  constructor
  · rintro rfl
    have hfree := hw.free
    exact ⟨fun i hi => hw.there i (by omega), by omega⟩
  · intro h
    by_contra hm
    have hle := hw.le
    rcases hw.short (by omega) with ⟨hnone, hlt, -, -⟩ | ⟨-, h0, hfree⟩
    · exact h.1 _ hlt hnone
    · -- the slot that is missing is one of those that the free blocks were enough for
      obtain ⟨bn, hbn⟩ : ∃ bn, bn = (off + m) / BSIZE := ⟨_, rfl⟩
      rw [← hbn] at h0
      have hin : bn ∈ blocks off n := by
        rw [mem_blocks, hbn]
        have hfloor := Nat.div_mul_le_self (off + m) BSIZE
        exact ⟨Nat.div_le_div_right (Nat.le_add_right off m), by omega, by omega⟩
      have hsub : u.filled ip ⊂ s.filled ip ∪ slots off n := by
        rw [Finset.ssubset_iff_of_subset hw.filled_subset]
        refine ⟨slotOf bn, Finset.mem_union_right _ (mem_slots.2 ⟨bn, hin, .inl rfl⟩), ?_⟩
        rw [mem_filled]
        exact fun hne => hne h0
      have hcard := Finset.card_lt_card hsub
      have hcount := hw.count
      rw [card_union_missing] at hcard
      omega

/-- What `writei` does, for a caller that looks at its result only. -/
structure Outcome (kept : Nat → Prop) (ip : Nat) (src : Src) (a off n : Nat) (s : State) (r : Int) (t : State) :
    Prop where
  good : Good kept t
  sb : t.sb = s.sb
  room : t.room = s.room
  ended : t.ended = s.ended
  ref : (t.inode ip).ref = (s.inode ip).ref
  valid : (t.inode ip).valid = (s.inode ip).valid
  type : (t.cur ip).type = (s.cur ip).type
  fits : Fits ip (slots off n) s → Fits ip (slots off n) t
  complete : 0 < n → (r = n ↔ Accepts s ip src a off n)
  size : r = n → (t.cur ip).size = max (s.cur ip).size (off + n)
  bytes : r = n → ∀ x, t.byteAt ip x =
    if off ≤ x ∧ x < off + n then (src.byte? (a + (x - off))).getD 0 else s.byteAt ip x
  filled : r = n → t.filled ip = s.filled ip ∪ slots off n
  free : r = n → t.free + s.missing ip off n = s.free

theorem wp_writei_outcome (hg : Good kept s) (hv : (s.inode ip).valid = true) (ht : (s.cur ip).type ≠ 0)
    (src : Src) (a : Nat) (off n : BitVec 32) : Wp (writei ip src a off n) (Over ip (slots off.toNat n.toNat) s)
      (fun r t => Outcome kept ip src a off.toNat n.toNat s r t) s := by
  apply (wp_writei hg hv ht src a off n (spans_slots _ _)).mono
  intro r t hr
  rcases hr with ⟨hrefuse, rfl, rfl⟩ | ⟨haccept, m, p, u, rfl, hw, hfin⟩
  · have hne : ¬(-1 : Int) = (n.toNat : Nat) := by omega
    refine ⟨hg, rfl, rfl, rfl, rfl, rfl, rfl, id, fun hpos => ⟨fun h => absurd h hne, fun hacc => ?_⟩,
      fun h => absurd h hne, fun h => absurd h hne, fun h => absurd h hne, fun h => absurd h hne⟩
    have hlim := hacc.limits hpos
    rcases hrefuse with h | h <;> omega
  · rw [State.Refuses, not_or, Nat.not_lt, Nat.not_lt] at haccept
    have hfilled : t.filled ip = u.filled ip := by rw [State.filled, State.filled, hfin.addr]
    refine ⟨hfin.good, hfin.sb.trans hw.sb, hfin.room.trans hw.room, hfin.ended.trans hw.ended,
      hfin.ref.trans hw.ref, hfin.valid.trans hw.valid, hfin.type.trans hw.type, fun hf => hfin.fits _ (hw.fits hf),
      fun _ => ?_, fun h => ?_, fun h => ?_, fun h => ?_, fun h => ?_⟩
    · rw [Int.natCast_inj, hw.complete_iff]
      exact ⟨fun h => ⟨fun _ => haccept, h.1, h.2⟩, fun h => ⟨h.readable, h.room⟩⟩
    · obtain rfl : m = n.toNat := by omega
      rw [hfin.size, hw.size]
    · obtain rfl : m = n.toNat := by omega
      intro x
      rw [hfin.byteAt, hw.bytes x, hw.done rfl]
      rfl
    · obtain rfl : m = n.toNat := by omega
      rw [hfilled, hw.filled]
    · obtain rfl : m = n.toNat := by omega
      rw [hfin.free, hw.free]

/-- A range is accepted when its first part is, and its second part after that. -/
theorem accepts_split (hm : 0 < m) (hle : m ≤ n) (hsize : (t.cur ip).size = max (s.cur ip).size (off + m))
    (hfilled : t.filled ip = s.filled ip ∪ slots off m) (hfree : t.free + s.missing ip off m = s.free) :
    Accepts s ip src a off n ↔ Accepts s ip src a off m ∧ Accepts t ip src (a + m) (off + m) (n - m) := by
  have hmissing : s.missing ip off n = s.missing ip off m + t.missing ip (off + m) (n - m) := by
    rw [State.missing, State.missing, State.missing, hfilled, slots_split hm hle, Finset.union_sdiff_distrib,
      ← Finset.card_union_of_disjoint]
    · congr 1
      ext k
      simp only [Finset.mem_union, Finset.mem_sdiff]
      tauto
    · rw [Finset.disjoint_left]
      intro k hk hk'
      rw [Finset.mem_sdiff] at hk hk'
      exact hk'.2 (Finset.mem_union_right _ hk.1)
  constructor
  · intro hacc
    refine ⟨⟨fun _ => ?_, fun i hi => hacc.readable i (by omega), ?_⟩, ⟨fun _ => ?_, fun i hi => ?_, ?_⟩⟩
    · have hlim := hacc.limits (by omega)
      exact ⟨hlim.1, by omega⟩
    · have hroom := hacc.room
      omega
    · have hlim := hacc.limits (by omega)
      exact ⟨by omega, by omega⟩
    · have hread := hacc.readable (m + i) (by omega)
      rwa [Nat.add_assoc]
    · have hroom := hacc.room
      omega
  · rintro ⟨h₁, h₂⟩
    refine ⟨fun _ => ?_, fun i hi => ?_, ?_⟩
    · have hlim := h₁.limits hm
      refine ⟨hlim.1, ?_⟩
      by_cases hlast : m = n
      · omega
      · have hlim' := h₂.limits (by omega)
        omega
    · by_cases him : i < m
      · exact h₁.readable i him
      · have hread := h₂.readable (i - m) (by omega)
        rwa [Nat.add_assoc, Nat.add_sub_cancel' (Nat.le_of_not_lt him)] at hread
    · have h₁' := h₁.room
      have h₂' := h₂.room
      omega

/-- The transactions since then, none of which has logged a block twice or more blocks than it may. -/
def Bounded (s t : State) : Prop :=
  ∃ ls : List (List Nat), t.ended = s.ended ++ ls ∧ ∀ l ∈ ls, l.Nodup ∧ l.length ≤ MAXOPBLOCKS

theorem Bounded.refl (s : State) : Bounded s s := ⟨[], (List.append_nil _).symm, fun _ hl => by cases hl⟩

/-- A file that is open: its inode is in the table, and has been read from the disk. -/
structure Opened (kept : Nat → Prop) (ip : Nat) (s : State) : Prop extends Good kept s where
  ref : 1 ≤ (s.inode ip).ref
  valid : (s.inode ip).valid = true
  type : (s.cur ip).type ≠ 0

theorem wp_ilock_opened (h : Opened kept ip s) : Wp (ilock ip) E (fun _ t => t = s) s := by
  rw [ilock, wp_bind, wp_get]
  apply Wp.ite_neg (Nat.not_lt.2 h.ref)
  apply Wp.ite_neg
  · rw [h.valid]
    decide
  · exact wp_pure.2 rfl

/-- What the loop of `filewrite` has done from `i` on. -/
structure Chunked (kept : Nat → Prop) (ip : Nat) (src : Src) (addr n i : Nat) (off : BitVec 32) (s : State)
    (r : Nat × BitVec 32) (t : State) : Prop where
  bounded : Bounded s t
  complete : r.1 = n ↔ Accepts s ip src (addr + i) off.toNat (n - i)
  offset : r.1 = n → r.2.toNat = off.toNat + (n - i)
  size : r.1 = n → i < n → (t.cur ip).size = max (s.cur ip).size (off.toNat + (n - i))
  same : i = n → t = s ∧ r.1 = n
  bytes : r.1 = n → ∀ x, t.byteAt ip x = if off.toNat ≤ x ∧ x < off.toNat + (n - i) then
    (src.byte? (addr + i + (x - off.toNat))).getD 0 else s.byteAt ip x

theorem Chunked.nothing (s : State) (off : BitVec 32) : Chunked kept ip src addr n n off s (n, off) s := by
  refine ⟨.refl s, ⟨fun _ => ⟨fun h0 => ?_, fun j hj => ?_, ?_⟩, fun _ => rfl⟩, fun _ => ?_, fun _ hlt => ?_,
    fun _ => ⟨rfl, rfl⟩, fun _ x => ?_⟩
  · omega
  · omega
  · rw [Nat.sub_self, State.missing]
    have hempty : slots off.toNat 0 = ∅ := by
      rw [Finset.eq_empty_iff_forall_notMem]
      intro k hk
      obtain ⟨bn, hbn, -⟩ := mem_slots.1 hk
      exact absurd (mem_blocks.1 hbn).2.2 (Nat.lt_irrefl 0)
    rw [hempty, Finset.empty_sdiff, Finset.card_empty]
    exact Nat.zero_le _
  · rw [Nat.sub_self, Nat.add_zero]
  · exact absurd hlt (Nat.lt_irrefl n)
  · rw [if_neg (by omega)]

/-- A chunk and those after it. -/
theorem Chunked.turn {off off' : BitVec 32} (hpos : 0 < m) (hmn : m ≤ n - i) (hoff : off'.toNat = off.toNat + m)
    (hended : t.ended = s.ended ++ [l]) (hl : l.Nodup ∧ l.length ≤ MAXOPBLOCKS)
    (hacc : Accepts s ip src (addr + i) off.toNat m) (hsize : (t.cur ip).size = max (s.cur ip).size (off.toNat + m))
    (hfilled : t.filled ip = s.filled ip ∪ slots off.toNat m) (hfree : t.free + s.missing ip off.toNat m = s.free)
    (hbytes : ∀ x, t.byteAt ip x = if off.toNat ≤ x ∧ x < off.toNat + m then
      (src.byte? (addr + i + (x - off.toNat))).getD 0 else s.byteAt ip x)
    (h : Chunked kept ip src addr n (i + m) off' t r u) : Chunked kept ip src addr n i off s r u := by
  have hrest : n - (i + m) = n - i - m := by omega
  have hb := h.bytes
  have hc := h.complete
  have ho := h.offset
  have hz := h.size
  rw [hoff, hrest, ← Nat.add_assoc] at hc
  rw [hoff, hrest] at ho hz hb
  constructor
  · obtain ⟨ls, hls, hall⟩ := h.bounded
    refine ⟨[l] ++ ls, by rw [hls, hended, List.append_assoc], fun l' hl' => ?_⟩
    rcases List.mem_append.1 hl' with hl' | hl'
    · rw [List.mem_singleton.1 hl']
      exact hl
    · exact hall l' hl'
  · rw [hc, accepts_split hpos hmn hsize hfilled hfree]
    exact ⟨fun h => ⟨hacc, h⟩, fun h => h.2⟩
  · intro he
    rw [ho he]
    omega
  · intro he _
    by_cases hlast : i + m < n
    · rw [hz he hlast, hsize]
      omega
    · rw [(h.same (by omega)).1, hsize]
      congr 2
      omega
  · intro he
    omega
  · intro he x
    rw [hb he x, hbytes x]
    by_cases h₁ : off.toNat + m ≤ x ∧ x < off.toNat + m + (n - i - m)
    · rw [if_pos h₁, if_pos (by omega)]
      congr 2
      omega
    · rw [if_neg h₁]
      by_cases h₂ : off.toNat ≤ x ∧ x < off.toNat + m
      · rw [if_pos h₂, if_pos (by omega)]
      · rw [if_neg h₂, if_neg (by omega)]

/-- A chunk that is not accepted is the last. -/
theorem Chunked.stop {off off' : BitVec 32} (hpos : 0 < m) (hmn : m ≤ n - i) (hended : t.ended = s.ended ++ [l])
    (hl : l.Nodup ∧ l.length ≤ MAXOPBLOCKS) (hacc : ¬Accepts s ip src (addr + i) off.toNat m) :
    Chunked kept ip src addr n i off s (i, off') t := by
  have hi : i ≠ n := by omega
  refine ⟨⟨[l], hended, fun l' hl' => ?_⟩, ⟨fun he => absurd he hi, fun hall => absurd ?_ hacc⟩,
    fun he => absurd he hi, fun he => absurd he hi, fun he => absurd he hi, fun he => absurd he hi⟩
  · rw [List.mem_singleton.1 hl']
    exact hl
  · refine ⟨fun _ => ?_, fun j hj => hall.readable j (by omega), Nat.le_trans ?_ hall.room⟩
    · have hlim := hall.limits (by omega)
      exact ⟨hlim.1, by omega⟩
    · apply Finset.card_le_card
      apply Finset.sdiff_subset_sdiff _ (Finset.Subset.refl _)
      rw [slots_split hpos hmn]
      exact Finset.subset_union_left

/-- What a transaction of `filewrite` leaves. -/
structure Transacted (kept : Nat → Prop) (ip : Nat) (src : Src) (a off n : Nat) (s : State) (r : Int) (l : List Nat)
    (t : State) : Prop extends Opened kept ip t where
  sb : t.sb = s.sb
  room : t.room = s.room
  ended : t.ended = s.ended ++ [l]
  bound : l.Nodup ∧ l.length ≤ MAXOPBLOCKS
  complete : 0 < n → (r = n ↔ Accepts s ip src a off n)
  size : r = n → (t.cur ip).size = max (s.cur ip).size (off + n)
  bytes : r = n → ∀ x, t.byteAt ip x =
    if off ≤ x ∧ x < off + n then (src.byte? (a + (x - off))).getD 0 else s.byteAt ip x
  filled : r = n → t.filled ip = s.filled ip ∪ slots off n
  free : r = n → t.free + s.missing ip off n = s.free

theorem Opened.congr (h : Opened kept ip s) (hsb : t.sb = s.sb) (hdata : t.data = s.data) (hbuf : t.buf = s.buf)
    (hmap : t.bitmap = s.bitmap) (hdin : t.dinode = s.dinode) (hinode : t.inode = s.inode) : Opened kept ip t := by
  cases t
  simp only at *
  subst hsb hdata hbuf hmap hdin hinode
  exact ⟨h.toGood.congr rfl rfl rfl (fun _ => .inr rfl) h.covers, h.ref, h.valid, h.type⟩

/-- One transaction, of which `k` is told the result. -/
theorem wp_transaction {k : Int → Fs β} (h : Opened kept ip s) (hone : s.sb.size ≤ Files.BPB) (off : BitVec 32)
    (hn : n ≤ maxChunk) (hk : ∀ r l t, Transacted kept ip src a off.toNat n s r l t → Wp (k r)
      (fun e => e = .tooBigATransaction ∧ s.room < MAXOPBLOCKS) Q t) :
    Wp (do
      beginOp
      ilock ip
      let r ← writei ip src a off (BitVec.ofNat 32 n)
      endOp
      k r) (fun e => e = .tooBigATransaction ∧ s.room < MAXOPBLOCKS) Q s := by
  have hmax : maxChunk = 3072 := rfl
  have hnv : (BitVec.ofNat 32 n).toNat = n := by
    rw [BitVec.toNat_ofNat, Nat.mod_eq_of_lt]
    omega
  rw [beginOp, wp_bind, wp_modify]
  have hopen : Opened kept ip { s with logged := [] } := h.congr rfl rfl rfl rfl rfl rfl
  apply (wp_ilock_opened hopen).bind
  intro _ v hv
  subst hv
  have hfits : Fits ip (slots off.toNat n) { s with logged := [] } :=
    ⟨hone, List.nodup_nil, fun b hb => by cases hb⟩
  have hcard : (slots off.toNat n).card ≤ 5 := card_slots hn
  have hw := wp_writei_outcome hopen.toGood hopen.valid hopen.type src a off (BitVec.ofNat 32 n)
  rw [hnv] at hw
  rw [wp_bind]
  apply (hw.weaken _).mono
  · intro r u hu
    have hfit := hu.fits hfits
    have hlen := hfit.length
    have hsize : (u.cur ip).type ≠ 0 := by
      intro h0
      exact hopen.type (hu.type ▸ h0)
    have hou : Opened kept ip u :=
      ⟨hu.good, Nat.le_trans h.ref (Nat.le_of_eq hu.ref.symm), hu.valid.trans h.valid, hsize⟩
    rw [wp_bind, endOp, wp_modify]
    apply hk r u.logged
    refine ⟨hou.congr rfl rfl rfl rfl rfl rfl, hu.sb, hu.room, congrArg (· ++ [u.logged]) hu.ended, ⟨hfit.nodup, ?_⟩,
      fun hpos => ?_, hu.size, hu.bytes, hu.filled, hu.free⟩
    · rw [MAXOPBLOCKS]
      omega
    · rw [hu.complete hpos]
      exact ⟨fun h => ⟨h.limits, h.readable, h.room⟩, fun h => ⟨h.limits, h.readable, h.room⟩⟩
  · intro e he
    refine ⟨he.1, ?_⟩
    by_contra hge
    apply he.2
    refine ⟨hfits, ?_⟩
    change _ < s.room
    rw [MAXOPBLOCKS] at hge
    omega

/-- The loop keeps to its transactions' share of the log, and writes what one `writei` would. -/
theorem wp_filewriteLoop (h : Opened kept ip s) (hone : s.sb.size ≤ Files.BPB) (src : Src) (addr : Nat)
    (off : BitVec 32) (hi : i ≤ n) (hfuel : n - i ≤ fuel) :
    Wp (filewriteLoop ip src addr n fuel i off) (fun e => e = .tooBigATransaction ∧ s.room < MAXOPBLOCKS)
      (fun r t => Chunked kept ip src addr n i off s r t) s := by
  induction fuel generalizing s i off with
  | zero =>
    obtain rfl : i = n := by omega
    exact wp_pure.2 (.nothing s off)
  | succ fuel ih =>
    rw [filewriteLoop]
    apply Wp.ite
    · intro hni
      obtain rfl : i = n := by omega
      exact wp_pure.2 (.nothing s off)
    · intro hlt
      obtain ⟨m, hm⟩ : ∃ m, m = min (n - i) maxChunk := ⟨_, rfl⟩
      simp only [← hm]
      have hmax : maxChunk = 3072 := rfl
      have hpos : 0 < m := by omega
      have hmn : m ≤ n - i := hm ▸ Nat.min_le_left ..
      have hchunk : m ≤ maxChunk := hm ▸ Nat.min_le_right ..
      apply wp_transaction h hone off hchunk
      intro r l t ht
      apply Wp.ite
      · intro hne
        apply wp_pure.2
        apply Chunked.stop hpos hmn ht.ended ht.bound
        rwa [← ht.complete hpos]
      · intro he
        rw [not_not] at he
        subst he
        have hacc := (ht.complete hpos).1 rfl
        have hoff : (if (0 : Int) < m then off + BitVec.ofInt 32 m else off).toNat = off.toNat + m := by
          have h32 : MAXFILE * BSIZE < 2 ^ 32 := by decide
          have hlim := (hacc.limits hpos).2
          rw [if_pos (by omega), BitVec.ofInt_natCast, BitVec.toNat_add, BitVec.toNat_ofNat]
          omega
        apply ((ih (i := i + m) ht.toOpened (by rw [ht.sb]; exact hone) _ (by omega) (by omega)).weaken
          fun e he => by rwa [ht.room] at he).mono
        intro r u hr
        exact .turn hpos hmn hoff ht.ended ht.bound hacc (ht.size rfl) (ht.filled rfl) (ht.free rfl) (ht.bytes rfl) hr

/-- Nothing is written of nothing. -/
theorem wp_writei_zero (hg : Good kept s) (hv : (s.inode ip).valid = true) (ht : (s.cur ip).type ≠ 0)
    (src : Src) (a : Nat) (off : BitVec 32) : Wp (writei ip src a off 0) (Over ip (slots off.toNat 0) s)
      (fun _ u => u.content ip = s.content ip ∧ (u.cur ip).size = (s.cur ip).size) s := by
  have h0 : (0 : BitVec 32).toNat = 0 := rfl
  apply (wp_writei hg hv ht src a off 0 (spans_slots _ _)).mono
  intro r u hr
  rcases hr with ⟨-, -, rfl⟩ | ⟨haccept, m, p, w, -, hw, hfin⟩
  · exact ⟨rfl, rfl⟩
  · rw [State.Refuses, not_or, Nat.not_lt] at haccept
    have hle := hw.le
    have hsize : (u.cur ip).size = (s.cur ip).size := by
      rw [hfin.size, hw.size]
      omega
    refine ⟨?_, hsize⟩
    rw [State.content, State.content, hsize]
    apply List.map_congr_left
    intro x _
    rw [hfin.byteAt, hw.bytes x, if_neg (by omega)]

/-- A write in chunks keeps every transaction to its share of the log, and succeeds if one `writei` of all the
bytes does, in a log that has room for it; where it succeeds, it leaves the file that the one `writei` leaves. -/
theorem filewrite_writei {f : File} (h : Opened kept f.ip s) (hwritable : f.writable = true)
    (hone : s.sb.size ≤ Files.BPB) (src : Src) (addr n : Nat) (hn : n < 2 ^ 31) :
    Wp (filewrite f src addr n) (fun e => e = .tooBigATransaction ∧ s.room < MAXOPBLOCKS) (fun r t =>
      Bounded s t ∧ (r.1 = n ∨ r.1 = -1) ∧
      ∀ room, (slots f.off.toNat n).card + 2 < room →
        Wp (writei f.ip src addr f.off (BitVec.ofNat 32 n)) NoError (fun one u =>
          (one = n → r.1 = n) ∧ (r.1 = n → t.content f.ip = u.content f.ip ∧
            (t.cur f.ip).size = (u.cur f.ip).size ∧ r.2.off.toNat = f.off.toNat + n))
          { s with logged := [], room := room }) s := by
  have hnv : (BitVec.ofNat 32 n).toNat = n := by
    rw [BitVec.toNat_ofNat, Nat.mod_eq_of_lt]
    omega
  rw [filewrite]
  apply Wp.ite_neg
  · rw [hwritable]
    decide
  rw [Int.toNat_natCast]
  apply (wp_filewriteLoop h hone src addr f.off (Nat.zero_le n) (Nat.le_refl _)).bind
  intro r t hr
  rw [wp_pure]
  have hret : (if (r.1 : Int) = n then (n : Int) else -1) = n ↔ r.1 = n := by
    by_cases he : r.1 = n
    · rw [he, if_pos rfl]
      exact ⟨fun _ => rfl, fun _ => rfl⟩
    · rw [if_neg (by omega)]
      omega
  refine ⟨hr.bounded, ?_, fun room hroom => ?_⟩
  · dsimp only
    split
    · exact .inl rfl
    · exact .inr rfl
  dsimp only
  rw [hret]
  have hopen : Opened kept f.ip { s with logged := [], room := room } := h.congr rfl rfl rfl rfl rfl rfl
  have hfits : Fits f.ip (slots f.off.toNat n) { s with logged := [], room := room } :=
    ⟨hone, List.nodup_nil, fun b hb => by cases hb⟩
  have hcomplete := hr.complete
  have hbytes := hr.bytes
  have hoff := hr.offset
  rw [Nat.add_zero, Nat.sub_zero] at hcomplete
  rw [Nat.sub_zero, Nat.add_zero] at hbytes
  rw [Nat.sub_zero] at hoff
  by_cases hzero : n = 0
  · subst hzero
    obtain ⟨hsame, hdone⟩ := hr.same rfl
    have hw := wp_writei_zero hopen.toGood hopen.valid hopen.type src addr f.off
    apply (hw.weaken fun e he => he.2 ⟨hfits, hroom⟩).mono
    intro one u hu
    rw [hsame]
    exact ⟨fun _ => hdone, fun _ => ⟨hu.1.symm, hu.2.symm, hoff hdone⟩⟩
  · have hpos := Nat.pos_of_ne_zero hzero
    have hsize := fun he => hr.size he hpos
    rw [Nat.sub_zero] at hsize
    have hw := wp_writei_outcome hopen.toGood hopen.valid hopen.type src addr f.off (BitVec.ofNat 32 n)
    rw [hnv] at hw
    apply (hw.weaken fun e he => he.2 ⟨hfits, hroom⟩).mono
    intro one u hu
    have hacc : Accepts { s with logged := [], room := room } f.ip src addr f.off.toNat n ↔
        Accepts s f.ip src addr f.off.toNat n :=
      ⟨fun h => ⟨h.limits, h.readable, h.room⟩, fun h => ⟨h.limits, h.readable, h.room⟩⟩
    have hiff : one = n ↔ r.1 = n := by rw [hu.complete hpos, hacc, hcomplete]
    refine ⟨hiff.1, fun he => ?_⟩
    have hlim := (hcomplete.1 he).limits hpos
    have hsu := hu.size (hiff.2 he)
    have hbu := hu.bytes (hiff.2 he)
    refine ⟨?_, ?_, hoff he⟩
    · have ht := content_splice hlim.1 (hsize he) (hbytes he)
      have hu' := content_splice (s := { s with logged := [], room := room }) hlim.1 hsu hbu
      exact ht.trans hu'.symm
    · rw [hsize he]
      exact hsu.symm

theorem filewrite_writei_three : ∃ t, filewrite ⟨true, 2, 0⟩ (.kernel fun _ => 7) 0 3 disk =
    .ok ((3, ⟨true, 2, 3⟩), t) ∧ Bounded disk t ∧ t.content 2 = [7, 7, 7] := by
  have hrun : ∃ t, filewrite ⟨true, 2, 0⟩ (.kernel fun _ => 7) 0 3 disk = .ok ((3, ⟨true, 2, 3⟩), t) := ⟨_, rfl⟩
  obtain ⟨t, ht⟩ := hrun
  have hopen : Opened (· < 46) 2 disk := ⟨disk_good, Nat.le_refl 1, rfl, by decide⟩
  have hall := (filewrite_writei (f := ⟨true, 2, 0⟩) hopen rfl (by decide) (.kernel fun _ => 7) 0 3 (by decide)).of_eq_ok ht
  obtain ⟨hbounded, -, hone⟩ := hall
  have hwrite : ∃ u, writei 2 (.kernel fun _ => 7) 0 0 3 { disk with logged := [], room := 29 } = .ok (3, u) ∧
      u.content 2 = [7, 7, 7] := ⟨_, rfl, by decide⟩
  obtain ⟨u, hu, hcontent⟩ := hwrite
  have hsame := (hone 29 (by decide)).of_eq_ok hu
  exact ⟨t, ht, hbounded, (hsame.2 rfl).1.trans hcontent⟩

end PbsCow.Blocks
