import PbsCow.ReadWrite

namespace PbsCow.Blocks
set_option autoImplicit true

variable {kept : Nat → Prop} {s t : State} {ip : Nat}

theorem exists_spans (off left : Nat) : ∃ W, Spans W off left := by
  refine ⟨insert NDIRECT ((Finset.range (off + left)).image slotOf), fun _ bn _ hbn => ⟨?_, fun _ => ?_⟩⟩
  · apply Finset.mem_insert_of_mem
    apply Finset.mem_image_of_mem
    rw [Finset.mem_range]
    have hle : bn * 1 ≤ bn * BSIZE := Nat.mul_le_mul_left bn (by decide)
    omega
  · exact Finset.mem_insert_self ..

/-- The `n` bytes at `a` of the source. -/
def Src.bytes (src : Src) (a n : Nat) : List Byte := (List.range n).map fun i => (src.byte? (a + i)).getD 0

/-- Some bytes in place of those from `off` on. -/
def splice (old : List Byte) (off : Nat) (bs : List Byte) : List Byte :=
  old.take off ++ bs ++ old.drop (off + bs.length)

theorem content_take (hoff : off ≤ (s.cur ip).size) : (s.content ip).take off = (List.range off).map (s.byteAt ip) := by
  rw [State.content, ← List.map_take, List.take_range, Nat.min_eq_left hoff]

theorem content_drop (s : State) (ip off : Nat) :
    (s.content ip).drop off = (List.range ((s.cur ip).size - off)).map fun i => s.byteAt ip (off + i) := by
  by_cases hoff : off ≤ (s.cur ip).size
  · have hall := content_slice (n := (s.cur ip).size) hoff
    rw [Nat.min_eq_right (Nat.sub_le _ _), List.take_of_length_le] at hall
    · exact hall
    · rw [List.length_drop, State.content, List.length_map, List.length_range]
      exact Nat.sub_le _ _
  · rw [List.drop_of_length_le, Nat.sub_eq_zero_of_le (Nat.le_of_not_le hoff), List.range_zero, List.map_nil]
    rw [State.content, List.length_map, List.length_range]
    exact Nat.le_of_not_le hoff

theorem range_append (m n : Nat) (f : Nat → Byte) :
    (List.range (m + n)).map f = (List.range m).map f ++ (List.range n).map fun i => f (m + i) := by
  rw [List.range_add, List.map_append, List.map_map]
  rfl

/-- The contents after bytes have been written at `off`. -/
theorem content_splice (hoff : off ≤ (s.cur ip).size) (hsize : (t.cur ip).size = max (s.cur ip).size (off + n))
    (hbytes : ∀ x, t.byteAt ip x =
      if off ≤ x ∧ x < off + n then (src.byte? (a + (x - off))).getD 0 else s.byteAt ip x) :
    t.content ip = splice (s.content ip) off (Src.bytes src a n) := by
  have hlen : (Src.bytes src a n).length = n := by rw [Src.bytes, List.length_map, List.length_range]
  have hsum : (t.cur ip).size = off + n + ((s.cur ip).size - (off + n)) := by omega
  rw [splice, hlen, content_take hoff, content_drop, State.content, hsum, range_append, range_append]
  congr 2
  · apply List.map_congr_left
    intro x hx
    rw [List.mem_range] at hx
    rw [hbytes, if_neg (by omega)]
  · apply List.map_congr_left
    intro i hi
    rw [List.mem_range] at hi
    rw [hbytes, if_pos (by omega), Nat.add_sub_cancel_left]
  · funext i
    rw [hbytes, if_neg (by omega)]

theorem content_congr (hc : t.cur ip = s.cur ip) (hb : ∀ x, t.byteAt ip x = s.byteAt ip x) :
    t.content ip = s.content ip := by
  rw [State.content, hc, State.content]
  exact List.map_congr_left fun x _ => hb x

theorem Keeps.byteAt (h : Keeps ip W s t) (hi : i ≠ ip) (x : Nat) : t.byteAt i x = s.byteAt i x := by
  rw [State.byteAt, State.byteAt, h.blocks i _ hi (slotOf_ne _)]

/-- What was written is read back, at its place in the old contents, and the other inodes have theirs. -/
theorem writei_readi (hg : Good kept s) (hv : (s.inode ip).valid = true) (ht : (s.cur ip).type ≠ 0) (src : Src)
    (a : Nat) (off n : BitVec 32) :
    Wp (writei ip src a off n) (fun e => e = .tooBigATransaction) (fun r t =>
      (off + n < off → r = -1 ∧ t = s) ∧
      (r = n.toNat →
        (t.cur ip).size = max (s.cur ip).size (off.toNat + n.toNat) ∧
        (∀ out dst off' n', (∀ a m, out a m = true) → Wp (readi ip out dst off' n') NoError
          (fun got _ => got = some (if off' + n' < off' then [] else
            ((splice (s.content ip) off.toNat (src.bytes a n.toNat)).drop off'.toNat).take n'.toNat)) t) ∧
        ∀ i, i ≠ ip → t.content i = s.content i)) s := by
  obtain ⟨W, hW⟩ := exists_spans off.toNat n.toNat
  apply ((wp_writei hg hv ht src a off n hW).weaken fun _ he => he.1).mono
  intro r t hr
  rcases hr with ⟨_, rfl, rfl⟩ | ⟨haccept, m, p, u, rfl, hw, hfin⟩
  · refine ⟨fun _ => ⟨rfl, rfl⟩, fun h => ?_⟩
    omega
  · rw [State.Refuses, not_or, Nat.not_lt, Nat.not_lt] at haccept
    constructor
    · intro hover
      rw [BitVec.lt_def, BitVec.toNat_add] at hover
      have hmax : MAXFILE * BSIZE < 2 ^ 32 := by decide
      omega
    · intro hm
      obtain rfl : m = n.toNat := by omega
      have hp : p = 0 := hw.done rfl
      have hsize : (t.cur ip).size = max (s.cur ip).size (off.toNat + n.toNat) := by rw [hfin.size, hw.size]
      refine ⟨hsize, ?_, ?_⟩
      · intro out dst off' n' hout
        have hvt : (t.inode ip).valid = true := by rw [hfin.valid, hw.valid, hv]
        have htt : (t.cur ip).type ≠ 0 := by rwa [hfin.type, hw.type]
        apply (wp_readi hvt hfin.good htt out dst off' n').mono
        intro got _ hgot
        rw [hgot.2 hout, content_splice haccept.1 hsize]
        intro x
        rw [hfin.byteAt, hw.bytes x, hp]
        rfl
      · intro i hi
        apply content_congr
        · rw [hfin.cur hi, hw.cur hi]
        · intro x
          rw [hfin.byteAt, hw.toKeeps.byteAt hi]

/-- A disk as `mkfs` makes it, with a file of two bytes in its first block. -/
def disk : State where
  sb := ⟨2000, 200, 32, 45⟩
  data _ := Block.zero
  buf _ := none
  bitmap b := b ≤ 46
  dinode i := if i = 2 then ⟨2, 1, 2, fun k => if k = 0 then 46 else 0⟩ else .empty
  inode i := if i = 2 then ⟨1, true, ⟨2, 1, 2, fun k => if k = 0 then 46 else 0⟩⟩ else ⟨0, false, .empty⟩
  logged := []
  room := 29
  ended := []

theorem disk_cur (hi : i ≠ 2) : disk.cur i = .empty := by
  simp only [State.cur, disk, if_neg hi]
  rfl

theorem disk_addr (i k : Nat) : disk.addr i k = if i = 2 ∧ k = 0 then 46 else 0 := by
  by_cases hi : i = 2
  · subst hi
    have hcur : disk.cur 2 = ⟨2, 1, 2, fun k => if k = 0 then 46 else 0⟩ := rfl
    rw [State.addr, hcur, if_neg (by decide)]
    by_cases hk : k ≤ NDIRECT
    · rw [if_pos hk]
      simp only [true_and]
    · have hk0 : k ≠ 0 := by
        rintro rfl
        exact hk (Nat.zero_le _)
      rw [if_neg hk, if_pos (.inl rfl), if_neg fun h => hk0 h.2]
  · rw [State.addr, disk_cur hi, if_pos (show Dinode.empty.type = 0 from rfl), if_neg fun h => hi h.1]

theorem disk_good : Good (· < 46) disk := by
  have href (a : Nat × Nat) (h : disk.ref a ≠ 0) : a = (2, 0) ∧ disk.ref a = 46 := by
    rw [State.ref, disk_addr] at h ⊢
    split at h
    · next hc => exact ⟨Prod.ext hc.1 hc.2, if_pos hc⟩
    · exact absurd rfl h
  constructor
  · constructor
    · intro a b ha hab
      rw [(href a ha).1, (href b (hab ▸ ha)).1]
    · intro a ha
      rw [(href a ha).2]
      rfl
    · intro a ha
      rw [(href a ha).2]
      decide
    · intro a ha
      rw [(href a ha).2]
      exact Nat.lt_irrefl 46
    · intro b _ hb
      have hle : b ≤ 46 := of_decide_eq_true hb
      rcases Nat.lt_or_eq_of_le hle with h | h
      · exact .inl h
      · exact .inr ⟨(2, 0), h.symm, by decide⟩
    · intro b hb
      exact decide_eq_true (Nat.le_of_lt hb)
  · exact fun _ => id
  · decide
  · intro i bn htype hbn
    by_cases hi : i = 2
    · subst hi
      have hsize : bn * BSIZE < 2 := hbn
      obtain rfl : bn = 0 := by
        rw [BSIZE] at hsize
        omega
      decide
    · rw [disk_cur hi] at htype
      exact absurd rfl htype
  · intro i _
    rfl

theorem writei_readi_three : ∃ t, writei 2 (.kernel fun _ => 7) 0 1 3 disk = .ok (3, t) ∧
    Wp (readi 2 (fun _ _ => true) 0 0 9) NoError (fun got _ => got = some [0, 7, 7, 7]) t := by
  have hrun : ∃ t, writei 2 (.kernel fun _ => 7) 0 1 3 disk = .ok (3, t) := ⟨_, rfl⟩
  obtain ⟨t, ht⟩ := hrun
  have hall := (writei_readi disk_good (show (disk.inode 2).valid = true from rfl) (by decide) (.kernel fun _ => 7) 0 1 3).of_eq_ok ht
  refine ⟨t, ht, ((hall.2 rfl).2.1 (fun _ _ => true) 0 0 9 fun _ _ => rfl).mono ?_⟩
  intro got _ hgot
  rw [hgot]
  decide

variable {kept : Nat → Prop} {s t : State} {ip : Nat}

/-- What `readi` of the byte at `x` returns. -/
def State.readAt (s : State) (ip : Nat) (x : BitVec 32) : Except Stop (Option (List Byte)) :=
  (readi ip (fun _ _ => true) 0 x 1).run' s

theorem readAt_eq (hg : Good kept s) (hv : (s.inode ip).valid = true) (ht : (s.cur ip).type ≠ 0)
    (hx : x.toNat < (s.cur ip).size) : s.readAt ip x = .ok (some [s.byteAt ip x.toNat]) := by
  obtain ⟨r, u, hr, hread⟩ := (wp_readi (E := NoError) hv hg ht (fun _ _ => true) 0 x 1).exists_ok
  have hmax : (s.cur ip).size ≤ MAXFILE * BSIZE := by
    by_contra hbig
    have hcov := hg.covers ip MAXFILE ht (Nat.lt_of_not_le hbig)
    rw [slotOf_indirect (by decide), State.addr, if_neg ht, if_neg (by decide)] at hcov
    split at hcov
    · exact hcov rfl
    · next h => exact h (.inr (by decide))
  have hno : ¬x + 1 < x := by
    have hadd : (x + 1).toNat = (x.toNat + 1) % 2 ^ 32 := BitVec.toNat_add x 1
    have hlim : MAXFILE * BSIZE < 2 ^ 32 := by decide
    rw [BitVec.lt_def, hadd]
    omega
  rw [State.readAt, StateT.run', hr]
  have hval := hread.2 fun _ _ => rfl
  rw [if_neg hno, content_slice (Nat.le_of_lt hx)] at hval
  have hone : min (1 : BitVec 32).toNat ((s.cur ip).size - x.toNat) = 1 := by
    have h1 : (1 : BitVec 32).toNat = 1 := rfl
    omega
  rw [hone] at hval
  rw [hval]
  rfl

/-- Every byte of the old file after those that were written reads as before. -/
def Unchanged (ip : Nat) (off : BitVec 32) (r : Int) (s t : State) : Prop :=
  ∀ x : BitVec 32, off.toNat + r ≤ x.toNat → x.toNat < (s.cur ip).size → t.readAt ip x = s.readAt ip x

/-- The request is refused, or the source can be read to its end, or what can be read of it for the block
of the file where it breaks off is what the file has there, as far as the file goes. -/
def Harmless (s : State) (ip : Nat) (src : Src) (a : Nat) (off n : BitVec 32) : Prop :=
  s.Refuses ip off n ∨ src.readable a n.toNat = n.toNat ∨
    ∀ x, off.toNat ≤ x → (off.toNat + src.readable a n.toNat) / BSIZE * BSIZE ≤ x →
      x < off.toNat + src.readable a n.toNat → x < (s.cur ip).size →
      src.byte? (a + (x - off.toNat)) = some (s.byteAt ip x)

variable {src : Src} {a off left : Nat} {W : Finset Nat} {u : State}

/-- Where the disk is full, the block that is missing comes after the end of the file. -/
theorem Wrote.end_le (hg : Good kept s) (ht : (s.cur ip).type ≠ 0)
    (hw : Wrote ip W kept src a off left s m p u)
    (h0 : u.addr ip (slotOf ((off + m) / BSIZE)) = 0) : (s.cur ip).size ≤ off + m := by
  by_contra hlt
  have hfloor := Nat.div_mul_le_self (off + m) BSIZE
  have hcov := hg.covers ip ((off + m) / BSIZE) ht (by omega)
  have hmono := hw.mono _ hcov
  rw [h0] at hmono
  exact hcov hmono.symm

/-- A short write leaves the rest of the file as it was just when the block where the source breaks off is
left as it was. -/
theorem short_write_clean_iff (hg : Good kept s) (hv : (s.inode ip).valid = true) (ht : (s.cur ip).type ≠ 0)
    (src : Src) (a : Nat) (off n : BitVec 32) :
    Wp (writei ip src a off n) (fun e => e = .tooBigATransaction)
      (fun r t => (r < n.toNat → Unchanged ip off r s t) ↔ Harmless s ip src a off n) s := by
  obtain ⟨W, hW⟩ := exists_spans off.toNat n.toNat
  apply ((wp_writei hg hv ht src a off n hW).weaken fun _ he => he.1).mono
  intro r t hr
  rcases hr with ⟨hrefuse, rfl, rfl⟩ | ⟨haccept, m, p, u, rfl, hw, hfin⟩
  · exact ⟨fun _ => .inl hrefuse, fun _ _ x _ _ => rfl⟩
  have hsizes := haccept
  rw [State.Refuses, not_or, Nat.not_lt, Nat.not_lt] at hsizes
  have hvt : (t.inode ip).valid = true := by rw [hfin.valid, hw.valid, hv]
  have htt : (t.cur ip).type ≠ 0 := by rwa [hfin.type, hw.type]
  have hread (x : BitVec 32) (hx : x.toNat < (s.cur ip).size) :
      t.readAt ip x = s.readAt ip x ↔ t.byteAt ip x.toNat = s.byteAt ip x.toNat := by
    have hxt : x.toNat < (t.cur ip).size := by
      rw [hfin.size, hw.size]
      exact Nat.lt_of_lt_of_le hx (Nat.le_max_left ..)
    rw [readAt_eq hfin.good hvt htt hxt, readAt_eq hg hv ht hx]
    simp only [Except.ok.injEq, Option.some.injEq, List.cons.injEq, and_true]
  have hbyte (x : Nat) : t.byteAt ip x = if off.toNat ≤ x ∧ x < off.toNat + (m + p) then
      (src.byte? (a + (x - off.toNat))).getD 0 else s.byteAt ip x := by
    rw [hfin.byteAt, hw.bytes]
  have hle := hw.le
  by_cases hm : m = n.toNat
  · -- nothing is missing
    have hp := hw.done hm
    have hfull : src.readable a n.toNat = n.toNat :=
      Src.readable_eq (Nat.le_refl _) (fun i hi => hw.there i (by omega)) fun h => absurd h (Nat.lt_irrefl _)
    exact ⟨fun _ => .inr (.inl hfull), fun _ hlt => absurd hlt (by omega)⟩
  · have hshort : (m : Int) < n.toNat := by omega
    rcases hw.short (by omega) with ⟨hnone, hlt, hin, -⟩ | ⟨rfl, h0, -⟩
    · -- the source breaks off
      have hreadable : src.readable a n.toNat = m + p :=
        Src.readable_eq (Nat.le_of_lt hlt) hw.there fun _ => hnone
      have hfloor : max off.toNat ((off.toNat + (m + p)) / BSIZE * BSIZE) = off.toNat + m := by
        have hdiv : (off.toNat + (m + p)) / BSIZE = (off.toNat + m) / BSIZE := by
          rw [← Nat.add_assoc]
          exact (div_add_of_lt (by omega)).1
        have hsum := Nat.div_add_mod (off.toNat + m) BSIZE
        rw [hdiv, Nat.mul_comm]
        rcases hw.aligned with h | h | h <;> omega
      constructor
      · intro hun
        refine .inr (.inr fun x h₁ h₂ h₃ h₄ => ?_)
        rw [hreadable] at h₂ h₃
        have hx : (BitVec.ofNat 32 x).toNat = x := by
          rw [BitVec.toNat_ofNat, Nat.mod_eq_of_lt]
          have hlim : MAXFILE * BSIZE < 2 ^ 32 := by decide
          omega
        have hsame := hun hshort (BitVec.ofNat 32 x) (by rw [hx]; omega) (by rwa [hx])
        rw [hread _ (by rwa [hx]), hx, hbyte, if_pos ⟨h₁, h₃⟩] at hsame
        have hthere := hw.there (x - off.toNat) (by omega)
        cases hb : src.byte? (a + (x - off.toNat)) with
        | none => exact absurd hb hthere
        | some c =>
          rw [hb] at hsame
          exact congrArg some hsame
      · intro hharm _ x hx hlast
        rw [hread x hlast, hbyte]
        split
        · next hc =>
          rcases hharm with h | h | h
          · exact absurd h haccept
          · omega
          · rw [hreadable] at h
            rw [h x.toNat hc.1 (by omega) hc.2 hlast]
            rfl
        · rfl
    · -- the disk is full
      have hend := hw.end_le hg ht h0
      have hreadable : m ≤ src.readable a n.toNat := by
        by_contra hlt
        have hc := eitherCopyin_copied src a n.toNat
        rw [Src.readable] at hlt
        cases hok : (eitherCopyin src a n.toNat).2 with
        | true =>
          have hall := hc.all hok
          omega
        | false => exact hw.there _ (by omega) (hc.fault hok).2
      constructor
      · intro _
        refine .inr (.inr fun x h₁ h₂ h₃ h₄ => ?_)
        exfalso
        have hfloor : (off.toNat + m) / BSIZE * BSIZE ≤
            (off.toNat + src.readable a n.toNat) / BSIZE * BSIZE :=
          Nat.mul_le_mul_right _ (Nat.div_le_div_right (by omega))
        have hsum := Nat.div_add_mod (off.toNat + m) BSIZE
        rw [Nat.mul_comm] at hsum
        rcases hw.aligned with h | h | h <;> omega
      · intro _ _ x hx hlast
        rw [hread x hlast, hbyte, if_neg (by omega)]

theorem short_write_clean_iff_disk :
    Wp (writei 2 (.user fun _ => none) 0 0 1) (fun e => e = .tooBigATransaction)
      (fun r t => (r < 1 → Unchanged 2 0 r disk t) ↔ Harmless disk 2 (.user fun _ => none) 0 0 1) disk :=
  short_write_clean_iff disk_good rfl (by decide) _ 0 0 1

/-- A page of sevens, and no page after it. -/
def lastPage : Src := .user fun i => if i = 0 then some fun _ => 7 else none

theorem short_write_spoils : ¬ ∀ (kept : Nat → Prop) (s : State) (ip a : Nat) (src : Src) (off n : BitVec 32),
    Good kept s → (s.inode ip).valid = true → (s.cur ip).type ≠ 0 →
    Wp (writei ip src a off n) (fun e => e = .tooBigATransaction)
      (fun r t => r < n.toNat → Unchanged ip off r s t) s := by
  intro hall
  have hrun : ∃ t, writei 2 lastPage 4095 0 2 disk = .ok (0, t) ∧ t.readAt 2 0 = .ok (some [7]) := ⟨_, rfl, rfl⟩
  obtain ⟨t, ht, hread⟩ := hrun
  have hsame := (hall _ disk 2 4095 lastPage 0 2 disk_good rfl (by decide)).of_eq_ok ht (by decide) 0 (by decide)
    (by decide)
  have hold : disk.readAt 2 0 = .ok (some [0]) := rfl
  rw [hread, hold] at hsame
  injection hsame with hsame
  injection hsame with hsame
  injection hsame with hsame
  exact absurd hsame (by decide)

end PbsCow.Blocks
