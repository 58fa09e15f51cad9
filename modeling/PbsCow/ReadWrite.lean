import PbsCow.BlockFills

namespace PbsCow.Blocks
set_option autoImplicit true

/-- Byte `x` of what the blocks of an inode hold. -/
def State.byteAt (s : State) (ip x : Nat) : Byte := s.block ip (slotOf (x / BSIZE)) (x % BSIZE)

def State.content (s : State) (ip : Nat) : List Byte := (List.range (s.cur ip).size).map (s.byteAt ip)

/-- A byte of the source, where the process has a page for it. -/
def Src.byte? : Src → Nat → Option Byte
  | .kernel mem, a => some (mem a)
  | .user page, a => (page (a / PGSIZE)).map fun p => p (a % PGSIZE)

/-- How many bytes `either_copyin` copies of `n`. -/
def Src.readable (src : Src) (a n : Nat) : Nat := (eitherCopyin src a n).1.length

/-- What `either_copyin` copies: all, or the bytes before the first that is not there. -/
structure Copied (byte? : Nat → Option Byte) (a n : Nat) (r : List Byte × Bool) : Prop where
  le : r.1.length ≤ n
  bytes : ∀ i, i < r.1.length → byte? (a + i) = some (r.1.getD i 0)
  all : r.2 = true → r.1.length = n
  fault : r.2 = false → r.1.length < n ∧ byte? (a + r.1.length) = none

theorem getD_range_map (f : Nat → Byte) (hi : i < n) : ((List.range n).map f).getD i 0 = f i := by
  rw [List.getD_eq_getElem _ _ (by rwa [List.length_map, List.length_range]), List.getElem_map, List.getElem_range]

theorem copyin_copied (page : Nat → Option (Nat → Byte)) (h : n ≤ fuel) :
    Copied (Src.user page).byte? a n (copyin page fuel a n) := by
  induction fuel generalizing a n with
  | zero =>
    obtain rfl : n = 0 := Nat.le_zero.1 h
    exact ⟨Nat.le_refl _, fun i hi => absurd hi (Nat.not_lt_zero i), fun _ => rfl, nofun⟩
  | succ fuel ih =>
    rw [copyin]
    by_cases hn : n = 0
    · rw [if_pos hn, hn]
      exact ⟨Nat.le_refl _, fun i hi => absurd hi (Nat.not_lt_zero i), fun _ => rfl, nofun⟩
    · rw [if_neg hn]
      cases hp : page (a / PGSIZE) with
      | none =>
        refine ⟨Nat.zero_le n, fun i hi => absurd hi (Nat.not_lt_zero i), nofun, fun _ => ?_⟩
        exact ⟨Nat.pos_of_ne_zero hn, by simp [Src.byte?, hp]⟩
      | some p =>
        obtain ⟨m, hm⟩ : ∃ m, m = min n (PGSIZE - a % PGSIZE) := ⟨_, rfl⟩
        have hpage : a % PGSIZE < PGSIZE := Nat.mod_lt a (by decide)
        have hpos : 0 < m := by omega
        have hmn : m ≤ n := hm ▸ Nat.min_le_left ..
        have hmp : a % PGSIZE + m ≤ PGSIZE := by omega
        have hrest := ih (a := a + m) (n := n - m) (by omega)
        simp only [← hm]
        obtain ⟨rest, hr⟩ : ∃ rest, rest = copyin page fuel (a + m) (n - m) := ⟨_, rfl⟩
        rw [← hr] at hrest ⊢
        have hlen : ((List.range m).map (fun i => p (a % PGSIZE + i)) ++ rest.1).length = m + rest.1.length := by
          rw [List.length_append, List.length_map, List.length_range]
        constructor
        · rw [hlen]
          have hle := hrest.le
          omega
        · intro i hi
          rw [hlen] at hi
          by_cases him : i < m
          · have hdiv : (a + i) / PGSIZE = a / PGSIZE := by
              rw [Nat.div_eq_iff (by decide)]
              have hsum := Nat.div_add_mod a PGSIZE
              rw [PGSIZE] at *
              omega
            have hmod : (a + i) % PGSIZE = a % PGSIZE + i := by
              have h₁ := Nat.div_add_mod a PGSIZE
              have h₂ := Nat.div_add_mod (a + i) PGSIZE
              rw [hdiv] at h₂
              omega
            rw [List.getD_append _ _ _ _ (by rwa [List.length_map, List.length_range]), getD_range_map _ him,
              Src.byte?, hdiv, hmod, hp]
            rfl
          · have hb := hrest.bytes (i - m) (by omega)
            rw [List.getD_append_right _ _ _ _ (by
                rw [List.length_map, List.length_range]
                exact Nat.le_of_not_lt him),
              List.length_map, List.length_range, ← hb]
            congr 1
            omega
        · intro hok
          rw [hlen, hrest.all hok]
          omega
        · intro hbad
          obtain ⟨hlt, hnone⟩ := hrest.fault hbad
          rw [hlen, ← Nat.add_assoc]
          exact ⟨by omega, hnone⟩

theorem eitherCopyin_copied (src : Src) (a n : Nat) : Copied src.byte? a n (eitherCopyin src a n) := by
  cases src with
  | kernel mem =>
    have hlen : (eitherCopyin (.kernel mem) a n).1.length = n := by
      rw [eitherCopyin, List.length_map, List.length_range]
    constructor
    · exact Nat.le_of_eq hlen
    · intro i hi
      rw [hlen] at hi
      rw [eitherCopyin, getD_range_map _ hi]
      rfl
    · exact fun _ => hlen
    · intro h
      cases h
  | user page => exact copyin_copied page (Nat.le_refl n)

/-- The bytes that can be read end where the first is not there. -/
theorem Src.readable_eq {src : Src} (hk : k ≤ n) (hall : ∀ i, i < k → src.byte? (a + i) ≠ none)
    (hend : k < n → src.byte? (a + k) = none) : src.readable a n = k := by
  have hc := eitherCopyin_copied src a n
  rw [Src.readable]
  rcases Nat.lt_trichotomy (eitherCopyin src a n).1.length k with hlt | he | hgt
  · cases hok : (eitherCopyin src a n).2 with
    | true =>
      have hn := hc.all hok
      omega
    | false => exact absurd (hc.fault hok).2 (hall _ hlt)
  · exact he
  · have hle := hc.le
    have hb := hc.bytes k hgt
    rw [hend (by omega)] at hb
    cases hb

variable {s : State} {ip : Nat}

theorem div_add_of_lt (hi : i < BSIZE - off % BSIZE) : (off + i) / BSIZE = off / BSIZE ∧ (off + i) % BSIZE = off % BSIZE + i := by
  have hlt : off % BSIZE < BSIZE := Nat.mod_lt off (by decide)
  have hdiv : (off + i) / BSIZE = off / BSIZE := by
    rw [Nat.div_eq_iff (by decide)]
    have hsum := Nat.div_add_mod off BSIZE
    rw [BSIZE] at *
    omega
  have h₁ := Nat.div_add_mod off BSIZE
  have h₂ := Nat.div_add_mod (off + i) BSIZE
  rw [hdiv] at h₂
  exact ⟨hdiv, by omega⟩

/-- The part of a block that a loop moves at once. -/
theorem read_block (h : s.addr ip (slotOf (off / BSIZE)) ≠ 0) (hm : m ≤ BSIZE - off % BSIZE) :
    (s.bread (s.addr ip (slotOf (off / BSIZE)))).read (off % BSIZE) m =
      (List.range m).map fun i => s.byteAt ip (off + i) := by
  rw [Block.read, List.map_inj_left]
  intro i hi
  rw [List.mem_range] at hi
  have hlt : i < BSIZE - off % BSIZE := Nat.lt_of_lt_of_le hi hm
  obtain ⟨hdiv, hmod⟩ := div_add_of_lt hlt
  rw [State.byteAt, hdiv, hmod, State.block, if_neg h]

theorem content_slice (hoff : off ≤ (s.cur ip).size) : ((s.content ip).drop off).take n =
    (List.range (min n ((s.cur ip).size - off))).map fun i => s.byteAt ip (off + i) := by
  have hsplit : List.range (s.cur ip).size =
      List.range off ++ (List.range ((s.cur ip).size - off)).map (off + ·) := by
    rw [← List.range_add, Nat.add_sub_cancel' hoff]
  rw [State.content, hsplit, List.map_append, List.drop_append_of_le_length
    (by rw [List.length_map, List.length_range]), List.drop_of_length_le
    (by rw [List.length_map, List.length_range]), List.nil_append, List.map_map, ← List.map_take, List.take_range]
  rfl

section reading

variable (hv : (s.inode ip).valid = true)
include hv

theorem mapAddr_hit (hk : k ≤ NDIRECT) (h : s.addr ip k ≠ 0) :
    Wp (mapAddr ip k) E (fun b t => b = s.addr ip k ∧ t = s) s := by
  have ht : (s.cur ip).type ≠ 0 := by
    intro h0
    rw [State.addr, if_pos h0] at h
    exact h rfl
  have haddr : s.addr ip k = (s.inode ip).dinode.addrs k := by
    rw [State.addr, if_neg ht, if_pos hk, State.cur, if_pos hv]
  rw [haddr] at h ⊢
  rw [mapAddr, wp_bind, wp_get]
  exact .ite_pos h (wp_pure.2 ⟨rfl, rfl⟩)

/-- A block that is there is found, and nothing changes. -/
theorem bmap_hit (h : s.addr ip (slotOf bn) ≠ 0) :
    Wp (bmap ip bn) E (fun b t => b = s.addr ip (slotOf bn) ∧ t = s) s := by
  rw [bmap]
  by_cases hd : bn < NDIRECT
  · apply Wp.ite_pos hd
    rw [slotOf_direct hd] at h ⊢
    exact mapAddr_hit hv (Nat.le_of_lt hd) h
  · apply Wp.ite_neg hd
    rw [slotOf_indirect hd] at h ⊢
    have ht : (s.cur ip).type ≠ 0 := by
      intro h0
      rw [State.addr, if_pos h0] at h
      exact h rfl
    have hentry : s.addr ip (NDIRECT + 1 + (bn - NDIRECT)) =
        if (s.cur ip).addrs NDIRECT = 0 ∨ NDIRECT + NINDIRECT < NDIRECT + 1 + (bn - NDIRECT) then 0
        else (s.bread ((s.cur ip).addrs NDIRECT)).uint (bn - NDIRECT) := by
      rw [State.addr, if_neg ht, if_neg (by omega), Nat.add_sub_cancel_left]
    have hind : s.addr ip NDIRECT = (s.cur ip).addrs NDIRECT := by
      rw [State.addr, if_neg ht, if_pos (Nat.le_refl _)]
    have hboth : ¬((s.cur ip).addrs NDIRECT = 0 ∨ NDIRECT + NINDIRECT < NDIRECT + 1 + (bn - NDIRECT)) := by
      intro hb
      rw [hentry, if_pos hb] at h
      exact h rfl
    rw [hentry, if_neg hboth] at h ⊢
    rw [← hind] at hboth h ⊢
    apply Wp.ite_pos (show bn - NDIRECT < NINDIRECT by omega)
    apply (mapAddr_hit hv (Nat.le_refl _) fun h0 => hboth (.inl h0)).bind
    intro b t hb
    obtain ⟨rfl, rfl⟩ := hb
    apply Wp.ite_neg fun h0 => hboth (.inl h0)
    rw [mapEntry, wp_bind, wp_get]
    exact .ite_pos h (wp_pure.2 ⟨rfl, rfl⟩)

theorem wp_readLoop (hfuel : left ≤ fuel) (hall : ∀ bn, bn * BSIZE < off + left → s.addr ip (slotOf bn) ≠ 0) :
    Wp (readLoop ip out fuel dst off left bytes) E (fun r t => t = s ∧ ((∀ a m, out a m = true) →
      r = some (bytes ++ (List.range left).map fun i => s.byteAt ip (off + i)))) s := by
  induction fuel generalizing dst off left bytes with
  | zero =>
    obtain rfl : left = 0 := Nat.le_zero.1 hfuel
    exact wp_pure.2 ⟨rfl, fun _ => by rw [List.range_zero, List.map_nil, List.append_nil]⟩
  | succ fuel ih =>
    rw [readLoop]
    by_cases h0 : left = 0
    · apply Wp.ite_pos h0
      rw [h0]
      exact wp_pure.2 ⟨rfl, fun _ => by rw [List.range_zero, List.map_nil, List.append_nil]⟩
    · apply Wp.ite_neg h0
      have hlt : off % BSIZE < BSIZE := Nat.mod_lt off (by decide)
      have hblock : s.addr ip (slotOf (off / BSIZE)) ≠ 0 := by
        apply hall
        have hle := Nat.div_mul_le_self off BSIZE
        omega
      apply (bmap_hit hv hblock).bind
      intro b t hb
      obtain ⟨rfl, rfl⟩ := hb
      apply Wp.ite_neg hblock
      rw [wp_bind, wp_get]
      obtain ⟨m, hm⟩ : ∃ m, m = min left (BSIZE - off % BSIZE) := ⟨_, rfl⟩
      simp only [← hm]
      have hmle : m ≤ left := hm ▸ Nat.min_le_left ..
      by_cases hout : out dst m = true
      · apply Wp.ite_pos hout
        rw [read_block hblock (hm ▸ Nat.min_le_right ..)]
        apply (@ih (left - m) (off + m) (dst + m) _ (by omega) _).mono
        · intro r u hr
          refine ⟨hr.1, fun hall => ?_⟩
          rw [hr.2 hall, List.append_assoc]
          have hsplit : List.range left = List.range m ++ (List.range (left - m)).map (m + ·) := by
            rw [← List.range_add, Nat.add_sub_cancel' hmle]
          rw [hsplit, List.map_append, List.map_map]
          congr 3
          apply List.map_congr_left
          intro i _
          rw [Function.comp_apply, Nat.add_assoc]
        · intro bn hbn
          apply hall
          omega
      · apply Wp.ite_neg hout
        exact wp_pure.2 ⟨rfl, fun h => absurd (h dst m) hout⟩

/-- `readi` copies the bytes of the range that are within the size, and changes nothing. -/
theorem wp_readi (hg : Good kept s) (ht : (s.cur ip).type ≠ 0) (out : Nat → Nat → Bool) (dst : Nat)
    (off n : BitVec 32) : Wp (readi ip out dst off n) E (fun r t => t = s ∧ ((∀ a m, out a m = true) →
      r = some (if off + n < off then [] else ((s.content ip).drop off.toNat).take n.toNat))) s := by
  have hcur : (s.inode ip).dinode.size = (s.cur ip).size := by rw [State.cur, if_pos hv]
  rw [readi, wp_bind, wp_get]
  dsimp only
  rw [hcur]
  apply Wp.ite
  · intro h
    refine wp_pure.2 ⟨rfl, fun _ => ?_⟩
    rcases h with h | h
    · rw [List.drop_of_length_le, List.take_nil, ite_self]
      rw [State.content, List.length_map, List.length_range]
      exact Nat.le_of_lt h
    · rw [if_pos h]
  · intro h
    rw [not_or, Nat.not_lt] at h
    obtain ⟨hoff, hno⟩ := h
    have hsum : (off + n).toNat = off.toNat + n.toNat := by
      rw [BitVec.lt_def, Nat.not_lt, BitVec.toNat_add] at hno
      rw [BitVec.toNat_add]
      have h₁ := off.isLt
      have h₂ := n.isLt
      omega
    have hleft : (if (s.cur ip).size < (off + n).toNat then (s.cur ip).size - off.toNat else n.toNat) =
        min n.toNat ((s.cur ip).size - off.toNat) := by
      rw [hsum]
      split <;> omega
    rw [hleft]
    apply (wp_readLoop hv (Nat.le_refl _) _).mono
    · intro r t hr
      refine ⟨hr.1, fun hall => ?_⟩
      rw [hr.2 hall, List.nil_append, if_neg hno, content_slice hoff]
    · intro bn hbn
      apply hg.covers ip bn ht
      omega

end reading

section writing

variable (hg : Good kept s) (hne : s.addr ip k ≠ 0) (hk : k ≠ NDIRECT) (bp : Block)
include hg hne hk

omit hne in
theorem addr_put : (s.put (s.addr ip k) bp).addr = s.addr := by
  funext i j
  apply addr_congr (s := s) (t := s.put (s.addr ip k) bp) rfl
  intro hi
  have hsame : s.addr i NDIRECT ≠ s.addr ip k := fun he => hk (hg.slot_eq hi he).2.symm
  rw [bread_put, if_neg hsame]

theorem block_put (i j : Nat) : (s.put (s.addr ip k) bp).block i j = if i = ip ∧ j = k then bp else s.block i j := by
  rw [State.block, addr_put hg hk, State.block, bread_put]
  by_cases hij : i = ip ∧ j = k
  · rw [if_pos hij, hij.1, hij.2, if_neg hne, if_pos rfl]
  · rw [if_neg hij]
    by_cases h0 : s.addr i j = 0
    · rw [if_pos h0, if_pos h0]
    · rw [if_neg h0, if_neg h0, if_neg]
      intro he
      obtain ⟨rfl, rfl⟩ := hg.slot_eq h0 he
      exact hij ⟨rfl, rfl⟩

omit hne in
theorem Good.put : Good kept (s.put (s.addr ip k) bp) := by
  have haddr : (s.put (s.addr ip k) bp).addr = s.addr := addr_put hg hk bp
  constructor
  · have href : (s.put (s.addr ip k) bp).ref = s.ref := by
      funext a
      rw [State.ref, haddr]
      rfl
    rw [href]
    exact hg.allots
  · exact hg.metadata
  · exact hg.size_lt
  · rw [haddr]
    exact hg.covers
  · rw [haddr]
    intro i hi
    have hsame : s.addr i NDIRECT ≠ s.addr ip k := fun he => hk (hg.slot_eq hi he).2.symm
    exact (Function.update_of_ne hsame ..).trans (hg.clean i hi)

theorem keeps_put : Keeps ip W s (s.put (s.addr ip k) bp) := by
  have haddr : (s.put (s.addr ip k) bp).addr = s.addr := addr_put hg hk bp
  constructor
  · exact ⟨rfl, rfl, rfl, rfl, rfl, rfl, fun _ _ => rfl, rfl, rfl, rfl⟩
  · intro i j _
    rw [haddr]
  · intro j _
    rw [haddr]
  · intro j hj
    rw [haddr] at hj
    exact .inl hj
  · rw [State.filled, haddr]
    rfl
  · intro i j hi _
    rw [block_put hg hne hk, if_neg fun h => hi h.1]
  · intro hf
    refine ⟨hf.size, hf.nodup, ?_⟩
    rw [haddr]
    exact hf.logged

end writing

theorem Keeps.log (s : State) (hk : k ∈ W) (hne : s.addr ip k ≠ 0) : Keeps ip W s (s.log (s.addr ip k)) := by
  constructor
  · exact ⟨rfl, rfl, rfl, rfl, rfl, rfl, fun _ _ => rfl, rfl, rfl, rfl⟩
  · intro i j _
    rw [addr_log]
  · intro j _
    rw [addr_log]
  · intro j hj
    rw [addr_log] at hj
    exact .inl hj
  · rw [State.filled, addr_log]
    rfl
  · intro i j _ _
    rw [block_log]
  · exact fun hf => hf.log (.inr (.inr ⟨k, hk, rfl, hne⟩))

theorem byteAt_log (s : State) (b : Nat) : (s.log b).byteAt = s.byteAt := by
  funext i x
  rw [State.byteAt, block_log]
  rfl

theorem byteAt_put (hg : Good kept s) (hne : s.addr ip (slotOf bn) ≠ 0) (bs : List Byte) (o x : Nat)
    (hfit : o + bs.length ≤ BSIZE) :
    (s.put (s.addr ip (slotOf bn)) ((s.bread (s.addr ip (slotOf bn))).write o bs)).byteAt ip x =
      if bn * BSIZE + o ≤ x ∧ x < bn * BSIZE + o + bs.length then bs.getD (x - (bn * BSIZE + o)) 0
      else s.byteAt ip x := by
  rw [State.byteAt, block_put hg hne (slotOf_ne bn)]
  have hsum := Nat.div_add_mod x BSIZE
  have hlt : x % BSIZE < BSIZE := Nat.mod_lt x (by decide)
  by_cases hbn : x / BSIZE = bn
  · subst hbn
    rw [if_pos ⟨rfl, rfl⟩, Block.write]
    by_cases ho : o ≤ x % BSIZE ∧ x % BSIZE < o + bs.length
    · rw [if_pos ho, if_pos (by rw [Nat.mul_comm]; omega)]
      congr 1
      rw [Nat.mul_comm]
      omega
    · rw [if_neg ho, if_neg (by rw [Nat.mul_comm]; omega), State.byteAt, State.block, if_neg hne]
  · rw [if_neg fun h => hbn (slotOf_inj h.2), if_neg]
    · rfl
    · rintro ⟨h₁, h₂⟩
      apply hbn
      rw [Nat.div_eq_iff (by decide)]
      rw [BSIZE] at *
      omega

theorem Grows.byteAt (h : Grows ip W s t) : t.byteAt = s.byteAt := by
  funext i x
  rw [State.byteAt, State.byteAt]
  by_cases hi : i = ip
  · rw [hi, h.block _ (slotOf_ne _)]
  · rw [h.blocks i _ hi (slotOf_ne _)]

/-- What the loop of `writei` has done with `m` bytes written: `p` more have been copied to a buffer that has
not been logged. -/
structure Wrote (ip : Nat) (W : Finset Nat) (kept : Nat → Prop) (src : Src) (a off left : Nat) (s : State)
    (m p : Nat) (t : State) : Prop extends Keeps ip W s t where
  good : Good kept t
  le : m + p ≤ left
  covered : ∀ bn, bn * BSIZE < off + m → t.addr ip (slotOf bn) ≠ 0
  there : ∀ i, i < m + p → src.byte? (a + i) ≠ none
  bytes : ∀ x, t.byteAt ip x =
    if off ≤ x ∧ x < off + (m + p) then (src.byte? (a + (x - off))).getD 0 else s.byteAt ip x
  aligned : m = 0 ∨ m = left ∨ (off + m) % BSIZE = 0
  short : m < left → (src.byte? (a + (m + p)) = none ∧ m + p < left ∧ (off + m) % BSIZE + p < BSIZE ∧
      t.addr ip (slotOf ((off + m) / BSIZE)) ≠ 0) ∨
    (p = 0 ∧ t.addr ip (slotOf ((off + m) / BSIZE)) = 0 ∧ t.free = 0)
  done : m = left → p = 0

/-- Slots `W` are enough for a range of bytes. -/
def Spans (W : Finset Nat) (off left : Nat) : Prop :=
  0 < left → ∀ bn, off / BSIZE ≤ bn → bn * BSIZE < off + left → slotOf bn ∈ W ∧ (NDIRECT ≤ bn → NDIRECT ∈ W)

theorem Wrote.nothing (hg : Good kept s) (hbelow : ∀ bn, bn * BSIZE < off → s.addr ip (slotOf bn) ≠ 0) :
    Wrote ip W kept src a off 0 s 0 0 s where
  toKeeps := .refl ip W s
  good := hg
  le := Nat.le_refl 0
  covered := hbelow
  there i hi := absurd hi (Nat.not_lt_zero i)
  bytes x := by rw [if_neg (by omega)]
  aligned := .inl rfl
  short h := absurd h (Nat.lt_irrefl 0)
  done _ := rfl

/-- One turn of the loop and those after it. -/
theorem Wrote.turn (hu : Keeps ip W s u) (hm : 0 < m) (hlast : m = left ∨ (off + m) % BSIZE = 0)
    (hthere : ∀ i, i < m → src.byte? (a + i) ≠ none)
    (hbytes : ∀ x, u.byteAt ip x =
      if off ≤ x ∧ x < off + m then (src.byte? (a + (x - off))).getD 0 else s.byteAt ip x)
    (hle : m ≤ left) (h : Wrote ip W kept src (a + m) (off + m) (left - m) u m' p t) :
    Wrote ip W kept src a off left s (m + m') p t where
  toKeeps := hu.trans h.toKeeps
  good := h.good
  le := by
    have hle' := h.le
    omega
  covered bn hbn := h.covered bn (by omega)
  there i hi := by
    by_cases him : i < m
    · exact hthere i him
    · have hi' := h.there (i - m) (by omega)
      rwa [Nat.add_assoc, Nat.add_sub_cancel' (Nat.le_of_not_lt him)] at hi'
  bytes x := by
    rw [h.bytes x]
    by_cases h₁ : off + m ≤ x ∧ x < off + m + (m' + p)
    · rw [if_pos h₁, if_pos (by omega)]
      congr 2
      omega
    · rw [if_neg h₁, hbytes x]
      by_cases h₂ : off ≤ x ∧ x < off + m
      · rw [if_pos h₂, if_pos (by omega)]
      · rw [if_neg h₂, if_neg (by omega)]
  aligned := by
    right
    rcases h.aligned with h₀ | h₀ | h₀
    · rw [h₀, Nat.add_zero]
      exact hlast
    · left
      omega
    · right
      rwa [← Nat.add_assoc]
  short hlt := by
    have hs := h.short (by omega)
    rw [← Nat.add_assoc off]
    rcases hs with ⟨h₁, h₂, h₃, h₄⟩ | hs
    · refine .inl ⟨?_, by omega, h₃, h₄⟩
      rwa [Nat.add_assoc a, ← Nat.add_assoc m] at h₁
    · exact .inr hs
  done he := h.done (by omega)

section

variable {src : Src} {a off left tot fuel : Nat} {W : Finset Nat} {kept : Nat → Prop}

/-- The buffer of the block, with the bytes that have been copied. -/
theorem Keeps.wrote_bytes (hgu : Good kept u) (hblock : u.addr ip (slotOf (off / BSIZE)) ≠ 0)
    (hc : Copied src.byte? a m r) (hm : m ≤ BSIZE - off % BSIZE) (x : Nat) :
    (u.put (u.addr ip (slotOf (off / BSIZE)))
      ((u.bread (u.addr ip (slotOf (off / BSIZE)))).write (off % BSIZE) r.1)).byteAt ip x =
      if off ≤ x ∧ x < off + r.1.length then (src.byte? (a + (x - off))).getD 0 else u.byteAt ip x := by
  have hlen := hc.le
  have hlt : off % BSIZE < BSIZE := Nat.mod_lt off (by decide)
  have hsum := Nat.div_add_mod off BSIZE
  rw [byteAt_put hgu hblock _ _ _ (by omega), Nat.mul_comm, hsum]
  by_cases hx : off ≤ x ∧ x < off + r.1.length
  · rw [if_pos hx, if_pos hx, hc.bytes (x - off) (by omega)]
    rfl
  · rw [if_neg hx, if_neg hx]

theorem wp_writeLoop (tot : Nat) (hg : Good kept s) (hv : (s.inode ip).valid = true) (ht : (s.cur ip).type ≠ 0)
    (hfuel : left ≤ fuel) (hmax : off + left ≤ MAXFILE * BSIZE) (hW : Spans W off left)
    (hbelow : ∀ bn, bn * BSIZE < off → s.addr ip (slotOf bn) ≠ 0) :
    Wp (writeLoop ip src a fuel off left tot) (Over ip W s)
      (fun r t => ∃ m p, r = tot + m ∧ Wrote ip W kept src (a + tot) off left s m p t) s := by
  induction fuel generalizing s off left tot with
  | zero =>
    obtain rfl : left = 0 := Nat.le_zero.1 hfuel
    exact wp_pure.2 ⟨0, 0, rfl, .nothing hg hbelow⟩
  | succ fuel ih =>
    rw [writeLoop]
    by_cases h0 : left = 0
    · apply Wp.ite_pos h0
      subst h0
      exact wp_pure.2 ⟨0, 0, rfl, .nothing hg hbelow⟩
    apply Wp.ite_neg h0
    have hlt : off % BSIZE < BSIZE := Nat.mod_lt off (by decide)
    have hfloor := Nat.div_mul_le_self off BSIZE
    have hin : off / BSIZE * BSIZE < off + left := by omega
    obtain ⟨hslot, hI⟩ := hW (Nat.pos_of_ne_zero h0) _ (Nat.le_refl _) hin
    have hbn : off / BSIZE < MAXFILE := by
      rw [Nat.div_lt_iff_lt_mul (by decide)]
      omega
    apply (wp_bmap hg hv ht hbn hslot hI).bind
    intro b u hf
    have hbelow' (bn : Nat) (h : bn * BSIZE < off) : u.addr ip (slotOf bn) ≠ 0 := by
      rw [hf.mono _ (hbelow bn h)]
      exact hbelow bn h
    have hbytes := hf.toGrows.byteAt
    have hb := hf.addr
    by_cases hzero : b = 0
    · apply Wp.ite_pos hzero
      refine wp_pure.2 ⟨0, 0, rfl, hf.toKeeps, hf.good, Nat.zero_le _, ?_, ?_, ?_, .inl rfl, ?_, fun _ => rfl⟩
      · exact hbelow'
      · exact fun i hi => absurd hi (Nat.not_lt_zero i)
      · intro x
        rw [if_neg (by omega), hbytes]
      · exact fun _ => .inr ⟨rfl, by rw [Nat.add_zero, ← hb, hzero], hf.full hzero⟩
    · apply Wp.ite_neg hzero
      have hgu := hf.good
      have hkeep := hf.toKeeps
      clear hf
      subst hb
      obtain ⟨m, hm⟩ : ∃ m, m = min left (BSIZE - off % BSIZE) := ⟨_, rfl⟩
      simp only [← hm]
      have hmle : m ≤ left := hm ▸ Nat.min_le_left ..
      have hmb : m ≤ BSIZE - off % BSIZE := hm ▸ Nat.min_le_right ..
      have hc := eitherCopyin_copied src (a + tot) m
      obtain ⟨r, hr⟩ : ∃ r, r = eitherCopyin src (a + tot) m := ⟨_, rfl⟩
      rw [← hr] at hc ⊢
      obtain ⟨bp, hbp⟩ : ∃ bp, bp = (u.bread (u.addr ip (slotOf (off / BSIZE)))).write (off % BSIZE) r.1 := ⟨_, rfl⟩
      have hput := Keeps.wrote_bytes hgu hzero hc hmb
      rw [wp_bind, setBuf, wp_modify]
      rw [← hbp] at hput ⊢
      have hgp : Good kept (u.put (u.addr ip (slotOf (off / BSIZE))) bp) := hgu.put (slotOf_ne _) bp
      have hkeep' : Keeps ip W s _ := hkeep.trans (keeps_put hgu hzero (slotOf_ne _) bp)
      have hap : (u.put (u.addr ip (slotOf (off / BSIZE))) bp).addr = u.addr := addr_put hgu (slotOf_ne _) bp
      obtain ⟨v, hveq⟩ : ∃ v, v = u.put (u.addr ip (slotOf (off / BSIZE))) bp := ⟨_, rfl⟩
      rw [← hveq] at hput hgp hap hkeep' ⊢
      simp only [hbytes] at hput
      cases hok : r.2 with
      | false =>
        -- the buffer has been changed and is not logged
        obtain ⟨hshort, hnone⟩ := hc.fault hok
        apply Wp.ite_neg (by decide)
        refine wp_pure.2 ⟨0, r.1.length, rfl, hkeep', hgp, by omega, ?_, ?_, ?_, .inl rfl, ?_, ?_⟩
        · rw [hap]
          exact hbelow'
        · intro i hi
          rw [hc.bytes i (by omega)]
          exact Option.some_ne_none _
        · intro x
          rw [hput, Nat.zero_add]
        · intro _
          rw [Nat.zero_add, Nat.add_zero, hap]
          exact .inl ⟨hnone, by omega, by omega, hzero⟩
        · exact fun h => absurd h.symm h0
      | true =>
        apply Wp.ite_pos rfl
        have hall := hc.all hok
        have hv' : (v.inode ip).valid = true := by rw [hkeep'.valid, hv]
        have ht' : (v.cur ip).type ≠ 0 := by rwa [hkeep'.type]
        rw [← hap] at hzero ⊢
        have hlog := Keeps.log v hslot hzero
        have hkeep'' := hkeep'.trans hlog
        rw [wp_bind]
        apply wp_logWrite
        · intro hroom
          refine ⟨rfl, fun hfit => ?_⟩
          have h₁ := (hkeep'.fits hfit.1).length
          have h₂ := hfit.2
          have h₃ := hkeep'.room
          omega
        · intro _
          have hspan : Spans W (off + m) (left - m) := by
            intro hpos bn h₁ h₂
            apply hW (by omega) bn
            · exact Nat.le_trans (Nat.div_le_div_right (Nat.le_add_right off m)) h₁
            · omega
          have hcover (bn : Nat) (h : bn * BSIZE < off + m) :
              (v.log (v.addr ip (slotOf (off / BSIZE)))).addr ip (slotOf bn) ≠ 0 := by
            rw [addr_log]
            by_cases hlow : bn * BSIZE < off
            · rw [hap]
              exact hbelow' bn hlow
            · have hbn' : bn = off / BSIZE := by
                have hsum := Nat.div_add_mod off BSIZE
                rw [BSIZE] at *
                omega
              rwa [hbn']
          apply ((ih (tot + m) (hgp.log _) (by rw [hlog.valid, hv']) (by rwa [hlog.type])
            (by omega) (by omega) hspan hcover).weaken fun _ he => hkeep''.overrun he).mono
          intro r' t hr'
          obtain ⟨m', p, hr', hw⟩ := hr'
          refine ⟨m + m', p, by omega, ?_⟩
          rw [← Nat.add_assoc] at hw
          apply Wrote.turn hkeep'' (by omega) _ _ _ hmle hw
          · by_cases hl : m = left
            · exact .inl hl
            · right
              have hsum := Nat.div_add_mod off BSIZE
              have hend : off + m = BSIZE * (off / BSIZE + 1) := by
                rw [Nat.mul_add]
                omega
              rw [hend, Nat.mul_mod_right]
          · intro i hi
            rw [hc.bytes i (by omega)]
            exact Option.some_ne_none _
          · intro x
            rw [byteAt_log, hput, hall]

end

theorem addr_setDinode (hv : (s.inode ip).valid = true) {f : Dinode → Dinode}
    (hf : ∀ d, (f d).type = d.type ∧ (f d).addrs = d.addrs) : (s.setDinode ip f).addr = s.addr := by
  funext i k
  by_cases hi : i = ip
  · subst hi
    rw [State.addr, cur_setDinode s f hv, (hf _).1, (hf _).2]
    rfl
  · exact addr_congr (s := s) (t := s.setDinode ip f) (cur_setDinode_of_ne s f hi) (fun _ => rfl) k

/-- The inode has its new size, and is on the disk. -/
structure Finished (kept : Nat → Prop) (ip size : Nat) (s t : State) : Prop where
  good : Good kept t
  sb : t.sb = s.sb
  room : t.room = s.room
  ended : t.ended = s.ended
  ref : (t.inode ip).ref = (s.inode ip).ref
  valid : (t.inode ip).valid = (s.inode ip).valid
  others : ∀ i, i ≠ ip → t.inode i = s.inode i
  dinode : t.dinode = Function.update s.dinode ip (t.cur ip)
  type : (t.cur ip).type = (s.cur ip).type
  nlink : (t.cur ip).nlink = (s.cur ip).nlink
  size : (t.cur ip).size = max (s.cur ip).size size
  addr : t.addr = s.addr
  byteAt : t.byteAt = s.byteAt
  free : t.free = s.free
  fits : ∀ W, Fits ip W s → Fits ip W t

theorem Finished.cur (h : Finished kept ip n s t) (hi : i ≠ ip) : t.cur i = s.cur i := by
  rw [State.cur, State.cur, h.others i hi, h.dinode, Function.update_of_ne hi]

/-- The inode in force is written to the disk. -/
def State.flush (s : State) (ip : Nat) : State :=
  State.log { s with dinode := Function.update s.dinode ip (s.inode ip).dinode } (IBLOCK ip s.sb)

theorem cur_flush (hv : (s.inode ip).valid = true) : (s.flush ip).cur = s.cur := by
  funext i
  change (if (s.inode i).valid then (s.inode i).dinode
    else Function.update s.dinode ip (s.inode ip).dinode i) = s.cur i
  by_cases hi : i = ip
  · subst hi
    rw [if_pos hv, State.cur, if_pos hv]
  · rw [Function.update_of_ne hi, State.cur]

theorem bread_flush (s : State) (ip : Nat) : (s.flush ip).bread = s.bread := by
  rw [State.flush, bread_log]
  rfl

theorem addr_flush (hv : (s.inode ip).valid = true) : (s.flush ip).addr = s.addr := by
  funext i k
  apply addr_congr (s := s) (t := s.flush ip) (by rw [cur_flush hv])
  intro _
  rw [bread_flush]

theorem byteAt_congr {t : State} (ha : t.addr = s.addr) (hb : t.bread = s.bread) : t.byteAt = s.byteAt := by
  funext i x
  rw [State.byteAt, State.block, ha, hb]
  rfl

theorem Good.congr {t : State} (hg : Good kept s) (hsb : t.sb = s.sb) (hmap : t.bitmap = s.bitmap)
    (haddr : t.addr = s.addr) (hbuf : ∀ b, t.buf b = none ∨ t.buf b = s.buf b)
    (hcovers : ∀ i bn, (t.cur i).type ≠ 0 → bn * BSIZE < (t.cur i).size → s.addr i (slotOf bn) ≠ 0) : Good kept t := by
  constructor
  · have href : t.ref = s.ref := by
      funext a
      rw [State.ref, haddr]
      rfl
    rw [href, hmap, hsb]
    exact hg.allots
  · rw [hsb]
    exact hg.metadata
  · rw [hsb]
    exact hg.size_lt
  · rw [haddr]
    exact hcovers
  · rw [haddr]
    intro i hi
    rcases hbuf (s.addr i NDIRECT) with h | h
    · exact h
    · rw [h, hg.clean i hi]

theorem Good.flush (hg : Good kept s) (hv : (s.inode ip).valid = true) : Good kept (s.flush ip) := by
  apply hg.congr (t := s.flush ip) rfl rfl (addr_flush hv)
  · exact buf_log { s with dinode := Function.update s.dinode ip (s.inode ip).dinode } _
  · rw [cur_flush hv]
    exact hg.covers

theorem Fits.flush (h : Fits ip W s) (hv : (s.inode ip).valid = true) : Fits ip W (s.flush ip) := by
  refine ⟨h.size, nodup_log (s := { s with dinode := _ }) h.nodup _, ?_⟩
  intro b hb
  rw [addr_flush hv]
  rcases (mem_logged { s with dinode := Function.update s.dinode ip (s.inode ip).dinode } _).1 hb with hb | hb
  · exact .inr (.inl hb)
  · exact h.logged b hb

theorem finished_flush (hg : Good kept s) (hv : (s.inode ip).valid = true) (hn : n ≤ (s.cur ip).size) :
    Finished kept ip n s (s.flush ip) where
  good := hg.flush hv
  sb := rfl
  room := rfl
  ended := rfl
  ref := rfl
  valid := rfl
  others _ _ := rfl
  dinode := by
    rw [cur_flush hv, State.cur, if_pos hv]
    rfl
  type := by rw [cur_flush hv]
  nlink := by rw [cur_flush hv]
  size := by rw [cur_flush hv, Nat.max_eq_left hn]
  addr := addr_flush hv
  byteAt := byteAt_congr (addr_flush hv) (bread_flush s ip)
  free := rfl
  fits W hf := hf.flush hv

theorem wp_iupdate (hroom : u.room = s.room) (hf : Fits ip W s → Fits ip W u) : Wp (iupdate ip) (Over ip W s) (fun _ t => t = u.flush ip) u := by
  rw [iupdate, wp_bind, wp_modify, wp_bind, wp_get]
  apply wp_logWrite
  · intro hfull
    refine ⟨rfl, fun hfit => ?_⟩
    have h₁ := (hf hfit.1).length
    have h₂ := hfit.2
    have h₃ : u.room ≤ u.logged.length := hfull
    omega
  · exact fun _ => rfl

theorem finished_resize (hg : Good kept s) (hv : (s.inode ip).valid = true)
    (hall : ∀ bn, bn * BSIZE < n → s.addr ip (slotOf bn) ≠ 0) (hlt : (s.cur ip).size < n) :
    Finished kept ip n s ((s.setDinode ip fun d => { d with size := n }).flush ip) ∧
      ∀ W, Fits ip W s → Fits ip W (s.setDinode ip fun d => { d with size := n }) := by
  obtain ⟨u, hu⟩ : ∃ u, u = s.setDinode ip fun d => { d with size := n } := ⟨_, rfl⟩
  rw [← hu]
  have hcur : u.cur ip = { s.cur ip with size := n } := by
    rw [hu]
    exact cur_setDinode s _ hv
  have hother (i : Nat) (hi : i ≠ ip) : u.cur i = s.cur i := by
    rw [hu]
    exact cur_setDinode_of_ne s _ hi
  have haddr : u.addr = s.addr := by
    rw [hu]
    exact addr_setDinode hv fun _ => ⟨rfl, rfl⟩
  have hself : u.inode ip = { s.inode ip with dinode := { (s.inode ip).dinode with size := n } } := by
    rw [hu]
    exact inode_setDinode ..
  have hvu : (u.inode ip).valid = true := by rw [hself, ← hv]
  have hgu : Good kept u := by
    apply hg.congr _ _ haddr
    · intro b
      rw [hu]
      exact .inr rfl
    · intro i bn htype hbn
      by_cases hi : i = ip
      · subst hi
        rw [hcur] at hbn
        exact hall bn hbn
      · rw [hother i hi] at htype hbn
        exact hg.covers i bn htype hbn
    · rw [hu]
      rfl
    · rw [hu]
      rfl
  have hfits (W : Finset Nat) (hf : Fits ip W s) : Fits ip W u := by
    have hlogged : u.logged = s.logged := by
      rw [hu]
      rfl
    refine ⟨?_, ?_, ?_⟩
    · rw [hu]
      exact hf.size
    · rw [hlogged]
      exact hf.nodup
    · rw [haddr, hlogged, hu]
      exact hf.logged
  have hfin := finished_flush hgu hvu (n := n) (by rw [hcur])
  refine ⟨⟨hfin.good, ?_, ?_, ?_, ?_, ?_, ?_, ?_, ?_, ?_, ?_, ?_, ?_, ?_, fun W hf => hfin.fits W (hfits W hf)⟩, hfits⟩
  · rw [hfin.sb, hu]
    rfl
  · rw [hfin.room, hu]
    rfl
  · rw [hfin.ended, hu]
    rfl
  · rw [hfin.ref, hself]
  · rw [hfin.valid, hself]
  · intro i hi
    rw [hfin.others i hi, hu]
    exact Function.update_of_ne hi ..
  · rw [hfin.dinode, hu]
    rfl
  · rw [hfin.type, hcur]
  · rw [hfin.nlink, hcur]
  · rw [hfin.size, hcur, Nat.max_self, Nat.max_eq_right (Nat.le_of_lt hlt)]
  · rw [hfin.addr, haddr]
  · rw [hfin.byteAt]
    apply byteAt_congr haddr
    rw [hu]
    rfl
  · rw [hfin.free, hu]
    rfl

/-- `writei` refuses a range that starts after the end or goes beyond the largest file; that includes
every range that wraps round. -/
def State.Refuses (s : State) (ip : Nat) (off n : BitVec 32) : Prop :=
  (s.cur ip).size < off.toNat ∨ MAXFILE * BSIZE < off.toNat + n.toNat

theorem wp_writei (hg : Good kept s) (hv : (s.inode ip).valid = true) (ht : (s.cur ip).type ≠ 0) (src : Src)
    (a : Nat) (off n : BitVec 32) (hW : Spans W off.toNat n.toNat) :
    Wp (writei ip src a off n) (Over ip W s) (fun r t => (s.Refuses ip off n ∧ r = -1 ∧ t = s) ∨
      (¬s.Refuses ip off n ∧ ∃ m p u, r = (m : Nat) ∧ Wrote ip W kept src a off.toNat n.toNat s m p u ∧
        Finished kept ip (off.toNat + m) u t)) s := by
  have hcur : (s.inode ip).dinode.size = (s.cur ip).size := by rw [State.cur, if_pos hv]
  have hadd : (off + n).toNat = (off.toNat + n.toNat) % 2 ^ 32 := BitVec.toNat_add off n
  have hmax : MAXFILE * BSIZE < 2 ^ 32 := by decide
  have h₁ := off.isLt
  have h₂ := n.isLt
  rw [writei, wp_bind, wp_get]
  dsimp only
  rw [hcur]
  apply Wp.ite
  · intro h
    refine wp_pure.2 (.inl ⟨?_, rfl, rfl⟩)
    rcases h with h | h
    · exact .inl h
    · rw [BitVec.lt_def, hadd] at h
      right
      omega
  · intro h
    rw [not_or, Nat.not_lt, BitVec.lt_def, Nat.not_lt, hadd] at h
    obtain ⟨hoff, hno⟩ := h
    have hsum : (off + n).toNat = off.toNat + n.toNat := by omega
    apply Wp.ite
    · intro hbig
      rw [hsum] at hbig
      exact wp_pure.2 (.inl ⟨.inr hbig, rfl, rfl⟩)
    · intro hsmall
      rw [hsum, Nat.not_lt] at hsmall
      have hbelow (bn : Nat) (hbn : bn * BSIZE < off.toNat) : s.addr ip (slotOf bn) ≠ 0 :=
        hg.covers ip bn ht (Nat.lt_of_lt_of_le hbn hoff)
      apply (wp_writeLoop 0 hg hv ht (Nat.le_refl _) hsmall hW hbelow).bind
      intro r u hr
      obtain ⟨m, p, rfl, hw⟩ := hr
      rw [Nat.zero_add, ← hw.size]
      have hvu : (u.inode ip).valid = true := by rw [hw.valid, hv]
      have haccept : ¬s.Refuses ip off n := by
        intro hrefuse
        rcases hrefuse with h | h <;> omega
      apply Wp.ite
      · intro hlt
        obtain ⟨hfin, hfits⟩ := finished_resize hw.good hvu hw.covered hlt
        rw [wp_bind, setDinode, wp_modify]
        apply (wp_iupdate (u := u.setDinode ip fun d => { d with size := off.toNat + m }) hw.room
          fun hf => hfits W (hw.fits hf)).bind
        intro _ t ht
        rw [← ht] at hfin
        exact wp_pure.2 (.inr ⟨haccept, m, p, u, rfl, hw, hfin⟩)
      · intro hge
        have hfin := finished_flush hw.good hvu (Nat.le_of_not_lt hge)
        apply (wp_iupdate hw.room fun hf => hw.fits hf).bind
        intro _ t ht
        rw [← ht] at hfin
        exact wp_pure.2 (.inr ⟨haccept, m, p, u, rfl, hw, hfin⟩)

end PbsCow.Blocks
