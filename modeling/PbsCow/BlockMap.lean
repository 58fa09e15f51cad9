import PbsCow.InodeBlocks
import PbsCow.Lib.Allots
import PbsCow.Lib.Counting
import PbsCow.Lib.Hoare

namespace PbsCow.Blocks
open Files (IPB BPB)
set_option autoImplicit true

/-- The copy of an inode that is in force. -/
def State.cur (s : State) (i : Nat) : Dinode := if (s.inode i).valid then (s.inode i).dinode else s.dinode i

/-- The slots of an inode: those of its blocks, slot `NDIRECT` of the indirect block among them. -/
def slotOf (bn : Nat) : Nat := if bn < NDIRECT then bn else bn + 1

/-- The block that an inode names in a slot. -/
def State.addr (s : State) (i k : Nat) : Nat :=
  if (s.cur i).type = 0 then 0
  else if k ≤ NDIRECT then (s.cur i).addrs k
  else if (s.cur i).addrs NDIRECT = 0 ∨ NDIRECT + NINDIRECT < k then 0
  else (s.bread ((s.cur i).addrs NDIRECT)).uint (k - (NDIRECT + 1))

def State.ref (s : State) (a : Nat × Nat) : Nat := s.addr a.1 a.2

/-- The blocks before the data blocks, as `mkfs` lays them out. -/
def Superblock.nmeta (sb : Superblock) : Nat := sb.bmapstart + (sb.size / BPB + 1)

/-- What a slot holds of the contents: zeroes, where it has no block. -/
def State.block (s : State) (i k : Nat) : Block := if s.addr i k = 0 then Block.zero else s.bread (s.addr i k)

/-- The free blocks. -/
def State.free (s : State) : Nat := countBelow s.sb.size fun b => !s.bitmap b

/-- The blocks of the inodes are distinct, are marked, and cover the sizes; the others that are marked are
those that are kept, the metadata among them. -/
structure Good (kept : Nat → Prop) (s : State) : Prop where
  allots : Allots kept s.sb.size s.ref s.bitmap
  metadata : ∀ b, b < s.sb.nmeta → kept b
  size_lt : s.sb.size < 2 ^ 31
  covers : ∀ i bn, (s.cur i).type ≠ 0 → bn * BSIZE < (s.cur i).size → s.addr i (slotOf bn) ≠ 0
  clean : ∀ i, s.addr i NDIRECT ≠ 0 → s.buf (s.addr i NDIRECT) = none

/-- The transaction has logged no block but that of the bitmap, the block of the inode and those in slots
`W` of the inode. -/
structure Fits (ip : Nat) (W : Finset Nat) (s : State) : Prop where
  size : s.sb.size ≤ BPB
  nodup : s.logged.Nodup
  logged : ∀ b ∈ s.logged, b = s.sb.bmapstart ∨ b = IBLOCK ip s.sb ∨ ∃ k ∈ W, b = s.addr ip k ∧ b ≠ 0

/-- The only error: the log has no room for that. -/
def Over (ip : Nat) (W : Finset Nat) (s : State) (e : Stop) : Prop :=
  e = .tooBigATransaction ∧ ¬(Fits ip W s ∧ W.card + 2 < s.room)

theorem wp_logWrite (he : s.room ≤ s.logged.length → E .tooBigATransaction)
    (hq : s.logged.length < s.room → Q ⟨⟩ (s.log b)) : Wp (logWrite b) E Q s := by
  rw [logWrite, wp_bind, wp_get]
  apply Wp.ite
  · exact he
  · intro h
    exact hq (Nat.lt_of_not_le h)

section log

variable (s : State) (b : Nat)

@[simp] theorem bread_log : (s.log b).bread = s.bread := by
  funext x
  change (Function.update s.buf b none x).getD (Function.update s.data b (s.bread b) x) = s.bread x
  by_cases hx : x = b
  · rw [hx, Function.update_self, Function.update_self]
    rfl
  · rw [Function.update_of_ne hx, Function.update_of_ne hx]
    rfl

@[simp] theorem cur_log : (s.log b).cur = s.cur := rfl

@[simp] theorem addr_log : (s.log b).addr = s.addr := by
  funext i k
  rw [State.addr, bread_log]
  rfl

@[simp] theorem block_log : (s.log b).block = s.block := by
  funext i k
  rw [State.block, addr_log, bread_log]
  rfl

theorem buf_log (x : Nat) : (s.log b).buf x = none ∨ (s.log b).buf x = s.buf x := by
  by_cases hx : x = b
  · subst hx
    exact .inl (Function.update_self ..)
  · exact .inr (Function.update_of_ne hx ..)

theorem mem_logged : x ∈ (s.log b).logged ↔ x = b ∨ x ∈ s.logged := by
  simp only [State.log]
  split
  · constructor
    · exact .inr
    · intro h
      rcases h with rfl | h <;> assumption
  · rw [List.mem_append, List.mem_singleton, or_comm]

end log

theorem Good.log (h : Good kept s) (b : Nat) : Good kept (s.log b) := by
  constructor
  · have href : (s.log b).ref = s.ref := by
      funext a
      rw [State.ref, addr_log]
      rfl
    rw [href]
    exact h.allots
  · exact h.metadata
  · exact h.size_lt
  · rw [addr_log]
    exact h.covers
  · rw [addr_log]
    intro i hi
    rcases buf_log s b (s.addr i NDIRECT) with hb | hb
    · exact hb
    · rw [hb, h.clean i hi]

theorem Fits.log (h : Fits ip W s) (hb : b = s.sb.bmapstart ∨ b = IBLOCK ip s.sb ∨ ∃ k ∈ W, b = s.addr ip k ∧ b ≠ 0) :
    Fits ip W (s.log b) := by
  refine ⟨h.size, ?_, ?_⟩
  · simp only [State.log]
    split
    · exact h.nodup
    · next hn => exact h.nodup.append (List.nodup_singleton b) (List.disjoint_singleton.2 hn)
  · intro x hx
    rw [addr_log]
    rcases (mem_logged s b).1 hx with rfl | hx
    · exact hb
    · exact h.logged x hx

/-- Fewer blocks have been logged than may be. -/
theorem Fits.length (h : Fits ip W s) : s.logged.length ≤ W.card + 2 := by
  have hsub : s.logged.toFinset ⊆ insert s.sb.bmapstart (insert (IBLOCK ip s.sb) (W.image (s.addr ip))) := by
    intro x hx
    rw [Finset.mem_insert, Finset.mem_insert, Finset.mem_image]
    rcases h.logged x (List.mem_toFinset.1 hx) with he | he | ⟨k, hk, he, -⟩
    · exact .inl he
    · exact .inr (.inl he)
    · exact .inr (.inr ⟨k, hk, he.symm⟩)
  have hcard := Finset.card_le_card hsub
  rw [List.toFinset_card_of_nodup h.nodup] at hcard
  have h₁ := Finset.card_insert_le s.sb.bmapstart (insert (IBLOCK ip s.sb) (W.image (s.addr ip)))
  have h₂ := Finset.card_insert_le (IBLOCK ip s.sb) (W.image (s.addr ip))
  have h₃ := Finset.card_image_le (s := W) (f := s.addr ip)
  omega

/-- One fewer, where a slot has no block yet. -/
theorem Fits.length_lt (h : Fits ip W s) (hk : k ∈ W) (h0 : s.addr ip k = 0) : s.logged.length ≤ W.card + 1 := by
  have hless : Fits ip (W.erase k) s := by
    refine ⟨h.size, h.nodup, ?_⟩
    intro x hx
    rcases h.logged x hx with he | he | ⟨j, hj, he, hne⟩
    · exact .inl he
    · exact .inr (.inl he)
    · refine .inr (.inr ⟨j, Finset.mem_erase.2 ⟨?_, hj⟩, he, hne⟩)
      rintro rfl
      exact hne (he.trans h0)
  have hlen := hless.length
  rw [Finset.card_erase_of_mem hk] at hlen
  have hpos := Finset.card_pos.2 ⟨k, hk⟩
  omega

theorem bread_put (s : State) (b : Nat) (bp : Block) (x : Nat) :
    (s.put b bp).bread x = if x = b then bp else s.bread x := by
  change (Function.update s.buf b (some bp) x).getD (s.data x) = _
  by_cases hx : x = b
  · rw [hx, if_pos rfl, Function.update_self]
    rfl
  · rw [if_neg hx, Function.update_of_ne hx]
    rfl

/-- The state in which `balloc` has taken block `b`. -/
def State.took (s : State) (b : Nat) : State :=
  (((s.mark b true).log (BBLOCK b s.sb)).put b Block.zero).log b

section took

variable (s : State) (b : Nat)

theorem bread_took (x : Nat) : (s.took b).bread x = if x = b then Block.zero else s.bread x := by
  rw [State.took, bread_log, bread_put, bread_log]
  rfl

theorem buf_took (x : Nat) : (s.took b).buf x = none ∨ (s.took b).buf x = s.buf x := by
  rcases buf_log (((s.mark b true).log (BBLOCK b s.sb)).put b Block.zero) b x with h | h
  · exact .inl h
  · by_cases hx : x = b
    · subst hx
      exact .inl (Function.update_self ..)
    · have hput : (((s.mark b true).log (BBLOCK b s.sb)).put b Block.zero).buf x =
          ((s.mark b true).log (BBLOCK b s.sb)).buf x := Function.update_of_ne hx ..
      rw [State.took, h, hput]
      exact buf_log (s.mark b true) (BBLOCK b s.sb) x

theorem mem_took : x ∈ (s.took b).logged ↔ x = b ∨ x = BBLOCK b s.sb ∨ x ∈ s.logged := by
  rw [State.took, mem_logged]
  exact or_congr_right (mem_logged (s.mark b true) _)

end took

theorem length_log (s : State) (b : Nat) : (s.log b).logged.length ≤ s.logged.length + 1 := by
  simp only [State.log]
  split
  · omega
  · rw [List.length_append, List.length_singleton]

theorem length_le_log (s : State) (b : Nat) : s.logged.length ≤ (s.log b).logged.length := by
  simp only [State.log]
  split
  · exact Nat.le_refl _
  · rw [List.length_append]
    exact Nat.le_add_right _ _

theorem wp_balloc (he : s.room ≤ s.logged.length + 1 → E .tooBigATransaction)
    (hnone : (∀ b, b < s.sb.size → s.bitmap b = true) → Q 0 s)
    (hsome : ∀ b, b < s.sb.size → s.bitmap b = false → Q b (s.took b)) : Wp balloc E Q s := by
  rw [balloc, wp_bind, wp_get]
  cases hf : (List.range s.sb.size).find? fun b => !s.bitmap b with
  | none =>
    apply wp_pure.2
    apply hnone
    intro b hb
    have hno := List.find?_eq_none.1 hf b (List.mem_range.2 hb)
    simpa using hno
  | some b =>
    have hb := List.mem_range.1 (List.mem_of_find?_eq_some hf)
    have hfree := List.find?_some hf
    rw [wp_bind, wp_modify, wp_bind]
    apply wp_logWrite
    · intro hlen
      exact he (Nat.le_succ_of_le hlen)
    · intro _
      rw [wp_bind, bzero, wp_bind, setBuf, wp_modify]
      apply wp_logWrite
      · intro hlen
        have hle := length_log (s.mark b true) (BBLOCK b s.sb)
        exact he (Nat.le_trans hlen hle)
      · intro _
        exact wp_pure.2 (hsome b hb (by simpa using hfree))

end PbsCow.Blocks
