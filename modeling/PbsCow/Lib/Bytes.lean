import Mathlib.Logic.Function.Basic
import Mathlib.Algebra.Group.Nat.Defs
import Mathlib.Data.List.GetD

namespace PbsCow
set_option autoImplicit true

abbrev Word := BitVec 64
abbrev Byte := BitVec 8

/-- Byte `k` of a word, the least significant one first. -/
def byteOf (w : Word) (k : Nat) : Byte := w.extractLsb' (8 * k) 8

def setByteOf (w : Word) (k : Nat) (b : Byte) : Word :=
  (w &&& ~~~(0xFF#64 <<< (8 * k))) ||| (b.setWidth 64 <<< (8 * k))

theorem getLsbD_ff (i : Nat) : (0xFF#64).getLsbD i = decide (i < 8) := by
  have hi : (255 : Nat).testBit i = decide (i < 8) := Nat.testBit_two_pow_sub_one 8 i
  rw [BitVec.getLsbD_ofNat, hi, ← Bool.decide_and]
  exact decide_eq_decide.2 (by omega)

theorem byteOf_setByteOf (w : Word) (b : Byte) (hj : j < 8) :
    byteOf (setByteOf w j b) k = if k = j then b else byteOf w k := by
  apply BitVec.eq_of_getLsbD_eq
  intro i hi
  by_cases hk : k = j
  · subst hk
    simp only [byteOf, setByteOf, BitVec.getLsbD_extractLsb', BitVec.getLsbD_or,
      BitVec.getLsbD_and, BitVec.getLsbD_not, BitVec.getLsbD_shiftLeft, getLsbD_ff,
      BitVec.getLsbD_setWidth, ↓reduceIte]
    have h1 : 8 * k + i < 64 := by omega
    have h2 : 8 * k + i - 8 * k = i := by omega
    have h3 : ¬ 8 * k + i < 8 * k := by omega
    simp [h1, h2, h3, hi, show i < 64 by omega]
  · simp only [byteOf, setByteOf, BitVec.getLsbD_extractLsb', BitVec.getLsbD_or,
      BitVec.getLsbD_and, BitVec.getLsbD_not, BitVec.getLsbD_shiftLeft, getLsbD_ff,
      BitVec.getLsbD_setWidth, if_neg hk, hi, decide_true, Bool.true_and]
    by_cases h1 : 8 * k + i < 64
    · by_cases h2 : 8 * k + i < 8 * j
      · simp [h1, h2]
      · have h3 : ¬ 8 * k + i - 8 * j < 8 := by omega
        have h4 : b.getLsbD (8 * k + i - 8 * j) = false := BitVec.getLsbD_of_ge _ _ (by omega)
        simp [h1, h2, h3, h4]
    · have h4 : w.getLsbD (8 * k + i) = false := BitVec.getLsbD_of_ge _ _ (by omega)
      simp [h1, h4]

/-- The contents of one page of memory, as 64-bit words. -/
abbrev Page := Nat → Word

def Page.byte (p : Page) (o : Nat) : Byte := byteOf (p (o / 8)) (o % 8)

def Page.setByte (p : Page) (o : Nat) (b : Byte) : Page :=
  Function.update p (o / 8) (setByteOf (p (o / 8)) (o % 8) b)

/-- Store consecutive bytes from offset `o` on. -/
def Page.setBytes (p : Page) (o : Nat) : List Byte → Page
  | [] => p
  | b :: bs => (p.setByte o b).setBytes (o + 1) bs

theorem Page.byte_setByte (p : Page) (o o' : Nat) (b : Byte) :
    (p.setByte o b).byte o' = if o' = o then b else p.byte o' := by
  by_cases hw : o' / 8 = o / 8
  · have hk : o' % 8 = o % 8 ↔ o' = o := by omega
    simp only [Page.byte, Page.setByte, hw, Function.update_self,
      byteOf_setByteOf _ _ (Nat.mod_lt o (by decide : 8 > 0)), hk]
  · have hne : o' ≠ o := by
      rintro rfl
      exact hw rfl
    simp only [Page.byte, Page.setByte, Function.update_of_ne hw, if_neg hne]

theorem Page.byte_setBytes_of_lt (p : Page) (bs : List Byte) (h : o' < o) :
    (p.setBytes o bs).byte o' = p.byte o' := by
  induction bs generalizing p o with
  | nil => rfl
  | cons b bs ih =>
    rw [Page.setBytes, ih _ (by omega), Page.byte_setByte, if_neg (by omega)]

theorem Page.byte_setBytes_of_ge (p : Page) (bs : List Byte) (h : o + bs.length ≤ o') :
    (p.setBytes o bs).byte o' = p.byte o' := by
  induction bs generalizing p o with
  | nil => rfl
  | cons b bs ih =>
    simp only [List.length_cons] at h
    rw [Page.setBytes, ih _ (by omega), Page.byte_setByte, if_neg (by omega)]

theorem Page.byte_setBytes (p : Page) (bs : List Byte) (h : k < bs.length) :
    (p.setBytes o bs).byte (o + k) = bs[k] := by
  induction bs generalizing p o k with
  | nil => simp at h
  | cons b bs ih =>
    cases k with
    | zero =>
      rw [Page.setBytes, Page.byte_setBytes_of_lt _ _ (by omega), Page.byte_setByte]
      simp
    | succ k =>
      have hb := ih (p.setByte o b) (o := o + 1) (k := k) (by simpa using h)
      simpa only [Page.setBytes, List.getElem_cons_succ, Nat.add_assoc, Nat.add_comm 1 k] using hb

/-- The byte at address `i` after the bytes `bs` have been written from `a` on, if it was `b`. -/
def overlay (a : Nat) (bs : List Byte) (i : Nat) (b : Byte) : Byte :=
  if a ≤ i then bs.getD (i - a) b else b

theorem overlay_of_lt (bs : List Byte) (b : Byte) (h : i < a) : overlay a bs i b = b :=
  if_neg (Nat.not_le_of_gt h)

theorem overlay_of_ge (b : Byte) (h : a + bs.length ≤ i) : overlay a bs i b = b := by
  rw [overlay, if_pos (by omega)]
  exact List.getD_eq_default _ _ (by omega)

theorem overlay_nil (a i : Nat) (b : Byte) : overlay a [] i b = b := by
  rcases Nat.lt_or_ge i a with hi | hi
  · exact overlay_of_lt _ _ hi
  · exact overlay_of_ge _ hi

theorem overlay_add (b : Byte) (h : k < bs.length) : overlay a bs (a + k) b = bs[k] := by
  rw [overlay, if_pos (Nat.le_add_right a k), Nat.add_sub_cancel_left]
  exact List.getD_eq_getElem _ _ h

/-- A byte that is written does not depend on what was there. -/
theorem overlay_const (b b' : Byte) (hl : a ≤ i) (hi : i < a + bs.length) :
    overlay a bs i b = overlay a bs i b' := by
  obtain ⟨k, rfl⟩ := Nat.exists_eq_add_of_le hl
  have hk : k < bs.length := by omega
  rw [overlay_add b hk, overlay_add b' hk]

theorem overlay_shift (d a : Nat) (bs : List Byte) (i : Nat) (b : Byte) :
    overlay (d + a) bs (d + i) b = overlay a bs i b := by
  rw [overlay, overlay, Nat.add_sub_add_left]
  exact if_congr (Nat.add_le_add_iff_left) rfl rfl

/-- Bytes may be written in two runs. -/
theorem overlay_take_drop (b : Byte) (h : c = a + n ∨ bs.length ≤ n) :
    overlay c (bs.drop n) i (overlay a (bs.take n) i b) = overlay a bs i b := by
  rcases h with rfl | h
  · rcases Nat.lt_or_ge i a with hi | hi
    · rw [overlay_of_lt _ _ (by omega), overlay_of_lt _ _ hi, overlay_of_lt _ _ hi]
    obtain ⟨k, rfl⟩ := Nat.exists_eq_add_of_le hi
    rcases Nat.lt_or_ge k n with hk | hk
    · rw [overlay_of_lt _ _ (by omega), overlay, overlay, if_pos hi, if_pos hi, Nat.add_sub_cancel_left]
      simp [List.getD_eq_getElem?_getD, hk]
    · obtain ⟨m, rfl⟩ := Nat.exists_eq_add_of_le hk
      have hfirst : overlay a (bs.take n) (a + (n + m)) b = b :=
        overlay_of_ge _ (by rw [List.length_take]; omega)
      rw [hfirst, ← Nat.add_assoc, overlay, overlay, if_pos (by omega), if_pos (by omega),
        Nat.add_sub_cancel_left]
      simp [List.getD_eq_getElem?_getD, Nat.add_assoc]
  · rw [List.take_of_length_le h, List.drop_of_length_le h, overlay]
    simp

theorem Page.byte_setBytes_overlay (p : Page) (bs : List Byte) (i : Nat) :
    (p.setBytes o bs).byte i = overlay o bs i (p.byte i) := by
  rcases Nat.lt_or_ge i o with hi | hi
  · rw [Page.byte_setBytes_of_lt _ _ hi, overlay_of_lt _ _ hi]
  obtain ⟨k, rfl⟩ := Nat.exists_eq_add_of_le hi
  rcases Nat.lt_or_ge k bs.length with hk | hk
  · rw [Page.byte_setBytes _ _ hk, overlay_add _ hk]
  · rw [Page.byte_setBytes_of_ge _ _ (by omega), overlay_of_ge _ (by omega)]

end PbsCow
