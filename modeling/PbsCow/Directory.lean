import PbsCow.FileStoreSteps
import PbsCow.FileWrite
import PbsCow.Lib.SlotTable

namespace PbsCow.Blocks
open Files (DIRSIZ T_DIR direntSize direntInum direntName)
set_option autoImplicit true

def strncmp (p q : Nat → Byte) : Nat → Int
  | 0 => 0
  | n + 1 =>
    if p 0 ≠ 0 ∧ p 0 = q 0 then strncmp (fun i => p (i + 1)) (fun i => q (i + 1)) n
    else (p 0).toNat - (q 0).toNat

/-- The `n` bytes that `strncpy` copies to. -/
def strncpy (t : Nat → Byte) : Nat → List Byte
  | 0 => []
  | n + 1 => if t 0 = 0 then List.replicate (n + 1) 0 else t 0 :: strncpy (fun i => t (i + 1)) n

def namecmp (s t : Nat → Byte) : Int := strncmp s t DIRSIZ

/-- `name` of a `struct dirent`, as a pointer. -/
def nameAt (de : List Byte) (i : Nat) : Byte := de.getD (2 + i) 0

/-- `readi` of a `struct dirent`, all of which has to be there. -/
def readDirent (dp off : Nat) (e : Stop) : Fs (List Byte) := do
  let r ← readi dp (fun _ _ => true) 0 (BitVec.ofNat 32 off) (BitVec.ofNat 32 direntSize)
  if (r.getD []).length ≠ direntSize then throw e
  else return r.getD []

/-- The loop of `dirlookup`. -/
def dirlookupLoop (dp : Nat) (name : Nat → Byte) : Nat → Nat → Fs (Option (Nat × Nat))
  | 0, _ => return none
  | fuel + 1, off => do
    if ((← get).inode dp).dinode.size ≤ off then return none
    else
      let de ← readDirent dp off .dirlookupRead
      if direntInum de ≠ 0 ∧ namecmp name (nameAt de) = 0 then
        let ip ← iget (direntInum de)
        return some (ip, off)
      else dirlookupLoop dp name fuel (off + direntSize)

/-- The result is the inode and the offset of its entry. -/
def dirlookup (dp : Nat) (name : Nat → Byte) : Fs (Option (Nat × Nat)) := do
  let d := ((← get).inode dp).dinode
  if d.type ≠ T_DIR then throw .dirlookupNotDir
  else dirlookupLoop dp name (d.size / direntSize + 1) 0

/-- The loop of `dirlink` that looks for an empty entry, and ends with its offset. -/
def findEmpty (dp : Nat) : Nat → Nat → Fs Nat
  | 0, off => return off
  | fuel + 1, off => do
    if ((← get).inode dp).dinode.size ≤ off then return off
    else
      let de ← readDirent dp off .dirlinkRead
      if direntInum de = 0 then return off
      else findEmpty dp fuel (off + direntSize)

/-- The bytes of a `struct dirent`. -/
def dirent (inum : Nat) (name : Nat → Byte) : List Byte :=
  BitVec.ofNat 8 inum :: BitVec.ofNat 8 (inum / 256) :: strncpy name DIRSIZ

def dirlink (dp : Nat) (name : Nat → Byte) (inum : Nat) : Fs Int := do
  match ← dirlookup dp name with
  | some (ip, _) =>
    iput ip
    return -1
  | none =>
    let off ← findEmpty dp (((← get).inode dp).dinode.size / direntSize + 1) 0
    let r ← writei dp (.kernel fun i => (dirent inum name).getD i 0) 0 (BitVec.ofNat 32 off) (BitVec.ofNat 32 direntSize)
    if r ≠ direntSize then return -1
    else return 0

/-- What `sys_unlink` does to the directory: it looks the name up and clears its entry. The inode is the
caller's to unlink. -/
def unlinkDirent (dp : Nat) (name : Nat → Byte) : Fs (Option Nat) := do
  match ← dirlookup dp name with
  | none => return none
  | some (ip, off) =>
    let r ← writei dp (.kernel fun _ => 0) 0 (BitVec.ofNat 32 off) (BitVec.ofNat 32 direntSize)
    if r ≠ direntSize then throw .unlinkWritei
    else return some ip

/-- The string of at most `n` bytes at a pointer. -/
def chars (p : Nat → Byte) : Nat → List Byte
  | 0 => []
  | n + 1 => if p 0 = 0 then [] else p 0 :: chars (fun i => p (i + 1)) n

theorem strncmp_eq_zero (p q : Nat → Byte) (n : Nat) : strncmp p q n = 0 ↔ chars p n = chars q n := by
  induction n generalizing p q with
  | zero => exact iff_of_true rfl rfl
  | succ n ih =>
    rw [strncmp, chars, chars]
    by_cases h : p 0 ≠ 0 ∧ p 0 = q 0
    · rw [if_pos h, if_neg h.1, if_neg (h.2 ▸ h.1), ih, h.2, List.cons_inj_right]
    · rw [if_neg h, Int.sub_eq_zero, Int.natCast_inj, BitVec.toNat_inj]
      by_cases hp : p 0 = 0
      · rw [if_pos hp]
        constructor
        · intro he
          rw [if_pos (he ▸ hp)]
        · intro he
          by_cases hq : q 0 = 0
          · rw [hp, hq]
          · rw [if_neg hq] at he
            cases he
      · rw [if_neg hp]
        refine iff_of_false (fun he => h ⟨hp, he⟩) ?_
        intro he
        by_cases hq : q 0 = 0
        · rw [if_pos hq] at he
          cases he
        · rw [if_neg hq] at he
          exact h ⟨hp, (List.cons.inj he).1⟩

theorem length_strncpy (t : Nat → Byte) (n : Nat) : (strncpy t n).length = n := by
  induction n generalizing t with
  | zero => rfl
  | succ n ih =>
    rw [strncpy]
    split
    · exact List.length_replicate ..
    · rw [List.length_cons, ih]

theorem takeWhile_strncpy (t : Nat → Byte) (n : Nat) : (strncpy t n).takeWhile (· ≠ 0) = chars t n := by
  induction n generalizing t with
  | zero => rfl
  | succ n ih =>
    rw [strncpy, chars]
    split
    · rfl
    · next h =>
      rw [List.takeWhile_cons_of_pos, ih]
      exact decide_eq_true h

theorem chars_getD (l : List Byte) : chars (fun i => l.getD i 0) l.length = l.takeWhile (· ≠ 0) := by
  induction l with
  | nil => rfl
  | cons b l ih =>
    rw [List.length_cons, chars, List.getD_cons_zero]
    by_cases hb : b = 0
    · rw [if_pos hb, List.takeWhile_cons_of_neg]
      simpa using hb
    · rw [if_neg hb, List.takeWhile_cons_of_pos, ← ih]
      · rfl
      · exact decide_eq_true hb

/-- Names are compared on their first `DIRSIZ` bytes. -/
theorem namecmp_nameAt (name : Nat → Byte) (hde : de.length = direntSize) :
    namecmp name (nameAt de) = 0 ↔ direntName de = chars name DIRSIZ := by
  have hlen : (de.drop 2).length = DIRSIZ := by
    rw [List.length_drop, hde]
    rfl
  have hname : chars (nameAt de) DIRSIZ = direntName de := by
    rw [direntName, ← chars_getD, hlen]
    congr 1
    funext i
    rw [nameAt, List.getD_eq_getElem?_getD, List.getD_eq_getElem?_getD, List.getElem?_drop]
  rw [namecmp, strncmp_eq_zero, hname]
  exact eq_comm

theorem length_dirent (inum : Nat) (name : Nat → Byte) : (dirent inum name).length = direntSize := by
  rw [dirent, List.length_cons, List.length_cons, length_strncpy]
  rfl

theorem direntInum_dirent (hi : inum < 2 ^ 16) (name : Nat → Byte) : direntInum (dirent inum name) = inum := by
  rw [direntInum, dirent, leField]
  simp only [List.drop_zero, List.take_succ_cons, List.take_zero, List.foldr_cons, List.foldr_nil,
    BitVec.toNat_ofNat]
  omega

theorem direntName_dirent (inum : Nat) (name : Nat → Byte) : direntName (dirent inum name) = chars name DIRSIZ :=
  takeWhile_strncpy name DIRSIZ

/-- An entry, where it is not empty. -/
def slot (de : List Byte) : Option (List Byte × Nat) :=
  if direntInum de = 0 then none else some (direntName de, direntInum de)

/-- Entry `k` of a directory. -/
def entry (bytes : List Byte) (k : Nat) : List Byte := (bytes.drop (direntSize * k)).take direntSize

/-- The entries of a directory. -/
def dirSlots (bytes : List Byte) : SlotTable (List Byte) Nat :=
  (List.range (bytes.length / direntSize)).map fun k => slot (entry bytes k)

theorem slot_dirent (hi : inum < 2 ^ 16) (h₀ : inum ≠ 0) (name : Nat → Byte) :
    slot (dirent inum name) = some (chars name DIRSIZ, inum) := by
  rw [slot, direntInum_dirent hi, if_neg h₀, direntName_dirent]

theorem slot_zeros : slot (List.replicate direntSize 0) = none := by decide

theorem length_dirSlots (bytes : List Byte) : (dirSlots bytes).length = bytes.length / direntSize := by
  rw [dirSlots, List.length_map, List.length_range]

theorem getElem?_dirSlots (hk : k < bytes.length / direntSize) : (dirSlots bytes)[k]? = some (slot (entry bytes k)) := by
  rw [dirSlots, List.getElem?_map, List.getElem?_range hk]
  rfl

theorem length_entry (hk : k < bytes.length / direntSize) : (entry bytes k).length = direntSize := by
  rw [entry, List.length_take, List.length_drop, Nat.min_eq_left]
  rw [direntSize] at *
  omega

theorem dirSlots_append (ha : a.length % direntSize = 0) : dirSlots (a ++ b) = dirSlots a ++ dirSlots b := by
  obtain ⟨n, hn⟩ : ∃ n, a.length = direntSize * n := ⟨_, (Nat.mul_div_cancel' (Nat.dvd_of_mod_eq_zero ha)).symm⟩
  have hlen : (a ++ b).length / direntSize = n + b.length / direntSize := by
    rw [List.length_append, hn, Nat.mul_add_div (by decide)]
  have han : a.length / direntSize = n := by rw [hn, Nat.mul_div_cancel_left _ (by decide)]
  rw [dirSlots, hlen, List.range_add, List.map_append, List.map_map, dirSlots, han]
  congr 1
  · apply List.map_congr_left
    intro k hk
    rw [List.mem_range] at hk
    rw [entry, entry, List.drop_append_of_le_length, List.take_append_of_le_length]
    · rw [List.length_drop, hn]
      rw [direntSize] at *
      omega
    · rw [hn]
      exact Nat.mul_le_mul_left _ (Nat.le_of_lt hk)
  · apply List.map_congr_left
    intro k _
    rw [Function.comp_apply, entry, entry, Nat.mul_add, ← hn, List.drop_append]
    congr 2
    rw [List.drop_of_length_le (Nat.le_add_right ..), List.nil_append, Nat.add_sub_cancel_left]

theorem dirSlots_entry (hde : de.length = direntSize) : dirSlots de = [slot de] := by
  rw [dirSlots, hde, Nat.div_self (by decide)]
  change [slot (entry de 0)] = _
  rw [entry, Nat.mul_zero, List.drop_zero, ← hde, List.take_length]

/-- The entries after one has been written, in its place or after the last. -/
theorem dirSlots_splice (hw : bytes.length % direntSize = 0) (hk : k ≤ bytes.length / direntSize)
    (hde : de.length = direntSize) : dirSlots (splice bytes (direntSize * k) de) =
      (dirSlots bytes).take k ++ slot de :: (dirSlots bytes).drop (k + 1) := by
  have hle : direntSize * k ≤ bytes.length := by
    rw [Nat.mul_comm]
    exact (Nat.le_div_iff_mul_le (by decide)).1 hk
  have htake : (bytes.take (direntSize * k)).length = direntSize * k := by
    rw [List.length_take, Nat.min_eq_left hle]
  have hmod : (bytes.take (direntSize * k)).length % direntSize = 0 := by
    rw [htake, Nat.mul_mod_right]
  have hnew : dirSlots (bytes.take (direntSize * k)) = (dirSlots bytes).take k := by
    have hall := dirSlots_append (b := bytes.drop (direntSize * k)) hmod
    rw [List.take_append_drop] at hall
    rw [hall, List.take_left']
    rw [length_dirSlots, htake, Nat.mul_div_cancel_left _ (by decide)]
  have hrest : dirSlots (bytes.drop (direntSize * k + direntSize)) = (dirSlots bytes).drop (k + 1) := by
    by_cases hlast : k < bytes.length / direntSize
    · have hle' : direntSize * (k + 1) ≤ bytes.length := by
        rw [Nat.mul_comm]
        exact (Nat.le_div_iff_mul_le (by decide)).1 hlast
      have htake' : (bytes.take (direntSize * (k + 1))).length = direntSize * (k + 1) := by
        rw [List.length_take, Nat.min_eq_left hle']
      have hall := dirSlots_append (a := bytes.take (direntSize * (k + 1)))
        (b := bytes.drop (direntSize * (k + 1))) (by rw [htake', Nat.mul_mod_right])
      rw [List.take_append_drop] at hall
      rw [hall, List.drop_left']
      · rfl
      · rw [length_dirSlots, htake', Nat.mul_div_cancel_left _ (by decide)]
    · rw [List.drop_of_length_le, List.drop_of_length_le]
      · rfl
      · rw [length_dirSlots]
        omega
      · rw [direntSize] at *
        omega
  rw [splice, hde, List.append_assoc, dirSlots_append hmod, hnew, dirSlots_append (by rw [hde, Nat.mod_self]),
    dirSlots_entry hde, hrest]
  rfl

end PbsCow.Blocks
