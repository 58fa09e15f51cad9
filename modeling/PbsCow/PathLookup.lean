import Mathlib.Data.List.TakeWhile
import PbsCow.FileRefs

namespace PbsCow.Files
set_option autoImplicit true

/-- The elements of a path: the parts between slashes that are not empty, cut to `DIRSIZ` bytes. -/
def components (path : List Byte) : List (List Byte) :=
  ((path.splitOnP (· = slash)).filter (· ≠ [])).map (·.take DIRSIZ)

/-- The entries of a directory from `off` on. -/
def direntsFrom (data : List Byte) : Nat → Nat → List (List Byte)
  | 0, _ => []
  | n + 1, off => readi data off direntSize :: direntsFrom data n (off + direntSize)

def dirents (data : List Byte) : List (List Byte) :=
  direntsFrom data ((data.length + (direntSize - 1)) / direntSize) 0

/-- The inode number that a directory has for a name. -/
def lookup (dp : Dinode) (name : List Byte) : Option Nat :=
  ((dirents dp.data).find? fun de => direntInum de ≠ 0 ∧ direntName de = name).map direntInum

/-- One element of a path, in a tree of inodes. -/
def child (tree : Nat → Dinode) (inum : Nat) (name : List Byte) : Option Nat :=
  if (tree inum).type = T_DIR then lookup (tree inum) name else none

/-- The inode that is reached by looking up names one after another. -/
def resolve (tree : Nat → Dinode) (inum : Nat) (names : List (List Byte)) : Option Nat :=
  names.foldlM (child tree) inum

/-- The directory before the last name, with that name. -/
def resolveParent (tree : Nat → Dinode) (inum : Nat) (names : List (List Byte)) :
    Option (Nat × List Byte) := do
  let name ← names.getLast?
  let dir ← resolve tree inum names.dropLast
  if (tree dir).type = T_DIR then some (dir, name) else none

/-- The loop of `namex` over the elements of the path. -/
def walkNames (nameiparent : Bool) (ip : Nat) (name : List Byte) :
    List (List Byte) → Fs (Option (Nat × List Byte))
  | [] => do
    if nameiparent then
      iput ip
      return none
    return some (ip, name)
  | name :: rest => do
    ilock ip
    if ((← get).inode ip).dinode.type ≠ T_DIR then
      iunlockput ip
      return none
    if nameiparent ∧ rest = [] then
      iunlock ip
      return some (ip, name)
    match ← dirlookup ip name with
    | none =>
      iunlockput ip
      return none
    | some (next, _) =>
      iunlockput ip
      walkNames nameiparent next name rest

theorem components_slash (path : List Byte) : components (slash :: path) = components path := by
  rw [components, List.splitOnP_cons_eq_if_modifyHead, if_pos (by simp)]
  rfl

theorem components_dropWhile (path : List Byte) :
    components (path.dropWhile (· = slash)) = components path := by
  induction path with
  | nil => rfl
  | cons b path ih =>
    rw [List.dropWhile_cons]
    split
    · next hb =>
      rw [ih, of_decide_eq_true hb, components_slash]
    · rfl

theorem components_eq_nil : components path = [] ↔ ∀ b, b ∈ path → b = slash := by
  induction path with
  | nil => exact ⟨fun _ _ hb => (List.not_mem_nil hb).elim, fun _ => rfl⟩
  | cons b path ih =>
    by_cases hb : b = slash
    · rw [hb, components_slash, ih]
      simp
    · constructor
      · intro h
        rw [components, List.splitOnP_cons_eq_if_modifyHead, if_neg (by simpa using hb)] at h
        cases hs : path.splitOnP (· = slash) with
        | nil => exact absurd hs (List.splitOnP_ne_nil _ _)
        | cons x xs => simp [hs] at h
      · intro h
        exact absurd (h b List.mem_cons_self) hb

/-- The first element of a path that does not begin with a slash. -/
theorem components_cons (hb : b ≠ slash) (path : List Byte) :
    components (b :: path) = ((b :: path).takeWhile (· ≠ slash)).take DIRSIZ ::
      components ((b :: path).dropWhile (· ≠ slash)) := by
  obtain ⟨s, hs⟩ : ∃ s, s = (b :: path).takeWhile (· ≠ slash) := ⟨_, rfl⟩
  have hne : s ≠ [] := by simp [hs, hb]
  have hfree : ∀ x, x ∈ s → decide (x = slash) = false := by
    intro x hx
    rw [hs] at hx
    simpa using List.mem_takeWhile_imp hx
  have hsplit := List.takeWhile_append_dropWhile (p := (· ≠ slash)) (l := b :: path)
  rw [← hs] at hsplit ⊢
  cases hd : (b :: path).dropWhile (· ≠ slash) with
  | nil =>
    rw [hd, List.append_nil] at hsplit
    rw [← hsplit, components, List.splitOnP_eq_singleton hfree]
    simp [hne, components]
  | cons c rest =>
    have hc : c = slash := by
      have hhead := List.head?_dropWhile_not (fun b => decide (b ≠ slash)) (b :: path)
      rw [hd] at hhead
      simpa using hhead
    rw [hd] at hsplit
    rw [← hsplit, hc, components, List.splitOnP_append_cons_of_forall_mem hfree _ (by simp), components_slash]
    simp [hne, components]

/-- `skipelem` takes the elements of the path one by one. -/
theorem skipelem_components (path : List Byte) :
    match skipelem path with
    | none => components path = []
    | some (name, rest) => components path = name :: components rest ∧ (rest = [] ↔ components rest = []) := by
  rw [← components_dropWhile path, skipelem]
  cases hs : path.dropWhile (· = slash) with
  | nil => rfl
  | cons b s =>
    have hb : b ≠ slash := by
      have hhead := List.head?_dropWhile_not (fun b => decide (b = slash)) path
      rw [hs] at hhead
      simpa using hhead
    simp only [if_neg (List.cons_ne_nil b s), components_cons hb s, components_dropWhile, true_and]
    rw [← components_dropWhile]
    constructor
    · intro h
      rw [h]
      rfl
    · intro h
      cases hd : ((b :: s).dropWhile (· ≠ slash)).dropWhile (· = slash) with
      | nil => rfl
      | cons c rest =>
        have hc := List.head?_dropWhile_not (fun b => decide (b = slash)) ((b :: s).dropWhile (· ≠ slash))
        rw [hd] at h hc
        have hslash := components_eq_nil.mp h c List.mem_cons_self
        simp [hslash] at hc

/-- `namex` visits the elements of the path in their order. -/
theorem namexLoop_eq (nameiparent : Bool) (ip : Nat) (path name : List Byte) :
    namexLoop nameiparent ip path name = walkNames nameiparent ip name (components path) := by
  fun_induction namexLoop nameiparent ip path name with
  | case1 ip path name h hparent =>
    have hcomp := skipelem_components path
    rw [h] at hcomp
    rw [hcomp, walkNames, if_pos hparent]
  | case2 ip path name h hparent =>
    have hcomp := skipelem_components path
    rw [h] at hcomp
    rw [hcomp, walkNames, if_neg hparent]
  | case3 ip path _ name rest h ih =>
    have hcomp := skipelem_components path
    rw [h] at hcomp
    rw [hcomp.1, walkNames]
    by_cases hrest : rest = []
    · have hnil : components [] = [] := rfl
      subst hrest
      simp only [ih, hnil] <;> rfl
    · simp only [hrest, ih, mt hcomp.2.mpr hrest] <;> rfl

end PbsCow.Files
