import Mathlib.Algebra.Group.Pi.Lemmas
import Mathlib.Algebra.Group.Prod
import Mathlib.Tactic.Abel
import PbsCow.Files
import PbsCow.Lib.Ledger

namespace PbsCow.Files
set_option autoImplicit true

/-- The references to the entries of the inode table, and the operations in progress. -/
def State.tally (s : State) : (Nat → Int) × Int := (fun i => (s.inode i).ref, s.log.outstanding)

/-- A pointer to entry `i`. -/
def held (i : Nat) : (Nat → Int) × Int := (Pi.single i 1, 0)

def heldBy (o : Option Nat) : (Nat → Int) × Int := o.elim 0 held

/-- An operation in progress. -/
def op : (Nat → Int) × Int := (0, 1)

theorem tally_setInode (s : State) (i : Nat) (f : Inode → Inode) :
    State.tally { s with inode := Function.update s.inode i (f (s.inode i)) } =
      s.tally + (Pi.single i ((f (s.inode i)).ref - (s.inode i).ref), 0) := by
  apply Prod.ext
  · funext j
    by_cases hj : j = i
    · subst hj
      simp [State.tally]
    · simp [State.tally, hj]
  · exact (add_zero _).symm

theorem shifts_setInode (h : ∀ ip, (f ip).ref = ip.ref + d) :
    Shifts State.tally (setInode i f) fun _ => (Pi.single i d, 0) := by
  apply Shifts.update
  intro s
  rw [tally_setInode, h, add_sub_cancel_left]

theorem still_setInode (h : ∀ ip, (f ip).ref = ip.ref) : Shifts State.tally (setInode i f) fun _ => 0 := by
  apply (shifts_setInode (d := 0) fun ip => by rw [h, add_zero]).congr
  intro _
  rw [Pi.single_zero]
  rfl

theorem shifts_onLog {x : Log.Sys α} {d : α → Int} (h : Shifts Log.State.outstanding x d) :
    Shifts State.tally (onLog x) fun a => (0, d a) := by
  intro s
  rw [onLog, wp_embed]
  apply ((h s.log).weaken fun _ _ => trivial).mono
  intro a log hlog
  simp only [State.tally, Prod.mk_add_mk, add_zero, hlog]

theorem still_onLog {x : Log.Sys α} (h : Shifts Log.State.outstanding x fun _ => 0) :
    Shifts State.tally (onLog x) fun _ => 0 := shifts_onLog h

theorem still_logWrite (b : Nat) : Shifts State.tally (onLog (Log.logWrite b)) fun _ => 0 := by
  apply still_onLog
  intro log
  rw [Log.logWrite, wp_bind, wp_get]
  refine .ite (fun _ => wp_throw.2 trivial) fun _ => .ite (fun _ => wp_throw.2 trivial) fun _ => ?_
  exact .ite (fun _ => (add_zero _).symm) fun _ => (add_zero _).symm

theorem shifts_beginOp : Shifts State.tally beginOp fun _ => op := by
  have hlog : Shifts Log.State.outstanding Log.beginOp fun b => if b then 1 else 0 := by
    intro log
    rw [Log.beginOp, wp_bind, wp_get]
    exact .ite (fun _ => (add_zero _).symm) fun _ => .ite (fun _ => (add_zero _).symm) fun _ => rfl
  apply (shifts_onLog hlog).bind
  intro b
  cases b with
  | false => exact .throw _
  | true => exact .pure (sub_self op)

theorem shifts_endOp : Shifts State.tally endOp fun _ => -op := by
  have hlog : Shifts Log.State.outstanding Log.endOp fun _ => -1 := by
    intro log
    rw [Log.endOp]
    simp only [wp_bind, wp_modify, wp_get]
    refine .ite (fun _ => wp_throw.2 trivial) fun _ => ?_
    exact .ite (fun _ => rfl) fun _ => rfl
  have hback : (-op - ((0, -1) : (Nat → Int) × Int)) = 0 := rfl
  refine .bind (shifts_onLog hlog) fun b => .ite (fun _ => ?_) fun _ => .pure hback
  rw [hback]
  exact .seq (still_onLog (.still fun _ => rfl)) fun _ => still_onLog (.still fun _ => rfl)

theorem still_iupdate (i : Nat) : Shifts State.tally (iupdate i) fun _ => 0 := by
  apply Shifts.get
  intro s
  refine Shifts.seq (.still fun _ => rfl) fun _ => ?_
  apply Shifts.get
  intro s'
  exact still_logWrite _

theorem shifts_iget (inum : Nat) : Shifts State.tally (iget inum) held := by
  intro s
  rw [iget, wp_bind, wp_get]
  split
  · next i _ =>
      have hup : Shifts State.tally (setInode i fun ip => { ip with ref := ip.ref + 1 }) fun _ => held i :=
        shifts_setInode fun _ => rfl
      exact hup.bind (fun _ => .pure (sub_self _)) s
  · split
    · exact wp_throw.2 trivial
    · next i hi =>
      have href : (s.inode i).ref = 0 := by simpa using List.find?_some hi
      simp only [setInode, wp_bind, wp_modify, wp_pure]
      rw [tally_setInode s i fun ip => { ip with inum := inum, ref := 1, valid := false }, href]
      rfl

theorem shifts_idup (i : Nat) : Shifts State.tally (idup i) held :=
  .bind (shifts_setInode fun _ => rfl) fun _ => .pure (sub_self _)

theorem still_ilock (i : Nat) : Shifts State.tally (ilock i) fun _ => 0 := by
  apply Shifts.get
  intro s
  refine .ite (fun _ => .throw _) fun _ => .ite (fun _ => .throw _) fun _ => ?_
  refine .seq (still_setInode fun _ => rfl) fun _ => .ite (fun _ => ?_) fun _ => .pure rfl
  refine .seq (still_setInode fun _ => rfl) fun _ => ?_
  exact .ite (fun _ => .throw _) fun _ => .pure rfl

theorem still_iunlock (i : Nat) : Shifts State.tally (iunlock i) fun _ => 0 := by
  apply Shifts.get
  intro s
  exact .ite (fun _ => .throw _) fun _ => still_setInode fun _ => rfl

theorem still_bfreeAll (blocks : List Nat) : Shifts State.tally (bfreeAll blocks) fun _ => 0 := by
  induction blocks with
  | nil => exact .pure rfl
  | cons b blocks ih =>
    refine .seq (.get fun s => .ite (fun _ => .throw _) fun _ => ?_) fun _ => ih
    exact .seq (.still fun _ => rfl) fun _ => still_logWrite _

theorem still_itrunc (i : Nat) : Shifts State.tally (itrunc i) fun _ => 0 := by
  apply Shifts.get
  intro s
  refine .seq (still_bfreeAll _) fun _ => .seq (still_setInode fun _ => rfl) fun _ => ?_
  exact still_iupdate i

/-- However `iput` ends, the pointer is gone. -/
theorem shifts_iput (i : Nat) : Shifts State.tally (iput i) fun _ => -held i := by
  have hdrop : Shifts State.tally (setInode i fun ip => { ip with ref := ip.ref - 1 }) fun _ => -held i :=
    (shifts_setInode (d := -1) fun _ => rfl).congr fun _ => Prod.ext (Pi.single_neg i 1) neg_zero.symm
  apply Shifts.get
  intro s
  refine .ite (fun _ => .ite (fun _ => .throw _) fun _ => ?_) fun _ => hdrop
  refine .seq (still_setInode fun _ => rfl) fun _ => .seq (still_itrunc i) fun _ => ?_
  refine .seq (still_setInode fun _ => rfl) fun _ => .seq (still_iupdate i) fun _ => ?_
  exact .seq (still_setInode fun _ => rfl) fun _ => hdrop

theorem shifts_iunlockput (i : Nat) : Shifts State.tally (iunlockput i) fun _ => -held i :=
  .seq (still_iunlock i) fun _ => shifts_iput i

theorem shifts_dirlookup (i : Nat) (name : List Byte) :
    Shifts State.tally (dirlookup i name) fun o => heldBy (o.map Prod.fst) := by
  have hloop (n off : Nat) :
      Shifts State.tally (dirlookupLoop i name n off) fun o => heldBy (o.map Prod.fst) := by
    induction n generalizing off with
    | zero => exact .pure rfl
    | succ n ih =>
      rw [dirlookupLoop]
      refine .get fun s => .ite (fun _ => .throw _) fun _ => .ite (fun _ => ?_) fun _ => ih _
      exact .bind (shifts_iget _) fun _ => .pure (sub_self _)
  apply Shifts.get
  intro s
  exact .ite (fun _ => .throw _) fun _ => hloop _ _

/-- `namex` has put every pointer but the one that it returns. -/
theorem shifts_namexLoop (nameiparent : Bool) (i : Nat) (path name : List Byte) :
    Shifts State.tally (namexLoop nameiparent i path name) fun o => heldBy (o.map Prod.fst) - held i := by
  fun_induction namexLoop nameiparent i path name with
  | case1 i path name =>
    refine .bind (shifts_iput i) fun _ => .pure ?_
    abel
  | case2 i path name => exact .pure (sub_self _)
  | case3 i path _ name rest _ ih =>
    refine .seq (still_ilock i) fun _ => .get fun s => .ite (fun _ => ?_) fun _ => .ite (fun _ => ?_) fun _ => ?_
    · refine .bind (shifts_iunlockput i) fun _ => .pure ?_
      abel
    · refine .seq (still_iunlock i) fun _ => .pure ?_
      exact sub_self _
    · refine .bind (shifts_dirlookup i name) fun o => ?_
      cases o with
      | none =>
        refine .bind (shifts_iunlockput i) fun _ => .pure ?_
        simp [heldBy]
      | some next =>
        refine .bind (shifts_iunlockput i) fun _ => (ih next.1).congr fun o => ?_
        simp only [heldBy, Option.map_some, Option.elim_some]
        abel

theorem shifts_namex (cwd : Nat) (nameiparent : Bool) (path : List Byte) :
    Shifts State.tally (namex cwd nameiparent path) fun o => heldBy (o.map Prod.fst) := by
  have hstart : Shifts State.tally (if path.head? = some slash then iget ROOTINO else idup cwd) held :=
    .ite (fun _ => shifts_iget _) fun _ => shifts_idup _
  exact .bind hstart fun i => shifts_namexLoop nameiparent i path []

theorem shifts_namei (cwd : Nat) (path : List Byte) : Shifts State.tally (namei cwd path) heldBy :=
  .bind (shifts_namex cwd false path) fun _ => .pure (sub_self _)

end PbsCow.Files
