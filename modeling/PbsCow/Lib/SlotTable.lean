import Mathlib.Data.List.Nodup

namespace PbsCow
set_option autoImplicit true

/-- A table of slots: each is free, or has a value under a key. -/
abbrev SlotTable (κ ν : Type) := List (Option (κ × ν))

namespace SlotTable

def keys (l : SlotTable κ ν) : List κ := l.filterMap fun x => x.map Prod.fst

/-- The value in the first slot with the key. -/
def find [DecidableEq κ] (k : κ) : SlotTable κ ν → Option ν
  | [] => none
  | none :: l => find k l
  | some (k', v) :: l => if k' = k then some v else find k l

/-- No two slots have the same key. -/
def Distinct (l : SlotTable κ ν) : Prop := l.keys.Nodup

theorem keys_append (l m : SlotTable κ ν) : keys (l ++ m) = keys l ++ keys m := List.filterMap_append

theorem keys_cons_none (l : SlotTable κ ν) : keys (none :: l) = keys l := rfl

theorem keys_cons_some (x : κ × ν) (l : SlotTable κ ν) : keys (some x :: l) = x.1 :: keys l := rfl

variable {l m : SlotTable κ ν}

theorem distinct_insert {k : κ} (hd : Distinct (l ++ m)) (h : k ∉ keys l) (h' : k ∉ keys m) (v : ν) :
    Distinct (l ++ some (k, v) :: m) := by
  rw [Distinct, keys_append] at hd ⊢
  rw [keys_cons_some, List.nodup_middle, List.nodup_cons, List.mem_append, not_or]
  exact ⟨⟨h, h'⟩, hd⟩

theorem distinct_skip : Distinct (l ++ none :: m) ↔ Distinct (l ++ m) := by
  rw [Distinct, Distinct, keys_append, keys_append, keys_cons_none]

theorem distinct_erase {x : κ × ν} (hd : Distinct (l ++ some x :: m)) : Distinct (l ++ none :: m) := by
  rw [distinct_skip]
  rw [Distinct, keys_append, keys_cons_some, List.nodup_middle, List.nodup_cons] at hd
  rw [Distinct, keys_append]
  exact hd.2

variable [DecidableEq κ]

theorem find_append (k : κ) : find k (l ++ m) = (find k l).or (find k m) := by
  induction l with
  | nil => rfl
  | cons x l ih =>
    cases x with
    | none => exact ih
    | some x =>
      rw [List.cons_append, find, find]
      split
      · rfl
      · exact ih

theorem find_eq_none (k : κ) : find k l = none ↔ k ∉ keys l := by
  induction l with
  | nil => exact iff_of_true rfl List.not_mem_nil
  | cons x l ih =>
    cases x with
    | none => exact ih
    | some x =>
      rw [find, keys_cons_some, List.mem_cons, not_or]
      split
      · next h => exact iff_of_false (Option.some_ne_none _) fun hc => hc.1 h.symm
      · next h => exact ⟨fun hn => ⟨fun he => h he.symm, ih.1 hn⟩, fun hc => ih.2 hc.2⟩

/-- A slot that was free, or that the table has grown by, takes a key that is new. -/
theorem find_insert {k : κ} (h : k ∉ keys l) (h' : k ∉ keys m) (v : ν) (j : κ) :
    find j (l ++ some (k, v) :: m) = if j = k then some v else find j (l ++ m) := by
  rw [find_append, find_append, find]
  by_cases hj : j = k
  · subst hj
    rw [if_pos rfl, if_pos rfl, (find_eq_none j).2 h]
    rfl
  · rw [if_neg hj, if_neg fun he => hj he.symm]

theorem find_skip (j : κ) : find j (l ++ none :: m) = find j (l ++ m) := by
  rw [find_append, find_append, find]

/-- A slot is freed. -/
theorem find_erase {k : κ} {v : ν} (hd : Distinct (l ++ some (k, v) :: m)) (j : κ) :
    find j (l ++ none :: m) = if j = k then none else find j (l ++ some (k, v) :: m) := by
  rw [Distinct, keys_append, keys_cons_some, List.nodup_middle, List.nodup_cons, List.mem_append, not_or] at hd
  obtain ⟨⟨h, h'⟩, -⟩ := hd
  rw [find_skip, find_insert h h']
  split
  · next hj =>
    rw [find_append, hj, (find_eq_none k).2 h, (find_eq_none k).2 h']
    rfl
  · rfl

end SlotTable

end PbsCow
