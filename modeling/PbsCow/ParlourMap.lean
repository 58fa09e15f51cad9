import PbsCow.Parlour
import Mathlib.Data.Finset.Card
import Mathlib.Data.List.Induction

namespace PbsCow
set_option autoImplicit true

namespace Parlour

/-- The keys of a map. -/
def keys (map : Map) : List String := map.map Prod.fst

theorem find_cons (e : String × Int) (map : Map) (key : String) :
    find (e :: map) key = if e.1 = key then e.2 else find map key := by
  rw [find, List.find?_cons]
  by_cases he : e.1 = key
  · simp [he]
  · simp [he, find]

theorem keys_cons (e : String × Int) (map : Map) : keys (e :: map) = e.1 :: keys map := rfl

theorem find_append (map map' : Map) (key : String) :
    find (map ++ map') key = if key ∈ keys map then find map key else find map' key := by
  induction map with
  | nil => rfl
  | cons e map ih =>
    rw [List.cons_append, find_cons, find_cons, ih]
    by_cases he : e.1 = key
    · simp [keys, he]
    · have hmem : key ∈ keys (e :: map) ↔ key ∈ keys map := by
        simp [keys, Ne.symm he]
      rw [if_neg he, if_neg he]
      simp only [hmem]

theorem find_of_not_mem (h : key ∉ keys map) : find map key = -1 := by
  induction map with
  | nil => rfl
  | cons e map ih =>
    have he : e.1 ≠ key := fun he => h (by simp [keys, he])
    rw [find_cons, if_neg he]
    exact ih fun hk => h (List.mem_cons_of_mem _ hk)

/-- The map after the loop of `insert`. -/
def overwrite (map : Map) (key : String) (value : Int) : Map :=
  map.map fun e => if e.1 = key then (key, value) else e

theorem insert_eq (map : Map) (key : String) (value : Int) : insert map key value =
    if map.length < MAX_SIZE then overwrite map key value ++ [(key, value)]
    else overwrite map key value := by
  simp [insert, overwrite]

theorem keys_overwrite (map : Map) (key : String) (value : Int) :
    keys (overwrite map key value) = keys map := by
  rw [keys, overwrite, List.map_map]
  refine List.map_congr_left fun e _ => ?_
  simp only [Function.comp]
  split
  case isTrue h => exact h.symm
  case isFalse => rfl

theorem find_overwrite (map : Map) (key key' : String) (value : Int) :
    find (overwrite map key value) key' =
      if key' = key ∧ key ∈ keys map then value else find map key' := by
  induction map with
  | nil => simp [overwrite, keys]
  | cons e map ih =>
    rw [overwrite, List.map_cons, ← overwrite, find_cons, find_cons, ih]
    by_cases he : e.1 = key
    · by_cases hk : key' = key
      · simp [he, hk, keys]
      · simp [he, hk, Ne.symm hk]
    · by_cases hk : key' = key
      · subst hk
        simp [he, keys_cons, Ne.symm he]
      · simp [he, hk]

/-- `insert` finds a place for the key. -/
theorem find_insert_self (h : key ∈ keys map ∨ map.length < MAX_SIZE) :
    find (insert map key value) key = value := by
  rw [insert_eq]
  by_cases hk : key ∈ keys map
  · split <;> simp [find_append, keys_overwrite, find_overwrite, hk]
  · rcases h with h | h
    · exact (hk h).elim
    · rw [if_pos h, find_append, keys_overwrite, if_neg hk]
      simp [find]

theorem find_insert_of_ne (h : key' ≠ key) : find (insert map key value) key' = find map key' := by
  rw [insert_eq]
  split
  · rw [find_append, keys_overwrite, find_overwrite]
    by_cases hk : key' ∈ keys map
    · simp [hk, h]
    · rw [if_neg hk, find_of_not_mem hk]
      simp [find, Ne.symm h]
  · rw [find_overwrite, if_neg fun he => h he.1]

section Listed

/-- The value that a list gives to the key last. -/
def lastListed (l : Map) (key : String) : Option Int :=
  (l.reverse.find? fun e => e.1 = key).map Prod.snd

theorem lastListed_concat (l : Map) (e : String × Int) (key : String) :
    lastListed (l ++ [e]) key = if e.1 = key then some e.2 else lastListed l key := by
  rw [lastListed, List.reverse_concat, List.find?_cons]
  split <;> simp_all [lastListed]

theorem lastListed_nil (key : String) : lastListed [] key = none := rfl

theorem lastListed_eq_none : lastListed l key = none ↔ key ∉ keys l := by
  rw [lastListed, Option.map_eq_none_iff, List.find?_eq_none]
  constructor
  · intro h hkey
    obtain ⟨e, he, rfl⟩ := List.mem_map.1 hkey
    simpa using h e (List.mem_reverse.2 he)
  · intro h e he hk
    exact h (List.mem_map.2 ⟨e, List.mem_reverse.1 he, of_decide_eq_true hk⟩)

theorem length_insert (map : Map) (key : String) (value : Int) :
    (insert map key value).length = min (map.length + 1) (max map.length MAX_SIZE) := by
  rw [insert_eq]
  split
  · rw [List.length_append, overwrite, List.length_map, List.length_singleton]
    omega
  · rw [overwrite, List.length_map]
    omega

/-- The map after a sequence of calls of `insert`. -/
def inserts (l : Map) : Map := l.foldl (fun map e => insert map e.1 e.2) []

theorem inserts_concat (l : Map) (e : String × Int) :
    inserts (l ++ [e]) = insert (inserts l) e.1 e.2 :=
  List.foldl_concat ..

theorem length_inserts (l : Map) : (inserts l).length = min l.length MAX_SIZE := by
  induction l using List.reverseRecOn with
  | nil => rfl
  | append_singleton l e ih =>
    rw [inserts_concat, length_insert, ih, List.length_append, List.length_singleton]
    omega

theorem mem_keys_insert : k ∈ keys (insert map key value) ↔
    k ∈ keys map ∨ map.length < MAX_SIZE ∧ k = key := by
  rw [insert_eq]
  split
  case isTrue h =>
    rw [keys, List.map_append, ← keys, keys_overwrite]
    simp [h]
  case isFalse h =>
    rw [keys_overwrite]
    simp [h]

/-- The keys that the first `MAX_SIZE` calls insert get a place. -/
theorem mem_keys_inserts (l : Map) (key : String) :
    key ∈ keys (inserts l) ↔ key ∈ keys (l.take MAX_SIZE) := by
  induction l using List.reverseRecOn with
  | nil => rfl
  | append_singleton l e ih =>
    rw [inserts_concat, mem_keys_insert, ih, length_inserts, List.take_append]
    rcases Nat.lt_or_ge l.length MAX_SIZE with hlt | hge
    · have hone : (MAX_SIZE - l.length) = (MAX_SIZE - l.length - 1) + 1 := by omega
      rw [hone, List.take_succ_cons, List.take_nil]
      have hmin : min l.length MAX_SIZE < MAX_SIZE := by omega
      simp [keys, hmin]
    · have hmin : ¬ min l.length MAX_SIZE < MAX_SIZE := by omega
      rw [Nat.sub_eq_zero_of_le hge, List.take_zero, List.append_nil]
      simp [hmin]

/-- A key that has a place has the value that it was given last. -/
theorem find_inserts (l : Map) (h : key ∈ keys (l.take MAX_SIZE)) :
    lastListed l key = some (find (inserts l) key) := by
  rw [← mem_keys_inserts] at h
  induction l using List.reverseRecOn with
  | nil => cases h
  | append_singleton l e ih =>
    rw [inserts_concat, mem_keys_insert] at h
    rw [lastListed_concat, inserts_concat]
    by_cases he : e.1 = key
    · rw [if_pos he, ← he, find_insert_self]
      exact h.imp (fun h => he ▸ h) And.left
    · rw [if_neg he, find_insert_of_ne (Ne.symm he)]
      rcases h with h | ⟨_, h⟩
      · exact ih h
      · exact (he h.symm).elim

/-- As long as there is space, the map that `main` makes holds what was listed last. -/
theorem find_listed (l : Map) (hl : l.length ≤ MAX_SIZE) (h : lastListed l key = some v) :
    find (inserts l) key = v := by
  have hkey : key ∈ keys l := by
    by_contra hno
    rw [lastListed_eq_none.2 hno] at h
    cases h
  have hlast := find_inserts l (by rwa [List.take_of_length_le hl])
  rw [h] at hlast
  injection hlast with hlast
  exact hlast.symm

theorem lastListed_append (l l' : Map) (h : lastListed l' key = some v) :
    lastListed (l ++ l') key = some v := by
  rw [lastListed, List.reverse_append, List.find?_append]
  rw [lastListed] at h
  obtain ⟨e, he, hv⟩ := Option.map_eq_some_iff.1 h
  rw [he]
  exact congrArg some hv

theorem lastListed_append_none (h : lastListed l' key = none) :
    lastListed (l ++ l') key = lastListed l key := by
  rw [lastListed, Option.map_eq_none_iff] at h
  rw [lastListed, List.reverse_append, List.find?_append, h]
  rfl

end Listed

section Want

/-- One more of the topping. -/
def bump (map : Map) (key : String) : Map := map.map fun e => if e.1 = key then (e.1, e.2 + 1) else e

theorem keys_bump (map : Map) (key : String) : keys (bump map key) = keys map := by
  rw [keys, bump, List.map_map]
  refine List.map_congr_left fun e _ => ?_
  simp only [Function.comp]
  split <;> rfl

theorem bump_of_not_mem (h : key ∉ keys map) : bump map key = map := by
  rw [bump]
  refine (List.map_congr_left fun e he => ?_).trans (List.map_id map)
  rw [if_neg]
  · rfl
  · rintro rfl
    exact h (List.mem_map_of_mem he)

theorem modify_bump (map : Map) (hn : (keys map).Nodup)
    (h : (map.findIdx? fun e => e.1 = key) = some i) :
    map.modify i (fun e => (e.1, e.2 + 1)) = bump map key := by
  induction map generalizing i with
  | nil => cases h
  | cons e map ih =>
    rw [keys_cons, List.nodup_cons] at hn
    rw [List.findIdx?_cons] at h
    by_cases he : e.1 = key
    · simp only [he, decide_true, if_true] at h
      injection h with h
      subst h
      rw [List.modify_zero_cons, bump, List.map_cons, if_pos he, ← bump, bump_of_not_mem (he ▸ hn.1)]
    · simp only [he, decide_false, Bool.false_eq_true, if_false] at h
      obtain ⟨i', hi', rfl⟩ := Option.map_eq_some_iff.1 h
      rw [List.modify_succ_cons, ih hn.2 hi', bump, bump, List.map_cons, if_neg he]

theorem insertOrUpdateTopping_eq (hn : (keys map).Nodup) : insertOrUpdateTopping map key =
    if key ∈ keys map then bump map key
    else if map.length < MAX_SIZE then map ++ [(key, 1)] else map := by
  rw [insertOrUpdateTopping]
  cases h : map.findIdx? fun e => e.1 = key with
  | none =>
    have hk : key ∉ keys map := by
      intro hk
      obtain ⟨e, he, hek⟩ := List.mem_map.1 hk
      have := List.findIdx?_eq_none_iff.1 h e he
      simp [hek] at this
    rw [if_neg hk]
  | some i =>
    have hk : key ∈ keys map := by
      obtain ⟨hi, hp, _⟩ := List.findIdx?_eq_some_iff_getElem.1 h
      rw [← of_decide_eq_true hp]
      exact List.mem_map_of_mem (List.getElem_mem hi)
    rw [if_pos hk]
    exact modify_bump map hn h

/-- The map of an order counts its toppings, if there are not too many of them. -/
structure Tallies (l : List String) (want : Map) : Prop where
  nodup : (keys want).Nodup
  keys : ∀ x, x ∈ keys want ↔ x ∈ l
  count : ∀ e ∈ want, e.2 = l.count e.1

theorem Tallies.length (h : Tallies l want) : want.length = l.toFinset.card := by
  have hkeys : (Parlour.keys want).toFinset = l.toFinset := by
    ext x
    rw [List.mem_toFinset, List.mem_toFinset, h.keys]
  rw [← hkeys, List.toFinset_card_of_nodup h.nodup, Parlour.keys, List.length_map]

theorem Tallies.concat (h : Tallies l want) (hl : (l ++ [x]).toFinset.card ≤ MAX_SIZE) :
    Tallies (l ++ [x]) (insertOrUpdateTopping want x) := by
  rw [insertOrUpdateTopping_eq h.nodup]
  by_cases hx : x ∈ Parlour.keys want
  · rw [if_pos hx]
    refine ⟨by rw [keys_bump]; exact h.nodup, fun y => ?_, fun e he => ?_⟩
    · rw [keys_bump, h.keys, List.mem_append, List.mem_singleton]
      refine ⟨.inl, fun hy => ?_⟩
      rcases hy with hy | rfl
      · exact hy
      · exact (h.keys y).1 hx
    · obtain ⟨e', he', rfl⟩ := List.mem_map.1 he
      have hcount := h.count e' he'
      by_cases hk : e'.1 = x
      · simp [hk, List.count_append, hcount]
      · simp [hk, List.count_append, hcount, Ne.symm hk]
  · have hnew : x ∉ l := fun hm => hx ((h.keys x).2 hm)
    have hlt : want.length < MAX_SIZE := by
      rw [h.length]
      refine Nat.lt_of_lt_of_le ?_ hl
      refine Finset.card_lt_card ⟨fun y hy => ?_, fun hsub => hnew ?_⟩
      · simp only [List.mem_toFinset, List.mem_append] at hy ⊢
        exact .inl hy
      · exact List.mem_toFinset.1 (hsub (by simp))
    rw [if_neg hx, if_pos hlt]
    refine ⟨?_, fun y => ?_, fun e he => ?_⟩
    · rw [Parlour.keys, List.map_append, ← Parlour.keys]
      exact List.nodup_append.2 ⟨h.nodup, by simp, by
        rintro a ha b hb rfl
        simp only [List.map_cons, List.map_nil, List.mem_singleton] at hb
        exact hx (hb ▸ ha)⟩
    · rw [Parlour.keys, List.map_append, ← Parlour.keys, List.mem_append, h.keys, List.mem_append]
      rfl
    · rcases List.mem_append.1 he with hw | hw
      · have hk : e.1 ≠ x := by
          rintro rfl
          exact hx (List.mem_map_of_mem hw)
        simp [List.count_append, h.count e hw, Ne.symm hk]
      · rw [List.mem_singleton.1 hw]
        simp [List.count_append, List.count_eq_zero_of_not_mem hnew]

theorem tallies_want (l : List String) (hl : l.toFinset.card ≤ MAX_SIZE) :
    Tallies l (l.foldl insertOrUpdateTopping []) := by
  induction l using List.reverseRecOn with
  | nil => exact ⟨List.nodup_nil, fun x => Iff.rfl, fun e he => by cases he⟩
  | append_singleton l x ih =>
    rw [List.foldl_concat]
    refine (ih (Nat.le_trans (Finset.card_le_card fun y hy => ?_) hl)).concat hl
    simp only [List.mem_toFinset, List.mem_append] at hy ⊢
    exact .inl hy

end Want

section Deduct

/-- What is done for one entry of the order. -/
def deductOne (map : Map) (e : String × Int) : Map :=
  if find map e.1 = -1 then map else insert map e.1 (find map e.1 - e.2)

theorem find_deductOne_of_ne (h : key ≠ e.1) : find (deductOne map e) key = find map key := by
  rw [deductOne]
  split
  · rfl
  · exact find_insert_of_ne h

theorem find_deductOne_self (map : Map) (e : String × Int) :
    find (deductOne map e) e.1 = if find map e.1 = -1 then -1 else find map e.1 - e.2 := by
  rw [deductOne]
  by_cases h : find map e.1 = -1
  · rw [if_pos h, if_pos h, h]
  · rw [if_neg h, if_neg h, find_insert_self]
    by_contra hk
    exact h (find_of_not_mem fun hm => hk (.inl hm))

/-- Each topping of the order is reduced once, unless it is unlimited. -/
theorem find_deduct (hn : (keys want).Nodup) :
    (∀ key, key ∉ keys want → find (deduct map want) key = find map key) ∧
    ∀ e ∈ want, find (deduct map want) e.1 =
      if find map e.1 = -1 then -1 else find map e.1 - e.2 := by
  induction want generalizing map with
  | nil => exact ⟨fun _ _ => rfl, fun e he => by cases he⟩
  | cons e want ih =>
    rw [keys_cons, List.nodup_cons] at hn
    have heq : deduct map (e :: want) = deduct (deductOne map e) want := rfl
    obtain ⟨hout, hin⟩ := @ih (deductOne map e) hn.2
    rw [heq]
    refine ⟨fun key hk => ?_, fun e' he' => ?_⟩
    · rw [keys_cons, List.mem_cons, not_or] at hk
      rw [hout key hk.2, find_deductOne_of_ne hk.1]
    · rcases List.mem_cons.1 he' with rfl | he'
      · rw [hout _ hn.1, find_deductOne_self]
      · have hne : e'.1 ≠ e.1 := fun he => hn.1 (he ▸ List.mem_map_of_mem he')
        rw [hin e' he', find_deductOne_of_ne hne]

theorem find_deduct_unlimited (hn : (keys want).Nodup) (h : find map key = -1) :
    find (deduct map want) key = -1 := by
  by_cases hk : key ∈ keys want
  · obtain ⟨e, he, rfl⟩ := List.mem_map.1 hk
    rw [(find_deduct hn).2 e he, if_pos h]
  · rw [(find_deduct hn).1 key hk, h]

/-- An order takes as many of a topping as it has, and there were enough. -/
theorem find_deduct_tallies (ht : Tallies l want) (he : enough map want = true)
    (h : 0 ≤ find map key) : find (deduct map want) key = find map key - l.count key ∧
      0 ≤ find (deduct map want) key := by
  by_cases hk : key ∈ keys want
  · obtain ⟨e, hm, rfl⟩ := List.mem_map.1 hk
    have hne : find map e.1 ≠ -1 := fun hu => by
      rw [hu] at h
      exact absurd h (by decide)
    have henough := List.all_eq_true.1 he e hm
    simp only [Bool.or_eq_true, decide_eq_true_eq, beq_iff_eq] at henough
    rw [(find_deduct ht.nodup).2 e hm, if_neg hne, ← ht.count e hm]
    refine ⟨rfl, Int.sub_nonneg.2 ?_⟩
    rcases henough with hle | hu
    · exact hle
    · exact (hne hu).elim
  · have hl : key ∉ l := fun hm => hk ((ht.keys key).2 hm)
    rw [(find_deduct ht.nodup).1 key hk, List.count_eq_zero_of_not_mem hl]
    exact ⟨(Int.sub_zero _).symm, h⟩

end Deduct

end Parlour

end PbsCow
