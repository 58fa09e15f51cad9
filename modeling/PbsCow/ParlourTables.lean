import PbsCow.ParlourMap

namespace PbsCow
set_option autoImplicit true

namespace Parlour

section Law

/-- Every key gets a place before the array is full, or was last given what `find` says of a key that
has none. -/
def Placed (l : Map) : Prop := ∀ e ∈ l, e.1 ∈ keys (l.take MAX_SIZE) ∨ lastListed l e.1 = some (-1)

theorem find_unplaced (h : key ∉ keys (l.take MAX_SIZE)) : find (inserts l) key = -1 :=
  find_of_not_mem fun hk => h ((mem_keys_inserts l key).1 hk)

/-- `find` says what was inserted last exactly if every key is inserted before the array is full. -/
theorem map_law_iff (l : Map) :
    (∀ key, find (inserts l) key = (lastListed l key).getD (-1)) ↔ Placed l := by
  constructor
  · intro h e he
    by_cases hp : e.1 ∈ keys (l.take MAX_SIZE)
    · exact .inl hp
    · right
      have hlast := h e.1
      rw [find_unplaced hp] at hlast
      cases hv : lastListed l e.1 with
      | none => exact (lastListed_eq_none.1 hv (List.mem_map_of_mem he)).elim
      | some v =>
        rw [hv] at hlast
        rw [hlast]
        rfl
  · intro h key
    by_cases hp : key ∈ keys (l.take MAX_SIZE)
    · rw [find_inserts l hp]
      rfl
    · rw [find_unplaced hp]
      cases hv : lastListed l key with
      | none => rfl
      | some v =>
        have hkey : key ∈ keys l := by
          by_contra hno
          rw [lastListed_eq_none.2 hno] at hv
          cases hv
        obtain ⟨e, he, rfl⟩ := List.mem_map.1 hkey
        rcases h e he with hin | hv'
        · exact (hp hin).elim
        · rw [hv] at hv'
          injection hv' with hv'
          exact hv'.symm

/-- Updates of one key fill the array, and the second key finds no place. -/
theorem map_law_filled :
    (keys (List.replicate MAX_SIZE ("mango", 1) ++ [("mint", 2)])).toFinset.card ≤ MAX_SIZE ∧
      find (inserts (List.replicate MAX_SIZE ("mango", 1) ++ [("mint", 2)])) "mint" = -1 ∧
      lastListed (List.replicate MAX_SIZE ("mango", 1) ++ [("mint", 2)]) "mint" = some 2 := by
  refine ⟨?_, find_unplaced ?_, ?_⟩
  · have hsub : (keys (List.replicate MAX_SIZE ("mango", 1) ++ [("mint", 2)])).toFinset ⊆
        {"mango", "mint"} := by
      intro k hk
      rw [List.mem_toFinset, keys, List.map_append, List.map_replicate, List.mem_append,
        List.mem_replicate] at hk
      simpa using hk.imp_left And.right
    exact (Finset.card_le_card hsub).trans (by decide)
  · rw [List.take_left' (List.length_replicate ..), keys, List.map_replicate, List.mem_replicate]
    simp
  · rw [lastListed_concat]
    rfl

end Law

section Input

variable (q : Config)

/-- The flavour of an ice cream, as it was ordered. -/
def Config.flav (i j : Nat) : String := ((q.customer i).orders.getD j ⟨"", []⟩).flav

/-- What `main` promises about the queue and the map that it makes of its tables. -/
structure Config.Built : Prop where
  order : q.queu.map (fun p => (p.a, p.b)) = (List.range q.tot_customer).flatMap fun i =>
    (List.range (q.num_icecream i)).map fun j => (i + 1, j + 1)
  time : ∀ p ∈ q.queu, ∀ t_f, lastListed q.fav (q.flav (p.a - 1) (p.b - 1)) = some t_f → p.time = t_f
  stock : ∀ t q_t, lastListed q.top t = some q_t → find q.map t = q_t

/-- A flavour that has been ordered and a topping of the same name have the same number. -/
def Config.Apart : Prop := ∀ i < q.tot_customer, ∀ j < q.num_icecream i, ∀ t_f q_t,
  lastListed q.fav (q.flav i j) = some t_f → lastListed q.top (q.flav i j) = some q_t → t_f = q_t

variable {q}

theorem Config.mem_queu {p : Pair} : p ∈ q.queu ↔ ∃ i < q.tot_customer, ∃ j < q.num_icecream i,
    p = ⟨i + 1, j + 1, find q.map (q.flav i j)⟩ := by
  simp only [queu, List.mem_flatMap, List.mem_map, List.mem_range, flav]
  constructor
  · rintro ⟨i, hi, j, hj, rfl⟩
    exact ⟨i, hi, j, hj, rfl⟩
  · rintro ⟨i, hi, j, hj, rfl⟩
    exact ⟨i, hi, j, hj, rfl⟩

theorem Config.queu_order : q.queu.map (fun p => (p.a, p.b)) =
    (List.range q.tot_customer).flatMap fun i =>
      (List.range (q.num_icecream i)).map fun j => (i + 1, j + 1) := by
  rw [queu, List.map_flatMap]
  refine List.flatMap_congr fun i _ => ?_
  rw [List.map_map]
  rfl

section Space

variable (hsize : q.fav.length + q.top.length ≤ MAX_SIZE)
include hsize

theorem Config.find_top (h : lastListed q.top key = some v) : find q.map key = v :=
  find_listed (q.fav ++ q.top) (by rwa [List.length_append]) (lastListed_append q.fav q.top h)

theorem Config.find_fav (h : lastListed q.fav key = some v) (h' : lastListed q.top key = none) :
    find q.map key = v := by
  refine find_listed (q.fav ++ q.top) (by rwa [List.length_append]) ?_
  rw [lastListed_append_none h', h]

/-- The queue and the map are what they should be exactly if no flavour that is ordered has the name of
a topping with another number. -/
theorem input_tables_iff : q.Built ↔ q.Apart := by
  constructor
  · intro h i hi j hj t_f q_t hf ht
    have hp : (⟨i + 1, j + 1, find q.map (q.flav i j)⟩ : Pair) ∈ q.queu :=
      Config.mem_queu.2 ⟨i, hi, j, hj, rfl⟩
    have htime : find q.map (q.flav i j) = t_f := h.time _ hp t_f hf
    rw [← htime]
    exact h.stock _ q_t ht
  · intro h
    refine ⟨Config.queu_order, fun p hp t_f hf => ?_, fun t q_t ht => Config.find_top hsize ht⟩
    obtain ⟨i, hi, j, hj, rfl⟩ := Config.mem_queu.1 hp
    cases ht : lastListed q.top (q.flav i j) with
    | none => exact Config.find_fav hsize hf ht
    | some q_t =>
      rw [h i hi j hj t_f q_t hf ht]
      exact Config.find_top hsize ht

end Space

/-- One customer orders mango, which is a flavour and a topping. -/
def mangoTwice : Config :=
  ⟨1, [⟨0, 9⟩], [("mango", 3)], [("mango", 5)], [⟨1, 0, [⟨"mango", []⟩]⟩]⟩

theorem input_tables_shared : mangoTwice.fav.length + mangoTwice.top.length ≤ MAX_SIZE ∧
    mangoTwice.queu.map Pair.time = [5] ∧ lastListed mangoTwice.fav (mangoTwice.flav 0 0) = some 3 ∧
    ¬ mangoTwice.Built := by
  refine ⟨by decide, by decide, by decide, fun h => ?_⟩
  have hp : (⟨1, 1, 5⟩ : Pair) ∈ mangoTwice.queu :=
    Config.mem_queu.2 ⟨0, by decide, 0, by decide, by rfl⟩
  have htime := h.time _ hp 3 (by decide)
  exact absurd htime (by decide)

/-- Mango with mint on top. -/
theorem input_tables_iff_mint : Config.Built
    ⟨1, [⟨0, 9⟩], [("mango", 3)], [("mint", 5)], [⟨1, 0, [⟨"mango", ["mint"]⟩]⟩]⟩ := by
  refine (input_tables_iff (by decide)).2 fun i hi j hj t_f q_t hf ht => ?_
  obtain rfl : i = 0 := Nat.lt_one_iff.1 hi
  obtain rfl : j = 0 := Nat.lt_one_iff.1 hj
  cases ht

end Input

end Parlour

end PbsCow
