import PbsCow.Lib.Bytes

namespace PbsCow
set_option autoImplicit true

/-- A string in a memory `f`: a zero byte at `a + k`, and none before it from `a` on. -/
def StringAt (f : Nat → Option Byte) (a k : Nat) : Prop :=
  f (a + k) = some 0 ∧ ∀ i, i < k → ∃ b, f (a + i) = some b ∧ b ≠ 0

/-- The bytes of a string, with the zero byte. -/
def stringBytes (f : Nat → Option Byte) (a k : Nat) : List Byte :=
  (List.range (k + 1)).map fun i => (f (a + i)).getD 0

variable {f : Nat → Option Byte} {bs dst : List Byte} {max : Nat}

theorem StringAt.first (h : StringAt f a k) : f a ≠ none := by
  cases k with
  | zero =>
    intro ha
    have h0 := h.1
    rw [Nat.add_zero, ha] at h0
    cases h0
  | succ k =>
    obtain ⟨b, hb, _⟩ := h.2 0 (Nat.succ_pos k)
    rw [Nat.add_zero] at hb
    simp [hb]

theorem StringAt.unique (h : StringAt f a k) (h' : StringAt f a k') : k = k' := by
  have hle {k k' : Nat} (h : StringAt f a k) (h' : StringAt f a k') : k ≤ k' := by
    by_contra hlt
    obtain ⟨b, hb, hne⟩ := h.2 k' (by omega)
    rw [h'.1] at hb
    injection hb with hb
    exact hne hb.symm
  exact Nat.le_antisymm (hle h h') (hle h' h)

/-- A string that does not end in its first `n` bytes goes on after them. -/
theorem stringAt_add (hn : ∀ i, i < n → ∃ b, f (a + i) = some b ∧ b ≠ 0) :
    StringAt f a (n + k) ↔ StringAt f (a + n) k := by
  constructor
  · intro h
    refine ⟨by rw [Nat.add_assoc, h.1], fun i hi => ?_⟩
    rw [Nat.add_assoc]
    exact h.2 (n + i) (by omega)
  · intro h
    refine ⟨by rw [← Nat.add_assoc, h.1], fun i hi => ?_⟩
    by_cases hin : i < n
    · exact hn i hin
    · have hb := h.2 (i - n) (by omega)
      rwa [Nat.add_assoc, Nat.add_sub_cancel' (by omega)] at hb

theorem stringBytes_add (f : Nat → Option Byte) (a n k : Nat) :
    stringBytes f a (n + k) = ((List.range n).map fun i => (f (a + i)).getD 0) ++ stringBytes f (a + n) k := by
  rw [stringBytes, stringBytes, Nat.add_assoc, List.range_add, List.map_append, List.map_map]
  simp only [Function.comp_def, Nat.add_assoc]

theorem map_range_bytes (hbs : ∀ i (hi : i < bs.length), f (a + i) = some bs[i]) :
    ((List.range bs.length).map fun i => (f (a + i)).getD 0) = bs := by
  apply List.ext_getElem
  · rw [List.length_map, List.length_range]
  · intro i _ hi
    rw [List.getElem_map, List.getElem_range, hbs i hi, Option.getD_some]

/-- Bytes with a zero among them begin with a string. -/
theorem StringAt.of_bytes (hbs : ∀ i (hi : i < bs.length), f (a + i) = some bs[i]) (h0 : 0 ∈ bs) :
    ∃ k, k < bs.length ∧ StringAt f a k ∧ stringBytes f a k = bs.takeWhile (· ≠ 0) ++ [0] := by
  induction bs generalizing a with
  | nil => simp at h0
  | cons b bs ih =>
    have hb : f a = some b := hbs 0 (Nat.succ_pos _)
    by_cases hz : b = 0
    · subst hz
      refine ⟨0, Nat.succ_pos _, ⟨hb, fun i hi => absurd hi (Nat.not_lt_zero i)⟩, ?_⟩
      simp [stringBytes, hb]
    · obtain ⟨k, hk, hs, hbytes⟩ := ih (a := a + 1)
        (fun i hi => by rw [Nat.add_assoc, Nat.add_comm 1]; exact hbs (i + 1) (Nat.succ_lt_succ hi))
        ((List.mem_cons.1 h0).resolve_left fun h => hz h.symm)
      have hone (i : Nat) (hi : i < 1) : ∃ b, f (a + i) = some b ∧ b ≠ 0 := by
        obtain rfl : i = 0 := by omega
        exact ⟨b, hb, hz⟩
      refine ⟨1 + k, by rw [List.length_cons]; omega, (stringAt_add hone).2 hs, ?_⟩
      rw [stringBytes_add, hbytes, List.takeWhile_cons_of_pos (by simpa using hz)]
      simp [hb]

/-- What a function returns and stores that copies a string of up to `max` bytes from `f`. -/
structure StringRead (f : Nat → Option Byte) (srcva max : Nat) (ret : Int) (dst : List Byte) : Prop where
  result : ret = 0 ∨ ret = -1
  found : ret = 0 ↔ ∃ k, k < max ∧ StringAt f srcva k
  stored : ∀ k, k < max → StringAt f srcva k → dst = stringBytes f srcva k
  le : dst.length ≤ max

namespace StringRead

theorem fail (h : ∀ k, k < max → ¬ StringAt f a k) : StringRead f a max (-1) [] where
  result := .inr rfl
  found := iff_of_false (by decide) fun ⟨k, hk, hs⟩ => h k hk hs
  stored k hk hs := (h k hk hs).elim
  le := Nat.zero_le max

theorem succeed (hk : k < max) (h : StringAt f a k) : StringRead f a max 0 (stringBytes f a k) where
  result := .inl rfl
  found := iff_of_true rfl ⟨k, hk, h⟩
  stored k' _ h' := by rw [h.unique h']
  le := by
    rw [stringBytes, List.length_map, List.length_range]
    exact hk

/-- Where nothing may be read, it does not matter from where. -/
theorem congr_zero (h : StringRead f a 0 ret dst) (a' : Nat) : StringRead f a' 0 ret dst where
  result := h.result
  found := h.found.trans ⟨fun ⟨_, hk, _⟩ => absurd hk (Nat.not_lt_zero _), fun ⟨_, hk, _⟩ => absurd hk (Nat.not_lt_zero _)⟩
  stored _ hk := absurd hk (Nat.not_lt_zero _)
  le := h.le

/-- The bytes `bs` come first, and none of them is zero. -/
theorem append (h : StringRead f (a + bs.length) max ret dst)
    (hbs : ∀ i (hi : i < bs.length), f (a + i) = some bs[i]) (h0 : 0 ∉ bs) :
    StringRead f a (bs.length + max) ret (bs ++ dst) := by
  have hne (i : Nat) (hi : i < bs.length) : ∃ b, f (a + i) = some b ∧ b ≠ 0 := by
    refine ⟨bs[i], hbs i hi, fun hz => h0 ?_⟩
    rw [← hz]
    exact List.getElem_mem hi
  have hlong {k : Nat} (hs : StringAt f a k) : ∃ k', k = bs.length + k' ∧ StringAt f (a + bs.length) k' := by
    have hle : bs.length ≤ k := by
      by_contra hlt
      obtain ⟨b, hb, hz⟩ := hne k (by omega)
      rw [hs.1] at hb
      injection hb with hb
      exact hz hb.symm
    obtain ⟨k', rfl⟩ := Nat.exists_eq_add_of_le hle
    exact ⟨k', rfl, (stringAt_add hne).1 hs⟩
  refine ⟨h.result, h.found.trans ⟨?_, ?_⟩, ?_, ?_⟩
  · rintro ⟨k, hk, hs⟩
    exact ⟨bs.length + k, by omega, (stringAt_add hne).2 hs⟩
  · rintro ⟨k, hk, hs⟩
    obtain ⟨k', rfl, hs'⟩ := hlong hs
    exact ⟨k', by omega, hs'⟩
  · intro k hk hs
    obtain ⟨k', rfl, hs'⟩ := hlong hs
    rw [h.stored k' (by omega) hs', stringBytes_add, map_range_bytes hbs]
  · have hle := h.le
    rw [List.length_append]
    omega

end StringRead

end PbsCow
