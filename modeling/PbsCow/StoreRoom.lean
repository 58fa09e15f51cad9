import PbsCow.Copyout

namespace PbsCow
set_option autoImplicit true

/-- What decides whether `copyout` can store to a page. -/
structure PageRoom where
  mapped : Bool
  user : Bool
  cow : Bool
  /-- The old copy of a COW page stays in use when the page gets a new one. -/
  shared : Bool

structure Room where
  page : Nat → PageRoom
  free : Nat

/-- What a `cowalloc` of page `w` leaves, if it succeeds. -/
def Room.cowalloc (R : Room) (w : Nat) : Option Room :=
  if (R.page w).mapped = true ∧ ((R.page w).cow = true → 0 < R.free) then
    some ⟨Function.update R.page w { R.page w with cow := false, shared := false },
      R.free - if (R.page w).shared then 1 else 0⟩
  else none

/-- How many of `len` bytes `copyout` stores from `dstva` on, and what it leaves. -/
def Room.copyoutLoop : Nat → Room → Nat → Nat → Nat × Room
  | 0, R, _, _ => (0, R)
  | fuel + 1, R, dstva, len =>
    if len = 0 then (0, R)
    else match R.cowalloc (dstva / PGSIZE) with
      | none => (0, R)
      | some R' =>
        if (R'.page (dstva / PGSIZE)).user then
          let n := min (PGSIZE - dstva % PGSIZE) len
          let rest := Room.copyoutLoop fuel R' ((dstva / PGSIZE + 1) * PGSIZE) (len - n)
          (n + rest.1, rest.2)
        else (0, R')

def Room.copyout (R : Room) (dstva len : Nat) : Nat × Room := Room.copyoutLoop len R dstva len

/-- How many of the pages from `d` up to `w` are shared. -/
def Room.sharedBefore (R : Room) (d w : Nat) : Nat :=
  (List.range' d (w - d)).countP fun u => (R.page u).shared

/-- Every page of the range can be stored to when its turn comes. -/
def Room.Fits (R : Room) (dstva len : Nat) : Prop :=
  0 < len → ∀ w, InRange dstva len w → (R.page w).mapped = true ∧ (R.page w).user = true ∧
    ((R.page w).cow = true → R.sharedBefore (dstva / PGSIZE) w < R.free)

theorem Room.sharedBefore_self (R : Room) (d : Nat) : R.sharedBefore d d = 0 := by
  rw [Room.sharedBefore, Nat.sub_self]
  rfl

theorem Room.sharedBefore_succ (R : Room) (h : d < w) :
    R.sharedBefore d w = R.sharedBefore (d + 1) w + if (R.page d).shared then 1 else 0 := by
  obtain ⟨k, rfl⟩ := Nat.exists_eq_add_of_lt h
  rw [Room.sharedBefore, Room.sharedBefore, show d + k + 1 - d = k + 1 by omega,
    show d + k + 1 - (d + 1) = k by omega, List.range'_succ, List.countP_cons]

theorem Room.sharedBefore_le (R : Room) (d w : Nat) : R.sharedBefore d w ≤ w - d := by
  have hle := List.countP_le_length (p := fun u => (R.page u).shared) (l := List.range' d (w - d))
  rwa [List.length_range'] at hle

/-- The pages after the first of a range are those of the rest of the range. -/
theorem InRange.rest_iff (hw : w ≠ dstva / PGSIZE) :
    InRange ((dstva / PGSIZE + 1) * PGSIZE) (len - min (PGSIZE - dstva % PGSIZE) len) w ↔
      InRange dstva len w := by
  refine ⟨fun h => h.rest.1, ?_⟩
  rintro ⟨h1, h2⟩
  rw [InRange, page_div]
  have hle : (dstva / PGSIZE + 1) * PGSIZE ≤ w * PGSIZE := Nat.mul_le_mul_right _ (by omega)
  refine ⟨by omega, ?_⟩
  simp only [PGSIZE] at *
  omega

theorem InRange.pos (h : InRange dstva len w) (ha : dstva % PGSIZE = 0) : 0 < len := by
  obtain ⟨h1, h2⟩ := h
  simp only [PGSIZE] at *
  omega

theorem Room.cowalloc_eq_some {R R' : Room} (h : R.cowalloc v = some R') :
    (R.page v).mapped = true ∧ ((R.page v).cow = true → 0 < R.free) ∧
      R'.page = Function.update R.page v { R.page v with cow := false, shared := false } ∧
      R'.free = R.free - if (R.page v).shared then 1 else 0 := by
  rw [Room.cowalloc] at h
  split at h
  · next hc =>
    injection h with h
    subst h
    exact ⟨hc.1, hc.2, rfl, rfl⟩
  · cases h

theorem Room.cowalloc_eq_none {R : Room} (h : R.cowalloc v = none) :
    ¬ ((R.page v).mapped = true ∧ ((R.page v).cow = true → 0 < R.free)) := by
  rw [Room.cowalloc] at h
  split at h
  · cases h
  · assumption

theorem Room.cowalloc_of_ne {R R' : Room} (h : R.cowalloc v = some R') (hw : w ≠ v) :
    R'.page w = R.page w := by
  rw [(cowalloc_eq_some h).2.2.1, Function.update_of_ne hw]

theorem Room.cowalloc_user {R R' : Room} (h : R.cowalloc v = some R') (w : Nat) :
    (R'.page w).user = (R.page w).user ∧ (R'.page w).mapped = (R.page w).mapped := by
  rw [(cowalloc_eq_some h).2.2.1, Function.update_apply]
  split
  · next he =>
    subst he
    exact ⟨rfl, rfl⟩
  · exact ⟨rfl, rfl⟩

theorem Room.cowalloc_sharedBefore {R R' : Room} (h : R.cowalloc v = some R') (hd : v < d) (w : Nat) :
    R'.sharedBefore d w = R.sharedBefore d w := by
  refine List.countP_congr fun u hu => ?_
  rw [List.mem_range'_1] at hu
  rw [cowalloc_of_ne h (by omega)]

theorem Room.copyoutLoop_zero (fuel : Nat) (R : Room) (dstva : Nat) :
    Room.copyoutLoop fuel R dstva 0 = (0, R) := by
  cases fuel with
  | zero => rfl
  | succ fuel => exact if_pos rfl

/-- No more is stored than there is. -/
theorem Room.copyoutLoop_le (fuel : Nat) (R : Room) (dstva len : Nat) :
    (Room.copyoutLoop fuel R dstva len).1 ≤ len := by
  induction fuel generalizing R dstva len with
  | zero => exact Nat.zero_le len
  | succ fuel ih =>
    rw [Room.copyoutLoop]
    split
    · exact Nat.zero_le len
    cases R.cowalloc (dstva / PGSIZE) with
    | none => exact Nat.zero_le len
    | some R' =>
      dsimp only
      split
      · have hle := ih R' ((dstva / PGSIZE + 1) * PGSIZE) (len - min (PGSIZE - dstva % PGSIZE) len)
        have hmin := Nat.min_le_right (PGSIZE - dstva % PGSIZE) len
        dsimp only
        omega
      · exact Nat.zero_le len

theorem Room.copyout_le (R : Room) (dstva len : Nat) : (R.copyout dstva len).1 ≤ len :=
  Room.copyoutLoop_le len R dstva len

/-- A range fits iff its first page can be stored to, and then the other pages fit. -/
theorem Room.fits_step {R R' : Room} (h : R.cowalloc (dstva / PGSIZE) = some R') (hlen : 0 < len) :
    R.Fits dstva len ↔ (R'.page (dstva / PGSIZE)).user = true ∧
      R'.Fits ((dstva / PGSIZE + 1) * PGSIZE) (len - min (PGSIZE - dstva % PGSIZE) len) := by
  obtain ⟨hm, hc, _, hfree⟩ := cowalloc_eq_some h
  have hsame (w : Nat) : R'.sharedBefore (dstva / PGSIZE + 1) w = R.sharedBefore (dstva / PGSIZE + 1) w :=
    cowalloc_sharedBefore h (Nat.lt_succ_self _) w
  constructor
  · intro hfit
    obtain ⟨_, hu, _⟩ := hfit hlen _ (.first hlen)
    refine ⟨by rwa [(cowalloc_user h _).1], fun _ w hw => ?_⟩
    obtain ⟨hw', hne⟩ := hw.rest
    obtain ⟨h1, h2, h3⟩ := hfit hlen w hw'
    rw [cowalloc_of_ne h hne, page_div, hsame w, hfree]
    refine ⟨h1, h2, fun hcow => ?_⟩
    have hlt := h3 hcow
    have hd : dstva / PGSIZE ≤ w := hw'.1
    rw [R.sharedBefore_succ (by omega)] at hlt
    omega
  · rintro ⟨hu, hrest⟩ _ w hw
    by_cases hne : w = dstva / PGSIZE
    · subst hne
      rw [(cowalloc_user h _).1] at hu
      rw [R.sharedBefore_self]
      exact ⟨hm, hu, hc⟩
    have hw' := (InRange.rest_iff hne).2 hw
    obtain ⟨h1, h2, h3⟩ := hrest (hw'.pos (Nat.mul_mod_left _ _)) w hw'
    rw [cowalloc_of_ne h hne] at h1 h2 h3
    rw [page_div, hsame w, hfree] at h3
    refine ⟨h1, h2, fun hcow => ?_⟩
    have hlt := h3 hcow
    have hd : dstva / PGSIZE ≤ w := hw.1
    rw [R.sharedBefore_succ (by omega)]
    omega

/-- All bytes are stored exactly if the range fits. -/
theorem Room.copyoutLoop_eq_iff (R : Room) (dstva : Nat) (hfuel : len ≤ fuel) :
    (Room.copyoutLoop fuel R dstva len).1 = len ↔ R.Fits dstva len := by
  induction fuel generalizing R dstva len with
  | zero =>
    obtain rfl := Nat.le_zero.1 hfuel
    exact iff_of_true rfl fun h => (Nat.lt_irrefl 0 h).elim
  | succ fuel ih =>
    rw [Room.copyoutLoop]
    split
    · next h0 =>
      subst h0
      exact iff_of_true rfl fun h => (Nat.lt_irrefl 0 h).elim
    next h0 =>
    have hlen : 0 < len := Nat.pos_of_ne_zero h0
    cases hR : R.cowalloc (dstva / PGSIZE) with
    | none =>
      refine iff_of_false hlen.ne fun hfit => cowalloc_eq_none hR ?_
      obtain ⟨h1, _, h3⟩ := hfit hlen _ (.first hlen)
      rw [R.sharedBefore_self] at h3
      exact ⟨h1, h3⟩
    | some R' =>
      rw [fits_step hR hlen]
      dsimp only
      split
      · next hu =>
        have hlt : dstva % PGSIZE < PGSIZE := Nat.mod_lt _ (by decide)
        have hmin := Nat.min_le_right (PGSIZE - dstva % PGSIZE) len
        rw [← ih R' _ (by omega)]
        refine Iff.trans ?_ (and_iff_right hu).symm
        dsimp only
        omega
      · next hu => exact iff_of_false hlen.ne fun hc => hu hc.1

theorem Room.copyout_eq_iff (R : Room) (dstva len : Nat) :
    (R.copyout dstva len).1 = len ↔ R.Fits dstva len :=
  R.copyoutLoop_eq_iff dstva (Nat.le_refl len)

/-- Which pages user code can reach is not changed. -/
theorem Room.copyoutLoop_user (fuel : Nat) (R : Room) (dstva len w : Nat) :
    ((Room.copyoutLoop fuel R dstva len).2.page w).user = (R.page w).user ∧
      ((Room.copyoutLoop fuel R dstva len).2.page w).mapped = (R.page w).mapped := by
  induction fuel generalizing R dstva len with
  | zero => exact ⟨rfl, rfl⟩
  | succ fuel ih =>
    rw [Room.copyoutLoop]
    split
    · exact ⟨rfl, rfl⟩
    cases hR : R.cowalloc (dstva / PGSIZE) with
    | none => exact ⟨rfl, rfl⟩
    | some R' =>
      obtain ⟨hu, hm⟩ := cowalloc_user hR w
      dsimp only
      split
      · obtain ⟨hu', hm'⟩ := ih R' ((dstva / PGSIZE + 1) * PGSIZE)
          (len - min (PGSIZE - dstva % PGSIZE) len)
        exact ⟨hu'.trans hu, hm'.trans hm⟩
      · exact ⟨hu, hm⟩

/-- A byte is stored only to a page that user code can reach. -/
theorem Room.copyoutLoop_stored (fuel : Nat) (R : Room) (dstva len : Nat)
    (hk : k < (Room.copyoutLoop fuel R dstva len).1) : (R.page ((dstva + k) / PGSIZE)).user = true := by
  induction fuel generalizing R dstva len k with
  | zero => exact (Nat.not_lt_zero k hk).elim
  | succ fuel ih =>
    rw [Room.copyoutLoop] at hk
    split at hk
    · exact (Nat.not_lt_zero k hk).elim
    cases hR : R.cowalloc (dstva / PGSIZE) with
    | none =>
      rw [hR] at hk
      exact (Nat.not_lt_zero k hk).elim
    | some R' =>
      rw [hR] at hk
      dsimp only at hk
      split at hk
      · next hu =>
        by_cases hfirst : (dstva + k) / PGSIZE = dstva / PGSIZE
        · rwa [hfirst, ← (cowalloc_user hR _).1]
        · have hmin := Nat.min_le_left (PGSIZE - dstva % PGSIZE) len
          have hge : (dstva / PGSIZE + 1) * PGSIZE ≤ dstva + k := by
            simp only [PGSIZE] at *
            omega
          obtain ⟨j, hj⟩ := Nat.exists_eq_add_of_le hge
          have hlt : j < (Room.copyoutLoop fuel R' ((dstva / PGSIZE + 1) * PGSIZE)
              (len - min (PGSIZE - dstva % PGSIZE) len)).1 := by
            simp only [PGSIZE] at *
            omega
          rw [hj, ← (cowalloc_user hR _).1]
          exact ih R' _ _ hlt
      · exact (Nat.not_lt_zero k hk).elim

/-- One free page goes for each page of the range at most. -/
theorem Room.copyoutLoop_free (fuel : Nat) (R : Room) (dstva len : Nat) :
    R.free ≤ (Room.copyoutLoop fuel R dstva len).2.free + (dstva % PGSIZE + len + (PGSIZE - 1)) / PGSIZE := by
  induction fuel generalizing R dstva len with
  | zero => exact Nat.le_add_right _ _
  | succ fuel ih =>
    rw [Room.copyoutLoop]
    split
    · exact Nat.le_add_right _ _
    next h0 =>
    cases hR : R.cowalloc (dstva / PGSIZE) with
    | none => exact Nat.le_add_right _ _
    | some R' =>
      have hfree := (cowalloc_eq_some hR).2.2.2
      have hone : R.free ≤ R'.free + 1 := by
        rw [hfree]
        split <;> omega
      dsimp only
      split
      · have hrest := ih R' ((dstva / PGSIZE + 1) * PGSIZE) (len - min (PGSIZE - dstva % PGSIZE) len)
        rw [Nat.mul_mod_left] at hrest
        dsimp only
        simp only [PGSIZE] at *
        omega
      · simp only [PGSIZE]
        omega

/-- With a free page for each of its pages a range fits wherever user code can reach it. -/
theorem Room.fits_of_user {R : Room} (hfree : (dstva % PGSIZE + len + (PGSIZE - 1)) / PGSIZE ≤ R.free)
    (h : ∀ w, InRange dstva len w → (R.page w).mapped = true ∧ (R.page w).user = true) :
    R.Fits dstva len := by
  intro hlen w hw
  obtain ⟨hm, hu⟩ := h w hw
  refine ⟨hm, hu, fun _ => ?_⟩
  have hle := R.sharedBefore_le (dstva / PGSIZE) w
  obtain ⟨hlo, hhi⟩ := hw
  simp only [PGSIZE] at *
  omega

end PbsCow
