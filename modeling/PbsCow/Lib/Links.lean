import Mathlib.Data.List.Nodup
import Mathlib.Logic.Function.Basic

namespace PbsCow
set_option autoImplicit true

/-- From `a` on `next` goes through a list and then to `b`, and `prev` goes back. -/
def Links (next prev : ν → ν) : ν → List ν → ν → Prop
  | a, [], b => next a = b ∧ prev b = a
  | a, x :: xs, b => (next a = x ∧ prev x = a) ∧ Links next prev x xs b

theorem Links.append {next prev : ν → ν} :
    Links next prev a (xs ++ x :: ys) b ↔ Links next prev a xs x ∧ Links next prev x ys b := by
  induction xs generalizing a with
  | nil => rfl
  | cons y xs ih => rw [List.cons_append, Links, Links, ih, ← and_assoc]

theorem Links.congr {next prev next' prev' : ν → ν} (h : Links next prev a xs b)
    (hn : ∀ x ∈ a :: xs, next' x = next x) (hp : ∀ x ∈ xs ++ [b], prev' x = prev x) :
    Links next' prev' a xs b := by
  induction xs generalizing a with
  | nil =>
    obtain ⟨h₁, h₂⟩ := h
    exact ⟨(hn a (by simp)).trans h₁, (hp b (by simp)).trans h₂⟩
  | cons x xs ih =>
    obtain ⟨⟨h₁, h₂⟩, h⟩ := h
    refine ⟨⟨(hn a (by simp)).trans h₁, (hp x (by simp)).trans h₂⟩, ih h ?_ ?_⟩
    · exact fun y hy => hn y (List.mem_cons_of_mem a hy)
    · exact fun y hy => hp y (List.mem_cons_of_mem x hy)

/-- The way back. -/
theorem Links.reverse {next prev : ν → ν} (h : Links next prev a xs b) : Links prev next b xs.reverse a := by
  induction xs generalizing a with
  | nil => exact ⟨h.2, h.1⟩
  | cons x xs ih =>
    rw [List.reverse_cons]
    exact Links.append.2 ⟨ih h.2, h.1.2, h.1.1⟩

theorem Links.next_mem {next prev : ν → ν} (h : Links next prev a xs b) : next a ∈ xs ++ [b] := by
  cases xs with
  | nil => exact List.mem_singleton.2 h.1
  | cons x xs => exact h.1.1 ▸ List.mem_cons_self

theorem Links.prev_mem {next prev : ν → ν} (h : Links next prev a xs b) : prev b ∈ a :: xs := by
  have hmem := h.reverse.next_mem
  simpa [or_comm] using hmem

theorem Links.inverse {next prev : ν → ν} (h : Links next prev a xs b) :
    prev (next a) = a ∧ next (prev b) = b := by
  induction xs generalizing a with
  | nil => exact ⟨by rw [h.1, h.2], by rw [h.2, h.1]⟩
  | cons x xs ih => exact ⟨by rw [h.1.1, h.1.2], (ih h.2).2⟩

/-- The list is a ring through `h`, in which nothing occurs twice. -/
structure Looped (next prev : ν → ν) (h : ν) (l : List ν) : Prop where
  links : Links next prev h l h
  nodup : (h :: l).Nodup

theorem Looped.nil {next prev : ν → ν} (hn : next h = h) (hp : prev h = h) : Looped next prev h [] :=
  ⟨⟨hn, hp⟩, List.nodup_singleton h⟩

theorem Looped.inverse {next prev : ν → ν} (hl : Looped next prev h l) (hx : x ∈ h :: l) :
    prev (next x) = x ∧ next (prev x) = x := by
  rcases List.mem_cons.1 hx with rfl | hx
  · exact hl.links.inverse
  · obtain ⟨xs, ys, rfl⟩ := List.append_of_mem hx
    obtain ⟨h₁, h₂⟩ := Links.append.1 hl.links
    exact ⟨h₂.inverse.1, h₁.inverse.2⟩

section

variable [DecidableEq ν] {next prev : ν → ν}

/-- Two parts are joined without the element between them. -/
theorem Links.join (h₁ : Links next prev a xs x) (h₂ : Links next prev x ys b) (ha : (a :: (xs ++ ys)).Nodup)
    (hb : (xs ++ (ys ++ [b])).Nodup) :
    Links (Function.update next (prev x) (next x)) (Function.update prev (next x) (prev x)) a (xs ++ ys) b := by
  induction xs generalizing a with
  | nil =>
    obtain ⟨hna, hpx⟩ := h₁
    have hself : Function.update next (prev x) (next x) a = next x := by rw [hpx, Function.update_self]
    cases ys with
    | nil =>
      obtain ⟨hnx, _⟩ := h₂
      exact ⟨hself.trans hnx, by rw [hnx, Function.update_self, hpx]⟩
    | cons y ys =>
      obtain ⟨⟨hnx, _⟩, h₂⟩ := h₂
      refine ⟨⟨hself.trans hnx, by rw [hnx, Function.update_self, hpx]⟩, h₂.congr (fun z hz => ?_) fun z hz => ?_⟩
      · apply Function.update_of_ne
        rintro rfl
        exact (List.nodup_cons.1 ha).1 (hpx ▸ hz)
      · apply Function.update_of_ne
        rintro rfl
        exact (List.nodup_cons.1 hb).1 (hnx ▸ hz)
  | cons z xs ih =>
    obtain ⟨⟨hnz, hpz⟩, h₁⟩ := h₁
    refine ⟨⟨?_, ?_⟩, ih h₁ (List.nodup_cons.1 ha).2 (List.nodup_cons.1 hb).2⟩
    · rw [Function.update_of_ne, hnz]
      rintro rfl
      exact (List.nodup_cons.1 ha).1 (List.mem_append_left ys h₁.prev_mem)
    · rw [Function.update_of_ne, hpz]
      rintro rfl
      exact (List.nodup_cons.1 hb).1 (List.mem_append_right xs h₂.next_mem)

/-- `x` is taken out. -/
theorem Looped.unlink (hl : Looped next prev h (xs ++ x :: ys)) :
    Looped (Function.update next (prev x) (next x)) (Function.update prev (next x) (prev x)) h (xs ++ ys) := by
  obtain ⟨hlinks, hnodup⟩ := hl
  obtain ⟨h₁, h₂⟩ := Links.append.1 hlinks
  have hsub : (h :: (xs ++ ys)).Sublist (h :: (xs ++ x :: ys)) :=
    ((List.Sublist.refl xs).append (List.sublist_cons_self x ys)).cons_cons h
  have hn := hnodup.sublist hsub
  refine ⟨h₁.join h₂ hn ?_, hn⟩
  rw [← List.append_assoc]
  exact (List.perm_append_singleton h _).nodup_iff.2 hn

/-- `x` becomes the first after `h`. -/
theorem Looped.push (hl : Looped next prev h l) (hx : x ∉ h :: l) :
    Looped (Function.update (Function.update next x (next h)) h x)
      (Function.update (Function.update prev x h) (next h) x) h (x :: l) := by
  obtain ⟨hlinks, hnodup⟩ := hl
  have hne : x ≠ h := fun he => hx (he ▸ List.mem_cons_self)
  have hmem : next h ∈ h :: l := by
    have hmem := hlinks.next_mem
    simpa [or_comm] using hmem
  have hnx : x ≠ next h := fun he => hx (he ▸ hmem)
  refine ⟨⟨⟨Function.update_self .., ?_⟩, ?_⟩, ?_⟩
  · rw [Function.update_of_ne hnx, Function.update_self]
  · have hn : Function.update (Function.update next x (next h)) h x x = next h := by
      rw [Function.update_of_ne hne, Function.update_self]
    cases l with
    | nil =>
      obtain ⟨hnh, _⟩ := hlinks
      exact ⟨hn.trans hnh, by rw [hnh, Function.update_self]⟩
    | cons y l =>
      obtain ⟨⟨hnh, _⟩, hlinks⟩ := hlinks
      obtain ⟨hh, hnodup⟩ := List.nodup_cons.1 hnodup
      refine ⟨⟨hn.trans hnh, by rw [hnh, Function.update_self]⟩, hlinks.congr (fun z hz => ?_) fun z hz => ?_⟩
      · have hzh : z ≠ h := fun he => hh (he ▸ hz)
        have hzx : z ≠ x := fun he => hx (he ▸ List.mem_cons_of_mem h hz)
        rw [Function.update_of_ne hzh, Function.update_of_ne hzx]
      · have hz' : z ∈ l ∨ z = h := by simpa using hz
        have hzy : z ≠ next h := by
          rw [hnh]
          rintro rfl
          rcases hz' with hz' | rfl
          · exact (List.nodup_cons.1 hnodup).1 hz'
          · exact hh List.mem_cons_self
        have hzx : z ≠ x := by
          rintro rfl
          rcases hz' with hz' | rfl
          · exact hx (by simp [hz'])
          · exact hx List.mem_cons_self
        rw [Function.update_of_ne hzy, Function.update_of_ne hzx]
  · refine ((List.Perm.swap x h l).nodup_iff).2 (List.nodup_cons.2 ⟨hx, hnodup⟩)

/-- The first element with property `p` on the way from `b` to `h`, if the way is shorter than the
fuel. -/
def firstAlong (next : ν → ν) (h : ν) (p : ν → Bool) : Nat → ν → Option (Option ν)
  | 0, _ => none
  | fuel + 1, b => if b = h then some none else if p b then some (some b) else firstAlong next h p fuel (next b)

theorem Links.firstAlong (hl : Links next prev a l h) (hn : h ∉ l) (p : ν → Bool) (hf : l.length < fuel) :
    firstAlong next h p fuel (next a) = some (l.find? p) := by
  induction l generalizing a fuel with
  | nil =>
    obtain ⟨fuel, rfl⟩ : ∃ fuel', fuel = fuel' + 1 := ⟨fuel - 1, (Nat.succ_pred_eq_of_pos hf).symm⟩
    rw [hl.1, PbsCow.firstAlong]
    exact if_pos rfl
  | cons x l ih =>
    obtain ⟨fuel, rfl⟩ : ∃ fuel', fuel = fuel' + 1 := ⟨fuel - 1, by omega⟩
    obtain ⟨⟨hx, _⟩, hl⟩ := hl
    have hne : x ≠ h := fun he => hn (he ▸ List.mem_cons_self)
    rw [hx, PbsCow.firstAlong, if_neg hne]
    cases hp : p x with
    | true => rw [if_pos rfl, List.find?_cons_of_pos hp]
    | false =>
      rw [if_neg (by simp), List.find?_cons_of_neg (by simp [hp])]
      exact ih hl (fun hm => hn (List.mem_cons_of_mem x hm)) (Nat.lt_of_succ_lt_succ hf)

end

end PbsCow
