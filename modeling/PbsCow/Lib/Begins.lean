import Mathlib.Computability.Language

namespace PbsCow
set_option autoImplicit true

/-- The list begins with a word of the language, and the rest of it is in `K`. -/
def Begins (L : Language α) (K : List α → Prop) (t : List α) : Prop := ∃ a ∈ L, ∃ b, a ++ b = t ∧ K b

namespace Begins

open scoped Computability

variable {L M : Language α} {K K' : List α → Prop}

theorem one : Begins 1 K t ↔ K t := by
  constructor
  · intro h
    obtain ⟨a, ha, b, rfl, hb⟩ := h
    rw [(Language.mem_one a).1 ha, List.nil_append]
    exact hb
  · intro h
    exact ⟨[], Language.nil_mem_one, t, rfl, h⟩

theorem mul : Begins (L * M) K t ↔ Begins L (Begins M K) t := by
  constructor
  · intro h
    obtain ⟨w, hw, b, rfl, hb⟩ := h
    obtain ⟨x, hx, y, hy, rfl⟩ := Language.mem_mul.1 hw
    exact ⟨x, hx, y ++ b, (List.append_assoc ..).symm, y, hy, b, rfl, hb⟩
  · intro h
    obtain ⟨x, hx, r, rfl, y, hy, b, rfl, hb⟩ := h
    exact ⟨x ++ y, Language.append_mem_mul hx hy, b, List.append_assoc .., hb⟩

/-- The words of one letter that a predicate allows. -/
def letter (p : α → Prop) : Language α := {w | ∃ c, p c ∧ w = [c]}

theorem letter_nil (p : α → Prop) : ¬ Begins (letter p) K [] := by
  intro h
  obtain ⟨a, ⟨c, -, rfl⟩, b, he, -⟩ := h
  cases he

theorem letter_cons (p : α → Prop) : Begins (letter p) K (c :: t) ↔ p c ∧ K t := by
  constructor
  · intro h
    obtain ⟨a, ⟨d, hd, rfl⟩, b, he, hb⟩ := h
    obtain ⟨rfl, rfl⟩ := List.cons.inj he
    exact ⟨hd, hb⟩
  · intro h
    exact ⟨[c], ⟨c, h.1, rfl⟩, t, rfl, h.2⟩

theorem kstar_nil (p : α → Prop) : Begins (letter p)∗ K [] ↔ K [] := by
  constructor
  · intro h
    obtain ⟨a, -, b, he, hb⟩ := h
    rw [(List.append_eq_nil_iff.1 he).2] at hb
    exact hb
  · intro h
    exact ⟨[], Language.nil_mem_kstar _, [], rfl, h⟩

/-- A star takes no letter, or one more. -/
theorem kstar_cons (p : α → Prop) : Begins (letter p)∗ K (c :: t) ↔ K (c :: t) ∨ p c ∧ Begins (letter p)∗ K t := by
  constructor
  · intro h
    obtain ⟨a, ha, b, he, hb⟩ := h
    obtain ⟨ws, rfl, hws⟩ := Language.mem_kstar.1 ha
    cases ws with
    | nil =>
      rw [List.flatten_nil, List.nil_append] at he
      rw [← he]
      exact .inl hb
    | cons w ws =>
      obtain ⟨d, hd, rfl⟩ := hws w List.mem_cons_self
      rw [List.flatten_cons, List.append_assoc, List.singleton_append] at he
      obtain ⟨rfl, rfl⟩ := List.cons.inj he
      refine .inr ⟨hd, ws.flatten, ?_, b, rfl, hb⟩
      exact Language.join_mem_kstar fun y hy => hws y (List.mem_cons_of_mem _ hy)
  · intro h
    rcases h with h | ⟨hc, a, ha, b, rfl, hb⟩
    · exact ⟨[], Language.nil_mem_kstar _, c :: t, rfl, h⟩
    · obtain ⟨ws, rfl, hws⟩ := Language.mem_kstar.1 ha
      refine ⟨([c] :: ws).flatten, Language.join_mem_kstar fun y hy => ?_, b, rfl, hb⟩
      rcases List.mem_cons.1 hy with rfl | hy
      · exact ⟨c, hc, rfl⟩
      · exact hws y hy

end Begins

end PbsCow
