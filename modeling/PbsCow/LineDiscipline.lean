import Mathlib.Data.List.Induction
import PbsCow.Console

namespace PbsCow.Console
set_option autoImplicit true

/-- The buffer holds what the editor has. -/
structure Shows (cons : Cons) (ed : Editor) : Prop where
  data : RingHolds INPUT_BUF_SIZE cons.buf cons.r (ed.lines ++ ed.typing)
  w : cons.w = cons.r + BitVec.ofNat 32 ed.lines.length
  e : cons.e = cons.r + BitVec.ofNat 32 (ed.lines.length + ed.typing.length)
  le : ed.lines.length + ed.typing.length ≤ INPUT_BUF_SIZE
  unended : newline ∉ ed.typing

namespace Shows

theorem lt (h : Shows cons ed) : ed.lines.length + ed.typing.length < 2 ^ 32 :=
  lt_of_le_of_lt h.le (by decide)

theorem count (h : Shows cons ed) : (cons.e - cons.r).toNat = ed.lines.length + ed.typing.length := by
  rw [h.e, index_sub cons.r h.lt]

theorem committed (h : Shows cons ed) : (cons.w - cons.r).toNat = ed.lines.length := by
  have hlt := h.lt
  rw [h.w, index_sub cons.r (by omega)]

theorem e_eq (h : Shows cons ed) : cons.e = cons.w + BitVec.ofNat 32 ed.typing.length := by
  rw [h.e, h.w, BitVec.ofNat_add, BitVec.add_assoc]

theorem typed (h : Shows cons ed) : (cons.e - cons.w).toNat = ed.typing.length := by
  have hlt := h.lt
  rw [h.e_eq, index_sub cons.w (by omega)]

theorem typing_iff (h : Shows cons ed) : cons.e = cons.w ↔ ed.typing = [] := by
  have hlt := h.lt
  rw [h.e_eq, index_eq_self cons.w (by omega), List.length_eq_zero_iff]

theorem lines_iff (h : Shows cons ed) : cons.r = cons.w ↔ ed.lines = [] := by
  have hlt := h.lt
  rw [eq_comm, h.w, index_eq_self cons.r (by omega), List.length_eq_zero_iff]

/-- One step back, over a character that has been typed. -/
theorem erase (h : Shows cons ⟨lines, typing ++ [c]⟩) :
    Shows { cons with e := cons.e - 1 } ⟨lines, typing⟩ ∧
      cons.buf (ringSlot INPUT_BUF_SIZE (cons.e - 1)) = c := by
  have hlen : lines.length + (typing ++ [c]).length = (lines ++ typing).length + 1 := by
    simp [Nat.add_assoc]
  have he : cons.e - 1 = cons.r + BitVec.ofNat 32 (lines ++ typing).length := by
    rw [h.e, hlen, index_pred]
  have hdata := h.data
  rw [← List.append_assoc] at hdata
  refine ⟨⟨(RingHolds.append.1 hdata).1, h.w, ?_, ?_, fun hn => h.unended (List.mem_append_left _ hn)⟩, ?_⟩
  · rw [← List.length_append]
    exact he
  · have hle := h.le
    rw [hlen] at hle
    rw [← List.length_append]
    exact (Nat.le_succ _).trans hle
  · rw [he]
    exact hdata.last

theorem killLine (h : Shows cons ⟨lines, typing⟩) :
    Shows (killLine typing.length cons) ⟨lines, []⟩ := by
  induction typing using List.reverseRecOn generalizing cons with
  | nil => exact h
  | append_singleton typing c ih =>
    obtain ⟨herase, hc⟩ := h.erase
    rw [List.length_append, List.length_singleton, Console.killLine, if_pos]
    · exact ih herase
    · refine ⟨fun he => ?_, ?_⟩
      · have hnil := h.typing_iff.1 he
        simp at hnil
      · rw [hc]
        rintro rfl
        exact h.unended (by simp)

theorem put (h : Shows cons ed) (hlt : ed.lines.length + ed.typing.length < INPUT_BUF_SIZE) (c : Byte)
    (lines typing : List Byte) (hall : lines ++ typing = ed.lines ++ (ed.typing ++ [c]))
    (hn : newline ∉ typing) :
    Shows { cons with
      buf := Function.update cons.buf (ringSlot INPUT_BUF_SIZE cons.e) c
      w := cons.r + BitVec.ofNat 32 lines.length
      e := cons.e + 1 } ⟨lines, typing⟩ := by
  have hlen : lines.length + typing.length = ed.lines.length + ed.typing.length + 1 := by
    have hl := congrArg List.length hall
    simpa [Nat.add_assoc] using hl
  refine ⟨?_, rfl, ?_, ?_, hn⟩
  · show RingHolds _ _ _ (lines ++ typing)
    rw [hall, ← List.append_assoc, h.e, ← List.length_append]
    exact h.data.push (by decide) (by rwa [List.length_append]) c
  · show cons.e + 1 = _
    rw [h.e, index_succ, hlen]
  · show lines.length + typing.length ≤ _
    rw [hlen]
    exact hlt

theorem key (h : Shows cons ed) (c : Byte) : Shows (consoleintr c cons) (ed.key c) := by
  obtain ⟨lines, typing⟩ := ed
  rw [consoleintr, Editor.key]
  split
  · exact h
  split
  · rw [h.typed]
    exact h.killLine
  split
  · cases typing using List.reverseRecOn with
    | nil =>
      rw [if_neg (not_not.2 (h.typing_iff.2 rfl))]
      exact h
    | append_singleton typing c =>
      rw [if_pos fun he => by simpa using h.typing_iff.1 he, List.dropLast_concat]
      exact h.erase.1
  rw [h.count]
  by_cases hkeep : c ≠ 0 ∧ lines.length + typing.length < INPUT_BUF_SIZE
  swap
  · have hdrop : c = 0 ∨ lines.length + typing.length = INPUT_BUF_SIZE := by
      by_contra hno
      rw [not_or] at hno
      exact hkeep ⟨hno.1, lt_of_le_of_ne h.le hno.2⟩
    rw [if_neg hkeep, if_pos hdrop]
    exact h
  have hstay : ¬ (c = 0 ∨ lines.length + typing.length = INPUT_BUF_SIZE) := by
    rintro (hz | hfull)
    · exact hkeep.1 hz
    · exact hkeep.2.ne hfull
  rw [if_pos hkeep, if_neg hstay]
  generalize (if c = return' then newline else c) = c
  have hlen : lines.length + (typing ++ [c]).length = lines.length + typing.length + 1 := by
    simp [Nat.add_assoc]
  have hcount : (cons.e + 1 - cons.r).toNat = lines.length + (typing ++ [c]).length := by
    have hlt : lines.length + typing.length + 1 < 2 ^ 32 := lt_of_le_of_lt hkeep.2 (by decide)
    rw [h.e, index_succ, hlen]
    exact index_sub cons.r hlt
  dsimp only
  rw [hcount]
  split
  · have hput := h.put hkeep.2 c (lines ++ (typing ++ [c])) [] (by simp) (by simp)
    have hw : cons.r + BitVec.ofNat 32 (lines ++ (typing ++ [c])).length = cons.e + 1 := by
      rw [List.length_append, hlen, ← index_succ]
      exact congrArg (· + 1) h.e.symm
    rwa [hw] at hput
  · next hopen =>
    have hput := h.put hkeep.2 c lines (typing ++ [c]) rfl fun hn => ?_
    · rw [← h.w] at hput
      exact hput
    · rcases List.mem_append.1 hn with hn | hn
      · exact h.unended hn
      · exact hopen (.inl (List.mem_singleton.1 hn).symm)

theorem take (h : Shows cons ⟨c :: lines, typing⟩) : cons.r ≠ cons.w ∧
    cons.buf (ringSlot INPUT_BUF_SIZE cons.r) = c ∧ Shows { cons with r := cons.r + 1 } ⟨lines, typing⟩ := by
  have hle : lines.length + 1 + typing.length ≤ INPUT_BUF_SIZE := h.le
  refine ⟨fun he => ?_, h.data.1, h.data.2, ?_, ?_, ?_, h.unended⟩
  · have hnil := h.lines_iff.1 he
    cases hnil
  · show cons.w = cons.r + 1 + _
    rw [add_ofNat_succ, h.w, List.length_cons]
  · show cons.e = cons.r + 1 + _
    rw [add_ofNat_succ, h.e, List.length_cons, Nat.succ_add]
  · show lines.length + typing.length ≤ _
    omega

/-- A reader and the editor do the same. -/
theorem read (env : Env) (target n : Nat) (dst : Word) (h : Shows cons ed) :
    Shows (consoleread env target n dst cons).1 (ed.read env target n dst).1 ∧
      (consoleread env target n dst cons).2 = (ed.read env target n dst).2 := by
  induction n generalizing cons ed dst with
  | zero => exact ⟨h, rfl⟩
  | succ n ih =>
    obtain ⟨lines, typing⟩ := ed
    rw [consoleread, Editor.read]
    cases lines with
    | nil =>
      rw [if_pos (h.lines_iff.2 rfl)]
      exact ⟨h, rfl⟩
    | cons c lines =>
      obtain ⟨hne, hc, htake⟩ := h.take
      rw [if_neg hne, hc]
      dsimp only
      split
      · split
        · rw [BitVec.add_sub_cancel]
          exact ⟨h, rfl⟩
        · exact ⟨htake, rfl⟩
      split
      · exact ⟨htake, rfl⟩
      split
      · exact ⟨htake, rfl⟩
      · obtain ⟨hs, hout⟩ := ih (dst + 1) htake
        exact ⟨hs, congrArg (fun o => (c :: o.1, o.2)) hout⟩

theorem cells (h : Shows cons ed) :
    cons.cells cons.r cons.w = ed.lines ∧ cons.cells cons.w cons.e = ed.typing := by
  obtain ⟨hl, ht⟩ := RingHolds.append.1 h.data
  rw [← h.w] at ht
  rw [Cons.cells, Cons.cells, h.committed, h.typed]
  exact ⟨hl.cells, ht.cells⟩

/-- The indices are in order, and no more apart than the buffer is long. -/
theorem ordered (h : Shows cons ed) : (cons.w - cons.r).toNat ≤ (cons.e - cons.r).toNat ∧
    (cons.e - cons.r).toNat ≤ INPUT_BUF_SIZE := by
  rw [h.committed, h.count]
  exact ⟨Nat.le_add_right _ _, h.le⟩

end Shows

/-- Neither backspace nor the kill-line key touches what has been committed. -/
theorem killLine_frame (k : Nat) (cons : Cons) : (killLine k cons).buf = cons.buf ∧
    (killLine k cons).r = cons.r ∧ (killLine k cons).w = cons.w := by
  induction k generalizing cons with
  | zero => exact ⟨rfl, rfl, rfl⟩
  | succ k ih =>
    rw [killLine]
    split
    · exact ih _
    · exact ⟨rfl, rfl, rfl⟩

theorem edit_frame (hc : c = C 'U' ∨ c = C 'H' ∨ c = delete) (cons : Cons) :
    (consoleintr c cons).buf = cons.buf ∧ (consoleintr c cons).r = cons.r ∧
      (consoleintr c cons).w = cons.w := by
  have hP : c ≠ C 'P' := by
    rintro rfl
    revert hc
    decide
  rw [consoleintr, if_neg hP]
  split
  · exact killLine_frame _ cons
  next hU =>
  rw [if_pos (hc.resolve_left hU)]
  split
  · exact ⟨rfl, rfl, rfl⟩
  · exact ⟨rfl, rfl, rfl⟩

/-- The console runs as the editor does. -/
structure Agree (s : State Cons) (a : State Editor) : Prop where
  shows : Shows s.dev a.dev
  calls : s.calls = a.calls

theorem Agree.enter (h : Agree s a) (t : Nat) (env : Env) (call : Call) :
    Agree (enter console s t env call).1 (enter lineEditor a t env call).1 ∧
      (enter console s t env call).2 = (enter lineEditor a t env call).2 := by
  obtain ⟨hs, hout⟩ := h.shows.read env call.target call.n call.dst
  have hcalls := congrArg (fun o => Function.update s.calls t (o.2.call call.target)) hout
  exact ⟨⟨hs, hcalls.trans (by rw [h.calls]; rfl)⟩, congrArg some hout⟩

theorem Agree.step (h : Agree s a) (ev : Event) :
    Agree (step console s ev).1 (step lineEditor a ev).1 ∧
      (step console s ev).2 = (step lineEditor a ev).2 := by
  cases ev with
  | intr c => exact ⟨⟨h.shows.key c, h.calls⟩, rfl⟩
  | read t n dst env =>
    rw [Console.step, Console.step, ← h.calls]
    cases s.calls t with
    | none => exact h.enter t env _
    | some call => exact ⟨h, rfl⟩
  | resume t env =>
    rw [Console.step, Console.step, ← h.calls]
    cases s.calls t with
    | none => exact ⟨h, rfl⟩
    | some call => exact h.enter t env call

theorem Agree.run (h : Agree s a) (evs : List Event) :
    Agree (run console s evs).1 (run lineEditor a evs).1 ∧
      (run console s evs).2 = (run lineEditor a evs).2 := by
  induction evs generalizing s a with
  | nil => exact ⟨h, rfl⟩
  | cons ev evs ih =>
    obtain ⟨h', hout⟩ := h.step ev
    obtain ⟨hrun, houts⟩ := ih h'
    exact ⟨hrun, congrArg₂ List.cons hout houts⟩

/-- An input buffer at boot, whatever its cells hold. -/
def Cons.init (buf : Nat → Byte) : Cons := ⟨buf, 0, 0, 0⟩

def State.init (dev : σ) : State σ := ⟨dev, fun _ => none⟩

/-- In every run the buffer holds what a line editor would: the readers see the same, the indices stay
in order, and the editing keys leave alone what has been committed. -/
theorem console_line_discipline (buf : Nat → Byte) (evs : List Event) :
    let s := run console (.init (.init buf)) evs
    let a := run lineEditor (.init ⟨[], []⟩) evs
    let cons := s.1.dev
    s.2 = a.2 ∧
    (cons.w - cons.r).toNat ≤ (cons.e - cons.r).toNat ∧ (cons.e - cons.r).toNat ≤ INPUT_BUF_SIZE ∧
    cons.cells cons.r cons.w = a.1.dev.lines ∧ cons.cells cons.w cons.e = a.1.dev.typing ∧
    ∀ c, c = C 'U' ∨ c = C 'H' ∨ c = delete →
      (consoleintr c cons).cells (consoleintr c cons).r (consoleintr c cons).w = cons.cells cons.r cons.w ∧
      (consoleintr c cons).r = cons.r ∧ (consoleintr c cons).w = cons.w ∧
      (cons.w - cons.r).toNat ≤ ((consoleintr c cons).e - cons.r).toNat := by
  intro s a cons
  have hstart : Agree (.init (.init buf)) (.init ⟨[], []⟩) :=
    ⟨⟨trivial, rfl, rfl, Nat.zero_le _, List.not_mem_nil⟩, rfl⟩
  obtain ⟨h, hout⟩ := hstart.run evs
  refine ⟨hout, h.shows.ordered.1, h.shows.ordered.2, h.shows.cells.1, h.shows.cells.2, fun c hc => ?_⟩
  obtain ⟨hb, hr, hw⟩ := edit_frame hc cons
  have hle := (h.shows.key c).ordered.1
  refine ⟨?_, hr, hw, ?_⟩
  · rw [Cons.cells, Cons.cells, hb, hr, hw]
  · change ((consoleintr c cons).w - (consoleintr c cons).r).toNat ≤ _ at hle
    rwa [hr, hw] at hle

end PbsCow.Console
