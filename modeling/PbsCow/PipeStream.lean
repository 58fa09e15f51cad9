import PbsCow.Lib.Bytes
import PbsCow.Lib.Ring
import PbsCow.Lib.Runs

namespace PbsCow.PipeStream
set_option autoImplicit true

def PIPESIZE : Nat := 512

/-- `struct pipe`, without its lock. -/
structure Pipe where
  data : Nat → Byte
  nread : BitVec 32
  nwrite : BitVec 32
  readopen : Bool
  writeopen : Bool

/-- What a call finds around the pipe while it holds the lock: `killed(pr)` when it asks for the
`i`-th time, and what `copyin` and `copyout` make of an address of the caller. -/
structure Env where
  killed : Nat → Bool
  copyin : Word → Option Byte
  copyout : Word → Bool

/-- How a section under the lock ends: the call sleeps with its loop variable at `i`, or returns. -/
inductive Ended where
  | slept (i : Nat)
  | ret (n : Int)

/-- A call that has not returned. -/
inductive Call where
  | write (addr : Word) (n i : Nat)
  | read (addr : Word) (n : Nat)

/-- The loop of `pipewrite` with `rest` bytes to go, up to a `sleep` or the end. Also returns the
bytes that it has taken. -/
def pipewriteLoop (env : Env) (addr : Word) (n : Nat) : Nat → Pipe → Pipe × List Byte × Ended
  | 0, pi => (pi, [], .ret n)
  | rest + 1, pi =>
    let i := n - (rest + 1)
    if pi.readopen = false ∨ env.killed i = true then (pi, [], .ret (-1))
    else if pi.nwrite = pi.nread + BitVec.ofNat 32 PIPESIZE then (pi, [], .slept i)
    else
      match env.copyin (addr + BitVec.ofNat 64 i) with
      | none => (pi, [], .ret i)
      | some ch =>
        let pi := { pi with
          data := Function.update pi.data (ringSlot PIPESIZE pi.nwrite) ch
          nwrite := pi.nwrite + 1 }
        let (pi, taken, ended) := pipewriteLoop env addr n rest pi
        (pi, ch :: taken, ended)

/-- The copying loop of `piperead` with `rest` bytes to go. Also returns the bytes that it has
delivered. -/
def pipereadLoop (env : Env) (addr : Word) (n : Nat) : Nat → Pipe → Pipe × List Byte × Ended
  | 0, pi => (pi, [], .ret n)
  | rest + 1, pi =>
    let i := n - (rest + 1)
    if pi.nread = pi.nwrite then (pi, [], .ret i)
    else
      let ch := pi.data (ringSlot PIPESIZE pi.nread)
      let pi := { pi with nread := pi.nread + 1 }
      if env.copyout (addr + BitVec.ofNat 64 i) = false then (pi, [], .ret i)
      else
        let (pi, delivered, ended) := pipereadLoop env addr n rest pi
        (pi, ch :: delivered, ended)

/-- `piperead`, from where it waits for the pipe to have something. -/
def piperead (env : Env) (addr : Word) (n : Nat) (pi : Pipe) : Pipe × List Byte × Ended :=
  if pi.nread = pi.nwrite ∧ pi.writeopen = true then
    if env.killed 0 = true then (pi, [], .ret (-1)) else (pi, [], .slept 0)
  else pipereadLoop env addr n n pi

/-- A pipe with the calls that sleep in it, one for a thread, and with what has been taken from the
writers and delivered to the readers, in the order of the lock. -/
structure State where
  pipe : Pipe
  calls : Nat → Option Call
  taken : List Byte
  delivered : List Byte

/-- Something that happens under the lock of the pipe: thread `t` enters with a call, or goes on with
one after a `sleep`, or one end is closed. -/
inductive Event where
  | pipewrite (t : Nat) (addr : Word) (n : Int) (env : Env)
  | piperead (t : Nat) (addr : Word) (n : Int) (env : Env)
  | resume (t : Nat) (env : Env)
  | pipeclose (writable : Bool)

/-- The section of a call. -/
def enter (s : State) (t : Nat) (env : Env) : Call → State
  | .write addr n i =>
    let (pi, taken, ended) := pipewriteLoop env addr n (n - i) s.pipe
    { s with
      pipe := pi, taken := s.taken ++ taken
      calls := Function.update s.calls t (match ended with
        | .slept i => some (.write addr n i)
        | .ret _ => none) }
  | .read addr n =>
    let (pi, delivered, ended) := piperead env addr n s.pipe
    { s with
      pipe := pi, delivered := s.delivered ++ delivered
      calls := Function.update s.calls t (match ended with
        | .slept _ => some (.read addr n)
        | .ret _ => none) }

/-- A thread has one call at a time, and nobody uses a pipe that is closed at both ends. -/
def step (s : State) (ev : Event) : State :=
  if s.pipe.readopen = false ∧ s.pipe.writeopen = false then s
  else
    match ev with
    | .pipewrite t addr n env => if s.calls t = none then enter s t env (.write addr n.toNat 0) else s
    | .piperead t addr n env => if s.calls t = none then enter s t env (.read addr n.toNat) else s
    | .resume t env =>
      match s.calls t with
      | none => s
      | some call => enter s t env call
    | .pipeclose true => { s with pipe := { s.pipe with writeopen := false } }
    | .pipeclose false => { s with pipe := { s.pipe with readopen := false } }

/-- A pipe as `pipealloc` makes it, in a page that holds anything. -/
def State.init (data : Nat → Byte) : State := ⟨⟨data, 0, 0, true, true⟩, fun _ => none, [], []⟩

/-- The bytes in the pipe. -/
structure Pipe.Contains (pi : Pipe) (xs : List Byte) : Prop where
  data : RingHolds PIPESIZE pi.data pi.nread xs
  nwrite : pi.nwrite = pi.nread + BitVec.ofNat 32 xs.length
  le : xs.length ≤ PIPESIZE

theorem Pipe.Contains.lt {pi : Pipe} (h : pi.Contains xs) : xs.length < 2 ^ 32 :=
  lt_of_le_of_lt h.le (by decide)

theorem Pipe.Contains.count {pi : Pipe} (h : pi.Contains xs) :
    (pi.nwrite - pi.nread).toNat = xs.length := by
  rw [h.nwrite, index_sub pi.nread h.lt]

theorem Pipe.Contains.empty_iff {pi : Pipe} (h : pi.Contains xs) : pi.nread = pi.nwrite ↔ xs = [] := by
  rw [eq_comm, h.nwrite, index_eq_self pi.nread h.lt, List.length_eq_zero_iff]

theorem Pipe.Contains.full_iff {pi : Pipe} (h : pi.Contains xs) :
    pi.nwrite = pi.nread + BitVec.ofNat 32 PIPESIZE ↔ xs.length = PIPESIZE := by
  rw [h.nwrite, index_inj pi.nread h.lt (by decide)]

theorem Pipe.Contains.put {pi : Pipe} (h : pi.Contains xs) (hlt : xs.length < PIPESIZE) (ch : Byte) :
    Pipe.Contains { pi with
      data := Function.update pi.data (ringSlot PIPESIZE pi.nwrite) ch
      nwrite := pi.nwrite + 1 } (xs ++ [ch]) := by
  refine ⟨?_, ?_, ?_⟩
  · rw [h.nwrite]
    exact h.data.push (by decide) hlt ch
  · show pi.nwrite + 1 = _
    rw [h.nwrite, index_succ, List.length_append, List.length_singleton]
  · rw [List.length_append, List.length_singleton]
    exact hlt

theorem Pipe.Contains.get {pi : Pipe} (h : pi.Contains (x :: xs)) :
    pi.data (ringSlot PIPESIZE pi.nread) = x ∧ Pipe.Contains { pi with nread := pi.nread + 1 } xs := by
  refine ⟨h.data.1, h.data.2, ?_, ?_⟩
  · show pi.nwrite = pi.nread + 1 + _
    rw [add_ofNat_succ, h.nwrite, List.length_cons]
  · have hle := h.le
    rw [List.length_cons] at hle
    omega

/-- What a writer takes is put behind what is in the pipe. -/
theorem pipewriteLoop_spec (env : Env) (addr : Word) (n rest : Nat) {pi : Pipe} (h : pi.Contains xs) :
    (pipewriteLoop env addr n rest pi).1.Contains (xs ++ (pipewriteLoop env addr n rest pi).2.1) := by
  induction rest generalizing pi xs with
  | zero =>
    rw [pipewriteLoop, List.append_nil]
    exact h
  | succ rest ih =>
    rw [pipewriteLoop]
    dsimp only
    split
    · rwa [List.append_nil]
    split
    · rwa [List.append_nil]
    next hfull =>
    split
    · rwa [List.append_nil]
    next ch _ =>
    have hlt : xs.length < PIPESIZE := lt_of_le_of_ne h.le fun he => hfull (h.full_iff.2 he)
    have hrest := ih (h.put hlt ch)
    rwa [List.append_assoc, List.singleton_append] at hrest

/-- A reader takes the bytes from the front. It delivers all of them but the last one, if that cannot
be copied out. -/
theorem pipereadLoop_spec (env : Env) (addr : Word) (n rest : Nat) {pi : Pipe} (h : pi.Contains xs) :
    ∃ lost xs', xs = (pipereadLoop env addr n rest pi).2.1 ++ lost ++ xs' ∧
      (pipereadLoop env addr n rest pi).1.Contains xs' ∧
      ((∀ j, j < rest → j < xs.length → env.copyout (addr + BitVec.ofNat 64 (n - rest + j)) = true) →
        rest ≤ n → lost = []) := by
  induction rest generalizing pi xs with
  | zero => exact ⟨[], xs, by simp [pipereadLoop], h, fun _ _ => rfl⟩
  | succ rest ih =>
    rw [pipereadLoop]
    dsimp only
    by_cases hempty : pi.nread = pi.nwrite
    · rw [if_pos hempty]
      exact ⟨[], xs, by simp, h, fun _ _ => rfl⟩
    rw [if_neg hempty]
    cases xs with
    | nil => exact (hempty (h.empty_iff.2 rfl)).elim
    | cons x xs =>
      obtain ⟨hx, hget⟩ := h.get
      split
      · next hfail =>
        refine ⟨[x], xs, rfl, hget, fun hall _ => ?_⟩
        have hok := hall 0 (Nat.succ_pos rest) (by simp)
        rw [Nat.add_zero, hfail] at hok
        cases hok
      · obtain ⟨lost, xs', hxs, hc, hlost⟩ := ih hget
        refine ⟨lost, xs', ?_, hc, fun hall hle => hlost (fun j hj hlen => ?_) (by omega)⟩
        · rw [hx, hxs]
          rfl
        · have hok := hall (j + 1) (by omega) (by rw [List.length_cons]; omega)
          rwa [show n - (rest + 1) + (j + 1) = n - rest + j by omega] at hok

/-- The bytes in the pipe, as the code finds them. -/
def Pipe.bytes (pi : Pipe) : List Byte :=
  (List.range (pi.nwrite - pi.nread).toNat).map fun k =>
    pi.data (ringSlot PIPESIZE (pi.nread + BitVec.ofNat 32 k))

theorem Pipe.Contains.bytes_eq {pi : Pipe} (h : pi.Contains xs) : pi.bytes = xs := by
  rw [Pipe.bytes, h.count]
  exact h.data.cells

/-- Every byte that a reader finds in the pipe can be copied out. -/
def Pipe.Copies (pi : Pipe) (env : Env) (addr : Word) (n : Nat) : Prop :=
  ∀ i, i < n → i < (pi.nwrite - pi.nread).toNat → env.copyout (addr + BitVec.ofNat 64 i) = true

/-- The event is not a section of a reader in which `copyout` fails. -/
def Event.Copies (s : State) : Event → Prop
  | .piperead _ addr n env => s.pipe.Copies env addr n.toNat
  | .resume t env => ∀ addr n, s.calls t = some (.read addr n) → s.pipe.Copies env addr n
  | _ => True

/-- A pipe that holds some of the bytes, and has lost none of them if `sound`. -/
def State.Streams (sound : Prop) (s : State) : Prop :=
  ∃ xs, s.pipe.Contains xs ∧ (sound → s.taken = s.delivered ++ xs)

theorem State.Streams.write (h : State.Streams sound s) (t : Nat) (env : Env) (addr : Word) (n i : Nat) :
    State.Streams sound (enter s t env (.write addr n i)) := by
  obtain ⟨xs, hc, ht⟩ := h
  refine ⟨_, pipewriteLoop_spec env addr n (n - i) hc, fun hs => ?_⟩
  show s.taken ++ _ = s.delivered ++ _
  rw [ht hs, List.append_assoc]

theorem piperead_spec {pi : Pipe} (env : Env) (addr : Word) (n : Nat) (h : pi.Contains xs) :
    ∃ lost xs', xs = (piperead env addr n pi).2.1 ++ lost ++ xs' ∧
      (piperead env addr n pi).1.Contains xs' ∧ (pi.Copies env addr n → lost = []) := by
  rw [piperead]
  split
  · split
    · exact ⟨[], xs, rfl, h, fun _ => rfl⟩
    · exact ⟨[], xs, rfl, h, fun _ => rfl⟩
  · obtain ⟨lost, xs', hxs, hc, hlost⟩ := pipereadLoop_spec env addr n n h
    refine ⟨lost, xs', hxs, hc, fun hcopy => hlost (fun j hj hlen => ?_) (le_refl n)⟩
    rw [Nat.sub_self, Nat.zero_add]
    exact hcopy j hj (by rwa [h.count])

theorem State.Streams.read (h : State.Streams sound s) (t : Nat) (env : Env) (addr : Word) (n : Nat)
    (hcopy : sound → s.pipe.Copies env addr n) : State.Streams sound (enter s t env (.read addr n)) := by
  obtain ⟨xs, hc, ht⟩ := h
  obtain ⟨lost, xs', hxs, hc', hlost⟩ := piperead_spec env addr n hc
  refine ⟨xs', hc', fun hs => ?_⟩
  show s.taken = (s.delivered ++ (piperead env addr n s.pipe).2.1) ++ xs'
  rw [ht hs, hxs, hlost (hcopy hs), List.append_nil, List.append_assoc]

theorem State.Streams.step (h : State.Streams sound s) (ev : Event) (hcopy : sound → ev.Copies s) :
    State.Streams sound (step s ev) := by
  rw [PipeStream.step.eq_def]
  split
  · exact h
  cases ev with
  | pipewrite t addr n env =>
    dsimp only
    split
    · exact h.write t env addr n.toNat 0
    · exact h
  | piperead t addr n env =>
    dsimp only
    split
    · exact h.read t env addr n.toNat hcopy
    · exact h
  | resume t env =>
    dsimp only
    cases hcall : s.calls t with
    | none => exact h
    | some call =>
      cases call with
      | write addr n i => exact h.write t env addr n i
      | read addr n => exact h.read t env addr n fun hs => hcopy hs addr n hcall
  | pipeclose writable =>
    obtain ⟨xs, hc, ht⟩ := h
    cases writable with
    | true => exact ⟨xs, ⟨hc.data, hc.nwrite, hc.le⟩, ht⟩
    | false => exact ⟨xs, ⟨hc.data, hc.nwrite, hc.le⟩, ht⟩

theorem State.init_streams (data : Nat → Byte) : State.Streams sound (State.init data) :=
  ⟨[], ⟨trivial, rfl, Nat.zero_le _⟩, fun _ => rfl⟩

/-- A pipe never holds more than its size, and in a run in which no reader fails to copy out a byte
that it finds, it holds what has been taken from the writers and not yet delivered. -/
theorem pipe_fifo (data : Nat → Byte) (s : State) :
    (Reached step (fun _ _ => True) (.init data) s → (s.pipe.nwrite - s.pipe.nread).toNat ≤ PIPESIZE) ∧
    (Reached step Event.Copies (.init data) s →
      s.delivered <+: s.taken ∧ s.taken = s.delivered ++ s.pipe.bytes) := by
  constructor
  · intro h
    obtain ⟨xs, hc, _⟩ := h.keeps (State.init_streams data : State.Streams False _)
      fun s ev hs _ => hs.step ev fun hf => hf.elim
    rw [hc.count]
    exact hc.le
  · intro h
    obtain ⟨xs, hc, ht⟩ := h.keeps (State.init_streams data : State.Streams True _)
      fun s ev hs hcopy => hs.step ev fun _ => hcopy
    rw [hc.bytes_eq, ht trivial]
    exact ⟨List.prefix_append _ _, rfl⟩

/-- A caller that is not killed, has byte `k` at address `k`, and can be written to from `lo` on. -/
def caller (lo : Word) : Env := ⟨fun _ => false, fun a => some (a.setWidth 8), fun a => decide (lo ≤ a)⟩

theorem pipe_fifo_read :
    let s := step (step (.init fun _ => 0) (.pipewrite 0 7 2 (caller 0))) (.piperead 1 0 1 (caller 0))
    Reached step Event.Copies (.init fun _ => 0) s ∧ s.delivered = [7] ∧ s.taken = [7, 8] ∧
      s.delivered <+: s.taken := by
  have hrun : Reached step Event.Copies (.init fun _ => 0)
      (step (step (.init fun _ => 0) (.pipewrite 0 7 2 (caller 0))) (.piperead 1 0 1 (caller 0))) :=
    (Reached.refl.step _ trivial).step _ fun _ _ _ => by simp [caller]
  exact ⟨hrun, by decide, by decide, ((pipe_fifo _ _).2 hrun).1⟩

/-- A reader with a bad address makes the next one miss a byte. -/
theorem pipe_loses_byte :
    ∃ s, Reached step (fun _ _ => True) (.init fun _ => 0) s ∧ s.taken = [7, 8] ∧ s.delivered = [8] ∧
      ¬ s.delivered <+: s.taken := by
  refine ⟨step (step (step (.init fun _ => 0) (.pipewrite 0 7 2 (caller 4096)))
    (.piperead 1 0 1 (caller 4096))) (.piperead 2 4096 1 (caller 4096)), ?_, by decide, by decide, by decide⟩
  exact ((Reached.refl.step _ trivial).step _ trivial).step _ trivial

end PbsCow.PipeStream
