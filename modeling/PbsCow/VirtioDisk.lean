import PbsCow.Lib.Bytes
import PbsCow.Lib.Hoare
import PbsCow.Lib.Ring

namespace PbsCow.Virtio
set_option autoImplicit true

def NUM : Nat := 8

def BSIZE : Nat := 1024

def VRING_DESC_F_NEXT : BitVec 16 := 1

def VRING_DESC_F_WRITE : BitVec 16 := 2

/-- What a descriptor points to: the command header of a request, the data of a buffer, or the status
byte of a request. -/
inductive Addr where
  | null
  | op (i : Nat)
  | data (b : Nat)
  | status (i : Nat)

structure Desc where
  addr : Addr
  len : Nat
  flags : BitVec 16
  next : Nat

structure Info where
  b : Option Nat
  status : Byte

/-- `disk`, without its lock and the command headers. The rings are those that it shares with the
device: `avail` for requests, `used` for completions. -/
structure Disk where
  desc : Nat → Desc
  avail : Nat → Nat
  availIdx : BitVec 16
  used : Nat → Nat
  usedIdx : BitVec 16
  free : Nat → Bool
  used_idx : BitVec 16
  info : Nat → Info

inductive Panic where
  | freeDesc1
  | freeDesc2
  | intrStatus
  | nullPointer
  | noFuel

abbrev Drv := StateT Disk (Except Panic)

def allocDesc : Drv (Option Nat) := do
  let disk ← get
  match (List.range NUM).find? disk.free with
  | none => return none
  | some i =>
    modify fun disk => { disk with free := Function.update disk.free i false }
    return some i

def freeDesc (i : Nat) : Drv Unit := do
  if i ≥ NUM then throw .freeDesc1
  if (← get).free i then throw .freeDesc2
  modify fun disk => { disk with
    desc := Function.update disk.desc i ⟨.null, 0, 0, 0⟩
    free := Function.update disk.free i true }

/-- Every turn frees a descriptor that is not free, so that more turns than there are descriptors
never happen. -/
def freeChainLoop : Nat → Nat → Drv Unit
  | 0, _ => throw .noFuel
  | fuel + 1, i => do
    let d := (← get).desc i
    freeDesc i
    if d.flags &&& VRING_DESC_F_NEXT ≠ 0 then freeChainLoop fuel d.next

def freeChain (i : Nat) : Drv Unit := freeChainLoop (NUM + 1) i

/-- The loop of `alloc3_desc`, with `k` descriptors to go after those in `idx`. -/
def allocLoop : Nat → List Nat → Drv (Option (List Nat))
  | 0, idx => return some idx
  | k + 1, idx => do
    match ← allocDesc with
    | none =>
      idx.forM freeDesc
      return none
    | some i => allocLoop k (idx ++ [i])

def alloc3Desc : Drv (Option (List Nat)) := allocLoop 3 []

/-- The middle of `virtio_disk_rw`: the three descriptors are formatted, and the device is told of
the first one. -/
def Disk.format (disk : Disk) (b : Nat) (write : Bool) (i0 i1 i2 : Nat) : Disk :=
  let desc := Function.update disk.desc i0 ⟨.op i0, 16, VRING_DESC_F_NEXT, i1⟩
  let desc := Function.update desc i1
    ⟨.data b, BSIZE, (if write then 0 else VRING_DESC_F_WRITE) ||| VRING_DESC_F_NEXT, i2⟩
  let desc := Function.update desc i2 ⟨.status i0, 1, VRING_DESC_F_WRITE, 0⟩
  { disk with
    desc := desc
    info := Function.update disk.info i0 ⟨some b, 0xff⟩
    avail := Function.update disk.avail (ringSlot NUM disk.availIdx) i0
    availIdx := disk.availIdx + 1 }

/-- A request of which the device has been told. The last two fields only record: how often the device
has reported it, and how often its `b->disk` has been cleared. -/
structure Request where
  b : Nat
  i0 : Nat
  i1 : Nat
  i2 : Nat
  reported : Nat
  cleared : Nat

/-- A call of `virtio_disk_rw` that sleeps: for descriptors, or for its request. -/
inductive Call where
  | waiting (b : Nat) (write : Bool)
  | sent (r : Request)

/-- The driver with its callers, the flags `b->disk` and the device. The device has taken the requests
before `lastAvail`, and has not reported those in `taken`. `closed` only records the requests that are
over: how often each was reported and cleared. -/
structure State where
  disk : Disk
  bdisk : Nat → Bool
  calls : Nat → Option Call
  lastAvail : BitVec 16
  taken : List Nat
  closed : List (Nat × Nat)

abbrev Sys := StateT State (Except Panic)

def onDisk (x : Drv α) : Sys α := zoom State.disk (fun d s => { s with disk := d }) x

def putCall (t : Nat) (c : Option Call) : Sys Unit :=
  modify fun s => { s with calls := Function.update s.calls t c }

/-- `virtio_disk_rw` from its first loop on, up to a `sleep`. -/
def virtioDiskRw (t b : Nat) (write : Bool) : Sys Unit := do
  match ← onDisk alloc3Desc with
  | some [i0, i1, i2] =>
    modify fun s => { s with
      disk := s.disk.format b write i0 i1 i2
      bdisk := Function.update s.bdisk b true }
    putCall t (some (.sent ⟨b, i0, i1, i2, 0, 0⟩))
  | _ => putCall t (some (.waiting b write))

/-- The end of `virtio_disk_rw`, where `b->disk` is looked at. -/
def virtioDiskDone (t : Nat) (r : Request) : Sys Unit := do
  if (← get).bdisk r.b then return ()
  onDisk (modify fun disk => { disk with
    info := Function.update disk.info r.i0 { disk.info r.i0 with b := none } })
  onDisk (freeChain r.i0)
  putCall t none
  modify fun s => { s with closed := (r.reported, r.cleared) :: s.closed }

/-- The device reports the request with head `h`. -/
def Request.report (h : Nat) (r : Request) : Request :=
  if r.i0 = h then { r with reported := r.reported + 1 } else r

/-- The flag of buffer `b` is cleared. -/
def Request.clear (b : Nat) (r : Request) : Request :=
  if r.b = b then { r with cleared := r.cleared + 1 } else r

def Call.map (f : Request → Request) : Call → Call
  | .sent r => .sent (f r)
  | c => c

/-- One turn of the loop of `virtio_disk_intr`. -/
def virtioDiskIntr : Sys Unit := do
  let disk := (← get).disk
  if disk.used_idx = disk.usedIdx then return ()
  let id := disk.used (ringSlot NUM disk.used_idx)
  if (disk.info id).status ≠ 0 then throw .intrStatus
  match (disk.info id).b with
  | none => throw .nullPointer
  | some b =>
    modify fun s => { s with
      bdisk := Function.update s.bdisk b false
      calls := fun t => (s.calls t).map (Call.map (.clear b))
      disk := { s.disk with used_idx := s.disk.used_idx + 1 } }

/-- The device takes the next request. -/
def deviceTake : Sys Unit := do
  let s ← get
  if s.lastAvail = s.disk.availIdx then return ()
  set { s with
    taken := s.taken ++ [s.disk.avail (ringSlot NUM s.lastAvail)]
    lastAvail := s.lastAvail + 1 }

/-- Where the device writes the status of the request with head `h`: it follows the chain. -/
def Disk.putStatus (disk : Disk) (h : Nat) (status : Byte) : Disk :=
  match (disk.desc (disk.desc (disk.desc h).next).next).addr with
  | .status i => { disk with info := Function.update disk.info i { disk.info i with status := status } }
  | _ => disk

/-- The device reports one of the requests that it has taken, in any order. -/
def deviceReport (k : Nat) (status : Byte) : Sys Unit := do
  let s ← get
  match s.taken[k]? with
  | none => return ()
  | some h =>
    let disk := s.disk.putStatus h status
    set { s with
      disk := { disk with
        used := Function.update disk.used (ringSlot NUM disk.usedIdx) h
        usedIdx := disk.usedIdx + 1 }
      taken := s.taken.eraseIdx k
      calls := fun t => (s.calls t).map (Call.map (.report h)) }

/-- A section of a caller or a turn of the interrupt handler under the lock, or a step of the device,
which may come between two turns. -/
inductive Event where
  | rw (t b : Nat) (write : Bool)
  | resume (t : Nat)
  | intr
  | take
  | report (k : Nat) (status : Byte)

def step : Event → Sys Unit
  | .rw t b write => do
    match (← get).calls t with
    | none => virtioDiskRw t b write
    | some _ => return ()
  | .resume t => do
    match (← get).calls t with
    | none => return ()
    | some (.waiting b write) => virtioDiskRw t b write
    | some (.sent r) => virtioDiskDone t r
  | .intr => virtioDiskIntr
  | .take => deviceTake
  | .report k status => deviceReport k status

def Call.buf : Call → Nat
  | .waiting b _ => b
  | .sent r => r.b

/-- A caller holds the sleep-lock of its buffer for as long as it is in `virtio_disk_rw`. -/
def Event.Locked (s : State) : Event → Prop
  | .rw _ b _ => ∀ t c, s.calls t = some c → c.buf ≠ b
  | _ => True

/-- The driver after `virtio_disk_init`. -/
def State.init : State where
  disk := ⟨fun _ => ⟨.null, 0, 0, 0⟩, fun _ => 0, 0, fun _ => 0, 0, fun _ => true, 0, fun _ => ⟨none, 0⟩⟩
  bdisk _ := false
  calls _ := none
  lastAvail := 0
  taken := []
  closed := []

end PbsCow.Virtio
