import PbsCow.Lib.Pthreads

namespace PbsCow
set_option autoImplicit true

namespace Parlour

def MAX_SIZE : Nat := 200

/-- An array of keys and values that has `MAX_SIZE` places. -/
abbrev Map := List (String × Int)

/-- Every entry with the key gets the value, and one more entry is added if there is space. -/
def insert (map : Map) (key : String) (value : Int) : Map :=
  let map := map.map fun e => if e.1 = key then (key, value) else e
  if map.length < MAX_SIZE then map ++ [(key, value)] else map

def find (map : Map) (key : String) : Int :=
  match map.find? fun e => e.1 = key with
  | some e => e.2
  | none => -1

def insertOrUpdateTopping (map : Map) (key : String) : Map :=
  match map.findIdx? fun e => e.1 = key with
  | some i => map.modify i fun e => (e.1, e.2 + 1)
  | none => if map.length < MAX_SIZE then map ++ [(key, 1)] else map

structure Machine where
  tm_start : Int
  tm_stop : Int

structure Order where
  flav : String
  toppings : List String

structure Customer where
  c : Int
  t_arr : Int
  orders : List Order

/-- What `main` has read. -/
structure Config where
  k : Nat
  mac : List Machine
  fav : Map
  top : Map
  arr : List Customer

/-- An ice cream of customer `a`, counted from 1. -/
structure Pair where
  a : Nat
  b : Nat
  time : Int

namespace Config

variable (q : Config)

def n : Nat := q.mac.length

def tot_customer : Nat := q.arr.length

def customer (i : Nat) : Customer := q.arr.getD i ⟨0, 0, []⟩

def num_icecream (i : Nat) : Nat := (q.customer i).orders.length

def t_arr (i : Nat) : Int := (q.customer i).t_arr

def machine (i : Nat) : Machine := q.mac.getD i ⟨0, 0⟩

def maxtime : Int := q.mac.foldl (fun maxtime m => if maxtime < m.tm_stop then m.tm_stop else maxtime) (-1)

def map : Map := (q.fav ++ q.top).foldl (fun map e => insert map e.1 e.2) []

def queu : List Pair :=
  (List.range q.tot_customer).flatMap fun i => (List.range (q.num_icecream i)).map fun j =>
    ⟨i + 1, j + 1, find q.map ((q.customer i).orders.getD j ⟨"", []⟩).flav⟩

def total_icecream : Nat := q.queu.length

def pair (j : Nat) : Pair := q.queu.getD j ⟨0, 0, 0⟩

/-- The customer who has ordered ice cream `j`. -/
def buyer (j : Nat) : Nat := (q.pair j).a - 1

def time (j : Nat) : Int := (q.pair j).time

/-- All toppings of customer `i`, in the order of the two loops. -/
def toppings (i : Nat) : List String := (q.customer i).orders.flatMap Order.toppings

end Config

inductive Tid where
  | counter
  | machine (i : Nat)
  | arrival (i : Nat)
  | queue (j : Nat)
  | exit
deriving DecidableEq

inductive Mutex where
  | mutex
  | mutex_s
  | mutex_swapn
deriving DecidableEq

inductive Cond where
  | cond_sec
  | cond_swapn
  | verfastswap
  | fastswap
deriving DecidableEq

/-- The heads of the loops. -/
inductive Label where
  | tick
  | starts (i : Nat)
  | stops (i : Nat)
  | gate (i : Nat)
  | comes (i : Nat)
  | collects (i : Nat)
  | allocated (j : Nat)
  | turn (j : Nat)
  | seek (j i : Nat)
  | prepare (j i : Nat)
  | make (j i : Nat) (curr : Int)
  | exits
  | close (i : Nat)

def Label.tid : Label → Tid
  | .tick => .counter
  | .starts i => .machine i
  | .stops i => .machine i
  | .gate i => .arrival i
  | .comes i => .arrival i
  | .collects i => .arrival i
  | .allocated j => .queue j
  | .turn j => .queue j
  | .seek j _ => .queue j
  | .prepare j _ => .queue j
  | .make j _ _ => .queue j
  | .exits => .exit
  | .close _ => .exit

/-- The messages that tell what became of a customer. -/
inductive Outcome where
  | away
  | unfulfilled
  | collected
  | notServiced
deriving DecidableEq

inductive Stage where
  | coming
  | arrived
  | entered
  | given
  | unfulfilled
  | full
  | away
deriving DecidableEq

/-- How far an `arrival_handler` has got: its stage, and whether it has executed its `cind++`, its
`spawned++` and its `ingredients[ind]=0`. -/
structure Visit where
  stage : Stage
  passed : Bool
  left : Bool
  excluded : Bool
deriving DecidableEq

/-- How far a `queue_hand` has got. It holds machine `i` from the second `came` on, starts to prepare at
`start` and completes at `stop`; it is the one with number `rank` of its customer. -/
inductive Cone where
  | waiting
  | holding (i : Nat) (came : Int)
  | started (i : Nat) (start : Int)
  | released (i : Nat) (start : Int)
  | counted (i : Nat) (start rank : Int)
  | completed (i : Nat) (start rank stop : Int)
  | retired (i : Nat) (start rank stop : Int)
deriving DecidableEq

/-- The globals. The fields after `scheduleind` only record: how far the threads have got, the messages
that have been printed, the stage of a customer whom `exit_handler` has found unserved, the broadcast
that a thread owes, whether the counter owes its own, and who has returned. -/
structure Data where
  sec : Int
  map : Map
  marr : Nat → Int
  done : Nat → Int
  ingredients : Nat → Int
  cind : Int
  spawned : Int
  scheduler : Int
  scheduleind : Int
  visit : Nat → Visit
  cone : Nat → Cone
  said : Nat → List Outcome
  unserved : Nat → Option Stage
  owes : Tid → Cond → Bool
  ticked : Bool
  finished : Tid → Bool

abbrev Memory := Shared Tid Mutex Cond Data

abbrev Code := Prog Memory Bool Label

def Data.setStage (d : Data) (i : Nat) (x : Stage) : Data :=
  { d with visit := Function.update d.visit i { d.visit i with stage := x } }

def Data.setCone (d : Data) (j : Nat) (x : Cone) : Data :=
  { d with cone := Function.update d.cone j x }

def Data.owe (d : Data) (t : Tid) (c : Cond) (b : Bool) : Data :=
  { d with owes := Function.update d.owes t (Function.update (d.owes t) c b) }

open Pthread

/-- A broadcast; `f` only records. -/
def signal (c : Cond) (f : Data → Data) (k : Code) : Code :=
  .modify (fun s => { s with
    waits := fun t => if s.waits t = some c then none else s.waits t, data := f s.data }) k

def returns (t : Tid) : Code :=
  update (fun d => { d with finished := Function.update d.finished t true }) .ret

def counter : Code :=
  update (fun d => { d with sec := d.sec + 1, ticked := true }) <|
  signal .cond_sec (fun d => { d with ticked := false }) <| .goto .tick

/-- `while (p)` around a lock, a wait and an unlock; `l` is the head of the loop. -/
def poll (t : Tid) (c : Cond) (p : Data → Bool) (l : Label) (k : Code) : Code :=
  look fun d => if p d then
    lock t .mutex <| condWait t c .mutex <| unlock t .mutex <| .goto l
  else k

/-- `while (p)` around a wait, by a thread that owns the mutex. -/
def watch (t : Tid) (c : Cond) (m : Mutex) (p : Data → Bool) (l : Label) (k : Code) : Code :=
  look fun d => if p d then condWait t c m <| .goto l else k

/-- A thread prints what became of customer `i`. -/
def say (i : Nat) (x : Outcome) (f : Data → Data) (k : Code) : Code :=
  update (fun d => { f d with said := Function.update d.said i (x :: d.said i) }) k

variable (q : Config)

/-- `machine_handler`, which has locked `mutex_s`. -/
def starts (i : Nat) : Code :=
  watch (.machine i) .cond_sec .mutex_s (fun d => (q.machine i).tm_start > d.sec) (.starts i) <|
  unlock (.machine i) .mutex_s <| lock (.machine i) .mutex_s <| .goto (.stops i)

def stops (i : Nat) : Code :=
  watch (.machine i) .cond_sec .mutex_s (fun d => (q.machine i).tm_stop > d.sec) (.stops i) <|
  unlock (.machine i) .mutex_s <| returns (.machine i)

/-- `arrival_handler` waits until all customers before it have come here. -/
def gate (i : Nat) : Code :=
  poll (.arrival i) .verfastswap (fun d => (i : Int) > d.scheduler) (.gate i) <|
  lock (.arrival i) .mutex <|
  update (fun d => { d with scheduler := d.scheduler + 1 }.owe (.arrival i) .verfastswap true) <|
  unlock (.arrival i) .mutex <|
  signal .verfastswap (·.owe (.arrival i) .verfastswap false) <|
  lock (.arrival i) .mutex <| .goto (.comes i)

/-- The store of `cind++`, which has read `v`. -/
def storeCind (i : Nat) (v : Int) (k : Code) : Code :=
  update (fun d => { d with
    cind := v + 1, visit := Function.update d.visit i { d.visit i with passed := true } }) k

def storeSpawned (i : Nat) (v : Int) (k : Code) : Code :=
  update (fun d => { d with
    spawned := v + 1, visit := Function.update d.visit i { d.visit i with left := true } }) k

def advance (i : Nat) (k : Code) : Code := look fun d => storeCind i d.cind k

def vacate (i : Nat) (k : Code) : Code := look fun d => storeSpawned i d.spawned k

def exclude (i : Nat) (k : Code) : Code :=
  update (fun d => { d with
    ingredients := Function.update d.ingredients i 0,
    visit := Function.update d.visit i { d.visit i with excluded := true } }) k

def leave (i : Nat) (m : Mutex) : Code := unlock (.arrival i) m <| returns (.arrival i)

/-- The customer sees that the parlour is full. -/
def goAway (i : Nat) : Code :=
  lock (.arrival i) .mutex <| say i .away (·.setStage i .away) <| advance i <| vacate i <|
  exclude i <| leave i .mutex

def refuse (i : Nat) : Code :=
  say i .unfulfilled (·.setStage i .unfulfilled) <|
  update (fun d => { d with done := Function.update d.done i (q.num_icecream i) }) <|
  vacate i <| advance i <| exclude i <| leave i .mutex

/-- There are toppings enough for the order. -/
def enough (map want : Map) : Bool :=
  want.all fun e => e.2 ≤ find map e.1 || find map e.1 == -1

def deduct (map want : Map) : Map :=
  want.foldl (fun map e => if find map e.1 = -1 then map else insert map e.1 (find map e.1 - e.2)) map

/-- The ingredients are taken in one step: only a thread that owns `mutex` uses the map. -/
def give (i : Nat) (want : Map) : Code :=
  update (fun d => { d with
    map := deduct d.map want,
    ingredients := Function.update d.ingredients i 1 }.setStage i .given) <|
  unlock (.arrival i) .mutex <| broadcast .cond_swapn <|
  lock (.arrival i) .mutex_swapn <| advance i <| .goto (.collects i)

/-- The toppings of all ice creams are counted in a map of the thread. -/
def tally (i : Nat) : List String → Map → (Map → Code) → Code
  | [], want, k => k want
  | x :: l, want, k => lock (.arrival i) .mutex <| unlock (.arrival i) .mutex <|
    tally i l (insertOrUpdateTopping want x) k

def order (i : Nat) : Code :=
  lock (.arrival i) .mutex <| unlock (.arrival i) .mutex <|
  tally i (q.toppings i) [] fun want =>
    lock (.arrival i) .mutex <| look fun d => if enough d.map want then give i want else refuse q i

/-- The customer has arrived, and tests whether there is place. -/
def room (i : Nat) : Code :=
  .act (fun s => some { s with
    data := s.data.setStage i (if s.data.cind < s.data.spawned then .entered else .full) })
  fun s => if s.data.cind < s.data.spawned then order q i else goAway i

def comes (i : Nat) : Code :=
  watch (.arrival i) .cond_sec .mutex (fun d => q.t_arr i > d.sec) (.comes i) <|
  unlock (.arrival i) .mutex <| update (·.setStage i .arrived) <| room q i

def collects (i : Nat) : Code :=
  watch (.arrival i) .cond_swapn .mutex_swapn (fun d => d.done i < q.num_icecream i) (.collects i) <|
  vacate i <| leave i .mutex_swapn

/-- `queue_hand` waits until the customer has the ingredients, or will not get them. -/
def allocated (j : Nat) : Code :=
  poll (.queue j) .cond_sec (fun d => d.ingredients (q.buyer j) = -1) (.allocated j) <| .goto (.turn j)

def turn (j : Nat) : Code :=
  poll (.queue j) .fastswap (fun d => (j : Int) > d.scheduleind) (.turn j) <|
  lock (.queue j) .mutex <|
  update (fun d => { d with scheduleind := d.scheduleind + 1 }.owe (.queue j) .fastswap true) <|
  unlock (.queue j) .mutex <|
  signal .fastswap (·.owe (.queue j) .fastswap false) <|
  look fun d => if d.ingredients (q.buyer j) = 0 then returns (.queue j) else .goto (.seek j 0)

/-- The ice cream takes machine `i`. -/
def claim (j i : Nat) : Code :=
  update (fun d => { d with marr := Function.update d.marr i 1 }.setCone j (.holding i d.sec)) <|
  unlock (.queue j) .mutex <| .goto (.prepare j i)

/-- One round of the search for a machine; after the last one the thread waits for the next second. -/
def seek (j i : Nat) : Code :=
  if i < q.n then
    lock (.queue j) .mutex <| look fun d =>
      let canaccept := d.sec + q.time j < (q.machine i).tm_stop
      look fun d => if d.sec ≥ (q.machine i).tm_start ∧ d.sec ≤ (q.machine i).tm_stop ∧ d.marr i = 0 ∧
        canaccept then claim j i
      else unlock (.queue j) .mutex <| .goto (.seek j (i + 1))
  else
    lock (.queue j) .mutex <| condWait (.queue j) .cond_sec .mutex <|
    unlock (.queue j) .mutex <| .goto (.seek j 0)

def prepare (j i : Nat) : Code :=
  poll (.queue j) .cond_sec (fun d => q.t_arr (q.buyer j) + 1 > d.sec) (.prepare j i) <|
  .act (fun s => some { s with data := s.data.setCone j (.started i s.data.sec) })
    fun s => .goto (.make j i s.data.sec)

/-- The end of `queue_hand`. -/
def deliver (j : Nat) : Code :=
  unlock (.queue j) .mutex <|
  signal .cond_swapn (·.owe (.queue j) .cond_swapn false) <| returns (.queue j)

/-- The ice cream is complete. -/
def completes (j i : Nat) (curr rank : Int) : Code :=
  .act (fun s => some { s with data := s.data.setCone j (.completed i curr rank s.data.sec) }) fun s =>
  look fun d => if d.done (q.buyer j) = q.num_icecream (q.buyer j) then
    say (q.buyer j) .collected (·.setCone j (.retired i curr rank s.data.sec)) <| deliver j
  else update (·.setCone j (.retired i curr rank s.data.sec)) <| deliver j

def make (j i : Nat) (curr : Int) : Code :=
  poll (.queue j) .cond_sec (fun d => curr + q.time j > d.sec) (.make j i curr) <|
  lock (.queue j) .mutex <|
  update (fun d => { d with marr := Function.update d.marr i 0 }.setCone j (.released i curr)) <|
  .act (fun s => some { s with data := ({ s.data with
    done := Function.update s.data.done (q.buyer j) (s.data.done (q.buyer j) + 1)
      }.setCone j (.counted i curr (s.data.done (q.buyer j) + 1))).owe (.queue j) .cond_swapn true })
    fun s => completes q j i curr (s.data.done (q.buyer j) + 1)

/-- `exit_handler`, which has locked `mutex`. -/
def exits : Code :=
  watch .exit .cond_sec .mutex (fun d => q.maxtime + 1 > d.sec) .exits <|
  unlock .exit .mutex <| .goto (.close 0)

/-- `exit_handler` looks whether customer `i` remained unserved. -/
def examine (i : Nat) : Code :=
  .act (fun s => some (if (q.num_icecream i : Int) > s.data.done i then { s with data := { s.data with
    unserved := Function.update s.data.unserved i (some (s.data.visit i).stage) } } else s))
  fun s => if (q.num_icecream i : Int) > s.data.done i then
    say i .notServiced id <| .goto (.close (i + 1))
  else .goto (.close (i + 1))

/-- The loop at closing time, and `exit(0)` after it. -/
def close (i : Nat) : Code := if i < q.tot_customer then examine q i else returns .exit

def body (_ : Tid) : Label → Code
  | .tick => counter
  | .starts i => starts q i
  | .stops i => stops q i
  | .gate i => gate i
  | .comes i => comes q i
  | .collects i => collects q i
  | .allocated j => allocated q j
  | .turn j => turn q j
  | .seek j i => seek q j i
  | .prepare j i => prepare q j i
  | .make j i curr => make q j i curr
  | .exits => exits q
  | .close i => close q i

/-- The threads that `main` creates. -/
def created : Tid → Bool
  | .counter => true
  | .machine i => i < q.n
  | .arrival i => i < q.tot_customer
  | .queue j => j < q.total_icecream
  | .exit => true

def Data.start : Data where
  sec := -1
  map := q.map
  marr := fun _ => 0
  done := fun _ => 0
  ingredients := fun _ => -1
  cind := 0
  spawned := q.k
  scheduler := 0
  scheduleind := 0
  visit := fun _ => ⟨.coming, false, false, false⟩
  cone := fun _ => .waiting
  said := fun _ => []
  unserved := fun _ => none
  owes := fun _ _ => false
  ticked := false
  finished := fun t => !created q t

def start : Threads Tid Memory Bool Label where
  mem := ⟨fun _ => none, fun _ => none, .start q⟩
  code
    | .counter => .goto .tick
    | .machine i => if i < q.n then lock (.machine i) .mutex_s <| .goto (.starts i) else .ret
    | .arrival i => if i < q.tot_customer then .goto (.gate i) else .ret
    | .queue j => if j < q.total_icecream then .goto (.allocated j) else .ret
    | .exit => lock .exit .mutex <| .goto .exits

/-- Thread `t` takes `n` steps. -/
def steps (t : Tid) (n : Nat) : List (Tid × Bool) := List.replicate n (t, false)

end Parlour

end PbsCow
