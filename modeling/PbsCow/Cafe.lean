import PbsCow.Lib.Pthreads

namespace PbsCow
set_option autoImplicit true

namespace Cafe

def MAX_SIZE : Nat := 100

/-- The map from coffees to the time that they take. -/
def insert (map : List (String × Int)) (key : String) (value : Int) : List (String × Int) :=
  if map.length < MAX_SIZE then map ++ [(key, value)] else map

def find (map : List (String × Int)) (key : String) : Int :=
  match map.find? fun e => e.1 = key with
  | some e => e.2
  | none => -1

structure Customer where
  i : Int
  cof : String
  t_arr_i : Int
  tol_i : Int

/-- What `main` has read: the number of baristas, the menu and the customers. -/
structure Config where
  b : Nat
  menu : List (String × Int)
  customers : List Customer
  b_pos : 0 < b

def Config.n (q : Config) : Nat := q.customers.length

def Config.map (q : Config) : List (String × Int) := q.menu.foldl (fun map e => insert map e.1 e.2) []

def Config.arr (q : Config) (i : Nat) : Customer := q.customers.getD i ⟨0, "", 0, 0⟩

/-- When customer `i` leaves without the order. -/
def Config.deadline (q : Config) (i : Nat) : Int := (q.arr i).t_arr_i + (q.arr i).tol_i + 1

/-- When the order of customer `i` is complete if its barista was free at `arrival`. -/
def Config.ready (q : Config) (i : Nat) (arrival : Int) : Int := arrival + 1 + find q.map (q.arr i).cof

inductive Tid where
  | counter
  | arrival (i : Nat)
  | customer (i : Nat)
  | exited (i : Nat)
deriving DecidableEq

inductive Mutex where
  | mutex
  | mutex2
  | mutex_s
  | arrival_mutex
deriving DecidableEq

inductive Cond where
  | cond_sec
  | cond_swapn
  | cond_arrival
deriving DecidableEq

/-- Where a thread can go on: at the head of a loop, with the locals that are set there. -/
inductive Label where
  | tick
  | turn (i : Nat)
  | announce (i : Nat)
  | handler (i : Nat)
  | gate (i : Nat)
  | arrive (i : Nat)
  | search (i : Nat) (arrival : Int) (j : Nat)
  | begins (i : Nat) (arrival : Int) (got : Nat)
  | make (i : Nat) (arrival : Int) (got : Nat)
  | leave (i : Nat) (arrival : Int) (got : Nat)
  | waste (i : Nat) (arrival : Int) (got : Nat)
  | exited (i : Nat)

/-- The thread that runs the code at a label. -/
def Label.tid : Label → Tid
  | .tick => .counter
  | .turn i => .arrival i
  | .announce i => .arrival i
  | .handler i => .customer i
  | .gate i => .customer i
  | .arrive i => .customer i
  | .search i _ _ => .customer i
  | .begins i _ _ => .customer i
  | .make i _ _ => .customer i
  | .leave i _ _ => .customer i
  | .waste i _ _ => .customer i
  | .exited i => .exited i

inductive Farewell where
  | withOrder
  | withoutOrder
deriving DecidableEq

/-- What a `customer_handler` has done: its `sem_wait`, which barista it chose, how often it gave
things back, and whether it has returned. -/
structure Log where
  waited : Bool
  got : Option Nat
  spawns : Nat
  resets : Nat
  posts : Nat
  returned : Bool
deriving DecidableEq

/-- The globals. The fields after `arrival_spwaned` only record: what the handlers have done, the
farewells that have been printed or that a handler is about to print, for which time a thread waits, and
whether the counter has not finished its `sleep` since it has last set `sec`. -/
structure Data where
  sec : Int
  spawned : Int
  ind : Int
  semaphore : Nat
  binary_sem : Nat
  barber : Nat → Int
  ex : Nat → Int
  wasted_cofee : Int
  waiting_time : Int
  arrival_spwaned : Int
  log : Nat → Log
  said : Nat → List Farewell
  owes : Nat → Bool
  target : Tid → Int
  napping : Bool

abbrev Memory := Shared Tid Mutex Cond Data

abbrev Code := Prog Memory Bool Label

open Pthread

def counter : Code :=
  update (fun d => { d with sec := d.sec + 1, napping := true }) <|
  update (fun d => { d with napping := false }) <|
  broadcast .cond_sec <| .goto .tick

/-- The thread `t` enters the wait on `cond_sec` because `time` has not come. -/
def block (t : Tid) (time : Int) (k : Code) : Code :=
  update (fun d => { d with target := Function.update d.target t time }) <|
  condWait t .cond_sec .mutex_s k

/-- `while (time > sec)` with its wait; `l` is the head of the loop. -/
def pause (t : Tid) (time : Int) (l : Label) (k : Code) : Code :=
  look fun d => if time > d.sec then
    lock t .mutex_s <| block t time <| unlock t .mutex_s <| .goto l
  else k

variable (q : Config)

/-- `arrival_printing`, which waits for its turn first. -/
def turn (i : Nat) : Code :=
  look fun d => if (i : Int) ≥ d.arrival_spwaned then
    condWait (.arrival i) .cond_arrival .arrival_mutex <| .goto (.turn i)
  else unlock (.arrival i) .arrival_mutex <| .goto (.announce i)

def announce (i : Nat) : Code :=
  pause (.arrival i) (q.arr i).t_arr_i (.announce i) <|
  lock (.arrival i) .arrival_mutex <|
  update (fun d => { d with arrival_spwaned := d.arrival_spwaned + 1 }) <|
  unlock (.arrival i) .arrival_mutex <| broadcast .cond_arrival .ret

def record (i : Nat) (f : Log → Log) (d : Data) : Data :=
  { d with log := Function.update d.log i (f (d.log i)) }

def returns (i : Nat) : Code := update (record i fun l => { l with returned := true }) .ret

def gate (i : Nat) : Code :=
  look fun d => if (i : Int) ≥ d.spawned then
    condWait (.customer i) .cond_swapn .mutex <| .goto (.gate i)
  else unlock (.customer i) .mutex <|
    semWait Data.semaphore (fun v d => { record i (fun l => { l with waited := true }) d with
      semaphore := v }) <| .goto (.arrive i)

def arrive (i : Nat) : Code :=
  pause (.customer i) (q.arr i).t_arr_i (.arrive i) <| look fun d => .goto (.search i d.sec 0)

/-- One round of the search for a barista who is free. -/
def search (i : Nat) (arrival : Int) (j : Nat) : Code :=
  lock (.customer i) .mutex2 <| look fun d => if d.barber j = 0 then
    update (fun d => record i (fun l => { l with got := some j })
      { d with barber := Function.update d.barber j 1 }) <|
    unlock (.customer i) .mutex2 <| .goto (.begins i arrival j)
  else unlock (.customer i) .mutex2 <| .goto (.search i arrival ((j + 1) % q.b))

/-- The end of `customer_handler`. -/
def finish (i got : Nat) : Code :=
  semWait Data.binary_sem (fun v d => { d with binary_sem := v }) <|
  update (fun d => record i (fun l => { l with spawns := l.spawns + 1 })
    { d with spawned := d.spawned + 1 }) <|
  update (fun d => { d with ind := d.ind + 1 }) <|
  update (fun d => record i (fun l => { l with resets := l.resets + 1 })
    { d with barber := Function.update d.barber got 0 }) <|
  semPost Data.binary_sem (fun v d => { d with binary_sem := v }) <|
  semPost Data.semaphore (fun v d => { record i (fun l => { l with posts := l.posts + 1 }) d with
    semaphore := v }) <|
  broadcast .cond_swapn <| returns i

/-- Customer `i` will get the coffee. -/
def take (i : Nat) (arrival : Int) (got : Nat) : Code :=
  update (fun d => { d with
    ex := Function.update d.ex i 1, owes := Function.update d.owes i true }) <|
  unlock (.customer i) .mutex_s <| .goto (.make i arrival got)

def serve (i : Nat) (arrival : Int) (got : Nat) : Code :=
  if q.ready i arrival ≤ (q.arr i).t_arr_i + (q.arr i).tol_i then
    lock (.customer i) .mutex_s <| take i arrival got
  else lock (.customer i) .mutex_s <| look fun d => if d.ex i = 0 then
    update (fun d => { d with
      ex := Function.update d.ex i 1, owes := Function.update d.owes i true }) <|
    .goto (.leave i arrival got)
  else unlock (.customer i) .mutex_s <| .goto (.waste i arrival got)

/-- The second half of the test whether the customer has left. -/
def lastSecond (i : Nat) (arrival : Int) (got : Nat) : Code :=
  look fun d => if q.deadline i = d.sec then returns i else serve q i arrival got

/-- The handler returns at once if the customer has left. -/
def patience (i : Nat) (arrival : Int) (got : Nat) : Code :=
  look fun d => if d.ex i = 1 then returns i else lastSecond q i arrival got

def begins (i : Nat) (arrival : Int) (got : Nat) : Code :=
  pause (.customer i) (arrival + 1) (.begins i arrival got) <|
  lock (.customer i) .mutex2 <|
  update (fun d => { d with waiting_time := d.waiting_time +
    (min d.sec ((q.arr i).t_arr_i + (q.arr i).tol_i) - (q.arr i).t_arr_i) }) <|
  unlock (.customer i) .mutex2 <| patience q i arrival got

/-- A handler prints the farewell that it owes. -/
def say (i : Nat) (x : Farewell) (k : Code) : Code :=
  update (fun d => { d with
    said := Function.update d.said i (x :: d.said i), owes := Function.update d.owes i false }) k

def make (i : Nat) (arrival : Int) (got : Nat) : Code :=
  pause (.customer i) (q.ready i arrival) (.make i arrival got) <|
  say i .withOrder <| finish i got

def leave (i : Nat) (arrival : Int) (got : Nat) : Code :=
  look fun d => if q.deadline i > d.sec then
    block (.customer i) (q.deadline i) <| .goto (.leave i arrival got)
  else say i .withoutOrder <| unlock (.customer i) .mutex_s <| .goto (.waste i arrival got)

def waste (i : Nat) (arrival : Int) (got : Nat) : Code :=
  pause (.customer i) (q.ready i arrival) (.waste i arrival got) <|
  lock (.customer i) .mutex <|
  update (fun d => { d with wasted_cofee := d.wasted_cofee + 1 }) <|
  unlock (.customer i) .mutex <| finish i got

def exited_printing (i : Nat) : Code :=
  pause (.exited i) (q.deadline i) (.exited i) <|
  lock (.exited i) .mutex_s <| look fun d => if d.ex i = 0 then
    update (fun d => { d with said := Function.update d.said i (.withoutOrder :: d.said i) }) <|
    update (fun d => { d with ex := Function.update d.ex i 1 }) <|
    unlock (.exited i) .mutex_s .ret
  else unlock (.exited i) .mutex_s .ret

def body (_ : Tid) : Label → Code
  | .tick => counter
  | .turn i => turn i
  | .announce i => announce q i
  | .handler i => lock (.customer i) .mutex <| .goto (.gate i)
  | .gate i => gate i
  | .arrive i => arrive q i
  | .search i arrival j => search q i arrival j
  | .begins i arrival got => begins q i arrival got
  | .make i arrival got => make q i arrival got
  | .leave i arrival got => leave q i arrival got
  | .waste i arrival got => waste q i arrival got
  | .exited i => exited_printing q i

/-- `main` has read its input. -/
def Data.start : Data where
  sec := -1
  spawned := q.b
  ind := 0
  semaphore := q.b
  binary_sem := 1
  barber := fun _ => 0
  ex := fun _ => 0
  wasted_cofee := 0
  waiting_time := 0
  arrival_spwaned := 1
  log := fun _ => ⟨false, none, 0, 0, 0, false⟩
  said := fun _ => []
  owes := fun _ => false
  target := fun _ => 0
  napping := false

/-- `main` has created its threads: one counter, and three threads for each customer. -/
def start : Threads Tid Memory Bool Label where
  mem := ⟨fun _ => none, fun _ => none, .start q⟩
  code
    | .counter => .goto .tick
    | .arrival i => if i < q.n then lock (.arrival i) .arrival_mutex <| .goto (.turn i) else .ret
    | .customer i => if i < q.n then .goto (.handler i) else .ret
    | .exited i => if i < q.n then .goto (.exited i) else .ret

/-- Thread `t` takes `n` steps. -/
def steps (t : Tid) (n : Nat) : List (Tid × Bool) := List.replicate n (t, false)

end Cafe

end PbsCow
