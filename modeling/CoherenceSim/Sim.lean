/-
# The simulator

`sim/hash_table.cpp`, `sim/processor.cpp`, `sim/memory.cpp`, `sim/node.cpp` and
`sim/sim.cpp`: the caches, the processors and the memory controller, and the loop
that ticks them. A node `i < n` has a processor and its L1 cache, node `n` the
memory controller; the module ids are those of the constructors and never change.

A processor reads its trace through `fscanf`; what the file is made of is left
open (`Infile`). Sets, ways and the fields of the cache that no function reads
after the constructor are left out: the lines of a cache are one map.
-/
import CoherenceSim.Protocols

namespace CoherenceSim

/-- What a run is given: the protocol and the latency of the memory, which
`build_memory_controller` sets to 100. -/
structure Settings where
  protocol : Protocol
  hitTime : ℕ
deriving DecidableEq, Repr

/-- What `fscanf (infile, "%c 0x%llx\n", ..)` reads off a file: the two values
when both conversions succeed, and what is left. -/
class Infile (F : Type) where
  fscanf : F → Option (Char × Paddr) × F

/-- A line of a trace: the operation and the address. -/
abbrev Trace := List (Char × Paddr)

/-- A well-formed trace is read line by line. -/
instance : Infile Trace where
  fscanf
    | [] => (none, [])
    | line :: rest => (some line, rest)

structure HashEntry where
  tag : Paddr
  state : CacheState
deriving DecidableEq, Repr

structure HashTable where
  procRequest : Option Mreq
  myEntries : Paddr → Option HashEntry

structure Processor (F : Type) where
  infile : F
  endOfTrace : Bool
  outstandingRequest : Bool
  inboundRequest : Option Mreq
  inboundRequestBuf : Option Mreq
deriving DecidableEq, Repr

structure MemoryController where
  requestInProgress : Bool
  dataTime : ℕ
  dataAddr : Paddr
  dataTarget : ModuleID
deriving DecidableEq, Repr

structure Node (F : Type) where
  L1 : HashTable
  PR : Processor F

@[ext] structure Simulator (n : ℕ) (F : Type) where
  globalClock : ℕ
  bus : Bus
  Nd : Fin n → Node F
  MC : MemoryController
  stats : Stats

section
variable {n : ℕ} {F : Type}

/-- The module ids of node `i`. -/
def L1id (i : Fin n) : ModuleID := ⟨i, .L1_M⟩
def PRid (i : Fin n) : ModuleID := ⟨i, .PR_M⟩

/-- The module id of the memory controller. -/
def MCid (n : ℕ) : ModuleID := ⟨n, .MC_M⟩

/-! ### The cache -/

/-- The entry of a line, made in `I` where the table has none. -/
def HashTable.getEntry (table : HashTable) (addr : Paddr) : HashEntry :=
  (table.myEntries addr).getD ⟨addr, .I⟩

/-- The entry of the line is now `entry`. -/
def HashTable.setEntry (table : HashTable) (addr : Paddr) (entry : HashEntry) : HashTable :=
  { table with myEntries := fun a => if a = addr then some entry else table.myEntries a }

namespace Simulator

def setNode (s : Simulator n F) (i : Fin n) (nd : Node F) : Simulator n F :=
  { s with Nd := fun j => if j = i then nd else s.Nd j }

/-- Runs the code of the object of a line of cache `i`. -/
def withEntry (s : Simulator n F) (i : Fin n) (addr : Paddr) (code : Action Unit) :
    Except Fatal (Simulator n F) := do
  let nd := s.Nd i
  let entry := nd.L1.getEntry addr
  let (_, c) ← code.run ⟨entry.state, s.bus, nd.PR.inboundRequestBuf, s.stats⟩
  return { s.setNode i { L1 := nd.L1.setEntry addr { entry with state := c.state }
                         PR := { nd.PR with inboundRequestBuf := c.inboundRequestBuf } } with
           bus := c.bus, stats := c.stats }

/-- The first half of `Hash_table::tick`: a request of the processor. -/
def tickProcRequest (S : Settings) (s : Simulator n F) (i : Fin n) : Except Fatal (Simulator n F) :=
  match (s.Nd i).L1.procRequest with
  | some request => do
    let s := { s with stats := { s.stats with cacheAccesses := s.stats.cacheAccesses + 1 } }
    let s ← s.withEntry i request.addr (processCacheRequest S.protocol (L1id i) request)
    return s.setNode i { s.Nd i with L1 := { (s.Nd i).L1 with procRequest := none } }
  | none => return s

/-- The second half: a message on the bus. DATA for another cache is not looked at. -/
def tickSnoop (S : Settings) (s : Simulator n F) (i : Fin n) : Except Fatal (Simulator n F) :=
  match s.bus.busSnoop with
  | some request =>
    if request.msg = .DATA ∧ request.destMid ≠ L1id i then return s
    else s.withEntry i request.addr (processSnoopRequest S.protocol (L1id i) request)
  | none => return s

/-- `Hash_table::tick` of cache `i`. -/
def tickCache (S : Settings) (s : Simulator n F) (i : Fin n) : Except Fatal (Simulator n F) := do
  let s ← s.tickProcRequest S i
  s.tickSnoop S i

end Simulator

/-! ### The processor -/

/-- `Processor::done` -/
def Processor.done (pr : Processor F) : Bool := pr.endOfTrace && !pr.outstandingRequest

/-- The first part of `Processor::tick`: the access in `inbound_request` completes. -/
def Processor.complete (pr : Processor F) : Except Fatal (Processor F) :=
  match pr.inboundRequest with
  | some data =>
    if data.msg = .DATA then .ok { pr with outstandingRequest := false, inboundRequest := none }
    else .error (.assertion "inbound_request->msg == DATA")
  | none => .ok pr

/-- The rest: a processor that waits for nothing fetches the next line. -/
def Node.fetch [Infile F] (nd : Node F) (i : Fin n) : Except Fatal (Node F) :=
  if nd.PR.endOfTrace || nd.PR.outstandingRequest then .ok nd
  else
    match Infile.fscanf nd.PR.infile with
    | (some (c, addr), infile) => do
      let request ← match c with
        | 'r' => Except.ok (Mreq.new .LOAD addr (PRid i))
        | 'w' => Except.ok (Mreq.new .STORE addr (PRid i))
        | c => Except.error (.fatalError ("Processor " ++ toString i.val ++ ": unknown operation - " ++
            c.toString))
      return { L1 := { nd.L1 with procRequest := some request }
               PR := { nd.PR with infile := infile, outstandingRequest := true } }
    | (none, infile) => .ok { nd with PR := { nd.PR with infile := infile, endOfTrace := true } }

/-- `Processor::tick` of node `i`. -/
def Simulator.tickPr [Infile F] (s : Simulator n F) (i : Fin n) : Except Fatal (Simulator n F) := do
  let pr ← (s.Nd i).PR.complete
  let nd ← Node.fetch { s.Nd i with PR := pr } i
  return s.setNode i nd

def Processor.tock (pr : Processor F) : Processor F :=
  match pr.inboundRequestBuf with
  | some data => { pr with inboundRequest := some data, inboundRequestBuf := none }
  | none => pr

def Simulator.tockPr (s : Simulator n F) (i : Fin n) : Simulator n F :=
  s.setNode i { s.Nd i with PR := (s.Nd i).PR.tock }

/-! ### The memory controller -/

/-- The first part of `Memory_controller::tick`: a request starts a lookup, DATA
on the bus cancels it. -/
def MemoryController.snoop (S : Settings) (mc : MemoryController) (clock : ℕ) (request : Option Mreq) :
    Except Fatal MemoryController :=
  match request with
  | some request =>
    if request.msg ≠ .DATA then
      if mc.requestInProgress then .error (.assertion "!request_in_progress")
      else .ok { requestInProgress := true, dataAddr := request.addr, dataTarget := request.srcMid,
                 dataTime := clock + S.hitTime }
    else .ok { mc with requestInProgress := false }
  | none => .ok mc

/-- `Memory_controller::tick` -/
def Simulator.tickMc (S : Settings) (s : Simulator n F) : Except Fatal (Simulator n F) := do
  let mc ← s.MC.snoop S s.globalClock s.bus.busSnoop
  if mc.requestInProgress ∧ mc.dataTime ≤ s.globalClock then
    let bus ← s.bus.busRequest (.new .DATA mc.dataAddr (MCid n) mc.dataTarget)
    return { s with MC := { mc with requestInProgress := false }, bus := bus }
  else return { s with MC := mc }

/-! ### The loop -/

namespace Simulator

/-- `Bus::tick`, with which a cycle starts. -/
def tickBus (s : Simulator n F) : Simulator n F := { s with bus := s.bus.tick }

/-- A cycle as far as the ticks of the caches of `l`, in that order. -/
def tickCaches (S : Settings) (s : Simulator n F) (l : List (Fin n)) : Except Fatal (Simulator n F) :=
  l.foldlM (tickCache S) s

def tickPrs [Infile F] (s : Simulator n F) (l : List (Fin n)) : Except Fatal (Simulator n F) :=
  l.foldlM tickPr s

def tockPrs (s : Simulator n F) (l : List (Fin n)) : Simulator n F := l.foldl tockPr s

/-- The body of the loop of `Simulator::run`. -/
def cycle [Infile F] (S : Settings) (s : Simulator n F) : Except Fatal (Simulator n F) := do
  let s ← s.tickBus.tickCaches S (List.finRange n)
  let s ← s.tickPrs (List.finRange n)
  let s ← s.tickMc S
  let s := s.tockPrs (List.finRange n)
  return { s with globalClock := s.globalClock + 1 }

/-- The test that ends the loop. -/
def done (s : Simulator n F) : Bool := (List.finRange n).all fun i => (s.Nd i).PR.done

/-- `Simulator::run` for at most so many cycles: the final state, if the loop has
ended by then. -/
def run [Infile F] (S : Settings) : ℕ → Simulator n F → Except Fatal (Option (Simulator n F))
  | 0, _ => .ok none
  | fuel + 1, s => do
    let s ← s.cycle S
    if s.done then return some s else run S fuel s

/-- The members the constructors leave unset. -/
structure Unset (n : ℕ) where
  outstandingRequest : Fin n → Bool
  procRequest : Fin n → Option Mreq
  dataAddr : Paddr

/-- The state the constructors build, over trace files and whatever the unset
members hold. -/
def build (u : Unset n) (files : Fin n → F) : Simulator n F where
  globalClock := 0
  bus := Bus.new
  Nd i := { L1 := { procRequest := u.procRequest i, myEntries := fun _ => none }
            PR := { infile := files i, endOfTrace := false, outstandingRequest := u.outstandingRequest i,
                    inboundRequest := none, inboundRequestBuf := none } }
  MC := { requestInProgress := false, dataTime := 0, dataAddr := u.dataAddr, dataTarget := .invalid }
  stats := ⟨0, 0, 0, 0⟩

/-- Memory that reads as zero. -/
def Unset.zero (n : ℕ) : Unset n := ⟨fun _ => false, fun _ => none, 0⟩

/-- The state before the first cycle, with no request pending anywhere. -/
def init (files : Fin n → F) : Simulator n F := build (Unset.zero n) files

end Simulator
end

end CoherenceSim
