/-
# The base class of the protocols

`protocols/protocol.cpp` and `protocols/error_handler.cpp`. The object of a
protocol belongs to one line of one cache; its code is an `Action`: it reads
and writes the state of the line, the bus, the input buffer of the processor of
its node and the counters of the simulator, and a fatal error ends it.

`checkpoint`, which prints in a debug build only, is left out, and so are the
log lines.
-/
import CoherenceSim.Bus

namespace CoherenceSim

/-- The six values of `settings.protocol` a run can have. -/
inductive Protocol
  | MI_PRO | MSI_PRO | MESI_PRO | MOESI_PRO | MOSI_PRO | MOESIF_PRO
deriving DecidableEq, Repr

/-- The states of a line, for all six protocols: each has an enumeration of its
own, with some of these. A `default` branch stands for the others. -/
inductive CacheState
  | I | S | E | O | M | F | IM | IS
deriving DecidableEq, Repr

/-- The counters of the simulator. -/
structure Stats where
  cacheMisses : ℕ
  cacheAccesses : ℕ
  silentUpgrades : ℕ
  cacheToCacheTransfers : ℕ
deriving DecidableEq, Repr

/-- What the code of a protocol object reads and writes. -/
structure Ctx where
  /-- `state`, of the line -/
  state : CacheState
  /-- `Sim->bus` -/
  bus : Bus
  /-- `inbound_request_buf` of the processor of the node -/
  inboundRequestBuf : Option Mreq
  /-- the counters of `Sim` -/
  stats : Stats
deriving DecidableEq, Repr

abbrev Action := StateT Ctx (Except Fatal)

/-! ### The error handler

`get_state_str` is not virtual, so the text of an invalid request has the "-"
of the base class for the state. -/

def invalidStateError (name : String) : Action Unit :=
  throw (.fatalError ("Invalid Cache State for " ++ name ++ "\n"))

def invalidRequestError : Action Unit :=
  throw (.fatalError ("Client: " ++ "-" ++ " state shouldn't see this message\n"))

def multipleRequestsError : Action Unit :=
  throw (.fatalError "Should only have one outstanding request per processor!\n")

def exclusivityViolationError : Action Unit :=
  throw (.fatalError "Should not see data for this line!  I have the line!\n")

/-! ### The helpers of a protocol

`me` is `my_table->moduleID`, the cache of the object. -/

/-- `state = s` -/
def setState (s : CacheState) : Action Unit :=
  modify fun c => { c with state := s }

/-- `Sim->cache_misses++` -/
def incCacheMisses : Action Unit :=
  modify fun c => { c with stats := { c.stats with cacheMisses := c.stats.cacheMisses + 1 } }

/-- `Sim->silent_upgrades++` -/
def incSilentUpgrades : Action Unit :=
  modify fun c => { c with stats := { c.stats with silentUpgrades := c.stats.silentUpgrades + 1 } }

/-- `Hash_table::write_to_bus` -/
def writeToBus (me : ModuleID) (mreq : Mreq) : Action Unit := do
  let c ← get
  let bus ← c.bus.busRequest { mreq with srcMid := me }
  set { c with bus := bus }

/-- `Hash_table::write_to_proc` -/
def writeToProc (me : ModuleID) (mreq : Mreq) : Action Unit := do
  let c ← get
  if c.inboundRequestBuf.isSome then throw (.assertion "!pr->inbound_request_buf")
  set { c with inboundRequestBuf := some { mreq with srcMid := me } }

def sendGETM (me : ModuleID) (addr : Paddr) : Action Unit :=
  writeToBus me (.new .GETM addr)

def sendGETS (me : ModuleID) (addr : Paddr) : Action Unit :=
  writeToBus me (.new .GETS addr)

def sendDATAOnBus (me : ModuleID) (addr : Paddr) (dest : ModuleID) : Action Unit := do
  writeToBus me (.new .DATA addr me dest)
  modify fun c =>
    { c with stats := { c.stats with cacheToCacheTransfers := c.stats.cacheToCacheTransfers + 1 } }

def sendDATAToProc (me : ModuleID) (addr : Paddr) : Action Unit :=
  writeToProc me (.new .DATA addr)

def setSharedLine : Action Unit :=
  modify fun c => { c with bus := { c.bus with sharedLine := true } }

def getSharedLine : Action Bool :=
  return (← get).bus.sharedLine

/-! ### The shapes of the handlers

Every `do_cache_*` and `do_snoop_*` is a switch on the message, and the copies of
a branch in the six files differ in the states and in the order of the calls. -/

/-- The switch of a `do_cache_*` function. -/
def onProc (load store : Action Unit) (request : Mreq) : Action Unit :=
  match request.msg with
  | .LOAD => load
  | .STORE => store
  | _ => invalidRequestError

/-- The switch of a `do_snoop_*` function. -/
def onSnoop (gets getm data : Action Unit) (request : Mreq) : Action Unit :=
  match request.msg with
  | .GETS => gets
  | .GETM => getm
  | .DATA => data
  | _ => invalidRequestError

/-- A miss of MI, MSI and MOSI. -/
def sendThenMiss (send : Action Unit) (s : CacheState) : Action Unit := do
  send
  setState s
  incCacheMisses

/-- A miss of MESI, MOESI and MOESIF. -/
def missThenSend (send : Action Unit) (s : CacheState) : Action Unit := do
  setState s
  incCacheMisses
  send

/-- A cache that owns the line answers `request`. -/
def supply (me : ModuleID) (request : Mreq) : Action Unit := do
  setSharedLine
  sendDATAOnBus me request.addr request.srcMid

end CoherenceSim
