/-
# Messages and the bus

`protocols/messages.h`, `sim/module.h`, `sim/mreq.cpp` and `sim/bus.cpp`: the
messages the modules exchange and the one bus they exchange them on. The bus
runs one transaction at a time: it takes a request out of its FIFO queue, keeps
it on the wires for one cycle and then waits for the DATA that answers it.

An address is a 64-bit word; the clock is taken unbounded. Of a message only
the fields some function reads are kept.
-/
import Mathlib.Tactic

namespace CoherenceSim

abbrev Paddr := BitVec 64

inductive Message
  | NOP | LOAD | STORE | GETS | GETM | DATA | MREQ_INVALID
deriving DecidableEq, Repr

/-- The kinds of module of a node. -/
inductive ModuleIndex
  | NI_M | PR_M | L1_M | L2_M | L3_M | MC_M | INVALID_M
deriving DecidableEq, Repr

structure ModuleID where
  nodeID : ℤ
  moduleIndex : ModuleIndex
deriving DecidableEq, Repr

/-- `(ModuleID){-1, INVALID_M}` -/
def ModuleID.invalid : ModuleID := ⟨-1, .INVALID_M⟩

structure Mreq where
  msg : Message
  addr : Paddr
  srcMid : ModuleID
  destMid : ModuleID
deriving DecidableEq, Repr

/-- `settings.cache_line_size_log2`, which `set_defaults` sets for 64-byte lines. -/
def cacheLineSizeLog2 : ℕ := 6

/-- The mask `(~0x0) << settings.cache_line_size_log2`: an `int`, widened with
its sign to the width of an address. -/
def lineMask : Paddr := ((~~~(0 : BitVec 32)) <<< cacheLineSizeLog2).signExtend 64

theorem getLsbD_lineMask (k : ℕ) (hk : k < 64) : lineMask.getLsbD k = decide (6 ≤ k) := by
  revert k
  decide

/-- The address of the line that holds `addr`. -/
def lineOf (addr : Paddr) : Paddr := addr &&& lineMask

@[simp] theorem lineOf_lineOf (addr : Paddr) : lineOf (lineOf addr) = lineOf addr := by
  simp [lineOf, BitVec.and_assoc]

/-- The constructor of `Mreq`: a message is about a whole line. -/
def Mreq.new (msg : Message) (addr : Paddr) (srcMid : ModuleID := .invalid)
    (destMid : ModuleID := .invalid) : Mreq :=
  ⟨msg, lineOf addr, srcMid, destMid⟩

/-- What ends a run: an `assert` that fails, with its text, or `fatal_error`. -/
inductive Fatal
  | assertion (text : String)
  | fatalError (text : String)
deriving DecidableEq, Repr

structure Bus where
  currentRequest : Option Mreq
  pendingRequests : List Mreq
  dataReply : Option Mreq
  requestInProgress : Bool
  sharedLine : Bool
deriving DecidableEq, Repr

namespace Bus

/-- `Bus::Bus` -/
def new : Bus := ⟨none, [], none, false, false⟩

def tick (bus : Bus) : Bus :=
  if bus.requestInProgress then
    match bus.dataReply with
    | some data => { bus with currentRequest := some data, dataReply := none, requestInProgress := false }
    | none => { bus with currentRequest := none }
  else
    match bus.pendingRequests with
    | request :: rest =>
      { bus with sharedLine := false, currentRequest := some request, pendingRequests := rest,
                 requestInProgress := true }
    | [] => { bus with currentRequest := none }

def busRequest (bus : Bus) (request : Mreq) : Except Fatal Bus :=
  if request.msg = .DATA then
    if bus.dataReply.isSome then .error (.assertion "data_reply == NULL")
    else .ok { bus with dataReply := some request }
  else .ok { bus with pendingRequests := bus.pendingRequests ++ [request] }

/-- A snooper reads a copy of the message on the wires. -/
def busSnoop (bus : Bus) : Option Mreq := bus.currentRequest

end Bus

end CoherenceSim
