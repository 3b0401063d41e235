/-
# The six protocols

`protocols/MI_protocol.cpp` to `protocols/MOESIF_protocol.cpp`: what a line does
on a request of its processor (`doCache*`) and on a message it snoops
(`doSnoop*`), state by state. The order of the calls in a branch is the source's.
-/
import CoherenceSim.Protocol

namespace CoherenceSim

/-! ### MI -/

namespace MI

def doCacheI (me : ModuleID) (request : Mreq) : Action Unit :=
  onProc (sendThenMiss (sendGETM me request.addr) .IM) (sendThenMiss (sendGETM me request.addr) .IM)
    request

def doCacheIM (request : Mreq) : Action Unit :=
  onProc multipleRequestsError multipleRequestsError request

def doCacheM (me : ModuleID) (request : Mreq) : Action Unit :=
  onProc (sendDATAToProc me request.addr) (sendDATAToProc me request.addr) request

def doSnoopI (request : Mreq) : Action Unit :=
  onSnoop (pure ()) (pure ()) (pure ()) request

def doSnoopIM (me : ModuleID) (request : Mreq) : Action Unit :=
  onSnoop (pure ()) (pure ())
    (do
      sendDATAToProc me request.addr
      setState .M
      -- read and not used
      let _ ← getSharedLine)
    request

def doSnoopM (me : ModuleID) (request : Mreq) : Action Unit :=
  onSnoop (do supply me request; setState .I) (do supply me request; setState .I)
    exclusivityViolationError request

def processCacheRequest (me : ModuleID) (request : Mreq) : Action Unit := do
  match (← get).state with
  | .I => doCacheI me request
  | .IM => doCacheIM request
  | .M => doCacheM me request
  | _ => invalidStateError "MI_protocol"

def processSnoopRequest (me : ModuleID) (request : Mreq) : Action Unit := do
  match (← get).state with
  | .I => doSnoopI request
  | .IM => doSnoopIM me request
  | .M => doSnoopM me request
  | _ => invalidStateError "MI_protocol"

end MI

/-! ### MSI

`process_cache_request` calls the snoop functions in `IM` and `IS`: its own
`do_cache_IM` and `do_cache_IS` are called by nothing and left out. -/

namespace MSI

def doCacheI (me : ModuleID) (request : Mreq) : Action Unit :=
  onProc (sendThenMiss (sendGETS me request.addr) .IS) (sendThenMiss (sendGETM me request.addr) .IM)
    request

def doCacheS (me : ModuleID) (request : Mreq) : Action Unit :=
  onProc (sendDATAToProc me request.addr) (sendThenMiss (sendGETM me request.addr) .IM) request

def doCacheM (me : ModuleID) (request : Mreq) : Action Unit :=
  onProc (sendDATAToProc me request.addr) (sendDATAToProc me request.addr) request

def doSnoopI (request : Mreq) : Action Unit :=
  onSnoop (pure ()) (pure ()) (pure ()) request

def doSnoopS (request : Mreq) : Action Unit :=
  onSnoop (pure ()) (setState .I) (pure ()) request

def doSnoopM (me : ModuleID) (request : Mreq) : Action Unit :=
  onSnoop (do supply me request; setState .S) (do supply me request; setState .I) (pure ()) request

def doSnoopIM (me : ModuleID) (request : Mreq) : Action Unit :=
  onSnoop (pure ()) (pure ()) (do sendDATAToProc me request.addr; setState .M) request

def doSnoopIS (me : ModuleID) (request : Mreq) : Action Unit :=
  onSnoop (pure ()) (pure ()) (do sendDATAToProc me request.addr; setState .S) request

def processCacheRequest (me : ModuleID) (request : Mreq) : Action Unit := do
  match (← get).state with
  | .I => doCacheI me request
  | .S => doCacheS me request
  | .M => doCacheM me request
  | .IM => doSnoopIM me request
  | .IS => doSnoopIS me request
  | _ => invalidStateError "MSI_protocol"

def processSnoopRequest (me : ModuleID) (request : Mreq) : Action Unit := do
  match (← get).state with
  | .I => doSnoopI request
  | .S => doSnoopS request
  | .M => doSnoopM me request
  | .IM => doSnoopIM me request
  | .IS => doSnoopIS me request
  | _ => invalidStateError "MSI_protocol"

end MSI

/-! ### MESI -/

namespace MESI

def doCacheI (me : ModuleID) (request : Mreq) : Action Unit :=
  onProc (missThenSend (sendGETS me request.addr) .IS) (missThenSend (sendGETM me request.addr) .IM)
    request

def doCacheS (me : ModuleID) (request : Mreq) : Action Unit :=
  onProc (sendDATAToProc me request.addr) (missThenSend (sendGETM me request.addr) .IM) request

def doCacheE (me : ModuleID) (request : Mreq) : Action Unit :=
  onProc (sendDATAToProc me request.addr)
    (do setState .M; incSilentUpgrades; sendDATAToProc me request.addr) request

def doCacheM (me : ModuleID) (request : Mreq) : Action Unit :=
  onProc (sendDATAToProc me request.addr) (sendDATAToProc me request.addr) request

def doCacheIM (request : Mreq) : Action Unit :=
  onProc multipleRequestsError multipleRequestsError request

def doCacheIS (request : Mreq) : Action Unit := doCacheIM request

def doSnoopI (request : Mreq) : Action Unit :=
  onSnoop (pure ()) (pure ()) (pure ()) request

def doSnoopS (request : Mreq) : Action Unit :=
  onSnoop setSharedLine (setState .I) (pure ()) request

def doSnoopE (me : ModuleID) (request : Mreq) : Action Unit :=
  onSnoop (do setState .S; supply me request) (do setState .I; supply me request)
    invalidRequestError request

def doSnoopM (me : ModuleID) (request : Mreq) : Action Unit :=
  onSnoop (do setState .S; supply me request) (do setState .I; supply me request) (pure ()) request

def doSnoopIM (me : ModuleID) (request : Mreq) : Action Unit :=
  onSnoop (pure ()) (pure ()) (do setState .M; sendDATAToProc me request.addr) request

def doSnoopIS (me : ModuleID) (request : Mreq) : Action Unit :=
  onSnoop (pure ()) (pure ())
    (do
      let shared ← getSharedLine
      setState (if shared then .S else .E)
      sendDATAToProc me request.addr)
    request

def processCacheRequest (me : ModuleID) (request : Mreq) : Action Unit := do
  match (← get).state with
  | .I => doCacheI me request
  | .S => doCacheS me request
  | .E => doCacheE me request
  | .M => doCacheM me request
  | .IM => doCacheIM request
  | .IS => doCacheIS request
  | _ => invalidStateError "MESI_protocol"

def processSnoopRequest (me : ModuleID) (request : Mreq) : Action Unit := do
  match (← get).state with
  | .I => doSnoopI request
  | .S => doSnoopS request
  | .E => doSnoopE me request
  | .M => doSnoopM me request
  | .IM => doSnoopIM me request
  | .IS => doSnoopIS me request
  | _ => invalidStateError "MESI_protocol"

end MESI

/-! ### MOSI -/

namespace MOSI

def doCacheI (me : ModuleID) (request : Mreq) : Action Unit :=
  onProc (sendThenMiss (sendGETS me request.addr) .IS) (sendThenMiss (sendGETM me request.addr) .IM)
    request

def doCacheS (me : ModuleID) (request : Mreq) : Action Unit :=
  onProc (sendDATAToProc me request.addr) (sendThenMiss (sendGETM me request.addr) .IM) request

def doCacheO (me : ModuleID) (request : Mreq) : Action Unit := doCacheS me request

def doCacheM (me : ModuleID) (request : Mreq) : Action Unit :=
  onProc (sendDATAToProc me request.addr) (sendDATAToProc me request.addr) request

def doCacheIM (request : Mreq) : Action Unit :=
  onProc multipleRequestsError multipleRequestsError request

def doCacheIS (request : Mreq) : Action Unit := doCacheIM request

def doSnoopI (request : Mreq) : Action Unit :=
  onSnoop (pure ()) (pure ()) (pure ()) request

def doSnoopS (request : Mreq) : Action Unit :=
  onSnoop (pure ()) (setState .I) (pure ()) request

def doSnoopO (me : ModuleID) (request : Mreq) : Action Unit :=
  onSnoop (supply me request) (do supply me request; setState .I) (pure ()) request

def doSnoopM (me : ModuleID) (request : Mreq) : Action Unit :=
  onSnoop (do supply me request; setState .O) (do supply me request; setState .I) (pure ()) request

def doSnoopIM (me : ModuleID) (request : Mreq) : Action Unit :=
  onSnoop (pure ()) (pure ()) (do sendDATAToProc me request.addr; setState .M) request

def doSnoopIS (me : ModuleID) (request : Mreq) : Action Unit :=
  onSnoop (pure ()) (pure ()) (do sendDATAToProc me request.addr; setState .S) request

def processCacheRequest (me : ModuleID) (request : Mreq) : Action Unit := do
  match (← get).state with
  | .I => doCacheI me request
  | .S => doCacheS me request
  | .O => doCacheO me request
  | .M => doCacheM me request
  | .IM => doCacheIM request
  | .IS => doCacheIS request
  | _ => invalidStateError "MOSI_protocol"

def processSnoopRequest (me : ModuleID) (request : Mreq) : Action Unit := do
  match (← get).state with
  | .I => doSnoopI request
  | .S => doSnoopS request
  | .O => doSnoopO me request
  | .M => doSnoopM me request
  | .IM => doSnoopIM me request
  | .IS => doSnoopIS me request
  | _ => invalidStateError "MOSI_protocol"

end MOSI

/-! ### MOESI -/

namespace MOESI

def doCacheI (me : ModuleID) (request : Mreq) : Action Unit :=
  onProc (missThenSend (sendGETS me request.addr) .IS) (missThenSend (sendGETM me request.addr) .IM)
    request

def doCacheS (me : ModuleID) (request : Mreq) : Action Unit :=
  onProc (sendDATAToProc me request.addr) (missThenSend (sendGETM me request.addr) .IM) request

def doCacheE (me : ModuleID) (request : Mreq) : Action Unit :=
  onProc (sendDATAToProc me request.addr)
    (do setState .M; incSilentUpgrades; sendDATAToProc me request.addr) request

def doCacheO (me : ModuleID) (request : Mreq) : Action Unit := doCacheS me request

def doCacheM (me : ModuleID) (request : Mreq) : Action Unit :=
  onProc (sendDATAToProc me request.addr) (sendDATAToProc me request.addr) request

def doCacheIM (request : Mreq) : Action Unit :=
  onProc multipleRequestsError multipleRequestsError request

def doCacheIS (request : Mreq) : Action Unit := doCacheIM request

def doSnoopI (request : Mreq) : Action Unit :=
  onSnoop (pure ()) (pure ()) (pure ()) request

def doSnoopS (request : Mreq) : Action Unit :=
  onSnoop setSharedLine (setState .I) (pure ()) request

def doSnoopE (me : ModuleID) (request : Mreq) : Action Unit :=
  onSnoop (do setState .S; supply me request) (do setState .I; supply me request)
    invalidRequestError request

def doSnoopO (me : ModuleID) (request : Mreq) : Action Unit :=
  onSnoop (supply me request) (do supply me request; setState .I) (pure ()) request

def doSnoopM (me : ModuleID) (request : Mreq) : Action Unit :=
  onSnoop (do setState .O; supply me request) (do setState .I; supply me request) (pure ()) request

def doSnoopIM (me : ModuleID) (request : Mreq) : Action Unit :=
  onSnoop (pure ()) (pure ()) (do setState .M; sendDATAToProc me request.addr) request

def doSnoopIS (me : ModuleID) (request : Mreq) : Action Unit :=
  onSnoop (pure ()) (pure ())
    (do
      let shared ← getSharedLine
      setState (if shared then .S else .E)
      sendDATAToProc me request.addr)
    request

def processCacheRequest (me : ModuleID) (request : Mreq) : Action Unit := do
  match (← get).state with
  | .I => doCacheI me request
  | .S => doCacheS me request
  | .E => doCacheE me request
  | .O => doCacheO me request
  | .M => doCacheM me request
  | .IM => doCacheIM request
  | .IS => doCacheIS request
  | _ => invalidStateError "MOESI_protocol"

def processSnoopRequest (me : ModuleID) (request : Mreq) : Action Unit := do
  match (← get).state with
  | .I => doSnoopI request
  | .S => doSnoopS request
  | .E => doSnoopE me request
  | .O => doSnoopO me request
  | .M => doSnoopM me request
  | .IM => doSnoopIM me request
  | .IS => doSnoopIS me request
  | _ => invalidStateError "MOESI_protocol"

end MOESI

/-! ### MOESIF -/

namespace MOESIF

def doCacheI (me : ModuleID) (request : Mreq) : Action Unit :=
  onProc (missThenSend (sendGETS me request.addr) .IS) (missThenSend (sendGETM me request.addr) .IM)
    request

def doCacheS (me : ModuleID) (request : Mreq) : Action Unit :=
  onProc (sendDATAToProc me request.addr) (missThenSend (sendGETM me request.addr) .IM) request

def doCacheF (me : ModuleID) (request : Mreq) : Action Unit := doCacheS me request

def doCacheE (me : ModuleID) (request : Mreq) : Action Unit :=
  onProc (sendDATAToProc me request.addr)
    (do setState .M; incSilentUpgrades; sendDATAToProc me request.addr) request

def doCacheO (me : ModuleID) (request : Mreq) : Action Unit := doCacheS me request

def doCacheM (me : ModuleID) (request : Mreq) : Action Unit :=
  onProc (sendDATAToProc me request.addr) (sendDATAToProc me request.addr) request

def doCacheIM (request : Mreq) : Action Unit :=
  onProc multipleRequestsError multipleRequestsError request

def doCacheIS (request : Mreq) : Action Unit := doCacheIM request

def doSnoopF (me : ModuleID) (request : Mreq) : Action Unit :=
  onSnoop (supply me request) (do setState .I; supply me request) invalidRequestError request

def doSnoopI (request : Mreq) : Action Unit :=
  onSnoop (pure ()) (pure ()) (pure ()) request

def doSnoopS (request : Mreq) : Action Unit :=
  onSnoop setSharedLine (setState .I) (pure ()) request

def doSnoopE (me : ModuleID) (request : Mreq) : Action Unit :=
  onSnoop (do setState .F; supply me request) (do setState .I; supply me request)
    invalidRequestError request

def doSnoopO (me : ModuleID) (request : Mreq) : Action Unit :=
  onSnoop (supply me request) (do supply me request; setState .I) (pure ()) request

def doSnoopM (me : ModuleID) (request : Mreq) : Action Unit :=
  onSnoop (do setState .O; supply me request) (do setState .I; supply me request) (pure ()) request

def doSnoopIM (me : ModuleID) (request : Mreq) : Action Unit :=
  onSnoop (pure ()) (pure ()) (do setState .M; sendDATAToProc me request.addr) request

def doSnoopIS (me : ModuleID) (request : Mreq) : Action Unit :=
  onSnoop (pure ()) (pure ())
    (do
      let shared ← getSharedLine
      setState (if shared then .S else .E)
      sendDATAToProc me request.addr)
    request

def processCacheRequest (me : ModuleID) (request : Mreq) : Action Unit := do
  match (← get).state with
  | .F => doCacheF me request
  | .I => doCacheI me request
  | .S => doCacheS me request
  | .E => doCacheE me request
  | .O => doCacheO me request
  | .M => doCacheM me request
  | .IM => doCacheIM request
  | .IS => doCacheIS request

def processSnoopRequest (me : ModuleID) (request : Mreq) : Action Unit := do
  match (← get).state with
  | .F => doSnoopF me request
  | .I => doSnoopI request
  | .S => doSnoopS request
  | .E => doSnoopE me request
  | .O => doSnoopO me request
  | .M => doSnoopM me request
  | .IM => doSnoopIM me request
  | .IS => doSnoopIS me request

end MOESIF

/-! ### The object of a line

The constructor of `Hash_entry` builds the object of the protocol of its table;
a call of its virtual functions is a call of that protocol's. -/

def processCacheRequest : Protocol → ModuleID → Mreq → Action Unit
  | .MI_PRO => MI.processCacheRequest
  | .MSI_PRO => MSI.processCacheRequest
  | .MESI_PRO => MESI.processCacheRequest
  | .MOESI_PRO => MOESI.processCacheRequest
  | .MOSI_PRO => MOSI.processCacheRequest
  | .MOESIF_PRO => MOESIF.processCacheRequest

def processSnoopRequest : Protocol → ModuleID → Mreq → Action Unit
  | .MI_PRO => MI.processSnoopRequest
  | .MSI_PRO => MSI.processSnoopRequest
  | .MESI_PRO => MESI.processSnoopRequest
  | .MOESI_PRO => MOESI.processSnoopRequest
  | .MOSI_PRO => MOSI.processSnoopRequest
  | .MOESIF_PRO => MOESIF.processSnoopRequest

end CoherenceSim
