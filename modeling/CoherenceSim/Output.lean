/-
# What a run prints while it is going on

The ticks of `Sim.lean` with the messages they print, each in its place among the others:
`Processor::tick` of a completion and of a fetch, `Hash_table::tick` of what it looks at,
`send_DATA_on_bus` where it puts DATA into `data_reply`, `Memory_controller::tick` when the
data is there. `does_run`: they do what the ticks that print nothing do. `cycle_prints`: what a
cycle prints, read off the state at its start.
-/
import CoherenceSim.Lib.Printing
import CoherenceSim.Results
import CoherenceSim.Termination

namespace CoherenceSim

open Features Printing

variable {n : ℕ} {F : Type}

/-- Code of the simulator, with its log. What is printed in front of a fatal error is left out. -/
abbrev Logged := Printer LogMessage Fatal

/-! ### The messages -/

namespace Simulator

variable (s : Simulator n F) (i : Fin n)

/-- `** PROC REQUEST --`, of `Hash_table::tick` -/
def procLines : List LogMessage :=
  match (s.Nd i).L1.procRequest with
  | some request => [.procRequest (L1id i) request s.globalClock]
  | none => []

/-- `*** SNOOP REQUEST --`; DATA for another cache is not looked at. -/
def snoopLines : List LogMessage :=
  match s.bus.busSnoop with
  | some request =>
    if request.msg = .DATA ∧ request.destMid ≠ L1id i then []
    else [.snoopRequest (L1id i) request s.globalClock]
  | none => []

/-- `**** DATA_SEND`: `send_DATA_on_bus` prints a line and puts DATA into `data_reply`, which
must be empty. -/
def sendLines (t : Simulator n F) : List LogMessage :=
  if s.bus.dataReply = none ∧ t.bus.dataReply ≠ none then [.dataSend i s.globalClock] else []

end Simulator

/-- `* COMPLETE --`, of `Processor::tick` -/
def Processor.completeLines (pr : Processor F) (i : Fin n) (clock : ℕ) : List LogMessage :=
  if pr.inboundRequest.isSome then [.complete i clock] else []

/-- `* FETCH --`. With another operation the run ends there. -/
def Processor.fetchLines [Infile F] (pr : Processor F) (i : Fin n) (clock : ℕ) : List LogMessage :=
  if pr.endOfTrace || pr.outstandingRequest then []
  else
    match (Infile.fscanf pr.infile).1 with
    | some (c, addr) => if h : c = 'r' ∨ c = 'w' then [.fetch i clock c h addr] else []
    | none => []

/-! ### The ticks -/

namespace Logged

open Simulator

variable (S : Settings)

/-- `Hash_table::tick` -/
def tickCache (s : Simulator n F) (i : Fin n) : Logged (Simulator n F) := do
  print (s.procLines i)
  let t ← liftM (s.tickProcRequest S i)
  print (s.sendLines i t)
  print (t.snoopLines i)
  let u ← liftM (t.tickSnoop S i)
  print (t.sendLines i u)
  return u

/-- `Processor::tick` -/
def tickPr [Infile F] (s : Simulator n F) (i : Fin n) : Logged (Simulator n F) := do
  print ((s.Nd i).PR.completeLines i s.globalClock)
  let pr ← liftM (s.Nd i).PR.complete
  print (pr.fetchLines i s.globalClock)
  let nd ← liftM (Node.fetch { s.Nd i with PR := pr } i)
  return s.setNode i nd

/-- `Memory_controller::tick` -/
def tickMc (s : Simulator n F) : Logged (Simulator n F) := do
  let mc ← liftM (s.MC.snoop S s.globalClock s.bus.busSnoop)
  if mc.requestInProgress ∧ mc.dataTime ≤ s.globalClock then
    print [.dataSendMc s.globalClock]
    let bus ← liftM (s.bus.busRequest (.new .DATA mc.dataAddr (MCid n) mc.dataTarget))
    return { s with MC := { mc with requestInProgress := false }, bus := bus }
  else return { s with MC := mc }

/-- The body of the loop of `Simulator::run`. -/
def cycle [Infile F] (s : Simulator n F) : Logged (Simulator n F) := do
  let s ← (List.finRange n).foldlM (tickCache S) s.tickBus
  let s ← (List.finRange n).foldlM tickPr s
  let s ← tickMc S s
  let s := s.tockPrs (List.finRange n)
  return { s with globalClock := s.globalClock + 1 }

/-- `Simulator::run`, for at most so many cycles. -/
def run [Infile F] : ℕ → Simulator n F → Logged (Option (Simulator n F))
  | 0, _ => return none
  | fuel + 1, s => do
    let s ← cycle S s
    if s.done then return some s else run fuel s

/-! ### They do what the others do -/

theorem does_tickCache (s : Simulator n F) (i : Fin n) : Does (tickCache S s i) (s.tickCache S i) :=
  .print_bind _ ((Does.lift _).bind fun _ => .print_bind _ (.print_bind _
    ((Does.lift _).tail fun u => .print_bind _ (.pure u))))

theorem does_tickPr [Infile F] (s : Simulator n F) (i : Fin n) : Does (tickPr s i) (s.tickPr i) :=
  .print_bind _ ((Does.lift _).bind fun _ => .print_bind _ ((Does.lift _).bind fun _ => .pure _))

theorem does_tickMc (s : Simulator n F) : Does (tickMc S s) (s.tickMc S) := by
  refine (Does.lift _).bind fun mc => ?_
  split
  · exact .print_bind _ ((Does.lift _).bind fun _ => .pure _)
  · exact .pure _

theorem does_cycle [Infile F] (s : Simulator n F) : Does (cycle S s) (s.cycle S) :=
  (Does.foldlM (does_tickCache S) _ _).bind fun _ => (Does.foldlM does_tickPr _ _).bind fun _ =>
    (does_tickMc S _).bind fun _ => .pure _

/-- **The messages change nothing**: with them the loop does what it does without. -/
theorem does_run [Infile F] (fuel : ℕ) (s : Simulator n F) : Does (run S fuel s) (s.run S fuel) := by
  induction fuel generalizing s with
  | zero => exact .pure none
  | succ fuel ih =>
    refine (does_cycle S s).bind fun t => ?_
    split
    · exact .pure _
    · exact ih t

end Logged

/-! ### What a cycle prints -/

namespace Simulator

variable (S : Settings)

/-- The line of the DATA cache `i` sends, after the tick of the bus. -/
def replyLines (s : Simulator n F) (i : Fin n) : List LogMessage :=
  if (((s.Nd i).procTick S.protocol.features i).reply i s.bus.currentRequest).isSome
  then [.dataSend i s.globalClock] else []

/-- What cache `i` prints then. -/
def cacheLines (s : Simulator n F) (i : Fin n) : List LogMessage :=
  s.procLines i ++ (s.snoopLines i ++ s.replyLines S i)

/-- What processor `i` prints. -/
def prLines (s : Simulator n Trace) (i : Fin n) : List LogMessage :=
  (s.Nd i).PR.completeLines i s.globalClock ++ (s.Nd i).complete.PR.fetchLines i s.globalClock

/-- What the memory controller prints, after the tick of the bus. -/
def mcLines (s : Simulator n Trace) : List LogMessage :=
  if (s.seen S).fires s.globalClock then [.dataSendMc s.globalClock] else []

/-- What a cycle prints. -/
def cycleLines (s : Simulator n Trace) : List LogMessage :=
  (List.finRange n).flatMap (s.tickBus.cacheLines S) ++ ((List.finRange n).flatMap s.prLines ++
    s.tickBus.mcLines S)

end Simulator

namespace Logged

open Simulator

variable (S : Settings)

/-- Who answers finds no answer there. -/
theorem dataReply_eq_none {s : Simulator n F} (h : s.Ready S) {i : Fin n}
    (hr : (((s.Nd i).procTick S.protocol.features i).reply i s.bus.currentRequest).isSome) :
    s.bus.dataReply = none := by
  unfold Node.reply at hr
  cases hm : s.bus.currentRequest with
  | none => simp [hm] at hr
  | some m =>
    simp only [hm] at hr
    split at hr
    · next hs => exact ((h.snoop i m hm).1 hs.1).2.2 hs.2
    · cases hr

/-- **`data_reply` is filled by the cache that answers** and by no other. -/
theorem sendLines_sync {s : Simulator n F} (h : s.Ready S) {l : List (Fin n)} {i : Fin n} (hi : i ∉ l) :
    ((s.sync S l).afterProc S i).sendLines i (s.sync S (l ++ [i])) = s.replyLines S i := by
  have hbefore : ((s.sync S l).afterProc S i).bus.dataReply = (l.findSome? fun j =>
      ((s.Nd j).procTick S.protocol.features j).reply j s.bus.currentRequest).or s.bus.dataReply := rfl
  have hafter : (s.sync S (l ++ [i])).bus.dataReply = ((l ++ [i]).findSome? fun j =>
      ((s.Nd j).procTick S.protocol.features j).reply j s.bus.currentRequest).or s.bus.dataReply := rfl
  unfold sendLines replyLines
  rw [hbefore, hafter, List.findSome?_append, List.findSome?_singleton]
  cases hr : ((s.Nd i).procTick S.protocol.features i).reply i s.bus.currentRequest with
  | none =>
    rw [Option.or_none, if_neg fun hboth => hboth.2 hboth.1]
    rfl
  | some d =>
    have hsome : (((s.Nd i).procTick S.protocol.features i).reply i s.bus.currentRequest).isSome := by
      rw [hr]; rfl
    rw [h.alone S hi hsome, dataReply_eq_none S h hsome]
    rfl

/-- The tick of one cache more. -/
theorem tickCache_prints {s : Simulator n F} (h : s.Ready S) {l : List (Fin n)} {i : Fin n} (hi : i ∉ l) :
    Prints (tickCache S (s.sync S l) i) (s.cacheLines S i) (s.sync S (l ++ [i])) := by
  have hnd := sync_Nd S s hi
  have hproc : (s.sync S l).procLines i = s.procLines i := by
    unfold procLines
    rw [hnd]
    rfl
  have hquiet : (s.sync S l).sendLines i ((s.sync S l).afterProc S i) = [] := by
    exact if_neg fun hboth => hboth.2 hboth.1
  have hall : Prints (tickCache S (s.sync S l) i) ((s.sync S l).procLines i ++ ([] ++
      ((s.sync S l).sendLines i ((s.sync S l).afterProc S i) ++ (((s.sync S l).afterProc S i).snoopLines i ++
        ([] ++ (((s.sync S l).afterProc S i).sendLines i (s.sync S (l ++ [i])) ++ []))))))
      (s.sync S (l ++ [i])) :=
    (Prints.print _).bind ((Prints.lift (tickProcRequest_sync S h hi)).bind ((Prints.print _).bind
      ((Prints.print _).bind ((Prints.lift (tickSnoop_sync S h hi)).bind
        ((Prints.print _).bind (.pure _))))))
  rw [hproc, hquiet, sendLines_sync S h hi, List.append_nil] at hall
  exact hall

theorem tickPr_prints {s : Simulator n Trace} {i : Fin n} (h : (s.Nd i).PrReady) :
    Prints (tickPr s i) (s.prLines i) (s.setNode i ((s.Nd i).prTick i)) := by
  have hnd : ({ s.Nd i with PR := (s.Nd i).complete.PR } : Node Trace) = (s.Nd i).complete := by
    unfold Node.complete
    split <;> rfl
  have hfetch : Node.fetch { s.Nd i with PR := (s.Nd i).complete.PR } i = .ok ((s.Nd i).prTick i) := by
    rw [hnd]
    unfold Node.prTick
    cases hs : ((s.Nd i).complete.PR.endOfTrace || (s.Nd i).complete.PR.outstandingRequest) with
    | true =>
      rw [Node.fetch, hs]
      rfl
    | false => exact Node.fetch_eq (by rw [Node.complete_infile]; exact h.2) hs
  have hall : Prints (tickPr s i) ((s.Nd i).PR.completeLines i s.globalClock ++ ([] ++
      ((s.Nd i).complete.PR.fetchLines i s.globalClock ++ ([] ++ []))))
      (s.setNode i ((s.Nd i).prTick i)) :=
    (Prints.print _).bind ((Prints.lift (Node.complete_eq h)).bind ((Prints.print _).bind
      ((Prints.lift hfetch).bind (.pure _))))
  rwa [List.append_nil, List.append_nil] at hall

theorem tickMc_prints {s : Simulator n Trace} (h : s.McReady S) :
    Prints (tickMc S s) (s.mcLines S) (s.memory S) := by
  have hbus : (s.seen S).fires s.globalClock → s.bus.busRequest (.new .DATA (s.seen S).dataAddr (MCid n)
      (s.seen S).dataTarget) = .ok { s.bus with dataReply := some ((s.seen S).answer n) } := by
    intro hf
    simp only [Bus.busRequest, Mreq.new, h.2 hf]
    rfl
  rw [← List.nil_append (s.mcLines S)]
  refine (Prints.lift (MemoryController.snoop_eq S _ _ _ h.1)).bind ?_
  unfold mcLines memory
  by_cases hf : (s.seen S).fires s.globalClock
  · rw [if_pos hf, if_pos hf]
    show Prints (if (s.seen S).fires s.globalClock then _ else _) _ _
    rw [if_pos hf]
    exact (Prints.print _).bind ((Prints.lift (hbus hf)).bind (.pure _))
  · rw [if_neg hf, if_neg hf]
    show Prints (if (s.seen S).fires s.globalClock then _ else _) _ _
    rw [if_neg hf]
    exact .pure _

theorem complete_PR {nd nd' : Node Trace} {b : Option Mreq}
    (h : nd'.PR = { nd.PR with inboundRequestBuf := b }) :
    nd'.complete.PR = { nd.complete.PR with inboundRequestBuf := b } := by
  obtain ⟨L1, PR⟩ := nd'
  subst h
  unfold Node.complete
  cases hb : nd.PR.inboundRequest <;> simp [hb]

/-- A cache does not change what its processor prints. -/
theorem prLines_afterCaches (s : Simulator n Trace) : (s.afterCaches S).prLines = s.prLines := by
  funext i
  have hnd : (s.afterCaches S).Nd i = (s.Nd i).cacheTick S.protocol.features i
      s.tickBus.bus.currentRequest s.tickBus.bus.sharedLine := if_pos (List.mem_finRange i)
  obtain ⟨b, hb⟩ := (s.Nd i).PR_cacheTick S.protocol.features i s.tickBus.bus.currentRequest
    s.tickBus.bus.sharedLine
  unfold prLines
  rw [complete_PR (hnd ▸ hb), hnd, hb]
  rfl

/-- What the processors of `l` print, and the state they leave. -/
theorem tickPrs_prints {s : Simulator n Trace} (h : ∀ i, (s.Nd i).PrReady) {l : List (Fin n)} (hl : l.Nodup) :
    Prints (l.foldlM tickPr s) (l.flatMap s.prLines)
      { s with Nd := fun i => if i ∈ l then (s.Nd i).prTick i else s.Nd i } := by
  refine Prints.foldlM_closed (f := tickPr) (s := s)
    (fun l => { s with Nd := fun i => if i ∈ l then (s.Nd i).prTick i else s.Nd i }) s.prLines (by simp)
    (fun l i hn => ?_) l hl
  have hi := Loop.notMem_of_nodup hn
  set t : Simulator n Trace := { s with Nd := fun i => if i ∈ l then (s.Nd i).prTick i else s.Nd i } with ht
  have hnd : t.Nd i = s.Nd i := if_neg hi
  have hlines : t.prLines i = s.prLines i := by
    unfold prLines
    rw [hnd]
  have hstate : t.setNode i ((t.Nd i).prTick i) =
      { s with Nd := fun j => if j ∈ l ++ [i] then (s.Nd j).prTick j else s.Nd j } := by
    refine Simulator.ext rfl rfl ?_ rfl rfl
    funext j
    rw [hnd]
    by_cases hj : j = i <;> simp [hj, ht]
  rw [← hlines, ← hstate]
  exact tickPr_prints (by rw [hnd]; exact h i)

/-- **What a cycle prints**, when no tick of it meets an error. -/
theorem cycle_prints {s : Simulator n Trace} (hc : s.tickBus.Ready S)
    (hp : ∀ i, ((s.afterCaches S).Nd i).PrReady) (hm : (s.afterCaches S).McReady S) :
    Prints (cycle S s) (s.cycleLines S) (s.next S) := by
  have hcaches : Prints ((List.finRange n).foldlM (tickCache S) s.tickBus)
      ((List.finRange n).flatMap (s.tickBus.cacheLines S)) (s.afterCaches S) :=
    Prints.foldlM_closed (fun l => s.tickBus.sync S l) (s.tickBus.cacheLines S) (by simp [sync])
      (fun l i hn => tickCache_prints S hc (Loop.notMem_of_nodup hn)) _ (List.nodup_finRange n)
  have hprs := tickPrs_prints hp (List.nodup_finRange n)
  rw [prLines_afterCaches] at hprs
  simp only [List.mem_finRange, if_true] at hprs
  set t : Simulator n Trace :=
    { s.afterCaches S with Nd := fun i => ((s.afterCaches S).Nd i).prTick i } with ht
  have hmc : Prints (tickMc S t) (s.tickBus.mcLines S) (t.memory S) :=
    tickMc_prints S (show t.McReady S from hm)
  unfold cycleLines
  refine hcaches.bind (hprs.bind ?_)
  rw [← List.append_nil (s.tickBus.mcLines S)]
  refine hmc.bind ?_
  rw [tockPrs_eq]
  exact .pure _

end Logged

/-! ### What a run prints -/

namespace Run

variable {x : Input n} (r : Run x)

/-- What is printed in the `d` cycles from cycle `c` on. -/
def log (c d : ℕ) : List LogMessage :=
  (List.range' c d).flatMap fun c => (r.state c).cycleLines x.settings

theorem log_succ (c d : ℕ) : r.log c (d + 1) = (r.state c).cycleLines x.settings ++ r.log (c + 1) d := by
  rw [log, List.range'_succ, List.flatMap_cons]
  rfl

theorem cycle_prints (c : ℕ) :
    Prints (Logged.cycle x.settings (r.state c)) ((r.state c).cycleLines x.settings) (r.state (c + 1)) := by
  have h := r.inv c
  rw [r.next]
  exact Logged.cycle_prints x.settings h.ready h.prReady h.mcReady

/-- **The log of a run that ends** is what its cycles print. -/
theorem run_prints {R : ℕ} (h : r.Ends R) {fuel : ℕ} (hle : R ≤ fuel) :
    Prints (Logged.run x.settings fuel (Simulator.init x.traces)) (r.log 0 R) (some (r.state R)) := by
  suffices hsuf : ∀ fuel c, c < R → R ≤ c + fuel →
      Prints (Logged.run x.settings fuel (r.state c)) (r.log c (R - c)) (some (r.state R)) by
    have hall := hsuf fuel 0 h.pos (by omega)
    rwa [r.start, Nat.sub_zero] at hall
  intro fuel
  induction fuel with
  | zero => omega
  | succ fuel ih =>
    intro c hc hle
    rw [show R - c = R - (c + 1) + 1 by omega, log_succ]
    refine (r.cycle_prints c).bind ?_
    by_cases hR : c + 1 = R
    · subst hR
      rw [h.done, if_pos rfl, Nat.sub_self]
      exact .pure _
    · rw [h.first (c + 1) (by omega) (by omega), if_neg Bool.false_ne_true]
      exact ih (c + 1) (by omega) (by omega)

end Run

end CoherenceSim
