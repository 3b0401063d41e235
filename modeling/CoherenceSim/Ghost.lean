/-
# A run with values

The simulator moves no data. Here every copy of a line and the memory have a value
(`Ghost`), and a run is observed: after each half of the tick of a cache and after the
tick of the memory controller the change of the state says which DATA was sent or
taken and which access performed (`Ghost.seeProc`, `Ghost.seeSnoop`, `Ghost.seeMc`).
`ghostCycle_fst`: the observation changes nothing in the run.
-/
import CoherenceSim.Lib.SharedMemory
import CoherenceSim.Transaction

namespace CoherenceSim

open Features

variable {n : ℕ}

/-- The values, and the accesses performed so far. A value is a number, 0 before the
first store. -/
structure Ghost (n : ℕ) where
  /-- the value of the copy in each cache -/
  copy : Fin n → Paddr → ℕ
  memory : Paddr → ℕ
  /-- the value of the DATA in `data_reply` -/
  reply : ℕ
  /-- the value of the DATA on the bus -/
  wire : ℕ
  log : List (SharedMemory.Access (Fin n) Paddr ℕ)

namespace Ghost

def start (n : ℕ) : Ghost n := ⟨fun _ _ => 0, fun _ => 0, 0, 0, []⟩

/-- The copy of `a` in cache `i` gets the value `v`. -/
def setCopy (g : Ghost n) (i : Fin n) (a : Paddr) (v : ℕ) : Ghost n :=
  { g with copy := fun j b => if j = i ∧ b = a then v else g.copy j b }

/-- An access of node `i` to the line performs: a store writes a value that has not been
written before to the copy, a load reads the copy. -/
def perform (g : Ghost n) (i : Fin n) (op : Message) (a : Paddr) : Ghost n :=
  let v := if op = .STORE then g.log.length + 1 else g.copy i a
  { g.setCopy i a v with log := g.log ++ [⟨i, op = .STORE, a, v⟩] }

/-- Cache `i` has handed DATA to its processor between `s` and `t`: the current access
of the node performs. -/
def seeProc (x : Input n) (i : Fin n) (s t : Simulator n Trace) (g : Ghost n) : Ghost n :=
  match (s.Nd i).PR.inboundRequestBuf, (t.Nd i).PR.inboundRequestBuf, x.current s i with
  | none, some d, some l => g.perform i (opOf l.1) d.addr
  | _, _, _ => g

/-- DATA of cache `i` in `data_reply` has the value of its copy. -/
def seeReply (i : Fin n) (s t : Simulator n Trace) (g : Ghost n) : Ghost n :=
  match s.bus.dataReply, t.bus.dataReply with
  | none, some d => { g with reply := g.copy i d.addr }
  | _, _ => g

/-- DATA that cache `i` takes off the bus overwrites its copy. -/
def seeFill (i : Fin n) (s t : Simulator n Trace) (g : Ghost n) : Ghost n :=
  match (s.Nd i).PR.inboundRequestBuf, (t.Nd i).PR.inboundRequestBuf with
  | none, some d => g.setCopy i d.addr g.wire
  | _, _ => g

/-- The second half of the tick of cache `i`. -/
def seeSnoop (x : Input n) (i : Fin n) (s t : Simulator n Trace) (g : Ghost n) : Ghost n :=
  ((g.seeReply i s t).seeFill i s t).seeProc x i s t

/-- `Bus::tick`: DATA goes from `data_reply` to the bus. -/
def seeBus (t : Simulator n Trace) (g : Ghost n) : Ghost n :=
  match t.bus.currentRequest with
  | some d => if d.msg = .DATA then { g with wire := g.reply } else g
  | none => g

/-- The memory takes over the DATA of a cache that it snoops. -/
def seeWriteBack (s : Simulator n Trace) (g : Ghost n) : Ghost n :=
  match s.bus.busSnoop with
  | some d => if d.msg = .DATA ∧ d.srcMid ≠ MCid n then
      { g with memory := fun a => if a = d.addr then g.wire else g.memory a } else g
  | none => g

/-- And DATA of its own has the value of the memory. -/
def seeMemory (s t : Simulator n Trace) (g : Ghost n) : Ghost n :=
  match s.bus.dataReply, t.bus.dataReply with
  | none, some d => { g with reply := g.memory d.addr }
  | _, _ => g

/-- The tick of the memory controller. -/
def seeMc (s t : Simulator n Trace) (g : Ghost n) : Ghost n := (g.seeWriteBack s).seeMemory s t

/-! What stays as it is. -/

variable (g : Ghost n) {s t : Simulator n Trace}

theorem seeBus_same (t : Simulator n Trace) : (g.seeBus t).copy = g.copy ∧
    (g.seeBus t).memory = g.memory ∧ (g.seeBus t).log = g.log := by
  unfold seeBus
  split
  · split <;> exact ⟨rfl, rfl, rfl⟩
  · exact ⟨rfl, rfl, rfl⟩

theorem seeWriteBack_same (s : Simulator n Trace) : (g.seeWriteBack s).copy = g.copy ∧
    (g.seeWriteBack s).reply = g.reply ∧ (g.seeWriteBack s).log = g.log := by
  unfold seeWriteBack
  split
  · split <;> exact ⟨rfl, rfl, rfl⟩
  · exact ⟨rfl, rfl, rfl⟩

theorem seeReply_same {i : Fin n} (h : t.bus.dataReply = s.bus.dataReply) : g.seeReply i s t = g := by
  unfold seeReply
  rw [h]
  cases s.bus.dataReply <;> rfl

theorem seeMemory_same (h : t.bus.dataReply = s.bus.dataReply) : g.seeMemory s t = g := by
  unfold seeMemory
  rw [h]
  cases s.bus.dataReply <;> rfl

theorem seeMemory_some {d : Mreq} (hs : s.bus.dataReply = none) (ht : t.bus.dataReply = some d) :
    g.seeMemory s t = { g with reply := g.memory d.addr } := by
  unfold seeMemory
  rw [hs, ht]

theorem seeMc_log (s t : Simulator n Trace) : (g.seeMc s t).log = g.log := by
  rw [← (g.seeWriteBack_same s).2.2]
  unfold seeMc seeMemory
  split <;> rfl

end Ghost

/-! ### The observed cycle -/

/-- The tick of cache `i`, observed. -/
def ghostCache (x : Input n) (w : Simulator n Trace × Ghost n) (i : Fin n) :
    Except Fatal (Simulator n Trace × Ghost n) := do
  let t ← w.1.tickProcRequest x.settings i
  let u ← t.tickSnoop x.settings i
  return (u, (w.2.seeProc x i w.1 t).seeSnoop x i t u)

/-- A cycle, observed. -/
def ghostCycle (x : Input n) (w : Simulator n Trace × Ghost n) :
    Except Fatal (Simulator n Trace × Ghost n) := do
  let s := w.1.tickBus
  let w ← (List.finRange n).foldlM (ghostCache x) (s, w.2.seeBus s)
  let s ← w.1.tickPrs (List.finRange n)
  let t ← s.tickMc x.settings
  let u := t.tockPrs (List.finRange n)
  return ({ u with globalClock := u.globalClock + 1 }, w.2.seeMc s t)

theorem ghostCache_fst (x : Input n) (w : Simulator n Trace × Ghost n) (i : Fin n) :
    (ghostCache x w i).map (·.1) = w.1.tickCache x.settings i := by
  unfold ghostCache Simulator.tickCache
  cases w.1.tickProcRequest x.settings i with
  | error e => rfl
  | ok t =>
    show Except.map _ ((t.tickSnoop x.settings i).bind _) = t.tickSnoop x.settings i
    cases t.tickSnoop x.settings i <;> rfl

theorem ghostCaches_fst (x : Input n) (l : List (Fin n)) (w : Simulator n Trace × Ghost n) :
    (l.foldlM (ghostCache x) w).map (·.1) = w.1.tickCaches x.settings l := by
  induction l generalizing w with
  | nil => rfl
  | cons i l ih =>
    rw [List.foldlM_cons, Simulator.tickCaches, List.foldlM_cons, ← ghostCache_fst x w i]
    cases ghostCache x w i with
    | error e => rfl
    | ok w' => exact ih w'

/-- **The observation changes nothing in the run.** -/
theorem ghostCycle_fst (x : Input n) (w : Simulator n Trace × Ghost n) :
    (ghostCycle x w).map (·.1) = w.1.cycle x.settings := by
  unfold ghostCycle Simulator.cycle
  have hcaches := ghostCaches_fst x (List.finRange n) (w.1.tickBus, w.2.seeBus w.1.tickBus)
  rw [show w.1.tickBus.tickCaches x.settings (List.finRange n) = _ from hcaches.symm]
  show Except.map _ (((List.finRange n).foldlM (ghostCache x)
    (w.1.tickBus, w.2.seeBus w.1.tickBus)).bind _) = _
  cases (List.finRange n).foldlM (ghostCache x) (w.1.tickBus, w.2.seeBus w.1.tickBus) with
  | error e => rfl
  | ok w' =>
    show Except.map _ ((w'.1.tickPrs _).bind _) = (w'.1.tickPrs _).bind _
    cases w'.1.tickPrs (List.finRange n) with
    | error e => rfl
    | ok s =>
      show Except.map _ ((s.tickMc _).bind _) = (s.tickMc _).bind _
      cases s.tickMc x.settings <;> rfl

end CoherenceSim
