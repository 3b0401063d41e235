/-
# Only the lines of the addresses matter

`only_lines_matter`: two inputs whose traces differ in the offsets of the addresses and
in an injective renaming of the lines have runs in lockstep, with the same counters.

A renaming of the lines is taken to one of all addresses that keeps the offsets
(`AddrRenaming`), so that everything a cycle does commutes with it.
-/
import CoherenceSim.Termination

namespace CoherenceSim

open Features

variable {n : ℕ} {F : Type}

/-! ### Lines and offsets -/

/-- The number of the 64-byte line of an address. -/
def lineNumber (a : Paddr) : BitVec 58 := a.extractLsb' 6 58

/-- The offset in the line. -/
def lineOffset (a : Paddr) : BitVec 6 := a.extractLsb' 0 6

theorem addr_ext {a b : Paddr} (hn : lineNumber a = lineNumber b) (ho : lineOffset a = lineOffset b) :
    a = b := by
  apply BitVec.eq_of_getLsbD_eq
  intro k hk
  by_cases h : k < 6
  · have hbit := congrArg (BitVec.getLsbD · k) ho
    simpa [lineOffset, h] using hbit
  · have hbit := congrArg (BitVec.getLsbD · (k - 6)) hn
    have hlt : k - 6 < 58 := by omega
    simpa [lineNumber, hlt, show 6 + (k - 6) = k by omega] using hbit

@[simp] theorem lineNumber_lineOf (a : Paddr) : lineNumber (lineOf a) = lineNumber a := by
  apply BitVec.eq_of_getLsbD_eq
  intro k hk
  simp [lineNumber, lineOf, hk, getLsbD_lineMask (6 + k) (by omega)]

@[simp] theorem lineOffset_lineOf (a : Paddr) : lineOffset (lineOf a) = 0 := by
  apply BitVec.eq_of_getLsbD_eq
  intro k hk
  simp [lineOffset, lineOf, hk, getLsbD_lineMask k (by omega), show ¬ 6 ≤ k by omega]

/-- The address with the given line and offset. -/
def addrOf (k : BitVec 58) (o : BitVec 6) : Paddr := k ++ o

theorem getLsbD_addrOf (k : BitVec 58) (o : BitVec 6) (b : ℕ) :
    (addrOf k o).getLsbD b = if b < 6 then o.getLsbD b else k.getLsbD (b - 6) :=
  BitVec.getLsbD_append

@[simp] theorem lineNumber_addrOf (k : BitVec 58) (o : BitVec 6) : lineNumber (addrOf k o) = k := by
  apply BitVec.eq_of_getLsbD_eq
  intro b hb
  simp [lineNumber, getLsbD_addrOf, hb]

@[simp] theorem lineOffset_addrOf (k : BitVec 58) (o : BitVec 6) : lineOffset (addrOf k o) = o := by
  apply BitVec.eq_of_getLsbD_eq
  intro b hb
  simp [lineOffset, getLsbD_addrOf, hb]

/-! ### Renamings -/

/-- An injective renaming of the addresses that takes lines to lines. -/
structure AddrRenaming where
  toFun : Paddr → Paddr
  injective : Function.Injective toFun
  lineOf_toFun : ∀ a, lineOf (toFun a) = toFun (lineOf a)

instance : CoeFun AddrRenaming fun _ => Paddr → Paddr := ⟨AddrRenaming.toFun⟩

/-- The lines are renamed by `f`, and the offsets stay. -/
def AddrRenaming.ofLines (f : BitVec 58 → BitVec 58) (hf : Function.Injective f) : AddrRenaming where
  toFun a := addrOf (f (lineNumber a)) (lineOffset a)
  injective a b h := by
    have hn := congrArg lineNumber h
    have ho := congrArg lineOffset h
    simp only [lineNumber_addrOf, lineOffset_addrOf] at hn ho
    exact addr_ext (hf hn) ho
  lineOf_toFun a := by apply addr_ext <;> simp

variable (ρ : AddrRenaming)

@[simp] theorem AddrRenaming.eq_iff {a b : Paddr} : ρ a = ρ b ↔ a = b := ρ.injective.eq_iff

def Mreq.rename (m : Mreq) : Mreq := { m with addr := ρ m.addr }

def HashEntry.rename (e : HashEntry) : HashEntry := { e with tag := ρ e.tag }

/-- Two lines of traces with the same operation, on a line and what it is renamed to. -/
def SameAccess (l l' : Char × Paddr) : Prop := l'.1 = l.1 ∧ lineOf l'.2 = ρ (lineOf l.2)

/-! ### Nodes -/

/-- Two nodes that differ in the names of the lines. -/
structure NodeLockstep (nd nd' : Node Trace) : Prop where
  entries : ∀ a, nd'.L1.myEntries (ρ a) = (nd.L1.myEntries a).map (HashEntry.rename ρ)
  procRequest : nd'.L1.procRequest = nd.L1.procRequest.map (Mreq.rename ρ)
  infile : List.Forall₂ (SameAccess ρ) nd.PR.infile nd'.PR.infile
  endOfTrace : nd'.PR.endOfTrace = nd.PR.endOfTrace
  outstandingRequest : nd'.PR.outstandingRequest = nd.PR.outstandingRequest
  inboundRequest : nd'.PR.inboundRequest = nd.PR.inboundRequest.map (Mreq.rename ρ)
  inboundRequestBuf : nd'.PR.inboundRequestBuf = nd.PR.inboundRequestBuf.map (Mreq.rename ρ)

variable {ρ} {nd nd' : Node Trace} (i : Fin n)

theorem dataToProc_rename (me : ModuleID) (a : Paddr) :
    dataToProc me (ρ a) = (dataToProc me a).rename ρ := by
  simp [dataToProc, Mreq.rename, ρ.lineOf_toFun]

theorem getMsg_rename (kind : Message) (me : ModuleID) (a : Paddr) :
    getMsg kind me (ρ a) = (getMsg kind me a).rename ρ := by
  simp [getMsg, Mreq.rename, ρ.lineOf_toFun]

theorem replyTo_rename (me : ModuleID) (m : Mreq) :
    replyTo me (m.rename ρ) = (replyTo me m).rename ρ := by
  simp [replyTo, Mreq.rename, ρ.lineOf_toFun]

namespace NodeLockstep

theorem line (h : NodeLockstep ρ nd nd') (a : Paddr) : nd'.line (ρ a) = nd.line a := by
  unfold Node.line HashTable.getEntry
  rw [h.entries]
  cases nd.L1.myEntries a <;> rfl

theorem setLine (h : NodeLockstep ρ nd nd') (a : Paddr) (st : CacheState) :
    NodeLockstep ρ (nd.setLine a st) (nd'.setLine (ρ a) st) :=
  { h with
    entries := by
      intro b
      have htag : (nd'.L1.getEntry (ρ a)).tag = ρ (nd.L1.getEntry a).tag := by
        unfold HashTable.getEntry
        rw [h.entries]
        cases nd.L1.myEntries a <;> rfl
      simp only [Node.setLine, HashTable.setEntry, ρ.eq_iff]
      split
      · rw [htag]; rfl
      · exact h.entries b }

theorem hand (h : NodeLockstep ρ nd nd') (a : Paddr) : NodeLockstep ρ (nd.hand i a) (nd'.hand i (ρ a)) :=
  { h with inboundRequestBuf := congrArg some (dataToProc_rename _ a) }

theorem clearProc (h : NodeLockstep ρ nd nd') : NodeLockstep ρ nd.clearProc nd'.clearProc :=
  { h with procRequest := rfl }

theorem procTick (f : Features) (h : NodeLockstep ρ nd nd') :
    NodeLockstep ρ (nd.procTick f i) (nd'.procTick f i) := by
  have hproc := h.procRequest
  unfold Node.procTick
  cases hr : nd.L1.procRequest with
  | none => simpa [hproc, hr] using h
  | some q =>
    simp only [hproc, hr, Option.map_some, Mreq.rename, h.line]
    split
    · exact ((h.setLine q.addr _).hand i q.addr).clearProc
    · exact (h.setLine q.addr _).clearProc

theorem queued (f : Features) (h : NodeLockstep ρ nd nd') :
    nd'.queued f i = (nd.queued f i).map (Mreq.rename ρ) := by
  have hproc := h.procRequest
  unfold Node.queued
  cases hr : nd.L1.procRequest with
  | none => simp [hproc, hr]
  | some q =>
    simp only [hproc, hr, Option.map_some, Mreq.rename, h.line]
    split
    · rfl
    · rw [getMsg_rename]; rfl

theorem upgraded (h : NodeLockstep ρ nd nd') : nd'.upgraded = nd.upgraded := by
  have hproc := h.procRequest
  unfold Node.upgraded
  cases hr : nd.L1.procRequest with
  | none => simp [hproc, hr]
  | some q => simp only [hproc, hr, Option.map_some, Mreq.rename, h.line]

theorem snoopTick (f : Features) (h : NodeLockstep ρ nd nd') (cur : Option Mreq) (sh : Bool) :
    NodeLockstep ρ (nd.snoopTick f i cur sh) (nd'.snoopTick f i (cur.map (Mreq.rename ρ)) sh) := by
  unfold Node.snoopTick
  cases cur with
  | none => exact h
  | some m =>
    simp only [Option.map_some, Mreq.rename, h.line]
    split
    · split
      · exact (h.setLine m.addr _).hand i m.addr
      · exact h
    · exact h.setLine m.addr _

theorem reply (h : NodeLockstep ρ nd nd') (cur : Option Mreq) :
    nd'.reply i (cur.map (Mreq.rename ρ)) = (nd.reply i cur).map (Mreq.rename ρ) := by
  unfold Node.reply
  cases cur with
  | none => rfl
  | some m =>
    have hline : nd'.line (m.rename ρ).addr = nd.line m.addr := h.line m.addr
    have hmsg : (m.rename ρ).msg = m.msg := rfl
    simp only [Option.map_some, hline, hmsg]
    split
    · rw [replyTo_rename]; rfl
    · rfl

theorem raised (f : Features) (h : NodeLockstep ρ nd nd') (cur : Option Mreq) :
    nd'.raised f (cur.map (Mreq.rename ρ)) = nd.raised f cur := by
  unfold Node.raised
  cases cur with
  | none => rfl
  | some m => simp only [Option.map_some, Mreq.rename, h.line]

theorem cacheTick (f : Features) (h : NodeLockstep ρ nd nd') (cur : Option Mreq) (sh : Bool) :
    NodeLockstep ρ (nd.cacheTick f i cur sh) (nd'.cacheTick f i (cur.map (Mreq.rename ρ)) sh) :=
  (h.procTick i f).snoopTick i f cur sh

theorem complete (h : NodeLockstep ρ nd nd') : NodeLockstep ρ nd.complete nd'.complete := by
  unfold Node.complete
  rw [h.inboundRequest, Option.isSome_map]
  split
  · exact { h with outstandingRequest := rfl, inboundRequest := rfl }
  · exact h

theorem issue (h : NodeLockstep ρ nd nd') : NodeLockstep ρ (nd.issue i) (nd'.issue i) := by
  have hin := h.infile
  unfold Node.issue
  cases hf : nd.PR.infile with
  | nil =>
    rw [hf] at hin
    rw [List.forall₂_nil_left_iff.mp hin]
    exact { h with endOfTrace := rfl }
  | cons l rest =>
    rw [hf] at hin
    obtain ⟨l', rest', ⟨hop, hline⟩, hrest, hf'⟩ := List.forall₂_cons_left_iff.mp hin
    rw [hf']
    refine { h with procRequest := congrArg some ?_, infile := hrest, outstandingRequest := rfl }
    simp [Mreq.new, Mreq.rename, hop, hline]

theorem prTick (h : NodeLockstep ρ nd nd') : NodeLockstep ρ (nd.prTick i) (nd'.prTick i) := by
  unfold Node.prTick
  rw [h.complete.endOfTrace, h.complete.outstandingRequest]
  split
  · exact h.complete
  · exact h.complete.issue i

theorem tock (h : NodeLockstep ρ nd nd') : NodeLockstep ρ nd.tock nd'.tock := by
  have hPR := nd.tock_PR
  have hPR' := nd'.tock_PR
  refine { entries := h.entries, procRequest := h.procRequest, infile := ?_, endOfTrace := ?_,
           outstandingRequest := ?_, inboundRequest := ?_, inboundRequestBuf := ?_ }
  · rw [hPR, hPR']; exact h.infile
  · rw [hPR, hPR']; exact h.endOfTrace
  · rw [hPR, hPR']; exact h.outstandingRequest
  · rw [hPR, hPR', h.inboundRequest, h.inboundRequestBuf]
    cases nd.PR.inboundRequestBuf <;> rfl
  · rw [hPR, hPR']; rfl

end NodeLockstep

/-! ### The simulator -/

section
variable (ρ)

def Bus.rename (b : Bus) : Bus where
  currentRequest := b.currentRequest.map (Mreq.rename ρ)
  pendingRequests := b.pendingRequests.map (Mreq.rename ρ)
  dataReply := b.dataReply.map (Mreq.rename ρ)
  requestInProgress := b.requestInProgress
  sharedLine := b.sharedLine

def MemoryController.rename (mc : MemoryController) : MemoryController :=
  { mc with dataAddr := ρ mc.dataAddr }

/-- The memory controller before its first lookup. -/
def MemoryController.unused : MemoryController := ⟨false, 0, 0, .invalid⟩

/-- Two states that differ in the names of the lines. -/
structure Lockstep (s s' : Simulator n Trace) : Prop where
  clock : s'.globalClock = s.globalClock
  bus : s'.bus = s.bus.rename ρ
  nodes : ∀ i, NodeLockstep ρ (s.Nd i) (s'.Nd i)
  memory : s'.MC = s.MC.rename ρ ∨ s.MC = .unused ∧ s'.MC = .unused
  stats : s'.stats = s.stats

end

theorem Bus.tick_rename (b : Bus) : (b.rename ρ).tick = b.tick.rename ρ := by
  obtain ⟨cur, q, d, rip, sh⟩ := b
  cases rip
  · cases q <;> rfl
  · cases d <;> rfl

namespace Lockstep

variable {S : Settings} {s s' : Simulator n Trace}

theorem tickBus (h : Lockstep ρ s s') : Lockstep ρ s.tickBus s'.tickBus :=
  { h with bus := by rw [Simulator.tickBus, h.bus, Bus.tick_rename]; rfl }

theorem findSome?_map_rename {ι : Type} (g : ι → Option Mreq) (l : List ι) :
    (l.findSome? fun i => (g i).map (Mreq.rename ρ)) = (l.findSome? g).map (Mreq.rename ρ) := by
  induction l with
  | nil => rfl
  | cons i l ih =>
    rw [List.findSome?_cons, List.findSome?_cons, ih]
    cases g i <;> rfl

theorem sync (h : Lockstep ρ s s') (l : List (Fin n)) : Lockstep ρ (s.sync S l) (s'.sync S l) := by
  set f := S.protocol.features with hf
  have hcur : s'.bus.currentRequest = s.bus.currentRequest.map (Mreq.rename ρ) := by rw [h.bus]; rfl
  have hsh : s'.bus.sharedLine = s.bus.sharedLine := by rw [h.bus]; rfl
  have hproc : ∀ i, NodeLockstep ρ ((s.Nd i).procTick f i) ((s'.Nd i).procTick f i) :=
    fun i => (h.nodes i).procTick i f
  have hqueued : (l.flatMap fun i => (s'.Nd i).queued f i) =
      (l.flatMap fun i => (s.Nd i).queued f i).map (Mreq.rename ρ) := by
    rw [List.map_flatMap]
    exact congrArg (l.flatMap ·) (funext fun i => (h.nodes i).queued i f)
  have hreply : ∀ i, ((s'.Nd i).procTick f i).reply i s'.bus.currentRequest =
      (((s.Nd i).procTick f i).reply i s.bus.currentRequest).map (Mreq.rename ρ) := by
    intro i
    rw [hcur]
    exact (hproc i).reply i _
  have hraised : ∀ i, ((s'.Nd i).procTick f i).raised f s'.bus.currentRequest =
      ((s.Nd i).procTick f i).raised f s.bus.currentRequest := by
    intro i
    rw [hcur]
    exact (hproc i).raised f _
  refine { clock := h.clock, bus := ?_, nodes := fun i => ?_, memory := h.memory, stats := ?_ }
  · simp only [Simulator.sync, ← hf, hqueued, hreply, hraised, findSome?_map_rename]
    rw [h.bus]
    simp only [Bus.rename, List.map_append, Option.map_or]
  · show NodeLockstep ρ (if i ∈ l then _ else _) (if i ∈ l then
      (s'.Nd i).cacheTick f i s'.bus.currentRequest s'.bus.sharedLine else _)
    split
    · rw [hcur, hsh]
      exact (h.nodes i).cacheTick i f _ _
    · exact h.nodes i
  · simp only [Simulator.sync, ← hf, hqueued, hreply, h.stats, List.length_map, (h.nodes _).procRequest,
      (h.nodes _).upgraded, Option.isSome_map]

theorem seen (h : Lockstep ρ s s') : s'.seen S = (s.seen S).rename ρ ∨
    s.seen S = .unused ∧ s'.seen S = .unused := by
  have hcur : s'.bus.currentRequest = s.bus.currentRequest.map (Mreq.rename ρ) := by rw [h.bus]; rfl
  unfold Simulator.seen MemoryController.see
  rw [hcur, h.clock]
  cases s.bus.currentRequest with
  | none => exact h.memory
  | some m =>
    simp only [Option.map_some, Mreq.rename]
    split
    · rcases h.memory with hm | ⟨hm, hm'⟩
      · rw [hm]
        exact Or.inl rfl
      · rw [hm, hm']
        exact Or.inr ⟨rfl, rfl⟩
    · exact Or.inl rfl

theorem tickMc (h : Lockstep ρ s s') : Lockstep ρ (s.memory S) (s'.memory S) := by
  unfold Simulator.memory
  rcases h.seen (S := S) with hs | ⟨hs, hs'⟩
  · have hfires : (s'.seen S).fires s'.globalClock ↔ (s.seen S).fires s.globalClock := by
      rw [hs, h.clock]
      rfl
    simp only [hfires]
    split
    · refine { h with bus := ?_, memory := Or.inl ?_ }
      · rw [h.bus, hs]
        simp [Bus.rename, MemoryController.answer, MemoryController.rename, Mreq.rename, ρ.lineOf_toFun]
      · rw [hs]
        rfl
    · exact { h with memory := Or.inl hs }
  · -- before its first lookup the memory does not answer
    have hno : ∀ clock, ¬ MemoryController.unused.fires clock := fun _ hf => Bool.false_ne_true hf.1
    rw [hs, hs', if_neg (hno _), if_neg (hno _)]
    exact { h with memory := Or.inr ⟨rfl, rfl⟩ }

/-- **A cycle keeps the lockstep.** -/
theorem next (h : Lockstep ρ s s') : Lockstep ρ (s.next S) (s'.next S) := by
  have hcaches : Lockstep ρ (s.afterCaches S) (s'.afterCaches S) := h.tickBus.sync (List.finRange n)
  have hprs : Lockstep ρ
      { s.afterCaches S with Nd := fun i => ((s.afterCaches S).Nd i).prTick i }
      { s'.afterCaches S with Nd := fun i => ((s'.afterCaches S).Nd i).prTick i } :=
    { hcaches with nodes := fun i => (hcaches.nodes i).prTick i }
  have hmc := hprs.tickMc (S := S)
  exact { hmc with nodes := fun i => (hmc.nodes i).tock, clock := congrArg (· + 1) hmc.clock }

end Lockstep

/-! ### Runs -/

/-- The two inputs differ in the offsets of the addresses and the names of the lines. -/
structure SameLines (f : BitVec 58 → BitVec 58) (x y : Input n) : Prop where
  protocol : y.protocol = x.protocol
  hitTime : y.hitTime = x.hitTime
  traces : ∀ i, List.Forall₂ (fun l l' => l'.1 = l.1 ∧ lineNumber l'.2 = f (lineNumber l.2))
    (x.traces i) (y.traces i)

section
variable {f : BitVec 58 → BitVec 58} (hf : Function.Injective f) {x y : Input n}

theorem lockstep_init (h : SameLines f x y) : Lockstep (.ofLines f hf) (.init x.traces) (.init y.traces) where
  clock := rfl
  bus := rfl
  nodes i :=
    { entries := fun a => rfl
      procRequest := rfl
      infile := (h.traces i).imp fun {l l'} hl => by
        refine ⟨hl.1, ?_⟩
        apply addr_ext <;> simp [AddrRenaming.ofLines, hl.2]
      endOfTrace := rfl
      outstandingRequest := rfl
      inboundRequest := rfl
      inboundRequestBuf := rfl }
  memory := Or.inr ⟨rfl, rfl⟩
  stats := rfl

theorem Run.lockstep (h : SameLines f x y) (r : Run x) (r' : Run y) (c : ℕ) :
    Lockstep (.ofLines f hf) (r.state c) (r'.state c) := by
  have hset : y.settings = x.settings := by rw [Input.settings, h.protocol, h.hitTime]
  induction c with
  | zero => rw [r.start, r'.start]; exact lockstep_init hf h
  | succ c ih =>
    rw [r.next, r'.next, hset]
    exact ih.next

/-- **Only the lines of the addresses matter.** Where the traces differ in offsets and by
an injective renaming `f` of the line numbers, the runs are in lockstep: at the start of
every cycle they differ by the renaming of the lines, in the bus, the memory
controller, the processors, and the caches, entry by entry; and both loops end after the
same cycle with the same counters. -/
theorem Run.only_lines_matter (h : SameLines f x y) (r : Run x) (r' : Run y) :
    (∀ c, Lockstep (.ofLines f hf) (r.state c) (r'.state c)) ∧
    ∃ R, (∀ fuel, (Simulator.init x.traces).run x.settings fuel =
        .ok (if R ≤ fuel then some (r.state R) else none)) ∧
      (∀ fuel, (Simulator.init y.traces).run y.settings fuel =
        .ok (if R ≤ fuel then some (r'.state R) else none)) ∧
      (r'.state R).stats = (r.state R).stats ∧ (r'.state R).globalClock = (r.state R).globalClock := by
  have hlock := Run.lockstep hf h r r'
  have hdone : ∀ c, (r'.state c).done = (r.state c).done := by
    intro c
    have hnode : ∀ i, ((r'.state c).Nd i).PR.done = ((r.state c).Nd i).PR.done := by
      intro i
      unfold Processor.done
      rw [((hlock c).nodes i).endOfTrace, ((hlock c).nodes i).outstandingRequest]
    simp only [Simulator.done, hnode]
  obtain ⟨R, hR⟩ := r.exists_ends
  have hR' : r'.Ends R :=
    ⟨hR.pos, (hdone R).trans hR.done, fun c hc hlt => (hdone c).trans (hR.first c hc hlt)⟩
  exact ⟨hlock, R, r.run_eq_of_ends hR, r'.run_eq_of_ends hR', (hlock R).stats, (hlock R).clock⟩

end

/-- The line after this one. -/
theorem nextLine_injective : Function.Injective fun k : BitVec 58 => k + 1 :=
  fun _ _ h => (BitVec.add_left_inj 1).mp h

/-- The same accesses one line further on, with other offsets. -/
theorem only_lines_matter_nextLine :
    let x := Input.storeLoadStore 1 (Nat.le_refl 1)
    let y : Input 2 := { x with
      traces := ![[('w', 0x80), ('w', 0xbf)], [('r', 0x85)]]
      wellFormed := by decide }
    (∀ c, Lockstep (.ofLines _ nextLine_injective) (x.run.state c) (y.run.state c)) ∧
    ∃ R, (∀ fuel, (Simulator.init x.traces).run x.settings fuel =
        .ok (if R ≤ fuel then some (x.run.state R) else none)) ∧
      (∀ fuel, (Simulator.init y.traces).run y.settings fuel =
        .ok (if R ≤ fuel then some (y.run.state R) else none)) ∧
      (y.run.state R).stats = (x.run.state R).stats ∧
      (y.run.state R).globalClock = (x.run.state R).globalClock := by
  intro x y
  have hlines : SameLines (fun k => k + 1) x y := by
    refine ⟨rfl, rfl, fun i => ?_⟩
    fin_cases i
    · exact .cons (by decide) (.cons (by decide) .nil)
    · exact .cons (by decide) .nil
  exact Run.only_lines_matter nextLine_injective hlines x.run y.run

end CoherenceSim
