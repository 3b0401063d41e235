/-
# Runs over trace files

The other modules take a trace to be the list of its accesses; the program reads a file.
`run_files`: a run over files is the run over the accesses `fscanf` reads off them
(`accessesIn`), whatever the files hold. So for files that are lists of accesses it is the
run of an input (`Input.ofFiles`).
-/
import CoherenceSim.TraceFile
import CoherenceSim.Inv

namespace CoherenceSim

open Text

variable {n : ℕ}

/-! ### A cycle over files -/

/-- The processor, with what it is still to fetch in the place of its file: after
`end_of_trace`, nothing. -/
def Processor.traced (pr : Processor TraceFile) : Processor Trace where
  infile := if pr.endOfTrace then [] else accessesIn pr.infile
  endOfTrace := pr.endOfTrace
  outstandingRequest := pr.outstandingRequest
  inboundRequest := pr.inboundRequest
  inboundRequestBuf := pr.inboundRequestBuf

namespace Node

def traced (nd : Node TraceFile) : Node Trace := { L1 := nd.L1, PR := nd.PR.traced }

theorem sameToCache_traced : SameToCache traced where
  L1 _ := rfl
  inboundRequestBuf _ := rfl
  update _ _ _ := rfl

theorem complete_traced (pr : Processor TraceFile) :
    pr.traced.complete = pr.complete.map Processor.traced := by
  unfold Processor.complete
  have hin : pr.traced.inboundRequest = pr.inboundRequest := rfl
  rw [hin]
  cases pr.inboundRequest with
  | none => rfl
  | some data =>
    simp only
    split <;> rfl

/-- **A fetch from the file is a fetch of the access read off it.** -/
theorem fetch_traced (nd : Node TraceFile) (i : Fin n) : nd.traced.fetch i = (nd.fetch i).map traced := by
  have hstops : (nd.traced.PR.endOfTrace || nd.traced.PR.outstandingRequest) =
      (nd.PR.endOfTrace || nd.PR.outstandingRequest) := rfl
  unfold fetch
  rw [hstops]
  split
  · rfl
  · next hgo =>
    have he : nd.PR.endOfTrace = false := by
      rw [Bool.or_eq_true, not_or] at hgo
      exact Bool.eq_false_iff.mpr hgo.1
    have hfile : nd.traced.PR.infile = accessesIn nd.PR.infile := by
      show (if nd.PR.endOfTrace then _ else _) = _
      rw [he, if_neg Bool.false_ne_true]
    rcases hf : Infile.fscanf nd.PR.infile with ⟨_ | ⟨c, a⟩, rest⟩
    · -- nothing more can be fetched, whatever is left of the file
      have hscan : Infile.fscanf nd.traced.PR.infile = (none, []) := by
        rw [hfile, accessesIn_none hf]
        rfl
      rw [hscan]
      rfl
    · have hscan : Infile.fscanf nd.traced.PR.infile = (some (c, a), accessesIn rest) := by
        rw [hfile, accessesIn_some hf]
        rfl
      rw [hscan]
      have hnext : ∀ request : Mreq, (⟨{ nd.traced.L1 with procRequest := some request },
            { nd.traced.PR with infile := accessesIn rest, outstandingRequest := true }⟩ : Node Trace) =
          traced ⟨{ nd.L1 with procRequest := some request },
            { nd.PR with infile := rest, outstandingRequest := true }⟩ := by
        intro request
        simp only [traced, Processor.traced, he, Bool.false_eq_true, if_false]
      simp only
      split
      · exact congrArg Except.ok (hnext _)
      · exact congrArg Except.ok (hnext _)
      · rfl

end Node

namespace Simulator

variable (S : Settings)

/-- The state of a run over traces. -/
def traced (s : Simulator n TraceFile) : Simulator n Trace := s.mapNd Node.traced id

theorem tickPr_traced (s : Simulator n TraceFile) (i : Fin n) :
    s.traced.tickPr i = (s.tickPr i).map traced := by
  have hPR : (s.traced.Nd i).PR = (s.Nd i).PR.traced := rfl
  unfold tickPr
  rw [hPR, Node.complete_traced]
  cases (s.Nd i).PR.complete with
  | error e => rfl
  | ok pr =>
    show (Node.fetch (Node.traced { s.Nd i with PR := pr }) i >>= fun nd => pure (s.traced.setNode i nd)) =
      Except.map traced (Node.fetch { s.Nd i with PR := pr } i >>= fun nd => pure (s.setNode i nd))
    rw [Node.fetch_traced]
    cases Node.fetch { s.Nd i with PR := pr } i with
    | error e => rfl
    | ok nd => exact congrArg Except.ok (mapNd_setNode id s i nd).symm

theorem tickMc_traced (s : Simulator n TraceFile) : s.traced.tickMc S = (s.tickMc S).map traced := by
  have hmc : s.traced.MC.snoop S s.traced.globalClock s.traced.bus.busSnoop =
      s.MC.snoop S s.globalClock s.bus.busSnoop := rfl
  unfold tickMc
  rw [hmc]
  cases s.MC.snoop S s.globalClock s.bus.busSnoop with
  | error e => rfl
  | ok mc =>
    show (if mc.requestInProgress ∧ mc.dataTime ≤ s.globalClock then
        s.bus.busRequest (.new .DATA mc.dataAddr (MCid n) mc.dataTarget) >>= fun bus => _ else _) =
      Except.map traced (if mc.requestInProgress ∧ mc.dataTime ≤ s.globalClock then
        s.bus.busRequest (.new .DATA mc.dataAddr (MCid n) mc.dataTarget) >>= fun bus => _ else _)
    split
    · cases s.bus.busRequest (.new .DATA mc.dataAddr (MCid n) mc.dataTarget) <;> rfl
    · rfl

theorem tockPrs_traced (s : Simulator n TraceFile) (l : List (Fin n)) :
    s.traced.tockPrs l = (s.tockPrs l).traced := by
  refine List.foldl_hom traced fun s i => ?_
  have htock : ∀ pr : Processor TraceFile, pr.traced.tock = pr.tock.traced := by
    intro pr
    unfold Processor.tock
    have hbuf : pr.traced.inboundRequestBuf = pr.inboundRequestBuf := rfl
    rw [hbuf]
    cases pr.inboundRequestBuf <;> rfl
  have hnd : ({ s.traced.Nd i with PR := (s.traced.Nd i).PR.tock } : Node Trace) =
      Node.traced { s.Nd i with PR := (s.Nd i).PR.tock } := congrArg (Node.mk (s.Nd i).L1) (htock (s.Nd i).PR)
  unfold tockPr
  rw [hnd]
  exact (mapNd_setNode id s i _).symm

theorem cycle_traced (s : Simulator n TraceFile) : s.traced.cycle S = (s.cycle S).map traced := by
  have hcaches := Loop.foldlM_map (tickCache_mapNd S Node.sameToCache_traced id) (List.finRange n) s.tickBus
  have hcaches' : s.traced.tickBus.tickCaches S (List.finRange n) =
      (s.tickBus.tickCaches S (List.finRange n)).map traced := hcaches
  unfold cycle
  rw [hcaches']
  cases s.tickBus.tickCaches S (List.finRange n) with
  | error e => rfl
  | ok t =>
    have hprs : t.traced.tickPrs (List.finRange n) = (t.tickPrs (List.finRange n)).map traced :=
      Loop.foldlM_map tickPr_traced (List.finRange n) t
    show (t.traced.tickPrs (List.finRange n) >>= fun s => _) =
      Except.map traced (t.tickPrs (List.finRange n) >>= fun s => _)
    rw [hprs]
    cases t.tickPrs (List.finRange n) with
    | error e => rfl
    | ok u =>
      show (u.traced.tickMc S >>= fun s => _) = Except.map traced (u.tickMc S >>= fun s => _)
      rw [tickMc_traced]
      cases u.tickMc S with
      | error e => rfl
      | ok v =>
        refine congrArg Except.ok ?_
        rw [tockPrs_traced]
        rfl

theorem done_traced (s : Simulator n TraceFile) : s.traced.done = s.done := rfl

theorem run_traced (fuel : ℕ) (s : Simulator n TraceFile) :
    s.traced.run S fuel = (s.run S fuel).map (Option.map traced) := by
  induction fuel generalizing s with
  | zero => rfl
  | succ fuel ih =>
    unfold run
    rw [cycle_traced]
    cases s.cycle S with
    | error e => rfl
    | ok t =>
      show (if t.traced.done then _ else _) = Except.map _ (if t.done then _ else _)
      rw [done_traced]
      split
      · rfl
      · exact ih t

end Simulator

/-- **A run over files is the run over the accesses read off them**, to the error, if it
ends in one. -/
theorem run_files (S : Settings) (files : Fin n → TraceFile) (fuel : ℕ) :
    (Simulator.init fun i => accessesIn (files i)).run S fuel =
      ((Simulator.init files).run S fuel).map (Option.map Simulator.traced) :=
  Simulator.run_traced S fuel (.init files)

/-! ### Files that are lists of lines -/

/-- What is read off such a file is known to the processor. -/
theorem LineByLine.known {file : TraceFile} (h : LineByLine file) :
    ∀ access ∈ accessesIn file, access.1 = 'r' ∨ access.1 = 'w' := by
  obtain ⟨accesses, -, hknown, hb | hc⟩ := h.exists_accesses
  · rw [accessesIn_blank hb]
    exact List.forall_mem_nil _
  · rw [hc.accessesIn_eq]
    intro access hmem
    obtain ⟨x, hx, rfl⟩ := List.mem_map.mp hmem
    exact hknown x hx

/-- The run over such files. -/
def Input.ofFiles (protocol : Protocol) (hitTime : ℕ) (hpos : 1 ≤ hitTime) (files : Fin n → TraceFile)
    (h : ∀ i, LineByLine (files i)) : Input n where
  protocol := protocol
  hitTime := hitTime
  hitTime_pos := hpos
  traces i := accessesIn (files i)
  wellFormed i := (h i).known

end CoherenceSim
