/-
# Runs over any files

A processor that fetches an operation it does not know ends the run. Up to there the run is
the one over the accesses before the first such operation of each file (`Input.knownOf`):
`cycle_extend`. `run_anyFiles`: whatever the files hold, the run ends; without an error if no
file has such an operation, and else in the error about the one that is come to first.
-/
import CoherenceSim.FileRun
import CoherenceSim.SameRuns

namespace CoherenceSim

open Features

variable {n : ℕ}

/-- The operation of the access is one a processor knows. -/
def Known (l : Char × Paddr) : Prop := l.1 = 'r' ∨ l.1 = 'w'

instance : DecidablePred Known := fun l => inferInstanceAs (Decidable (l.1 = 'r' ∨ l.1 = 'w'))

/-- The error of a processor that comes to another one. -/
def unknownOperation (i : Fin n) (c : Char) : Fatal :=
  .fatalError ("Processor " ++ toString i.val ++ ": unknown operation - " ++ c.toString)

/-! ### The tick of a processor -/

namespace Node

/-- The operation that the processor fetches in its tick and does not know. -/
def unknown (nd : Node Trace) : Option Char :=
  if nd.complete.PR.endOfTrace || nd.complete.PR.outstandingRequest then none
  else (nd.complete.PR.infile.head?.filter fun l => ¬ Known l).map Prod.fst

variable (i : Fin n) {nd : Node Trace}

theorem fetch_eq_elim (hs : (nd.PR.endOfTrace || nd.PR.outstandingRequest) = false) :
    nd.fetch i = (((nd.PR.infile.head?.filter fun l => ¬ Known l).map Prod.fst).map (unknownOperation i)).elim
      (.ok (nd.issue i)) .error := by
  obtain ⟨L1, infile, eot, out, inb, buf⟩ := nd
  unfold fetch
  rw [hs]
  cases infile with
  | nil => rfl
  | cons l rest =>
    obtain ⟨c, addr⟩ := l
    simp only [Bool.false_eq_true, if_false, Infile.fscanf, List.head?_cons, Option.filter_some]
    split
    · rfl
    · rfl
    · next hr hw =>
      have hk : ¬ Known (c, addr) := fun h => h.elim hr hw
      rw [decide_eq_true hk]
      rfl

/-- A processor with more behind its trace comes to that where its trace would end. -/
theorem unknown_extend {more : Trace} (hk : ∀ l ∈ nd.PR.infile, Known l) (hmore : ∀ l ∈ more.head?, ¬ Known l)
    (he : more ≠ [] → nd.PR.endOfTrace = false) :
    (nd.extend more).unknown = if (nd.prTick i).PR.endOfTrace then more.head?.map Prod.fst else none := by
  have hstops : ((nd.complete.extend more).PR.endOfTrace || (nd.complete.extend more).PR.outstandingRequest) =
      (nd.complete.PR.endOfTrace || nd.complete.PR.outstandingRequest) := rfl
  have heot : nd.complete.PR.endOfTrace = nd.PR.endOfTrace := by
    unfold complete
    split <;> rfl
  unfold unknown prTick
  rw [complete_extend, hstops]
  split
  · cases more with
    | nil => rw [List.head?_nil, Option.map_none, ite_self]
    | cons l more => rw [if_neg (by rw [heot, he (by simp)]; simp)]
  · next hgo =>
    have hfile : (nd.complete.extend more).PR.infile = nd.PR.infile ++ more := by
      rw [← nd.complete_infile]
      rfl
    have hnot : nd.complete.PR.endOfTrace = false := by
      rw [Bool.or_eq_true, not_or] at hgo
      exact Bool.eq_false_iff.mpr hgo.1
    unfold issue
    rw [hfile, nd.complete_infile]
    cases hf : nd.PR.infile with
    | nil =>
      rw [List.nil_append]
      cases more with
      | nil => rfl
      | cons l more =>
        rw [List.head?_cons, Option.filter_some, if_pos (decide_eq_true (hmore l rfl))]
        rfl
    | cons l rest =>
      rw [List.cons_append, List.head?_cons, Option.filter_some,
        if_neg (by simpa using hk l (by rw [hf]; exact List.mem_cons_self))]
      show Option.none = if nd.complete.PR.endOfTrace then _ else _
      rw [hnot]
      rfl

end Node

/-! ### The cycle -/

namespace Simulator

variable (S : Settings) {s : Simulator n Trace}

theorem tickPr_eq_elim {i : Fin n} (h : ∀ d, (s.Nd i).PR.inboundRequest = some d → d.msg = .DATA) :
    s.tickPr i = ((s.Nd i).unknown.map (unknownOperation i)).elim (.ok (s.setNode i ((s.Nd i).prTick i)))
      .error := by
  have hnd : ({ s.Nd i with PR := (s.Nd i).complete.PR } : Node Trace) = (s.Nd i).complete := by
    unfold Node.complete; split <;> rfl
  unfold tickPr
  rw [Node.complete_eq_of_data h]
  show (Node.fetch { s.Nd i with PR := (s.Nd i).complete.PR } i >>= fun nd => pure (s.setNode i nd)) = _
  rw [hnd]
  unfold Node.prTick Node.unknown
  cases hs : ((s.Nd i).complete.PR.endOfTrace || (s.Nd i).complete.PR.outstandingRequest) with
  | true =>
    rw [Node.fetch, hs]
    rfl
  | false =>
    rw [Node.fetch_eq_elim i hs]
    simp only [Bool.false_eq_true, if_false]
    cases ((s.Nd i).complete.PR.infile.head?.filter fun l => ¬ Known l) <;> rfl

/-- The first of the processors to come to an operation it does not know ends the cycle. -/
theorem tickPrs_eq_elim (h : ∀ i d, (s.Nd i).PR.inboundRequest = some d → d.msg = .DATA) :
    s.tickPrs (List.finRange n) =
      ((List.finRange n).findSome? fun i => (s.Nd i).unknown.map (unknownOperation i)).elim
        (.ok { s with Nd := fun i => (s.Nd i).prTick i }) .error := by
  have hall := Loop.foldlM_findSome (f := tickPr) (s := s)
    (fun l => { s with Nd := fun i => if i ∈ l then (s.Nd i).prTick i else s.Nd i })
    (fun i => (s.Nd i).unknown.map (unknownOperation i)) (by simp)
    (fun l i hn => by
      have hi := Loop.notMem_of_nodup hn
      rw [tickPr_eq_elim (by simp only [hi, if_false]; exact h i)]
      simp only [hi, if_false]
      refine congrArg (Option.elim _ · _) (congrArg Except.ok (Simulator.ext rfl rfl ?_ rfl rfl))
      funext j
      by_cases hj : j = i <;> simp [hj, hi])
    (List.finRange n) (List.nodup_finRange n)
  simpa [tickPrs] using hall

theorem cycle_eq_elim (hc : s.tickBus.Ready S)
    (hp : ∀ i d, ((s.afterCaches S).Nd i).PR.inboundRequest = some d → d.msg = .DATA)
    (hm : (s.afterCaches S).McReady S) : s.cycle S =
      ((List.finRange n).findSome? fun i => ((s.afterCaches S).Nd i).unknown.map (unknownOperation i)).elim
        (.ok (s.next S)) .error := by
  unfold cycle
  rw [tickCaches_eq_sync S hc (List.nodup_finRange n)]
  show ((s.afterCaches S).tickPrs (List.finRange n) >>= fun t => t.tickMc S >>= fun u =>
    pure { u.tockPrs (List.finRange n) with
      globalClock := (u.tockPrs (List.finRange n)).globalClock + 1 }) = _
  rw [tickPrs_eq_elim hp]
  cases (List.finRange n).findSome? fun i => ((s.afterCaches S).Nd i).unknown.map (unknownOperation i) with
  | some e => rfl
  | none =>
    set t : Simulator n Trace := { s.afterCaches S with Nd := fun i => ((s.afterCaches S).Nd i).prTick i }
    show (t.tickMc S >>= fun u => pure { u.tockPrs (List.finRange n) with
      globalClock := (u.tockPrs (List.finRange n)).globalClock + 1 }) = .ok (s.next S)
    rw [tickMc_eq S (show t.McReady S from hm)]
    refine congrArg Except.ok ?_
    rw [tockPrs_eq]
    rfl

/-- The caches and the bus do not see what is still to be fetched. -/
theorem Ready.extend (h : s.Ready S) (more : Fin n → Trace) :
    (s.mapNodes fun i => Node.extend (more i)).Ready S where
  proc := h.proc
  snoop i := by
    show (((s.Nd i).extend (more i)).procTick S.protocol.features i).SnoopReady S.protocol i
      s.bus.currentRequest s.bus.dataReply
    rw [Node.procTick_extend]
    exact h.snoop i
  one i j hi hj := by
    have hi' : ((((s.Nd i).extend (more i)).procTick S.protocol.features i).reply i
      s.bus.currentRequest).isSome := hi
    have hj' : ((((s.Nd j).extend (more j)).procTick S.protocol.features j).reply j
      s.bus.currentRequest).isSome := hj
    rw [Node.procTick_extend] at hi' hj'
    exact h.one i j hi' hj'

theorem McReady.extend (h : (s.afterCaches S).McReady S) (more : Fin n → Trace) :
    ((s.mapNodes fun i => Node.extend (more i)).afterCaches S).McReady S := by
  have hreply : (fun i => (((s.Nd i).extend (more i)).procTick S.protocol.features i).reply i
      s.bus.tick.currentRequest) = fun i => ((s.Nd i).procTick S.protocol.features i).reply i
        s.bus.tick.currentRequest := by
    funext i
    rw [Node.procTick_extend]
    rfl
  refine ⟨h.1, fun hf => ?_⟩
  have hnone : ((List.finRange n).findSome? fun i => ((s.Nd i).procTick S.protocol.features i).reply i
    s.bus.tick.currentRequest).or s.bus.tick.dataReply = none := h.2 hf
  rw [← hreply] at hnone
  exact hnone

end Simulator

/-! ### The run -/

namespace Run

variable {x : Input n} (r : Run x) {more : Fin n → Trace}

theorem endOfTrace_of_le {c d : ℕ} (hcd : c ≤ d) (i : Fin n) (h : ((r.state c).Nd i).PR.endOfTrace = true) :
    ((r.state d).Nd i).PR.endOfTrace = true := by
  induction d, hcd using Nat.le_induction with
  | base => exact h
  | succ d _ ih => exact r.endOfTrace_mono d i ih

/-- In cycle `c` processor `i` fetches the operation it does not know that its trace goes on with. -/
def unknownAt (more : Fin n → Trace) (c : ℕ) (i : Fin n) : Option Char :=
  if ((r.state (c + 1)).Nd i).PR.endOfTrace then (more i).head?.map Prod.fst else none

/-- **A cycle over traces that go on with unknown operations**: the one of the run, or an end. -/
theorem cycle_extend (hmore : ∀ i, ∀ l ∈ (more i).head?, ¬ Known l) {c : ℕ}
    (hc : ∀ i, more i ≠ [] → ((r.state c).Nd i).PR.endOfTrace = false) :
    ((r.state c).mapNodes fun i => Node.extend (more i)).cycle x.settings =
      ((List.finRange n).findSome? fun i => (r.unknownAt more c i).map (unknownOperation i)).elim
        (.ok ((r.state (c + 1)).mapNodes fun i => Node.extend (more i))) .error := by
  set s := r.state c
  have hinv := r.inv c
  have hnode : ∀ i, ((s.mapNodes fun i => Node.extend (more i)).afterCaches x.settings).Nd i =
      (s.ticked x i).extend (more i) := by
    intro i
    rw [Simulator.ticked, Node.cacheTick, ← Node.snoopTick_extend, ← Node.procTick_extend]
    simp only [Simulator.afterCaches, Simulator.sync, List.mem_finRange, if_true]
    rfl
  have hready : ∀ i, (s.ticked x i).PrReady := by
    intro i
    have := hinv.prReady i
    simp only [Simulator.afterCaches, Simulator.sync, List.mem_finRange, if_true] at this
    exact this
  have heot : ∀ i, (s.ticked x i).PR.endOfTrace = (s.Nd i).PR.endOfTrace := by
    intro i
    obtain ⟨b, hb⟩ := Node.PR_cacheTick x.f i s.wire s.bus.tick.sharedLine (s.Nd i)
    exact (congrArg Processor.endOfTrace hb).trans rfl
  have hunknown : ∀ i, ((s.ticked x i).extend (more i)).unknown = r.unknownAt more c i := by
    intro i
    rw [Node.unknown_extend i (hready i).2 (hmore i) fun hi => (heot i).trans (hc i hi), unknownAt,
      r.endOfTrace_succ]
  have hcaches : (s.mapNodes fun i => Node.extend (more i)).tickBus.Ready x.settings :=
    Simulator.Ready.extend x.settings hinv.ready more
  rw [Simulator.cycle_eq_elim x.settings hcaches (fun i d hd => (hready i).1 d (by rw [hnode] at hd; exact hd))
    (Simulator.McReady.extend x.settings hinv.mcReady more)]
  simp only [hnode, hunknown]
  cases hsome : (List.finRange n).findSome? fun i => (r.unknownAt more c i).map (unknownOperation i) with
  | some e => rfl
  | none =>
    -- nobody comes to the end of a trace that goes on
    refine congrArg Except.ok ?_
    rw [r.next]
    refine Simulator.next_mapNodes rfl fun i => Node.sameTick_extend _ i _ _ _ _ fun he => ?_
    have hi := List.findSome?_eq_none_iff.mp hsome i (List.mem_finRange i)
    have hend : ((s.ticked x i).prTick i).PR.endOfTrace = true := he
    rw [unknownAt, r.endOfTrace_succ, if_pos hend] at hi
    cases hm : more i with
    | nil => rfl
    | cons l rest =>
      rw [hm] at hi
      cases hi

/-- The run comes to operations that are not known in cycle `R` and not before it, and the
first of the processors that do is `i`, to `op`. -/
structure MeetsUnknown (r : Run x) (more : Fin n → Trace) (R : ℕ) (i : Fin n) (op : Char) : Prop where
  next : ∃ l ∈ (more i).head?, l.1 = op
  before : ∀ j, more j ≠ [] → ((r.state R).Nd j).PR.endOfTrace = false
  here : ((r.state (R + 1)).Nd i).PR.endOfTrace = true
  least : ∀ j < i, more j ≠ [] → ((r.state (R + 1)).Nd j).PR.endOfTrace = false

theorem unknownAt_eq_none {c : ℕ} {i : Fin n} :
    r.unknownAt more c i = none ↔ (more i ≠ [] → ((r.state (c + 1)).Nd i).PR.endOfTrace = false) := by
  unfold unknownAt
  cases more i <;> simp

/-- Where some trace goes on, the run comes to that. -/
theorem exists_meetsUnknown (hbad : ∃ i, more i ≠ []) : ∃ R i op, r.MeetsUnknown more R i op := by
  have hends : ∃ c i, more i ≠ [] ∧ ((r.state c).Nd i).PR.endOfTrace = true := by
    obtain ⟨i, hi⟩ := hbad
    obtain ⟨R, hR⟩ := r.exists_ends
    have hdone := (r.done_iff R).mp hR.done i
    rw [Processor.done, Bool.and_eq_true] at hdone
    exact ⟨R, i, hi, hdone.1⟩
  classical
  obtain ⟨i₀, hi₀, he₀⟩ := Nat.find_spec hends
  obtain ⟨R, hR⟩ : ∃ R, Nat.find hends = R + 1 := by
    refine Nat.exists_eq_succ_of_ne_zero fun h0 => ?_
    rw [h0, r.start] at he₀
    cases he₀
  rw [hR] at he₀
  have hbefore : ∀ j, more j ≠ [] → ((r.state R).Nd j).PR.endOfTrace = false := by
    intro j hj
    by_contra he
    exact Nat.find_min hends (show R < Nat.find hends by omega) ⟨j, hj, by simpa using he⟩
  -- the first of the processors that come to it in cycle `R`
  cases hsome : Fin.findSome? (r.unknownAt more R) with
  | none =>
    have hnone := r.unknownAt_eq_none.mp (Fin.findSome?_eq_none_iff.mp hsome i₀) hi₀
    rw [hnone] at he₀
    cases he₀
  | some op =>
    obtain ⟨i, hi, hleast⟩ := Fin.findSome?_eq_some_iff.mp hsome
    unfold unknownAt at hi
    split at hi
    · next hhere =>
      obtain ⟨l, hl, rfl⟩ := Option.map_eq_some_iff.mp hi
      exact ⟨R, i, l.1, ⟨l, hl, rfl⟩, hbefore, hhere, fun j hj => r.unknownAt_eq_none.mp (hleast j hj)⟩
    · cases hi

theorem MeetsUnknown.findSome {r : Run x} {R : ℕ} {i : Fin n} {op : Char} (h : r.MeetsUnknown more R i op) :
    ((List.finRange n).findSome? fun j => (r.unknownAt more R j).map (unknownOperation j)) =
      some (unknownOperation i op) := by
  rw [← Fin.findSome?_eq_findSome?_finRange, Fin.findSome?_eq_some_iff]
  refine ⟨i, ?_, fun j hj => ?_⟩
  · obtain ⟨l, hl, rfl⟩ := h.next
    rw [unknownAt, if_pos h.here, show (more i).head? = some l from hl]
    rfl
  · rw [r.unknownAt_eq_none.mpr (h.least j hj)]
    rfl

/-- All along the run up to then. -/
theorem MeetsUnknown.eot_of_le {r : Run x} {R c : ℕ} {i j : Fin n} {op : Char} (h : r.MeetsUnknown more R i op)
    (hc : c ≤ R) (hj : more j ≠ []) : ((r.state c).Nd j).PR.endOfTrace = false := by
  by_contra he
  have hlater := r.endOfTrace_of_le hc j (by simpa using he)
  rw [h.before j hj] at hlater
  cases hlater

/-- **A run over traces that go on with unknown operations ends in the error about the first.** -/
theorem run_extend (hmore : ∀ i, ∀ l ∈ (more i).head?, ¬ Known l) (hbad : ∃ i, more i ≠ []) :
    ∃ R i op, r.MeetsUnknown more R i op ∧ ∀ fuel,
      (Simulator.init fun i => x.traces i ++ more i).run x.settings fuel =
        if R < fuel then .error (unknownOperation i op) else .ok none := by
  obtain ⟨R, i, op, hmeets⟩ := r.exists_meetsUnknown hbad
  refine ⟨R, i, op, hmeets, fun fuel => ?_⟩
  suffices hsuf : ∀ fuel c, c ≤ R → ((r.state c).mapNodes fun i => Node.extend (more i)).run x.settings fuel =
      if R < c + fuel then .error (unknownOperation i op) else .ok none by
    have := hsuf fuel 0 (Nat.zero_le R)
    rw [r.start, Nat.zero_add] at this
    exact this
  intro fuel
  induction fuel with
  | zero =>
    intro c hc
    rw [if_neg (by omega)]
    rfl
  | succ fuel ih =>
    intro c hc
    rw [Simulator.run, r.cycle_extend hmore fun j => hmeets.eot_of_le hc]
    rcases hc.eq_or_lt with rfl | hlt
    · rw [hmeets.findSome, if_pos (by omega)]
      rfl
    · have hnone : ((List.finRange n).findSome? fun j =>
          (r.unknownAt more c j).map (unknownOperation j)) = none := by
        rw [List.findSome?_eq_none_iff]
        intro j _
        rw [Option.map_eq_none_iff, unknownAt_eq_none]
        exact hmeets.eot_of_le hlt
      have hdone : ((r.state (c + 1)).mapNodes fun i => Node.extend (more i)).done = false := by
        obtain ⟨j, hj⟩ := hbad
        have hsame : ((r.state (c + 1)).mapNodes fun i => Node.extend (more i)).done =
            (r.state (c + 1)).done := Simulator.done_mapNodes fun _ _ => rfl
        rw [hsame, ← Bool.not_eq_true, r.done_iff]
        intro hall
        have hdone := hall j
        rw [Processor.done, hmeets.eot_of_le hlt hj] at hdone
        cases hdone
      rw [hnone]
      show (if ((r.state (c + 1)).mapNodes fun i => Node.extend (more i)).done then _ else _) = _
      rw [hdone, show c + (fuel + 1) = c + 1 + fuel by omega]
      exact ih (c + 1) hlt

end Run

/-! ### Files -/

/-- The accesses before the first that is not known. -/
def Input.knownOf {S : Settings} (hpos : 1 ≤ S.hitTime) (traces : Fin n → Trace) : Input n where
  protocol := S.protocol
  hitTime := S.hitTime
  hitTime_pos := hpos
  traces i := (traces i).takeWhile fun l => Known l
  wellFormed i l hl := by
    have hk := List.mem_takeWhile_imp hl
    exact of_decide_eq_true (p := Known l) hk

/-- And those from that on. -/
def unknownOf (traces : Fin n → Trace) (i : Fin n) : Trace := (traces i).dropWhile fun l => Known l

theorem unknownOf_head {traces : Fin n → Trace} {i : Fin n} {l : Char × Paddr}
    (hl : l ∈ (unknownOf traces i).head?) : ¬ Known l := by
  have hsome : ((traces i).dropWhile fun l => Known l).head? = some l := hl
  have hhead := List.head?_dropWhile_not (fun l => decide (Known l)) (traces i)
  rw [hsome] at hhead
  exact of_decide_eq_false hhead

theorem unknownOp_iff {file : TraceFile} : UnknownOp file ↔ ∃ l ∈ accessesIn file, ¬ Known l := by
  constructor
  · intro h
    induction h with
    | @here x s t hs hx =>
      rw [accessesIn_some (AccessText.fscanf_eq_some_iff.mpr ⟨x, rfl, rfl, hs⟩)]
      exact ⟨_, List.mem_cons_self, hx⟩
    | @after x s t hs hx _ ih =>
      obtain ⟨l, hl, hk⟩ := ih
      rw [accessesIn_some (AccessText.fscanf_eq_some_iff.mpr ⟨x, rfl, rfl, hs⟩)]
      exact ⟨l, List.mem_cons_of_mem _ hl, hk⟩
  · rintro ⟨l, hl, hk⟩
    induction hlen : file.length using Nat.strong_induction_on generalizing file with
    | h len ih =>
      subst hlen
      rcases hf : Infile.fscanf file with ⟨_ | access, rest⟩
      · rw [accessesIn_none hf] at hl
        cases hl
      · obtain ⟨x, hop, haddr, hs⟩ := AccessText.fscanf_eq_some_iff.mp hf
        rw [accessesIn_some hf, List.mem_cons] at hl
        by_cases hx : x.Known
        · refine .after hs hx (ih rest.length (length_lt_of_fscanf hf) ?_ rfl)
          rcases hl with rfl | hl
          · exact absurd (show Known l by unfold Known; rwa [← hop]) hk
          · exact hl
        · exact .here hs hx

/-- Where the run over the accesses has no final state, the one over the files has none. -/
theorem run_files_eq {S : Settings} {files : Fin n → TraceFile} {R fuel : ℕ} {e : Fatal}
    (h : (Simulator.init fun i => accessesIn (files i)).run S fuel = if R < fuel then .error e else .ok none) :
    (Simulator.init files).run S fuel = if R < fuel then .error e else .ok none := by
  rw [run_files] at h
  rcases hf : (Simulator.init files).run S fuel with e' | t | t <;> rw [hf] at h
  · split at h
    · next hlt =>
      rw [if_pos hlt]
      exact congrArg Except.error (Except.error.inj h)
    · cases h
  · split at h
    · cases h
    · next hlt => rw [if_neg hlt]
  · split at h <;> cases h

/-- **Every run ends, whatever the files hold.** If no file has an unknown operation where an
access is read, it is the run over the accesses, and ends without an error; else it is the run
over the accesses before those operations, up to the cycle in which the processors come to
the first of them, and ends in the error about it. -/
theorem run_anyFiles {S : Settings} (hpos : 1 ≤ S.hitTime) (files : Fin n → TraceFile)
    (r : Run (Input.knownOf hpos fun i => accessesIn (files i))) :
    ((∀ i, ¬ UnknownOp (files i)) → ∃ R, r.Ends R ∧ ∀ fuel,
      ((Simulator.init files).run S fuel).map (Option.map Simulator.traced) =
        .ok (if R ≤ fuel then some (r.state R) else none)) ∧
    ((∃ i, UnknownOp (files i)) → ∃ R i op, r.MeetsUnknown (unknownOf fun i => accessesIn (files i)) R i op ∧
      ∀ fuel, (Simulator.init files).run S fuel =
        if R < fuel then .error (unknownOperation i op) else .ok none) := by
  refine ⟨fun hall => ?_, fun hsome => ?_⟩
  · obtain ⟨R, hR⟩ := r.exists_ends
    refine ⟨R, hR, fun fuel => ?_⟩
    have htraces : (Input.knownOf hpos fun i => accessesIn (files i)).traces =
        fun i => accessesIn (files i) := by
      funext i
      refine List.takeWhile_eq_self_iff.mpr fun l hl => ?_
      by_contra hk
      exact hall i (unknownOp_iff.mpr ⟨l, hl, by simpa using hk⟩)
    have hrun := r.run_eq_of_ends hR fuel
    rw [htraces] at hrun
    exact (run_files S files fuel).symm.trans hrun
  · have hbad : ∃ i, unknownOf (fun i => accessesIn (files i)) i ≠ [] := by
      obtain ⟨i, hi⟩ := hsome
      obtain ⟨l, hl, hk⟩ := unknownOp_iff.mp hi
      refine ⟨i, fun hnil => hk ?_⟩
      have hknown := List.dropWhile_eq_nil_iff.mp hnil l hl
      exact of_decide_eq_true hknown
    obtain ⟨R, i, op, hmeets, hrun⟩ := r.run_extend (fun _ _ => unknownOf_head) hbad
    refine ⟨R, i, op, hmeets, fun fuel => run_files_eq ?_⟩
    have htraces : (fun i => (Input.knownOf hpos fun i => accessesIn (files i)).traces i ++
        unknownOf (fun i => accessesIn (files i)) i) = fun i => accessesIn (files i) :=
      funext fun i => List.takeWhile_append_dropWhile
    rw [← htraces]
    exact hrun fuel

/-- Processor 0 comes to an `x`. -/
theorem run_anyFiles_x :
    let files : Fin 2 → TraceFile := !["w 0x40\nx 0x80\n".toList, "r 0x40\n".toList]
    ∃ R, ∀ fuel, (Simulator.init files).run ⟨.MSI_PRO, 1⟩ fuel =
      if R < fuel then .error (.fatalError "Processor 0: unknown operation - x") else .ok none := by
  intro files
  have hu : UnknownOp (files 0) := unknownOp_iff.mpr ⟨('x', 0x80), by decide +kernel, by decide⟩
  obtain ⟨R, i, op, hmeets, hrun⟩ := (run_anyFiles (S := ⟨.MSI_PRO, 1⟩) (Nat.le_refl 1) files
    (Input.knownOf (Nat.le_refl 1) fun i => accessesIn (files i)).run).2 ⟨0, hu⟩
  obtain ⟨l, hl, rfl⟩ := hmeets.next
  fin_cases i
  · have hnext : (unknownOf (fun i => accessesIn (files i)) 0).head? = some ('x', 0x80) := by decide +kernel
    obtain rfl : ('x', 0x80) = l := Option.some.inj (hnext.symm.trans hl)
    exact ⟨R, hrun⟩
  · have hnext : (unknownOf (fun i => accessesIn (files i)) 1).head? = none := by decide +kernel
    cases hnext.symm.trans hl

end CoherenceSim
