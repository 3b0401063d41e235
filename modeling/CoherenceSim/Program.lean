/-
# The program

`main` of `sim/main.cpp`, from the command line and the files of a trace directory to the
run it makes (`main`); what that run prints (`Job.Prints`); and `runs.py`, which makes a run
for each protocol and has its counters out of what it prints. `figures`: what `plots.py` has
in the end are the counters of the runs over the accesses of the trace files.
-/
import CoherenceSim.FileRun
import CoherenceSim.Lib.Getopt
import CoherenceSim.Transcript
import CoherenceSim.Tracked

namespace CoherenceSim

open Getopt Printing Text

variable {n : ℕ}

/-! ### The log of a run over files -/

namespace Logged

open Simulator

variable (S : Settings)

theorem tickCache_traced (s : Simulator n TraceFile) (i : Fin n) :
    Mirrors traced (tickCache S s i) (tickCache S s.traced i) :=
  .print_bind rfl ((Mirrors.lift (tickProcRequest_mapNd S Node.sameToCache_traced id s i)).bind fun t =>
    .print_bind rfl (.print_bind rfl ((Mirrors.lift (tickSnoop_mapNd S Node.sameToCache_traced id t i)).bind
      fun _ => .print_bind rfl (.pure rfl))))

theorem fetchLines_traced (pr : Processor TraceFile) (i : Fin n) (clock : ℕ) :
    pr.traced.fetchLines i clock = pr.fetchLines i clock := by
  have hstops : (pr.traced.endOfTrace || pr.traced.outstandingRequest) =
      (pr.endOfTrace || pr.outstandingRequest) := rfl
  unfold Processor.fetchLines
  rw [hstops]
  split
  · rfl
  · next hgo =>
    have he : pr.endOfTrace = false := by
      rw [Bool.or_eq_true, not_or] at hgo
      exact Bool.eq_false_iff.mpr hgo.1
    have hfile : pr.traced.infile = accessesIn pr.infile := by
      show (if pr.endOfTrace then _ else _) = _
      rw [he, if_neg Bool.false_ne_true]
    have hscan : (Infile.fscanf pr.traced.infile).1 = (Infile.fscanf pr.infile).1 := by
      rw [hfile]
      rcases hf : Infile.fscanf pr.infile with ⟨_ | ⟨c, a⟩, rest⟩
      · rw [accessesIn_none hf]
        rfl
      · rw [accessesIn_some hf]
        rfl
    rw [hscan]

theorem tickPr_traced (s : Simulator n TraceFile) (i : Fin n) :
    Mirrors traced (tickPr s i) (tickPr s.traced i) :=
  .print_bind rfl ((Mirrors.lift (Node.complete_traced (s.Nd i).PR)).bind fun pr =>
    .print_bind (fetchLines_traced pr i _)
      ((Mirrors.lift (Node.fetch_traced { s.Nd i with PR := pr } i)).bind fun nd =>
        .pure (mapNd_setNode id s i nd).symm))

theorem tickMc_traced (s : Simulator n TraceFile) : Mirrors traced (tickMc S s) (tickMc S s.traced) := by
  have hsnoop : s.traced.MC.snoop S s.traced.globalClock s.traced.bus.busSnoop =
      (s.MC.snoop S s.globalClock s.bus.busSnoop).map id := by
    show s.MC.snoop S s.globalClock s.bus.busSnoop = _
    cases s.MC.snoop S s.globalClock s.bus.busSnoop <;> rfl
  refine (Mirrors.lift hsnoop).bind fun mc => ?_
  show Mirrors traced (if mc.requestInProgress ∧ mc.dataTime ≤ s.globalClock then _ else _)
    (if mc.requestInProgress ∧ mc.dataTime ≤ s.globalClock then _ else _)
  split
  · have hbus : s.traced.bus.busRequest (.new .DATA mc.dataAddr (MCid n) mc.dataTarget) =
        (s.bus.busRequest (.new .DATA mc.dataAddr (MCid n) mc.dataTarget)).map id := by
      show s.bus.busRequest _ = _
      cases s.bus.busRequest (.new .DATA mc.dataAddr (MCid n) mc.dataTarget) <;> rfl
    exact .print_bind rfl ((Mirrors.lift hbus).bind fun _ => .pure rfl)
  · exact .pure rfl

theorem cycle_traced (s : Simulator n TraceFile) : Mirrors traced (cycle S s) (cycle S s.traced) := by
  refine (Mirrors.foldlM (tickCache_traced S) _ s.tickBus).bind fun t =>
    (Mirrors.foldlM tickPr_traced _ t).bind fun u => (tickMc_traced S u).bind fun v => .pure ?_
  rw [tockPrs_traced]
  rfl

/-- **A run over files prints what the run over the accesses in them prints.** -/
theorem run_traced (fuel : ℕ) (s : Simulator n TraceFile) :
    Mirrors (Option.map traced) (run S fuel s) (run S fuel s.traced) := by
  induction fuel generalizing s with
  | zero => exact .pure rfl
  | succ fuel ih =>
    refine (cycle_traced S s).bind fun t => ?_
    rw [done_traced]
    split
    · exact .pure rfl
    · exact ih t

end Logged

/-! ### `main` -/

/-- What `main` ends with where it makes no run. The last is what the language leaves open:
reading from a file that could not be opened, and writing beyond a buffer. -/
inductive Ending
  | exit (status : ℤ) (stderr : List Char)
  | fatal (error : Fatal)
  | undefined

/-- `usage` -/
def usage : List Char :=
  "Usage:\n".toList ++ "\t-p <protocol> (choices MI, MSI, MESI)\n".toList ++ "\t-t <trace directory>\n\n".toList

/-- `"hP:p:t:"` -/
def optstring : Spec := fun c =>
  if c = 'h' then some false else if c = 'P' ∨ c = 'p' ∨ c = 't' then some true else none

structure Options where
  protocol : Option (List Char)
  traceDir : Option (List Char)

/-- The loop over the options. `-P` has no case. -/
def parseOptions (options : Options) : List Found → Except Ending Options
  | [] => .ok options
  | ('h', _) :: _ => .error (.exit 0 usage)
  | ('p', some optarg) :: rest => parseOptions { options with protocol := some optarg } rest
  | ('t', some optarg) :: rest => parseOptions { options with traceDir := some optarg } rest
  | (c, _) :: _ => .error (.exit (-1) ("Invalid command line arguments - ".toList ++ [c] ++ usage))

/-- The value of a sign and digits in an `int`: that of the `long` next to it, cut. -/
def intValue (sign digits : List Char) : ℤ :=
  let k : ℤ := ofDigits 10 digits
  (BitVec.ofInt 32 (if sign = ['-'] then max (-2 ^ 63) (-k) else min (2 ^ 63 - 1) k)).toInt

/-- `%d` -/
def scanInt (s : List Char) : Option ℤ :=
  let (sign, s) := scanSign (skipSpace s)
  let digits := s.takeWhile (isDigit 10)
  if digits = [] then none else some (intValue sign digits)

/-- The files there are, by their paths. -/
abbrev Files := List Char → Option (List Char)

def configPath (traceDir : List Char) : List Char := traceDir ++ "/config".toList

def tracePath (traceDir : List Char) (node : ℕ) : List Char :=
  traceDir ++ "/p".toList ++ ofInt node ++ ".trace".toList

/-- The `strcmp`s. -/
def protocolOf (name : List Char) : Option Protocol :=
  [Protocol.MI_PRO, .MSI_PRO, .MESI_PRO, .MOSI_PRO, .MOESI_PRO, .MOESIF_PRO].find? (·.name.toList = name)

/-- A run to be made. -/
structure Job where
  nodes : ℕ
  protocol : Protocol
  files : Fin nodes → TraceFile

/-- The trace files that the constructor of the simulator opens; their paths have a buffer of
100 characters. -/
def openTraces (fs : Files) (traceDir : List Char) (protocol : Protocol) (nodes : ℕ) : Except Ending Job :=
  if ∀ i : Fin nodes, (tracePath traceDir i).length < 100 ∧ (fs (tracePath traceDir i)).isSome then
    .ok ⟨nodes, protocol, fun i => (fs (tracePath traceDir i)).getD []⟩
  else .error .undefined

/-- What there is, or else an end. -/
def orEnd {α : Type} (ending : Ending) : Option α → Except Ending α
  | some a => .ok a
  | none => .error ending

/-- `main`, up to the run: the arguments behind the name of the program. -/
def main (fs : Files) (args : List (List Char)) : Except Ending Job := do
  let options ← parseOptions ⟨none, none⟩ (getopt optstring args)
  -- a null pointer is printed as text
  let path := configPath (options.traceDir.getD "(null)".toList)
  if 1000 ≤ path.length then throw .undefined
  let config ← orEnd .undefined (fs path)
  let numNodes ← orEnd (.fatal (.fatalError "Config File should contain number of traces\n")) (scanInt config)
  if numNodes = 0 then throw (.fatal (.fatalError "Error: number of processors is zero.\n"))
  let name ← orEnd (.fatal (.fatalError "Error: invalid protocol specified.\n")) options.protocol
  let traceDir ← orEnd (.fatal (.fatalError "Error: trace file directory not defined!\n")) options.traceDir
  let protocol ← orEnd (.fatal (.fatalError "Error: invalid protocol specified.\n")) (protocolOf name)
  if numNodes < 0 then throw .undefined
  openTraces fs traceDir protocol numNodes.toNat

/-! ### What it prints -/

/-- The entries of a table in the order of its map, which is that of the addresses. -/
structure HashTable.Iterates (table : HashTable) (entries : List HashEntry) : Prop where
  sorted : entries.Pairwise fun e e' => e.tag.toNat < e'.tag.toNat
  mem : ∀ entry, entry ∈ entries ↔ table.myEntries entry.tag = some entry

/-- A table with entries for finitely many lines can be gone through. -/
theorem HashTable.exists_iterates {table : HashTable} (keys : Finset Paddr)
    (hkeys : ∀ a, (table.myEntries a).isSome → a ∈ keys)
    (htag : ∀ a e, table.myEntries a = some e → e.tag = a) : ∃ entries, table.Iterates entries := by
  set ks := (keys.image BitVec.toNat).sort (· ≤ ·) with hks
  have htoNat : ∀ {k : ℕ} {e : HashEntry}, k ∈ ks → table.myEntries (BitVec.ofNat 64 k) = some e →
      e.tag.toNat = k := by
    intro k e hk he
    rw [hks, Finset.mem_sort, Finset.mem_image] at hk
    obtain ⟨a, -, rfl⟩ := hk
    rw [htag _ e he, BitVec.ofNat_toNat, BitVec.setWidth_eq]
  refine ⟨ks.filterMap fun k => table.myEntries (BitVec.ofNat 64 k), ?_, fun e => ?_⟩
  · have hsorted : ks.Pairwise (· < ·) := Finset.sortedLT_sort _ |>.pairwise
    rw [List.pairwise_filterMap]
    refine hsorted.imp_of_mem fun hk hk' hlt e he e' he' => ?_
    rwa [htoNat hk he, htoNat hk' he']
  · rw [List.mem_filterMap]
    constructor
    · rintro ⟨k, hk, he⟩
      rw [htag _ e he, he]
    · intro he
      refine ⟨e.tag.toNat, ?_, by rw [BitVec.ofNat_toNat, BitVec.setWidth_eq, he]⟩
      rw [hks, Finset.mem_sort]
      exact Finset.mem_image_of_mem _ (hkeys _ (by rw [he]; rfl))

/-- The latency that `build_memory_controller` sets. -/
def Job.settings (job : Job) : Settings := ⟨job.protocol, 100⟩

/-- The run of the job ends in `s`, and this is what it prints. -/
structure Job.Prints (job : Job) (r : FinishedRun) (s : Simulator job.nodes TraceFile) : Prop where
  ends : ∃ fuel, StateT.run (Logged.run job.settings fuel (Simulator.init job.files)) [] =
    .ok (some s, r.messages)
  protocol : r.protocol = job.protocol
  cores : r.caches.length = job.nodes
  caches : ∀ i : Fin job.nodes, ∃ entries, r.caches[i.val]? = some entries ∧ (s.Nd i).L1.Iterates entries
  clock : r.clock = s.globalClock
  stats : r.stats = s.stats

/-- What it prints at its end are the counters of the run over the accesses in the files. -/
theorem Job.Prints.run {job : Job} {r : FinishedRun} {s : Simulator job.nodes TraceFile} (h : job.Prints r s) :
    ∃ t, (∃ fuel, (Simulator.init fun i => accessesIn (job.files i)).run job.settings fuel = .ok (some t)) ∧
      r.counters = ⟨t.globalClock, t.stats.cacheMisses, t.stats.cacheAccesses, t.stats.silentUpgrades,
        t.stats.cacheToCacheTransfers⟩ := by
  obtain ⟨fuel, hrun⟩ := h.ends
  have hplain := Logged.does_run job.settings fuel (Simulator.init job.files) []
  rw [hrun] at hplain
  refine ⟨s.traced, ⟨fuel, ?_⟩, ?_⟩
  · rw [run_files, ← hplain]
    rfl
  · rw [FinishedRun.counters, h.clock, h.stats]
    rfl

/-! ### Every job with proper files prints something -/

namespace Run

variable {x : Input n} (r : Run x)

theorem upgrades_le_accesses (c : ℕ) :
    (r.state c).stats.silentUpgrades ≤ (r.state c).stats.cacheAccesses := by
  induction c with
  | zero => rw [r.start]; rfl
  | succ c ih =>
    rw [r.next, Simulator.next_stats]
    refine Nat.add_le_add ih (List.countP_mono_left fun i _ hi => ?_)
    unfold Node.upgraded at hi
    split at hi
    · cases hi
    · next hr => rw [hr]; rfl

/-- Every cache can be gone through at the end. -/
theorem Ends.exists_iterates {R : ℕ} (h : r.Ends R) (i : Fin n) :
    ∃ entries, ((r.state R).Nd i).L1.Iterates entries := by
  refine HashTable.exists_iterates (Finset.univ.biUnion fun j => ((x.traces j).map fun l => lineOf l.2).toFinset)
    (fun a ha => ?_) fun a e he => r.tagged R i a e he
  have hline : ∃ j, ∃ l ∈ x.traces j, lineOf l.2 = a := by
    rw [← h.granted_iff r]
    rcases (r.tracks_iff R i a).mp ha with hm | ⟨q, hq, rfl⟩
    · exact hm
    · obtain ⟨e, he, hqe⟩ := r.mem_taken.mp hq
      exact r.granted_of_taken hqe he (h.bus r).2
  obtain ⟨j, l, hl, rfl⟩ := hline
  simp only [Finset.mem_biUnion, Finset.mem_univ, true_and, List.mem_toFinset, List.mem_map]
  exact ⟨j, l, hl, rfl⟩

/-- No run of moderate length overflows a counter. -/
theorem Ends.lt_of_short {R : ℕ} (h : r.Ends R) :
    R ≤ 1 + (x.hitTime + 4) * ∑ i, (x.traces i).length ∧
    (r.state R).stats.cacheMisses ≤ ∑ i, (x.traces i).length ∧
    (r.state R).stats.cacheAccesses = ∑ i, (x.traces i).length ∧
    (r.state R).stats.silentUpgrades ≤ ∑ i, (x.traces i).length ∧
    (r.state R).stats.cacheToCacheTransfers ≤ ∑ i, (x.traces i).length := by
  have haccesses := (h.quiescent r).accesses
  have hmisses := r.misses_le R
  have htransfers : (r.state R).stats.cacheToCacheTransfers ≤ (r.state R).stats.cacheMisses := by
    have hgrants := r.grants_eq R
    have hall := r.misses_eq R
    omega
  have hlong : x.longest ≤ ∑ i, (x.traces i).length := Finset.sup_le fun i _ =>
    Finset.single_le_sum (f := fun i => (x.traces i).length) (fun _ _ => Nat.zero_le _) (Finset.mem_univ i)
  refine ⟨?_, hmisses, haccesses, haccesses ▸ r.upgrades_le_accesses R, htransfers.trans hmisses⟩
  calc R ≤ 1 + 2 * x.longest + r.busy R := (h.le r).1
    _ ≤ 1 + 2 * ∑ i, (x.traces i).length + (x.hitTime + 2) * ∑ i, (x.traces i).length :=
        Nat.add_le_add (Nat.add_le_add_left (Nat.mul_le_mul_left 2 hlong) 1) (r.busy_le R)
    _ = 1 + (x.hitTime + 4) * ∑ i, (x.traces i).length := by ring

end Run

/-- **A job over proper files prints something**, if they are not so long that a counter
overflows. -/
theorem Job.exists_prints (job : Job) (hl : ∀ i, LineByLine (job.files i))
    (hshort : 1 + 104 * ∑ i, (accessesIn (job.files i)).length < 2 ^ 63) : ∃ r s, job.Prints r s := by
  set x := Input.ofFiles job.protocol 100 (by decide) job.files hl with hx
  obtain ⟨R, hR⟩ := x.run.exists_ends
  obtain ⟨hclock, hmisses, haccesses, hupgrades, htransfers⟩ := hR.lt_of_short x.run
  rw [show ∑ i, (x.traces i).length = ∑ i, (accessesIn (job.files i)).length from rfl] at *
  have hlt : R < 2 ^ 63 := lt_of_le_of_lt hclock hshort
  -- the run over the files prints what the run over the accesses does
  have hprints := x.run.run_prints hR (Nat.le_refl R) []
  rw [show Simulator.init x.traces = (Simulator.init job.files).traced from rfl,
    show x.settings = job.settings from rfl, Logged.run_traced] at hprints
  obtain ⟨s, hs, hstate⟩ : ∃ s, StateT.run (Logged.run job.settings R (Simulator.init job.files)) [] =
      .ok (some s, x.run.log 0 R) ∧ s.traced = x.run.state R := by
    rcases hrun : StateT.run (Logged.run job.settings R (Simulator.init job.files)) [] with e | ⟨_ | s, log⟩
    · rw [hrun] at hprints
      cases hprints
    · rw [hrun] at hprints
      cases hprints
    · rw [hrun] at hprints
      obtain ⟨hstate, hlog⟩ := Prod.mk.inj (Except.ok.inj hprints)
      exact ⟨s, congrArg (fun log => Except.ok (some s, log)) hlog, Option.some.inj hstate⟩
  have hentries : ∀ i, ∃ entries, (s.Nd i).L1.Iterates entries := by
    intro i
    have := hR.exists_iterates x.run i
    rwa [← hstate] at this
  choose entries hentries using hentries
  have hs_clock : s.globalClock = R := (congrArg Simulator.globalClock hstate).trans (x.run.clock R)
  have hs_stats : s.stats = (x.run.state R).stats := congrArg Simulator.stats hstate
  refine ⟨⟨job.protocol, x.run.log 0 R, List.ofFn entries, s.globalClock, s.stats, ?_, ?_, ?_, ?_, ?_⟩, s,
    ⟨R, hs⟩, rfl, List.length_ofFn, fun i => ⟨entries i, by simp, hentries i⟩, rfl, rfl⟩
  · omega
  · rw [hs_stats]; omega
  · rw [hs_stats]; omega
  · rw [hs_stats]; omega
  · rw [hs_stats]; omega

/-! ### The command lines -/

/-- `run_simulation` of `runs.py` -/
def command (inputTrace : List Char) (protocol : Protocol) : List (List Char) :=
  ["-t".toList, inputTrace, "-p".toList, protocol.name.toList]

/-- The one of `validate.sh` -/
def validateCommand (validDir : List Char) (protocol : Protocol) : List (List Char) :=
  ["-t".toList, validDir, "-p".toList ++ protocol.name.toList]

/-- What `main` asks of a trace directory for `n` processors. -/
structure TraceDirectory (fs : Files) (traceDir : List Char) (files : Fin n → TraceFile) : Prop where
  pos : 0 < n
  path_lt : (configPath traceDir).length < 1000
  config : ∃ text, fs (configPath traceDir) = some text ∧ scanInt text = some (n : ℤ)
  traces : ∀ i : Fin n, (tracePath traceDir i).length < 100 ∧ fs (tracePath traceDir i) = some (files i)

theorem protocolOf_name (p : Protocol) : protocolOf p.name.toList = some p := by
  cases p <;> decide

/-- Both command lines give the same options. -/
theorem parseOptions_command (traceDir : List Char) (p : Protocol) :
    parseOptions ⟨none, none⟩ (getopt optstring (command traceDir p)) =
      .ok ⟨some p.name.toList, some traceDir⟩ ∧
    parseOptions ⟨none, none⟩ (getopt optstring (validateCommand traceDir p)) =
      .ok ⟨some p.name.toList, some traceDir⟩ := by
  have ht : ∀ args, getopt optstring ("-t".toList :: traceDir :: args) =
      ('t', some traceDir) :: getopt optstring args :=
    getopt_separate rfl (by decide)
  have hne : p.name.toList ≠ [] := by cases p <;> decide
  constructor
  · rw [command, ht, show getopt optstring ["-p".toList, p.name.toList] = ('p', some p.name.toList) :: _ from
      getopt_separate rfl (by decide) []]
    rfl
  · rw [validateCommand, ht, show getopt optstring ["-p".toList ++ p.name.toList] =
      ('p', some p.name.toList) :: _ from getopt_attached rfl (by decide) hne []]
    rfl

namespace TraceDirectory

variable {fs : Files} {traceDir : List Char} {files : Fin n → TraceFile}

theorem openTraces_eq (h : TraceDirectory fs traceDir files) (p : Protocol) :
    openTraces fs traceDir p n = .ok ⟨n, p, files⟩ := by
  have hfiles : (fun i : Fin n => (fs (tracePath traceDir i)).getD []) = files := by
    funext i
    rw [(h.traces i).2]
    rfl
  rw [openTraces, if_pos fun i => ⟨(h.traces i).1, by rw [(h.traces i).2]; rfl⟩, hfiles]

theorem main_eq (h : TraceDirectory fs traceDir files) {p : Protocol} {args : List (List Char)}
    (hargs : parseOptions ⟨none, none⟩ (getopt optstring args) = .ok ⟨some p.name.toList, some traceDir⟩) :
    main fs args = .ok ⟨n, p, files⟩ := by
  obtain ⟨text, htext, hscan⟩ := h.config
  have hpath : ¬ 1000 ≤ (configPath traceDir).length := Nat.not_le.mpr h.path_lt
  have hne : ¬ (n : ℤ) = 0 := by have := h.pos; omega
  have hpos : ¬ (n : ℤ) < 0 := by omega
  unfold main
  rw [hargs]
  show (if 1000 ≤ (configPath traceDir).length then _ else _) = _
  rw [if_neg hpath]
  show (orEnd _ (fs (configPath traceDir)) >>= _) = _
  rw [htext]
  show (orEnd _ (scanInt text) >>= _) = _
  rw [hscan]
  show (if (n : ℤ) = 0 then _ else _) = _
  rw [if_neg hne]
  show (orEnd _ (protocolOf p.name.toList) >>= _) = _
  rw [protocolOf_name]
  simp only [orEnd, Loop.ok_bind, hpos, if_false]
  exact h.openTraces_eq p

/-- **Both scripts have `main` make the same run.** -/
theorem main_command (h : TraceDirectory fs traceDir files) (p : Protocol) :
    main fs (command traceDir p) = .ok ⟨n, p, files⟩ ∧
    main fs (validateCommand traceDir p) = .ok ⟨n, p, files⟩ :=
  ⟨h.main_eq (parseOptions_command traceDir p).1, h.main_eq (parseOptions_command traceDir p).2⟩

end TraceDirectory

/-! ### `runs.py` and `plots.py` -/

/-- The program prints this for these arguments. -/
def SimTrace (fs : Files) (args : List (List Char)) (r : FinishedRun) : Prop :=
  ∃ job s, main fs args = .ok job ∧ job.Prints r s

/-- `protocols` -/
def protocols : List Protocol := [.MI_PRO, .MSI_PRO, .MESI_PRO, .MOSI_PRO, .MOESI_PRO, .MOESIF_PRO]

/-- The loop of `runs.py` over the protocols, for one trace directory: what the program prints
goes to a file, and its counters to the CSV file of the directory. -/
def runsPy (out : Protocol → List Char) (csv : List Char) : Except PyError (List Char) :=
  protocols.foldlM (fun csv p => parseResults p.name (out p) csv) csv

/-- The rows that are in a CSV file already. -/
def rows (runs : List FinishedRun) : List Char := runs.flatMap fun r => r.row ++ ['\n']

theorem runsPy_eq {out : Protocol → FinishedRun} (hout : ∀ p, (out p).protocol = p) (earlier : List FinishedRun) :
    runsPy (fun p => (out p).log) (rows earlier) = .ok (rows (earlier ++ protocols.map out)) := by
  have hloop : runsPy (fun p => (out p).log) (rows earlier) =
      (protocols.map out).foldlM (fun csv r => parseResults r.protocol.name r.log csv) (rows earlier) := by
    rw [List.foldlM_map]
    simp only [hout]
    rfl
  rw [hloop, foldlM_parseResults, rows, rows, List.flatMap_append]

/-- The last run of a protocol is the one of this loop. -/
theorem getLast?_filter {out : Protocol → FinishedRun} (hout : ∀ p, (out p).protocol = p)
    (earlier : List FinishedRun) (p : Protocol) :
    ((earlier ++ protocols.map out).filter fun r => r.protocol = p).getLast? = some (out p) := by
  have hone : (protocols.map out).filter (fun r => r.protocol = p) = [out p] := by
    rw [List.filter_map]
    have hkeep : protocols.filter ((fun r => decide (r.protocol = p)) ∘ out) = [p] := by
      simp only [Function.comp_def, hout]
      cases p <;> rfl
    rw [hkeep]
    rfl
  rw [List.filter_append, hone, List.getLast?_append, List.getLast?_singleton]
  rfl

/-- **What is plotted is what was simulated.** For a trace directory whose files are lists of
accesses, the program prints something under each protocol; and whatever `runs.py` appends
its counters to, `plots.py` has for each protocol those of the run of that protocol over the
accesses in the files. -/
theorem figures {fs : Files} {traceDir : List Char} {files : Fin n → TraceFile}
    (h : TraceDirectory fs traceDir files) (hl : ∀ i, LineByLine (files i))
    (hshort : 1 + 104 * ∑ i, (accessesIn (files i)).length < 2 ^ 63) :
    (∀ p, ∃ r, SimTrace fs (command traceDir p) r) ∧
    ∀ (out : Protocol → FinishedRun) (earlier : List FinishedRun),
      (∀ p, SimTrace fs (command traceDir p) (out p)) → ∃ csv data,
        runsPy (fun p => (out p).log) (rows earlier) = .ok csv ∧ readData csv = .ok data ∧
        ∀ p : Protocol, ∃ t, (∃ fuel, (Simulator.init fun i => accessesIn (files i)).run ⟨p, 100⟩ fuel =
          .ok (some t)) ∧ data p.name.toList = some ⟨t.globalClock, t.stats.cacheMisses,
            t.stats.cacheAccesses, t.stats.silentUpgrades, t.stats.cacheToCacheTransfers⟩ := by
  refine ⟨fun p => ?_, fun out earlier hout => ?_⟩
  · obtain ⟨r, s, hr⟩ := Job.exists_prints ⟨n, p, files⟩ hl hshort
    exact ⟨r, _, s, (h.main_command p).1, hr⟩
  · have hprints : ∀ p, ∃ s, Job.Prints ⟨n, p, files⟩ (out p) s := by
      intro p
      obtain ⟨job, s, hmain, hs⟩ := hout p
      obtain rfl : (⟨n, p, files⟩ : Job) = job :=
        Except.ok.inj ((h.main_command p).1.symm.trans hmain)
      exact ⟨s, hs⟩
    have hprotocol : ∀ p, (out p).protocol = p := fun p => (hprints p).choose_spec.protocol
    refine ⟨_, _, runsPy_eq hprotocol earlier, foldlM_readLine _ _, fun p => ?_⟩
    obtain ⟨s, hs⟩ := hprints p
    obtain ⟨t, hrun, hcounters⟩ := hs.run
    refine ⟨t, hrun, ?_⟩
    rw [foldl_update, getLast?_filter hprotocol, Option.map_some, hcounters]

/-- A trace directory for two processors, one that stores and one that loads. -/
def twoTraces : Files := fun path =>
  [("traces/two/config".toList, "2\n".toList), ("traces/two/p0.trace".toList, "w 0x40\n".toList),
    ("traces/two/p1.trace".toList, "r 0x40\n".toList)].lookup path

theorem lineByLine_one {op : Char} (hop : op = 'r' ∨ op = 'w') : LineByLine (op :: " 0x40\n".toList) := by
  refine ⟨Or.inr fun c hc => ?_, fun l hl => ⟨.print op 0 0x40, ?_, hop⟩⟩
  · obtain rfl := Option.some.inj hc
    rcases hop with rfl | rfl <;> rfl
  · have hlines : lineTexts (op :: " 0x40\n".toList) = [op :: " 0x40".toList] := by
      rcases hop with rfl | rfl <;> decide
    rw [hlines, List.mem_singleton] at hl
    subst hl
    rfl

theorem traceDirectory_two : TraceDirectory (n := 2) twoTraces "traces/two".toList
    ![ "w 0x40\n".toList, "r 0x40\n".toList] where
  pos := by decide
  path_lt := by decide
  config := ⟨"2\n".toList, by decide, by decide⟩
  traces := by decide

theorem figures_two :
    (∀ p, ∃ r, SimTrace twoTraces (command "traces/two".toList p) r) ∧
    ∀ (out : Protocol → FinishedRun) (earlier : List FinishedRun),
      (∀ p, SimTrace twoTraces (command "traces/two".toList p) (out p)) → ∃ csv data,
        runsPy (fun p => (out p).log) (rows earlier) = .ok csv ∧ readData csv = .ok data ∧
        ∀ p : Protocol, ∃ t, (∃ fuel, (Simulator.init fun i =>
            accessesIn (![ "w 0x40\n".toList, "r 0x40\n".toList] i)).run ⟨p, 100⟩ fuel = .ok (some t)) ∧
          data p.name.toList = some ⟨t.globalClock, t.stats.cacheMisses, t.stats.cacheAccesses,
            t.stats.silentUpgrades, t.stats.cacheToCacheTransfers⟩ := by
  refine figures traceDirectory_two (fun i => ?_) (by decide)
  fin_cases i
  · exact lineByLine_one (Or.inr rfl)
  · exact lineByLine_one (Or.inl rfl)

end CoherenceSim
