/-
# The results of runs

What a finished run prints: the messages of `sim/sim.cpp`, `sim/processor.cpp`,
`sim/hash_table.cpp`, `sim/memory.cpp` and `protocols/protocol.cpp`, the dump of the caches and
the five lines of `Simulator::dump_stats`; `parse_results` of `runs.py`, which takes the
counters out of it and appends a row to a CSV file; and `read_data` of `plots.py`, which reads
that file. No counter is lost or mixed up on the way (`pipeline_lossless`).
-/
import CoherenceSim.Sim
import CoherenceSim.Lib.Loop
import CoherenceSim.Lib.Text

namespace CoherenceSim

open Text

/-! ### Numbers as `fprintf` prints them -/

/-- `%llu` -/
def llu (k : ℕ) : List Char := ofInt (BitVec.ofNat 64 k).toNat

/-- `%ld` of a counter, which is unsigned. -/
def ld (k : ℕ) : List Char := ofInt (BitVec.ofNat 64 k).toInt

/-- `%llx` -/
def llx (k : BitVec 64) : List Char := Nat.toDigits 16 k.toNat

/-! ### What a run prints -/

/-- The name of a protocol on the command line, and in `runs.py`. -/
def Protocol.name : Protocol → String
  | .MI_PRO => "MI"
  | .MSI_PRO => "MSI"
  | .MESI_PRO => "MESI"
  | .MOESI_PRO => "MOESI"
  | .MOSI_PRO => "MOSI"
  | .MOESIF_PRO => "MOESIF"

/-- `Mreq::message_t_str` -/
def Message.str : Message → String
  | .NOP => "NOP"
  | .LOAD => "LOAD"
  | .STORE => "STORE"
  | .GETS => "GETS"
  | .GETM => "GETM"
  | .DATA => "DATA"
  | .MREQ_INVALID => "MREQ_INVALID"

/-- `get_state_str`: the `block_states` of every protocol have the states under these names. -/
def CacheState.str : CacheState → String
  | .I => "I"
  | .S => "S"
  | .E => "E"
  | .O => "O"
  | .M => "M"
  | .F => "F"
  | .IM => "IM"
  | .IS => "IS"

/-- `print_id` -/
def printId (str : String) (mid : ModuleID) : List Char :=
  rjust 4 str.toList ++
    match mid.moduleIndex with
    | .NI_M => ":".toList ++ rjust 3 (ofInt mid.nodeID) ++ "/NI  ".toList
    | .PR_M => ":".toList ++ rjust 3 (ofInt mid.nodeID) ++ "/PR  ".toList
    | .L1_M => ":".toList ++ rjust 3 (ofInt mid.nodeID) ++ "/L1  ".toList
    | .L2_M => ":".toList ++ rjust 3 (ofInt mid.nodeID) ++ "/L2  ".toList
    | .L3_M => ":".toList ++ rjust 3 (ofInt mid.nodeID) ++ "/L3  ".toList
    | .MC_M => ":".toList ++ rjust 3 (ofInt mid.nodeID) ++ "/MC  ".toList
    | .INVALID_M => ":  None ".toList

/-- `Mreq::print_msg`. The shift of the address is that of a signed number. -/
def Mreq.printMsg (request : Mreq) (mid : ModuleID) (clock : ℕ) : List Char :=
  printId "node" mid ++ printId "src" request.srcMid ++ printId "dest" request.destMid ++
    "tag: 0x".toList ++ rjust 8 (llx (request.addr.sshiftRight cacheLineSizeLog2)) ++
    " clock: ".toList ++ rjust 8 (llu clock) ++ " ".toList ++
    " ".toList ++ rjust 8 request.msg.str.toList ++ "\n".toList

/-- The messages a run prints while it is going on. One that fetches another operation than
these two does not finish. -/
inductive LogMessage
  | complete (pr : ℕ) (clock : ℕ)
  | fetch (pr : ℕ) (clock : ℕ) (c : Char) (known : c = 'r' ∨ c = 'w') (addr : Paddr)
  | procRequest (mid : ModuleID) (request : Mreq) (clock : ℕ)
  | snoopRequest (mid : ModuleID) (request : Mreq) (clock : ℕ)
  | dataSend (cache : ℕ) (clock : ℕ)
  | dataSendMc (clock : ℕ)

def LogMessage.print : LogMessage → List Char
  | complete pr clock =>
    "* COMPLETE -- PR: ".toList ++ ofInt pr ++ " -- Clock: ".toList ++ llu clock ++ "\n".toList
  | fetch pr clock c _ addr =>
    "* FETCH -- PR: ".toList ++ ofInt pr ++ " -- Clock: ".toList ++ llu clock ++ " -- ".toList ++ [c] ++
      " 0x".toList ++ llx addr ++ "\n".toList
  | procRequest mid request clock => "** PROC REQUEST -- ".toList ++ request.printMsg mid clock
  | snoopRequest mid request clock => "*** SNOOP REQUEST -- ".toList ++ request.printMsg mid clock
  | dataSend cache clock =>
    "**** DATA_SEND Cache: ".toList ++ ofInt cache ++ " -- Clock: ".toList ++ llu clock ++ "\n".toList
  | dataSendMc clock => "**** DATA SEND MC -- Clock: ".toList ++ llu clock ++ "\n".toList

/-- A run that has ended. -/
structure FinishedRun where
  protocol : Protocol
  messages : List LogMessage
  caches : List (List HashEntry)
  clock : ℕ
  stats : Stats
  clock_lt : clock < 2 ^ 63
  misses_lt : stats.cacheMisses < 2 ^ 63
  accesses_lt : stats.cacheAccesses < 2 ^ 63
  upgrades_lt : stats.silentUpgrades < 2 ^ 63
  transfers_lt : stats.cacheToCacheTransfers < 2 ^ 63

/-- `Hash_entry::dump` -/
def HashEntry.dump (p : Protocol) (entry : HashEntry) : List Char :=
  "Addr: 0x".toList ++ llx entry.tag ++ " ".toList ++
    p.name.toList ++ "_protocol".toList ++ " - state: ".toList ++ entry.state.str.toList ++ "\n".toList

/-- `Hash_table::dump_hash_table` of cache `i` -/
def dumpHashTable (p : Protocol) (i : ℕ) (entries : List HashEntry) : List Char :=
  "Cache ".toList ++ ofInt i ++ " Contents:\n".toList ++ entries.flatMap (HashEntry.dump p)

namespace FinishedRun

variable (r : FinishedRun)

/-- `Simulator::dump_stats` -/
def dumpStats : List Char :=
  r.caches.zipIdx.flatMap (fun cache => dumpHashTable r.protocol cache.2 cache.1) ++
    ("\nRun Time:         ".toList ++ rjust 8 (llu r.clock) ++ " cycles\n".toList ++
    ("Cache Misses:     ".toList ++ rjust 8 (ld r.stats.cacheMisses) ++ " misses\n".toList ++
    ("Cache Accesses:   ".toList ++ rjust 8 (ld r.stats.cacheAccesses) ++ " accesses\n".toList ++
    ("Silent Upgrades:  ".toList ++ rjust 8 (ld r.stats.silentUpgrades) ++ " upgrades\n".toList ++
    ("$-to-$ Transfers: ".toList ++ rjust 8 (ld r.stats.cacheToCacheTransfers) ++ " transfers\n".toList)))))

/-- What `Simulator::run` prints. -/
def log : List Char :=
  "CSX290 Sim - Begins  ".toList ++ " Cores: ".toList ++ ofInt r.caches.length ++
    " Protocol: ".toList ++ r.protocol.name.toList ++ "_PRO\n".toList ++
    r.messages.flatMap LogMessage.print ++ "\n\nSimulation Finished\n".toList ++ r.dumpStats

end FinishedRun

/-! ### `runs.py` -/

/-- What ends a Python program. -/
inductive PyError
  | indexError | valueError | keyError
deriving DecidableEq, Repr

/-- A dictionary. -/
abbrev Dict (α : Type) := List Char → Option α

/-- `l[k]` -/
def item {α : Type} (l : List α) (k : ℕ) : Except PyError α :=
  match l[k]? with
  | some a => .ok a
  | none => .error .indexError

/-- `int(s)` -/
def pyInt (s : List Char) : Except PyError ℤ :=
  match readInt s with
  | some z => .ok z
  | none => .error .valueError

/-- `data[key]` -/
def lookup {α : Type} (data : Dict α) (key : String) : Except PyError α :=
  match data key.toList with
  | some a => .ok a
  | none => .error .keyError

/-- `extract_int_from_results` -/
def extractIntFromResults (resultsLine : List Char) : Except PyError ℤ := do
  let field ← item (split ":".toList resultsLine) 1
  let word ← item (words (strip field)) 0
  pyInt word

def summaryLines : List String :=
  ["Run Time", "Cache Misses", "Cache Accesses", "Silent Upgrades", "$-to-$ Transfers"]

/-- A line of the results, and one of the lines looked for. -/
def parseLabel (line : List Char) (data : Dict ℤ) (s : String) : Except PyError (Dict ℤ) :=
  if s.toList.isPrefixOf line then do
    let value ← extractIntFromResults line
    return Function.update data s.toList (some value)
  else return data

/-- The loop over `summary_lines`, for a line of the results. -/
def parseLine (data : Dict ℤ) (line : List Char) : Except PyError (Dict ℤ) :=
  summaryLines.foldlM (parseLabel line) data

/-- `parse_results`: the CSV file with the row of the run behind what is in it. -/
def parseResults (protocol : String) (resultsFile dataFile : List Char) : Except PyError (List Char) := do
  let data ← (lines resultsFile).foldlM parseLine fun _ => none
  let runTime ← lookup data "Run Time"
  let misses ← lookup data "Cache Misses"
  let accesses ← lookup data "Cache Accesses"
  let upgrades ← lookup data "Silent Upgrades"
  let transfers ← lookup data "$-to-$ Transfers"
  return dataFile ++ List.intercalate ", ".toList [protocol.toList, ofInt runTime, ofInt misses,
    ofInt accesses, ofInt upgrades, ofInt transfers] ++ "\n".toList

/-! ### `plots.py` -/

/-- What `read_data` has of a run. -/
structure RunData where
  runtime : ℤ
  misses : ℤ
  accesses : ℤ
  upgrades : ℤ
  transfers : ℤ
deriving DecidableEq, Repr

/-- The loop of `read_data`, for one line. -/
def readLine (data : Dict RunData) (line : List Char) : Except PyError (Dict RunData) := do
  let vals := split ", ".toList line
  let protocol ← item vals 0
  let runtime ← item vals 1 >>= pyInt
  let misses ← item vals 2 >>= pyInt
  let accesses ← item vals 3 >>= pyInt
  let upgrades ← item vals 4 >>= pyInt
  let transfers ← item vals 5 >>= pyInt
  return Function.update data protocol (some ⟨runtime, misses, accesses, upgrades, transfers⟩)

/-- `read_data` -/
def readData (dataFile : List Char) : Except PyError (Dict RunData) :=
  (lines dataFile).foldlM readLine fun _ => none

/-! ### Lines that `runs.py` passes over -/

theorem newline_notMem_toDigits {b : ℕ} (hb : 1 < b) (hb' : b ≤ 16) (k : ℕ) : '\n' ∉ Nat.toDigits b k := by
  intro h
  have := isSpace_of_isDigit hb' (isDigit_of_mem_toDigits hb hb' h)
  cases this

@[simp] theorem newline_notMem_ofInt (z : ℤ) : '\n' ∉ ofInt z := by
  cases z with
  | ofNat k => exact newline_notMem_toDigits (by decide) (by decide) k
  | negSucc k =>
    exact List.not_mem_cons_of_ne_of_not_mem (by decide) (newline_notMem_toDigits (by decide) (by decide) _)

@[simp] theorem newline_notMem_llu (k : ℕ) : '\n' ∉ llu k := newline_notMem_ofInt _

@[simp] theorem newline_notMem_llx (k : BitVec 64) : '\n' ∉ llx k :=
  newline_notMem_toDigits (by decide) (by decide) _

@[simp] theorem newline_mem_rjust (k : ℕ) (s : List Char) : '\n' ∈ rjust k s ↔ '\n' ∈ s := by
  simp [rjust]

@[simp] theorem newline_notMem_printId (s : String) (mid : ModuleID) (hs : '\n' ∉ s.toList) :
    '\n' ∉ printId s mid := by
  unfold printId
  split <;> simp [hs]

/-- Whole lines, none of which starts as a line of the summary does. -/
def PassedOver (text : List Char) : Prop :=
  ∃ ls : List (List Char), (text = ls.flatMap fun l => l ++ ['\n']) ∧ ∀ l ∈ ls, '\n' ∉ l ∧
    ∀ s ∈ summaryLines, s.toList.isPrefixOf (l ++ ['\n']) = false

theorem PassedOver.append {s t : List Char} (hs : PassedOver s) (ht : PassedOver t) : PassedOver (s ++ t) := by
  obtain ⟨ls, rfl, hls⟩ := hs
  obtain ⟨ms, rfl, hms⟩ := ht
  exact ⟨ls ++ ms, List.flatMap_append.symm, List.forall_mem_append.mpr ⟨hls, hms⟩⟩

theorem PassedOver.flatMap {α : Type} {f : α → List Char} (h : ∀ a, PassedOver (f a)) (l : List α) :
    PassedOver (l.flatMap f) := by
  induction l with
  | nil => exact ⟨[], rfl, List.forall_mem_nil _⟩
  | cons a l ih => exact (h a).append ih

theorem passedOver_line {l : List Char} (hl : '\n' ∉ l)
    (h : ∀ s ∈ summaryLines, s.toList.isPrefixOf (l ++ ['\n']) = false) : PassedOver (l ++ ['\n']) :=
  ⟨[l], (List.flatMap_singleton ..).symm, List.forall_mem_singleton.mpr ⟨hl, h⟩⟩

/-- No line of the summary starts with another character than these. -/
theorem not_isPrefixOf_cons {c : Char} (hc : c ≠ 'R' ∧ c ≠ 'C' ∧ c ≠ 'S' ∧ c ≠ '$') (l : List Char) :
    ∀ s ∈ summaryLines, s.toList.isPrefixOf (c :: l) = false := by
  simp [summaryLines, isPrefixOf_cons_ne, hc]

theorem passedOver_head {l : List Char} (hl : '\n' ∉ l)
    (hc : ∃ c ∈ l.head?, c ≠ 'R' ∧ c ≠ 'C' ∧ c ≠ 'S' ∧ c ≠ '$') : PassedOver (l ++ "\n".toList) := by
  obtain ⟨c, hmem, hc⟩ := hc
  cases l with
  | nil => cases hmem
  | cons d l =>
    obtain rfl : d = c := Option.some.inj hmem
    exact passedOver_line hl (not_isPrefixOf_cons hc _)

theorem Mreq.newline_notMem_printMsg (request : Mreq) (mid : ModuleID) (clock : ℕ) :
    ∃ l, '\n' ∉ l ∧ request.printMsg mid clock = l ++ "\n".toList := by
  refine ⟨_, ?_, rfl⟩
  have hmsg : '\n' ∉ request.msg.str.toList := by cases request.msg <;> decide
  simp [hmsg]

/-- **The messages of a run are passed over.** -/
theorem LogMessage.passedOver_print (m : LogMessage) : PassedOver m.print := by
  cases m with
  | complete pr clock => exact passedOver_head (by simp) (by simp)
  | fetch pr clock c known addr =>
    have hc : c ≠ '\n' := by rcases known with rfl | rfl <;> decide
    exact passedOver_head (by simp [Ne.symm hc]) (by simp)
  | procRequest mid request clock =>
    obtain ⟨l, hl, heq⟩ := request.newline_notMem_printMsg mid clock
    show PassedOver ("** PROC REQUEST -- ".toList ++ _)
    rw [heq, ← List.append_assoc]
    exact passedOver_head (by simp [hl]) (by simp)
  | snoopRequest mid request clock =>
    obtain ⟨l, hl, heq⟩ := request.newline_notMem_printMsg mid clock
    show PassedOver ("*** SNOOP REQUEST -- ".toList ++ _)
    rw [heq, ← List.append_assoc]
    exact passedOver_head (by simp [hl]) (by simp)
  | dataSend cache clock => exact passedOver_head (by simp) (by simp)
  | dataSendMc clock => exact passedOver_head (by simp) (by simp)

theorem HashEntry.passedOver_dump (p : Protocol) (entry : HashEntry) : PassedOver (entry.dump p) := by
  have hp : '\n' ∉ p.name.toList := by cases p <;> decide
  have hstate : '\n' ∉ entry.state.str.toList := by cases entry.state <;> decide
  exact passedOver_head (by simp [hp, hstate]) (by simp)

/-- `Cache 0 Contents:` is neither `Cache Misses` nor `Cache Accesses`. -/
theorem passedOver_dumpHashTable (p : Protocol) (i : ℕ) (entries : List HashEntry) :
    PassedOver (dumpHashTable p i entries) := by
  refine PassedOver.append ?_ (.flatMap (HashEntry.passedOver_dump p) entries)
  have hend : " Contents:\n".toList = " Contents:".toList ++ ['\n'] := by decide
  rw [hend, ← List.append_assoc]
  refine passedOver_line (by simp) ?_
  have hdigit := isDigit_ofInt (Int.natCast_nonneg i)
  match hi : ofInt i with
  | [] => exact absurd hi (ofInt_ne_nil i)
  | d :: ds =>
    have hd : d ≠ 'M' ∧ d ≠ 'A' := by
      rw [hi] at hdigit
      constructor <;> (rintro rfl; exact absurd (hdigit _ List.mem_cons_self) (by decide))
    simp [summaryLines, isPrefixOf_cons_ne, hd]

theorem passedOver_finished : PassedOver "\n\nSimulation Finished\n".toList :=
  ⟨[[], [], "Simulation Finished".toList], by decide, by decide⟩

theorem passedOver_begins (cores : ℕ) (p : Protocol) : PassedOver ("CSX290 Sim - Begins  ".toList ++
    " Cores: ".toList ++ ofInt cores ++ " Protocol: ".toList ++ p.name.toList ++ "_PRO\n".toList) := by
  have hend : "_PRO\n".toList = "_PRO".toList ++ ['\n'] := by decide
  have hp : '\n' ∉ p.name.toList := by cases p <;> decide
  rw [hend, ← List.append_assoc]
  refine passedOver_line (by simp [hp]) ?_
  simp [summaryLines, isPrefixOf_cons_ne]

/-! ### What `parse_results` takes out of a log -/

theorem parseLine_passedOver {line : List Char} (h : ∀ s ∈ summaryLines, s.toList.isPrefixOf line = false)
    (data : Dict ℤ) : parseLine data line = .ok data := by
  unfold parseLine
  generalize summaryLines = ls at h
  induction ls with
  | nil => rfl
  | cons s ls ih =>
    obtain ⟨hs, h⟩ := List.forall_mem_cons.mp h
    rw [List.foldlM_cons, parseLabel, hs]
    exact ih h

/-- **Lines that are passed over change nothing.** -/
theorem foldlM_passedOver {text : List Char} (h : PassedOver text) (rest : List Char) (data : Dict ℤ) :
    (lines (text ++ rest)).foldlM parseLine data = (lines rest).foldlM parseLine data := by
  obtain ⟨ls, rfl, hls⟩ := h
  induction ls with
  | nil => rfl
  | cons l ls ih =>
    obtain ⟨⟨hl, hs⟩, hls⟩ := List.forall_mem_cons.mp hls
    rw [List.flatMap_cons, List.append_assoc, List.append_assoc]
    show (lines (l ++ '\n' :: _)).foldlM parseLine data = _
    rw [lines_append hl, List.foldlM_cons, parseLine_passedOver hs]
    exact ih hls

/-- A line of the summary. -/
def statLine (s : String) (gap : ℕ) (z : ℤ) (unit : String) : List Char :=
  s.toList ++ ':' :: (List.replicate gap ' ' ++ rjust 8 (ofInt z)) ++ ' ' :: unit.toList

/-- What the unit of a counter is: words with no colon. -/
def IsUnit (unit : String) : Prop :=
  ':' ∉ unit.toList ∧ '\n' ∉ unit.toList ∧ unit.toList.getLast?.map isSpace = some false

section
variable {s unit : String} {gap : ℕ} {z : ℤ}

theorem newline_notMem_statLine (hs : '\n' ∉ s.toList) (hu : IsUnit unit) :
    '\n' ∉ statLine s gap z unit := by
  simp [statLine, hs, hu.2.1]

/-- A number is read back, also at the end of a line. -/
theorem pyInt_ofInt {v : List Char} (hz : 0 ≤ z) (hv : Blank v) : pyInt (ofInt z ++ v) = .ok z := by
  rw [pyInt, ← List.nil_append (ofInt z ++ v), readInt_ofInt hz (List.forall_mem_nil _) hv]

theorem colon_notMem_ofInt (hz : 0 ≤ z) : ':' ∉ ofInt z :=
  fun h => absurd (isDigit_ofInt hz _ h) (by decide)

/-- A line of the summary, cut at its colon. -/
theorem exists_statLine (s unit : String) (gap : ℕ) (z : ℤ) : ∃ w, Blank w ∧
    statLine s gap z unit ++ ['\n'] =
      s.toList ++ (":".toList ++ (w ++ ((ofInt z ++ ' ' :: unit.toList) ++ ['\n']))) := by
  refine ⟨List.replicate gap ' ' ++ List.replicate (8 - (ofInt z).length) ' ', Blank.append ?_ ?_, ?_⟩
  · exact fun d hd => (List.eq_of_mem_replicate hd).symm ▸ rfl
  · exact fun d hd => (List.eq_of_mem_replicate hd).symm ▸ rfl
  · simp only [statLine, rjust, List.append_assoc, List.cons_append]
    rfl

/-- The number of a line of the summary. -/
theorem extractIntFromResults_statLine (hs : ':' ∉ s.toList) (hz : 0 ≤ z) (hu : IsUnit unit) :
    extractIntFromResults (statLine s gap z unit ++ ['\n']) = .ok z := by
  obtain ⟨hcolon, -, hend⟩ := hu
  obtain ⟨c, hc, hlast⟩ := Option.map_eq_some_iff.mp hend
  obtain ⟨w, hw, hline⟩ := exists_statLine s unit gap z
  have hspace : ∀ d ∈ ofInt z, isSpace d = false :=
    fun d hd => isSpace_of_isDigit (by decide) (isDigit_ofInt hz d hd)
  have hsplit : split ":".toList (statLine s gap z unit ++ ['\n']) =
      [s.toList, w ++ ((ofInt z ++ ' ' :: unit.toList) ++ ['\n'])] := by
    have hwcolon : ':' ∉ w := fun h => absurd (hw _ h) (by decide)
    rw [hline]
    refine (split_append hs _).trans (congrArg _ (split_of_notMem ?_))
    simp [hcolon, hwcolon, colon_notMem_ofInt hz]
  have hstrip : strip (w ++ ((ofInt z ++ ' ' :: unit.toList) ++ ['\n'])) = ofInt z ++ ' ' :: unit.toList := by
    refine strip_eq hw ?_ ?_ (List.forall_mem_singleton.mpr rfl)
    · intro d hd
      rw [List.head?_append_of_ne_nil _ (ofInt_ne_nil z)] at hd
      exact hspace d (List.mem_of_mem_head? hd)
    · intro d hd
      rw [List.getLast?_append, List.getLast?_cons, hc] at hd
      obtain rfl : c = d := Option.some.inj hd
      exact hlast
  have hwords : words (ofInt z ++ ' ' :: unit.toList) = ofInt z :: words (' ' :: unit.toList) :=
    words_append (ofInt_ne_nil z) hspace fun d hd => by obtain rfl : ' ' = d := Option.some.inj hd; rfl
  unfold extractIntFromResults
  rw [hsplit]
  show (item (words (strip _)) 0 >>= pyInt) = _
  rw [hstrip, hwords]
  have hread := pyInt_ofInt hz (List.forall_mem_nil _)
  rwa [List.append_nil] at hread

/-- Of the labels, no one starts a line of another. -/
theorem isPrefixOf_label (hs : s ∈ summaryLines) (rest : List Char) :
    ∀ s' ∈ summaryLines, s'.toList.isPrefixOf (s.toList ++ ':' :: rest) = decide (s' = s) := by
  simp only [summaryLines, List.mem_cons, List.not_mem_nil, or_false] at hs
  rcases hs with rfl | rfl | rfl | rfl | rfl <;> simp [summaryLines, isPrefixOf_cons_ne]

/-- Of the labels looked for, only the line's own does something. -/
theorem foldlM_parseLabel {line : List Char} {ls : List String}
    (hs : ∀ s' ∈ ls, s'.toList.isPrefixOf line = decide (s' = s)) (hex : extractIntFromResults line = .ok z)
    (data : Dict ℤ) : ls.foldlM (parseLabel line) data =
      .ok (if s ∈ ls then Function.update data s.toList (some z) else data) := by
  induction ls generalizing data with
  | nil => rfl
  | cons s' ls ih =>
    obtain ⟨hs', hs⟩ := List.forall_mem_cons.mp hs
    rw [List.foldlM_cons, parseLabel, hs', hex]
    by_cases heq : s' = s
    · subst heq
      rw [if_pos (decide_eq_true rfl), if_pos List.mem_cons_self]
      refine (ih hs _).trans ?_
      split <;> simp
    · rw [if_neg (by simpa using heq)]
      refine (ih hs data).trans ?_
      simp only [List.mem_cons, Ne.symm heq, false_or]

/-- **A line of the summary sets its entry.** -/
theorem parseLine_statLine (hs : s ∈ summaryLines) (hz : 0 ≤ z) (hu : IsUnit unit) (data : Dict ℤ) :
    parseLine data (statLine s gap z unit ++ ['\n']) =
      .ok (Function.update data s.toList (some z)) := by
  have hcolon : ':' ∉ s.toList := by
    revert s
    decide
  have hex : extractIntFromResults (statLine s gap z unit ++ ['\n']) = .ok z :=
    extractIntFromResults_statLine hcolon hz hu
  obtain ⟨w, -, hline⟩ := exists_statLine s unit gap z
  rw [hline] at hex ⊢
  exact (foldlM_parseLabel (isPrefixOf_label hs _) hex data).trans (by rw [if_pos hs])

end

theorem llu_eq {k : ℕ} (h : k < 2 ^ 63) : llu k = ofInt k := by
  rw [llu, BitVec.toNat_ofNat, Nat.mod_eq_of_lt (by omega)]

/-- Below `2 ^ 63` a counter is printed as it is. -/
theorem ld_eq {k : ℕ} (h : k < 2 ^ 63) : ld k = ofInt k := by
  rw [ld, BitVec.toInt_eq_toNat_of_lt, BitVec.toNat_ofNat, Nat.mod_eq_of_lt (by omega)]
  rw [BitVec.toNat_ofNat]
  omega

/-- Reading on after a line of the summary. -/
theorem foldlM_statLine {s unit : String} {gap k : ℕ} (hs : s ∈ summaryLines) (hu : IsUnit unit)
    (rest : List Char) (data : Dict ℤ) :
    (lines (statLine s gap k unit ++ '\n' :: rest)).foldlM parseLine data =
      (lines rest).foldlM parseLine (Function.update data s.toList (some (k : ℤ))) := by
  have hnl : '\n' ∉ s.toList := by
    revert s
    decide
  rw [lines_append (newline_notMem_statLine hnl hu), List.foldlM_cons,
    parseLine_statLine hs (Int.natCast_nonneg k) hu]
  rfl

namespace FinishedRun

variable (r : FinishedRun)

/-- The five counters, under the names of `plots.py`. -/
def counters : RunData where
  runtime := r.clock
  misses := r.stats.cacheMisses
  accesses := r.stats.cacheAccesses
  upgrades := r.stats.silentUpgrades
  transfers := r.stats.cacheToCacheTransfers

/-- The row of the CSV file, without its end. -/
def row : List Char :=
  List.intercalate ", ".toList [r.protocol.name.toList, ofInt r.counters.runtime, ofInt r.counters.misses,
    ofInt r.counters.accesses, ofInt r.counters.upgrades, ofInt r.counters.transfers]

/-- A log is lines that are passed over, and then the summary. -/
theorem exists_log : ∃ before, PassedOver before ∧ r.log = before ++
    (statLine "Run Time" 9 r.clock "cycles" ++ '\n' ::
    (statLine "Cache Misses" 5 r.stats.cacheMisses "misses" ++ '\n' ::
    (statLine "Cache Accesses" 3 r.stats.cacheAccesses "accesses" ++ '\n' ::
    (statLine "Silent Upgrades" 2 r.stats.silentUpgrades "upgrades" ++ '\n' ::
    (statLine "$-to-$ Transfers" 1 r.stats.cacheToCacheTransfers "transfers" ++ '\n' :: []))))) := by
  have hdump : PassedOver (r.caches.zipIdx.flatMap fun cache => dumpHashTable r.protocol cache.2 cache.1) :=
    .flatMap (fun _ => passedOver_dumpHashTable _ _ _) _
  have hblank : PassedOver ([] ++ ['\n']) := passedOver_line List.not_mem_nil (by decide)
  have hmessages : PassedOver (r.messages.flatMap LogMessage.print) := .flatMap LogMessage.passedOver_print _
  refine ⟨_, ((((passedOver_begins r.caches.length r.protocol).append hmessages).append
    passedOver_finished).append hdump).append hblank, ?_⟩
  unfold log dumpStats
  simp only [llu_eq r.clock_lt, ld_eq r.misses_lt, ld_eq r.accesses_lt, ld_eq r.upgrades_lt,
    ld_eq r.transfers_lt]
  simp [statLine]

/-- **`parse_results` appends the row of the run.** -/
theorem parseResults_log (csv : List Char) :
    parseResults r.protocol.name r.log csv = .ok (csv ++ (r.row ++ ['\n'])) := by
  obtain ⟨before, hbefore, hlog⟩ := r.exists_log
  have hdata : (lines r.log).foldlM parseLine (fun _ => none) = .ok
      (Function.update (Function.update (Function.update (Function.update (Function.update (fun _ => none)
        "Run Time".toList (some (r.clock : ℤ))) "Cache Misses".toList (some (r.stats.cacheMisses : ℤ)))
        "Cache Accesses".toList (some (r.stats.cacheAccesses : ℤ)))
        "Silent Upgrades".toList (some (r.stats.silentUpgrades : ℤ)))
        "$-to-$ Transfers".toList (some (r.stats.cacheToCacheTransfers : ℤ))) := by
    have hunit : ∀ u ∈ ["cycles", "misses", "accesses", "upgrades", "transfers"], IsUnit u := by
      unfold IsUnit
      decide
    rw [hlog, foldlM_passedOver hbefore, foldlM_statLine (by decide) (hunit _ (by decide)),
      foldlM_statLine (by decide) (hunit _ (by decide)), foldlM_statLine (by decide) (hunit _ (by decide)),
      foldlM_statLine (by decide) (hunit _ (by decide)), foldlM_statLine (by decide) (hunit _ (by decide))]
    rfl
  unfold parseResults
  rw [hdata]
  simp [Loop.ok_bind, lookup, Function.update, row, counters]

/-! ### What `read_data` takes out of a row -/

theorem comma_notMem_ofInt (z : ℤ) : ',' ∉ ofInt z := by
  have hdigits : ∀ k, ',' ∉ Nat.toDigits 10 k := fun k h =>
    absurd (isDigit_of_mem_toDigits (by decide) (by decide) h) (by decide)
  cases z with
  | ofNat k => exact hdigits k
  | negSucc k => exact List.not_mem_cons_of_ne_of_not_mem (by decide) (hdigits _)

theorem newline_notMem_row : '\n' ∉ r.row := by
  have hp : '\n' ∉ r.protocol.name.toList := by cases r.protocol <;> decide
  simp [row, List.intercalate_cons_cons, hp]

/-- **A row is read as the counters of its run.** -/
theorem readLine_row (data : Dict RunData) :
    readLine data (r.row ++ ['\n']) =
      .ok (Function.update data r.protocol.name.toList (some r.counters)) := by
  have hp : ',' ∉ r.protocol.name.toList := by cases r.protocol <;> decide
  have hrow : r.row ++ ['\n'] = List.intercalate ", ".toList [r.protocol.name.toList,
      ofInt r.counters.runtime, ofInt r.counters.misses, ofInt r.counters.accesses,
      ofInt r.counters.upgrades, ofInt r.counters.transfers ++ ['\n']] := by
    simp [row, List.intercalate_cons_cons]
  have hsplit : split ", ".toList (r.row ++ ['\n']) = [r.protocol.name.toList,
      ofInt r.counters.runtime, ofInt r.counters.misses, ofInt r.counters.accesses,
      ofInt r.counters.upgrades, ofInt r.counters.transfers ++ ['\n']] := by
    have hsep : ", ".toList = [',', ' '] := by decide
    rw [hrow, hsep]
    exact split_intercalate (List.cons_ne_nil _ _) (by simp [hp, comma_notMem_ofInt])
  have hint : ∀ k : ℕ, pyInt (ofInt k) = .ok k := fun k => by
    simpa using pyInt_ofInt (v := []) (Int.natCast_nonneg k) (List.forall_mem_nil _)
  have hlast : pyInt (ofInt r.counters.transfers ++ ['\n']) = .ok r.counters.transfers :=
    pyInt_ofInt (Int.natCast_nonneg _) (List.forall_mem_singleton.mpr rfl)
  unfold readLine
  rw [hsplit]
  show (pyInt (ofInt r.clock) >>= _) = _
  rw [hint]
  show (pyInt (ofInt r.stats.cacheMisses) >>= _) = _
  rw [hint]
  show (pyInt (ofInt r.stats.cacheAccesses) >>= _) = _
  rw [hint]
  show (pyInt (ofInt r.stats.silentUpgrades) >>= _) = _
  rw [hint]
  show (pyInt (ofInt r.counters.transfers ++ ['\n']) >>= _) = _
  rw [hlast]
  rfl

end FinishedRun

/-! ### From the runs to the plots -/

/-- `parse_results` for one run after the other. -/
theorem foldlM_parseResults (runs : List FinishedRun) (csv : List Char) :
    runs.foldlM (fun csv r => parseResults r.protocol.name r.log csv) csv =
      .ok (csv ++ runs.flatMap fun r => r.row ++ ['\n']) := by
  induction runs generalizing csv with
  | nil => rw [List.flatMap_nil, List.append_nil]; rfl
  | cons r runs ih =>
    rw [List.foldlM_cons, r.parseResults_log, List.flatMap_cons]
    refine (ih _).trans ?_
    rw [List.append_assoc]

theorem foldlM_readLine (runs : List FinishedRun) (data : Dict RunData) :
    (lines (runs.flatMap fun r => r.row ++ ['\n'])).foldlM readLine data =
      .ok (runs.foldl (fun data r => Function.update data r.protocol.name.toList (some r.counters)) data) := by
  induction runs generalizing data with
  | nil => rfl
  | cons r runs ih =>
    rw [List.flatMap_cons, List.append_assoc]
    show (lines (r.row ++ '\n' :: _)).foldlM readLine data = _
    rw [lines_append r.newline_notMem_row, List.foldlM_cons, r.readLine_row]
    exact ih _

theorem Protocol.name_injective {p q : Protocol} (h : p.name.toList = q.name.toList) : p = q := by
  revert h
  cases p <;> cases q <;> decide

/-- Of the rows of a protocol, the last one stands. -/
theorem foldl_update (runs : List FinishedRun) (p : Protocol) :
    runs.foldl (fun (data : Dict RunData) r =>
      Function.update data r.protocol.name.toList (some r.counters)) (fun _ => none) p.name.toList =
        ((runs.filter fun r => r.protocol = p).getLast?).map FinishedRun.counters := by
  induction runs using List.reverseRecOn with
  | nil => rfl
  | append_singleton runs r ih =>
    rw [List.foldl_append, List.foldl_cons, List.foldl_nil, List.filter_append]
    by_cases hp : r.protocol = p
    · subst hp
      rw [Function.update_self, List.filter_cons_of_pos (by simp), List.filter_nil,
        List.getLast?_append, List.getLast?_singleton]
      rfl
    · rw [Function.update_of_ne fun h => hp (Protocol.name_injective h).symm, ih,
        List.filter_cons_of_neg (by simpa using hp), List.filter_nil, List.append_nil]

/-- **The results pipeline is lossless.** Whatever runs `runs.py` appends to a CSV file, one
after the other, `plots.py` has for every protocol exactly the five counters of its last run,
each under its name, and nothing for a protocol that does not occur. -/
theorem pipeline_lossless (runs : List FinishedRun) :
    ∃ csv data, runs.foldlM (fun csv r => parseResults r.protocol.name r.log csv) [] = .ok csv ∧
      readData csv = .ok data ∧
      ∀ p : Protocol, data p.name.toList =
        ((runs.filter fun r => r.protocol = p).getLast?).map FinishedRun.counters :=
  ⟨_, _, foldlM_parseResults runs [], foldlM_readLine runs _, foldl_update runs⟩

end CoherenceSim
