/-
# What the caches print at the end

The contents of the caches, as `dump_stats` prints them when the run has ended
(`dumps`): every cache prints the lines of the trace files, all of them and no other, in the
order of their addresses; none is waiting for DATA; and what is printed for one line by
the different caches fits together.
-/
import CoherenceSim.Program
import CoherenceSim.Safety

namespace CoherenceSim

variable {n : ℕ} {x : Input n} {p : Protocol}

/-! ### One cache -/

/-- What a cache of the protocol prints of the lines. -/
structure Dumped (p : Protocol) (lines : Finset Paddr) (entries : List HashEntry) : Prop where
  lines : entries.map (·.tag.toNat) = (lines.image BitVec.toNat).sort (· ≤ ·)
  states : ∀ e ∈ entries, p.features.valid e.state = true ∧ e.state.pending = false

theorem HashTable.Iterates.tags {table : HashTable} {entries : List HashEntry} (h : table.Iterates entries)
    {lines : Finset Paddr} (hkeys : ∀ a, (table.myEntries a).isSome ↔ a ∈ lines)
    (htag : ∀ a e, table.myEntries a = some e → e.tag = a) :
    entries.map (·.tag.toNat) = (lines.image BitVec.toNat).sort (· ≤ ·) := by
  have hsorted : (entries.map (·.tag.toNat)).Pairwise (· < ·) := List.pairwise_map.mpr h.sorted
  have hset : (entries.map (·.tag.toNat)).toFinset = lines.image BitVec.toNat := by
    ext k
    rw [List.mem_toFinset, List.mem_map, Finset.mem_image]
    constructor
    · rintro ⟨e, he, rfl⟩
      have hsome := (h.mem e).mp he
      exact ⟨e.tag, (hkeys _).mp (by rw [hsome]; rfl), rfl⟩
    · rintro ⟨a, ha, rfl⟩
      obtain ⟨e, he⟩ := Option.isSome_iff_exists.mp ((hkeys a).mpr ha)
      obtain rfl := htag a e he
      exact ⟨e, (h.mem e).mpr he, rfl⟩
  rw [← hset]
  exact ((List.toFinset_sort _ hsorted.nodup).mpr (hsorted.imp Nat.le_of_lt)).symm

/-! ### All of them -/

/-- Cache `i` prints the entry. -/
def PrintsEntry (caches : List (List HashEntry)) (i : ℕ) (e : HashEntry) : Prop :=
  ∃ entries, caches[i]? = some entries ∧ e ∈ entries

/-- Of a line one cache at most prints that it answers for it, and if it is the only one with
a copy the others print an `I`. -/
structure DumpsFit (caches : List (List HashEntry)) : Prop where
  owner : ∀ i j e e', PrintsEntry caches i e → PrintsEntry caches j e' → e.tag = e'.tag →
    e.state ∈ [CacheState.M, .E, .O, .F] → e'.state ∈ [CacheState.M, .E, .O, .F] → i = j
  writer : ∀ i j e e', PrintsEntry caches i e → PrintsEntry caches j e' → e.tag = e'.tag →
    e.state ∈ [CacheState.M, .E] → i ≠ j → e'.state = .I

namespace Run

variable (r : Run x) {R : ℕ}

/-- At the end a cache has an entry for every line of the traces. -/
theorem Ends.isSome_iff (h : r.Ends R) (i : Fin n) (a : Paddr) :
    (((r.state R).Nd i).L1.myEntries a).isSome ↔ ∃ j, ∃ l ∈ x.traces j, lineOf l.2 = a := by
  rw [← h.granted_iff r]
  apply (r.tracks_iff R i a).trans
  apply or_iff_left_of_imp
  rintro ⟨q, hq, rfl⟩
  obtain ⟨e, he, hqe⟩ := r.mem_taken.mp hq
  exact r.granted_of_taken hqe he (h.bus r).2

theorem line_of_entry {i : Fin n} {a : Paddr} {e : HashEntry} {c : ℕ}
    (he : ((r.state c).Nd i).L1.myEntries a = some e) : ((r.state c).Nd i).line a = e.state := by
  simp [Node.line, HashTable.getEntry, he]

theorem Ends.dumped (h : r.Ends R) {lines : Finset Paddr}
    (hlines : ∀ a, a ∈ lines ↔ ∃ j, ∃ l ∈ x.traces j, lineOf l.2 = a) {i : Fin n} {entries : List HashEntry}
    (hes : ((r.state R).Nd i).L1.Iterates entries) : Dumped x.protocol lines entries where
  lines := hes.tags (fun a => (h.isSome_iff r i a).trans (hlines a).symm) fun a e => r.tagged R i a e
  states e he := by
    have hline := r.line_of_entry ((hes.mem e).mp he)
    rw [← hline]
    exact ⟨(r.inv R).valid i e.tag, (h.quiescent r).lines i e.tag⟩

theorem Ends.dumpsFit (h : r.Ends R) {caches : List (List HashEntry)} (hlen : caches.length = n)
    (hcaches : ∀ i : Fin n, ∃ es, caches[i.val]? = some es ∧ ((r.state R).Nd i).L1.Iterates es) :
    DumpsFit caches := by
  have hentry : ∀ {i e}, PrintsEntry caches i e →
      ∃ k : Fin n, k.val = i ∧ ((r.state R).Nd k).L1.myEntries e.tag = some e := by
    rintro i e ⟨es, hi, he⟩
    obtain ⟨hlt, -⟩ := List.getElem?_eq_some_iff.mp hi
    obtain ⟨es', hes', hiter⟩ := hcaches ⟨i, hlen ▸ hlt⟩
    obtain rfl := Option.some.inj (hi.symm.trans hes')
    exact ⟨_, rfl, (hiter.mem e).mp he⟩
  have hsingle : ∀ a, SingleWriter (r.state R) a := fun a => singleWriter_of_fits ((r.inv R).fits a)
  constructor
  · intro i j e e' hi hj htag hown hown'
    obtain ⟨k, rfl, hk⟩ := hentry hi
    obtain ⟨k', rfl, hk'⟩ := hentry hj
    rw [← htag] at hk'
    exact congrArg _ ((hsingle e.tag).owner k k' ⟨e, hk, hown⟩ ⟨e', hk', hown'⟩)
  · intro i j e e' hi hj htag hwrite hij
    obtain ⟨k, rfl, hk⟩ := hentry hi
    obtain ⟨k', rfl, hk'⟩ := hentry hj
    rw [← htag] at hk'
    have hnone := (hsingle e.tag).writer k k' ⟨e, hk, hwrite⟩ (fun hkk => hij (congrArg _ hkk.symm)) e' hk'
    -- no line waits when the run has ended
    have hfree := (h.quiescent r).lines k' e.tag
    rw [r.line_of_entry hk'] at hfree
    revert hnone hfree
    cases e'.state <;> decide

end Run

/-- **What the caches print at the end.** For a trace directory whose files are lists of
accesses the program prints something, if the files are not so long that a counter
overflows; and whenever it prints, every cache prints the lines of the files and no other, in
the order of their addresses and each in a state of the protocol in which it does not wait,
and of no line two caches print states that do not go together. -/
theorem dumps {fs : Files} {traceDir : List Char} {files : Fin n → TraceFile}
    (h : TraceDirectory fs traceDir files) (hl : ∀ i, LineByLine (files i)) :
    (1 + 104 * ∑ i, (accessesIn (files i)).length < 2 ^ 63 → ∃ r, SimTrace fs (command traceDir p) r) ∧
    ∀ r, SimTrace fs (command traceDir p) r →
      r.caches.length = n ∧
      (∀ entries ∈ r.caches, Dumped p
        (Finset.univ.biUnion fun i => ((accessesIn (files i)).map fun l => lineOf l.2).toFinset) entries) ∧
      DumpsFit r.caches := by
  refine ⟨fun hshort => ?_, fun r hr => ?_⟩
  · obtain ⟨r, s, hr⟩ := Job.exists_prints ⟨n, p, files⟩ hl hshort
    exact ⟨r, _, s, (h.main_command p).1, hr⟩
  obtain ⟨job, s, hmain, hs⟩ := hr
  obtain rfl : (⟨n, p, files⟩ : Job) = job := Except.ok.inj ((h.main_command p).1.symm.trans hmain)
  set x := Input.ofFiles p 100 (by decide) files hl with hx
  obtain ⟨R, hR⟩ := x.run.exists_ends
  -- the run over the files ends with the caches of the run over the accesses
  have hstate : s.traced = x.run.state R := by
    obtain ⟨fuel, hrun⟩ := hs.ends
    have hplain := Logged.does_run (Job.settings ⟨n, p, files⟩) fuel (Simulator.init files) []
    rw [hrun] at hplain
    have hfiles := run_files (Job.settings ⟨n, p, files⟩) files fuel
    rw [← hplain] at hfiles
    have hends := hfiles.symm.trans (x.run.run_eq_of_ends hR fuel)
    split at hends
    · exact Option.some.inj (Except.ok.inj hends)
    · cases hends
  have hcaches : ∀ i : Fin n, ∃ es, r.caches[i.val]? = some es ∧ ((x.run.state R).Nd i).L1.Iterates es := by
    intro i
    obtain ⟨es, hes, hiter⟩ := hs.caches i
    refine ⟨es, hes, ?_⟩
    rw [← hstate]
    exact hiter
  refine ⟨hs.cores, fun entries hmem => ?_, hR.dumpsFit x.run hs.cores hcaches⟩
  obtain ⟨i, hi⟩ := List.getElem?_of_mem hmem
  obtain ⟨hlt, -⟩ := List.getElem?_eq_some_iff.mp hi
  obtain ⟨es, hes, hiter⟩ := hcaches ⟨i, hlt.trans_eq hs.cores⟩
  obtain rfl := Option.some.inj (hi.symm.trans hes)
  refine hR.dumped x.run (fun a => ?_) hiter
  simp [hx, Input.ofFiles]

theorem dumps_two : ∃ r, SimTrace twoTraces (command "traces/two".toList .MESI_PRO) r ∧
    r.caches.length = 2 ∧
    (∀ entries ∈ r.caches, Dumped .MESI_PRO
      (Finset.univ.biUnion fun i => ((accessesIn (![ "w 0x40\n".toList, "r 0x40\n".toList] i)).map fun l =>
        lineOf l.2).toFinset) entries) ∧
    DumpsFit r.caches := by
  have hl : ∀ i, LineByLine (![ "w 0x40\n".toList, "r 0x40\n".toList] i) := by
    intro i
    fin_cases i
    · exact lineByLine_one (Or.inr rfl)
    · exact lineByLine_one (Or.inl rfl)
  obtain ⟨hprints, hall⟩ := dumps (p := .MESI_PRO) traceDirectory_two hl
  obtain ⟨r, hr⟩ := hprints (by decide)
  exact ⟨r, hr, hall r hr⟩

end CoherenceSim
