/-
# The log of a run

What the ticks of a cycle do that the state at its end does not show: the requests a
cache puts in the queue (`appended`), and the DATA of the memory controller (`mcSent`).
Both are read off the states before and after the tick that does it. Over the cycles
they make the requests that join the queue of the bus and leave it (`queue`), and what
the memory has answered (`memoryReplies`).
-/
import CoherenceSim.Lib.Queue
import CoherenceSim.Termination

namespace CoherenceSim

open Features

variable {n : ℕ} {x : Input n}

/-- The state in which the memory controller ticks. -/
def Simulator.beforeMc (S : Settings) (s : Simulator n Trace) : Except Fatal (Simulator n Trace) := do
  let s ← s.tickBus.tickCaches S (List.finRange n)
  s.tickPrs (List.finRange n)

namespace Run

variable (r : Run x) {c : ℕ} {i : Fin n} {m d : Mreq}

/-- What the tick of cache `i` puts at the end of the queue in cycle `c`. -/
def appended (c : ℕ) (i : Fin n) : List Mreq :=
  match (r.state c).tickBus.tickCaches x.settings ((List.finRange n).take i) with
  | .error _ => []
  | .ok s =>
    match s.tickCache x.settings i with
    | .error _ => []
    | .ok t => t.bus.pendingRequests.drop s.bus.pendingRequests.length

/-- The DATA the tick of the memory controller puts into `data_reply` in cycle `c`. -/
def mcSent (c : ℕ) : Option Mreq :=
  match (r.state c).beforeMc x.settings with
  | .error _ => none
  | .ok s =>
    match s.tickMc x.settings with
    | .error _ => none
    | .ok t => if s.bus.dataReply = none then t.bus.dataReply else none

/-! ### A cycle -/

theorem appended_eq (c : ℕ) (i : Fin n) : r.appended c i = ((r.state c).Nd i).queued x.f i := by
  have h := (r.inv c).ready
  have hn : ((List.finRange n).take i).Nodup := (List.take_sublist i _).nodup (List.nodup_finRange n)
  simp only [appended, Simulator.tickCaches_eq_sync x.settings h hn,
    Simulator.tickCache_sync x.settings h (Loop.notMem_take_finRange i)]
  show ((r.state c).bus.tick.pendingRequests ++ List.flatMap (fun j => ((r.state c).Nd j).queued x.f j)
    ((List.finRange n).take i ++ [i])).drop ((r.state c).bus.tick.pendingRequests ++ _).length = _
  rw [List.flatMap_append, List.flatMap_singleton, ← List.append_assoc]
  exact List.drop_left

theorem flatMap_appended (c : ℕ) : (List.finRange n).flatMap (r.appended c) = r.sent c := by
  rw [funext (r.appended_eq c)]
  rfl

/-- A cache puts a request in the queue when it misses. -/
theorem appended_at {st : Stage} {k : ℕ} {l : Char × Paddr}
    (ha : At x (r.state c) (r.granted c) i st k l) : r.appended c i =
      if st = .issued ∧ hits (((r.state c).Nd i).line (lineOf l.2)) (opOf l.1) = false
      then [x.ask i l] else [] := by
  rw [r.appended_eq, ha.queued]

theorem appended_cases (hm : m ∈ r.appended c i) : ∃ k l,
    At x (r.state c) (r.granted c) i .issued k l ∧ m = x.ask i l := by
  obtain ⟨st, k, l, ha⟩ := (r.inv c).node i
  rw [r.appended_at ha] at hm
  split at hm
  · next h =>
    obtain ⟨rfl, -⟩ := h
    exact ⟨k, l, ha, List.mem_singleton.mp hm⟩
  · cases hm

theorem mcSent_eq_fires (c : ℕ) : r.mcSent c =
    if ((r.state c).looked x.settings).fires (r.state c).globalClock
    then some (((r.state c).looked x.settings).answer n) else none := by
  have h := r.inv c
  set s := r.state c with hs
  set t : Simulator n Trace :=
    { s.afterCaches x.settings with Nd := fun i => ((s.afterCaches x.settings).Nd i).prTick i } with ht
  have hbefore : s.beforeMc x.settings = .ok t := by
    unfold Simulator.beforeMc
    rw [Simulator.tickCaches_eq_sync x.settings h.ready (List.nodup_finRange n)]
    show (s.afterCaches x.settings).tickPrs (List.finRange n) = _
    rw [Simulator.tickPrs_eq h.prReady (List.nodup_finRange n)]
    simp only [List.mem_finRange, if_true, ht]
  have hmc : t.tickMc x.settings = .ok (t.memory x.settings) :=
    Simulator.tickMc_eq x.settings (show t.McReady x.settings from h.mcReady)
  have hseen : t.seen x.settings = s.looked x.settings := rfl
  simp only [mcSent, ← hs, hbefore, hmc, Simulator.memory, hseen]
  by_cases hf : (s.looked x.settings).fires s.globalClock
  · have hnone : t.bus.dataReply = none := h.mcReady.2 hf
    rw [if_pos hf, if_pos hnone, if_pos (show (s.looked x.settings).fires t.globalClock from hf)]
  · rw [if_neg hf, if_neg (show ¬ (s.looked x.settings).fires t.globalClock from hf)]
    simp

/-- **The memory controller sends DATA while a request is awaited** and its time has come. -/
theorem mcSent_eq_some : r.mcSent c = some d ↔ ∃ m, r.granted c = some m ∧
    (r.state c).bus.dataReply = none ∧ (r.state c).MC.dataTime ≤ c ∧ d = ⟨.DATA, m.addr, MCid n, m.srcMid⟩ := by
  rw [r.mcSent_eq_fires]
  constructor
  · intro h
    split at h
    · next hf =>
      obtain ⟨m, hg, hd, ht⟩ := (r.inv c).fires_hold hf
      obtain ⟨-, haddr, htarget, -⟩ := (r.inv c).lookup m hg hd
      obtain ⟨_, _, e, -, hask⟩ := (r.inv c).of_granted hg
      have hlook : (r.state c).looked x.settings = (r.state c).MC := by
        simp [Simulator.looked, MemoryController.see, ht]
      rw [hlook] at hf h
      have hle := hf.2
      rw [r.clock] at hle
      refine ⟨m, hg, hd, hle, ?_⟩
      rw [← Option.some.inj h, MemoryController.answer, haddr, htarget, hask, ask_addr, lineOf_lineOf]
    · cases h
  · rintro ⟨m, hg, hd, hle, rfl⟩
    obtain ⟨hrip, haddr, htarget, -⟩ := (r.inv c).lookup m hg hd
    obtain ⟨_, _, e, -, hask⟩ := (r.inv c).of_granted hg
    have hw : (r.state c).wire = none := by rw [← r.onBus_eq, r.onBus_none_of_awaits hg hd]
    have hlook : (r.state c).looked x.settings = (r.state c).MC := by
      rw [Simulator.looked, show (r.state c).bus.tick.currentRequest = none from hw]
      rfl
    rw [hlook, if_pos ⟨hrip, by rwa [r.clock]⟩, MemoryController.answer, haddr, htarget, hask, ask_addr,
      lineOf_lineOf]

theorem mcSent_of_free (hg : r.granted c = none) : r.mcSent c = none := by
  by_contra hne
  obtain ⟨d, hd⟩ := Option.ne_none_iff_exists'.mp hne
  obtain ⟨m, hm, -⟩ := r.mcSent_eq_some.mp hd
  rw [hg] at hm
  cases hm

theorem mcSent_of_reply (hd : (r.state c).bus.dataReply = some d) : r.mcSent c = none := by
  by_contra hne
  obtain ⟨d', hd'⟩ := Option.ne_none_iff_exists'.mp hne
  obtain ⟨-, -, hn, -⟩ := r.mcSent_eq_some.mp hd'
  rw [hd] at hn
  cases hn

theorem mcSent_of_awaits (hg : r.granted c = some m) (hd : (r.state c).bus.dataReply = none) :
    r.mcSent c =
      if (r.state c).MC.dataTime ≤ c then some ⟨.DATA, m.addr, MCid n, m.srcMid⟩ else none := by
  split
  · next hle => exact r.mcSent_eq_some.mpr ⟨m, hg, hd, hle, rfl⟩
  · next hle =>
    by_contra hne
    obtain ⟨d, hd'⟩ := Option.ne_none_iff_exists'.mp hne
    obtain ⟨-, -, -, hle', -⟩ := r.mcSent_eq_some.mp hd'
    exact hle hle'

/-! ### All cycles -/

/-- **The queue of the bus**: requests leave it by being granted. -/
def queue : Queue Mreq where
  waits c := (r.state c).bus.pendingRequests
  leaves c := r.grantAt c
  joins c := (List.finRange n).flatMap (r.appended c)
  start := by rw [r.start]; rfl
  step c := by
    rw [r.flatMap_appended]
    cases r.turn c with
    | rest _ hb _ hq _ hq' => simp [hq, hq', grantAt, hb]
    | grant m q _ hb hmd hq _ hq' => simp [hq, hq', r.grantAt_eq_some.mpr ⟨hb, hmd⟩]
    | hold m _ hb _ _ _ hq' => simp [hq', grantAt, hb]
    | data m d _ hb _ hmd _ _ hq' => simp [hq', grantAt, hb, hmd]

/-- The requests granted before cycle `c`. -/
def grants (c : ℕ) : List Mreq := (List.range c).filterMap r.grantAt

/-- What the memory controller has answered before cycle `c`. -/
def memoryReplies (c : ℕ) : List Mreq := (List.range c).filterMap r.mcSent

theorem grants_succ (c : ℕ) : r.grants (c + 1) = r.grants c ++ (r.grantAt c).toList := by
  rw [grants, List.range_succ, List.filterMap_append]
  cases h : r.grantAt c <;> simp [grants, h]

theorem memoryReplies_succ (c : ℕ) : r.memoryReplies (c + 1) = r.memoryReplies c ++ (r.mcSent c).toList := by
  rw [memoryReplies, List.range_succ, List.filterMap_append]
  cases h : r.mcSent c <;> simp [memoryReplies, h]

theorem mem_grants : m ∈ r.grants c ↔ ∃ g, g < c ∧ r.grantAt g = some m := by
  simp [grants]

theorem queue_left (c : ℕ) : r.queue.left 0 c = r.grants c := by
  rw [Queue.left, ← List.range_eq_range']
  rfl

end Run

end CoherenceSim
