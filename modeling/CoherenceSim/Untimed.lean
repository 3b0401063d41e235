/-
# The untimed system

The caches and the bus without a clock: the objects of a protocol are driven by
events, in any order (`Untimed.step`). A processor without an outstanding access
issues one; an idle bus grants the head of its queue, which every cache snoops; the
DATA of the granted request is delivered to its requester.

`issue_eq`, `grant_eq` and `deliver_eq`: what an event does when it meets no error, in
terms of the family (`issued`, `afterGrant`, `afterDeliver`).
-/
import CoherenceSim.Inv

namespace CoherenceSim

open Features

variable {n : ℕ}

/-- What can happen: processor `i` issues an access, the bus grants a request, the DATA
comes. -/
inductive Event (n : ℕ)
  | issue (i : Fin n) (op : Message) (addr : Paddr)
  | grant
  | deliver
deriving DecidableEq, Repr

@[ext] structure Untimed (n : ℕ) where
  line : Fin n → Paddr → CacheState
  /-- the access each processor waits for -/
  outstanding : Fin n → Option (Message × Paddr)
  bus : Bus
  stats : Stats

/-- Why an event does not happen: it cannot now, or the code meets an error. -/
inductive Stop
  | disabled
  | fatal (e : Fatal)
deriving DecidableEq, Repr

namespace Untimed

/-- Every line of every cache is in `I`. -/
def start (n : ℕ) : Untimed n := ⟨fun _ _ => .I, fun _ => none, Bus.new, ⟨0, 0, 0, 0⟩⟩

/-- The granted request whose DATA has not been delivered. -/
def granted (s : Untimed n) : Option Mreq :=
  if s.bus.requestInProgress then s.bus.currentRequest else none

/-- Runs the code of the object of a line of cache `i`. DATA for the processor ends its
access. -/
def withLine (s : Untimed n) (i : Fin n) (a : Paddr) (code : Action Unit) :
    Except Fatal (Untimed n) := do
  let (_, c) ← code.run ⟨s.line i a, s.bus, none, s.stats⟩
  return { line := fun j b => if j = i ∧ b = a then c.state else s.line j b
           outstanding := fun j => if j = i ∧ c.inboundRequestBuf.isSome then none else s.outstanding j
           bus := c.bus
           stats := c.stats }

/-- The message on the bus reaches cache `i`, as in `Hash_table::tick`. -/
def snoop (p : Protocol) (m : Mreq) (s : Untimed n) (i : Fin n) : Except Fatal (Untimed n) :=
  if m.msg = .DATA ∧ m.destMid ≠ L1id i then .ok s
  else s.withLine i m.addr (processSnoopRequest p (L1id i) m)

/-- It reaches every cache. -/
def snoopAll (p : Protocol) (s : Untimed n) : Except Fatal (Untimed n) :=
  match s.bus.busSnoop with
  | some m => (List.finRange n).foldlM (snoop p m) s
  | none => .ok s

def issue (p : Protocol) (s : Untimed n) (i : Fin n) (op : Message) (addr : Paddr) :
    Except Fatal (Untimed n) :=
  let request := Mreq.new op addr (PRid i)
  let s := { s with
    outstanding := fun j => if j = i then some (op, addr) else s.outstanding j
    stats := { s.stats with cacheAccesses := s.stats.cacheAccesses + 1 } }
  s.withLine i request.addr (processCacheRequest p (L1id i) request)

def grant (p : Protocol) (s : Untimed n) : Except Fatal (Untimed n) :=
  { s with bus := s.bus.tick }.snoopAll p

/-- If no cache has answered the request `m` the memory does. -/
def answered (s : Untimed n) (m : Mreq) : Except Fatal Bus :=
  if s.bus.dataReply.isSome then .ok s.bus
  else s.bus.busRequest (.new .DATA m.addr (MCid n) m.srcMid)

def deliver (p : Protocol) (s : Untimed n) (m : Mreq) : Except Fatal (Untimed n) := do
  let bus ← s.answered m
  { s with bus := bus.tick }.snoopAll p

/-- An event, if it can happen. -/
def step (p : Protocol) (s : Untimed n) : Event n → Except Stop (Untimed n)
  | .issue i op addr =>
    if (op = .LOAD ∨ op = .STORE) ∧ s.outstanding i = none then
      (s.issue p i op addr).mapError .fatal
    else .error .disabled
  | .grant =>
    if s.bus.requestInProgress = false ∧ s.bus.pendingRequests ≠ [] then (s.grant p).mapError .fatal
    else .error .disabled
  | .deliver =>
    match s.granted with
    | some m => (s.deliver p m).mapError .fatal
    | none => .error .disabled

/-- A sequence of events. -/
def run (p : Protocol) (es : List (Event n)) (s : Untimed n) : Except Stop (Untimed n) :=
  es.foldlM (step p) s

/-! ### The events in terms of the family -/

variable (f : Features) (s : Untimed n)

def issued (i : Fin n) (op : Message) (addr : Paddr) : Untimed n :=
  let st := s.line i (lineOf addr)
  { line := fun j b => if j = i ∧ b = lineOf addr then
      (if hits st op then afterHit st op else pend (f.request op)) else s.line j b
    outstanding := fun j => if j = i then (if hits st op then none else some (op, addr))
      else s.outstanding j
    bus := { s.bus with pendingRequests := s.bus.pendingRequests ++
      (if hits st op then [] else [getMsg (f.request op) (L1id i) addr]) }
    stats := { s.stats with
      cacheAccesses := s.stats.cacheAccesses + 1
      cacheMisses := s.stats.cacheMisses + (!hits st op).toNat
      silentUpgrades := s.stats.silentUpgrades + (upgrades st op).toNat } }

/-- What cache `i` answers the request `m`. -/
def answer (m : Mreq) (i : Fin n) : Option Mreq :=
  if supplies (s.line i m.addr) then some (replyTo (L1id i) m) else none

/-- The state after the caches of `l` have snooped the request `m`. -/
def snooped (m : Mreq) (l : List (Fin n)) : Untimed n :=
  { s with
    line := fun j b => if j ∈ l ∧ b = m.addr then f.yield m.msg (s.line j b) else s.line j b
    bus := { s.bus with
      dataReply := (l.findSome? (s.answer m)).or s.bus.dataReply
      sharedLine := s.bus.sharedLine || l.any fun j => f.raises m.msg (s.line j m.addr) }
    stats := { s.stats with cacheToCacheTransfers :=
      s.stats.cacheToCacheTransfers + l.countP fun j => supplies (s.line j m.addr) } }

/-- The state after the grant of the head of the queue. -/
def afterGrant (m : Mreq) (q : List Mreq) : Untimed n :=
  { s with bus := ⟨some m, q, s.bus.dataReply, true, false⟩ }.snooped f m (List.finRange n)

/-- The state after DATA for cache `i`, whose request is `m`. -/
def afterDeliver (m d : Mreq) (i : Fin n) : Untimed n :=
  { s with
    line := fun j b => if j = i ∧ b = m.addr then f.fill m.msg s.bus.sharedLine else s.line j b
    outstanding := fun j => if j = i then none else s.outstanding j
    bus := ⟨some d, s.bus.pendingRequests, none, false, s.bus.sharedLine⟩ }

theorem line_afterGrant (m : Mreq) (q : List Mreq) (j : Fin n) (b : Paddr) :
    (s.afterGrant f m q).line j b = if b = m.addr then f.yield m.msg (s.line j b) else s.line j b := by
  simp [afterGrant, snooped]

theorem sharedLine_afterGrant (m : Mreq) (q : List Mreq) : (s.afterGrant f m q).bus.sharedLine =
    (List.finRange n).any fun j => f.raises m.msg (s.line j m.addr) := Bool.false_or _

variable {f s} {p : Protocol} {i : Fin n} {op : Message} {addr : Paddr} {m : Mreq}

theorem withLine_eq {a : Paddr} {code : Action Unit} {c : Ctx}
    (h : code.run ⟨s.line i a, s.bus, none, s.stats⟩ = .ok ((), c)) : s.withLine i a code =
      .ok { line := fun j b => if j = i ∧ b = a then c.state else s.line j b
            outstanding := fun j => if j = i ∧ c.inboundRequestBuf.isSome then none else s.outstanding j
            bus := c.bus
            stats := c.stats } := by
  unfold withLine
  rw [h]
  rfl

theorem issue_eq (hop : op = .LOAD ∨ op = .STORE)
    (hv : p.features.valid (s.line i (lineOf addr)) = true)
    (hp : (s.line i (lineOf addr)).pending = false) :
    s.issue p i op addr = .ok (s.issued p.features i op addr) := by
  unfold issue issued
  set st := s.line i (lineOf addr) with hst
  set stats := { s.stats with cacheAccesses := s.stats.cacheAccesses + 1 }
  let r : Mreq := .new op addr (PRid i)
  cases hh : hits st op with
  | true =>
    have hcode : (processCacheRequest p (L1id i) r).run ⟨st, s.bus, none, stats⟩ = _ :=
      processCacheRequest_hit hop hv hh rfl
    refine (withLine_eq hcode).trans (congrArg Except.ok ?_)
    apply Untimed.ext
    · simp only [hh, if_true]
      rfl
    · funext j
      by_cases hj : j = i <;> simp [hj, hh]
    · simp [hh]
    · simp [hh, stats, r, Mreq.new]
  | false =>
    have hcode : (processCacheRequest p (L1id i) r).run ⟨st, s.bus, none, stats⟩ = _ :=
      processCacheRequest_miss hop hv hp hh
    refine (withLine_eq hcode).trans (congrArg Except.ok ?_)
    apply Untimed.ext
    · simp only [hh, Bool.false_eq_true, if_false]
      rfl
    · funext j
      by_cases hj : j = i <;> simp [hj, hh]
    · simp [hh, r, Mreq.new, getMsg]
    · simp [hh, stats, not_upgrades hh]

/-- A request reaches one cache more. -/
theorem snoop_snooped {l : List (Fin n)} (hk : m.msg = .GETS ∨ m.msg = .GETM)
    (hv : ∀ j, p.features.valid (s.line j m.addr) = true)
    (hone : ∀ j k, supplies (s.line j m.addr) = true → supplies (s.line k m.addr) = true → j = k)
    (hd : s.bus.dataReply = none) (hi : i ∉ l) :
    snoop p m (s.snooped p.features m l) i = .ok (s.snooped p.features m (l ++ [i])) := by
  have hmd : m.msg ≠ .DATA := by rcases hk with hk | hk <;> rw [hk] <;> decide
  have hline : (s.snooped p.features m l).line i m.addr = s.line i m.addr := by simp [snooped, hi]
  -- no cache before has answered if this one does
  have halone : supplies (s.line i m.addr) = true → (s.snooped p.features m l).bus.dataReply = none := by
    intro hs
    have hnone : l.findSome? (s.answer m) = none := by
      refine List.findSome?_eq_none_iff.mpr fun j hj => ?_
      unfold answer
      split
      · next hsj => exact absurd (hone i j hs hsj ▸ hj) hi
      · rfl
    simp [snooped, hnone, hd]
  unfold snoop
  rw [if_neg fun h => hmd h.1]
  have hcode : (processSnoopRequest p (L1id i) m).run ⟨(s.snooped p.features m l).line i m.addr,
      (s.snooped p.features m l).bus, none, (s.snooped p.features m l).stats⟩ = _ :=
    processSnoopRequest_request hk (hline ▸ hv i) (hline ▸ halone)
  refine (withLine_eq hcode).trans (congrArg Except.ok ?_)
  rw [hline]
  apply Untimed.ext
  · funext j b
    by_cases hj : j = i
    · subst hj
      by_cases hb : b = m.addr <;> simp [snooped, hi, hb]
    · simp [snooped, hj]
  · simp [snooped]
  · simp only [snooped, List.findSome?_append, List.findSome?_singleton, List.any_append, List.any_cons,
      List.any_nil, Bool.or_false, Bool.or_assoc, hd, Option.or_none, Bus.mk.injEq, true_and, and_true]
    cases hs : supplies (s.line i m.addr) with
    | false => simp [answer, hs]
    | true =>
      have hnone := halone hs
      simp only [snooped, hd, Option.or_none] at hnone
      simp [answer, hs, hnone]
  · simp only [snooped, Simulator.countP_append_singleton, Nat.add_assoc]

theorem grant_eq {q : List Mreq} (hk : m.msg = .GETS ∨ m.msg = .GETM)
    (hv : ∀ j, p.features.valid (s.line j m.addr) = true)
    (hone : ∀ j k, supplies (s.line j m.addr) = true → supplies (s.line k m.addr) = true → j = k)
    (hd : s.bus.dataReply = none) (hr : s.bus.requestInProgress = false)
    (hq : s.bus.pendingRequests = m :: q) : s.grant p = .ok (s.afterGrant p.features m q) := by
  have htick : s.bus.tick = ⟨some m, q, s.bus.dataReply, true, false⟩ := by
    unfold Bus.tick
    simp [hr, hq]
  unfold grant snoopAll afterGrant
  rw [htick]
  refine Loop.foldlM_closed (fun l => snooped p.features
    { s with bus := ⟨some m, q, s.bus.dataReply, true, false⟩ } m l) ?_ (fun l i hn => ?_) _
    (List.nodup_finRange n)
  · simp [snooped]
  · exact snoop_snooped hk hv hone hd (Loop.notMem_of_nodup hn)

/-- What is on the bus when the DATA comes, of a cache or of the memory. -/
theorem answered_eq (hg : s.granted = some m) (hm : lineOf m.addr = m.addr)
    (hd : ∀ d, s.bus.dataReply = some d → d.msg = .DATA ∧ d.addr = m.addr ∧ d.destMid = m.srcMid) :
    ∃ d bus, s.answered m = .ok bus ∧
      bus.tick = ⟨some d, s.bus.pendingRequests, none, false, s.bus.sharedLine⟩ ∧
      d.msg = .DATA ∧ d.addr = m.addr ∧ d.destMid = m.srcMid := by
  have hrip : s.bus.requestInProgress = true := by
    unfold granted at hg
    by_contra hr
    rw [if_neg hr] at hg
    cases hg
  unfold answered
  cases hdr : s.bus.dataReply with
  | some d => exact ⟨d, s.bus, rfl, by simp [Bus.tick, hrip, hdr], hd d hdr⟩
  | none =>
    let d : Mreq := .new .DATA m.addr (MCid n) m.srcMid
    refine ⟨d, { s.bus with dataReply := some d }, ?_, ?_, rfl, hm, rfl⟩
    · simp [Bus.busRequest, Mreq.new, hdr, d]
    · simp [Bus.tick, hrip]

/-- DATA reaches only the cache it is for. -/
theorem deliver_eq (hg : s.granted = some m) (hm : m = getMsg (p.features.request op) (L1id i) addr)
    (hl : s.line i m.addr = pend (p.features.request op))
    (hd : ∀ d, s.bus.dataReply = some d → d.msg = .DATA ∧ d.addr = m.addr ∧ d.destMid = m.srcMid) :
    ∃ d, s.deliver p m = .ok (s.afterDeliver p.features m d i) := by
  have hsrc : m.srcMid = L1id i := by rw [hm]; rfl
  have hmsg : m.msg = p.features.request op := by rw [hm]; rfl
  obtain ⟨d, bus, hbus, htick, hmd, hda, hdd⟩ := answered_eq hg (by rw [hm]; simp [getMsg]) hd
  rw [hsrc] at hdd
  refine ⟨d, ?_⟩
  unfold deliver
  rw [hbus]
  show snoopAll p { s with bus := bus.tick } = _
  rw [htick]
  set t : Untimed n := { s with bus := ⟨some d, s.bus.pendingRequests, none, false, s.bus.sharedLine⟩ }
  have hone : ∀ l : List (Fin n), l.Nodup → l.foldlM (snoop p d) t =
      .ok (if i ∈ l then s.afterDeliver p.features m d i else t) :=
    Loop.foldlM_closed _ (by simp) fun l j hn => by
      have hj := Loop.notMem_of_nodup hn
      by_cases hji : j = i
      · subst hji
        have hcode : (processSnoopRequest p (L1id j) d).run ⟨t.line j d.addr, t.bus, none, t.stats⟩ = _ :=
          processSnoopRequest_data hmd (hda ▸ hl) rfl
        rw [if_neg hj, if_pos (by simp), snoop, if_neg fun h => h.2 hdd]
        refine (withLine_eq hcode).trans (congrArg Except.ok ?_)
        refine Untimed.ext ?_ ?_ rfl rfl
        · rw [hda, ← hmsg]
          rfl
        · funext k
          simp [afterDeliver, t]
      · have hskip : d.msg = .DATA ∧ d.destMid ≠ L1id j := ⟨hmd, by rw [hdd]; simpa using Ne.symm hji⟩
        simp [snoop, hskip, Ne.symm hji]
  show (List.finRange n).foldlM (snoop p d) t = _
  rw [hone _ (List.nodup_finRange n), if_pos (List.mem_finRange i)]

end Untimed

end CoherenceSim
