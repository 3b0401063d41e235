/-
# The form of the log

What is printed while a run goes on has a form: what a node prints of its own accesses is
its trace, each access fetched, looked up a cycle later and completed, and the next
fetched in that cycle (`AccessLog`); and what is printed of the bus is one transaction
after the other (`BusLog`). `transcript`: so it is for every run. `log_counts`: so the
counters printed at the end can be counted in the lines before them.
-/
import CoherenceSim.Conservation
import CoherenceSim.Output

namespace CoherenceSim

open Features Printing

variable {n : ℕ} {x : Input n}

namespace LogMessage

/-- The cycle in which it is printed. -/
def clock : LogMessage → ℕ
  | complete _ clock | fetch _ clock _ _ _ | procRequest _ _ clock | snoopRequest _ _ clock
  | dataSend _ clock | dataSendMc clock => clock

/-- It is about an access of node `i`. -/
def ofNode (i : Fin n) : LogMessage → Bool
  | complete pr _ => pr = i
  | fetch pr _ _ _ _ => pr = i
  | procRequest mid _ _ => mid = L1id i
  | snoopRequest _ _ _ | dataSend _ _ | dataSendMc _ => false

/-- It is about what is on the bus. -/
def ofBus : LogMessage → Bool
  | complete _ _ | fetch _ _ _ _ _ | procRequest _ _ _ => false
  | snoopRequest _ _ _ | dataSend _ _ | dataSendMc _ => true

/-- The kinds of message. -/
inductive Kind
  | complete | fetch | procRequest | snoopRequest | dataSend | dataSendMc
deriving DecidableEq

def kind : LogMessage → Kind
  | complete _ _ => .complete
  | fetch _ _ _ _ _ => .fetch
  | procRequest _ _ _ => .procRequest
  | snoopRequest _ _ _ => .snoopRequest
  | dataSend _ _ => .dataSend
  | dataSendMc _ => .dataSendMc

end LogMessage

open LogMessage

/-- The lines of a kind in a log. -/
def linesOfKind (k : LogMessage.Kind) (log : List LogMessage) : ℕ := log.countP (·.kind = k)

theorem linesOfKind_append (k : LogMessage.Kind) (log log' : List LogMessage) :
    linesOfKind k (log ++ log') = linesOfKind k log + linesOfKind k log' := List.countP_append

theorem linesOfKind_cons (k : LogMessage.Kind) (m : LogMessage) (log : List LogMessage) :
    linesOfKind k (m :: log) = linesOfKind k log + if m.kind = k then 1 else 0 := by
  rw [linesOfKind, List.countP_cons, linesOfKind]
  simp

/-! ### The accesses of a node -/

/-- What node `i` prints of its accesses when it fetches `t` from cycle `f` on. -/
inductive AccessLog (i : Fin n) : ℕ → Trace → List LogMessage → Prop
  | finish (f : ℕ) : AccessLog i f [] []
  | access {f e : ℕ} {c : Char} {addr : Paddr} (known : c = 'r' ∨ c = 'w') {t : Trace}
      {ms : List LogMessage} (he : f + 2 ≤ e) (h : AccessLog i e t ms) :
      AccessLog i f ((c, addr) :: t) (.fetch i f c known addr ::
        .procRequest (L1id i) (.new (opOf c) addr (PRid i)) (f + 1) :: .complete i e :: ms)

theorem filter_of_all {α : Type} {p : α → Bool} {q : Prop} [Decidable q] {l : List α}
    (h : ∀ a ∈ l, p a = decide q) : l.filter p = if q then l else [] := by
  split
  · next hq => exact List.filter_eq_self.mpr fun a ha => by rw [h a ha, decide_eq_true hq]
  · next hq => exact List.filter_eq_nil_iff.mpr fun a ha => by rw [h a ha, decide_eq_false hq]; simp

namespace Simulator

variable (s : Simulator n Trace) (i j : Fin n) {m : LogMessage}

theorem mem_procLines (hm : m ∈ s.procLines j) :
    m.ofNode i = decide (j = i) ∧ m.ofBus = false ∧ m.clock = s.globalClock := by
  unfold procLines at hm
  split at hm
  · obtain rfl := List.mem_singleton.mp hm
    simp [ofNode, ofBus, clock]
  · cases hm

theorem mem_busLines (S : Settings) (hm : m ∈ s.snoopLines j ++ s.replyLines S j) :
    m.ofNode i = false ∧ m.ofBus = true ∧ m.clock = s.globalClock := by
  unfold snoopLines replyLines at hm
  rcases List.mem_append.mp hm with hm | hm
  · split at hm
    · split at hm
      · cases hm
      · obtain rfl := List.mem_singleton.mp hm
        exact ⟨rfl, rfl, rfl⟩
    · cases hm
  · split at hm
    · obtain rfl := List.mem_singleton.mp hm
      exact ⟨rfl, rfl, rfl⟩
    · cases hm

theorem mem_prLines (hm : m ∈ s.prLines j) :
    m.ofNode i = decide (j = i) ∧ m.ofBus = false ∧ m.clock = s.globalClock := by
  have hone : ∀ m : LogMessage, m = .complete j s.globalClock ∨
      (∃ c h addr, m = .fetch j s.globalClock c h addr) →
      m.ofNode i = decide (j = i) ∧ m.ofBus = false ∧ m.clock = s.globalClock := by
    rintro m (rfl | ⟨c, h, addr, rfl⟩) <;> simp [ofNode, ofBus, clock, Fin.ext_iff]
  unfold prLines Processor.completeLines Processor.fetchLines at hm
  rcases List.mem_append.mp hm with hm | hm
  · split at hm
    · exact hone _ (Or.inl (List.mem_singleton.mp hm))
    · cases hm
  · split at hm
    · cases hm
    · split at hm
      · split at hm
        · exact hone _ (Or.inr ⟨_, _, _, List.mem_singleton.mp hm⟩)
        · cases hm
      · cases hm

/-- Everything a cycle prints is about a node or about the bus, and of that cycle. -/
theorem mem_cycleLines (S : Settings) (hm : m ∈ s.cycleLines S) :
    (m.ofBus = true ∨ ∃ i : Fin n, m.ofNode i = true) ∧ m.clock = s.globalClock := by
  unfold cycleLines mcLines at hm
  rcases List.mem_append.mp hm with hm | hm
  · obtain ⟨i, -, hi⟩ := List.mem_flatMap.mp hm
    rcases List.mem_append.mp hi with hi | hi
    · obtain ⟨h, -, hclock⟩ := s.tickBus.mem_procLines i i hi
      exact ⟨Or.inr ⟨i, by rw [h]; exact decide_eq_true rfl⟩, hclock⟩
    · obtain ⟨-, h, hclock⟩ := s.tickBus.mem_busLines i i S hi
      exact ⟨Or.inl h, hclock⟩
  · rcases List.mem_append.mp hm with hm | hm
    · obtain ⟨i, -, hi⟩ := List.mem_flatMap.mp hm
      obtain ⟨h, -, hclock⟩ := s.mem_prLines i i hi
      exact ⟨Or.inr ⟨i, by rw [h]; exact decide_eq_true rfl⟩, hclock⟩
    · split at hm
      · obtain rfl := List.mem_singleton.mp hm
        exact ⟨Or.inl rfl, rfl⟩
      · cases hm

/-- What a cycle prints of the accesses of a node. -/
theorem filter_ofNode (S : Settings) : (s.cycleLines S).filter (ofNode i) = s.procLines i ++ s.prLines i := by
  have hmc : (s.tickBus.mcLines S).filter (ofNode i) = [] := by
    unfold mcLines
    split <;> rfl
  have hcache : ∀ j, (s.tickBus.cacheLines S j).filter (ofNode i) = if j = i then s.procLines i else [] := by
    intro j
    have hbus : (s.tickBus.snoopLines j ++ s.tickBus.replyLines S j).filter (ofNode i) = [] :=
      List.filter_eq_nil_iff.mpr fun m hm => by simp [(s.tickBus.mem_busLines i j S hm).1]
    rw [cacheLines, List.filter_append, hbus, List.append_nil,
      filter_of_all fun m hm => (s.tickBus.mem_procLines i j hm).1]
    split
    · next hj => rw [hj]; rfl
    · rfl
  have hpr : ∀ j, (s.prLines j).filter (ofNode i) = if j = i then s.prLines i else [] := by
    intro j
    rw [filter_of_all fun m hm => (s.mem_prLines i j hm).1]
    split
    · next hj => rw [hj]
    · rfl
  unfold cycleLines
  rw [List.filter_append, List.filter_append, hmc, List.append_nil, List.filter_flatMap, List.filter_flatMap]
  simp only [hcache, hpr, flatMap_singled _ (List.nodup_finRange n), List.mem_finRange, if_true]

/-- And of what is on the bus. -/
theorem filter_ofBus (S : Settings) : (s.cycleLines S).filter ofBus =
    (List.finRange n).flatMap (fun i => s.tickBus.snoopLines i ++ s.tickBus.replyLines S i) ++
      s.tickBus.mcLines S := by
  have hmc : (s.tickBus.mcLines S).filter ofBus = s.tickBus.mcLines S := by
    unfold mcLines
    split <;> rfl
  have hcache : ∀ i, (s.tickBus.cacheLines S i).filter ofBus =
      s.tickBus.snoopLines i ++ s.tickBus.replyLines S i := by
    intro i
    rw [cacheLines, List.filter_append,
      List.filter_eq_nil_iff.mpr fun m hm => by simp [(s.tickBus.mem_procLines i i hm).2.1],
      List.filter_eq_self.mpr fun m hm => (s.tickBus.mem_busLines i i S hm).2.1, List.nil_append]
  have hpr : ∀ i, (s.prLines i).filter ofBus = [] := fun i =>
    List.filter_eq_nil_iff.mpr fun m hm => by simp [(s.mem_prLines i i hm).2.1]
  have hprs : ((List.finRange n).flatMap s.prLines).filter ofBus = [] := by
    rw [List.filter_flatMap, List.flatMap_eq_nil_iff]
    exact fun i _ => hpr i
  rw [cycleLines, List.filter_append, List.filter_append, hmc, hprs, List.nil_append, List.filter_flatMap]
  simp only [hcache]

end Simulator

namespace Run

variable (r : Run x) {c k : ℕ} {i : Fin n} {st : Stage} {l : Char × Paddr}

/-- What cache `i` prints of the access in its slot. -/
theorem procLines_at (ha : At x (r.state c) (r.granted c) i st k l) : (r.state c).procLines i =
    if st = .issued then [.procRequest (L1id i) (.new (opOf l.1) l.2 (PRid i)) c] else [] := by
  unfold Simulator.procLines
  rw [ha.proc, r.clock]
  by_cases hst : st = .issued <;> simp only [hst, if_true, if_false]

theorem completeLines_at (ha : At x (r.state c) (r.granted c) i st k l) :
    ((r.state c).Nd i).PR.completeLines i (r.state c).globalClock =
      if st = .answered then [.complete i c] else [] := by
  unfold Processor.completeLines
  rw [ha.inbound, r.clock]
  by_cases hst : st = .answered <;> simp [hst]

/-- A processor that waits prints nothing, nor does one at the end of its trace. -/
theorem prLines_of_waits (ha : At x (r.state c) (r.granted c) i st k l) (hst : st ≠ .answered)
    (h : st ≠ .idle ∨ ((r.state c).Nd i).PR.endOfTrace = true) : (r.state c).prLines i = [] := by
  have hcomplete : ((r.state c).Nd i).complete = (r.state c).Nd i :=
    Node.complete_none (by rw [ha.inbound, if_neg hst])
  have hstops : (((r.state c).Nd i).PR.endOfTrace || ((r.state c).Nd i).PR.outstandingRequest) = true := by
    rw [ha.outstanding]
    rcases h with h | h <;> simp [h]
  unfold Simulator.prLines Processor.fetchLines
  rw [r.completeLines_at ha, if_neg hst, hcomplete, hstops]
  rfl

/-- A processor that is free has not come to the end of its trace yet. -/
theorem eot_of_free (ha : At x (r.state c) (r.granted c) i st k l)
    (hst : st = .answered ∨ st = .idle ∧ (r.state c).globalClock = 0 ∧ k = 0) :
    ((r.state c).Nd i).PR.endOfTrace = false := by
  rcases hst with rfl | ⟨-, h0, -⟩
  · exact ha.eot_false (by decide)
  · rw [r.clock] at h0
    rw [h0, r.start]
    rfl

/-- It prints what it completes, and what it fetches. -/
theorem prLines_of_free (ha : At x (r.state c) (r.granted c) i st k l)
    (hst : st = .answered ∨ st = .idle ∧ (r.state c).globalClock = 0 ∧ k = 0) : (r.state c).prLines i = (if st = .answered then [.complete i c] else []) ++
      match ((x.traces i).drop k).head? with
      | some (op, addr) => if h : op = 'r' ∨ op = 'w' then [.fetch i c op h addr] else []
      | none => [] := by
  have hfree : (((r.state c).Nd i).complete.PR.endOfTrace ||
      ((r.state c).Nd i).complete.PR.outstandingRequest) = false := by
    have he := r.eot_of_free ha hst
    unfold Node.complete
    rw [ha.inbound]
    rcases hst with rfl | ⟨rfl, -⟩ <;> simp [he, ha.outstanding]
  have hscan : (Infile.fscanf ((r.state c).Nd i).complete.PR.infile).1 = ((x.traces i).drop k).head? := by
    rw [Node.complete_infile, ha.infile]
    cases (x.traces i).drop k <;> rfl
  unfold Simulator.prLines Processor.fetchLines
  rw [r.completeLines_at ha, hfree, hscan, r.clock]
  rfl

/-- The completion that node `i` prints in cycle `b` at the earliest, and then the rest of
its trace. -/
def Completes (i : Fin n) (b : ℕ) (t : Trace) (ms : List LogMessage) : Prop :=
  ∃ e rest, b ≤ e ∧ ms = .complete i e :: rest ∧ AccessLog i e t rest

/-- What node `i` prints from cycle `c` on, by the stage its access is at then. -/
def Remains (i : Fin n) (c : ℕ) (t : Trace) (l : Char × Paddr) (ms : List LogMessage) : Stage → Prop
  | .idle => AccessLog i c t ms
  | .issued => ∃ rest, ms = .procRequest (L1id i) (.new (opOf l.1) l.2 (PRid i)) c :: rest ∧
      Completes i (c + 1) t rest
  | .queued | .granted => Completes i (c + 1) t ms
  | .answered => ∃ rest, ms = .complete i c :: rest ∧ AccessLog i c t rest

theorem Completes.mono {b b' : ℕ} {t : Trace} {ms : List LogMessage} (h : Completes i b t ms) (hb : b' ≤ b) :
    Completes i b' t ms := by
  obtain ⟨e, rest, he, hms⟩ := h
  exact ⟨e, rest, hb.trans he, hms⟩

theorem AccessLog.eq_nil {f : ℕ} {ms : List LogMessage} (h : AccessLog i f [] ms) : ms = [] := by
  cases h
  rfl

theorem remains {d : ℕ} (h : r.Ends (c + d)) (ha : At x (r.state c) (r.granted c) i st k l) :
    Remains i c ((x.traces i).drop k) l ((r.log c d).filter (ofNode i)) st := by
  induction d generalizing c st k l with
  | zero =>
    obtain ⟨rfl, rfl⟩ := h.idle r ha
    rw [List.drop_length]
    exact .finish c
  | succ d ih =>
    obtain ⟨st', k', l', hm, ha'⟩ := r.move ha
    have hrest := ih (by rwa [Nat.add_right_comm, Nat.add_assoc]) ha'
    rw [log_succ, List.filter_append, Simulator.filter_ofNode, r.procLines_at ha]
    set ms := (r.log (c + 1) d).filter (ofNode i)
    have hquiet : ∀ hst : st ≠ .answered, st ≠ .idle ∨ ((r.state c).Nd i).PR.endOfTrace = true → _ :=
      r.prLines_of_waits ha
    cases hm with
    | rest he =>
      rw [hquiet (by decide) (Or.inr he)]
      rw [(ha.eot he).2, List.drop_length] at hrest ⊢
      rw [AccessLog.eq_nil hrest]
      exact .finish c
    | hit hh =>
      rw [hquiet (by decide) (Or.inl (by decide))]
      obtain ⟨rest, hms, hlog⟩ := hrest
      exact ⟨ms, rfl, c + 1, rest, Nat.le_refl _, hms, hlog⟩
    | miss hh =>
      rw [hquiet (by decide) (Or.inl (by decide))]
      exact ⟨ms, rfl, hrest.mono (Nat.le_succ _)⟩
    | wait hw | grant hw | hold hw =>
      rw [hquiet (by decide) (Or.inl (by decide))]
      exact hrest.mono (Nat.le_succ _)
    | data hw =>
      rw [hquiet (by decide) (Or.inl (by decide))]
      obtain ⟨rest, hms, hlog⟩ := hrest
      exact ⟨c + 1, rest, Nat.le_refl _, hms, hlog⟩
    | fetch hst hl =>
      obtain ⟨hk, hget⟩ := List.getElem?_eq_some_iff.mp hl
      have hdrop : (x.traces i).drop k = l' :: (x.traces i).drop (k + 1) := by
        rw [List.drop_eq_getElem_cons hk, hget]
      have hknown := x.wellFormed i l' (List.mem_of_getElem? hl)
      obtain ⟨rest, hms, e, rest', he, rfl, hlog⟩ := hrest
      rw [r.prLines_of_free ha hst, hdrop, List.head?_cons, hms]
      simp only [dif_pos hknown]
      have hacc : AccessLog i c (l' :: (x.traces i).drop (k + 1)) _ := .access hknown he hlog
      rcases hst with rfl | ⟨rfl, -⟩
      · exact ⟨_, rfl, hacc⟩
      · exact hacc
    | finish hst hk =>
      rw [r.prLines_of_free ha hst]
      rw [hk, List.drop_length] at hrest ⊢
      rw [AccessLog.eq_nil hrest]
      rcases hst with rfl | ⟨rfl, -⟩
      · exact ⟨[], rfl, .finish c⟩
      · exact .finish c

end Run

/-! ### The transactions -/

/-- What the caches print in the cycle of a grant: all look at the request, in their order,
and one of them may answer it. -/
def requestLines (g : ℕ) (m : Mreq) (supplier : Option (Fin n)) : List LogMessage :=
  (List.finRange n).flatMap fun j =>
    .snoopRequest (L1id j) m g :: if supplier = some j then [.dataSend j g] else []

/-- What is printed of the bus from cycle `c` on, for the requests `ms` in turn, of which
caches answer `k`: the DATA is looked at by the requester alone, in the cycle after it was
sent, and the next request is granted after that. -/
inductive BusLog (x : Input n) : ℕ → List Mreq → ℕ → List LogMessage → Prop
  | rest (c : ℕ) : BusLog x c [] 0 []
  | cache {c g : ℕ} (hg : c ≤ g) (m : Mreq) {i j : Fin n} (hi : m.srcMid = L1id i) (hj : j ≠ i) {ms : List Mreq}
      {k : ℕ} {rest : List LogMessage} (h : BusLog x (g + 2) ms k rest) :
      BusLog x c (m :: ms) (k + 1) (requestLines g m (some j) ++
        .snoopRequest (L1id i) ⟨.DATA, m.addr, L1id j, L1id i⟩ (g + 1) :: rest)
  | memory {c g : ℕ} (hg : c ≤ g) (m : Mreq) {i : Fin n} (hi : m.srcMid = L1id i) {ms : List Mreq}
      {k : ℕ} {rest : List LogMessage} (h : BusLog x (g + x.hitTime + 2) ms k rest) :
      BusLog x c (m :: ms) k (requestLines (n := n) g m none ++ .dataSendMc (g + x.hitTime) ::
        .snoopRequest (L1id i) ⟨.DATA, m.addr, MCid n, L1id i⟩ (g + x.hitTime + 1) :: rest)

theorem BusLog.mono {c c' k : ℕ} {ms : List Mreq} {log : List LogMessage} (h : BusLog x c ms k log) (hc : c' ≤ c) :
    BusLog x c' ms k log := by
  cases h with
  | rest => exact .rest c'
  | cache hg m hi hj h => exact .cache (hc.trans hg) m hi hj h
  | memory hg m hi h => exact .memory (hc.trans hg) m hi h

namespace Run

variable (r : Run x) {c d : ℕ} {i : Fin n} {m : Mreq}

/-- What cycle `c` prints of the bus. -/
def busLines (c : ℕ) : List LogMessage := ((r.state c).cycleLines x.settings).filter ofBus

theorem mcLines_eq (c : ℕ) : (r.state c).tickBus.mcLines x.settings =
    if (r.mcSent c).isSome then [.dataSendMc c] else [] := by
  have hclock : (r.state c).tickBus.globalClock = c := r.clock c
  rw [r.mcSent_eq_fires]
  unfold Simulator.mcLines
  rw [hclock, r.clock]
  show (if ((r.state c).looked x.settings).fires c then _ else _) = _
  split <;> rfl

theorem replyLines_eq (c : ℕ) (j : Fin n) : (r.state c).tickBus.replyLines x.settings j =
    if ((((r.state c).Nd j).procTick x.f j).reply j (r.onBus c)).isSome then [.dataSend j c] else [] := by
  have hclock : (r.state c).tickBus.globalClock = c := r.clock c
  unfold Simulator.replyLines
  rw [hclock, r.onBus_eq]
  rfl

theorem snoopLines_eq (c : ℕ) (j : Fin n) : (r.state c).tickBus.snoopLines j =
    match r.onBus c with
    | some m => if m.msg = .DATA ∧ m.destMid ≠ L1id j then [] else [.snoopRequest (L1id j) m c]
    | none => [] := by
  have hclock : (r.state c).tickBus.globalClock = c := r.clock c
  unfold Simulator.snoopLines
  rw [hclock, r.onBus_eq]
  rfl

/-- With nothing on the bus only the memory can have something to print. -/
theorem busLines_quiet (h : r.onBus c = none) :
    r.busLines c = if (r.mcSent c).isSome then [.dataSendMc c] else [] := by
  have hnone : (List.finRange n).flatMap (fun j => (r.state c).tickBus.snoopLines j ++
      (r.state c).tickBus.replyLines x.settings j) = [] := by
    rw [List.flatMap_eq_nil_iff]
    intro j _
    rw [r.snoopLines_eq, r.replyLines_eq, h]
    rfl
  rw [busLines, Simulator.filter_ofBus, hnone, r.mcLines_eq, List.nil_append]

theorem busLines_data {d : Mreq} (h : r.onBus c = some d) (hd : d.msg = .DATA) (hi : d.destMid = L1id i)
    (hmc : r.mcSent c = none) : r.busLines c = [.snoopRequest (L1id i) d c] := by
  have hlines : ∀ j, (r.state c).tickBus.snoopLines j ++ (r.state c).tickBus.replyLines x.settings j =
      if j = i then [.snoopRequest (L1id i) d c] else [] := by
    intro j
    rw [r.snoopLines_eq, r.replyLines_eq, h]
    by_cases hj : j = i
    · subst hj
      simp [Node.reply, hd, hi]
    · simp [Node.reply, hd, hi, hj, Ne.symm hj]
  rw [busLines, Simulator.filter_ofBus, r.mcLines_eq, hmc, funext hlines,
    flatMap_singled _ (List.nodup_finRange n), if_pos (List.mem_finRange i)]
  rfl

/-- All caches look at a request, and the reply is that of one of them. -/
theorem busLines_grant (hg : r.grantAt c = some m) (supplier : Option (Fin n))
    (h : ∀ j, (((((r.state c).Nd j).procTick x.f j).reply j (r.onBus c)).isSome = true ↔ supplier = some j)) :
    r.busLines c = requestLines c m supplier := by
  obtain ⟨hb, hmd, -⟩ := r.granted_of_grantAt hg
  have hlines : ∀ j, (r.state c).tickBus.snoopLines j ++ (r.state c).tickBus.replyLines x.settings j =
      .snoopRequest (L1id j) m c :: if supplier = some j then [.dataSend j c] else [] := by
    intro j
    rw [r.snoopLines_eq, r.replyLines_eq, if_congr (h j) rfl rfl, hb]
    simp only [hmd, false_and, if_false, List.singleton_append]
  rw [busLines, Simulator.filter_ofBus, r.mcLines_eq, r.mcSent_of_free (r.granted_eq_none_of_grantAt hg),
    funext hlines]
  exact List.append_nil _

/-- Nobody answers. -/
theorem busLines_grant_none (hg : r.grantAt c = some m) (hr : r.replied c = none) :
    r.busLines c = requestLines (n := n) c m none := by
  refine r.busLines_grant hg none fun j => ?_
  have hj := List.findSome?_eq_none_iff.mp hr j (List.mem_finRange j)
  rw [r.onBus_eq, hj]
  simp

/-- Cache `j` answers. -/
theorem busLines_grant_some (hg : r.grantAt c = some m) {e : Mreq} (hr : r.replied c = some e) :
    ∃ i j : Fin n, m.srcMid = L1id i ∧ j ≠ i ∧ e = ⟨.DATA, m.addr, L1id j, L1id i⟩ ∧
      r.busLines c = requestLines c m (some j) := by
  obtain ⟨hb, hmd, -⟩ := r.granted_of_grantAt hg
  obtain ⟨i, k, l, ha, hm⟩ := r.requester hg
  have hline : lineOf m.addr = m.addr := by rw [hm, ask_addr, lineOf_lineOf]
  have hsrc : m.srcMid = L1id i := by rw [hm, ask_srcMid]
  obtain ⟨m', j, hw, -, rfl, hs⟩ := Inv.reply_of_cacheReply hr
  obtain rfl : m' = m := Option.some.inj (hw.symm.trans ((r.onBus_eq c).symm.trans hb))
  refine ⟨i, j, hsrc, ?_, by rw [replyTo, hline, hsrc], r.busLines_grant hg (some j) fun j' => ?_⟩
  · rintro rfl
    rw [hm, ask_addr, r.not_supplier_requester ha] at hs
    cases hs
  · have hj := r.reply_of_supplies hb hmd hs
    rw [r.onBus_eq]
    constructor
    · intro hj'
      rw [(r.inv c).ready.one j' j hj' (Option.isSome_of_eq_some hj)]
    · intro he
      obtain rfl := Option.some.inj he
      rw [hj]
      rfl

theorem filter_log_succ (c d : ℕ) :
    (r.log c (d + 1)).filter ofBus = r.busLines c ++ (r.log (c + 1) d).filter ofBus := by
  rw [log_succ, List.filter_append]
  rfl

/-- Cycles that print nothing of the bus. -/
theorem filter_log_quiet (k : ℕ) (h : ∀ e, c ≤ e → e < c + k → r.busLines e = []) :
    (r.log c (k + d)).filter ofBus = (r.log (c + k) d).filter ofBus := by
  induction k generalizing c with
  | zero => rw [Nat.zero_add, Nat.add_zero]
  | succ k ih =>
    rw [Nat.add_right_comm, filter_log_succ, h c (Nat.le_refl c) (by omega), List.nil_append,
      ih fun e he he' => h e (by omega) (by omega), Nat.add_right_comm]
    rfl

/-- Cycles without a grant. -/
theorem grants_quiet (k : ℕ) (h : ∀ e, c ≤ e → e < c + k → r.grantAt e = none) :
    r.grants (c + k) = r.grants c ∧
      (r.state (c + k)).stats.cacheToCacheTransfers = (r.state c).stats.cacheToCacheTransfers := by
  induction k with
  | zero => exact ⟨rfl, rfl⟩
  | succ k ih =>
    obtain ⟨hgrants, htransfers⟩ := ih fun e he he' => h e he (by omega)
    have hno := h (c + k) (by omega) (by omega)
    have hr : r.replied (c + k) = none := by
      refine Inv.cacheReply_eq_none fun m hm => ?_
      by_contra hmd
      rw [r.grantAt_eq_some.mpr ⟨(r.onBus_eq _).trans hm, hmd⟩] at hno
      cases hno
    rw [← Nat.add_assoc, r.grants_succ, r.cacheToCacheTransfers_succ, hgrants, htransfers, hno, hr]
    exact ⟨List.append_nil _, rfl⟩

/-- What is printed of a transaction that the memory answers, with the cycles that follow it. -/
theorem filter_log_memory (hg : r.grantAt c = some m) (hr : r.replied c = none) (hi : m.srcMid = L1id i) :
    (r.log c (d + (x.hitTime + 2))).filter ofBus = requestLines (n := n) c m none ++
      .dataSendMc (c + x.hitTime) :: .snoopRequest (L1id i) ⟨.DATA, m.addr, MCid n, L1id i⟩ (c + x.hitTime + 1) ::
        (r.log (c + x.hitTime + 2) d).filter ofBus := by
  have hpos := x.hitTime_pos
  obtain ⟨k, hk⟩ := Nat.exists_eq_add_one_of_ne_zero (Nat.pos_iff_ne_zero.mp hpos)
  have hline : lineOf m.addr = m.addr := by
    obtain ⟨j, _, l, -, hm⟩ := r.requester hg
    rw [hm, ask_addr, lineOf_lineOf]
  have hwait := r.awaits_memory hg hr
  have hsent : ∀ e, c < e → e ≤ c + x.hitTime → r.busLines e =
      if c + x.hitTime ≤ e then [.dataSendMc e] else [] := by
    intro e he hle
    obtain ⟨hge, hde, hmc⟩ := hwait e he hle
    rw [r.busLines_quiet (r.onBus_none_of_awaits hge hde), r.mcSent_of_awaits hge hde, hmc]
    simp only
    split <;> rfl
  obtain ⟨hb, hmd⟩ := r.dataAt_eq_some.mp (r.dataAt_of_memory hg hr)
  have hlast : r.busLines (c + x.hitTime + 1) =
      [.snoopRequest (L1id i) ⟨.DATA, m.addr, MCid n, L1id i⟩ (c + x.hitTime + 1)] := by
    rw [hline, hi] at hb
    refine r.busLines_data hb rfl rfl ?_
    cases r.turn (c + x.hitTime + 1) with
    | rest _ hb' | hold _ _ hb' => rw [hb] at hb'; cases hb'
    | grant _ _ _ hb' hmd' => rw [hb] at hb'; rw [← Option.some.inj hb'] at hmd'; exact absurd rfl hmd'
    | data _ _ _ _ _ _ hd => exact r.mcSent_of_reply hd
  have hsplit : d + (x.hitTime + 2) = k + (d + 2) + 1 := by omega
  rw [hsplit, filter_log_succ, r.busLines_grant_none hg hr, r.filter_log_quiet k fun e he he' => by
    rw [hsent e (by omega) (by omega), if_neg (by omega)]]
  rw [show c + 1 + k = c + x.hitTime by omega, filter_log_succ, filter_log_succ, hlast,
    hsent _ (by omega) (Nat.le_refl _), if_pos (Nat.le_refl _)]
  rfl

/-- And of one that a cache answers. -/
theorem filter_log_cache (hg : r.grantAt c = some m) {e : Mreq} (hr : r.replied c = some e) :
    ∃ i j : Fin n, m.srcMid = L1id i ∧ j ≠ i ∧ (r.log c (d + 2)).filter ofBus = requestLines c m (some j) ++
      .snoopRequest (L1id i) ⟨.DATA, m.addr, L1id j, L1id i⟩ (c + 1) :: (r.log (c + 2) d).filter ofBus := by
  obtain ⟨i, j, hi, hj, rfl, hlines⟩ := r.busLines_grant_some hg hr
  obtain ⟨hd, hdata, -⟩ := r.dataAt_of_replied hg hr
  refine ⟨i, j, hi, hj, ?_⟩
  rw [filter_log_succ, filter_log_succ, hlines,
    r.busLines_data (r.dataAt_eq_some.mp hdata).1 rfl rfl (r.mcSent_of_reply hd)]
  rfl

/-- **What is printed of the bus from a cycle on in which nothing is granted**: the
transactions of the requests that are granted from then on. -/
theorem busLog_from (h : r.Ends (c + d)) (hg : r.granted c = none) : ∃ ms k, r.grants (c + d) = r.grants c ++ ms ∧
    (r.state (c + d)).stats.cacheToCacheTransfers = (r.state c).stats.cacheToCacheTransfers + k ∧
    BusLog x c ms k ((r.log c d).filter ofBus) := by
  induction d using Nat.strongRecOn generalizing c with
  | ind d ih =>
    have hend := (h.bus r).1
    obtain _ | d := d
    · exact ⟨[], 0, (List.append_nil _).symm, rfl, .rest c⟩
    cases r.turn c with
    | hold _ hgm | data _ _ hgm => rw [hg] at hgm; cases hgm
    | rest _ hb _ _ hg' =>
      obtain ⟨ms, k, hgrants, htransfers, hlog⟩ := ih d (Nat.lt_succ_self d) (c := c + 1)
        (by rwa [Nat.add_right_comm]) hg'
      obtain ⟨hsame, hsame'⟩ := r.grants_quiet 1 (c := c) fun e he he' => by
        rw [show e = c by omega, grantAt, hb]
        rfl
      rw [show c + 1 + d = c + (d + 1) by omega] at hgrants htransfers
      refine ⟨ms, k, hsame ▸ hgrants, hsame' ▸ htransfers, ?_⟩
      rw [filter_log_succ, r.busLines_quiet hb, r.mcSent_of_free hg]
      exact hlog.mono (Nat.le_succ c)
    | grant m _ _ hb hmd _ hg' =>
      have hgr := r.grantAt_eq_some.mpr ⟨hb, hmd⟩
      cases hr : r.replied c with
      | some e =>
        obtain ⟨-, hdata, -⟩ := r.dataAt_of_replied hgr hr
        obtain ⟨-, hno, hfree⟩ := r.granted_of_dataAt hdata
        obtain _ | d := d
        · rw [hg'] at hend
          cases hend
        obtain ⟨ms, k, hgrants, htransfers, hlog⟩ := ih d (by omega) (c := c + 2)
          (by rwa [show c + 2 + d = c + (d + 1 + 1) by omega]) hfree
        obtain ⟨i, j, hi, hj, hlines⟩ := r.filter_log_cache hgr hr (d := d)
        rw [show c + 2 + d = c + (d + 1 + 1) by omega] at hgrants htransfers
        obtain ⟨hsame, hsame'⟩ := r.grants_quiet 1 (c := c + 1) fun e he he' => by
          rwa [show e = c + 1 by omega]
        refine ⟨m :: ms, k + 1, ?_, ?_, hlines ▸ .cache (Nat.le_refl c) m hi hj hlog⟩
        · rw [hgrants, hsame, r.grants_succ, hgr, List.append_assoc]
          rfl
        · rw [htransfers, hsame', r.cacheToCacheTransfers_succ, hr, Nat.add_comm k 1,
            ← Nat.add_assoc]
          rfl
      | none =>
        obtain ⟨i, _, l, -, hm⟩ := r.requester hgr
        have hwait := r.awaits_memory hgr hr
        have hdata := r.dataAt_of_memory hgr hr
        have honly := r.onlyData (show c < c + x.hitTime + 1 by omega) hdata fun e he he' =>
          r.onBus_none_of_awaits (hwait e he (by omega)).1 (hwait e he (by omega)).2.1
        obtain ⟨⟨m', hlast⟩, -, hfree⟩ := r.granted_of_dataAt hdata
        -- the run does not end before the DATA
        have hlong : x.hitTime + 2 ≤ d + 1 := by
          by_contra hlt
          by_cases hlate : d + 1 = x.hitTime + 1
          · rw [hlate, ← Nat.add_assoc, hlast] at hend
            cases hend
          · rw [(hwait (c + (d + 1)) (by omega) (by omega)).1] at hend
            cases hend
        obtain ⟨d', hd'⟩ := Nat.exists_eq_add_of_le' hlong
        rw [hd'] at h ⊢
        obtain ⟨ms, k, hgrants, htransfers, hlog⟩ := ih d' (by omega) (c := c + x.hitTime + 2)
          (by rwa [show c + x.hitTime + 2 + d' = c + (d' + (x.hitTime + 2)) by omega]) hfree
        rw [show c + x.hitTime + 2 + d' = c + (d' + (x.hitTime + 2)) by omega] at hgrants htransfers
        obtain ⟨hsame, hsame'⟩ := r.grants_quiet (x.hitTime + 1) (c := c + 1) fun e he he' =>
          honly.noGrant e (by omega) (by omega)
        rw [show c + 1 + (x.hitTime + 1) = c + x.hitTime + 2 by omega] at hsame hsame'
        refine ⟨m :: ms, k, ?_, ?_, ?_⟩
        · rw [hgrants, hsame, r.grants_succ, hgr, List.append_assoc]
          rfl
        · rw [htransfers, hsame', r.cacheToCacheTransfers_succ, hr]
          rfl
        · have hi : m.srcMid = L1id i := by rw [hm, ask_srcMid]
          rw [r.filter_log_memory hgr hr hi]
          exact .memory (Nat.le_refl c) m hi hlog

/-! ### The whole log -/

theorem pairwise_clock (c d : ℕ) : ((r.log c d).map LogMessage.clock).Pairwise (· ≤ ·) ∧
    ∀ m ∈ r.log c d, c ≤ m.clock := by
  induction d generalizing c with
  | zero => exact ⟨.nil, List.forall_mem_nil _⟩
  | succ d ih =>
    obtain ⟨hsorted, hle⟩ := ih (c + 1)
    have hnow : ∀ m ∈ (r.state c).cycleLines x.settings, m.clock = c := fun m hm =>
      ((r.state c).mem_cycleLines x.settings hm).2.trans (r.clock c)
    rw [log_succ]
    refine ⟨?_, List.forall_mem_append.mpr ⟨fun m hm => (hnow m hm).ge, fun m hm => (Nat.le_succ c).trans (hle m hm)⟩⟩
    rw [List.map_append, List.pairwise_append]
    refine ⟨?_, hsorted, ?_⟩
    · rw [List.pairwise_map]
      refine List.pairwise_of_forall_mem_list fun a ha b hb => ?_
      rw [hnow a ha, hnow b hb]
    · rintro _ hfirst _ hsecond
      obtain ⟨a, ha, rfl⟩ := List.mem_map.mp hfirst
      obtain ⟨b, hb, rfl⟩ := List.mem_map.mp hsecond
      rw [hnow a ha]
      exact (Nat.le_succ c).trans (hle b hb)

/-- What the log of a run has. -/
structure Transcript (x : Input n) (s : Simulator n Trace) (log : List LogMessage) (ms : List Mreq) : Prop where
  clocks : (log.map LogMessage.clock).Pairwise (· ≤ ·)
  sorts : ∀ m ∈ log, m.ofBus = true ∨ ∃ i : Fin n, m.ofNode i = true
  nodes : ∀ i, AccessLog i 0 (x.traces i) (log.filter (ofNode i))
  misses : ms.length = s.stats.cacheMisses
  bus : BusLog x 0 ms s.stats.cacheToCacheTransfers (log.filter ofBus)

theorem Ends.transcript_log {R : ℕ} (h : r.Ends R) : Transcript x (r.state R) (r.log 0 R) (r.grants R) where
  clocks := (r.pairwise_clock 0 R).1
  sorts m hm := by
    obtain ⟨c, -, hc⟩ := List.mem_flatMap.mp hm
    exact ((r.state c).mem_cycleLines x.settings hc).1
  nodes i := by
    have hstart : At x (r.state 0) (r.granted 0) i .idle 0 ('r', 0) := by
      rw [r.start]
      exact Inv.at_init x i
    have hall := r.remains (c := 0) (d := R) (by rwa [Nat.zero_add]) hstart
    rwa [List.drop_zero] at hall
  misses := by rw [r.misses_eq, (h.bus r).2, List.length_nil, Nat.add_zero]
  bus := by
    obtain ⟨ms, k, hgrants, htransfers, hlog⟩ := r.busLog_from (c := 0) (d := R) (by rwa [Nat.zero_add]) rfl
    have hzero : (r.state 0).stats.cacheToCacheTransfers = 0 := by
      rw [r.start]
      rfl
    rw [Nat.zero_add] at hgrants htransfers
    rw [hzero, Nat.zero_add] at htransfers
    rw [hgrants, htransfers]
    exact hlog

/-- **The form of the log.** A run prints, in the order of its cycles, messages of the accesses
of its nodes and messages of the bus: of every node its trace, one access after the other,
and of the bus the transactions of as many requests as there are misses, of which caches
answer as many as there are transfers. -/
theorem transcript (r : Run x) : ∃ s log ms,
    (∃ fuel, StateT.run (Logged.run x.settings fuel (Simulator.init x.traces)) [] = .ok (some s, log)) ∧
    Transcript x s log ms := by
  obtain ⟨R, h⟩ := r.exists_ends
  exact ⟨_, _, _, ⟨R, r.run_prints h (Nat.le_refl R) []⟩, h.transcript_log r⟩

end Run

/-! ### What can be counted in it -/

theorem AccessLog.linesOfKind {i : Fin n} {f : ℕ} {t : Trace} {log : List LogMessage} (h : AccessLog i f t log)
    {k : LogMessage.Kind} (hk : k = .fetch ∨ k = .procRequest ∨ k = .complete) :
    CoherenceSim.linesOfKind k log = t.length := by
  induction h with
  | finish => rfl
  | access known he h ih =>
    rw [linesOfKind_cons, linesOfKind_cons, linesOfKind_cons, ih, List.length_cons]
    rcases hk with rfl | rfl | rfl <;> rfl

theorem countP_supplier (supplier : Option (Fin n)) :
    (List.finRange n).countP (fun j => decide (supplier = some j)) = supplier.isSome.toNat := by
  cases supplier with
  | none => simp
  | some j =>
    have hone := List.count_eq_one_of_mem (List.nodup_finRange n) (List.mem_finRange j)
    rw [List.count] at hone
    simpa [eq_comm, beq_eq_decide] using hone

theorem linesOfKind_requestLines (g : ℕ) (m : Mreq) (supplier : Option (Fin n)) :
    linesOfKind .snoopRequest (requestLines g m supplier) = n ∧
    linesOfKind .dataSend (requestLines g m supplier) = supplier.isSome.toNat ∧
    linesOfKind .dataSendMc (requestLines g m supplier) = 0 := by
  suffices hall : ∀ l : List (Fin n), ∀ log, log = (l.flatMap fun j => LogMessage.snoopRequest (L1id j) m g ::
      if supplier = some j then [.dataSend j g] else []) → linesOfKind .snoopRequest log = l.length ∧
      linesOfKind .dataSend log = l.countP (fun j => decide (supplier = some j)) ∧
      linesOfKind .dataSendMc log = 0 by
    obtain ⟨hsnoop, hsend, hmc⟩ := hall (List.finRange n) _ rfl
    exact ⟨hsnoop.trans List.length_finRange, hsend.trans (countP_supplier supplier), hmc⟩
  intro l log hlog
  subst hlog
  induction l with
  | nil => exact ⟨rfl, rfl, rfl⟩
  | cons j l ih =>
    obtain ⟨hsnoop, hsend, hmc⟩ := ih
    rw [List.flatMap_cons, linesOfKind_append, linesOfKind_append, linesOfKind_append, hsnoop, hsend, hmc,
      List.countP_cons, List.length_cons]
    by_cases hj : supplier = some j <;>
      simp [hj, linesOfKind, LogMessage.kind, Nat.add_comm]

theorem BusLog.linesOfKind {c k : ℕ} {ms : List Mreq} {log : List LogMessage} (h : BusLog x c ms k log) :
    CoherenceSim.linesOfKind .snoopRequest log = (n + 1) * ms.length ∧
    CoherenceSim.linesOfKind .dataSend log = k ∧
    CoherenceSim.linesOfKind .dataSendMc log + k = ms.length := by
  induction h with
  | rest => exact ⟨rfl, rfl, rfl⟩
  | @cache c g hg m i j hi hj ms k rest h ih =>
    obtain ⟨hsnoop, hsend, hmc⟩ := ih
    obtain ⟨hsnoop', hsend', hmc'⟩ := linesOfKind_requestLines g m (some j)
    simp only [linesOfKind_append, linesOfKind_cons, LogMessage.kind, hsnoop, hsend, hsnoop', hsend', hmc',
      List.length_cons, reduceCtorEq, if_true, if_false]
    refine ⟨by ring, by simp [Nat.add_comm], by omega⟩
  | @memory c g hg m i hi ms k rest h ih =>
    obtain ⟨hsnoop, hsend, hmc⟩ := ih
    obtain ⟨hsnoop', hsend', hmc'⟩ := linesOfKind_requestLines (n := n) g m none
    simp only [linesOfKind_append, linesOfKind_cons, LogMessage.kind, hsnoop, hsend, hsnoop', hsend', hmc',
      List.length_cons, reduceCtorEq, if_true, if_false]
    refine ⟨by ring, by simp, by omega⟩

/-- A message of an access is of one node. -/
theorem ofNode_unique {m : LogMessage} {i : Fin n} (h : m.ofNode i = true) (j : Fin n) :
    m.ofNode j = decide (j = i) := by
  cases m with
  | complete pr _ =>
    obtain rfl : pr = i := of_decide_eq_true h
    simp [ofNode, Fin.ext_iff, eq_comm]
  | fetch pr _ _ _ _ =>
    obtain rfl : pr = i := of_decide_eq_true h
    simp [ofNode, Fin.ext_iff, eq_comm]
  | procRequest mid _ _ =>
    obtain rfl : mid = L1id i := of_decide_eq_true h
    simp [ofNode, eq_comm]
  | snoopRequest _ _ _ | dataSend _ _ | dataSendMc _ => cases h

/-- So the lines of such a kind can be counted node by node. -/
theorem linesOfKind_eq_sum {k : LogMessage.Kind} (hk : k = .fetch ∨ k = .procRequest ∨ k = .complete)
    {log : List LogMessage} (h : ∀ m ∈ log, m.ofBus = true ∨ ∃ i : Fin n, m.ofNode i = true) :
    linesOfKind k log = ∑ i : Fin n, linesOfKind k (log.filter (ofNode i)) := by
  induction log with
  | nil => simp [linesOfKind]
  | cons m log ih =>
    obtain ⟨hm, hlog⟩ := List.forall_mem_cons.mp h
    have hnode : ∀ i : Fin n, linesOfKind k ((m :: log).filter (ofNode i)) =
        linesOfKind k (log.filter (ofNode i)) + if m.ofNode i = true ∧ m.kind = k then 1 else 0 := by
      intro i
      rw [List.filter_cons]
      cases m.ofNode i with
      | true => simp [linesOfKind_cons]
      | false => simp
    rw [linesOfKind_cons, ih hlog, Finset.sum_congr rfl fun i _ => hnode i, Finset.sum_add_distrib]
    refine congrArg _ ?_
    by_cases hkind : m.kind = k
    · have hbus : m.ofBus = false := by
        subst hkind
        cases m <;> simp [LogMessage.kind] at hk <;> rfl
      obtain ⟨i, hi⟩ := hm.resolve_left (by simp [hbus])
      simp [hkind, ofNode_unique hi]
    · simp [hkind]

namespace Run

variable (r : Run x)

theorem clock_lt_of_mem {c d : ℕ} {m : LogMessage} (hm : m ∈ r.log c d) : m.clock < c + d := by
  obtain ⟨e, he, hlines⟩ := List.mem_flatMap.mp hm
  obtain ⟨-, hclock⟩ := (r.state e).mem_cycleLines x.settings hlines
  rw [hclock, r.clock]
  exact (List.mem_range'_1.mp he).2

/-- The last cycle prints the completion that ends the run, if there is a cycle before it. -/
theorem Ends.exists_last {c : ℕ} (h : r.Ends (c + 1)) (hc : c ≠ 0) : ∃ m ∈ r.log 0 (c + 1), m.clock = c := by
  obtain ⟨i, hi⟩ := r.exists_not_done (h.first c (by omega) (Nat.lt_succ_self c))
  obtain ⟨st, k, l, ha⟩ := (r.inv c).node i
  obtain ⟨st', k', l', hm, ha'⟩ := r.move ha
  obtain ⟨rfl, -⟩ := h.idle r ha'
  rw [r.done_node_iff (by omega) ha] at hi
  cases hm with
  | rest => exact absurd rfl hi
  | finish hst hk =>
    obtain rfl : st = .answered := hst.resolve_right fun hidle => hi hidle.1
    have hmem : LogMessage.complete i c ∈ ((r.state c).cycleLines x.settings).filter (ofNode i) := by
      rw [Simulator.filter_ofNode, r.prLines_of_free ha hst]
      simp
    exact ⟨_, List.mem_flatMap.mpr ⟨c, by simp, (List.mem_filter.mp hmem).1⟩, rfl⟩

/-- So the run ends with the cycle of the last line. -/
theorem Ends.clock_getLast {R : ℕ} (h : r.Ends R) :
    R = ((r.log 0 R).getLast?.map LogMessage.clock).elim 1 (· + 1) := by
  obtain ⟨c, rfl⟩ := Nat.exists_eq_add_one_of_ne_zero (Nat.one_le_iff_ne_zero.mp h.pos)
  have hlt : ∀ m ∈ r.log 0 (c + 1), m.clock < c + 1 := fun m hm => Nat.zero_add (c + 1) ▸ r.clock_lt_of_mem hm
  have hsorted := (r.pairwise_clock 0 (c + 1)).1
  rcases List.eq_nil_or_concat (r.log 0 (c + 1)) with hnil | ⟨init, b, hlog⟩
  · by_cases hc : c = 0
    · rw [hnil, hc]
      rfl
    · obtain ⟨m, hm, -⟩ := h.exists_last r hc
      rw [hnil] at hm
      cases hm
  · have hb := hlt b (by rw [hlog]; simp)
    suffices hlate : c ≤ b.clock by
      rw [hlog, List.concat_eq_append, List.getLast?_concat]
      show c + 1 = b.clock + 1
      omega
    by_cases hc : c = 0
    · omega
    · obtain ⟨m, hm, rfl⟩ := h.exists_last r hc
      rw [hlog, List.concat_eq_append] at hm hsorted
      rw [List.map_append, List.pairwise_append] at hsorted
      rcases List.mem_append.mp hm with hm | hm
      · exact hsorted.2.2 _ (List.mem_map_of_mem hm) _ (by simp)
      · rw [List.mem_singleton.mp hm]

theorem linesOfKind_filter_ofBus {k : LogMessage.Kind} (hk : k = .snoopRequest ∨ k = .dataSend ∨ k = .dataSendMc)
    (log : List LogMessage) : linesOfKind k (log.filter ofBus) = linesOfKind k log := by
  unfold linesOfKind
  rw [List.countP_filter]
  refine List.countP_congr fun m _ => ?_
  rcases hk with rfl | rfl | rfl <;> cases m <;> simp [LogMessage.kind, ofBus]

/-- **All counters but one can be counted in the log**: an access is fetched, looked up and
completed once, a miss is snooped by all caches and its DATA by one, and is answered by a cache
or by the memory; and the run time is the clock of the last line, and one cycle. A silent
upgrade leaves no line. -/
theorem log_counts (r : Run x) : ∃ s log,
    (∃ fuel, StateT.run (Logged.run x.settings fuel (Simulator.init x.traces)) [] = .ok (some s, log)) ∧
    (∀ k, k = .fetch ∨ k = .procRequest ∨ k = .complete → linesOfKind k log = s.stats.cacheAccesses) ∧
    linesOfKind .snoopRequest log = (n + 1) * s.stats.cacheMisses ∧
    linesOfKind .dataSend log = s.stats.cacheToCacheTransfers ∧
    linesOfKind .dataSendMc log + linesOfKind .dataSend log = s.stats.cacheMisses ∧
    s.globalClock = (log.getLast?.map LogMessage.clock).elim 1 (· + 1) := by
  obtain ⟨R, h⟩ := r.exists_ends
  have hform := h.transcript_log r
  obtain ⟨hsnoop, hsend, hmc⟩ := hform.bus.linesOfKind
  rw [linesOfKind_filter_ofBus (by decide)] at hsnoop hsend hmc
  rw [hform.misses] at hsnoop hmc
  refine ⟨r.state R, r.log 0 R, ⟨R, r.run_prints h (Nat.le_refl R) []⟩, fun k hk => ?_, hsnoop, hsend,
    by rw [hsend, hmc], (r.clock R).trans (h.clock_getLast r)⟩
  rw [linesOfKind_eq_sum hk hform.sorts, (h.quiescent r).accesses]
  exact Finset.sum_congr rfl fun i _ => (hform.nodes i).linesOfKind hk

end Run

end CoherenceSim
