/-
# Trace files

What `fscanf (infile, "%c 0x%llx\n", ..)` reads off the text of a trace file, directive by
directive, and what it takes for an access (`fscanf_eq_some_iff`). A processor that fetches
until `end_of_trace` gets the lines of its file, or stops with a fatal error, for some files
and not for others: where a directive fails, whatever is left of the file is dropped without
a word (`faithful_iff`).
-/
import CoherenceSim.Cycle
import CoherenceSim.Lib.Text

namespace CoherenceSim

open Text

variable {n : ℕ}

/-! ### `fscanf` -/

/-- `%c`. Where a directive fails, what it leaves unread is left of the file. -/
def scanChar : List Char → Except (List Char) (Char × List Char)
  | [] => .error []
  | c :: s => .ok (c, s)

/-- A character of the format that stands for itself. -/
def scanLit (d : Char) : List Char → Except (List Char) (List Char)
  | [] => .error []
  | c :: s => if c = d then .ok s else .error (c :: s)

/-- The sign a number may have. -/
def scanSign : List Char → List Char × List Char
  | [] => ([], [])
  | c :: s => if c = '+' ∨ c = '-' then ([c], s) else ([], c :: s)

/-- The `0x` its digits may have before them. -/
def scanPrefix : List Char → List Char × List Char
  | z :: c :: s => if z = '0' ∧ (c = 'x' ∨ c = 'X') then ([z, c], s) else ([], z :: c :: s)
  | s => ([], s)

/-- What `strtoull` makes of a sign and digits: out of range, it is the greatest value. -/
def hexValue (sign digits : List Char) : Paddr :=
  if 2 ^ 64 ≤ ofDigits 16 digits then BitVec.allOnes 64
  else if sign = ['-'] then -BitVec.ofNat 64 (ofDigits 16 digits)
  else BitVec.ofNat 64 (ofDigits 16 digits)

/-- `%llx` -/
def scanHex (s : List Char) : Except (List Char) (Paddr × List Char) :=
  let (sign, s) := scanSign (skipSpace s)
  let (_, s) := scanPrefix s
  let digits := s.takeWhile (isDigit 16)
  if digits = [] then .error s else .ok (hexValue sign digits, s.dropWhile (isDigit 16))

/-- `%c 0x%llx` -/
def scanAccess (s : List Char) : Except (List Char) ((Char × Paddr) × List Char) := do
  let (c, s) ← scanChar s
  let s ← scanLit '0' (skipSpace s)
  let s ← scanLit 'x' s
  let (addr, s) ← scanHex s
  return ((c, addr), s)

/-- The text of a trace file. -/
abbrev TraceFile := List Char

instance : Infile TraceFile where
  fscanf s :=
    match scanAccess s with
    | .ok (access, s) => (some access, skipSpace s)
    | .error s => (none, s)

/-! ### What an access is written as -/

/-- An access as `fscanf` takes it: the operation, white space, `0x`, white space and a
number in base sixteen. -/
structure AccessText where
  op : Char
  before : List Char
  pad : List Char
  sign : List Char
  pre : List Char
  digits : List Char
  blank_before : Blank before
  blank_pad : Blank pad
  sign_cases : sign = [] ∨ sign = ['+'] ∨ sign = ['-']
  pre_cases : pre = [] ∨ pre = ['0', 'x'] ∨ pre = ['0', 'X']
  digits_ne : digits ≠ []
  isDigit_digits : ∀ d ∈ digits, isDigit 16 d = true

namespace AccessText

variable (x : AccessText)

def text : List Char :=
  x.op :: (x.before ++ '0' :: 'x' :: (x.pad ++ (x.sign ++ (x.pre ++ x.digits))))

def addr : Paddr := hexValue x.sign x.digits

/-- With `t` after it, the number ends where the digits do. -/
def Stops (t : List Char) : Prop :=
  ∀ d ∈ t.head?, isDigit 16 d = false ∧ (x.pre = [] → x.digits = ['0'] → ¬ (d = 'x' ∨ d = 'X'))

end AccessText

/-! ### The directives one by one -/

theorem scanLit_self (d : Char) (s : List Char) : scanLit d (d :: s) = .ok s := if_pos rfl

theorem scanLit_eq_ok {d : Char} {s t : List Char} (h : scanLit d s = .ok t) : s = d :: t := by
  cases s with
  | nil => cases h
  | cons c s =>
    change (if c = d then Except.ok s else Except.error (c :: s)) = _ at h
    split_ifs at h with hc
    cases h
    rw [hc]

theorem scanSign_append {sign s : List Char} (h : sign = [] ∨ sign = ['+'] ∨ sign = ['-'])
    (hs : ∀ c ∈ s.head?, ¬ (c = '+' ∨ c = '-')) : scanSign (sign ++ s) = (sign, s) := by
  rcases h with rfl | rfl | rfl
  · cases s with
    | nil => rfl
    | cons c s => exact if_neg (hs c rfl)
  · rfl
  · rfl

theorem exists_scanSign (s : List Char) :
    ∃ sign t, (sign = [] ∨ sign = ['+'] ∨ sign = ['-']) ∧ s = sign ++ t ∧ scanSign s = (sign, t) := by
  cases s with
  | nil => exact ⟨[], [], .inl rfl, rfl, rfl⟩
  | cons c s =>
    by_cases hc : c = '+' ∨ c = '-'
    · refine ⟨[c], s, ?_, rfl, if_pos hc⟩
      rcases hc with rfl | rfl
      · exact .inr (.inl rfl)
      · exact .inr (.inr rfl)
    · exact ⟨[], c :: s, .inl rfl, rfl, if_neg hc⟩

/-- The text starts with `0x`. -/
def HasPrefix : List Char → Prop
  | z :: c :: _ => z = '0' ∧ (c = 'x' ∨ c = 'X')
  | _ => False

theorem scanPrefix_append {pre s : List Char} (h : pre = [] ∨ pre = ['0', 'x'] ∨ pre = ['0', 'X'])
    (hs : pre = [] → ¬ HasPrefix s) : scanPrefix (pre ++ s) = (pre, s) := by
  rcases h with rfl | rfl | rfl
  · match s, hs rfl with
    | [], _ | [_], _ => rfl
    | _ :: _ :: _, hs => exact if_neg hs
  · rfl
  · rfl

theorem exists_scanPrefix (s : List Char) :
    ∃ pre t, (pre = [] ∨ pre = ['0', 'x'] ∨ pre = ['0', 'X']) ∧ s = pre ++ t ∧
      (pre = [] → ¬ HasPrefix t) ∧ scanPrefix s = (pre, t) := by
  match s with
  | [] => exact ⟨[], [], .inl rfl, rfl, fun _ => id, rfl⟩
  | [c] => exact ⟨[], [c], .inl rfl, rfl, fun _ => id, rfl⟩
  | z :: c :: s =>
    by_cases hc : z = '0' ∧ (c = 'x' ∨ c = 'X')
    · refine ⟨[z, c], s, ?_, rfl, (nomatch ·), if_pos hc⟩
      obtain ⟨rfl, rfl | rfl⟩ := hc
      · exact .inr (.inl rfl)
      · exact .inr (.inr rfl)
    · exact ⟨[], z :: c :: s, .inl rfl, rfl, fun _ => hc, if_neg hc⟩

theorem scanHex_of {s sign u pre v : List Char} (hu : scanSign (skipSpace s) = (sign, u))
    (hv : scanPrefix u = (pre, v)) : scanHex s =
      if v.takeWhile (isDigit 16) = [] then .error v
      else .ok (hexValue sign (v.takeWhile (isDigit 16)), v.dropWhile (isDigit 16)) := by
  simp only [scanHex, hu, hv]

namespace AccessText

variable {x : AccessText} {s t : List Char}

/-- A digit is no sign and no `x`. -/
theorem digit_ne {d : Char} (h : isDigit 16 d = true) : ¬ (d = '+' ∨ d = '-') ∧ ¬ (d = 'x' ∨ d = 'X') := by
  constructor <;> (rintro (rfl | rfl) <;> exact absurd h (by decide))

theorem not_hasPrefix (ht : x.Stops t) (hp : x.pre = []) : ¬ HasPrefix (x.digits ++ t) := by
  have hd := x.isDigit_digits
  match hx : x.digits with
  | [] => exact absurd hx x.digits_ne
  | [d] =>
    cases t with
    | nil => exact id
    | cons e t =>
      rintro ⟨rfl, he⟩
      exact (ht e rfl).2 hp hx he
  | d :: e :: _ =>
    rintro ⟨-, he⟩
    exact (digit_ne (hd e (by simp [hx]))).2 he

/-- **`%llx` reads a number to its end.** -/
theorem scanHex_eq (ht : x.Stops t) :
    scanHex (x.pad ++ (x.sign ++ (x.pre ++ (x.digits ++ t)))) = .ok (x.addr, t) := by
  have hhead : ∀ c ∈ (x.pre ++ (x.digits ++ t)).head?, isDigit 16 c = true := by
    rcases x.pre_cases with hp | hp | hp <;> rw [hp]
    · match hx : x.digits with
      | [] => exact absurd hx x.digits_ne
      | d :: _ => rintro c ⟨⟩; exact x.isDigit_digits d (by simp [hx])
    · rintro c ⟨⟩; rfl
    · rintro c ⟨⟩; rfl
  have hspace : Unspaced (x.sign ++ (x.pre ++ (x.digits ++ t))) := by
    rcases x.sign_cases with hs | hs | hs <;> rw [hs]
    · exact fun c hc => isSpace_of_isDigit le_rfl (hhead c hc)
    · rintro c ⟨⟩; rfl
    · rintro c ⟨⟩; rfl
  obtain ⟨htake, hdrop⟩ := span_append x.isDigit_digits fun d hd => (ht d hd).1
  have hu : scanSign (skipSpace (x.pad ++ (x.sign ++ (x.pre ++ (x.digits ++ t))))) =
      (x.sign, x.pre ++ (x.digits ++ t)) := by
    rw [skipSpace_append x.blank_pad, skipSpace_eq_self hspace]
    exact scanSign_append x.sign_cases fun c hc => (digit_ne (hhead c hc)).1
  rw [scanHex_of hu (scanPrefix_append x.pre_cases (not_hasPrefix ht)), htake, hdrop,
    if_neg x.digits_ne]
  rfl

/-- **What the directives read off an access.** -/
theorem scanAccess_eq (ht : x.Stops t) : scanAccess (x.text ++ t) = .ok ((x.op, x.addr), t) := by
  have h0 : skipSpace (x.before ++ '0' :: 'x' :: (x.pad ++ (x.sign ++ (x.pre ++ (x.digits ++ t))))) =
      '0' :: 'x' :: (x.pad ++ (x.sign ++ (x.pre ++ (x.digits ++ t)))) := by
    rw [skipSpace_append x.blank_before]
    exact skipSpace_eq_self (by rintro c ⟨⟩; rfl)
  have htext : x.text ++ t =
      x.op :: (x.before ++ '0' :: 'x' :: (x.pad ++ (x.sign ++ (x.pre ++ (x.digits ++ t))))) := by
    simp [text]
  rw [htext]
  unfold scanAccess scanChar
  simp only [Loop.ok_bind, h0, scanLit_self, scanHex_eq ht]
  rfl

/-- **What the directives read is an access.** -/
theorem exists_of_scanAccess {c : Char} {a : Paddr} (h : scanAccess s = .ok ((c, a), t)) :
    ∃ x : AccessText, x.op = c ∧ x.addr = a ∧ s = x.text ++ t ∧ x.Stops t := by
  cases s with
  | nil => cases h
  | cons c' s =>
    unfold scanAccess at h
    obtain ⟨⟨_, _⟩, ⟨⟩, h⟩ := Loop.bind_eq_ok h
    obtain ⟨s₁, h₁, h⟩ := Loop.bind_eq_ok h
    obtain ⟨s₂, h₂, h⟩ := Loop.bind_eq_ok h
    obtain ⟨⟨_, _⟩, h₃, ⟨⟩⟩ := Loop.bind_eq_ok h
    obtain ⟨before, hbefore, hs⟩ := exists_skipSpace s
    obtain ⟨pad, hpad, hs₂⟩ := exists_skipSpace s₂
    obtain ⟨sign, u, hsign, hu, hscan⟩ := exists_scanSign (skipSpace s₂)
    obtain ⟨pre, v, hpre, hv, hno, hscan'⟩ := exists_scanPrefix u
    rw [scanHex_of hscan hscan'] at h₃
    split_ifs at h₃ with hne
    obtain ⟨ha, ht⟩ := Prod.mk.inj (Except.ok.inj h₃)
    have hsplit : v.takeWhile (isDigit 16) ++ t = v := ht ▸ List.takeWhile_append_dropWhile
    refine ⟨⟨c, before, pad, sign, pre, v.takeWhile (isDigit 16), hbefore, hpad, hsign, hpre, hne,
      fun _ => List.mem_takeWhile_imp⟩, rfl, ha, ?_, ?_⟩
    · rw [text]
      simp only [List.cons_append, List.append_assoc]
      rw [hsplit, ← hv, ← hu, ← hs₂, ← scanLit_eq_ok h₂, ← scanLit_eq_ok h₁, ← hs]
    · intro d hd
      refine ⟨head?_dropWhile _ v d (ht ▸ hd), fun hp (hdig : v.takeWhile (isDigit 16) = ['0']) hdx => hno hp ?_⟩
      rw [← hsplit, hdig]
      cases t with
      | nil => cases hd
      | cons e t => obtain rfl : e = d := Option.some.inj hd; exact ⟨rfl, hdx⟩

/-- The number ends exactly where no longer text is an access too. -/
theorem stops_iff : x.Stops t ↔
    ∀ d ∈ t.head?, ¬ ∃ (y : AccessText) (q : List Char), y.text = x.text ++ d :: q := by
  constructor
  · rintro ht d hd ⟨y, q, hy⟩
    have hx : scanAccess (x.text ++ d :: q) = .ok ((x.op, x.addr), d :: q) :=
      scanAccess_eq fun e he => by obtain rfl : d = e := Option.some.inj he; exact ht d hd
    have hy' : scanAccess (y.text ++ []) = .ok ((y.op, y.addr), []) := scanAccess_eq (nofun)
    rw [List.append_nil, hy, hx] at hy'
    exact nomatch (Prod.mk.inj (Except.ok.inj hy')).2
  · intro h d hd
    refine ⟨?_, fun hp hdig hdx => h d hd ?_⟩
    · by_contra hdig
      rw [Bool.not_eq_false] at hdig
      refine h d hd ⟨{ x with digits := x.digits ++ [d], digits_ne := by simp
                              isDigit_digits := ?_ }, [], by simp [text]⟩
      exact List.forall_mem_append.mpr ⟨x.isDigit_digits, List.forall_mem_singleton.mpr hdig⟩
    · -- a zero and then an `x`: it may be the `0x` of a number
      refine ⟨{ x with pre := ['0', d], pre_cases := ?_ }, ['0'], by simp [text, hp, hdig]⟩
      rcases hdx with rfl | rfl
      · exact .inr (.inl rfl)
      · exact .inr (.inr rfl)

/-- The text `s` starts with the access, and with no longer one; `t` is what is left of it
after the white space behind the access. -/
def StartsText (x : AccessText) (s t : List Char) : Prop :=
  ∃ w, Blank w ∧ Unspaced t ∧ s = x.text ++ (w ++ t) ∧
    ∀ d ∈ (w ++ t).head?, ¬ ∃ (y : AccessText) (q : List Char), y.text = x.text ++ d :: q

theorem StartsText.length_lt (h : x.StartsText s t) : t.length < s.length := by
  obtain ⟨w, -, -, rfl, -⟩ := h
  simp only [text, List.length_append, List.length_cons]
  omega

/-- **What `fscanf` takes for an access.** -/
theorem fscanf_eq_some_iff {c : Char} {a : Paddr} :
    Infile.fscanf (s : TraceFile) = (some (c, a), t) ↔
      ∃ x : AccessText, x.op = c ∧ x.addr = a ∧ x.StartsText s t := by
  constructor
  · intro h
    unfold Infile.fscanf instInfileTraceFile at h
    dsimp only at h
    split at h
    case h_1 l u hscan =>
      obtain ⟨hl, rfl⟩ := Prod.mk.inj h
      obtain rfl := Option.some.inj hl
      obtain ⟨x, hop, haddr, hs, hstop⟩ := exists_of_scanAccess hscan
      obtain ⟨w, hw, hu⟩ := exists_skipSpace u
      rw [hu] at hs hstop
      exact ⟨x, hop, haddr, w, hw, unspaced_skipSpace u, hs, stops_iff.mp hstop⟩
    case h_2 => cases (Prod.mk.inj h).1
  · rintro ⟨x, rfl, rfl, w, hw, ht, rfl, hmax⟩
    unfold Infile.fscanf instInfileTraceFile
    simp only [scanAccess_eq (stops_iff.mpr hmax), skipSpace_append hw, skipSpace_eq_self ht]

/-- An access up to white space is where the text starts. -/
theorem startsText_of (x : AccessText) (h : ∀ c ∈ t.head?, isSpace c = true) :
    x.StartsText (x.text ++ t) (skipSpace t) := by
  obtain ⟨w, hw, ht⟩ := exists_skipSpace t
  refine ⟨w, hw, unspaced_skipSpace t, by rw [← ht], stops_iff.mp fun d hd => ?_⟩
  rw [← ht] at hd
  have hspace := h d hd
  refine ⟨?_, fun _ _ hx => ?_⟩
  · by_contra hdig
    rw [isSpace_of_isDigit le_rfl (Bool.not_eq_false _ ▸ hdig)] at hspace
    cases hspace
  · rcases hx with rfl | rfl <;> exact absurd hspace (by decide)

end AccessText

/-! ### The accesses of a file -/

/-- What `fscanf` reads off a file until it fails. -/
def scanAll : ℕ → TraceFile → Trace
  | 0, _ => []
  | fuel + 1, file =>
    match Infile.fscanf file with
    | (some access, rest) => access :: scanAll fuel rest
    | (none, _) => []

/-- The accesses of a file; each takes up a character at least. -/
def accessesIn (file : TraceFile) : Trace := scanAll file.length file

section
variable {file rest : TraceFile} {access : Char × Paddr}

theorem length_lt_of_fscanf (h : Infile.fscanf file = (some access, rest)) : rest.length < file.length := by
  obtain ⟨x, -, -, hx⟩ := AccessText.fscanf_eq_some_iff.mp h
  exact hx.length_lt

theorem scanAll_eq {fuel fuel' : ℕ} (h : file.length ≤ fuel) (h' : file.length ≤ fuel') :
    scanAll fuel file = scanAll fuel' file := by
  induction fuel generalizing file fuel' with
  | zero =>
    obtain rfl : file = [] := List.length_eq_zero_iff.mp (Nat.le_zero.mp h)
    cases fuel' <;> rfl
  | succ fuel ih =>
    cases fuel' with
    | zero =>
      obtain rfl : file = [] := List.length_eq_zero_iff.mp (Nat.le_zero.mp h')
      rfl
    | succ fuel' =>
      unfold scanAll
      rcases hf : Infile.fscanf file with ⟨_ | access, rest⟩
      · rfl
      · have hlt := length_lt_of_fscanf hf
        exact congrArg _ (ih (by omega) (by omega))

theorem accessesIn_some (h : Infile.fscanf file = (some access, rest)) :
    accessesIn file = access :: accessesIn rest := by
  have hlt := length_lt_of_fscanf h
  obtain ⟨k, hk⟩ := Nat.exists_eq_add_one_of_ne_zero (show file.length ≠ 0 by omega)
  rw [accessesIn, hk, scanAll, h]
  exact congrArg _ (scanAll_eq (by omega) (Nat.le_refl _))

theorem accessesIn_none (h : Infile.fscanf file = (none, rest)) : accessesIn file = [] := by
  unfold accessesIn
  cases file.length with
  | zero => rfl
  | succ k => rw [scanAll, h]

end

theorem accessesIn_blank {file : TraceFile} (h : Blank file) : accessesIn file = [] := by
  rcases hf : Infile.fscanf file with ⟨_ | ⟨c, a⟩, rest⟩
  · exact accessesIn_none hf
  · obtain ⟨x, -, -, w, -, -, rfl, -⟩ := AccessText.fscanf_eq_some_iff.mp hf
    exact absurd (h '0' (by simp [AccessText.text])) (by decide)

/-! ### Texts made of accesses -/

/-- The text is those accesses one after the other, up to white space, and nothing else. -/
inductive Consists : List AccessText → TraceFile → Prop
  | nil : Consists [] []
  | cons {x : AccessText} {accesses : List AccessText} {s t : TraceFile} :
      x.StartsText s t → Consists accesses t → Consists (x :: accesses) s

namespace Consists

variable {x : AccessText} {accesses : List AccessText} {s : TraceFile}

theorem eq_nil (h : Consists [] s) : s = [] := by cases h; rfl

theorem exists_cons (h : Consists (x :: accesses) s) : ∃ t, x.StartsText s t ∧ Consists accesses t := by
  cases h with
  | cons hs h => exact ⟨_, hs, h⟩

/-- **They are what is read off it**, each with its operation and its address. -/
theorem accessesIn_eq (h : Consists accesses s) : accessesIn s = accesses.map fun x => (x.op, x.addr) := by
  induction h with
  | nil => rfl
  | cons hs _ ih => rw [accessesIn_some (AccessText.fscanf_eq_some_iff.mpr ⟨_, rfl, rfl, hs⟩), ih, List.map_cons]

/-- A text whose lines are accesses. -/
theorem of_lineTexts (h : lineTexts s = accesses.map (·.text)) : Consists accesses (skipSpace s) := by
  induction accesses generalizing s with
  | nil =>
    rw [skipSpace_eq_nil.mpr (blank_of_lineTexts h)]
    exact .nil
  | cons x accesses ih =>
    obtain ⟨r, hr, hspace, hrest⟩ := exists_lineTexts_cons h
    exact .cons (hr ▸ x.startsText_of hspace) (ih hrest)

/-- Accesses written one a line. -/
theorem of_lines (hx : ∀ x ∈ accesses, isSpace x.op = false) :
    Consists accesses (accesses.flatMap fun x => x.text ++ ['\n']) := by
  induction accesses with
  | nil => exact .nil
  | cons x accesses ih =>
    obtain ⟨-, hx⟩ := List.forall_mem_cons.mp hx
    have hskip : skipSpace ('\n' :: accesses.flatMap fun x => x.text ++ ['\n']) =
        accesses.flatMap fun x => x.text ++ ['\n'] := by
      refine (skipSpace_append (List.forall_mem_singleton.mpr rfl)).trans (skipSpace_eq_self ?_)
      cases accesses with
      | nil => rintro c ⟨⟩
      | cons y _ =>
        rintro c ⟨⟩
        exact hx y (by simp)
    have hs : x.StartsText (x.text ++ '\n' :: accesses.flatMap fun x => x.text ++ ['\n'])
        (skipSpace ('\n' :: accesses.flatMap fun x => x.text ++ ['\n'])) :=
      x.startsText_of (by rintro c ⟨⟩; rfl)
    rw [hskip] at hs
    rw [List.flatMap_cons, List.append_assoc]
    exact .cons hs (ih hx)

end Consists

/-! ### A processor that reads to the end -/

/-- The access of the node completes: the cache has taken the request, and DATA has come. -/
def Node.served (nd : Node TraceFile) : Node TraceFile :=
  { L1 := { nd.L1 with procRequest := none }, PR := { nd.PR with outstandingRequest := false } }

/-- It is what `Processor::tick` does when DATA comes in. -/
theorem Node.complete_served {nd : Node TraceFile} {d : Mreq} (hd : d.msg = .DATA)
    (h : nd.PR.inboundRequest = none) :
    Processor.complete { nd.PR with inboundRequest := some d } = .ok nd.served.PR := by
  simp [Processor.complete, hd, served, ← h]

/-- The requests of a processor that fetches, each access complete before the next fetch, and
how it ends: in an error, or with `end_of_trace` set and then what was unread before that. -/
def fetchAll (i : Fin n) : ℕ → Node TraceFile → List Mreq × Option (Except Fatal TraceFile)
  | 0, _ => ([], none)
  | fuel + 1, nd =>
    match nd.fetch i with
    | .error e => ([], some (.error e))
    | .ok nd' =>
      if nd'.PR.endOfTrace then ([], some (.ok nd.PR.infile))
      else
        let (requests, stop) := fetchAll i fuel nd'.served
        (nd'.L1.procRequest.toList ++ requests, stop)

/-- What the processor of node `i` reads of its file, with every access complete in its turn. -/
def readTrace (files : Fin n → TraceFile) (i : Fin n) : List Mreq × Option (Except Fatal TraceFile) :=
  fetchAll i ((files i).length + 1) ((Simulator.init files).Nd i)

/-- The operations a processor knows. -/
def AccessText.Known (x : AccessText) : Prop := x.op = 'r' ∨ x.op = 'w'

theorem AccessText.Known.isSpace_op {x : AccessText} (h : x.Known) : isSpace x.op = false := by
  rcases h with h | h <;> rw [h] <;> rfl

/-- The request of the processor of node `i` for an access. -/
def AccessText.request (x : AccessText) (i : Fin n) : Mreq := .new (opOf x.op) x.addr (PRid i)

/-- No input is dropped without a word: the run aborts, or every line that is not blank
is an access that has been read off the file, in order, with its operation and its address,
and has been issued, and nothing but white space is unread. -/
def Faithful (files : Fin n → TraceFile) (i : Fin n) : Prop :=
  match readTrace files i with
  | (_, some (.error e)) => ∃ text, e = .fatalError text
  | (requests, some (.ok unread)) => Blank unread ∧
      ∃ accesses : List AccessText, accesses.map (·.text) = lineTexts (files i) ∧
        (∀ x ∈ accesses, x.Known) ∧ accessesIn (files i) = accesses.map (fun x => (x.op, x.addr)) ∧
        requests = accesses.map (·.request i)
  | (_, none) => False

theorem exists_map_text {P : AccessText → Prop} {ls : List (List Char)}
    (h : ∀ l ∈ ls, ∃ x : AccessText, x.text = l ∧ P x) :
    ∃ accesses : List AccessText, accesses.map (·.text) = ls ∧ ∀ x ∈ accesses, P x := by
  induction ls with
  | nil => exact ⟨[], rfl, List.forall_mem_nil _⟩
  | cons l ls ih =>
    obtain ⟨⟨x, rfl, hx⟩, hls⟩ := List.forall_mem_cons.mp h
    obtain ⟨accesses, rfl, hxs⟩ := ih hls
    exact ⟨x :: accesses, rfl, List.forall_mem_cons.mpr ⟨hx, hxs⟩⟩

/-- Every line that is not blank is an access, and the file does not start with white space
(unless there is nothing else). -/
def LineByLine (file : TraceFile) : Prop :=
  (Blank file ∨ Unspaced file) ∧ ∀ l ∈ lineTexts file, ∃ x : AccessText, x.text = l ∧ x.Known

theorem LineByLine.exists_accesses {file : TraceFile} (h : LineByLine file) :
    ∃ accesses : List AccessText, accesses.map (·.text) = lineTexts file ∧ (∀ x ∈ accesses, x.Known) ∧
      (Blank file ∨ Consists accesses file) := by
  obtain ⟨hstart, hx⟩ := h
  obtain ⟨accesses, htext, hknown⟩ := exists_map_text hx
  refine ⟨accesses, htext, hknown, hstart.imp_right fun hs => ?_⟩
  have hc := Consists.of_lineTexts htext.symm
  rwa [skipSpace_eq_self hs] at hc

/-- After some accesses comes one with another operation. -/
inductive UnknownOp : TraceFile → Prop
  | here {x : AccessText} {s t : TraceFile} : x.StartsText s t → ¬ x.Known → UnknownOp s
  | after {x : AccessText} {s t : TraceFile} : x.StartsText s t → x.Known → UnknownOp t → UnknownOp s

/-- The processor of the node may fetch. -/
structure Node.Ready (nd : Node TraceFile) : Prop where
  endOfTrace : nd.PR.endOfTrace = false
  outstandingRequest : nd.PR.outstandingRequest = false

section
variable {i : Fin n} {nd : Node TraceFile} {x : AccessText} {s t : TraceFile}

/-! ### One fetch -/

theorem Node.Ready.fetch_known (h : nd.Ready) (hs : x.StartsText nd.PR.infile t) (hx : x.Known) :
    nd.fetch i = .ok { L1 := { nd.L1 with procRequest := some (x.request i) }
                       PR := { nd.PR with infile := t, outstandingRequest := true } } := by
  have hf := AccessText.fscanf_eq_some_iff.mpr ⟨x, rfl, rfl, hs⟩
  unfold fetch AccessText.request
  rcases hx with hx | hx <;> rw [hx] at hf ⊢ <;>
    simp only [h.endOfTrace, h.outstandingRequest, Bool.or_self, Bool.false_eq_true, if_false, hf] <;> rfl

theorem Node.Ready.fetch_unknown (h : nd.Ready) (hs : x.StartsText nd.PR.infile t) (hx : ¬ x.Known) :
    nd.fetch i = .error (.fatalError ("Processor " ++ toString i.val ++ ": unknown operation - " ++
      x.op.toString)) := by
  have hf := AccessText.fscanf_eq_some_iff.mpr ⟨x, rfl, rfl, hs⟩
  unfold fetch
  simp only [h.endOfTrace, h.outstandingRequest, Bool.or_self, Bool.false_eq_true, if_false, hf]
  split
  · exact absurd (.inl ‹_›) hx
  · exact absurd (.inr ‹_›) hx
  · rfl

/-- **An access is fetched**, and the processor goes on with what is behind it. -/
theorem fetchAll_known (h : nd.Ready) (hs : x.StartsText nd.PR.infile t) (hx : x.Known) :
    ∃ nd' : Node TraceFile, nd'.Ready ∧ nd'.PR.infile = t ∧ ∀ fuel,
      fetchAll i (fuel + 1) nd = (x.request i :: (fetchAll i fuel nd').1, (fetchAll i fuel nd').2) := by
  refine ⟨Node.served { L1 := { nd.L1 with procRequest := some (x.request i) }
                        PR := { nd.PR with infile := t, outstandingRequest := true } },
    ⟨h.endOfTrace, rfl⟩, rfl, fun fuel => ?_⟩
  rw [fetchAll, h.fetch_known hs hx]
  simp only [h.endOfTrace, Bool.false_eq_true, if_false]
  rfl

/-- Another operation is fatal. -/
theorem fetchAll_unknown (h : nd.Ready) (hs : x.StartsText nd.PR.infile t) (hx : ¬ x.Known) (fuel : ℕ) :
    ∃ text, fetchAll i (fuel + 1) nd = ([], some (.error (.fatalError text))) := by
  rw [fetchAll, h.fetch_unknown hs hx]
  exact ⟨_, rfl⟩

/-- **Where there is no access, the trace is over**, whatever is left of it. -/
theorem fetchAll_end (h : nd.Ready) (hs : ∀ (x : AccessText) t, ¬ x.StartsText nd.PR.infile t) (fuel : ℕ) :
    fetchAll i (fuel + 1) nd = ([], some (.ok nd.PR.infile)) := by
  rcases hscan : Infile.fscanf nd.PR.infile with ⟨_ | ⟨c, a⟩, t⟩
  · have hf : nd.fetch i = .ok { nd with PR := { nd.PR with infile := t, endOfTrace := true } } := by
      unfold Node.fetch
      simp only [h.endOfTrace, h.outstandingRequest, Bool.or_self, Bool.false_eq_true, if_false, hscan]
    rw [fetchAll, hf]
    simp only [if_true]
  · obtain ⟨x, -, -, hx⟩ := AccessText.fscanf_eq_some_iff.mp hscan
    exact absurd hx (hs x t)

/-- What a text starts with: an access the processor knows, another one, or none. -/
theorem startsText_cases (s : TraceFile) :
    (∃ x t, AccessText.StartsText x s t ∧ x.Known) ∨ (∃ x t, AccessText.StartsText x s t ∧ ¬ x.Known) ∨
      ∀ x t, ¬ AccessText.StartsText x s t := by
  by_cases h : ∃ x t, AccessText.StartsText x s t
  · obtain ⟨x, t, hx⟩ := h
    by_cases hk : x.Known
    · exact .inl ⟨x, t, hx, hk⟩
    · exact .inr (.inl ⟨x, t, hx, hk⟩)
  · exact .inr (.inr fun x t hx => h ⟨x, t, hx⟩)

/-! ### The whole file -/

/-- The processor comes to the end, for better or worse. -/
theorem fetchAll_isSome (h : nd.Ready) {fuel : ℕ} (hfuel : nd.PR.infile.length < fuel) :
    (fetchAll i fuel nd).2.isSome = true := by
  induction fuel generalizing nd with
  | zero => omega
  | succ fuel ih =>
    rcases startsText_cases nd.PR.infile with ⟨x, t, hs, hx⟩ | ⟨x, t, hs, hx⟩ | hs
    · obtain ⟨nd', h', rfl, heq⟩ := fetchAll_known (i := i) h hs hx
      have hlt := hs.length_lt
      rw [heq]
      exact ih h' (by omega)
    · obtain ⟨text, heq⟩ := fetchAll_unknown (i := i) h hs hx fuel
      rw [heq]; rfl
    · rw [fetchAll_end h hs]; rfl

/-- **What is issued is what has been read**, up to an operation that is not known. -/
theorem fetchAll_requests (h : nd.Ready) {fuel : ℕ} (hfuel : nd.PR.infile.length < fuel) :
    (fetchAll i fuel nd).1 = ((accessesIn nd.PR.infile).takeWhile fun l => l.1 = 'r' ∨ l.1 = 'w').map
      fun l => .new (opOf l.1) l.2 (PRid i) := by
  induction fuel generalizing nd with
  | zero => omega
  | succ fuel ih =>
    rcases startsText_cases nd.PR.infile with ⟨x, t, hs, hx⟩ | ⟨x, t, hs, hx⟩ | hs
    · obtain ⟨nd', h', rfl, heq⟩ := fetchAll_known (i := i) h hs hx
      have hlt := hs.length_lt
      rw [heq, accessesIn_some (AccessText.fscanf_eq_some_iff.mpr ⟨x, rfl, rfl, hs⟩),
        List.takeWhile_cons_of_pos (by rw [decide_eq_true_eq]; exact hx), List.map_cons, ih h' (by omega)]
      rfl
    · obtain ⟨text, heq⟩ := fetchAll_unknown (i := i) h hs hx fuel
      rw [heq, accessesIn_some (AccessText.fscanf_eq_some_iff.mpr ⟨x, rfl, rfl, hs⟩),
        List.takeWhile_cons_of_neg (by rw [decide_eq_true_eq]; exact hx)]
      rfl
    · rw [fetchAll_end h hs]
      rcases hf : Infile.fscanf nd.PR.infile with ⟨_ | ⟨c, a⟩, t⟩
      · rw [accessesIn_none hf]
        rfl
      · obtain ⟨x, -, -, hx⟩ := AccessText.fscanf_eq_some_iff.mp hf
        exact absurd hx (hs x t)

theorem unknownOp_of_error (h : nd.Ready) {fuel : ℕ} {requests : List Mreq} {e : Fatal}
    (he : fetchAll i fuel nd = (requests, some (.error e))) : UnknownOp nd.PR.infile := by
  induction fuel generalizing nd requests with
  | zero => cases he
  | succ fuel ih =>
    rcases startsText_cases nd.PR.infile with ⟨x, t, hs, hx⟩ | ⟨x, t, hs, hx⟩ | hs
    · obtain ⟨nd', h', rfl, heq⟩ := fetchAll_known (i := i) h hs hx
      rw [heq] at he
      exact .after hs hx (ih h' (Prod.ext rfl (Prod.mk.inj he).2))
    · exact .here hs hx
    · rw [fetchAll_end h hs] at he
      cases he

/-- **An unknown operation aborts the run**, after the accesses before it. -/
theorem UnknownOp.fatal (hu : UnknownOp s) (h : nd.Ready) (hnd : nd.PR.infile = s) {fuel : ℕ}
    (hfuel : s.length < fuel) :
    ∃ requests text, fetchAll i fuel nd = (requests, some (.error (.fatalError text))) := by
  induction hu generalizing nd fuel with
  | here hs hx =>
    obtain ⟨fuel, rfl⟩ := Nat.exists_eq_add_one_of_ne_zero (show fuel ≠ 0 by omega)
    subst hnd
    obtain ⟨text, heq⟩ := fetchAll_unknown (i := i) h hs hx fuel
    exact ⟨[], text, heq⟩
  | after hs hx _ ih =>
    obtain ⟨fuel, rfl⟩ := Nat.exists_eq_add_one_of_ne_zero (show fuel ≠ 0 by omega)
    subst hnd
    obtain ⟨nd', h', hnd', heq⟩ := fetchAll_known (i := i) h hs hx
    have hlt := hs.length_lt
    obtain ⟨requests, text, hr⟩ := ih h' hnd' (show _ < fuel by omega)
    rw [heq, hr]
    exact ⟨_, text, rfl⟩

/-- A blank file is over before anything is issued. -/
theorem fetchAll_blank (hb : Blank nd.PR.infile) (h : nd.Ready) (fuel : ℕ) :
    fetchAll i (fuel + 1) nd = ([], some (.ok nd.PR.infile)) := by
  refine fetchAll_end h ?_ fuel
  rintro x t ⟨w, -, -, hs, -⟩
  exact absurd (hb '0' (by simp [hs, AccessText.text])) (by decide)

/-- **A processor reads the accesses of its file** and nothing is left. -/
theorem Consists.fetchAll_eq {accesses : List AccessText} (hc : Consists accesses nd.PR.infile)
    (hx : ∀ x ∈ accesses, x.Known) (h : nd.Ready) {fuel : ℕ} (hfuel : nd.PR.infile.length < fuel) :
    fetchAll i fuel nd = (accesses.map (·.request i), some (.ok [])) := by
  induction accesses generalizing nd fuel with
  | nil =>
    obtain ⟨fuel, rfl⟩ := Nat.exists_eq_add_one_of_ne_zero (show fuel ≠ 0 by omega)
    have hnil : nd.PR.infile = [] := hc.eq_nil
    rw [fetchAll_blank (hnil ▸ List.forall_mem_nil _) h, hnil]
    rfl
  | cons x accesses ih =>
    obtain ⟨fuel, rfl⟩ := Nat.exists_eq_add_one_of_ne_zero (show fuel ≠ 0 by omega)
    obtain ⟨hk, hx⟩ := List.forall_mem_cons.mp hx
    obtain ⟨t, hs, hc⟩ := hc.exists_cons
    obtain ⟨nd', h', hnd', heq⟩ := fetchAll_known (i := i) h hs hk
    have hlt := hs.length_lt
    rw [heq, ih (hnd' ▸ hc) hx h' (by rw [hnd']; omega)]
    rfl

end

/-- An address as it is printed, with blanks after its `0x`. -/
def AccessText.print (op : Char) (blanks : ℕ) (addr : Paddr) : AccessText where
  op := op
  before := [' ']
  pad := List.replicate blanks ' '
  sign := []
  pre := []
  digits := Nat.toDigits 16 addr.toNat
  blank_before := List.forall_mem_singleton.mpr rfl
  blank_pad c hc := (List.eq_of_mem_replicate hc).symm ▸ rfl
  sign_cases := .inl rfl
  pre_cases := .inl rfl
  digits_ne := Nat.toDigits_ne_nil
  isDigit_digits _ := isDigit_of_mem_toDigits (by decide) (by decide)

theorem AccessText.addr_print (op : Char) (blanks : ℕ) (addr : Paddr) : (print op blanks addr).addr = addr := by
  show hexValue [] (Nat.toDigits 16 addr.toNat) = addr
  have hlt := addr.isLt
  rw [hexValue, ofDigits_toDigits (by decide) (by decide), if_neg (by omega), if_neg (by simp)]
  exact (BitVec.ofNat_toNat _ addr).trans (BitVec.setWidth_eq addr)

variable {files : Fin n → TraceFile} {i : Fin n}

theorem ready_init (files : Fin n → TraceFile) (i : Fin n) : ((Simulator.init files).Nd i).Ready := ⟨rfl, rfl⟩

/-- Which files a run does not abort on and reads in full. -/
theorem lineByLine_of_faithful {requests : List Mreq} {unread : TraceFile}
    (hread : readTrace files i = (requests, some (.ok unread))) (h : Faithful files i) :
    LineByLine (files i) := by
  rw [Faithful, hread] at h
  obtain ⟨hblank, accesses, htext, hknown, -, -⟩ := h
  constructor
  · rcases startsText_cases (files i) with ⟨x, t, ⟨w, -, -, hs, -⟩, hx⟩ | ⟨x, t, hs, hx⟩ | hs
    · right
      rw [hs]
      rintro c ⟨⟩
      exact hx.isSpace_op
    · obtain ⟨text, heq⟩ := fetchAll_unknown (i := i) (ready_init files i) hs hx (files i).length
      cases hread.symm.trans heq
    · left
      have heq := fetchAll_end (i := i) (ready_init files i) hs (files i).length
      obtain rfl : unread = files i := by
        injection hread.symm.trans heq with _ h
        exact Except.ok.inj (Option.some.inj h)
      exact hblank
  · intro l hl
    rw [← htext] at hl
    obtain ⟨x, hx, rfl⟩ := List.mem_map.mp hl
    exact ⟨x, rfl, hknown x hx⟩

theorem faithful_of_lineByLine (h : LineByLine (files i)) : Faithful files i := by
  obtain ⟨accesses, htext, hknown, hreads⟩ := h.exists_accesses
  rw [Faithful]
  rcases hreads with hb | hc
  · have heq : readTrace files i = ([], some (.ok (files i))) :=
      fetchAll_blank hb (ready_init files i) (files i).length
    rw [lineTexts_of_blank hb] at htext
    obtain rfl : accesses = [] := List.map_eq_nil_iff.mp htext
    rw [heq, lineTexts_of_blank hb, accessesIn_blank hb]
    exact ⟨hb, [], rfl, hknown, rfl, rfl⟩
  · have hread : readTrace files i = (accesses.map (·.request i), some (.ok [])) :=
      hc.fetchAll_eq hknown (ready_init files i) (Nat.lt_succ_self _)
    rw [hread]
    exact ⟨List.forall_mem_nil _, accesses, htext, hknown, hc.accessesIn_eq, rfl⟩

theorem faithful_of_unknownOp (h : UnknownOp (files i)) : Faithful files i := by
  obtain ⟨requests, text, heq⟩ := h.fatal (i := i) (ready_init files i) rfl (Nat.lt_succ_self _)
  have hread : readTrace files i = (requests, some (.error (.fatalError text))) := heq
  rw [Faithful, hread]
  exact ⟨text, rfl⟩

/-- **Which files are read in full or not at all.** No input is dropped without a word exactly
if the file is a list of lines, or the run comes to an operation it does not know. The
accesses of a list, one a line, are read back as they are, to the last bit of the address,
whatever the blanks after `0x`. Whatever is in its file, a processor comes to the end of it and
issues what it has read, up to an operation it does not know. -/
theorem faithful_iff (i : Fin n) :
    (∀ files : Fin n → TraceFile, Faithful files i ↔ LineByLine (files i) ∨ UnknownOp (files i)) ∧
      (∀ (accesses : List AccessText) (files : Fin n → TraceFile), (∀ x ∈ accesses, x.Known) →
        (files i = accesses.flatMap fun x => x.text ++ ['\n']) →
        accessesIn (files i) = accesses.map (fun x => (x.op, x.addr)) ∧
          readTrace files i = (accesses.map (·.request i), some (.ok []))) ∧
      (∀ (op : Char) (blanks : ℕ) (addr : Paddr), ∃ x : AccessText, x.op = op ∧ x.addr = addr ∧
        x.text = op :: ' ' :: '0' :: 'x' :: (List.replicate blanks ' ' ++ Nat.toDigits 16 addr.toNat)) ∧
      ∀ files : Fin n → TraceFile, (readTrace files i).2.isSome = true ∧
        (readTrace files i).1 = ((accessesIn (files i)).takeWhile fun l => l.1 = 'r' ∨ l.1 = 'w').map
          fun l => .new (opOf l.1) l.2 (PRid i) := by
  have hready := fun files => ready_init (i := i) files
  refine ⟨fun files => ⟨fun h => ?_, fun h => h.elim faithful_of_lineByLine faithful_of_unknownOp⟩,
    fun accesses files hx hfile => ?_, fun op blanks addr => ⟨.print op blanks addr, rfl, AccessText.addr_print .., rfl⟩,
    fun files => ⟨fetchAll_isSome (hready files) (Nat.lt_succ_self _),
      fetchAll_requests (hready files) (Nat.lt_succ_self _)⟩⟩
  · rcases hread : readTrace files i with ⟨requests, _ | e | unread⟩
    · rw [Faithful, hread] at h
      exact h.elim
    · exact .inr (unknownOp_of_error (hready files) hread)
    · exact .inl (lineByLine_of_faithful hread h)
  · have hc : Consists accesses (files i) := hfile ▸ Consists.of_lines fun x hmem => (hx x hmem).isSpace_op
    exact ⟨hc.accessesIn_eq, hc.fetchAll_eq hx (hready files) (Nat.lt_succ_self _)⟩

/-- A line with no `0x` ends the trace: it and the line after it are dropped, and the run goes on. -/
theorem not_faithful_no_prefix :
    ¬ Faithful (fun _ : Fin 1 => "r 0x40\nr 80\nw 0xc0\n".toList) 0 := by
  have hread : readTrace (fun _ : Fin 1 => "r 0x40\nr 80\nw 0xc0\n".toList) 0 =
      ([.new .LOAD 0x40 (PRid (0 : Fin 1))], some (.ok "r 80\nw 0xc0\n".toList)) := by rfl
  rw [Faithful, hread]
  exact fun h => absurd (h.1 'r' (by decide)) (by decide)

end CoherenceSim
