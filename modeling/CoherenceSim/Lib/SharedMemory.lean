/-
# One memory for all

The accesses of several parties to a memory, in one order: `latest v₀ a log` is
what the memory holds at `a` after the accesses of `log` if it has held `v₀`
everywhere before them, and a log is `Legal` if every read in it has the value the
memory holds then. A log that takes the accesses of each party in the order of its
program and is legal is sequentially consistent (`SequentiallyConsistent`).
-/
import Mathlib.Tactic

namespace SharedMemory

/-- An access of `who` to the location `loc`: the value written, or the value read. -/
structure Access (ι α β : Type*) where
  who : ι
  write : Bool
  loc : α
  value : β
deriving DecidableEq, Repr

variable {ι α β : Type*}

/-! ### The accesses of one party -/

section Order
variable [DecidableEq ι]

/-- Without their values. -/
def accessesOf (i : ι) (log : List (Access ι α β)) : List (Bool × α) :=
  (log.filter (·.who = i)).map fun e => (e.write, e.loc)

theorem accessesOf_append (i : ι) (log log' : List (Access ι α β)) :
    accessesOf i (log ++ log') = accessesOf i log ++ accessesOf i log' := by
  simp [accessesOf]

theorem accessesOf_singleton (i : ι) (e : Access ι α β) :
    accessesOf i [e] = if e.who = i then [(e.write, e.loc)] else [] := by
  unfold accessesOf
  split <;> simp_all

end Order

/-! ### What a read returns -/

variable [DecidableEq α]

/-- The value at `a` after the accesses of a log, the last of them last. -/
def latest (v₀ : β) (a : α) (log : List (Access ι α β)) : β :=
  log.foldl (fun v e => if e.write ∧ e.loc = a then e.value else v) v₀

/-- Every read has the value of the last write before it. -/
def Legal (v₀ : β) (log : List (Access ι α β)) : Prop :=
  ∀ l e l', log = l ++ e :: l' → e.write = false → e.value = latest v₀ e.loc l

/-- A log of what the parties have done so far of their programs. -/
structure SequentiallyConsistent [DecidableEq ι] (v₀ : β) (prog : ι → List (Bool × α))
    (log : List (Access ι α β)) : Prop where
  order : ∀ i, accessesOf i log <+: prog i
  legal : Legal v₀ log

variable {v₀ : β} {log : List (Access ι α β)} {e : Access ι α β} {a : α}

theorem latest_write (hw : e.write = true) (ha : e.loc = a) : latest v₀ a (log ++ [e]) = e.value := by
  simp [latest, hw, ha]

theorem latest_other (h : e.write = false ∨ e.loc ≠ a) : latest v₀ a (log ++ [e]) = latest v₀ a log := by
  rcases h with h | h <;> simp [latest, h]

theorem legal_nil : Legal v₀ ([] : List (Access ι α β)) := by
  intro l e l' h
  simp at h

theorem Legal.append (h : Legal v₀ log) (he : e.write = false → e.value = latest v₀ e.loc log) :
    Legal v₀ (log ++ [e]) := by
  intro l f l' hl hf
  rcases List.eq_nil_or_concat l' with rfl | ⟨l'', g, rfl⟩
  · obtain ⟨rfl, hef⟩ := List.append_inj' hl rfl
    obtain rfl : e = f := by simpa using hef
    exact he hf
  · have hsplit : log ++ [e] = (l ++ f :: l'') ++ [g] := by
      rw [hl, List.concat_eq_append]
      simp
    obtain ⟨rfl, -⟩ := List.append_inj' hsplit rfl
    exact h l f l'' rfl hf

end SharedMemory
