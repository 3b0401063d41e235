/-
# Code that prints

A `Printer` is code that can fail and appends messages to a log. `Does`: it does what a
code that prints nothing does, whether that fails or not. `Prints`: it ends with a value,
and has printed these messages. `Mirrors`: it prints what other code prints, and ends with
the image of its value. All three go through sequences and loops.
-/
import CoherenceSim.Lib.Loop

namespace Printing

variable {μ ε α β σ τ ι : Type}

abbrev Printer (μ ε : Type) := StateT (List μ) (Except ε)

/-- Appends messages to the log. -/
def print (ms : List μ) : Printer μ ε Unit := modify (· ++ ms)

/-- `code` does what `plain` does. -/
def Does (code : Printer μ ε α) (plain : Except ε α) : Prop :=
  ∀ log, (code.run log).map Prod.fst = plain

/-- `code` ends with `a`, having printed `ms`. -/
def Prints (code : Printer μ ε α) (ms : List μ) (a : α) : Prop :=
  ∀ log, code.run log = .ok (a, log ++ ms)

/-! ### What it does -/

namespace Does

theorem lift (plain : Except ε α) : Does (liftM plain : Printer μ ε α) plain := by
  intro log
  cases plain <;> rfl

theorem pure (a : α) : Does (Pure.pure a : Printer μ ε α) (.ok a) := fun _ => rfl

theorem bind {code : Printer μ ε α} {plain : Except ε α} {f : α → Printer μ ε β} {g : α → Except ε β}
    (h : Does code plain) (hf : ∀ a, Does (f a) (g a)) : Does (code >>= f) (plain >>= g) := by
  intro log
  have hrun := h log
  show (code.run log >>= fun p => (f p.1).run p.2).map Prod.fst = _
  cases hc : code.run log with
  | error e =>
    rw [hc] at hrun
    rw [← hrun]
    rfl
  | ok p =>
    rw [hc] at hrun
    rw [← hrun]
    exact hf p.1 p.2

/-- Code after it that only prints makes no difference. -/
theorem tail {code : Printer μ ε α} {plain : Except ε α} {f : α → Printer μ ε α} (h : Does code plain)
    (hf : ∀ a, Does (f a) (.ok a)) : Does (code >>= f) plain := by
  have hpure : (plain >>= fun a => .ok a) = plain := by cases plain <;> rfl
  exact hpure ▸ h.bind hf

/-- What is printed makes no difference. -/
theorem print_bind {f : Unit → Printer μ ε α} {plain : Except ε α} (ms : List μ) (h : Does (f ()) plain) :
    Does (print ms >>= f) plain :=
  fun log => h (log ++ ms)

theorem foldlM {f : σ → ι → Printer μ ε σ} {g : σ → ι → Except ε σ} (h : ∀ s i, Does (f s i) (g s i))
    (l : List ι) (s : σ) : Does (l.foldlM f s) (l.foldlM g s) := by
  induction l generalizing s with
  | nil => exact pure s
  | cons i l ih =>
    rw [List.foldlM_cons, List.foldlM_cons]
    exact (h s i).bind ih

end Does

/-! ### What it prints -/

namespace Prints

theorem pure (a : α) : Prints (Pure.pure a : Printer μ ε α) [] a := by
  intro log
  rw [List.append_nil]
  rfl

theorem print (ms : List μ) : Prints (print ms : Printer μ ε Unit) ms () := fun _ => rfl

theorem lift {plain : Except ε α} {a : α} (h : plain = .ok a) :
    Prints (liftM plain : Printer μ ε α) [] a := by
  subst h
  exact pure a

variable {code : Printer μ ε α} {a : α} {ms : List μ}

theorem bind {f : α → Printer μ ε β} {b : β} {ms' : List μ} (h : Prints code ms a)
    (hf : Prints (f a) ms' b) : Prints (code >>= f) (ms ++ ms') b := by
  intro log
  show (code.run log >>= fun p => (f p.1).run p.2) = _
  rw [h log, Loop.ok_bind, hf, List.append_assoc]

theorem foldlM_closed {f : σ → ι → Printer μ ε σ} {s : σ} (g : List ι → σ) (m : ι → List μ) (h0 : g [] = s)
    (hs : ∀ l i, (l ++ [i]).Nodup → Prints (f (g l) i) (m i) (g (l ++ [i]))) (l : List ι) (hl : l.Nodup) :
    Prints (l.foldlM f s) (l.flatMap m) (g l) := by
  induction l using List.reverseRecOn with
  | nil =>
    rw [h0]
    exact pure s
  | append_singleton l i ih =>
    have hlast : Prints ([i].foldlM f (g l)) (m i) (g (l ++ [i])) := by
      have hone := (hs l i hl).bind (pure (ε := ε) (μ := μ) (g (l ++ [i])))
      rwa [List.append_nil] at hone
    rw [List.foldlM_append, List.flatMap_append, List.flatMap_singleton]
    exact (ih (List.nodup_append.mp hl).1).bind hlast

end Prints

/-! ### What two pieces of code print -/

/-- `code'` prints what `code` does and ends with the image of its value, or fails as it does. -/
def Mirrors (h : α → β) (code : Printer μ ε α) (code' : Printer μ ε β) : Prop :=
  ∀ log, code'.run log = (code.run log).map (Prod.map h id)

namespace Mirrors

theorem lift {h : α → β} {plain : Except ε α} {plain' : Except ε β} (heq : plain' = plain.map h) :
    Mirrors h (liftM plain : Printer μ ε α) (liftM plain') := by
  intro log
  subst heq
  cases plain <;> rfl

theorem pure {h : α → β} {a : α} {b : β} (heq : b = h a) :
    Mirrors h (Pure.pure a : Printer μ ε α) (Pure.pure b) := by
  intro log
  subst heq
  rfl

theorem bind {γ δ : Type} {h : α → β} {h' : γ → δ} {code : Printer μ ε α} {code' : Printer μ ε β}
    {f : α → Printer μ ε γ} {f' : β → Printer μ ε δ} (hc : Mirrors h code code')
    (hf : ∀ a, Mirrors h' (f a) (f' (h a))) : Mirrors h' (code >>= f) (code' >>= f') := by
  intro log
  show (code'.run log >>= fun p => (f' p.1).run p.2) =
    (code.run log >>= fun p => (f p.1).run p.2).map (Prod.map h' id)
  rw [hc log]
  cases code.run log with
  | error e => rfl
  | ok p => exact hf p.1 p.2

theorem print_bind {γ δ : Type} {h' : γ → δ} {f : Unit → Printer μ ε γ} {f' : Unit → Printer μ ε δ}
    {ms ms' : List μ} (hms : ms' = ms) (hf : Mirrors h' (f ()) (f' ())) :
    Mirrors h' (print ms >>= f) (print ms' >>= f') := by
  subst hms
  exact fun log => hf (log ++ ms')

theorem foldlM {h : σ → τ} {f : σ → ι → Printer μ ε σ} {f' : τ → ι → Printer μ ε τ}
    (hf : ∀ s i, Mirrors h (f s i) (f' (h s) i)) (l : List ι) (s : σ) :
    Mirrors h (l.foldlM f s) (l.foldlM f' (h s)) := by
  induction l generalizing s with
  | nil => exact pure rfl
  | cons i l ih =>
    rw [List.foldlM_cons, List.foldlM_cons]
    exact (hf s i).bind ih

end Mirrors

end Printing
