/-
# `getopt`

What `getopt` finds on a command line, of the options of one letter that a program takes:
those that stand alone, and those that take a value, which follows in the same argument or
is the next one (`getopt_attached`, `getopt_separate`). What is no option is passed over,
up to `--`; a letter that is none, or that lacks its value, is reported as `?`.
-/
import Mathlib.Tactic

namespace Getopt

/-- The letters that are options, and whether they take a value. -/
abbrev Spec := Char → Option Bool

/-- An option with its value. -/
abbrev Found := Char × Option (List Char)

/-- The letters of one argument, up to one whose value is still to come. -/
def cluster (spec : Spec) : List Char → List Found × Option Char
  | [] => ([], none)
  | c :: cs =>
    match spec c with
    | none => (('?', none) :: (cluster spec cs).1, (cluster spec cs).2)
    | some false => ((c, none) :: (cluster spec cs).1, (cluster spec cs).2)
    | some true => if cs = [] then ([], some c) else ([(c, some cs)], none)

def getopt (spec : Spec) : List (List Char) → List Found
  | [] => []
  | arg :: args =>
    if arg = ['-', '-'] then []
    else
      match arg with
      | '-' :: c :: cs =>
        match cluster spec (c :: cs), args with
        | (found, none), args => found ++ getopt spec args
        | (found, some _), [] => found ++ [('?', none)]
        | (found, some o), value :: args => found ++ (o, some value) :: getopt spec args
      | _ => getopt spec args

variable {spec : Spec} {o : Char} {value : List Char}

theorem getopt_attached (ho : spec o = some true) (hdash : o ≠ '-') (hv : value ≠ []) (args : List (List Char)) :
    getopt spec (('-' :: o :: value) :: args) = (o, some value) :: getopt spec args := by
  have hne : ('-' :: o :: value) ≠ ['-', '-'] := by simp [hdash]
  rw [getopt.eq_def]
  simp only [if_neg hne]
  simp [cluster, ho, hv]

theorem getopt_separate (ho : spec o = some true) (hdash : o ≠ '-') (args : List (List Char)) :
    getopt spec (['-', o] :: value :: args) = (o, some value) :: getopt spec args := by
  have hne : ['-', o] ≠ ['-', '-'] := by simp [hdash]
  rw [getopt.eq_def]
  simp only [if_neg hne]
  simp [cluster, ho]

end Getopt
