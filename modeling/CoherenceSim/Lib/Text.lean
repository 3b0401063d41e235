/-
# Text

A text is the list of its characters. White space (`isSpace`), the lines of a text
(`lines`) and what is on those that are not blank (`lineTexts`), numbers in a base up to
sixteen, their digits (`Nat.toDigits`) and the value of a row of digits (`ofDigits`), and the
cutting of a text at a separator (`split`) or at white space (`words`).
-/
import Mathlib.Tactic
import Mathlib.Data.List.DropRight

namespace Text

/-! ### White space -/

/-- `isspace` -/
def isSpace (c : Char) : Bool := c.toNat == 32 || (9 ≤ c.toNat && c.toNat ≤ 13)

/-- There is nothing but white space. -/
abbrev Blank (s : List Char) : Prop := ∀ c ∈ s, isSpace c = true

/-- The text does not start with white space. -/
abbrev Unspaced (s : List Char) : Prop := ∀ c ∈ s.head?, isSpace c = false

/-- What is left after the white space. -/
def skipSpace (s : List Char) : List Char := s.dropWhile isSpace

/-- The text without the white space around it. -/
def strip (s : List Char) : List Char := (skipSpace s).rdropWhile isSpace

variable {c d : Char} {s t w : List Char}

theorem Blank.append (hs : Blank s) (ht : Blank t) : Blank (s ++ t) :=
  fun _ hc => (List.mem_append.mp hc).elim (hs _) (ht _)

theorem skipSpace_append (h : Blank w) : skipSpace (w ++ s) = skipSpace s :=
  List.dropWhile_append_of_pos h

theorem skipSpace_eq_self (h : Unspaced s) : skipSpace s = s := by
  cases s with
  | nil => rfl
  | cons c s => exact List.dropWhile_cons_of_neg (by simp [h c rfl])

theorem skipSpace_eq_nil : skipSpace s = [] ↔ Blank s := List.dropWhile_eq_nil_iff

/-- A row of characters with a property, as far as it goes. -/
theorem span_append {p : Char → Bool} (hs : ∀ c ∈ s, p c = true) (ht : ∀ c ∈ t.head?, p c = false) :
    (s ++ t).takeWhile p = s ∧ (s ++ t).dropWhile p = t := by
  rw [List.takeWhile_append_of_pos hs, List.dropWhile_append_of_pos hs]
  cases t with
  | nil => exact ⟨List.append_nil s, rfl⟩
  | cons c t =>
    have hc : ¬ p c = true := by simp [ht c rfl]
    rw [List.takeWhile_cons_of_neg hc, List.dropWhile_cons_of_neg hc, List.append_nil]
    exact ⟨rfl, rfl⟩

theorem head?_dropWhile (p : Char → Bool) (s : List Char) :
    ∀ c ∈ (s.dropWhile p).head?, p c = false := by
  induction s with
  | nil => rintro c ⟨⟩
  | cons c s ih =>
    cases hc : p c with
    | true => rw [List.dropWhile_cons_of_pos hc]; exact ih
    | false =>
      rw [List.dropWhile_cons_of_neg (by simp [hc])]
      rintro d ⟨⟩
      exact hc

theorem unspaced_skipSpace (s : List Char) : Unspaced (skipSpace s) := head?_dropWhile _ s

/-- White space, then the rest. -/
theorem exists_skipSpace (s : List Char) : ∃ w, Blank w ∧ s = w ++ skipSpace s :=
  ⟨s.takeWhile isSpace, fun _ => List.mem_takeWhile_imp, List.takeWhile_append_dropWhile.symm⟩

/-- White space after what a text holds does not matter to what it holds. -/
theorem strip_append (h : Blank w) : strip (s ++ w) = strip s := by
  unfold strip skipSpace
  by_cases hs : Blank s
  · rw [List.dropWhile_append_of_pos hs, List.dropWhile_eq_nil_iff.mpr h,
      List.dropWhile_eq_nil_iff.mpr hs]
  · rw [List.dropWhile_append, if_neg (by simpa [List.isEmpty_iff, List.dropWhile_eq_nil_iff] using hs)]
    induction w using List.reverseRecOn with
    | nil => rw [List.append_nil]
    | append_singleton w c ih =>
      rw [← List.append_assoc, List.rdropWhile_concat_pos _ _ _ (h c (by simp))]
      exact ih fun d hd => h d (by simp [hd])

/-- A text is what it holds with white space around it. -/
theorem exists_strip (s : List Char) :
    ∃ w, Blank w ∧ skipSpace s = strip s ++ w :=
  ⟨(skipSpace s).rtakeWhile isSpace,
    fun _ hc => List.mem_takeWhile_imp (List.mem_reverse.mp hc),
    List.rdropWhile_append_rtakeWhile.symm⟩

theorem strip_eq_nil : strip s = [] ↔ Blank s := by
  constructor
  · intro h
    obtain ⟨w, hw, hs⟩ := exists_strip s
    rw [h, List.nil_append] at hs
    obtain ⟨v, hv, hs'⟩ := exists_skipSpace s
    rw [hs', hs]
    exact hv.append hw
  · intro h
    rw [strip, skipSpace_eq_nil.mpr h]
    rfl

/-! ### Lines -/

/-- The lines of a text, each with the newline that ends it. -/
def lines : List Char → List (List Char)
  | [] => []
  | c :: s =>
    if c = '\n' then [c] :: lines s
    else
      match lines s with
      | [] => [[c]]
      | l :: ls => (c :: l) :: ls

/-- What is on the lines that are not blank. -/
def lineTexts (s : List Char) : List (List Char) := ((lines s).map strip).filter (· ≠ [])

theorem lines_append {l : List Char} (h : '\n' ∉ l) (s : List Char) :
    lines (l ++ '\n' :: s) = (l ++ ['\n']) :: lines s := by
  induction l with
  | nil => rfl
  | cons c l ih =>
    have hc : c ≠ '\n' := fun hc => h (by simp [hc])
    rw [List.cons_append, lines, if_neg hc, ih fun hl => h (List.mem_cons_of_mem _ hl)]
    rfl

theorem lines_of_notMem {l : List Char} (h : '\n' ∉ l) : lines l = if l = [] then [] else [l] := by
  induction l with
  | nil => rfl
  | cons c l ih =>
    have hc : c ≠ '\n' := fun hc => h (by simp [hc])
    rw [lines, if_neg hc, ih fun hl => h (List.mem_cons_of_mem _ hl)]
    cases l <;> rfl

/-- Induction on the lines of a text. -/
theorem line_induction {motive : List Char → Prop} (last : ∀ l, '\n' ∉ l → motive l)
    (line : ∀ l s, '\n' ∉ l → motive s → motive (l ++ '\n' :: s)) (s : List Char) : motive s := by
  suffices h : ∀ s l, '\n' ∉ l → motive (l ++ s) from h s [] (by simp)
  intro s
  induction s with
  | nil => intro l hl; rw [List.append_nil]; exact last l hl
  | cons c s ih =>
    intro l hl
    by_cases hc : c = '\n'
    · subst hc
      exact line l s hl (ih [] (by simp))
    · rw [List.append_cons]
      exact ih _ (by simp [hl, Ne.symm hc])

theorem lineTexts_append {l : List Char} (h : '\n' ∉ l) (s : List Char) :
    lineTexts (l ++ '\n' :: s) = if strip l = [] then lineTexts s else strip l :: lineTexts s := by
  have hl : strip (l ++ ['\n']) = strip l := strip_append (List.forall_mem_singleton.mpr rfl)
  rw [lineTexts, lines_append h, List.map_cons, hl, List.filter_cons]
  split <;> simp_all [lineTexts]

theorem lineTexts_of_notMem {l : List Char} (h : '\n' ∉ l) :
    lineTexts l = if strip l = [] then [] else [strip l] := by
  rw [lineTexts, lines_of_notMem h]
  by_cases hl : l = []
  · subst hl; rfl
  · rw [if_neg hl, List.map_singleton, List.filter_singleton]
    split <;> simp_all

/-- A text with no lines but blank ones is blank. -/
theorem blank_of_lineTexts (h : lineTexts s = []) : Blank s := by
  induction s using line_induction with
  | last l hl =>
    rw [lineTexts_of_notMem hl] at h
    exact strip_eq_nil.mp (by by_contra hne; simp [hne] at h)
  | line l s hl ih =>
    rw [lineTexts_append hl] at h
    by_cases hne : strip l = []
    · rw [if_pos hne] at h
      exact (strip_eq_nil.mp hne).append (List.forall_mem_cons.mpr ⟨rfl, ih h⟩)
    · simp [hne] at h

theorem lineTexts_of_blank (h : Blank s) : lineTexts s = [] := by
  induction s using line_induction with
  | last l hl => rw [lineTexts_of_notMem hl, if_pos (strip_eq_nil.mpr h)]
  | line l s hl ih =>
    obtain ⟨hb, hs⟩ := List.forall_mem_append.mp h
    rw [lineTexts_append hl, if_pos (strip_eq_nil.mpr hb)]
    exact ih (List.forall_mem_cons.mp hs).2

/-- **The first line that is not blank** is what comes first in the text, up to white space or
the end. -/
theorem exists_lineTexts_cons {ls : List (List Char)} (h : lineTexts s = t :: ls) :
    ∃ r, skipSpace s = t ++ r ∧ (∀ c ∈ r.head?, isSpace c = true) ∧ lineTexts r = ls := by
  induction s using line_induction with
  | last l hl =>
    rw [lineTexts_of_notMem hl] at h
    split at h
    · cases h
    · obtain ⟨rfl, rfl⟩ := List.cons.inj h
      obtain ⟨w, hw, hs⟩ := exists_strip l
      refine ⟨w, hs, fun c hc => hw c (List.mem_of_mem_head? hc), ?_⟩
      have hnl : '\n' ∉ w := fun hmem =>
        hl ((List.dropWhile_sublist _).subset (hs ▸ List.mem_append_right _ hmem))
      rw [lineTexts_of_notMem hnl, if_pos (strip_eq_nil.mpr hw)]
  | line l s hl ih =>
    rw [lineTexts_append hl] at h
    by_cases hne : strip l = []
    · rw [if_pos hne] at h
      rw [skipSpace_append (strip_eq_nil.mp hne)]
      exact ih h
    · rw [if_neg hne] at h
      obtain ⟨rfl, rfl⟩ := List.cons.inj h
      obtain ⟨w, hw, hs⟩ := exists_strip l
      have hnl : '\n' ∉ w := fun hmem =>
        hl ((List.dropWhile_sublist _).subset (hs ▸ List.mem_append_right _ hmem))
      refine ⟨w ++ '\n' :: s, ?_, fun c hc => ?_, ?_⟩
      · rw [← List.append_assoc, ← hs, skipSpace, List.dropWhile_append, if_neg]
        · rfl
        · rw [List.isEmpty_iff, List.dropWhile_eq_nil_iff]
          exact fun hb => hne (strip_eq_nil.mpr hb)
      · cases w with
        | nil => obtain rfl : '\n' = c := Option.some.inj hc; rfl
        | cons d w => obtain rfl : d = c := Option.some.inj hc; exact hw d (by simp)
      · rw [lineTexts_append hnl, if_pos (strip_eq_nil.mpr hw)]

/-! ### Numbers -/

/-- The value of a digit, and at least sixteen for any other character. -/
def digitVal (c : Char) : ℕ :=
  if 48 ≤ c.toNat ∧ c.toNat ≤ 57 then c.toNat - 48 -- `0` to `9`
  else if 97 ≤ c.toNat ∧ c.toNat ≤ 102 then c.toNat - 87 -- `a` to `f`
  else if 65 ≤ c.toNat ∧ c.toNat ≤ 70 then c.toNat - 55 -- `A` to `F`
  else 16

/-- A digit in base `b`. -/
def isDigit (b : ℕ) (c : Char) : Bool := digitVal c < b

theorem toNat_of_isDigit {b : ℕ} (hb : b ≤ 16) (h : isDigit b c = true) :
    48 ≤ c.toNat ∧ c.toNat ≤ 57 ∨ 97 ≤ c.toNat ∧ c.toNat ≤ 102 ∨ 65 ≤ c.toNat ∧ c.toNat ≤ 70 := by
  have hlt : digitVal c < b := of_decide_eq_true h
  unfold digitVal at hlt
  split_ifs at hlt <;> omega

/-- A digit is no white space. -/
theorem isSpace_of_isDigit {b : ℕ} (hb : b ≤ 16) (h : isDigit b c = true) : isSpace c = false := by
  have hc := toNat_of_isDigit hb h
  simp only [isSpace, Bool.or_eq_false_iff, beq_eq_false_iff_ne, Bool.and_eq_false_iff,
    decide_eq_false_iff_not]
  omega

/-- The value of a row of digits. -/
def ofDigits (b : ℕ) (s : List Char) : ℕ := s.foldl (fun v c => b * v + digitVal c) 0

theorem ofDigits_concat (b : ℕ) (s : List Char) (c : Char) :
    ofDigits b (s ++ [c]) = b * ofDigits b s + digitVal c := by
  rw [ofDigits, List.foldl_append]
  rfl

theorem digitVal_digitChar {n : ℕ} (h : n < 16) : digitVal n.digitChar = n := by
  interval_cases n <;> rfl

/-- **The digits of a number are read as the number.** -/
theorem ofDigits_toDigits {b : ℕ} (hb : 1 < b) (hb' : b ≤ 16) (n : ℕ) :
    ofDigits b (Nat.toDigits b n) = n := by
  induction n using Nat.strongRecOn with
  | ind n ih =>
    by_cases hn : n < b
    · rw [Nat.toDigits_of_lt_base hn]
      exact (ofDigits_concat b [] _).trans (by simp [ofDigits, digitVal_digitChar (hn.trans_le hb')])
    · have hmod : n % b < b := Nat.mod_lt _ (by omega)
      rw [Nat.toDigits_of_base_le hb (Nat.le_of_not_lt hn), ofDigits_concat,
        ih _ (Nat.div_lt_self (by omega) hb), digitVal_digitChar (hmod.trans_le hb'), Nat.div_add_mod]

theorem isDigit_of_mem_toDigits {b : ℕ} (hb : 1 < b) (hb' : b ≤ 16) {n : ℕ}
    (h : c ∈ Nat.toDigits b n) : isDigit b c = true := by
  induction n using Nat.strongRecOn with
  | ind n ih =>
    have hdigit : ∀ k < b, isDigit b k.digitChar = true := fun k hk => by
      simpa [isDigit, digitVal_digitChar (hk.trans_le hb')] using hk
    by_cases hn : n < b
    · rw [Nat.toDigits_of_lt_base hn, List.mem_singleton] at h
      exact h ▸ hdigit n hn
    · rw [Nat.toDigits_of_base_le hb (Nat.le_of_not_lt hn), List.mem_append, List.mem_singleton] at h
      rcases h with h | rfl
      · exact ih _ (Nat.div_lt_self (by omega) hb) h
      · exact hdigit _ (Nat.mod_lt _ (by omega))

/-- `str` of an integer. -/
def ofInt : ℤ → List Char
  | .ofNat k => Nat.toDigits 10 k
  | .negSucc k => '-' :: Nat.toDigits 10 (k + 1)

/-- `int` of a text: a sign may stand before the digits, and white space around them. -/
def readInt (s : List Char) : Option ℤ :=
  let (neg, digits) := match strip s with
    | [] => (false, [])
    | c :: ds => if c = '-' then (true, ds) else if c = '+' then (false, ds) else (false, c :: ds)
  if !digits.isEmpty && digits.all (isDigit 10) then
    some (if neg then -(ofDigits 10 digits : ℤ) else ofDigits 10 digits)
  else none

/-- `%8d` and the like: blanks on the left, up to the width. -/
def rjust (width : ℕ) (s : List Char) : List Char := List.replicate (width - s.length) ' ' ++ s

/-- What stands between white space is what a text holds. -/
theorem strip_eq {v : List Char} (hw : Blank w) (hs : Unspaced s) (hlast : ∀ c ∈ s.getLast?, isSpace c = false)
    (hv : Blank v) : strip (w ++ (s ++ v)) = s := by
  rw [← List.append_assoc, strip_append hv, strip, skipSpace_append hw, skipSpace_eq_self hs,
    List.rdropWhile_eq_self_iff]
  exact fun hne => by simp [hlast _ (List.getLast?_eq_getLast_of_ne_nil hne)]

theorem isDigit_ofInt {z : ℤ} (hz : 0 ≤ z) : ∀ d ∈ ofInt z, isDigit 10 d = true := by
  obtain ⟨k, rfl⟩ := Int.eq_ofNat_of_zero_le hz
  exact fun d => isDigit_of_mem_toDigits (by decide) (by decide)

theorem ofInt_ne_nil (z : ℤ) : ofInt z ≠ [] := by
  cases z with
  | ofNat k => exact Nat.toDigits_ne_nil
  | negSucc k => exact List.cons_ne_nil _ _

/-- **An integer that is not negative is read back**, with white space around it. -/
theorem readInt_ofInt {v : List Char} {z : ℤ} (hz : 0 ≤ z) (hw : Blank w) (hv : Blank v) :
    readInt (w ++ (ofInt z ++ v)) = some z := by
  have hdigit := isDigit_ofInt hz
  have hspace : ∀ d ∈ ofInt z, isSpace d = false := fun d hd => isSpace_of_isDigit (by decide) (hdigit d hd)
  unfold readInt
  rw [strip_eq hw (fun c hc => hspace c (List.mem_of_mem_head? hc))
    (fun c hc => hspace c (List.mem_of_getLast? hc)) hv]
  match hz' : ofInt z with
  | [] => exact absurd hz' (ofInt_ne_nil z)
  | c :: ds =>
    rw [hz'] at hdigit
    have hc : c ≠ '-' ∧ c ≠ '+' := by
      constructor <;> (rintro rfl; exact absurd (hdigit _ List.mem_cons_self) (by decide))
    simp only [if_neg hc.1, if_neg hc.2]
    rw [List.isEmpty_cons, Bool.not_false, Bool.true_and, List.all_eq_true.mpr hdigit, if_pos rfl, ← hz']
    obtain ⟨k, rfl⟩ := Int.eq_ofNat_of_zero_le hz
    exact congrArg (fun k : ℕ => some (k : ℤ)) (ofDigits_toDigits (by decide) (by decide) k)

/-! ### Cutting a text -/

/-- The text cut wherever `sep` stands, from the left; `k` more characters belong to the last
one found. -/
def splitGo (sep : List Char) : ℕ → List Char → List (List Char)
  | _, [] => [[]]
  | k + 1, _ :: s => splitGo sep k s
  | 0, c :: s =>
    if sep.isPrefixOf (c :: s) then [] :: splitGo sep (sep.length - 1) s
    else
      match splitGo sep 0 s with
      | [] => [[c]]
      | t :: ts => (c :: t) :: ts

/-- `split(sep)` -/
def split (sep s : List Char) : List (List Char) := splitGo sep 0 s

/-- What stands between white space, after the start `u` of a word. -/
def wordsGo : List Char → List Char → List (List Char)
  | u, [] => if u = [] then [] else [u]
  | u, c :: s =>
    if isSpace c then
      if u = [] then wordsGo [] s else u :: wordsGo [] s
    else wordsGo (u ++ [c]) s

/-- `split()` -/
def words (s : List Char) : List (List Char) := wordsGo [] s

theorem splitGo_append (sep r s : List Char) : splitGo sep r.length (r ++ s) = splitGo sep 0 s := by
  induction r with
  | nil => rfl
  | cons c r ih => exact ih

theorem isPrefixOf_cons_ne {sep : List Char} (h : c ≠ d) : (d :: sep).isPrefixOf (c :: s) = false := by
  rw [List.isPrefixOf, beq_eq_false_iff_ne.mpr (Ne.symm h), Bool.false_and]

/-- Up to the first separator. -/
theorem split_append {sep : List Char} (h : d ∉ t) (s : List Char) :
    split (d :: sep) (t ++ (d :: sep ++ s)) = t :: split (d :: sep) s := by
  induction t with
  | nil =>
    show splitGo _ _ (d :: (sep ++ s)) = _
    have hpre : (d :: sep).isPrefixOf (d :: (sep ++ s)) = true :=
      List.isPrefixOf_iff_prefix.mpr (List.prefix_append (d :: sep) s)
    rw [splitGo, if_pos hpre, List.length_cons, Nat.add_sub_cancel, splitGo_append]
    rfl
  | cons c t ih =>
    have hc : c ≠ d := fun hc => h (hc ▸ List.mem_cons_self)
    have ih := ih fun ht => h (List.mem_cons_of_mem _ ht)
    unfold split at ih ⊢
    rw [List.cons_append, splitGo, isPrefixOf_cons_ne hc, if_neg Bool.false_ne_true, ih]

theorem split_of_notMem {sep : List Char} (h : d ∉ t) : split (d :: sep) t = [t] := by
  induction t with
  | nil => rfl
  | cons c t ih =>
    have hc : c ≠ d := fun hc => h (hc ▸ List.mem_cons_self)
    have ih := ih fun ht => h (List.mem_cons_of_mem _ ht)
    unfold split at ih ⊢
    rw [splitGo, isPrefixOf_cons_ne hc, if_neg Bool.false_ne_true, ih]

/-- **Cutting undoes joining.** -/
theorem split_intercalate {sep : List Char} {ts : List (List Char)} (hne : ts ≠ []) (h : ∀ t ∈ ts, d ∉ t) :
    split (d :: sep) (List.intercalate (d :: sep) ts) = ts := by
  induction ts with
  | nil => exact absurd rfl hne
  | cons t ts ih =>
    obtain ⟨ht, h⟩ := List.forall_mem_cons.mp h
    cases ts with
    | nil => rw [List.intercalate_singleton, split_of_notMem ht]
    | cons u ts =>
      rw [List.intercalate_cons_cons, List.append_assoc, split_append ht, ih (List.cons_ne_nil _ _) h]

theorem wordsGo_append (ht : ∀ c ∈ t, isSpace c = false) (u s : List Char) :
    wordsGo u (t ++ s) = wordsGo (u ++ t) s := by
  induction t generalizing u with
  | nil => rw [List.nil_append, List.append_nil]
  | cons c t ih =>
    rw [List.cons_append, wordsGo, ht c List.mem_cons_self, if_neg Bool.false_ne_true,
      ih fun d hd => ht d (List.mem_cons_of_mem _ hd), List.append_assoc, List.singleton_append]

/-- The first word. -/
theorem words_append (hne : t ≠ []) (ht : ∀ c ∈ t, isSpace c = false)
    (hs : ∀ c ∈ s.head?, isSpace c = true) : words (t ++ s) = t :: words s := by
  rw [words, wordsGo_append ht, List.nil_append]
  cases s with
  | nil => exact if_neg hne
  | cons c s => rw [words, wordsGo, wordsGo, hs c rfl, if_pos rfl, if_neg hne, if_pos rfl, if_pos rfl]

end Text
