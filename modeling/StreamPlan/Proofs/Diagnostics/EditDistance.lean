import Mathlib.Order.Bounds.Basic
import StreamPlan.Diagnostics.EditDistance

/-!
# The edit distance of two texts

Rows of partial distances are a way to compute what is defined by recursion on
both texts, and what that is for: the least number of edits.

* `TextEdit`, `TextEdits`: one edit of a text, and several of them.
* `levenshtein`: the distance by recursion on both texts.
* `levenshtein_isLeast`: **as many edits lead from one text to the other**, and no
  fewer do.
* `distanceRow_eq`: a row holds the distances from all beginnings of a text.
* `editDistance_isLeast`: **the edit distance** is the least number of edits, and
  a distance.
-/

namespace StreamPlan

variable {a b c : List Char} {n m : Nat}

/-- A single character is inserted, deleted or replaced. -/
inductive TextEdit : List Char → List Char → Prop
  | insert (front back : List Char) (d : Char) : TextEdit (front ++ back) (front ++ d :: back)
  | delete (front back : List Char) (d : Char) : TextEdit (front ++ d :: back) (front ++ back)
  | replace (front back : List Char) (d e : Char) :
    TextEdit (front ++ d :: back) (front ++ e :: back)

namespace TextEdit

theorem symm (h : TextEdit a b) : TextEdit b a := by
  cases h with
  | insert front back d => exact .delete front back d
  | delete front back d => exact .insert front back d
  | replace front back d e => exact .replace front back e d

theorem cons (d : Char) (h : TextEdit a b) : TextEdit (d :: a) (d :: b) := by
  cases h with
  | insert front back e => exact .insert (d :: front) back e
  | delete front back e => exact .delete (d :: front) back e
  | replace front back e f => exact .replace (d :: front) back e f

theorem reverse (h : TextEdit a b) : TextEdit a.reverse b.reverse := by
  cases h with
  | insert front back d => simpa using TextEdit.insert back.reverse front.reverse d
  | delete front back d => simpa using TextEdit.delete back.reverse front.reverse d
  | replace front back d e => simpa using TextEdit.replace back.reverse front.reverse d e

end TextEdit

/-- A text becomes another by a number of edits. -/
inductive TextEdits : Nat → List Char → List Char → Prop
  | none (a : List Char) : TextEdits 0 a a
  | more {n : Nat} {a b c : List Char} : TextEdits n a b → TextEdit b c → TextEdits (n + 1) a c

namespace TextEdits

theorem single (h : TextEdit a b) : TextEdits 1 a b := .more (.none a) h

theorem trans (hab : TextEdits n a b) (hbc : TextEdits m b c) : TextEdits (n + m) a c := by
  induction hbc with
  | none => exact hab
  | more _ hstep ih => exact .more (ih hab) hstep

theorem symm (h : TextEdits n a b) : TextEdits n b a := by
  induction h with
  | none a => exact .none a
  | more _ hstep ih => exact Nat.add_comm _ 1 ▸ (single hstep.symm).trans ih

/-- A change of texts that keeps edits keeps any number of them. -/
theorem map {f : List Char → List Char} (hf : ∀ a b, TextEdit a b → TextEdit (f a) (f b))
    (h : TextEdits n a b) : TextEdits n (f a) (f b) := by
  induction h with
  | none a => exact .none (f a)
  | more _ hstep ih => exact .more ih (hf _ _ hstep)

theorem cons (d : Char) (h : TextEdits n a b) : TextEdits n (d :: a) (d :: b) :=
  h.map fun _ _ hstep => hstep.cons d

theorem reverse (h : TextEdits n a b) : TextEdits n a.reverse b.reverse :=
  h.map fun _ _ hstep => hstep.reverse

/-- A text is written character by character. -/
theorem ofNil : ∀ b : List Char, TextEdits b.length [] b
  | [] => .none []
  | d :: b => .more (ofNil b) (.insert [] b d)

/-- Without edits a text stays what it is. -/
theorem eq_of_zero (h : TextEdits 0 a b) : a = b := by
  cases h
  rfl

end TextEdits

/-- The distance of two texts: their first characters are matched, or else the
first of one of them is an insertion. -/
def levenshtein : List Char → List Char → Nat
  | [], b => b.length
  | c :: a, [] => (c :: a).length
  | c :: a, d :: b =>
    min (min (levenshtein a b + if c = d then 0 else 1) (levenshtein a (d :: b) + 1))
      (levenshtein (c :: a) b + 1)

theorem levenshtein_nil_left (b : List Char) : levenshtein [] b = b.length := by
  rw [levenshtein]

theorem levenshtein_nil_right (a : List Char) : levenshtein a [] = a.length := by
  cases a <;> rw [levenshtein]

theorem levenshtein_cons_cons (c d : Char) (a b : List Char) :
    levenshtein (c :: a) (d :: b)
      = min (min (levenshtein a b + if c = d then 0 else 1) (levenshtein a (d :: b) + 1))
        (levenshtein (c :: a) b + 1) := by
  rw [levenshtein]

/-- **As many edits** lead from one text to the other. -/
theorem edits_levenshtein (a b : List Char) : TextEdits (levenshtein a b) a b := by
  fun_induction levenshtein a b with
  | case1 b => exact .ofNil b
  | case2 c a => exact (TextEdits.ofNil (c :: a)).symm
  | case3 c a d b hmatched hdeleted hinserted =>
    have hfirst : TextEdits (levenshtein a b + if c = d then 0 else 1) (c :: a) (d :: b) := by
      by_cases hcd : c = d
      · subst hcd
        simpa using hmatched.cons c
      · rw [if_neg hcd]
        exact .more (hmatched.cons c) (.replace [] b c d)
    have hdelete : TextEdits (levenshtein a (d :: b) + 1) (c :: a) (d :: b) :=
      Nat.add_comm _ 1 ▸ (TextEdits.single (.delete [] a c)).trans hdeleted
    have hinsert : TextEdits (levenshtein (c :: a) b + 1) (c :: a) (d :: b) :=
      .more hinserted (.insert [] b d)
    exact min_rec' (TextEdits · _ _) (min_rec' (TextEdits · _ _) hfirst hdelete) hinsert

theorem levenshtein_self (a : List Char) : levenshtein a a = 0 := by
  induction a with
  | nil => rw [levenshtein_nil_left]; rfl
  | cons c a ih => simp [levenshtein_cons_cons, ih]

theorem levenshtein_cons_left_le (c : Char) (a b : List Char) :
    levenshtein (c :: a) b ≤ levenshtein a b + 1 := by
  cases b with
  | nil => simp [levenshtein_nil_right]
  | cons d b => rw [levenshtein_cons_cons]; omega

theorem levenshtein_cons_right_le (d : Char) (a b : List Char) :
    levenshtein a (d :: b) ≤ levenshtein a b + 1 := by
  cases a with
  | nil => simp [levenshtein_nil_left]
  | cons c a => rw [levenshtein_cons_cons]; omega

theorem levenshtein_le_cons_right (d : Char) (a b : List Char) :
    levenshtein a b ≤ levenshtein a (d :: b) + 1 := by
  induction a with
  | nil => simp only [levenshtein_nil_left, List.length_cons]; omega
  | cons c a ih =>
    have hfront := levenshtein_cons_left_le c a b
    rw [levenshtein_cons_cons]
    omega

theorem levenshtein_replace_le (d e : Char) (a b : List Char) :
    levenshtein a (e :: b) ≤ levenshtein a (d :: b) + 1 := by
  induction a with
  | nil => simp [levenshtein_nil_left]
  | cons c a ih =>
    rw [levenshtein_cons_cons, levenshtein_cons_cons]
    split <;> split <;> omega

/-- What changes all distances from a text by one at most, does so behind one more character. -/
theorem levenshtein_cons_le (d : Char) {b c : List Char}
    (h : ∀ a, levenshtein a c ≤ levenshtein a b + 1) (a : List Char) :
    levenshtein a (d :: c) ≤ levenshtein a (d :: b) + 1 := by
  induction a with
  | nil =>
    have hnil := h []
    simp only [levenshtein_nil_left, List.length_cons] at hnil ⊢
    omega
  | cons e a ih =>
    have hmatched := h a
    have hinserted := h (e :: a)
    rw [levenshtein_cons_cons, levenshtein_cons_cons]
    omega

/-- **An edit** changes the distance from a text by one at most. -/
theorem levenshtein_le_of_edit (h : TextEdit b c) (a : List Char) :
    levenshtein a c ≤ levenshtein a b + 1 := by
  cases h with
  | insert front back d =>
    induction front generalizing a with
    | nil => exact levenshtein_cons_right_le d a back
    | cons e front ih => exact levenshtein_cons_le e ih a
  | delete front back d =>
    induction front generalizing a with
    | nil => exact levenshtein_le_cons_right d a back
    | cons e front ih => exact levenshtein_cons_le e ih a
  | replace front back d e =>
    induction front generalizing a with
    | nil => exact levenshtein_replace_le d e a back
    | cons f front ih => exact levenshtein_cons_le f ih a

/-- **No fewer edits** lead from one text to the other. -/
theorem levenshtein_le_of_edits (h : TextEdits n a b) : levenshtein a b ≤ n := by
  induction h with
  | none a => rw [levenshtein_self]
  | more _ hstep ih => exact (levenshtein_le_of_edit hstep _).trans (Nat.add_le_add_right ih 1)

/-- **The distance** is the least number of edits. -/
theorem levenshtein_isLeast (a b : List Char) : IsLeast {n | TextEdits n a b} (levenshtein a b) :=
  ⟨edits_levenshtein a b, fun _ => levenshtein_le_of_edits⟩

theorem levenshtein_comm (a b : List Char) : levenshtein a b = levenshtein b a :=
  Nat.le_antisymm (levenshtein_le_of_edits (edits_levenshtein b a).symm)
    (levenshtein_le_of_edits (edits_levenshtein a b).symm)

theorem levenshtein_triangle (a b c : List Char) :
    levenshtein a c ≤ levenshtein a b + levenshtein b c :=
  levenshtein_le_of_edits ((edits_levenshtein a b).trans (edits_levenshtein b c))

theorem levenshtein_eq_zero_iff : levenshtein a b = 0 ↔ a = b := by
  constructor
  · intro h
    exact TextEdits.eq_of_zero (h ▸ edits_levenshtein a b)
  · rintro rfl
    exact levenshtein_self a

/-- Texts are as far apart read backwards. -/
theorem levenshtein_reverse (a b : List Char) :
    levenshtein a.reverse b.reverse = levenshtein a b := by
  have hle : ∀ a b : List Char, levenshtein a.reverse b.reverse ≤ levenshtein a b :=
    fun a b => levenshtein_le_of_edits (edits_levenshtein a b).reverse
  refine Nat.le_antisymm (hle a b) ?_
  simpa using hle a.reverse b.reverse

/-- The recursion, on the last characters. -/
theorem levenshtein_concat_concat (a b : List Char) (c d : Char) :
    levenshtein (a ++ [c]) (b ++ [d])
      = min (min (levenshtein a b + if c = d then 0 else 1) (levenshtein a (b ++ [d]) + 1))
        (levenshtein (a ++ [c]) b + 1) := by
  have h := levenshtein_cons_cons c d a.reverse b.reverse
  rw [← List.reverse_concat, ← List.reverse_concat] at h
  simpa only [List.concat_eq_append, levenshtein_reverse] using h

/-- The distances of a text from all longer beginnings of `front ++ b` than `front`. -/
def distancesBehind (a front : List Char) : List Char → List Nat
  | [] => []
  | d :: b => levenshtein a (front ++ [d]) :: distancesBehind a (front ++ [d]) b

/-- **One more character** of the first text: the entries of the next row, from those
of the row above. -/
theorem nextRow_distancesBehind (a : List Char) (c : Char) (b front : List Char) :
    nextRow c (levenshtein a front) (levenshtein (a ++ [c]) front) b (distancesBehind a front b)
      = distancesBehind (a ++ [c]) front b := by
  induction b generalizing front with
  | nil => rfl
  | cons d b ih =>
    rw [distancesBehind, distancesBehind, nextRow, ← levenshtein_concat_concat, ih]

/-- The row before any character of the first text. -/
theorem distancesBehind_nil (b front : List Char) :
    distancesBehind [] front b = List.range' (front.length + 1) b.length := by
  induction b generalizing front with
  | nil => rfl
  | cons d b ih =>
    rw [distancesBehind, ih, levenshtein_nil_left, List.length_append, List.length_singleton,
      List.length_cons, List.range'_succ]

/-- **A row** holds the distances from all beginnings of the second text. -/
theorem distanceRow_eq (a b : List Char) :
    distanceRow a b = levenshtein a [] :: distancesBehind a [] b := by
  -- the rows walked so far are those of the beginning `front` of the first text
  have hwalk : ∀ a front : List Char,
      a.foldl (stepRow b) (levenshtein front [] :: distancesBehind front [] b)
        = levenshtein (front ++ a) [] :: distancesBehind (front ++ a) [] b := by
    intro a
    induction a with
    | nil => intro front; rw [List.foldl_nil, List.append_nil]
    | cons c a ih =>
      intro front
      have hfirst : levenshtein (front ++ [c]) [] = levenshtein front [] + 1 := by
        rw [levenshtein_nil_right, levenshtein_nil_right, List.length_append, List.length_singleton]
      rw [List.foldl_cons, stepRow, ← hfirst, nextRow_distancesBehind, ih, List.append_assoc]
      rfl
  have hstart : List.range (b.length + 1) = levenshtein [] [] :: distancesBehind [] [] b := by
    rw [distancesBehind_nil, levenshtein_nil_left, List.range_eq_range', List.range'_succ]
    rfl
  rw [distanceRow, hstart]
  exact hwalk a []

/-- The last entry of a row is the distance from the whole text. -/
theorem getLast?_distancesBehind (a b front : List Char) :
    (levenshtein a front :: distancesBehind a front b).getLast?
      = some (levenshtein a (front ++ b)) := by
  induction b generalizing front with
  | nil => rw [distancesBehind, List.append_nil]; rfl
  | cons d b ih => rw [distancesBehind, List.getLast?_cons_cons, ih, List.append_assoc]; rfl

/-- The edit distance is the one by recursion. -/
theorem editDistance_eq (s t : String) :
    editDistance s t = levenshtein (foldedChars s) (foldedChars t) := by
  rw [editDistance, distanceRow_eq, getLast?_distancesBehind]
  rfl

/-- **The edit distance** of two texts is the one by recursion on their characters and the
least number of edits between them, ASCII letters in lower case. It is a distance, zero for
texts that differ in the case of ASCII letters alone. -/
theorem editDistance_isLeast :
    (∀ s t, editDistance s t = levenshtein (foldedChars s) (foldedChars t) ∧
      IsLeast {n | TextEdits n (foldedChars s) (foldedChars t)} (editDistance s t)) ∧
    (∀ s t, editDistance s t = editDistance t s) ∧
    (∀ s t u, editDistance s u ≤ editDistance s t + editDistance t u) ∧
    ∀ s t, editDistance s t = 0 ↔ foldedChars s = foldedChars t := by
  refine ⟨fun s t => ⟨editDistance_eq s t, ?_⟩, fun s t => ?_, fun s t u => ?_, fun s t => ?_⟩
  · rw [editDistance_eq]
    exact levenshtein_isLeast _ _
  · rw [editDistance_eq, editDistance_eq, levenshtein_comm]
  · rw [editDistance_eq, editDistance_eq, editDistance_eq]
    exact levenshtein_triangle _ _ _
  · rw [editDistance_eq, levenshtein_eq_zero_iff]

example : editDistance "Kitten" "sitting" = 3 := by decide

end StreamPlan
