import Mathlib.Data.String.Basic
import StreamPlan.Diagnostics.Report
import StreamPlan.Proofs.Catalog.Registrations
import StreamPlan.Proofs.Columns.Position
import StreamPlan.Proofs.Diagnostics.EditDistance
import StreamPlan.Proofs.Plan.Cheapest

/-!
# Suggested names

A lookup distinguishes the case of letters, the edit distance does not. A name that differs from
a registered one in the case of ASCII letters alone is therefore not found and no typing error
either: that registered name is not suggested.

* `mem_sortNames`, `pairwise_sortNames`: the registered names, each once and ascending.
* `closestMatch_eq`: the candidate that is suggested is the first of the closest.
* `Resembles`: two names that differ by few edits, and not in case alone.
* `lookup_suggests`: **the suggestion for a name** that is not found.
* `other_case_is_not_suggested`: a registered name in **another case** is no suggestion.
-/

namespace StreamPlan

theorem mem_insertName {name other : String} {names : List String} :
    other ∈ insertName name names ↔ other = name ∨ other ∈ names := by
  induction names with
  | nil => simp [insertName]
  | cons first names ih =>
    rw [insertName]
    split
    · simp
    · split
      · rename_i heq
        subst heq
        simp
      · rw [List.mem_cons, ih, List.mem_cons]
        exact or_left_comm

theorem mem_sortNames {name : String} {names : List String} :
    name ∈ sortNames names ↔ name ∈ names := by
  induction names with
  | nil => simp [sortNames]
  | cons first names ih =>
    rw [sortNames, List.foldr_cons, mem_insertName, List.mem_cons, ← ih, sortNames]

theorem pairwise_insertName {name : String} {names : List String} (h : names.Pairwise (· < ·)) :
    (insertName name names).Pairwise (· < ·) := by
  induction names with
  | nil => exact List.pairwise_singleton _ _
  | cons first names ih =>
    obtain ⟨hfirst, hnames⟩ := List.pairwise_cons.1 h
    rw [insertName]
    split
    · rename_i hlt
      refine List.pairwise_cons.2 ⟨List.forall_mem_cons.2 ⟨hlt, fun other hother => ?_⟩, h⟩
      exact hlt.trans (hfirst other hother)
    · rename_i hle
      split
      · exact h
      · rename_i hne
        have hgt : first < name := lt_of_le_of_ne (not_lt.1 hle) (Ne.symm hne)
        refine List.pairwise_cons.2 ⟨fun other hother => ?_, ih hnames⟩
        rcases mem_insertName.1 hother with rfl | hother
        · exact hgt
        · exact hfirst other hother

/-- **Sorted names** ascend, and each is there once. -/
theorem pairwise_sortNames (names : List String) : (sortNames names).Pairwise (· < ·) := by
  induction names with
  | nil => exact .nil
  | cons first names ih => exact pairwise_insertName ih

/-- The first of the least is the least by name, too, if the names ascend. -/
theorem FirstLeast.le_of_ascending {key : String → Nat} {names : List String} {best : String}
    (h : FirstLeast key names best) (hnames : names.Pairwise (· < ·)) :
    ∀ name ∈ names, key best < key name ∨ key best = key name ∧ best ≤ name := by
  obtain ⟨before, after, rfl, hbefore, hafter⟩ := h
  obtain ⟨-, hrest, -⟩ := List.pairwise_append.1 hnames
  intro name hname
  rcases List.mem_append.1 hname with hname | hname
  · exact .inl (hbefore name hname)
  rcases List.mem_cons.1 hname with rfl | hname
  · exact .inr ⟨rfl, le_rfl⟩
  · exact (hafter name hname).lt_or_eq.imp_right fun heq =>
      ⟨heq, (List.rel_of_pairwise_cons hrest hname).le⟩

/-- The first of the pairs with the least number, if the numbers are those of a function. -/
theorem leastPair_map (key : String → Nat) (names : List String) :
    (leastPair (names.map fun name => (name, key name))).map Prod.fst = names.argmin key := by
  -- the best pair so far is a name with its number
  have hfold : ∀ (names : List String) (best : String),
      some ((names.map fun name => (name, key name)).foldl
          (fun best q => if q.2 < best.2 then q else best) (best, key best)).1
        = names.foldl (List.argAux fun b c => key b < key c) (some best) := by
    intro names
    induction names with
    | nil => exact fun _ => rfl
    | cons name names ih =>
      intro best
      rw [List.map_cons, List.foldl_cons, List.foldl_cons]
      simp only [List.argAux]
      split
      · exact ih name
      · exact ih best
  cases names with
  | nil => rfl
  | cons name names => exact hfold names name

/-- **The closest candidate** is the first of the closest ones within the limit. -/
theorem closestMatch_eq (name : String) (candidates : List String) (limit : Nat) :
    closestMatch name candidates limit
      = (candidates.filter fun c => 0 < editDistance name c && editDistance name c ≤ limit).argmin
          (editDistance name) := by
  rw [closestMatch, List.filter_map, leastPair_map]
  rfl

/-- A name that is registered. -/
def Catalog.Registered (catalog : Catalog) (name : String) : Prop :=
  ∃ id, catalog.lookup name = .ok id

theorem Catalog.mem_tableNames {catalog : Catalog} {name : String} :
    name ∈ catalog.tableNames ↔ catalog.Registered name := by
  rw [tableNames, mem_sortNames, Registered, lookup]
  cases hfound : catalog.names.lookup name with
  | none =>
    refine iff_of_false (fun hmem => ?_) (by rintro ⟨id, ⟨⟩⟩)
    obtain ⟨entry, hentry, rfl⟩ := List.mem_map.1 hmem
    have hne := List.lookup_eq_none_iff.1 hfound entry hentry
    simp at hne
  | some id => exact iff_of_true (List.mem_map_of_mem (mem_of_lookup hfound)) ⟨id, rfl⟩

/-- At most two edits turn a name into another one, ASCII letters in lower case, and they differ in
more than the case of these letters. -/
def Resembles (name other : String) : Prop :=
  foldedChars name ≠ foldedChars other ∧
    ∃ n ≤ 2, TextEdits n (foldedChars name) (foldedChars other)

theorem resembles_iff {name other : String} :
    Resembles name other ↔ 0 < editDistance name other ∧ editDistance name other ≤ 2 := by
  obtain ⟨hedits, hleast⟩ := levenshtein_isLeast (foldedChars name) (foldedChars other)
  rw [Resembles, editDistance_eq, Nat.pos_iff_ne_zero, Ne, Ne, levenshtein_eq_zero_iff]
  refine and_congr_right fun _ => ⟨?_, fun hle => ⟨_, hle, hedits⟩⟩
  rintro ⟨n, hn, hedits⟩
  exact (hleast hedits).trans hn

/-- The registered names that resemble a name, ascending. -/
def Catalog.resembling (catalog : Catalog) (name : String) : List String :=
  catalog.tableNames.filter fun other =>
    0 < editDistance name other && editDistance name other ≤ 2

theorem Catalog.mem_resembling {catalog : Catalog} {name other : String} :
    other ∈ catalog.resembling name ↔ catalog.Registered other ∧ Resembles name other := by
  rw [resembling, List.mem_filter, mem_tableNames, resembles_iff]
  simp

theorem Catalog.pairwise_resembling (catalog : Catalog) (name : String) :
    (catalog.resembling name).Pairwise (· < ·) :=
  (pairwise_sortNames _).filter _

/-- The hint of a failed lookup is the first of the closest names. -/
theorem hint_of_lookup {catalog : Catalog} {name : String} {error : CatalogError}
    (h : catalog.lookup name = .error error) :
    error.report.hint
      = ((catalog.resembling name).argmin (editDistance name)).map didYouMean := by
  rw [Catalog.lookup] at h
  split at h
  · cases h
  · cases h
    exact congrArg (Option.map didYouMean) (closestMatch_eq name catalog.tableNames 2)

/-- **The suggestion** for a name that is not found: there is one exactly if a registered name
resembles it, and it names the closest of these, the first by name of several. -/
theorem lookup_suggests {catalog : Catalog} {name : String} {error : CatalogError}
    (h : catalog.lookup name = .error error) :
    (error.report.hint.isSome ↔ ∃ other, catalog.Registered other ∧ Resembles name other) ∧
      ∀ hint, error.report.hint = some hint → ∃ best, hint = didYouMean best ∧
        catalog.Registered best ∧ Resembles name best ∧
        ∀ other, catalog.Registered other → Resembles name other →
          editDistance name best < editDistance name other ∨
            editDistance name best = editDistance name other ∧ best ≤ other := by
  rw [hint_of_lookup h]
  constructor
  · rw [Option.isSome_map, Option.isSome_iff_ne_none, Ne, List.argmin_eq_none,
      List.eq_nil_iff_forall_not_mem, not_forall_not]
    exact exists_congr fun _ => Catalog.mem_resembling
  · intro hint hsome
    obtain ⟨best, hbest, rfl⟩ := Option.map_eq_some_iff.1 hsome
    have hfirst := firstLeast_of_argmin hbest
    obtain ⟨hregistered, hresembles⟩ := Catalog.mem_resembling.1 hfirst.mem
    refine ⟨best, rfl, hregistered, hresembles, fun other hother hsimilar => ?_⟩
    exact hfirst.le_of_ascending (catalog.pairwise_resembling name) other
      (Catalog.mem_resembling.2 ⟨hother, hsimilar⟩)

/-- Tables of numbers under these names. -/
def tablesNamed (names : List String) : Catalog :=
  Catalog.empty.registerAll <| names.map fun name =>
    .table ⟨name, [⟨"id", .int64, false⟩], 1, .state, .none, .none, none⟩ name

/-- **Of two names** within one edit the first is suggested. A third one differs in case alone. -/
theorem order_is_suggested :
    let catalog := tablesNamed ["orders", "ORDES", "order"]
    ∃ error best, catalog.lookup "ordes" = .error error ∧ catalog.Registered "orders" ∧
      Resembles "ordes" "orders" ∧ error.report.hint = some "Did you mean 'order'?" ∧
      "Did you mean 'order'?" = didYouMean best ∧
      ∀ other, catalog.Registered other → Resembles "ordes" other →
        editDistance "ordes" best < editDistance "ordes" other ∨
          editDistance "ordes" best = editDistance "ordes" other ∧ best ≤ other := by
  intro catalog
  have hlookup : catalog.lookup "ordes" = .error _ := rfl
  obtain ⟨-, hsuggests⟩ := lookup_suggests hlookup
  have hhint : (CatalogError.unknownTable "ordes" catalog.tableNames).report.hint
    = some "Did you mean 'order'?" := by decide
  obtain ⟨best, hbest, -, -, hleast⟩ := hsuggests _ hhint
  exact ⟨_, best, hlookup, ⟨_, rfl⟩, resembles_iff.2 (by decide), hhint, hbest, hleast⟩

/-- **A name in another case** is within two edits of the registered one, and not suggested. -/
theorem other_case_is_not_suggested :
    let catalog := tablesNamed ["orders"]
    ∃ error, catalog.lookup "Orders" = .error error ∧
      ¬ (error.report.hint.isSome ↔ ∃ other, catalog.Registered other ∧
        ∃ n ≤ 2, TextEdits n (foldedChars "Orders") (foldedChars other)) := by
  intro catalog
  refine ⟨_, rfl, fun hiff => ?_⟩
  have hnone : (CatalogError.unknownTable "Orders" catalog.tableNames).report.hint = none := by
    decide
  have hsame : foldedChars "Orders" = foldedChars "orders" := by decide
  have hsome := hiff.2 ⟨"orders", ⟨_, rfl⟩, 0, by decide, hsame ▸ .none _⟩
  rw [hnone] at hsome
  cases hsome

end StreamPlan
