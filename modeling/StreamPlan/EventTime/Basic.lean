import StreamPlan.Arithmetic

/-!
# Event time of a plan

A plan carries candidate event-time columns. Until one is fixed, any of them
may become the timestamp; a fixed one stays for the rest of the branch.

* `EventTime.best?`: the fixed candidate, or the one of lowest rank.
* `EventTime.add`, `fix`, `fixBest`: registering and fixing candidates.
* `EventTime.restrictTo`, `remap`, `offset`: candidates under other columns.
* `EventTime.union`: the candidates two branches share.
-/

namespace StreamPlan

/-- How a column came by its event-time meaning. -/
inductive Derivation where
  /-- Declared by the source. -/
  | source
  /-- Computed from a candidate by a function that keeps its time. -/
  | preserved
  /-- The end of the bucket of a candidate. -/
  | bucketed
  deriving DecidableEq, Repr

namespace Derivation

/-- Whether candidates of both derivations can be merged: buckets only with buckets. -/
def isCompatible : Derivation → Derivation → Bool
  | bucketed, bucketed => true
  | bucketed, _ | _, bucketed => false
  | _, _ => true

/-- The derivation of a merged candidate. -/
def merge (a b : Derivation) : Derivation := if a = b then a else preserved

/-- The derivation in manifests. -/
def word : Derivation → String
  | source => "SourceDefined"
  | preserved => "PreservedThroughFunction"
  | bucketed => "WindowBucketed"

end Derivation

/-- A candidate event-time column. Lower ranks are preferred. -/
structure TimeCandidate where
  column : Nat
  derivation : Derivation
  rank : Nat
  deriving DecidableEq, Repr

/-- The candidate event-time columns of a plan, and whether one was fixed. -/
structure EventTime where
  candidates : List TimeCandidate
  fixed : Bool
  deriving DecidableEq, Repr

namespace EventTime

/-- No event time. -/
def none : EventTime := ⟨[], false⟩

/-- A single fixed candidate. -/
def single (column : Nat) (derivation : Derivation) : EventTime :=
  ⟨[⟨column, derivation, 0⟩], true⟩

/-- The candidate columns. -/
def columns (time : EventTime) : List Nat := time.candidates.map TimeCandidate.column

/-- Whether there is no candidate. -/
def isEmpty (time : EventTime) : Bool := time.candidates.isEmpty

/-- Whether there is a candidate. -/
def hasCandidates (time : EventTime) : Bool := !time.isEmpty

/-- The candidate on a column. -/
def find? (time : EventTime) (column : Nat) : Option TimeCandidate :=
  time.candidates.find? (·.column == column)

/-- Whether a column is a candidate. -/
def isCandidate (time : EventTime) (column : Nat) : Bool :=
  time.candidates.any (·.column == column)

/-- Whether a candidate goes before another: by rank, then by column. -/
def precedes (a b : TimeCandidate) : Bool :=
  a.rank < b.rank || (a.rank == b.rank && a.column < b.column)

/-- The first of the candidates that no other precedes. -/
def first? : List TimeCandidate → Option TimeCandidate
  | [] => .none
  | c :: cs => some (cs.foldl (fun best x => if precedes x best then x else best) c)

/-- The fixed candidate, or the one of lowest rank. -/
def best? (time : EventTime) : Option TimeCandidate :=
  if time.fixed then time.candidates.head? else first? time.candidates

/-- The column of the best candidate. -/
def bestColumn? (time : EventTime) : Option Nat := time.best?.map TimeCandidate.column

/-- The event time as `[$1, $4]`, with `fixed` in front of a fixed one. -/
def display (time : EventTime) : String :=
  (if time.fixed then "fixed" else "") ++ Text.listing (time.columns.map Text.column)

/-- One more than every rank in use. -/
def nextRank (time : EventTime) : Nat :=
  time.candidates.foldl (fun rank c => max rank (c.rank + 1)) 0

/-- Registers a candidate behind the others. A column that is one already
stays as it is. -/
def add (time : EventTime) (column : Nat) (derivation : Derivation) : Except Fault EventTime :=
  if time.fixed then .error (.candidateAfterFix column)
  else if time.isCandidate column then .ok time
  else .ok ⟨time.candidates ++ [⟨column, derivation, time.nextRank⟩], false⟩

/-- Registers candidates in order. -/
def addAll (time : EventTime) (candidates : List (Nat × Derivation)) : Except Fault EventTime :=
  candidates.foldlM (fun time (column, derivation) => time.add column derivation) time

/-- Candidates declared by the source, preferred in the given order. -/
def ofSource (columns : List Nat) : EventTime :=
  columns.foldl (fun time column =>
    if time.isCandidate column then time
    else ⟨time.candidates ++ [⟨column, .source, time.nextRank⟩], false⟩) none

/-- Fixes the candidate on a column. -/
def fix (time : EventTime) (column : Nat) : Except Fault EventTime :=
  match time.find? column with
  | some candidate => .ok ⟨[candidate], true⟩
  | .none => .error (.notCandidate column time.display)

/-- Fixes the best candidate, if there is one. -/
def fixBest (time : EventTime) : Except Fault EventTime :=
  match time.bestColumn? with
  | some column => time.fix column
  | .none => .ok none

/-- The event time with other candidates. Without any, nothing is fixed. -/
def withCandidates (time : EventTime) (candidates : List TimeCandidate) : EventTime :=
  ⟨candidates, time.fixed && !candidates.isEmpty⟩

/-- The candidates on the given columns. -/
def restrictTo (time : EventTime) (columns : List Nat) : EventTime :=
  time.withCandidates (time.candidates.filter fun c => columns.contains c.column)

/-- The candidates on the columns that `f` gives; one without a new column is dropped. -/
def remap (time : EventTime) (f : Nat → Option Nat) : EventTime :=
  time.withCandidates (time.candidates.filterMap fun c =>
    (f c.column).map fun column => { c with column })

/-- The candidates, `offset` columns further right. -/
def shift (time : EventTime) (offset : Nat) : EventTime := time.remap fun c => some (offset + c)

/-- The candidates, `offset` columns further right, if these are positions. -/
def offset (time : EventTime) (offset : Nat) : Except Fault EventTime := do
  let _ ← time.columns.mapM (Position.add · offset)
  return time.shift offset

/-- A candidate of both branches, if its derivations are compatible. -/
def shared (other : EventTime) (c : TimeCandidate) : Option TimeCandidate :=
  match other.find? c.column with
  | some o =>
    if c.derivation.isCompatible o.derivation then
      some ⟨c.column, c.derivation.merge o.derivation, min c.rank o.rank⟩
    else .none
  | .none => .none

/-- The candidates that two branches share, fixed if they are fixed in both. -/
def union (time other : EventTime) : EventTime :=
  let candidates := time.candidates.filterMap other.shared
  ⟨candidates, time.fixed && other.fixed && !candidates.isEmpty⟩

end EventTime

end StreamPlan
