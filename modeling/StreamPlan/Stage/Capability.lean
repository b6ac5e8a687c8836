/-!
# Capabilities

A capability is a feature a stage may support. A set of capabilities is the
list of its members in declaration order, so equal sets are equal lists.

* `CapabilitySet.insert`, `erase`, `union`: sets, with the members of the first and
  the last in `mem_insert` and `mem_union`.
-/

namespace StreamPlan

/-- A feature a stage may support. -/
inductive Capability where
  /-- Unrolling nested collections. -/
  | denormalize
  /-- Joining a stream with the latest version of a table. -/
  | temporalJoin
  /-- Joining two streams within a bounded time. -/
  | intervalJoin
  /-- Grouped aggregation. -/
  | aggregate
  /-- Tumbling, sliding and running aggregation. -/
  | windowAggregate
  /-- Knowing the current time. -/
  | nowFunction
  /-- Writing rows by key. -/
  | directWrite
  /-- Concatenating inputs. -/
  | union
  /-- Sorting and row limits. -/
  | sort
  deriving DecidableEq, Repr

namespace Capability

/-- Every capability, in declaration order. -/
def all : List Capability :=
  [.denormalize, .temporalJoin, .intervalJoin, .aggregate, .windowAggregate, .nowFunction,
    .directWrite, .union, .sort]

theorem mem_all (c : Capability) : c ∈ all := by cases c <;> decide

/-- The name of a capability in messages. -/
def display : Capability → String
  | denormalize => "denormalize"
  | temporalJoin => "temporal-join"
  | intervalJoin => "interval-join"
  | aggregate => "aggregate"
  | windowAggregate => "window-aggregate"
  | nowFunction => "now-function"
  | directWrite => "direct-write"
  | union => "union"
  | sort => "sort"

/-- The name of a capability in manifests. -/
def word : Capability → String
  | denormalize => "Denormalize"
  | temporalJoin => "TemporalJoin"
  | intervalJoin => "IntervalJoin"
  | aggregate => "Aggregate"
  | windowAggregate => "WindowAggregate"
  | nowFunction => "NowFunction"
  | directWrite => "DirectWrite"
  | union => "Union"
  | sort => "Sort"

end Capability

/-- A set of capabilities, its members in declaration order. -/
abbrev CapabilitySet := List Capability

namespace CapabilitySet

/-- The capabilities of a list as a set. -/
def ofList (caps : List Capability) : CapabilitySet := Capability.all.filter (· ∈ caps)

/-- Adds a capability. -/
def insert (set : CapabilitySet) (cap : Capability) : CapabilitySet := ofList (cap :: set)

/-- Removes a capability. -/
def erase (set : CapabilitySet) (cap : Capability) : CapabilitySet := set.filter (· ≠ cap)

/-- The capabilities of either set. -/
def union (a b : CapabilitySet) : CapabilitySet := ofList (a ++ b)

theorem mem_ofList {c : Capability} {caps : List Capability} : c ∈ ofList caps ↔ c ∈ caps := by
  simp [ofList, Capability.mem_all]

theorem mem_insert {c cap : Capability} {set : CapabilitySet} :
    c ∈ insert set cap ↔ c = cap ∨ c ∈ set := by
  rw [insert, mem_ofList, List.mem_cons]

theorem mem_union {c : Capability} {a b : CapabilitySet} : c ∈ union a b ↔ c ∈ a ∨ c ∈ b := by
  rw [union, mem_ofList, List.mem_append]

end CapabilitySet

end StreamPlan
