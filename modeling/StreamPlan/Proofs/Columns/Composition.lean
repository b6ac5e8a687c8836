import StreamPlan.Proofs.Columns.ColumnMap

/-!
# Laws of column maps

Maps compose if the targets of the first are positions of the next, and are appended if the sum of
their widths is a position. All laws are equations of outcomes: both sides give the same map or
fault alike.

* `ComposesWith`, `compose_eq_ok`, `compose_fails`: what composing gives, and where it faults.
* `compose_assoc`, `append_assoc`, `compose_append`: one after another, side by side, and both.
* `Layout`, `Construction`: targets and a width without the bound between them, and maps built by
  operations on these.
* `ColumnMap.composition_and_appending`: **constructed maps are inside their width, and composing
  and appending obey the laws.**
-/

namespace StreamPlan

namespace ColumnMap

variable {a b c d m n ab out : ColumnMap} {t : Nat}

/-- All targets of a map are positions of the next one. -/
def ComposesWith (m next : ColumnMap) : Prop := ∀ t ∈ m.targets, t < next.sources

/-- **A composed map** has the targets of the second at those of the first. -/
theorem compose_eq_ok :
    m.compose n = .ok out ↔ Picks n.targets m.targets out.targets ∧ out.width = n.width := by
  constructor
  · intro h
    obtain ⟨ts, hts, h⟩ := bind_eq_ok.1 h
    obtain ⟨rfl, hwidth⟩ := of_targets h
    exact ⟨(mapM_eq_ok.1 hts).imp fun _ _ => apply_eq_ok.1, hwidth⟩
  · rintro ⟨hpicks, hwidth⟩
    refine bind_eq_ok.2 ⟨out.targets, mapM_eq_ok.2 (hpicks.imp fun _ _ => apply_eq_ok.2), ?_⟩
    rw [← hwidth]
    exact of_eq_ok out.targets_lt

theorem ComposesWith.composes (h : m.ComposesWith n) : ∃ out, m.compose n = .ok out := by
  have hinside : ∀ t ∈ m.targets.filterMap (n.targets[·]?), t < n.width := by
    intro t ht
    obtain ⟨i, -, hi⟩ := List.mem_filterMap.1 ht
    exact n.targets_lt t (List.mem_of_getElem? hi)
  exact ⟨⟨_, n.width, hinside⟩, compose_eq_ok.2 ⟨picks_filterMap h, rfl⟩⟩

/-- Composing faults at the first target that is no position of the second map. -/
theorem compose_fails (h : m.targets.find? (fun t => decide (n.sources ≤ t)) = some t) :
    m.compose n = .error (.sourceOutside t n.sources) := by
  have hmaps : m.targets.mapM n.apply = .error (.sourceOutside t n.sources) := by
    obtain ⟨hpast, before, after, hsplit, hbefore⟩ := List.find?_eq_some_iff_append.1 h
    refine mapM_eq_error.2 ⟨before, t, after, hsplit, ?_, fun i hi => ?_⟩
    · rw [apply, List.getElem?_eq_none (of_decide_eq_true hpast)]
    · have hlt : i < n.sources := by simpa using hbefore i hi
      exact (apply_gives hlt).imp fun _ => And.left
  rw [compose, hmaps]
  rfl

theorem composesWith_of_find? (h : m.targets.find? (fun t => decide (n.sources ≤ t)) = none) :
    m.ComposesWith n := fun t ht => by simpa using List.find?_eq_none.1 h t ht

theorem exists_compose_iff : (∃ out, m.compose n = .ok out) ↔ m.ComposesWith n :=
  ⟨fun ⟨_, hout⟩ => (compose_eq_ok.1 hout).1.lt, ComposesWith.composes⟩

/-- **Composing is associative.** -/
theorem compose_assoc (a : ColumnMap) (h : b.ComposesWith c) :
    (do (← a.compose b).compose c) = (do a.compose (← b.compose c)) := by
  obtain ⟨bc, hbc⟩ := h.composes
  obtain ⟨hpicks, hwidth⟩ := compose_eq_ok.1 hbc
  have hsources : bc.sources = b.sources := hpicks.length_eq.symm
  rw [hbc, ok_bind]
  -- the composed map has as many positions, so either side faults at the same target
  cases hpast : a.targets.find? (fun t => decide (b.sources ≤ t)) with
  | some t =>
    rw [compose_fails hpast, compose_fails (hsources ▸ hpast), hsources]
    rfl
  | none =>
    obtain ⟨ab, hab⟩ := (composesWith_of_find? hpast).composes
    obtain ⟨out, hout⟩ := (composesWith_of_find? (n := bc) (hsources ▸ hpast)).composes
    obtain ⟨houter, houtw⟩ := compose_eq_ok.1 hout
    rw [hab, ok_bind, hout]
    exact compose_eq_ok.2 ⟨hpicks.compose houter (compose_eq_ok.1 hab).1, houtw.trans hwidth⟩

theorem identity_compose (m : ColumnMap) : (identity m.sources).compose m = .ok m :=
  compose_eq_ok.2 ⟨picks_all m.targets, rfl⟩

theorem compose_identity (m : ColumnMap) : m.compose (identity m.width) = .ok m := by
  refine compose_eq_ok.2 ⟨List.forall₂_same.2 fun t ht => ?_, rfl⟩
  exact List.getElem?_range (m.targets_lt t ht)

theorem append_fits (h : m.width + n.width < Position.limit) :
    m.append n = .ok (m.beside n m.width (Nat.le_refl _)) := by
  rw [append, join, joinAt, dif_pos (Nat.le_refl _), ok_bind, Position.add, Position.checked, if_pos h]
  rfl

theorem append_overflows (h : Position.limit ≤ m.width + n.width) :
    m.append n = .error .arithmeticOverflow := by
  rw [append, join, joinAt, dif_pos (Nat.le_refl _), ok_bind, Position.add, Position.checked,
    if_neg (Nat.not_lt.2 h)]
  rfl

theorem append_eq_ok : m.append n = .ok out ↔
    m.width + n.width < Position.limit ∧ out = m.beside n m.width (Nat.le_refl _) := by
  by_cases h : m.width + n.width < Position.limit
  · rw [append_fits h, Except.ok.injEq, eq_comm, and_iff_right h]
  · rw [append_overflows (Nat.not_lt.1 h)]
    simp [h]

@[simp] theorem beside_width {offset : Nat} (h : m.width ≤ offset) :
    (m.beside n offset h).width = offset + n.width := rfl

@[simp] theorem beside_targets {offset : Nat} (h : m.width ≤ offset) :
    (m.beside n offset h).targets = m.targets ++ n.targets.map (offset + ·) := rfl

/-- **Appending is associative.** -/
theorem append_assoc (a b c : ColumnMap) :
    (do (← a.append b).append c) = (do a.append (← b.append c)) := by
  by_cases hfits : a.width + b.width + c.width < Position.limit
  · have hab : a.width + b.width < Position.limit := by omega
    have hbc : b.width + c.width < Position.limit := by omega
    rw [append_fits hab, append_fits hbc, ok_bind, ok_bind, append_fits (by simpa using hfits),
      append_fits (by simpa [Nat.add_assoc] using hfits)]
    refine congrArg _ (eq_of_targets ?_ (Nat.add_assoc _ _ _))
    simp [Function.comp_def, Nat.add_assoc]
  · -- whichever sum is too large, either side faults
    have hleft : (do (← a.append b).append c) = .error .arithmeticOverflow := by
      by_cases hab : a.width + b.width < Position.limit
      · rw [append_fits hab, ok_bind, append_overflows (by simpa using hfits)]
      · rw [append_overflows (Nat.not_lt.1 hab)]
        rfl
    have hright : (do a.append (← b.append c)) = .error .arithmeticOverflow := by
      by_cases hbc : b.width + c.width < Position.limit
      · rw [append_fits hbc, ok_bind, append_overflows (by simpa [Nat.add_assoc] using hfits)]
      · rw [append_overflows (Nat.not_lt.1 hbc)]
        rfl
    rw [hleft, hright]

theorem empty_append (h : m.width < Position.limit) : (empty 0).append m = .ok m :=
  append_eq_ok.2 ⟨by simpa [empty] using h, eq_of_targets (by simp [empty]) (by simp [empty])⟩

theorem append_empty (h : m.width < Position.limit) : m.append (empty 0) = .ok m :=
  append_eq_ok.2 ⟨by simpa [empty] using h, eq_of_targets (by simp [empty]) (by simp [empty])⟩

/-- **Composing distributes over appending.** -/
theorem compose_append (h : a.append b = .ok ab) (hwidth : a.width = c.sources)
    (hb : b.ComposesWith d) :
    (do ab.compose (← c.append d)) = (do (← a.compose c).append (← b.compose d)) := by
  obtain ⟨-, rfl⟩ := append_eq_ok.1 h
  have ha : a.ComposesWith c := fun t ht => hwidth ▸ a.targets_lt t ht
  obtain ⟨ac, hac⟩ := ha.composes
  obtain ⟨bd, hbd⟩ := hb.composes
  obtain ⟨hacp, hacw⟩ := compose_eq_ok.1 hac
  obtain ⟨hbdp, hbdw⟩ := compose_eq_ok.1 hbd
  rw [hac, hbd, ok_bind, ok_bind]
  by_cases hfits : c.width + d.width < Position.limit
  · rw [append_fits hfits, ok_bind, append_fits (by rwa [hacw, hbdw])]
    refine compose_eq_ok.2 ⟨?_, by simp [hacw, hbdw]⟩
    -- the targets of the second map are past the width of the first, so they meet the second part
    have hright := (hbdp.map (c.width + ·)).right c.targets
    rw [← sources, ← hwidth] at hright
    simpa [hacw] using (hacp.left (d.targets.map (c.width + ·))).append hright
  · rw [append_overflows (Nat.not_lt.1 hfits),
      append_overflows (by rw [hacw, hbdw]; exact Nat.not_lt.1 hfits)]
    rfl

/-- Targets and a width, with nothing said of the targets. -/
structure Layout where
  targets : List Nat
  width : Nat
  deriving DecidableEq, Repr

/-- The targets and the width of a map. -/
def layout (m : ColumnMap) : Layout := ⟨m.targets, m.width⟩

namespace Layout

/-- Targets that are looked at before they become a map. -/
def checked (targets : List Nat) (width : Nat) : Option Layout :=
  if ∀ t ∈ targets, t < width then some ⟨targets, width⟩ else none

/-- The targets of the second at those of the first, which must be positions of the second. -/
def compose (first next : Layout) : Option Layout := do
  return ⟨← first.targets.mapM (next.targets[·]?), next.width⟩

/-- The second at an offset, which may leave the positions. -/
def beside (left right : Layout) (offset : Nat) : Option Layout :=
  if offset + right.width < Position.limit then
    some ⟨left.targets ++ right.targets.map (offset + ·), offset + right.width⟩
  else none

/-- The second at an offset past the first. -/
def join (left right : Layout) (offset : Nat) : Option Layout :=
  if left.width ≤ offset then left.beside right offset else none

end Layout

/-- A way to build a column map. -/
inductive Construction where
  | identity (n : Nat)
  | identityInto (n width : Nat)
  | empty (width : Nat)
  | of (targets : List Nat) (width : Nat)
  | compose (first next : Construction)
  | append (left right : Construction)
  | join (left right : Construction) (offset : Nat)
  | remap (base : Construction) (width : Nat) (f : Nat → Except Fault Nat)
  | tryRemap (base : Construction) (width : Nat) (f : Nat → Option Nat)
  /-- The targets of a map and some more. -/
  | extend (base : Construction) (added : List Nat) (width : Nat)

namespace Construction

/-- The map that is built, if nothing faults and no target is without an image. -/
def map? : Construction → Option ColumnMap
  | identity n => some (.identity n)
  | identityInto n width => (ColumnMap.identityInto n width).toOption
  | empty width => some (.empty width)
  | of targets width => (ColumnMap.of targets width).toOption
  | compose first next => do ((← first.map?).compose (← next.map?)).toOption
  | append left right => do ((← left.map?).append (← right.map?)).toOption
  | join left right offset => do ((← left.map?).join (← right.map?) offset).toOption
  | remap base width f => do ((← base.map?).remap width f).toOption
  | tryRemap base width f => do
    let moved? ← ((← base.map?).tryRemap width f).toOption
    moved?
  | extend base added width => do ((← base.map?).extend added width).toOption

/-- The same with targets and widths alone: only targets that come from outside are looked at. -/
def layout? : Construction → Option Layout
  | identity n => some ⟨List.range n, n⟩
  | identityInto n width =>
    if n ≤ width ∧ n < Position.countLimit then some ⟨List.range n, width⟩ else none
  | empty width => some ⟨[], width⟩
  | of targets width => Layout.checked targets width
  | compose first next => do (← first.layout?).compose (← next.layout?)
  | append left right => do
    let first ← left.layout?
    first.beside (← right.layout?) first.width
  | join left right offset => do (← left.layout?).join (← right.layout?) offset
  | remap base width f => do
    Layout.checked (← (← base.layout?).targets.mapM fun t => (f t).toOption) width
  | tryRemap base width f => do Layout.checked (← (← base.layout?).targets.mapM f) width
  | extend base added width => do Layout.checked ((← base.layout?).targets ++ added) width

end Construction

theorem layout_of (targets : List Nat) (width : Nat) :
    (of targets width).toOption.map layout = Layout.checked targets width := by
  by_cases h : ∀ t ∈ targets, t < width
  · rw [of_eq_ok h, Layout.checked, if_pos h]
    rfl
  · rw [Layout.checked, if_neg h]
    cases hof : of targets width with
    | error e => rfl
    | ok m =>
      obtain ⟨rfl, rfl⟩ := of_targets hof
      exact absurd m.targets_lt h

theorem layout_identityInto (k width : Nat) : (identityInto k width).toOption.map layout =
    if k ≤ width ∧ k < Position.countLimit then some ⟨List.range k, width⟩ else none := by
  by_cases hk : k ≤ width
  · by_cases hc : k < Position.countLimit
    · obtain ⟨m, hm, htargets, hwidth⟩ := identityInto_gives hk hc
      rw [hm, if_pos ⟨hk, hc⟩, ← htargets, ← hwidth]
      rfl
    · rw [identityInto, dif_pos hk, Position.checkCount, if_neg hc, if_neg (hc ·.2)]
      rfl
  · rw [identityInto, dif_neg hk, if_neg (hk ·.1)]
    rfl

/-- Composing looks at no bound: the targets of a map are inside its width already. -/
theorem layout_compose (m n : ColumnMap) :
    (m.compose n).toOption.map layout = m.layout.compose n.layout := by
  cases hout : m.compose n with
  | ok out =>
    obtain ⟨hpicks, hwidth⟩ := compose_eq_ok.1 hout
    have htargets : m.layout.targets.mapM (n.layout.targets[·]?) = some out.targets :=
      mapM_eq_some.2 hpicks
    rw [Layout.compose, htargets]
    exact congrArg (fun width => some (Layout.mk out.targets width)) hwidth
  | error e =>
    cases htargets : m.layout.targets.mapM (n.layout.targets[·]?) with
    | none =>
      rw [Layout.compose, htargets]
      rfl
    | some ts =>
      have hpicks : Picks n.targets m.targets ts := mapM_eq_some.1 htargets
      obtain ⟨out, h⟩ := ComposesWith.composes hpicks.lt
      rw [hout] at h
      cases h

theorem layout_join (m n : ColumnMap) (offset : Nat) :
    (m.join n offset).toOption.map layout = m.layout.join n.layout offset := by
  have hwidth : m.layout.width = m.width := rfl
  have hother : n.layout.width = n.width := rfl
  rw [join, joinAt, Layout.join, Layout.beside, hwidth, hother]
  by_cases hoffset : m.width ≤ offset
  · rw [dif_pos hoffset, if_pos hoffset, ok_bind, Position.add, Position.checked]
    by_cases hfits : offset + n.width < Position.limit
    · rw [if_pos hfits, if_pos hfits]
      rfl
    · rw [if_neg hfits, if_neg hfits]
      rfl
  · rw [dif_neg hoffset, if_neg hoffset]
    rfl

theorem layout_append (m n : ColumnMap) :
    (m.append n).toOption.map layout = m.layout.beside n.layout m.layout.width := by
  rw [append, layout_join, Layout.join]
  exact if_pos (Nat.le_refl _)

theorem layout_remap (width : Nat) (f : Nat → Except Fault Nat) (m : ColumnMap) :
    (m.remap width f).toOption.map layout =
      (do Layout.checked (← m.layout.targets.mapM fun t => (f t).toOption) width) := by
  rw [remap, ← mapM_toOption]
  cases hmoved : m.targets.mapM f with
  | error e =>
    rw [layout, hmoved]
    rfl
  | ok moved =>
    rw [layout, hmoved]
    exact layout_of moved width

theorem layout_tryRemap (width : Nat) (f : Nat → Option Nat) (m : ColumnMap) :
    (do let moved? ← (m.tryRemap width f).toOption; moved?).map layout =
      (do Layout.checked (← m.layout.targets.mapM f) width) := by
  rw [tryRemap, layout]
  cases hmoved : m.targets.mapM f with
  | none => rfl
  | some moved =>
    refine Eq.trans ?_ (layout_of moved width)
    change (do let moved? ← ((of moved width).map some).toOption; moved?).map layout = _
    cases of moved width <;> rfl

theorem layout_extend (added : List Nat) (width : Nat) (m : ColumnMap) :
    (m.extend added width).toOption.map layout =
      Layout.checked (m.layout.targets ++ added) width := layout_of _ _

/-- An operation that has a counterpart on targets and widths, after a map that has one. -/
theorem layout_after {op : ColumnMap → Option ColumnMap} {plain : Layout → Option Layout}
    (h : ∀ m, (op m).map layout = plain m.layout) (x : Option ColumnMap) :
    (x.map layout).bind plain = (x.bind op).map layout := by
  cases x with
  | none => rfl
  | some m => exact (h m).symm

/-- The same of two maps. -/
theorem layout_after_both {op : ColumnMap → ColumnMap → Except Fault ColumnMap}
    {plain : Layout → Layout → Option Layout}
    (h : ∀ m n, (op m n).toOption.map layout = plain m.layout n.layout) (x y : Option ColumnMap) :
    ((x.map layout).bind fun m => (y.map layout).bind (plain m)) =
      (x.bind fun m => y.bind fun n => (op m n).toOption).map layout :=
  layout_after (fun m => (layout_after (h m) y).symm) x

/-- **Constructed maps** are what is built from targets and widths alone. -/
theorem Construction.layout?_eq (k : Construction) : k.layout? = k.map?.map layout := by
  induction k with
  | identity | empty => rfl
  | identityInto n width => exact (layout_identityInto n width).symm
  | of targets width => exact (layout_of targets width).symm
  | compose first next ihf ihn =>
    rw [layout?, map?, ihf, ihn]
    exact layout_after_both layout_compose _ _
  | append left right ihl ihr =>
    rw [layout?, map?, ihl, ihr]
    exact layout_after_both layout_append _ _
  | join left right offset ihl ihr =>
    rw [layout?, map?, ihl, ihr]
    exact layout_after_both (fun m n => layout_join m n offset) _ _
  | remap base width f ih =>
    rw [layout?, map?, ih]
    exact layout_after (layout_remap width f) _
  | tryRemap base width f ih =>
    rw [layout?, map?, ih]
    exact layout_after (layout_tryRemap width f) _
  | extend base added width ih =>
    rw [layout?, map?, ih]
    exact layout_after (layout_extend added width) _

/-- **Column maps compose and append.** Whatever the operations build without a fault is what they
build from targets and widths alone, and all its targets are inside its width. Maps compose exactly
if the targets of the first are positions of the second. Composing is associative with the
identities as units, appending is with the map of no positions and no columns, and composing
distributes over appending. -/
theorem composition_and_appending :
    (∀ k : Construction, k.layout? = k.map?.map layout ∧
      ∀ l, k.layout? = some l → ∀ t ∈ l.targets, t < l.width) ∧
    (∀ a b : ColumnMap, (∃ out, a.compose b = .ok out) ↔ ∀ t ∈ a.targets, t < b.sources) ∧
    (∀ a b c : ColumnMap, (∀ t ∈ b.targets, t < c.sources) →
      (do (← a.compose b).compose c) = (do a.compose (← b.compose c))) ∧
    (∀ a : ColumnMap, (identity a.sources).compose a = .ok a ∧ a.compose (identity a.width) = .ok a) ∧
    (∀ a b c : ColumnMap, (do (← a.append b).append c) = (do a.append (← b.append c))) ∧
    (∀ a : ColumnMap, a.width < Position.limit →
      (empty 0).append a = .ok a ∧ a.append (empty 0) = .ok a) ∧
    ∀ a b c d ab : ColumnMap, a.append b = .ok ab → a.width = c.sources →
      (∀ t ∈ b.targets, t < d.sources) →
        (do ab.compose (← c.append d)) = (do (← a.compose c).append (← b.compose d)) := by
  refine ⟨fun k => ⟨k.layout?_eq, fun l hl => ?_⟩, fun a b => exists_compose_iff,
    fun a b c => compose_assoc a, fun a => ⟨identity_compose a, compose_identity a⟩, append_assoc,
    fun a h => ⟨empty_append h, append_empty h⟩, fun a b c d ab => compose_append⟩
  rw [k.layout?_eq, Option.map_eq_some_iff] at hl
  obtain ⟨m, -, rfl⟩ := hl
  exact m.targets_lt

/-- Three columns on two, one of them twice. -/
def repeated : ColumnMap := ⟨[1, 0, 1], 2, by decide⟩

/-- Two columns on the last and the first of three. -/
def crossed : ColumnMap := ⟨[2, 0], 3, by decide⟩

/-- Two columns on one of five. -/
def doubled : ColumnMap := ⟨[4, 4], 5, by decide⟩

/-- Three columns on two, the first and the last on the same. -/
def outer : ColumnMap := ⟨[0, 1, 0], 2, by decide⟩

/-- Composing in pairs and then appending gives what composing the appended maps gives: five columns
on two of seven. Nor does it matter which two maps are composed first, or whether a map of nothing
stands in front. -/
theorem repeated_and_crossed_compose :
    (do (← repeated.append crossed).compose (← doubled.append outer)) =
      (do (← repeated.compose doubled).append (← crossed.compose outer)) ∧
    ((do (← repeated.compose doubled).append (← crossed.compose outer)).map layout) =
      .ok ⟨[4, 4, 4, 5, 5], 7⟩ ∧
    (do (← crossed.compose outer).compose repeated) =
      (do crossed.compose (← outer.compose repeated)) ∧
    (do repeated.append (← (empty 0).append crossed)) = repeated.append crossed := by
  obtain ⟨-, -, hassoc, -, -, hunits, hdistributes⟩ := composition_and_appending
  refine ⟨?_, rfl, hassoc crossed outer repeated (by decide), ?_⟩
  · have happend : repeated.append crossed = .ok ⟨[1, 0, 1, 4, 2], 5, by decide⟩ := rfl
    rw [happend]
    exact hdistributes repeated crossed doubled outer _ happend rfl (by decide)
  · rw [(hunits crossed (by decide)).1]
    rfl

end ColumnMap

end StreamPlan
