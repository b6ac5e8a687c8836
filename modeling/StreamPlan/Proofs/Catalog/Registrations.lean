import StreamPlan.Proofs.Catalog.Growth
import StreamPlan.Proofs.Catalog.Sane

/-!
# Views after registrations

Relations are registered one after another in an empty catalog. A registration that fails
leaves the catalog as it was.

* `Catalog.Registration`, `Catalog.registerAll`, `Catalog.answers`: registrations, the catalog
  they lead to and what each of them answers.
* `View.ShowsKey`: a view shows its key in front of the other plain columns of its level.
* `Catalog.showsKey_iff`: **a view shows its key**, the own keys of the levels from the root
  down, exactly if no level on the way has a collection among them.
* `Catalog.views_show_keys`: so it is after all registrations, and only below other levels
  does a registration fault.
-/

namespace StreamPlan

/-- A view shows some columns as its key, and behind them the other plain columns of its level. -/
structure View.ShowsKey (view : View) (key : Fields) : Prop where
  length : key.length = view.keys
  fields : view.fields = key ++ flatFields (view.levelFields.drop view.ownKeys)

theorem View.ShowsKey.keys_le {view : View} {key : Fields} (h : view.ShowsKey key) :
    view.keys ≤ view.fields.length := by
  rw [h.fields, List.length_append, h.length]
  exact Nat.le_add_right ..

namespace Catalog

variable {catalog next : Catalog}

/-- A call that registers a relation. -/
inductive Registration where
  | table (table : BaseTable) (viewName : String)
  | child (parent : Nat) (column name : String) (ownKeys : Nat)

/-- Makes a registration. Gives the new view. -/
def register (catalog : Catalog) : Registration → Checked CatalogError (Catalog × Nat)
  | .table table viewName => orRefuse (catalog.addTable table viewName)
  | .child parent column name ownKeys => catalog.addChild parent column name ownKeys

/-- The catalog after a registration. One that fails leaves it as it was. -/
def after (catalog : Catalog) (call : Registration) : Catalog :=
  match catalog.register call with
  | .ok (next, _) => next
  | .error _ => catalog

/-- The catalog after registrations, one after another. -/
def registerAll (catalog : Catalog) (calls : List Registration) : Catalog := calls.foldl after catalog

/-- What registrations answer, one after another: the view that each gives, or why it fails. -/
def answers (catalog : Catalog) : List Registration → List (Checked CatalogError Nat)
  | [] => []
  | call :: calls => (catalog.register call).map Prod.snd :: (catalog.after call).answers calls

/-- Every child is registered below a view that an answer has given before. -/
def BelowGiven (calls : List Registration) : Prop :=
  ∀ (i parent : Nat) (column name : String) (ownKeys : Nat),
    calls[i]? = some (.child parent column name ownKeys) →
      ∃ j < i, (empty.answers calls)[j]? = some (.ok parent)

/-- A registration is answered by the catalog that those before it lead to. -/
theorem getElem?_answers (catalog : Catalog) (calls : List Registration) (i : Nat) :
    (catalog.answers calls)[i]?
      = calls[i]?.map fun call => ((catalog.registerAll (calls.take i)).register call).map Prod.snd := by
  induction calls generalizing catalog i with
  | nil => rfl
  | cons call calls ih =>
    cases i with
    | zero => rfl
    | succ i => exact ih (catalog.after call) i

theorem reaches_after (catalog : Catalog) (call : Registration) :
    catalog.Reaches (catalog.after call) := by
  unfold after
  split
  · rename_i next id hregister
    cases call with
    | table => exact .table .refl (orRefuse_eq_ok.1 hregister)
    | child => exact .child .refl hregister
  · exact .refl

theorem Reaches.trans {later : Catalog} (h : catalog.Reaches next) (h' : next.Reaches later) :
    catalog.Reaches later := by
  induction h' with
  | refl => exact h
  | table _ hadd ih => exact .table ih hadd
  | child _ hadd ih => exact .child ih hadd

theorem reaches_registerAll (catalog : Catalog) (calls : List Registration) :
    catalog.Reaches (catalog.registerAll calls) := by
  induction calls generalizing catalog with
  | nil => exact .refl
  | cons call calls ih => exact (reaches_after catalog call).trans (ih (catalog.after call))

/-- The registrations behind some lead on from the catalog that those lead to. -/
theorem reaches_of_take (catalog : Catalog) (calls : List Registration) (i : Nat) :
    (catalog.registerAll (calls.take i)).Reaches (catalog.registerAll calls) := by
  have happend : catalog.registerAll calls
      = (catalog.registerAll (calls.take i)).registerAll (calls.drop i) := by
    rw [registerAll, registerAll, registerAll, ← List.foldl_append, List.take_append_drop]
  rw [happend]
  exact reaches_registerAll ..

theorem Reaches.leveled (h : catalog.Reaches next) (hl : catalog.Leveled) : next.Leveled := by
  induction h with
  | refl => exact hl
  | table _ hadd ih => exact ih.addTable hadd
  | child _ hadd ih => exact ih.addChild hadd

/-- The view that a registration gives is the last one. -/
theorem view_of_register {call : Registration} {id : Nat} (h : catalog.register call = .ok (next, id)) :
    id < next.views.length := by
  cases call with
  | table =>
    obtain ⟨-, rfl, rfl⟩ := addTable_eq (orRefuse_eq_ok.1 h)
    simp
  | child =>
    obtain ⟨-, rfl, -⟩ := names_of_addChild h
    obtain ⟨_, _, _, _, -, -, -, -, -, -, hviews⟩ := addChild_eq_ok h
    simp [hviews]

/-- A view that an answer gave is there for all later registrations. -/
theorem view_of_answer {calls : List Registration} {i j id : Nat} (hj : j < i)
    (h : (catalog.answers calls)[j]? = some (.ok id)) :
    id < (catalog.registerAll (calls.take i)).views.length := by
  rw [getElem?_answers] at h
  obtain ⟨call, hcall, hanswer⟩ := Option.map_eq_some_iff.1 h
  obtain ⟨⟨given, _⟩, hregister, rfl⟩ := map_eq_ok.1 hanswer
  have hgiven : given = catalog.registerAll (calls.take (j + 1)) := by
    have hstep : (catalog.registerAll (calls.take j)).after call = given := by
      rw [after, hregister]
    rw [List.take_add_one, hcall, ← hstep, registerAll, registerAll, List.foldl_append]
    rfl
  have hlater := reaches_of_take catalog (calls.take i) (j + 1)
  rw [List.take_take, Nat.min_eq_left hj, ← hgiven] at hlater
  exact Nat.lt_of_lt_of_le (view_of_register hregister) hlater.grows.views.length_le

/-- Parents stand before their children, all the way down. -/
theorem Descends.pairwise (h : catalog.Leveled) {top last : Nat} {rest : List Nat}
    (hd : catalog.Descends top rest last) : (top :: rest).Pairwise (· < ·) := by
  induction hd with
  | stop id => exact List.pairwise_singleton _ _
  | @down top next last column rest view hv hp _ ih =>
    have hlt : top < next := ((h next view hv).child top column hp).1
    refine List.pairwise_cons.2 ⟨fun v hmem => ?_, ih⟩
    rcases List.mem_cons.1 hmem with rfl | hmem
    · exact hlt
    · exact Nat.lt_trans hlt ((List.pairwise_cons.1 ih).1 v hmem)

/-- The own key of a level, by the number of its view. -/
def ownKeyFields (catalog : Catalog) (id : Nat) : Fields :=
  match catalog.views[id]? with
  | some view => view.levelFields.take view.ownKeys
  | none => []

/-- The own keys of the levels on a way down, the topmost first. -/
def keyFields (catalog : Catalog) (path : List Nat) : Fields := path.flatMap catalog.ownKeyFields

/-- No level on a way down has a collection in its own key. -/
def PlainDown (catalog : Catalog) (path : List Nat) : Prop :=
  ∀ id ∈ path, ∀ view, catalog.views[id]? = some view → PlainKeys view.levelFields view.ownKeys

theorem ownKeyFields_of_view {id : Nat} {view : View} (hv : catalog.views[id]? = some view) :
    catalog.ownKeyFields id = view.levelFields.take view.ownKeys := by
  rw [ownKeyFields, hv]

/-- A root view shows its own key if that is plain. -/
theorem showsKey_root {id b : Nat} {view : View} (hlink : catalog.IsLinked id view)
    (hp : view.place = .root b) (hk : PlainKeys view.levelFields view.ownKeys) :
    view.ShowsKey (view.levelFields.take view.ownKeys) := by
  obtain ⟨table, -, hr⟩ := hlink.root b hp
  refine ⟨?_, ?_⟩
  · rw [List.length_take_of_le hlink.ownKeys_le, View.keys, hr.ancestorKeys, Nat.zero_add]
  · rw [hr.fields, ← hr.level, flatFields_split hk hlink.ownKeys_le]

/-- A child view shows the key of the view above and its own, if that is plain. -/
theorem showsKey_child {id column : Nat} {view above : View} {key : Fields}
    (hlink : catalog.IsLinked id view) (hchild : IsChildOf view above column)
    (habove : above.ShowsKey key) (hk : PlainKeys view.levelFields view.ownKeys) :
    view.ShowsKey (key ++ view.levelFields.take view.ownKeys) := by
  refine ⟨?_, ?_⟩
  · rw [List.length_append, habove.length, List.length_take_of_le hlink.ownKeys_le,
      View.keys.eq_1 view, hchild.ancestorKeys]
  · have hfront : above.fields.take above.keys = key := by
      rw [habove.fields, ← habove.length, List.take_left']
      rfl
    rw [hchild.fields, hfront, flatFields_split hk hlink.ownKeys_le, List.append_assoc]

/-- What a view shows as its key, the views below show in front of their own keys. -/
theorem Descends.showsKey (h : catalog.Leveled) {top last : Nat} {rest : List Nat}
    (hd : catalog.Descends top rest last) {above below : View} {key : Fields}
    (ha : catalog.views[top]? = some above) (hb : catalog.views[last]? = some below)
    (hkey : above.ShowsKey key) (hk : catalog.PlainDown rest) :
    below.ShowsKey (key ++ catalog.keyFields rest) := by
  induction hd generalizing above key with
  | stop id =>
    obtain rfl := Option.some.inj (ha.symm.trans hb)
    rwa [keyFields, List.flatMap_nil, List.append_nil]
  | @down top next last column rest view hv hp _ ih =>
    obtain ⟨-, above', ha', hchild⟩ := (h next view hv).child top column hp
    obtain rfl := Option.some.inj (ha.symm.trans ha')
    obtain ⟨hown, hk⟩ := List.forall_mem_cons.1 hk
    have hstep := ih hv hb (showsKey_child (h next view hv) hchild hkey (hown view hv)) hk
    rwa [keyFields, List.flatMap_cons, ownKeyFields_of_view hv, ← List.append_assoc]

/-- A view shows no collections. -/
theorem plain_of_mem_fields (h : catalog.Leveled) : ∀ {id : Nat} {view : View},
    catalog.views[id]? = some view → ∀ field ∈ view.fields, field.isNested = false := by
  have hflat : ∀ {fields : Fields}, ∀ field ∈ flatFields fields, field.isNested = false := by
    intro fields field hmem
    simpa using (List.mem_filter.1 hmem).2
  intro id
  induction id using Nat.strongRecOn with
  | _ id ih =>
    intro view hv field hmem
    cases hp : view.place with
    | root b =>
      obtain ⟨table, -, hr⟩ := (h id view hv).root b hp
      exact hflat field (hr.fields ▸ hmem)
    | child p column =>
      obtain ⟨hlt, above, ha, hchild⟩ := (h id view hv).child p column hp
      rw [hchild.fields] at hmem
      rcases List.mem_append.1 hmem with hmem | hmem
      · exact ih p hlt ha field (List.mem_of_mem_take hmem)
      · exact hflat field hmem

/-- **A view shows its key**, the own keys of the levels from the root down, exactly if no
level on the way has a collection in its own. -/
theorem showsKey_iff (h : catalog.Leveled) {rootId last b : Nat} {rest : List Nat} {root view : View}
    (hroot : catalog.views[rootId]? = some root) (hp : root.place = .root b)
    (hd : catalog.Descends rootId rest last) (hv : catalog.views[last]? = some view) :
    view.ShowsKey (catalog.keyFields (rootId :: rest)) ↔ catalog.PlainDown (rootId :: rest) := by
  rw [keyFields, List.flatMap_cons, ownKeyFields_of_view hroot]
  constructor
  · intro hshows id hid level hlevel i hi field hfield
    -- a key column of the level is one that the view shows
    have hown : field ∈ catalog.keyFields (rootId :: rest) := by
      refine List.mem_flatMap.2 ⟨id, hid, ?_⟩
      rw [ownKeyFields_of_view hlevel]
      rw [← List.getElem?_take_of_lt hi] at hfield
      exact List.mem_of_getElem? hfield
    rw [keyFields, List.flatMap_cons, ownKeyFields_of_view hroot] at hown
    exact plain_of_mem_fields h hv field (hshows.fields ▸ List.mem_append_left _ hown)
  · intro hk
    obtain ⟨hown, hk⟩ := List.forall_mem_cons.1 hk
    exact hd.showsKey h hroot hv (showsKey_root (h rootId root hroot) hp (hown root hroot)) hk

/-- A registration faults only below a view that shows fewer columns than its key has. -/
theorem fault_of_register {call : Registration} {fault : Fault}
    (hparent : ∀ parent column name ownKeys, call = .child parent column name ownKeys →
      parent < catalog.views.length)
    (h : catalog.register call = .error (.fault fault)) :
    ∃ parent column name ownKeys above, call = .child parent column name ownKeys ∧
      catalog.views[parent]? = some above ∧ above.fields.length < above.keys := by
  cases call with
  | table table viewName =>
    rw [register] at h
    cases hadd : catalog.addTable table viewName <;> rw [hadd] at h <;> cases h
  | child parent column name ownKeys =>
    have hview := List.getElem?_eq_getElem (hparent parent column name ownKeys rfl)
    refine ⟨parent, column, name, ownKeys, _, rfl, hview, ?_⟩
    rw [register, addChild] at h
    cases hfree : catalog.checkFree name with
    | error e => rw [hfree] at h; cases h
    | ok free =>
      rw [hfree, Catalog.view, itemAt_eq_ok.2 hview] at h
      simp only [orRefuse, orFault_ok, ok_bind] at h
      split at h
      · cases h
      · rename_i position hposition
        have hlt := (List.findIdx?_eq_some_iff_getElem.1 hposition).1
        rw [itemAt_eq_ok.2 (List.getElem?_eq_getElem hlt), orFault_ok, ok_bind] at h
        split at h
        · cases h
        · split at h
          · cases h
          · split at h
            · assumption
            · cases h

/-- **Views show their keys.** After any registrations below views that were given before, the
way from the root down to a view exists, with parents before their children; a view shows
exactly its key in front, unless a level on that way has a collection in its own key; and
only below such a level does a registration fault. -/
theorem views_show_keys {calls : List Registration} {catalog : Catalog}
    (hgiven : BelowGiven calls) (hrun : empty.registerAll calls = catalog) :
    (∀ (i : Nat) (fault : Fault), (empty.answers calls)[i]? = some (.error (.fault fault)) →
      ∃ (parent : Nat) (column name : String) (ownKeys : Nat) (path : List Nat),
        calls[i]? = some (.child parent column name ownKeys) ∧
        catalog.ancestry parent = .ok path ∧ ¬ catalog.PlainDown path) ∧
    ∀ id view, catalog.views[id]? = some view →
      (∀ parent column, view.place = .child parent column → parent < id) ∧
      ∃ rootId rest root b, catalog.ancestry id = .ok (rootId :: rest) ∧
        catalog.views[rootId]? = some root ∧ root.place = .root b ∧
        catalog.Descends rootId rest id ∧ (rootId :: rest).Pairwise (· < ·) ∧
        (view.ShowsKey (catalog.keyFields (rootId :: rest)) ↔
          catalog.PlainDown (rootId :: rest)) := by
  have hleveled : catalog.Leveled := hrun ▸ (reaches_registerAll empty calls).leveled leveled_empty
  constructor
  · intro i fault hanswer
    rw [getElem?_answers] at hanswer
    obtain ⟨call, hcall, hfault⟩ := Option.map_eq_some_iff.1 hanswer
    have hregister : (empty.registerAll (calls.take i)).register call = .error (.fault fault) := by
      cases hr : (empty.registerAll (calls.take i)).register call <;> rw [hr] at hfault <;>
        cases hfault
      rfl
    obtain ⟨parent, column, name, ownKeys, above, rfl, habove, hless⟩ :=
      fault_of_register (fun parent column name ownKeys he => by
        obtain ⟨j, hj, hanswer⟩ := hgiven i parent column name ownKeys (he ▸ hcall)
        exact view_of_answer hj hanswer) hregister
    -- the view above is still there after all registrations
    replace habove := hrun ▸ (reaches_of_take empty calls i).grows.view habove
    obtain ⟨path, hpath, rootId, rest, root, b, rfl, hroot, hp, hd⟩ :=
      hleveled.ancestry (List.getElem?_eq_some_iff.1 habove).1
    refine ⟨parent, column, name, ownKeys, _, hcall, hpath, fun hplain => ?_⟩
    have hshows := (showsKey_iff hleveled hroot hp hd habove).2 hplain
    exact Nat.not_lt.2 hshows.keys_le hless
  · intro id view hv
    obtain ⟨path, hpath, rootId, rest, root, b, rfl, hroot, hp, hd⟩ :=
      hleveled.ancestry (List.getElem?_eq_some_iff.1 hv).1
    exact ⟨fun parent column hchild => ((hleveled id view hv).child parent column hchild).1,
      rootId, rest, root, b, hpath, hroot, hp, hd, hd.pairwise hleveled,
      showsKey_iff hleveled hroot hp hd hv⟩

/-- Orders by number. Remarks stand in front of the number, and in every line the notes stand
behind the number of the line. -/
def notedOrders (keys : Nat) : BaseTable where
  name := "orders"
  fields := [⟨"id", .int64, false⟩, ⟨"remarks", .nestedOf [⟨"remark", .utf8, true⟩], true⟩,
    ⟨"lines", .nestedOf [⟨"line", .int64, false⟩,
      ⟨"notes", .nestedOf [⟨"note", .int64, false⟩, ⟨"text", .utf8, true⟩], true⟩,
      ⟨"amount", .int64, true⟩], true⟩,
    ⟨"total", .int64, true⟩]
  keys := keys
  kind := .state
  time := .none
  pending := .none
  stage := none

/-- Registers orders, their lines and the notes of these. The totals are no collection. -/
def notedCalls : List Registration :=
  [.table (notedOrders 1) "orders", .child 0 "lines" "lines" 1, .child 0 "total" "totals" 1,
    .child 1 "notes" "notes" 1]

theorem notedCalls_given : BelowGiven notedCalls := by
  rintro (_ | _ | _ | _ | i) parent column name ownKeys hcall <;> cases hcall
  · exact ⟨0, by decide, rfl⟩
  · exact ⟨0, by decide, rfl⟩
  · exact ⟨1, by decide, rfl⟩

theorem notes_show_their_key :
    BelowGiven notedCalls ∧ ∃ view, (empty.registerAll notedCalls).views[2]? = some view ∧
      (empty.registerAll notedCalls).ancestry 2 = .ok [0, 1, 2] ∧
      view.ShowsKey [⟨"id", .int64, false⟩, ⟨"line", .int64, false⟩, ⟨"note", .int64, false⟩] := by
  refine ⟨notedCalls_given, _, rfl, rfl, ?_⟩
  obtain ⟨-, rootId, rest, -, -, hpath, -, -, -, -, hshows⟩ :=
    (views_show_keys notedCalls_given rfl).2 2 _ rfl
  obtain ⟨rfl, rfl⟩ : rootId = 0 ∧ rest = [1, 2] :=
    List.cons.inj (Except.ok.inj (hpath.symm.trans rfl))
  refine hshows.2 fun id hid level hlevel => ?_
  obtain rfl | rfl | rfl : id = 0 ∨ id = 1 ∨ id = 2 := by simpa using hid
  all_goals
    cases hlevel
    exact plainKeys_one rfl

/-- With the remarks in the key, a view shows the total in its place. With the lines in it as
well, the key has more columns than the view, and registering the lines faults. -/
theorem nested_keys_are_lost :
    BelowGiven [.table (notedOrders 2) "orders"] ∧
    (∃ view, (empty.registerAll [.table (notedOrders 2) "orders"]).views[0]? = some view ∧
      view.keys = 2 ∧ view.fields = [⟨"id", .int64, false⟩, ⟨"total", .int64, true⟩] ∧
      ¬ view.ShowsKey ((notedOrders 2).fields.take 2)) ∧
    BelowGiven [.table (notedOrders 3) "orders", .child 0 "lines" "lines" 1] ∧
    empty.answers [.table (notedOrders 3) "orders", .child 0 "lines" "lines" 1]
      = [.ok 0, .error (.fault .sliceOutOfRange)] := by
  refine ⟨?_, ⟨_, rfl, rfl, rfl, fun hshows => ?_⟩, ?_, rfl⟩
  · rintro (_ | i) parent column name ownKeys hcall <;> cases hcall
  · exact absurd (congrArg (List.map Field.name) hshows.fields) (by decide)
  · rintro (_ | _ | i) parent column name ownKeys hcall <;> cases hcall
    exact ⟨0, by decide, rfl⟩

end Catalog

end StreamPlan
