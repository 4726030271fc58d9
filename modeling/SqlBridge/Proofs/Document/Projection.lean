import SqlBridge.Proofs.Document.Find
import SqlBridge.Proofs.Statement.SelectList

/-!
# Projection documents

The projection document of a selection leads from the name of each item in results to its column,
and hides the primary key last if that is no column of the select list. A document has one entry for
a key. So if the primary key is hidden and also the alias of another column, its entry takes the
place of the one of that column, which is then no longer in the results.
-/

namespace SqlBridge

namespace OrderedMap

universe u

variable {β : Type u} {m : OrderedMap β} {k : String} {v : β}

/-- A key that is present keeps its place. -/
theorem entries_insert_of_contains (present : m.contains k = true) :
    (m.insert k v).entries = m.entries.map fun e => if e.1 = k then (k, v) else e := by
  have general : ∀ es : List (String × β), (es.map Prod.fst).Nodup → k ∈ es.map Prod.fst →
      putEntry k v es = es.map fun e => if e.1 = k then (k, v) else e := by
    intro es
    induction es with
    | nil => simp
    | cons e es ih =>
      intro distinct listed
      obtain ⟨absent, distinct⟩ := List.nodup_cons.mp distinct
      by_cases here : e.1 = k
      · have others : es.map (fun e => if e.1 = k then (k, v) else e) = es := by
          refine (List.map_congr_left fun f later => if_neg fun same => absent ?_).trans
            (List.map_id es)
          rw [here, ← same]
          exact List.mem_map_of_mem later
        rw [putEntry, if_pos here, List.map_cons, if_pos here, others]
      · have later := (List.mem_cons.mp listed).resolve_left (Ne.symm here)
        rw [putEntry, if_neg here, List.map_cons, if_neg here, ih distinct later]
  exact general m.entries m.nodup (contains_eq_true_iff.mp present)

end OrderedMap

namespace Document

open Select

/-- The projection document of a command: under its key, or as the last stage of a pipeline. -/
def projectionOf? (c : Json) : Option Json :=
  (valueAt? "projection" c).or (bodyOf? "$project" (stagesOf c))

def itemEntry (i : String × Option String) : String × Json :=
  (outputName i, if i.2.isSome then .str ("$" ++ i.1) else .int 1)

/-- The entries of a projection document that has all items, and hides the primary key unless it is
one of them. -/
def projected (primaryKey : String) (items : List (String × Option String)) :
    List (String × Json) :=
  items.map itemEntry ++
    if primaryKey ∈ items.map Prod.fst ∨ primaryKey ∈ items.map outputName then []
    else [(primaryKey, .int 0)]

/-- The entries of the items, but one that hides the primary key where an item has its name in
results. -/
def overwritten (primaryKey : String) (items : List (String × Option String)) :
    List (String × Json) :=
  (items.map itemEntry).map fun e => if e.1 = primaryKey then (primaryKey, .int 0) else e

variable {d : Descriptor} {primaryKey : String} {items : List (String × Option String)}
  {body : Json} {stages : List Json}

theorem keys_itemEntry : (items.map itemEntry).map Prod.fst = items.map outputName := by
  rw [List.map_map]
  rfl

/-! ### Entries -/

theorem projectionEntry_included (column : String) :
    projectionEntry d (column, true) = itemEntry (column, d.aliasOf? column) := by
  rw [projectionEntry]
  cases d.aliasOf? column <;> rfl

/-- Where no column and no alias is written twice, the entries are those of the items in front of
the one that hides the primary key. -/
theorem projectionEntries_eq (kept : Keeps primaryKey d items)
    (columns : (items.map Prod.fst).Nodup) (aliases : (items.filterMap Prod.snd).Nodup) :
    d.projection.entries.map (projectionEntry d) = items.map itemEntry ++
      if primaryKey ∈ items.map Prod.fst then [] else [(primaryKey, .int 0)] := by
  have same := kept.items_eq columns aliases
  have included : (d.included.map (·, true)).map (projectionEntry d) = items.map itemEntry := by
    rw [← same, Descriptor.items, List.map_map, List.map_map]
    exact List.map_congr_left fun column _ => projectionEntry_included column
  rw [kept.projection, entries_included, ← kept.included_eq, List.map_append, included]
  split <;> rfl

/-- The entry that hides the primary key comes last, or takes the place of the item that has the
name of the key in results. -/
theorem entries_ofList_items (outputs : (items.map outputName).Nodup) :
    (OrderedMap.ofList (items.map itemEntry ++
      if primaryKey ∈ items.map Prod.fst then [] else [(primaryKey, .int 0)])).entries =
      if primaryKey ∈ items.map Prod.fst ∨ primaryKey ∉ items.map outputName then
        projected primaryKey items
      else overwritten primaryKey items := by
  have entries : (OrderedMap.ofList (items.map itemEntry)).entries = items.map itemEntry :=
    OrderedMap.entries_ofList (by rwa [keys_itemEntry])
  have present : (OrderedMap.ofList (items.map itemEntry)).contains primaryKey = true ↔
      primaryKey ∈ items.map outputName := by
    rw [OrderedMap.contains_ofList, keys_itemEntry]
  by_cases selected : primaryKey ∈ items.map Prod.fst
  · rw [if_pos selected, List.append_nil, entries, if_pos (.inl selected), projected,
      if_pos (.inl selected), List.append_nil]
  · rw [if_neg selected, OrderedMap.ofList_append_singleton]
    by_cases named : primaryKey ∈ items.map outputName
    · rw [if_neg (by simp [selected, named]),
        OrderedMap.entries_insert_of_contains (present.mpr named), entries, overwritten]
    · have absent := Bool.eq_false_iff.mpr (mt present.mp named)
      rw [if_pos (.inr named), OrderedMap.entries_insert_of_new absent, entries, projected,
        if_neg (not_or.mpr ⟨selected, named⟩)]

/-- The entry of an item differs from the one that hides the primary key. -/
theorem itemEntry_ne (i : String × Option String) : itemEntry i ≠ (primaryKey, .int 0) := by
  intro same
  have value := (Prod.mk.inj same).2
  split at value <;> simp at value

/-- What takes the place of an item is no entry of one. -/
theorem overwritten_ne (named : primaryKey ∈ items.map outputName) :
    overwritten primaryKey items ≠ projected primaryKey items := by
  obtain ⟨i, listed, rfl⟩ := List.mem_map.mp named
  intro same
  rw [projected, if_pos (.inr named), List.append_nil] at same
  have hides : (outputName i, .int 0) ∈ overwritten (outputName i) items :=
    List.mem_map.mpr ⟨itemEntry i, List.mem_map_of_mem listed, if_pos rfl⟩
  rw [same] at hides
  obtain ⟨j, _, entry⟩ := List.mem_map.mp hides
  exact itemEntry_ne j entry

/-! ### Documents -/

theorem projection?_eq (kept : Keeps primaryKey d items) (filled : items ≠ [])
    (columns : (items.map Prod.fst).Nodup) (outputs : (items.map outputName).Nodup) :
    projection? d = some (.obj
      (if primaryKey ∈ items.map Prod.fst ∨ primaryKey ∉ items.map outputName then
        projected primaryKey items
      else overwritten primaryKey items)) := by
  have listed : d.projection.isEmpty = false := by
    obtain ⟨column, included⟩ := List.exists_mem_of_ne_nil _ (kept.included_ne_nil filled)
    obtain ⟨e, among, _⟩ := List.mem_map.mp included
    exact List.isEmpty_eq_false_iff.mpr (List.ne_nil_of_mem (List.mem_of_mem_filter among))
  rw [projection?, if_neg (by simp [listed]), document,
    projectionEntries_eq kept columns (outputs.sublist aliases_sublist),
    entries_ofList_items outputs]

/-- A command and its pipeline have one projection document. -/
theorem projectionOf?_command (selects : d.kind = .select) (rendered : pipeline d = .ok stages)
    (projects : projection? d = some body) :
    bodyOf? "$project" stages = some body ∧
      ∃ c, command d = .ok c ∧ projectionOf? c = some body := by
  obtain ⟨_, _, _, _, found⟩ := bodyOf?_pipeline rendered
  rw [projects] at found
  refine ⟨found, _, command_of_pipeline selects rendered, ?_⟩
  split
  · rw [find_eq_present rendered, found]
    cases bodyOf? "$match" stages <;>
      simp [projectionOf?, valueAt?, Json.present, List.lookup_cons]
  · have listed : stagesOf (aggregate d.table stages) = stages := rfl
    rw [projectionOf?, listed, found]
    rfl

end Document

variable {settings : Settings} {text : String} {params : Params} {d : Descriptor}
  {items : List (String × Option String)}

open Document Select

/-- A selection of distinct columns with distinct names in results has one projection document in
its command and in its pipeline. The document has an entry for each item, and hides the primary key
if it is not selected, exactly if the primary key is a column of the select list or no name in
results. Else the entry that hides the primary key is in place of the item of that name. -/
theorem projection_of_compile (compiled : compile settings text params = .ok d)
    (selects : d.kind = .select) (written : Writes text items)
    (columns : (items.map Prod.fst).Nodup) (outputs : (items.map outputName).Nodup) :
    ∃ entries, projection? d = some (.obj entries) ∧
      (∀ query, filterDocument? d = .ok query → ∃ c stages, command d = .ok c ∧
        pipeline d = .ok stages ∧ projectionOf? c = some (.obj entries) ∧
        bodyOf? "$project" stages = some (.obj entries)) ∧
      (entries = projected settings.primaryKey items ↔
        settings.primaryKey ∈ items.map Prod.fst ∨
          settings.primaryKey ∉ items.map outputName) ∧
      (settings.primaryKey ∉ items.map Prod.fst → settings.primaryKey ∈ items.map outputName →
        entries = overwritten settings.primaryKey items) := by
  have kept := keeps_of_compile compiled written
  have projects := projection?_eq kept written.ne_nil columns outputs
  refine ⟨_, projects, fun query filtered => ?_, ⟨?_, ?_⟩, ?_⟩
  · obtain ⟨stages, rendered⟩ : ∃ stages, pipeline d = .ok stages := by
      rw [pipeline, filtered]
      exact ⟨_, rfl⟩
    obtain ⟨found, c, commanded, projected⟩ := projectionOf?_command selects rendered projects
    exact ⟨c, stages, commanded, rendered, projected, found⟩
  · intro same
    by_contra lost
    rw [if_neg lost] at same
    rw [not_or, not_not] at lost
    exact overwritten_ne lost.2 same
  · exact fun shown => if_pos shown
  · exact fun unselected named => if_neg (by simp [unselected, named])

theorem projection_of_compile_renamed_column : ∃ d c stages,
    compile {} "SELECT a, b.c AS x FROM t" ∅ = .ok d ∧ command d = .ok c ∧
      pipeline d = .ok stages ∧
      projectionOf? c = some (.obj [("a", .int 1), ("x", .str "$b.c"), ("_id", .int 0)]) ∧
      bodyOf? "$project" stages =
        some (.obj [("a", .int 1), ("x", .str "$b.c"), ("_id", .int 0)]) := by
  let d : Descriptor := {
    kind := .select
    table := "t"
    projection := .ofList [("a", true), ("b.c", true), ("_id", false)]
    aliases := .ofList [("x", "b.c")] }
  have compiled : compile {} "SELECT a, b.c AS x FROM t" ∅ = .ok d := by decide +kernel
  have written : Writes "SELECT a, b.c AS x FROM t" [("a", none), ("b.c", some "x")] := by
    decide +kernel
  obtain ⟨entries, _, shared, whole, _⟩ :=
    projection_of_compile compiled rfl written (by decide) (by decide)
  obtain ⟨c, stages, commanded, rendered, projects, staged⟩ := shared none rfl
  have same : entries = [("a", .int 1), ("x", .str "$b.c"), ("_id", .int 0)] :=
    whole.mpr (.inr (by decide))
  rw [same] at projects staged
  exact ⟨d, c, stages, compiled, commanded, rendered, projects, staged⟩

/-- The primary key is hidden where another column has its name as an alias, and the column is
lost. -/
theorem not_forall_compile_projected :
    ¬ ∀ (settings : Settings) (text : String) (params : Params) (d : Descriptor)
      (items : List (String × Option String)) (c : Json) (stages : List Json),
      compile settings text params = .ok d → d.kind = .select → Writes text items →
      (items.map Prod.fst).Nodup → (items.map outputName).Nodup →
      command d = .ok c → pipeline d = .ok stages →
      projectionOf? c = some (.obj (projected settings.primaryKey items)) ∧
        bodyOf? "$project" stages = some (.obj (projected settings.primaryKey items)) := by
  intro all
  let d : Descriptor := {
    kind := .select
    table := "t"
    projection := .ofList [("a", true), ("_id", false)]
    aliases := .ofList [("_id", "a")] }
  have compiled : compile {} "SELECT a AS _id FROM t" ∅ = .ok d := by decide +kernel
  have written : Writes "SELECT a AS _id FROM t" [("a", some "_id")] := by decide +kernel
  have rendered : pipeline d = .ok [.obj [("$project", .obj [("_id", .int 0)])]] := rfl
  have hides : bodyOf? "$project" [.obj [("$project", .obj [("_id", .int 0)])]] =
      some (.obj (overwritten "_id" [("a", some "_id")])) := rfl
  obtain ⟨_, projects⟩ :=
    all {} _ ∅ d _ _ _ compiled rfl written (by decide) (by decide) rfl rendered
  have same := Json.obj.inj (Option.some.inj (hides.symm.trans projects))
  exact overwritten_ne (by decide) same

end SqlBridge
