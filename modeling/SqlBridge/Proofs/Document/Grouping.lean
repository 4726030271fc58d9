import Mathlib.Data.List.Perm.Subperm
import SqlBridge.Proofs.Document.Find

/-!
# Grouping on several columns

A distinct selection of several columns groups its rows on a document with an entry for each column.
The key of an entry is the column with its points replaced, so two columns may have one key, and
then the entry of one of them is lost. Later stages only see the keys, but the order still names
columns, so an order by a column with a point reads nothing.
-/

namespace SqlBridge

namespace OrderedMap

universe u

variable {β : Type u} {es : List (String × β)}

/-- A map is as long as the list of its entries exactly if the list repeats no key. -/
theorem length_entries_ofList_iff :
    (ofList es).entries.length = es.length ↔ (es.map Prod.fst).Nodup := by
  constructor
  · intro same
    have listed : (ofList es).keys ⊆ es.map Prod.fst := fun key present =>
      contains_ofList.mp (contains_eq_true_iff.mpr present)
    have part : (ofList es).keys.Subperm (es.map Prod.fst) :=
      List.subperm_of_subset (ofList es).nodup listed
    have all : (ofList es).keys.Perm (es.map Prod.fst) :=
      part.perm_of_length_le (by simp [keys, same])
    exact all.nodup_iff.mp (ofList es).nodup
  · intro distinct
    rw [entries_ofList distinct]

end OrderedMap

namespace Document

def groupEntries (c : Json) : List (String × Json) :=
  ((bodyOf? "$group" (stagesOf c)).bind (valueAt? "_id")).elim [] entriesOf

/-- The entries by which a command orders rows. -/
def sortEntries (c : Json) : List (String × Json) :=
  (bodyOf? "$sort" (stagesOf c)).elim [] entriesOf

/-- What leads to a column in the rows of a table. -/
def columnRef (column : String) : Json :=
  .str ("$" ++ column)

/-- A command groups on each of the columns once and on nothing else, and where it orders by one of
them, the key is that of its entry. -/
structure GroupsColumns (columns : List String) (c : Json) : Prop where
  grouped : ((groupEntries c).map Prod.snd).Perm (columns.map columnRef)
  ordered : ∀ entry ∈ sortEntries c, entry.1 ∈ columns →
    (entry.1, columnRef entry.1) ∈ groupEntries c

variable {d : Descriptor} {query : Option Json} {c : Json} {column : String}
  {columns : List String}

/-! ### Entries -/

def groupEntry (column : String) : String × Json :=
  (groupKey column, columnRef column)

theorem groupKey_eq_self_iff : groupKey column = column ↔ '.' ∉ column.toList := by
  have general : ∀ cs : List Char,
      cs.map (fun c => if c = '.' then '_' else c) = cs ↔ '.' ∉ cs := by
    intro cs
    induction cs with
    | nil => simp
    | cons c cs ih =>
      by_cases point : c = '.'
      · simp [point]
      · simp [point, ih, Ne.symm point]
  rw [groupKey, ← general, String.ext_iff, String.toList_ofList]

theorem columnRef_inj {other : String} : columnRef column = columnRef other ↔ column = other := by
  rw [columnRef, columnRef, Json.str.injEq, String.append_right_inj]

/-- The entries of all columns are there exactly if no two columns have one key. -/
theorem values_ofList_perm_iff :
    (((OrderedMap.ofList (columns.map groupEntry)).entries.map Prod.snd).Perm
      (columns.map columnRef)) ↔ (columns.map groupKey).Nodup := by
  have keys : (columns.map groupEntry).map Prod.fst = columns.map groupKey := by
    rw [List.map_map]
    rfl
  rw [← keys]
  constructor
  · intro all
    rw [← OrderedMap.length_entries_ofList_iff]
    simpa using all.length_eq
  · intro distinct
    rw [OrderedMap.entries_ofList distinct, List.map_map]
    exact .refl _

/-- A column without a point is its own key. -/
theorem mem_map_groupEntry_iff (listed : column ∈ columns) :
    (column, columnRef column) ∈ columns.map groupEntry ↔ '.' ∉ column.toList := by
  rw [← groupKey_eq_self_iff, List.mem_map]
  constructor
  · rintro ⟨other, _, entry⟩
    obtain ⟨key, ref⟩ := Prod.mk.inj entry
    rwa [columnRef_inj.mp ref] at key
  · intro own
    exact ⟨column, listed, by rw [groupEntry, own]⟩

/-! ### Stages -/

theorem exists_distinct_of_command (kind : d.kind = .command) (rendered : command d = .ok c) :
    ∃ query, c = distinct d query := by
  rw [command, kind] at rendered
  obtain ⟨query, _, same⟩ := Sql.exists_of_bind_eq_ok rendered
  exact ⟨query, (Except.ok.inj same).symm⟩

theorem stagesOf_distinct (several : 2 ≤ d.included.length) :
    stagesOf (distinct d query) = distinctStages d query := by
  rw [distinct_several]
  · rfl
  · intro key single
    simp [single] at several

theorem bodyOf?_distinctStages :
    bodyOf? "$group" (distinctStages d query) = some (.obj [("_id", groupBody d.included)]) ∧
      bodyOf? "$sort" (distinctStages d query) = sort? d := by
  have stages : distinctStages d query = stage "$match" query
      ++ (stage "$group" (some (.obj [("_id", groupBody d.included)]))
        ++ stage "$replaceRoot" (some (.obj [("newRoot", .str "$_id")])))
      ++ stage "$sort" (sort? d) ++ stage "$skip" (skip? d) ++ stage "$limit" (take? d) := rfl
  constructor <;> simp [stages, bodyOf?_append, bodyOf?_stage, bodyOf?_stage_of_ne]

theorem groupEntries_distinct (several : 2 ≤ d.included.length) :
    groupEntries (distinct d query) =
      (OrderedMap.ofList (d.included.map groupEntry)).entries := by
  have filled : d.included.isEmpty = false := by
    rw [List.isEmpty_eq_false_iff, ← List.length_pos_iff]
    exact Nat.lt_of_lt_of_le Nat.two_pos several
  rw [groupEntries, stagesOf_distinct several, bodyOf?_distinctStages.1, groupBody,
    if_neg (by simp [filled])]
  rfl

theorem sortEntries_distinct (several : 2 ≤ d.included.length) :
    sortEntries (distinct d query) = (OrderedMap.ofList (d.orderBy.map sortEntry)).entries := by
  rw [sortEntries, stagesOf_distinct several, bodyOf?_distinctStages.2]
  by_cases ordered : d.orderBy = []
  · rw [sort?, ordered]
    rfl
  · rw [sort?_eq ordered]
    rfl

theorem mem_sortEntries_iff (several : 2 ≤ d.included.length) {key : String} :
    key ∈ (sortEntries (distinct d query)).map Prod.fst ↔ ∃ e ∈ d.orderBy, e.field = key := by
  rw [sortEntries_distinct several, ← OrderedMap.contains_eq_true_iff, OrderedMap.contains_ofList,
    List.map_map, List.mem_map]
  rfl

/-! ### The command -/

/-- The command of a distinct selection of several columns groups on all of them, and orders by
their entries, exactly if no two of them have one key and the order names none with a point. -/
theorem command_groupsColumns_iff (kind : d.kind = .command) (several : 2 ≤ d.included.length)
    (rendered : command d = .ok c) :
    GroupsColumns d.included c ↔ (d.included.map groupKey).Nodup ∧
      ∀ e ∈ d.orderBy, e.field ∈ d.included → '.' ∉ e.field.toList := by
  obtain ⟨query, rfl⟩ := exists_distinct_of_command kind rendered
  have grouped : groupEntries (Document.distinct d query) = _ := groupEntries_distinct several
  have distinct : (d.included.map groupEntry).map Prod.fst = d.included.map groupKey := by
    rw [List.map_map]
    rfl
  constructor
  · intro h
    have keys : (d.included.map groupKey).Nodup := by
      rw [← values_ofList_perm_iff, ← grouped]
      exact h.grouped
    refine ⟨keys, fun e listed column => ?_⟩
    obtain ⟨entry, among, same⟩ :=
      List.mem_map.mp ((mem_sortEntries_iff several).mpr ⟨e, listed, rfl⟩)
    have found := h.ordered entry among (by rwa [same])
    rw [grouped, OrderedMap.entries_ofList (by rwa [distinct]), same] at found
    exact (mem_map_groupEntry_iff column).mp found
  · rintro ⟨keys, plain⟩
    constructor
    · rw [grouped]
      exact values_ofList_perm_iff.mpr keys
    · intro entry among column
      obtain ⟨e, listed, same⟩ :=
        (mem_sortEntries_iff several).mp (List.mem_map_of_mem (f := Prod.fst) among)
      rw [grouped, OrderedMap.entries_ofList (by rwa [distinct]), mem_map_groupEntry_iff column]
      rw [← same] at column ⊢
      exact plain e listed column

theorem command_groupsColumns_iff_nested_column : ∃ d c,
    compile {} "SELECT DISTINCT a.b, c FROM t ORDER BY c DESC" ∅ = .ok d ∧ d.kind = .command ∧
      2 ≤ d.included.length ∧ command d = .ok c ∧ GroupsColumns d.included c := by
  let d : Descriptor := {
    kind := .command
    table := "t"
    projection := .ofList [("a.b", true), ("c", true), ("_id", false)]
    orderBy := [⟨"c", .desc⟩]
    distinctOn := some "t" }
  have several : 2 ≤ d.included.length := by decide
  obtain ⟨c, rendered⟩ : ∃ c, command d = .ok c := ⟨_, rfl⟩
  refine ⟨d, c, by decide +kernel, rfl, several, rendered, ?_⟩
  exact (command_groupsColumns_iff rfl several rendered).mpr ⟨by decide, by decide⟩

/-- A column with a point is grouped under a key that the order does not know. -/
theorem not_forall_groupsColumns :
    ¬ ∀ (settings : Settings) (text : String) (params : Params) (d : Descriptor) (c : Json),
      compile settings text params = .ok d → d.kind = .command → 2 ≤ d.included.length →
      command d = .ok c → GroupsColumns d.included c := by
  intro all
  have compiled : compile {} "SELECT DISTINCT a.b, c FROM t ORDER BY a.b" ∅ = .ok {
      kind := .command
      table := "t"
      projection := .ofList [("a.b", true), ("c", true), ("_id", false)]
      orderBy := [⟨"a.b", .asc⟩]
      distinctOn := some "t" } := by
    decide +kernel
  have groups := all _ _ _ _ _ compiled rfl (by decide) rfl
  have listed : ("a.b", columnRef "a.b") ∈ [("a_b", columnRef "a.b"), ("c", columnRef "c")] :=
    groups.ordered ("a.b", .int 1) (List.mem_singleton.mpr rfl) (by decide)
  simp at listed

end Document

end SqlBridge
