import SqlBridge.Proofs.Document.Distinct
import SqlBridge.Proofs.Predicate.Tree
import SqlBridge.Proofs.Sql.Rendered

/-!
# Where a pipeline reads joined rows

The stages of a pipeline run one after the other, and the rows of a joined table are there only
behind its lookup. Order, limits and projection come behind every lookup and may name any joined
column. The filter comes in front of them, and the lookups stand in the order of the joins, so a
filter on a joined column and a join on a column of a later table read what is not there yet.
-/

namespace SqlBridge.Document

open Sql (exists_of_bind_eq_ok)

/-! ### What stages read -/

mutual

/-- The paths a filter document reads: its keys, and for a connective those of its branches. -/
def filterPaths : Json → List String
  | .obj fields => filterPathsOfFields fields
  | _ => []

def filterPathsOfFields : List (String × Json) → List String
  | [] => []
  | (key, .arr branches) :: rest =>
    (if key = "$and" ∨ key = "$or" then filterPathsOfBranches branches else [key])
      ++ filterPathsOfFields rest
  | (key, _) :: rest => key :: filterPathsOfFields rest

def filterPathsOfBranches : List Json → List String
  | [] => []
  | branch :: rest => filterPaths branch ++ filterPathsOfBranches rest

end

def entriesOf : Json → List (String × Json)
  | .obj fields => fields
  | _ => []

def textAt? (key : String) (body : Json) : Option String :=
  match valueAt? key body with
  | some (.str text) => some text
  | _ => none

/-- The path an entry of a projection reads: the one its text names after a dollar sign, or its
own key. -/
def projectedPath (entry : String × Json) : String :=
  match entry.2 with
  | .str text => String.ofList (text.toList.drop 1)
  | _ => entry.1

/-- The paths that a stage reads in the documents that come to it. -/
def pathsRead : Json → List String
  | .obj [(key, body)] =>
    if key = "$match" then filterPaths body
    else if key = "$lookup" then (textAt? "localField" body).toList
    else if key = "$sort" then (entriesOf body).map Prod.fst
    else if key = "$project" then (entriesOf body).map projectedPath
    else []
  | _ => []

/-- The name under which a stage adds the rows of a joined table. -/
def added? : Json → Option String
  | .obj [(key, body)] => if key = "$lookup" then textAt? "as" body else none
  | _ => none

/-- The part of a path before its first point. -/
def firstSegment (path : String) : String :=
  String.ofList (path.toList.takeWhile (· ≠ '.'))

/-- No stage reads under the name of a lookup that comes behind it. -/
def ReadsBehindLookups (stages : List Json) : Prop :=
  stages.Pairwise fun earlier later =>
    ∀ path ∈ pathsRead earlier, added? later ≠ some (firstSegment path)

/-! ### Filters -/

section Filters

variable {v : Value} {j : Json} {field : String}

/-- No value stands in a document as an array. -/
theorem value_ne_arr (written : value v = .ok j) (branches : List Json) : j ≠ .arr branches := by
  rintro rfl
  cases v with
  | float x =>
    by_cases finite : x.isFinite = true <;> simp [value, Value.toJson?, finite] at written
  | _ => simp [value, Value.toJson?] at written

theorem condition_ne_arr {operator : Operator} (plain : ∀ branches, j ≠ .arr branches)
    (branches : List Json) : condition operator j ≠ .arr branches := by
  rw [condition]
  split
  · exact plain branches
  · simp

theorem filterPaths_single (plain : ∀ branches, j ≠ .arr branches) :
    filterPaths (.obj [(field, j)]) = [field] := by
  rw [filterPaths, filterPathsOfFields, filterPathsOfFields]
  exact plain

theorem filterPaths_connective (logic : Logic) (branches : List Json) :
    filterPaths (.obj [(connectiveKey logic, .arr branches)]) = filterPathsOfBranches branches := by
  have connective : connectiveKey logic = "$and" ∨ connectiveKey logic = "$or" := by
    cases logic
    · exact .inl rfl
    · exact .inr rfl
  rw [filterPaths, filterPathsOfFields, if_pos connective, filterPathsOfFields, List.append_nil]

mutual

/-- The filter document of a predicate reads the fields of its leaves. -/
theorem filterPaths_of_filter : ∀ {p : Predicate} {q : Json}, filter p = .ok q →
    filterPaths q = p.leaves.filterMap Predicate.field?
  | .comparison field operator v, q, written => by
    rw [filter] at written
    obtain ⟨j, known, same⟩ := exists_of_bind_eq_ok written
    obtain rfl := Except.ok.inj same
    rw [filterPaths_single (condition_ne_arr (value_ne_arr known))]
    simp [Predicate.field?]
  | .pattern field regex caseInsensitive, q, written => by
    rw [filter] at written
    obtain rfl := Except.ok.inj written
    rw [filterPaths_single (by simp)]
    simp [Predicate.field?]
  | .group logic children, q, written => by
    rw [filter] at written
    obtain ⟨branches, known, same⟩ := exists_of_bind_eq_ok written
    obtain rfl := Except.ok.inj same
    rw [filterPaths_connective, filterPaths_of_filters known, Predicate.leaves]

theorem filterPaths_of_filters : ∀ {ps : List Predicate} {qs : List Json}, filters ps = .ok qs →
    filterPathsOfBranches qs = (Predicate.leavesOf ps).filterMap Predicate.field?
  | [], qs, written => by
    rw [filters] at written
    obtain rfl := Except.ok.inj written
    simp [filterPathsOfBranches, Predicate.leavesOf]
  | p :: rest, qs, written => by
    rw [filters] at written
    obtain ⟨first, here, written⟩ := exists_of_bind_eq_ok written
    obtain ⟨others, behind, same⟩ := exists_of_bind_eq_ok written
    obtain rfl := Except.ok.inj same
    rw [filterPathsOfBranches, filterPaths_of_filter here, filterPaths_of_filters behind,
      Predicate.leavesOf, List.filterMap_append]

end

end Filters

/-! ### Stages -/

variable {d : Descriptor} {stages : List Json} {query : Option Json} {s : Json}
  {o : Option Json} {key : String}

theorem pathsRead_match (q : Json) : pathsRead (.obj [("$match", q)]) = filterPaths q := by
  simp [pathsRead]

theorem pathsRead_lookup (l : Lookup) :
    pathsRead (.obj [("$lookup", lookup l)]) = [l.localField] := by
  simp [pathsRead, textAt?, valueAt?, lookup, List.lookup_cons]

theorem added?_lookup (l : Lookup) :
    added? (.obj [("$lookup", lookup l)]) = some l.exposedAs := by
  simp [added?, textAt?, valueAt?, lookup, List.lookup_cons]

/-- Only lookups add rows. -/
theorem added?_of_mem_stage (apart : key ≠ "$lookup") (listed : s ∈ stage key o) :
    added? s = none := by
  cases o with
  | none => cases listed
  | some body =>
    obtain rfl := List.mem_singleton.mp listed
    rw [added?, if_neg apart]

def lookups (d : Descriptor) : List Json :=
  d.joins.map fun l => .obj [("$lookup", lookup l)]

def finalStages (d : Descriptor) : List Json :=
  stage "$sort" (sort? d) ++ stage "$skip" (skip? d) ++ stage "$limit" (take? d)
    ++ stage "$project" (projection? d)

theorem added?_of_mem_finalStages (listed : s ∈ finalStages d) : added? s = none := by
  simp only [finalStages, List.mem_append] at listed
  obtain ((listed | listed) | listed) | listed := listed <;>
    exact added?_of_mem_stage (by decide) listed

/-- A pipeline is its filter, its lookups and the stages behind these. -/
theorem pipeline_eq_ok (rendered : pipeline d = .ok stages) : ∃ query,
    filterDocument? d = .ok query ∧
    stages = stage "$match" query ++ (lookups d ++ finalStages d) := by
  obtain ⟨query, written, same⟩ := exists_of_bind_eq_ok rendered
  refine ⟨query, written, ?_⟩
  rw [← Except.ok.inj same, lookups, finalStages, List.map_eq_flatMap]
  simp only [stage, List.append_assoc]

/-- Stages that add nothing may come last. -/
theorem readsBehindLookups_append {others : List Json} (quiet : ∀ s ∈ others, added? s = none) :
    ReadsBehindLookups (stages ++ others) ↔ ReadsBehindLookups stages := by
  have behind (earlier later : Json) (listed : later ∈ others) :
      ∀ path ∈ pathsRead earlier, added? later ≠ some (firstSegment path) := by
    simp [quiet later listed]
  constructor
  · exact fun h => (List.pairwise_append.mp h).1
  · intro h
    refine List.pairwise_append.mpr ⟨h, ?_, fun earlier _ => behind earlier⟩
    exact List.pairwise_of_forall_mem_list fun earlier _ => behind earlier

theorem readsBehindLookups_lookups : ReadsBehindLookups (lookups d) ↔
    d.joins.Pairwise fun earlier later => later.exposedAs ≠ firstSegment earlier.localField := by
  rw [ReadsBehindLookups, lookups, List.pairwise_map]
  simp only [pathsRead_lookup, added?_lookup, List.mem_singleton, forall_eq, ne_eq,
    Option.some.injEq]

/-- The paths that the stage of the filter reads are the fields of the filter. -/
theorem mem_pathsRead_match (written : filterDocument? d = .ok query) {path : String} :
    (∃ s ∈ stage "$match" query, path ∈ pathsRead s) ↔
      ∃ p ∈ d.filter, path ∈ p.leaves.filterMap Predicate.field? := by
  cases filtered : d.filter with
  | none =>
    rw [filterDocument?, filtered] at written
    obtain rfl := Except.ok.inj written
    simp [stage]
  | some p =>
    obtain ⟨q, known, rfl⟩ := filter_of_written filtered written
    simp [stage, pathsRead_match, filterPaths_of_filter known]

/-- In front of lookups that read behind each other, the stage of the filter must not name what
they add. -/
theorem readsBehindLookups_match (written : filterDocument? d = .ok query) :
    ReadsBehindLookups (stage "$match" query ++ lookups d) ↔
      (∀ p ∈ d.filter, ∀ field ∈ p.leaves.filterMap Predicate.field?, ∀ l ∈ d.joins,
        l.exposedAs ≠ firstSegment field) ∧ ReadsBehindLookups (lookups d) := by
  have alone : (stage "$match" query).Pairwise fun earlier later =>
      ∀ path ∈ pathsRead earlier, added? later ≠ some (firstSegment path) := by
    cases query with
    | none => exact .nil
    | some q => exact List.pairwise_singleton _ _
  rw [ReadsBehindLookups, List.pairwise_append, and_iff_right alone, and_comm]
  refine and_congr_left fun _ => ?_
  constructor
  · intro h p filtered field named l joined
    obtain ⟨s, staged, read⟩ := (mem_pathsRead_match written).mpr ⟨p, filtered, named⟩
    have apart := h s staged _ (List.mem_map_of_mem joined) field read
    rw [added?_lookup] at apart
    exact fun same => apart (congrArg some same)
  · intro h s staged later added path read
    obtain ⟨p, filtered, named⟩ := (mem_pathsRead_match written).mp ⟨s, staged, read⟩
    obtain ⟨l, joined, rfl⟩ := List.mem_map.mp added
    rw [added?_lookup]
    exact fun same => h p filtered path named l joined (Option.some.inj same)

/-! ### Pipelines -/

/-- A pipeline reads the rows of joined tables only behind their lookups exactly if the filter names
no column of a joined table, and no join a column of a table that is joined later. -/
theorem pipeline_readsBehindLookups_iff (rendered : pipeline d = .ok stages) :
    ReadsBehindLookups stages ↔
      (∀ p ∈ d.filter, ∀ field ∈ p.leaves.filterMap Predicate.field?, ∀ l ∈ d.joins,
        l.exposedAs ≠ firstSegment field) ∧
      d.joins.Pairwise fun earlier later =>
        later.exposedAs ≠ firstSegment earlier.localField := by
  obtain ⟨query, written, rfl⟩ := pipeline_eq_ok rendered
  rw [← List.append_assoc, readsBehindLookups_append fun s => added?_of_mem_finalStages,
    readsBehindLookups_match written, readsBehindLookups_lookups]

theorem pipeline_readsBehindLookups_iff_joined_order : ∃ d stages,
    compile {} "SELECT o.total FROM u JOIN o ON u.id = o.user_id WHERE age > 5 ORDER BY o.total" ∅ =
      .ok d ∧ pipeline d = .ok stages ∧ ReadsBehindLookups stages := by
  let d : Descriptor := {
    kind := .select
    table := "u"
    filter := some (.comparison "age" .gt (.int 5))
    projection := .ofList [("o.total", true), ("_id", false)]
    joins := [⟨"o", "id", "user_id", "o"⟩]
    orderBy := [⟨"o.total", .asc⟩] }
  obtain ⟨stages, rendered⟩ : ∃ stages, pipeline d = .ok stages := ⟨_, rfl⟩
  refine ⟨d, stages, by decide +kernel, rendered, ?_⟩
  exact (pipeline_readsBehindLookups_iff rendered).mpr ⟨by decide, by decide⟩

/-- A filter on a joined column reads it in front of the lookup. -/
theorem not_forall_readsBehindLookups :
    ¬ ∀ (settings : Settings) (text : String) (params : Params) (d : Descriptor)
      (stages : List Json), compile settings text params = .ok d → d.kind = .select →
      d.joins ≠ [] → pipeline d = .ok stages → ReadsBehindLookups stages := by
  intro all
  let d : Descriptor := {
    kind := .select
    table := "users"
    filter := some (.comparison "o.total" .gt (.int 5))
    joins := [⟨"orders", "id", "user_id", "o"⟩] }
  have compiled : compile {}
      "SELECT * FROM users u JOIN orders o ON u.id = o.user_id WHERE o.total > 5" ∅ = .ok d := by
    decide +kernel
  have behind := all _ _ _ d _ compiled rfl (by decide) rfl
  obtain ⟨first, _⟩ := List.pairwise_cons.mp behind
  have apart := first _ (List.mem_singleton.mpr rfl) "o.total" (by decide)
  exact apart (by decide)

end SqlBridge.Document
