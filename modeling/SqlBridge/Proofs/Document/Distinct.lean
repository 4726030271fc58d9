import Mathlib.Data.List.Nodup
import SqlBridge.Document.Render
import SqlBridge.Proofs.OrderedMap
import SqlBridge.Statement.Compile

/-!
# What the command of a distinct selection keeps

A distinct selection may have a filter, joins, an order and a limit. Its command always keeps the
filter. The other clauses only have a place in the pipeline of an aggregation, which a single column
does not get, and joins have none even there.
-/

namespace SqlBridge

namespace OrderedMap

universe u

variable {β : Type u} {es : List (String × β)}

/-- A map of a list has all of its entries exactly if no key has two values in the list. -/
theorem forall_mem_entries_ofList_iff : (∀ e ∈ es, e ∈ (ofList es).entries) ↔
    ∀ e ∈ es, ∀ f ∈ es, e.1 = f.1 → e = f := by
  constructor
  · intro all e he f hf same
    exact List.inj_on_of_nodup_map (ofList es).nodup (all e he) (all f hf) same
  · rintro single ⟨k, v⟩ listed
    have present : (ofList es).contains k = true :=
      contains_ofList.mpr (List.mem_map_of_mem (f := Prod.fst) listed)
    obtain ⟨w, _, entry⟩ := get?_of_contains present
    rwa [single (k, v) listed (k, w) (mem_entries_ofList entry) rfl]

end OrderedMap

namespace Document

/-! ### Commands -/

def valueAt? (key : String) : Json → Option Json
  | .obj fields => fields.lookup key
  | _ => none

def stagesOf (c : Json) : List Json :=
  match valueAt? "pipeline" c with
  | some (.arr stages) => stages
  | _ => []

/-- A clause stands in a command: under a key of the command, or as a stage of its pipeline. -/
def Says (c : Json) (key stage : String) (body : Json) : Prop :=
  valueAt? key c = some body ∨ .obj [(stage, body)] ∈ stagesOf c

def sortEntry (e : OrderElement) : String × Json :=
  (e.field, .int (match e.direction with | .asc => 1 | .desc => -1))

/-- Every clause of a selection stands in its command. -/
structure Reflects (d : Descriptor) (c : Json) : Prop where
  filtered : ∀ p ∈ d.filter, ∃ q, filter p = .ok q ∧ Says c "query" "$match" q
  joined : ∀ l ∈ d.joins, Says c "lookup" "$lookup" (lookup l)
  ordered : ∀ e ∈ d.orderBy, ∃ entries, Says c "sort" "$sort" (.obj entries) ∧
    sortEntry e ∈ entries
  limited : ∀ l ∈ d.limit, Says c "limit" "$limit" (.int l.count.toNat) ∧
    (0 < l.offset.toNat → Says c "skip" "$skip" (.int l.offset.toNat))

variable {d : Descriptor} {query : Option Json} {c : Json} {table key other : String}
  {stages : List Json} {body : Json} {o : Option Json}

theorem mem_stage : .obj [(other, body)] ∈ stage key o ↔ other = key ∧ o = some body := by
  cases o <;> simp [stage, eq_comm]

theorem sortEntry_inj {e f : OrderElement} : sortEntry e = sortEntry f ↔ e = f := by
  obtain ⟨field, direction⟩ := e
  obtain ⟨field', direction'⟩ := f
  cases direction <;> cases direction' <;> simp [sortEntry]

/-- The document of a filter is the one of its predicate. -/
theorem filter_of_written {p : Predicate} (filtered : d.filter = some p)
    (written : filterDocument? d = .ok query) : ∃ q, filter p = .ok q ∧ query = some q := by
  rw [filterDocument?, filtered] at written
  cases found : filter p with
  | error e => simp [found, Except.map] at written
  | ok q =>
    simp only [found, Except.map, Except.ok.injEq] at written
    exact ⟨q, rfl, written.symm⟩

/-! ### A single column -/

theorem distinct_single (single : d.included = [key]) :
    distinct d query = .obj [("distinct", .str (d.distinctOn.getD d.table)), ("key", .str key),
      ("query", query.getD (.obj []))] := by
  simp only [distinct, single]

/-- The command of a single column says nothing but its filter. -/
theorem not_says_distinct (single : d.included = [key])
    (apart : other ∉ ["distinct", "key", "query"]) (stage : String) :
    ¬ Says (distinct d query) other stage body := by
  simp only [List.mem_cons, List.not_mem_nil, or_false, not_or] at apart
  obtain ⟨first, second, third⟩ := apart
  rw [distinct_single single]
  rintro (found | listed)
  · simp [valueAt?, List.lookup_cons, beq_false_of_ne, first, second, third] at found
  · cases listed

theorem reflects_single_iff (single : d.included = [key])
    (written : filterDocument? d = .ok query) :
    Reflects d (distinct d query) ↔ d.joins = [] ∧ d.orderBy = [] ∧ d.limit = none := by
  constructor
  · intro h
    refine ⟨?_, ?_, ?_⟩
    · refine List.eq_nil_iff_forall_not_mem.mpr fun l listed => ?_
      exact not_says_distinct single (by decide) _ (h.joined l listed)
    · refine List.eq_nil_iff_forall_not_mem.mpr fun e listed => ?_
      obtain ⟨_, said, _⟩ := h.ordered e listed
      exact not_says_distinct single (by decide) _ said
    · refine Option.eq_none_iff_forall_ne_some.mpr fun l limited => ?_
      exact not_says_distinct single (by decide) _ (h.limited l limited).1
  · rintro ⟨joins, orderBy, limit⟩
    constructor
    case filtered =>
      intro p filtered
      obtain ⟨q, found, rfl⟩ := filter_of_written filtered written
      rw [distinct_single single]
      exact ⟨q, found, .inl rfl⟩
    all_goals simp [joins, orderBy, limit]

/-! ### Several columns -/

def distinctStages (d : Descriptor) (query : Option Json) : List Json :=
  stage "$match" query
    ++ [.obj [("$group", .obj [("_id", groupBody d.included)])],
      .obj [("$replaceRoot", .obj [("newRoot", .str "$_id")])]]
    ++ stage "$sort" (sort? d) ++ stage "$skip" (skip? d) ++ stage "$limit" (take? d)

theorem distinct_several (several : ∀ key, d.included ≠ [key]) :
    distinct d query = aggregate (d.distinctOn.getD d.table) (distinctStages d query) := by
  rw [distinct]
  split
  · next key single => exact absurd single (several key)
  · rfl

/-- A clause stands in an aggregation exactly as a stage. -/
theorem says_aggregate (apart : key ∉ ["aggregate", "pipeline", "cursor"]) :
    Says (aggregate table stages) key other body ↔ .obj [(other, body)] ∈ stages := by
  simp only [List.mem_cons, List.not_mem_nil, or_false, not_or] at apart
  obtain ⟨first, second, third⟩ := apart
  have absent : valueAt? key (aggregate table stages) = none := by
    simp [valueAt?, aggregate, List.lookup_cons, beq_false_of_ne, first, second, third]
  rw [Says, absent]
  exact or_iff_right nofun

theorem sort?_eq (some : d.orderBy ≠ []) :
    sort? d = .some (.obj (OrderedMap.ofList (d.orderBy.map sortEntry)).entries) := by
  rw [sort?, if_neg (by simpa using some), document]
  rfl

/-- The sort document has every element exactly if no field is ordered by in both directions. -/
theorem forall_mem_sort_iff :
    (∀ e ∈ d.orderBy, ∃ entries, sort? d = some (.obj entries) ∧ sortEntry e ∈ entries) ↔
      ∀ e ∈ d.orderBy, ∀ f ∈ d.orderBy, e.field = f.field → e = f := by
  have entries :
      (∀ e ∈ d.orderBy.map sortEntry, e ∈ (OrderedMap.ofList (d.orderBy.map sortEntry)).entries) ↔
        ∀ e ∈ d.orderBy.map sortEntry, ∀ f ∈ d.orderBy.map sortEntry, e.1 = f.1 → e = f :=
    OrderedMap.forall_mem_entries_ofList_iff
  simp only [List.forall_mem_map, sortEntry_inj] at entries
  refine Iff.trans (forall₂_congr fun e listed => ?_) entries
  rw [sort?_eq (List.ne_nil_of_mem listed)]
  simp

/-- Besides the grouping the command says its filter, its order and its limit. -/
theorem says_distinct_iff (several : ∀ key, d.included ≠ [key])
    (apart : key ∉ ["aggregate", "pipeline", "cursor"])
    (different : other ∉ ["$group", "$replaceRoot"]) :
    Says (distinct d query) key other body ↔
      (other = "$match" ∧ query = some body) ∨ (other = "$sort" ∧ sort? d = some body) ∨
        (other = "$skip" ∧ skip? d = some body) ∨ (other = "$limit" ∧ take? d = some body) := by
  simp only [List.mem_cons, List.not_mem_nil, or_false, not_or] at different
  rw [distinct_several several, says_aggregate apart]
  simp only [distinctStages, List.mem_append, mem_stage, List.mem_cons, List.not_mem_nil, or_false,
    Json.obj.injEq, List.cons.injEq, Prod.mk.injEq, and_true, different.1, different.2, false_and,
    or_assoc]

theorem reflects_several_iff (several : ∀ key, d.included ≠ [key])
    (written : filterDocument? d = .ok query) :
    Reflects d (distinct d query) ↔ d.joins = [] ∧
      ∀ e ∈ d.orderBy, ∀ f ∈ d.orderBy, e.field = f.field → e = f := by
  have sorted : ∀ body, Says (distinct d query) "sort" "$sort" body ↔ sort? d = some body := by
    intro body
    rw [says_distinct_iff several (by decide) (by decide)]
    simp
  rw [← forall_mem_sort_iff]
  constructor
  · intro h
    refine ⟨List.eq_nil_iff_forall_not_mem.mpr fun l listed => ?_, fun e listed => ?_⟩
    · have joined := h.joined l listed
      rw [says_distinct_iff several (by decide) (by decide)] at joined
      simp at joined
    · obtain ⟨entries, said, entry⟩ := h.ordered e listed
      exact ⟨entries, (sorted _).mp said, entry⟩
  · rintro ⟨joins, orderBy⟩
    constructor
    case filtered =>
      intro p filtered
      obtain ⟨q, found, rfl⟩ := filter_of_written filtered written
      exact ⟨q, found, (says_distinct_iff several (by decide) (by decide)).mpr (.inl ⟨rfl, rfl⟩)⟩
    case joined => simp [joins]
    case ordered =>
      intro e listed
      obtain ⟨entries, found, entry⟩ := orderBy e listed
      exact ⟨entries, (sorted _).mpr found, entry⟩
    case limited =>
      intro l limited
      rw [says_distinct_iff several (by decide) (by decide),
        says_distinct_iff several (by decide) (by decide), take?, skip?, Option.mem_def.mp limited]
      simp [Nat.pos_iff_ne_zero]

/-! ### The command -/

/-- The command of a distinct selection has every clause exactly if there are no joins, a single
column is neither ordered nor limited, and no field is ordered by in both directions. -/
theorem command_reflects_iff (kind : d.kind = .command) (rendered : command d = .ok c) :
    Reflects d c ↔ d.joins = [] ∧
      (d.included.length = 1 → d.orderBy = [] ∧ d.limit = none) ∧
      ∀ e ∈ d.orderBy, ∀ f ∈ d.orderBy, e.field = f.field → e = f := by
  have found : ∃ query, filterDocument? d = .ok query ∧ c = distinct d query := by
    rw [command, kind] at rendered
    cases written : filterDocument? d with
    | error e => simp [written, bind, Except.bind] at rendered
    | ok query =>
      rw [written] at rendered
      exact ⟨query, rfl, (Except.ok.inj rendered).symm⟩
  obtain ⟨query, written, rfl⟩ := found
  by_cases single : ∃ key, d.included = [key]
  · obtain ⟨key, single⟩ := single
    rw [reflects_single_iff single written, single]
    simp +contextual
  · have several : ∀ key, d.included ≠ [key] := fun key same => single ⟨key, same⟩
    have length : d.included.length ≠ 1 := by
      rw [ne_eq, List.length_eq_one_iff]
      exact single
    rw [reflects_several_iff several written]
    simp [length]

theorem command_reflects_iff_two_columns :
    ∃ d c, compile {} "SELECT DISTINCT a, b FROM t WHERE a > 1 ORDER BY b DESC LIMIT 2, 3" ∅ =
        .ok d ∧ d.kind = .command ∧ command d = .ok c ∧ Reflects d c := by
  have compiles :
      compile {} "SELECT DISTINCT a, b FROM t WHERE a > 1 ORDER BY b DESC LIMIT 2, 3" ∅ = .ok {
        kind := .command
        table := "t"
        filter := some (.comparison "a" .gt (.int 1))
        projection := .ofList [("a", true), ("b", true), ("_id", false)]
        orderBy := [⟨"b", .desc⟩]
        limit := some ⟨2, 3⟩
        distinctOn := some "t" } := by
    decide +kernel
  refine ⟨_, _, compiles, rfl, rfl, (command_reflects_iff rfl rfl).mpr ⟨rfl, nofun, ?_⟩⟩
  decide

/-- A distinct selection of one column loses its order and its limit. -/
theorem not_forall_command_reflects :
    ¬ ∀ (settings : Settings) (text : String) (params : Params) (d : Descriptor) (c : Json),
      compile settings text params = .ok d → d.kind = .command → command d = .ok c →
        Reflects d c := by
  intro all
  have compiles : compile {} "SELECT DISTINCT a FROM t ORDER BY a LIMIT 5" ∅ = .ok {
      kind := .command
      table := "t"
      projection := .ofList [("a", true), ("_id", false)]
      orderBy := [⟨"a", .asc⟩]
      limit := some ⟨0, 5⟩
      distinctOn := some "t" } := by
    decide +kernel
  have reflects := all _ _ _ _ _ compiles rfl rfl
  obtain ⟨said | staged, _⟩ := reflects.limited _ rfl
  · cases said
  · cases staged

end Document

end SqlBridge
