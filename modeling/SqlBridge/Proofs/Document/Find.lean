import SqlBridge.Proofs.Document.Pipeline
import SqlBridge.Proofs.Json.Record

/-!
# The find command and the pipeline of a selection

A selection is written in two ways, as a command and as a pipeline. Both fail alike. Without joins
the command is a find command that has a key for each stage of the pipeline, with the body of the
stage; with joins it is the aggregation that runs the pipeline.
-/

namespace SqlBridge.Document

def bodyOf? (key : String) (stages : List Json) : Option Json :=
  stages.findSome? (valueAt? key)

/-- The keys with the bodies that the stages of these keys have. -/
def bodies (stages : List Json) (keys : List String) : List (String × Option Json) :=
  keys.map fun key => (key, bodyOf? key stages)

def staged (parts : List (String × Option Json)) : List Json :=
  (Json.present parts).map fun part => .obj [part]

variable {d : Descriptor} {stages others : List Json} {query o : Option Json} {key other : String}

theorem stage_eq_staged : stage key o = staged [(key, o)] := by
  cases o <;> rfl

theorem staged_append (parts more : List (String × Option Json)) :
    staged (parts ++ more) = staged parts ++ staged more := by
  rw [staged, Json.present_append, List.map_append, staged, staged]

/-! ### Bodies of stages -/

theorem bodyOf?_append :
    bodyOf? key (stages ++ others) = (bodyOf? key stages).or (bodyOf? key others) :=
  List.findSome?_append

theorem bodyOf?_stage : bodyOf? key (stage key o) = o := by
  cases o <;> simp [bodyOf?, stage, valueAt?]

theorem bodyOf?_stage_of_ne (apart : key ≠ other) : bodyOf? key (stage other o) = none := by
  cases o <;> simp [bodyOf?, stage, valueAt?, List.lookup_cons, beq_false_of_ne apart]

theorem bodyOf?_lookups (apart : key ≠ "$lookup") : bodyOf? key (lookups d) = none := by
  refine List.findSome?_eq_none_iff.mpr fun s listed => ?_
  obtain ⟨l, _, rfl⟩ := List.mem_map.mp listed
  simp [valueAt?, List.lookup_cons, beq_false_of_ne apart]

/-- The bodies of the stages of a pipeline. -/
theorem bodyOf?_pipeline (rendered : pipeline d = .ok stages) :
    filterDocument? d = .ok (bodyOf? "$match" stages) ∧ bodyOf? "$sort" stages = sort? d ∧
      bodyOf? "$skip" stages = skip? d ∧ bodyOf? "$limit" stages = take? d ∧
      bodyOf? "$project" stages = projection? d := by
  obtain ⟨query, written, rfl⟩ := pipeline_eq_ok rendered
  refine ⟨?_, ?_, ?_, ?_, ?_⟩
  all_goals simp [written, finalStages, bodyOf?_append, bodyOf?_lookups, bodyOf?_stage,
    bodyOf?_stage_of_ne]

/-! ### Stages and keys -/

/-- The stages of a pipeline in their order, each of them there at most once but for the lookups. -/
theorem pipeline_eq_staged (rendered : pipeline d = .ok stages) :
    stages = staged (bodies stages ["$match"]) ++ (lookups d
      ++ staged (bodies stages ["$sort", "$skip", "$limit", "$project"])) := by
  obtain ⟨written, sorts, skips, takes, projects⟩ := bodyOf?_pipeline rendered
  obtain ⟨query, known, same⟩ := pipeline_eq_ok rendered
  obtain rfl : query = bodyOf? "$match" stages := Except.ok.inj (known.symm.trans written)
  have final : finalStages d =
      staged (bodies stages ["$sort", "$skip", "$limit", "$project"]) := by
    rw [finalStages, ← sorts, ← skips, ← takes, ← projects]
    simp only [stage_eq_staged, ← staged_append]
    rfl
  rw [← final]
  exact same.trans (by rw [stage_eq_staged]; rfl)

/-- A find command has the bodies of the stages of the pipeline. -/
theorem find_eq_present (rendered : pipeline d = .ok stages) :
    find d (bodyOf? "$match" stages) = .obj (("find", .str d.table) :: Json.present
      [("filter", bodyOf? "$match" stages), ("projection", bodyOf? "$project" stages),
        ("sort", bodyOf? "$sort" stages), ("skip", bodyOf? "$skip" stages),
        ("limit", bodyOf? "$limit" stages)]) := by
  obtain ⟨_, sorts, skips, takes, projects⟩ := bodyOf?_pipeline rendered
  have single (key : String) (o : Option Json) : field key o = Json.present [(key, o)] := by
    cases o <;> rfl
  rw [find, ← sorts, ← skips, ← takes, ← projects]
  simp only [single, List.append_assoc, ← Json.present_append]
  rfl

/-! ### Commands -/

/-- Only the filter of a pipeline can fail. -/
theorem pipeline_eq_error_iff {e : Error} :
    pipeline d = .error e ↔ filterDocument? d = .error e := by
  cases written : filterDocument? d with
  | error x => simp [pipeline, written, bind, Except.bind]
  | ok query => simp [pipeline, written, bind, Except.bind, pure, Except.pure]

theorem command_of_pipeline_eq_error {e : Error} (failed : pipeline d = .error e) :
    command d = .error e := by
  rw [command, pipeline_eq_error_iff.mp failed]
  rfl

theorem command_of_pipeline (selects : d.kind = .select) (rendered : pipeline d = .ok stages) :
    command d = .ok (if d.joins = [] then find d (bodyOf? "$match" stages)
      else aggregate d.table stages) := by
  rw [command, (bodyOf?_pipeline rendered).1, selects]
  cases joined : d.joins with
  | nil => simp [bind, Except.bind, pure, Except.pure]
  | cons l ls => simp [rendered, bind, Except.bind, pure, Except.pure]

/-- The command of a selection fails as its pipeline does. Without joins it is a find command with a
key for each stage of the pipeline, and with joins the aggregation of the pipeline, in which the
lookups of the joins stand behind the filter. -/
theorem command_select_agrees (selects : d.kind = .select) :
    ((∃ c, command d = .ok c) ↔ ∃ stages, pipeline d = .ok stages) ∧
    (∀ e, command d = .error e ↔ pipeline d = .error e) ∧
    ∀ stages, pipeline d = .ok stages →
      stages = staged (bodies stages ["$match"])
        ++ (d.joins.map (fun l => .obj [("$lookup", lookup l)])
          ++ staged (bodies stages ["$sort", "$skip", "$limit", "$project"])) ∧
      (d.joins = [] → command d = .ok (.obj (("find", .str d.table) :: Json.present
        [("filter", bodyOf? "$match" stages), ("projection", bodyOf? "$project" stages),
          ("sort", bodyOf? "$sort" stages), ("skip", bodyOf? "$skip" stages),
          ("limit", bodyOf? "$limit" stages)]))) ∧
      (d.joins ≠ [] → command d = .ok (.obj [("aggregate", .str d.table),
        ("pipeline", .arr stages), ("cursor", .obj [])])) := by
  cases rendered : pipeline d with
  | error e =>
    have failed := command_of_pipeline_eq_error rendered
    simp [failed]
  | ok stages =>
    have written := command_of_pipeline selects rendered
    refine ⟨by simp [written], by simp [written], ?_⟩
    rintro _ ⟨rfl⟩
    refine ⟨pipeline_eq_staged rendered, fun none => ?_, fun some => ?_⟩
    · rw [written, if_pos none, find_eq_present rendered]
    · rw [written, if_neg some, aggregate]

theorem command_select_agrees_skipped_rows : ∃ d stages,
    compile {} "SELECT a, b AS c FROM t WHERE a > 5 ORDER BY b DESC LIMIT 2, 3" ∅ = .ok d ∧
      d.kind = .select ∧ pipeline d = .ok stages ∧ stages.length = 5 ∧
      command d = .ok (.obj [("find", .str "t"), ("filter", .obj [("a", .obj [("$gt", .int 5)])]),
        ("projection", .obj [("a", .int 1), ("c", .str "$b"), ("_id", .int 0)]),
        ("sort", .obj [("b", .int (-1))]), ("skip", .int 2), ("limit", .int 3)]) := by
  let d : Descriptor := {
    kind := .select
    table := "t"
    filter := some (.comparison "a" .gt (.int 5))
    projection := .ofList [("a", true), ("b", true), ("_id", false)]
    aliases := .ofList [("c", "b")]
    orderBy := [⟨"b", .desc⟩]
    limit := some ⟨2, 3⟩ }
  obtain ⟨stages, rendered, bodies⟩ : ∃ stages, pipeline d = .ok stages ∧ stages.length = 5 :=
    ⟨_, rfl, rfl⟩
  refine ⟨d, stages, by decide +kernel, rfl, rendered, bodies, ?_⟩
  have selects : d.kind = .select := rfl
  obtain ⟨_, found, _⟩ := (command_select_agrees selects).2.2 stages rendered
  rw [found rfl]
  cases rendered
  rfl

end SqlBridge.Document
