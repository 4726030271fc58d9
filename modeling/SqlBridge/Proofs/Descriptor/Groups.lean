import SqlBridge.Descriptor.Encoding
import SqlBridge.Proofs.Document.Connective
import SqlBridge.Proofs.Json.Rereading
import SqlBridge.Proofs.Sql.Parentheses

/-!
# Groups that are read

The parser of conditions makes groups of two children or more. Reading JSON is the other way to a
predicate, and it takes a group of any number of children, as its record lists them. What is
rendered then has parentheses around nothing, or a connective over an empty list, exactly if some
record lists no children.
-/

namespace SqlBridge

open Json

namespace Predicate

/-- What comes of a predicate that is read from a JSON value. -/
structure Follows (v : Json) (p : Predicate) : Prop where
  grouped_iff : p.Grouped ↔ ListsAtLeast 2 false v
  text_filled : ∀ ps, Sql.predicate p = .ok ps → ∃ ls,
    Sql.lexemes? (Sql.Query.ofParts ps).text = some ls ∧
      (Sql.PairsFilled ls ↔ ListsAtLeast 1 false v)
  document_filled : ∀ j, Document.filter p = .ok j →
    (Document.ConnectivesFilled j ↔ ListsAtLeast 1 false v)

variable {readValue : Json → Option Value} {outer n : Nat} {v : Json} {p : Predicate}

theorem joinsAtLeast_iff_of_decodeWithin? (h : decodeWithin? outer readValue v = some p) :
    p.JoinsAtLeast n ↔ ListsAtLeast n false v := by
  rw [decodeWithin?] at h
  split at h
  · exact joinsAtLeast_iff_of_decode? h
  · cases h

theorem follows_of_decodeWithin? (h : decodeWithin? outer readValue v = some p) : p.Follows v where
  grouped_iff := by rw [← joinsAtLeast_two_iff, joinsAtLeast_iff_of_decodeWithin? h]
  text_filled ps written := by
    rw [← joinsAtLeast_iff_of_decodeWithin? h]
    exact Sql.pairsFilled_of_predicate written
  document_filled j written := by
    rw [← joinsAtLeast_iff_of_decodeWithin? h]
    exact Document.connectivesFilled_filter_iff written

end Predicate

namespace Descriptor

/-- The value is a record of a descriptor that has this filter. -/
inductive GivesFilter : Json → Json → Prop where
  | object {fields : Fields} {w : Json} (listed : ("filter", w) ∈ fields) :
      GivesFilter (.obj fields) w
  | array {kind table w : Json} {others : List Json} :
      GivesFilter (.arr (kind :: table :: w :: others)) w

/-- Every group in the filter of a record lists `n` children at least. -/
def FilterListsAtLeast (n : Nat) (v : Json) : Prop :=
  ∀ w, GivesFilter v w → Predicate.ListsAtLeast n false w

/-- What comes of a descriptor that is read from a JSON value. Insertions and calls do not say their
filter. -/
structure Follows (v : Json) (d : Descriptor) : Prop where
  grouped_iff : (∀ p ∈ d.filter, p.Grouped) ↔ FilterListsAtLeast 2 v
  text_filled : d.kind ≠ .insert ∧ d.kind ≠ .procedure → ∀ q, Sql.render d = .ok q → ∃ ls,
    Sql.lexemes? q.text = some ls ∧ (Sql.PairsFilled ls ↔ FilterListsAtLeast 1 v)
  command_filled : d.kind ≠ .insert ∧ d.kind ≠ .procedure → ∀ c, Document.command d = .ok c →
    (Document.ConnectivesFilled c ↔ FilterListsAtLeast 1 v)
  pipeline_filled : ∀ stages, Document.pipeline d = .ok stages →
    ((∀ s ∈ stages, Document.ConnectivesFilled s) ↔ FilterListsAtLeast 1 v)

variable {v : Json} {d : Descriptor} {n : Nat}

/-- The fields of a record have the filter that it gives. -/
theorem givesFilter_iff {fields : Fields} (h : v.record? fieldNames = some fields) (w : Json) :
    GivesFilter v w ↔ ("filter", w) ∈ fields := by
  cases v with
  | obj fields' =>
    obtain rfl := Option.some.inj h
    constructor
    · rintro ⟨listed⟩
      exact listed
    · exact .object
  | arr elements =>
    obtain ⟨_, ordered⟩ := Option.ite_none_right_eq_some.mp h
    obtain rfl := Option.some.inj ordered
    constructor
    · rintro ⟨⟩
      simp [fieldNames]
    · intro listed
      rcases elements with _ | ⟨kind, _ | ⟨table, _ | ⟨filter, others⟩⟩⟩
      · simp [fieldNames] at listed
      · simp [fieldNames] at listed
      · simp [fieldNames] at listed
      · have apart : ("filter", w) ∉ (fieldNames.drop 3).zip others :=
          fun other => absurd (List.of_mem_zip other).1 (by decide)
        have split : fieldNames.zip (kind :: table :: filter :: others) = ("kind", kind) ::
            ("table", table) :: ("filter", filter) :: (fieldNames.drop 3).zip others := rfl
        obtain rfl : w = filter := by simpa [split, apart] using listed
        exact .array
  | _ => cases h

theorem filter_of_decode? (h : decode? v = some d) :
    ∃ fields, v.record? fieldNames = some fields ∧ Fields.withDefault? fields "filter" none
      (nullable? (Predicate.decodeWithin? 1 Value.ofJson?)) = some d.filter := by
  obtain ⟨fields, record, h⟩ := Option.bind_eq_some_iff.mp h
  obtain ⟨_, _, h⟩ := Option.bind_eq_some_iff.mp h
  obtain ⟨_, _, h⟩ := Option.bind_eq_some_iff.mp h
  obtain ⟨_, read, h⟩ := Option.bind_eq_some_iff.mp h
  -- the parts behind the filter
  iterate 9 obtain ⟨_, _, h⟩ := Option.bind_eq_some_iff.mp h
  obtain rfl := Option.some.inj h
  exact ⟨fields, record, read⟩

/-- The groups of a descriptor are as small as those of the record it is read from. -/
theorem joinsAtLeast_iff_of_decode? (h : decode? v = some d) :
    (∀ p ∈ d.filter, p.JoinsAtLeast n) ↔ FilterListsAtLeast n v := by
  obtain ⟨fields, record, read⟩ := filter_of_decode? h
  simp only [FilterListsAtLeast, givesFilter_iff record]
  rcases withDefault?_eq_some read with ⟨absent, none⟩ | ⟨w, only, read⟩
  · rw [none]
    exact iff_of_true (by simp) fun w listed => absurd listed (absent w)
  · simp only [only, forall_eq]
    rcases nullable?_eq_some read with ⟨rfl, none⟩ | ⟨p, read, filtered⟩
    · rw [none]
      refine iff_of_true (by simp) (Predicate.listsAtLeast_of_not_lists ?_)
      rintro children ⟨⟩
    · rw [filtered, ← Predicate.joinsAtLeast_iff_of_decodeWithin? read]
      simp

theorem follows_of_decode? (h : decode? v = some d) : d.Follows v where
  grouped_iff := by
    rw [← joinsAtLeast_iff_of_decode? h]
    simp only [Predicate.joinsAtLeast_two_iff]
  text_filled filters q rendered := by
    rw [← joinsAtLeast_iff_of_decode? h]
    exact Sql.pairsFilled_of_render filters rendered
  command_filled filters c rendered := by
    rw [← joinsAtLeast_iff_of_decode? h]
    exact Document.connectivesFilled_command_iff filters rendered
  pipeline_filled stages rendered := by
    rw [← joinsAtLeast_iff_of_decode? h]
    exact Document.connectivesFilled_pipeline_iff rendered

end Descriptor

/-- A predicate or a descriptor that is read from a JSON text has the groups that the text lists,
and is rendered with them. -/
theorem follows_of_parse (text : String) :
    (∀ p, (parse? text).bind (Predicate.decodeWithin? 0 Value.ofJson?) = some p →
      ∃ v, parse? text = some v ∧ p.Follows v) ∧
    ∀ d, (parse? text).bind Descriptor.decode? = some d →
      ∃ v, parse? text = some v ∧ d.Follows v := by
  constructor
  · intro p read
    obtain ⟨v, parsed, decoded⟩ := Option.bind_eq_some_iff.mp read
    exact ⟨v, parsed, Predicate.follows_of_decodeWithin? decoded⟩
  · intro d read
    obtain ⟨v, parsed, decoded⟩ := Option.bind_eq_some_iff.mp read
    exact ⟨v, parsed, Descriptor.follows_of_decode? decoded⟩

/-- Inside a group of two children one has none. It is given by an array, its form by its number and
its connective by an object; the descriptor around them is an array as well. -/
theorem follows_of_parse_inner_group :
    let inner : Json := .arr [.int 2, .obj [("and", .null)], .arr []]
    let other : Json := .obj [("type", .str "comparison"), ("field", .str "a"),
      ("operator", .str "eq"), ("value", .str "b")]
    let group : Json := .obj [("type", .str "group"), ("logic", .str "or"),
      ("children", .arr [inner, other])]
    let whole : Json := .arr [.str "delete", .str "t", group]
    (∃ p, (parse? group.compact).bind (Predicate.decodeWithin? 0 Value.ofJson?) = some p ∧
      ¬p.Grouped) ∧
    ∃ d q ls, (parse? whole.compact).bind Descriptor.decode? = some d ∧ Sql.render d = .ok q ∧
      Sql.lexemes? q.text = some ls ∧ ¬Sql.PairsFilled ls := by
  intro inner other group whole
  have small {n : Nat} (positive : 0 < n) : ¬Predicate.ListsAtLeast n false group := by
    intro h
    have two : Predicate.Lists false group [inner, other] :=
      .object List.mem_cons_self rfl (by simp)
    have outer := Predicate.listsAtLeast_iff.mp h [inner, other] two
    have nothing := Predicate.listsAtLeast_iff.mp (outer.2 inner (by simp)) [] (.array rfl)
    exact absurd nothing.1 (Nat.not_le.mpr positive)
  let p : Predicate := .group .or [.group .and [], .comparison "a" .eq (.str "b")]
  let d : Descriptor := { kind := .delete, table := "t", filter := some p }
  constructor
  · have parsed : parse? group.compact = some group := by
      rw [parse?, parseWith?_compact]
      rfl
    have read : (parse? group.compact).bind (Predicate.decodeWithin? 0 Value.ofJson?) = some p := by
      rw [parsed]
      rfl
    obtain ⟨v, same, follows⟩ := (follows_of_parse group.compact).1 p read
    obtain rfl := Option.some.inj (same.symm.trans parsed)
    exact ⟨p, read, follows.grouped_iff.not.mpr (small Nat.two_pos)⟩
  · have parsed : parse? whole.compact = some whole := by
      rw [parse?, parseWith?_compact]
      rfl
    have read : (parse? whole.compact).bind Descriptor.decode? = some d := by
      rw [parsed]
      rfl
    obtain ⟨v, same, follows⟩ := (follows_of_parse whole.compact).2 d read
    obtain rfl := Option.some.inj (same.symm.trans parsed)
    obtain ⟨ls, scanned, filled⟩ := follows.text_filled (by decide) _ rfl
    refine ⟨d, _, ls, read, rfl, scanned, filled.not.mpr fun all => ?_⟩
    exact small Nat.one_pos (all group .array)

/-- A descriptor is read although its only group has no children, and it is rendered. -/
theorem not_grouped_of_parse_empty_group : ∃ d p,
    (parse? (obj [("kind", .str "delete"), ("table", .str "t"), ("filter", .obj
      [("type", .str "group"), ("logic", .str "and"), ("children", .arr [])])]).compact).bind
        Descriptor.decode? = some d ∧
    d.filter = some p ∧ ¬p.Grouped ∧
    Sql.render d = .ok ⟨"DELETE FROM \"t\" WHERE ()", []⟩ ∧
    Document.command d = .ok (.obj [("delete", .str "t"), ("deletes", .arr [.obj
      [("q", .obj [("$and", .arr [])]), ("limit", .int 0)]])]) := by
  let p : Predicate := .group .and []
  let d : Descriptor := { kind := .delete, table := "t", filter := some p }
  have single : ¬p.Grouped := by
    rw [← Predicate.joinsAtLeast_two_iff, Predicate.joinsAtLeast_group_iff]
    simp
  refine ⟨d, p, ?_, rfl, single, ?_, rfl⟩
  · rw [parse?, parseWith?_compact]
    rfl
  · decide +kernel

end SqlBridge
