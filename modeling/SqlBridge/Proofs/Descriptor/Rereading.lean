import SqlBridge.Descriptor.Encoding
import SqlBridge.Proofs.Descriptor.Failure
import SqlBridge.Proofs.Predicate.Rereading

/-!
# Reading descriptors back

A descriptor is read back from its JSON text exactly if the values in it are and its filter does
not nest too deep. What a compiled descriptor holds are bound values, so only its floats may be
lost: the text of one may be read as a float next to it, and a number that is not finite is written
as null.
-/

namespace SqlBridge

open Json

variable {float? : Numeral → Option Binary64}

/-! ### Parts of the text -/

section Parts

variable {α : Type} (name : String) (encode : α → Json)

theorem optionalField_eq (part : Option α) :
    optionalField name encode part = present [(name, part.map encode)] := by
  cases part <;> rfl

theorem listField_eq (xs : List α) :
    listField name encode xs = present [(name, listPart encode xs)] := by
  cases xs <;> rfl

theorem mapField_eq (m : OrderedMap α) :
    mapField name encode m = present [(name, mapPart encode m)] := by
  unfold mapField mapPart
  split <;> rfl

end Parts

theorem Lookup.decode?_encode (l : Lookup) : Lookup.decode? l.encode = some l := by
  simp [Lookup.encode, Lookup.decode?, record?, Fields.required?, str?]

theorem OrderElement.decode?_encode (e : OrderElement) :
    OrderElement.decode? e.encode = some e := by
  have named : (name? (.str e.direction.name)).bind Direction.ofName? = some e.direction :=
    Direction.ofName?_name e.direction
  simp [OrderElement.encode, OrderElement.decode?, record?, Fields.required?, str?, named]

theorem Limit.decode?_encode (l : Limit) : Limit.decode? l.encode = some l := by
  have offset : Fields.required? [("offset", .int l.offset.toNat), ("count", .int l.count.toNat)]
      "offset" uint64? = some l.offset := uint64?_toNat l.offset
  have count : Fields.required? [("offset", .int l.offset.toNat), ("count", .int l.count.toNat)]
      "count" uint64? = some l.count := uint64?_toNat l.count
  rw [Limit.encode, Limit.decode?, record?, Option.bind_eq_bind, Option.bind_some, offset,
    Option.bind_eq_bind, Option.bind_some, count]
  rfl

namespace Descriptor

/-- The parts of the text of a descriptor, with other texts for its filter and its fields. -/
def partsWith (d : Descriptor) (filter fields : Option Json) : List (String × Option Json) :=
  [("kind", some (.str d.kind.name)),
    ("table", if d.table.isEmpty then none else some (.str d.table)),
    ("filter", filter),
    ("fields", fields),
    ("projection", mapPart .bool d.projection),
    ("aliases", mapPart .str d.aliases),
    ("joins", listPart Lookup.encode d.joins),
    ("orderBy", listPart OrderElement.encode d.orderBy),
    ("limit", d.limit.map Limit.encode),
    ("ignoreOnConflict", some (.bool d.ignoreOnConflict)),
    ("procedureName", d.procedureName.map .str),
    ("distinctOn", d.distinctOn.map .str)]

theorem encode_eq (d : Descriptor) :
    d.encode = .obj (present (d.partsWith (d.filter.map Predicate.encode)
      (mapPart Value.encode d.fields))) := by
  have table : (if d.table.isEmpty then [] else [("table", Json.str d.table)]) =
      present [("table", if d.table.isEmpty then none else some (.str d.table))] := by
    split <;> rfl
  have always : ∀ name v, [(name, v)] = present [(name, some v)] := fun _ _ => rfl
  rw [encode, table, always "kind", always "ignoreOnConflict"]
  simp only [optionalField_eq, listField_eq, mapField_eq, ← present_append]
  rfl

/-- Reading the parts of a descriptor reads its filter and its fields; the others are as they
were. -/
theorem decodeWith?_partsWith (d : Descriptor) (readValue : Json → Option Value)
    (filter fields : Option Json) :
    decodeWith? readValue (.obj (present (d.partsWith filter fields))) =
      (filter.elim (some none) (nullable? (Predicate.decodeWithin? 1 readValue))).bind fun x =>
        (fields.elim (some ∅) (map? readValue)).map fun m =>
          { d with filter := x, fields := m } := by
  have distinct : ((d.partsWith filter fields).map Prod.fst).Nodup := by
    simp [partsWith]
  -- each name finds its own part, and each part is read by its own law
  have kind : (partAt (d.partsWith filter fields) "kind").bind
      (fun v => v.name?.bind StatementKind.ofName?) = some d.kind :=
    StatementKind.ofName?_name d.kind
  have table : (partAt (d.partsWith filter fields) "table").elim (some "") str? = some d.table := by
    change (if d.table.isEmpty then none else some (Json.str d.table)).elim (some "") str? = _
    split
    · next none => simpa using none
    · rfl
  have projection : (partAt (d.partsWith filter fields) "projection").elim (some ∅) (map? bool?) =
      some d.projection := elim_mapPart bool?_bool d.projection
  have aliases : (partAt (d.partsWith filter fields) "aliases").elim (some ∅) (map? str?) =
      some d.aliases := elim_mapPart str?_str d.aliases
  have joins : (partAt (d.partsWith filter fields) "joins").elim (some []) (list? Lookup.decode?) =
      some d.joins := elim_listPart Lookup.decode?_encode d.joins
  have orderBy : (partAt (d.partsWith filter fields) "orderBy").elim (some [])
      (list? OrderElement.decode?) = some d.orderBy :=
    elim_listPart OrderElement.decode?_encode d.orderBy
  have limit : (partAt (d.partsWith filter fields) "limit").elim (some none)
      (nullable? Limit.decode?) = some d.limit :=
    elim_optionalPart Limit.decode?_encode nofun d.limit
  have ignoreOnConflict : (partAt (d.partsWith filter fields) "ignoreOnConflict").elim (some false)
      bool? = some d.ignoreOnConflict := rfl
  have procedureName : (partAt (d.partsWith filter fields) "procedureName").elim (some none)
      (nullable? str?) = some d.procedureName :=
    elim_optionalPart str?_str nofun d.procedureName
  have distinctOn : (partAt (d.partsWith filter fields) "distinctOn").elim (some none)
      (nullable? str?) = some d.distinctOn :=
    elim_optionalPart str?_str nofun d.distinctOn
  have filtered : partAt (d.partsWith filter fields) "filter" = filter := rfl
  have given : partAt (d.partsWith filter fields) "fields" = fields := rfl
  simp only [decodeWith?, record?, Option.bind_eq_bind, Option.bind_some,
    required?_present distinct, withDefault?_present distinct, kind, table, projection, aliases,
    joins, orderBy, limit, ignoreOnConflict, procedureName, distinctOn, filtered, given]
  cases filter.elim (some none) (nullable? (Predicate.decodeWithin? 1 readValue)) <;>
    cases fields.elim (some ∅) (map? readValue) <;> rfl

/-! ### Parts read back -/

theorem reread?_lookup (l : Lookup) : reread? float? l.encode = some l.encode := rfl

theorem reread?_orderElement (e : OrderElement) : reread? float? e.encode = some e.encode := rfl

theorem reread?_limit (l : Limit) : reread? float? l.encode = some l.encode := by
  have number : ∀ n : UInt64, scalar? float? (n.toNat : Int).repr.toList = some (.int n.toNat) := by
    intro n
    have bounded := n.toNat_lt
    exact scalar?_int (by omega) (by omega)
  simp only [Limit.encode, reread?, rereadFields?, number]
  rfl

/-- The text of a descriptor is read back up to its filter and its fields. -/
theorem mapM_partsWith (d : Descriptor) (filter fields : Option Json) :
    ((d.partsWith filter fields).mapM fun part =>
        (rereadPart? float? part.2).map fun v => (part.1, v)) =
      (rereadPart? float? filter).bind fun x =>
        (rereadPart? float? fields).map fun m => d.partsWith x m := by
  have always : ∀ v, reread? float? v = some v → rereadPart? float? (some v) = some (some v) := by
    intro v kept
    rw [rereadPart?, Option.elim_some, kept, Option.map_some]
  have table : rereadPart? float? (if d.table.isEmpty then none else some (.str d.table)) =
      some (if d.table.isEmpty then none else some (.str d.table)) := by
    split
    · rfl
    · exact always _ (reread?_str d.table)
  simp only [partsWith, List.mapM_cons, List.mapM_nil, table, always _ (reread?_str d.kind.name),
    always _ (reread?_bool d.ignoreOnConflict), rereadPart?_mapPart reread?_bool d.projection,
    rereadPart?_mapPart reread?_str d.aliases, rereadPart?_listPart reread?_lookup d.joins,
    rereadPart?_listPart reread?_orderElement d.orderBy, rereadPart?_optional reread?_limit d.limit,
    rereadPart?_optional reread?_str d.procedureName, rereadPart?_optional reread?_str d.distinctOn,
    Option.map_some, Option.bind_eq_bind, Option.bind_some, Option.pure_def]
  cases rereadPart? float? filter <;> cases rereadPart? float? fields <;> rfl

/-- The filter is read back exactly if its values are and it does not nest too deep. -/
theorem filter_reread_iff (d : Descriptor) :
    ((rereadPart? float? (d.filter.map Predicate.encode)).bind fun part =>
        part.elim (some none) (nullable? (Predicate.decodeWithin? 1 Value.ofJson?))) =
          some d.filter ↔
      Predicate.ReadsBack float? d.filterLeaves ∧
        ∀ p ∈ d.filter, 1 + p.encode.depth ≤ Predicate.nestingLimit := by
  rw [filterLeaves]
  cases d.filter with
  | none => simp [rereadPart?, Predicate.ReadsBack]
  | some p =>
    have only : (∀ q ∈ some p, 1 + q.encode.depth ≤ Predicate.nestingLimit) ↔
        1 + p.encode.depth ≤ Predicate.nestingLimit := by
      simp
    rw [only, Option.elim_some, ← Predicate.decodeWithin?_reread_iff, Option.map_some, rereadPart?,
      Option.elim_some]
    cases read : reread? float? p.encode with
    | none => simp
    | some v =>
      have proper : v ≠ .null := by
        rintro rfl
        have flat := depth_of_reread? read
        cases p <;> simp [Predicate.encode, depth] at flat
      rw [Option.map_some, Option.bind_some, Option.bind_some, Option.elim_some, nullable?]
      · simp
      · exact proper

/-- The fields are read back exactly if their values are. -/
theorem fields_reread_iff (m : OrderedMap Value) :
    ((rereadPart? float? (mapPart Value.encode m)).bind fun part =>
        part.elim (some ∅) (map? Value.ofJson?)) = some m ↔
      ∀ v ∈ m.values, v.ReadsBack float? := by
  unfold mapPart
  split
  · next none =>
    rw [OrderedMap.eq_empty_of_isEmpty none]
    simp [rereadPart?]
  · simp only [Value.readsBack_iff]
    rw [rereadPart?, Option.elim_some, ← OrderedMap.map_ofList_mapM_eq_some_iff,
      ← reread?_mapValues_bind Value.encode Value.ofJson?]
    cases reread? float? (.obj (m.mapValues Value.encode).entries) <;> rfl

theorem with_eq_self_iff {d : Descriptor} {filter : Option Predicate} {fields : OrderedMap Value} :
    { d with filter := filter, fields := fields } = d ↔ filter = d.filter ∧ fields = d.fields := by
  constructor
  · intro same
    exact ⟨congrArg Descriptor.filter same, congrArg Descriptor.fields same⟩
  · rintro ⟨rfl, rfl⟩
    rfl

theorem forall_holds_iff {d : Descriptor} {q : Value → Prop} : (∀ v, d.Holds v → q v) ↔
    (∀ field operator v, .comparison field operator v ∈ d.filterLeaves → q v) ∧
      ∀ v ∈ d.fields.values, q v := by
  constructor
  · intro all
    exact ⟨fun field operator v leaf => all v (.inl ⟨field, operator, leaf⟩),
      fun v listed => all v (.inr listed)⟩
  · rintro ⟨compared, given⟩ v (⟨field, operator, leaf⟩ | listed)
    · exact compared field operator v leaf
    · exact given v listed

/-- A descriptor is read back exactly if its values are and its filter does not nest too deep. -/
theorem decode?_reread_iff (d : Descriptor) :
    (parseWith? float? d.encode.compact).bind decode? = some d ↔
      (∀ v, d.Holds v → v.ReadsBack float?) ∧
        ∀ p ∈ d.filter, 1 + p.encode.depth ≤ Predicate.nestingLimit := by
  have filter : _ ↔ Predicate.ReadsBack float? d.filterLeaves ∧ _ := filter_reread_iff d
  rw [forall_holds_iff, and_right_comm, ← fields_reread_iff]
  refine Iff.trans ?_ (and_congr_left' filter)
  -- the text is read back part by part, and only the filter and the fields may differ
  rw [parseWith?_compact, encode_eq, reread?, rereadFields?_present, mapM_partsWith]
  cases rereadPart? float? (d.filter.map Predicate.encode) with
  | none => simp
  | some x =>
    cases rereadPart? float? (mapPart Value.encode d.fields) with
    | none => simp
    | some m =>
      simp only [Option.bind_some, Option.map_some, decode?, decodeWith?_partsWith]
      cases x.elim (some none) (nullable? (Predicate.decodeWithin? 1 Value.ofJson?)) <;>
        cases m.elim (some ∅) (map? Value.ofJson?) <;> simp [with_eq_self_iff]

end Descriptor

/-! ### Compiled descriptors -/

section Compiled

variable {settings : Settings} {text : String} {params : Params} {d : Descriptor}

/-- A compiled descriptor is read back from its JSON text exactly if each float in it is read back
from its own text and its filter is at most 63 levels high. -/
theorem readsBack_iff_of_compile (h : compile settings text params = .ok d) :
    (Json.parse? d.encode.compact).bind Descriptor.decode? = some d ↔
      (∀ x, d.Holds (.float x) →
        (Json.parse? (Json.float x).compact).bind Value.ofJson? = some (.float x)) ∧
      ∀ p ∈ d.filter, p.height ≤ 63 := by
  obtain ⟨_, _, _, form⟩ := compile_eq_ok_iff.mp h
  have wellFormed := form.wellFormed
  have values : (∀ v, d.Holds v → v.ReadsBack Numeral.scaled?) ↔
      ∀ x, d.Holds (.float x) → (Value.float x).ReadsBack Numeral.scaled? := by
    constructor
    · exact fun all x => all (.float x)
    · intro floats v held
      by_cases float : ∃ x, v = .float x
      · obtain ⟨x, rfl⟩ := float
        exact floats x held
      · refine Value.readsBack_of_plain ?_ fun x same => float ⟨x, same⟩
        rcases held with ⟨field, operator, leaf⟩ | listed
        · exact wellFormed.leaf_plain leaf
        · exact wellFormed.fields_plain v listed
  have heights : (∀ p ∈ d.filter, 1 + p.encode.depth ≤ Predicate.nestingLimit) ↔
      ∀ p ∈ d.filter, p.height ≤ 63 :=
    forall₂_congr fun p filtered => Predicate.depth_encode_le_iff
      (wellFormed.filter_grouped p filtered) (wellFormed.filter_plain p filtered)
  exact (Descriptor.decode?_reread_iff d).trans (and_congr values heights)

theorem readsBack_of_compile_fraction :
    ∃ d, compile {} "SELECT * FROM t WHERE a = 2.5 AND b = 'x'" ∅ = .ok d ∧
      (Json.parse? d.encode.compact).bind Descriptor.decode? = some d := by
  have compiles : compile {} "SELECT * FROM t WHERE a = 2.5 AND b = 'x'" ∅ = .ok {
      kind := .select
      table := "t"
      filter := some (.group .and [.comparison "a" .eq (.float (.ofDecimal false 25 (-1))),
        .comparison "b" .eq (.str "x")]) } := by
    decide +kernel
  refine ⟨_, compiles, (readsBack_iff_of_compile compiles).mpr ⟨?_, ?_⟩⟩
  · rintro x (⟨field, operator, leaf⟩ | listed)
    · obtain ⟨_, _, rfl⟩ : field = "a" ∧ operator = .eq ∧ x = .ofDecimal false 25 (-1) := by
        simpa [Descriptor.filterLeaves] using leaf
      decide +kernel
    · cases listed
  · rintro p ⟨⟩
    decide

/-- A finite float may be lost: its text may be read as the float next to it. -/
theorem not_forall_compile_readsBack :
    ¬ ∀ (settings : Settings) (text : String) (params : Params) (d : Descriptor),
      (∀ v ∈ params.values, v.isPlaceholder = false ∧ ∀ x, v = .float x → x.isFinite = true) →
      compile settings text params = .ok d →
        (Json.parse? d.encode.compact).bind Descriptor.decode? = some d := by
  intro all
  have compiles : compile {} "DELETE FROM t WHERE a = 31.245270191439438" ∅ = .ok {
      kind := .delete
      table := "t"
      filter := some
        (.comparison "a" .eq (.float (.ofDecimal false 31245270191439438 (-15)))) } := by
    decide +kernel
  have back := all _ _ _ _ (by simp) compiles
  have values := ((Descriptor.decode?_reread_iff _).mp back).1
  have float := values _ (.inl ⟨"a", .eq, List.mem_cons_self⟩)
  revert float
  decide +kernel

end Compiled

end SqlBridge
