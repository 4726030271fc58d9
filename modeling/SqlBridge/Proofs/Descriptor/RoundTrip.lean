import SqlBridge.Proofs.Descriptor.Rereading

/-!
# Every descriptor survives its JSON form

Reading the JSON form of a descriptor gives the descriptor, whatever its kind and whichever of its
parts are there, so long as its values are scalars of JSON and the form does not nest deeper than a
reader follows. The same holds of the JSON text for every way of reading numerals that reads the
floats of the descriptor back. No condition is put on names, on maps or on the shape of the filter.
-/

namespace SqlBridge

open Json

/-- The value is a scalar of JSON: it is bound, and no number beyond the finite ones. -/
def Value.IsScalar (v : Value) : Prop :=
  v.isPlaceholder = false ∧ ∀ x, v = .float x → x.isFinite = true

theorem Value.ofJson?_encode {v : Value} (scalar : v.IsScalar) : ofJson? v.encode = some v := by
  apply ofJson?_of_toJson?
  obtain ⟨bound, finite⟩ := scalar
  cases v with
  | float x => rw [toJson?, if_pos (finite x rfl), encode]
  | placeholder name => cases bound
  | _ => rfl

theorem Value.isReadable_encode (v : Value) : v.encode.isReadable = true := by
  cases v <;> rfl

/-! ### Predicates -/

namespace Predicate

/-- Every value that the leaves compare with is a scalar of JSON. -/
def Scalars (leaves : List Predicate) : Prop :=
  ∀ field operator v, .comparison field operator v ∈ leaves → v.IsScalar

mutual

theorem decode?_encode (p : Predicate) (isChild : Bool) (scalars : Scalars p.leaves) :
    decode? Value.ofJson? isChild p.encode = some p := by
  match p with
  | .comparison field operator value =>
    have scalar := scalars field operator value (by simp)
    rw [encode, decode?_comparison, Value.ofJson?_encode scalar, Option.map_some]
  | .pattern field regex caseInsensitive => exact decode?_pattern field regex caseInsensitive
  | .group logic children =>
    rw [leaves] at scalars
    rw [encode, decode?_group, decodeList?_encodeList children scalars, Option.map_some]

theorem decodeList?_encodeList (ps : List Predicate) (scalars : Scalars (leavesOf ps)) :
    decodeList? Value.ofJson? (encodeList ps) = some ps := by
  match ps with
  | [] => rfl
  | p :: ps =>
    have first := decode?_encode p true fun field operator v leaf =>
      scalars field operator v (List.mem_append_left _ leaf)
    have rest := decodeList?_encodeList ps fun field operator v leaf =>
      scalars field operator v (List.mem_append_right _ leaf)
    rw [encodeList, decodeList?, first, rest]
    rfl

end

mutual

theorem isReadable_encode (p : Predicate) : p.encode.isReadable = true := by
  match p with
  | .comparison field operator value =>
    simp [encode, isReadable, areReadableFields, Value.isReadable_encode]
  | .pattern field regex caseInsensitive => rfl
  | .group logic children =>
    simp [encode, isReadable, areReadableFields, areReadable_encodeList children]

theorem areReadable_encodeList (ps : List Predicate) : areReadable (encodeList ps) = true := by
  match ps with
  | [] => rfl
  | p :: ps => rw [encodeList, areReadable, isReadable_encode p, areReadable_encodeList ps]; rfl

end

/-- Inside `outer` arrays and objects a predicate that does not nest too deep is what is read. -/
theorem decodeWithin?_encode {p : Predicate} {outer : Nat} (scalars : Scalars p.leaves)
    (near : outer + p.encode.depth ≤ nestingLimit) :
    decodeWithin? outer Value.ofJson? p.encode = some p := by
  rw [decodeWithin?, isReadable_encode, decide_eq_true near]
  exact decode?_encode p false scalars

end Predicate

/-! ### Descriptors -/

namespace Json

theorem depth_le_depthOfFields {name : String} {v : Json} {fields : List (String × Json)}
    (listed : (name, v) ∈ fields) : v.depth ≤ depthOfFields fields := by
  induction fields with
  | nil => cases listed
  | cons field fields ih =>
    rw [depthOfFields]
    rcases List.mem_cons.mp listed with rfl | listed
    · exact Nat.le_max_left _ _
    · exact Nat.le_trans (ih listed) (Nat.le_max_right _ _)

end Json

namespace Descriptor

variable {d : Descriptor}

/-- The filter stands inside the object of its descriptor. -/
theorem depth_filter_lt {p : Predicate} (filtered : d.filter = some p) :
    p.encode.depth < d.encode.depth := by
  have listed : ("filter", p.encode) ∈ present (d.partsWith (d.filter.map Predicate.encode)
      (mapPart Value.encode d.fields)) := by
    rw [filtered]
    refine List.mem_filterMap.mpr ⟨("filter", some p.encode), ?_, rfl⟩
    simp [partsWith]
  rw [encode_eq, depth]
  exact Nat.lt_succ_of_le (depth_le_depthOfFields listed)

theorem near_of_depth_lt (near : d.encode.depth < 128) :
    ∀ p ∈ d.filter, 1 + p.encode.depth ≤ Predicate.nestingLimit := by
  intro p filtered
  have inner := depth_filter_lt filtered
  have limit : Predicate.nestingLimit = 127 := rfl
  omega

/-- The JSON form is read part by part, and every part is read back. -/
theorem decode?_encode (scalars : ∀ v, d.Holds v → v.IsScalar) (near : d.encode.depth < 128) :
    decode? d.encode = some d := by
  obtain ⟨compared, given⟩ := forall_holds_iff.mp scalars
  have filter : (d.filter.map Predicate.encode).elim (some none)
      (nullable? (Predicate.decodeWithin? 1 Value.ofJson?)) = some d.filter := by
    cases filtered : d.filter with
    | none => rfl
    | some p =>
      have leaves : Predicate.Scalars p.leaves := by
        rwa [filterLeaves, filtered] at compared
      have read := Predicate.decodeWithin?_encode leaves (near_of_depth_lt near p filtered)
      have proper : p.encode ≠ .null := by
        cases p <;> simp [Predicate.encode]
      rw [Option.map_some, Option.elim_some, nullable?, read, Option.map_some]
      exact proper
  have fields : (mapPart Value.encode d.fields).elim (some ∅) (map? Value.ofJson?) =
      some d.fields := by
    unfold mapPart
    split
    · next none => rw [Option.elim_none, OrderedMap.eq_empty_of_isEmpty none]
    · rw [Option.elim_some, map?_mapValues, OrderedMap.map_ofList_mapM_eq_some_iff
        (f := fun v => Value.ofJson? v.encode)]
      exact fun v listed => Value.ofJson?_encode (given v listed)
  rw [encode_eq, decode?, decodeWith?_partsWith, filter, fields]
  rfl

/-- A descriptor of scalars comes back from its JSON form, and from its JSON text however numerals
are read, if its floats come back from theirs. -/
theorem decode_encode_of_scalars (scalars : ∀ v, d.Holds v → v.IsScalar)
    (near : d.encode.depth < 128) :
    decode? d.encode = some d ∧
      ∀ float? : Numeral → Option Binary64,
        (∀ x, d.Holds (.float x) → (Value.float x).ReadsBack float?) →
          (parseWith? float? d.encode.compact).bind decode? = some d := by
  refine ⟨decode?_encode scalars near, fun float? floats => ?_⟩
  refine (decode?_reread_iff d).mpr ⟨fun v held => ?_, near_of_depth_lt near⟩
  by_cases float : ∃ x, v = .float x
  · obtain ⟨x, rfl⟩ := float
    exact floats x held
  · exact Value.readsBack_of_plain (scalars v held).1 fun x same => float ⟨x, same⟩

/-- The float one and the integer one stay apart, and so do null and what is not there. -/
theorem decode_encode_of_scalars_numbers :
    let d : Descriptor := {
      kind := .update
      fields := .ofList [("a", .float (.ofDecimal false 1 0)), ("b", .int 1), ("c", .null)]
      filter := some (.group .or [.group .and [], .comparison "x" .lt (.str "\n")]) }
    (∀ v, d.Holds v → v.IsScalar) ∧ d.encode.depth < 128 ∧ decode? d.encode = some d ∧
      (parse? d.encode.compact).bind decode? = some d := by
  intro d
  have scalars : ∀ v, d.Holds v → v.IsScalar := by
    rintro v (⟨field, operator, leaf⟩ | listed)
    · obtain ⟨_, _, rfl⟩ : field = "x" ∧ operator = .lt ∧ v = .str "\n" := by
        simpa [d, filterLeaves] using leaf
      exact ⟨rfl, by simp⟩
    · have values : d.fields.values = [.float (.ofDecimal false 1 0), .int 1, .null] := by
        decide +kernel
      rw [values] at listed
      simp only [List.mem_cons, List.not_mem_nil, or_false] at listed
      rcases listed with rfl | rfl | rfl
      · refine ⟨rfl, fun x same => ?_⟩
        rw [← Value.float.inj same]
        decide +kernel
      · exact ⟨rfl, by simp⟩
      · exact ⟨rfl, by simp⟩
  have near : d.encode.depth < 128 := by decide +kernel
  obtain ⟨read, text⟩ := decode_encode_of_scalars scalars near
  refine ⟨scalars, near, read, text Numeral.scaled? ?_⟩
  rintro x (⟨field, operator, leaf⟩ | listed)
  · simp [d, filterLeaves] at leaf
  · have only : x = .ofDecimal false 1 0 := by
      simpa [d, OrderedMap.ofList, OrderedMap.values, OrderedMap.insert, OrderedMap.putEntry,
        OrderedMap.empty] using listed
    subst only
    decide +kernel

end Descriptor

end SqlBridge
