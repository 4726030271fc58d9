import SqlBridge.Predicate.Encoding
import SqlBridge.Proofs.Json.Rereading
import SqlBridge.Proofs.Predicate.Tree

/-!
# Reading predicates back

A predicate is read back from its JSON text exactly if every value it compares with is, and if it
does not nest too deep. Of the values, those that are no numbers with a fraction always are.
-/

namespace SqlBridge

open Json

variable {float? : Numeral → Option Binary64}

/-! ### Values -/

/-- The value is read back from its JSON text. -/
def Value.ReadsBack (float? : Numeral → Option Binary64) (v : Value) : Prop :=
  (parseWith? float? v.encode.compact).bind Value.ofJson? = some v

instance (v : Value) : Decidable (v.ReadsBack float?) :=
  inferInstanceAs (Decidable (_ = _))

theorem Value.readsBack_iff {v : Value} :
    v.ReadsBack float? ↔ (reread? float? v.encode).bind Value.ofJson? = some v := by
  rw [Value.ReadsBack, parseWith?_compact]

theorem Value.readsBack_int (i : Int64) : (Value.int i).ReadsBack float? := by
  have low := i.le_toInt
  have high := i.toInt_lt
  rw [readsBack_iff, encode, reread?, scalar?_int low (by omega), Option.bind_some, ofJson?,
    if_pos ⟨low, high⟩, Int64.ofInt_toInt]

/-- Every value that is neither a float nor a placeholder is read back. -/
theorem Value.readsBack_of_plain {v : Value} (plain : v.isPlaceholder = false)
    (exact : ∀ x, v ≠ .float x) : v.ReadsBack float? := by
  cases v with
  | int i => exact readsBack_int i
  | float x => exact absurd rfl (exact x)
  | placeholder name => cases plain
  | _ => exact readsBack_iff.mpr rfl

namespace Predicate

/-! ### The forms of a predicate -/

section Forms

variable {readValue : Json → Option Value} {isChild : Bool}

theorem decode?_comparison (field : String) (operator : Operator) (v : Json) :
    decode? readValue isChild (.obj [("type", .str "comparison"), ("field", .str field),
      ("operator", .str operator.name), ("value", v)]) =
        (readValue v).map (.comparison field operator) := by
  have named : (innerName? (.str operator.name)).bind Operator.ofName? = some operator :=
    Operator.ofName?_name operator
  have typed : form? isChild (.str "comparison") = some .comparison := rfl
  simp only [decode?, parts, ofParts?, part?]
  cases read : readValue v <;> simp [typed, named, str?, read]

theorem decode?_pattern (field regex : String) (caseInsensitive : Bool) :
    decode? readValue isChild (pattern field regex caseInsensitive).encode =
      some (.pattern field regex caseInsensitive) := by
  have typed : form? isChild (.str "pattern") = some .pattern := rfl
  simp only [encode, decode?, parts, ofParts?, part?]
  simp [typed, str?, bool?]

theorem decode?_group (logic : Logic) (children : List Json) :
    decode? readValue isChild (.obj [("type", .str "group"), ("logic", .str logic.name),
      ("children", .arr children)]) =
        (decodeList? readValue children).map (.group logic) := by
  have named : (innerName? (.str logic.name)).bind Logic.ofName? = some logic :=
    Logic.ofName?_name logic
  have typed : form? isChild (.str "group") = some .group := rfl
  simp only [decode?, parts, ofParts?, part?]
  cases read : decodeList? readValue children <;> simp [typed, named, decodeArray?, read]

end Forms

/-! ### Trees -/

/-- Every value that the leaves compare with is read back. -/
def ReadsBack (float? : Numeral → Option Binary64) (leaves : List Predicate) : Prop :=
  ∀ field operator v, .comparison field operator v ∈ leaves → v.ReadsBack float?

theorem readsBack_append {leaves others : List Predicate} :
    ReadsBack float? (leaves ++ others) ↔ ReadsBack float? leaves ∧ ReadsBack float? others := by
  simp only [ReadsBack, List.mem_append, or_imp, forall_and]

theorem reread?_comparison (field : String) (operator : Operator) (value : Value) :
    reread? float? (comparison field operator value).encode =
      (reread? float? value.encode).map fun v => .obj [("type", .str "comparison"),
        ("field", .str field), ("operator", .str operator.name), ("value", v)] := by
  rw [encode, reread?]
  simp only [reread?, rereadFields?]
  cases reread? float? value.encode <;> rfl

theorem reread?_group (logic : Logic) (children : List Predicate) :
    reread? float? (group logic children).encode =
      (rereadElements? float? (encodeList children)).map fun vs => .obj [("type", .str "group"),
        ("logic", .str logic.name), ("children", .arr vs)] := by
  rw [encode, reread?]
  simp only [reread?, rereadFields?]
  cases rereadElements? float? (encodeList children) <;> rfl

mutual

/-- A predicate is read back exactly if the values it compares with are. -/
theorem decode?_reread_iff (p : Predicate) (isChild : Bool) :
    (reread? float? p.encode).bind (decode? Value.ofJson? isChild) = some p ↔
      ReadsBack float? p.leaves := by
  match p with
  | .comparison field operator value =>
    have alone : ReadsBack float? (comparison field operator value).leaves ↔
        (reread? float? value.encode).bind Value.ofJson? = some value := by
      rw [← Value.readsBack_iff, leaves_comparison]
      constructor
      · exact fun back => back field operator value List.mem_cons_self
      · intro back _ _ _ leaf
        cases List.mem_singleton.mp leaf
        exact back
    rw [alone, reread?_comparison]
    cases reread? float? value.encode with
    | none => simp
    | some v =>
      rw [Option.map_some, Option.bind_some, Option.bind_some, decode?_comparison]
      cases Value.ofJson? v <;> simp
  | .pattern field regex caseInsensitive =>
    have kept : reread? float? (pattern field regex caseInsensitive).encode =
        some (pattern field regex caseInsensitive).encode := rfl
    rw [kept, Option.bind_some, decode?_pattern]
    simp [ReadsBack]
  | .group logic children =>
    rw [leaves, ← decodeList?_reread_iff children, reread?_group]
    cases rereadElements? float? (encodeList children) with
    | none => simp
    | some vs =>
      rw [Option.map_some, Option.bind_some, Option.bind_some, decode?_group]
      cases decodeList? Value.ofJson? vs <;> simp

theorem decodeList?_reread_iff (ps : List Predicate) :
    (rereadElements? float? (encodeList ps)).bind (decodeList? Value.ofJson?) = some ps ↔
      ReadsBack float? (leavesOf ps) := by
  match ps with
  | [] => simp [encodeList, rereadElements?, decodeList?, leavesOf, ReadsBack]
  | p :: ps =>
    rw [leavesOf, readsBack_append, ← decode?_reread_iff p true, ← decodeList?_reread_iff ps,
      encodeList, rereadElements?_cons]
    cases reread? float? p.encode with
    | none => simp
    | some v =>
      cases rereadElements? float? (encodeList ps) with
      | none => simp
      | some vs =>
        simp only [Option.bind_some, Option.map_some, decodeList?]
        cases decode? Value.ofJson? true v <;> cases decodeList? Value.ofJson? vs <;> simp

end

mutual

/-- What is read back denotes a value as a whole. -/
theorem isReadable_of_reread? (p : Predicate) (back : ReadsBack float? p.leaves) {v : Json}
    (h : reread? float? p.encode = some v) : v.isReadable = true := by
  match p with
  | .comparison field operator value =>
    rw [reread?_comparison] at h
    obtain ⟨w, read, rfl⟩ := Option.map_eq_some_iff.mp h
    have valued := back field operator value (by simp)
    rw [Value.readsBack_iff, read, Option.bind_some] at valued
    have readable : w.isReadable = true := by
      cases w <;> first | rfl | cases valued
    simp [isReadable, areReadableFields, readable]
  | .pattern field regex caseInsensitive =>
    cases h
    rfl
  | .group logic children =>
    rw [reread?_group] at h
    obtain ⟨ws, read, rfl⟩ := Option.map_eq_some_iff.mp h
    rw [leaves] at back
    simp [isReadable, areReadableFields, areReadable_of_rereadElements? children back read]

theorem areReadable_of_rereadElements? (ps : List Predicate)
    (back : ReadsBack float? (leavesOf ps)) {vs : List Json}
    (h : rereadElements? float? (encodeList ps) = some vs) : areReadable vs = true := by
  match ps with
  | [] =>
    cases h
    rfl
  | p :: ps =>
    rw [leavesOf, readsBack_append] at back
    rw [encodeList, rereadElements?_cons] at h
    obtain ⟨w, first, h⟩ := Option.bind_eq_some_iff.mp h
    obtain ⟨ws, rest, rfl⟩ := Option.map_eq_some_iff.mp h
    rw [areReadable, isReadable_of_reread? p back.1 first,
      areReadable_of_rereadElements? ps back.2 rest, Bool.and_true]

end

/-- Inside `outer` arrays and objects a predicate is read back exactly if the values it compares
with are and it does not nest too deep. -/
theorem decodeWithin?_reread_iff (p : Predicate) (outer : Nat) :
    (reread? float? p.encode).bind (decodeWithin? outer Value.ofJson?) = some p ↔
      ReadsBack float? p.leaves ∧ outer + p.encode.depth ≤ nestingLimit := by
  rw [← decode?_reread_iff p false]
  cases read : reread? float? p.encode with
  | none => simp
  | some v =>
    -- what is decoded denotes a value as a whole, so only the depth can be refused
    have readable : decode? Value.ofJson? false v = some p → v.isReadable = true := by
      intro decoded
      refine isReadable_of_reread? p ?_ read
      rw [← decode?_reread_iff p false, read, Option.bind_some, decoded]
    rw [Option.bind_some, Option.bind_some, decodeWithin?, depth_of_reread? read]
    by_cases near : outer + p.encode.depth ≤ nestingLimit
    · by_cases decoded : decode? Value.ofJson? false v = some p
      · simp [decoded, readable decoded, near]
      · simp [decoded]
    · simp [near]

/-! ### Nesting -/

theorem one_le_height (p : Predicate) : 1 ≤ p.height := by
  cases p <;> rw [height]
  omega

theorem depth_value {v : Value} (plain : v.isPlaceholder = false) : v.encode.depth = 0 := by
  cases v with
  | placeholder name => cases plain
  | _ => rfl

def Bound (leaves : List Predicate) : Prop :=
  ∀ field operator v, .comparison field operator v ∈ leaves → v.isPlaceholder = false

mutual

/-- In the text a group takes two levels more than its children, as an array is around them. -/
theorem depth_encode (p : Predicate) (grouped : p.Grouped) (bound : Bound p.leaves) :
    p.encode.depth = 2 * p.height - 1 := by
  match p with
  | .comparison field operator value =>
    have flat := depth_value (bound field operator value (by simp))
    simp [encode, depth, depthOfFields, flat, height]
  | .pattern field regex caseInsensitive => simp [encode, depth, depthOfFields, height]
  | .group logic children =>
    cases grouped with
    | group two all =>
      have inner := depth_encodeList children all (by rwa [leaves] at bound)
      have some : 1 ≤ heights children := by
        obtain ⟨q, listed⟩ := List.exists_mem_of_length_pos (Nat.lt_of_lt_of_le Nat.two_pos two)
        exact Nat.le_trans (one_le_height q) (height_le_heights listed)
      simp only [encode, depth, depthOfFields, inner, height]
      omega

theorem depth_encodeList (ps : List Predicate) (grouped : ∀ p ∈ ps, p.Grouped)
    (bound : Bound (leavesOf ps)) : depthOfElements (encodeList ps) = 2 * heights ps - 1 := by
  match ps with
  | [] => rfl
  | p :: ps =>
    have first := depth_encode p (grouped p List.mem_cons_self)
      fun field operator v leaf => bound field operator v (List.mem_append_left _ leaf)
    have rest := depth_encodeList ps (fun q listed => grouped q (List.mem_cons_of_mem p listed))
      fun field operator v leaf => bound field operator v (List.mem_append_right _ leaf)
    rw [encodeList, depthOfElements, first, rest, heights]
    omega

end

/-- Within a descriptor a predicate nests too deep if it is higher than 63. -/
theorem depth_encode_le_iff {p : Predicate} (grouped : p.Grouped) (bound : Bound p.leaves) :
    1 + p.encode.depth ≤ nestingLimit ↔ p.height ≤ 63 := by
  have positive := one_le_height p
  rw [depth_encode p grouped bound, nestingLimit]
  omega

end Predicate

end SqlBridge
