import SqlBridge.Proofs.Text.Basic
import SqlBridge.Statement.Join

/-!
# Qualified fields

An operand of a join is a field of a table if it is a name of the table, a point and the field, the
point being the last one. A join has a lookup exactly when one of its operands is a field of the
joined table and the other one is not.
-/

namespace SqlBridge.Join

/-- The operand is this field of the table. -/
def Qualifies (table : TableRef) (operand field : String) : Prop :=
  ∃ qualifier, operand = qualifier ++ "." ++ field ∧ qualifier ≠ "" ∧ field ≠ "" ∧
    '.' ∉ field.toList ∧ table.isNamed qualifier = true

/-- What the outer table calls an operand: the field, if the operand is one of its fields. -/
inductive LocalOf (outer : TableRef) (operand : String) : String → Prop where
  | field {field : String} (own : Qualifies outer operand field) : LocalOf outer operand field
  | whole (foreign : ∀ field, ¬ Qualifies outer operand field) : LocalOf outer operand operand

/-- The lookup of a join on the equality of two operands. -/
inductive StageOf (outer joined : TableRef) (left right : String) : Lookup → Prop where
  | left {field here : String} (looked : Qualifies joined left field)
      (other : ∀ field, ¬ Qualifies joined right field) (known : LocalOf outer right here) :
      StageOf outer joined left right ⟨joined.name, here, field, joined.exposedName⟩
  | right {field here : String} (other : ∀ field, ¬ Qualifies joined left field)
      (looked : Qualifies joined right field) (known : LocalOf outer left here) :
      StageOf outer joined left right ⟨joined.name, here, field, joined.exposedName⟩

theorem splitQualifier?_eq_some_iff {operand qualifier field : String} :
    splitQualifier? operand = some (qualifier, field) ↔
      operand = qualifier ++ "." ++ field ∧ qualifier ≠ "" ∧ field ≠ "" ∧ '.' ∉ field.toList := by
  constructor
  · intro h
    simp only [splitQualifier?] at h
    split at h
    · cases h
    · next c back found =>
      obtain ⟨text, inside, point⟩ := Text.exists_of_dropWhile_eq_cons found
      obtain rfl : c = '.' := by simpa using point
      generalize operand.toList.reverse.takeWhile (fun c => decide (c ≠ '.')) = last
        at h text inside
      split at h
      · cases h
      · next filled =>
        cases h
        simp only [List.isEmpty_reverse, Bool.or_eq_true, List.isEmpty_iff, not_or] at filled
        have front := congrArg List.reverse text
        rw [List.reverse_reverse, List.reverse_append, List.reverse_cons] at front
        refine ⟨?_, by simpa using filled.1, by simpa using filled.2, ?_⟩
        · apply String.toList_inj.mp
          simp [front]
        · rw [String.toList_ofList, List.mem_reverse]
          intro inner
          simpa using inside _ inner
  · rintro ⟨rfl, filled, present, last⟩
    have text : (qualifier ++ "." ++ field).toList.reverse =
        field.toList.reverse ++ '.' :: qualifier.toList.reverse := by
      simp
    have inside : ∀ c ∈ field.toList.reverse, decide (c ≠ '.') = true := by
      intro c hc
      rw [decide_eq_true_eq]
      rintro rfl
      exact last (List.mem_reverse.mp hc)
    have ended : ∀ c ∈ ('.' :: qualifier.toList.reverse).head?, decide (c ≠ '.') = false := by simp
    obtain ⟨taken, left⟩ := Text.takeWhile_append_of_all inside ended
    simp only [splitQualifier?, text, taken, left]
    simp [filled, present]

theorem fieldOf?_eq_some_iff {table : TableRef} {operand field : String} :
    fieldOf? table operand = some field ↔ Qualifies table operand field := by
  rw [fieldOf?]
  constructor
  · intro h
    split at h
    · next qualifier found split =>
      obtain ⟨named, same⟩ := Option.ite_none_right_eq_some.mp h
      cases same
      obtain ⟨text, filled, present, last⟩ := splitQualifier?_eq_some_iff.mp split
      exact ⟨qualifier, text, filled, present, last, named⟩
    · cases h
  · rintro ⟨qualifier, text, filled, present, last, named⟩
    rw [splitQualifier?_eq_some_iff.mpr ⟨text, filled, present, last⟩]
    exact if_pos named

theorem fieldOf?_eq_none_iff {table : TableRef} {operand : String} :
    fieldOf? table operand = none ↔ ∀ field, ¬ Qualifies table operand field := by
  rw [Option.eq_none_iff_forall_ne_some]
  exact forall_congr' fun field => not_congr fieldOf?_eq_some_iff

theorem localOf_iff {outer : TableRef} {operand here : String} :
    LocalOf outer operand here ↔ here = (fieldOf? outer operand).getD operand := by
  cases found : fieldOf? outer operand with
  | none =>
    have foreign := fieldOf?_eq_none_iff.mp found
    constructor
    · intro h
      cases h with
      | field own => exact absurd own (foreign here)
      | whole => rfl
    · rintro rfl
      exact .whole foreign
  | some field =>
    have own := fieldOf?_eq_some_iff.mp found
    constructor
    · intro h
      cases h with
      | field other => exact Option.some.inj ((fieldOf?_eq_some_iff.mpr other).symm.trans found)
      | whole foreign => exact absurd own (foreign field)
    · rintro rfl
      exact .field own

/-- A join has a lookup exactly when one operand alone is a field of the joined table. -/
theorem lookup_eq_ok_iff {outer joined : TableRef} {left right : String} {stage : Lookup} :
    lookup outer joined left right = .ok stage ↔ StageOf outer joined left right stage := by
  rw [lookup]
  constructor
  · intro h
    split at h
    · next missing found =>
      cases h
      exact .right (fieldOf?_eq_none_iff.mp missing) (fieldOf?_eq_some_iff.mp found)
        (localOf_iff.mpr rfl)
    · next found missing =>
      cases h
      exact .left (fieldOf?_eq_some_iff.mp found) (fieldOf?_eq_none_iff.mp missing)
        (localOf_iff.mpr rfl)
    · cases h
  · intro h
    cases h with
    | left looked other known =>
      rw [fieldOf?_eq_some_iff.mpr looked, fieldOf?_eq_none_iff.mpr other, localOf_iff.mp known]
    | right other looked known =>
      rw [fieldOf?_eq_some_iff.mpr looked, fieldOf?_eq_none_iff.mpr other, localOf_iff.mp known]

end SqlBridge.Join
