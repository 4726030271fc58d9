import Mathlib.Data.List.Forall2
import SqlBridge.Sql.Render

/-!
# What was rendered

A descriptor has parts because everything it is made of has parts. Each function that gives parts,
or else an error, is turned around once here: what it gave says what it was given. Facts about
rendered text follow the cases of these lemmas and need not open the functions again.
-/

namespace SqlBridge.Sql

/-! ### Steps that succeed -/

section Steps

variable {α β ε : Type}

theorem exists_of_map_eq_ok {x : Except ε α} {f : α → β} {b : β} (h : x.map f = .ok b) :
    ∃ a, x = .ok a ∧ f a = b := by
  cases x with
  | error e => cases h
  | ok a => exact ⟨a, rfl, Except.ok.inj h⟩

theorem exists_of_bind_eq_ok {x : Except ε α} {f : α → Except ε β} {b : β}
    (h : (x >>= f) = .ok b) : ∃ a, x = .ok a ∧ f a = .ok b := by
  cases x with
  | error e => cases h
  | ok a => exact ⟨a, rfl, h⟩

theorem forall₂_of_mapM {f : α → Except ε β} {as : List α} {bs : List β}
    (h : as.mapM f = .ok bs) : List.Forall₂ (fun a b => f a = .ok b) as bs := by
  induction as generalizing bs with
  | nil =>
    obtain rfl := Except.ok.inj h
    exact .nil
  | cons a as ih =>
    rw [List.mapM_cons] at h
    obtain ⟨b, here, h⟩ := exists_of_bind_eq_ok h
    obtain ⟨others, rest, h⟩ := exists_of_bind_eq_ok h
    obtain rfl := Except.ok.inj h
    exact .cons here (ih rest)

end Steps

variable {d : Descriptor} {ps : List Part} {pss : List (List Part)} {v : Value}

/-! ### Conditions -/

/-- A value is written out if it is null and is a parameter otherwise. -/
theorem value_eq_ok (h : value v = .ok ps) :
    (v.isNull = true ∧ ps = [.fixed "NULL"]) ∨ (v.isNull = false ∧ ps = [.param v]) := by
  cases v with
  | null => exact .inl ⟨rfl, (Except.ok.inj h).symm⟩
  | placeholder name => cases h
  | _ => exact .inr ⟨rfl, (Except.ok.inj h).symm⟩

/-- Nothing but a null is compared without a parameter. -/
theorem comparedWith_eq_ok {field : String} {operator : Operator}
    (h : comparedWith field operator v = .ok ps) :
    (v.isNull = true ∧ ∃ text ∈ [" IS NULL", " IS NOT NULL"], ps = [.fixed text]) ∨
      (v.isNull = false ∧ ps = [.fixed (" " ++ operator.symbol ++ " "), .param v]) := by
  by_cases null : v.isNull = true
  · refine .inl ⟨null, ?_⟩
    cases operator <;> simp only [comparedWith, if_pos null, reduceCtorEq, Except.ok.injEq] at h
    case eq => exact ⟨_, List.mem_cons_self, h.symm⟩
    case ne => exact ⟨_, List.mem_cons_of_mem _ List.mem_cons_self, h.symm⟩
  · simp only [comparedWith, if_neg null] at h
    obtain ⟨qs, written, rfl⟩ := exists_of_map_eq_ok h
    rcases value_eq_ok written with ⟨same, _⟩ | ⟨other, rfl⟩
    · exact absurd same null
    · exact .inr ⟨other, rfl⟩

theorem comparison_eq_ok {field : String} {operator : Operator}
    (h : predicate (.comparison field operator v) = .ok ps) :
    ∃ rest, comparedWith field operator v = .ok rest ∧
      ps = .fixed "(" :: (qualified field ++ rest) ++ [.fixed ")"] := by
  rw [predicate] at h
  obtain ⟨rest, compared, h⟩ := exists_of_bind_eq_ok h
  exact ⟨rest, compared, (Except.ok.inj h).symm⟩

theorem pattern_eq_ok {field regex : String} {caseInsensitive : Bool}
    (h : predicate (.pattern field regex caseInsensitive) = .ok ps) :
    ∃ text ∈ [" ~ ", " ~* "],
      ps = .fixed "(" :: (qualified field ++ [.fixed text, .param (.str regex)])
        ++ [.fixed ")"] := by
  rw [predicate] at h
  obtain rfl := Except.ok.inj h
  refine ⟨if caseInsensitive then " ~* " else " ~ ", ?_, by simp⟩
  cases caseInsensitive <;> simp

theorem group_eq_ok {logic : Logic} {children : List Predicate}
    (h : predicate (.group logic children) = .ok ps) :
    ∃ inner, predicates children = .ok inner ∧
      ps = .fixed "(" :: separatedBy (connective logic) inner ++ [.fixed ")"] := by
  rw [predicate] at h
  obtain ⟨inner, written, h⟩ := exists_of_bind_eq_ok h
  exact ⟨inner, written, (Except.ok.inj h).symm⟩

theorem predicates_cons_eq_ok {p : Predicate} {rest : List Predicate}
    (h : predicates (p :: rest) = .ok pss) :
    ∃ first others, predicate p = .ok first ∧ predicates rest = .ok others ∧
      pss = first :: others := by
  rw [predicates] at h
  obtain ⟨first, here, h⟩ := exists_of_bind_eq_ok h
  obtain ⟨others, later, h⟩ := exists_of_bind_eq_ok h
  exact ⟨first, others, here, later, (Except.ok.inj h).symm⟩

/-- A WHERE clause is there exactly with its predicate. -/
theorem whereClause_eq_ok {filter : Option Predicate} (h : whereClause filter = .ok ps) :
    (filter = none ∧ ps = []) ∨
      ∃ p qs, filter = some p ∧ predicate p = .ok qs ∧ ps = .fixed " WHERE " :: qs := by
  cases filter with
  | none => exact .inl ⟨rfl, (Except.ok.inj h).symm⟩
  | some p =>
    obtain ⟨qs, written, same⟩ := exists_of_map_eq_ok h
    exact .inr ⟨p, qs, rfl, written, same.symm⟩

/-! ### Selections -/

def clausesOf (d : Descriptor) (filter : List Part) : List Part :=
  d.joins.flatMap (join d.table) ++ (filter ++ (orderClause d.orderBy ++ limitClause d.limit))

/-- A selection is its columns, its table and its clauses. -/
theorem select_eq_ok (h : select d = .ok ps) :
    ∃ filter, whereClause d.filter = .ok filter ∧
      ps = .fixed "SELECT " :: ((if d.distinctOn.isSome then [.fixed "DISTINCT "] else [])
        ++ (selectList d ++ .fixed " FROM " :: .identifier d.table :: clausesOf d filter)) := by
  rw [select] at h
  obtain ⟨filter, filtered, h⟩ := exists_of_bind_eq_ok h
  obtain rfl := Except.ok.inj h
  exact ⟨filter, filtered, by simp [clausesOf]⟩

end SqlBridge.Sql
