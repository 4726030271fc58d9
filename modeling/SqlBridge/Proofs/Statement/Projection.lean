import Mathlib.Data.List.Basic
import SqlBridge.Proofs.OrderedMap
import SqlBridge.Statement.Select

/-!
# What a select list shows

A select list is a star alone or a list of columns, each with or without an alias. The columns are
shown in order, and the primary key is hidden unless it is one of them.
-/

namespace SqlBridge.Select

def named (items : List (String × Option String)) : List Column :=
  items.map fun i => .named i.1 i.2

def shownColumns (items : List (String × Option String)) : OrderedMap Bool :=
  .ofList (items.map fun i => (i.1, true))

def shownAliases (items : List (String × Option String)) : OrderedMap String :=
  .ofList (items.filterMap fun i => i.2.map fun a => (a, i.1))

/-- The projection of a select list without a star. -/
def shown (primaryKey : String) (items : List (String × Option String)) : Projection :=
  { included := if (shownColumns items).contains primaryKey then shownColumns items
      else (shownColumns items).insert primaryKey false
    aliases := shownAliases items }

theorem foldl_add (items : List (String × Option String)) :
    (named items).foldl Projection.add {} = ⟨shownColumns items, shownAliases items⟩ := by
  have general : ∀ p : Projection, (named items).foldl Projection.add p =
      { included := (items.map fun i => (i.1, true)).foldl (fun m e => m.insert e.1 e.2) p.included
        aliases := (items.filterMap fun i => i.2.map fun a => (a, i.1)).foldl
          (fun m e => m.insert e.1 e.2) p.aliases } := by
    induction items with
    | nil => exact fun p => rfl
    | cons i items ih =>
      intro p
      have step : (named (i :: items)).foldl Projection.add p =
          (named items).foldl Projection.add (p.add (.named i.1 i.2)) := rfl
      obtain ⟨name, _ | a⟩ := i
      · rw [step, ih]
        rfl
      · rw [step, ih]
        rfl
  exact general {}

/-- Without a star every entry names a column. -/
theorem exists_named {columns : List Column} (h : Column.star ∉ columns) :
    ∃ items, columns = named items := by
  induction columns with
  | nil => exact ⟨[], rfl⟩
  | cons c columns ih =>
    rw [List.mem_cons, not_or] at h
    obtain ⟨items, rfl⟩ := ih h.2
    cases c with
    | star => exact absurd rfl h.1
    | named name otherName => exact ⟨(name, otherName) :: items, rfl⟩

theorem star_not_mem_named {items : List (String × Option String)} :
    Column.star ∉ named items := by
  simp [named]

theorem named_injective : Function.Injective named := by
  refine List.map_injective_iff.mpr fun i j same => ?_
  obtain ⟨first, second⟩ := Column.named.inj same
  exact Prod.ext first second

theorem projection_eq_ok_iff {primaryKey : String} {columns : List Column} {p : Projection} :
    projection primaryKey columns = .ok p ↔
      columns = [.star] ∧ p = {} ∨ ∃ items, columns = named items ∧ p = shown primaryKey items := by
  by_cases star : Column.star ∈ columns
  · have apart : ∀ items, columns ≠ named items := by
      rintro items rfl
      exact star_not_mem_named star
    rw [projection, if_pos (List.contains_iff_mem.mpr star)]
    by_cases alone : columns.length = 1
    · obtain ⟨c, rfl⟩ := List.length_eq_one_iff.mp alone
      obtain rfl := List.mem_singleton.mp star
      simp [apart, eq_comm]
    · have several : columns ≠ [.star] := by
        rintro rfl
        exact alone rfl
      simp [alone, several, apart]
  · obtain ⟨items, rfl⟩ := exists_named star
    have several : named items ≠ [.star] := by
      intro same
      rw [same] at star
      exact star (List.mem_singleton.mpr rfl)
    rw [projection, if_neg (by simpa using star), foldl_add]
    have split : (if (shownColumns items).contains primaryKey = true then
        (⟨shownColumns items, shownAliases items⟩ : Projection)
        else ⟨(shownColumns items).insert primaryKey false, shownAliases items⟩) =
        shown primaryKey items := by
      rw [shown]
      split <;> rfl
    simp only [split, several, false_and, false_or, Except.ok.injEq]
    constructor
    · rintro rfl
      exact ⟨items, rfl, rfl⟩
    · rintro ⟨others, same, rfl⟩
      rw [named_injective same]

theorem contains_shownColumns {items : List (String × Option String)} {name : String} :
    (shownColumns items).contains name = true ↔ name ∈ items.map Prod.fst := by
  rw [shownColumns, OrderedMap.contains_ofList, List.map_map]
  rfl

theorem get?_shownColumns {items : List (String × Option String)} {name : String}
    (h : name ∈ items.map Prod.fst) : (shownColumns items).get? name = some true := by
  obtain ⟨v, found, listed⟩ := OrderedMap.get?_of_contains (contains_shownColumns.mpr h)
  obtain ⟨i, _, same⟩ := List.mem_map.mp (OrderedMap.mem_entries_ofList listed)
  rw [found, ← (Prod.mk.inj same).2]

/-- Columns that are named are shown. -/
theorem get?_shown {primaryKey : String} {items : List (String × Option String)} {name : String}
    (h : name ∈ items.map Prod.fst) : (shown primaryKey items).included.get? name = some true := by
  rw [shown]
  dsimp only
  split
  · exact get?_shownColumns h
  · next hidden =>
    have apart : name ≠ primaryKey := by
      rintro rfl
      exact hidden (contains_shownColumns.mpr h)
    rw [OrderedMap.get?_insert, if_neg apart]
    exact get?_shownColumns h

/-- An alias stands for a column that is shown. -/
theorem get?_of_mem_aliases {primaryKey : String} {items : List (String × Option String)}
    {e : String × String} (h : e ∈ (shown primaryKey items).aliases.entries) :
    (shown primaryKey items).included.get? e.2 = some true := by
  obtain ⟨i, listed, renamed⟩ := List.mem_filterMap.mp (OrderedMap.mem_entries_ofList h)
  obtain ⟨a, _, rfl⟩ := Option.map_eq_some_iff.mp renamed
  exact get?_shown (List.mem_map_of_mem listed)

/-- The columns that are named are shown. -/
theorem entries_shownColumns (items : List (String × Option String)) :
    (shownColumns items).entries = (shownColumns items).keys.map (·, true) := by
  rw [OrderedMap.keys, List.map_map]
  refine (List.map_id _).symm.trans (List.map_congr_left fun e he => ?_)
  obtain ⟨i, _, rfl⟩ := List.mem_map.mp (OrderedMap.mem_entries_ofList he)
  rfl

/-- The primary key is last, and hidden, if it is not among the columns. -/
theorem entries_included (primaryKey : String) (items : List (String × Option String)) :
    (shown primaryKey items).included.entries = (shownColumns items).keys.map (·, true) ++
      if primaryKey ∈ items.map Prod.fst then [] else [(primaryKey, false)] := by
  rw [← entries_shownColumns, shown]
  dsimp only
  by_cases listed : primaryKey ∈ items.map Prod.fst
  · rw [if_pos (contains_shownColumns.mpr listed), if_pos listed, List.append_nil]
  · have hidden : ¬ (shownColumns items).contains primaryKey = true :=
      mt contains_shownColumns.mp listed
    rw [if_neg hidden, if_neg listed,
      OrderedMap.entries_insert_of_new (Bool.eq_false_iff.mpr hidden)]

/-- All columns are shown but the primary key, which is last. -/
theorem entries_shown (primaryKey : String) (items : List (String × Option String)) :
    ∃ names : List String, (∀ name ∈ items.map Prod.fst, name ∈ names) ∧
      ((shown primaryKey items).included.entries = names.map (·, true) ∨
        (shown primaryKey items).included.entries =
          names.map (·, true) ++ [(primaryKey, false)]) := by
  refine ⟨(shownColumns items).keys, fun name h => ?_, ?_⟩
  · exact OrderedMap.contains_eq_true_iff.mp (contains_shownColumns.mpr h)
  · rw [entries_included]
    split
    · exact .inl (List.append_nil _)
    · exact .inr rfl

end SqlBridge.Select
