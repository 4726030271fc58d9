import SqlBridge.Json.Basic
import SqlBridge.Proofs.OrderedMap

/-!
# Reading records

A record is written as the parts that are there, each under a name of its own. Reading a name finds
its part, or the default if the part is left out. Lists and maps are read back when their elements
are.
-/

namespace SqlBridge.Json

universe u

variable {α β : Type} {parts : List (String × Option Json)} {name : String} {read : Json → Option α}

def present (parts : List (String × Option Json)) : Fields :=
  parts.filterMap fun part => part.2.map fun v => (part.1, v)

def partAt (parts : List (String × Option Json)) (name : String) : Option Json :=
  (parts.lookup name).join

theorem present_append (parts others : List (String × Option Json)) :
    present (parts ++ others) = present parts ++ present others :=
  List.filterMap_append

theorem present_cons (name : String) (part : Option Json) (parts : List (String × Option Json)) :
    present ((name, part) :: parts) = (part.map fun v => (name, v)).toList ++ present parts := by
  cases part <;> rfl

theorem filter_present_of_absent (absent : name ∉ parts.map Prod.fst) :
    (present parts).filter (·.1 = name) = [] := by
  rw [List.filter_eq_nil_iff]
  intro field listed same
  obtain ⟨part, among, found⟩ := List.mem_filterMap.mp listed
  obtain ⟨v, _, rfl⟩ := Option.map_eq_some_iff.mp found
  exact absent (of_decide_eq_true same ▸ List.mem_map_of_mem among)

/-- Of parts with different names, the one of a name is all that has the name. -/
theorem filter_present (distinct : (parts.map Prod.fst).Nodup) :
    (present parts).filter (·.1 = name) =
      ((partAt parts name).map fun v => (name, v)).toList := by
  induction parts with
  | nil => rfl
  | cons part parts ih =>
    obtain ⟨own, v?⟩ := part
    obtain ⟨absent, distinct⟩ := List.nodup_cons.mp distinct
    rw [present_cons, List.filter_append, partAt, List.lookup_cons]
    by_cases same : own = name
    · subst same
      rw [filter_present_of_absent absent]
      cases v? <;> simp
    · rw [ih distinct, beq_false_of_ne (Ne.symm same), partAt]
      cases v? <;> simp [same]

theorem required?_present (distinct : (parts.map Prod.fst).Nodup) :
    Fields.required? (present parts) name read = (partAt parts name).bind read := by
  rw [Fields.required?, filter_present distinct]
  cases partAt parts name <;> rfl

theorem withDefault?_present {default : α} (distinct : (parts.map Prod.fst).Nodup) :
    Fields.withDefault? (present parts) name default read =
      (partAt parts name).elim (some default) read := by
  rw [Fields.withDefault?, filter_present distinct]
  cases partAt parts name <;> rfl

/-- The parts of a record may stand in any order and among fields of other names. -/
theorem filter_of_perm {fields others : Fields} (listed : fields.Perm (present parts ++ others))
    (distinct : (parts.map Prod.fst).Nodup) (apart : ∀ e ∈ others, e.1 ≠ name) :
    fields.filter (·.1 = name) = ((partAt parts name).map fun v => (name, v)).toList := by
  have skipped : others.filter (·.1 = name) = [] :=
    List.filter_eq_nil_iff.mpr fun e other same => apart e other (of_decide_eq_true same)
  have same := listed.filter (·.1 = name)
  rw [List.filter_append, filter_present distinct, skipped, List.append_nil] at same
  generalize partAt parts name = part at same ⊢
  cases part with
  | none => exact same.eq_nil
  | some v => exact List.perm_singleton.mp same

theorem withDefault?_of_perm {fields others : Fields} {default : α}
    (listed : fields.Perm (present parts ++ others)) (distinct : (parts.map Prod.fst).Nodup)
    (apart : ∀ e ∈ others, e.1 ≠ name) :
    Fields.withDefault? fields name default read =
      (partAt parts name).elim (some default) read := by
  rw [Fields.withDefault?, filter_of_perm listed distinct apart]
  cases partAt parts name <;> rfl

/-! ### Fields that are read -/

/-- The only field of a name. -/
theorem mem_iff_of_filter {fields : Fields} {e : String × Json}
    (only : fields.filter (·.1 = name) = [e]) (v : Json) : (name, v) ∈ fields ↔ v = e.2 := by
  have named : e.1 = name := by
    have kept : e ∈ fields.filter (·.1 = name) := by rw [only]; exact List.mem_singleton_self e
    simpa using (List.mem_filter.mp kept).2
  have kept : (name, v) ∈ fields ↔ (name, v) ∈ fields.filter (·.1 = name) := by
    rw [List.mem_filter]
    simp
  rw [kept, only, List.mem_singleton, ← named, Prod.ext_iff]
  simp

/-- What is read is the default, or it is read from the only field of the name. -/
theorem withDefault?_eq_some {fields : Fields} {default a : α}
    (h : Fields.withDefault? fields name default read = some a) :
    ((∀ v, (name, v) ∉ fields) ∧ a = default) ∨
      ∃ v, (∀ u, (name, u) ∈ fields ↔ u = v) ∧ read v = some a := by
  rw [Fields.withDefault?] at h
  split at h
  · next none =>
    have absent : ∀ v, (name, v) ∉ fields := by
      intro v listed
      have kept := List.filter_eq_nil_iff.mp none _ listed
      simp at kept
    exact .inl ⟨absent, (Option.some.inj h).symm⟩
  · next e only => exact .inr ⟨e.2, mem_iff_of_filter only, h⟩
  · cases h

/-- A value that may be null is null, or it is read. -/
theorem nullable?_eq_some {v : Json} {o : Option α} (h : nullable? read v = some o) :
    v = .null ∧ o = none ∨ ∃ a, read v = some a ∧ o = some a := by
  rw [nullable?.eq_def] at h
  split at h
  · exact .inl ⟨rfl, (Option.some.inj h).symm⟩
  · obtain ⟨a, found, rfl⟩ := Option.map_eq_some_iff.mp h
    exact .inr ⟨a, found, rfl⟩

/-! ### Scalars -/

@[simp] theorem str?_str (s : String) : str? (.str s) = some s := rfl

@[simp] theorem bool?_bool (b : Bool) : bool? (.bool b) = some b := rfl

theorem natBelow?_of_lt {n bound : Nat} (h : n < bound) :
    natBelow? bound (.int n) = some n := by
  rw [natBelow?, if_pos ⟨Int.natCast_nonneg n, Int.ofNat_lt.mpr h⟩, Int.toNat_natCast]

theorem uint64?_toNat (n : UInt64) : uint64? (.int n.toNat) = some n := by
  rw [uint64?, natBelow?_of_lt n.toNat_lt, Option.map_some, UInt64.ofNat_toNat]

/-! ### Parts that may be left out -/

/-- The part of a list, which is left out if it has no elements. -/
def listPart (encode : α → Json) : List α → Option Json
  | [] => none
  | xs => some (.arr (xs.map encode))

/-- The part of a map, which is left out if it has no entries. -/
def mapPart (encode : α → Json) (m : OrderedMap α) : Option Json :=
  if m.isEmpty then none else some (.obj (m.mapValues encode).entries)

theorem mapM_map_of_law {encode : β → Json} {read : Json → Option β}
    (law : ∀ x, read (encode x) = some x) (xs : List β) : (xs.map encode).mapM read = some xs := by
  induction xs with
  | nil => rfl
  | cons x xs ih =>
    rw [List.map_cons, List.mapM_cons, law, ih]
    rfl

theorem map?_mapValues {encode : β → Json} (m : OrderedMap β) :
    map? read (.obj (m.mapValues encode).entries) =
      (m.entries.mapM fun e => (read (encode e.2)).map fun x => (e.1, x)).map
        OrderedMap.ofList := by
  rw [map?, OrderedMap.mapValues, List.mapM_map]
  rfl

section Laws

variable {encode : α → Json} (law : ∀ x, read (encode x) = some x)
include law

theorem elim_optionalPart (proper : ∀ x, encode x ≠ .null) (part : Option α) :
    (part.map encode).elim (some none) (nullable? read) = some part := by
  cases part with
  | none => rfl
  | some x =>
    rw [Option.map_some, Option.elim_some, nullable?, law]
    · rfl
    · exact proper x

theorem elim_listPart (xs : List α) :
    (listPart encode xs).elim (some []) (list? read) = some xs := by
  cases xs with
  | nil => rfl
  | cons x xs => exact mapM_map_of_law law (x :: xs)

theorem elim_mapPart (m : OrderedMap α) :
    (mapPart encode m).elim (some ∅) (map? read) = some m := by
  unfold mapPart
  split
  · next none => rw [Option.elim_none, OrderedMap.eq_empty_of_isEmpty none]
  · rw [Option.elim_some, map?_mapValues]
    exact (OrderedMap.map_ofList_mapM_eq_some_iff (f := fun v => read (encode v))).mpr
      fun v _ => law v

end Laws

end SqlBridge.Json
