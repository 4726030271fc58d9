import Mathlib.Tactic.Tauto
import SqlBridge.Proofs.Statement.Qualifier
import SqlBridge.Proofs.Text.Basic

/-!
# The two sides of a join

The condition of a join is an equality of two operands. An operand is foreign if it is a field of
the joined table, and a join has a lookup exactly if one operand is foreign and the other one is
not, whichever side each of them stands on. An operand is parted at its last point. So a table in
front of a path with points is not taken for its qualifier: a path of the outer table keeps the
qualifier, and one of the joined table is not foreign.
-/

namespace SqlBridge

namespace TableRef

def names (t : TableRef) : List String :=
  t.name :: t.otherName.toList

variable {t : TableRef} {qualifier : String}

theorem isNamed_iff_sameWord :
    t.isNamed qualifier = true ↔ ∃ n ∈ t.names, Text.sameWord n qualifier = true := by
  obtain ⟨name, _ | other⟩ := t <;> simp [isNamed, names]

/-- A table answers to its name and to its alias, whatever the case of their letters. -/
theorem isNamed_iff : t.isNamed qualifier = true ↔
    ∃ n ∈ t.names, List.Forall₂ Text.SameLetter n.toList qualifier.toList := by
  simp only [isNamed_iff_sameWord, Text.sameWord_iff_forall₂]

theorem isNamed_of_mem_names (h : qualifier ∈ t.names) : t.isNamed qualifier = true :=
  isNamed_iff_sameWord.mpr ⟨qualifier, h, Text.sameWord_refl qualifier⟩

/-- A table whose names have no points answers to no name with one. -/
theorem not_isNamed_of_point (plain : ∀ n ∈ t.names, '.' ∉ n.toList)
    (point : '.' ∈ qualifier.toList) : ¬ t.isNamed qualifier = true := by
  rw [isNamed_iff_sameWord]
  rintro ⟨n, listed, same⟩
  have image : Char.toUpper '.' ∈ n.toList.map Char.toUpper := by
    rw [Text.sameWord_iff_map_eq.mp same]
    exact List.mem_map_of_mem point
  obtain ⟨c, inside, upper⟩ := List.mem_map.mp image
  obtain rfl : c = '.' := Text.eq_of_toUpper_eq upper (by decide)
  exact plain n listed inside

end TableRef

namespace Join

variable {outer joined table : TableRef} {left right q j p f field : String} {stage : Lookup}

/-! ### Operands that are foreign -/

/-- The operand is a field of the joined table. -/
def IsForeign (joined : TableRef) (operand : String) : Prop :=
  ∃ field, Qualifies joined operand field

theorem not_isForeign_iff : ¬ IsForeign joined left ↔ ∀ field, ¬ Qualifies joined left field :=
  not_exists

theorem exists_lookup_iff : (∃ stage, lookup outer joined left right = .ok stage) ↔
    Xor (IsForeign joined left) (IsForeign joined right) := by
  simp only [lookup_eq_ok_iff]
  constructor
  · rintro ⟨stage, h⟩
    cases h with
    | left looked other => exact .inl ⟨⟨_, looked⟩, not_isForeign_iff.mpr other⟩
    | right other looked => exact .inr ⟨⟨_, looked⟩, not_isForeign_iff.mpr other⟩
  · rintro (⟨⟨field, looked⟩, other⟩ | ⟨⟨field, looked⟩, other⟩)
    · exact ⟨_, .left looked (not_isForeign_iff.mp other) (localOf_iff.mpr rfl)⟩
    · exact ⟨_, .right (not_isForeign_iff.mp other) looked (localOf_iff.mpr rfl)⟩

/-- A join without a lookup is ambiguous, and that is all that can be wrong with its condition. -/
theorem lookup_eq_ok_or (outer joined : TableRef) (left right : String) :
    (∃ stage, lookup outer joined left right = .ok stage) ∨
      lookup outer joined left right = .error (.ambiguousJoinField left right) := by
  rw [lookup]
  split
  · exact .inl ⟨_, rfl⟩
  · exact .inl ⟨_, rfl⟩
  · exact .inr rfl

theorem lookup_eq_ambiguous_iff :
    lookup outer joined left right = .error (.ambiguousJoinField left right) ↔
      (IsForeign joined left ↔ IsForeign joined right) := by
  have alike : (IsForeign joined left ↔ IsForeign joined right) ↔
      ¬ ∃ stage, lookup outer joined left right = .ok stage := by
    rw [exists_lookup_iff, Xor]
    tauto
  rw [alike]
  constructor
  · rintro failed ⟨stage, found⟩
    rw [failed] at found
    cases found
  · exact (lookup_eq_ok_or outer joined left right).resolve_left

theorem StageOf.swap (h : StageOf outer joined left right stage) :
    StageOf outer joined right left stage := by
  cases h with
  | left looked other known => exact .right other looked known
  | right other looked known => exact .left looked other known

/-- A join has a lookup exactly if one operand is a field of the joined table, by its name or its
alias in any case, and the other one is not; else its condition is ambiguous. The sides of the
operands do not matter. -/
theorem lookup_of_one_foreign (outer joined : TableRef) (left right : String) :
    (∀ (t : TableRef) (qualifier : String), t.isNamed qualifier = true ↔
      ∃ n ∈ t.names, List.Forall₂ Text.SameLetter n.toList qualifier.toList) ∧
    ((∃ stage, lookup outer joined left right = .ok stage) ↔
      Xor (IsForeign joined left) (IsForeign joined right)) ∧
    (lookup outer joined left right = .error (.ambiguousJoinField left right) ↔
      (IsForeign joined left ↔ IsForeign joined right)) ∧
    (∀ stage, lookup outer joined left right = .ok stage ↔
      StageOf outer joined left right stage) ∧
    ((∃ stage, lookup outer joined left right = .ok stage ∧
        lookup outer joined right left = .ok stage) ∨
      (lookup outer joined left right = .error (.ambiguousJoinField left right) ∧
        lookup outer joined right left = .error (.ambiguousJoinField right left))) := by
  refine ⟨fun t qualifier => TableRef.isNamed_iff, exists_lookup_iff, lookup_eq_ambiguous_iff,
    fun stage => lookup_eq_ok_iff, ?_⟩
  rcases lookup_eq_ok_or outer joined left right with ⟨stage, found⟩ | failed
  · have swapped := (lookup_eq_ok_iff.mp found).swap
    exact .inl ⟨stage, found, lookup_eq_ok_iff.mpr swapped⟩
  · have alike := lookup_eq_ambiguous_iff.mp failed
    exact .inr ⟨failed, lookup_eq_ambiguous_iff.mpr alike.symm⟩

/-! ### Paths -/

/-- A path in documents: segments with points between them, of which none is empty or has a point
of its own. -/
def IsPath (path : String) : Prop :=
  ∃ segments : List String, segments ≠ [] ∧ (∀ s ∈ segments, s ≠ "" ∧ '.' ∉ s.toList) ∧
    path = ".".intercalate segments

/-- A path is a single segment, or it has a last one behind a point. -/
theorem IsPath.single_or (h : IsPath p) : (p ≠ "" ∧ '.' ∉ p.toList) ∨
    ∃ front last, p = front ++ "." ++ last ∧ last ≠ "" ∧ '.' ∉ last.toList := by
  obtain ⟨segments, filled, plain, rfl⟩ := h
  induction segments with
  | nil => exact absurd rfl filled
  | cons s segments ih =>
    obtain ⟨first, others⟩ := List.forall_mem_cons.mp plain
    cases segments with
    | nil =>
      rw [String.intercalate_singleton]
      exact .inl first
    | cons t segments =>
      rw [String.intercalate_cons_cons]
      rcases ih (by simp) others with ⟨present, single⟩ | ⟨front, last, text, present, single⟩
      · exact .inr ⟨s, _, rfl, present, single⟩
      · refine .inr ⟨s ++ "." ++ front, last, ?_, present, single⟩
        rw [text]
        simp only [String.append_assoc]

/-- Behind a name of a table a path is a field of the table only if it is a single segment. -/
theorem qualifies_path_iff (plain : ∀ n ∈ table.names, '.' ∉ n.toList) (filled : q ≠ "")
    (path : IsPath p) : Qualifies table (q ++ "." ++ p) field ↔
      table.isNamed q = true ∧ '.' ∉ p.toList ∧ field = p := by
  have parted : ∀ {qualifier last : String}, splitQualifier? (q ++ "." ++ p) =
      some (qualifier, last) → (Qualifies table (q ++ "." ++ p) field ↔
        table.isNamed qualifier = true ∧ field = last) := by
    intro qualifier last split
    obtain ⟨text, present, ended, single⟩ := splitQualifier?_eq_some_iff.mp split
    constructor
    · rintro ⟨other, same, more⟩
      have again := splitQualifier?_eq_some_iff.mpr ⟨same, more.1, more.2.1, more.2.2.1⟩
      obtain ⟨rfl, rfl⟩ := Prod.mk.inj (Option.some.inj (again.symm.trans split))
      exact ⟨more.2.2.2, rfl⟩
    · rintro ⟨named, rfl⟩
      exact ⟨qualifier, text, present, ended, single, named⟩
  rcases path.single_or with ⟨present, single⟩ | ⟨front, last, rfl, present, single⟩
  · rw [parted (splitQualifier?_eq_some_iff.mpr ⟨rfl, filled, present, single⟩)]
    simp [single]
  · have text : q ++ "." ++ (front ++ "." ++ last) = q ++ "." ++ front ++ "." ++ last := by
      simp only [String.append_assoc]
    have split : splitQualifier? (q ++ "." ++ (front ++ "." ++ last)) =
        some (q ++ "." ++ front, last) :=
      splitQualifier?_eq_some_iff.mpr ⟨text, by simp, present, single⟩
    have unnamed : ¬ table.isNamed (q ++ "." ++ front) = true :=
      TableRef.not_isNamed_of_point plain (by simp)
    rw [parted split]
    simp [unnamed]

/-- The lookup of a join takes these fields of the outer and of the joined table, whichever side
their operands stand on. -/
def Takes (outer joined : TableRef) (ours theirs here there : String) : Prop :=
  ∃ stage, lookup outer joined ours theirs = .ok stage ∧
    lookup outer joined theirs ours = .ok stage ∧
    stage.localField = here ∧ stage.foreignField = there

theorem Takes.not_ambiguous (h : Takes outer joined left right p f) :
    lookup outer joined left right ≠ .error (.ambiguousJoinField left right) := by
  obtain ⟨stage, found, _⟩ := h
  intro failed
  rw [failed] at found
  cases found

theorem Takes.local_eq (h : Takes outer joined left right p f)
    (h' : Takes outer joined left right q field) : p = q := by
  obtain ⟨stage, found, _, rfl, _⟩ := h
  obtain ⟨again, same, _, rfl, _⟩ := h'
  rw [Except.ok.inj (found.symm.trans same)]

section Paths

variable (outerPlain : ∀ n ∈ outer.names, n ≠ "" ∧ '.' ∉ n.toList)
  (joinedPlain : ∀ n ∈ joined.names, n ≠ "" ∧ '.' ∉ n.toList)
  (apart : ∀ a ∈ outer.names, ∀ b ∈ joined.names, ¬ Text.sameWord a b = true)
  (own : q ∈ outer.names) (other : j ∈ joined.names) (here : IsPath p) (there : IsPath f)

include outerPlain own here in
theorem localOf_path : LocalOf outer (q ++ "." ++ p)
    (if '.' ∈ p.toList then q ++ "." ++ p else p) := by
  have fields : ∀ {field}, Qualifies outer (q ++ "." ++ p) field ↔
      outer.isNamed q = true ∧ '.' ∉ p.toList ∧ field = p :=
    qualifies_path_iff (fun n listed => (outerPlain n listed).2) (outerPlain q own).1 here
  split
  · next point => exact .whole fun field h => (fields.mp h).2.1 point
  · next point => exact .field (fields.mpr ⟨TableRef.isNamed_of_mem_names own, point, rfl⟩)

include outerPlain joinedPlain apart own here in
/-- A path behind a name of the outer table is no field of the joined one. -/
theorem not_isForeign_path : ¬ IsForeign joined (q ++ "." ++ p) := by
  rintro ⟨field, h⟩
  have plain : ∀ n ∈ joined.names, '.' ∉ n.toList := fun n listed => (joinedPlain n listed).2
  obtain ⟨named, _⟩ := (qualifies_path_iff plain (outerPlain q own).1 here).mp h
  obtain ⟨n, listed, same⟩ := TableRef.isNamed_iff_sameWord.mp named
  rw [Text.sameWord_comm] at same
  exact apart q own n listed same

include joinedPlain other there in
/-- Behind a name of the joined table a path is a field of it, whole, if it is a single segment. -/
theorem qualifies_joined_path_iff :
    Qualifies joined (j ++ "." ++ f) field ↔ '.' ∉ f.toList ∧ field = f := by
  have plain : ∀ n ∈ joined.names, '.' ∉ n.toList := fun n listed => (joinedPlain n listed).2
  rw [qualifies_path_iff plain (joinedPlain j other).1 there]
  exact and_iff_right (TableRef.isNamed_of_mem_names other)

include outerPlain joinedPlain apart own other here there in
theorem takes_of_single (single : '.' ∉ f.toList) :
    Takes outer joined (q ++ "." ++ p) (j ++ "." ++ f)
      (if '.' ∈ p.toList then q ++ "." ++ p else p) f := by
  have ours := not_isForeign_path outerPlain joinedPlain apart own here
  have stage := StageOf.right (not_isForeign_iff.mp ours)
    ((qualifies_joined_path_iff joinedPlain other there).mpr ⟨single, rfl⟩)
    (localOf_path outerPlain own here)
  exact ⟨_, lookup_eq_ok_iff.mpr stage, lookup_eq_ok_iff.mpr stage.swap, rfl, rfl⟩

include outerPlain joinedPlain apart own other here there in
/-- With several segments behind the name of the joined table neither operand is foreign. -/
theorem not_isForeign_of_several (several : '.' ∈ f.toList) :
    ¬ IsForeign joined (q ++ "." ++ p) ∧ ¬ IsForeign joined (j ++ "." ++ f) := by
  refine ⟨not_isForeign_path outerPlain joinedPlain apart own here, ?_⟩
  rintro ⟨field, h⟩
  exact ((qualifies_joined_path_iff joinedPlain other there).mp h).1 several

include outerPlain joinedPlain apart own other here there in
/-- Where no name of a table has a point or is shared by both tables, a join on a path of each table
takes both paths without their qualifiers exactly if they are single segments. A longer path of the
outer table keeps its qualifier, and with a longer path of the joined table the join is ambiguous.
-/
theorem takes_paths_iff :
    (Takes outer joined (q ++ "." ++ p) (j ++ "." ++ f) p f ↔
      '.' ∉ p.toList ∧ '.' ∉ f.toList) ∧
    ('.' ∉ f.toList → Takes outer joined (q ++ "." ++ p) (j ++ "." ++ f)
      (if '.' ∈ p.toList then q ++ "." ++ p else p) f) ∧
    ('.' ∈ f.toList →
      lookup outer joined (q ++ "." ++ p) (j ++ "." ++ f) =
        .error (.ambiguousJoinField (q ++ "." ++ p) (j ++ "." ++ f)) ∧
      lookup outer joined (j ++ "." ++ f) (q ++ "." ++ p) =
        .error (.ambiguousJoinField (j ++ "." ++ f) (q ++ "." ++ p))) := by
  have single : '.' ∉ f.toList → Takes outer joined (q ++ "." ++ p) (j ++ "." ++ f)
      (if '.' ∈ p.toList then q ++ "." ++ p else p) f :=
    takes_of_single outerPlain joinedPlain apart own other here there
  have several : '.' ∈ f.toList →
      (IsForeign joined (q ++ "." ++ p) ↔ IsForeign joined (j ++ "." ++ f)) := by
    intro point
    obtain ⟨ours, theirs⟩ :=
      not_isForeign_of_several outerPlain joinedPlain apart own other here there point
    exact iff_of_false ours theirs
  refine ⟨⟨fun taken => ?_, ?_⟩, single, fun point => ?_⟩
  · have short : '.' ∉ f.toList := fun point =>
      taken.not_ambiguous (lookup_eq_ambiguous_iff.mpr (several point))
    refine ⟨fun point => ?_, short⟩
    -- the field that is taken would be longer than itself
    have kept := taken.local_eq (single short)
    rw [if_pos point] at kept
    have length := congrArg String.length kept
    simp [String.length_append] at length
  · rintro ⟨point, short⟩
    have taken := single short
    rwa [if_neg point] at taken
  · exact ⟨lookup_eq_ambiguous_iff.mpr (several point),
      lookup_eq_ambiguous_iff.mpr (several point).symm⟩

end Paths

theorem takes_paths_iff_nested_city :
    Takes ⟨"users", some "u"⟩ ⟨"orders", none⟩ "u.address.city" "orders.city"
      "u.address.city" "city" ∧
    ¬ Takes ⟨"users", some "u"⟩ ⟨"orders", none⟩ "u.address.city" "orders.city"
      "address.city" "city" := by
  have nested : IsPath "address.city" :=
    ⟨["address", "city"], by simp, by simp, by decide +kernel⟩
  have single : IsPath "city" := ⟨["city"], by simp, by simp, by decide +kernel⟩
  have users : ∀ n ∈ TableRef.names ⟨"users", some "u"⟩, n ≠ "" ∧ '.' ∉ n.toList := by decide
  have orders : ∀ n ∈ TableRef.names ⟨"orders", none⟩, n ≠ "" ∧ '.' ∉ n.toList := by decide
  have own : "u" ∈ TableRef.names ⟨"users", some "u"⟩ := by decide
  have other : "orders" ∈ TableRef.names ⟨"orders", none⟩ := by decide
  obtain ⟨exact_, taken, _⟩ :=
    takes_paths_iff users orders (by decide) own other nested single
  refine ⟨taken (by decide), fun taken => ?_⟩
  exact (exact_.mp taken).1 (by decide)

/-- A path of the outer table keeps its qualifier if it has several segments. -/
theorem not_forall_takes_paths :
    ¬ ∀ (outer joined : TableRef) (q j p f : String),
      (∀ n ∈ outer.names, n ≠ "" ∧ '.' ∉ n.toList) →
      (∀ n ∈ joined.names, n ≠ "" ∧ '.' ∉ n.toList) →
      (∀ a ∈ outer.names, ∀ b ∈ joined.names, ¬ Text.sameWord a b = true) →
      q ∈ outer.names → j ∈ joined.names → IsPath p → IsPath f →
      Takes outer joined (q ++ "." ++ p) (j ++ "." ++ f) p f := by
  intro all
  have nested : IsPath "address.city" :=
    ⟨["address", "city"], by simp, by simp, by decide +kernel⟩
  have single : IsPath "city" := ⟨["city"], by simp, by simp, by decide +kernel⟩
  obtain ⟨stage, found, _, here, _⟩ := all ⟨"users", none⟩ ⟨"orders", none⟩ "users" "orders" _ _
    (by decide) (by decide) (by decide) (by decide) (by decide) nested single
  have kept : lookup ⟨"users", none⟩ ⟨"orders", none⟩ "users.address.city" "orders.city" =
      .ok ⟨"orders", "users.address.city", "city", "orders"⟩ := by
    decide +kernel
  cases kept.symm.trans found
  revert here
  decide

end Join

end SqlBridge
