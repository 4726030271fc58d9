import Mathlib.Data.List.Induction
import SqlBridge.Proofs.Document.Distinct

/-!
# How a sort document orders rows

A list of fields to order by compares two rows by the first field in which they differ. As a sort
document it has one key for each field, at the place at which the field is first listed and with the
direction in which it is listed last. The place makes no difference, because a field that is listed
again decides nothing. So the document orders rows as the list does exactly if no field is listed
last in another direction than first.
-/

namespace SqlBridge

def Direction.applied : Direction → Ordering → Ordering
  | .asc, o => o
  | .desc, o => o.swap

namespace OrderElement

variable {V : Type}

/-- How two rows compare by a list of fields: in the direction of the first field in which they
differ. A row is given by its value at each field path. -/
def compareRows (cmp : V → V → Ordering) (r s : String → V) : List OrderElement → Ordering
  | [] => .eq
  | e :: es => (e.direction.applied (cmp (r e.field) (s e.field))).then (compareRows cmp r s es)

/-- The direction in which a field is listed first. -/
def firstDirection (es : List OrderElement) (field : String) : Direction :=
  ((es.find? fun e => e.field = field).map (·.direction)).getD .asc

def lastDirection (es : List OrderElement) (field : String) : Direction :=
  firstDirection es.reverse field

def directed (direction : String → Direction) (fields : List String) : List OrderElement :=
  fields.map fun field => ⟨field, direction field⟩

variable {cmp : V → V → Ordering} {r s : String → V} {es fs : List OrderElement} {e : OrderElement}
  {field : String} {fields : List String} {direction : String → Direction}

theorem applied_eq_eq_iff {d : Direction} {o : Ordering} : d.applied o = .eq ↔ o = .eq := by
  cases d with
  | asc => exact Iff.rfl
  | desc => exact Ordering.swap_eq_eq

theorem applied_inj {d d' : Direction} {o : Ordering} (differ : o ≠ .eq) :
    d.applied o = d'.applied o ↔ d = d' := by
  cases d <;> cases d' <;> cases o <;> simp_all [Direction.applied]

/-! ### Comparing rows -/

theorem then_of_ne_eq {o o' : Ordering} (decided : o ≠ .eq) : o.then o' = o := by
  cases o with
  | eq => exact absurd rfl decided
  | lt => rfl
  | gt => rfl

theorem compareRows_append :
    compareRows cmp r s (es ++ fs) = (compareRows cmp r s es).then (compareRows cmp r s fs) := by
  induction es with
  | nil => rw [List.nil_append, compareRows, Ordering.eq_then]
  | cons e es ih => rw [List.cons_append, compareRows, compareRows, ih, Ordering.then_assoc]

theorem compareRows_eq_eq_iff :
    compareRows cmp r s es = .eq ↔ ∀ e ∈ es, cmp (r e.field) (s e.field) = .eq := by
  induction es with
  | nil => simp [compareRows]
  | cons e es ih =>
    rw [compareRows, Ordering.then_eq_eq, applied_eq_eq_iff, ih, List.forall_mem_cons]

/-- A field that is listed again decides nothing. -/
theorem compareRows_append_of_listed (listed : e.field ∈ es.map (·.field)) :
    compareRows cmp r s (es ++ [e]) = compareRows cmp r s es := by
  rw [compareRows_append]
  by_cases same : compareRows cmp r s es = .eq
  · obtain ⟨f, among, field⟩ := List.mem_map.mp listed
    have again : compareRows cmp r s [e] = .eq := by
      rw [compareRows_eq_eq_iff, List.forall_mem_singleton, ← field]
      exact compareRows_eq_eq_iff.mp same f among
    rw [again, Ordering.then_eq]
  · exact then_of_ne_eq same

/-- Rows that differ in one field only compare in the direction in which it is listed first. -/
theorem compareRows_of_single (listed : field ∈ es.map (·.field))
    (differ : cmp (r field) (s field) ≠ .eq)
    (others : ∀ other, other ≠ field → cmp (r other) (s other) = .eq) :
    compareRows cmp r s es = (firstDirection es field).applied (cmp (r field) (s field)) := by
  induction es with
  | nil => cases listed
  | cons e es ih =>
    by_cases here : e.field = field
    · have decided : e.direction.applied (cmp (r field) (s field)) ≠ .eq :=
        mt applied_eq_eq_iff.mp differ
      have first : firstDirection (e :: es) field = e.direction := by
        simp [firstDirection, here]
      rw [compareRows, first, here]
      exact then_of_ne_eq decided
    · have later : firstDirection (e :: es) field = firstDirection es field := by
        simp [firstDirection, here]
      have listed := (List.mem_cons.mp listed).resolve_left (Ne.symm here)
      rw [compareRows, applied_eq_eq_iff.mpr (others _ here), Ordering.eq_then, later, ih listed]

/-! ### Directions -/

theorem firstDirection_directed (listed : field ∈ fields) :
    firstDirection (directed direction fields) field = direction field := by
  induction fields with
  | nil => cases listed
  | cons f fields ih =>
    by_cases here : f = field
    · simp [firstDirection, directed, here]
    · have later := ih ((List.mem_cons.mp listed).resolve_left (Ne.symm here))
      simpa [firstDirection, directed, here] using later

theorem map_field_directed : (directed direction fields).map (·.field) = fields := by
  rw [directed, List.map_map]
  exact List.map_id fields

/-- In comparisons every element may take the direction of the first one of its field. -/
theorem compareRows_firstDirection :
    compareRows cmp r s (directed (firstDirection es) (es.map (·.field))) =
      compareRows cmp r s es := by
  induction es using List.reverseRecOn with
  | nil => rfl
  | append_singleton es e ih =>
    have before : directed (firstDirection (es ++ [e])) (es.map (·.field)) =
        directed (firstDirection es) (es.map (·.field)) := by
      refine List.map_congr_left fun field listed => ?_
      obtain ⟨f, among, same⟩ := List.mem_map.mp listed
      have found : (es.find? fun e => e.field = field).isSome :=
        List.find?_isSome.mpr ⟨f, among, by simpa using same⟩
      rw [firstDirection, firstDirection, List.find?_append, Option.or_of_isSome found]
    have split : directed (firstDirection (es ++ [e])) ((es ++ [e]).map (·.field)) =
        directed (firstDirection es) (es.map (·.field)) ++
          [⟨e.field, firstDirection (es ++ [e]) e.field⟩] := by
      rw [List.map_append, directed, List.map_append, ← before]
      rfl
    rw [split]
    by_cases listed : e.field ∈ es.map (·.field)
    · rw [compareRows_append_of_listed (by rwa [map_field_directed]),
        compareRows_append_of_listed listed, ih]
    · have absent : (es.find? fun f => f.field = e.field) = none := by
        rw [List.find?_eq_none]
        intro f among same
        exact listed (List.mem_map.mpr ⟨f, among, by simpa using same⟩)
      have first : firstDirection (es ++ [e]) e.field = e.direction := by
        rw [firstDirection, List.find?_append, absent]
        simp
      rw [first, compareRows_append, compareRows_append, ih]

/-- In comparisons a list of fields may be replaced by its fields without repetition. -/
theorem compareRows_keys {β : Type} {entries : List (String × β)} :
    compareRows cmp r s (directed direction (OrderedMap.ofList entries).keys) =
      compareRows cmp r s (directed direction (entries.map Prod.fst)) := by
  induction entries using List.reverseRecOn with
  | nil => rfl
  | append_singleton entries e ih =>
    have split : directed direction ((entries ++ [e]).map Prod.fst) =
        directed direction (entries.map Prod.fst) ++ [⟨e.1, direction e.1⟩] := by
      simp [directed]
    rw [split, OrderedMap.ofList_append_singleton, OrderedMap.keys_insert]
    by_cases listed : e.1 ∈ entries.map Prod.fst
    · rw [if_pos (OrderedMap.contains_ofList.mpr listed), ih,
        compareRows_append_of_listed (by rwa [map_field_directed])]
    · have last : directed direction ((OrderedMap.ofList entries).keys ++ [e.1]) =
          directed direction (OrderedMap.ofList entries).keys ++ [⟨e.1, direction e.1⟩] := by
        simp [directed]
      rw [if_neg (mt OrderedMap.contains_ofList.mp listed), last, compareRows_append,
        compareRows_append, ih]

end OrderElement

namespace Document

open OrderElement

variable {d : Descriptor} {es : List OrderElement}

/-- A sort document gives each field the direction in which it is listed last. -/
theorem entries_ofList_sortEntry :
    (OrderedMap.ofList (es.map sortEntry)).entries =
      (directed (lastDirection es) (OrderedMap.ofList (es.map sortEntry)).keys).map sortEntry := by
  rw [OrderedMap.keys, directed, List.map_map, List.map_map]
  refine (List.map_id _).symm.trans (List.map_congr_left fun entry listed => ?_)
  have found := OrderedMap.get?_of_mem listed
  rw [OrderedMap.get?_ofList, ← List.map_reverse, List.find?_map] at found
  obtain ⟨_, written, value⟩ := Option.map_eq_some_iff.mp found
  obtain ⟨e, last, rfl⟩ := Option.map_eq_some_iff.mp written
  have listed_last : (es.reverse.find? fun e => e.field = entry.1) = some e := last
  have same : e.field = entry.1 := by simpa using List.find?_some listed_last
  have direction : lastDirection es entry.1 = e.direction := by
    rw [lastDirection, firstDirection, listed_last]
    rfl
  rw [Function.comp_apply, Function.comp_apply, direction, ← same]
  exact Prod.ext same.symm value.symm

/-! ### The document and the list -/

/-- The sort document of a list orders rows as the list with the last direction of each field. It
orders them as the list itself, whatever their values and however values compare, exactly if the
first direction of each field is also its last one. -/
theorem sort_orders_iff (ordered : d.orderBy ≠ []) :
    ∃ order, sort? d = some (.obj (order.map sortEntry)) ∧
      (∀ (V : Type) (cmp : V → V → Ordering) (r s : String → V),
        compareRows cmp r s order = compareRows cmp r s
          (directed (lastDirection d.orderBy) (d.orderBy.map (·.field)))) ∧
      ((∀ (V : Type) (cmp : V → V → Ordering) (r s : String → V),
          compareRows cmp r s order = compareRows cmp r s d.orderBy) ↔
        ∀ e ∈ d.orderBy,
          firstDirection d.orderBy e.field = lastDirection d.orderBy e.field) := by
  have relabelled (V : Type) (cmp : V → V → Ordering) (r s : String → V) :
      compareRows cmp r s (directed (lastDirection d.orderBy)
        (OrderedMap.ofList (d.orderBy.map sortEntry)).keys) = compareRows cmp r s
          (directed (lastDirection d.orderBy) (d.orderBy.map (·.field))) := by
    rw [compareRows_keys, List.map_map]
    rfl
  refine ⟨_, (sort?_eq ordered).trans (by rw [entries_ofList_sortEntry]), relabelled, ?_, ?_⟩
  · intro agree e listed
    -- two rows that differ in the field of the element only
    let r : String → Nat := fun _ => 0
    let s : String → Nat := fun field => if field = e.field then 1 else 0
    have field : e.field ∈ d.orderBy.map (·.field) := List.mem_map_of_mem listed
    have differ : compare (r e.field) (s e.field) ≠ .eq := by simp [r, s]
    have others : ∀ other, other ≠ e.field → compare (r other) (s other) = .eq := by
      intro other apart
      simp [r, s, apart]
    have same := (relabelled Nat compare r s).symm.trans (agree Nat compare r s)
    rw [compareRows_of_single (by rwa [map_field_directed]) differ others,
      compareRows_of_single field differ others, firstDirection_directed field,
      applied_inj differ] at same
    exact same.symm
  · intro same V cmp r s
    have directions : directed (lastDirection d.orderBy) (d.orderBy.map (·.field)) =
        directed (firstDirection d.orderBy) (d.orderBy.map (·.field)) := by
      refine List.map_congr_left fun field listed => ?_
      obtain ⟨e, among, rfl⟩ := List.mem_map.mp listed
      rw [same e among]
    rw [relabelled, directions, compareRows_firstDirection]

theorem sort_orders_iff_repeated_field : ∃ d,
    compile {} "SELECT * FROM t ORDER BY a, b DESC, a" ∅ = .ok d ∧ d.orderBy ≠ [] ∧
      ∃ order, sort? d = some (.obj (order.map sortEntry)) ∧
        ∀ (V : Type) (cmp : V → V → Ordering) (r s : String → V),
          compareRows cmp r s order = compareRows cmp r s d.orderBy := by
  let d : Descriptor := {
    kind := .select
    table := "t"
    orderBy := [⟨"a", .asc⟩, ⟨"b", .desc⟩, ⟨"a", .asc⟩] }
  have ordered : d.orderBy ≠ [] := by decide
  obtain ⟨order, sorted, _, agree⟩ := sort_orders_iff ordered
  exact ⟨d, by decide +kernel, ordered, order, sorted, agree.mpr (by decide)⟩

/-- A field that is listed again in the other direction is ordered in that direction. -/
theorem not_forall_sort_orders :
    ¬ ∀ (settings : Settings) (text : String) (params : Params) (d : Descriptor)
      (order : List OrderElement), compile settings text params = .ok d → d.orderBy ≠ [] →
      sort? d = some (.obj (order.map sortEntry)) →
      ∀ (V : Type) (cmp : V → V → Ordering) (r s : String → V),
        compareRows cmp r s order = compareRows cmp r s d.orderBy := by
  intro all
  have compiled : compile {} "SELECT * FROM t ORDER BY a, a DESC" ∅ = .ok {
      kind := .select
      table := "t"
      orderBy := [⟨"a", .asc⟩, ⟨"a", .desc⟩] } := by
    decide +kernel
  have agree := all _ _ _ _ [⟨"a", .desc⟩] compiled (by decide) rfl Nat compare
    (fun _ => 0) (fun _ => 1)
  exact absurd agree (by decide)

end Document

end SqlBridge
