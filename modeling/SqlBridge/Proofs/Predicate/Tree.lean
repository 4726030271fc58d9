import SqlBridge.Predicate.Basic

/-!
# The shape of predicates

The leaves of a predicate from left to right, and the predicates in which every group joins two
predicates at least. Folding a chain keeps the leaves in their order and makes no smaller group, and
with a single connective it makes one group of all terms.
-/

namespace SqlBridge.Predicate

mutual

/-- The comparisons and patterns from left to right. -/
def leaves : Predicate → List Predicate
  | .comparison field operator value => [.comparison field operator value]
  | .pattern field regex caseInsensitive => [.pattern field regex caseInsensitive]
  | .group _ children => leavesOf children

def leavesOf : List Predicate → List Predicate
  | [] => []
  | p :: rest => p.leaves ++ leavesOf rest

end

def field? : Predicate → Option String
  | .comparison field _ _ => some field
  | .pattern field _ _ => some field
  | .group _ _ => none

@[simp] theorem leaves_comparison (field : String) (operator : Operator) (value : Value) :
    (comparison field operator value).leaves = [comparison field operator value] := by
  rw [leaves]

@[simp] theorem leaves_pattern (field regex : String) (caseInsensitive : Bool) :
    (pattern field regex caseInsensitive).leaves = [pattern field regex caseInsensitive] := by
  rw [leaves]

@[simp] theorem leaves_group (logic : Logic) (children : List Predicate) :
    (group logic children).leaves = children.flatMap leaves := by
  rw [leaves]
  induction children with
  | nil => rw [leavesOf, List.flatMap_nil]
  | cons p rest ih => rw [leavesOf, ih, List.flatMap_cons]

mutual

theorem leafCount_eq_length_leaves : ∀ p : Predicate, p.leafCount = p.leaves.length
  | .comparison .. => by rw [leafCount, leaves_comparison, List.length_singleton]
  | .pattern .. => by rw [leafCount, leaves_pattern, List.length_singleton]
  | .group _ children => by rw [leafCount, leaves, leafCounts_eq_length_leavesOf]

theorem leafCounts_eq_length_leavesOf : ∀ ps : List Predicate,
    leafCounts ps = (leavesOf ps).length
  | [] => by rw [leafCounts, leavesOf, List.length_nil]
  | p :: rest => by
    rw [leafCounts, leavesOf, List.length_append, leafCount_eq_length_leaves p,
      leafCounts_eq_length_leavesOf rest]

end

/-- Every group joins two predicates at least. -/
inductive Grouped : Predicate → Prop where
  | comparison {field : String} {operator : Operator} {value : Value} :
      Grouped (.comparison field operator value)
  | pattern {field regex : String} {caseInsensitive : Bool} :
      Grouped (.pattern field regex caseInsensitive)
  | group {logic : Logic} {children : List Predicate} (two : 2 ≤ children.length)
      (all : ∀ p ∈ children, Grouped p) : Grouped (.group logic children)

mutual

/-- How deep a predicate nests, a comparison or a pattern counting as one level. -/
def height : Predicate → Nat
  | .comparison .. => 1
  | .pattern .. => 1
  | .group _ children => heights children + 1

def heights : List Predicate → Nat
  | [] => 0
  | p :: rest => max p.height (heights rest)

end

theorem height_le_heights {p : Predicate} {ps : List Predicate} (h : p ∈ ps) :
    p.height ≤ heights ps := by
  induction ps with
  | nil => cases h
  | cons q ps ih =>
    rw [heights]
    rcases List.mem_cons.mp h with rfl | h
    · exact Nat.le_max_left _ _
    · exact Nat.le_trans (ih h) (Nat.le_max_right _ _)

/-! ### Folding a chain -/

/-- Predicates with the connective of the group that may still grow are added to it. -/
theorem Chain.foldl_add_map (logic : Logic) (ps terms : List Predicate) :
    (ps.map (logic, ·)).foldl (fun c t => c.add t.1 t.2) (Chain.run logic terms) =
      .run logic (terms ++ ps) := by
  induction ps generalizing terms with
  | nil => rw [List.map_nil, List.foldl_nil, List.append_nil]
  | cons p ps ih =>
    rw [List.map_cons, List.foldl_cons, Chain.add, if_pos rfl, ih, List.append_assoc,
      List.singleton_append]

/-- Predicates joined by one connective are one group. -/
theorem ofChain_of_single_logic (logic : Logic) (first second : Predicate) (rest : List Predicate) :
    ofChain first ((second :: rest).map (logic, ·)) = .group logic (first :: second :: rest) := by
  have run := Chain.foldl_add_map logic rest [first, second]
  exact congrArg Chain.toPredicate run

theorem Chain.leaves_add (c : Chain) (logic : Logic) (p : Predicate) :
    (c.add logic p).toPredicate.leaves = c.toPredicate.leaves ++ p.leaves := by
  cases c with
  | single q => simp [Chain.add, Chain.toPredicate]
  | run l terms =>
    by_cases same : l = logic <;> simp [Chain.add, Chain.toPredicate, same]

theorem grouped_pair {logic : Logic} {p q : Predicate} (hp : Grouped p) (hq : Grouped q) :
    Grouped (.group logic [p, q]) := by
  refine .group (by simp) ?_
  intro r hr
  simp only [List.mem_cons, List.not_mem_nil, or_false] at hr
  rcases hr with rfl | rfl
  · exact hp
  · exact hq

theorem Chain.grouped_add {c : Chain} {logic : Logic} {p : Predicate}
    (hc : Grouped c.toPredicate) (hp : Grouped p) : Grouped (c.add logic p).toPredicate := by
  cases c with
  | single q => exact grouped_pair hc hp
  | run l terms =>
    by_cases same : l = logic
    · simp only [Chain.add, same, if_true, Chain.toPredicate]
      obtain ⟨two, all⟩ : 2 ≤ terms.length ∧ ∀ q ∈ terms, Grouped q := by
        cases hc with
        | group two all => exact ⟨two, all⟩
      refine .group (by simp; omega) ?_
      intro r hr
      rcases List.mem_append.mp hr with hr | hr
      · exact all r hr
      · exact List.mem_singleton.mp hr ▸ hp
    · simp only [Chain.add, same, if_false, Chain.toPredicate]
      exact grouped_pair hc hp

/-- The leaves of a folded chain are those of its terms in order. -/
theorem leaves_ofChain (first : Predicate) (rest : List (Logic × Predicate)) :
    (ofChain first rest).leaves = first.leaves ++ rest.flatMap fun t => t.2.leaves := by
  have general : ∀ c : Chain, (rest.foldl (fun c t => c.add t.1 t.2) c).toPredicate.leaves =
      c.toPredicate.leaves ++ rest.flatMap fun t => t.2.leaves := by
    induction rest with
    | nil => simp
    | cons t rest ih =>
      intro c
      rw [List.foldl_cons, ih, Chain.leaves_add, List.flatMap_cons, List.append_assoc]
  exact general (.single first)

/-- Folding a chain joins two predicates at least in each group it makes. -/
theorem grouped_ofChain {first : Predicate} {rest : List (Logic × Predicate)}
    (hfirst : Grouped first) (hrest : ∀ t ∈ rest, Grouped t.2) : Grouped (ofChain first rest) := by
  have general : ∀ c : Chain, Grouped c.toPredicate →
      Grouped (rest.foldl (fun c t => c.add t.1 t.2) c).toPredicate := by
    induction rest with
    | nil => exact fun c hc => hc
    | cons t rest ih =>
      obtain ⟨ht, hrest⟩ := List.forall_mem_cons.mp hrest
      exact fun c hc => ih hrest _ (Chain.grouped_add hc ht)
  exact general (.single first) hfirst

end SqlBridge.Predicate
