import SqlBridge.Descriptor.Basic
import SqlBridge.Proofs.Predicate.Tree
import SqlBridge.Proofs.Statement.Projection
import SqlBridge.Settings.Basic

/-!
# What the settings decide in a descriptor

Two things in a descriptor come from the settings and not from the statement: whether patterns
mind the case of letters, and which key is excluded from a list of columns. Both can be set anew in
a descriptor, as if it had been compiled under other settings.
-/

namespace SqlBridge

/-! ### Patterns -/

namespace Predicate

mutual

/-- The predicate with all of its patterns minding case or not. -/
def withCase (caseInsensitive : Bool) : Predicate → Predicate
  | .comparison field operator value => .comparison field operator value
  | .pattern field regex _ => .pattern field regex caseInsensitive
  | .group logic children => .group logic (withCases caseInsensitive children)

def withCases (caseInsensitive : Bool) : List Predicate → List Predicate
  | [] => []
  | p :: rest => p.withCase caseInsensitive :: withCases caseInsensitive rest

end

variable {b : Bool}

@[simp] theorem withCase_comparison (field : String) (operator : Operator) (value : Value) :
    (comparison field operator value).withCase b = .comparison field operator value := by
  rw [withCase]

@[simp] theorem withCase_pattern (field regex : String) (c : Bool) :
    (pattern field regex c).withCase b = .pattern field regex b := by
  rw [withCase]

@[simp] theorem withCase_group (logic : Logic) (children : List Predicate) :
    (group logic children).withCase b = .group logic (children.map (withCase b)) := by
  have cases : ∀ ps : List Predicate, withCases b ps = ps.map (withCase b) := by
    intro ps
    induction ps with
    | nil => rw [withCases, List.map_nil]
    | cons p ps ih => rw [withCases, ih, List.map_cons]
  rw [withCase, cases]

/-- The chain with all of its patterns minding case or not. -/
def Chain.withCase (b : Bool) : Chain → Chain
  | .single p => .single (p.withCase b)
  | .run logic terms => .run logic (terms.map (Predicate.withCase b))

theorem Chain.toPredicate_withCase (c : Chain) :
    (c.withCase b).toPredicate = c.toPredicate.withCase b := by
  cases c with
  | single p => rfl
  | run logic terms => rw [withCase, toPredicate, toPredicate, withCase_group]

theorem Chain.add_withCase (c : Chain) (logic : Logic) (p : Predicate) :
    (c.withCase b).add logic (p.withCase b) = (c.add logic p).withCase b := by
  cases c with
  | single q => simp [Chain.withCase, Chain.add]
  | run l terms =>
    by_cases same : l = logic <;> simp [Chain.withCase, Chain.add, same]

/-- Folding a chain does not look at its patterns. -/
theorem ofChain_withCase (first : Predicate) (terms : List (Logic × Predicate)) :
    ofChain (first.withCase b) (terms.map (Prod.map id (withCase b))) =
      (ofChain first terms).withCase b := by
  have general : ∀ c : Chain,
      ((terms.map (Prod.map id (withCase b))).foldl (fun c t => c.add t.1 t.2)
        (c.withCase b)).toPredicate =
      (terms.foldl (fun c t => c.add t.1 t.2) c).toPredicate.withCase b := by
    induction terms with
    | nil => exact Chain.toPredicate_withCase
    | cons t terms ih =>
      intro c
      rw [List.map_cons, List.foldl_cons, List.foldl_cons, Prod.map_fst, Prod.map_snd, id_eq,
        Chain.add_withCase, ih]
  exact general (.single first)

mutual

/-- Every pattern minds case as it was set. -/
theorem case_of_mem_leaves {field regex : String} {c : Bool} : ∀ {p : Predicate},
    pattern field regex c ∈ (p.withCase b).leaves → c = b
  | .comparison .., h => by simp at h
  | .pattern .., h => by simp at h; exact h.2.2
  | .group logic children, h => by
    rw [withCase, leaves] at h
    exact case_of_mem_leavesOf h

theorem case_of_mem_leavesOf {field regex : String} {c : Bool} : ∀ {ps : List Predicate},
    pattern field regex c ∈ leavesOf (withCases b ps) → c = b
  | [], h => by simp [withCases, leavesOf] at h
  | p :: rest, h => by
    rw [withCases, leavesOf, List.mem_append] at h
    rcases h with h | h
    · exact case_of_mem_leaves h
    · exact case_of_mem_leavesOf h

end

end Predicate

/-! ### Excluded keys -/

namespace OrderedMap

variable {m : OrderedMap Bool} {key : String}

/-- The entries that include their key. -/
def including (m : OrderedMap Bool) : OrderedMap Bool where
  entries := m.entries.filter Prod.snd
  nodup := m.nodup.sublist (List.filter_sublist.map Prod.fst)

/-- The inclusions, and behind them the exclusion of a key that is not included. A map without
entries means everything and stays as it is. -/
def excluding (key : String) (m : OrderedMap Bool) : OrderedMap Bool :=
  if m.isEmpty then m
  else if m.including.contains key then m.including
  else m.including.insert key false

theorem including_insert (new : m.contains key = false) :
    (m.insert key false).including = m.including := by
  apply OrderedMap.ext
  simp only [including, entries_insert_of_new new, List.filter_append, List.filter_cons,
    Bool.false_eq_true, if_false, List.filter_nil, List.append_nil]

theorem including_of_all (all : ∀ e ∈ m.entries, e.2 = true) : m.including = m := by
  apply OrderedMap.ext
  rw [including]
  exact List.filter_eq_self.mpr all

theorem isEmpty_of_contains (present : m.contains key = true) :
    m.isEmpty = false := by
  obtain ⟨v, _, listed⟩ := get?_of_contains present
  exact List.isEmpty_eq_false_iff_exists_mem.mpr ⟨_, listed⟩

theorem isEmpty_insert {v : Bool} : (m.insert key v).isEmpty = false := by
  have present : (m.insert key v).contains key = true := by simp [contains_insert]
  exact isEmpty_of_contains present

/-- Nothing is excluded but the key. -/
theorem eq_of_mem_excluding {e : String × Bool} (listed : e ∈ (m.excluding key).entries)
    (hidden : e.2 = false) : e = (key, false) := by
  have included : e ∉ m.including.entries := by
    intro shown
    rw [(List.mem_filter.mp shown).2] at hidden
    cases hidden
  rw [excluding] at listed
  split at listed
  · next empty =>
    rw [eq_empty_of_isEmpty empty] at listed
    cases listed
  · split at listed
    · exact absurd listed included
    · rw [entries_insert] at listed
      exact (mem_putEntry listed).resolve_right included

end OrderedMap

namespace Select

theorem of_mem_shownColumns {items : List (String × Option String)} :
    ∀ e ∈ (shownColumns items).entries, e.2 = true := by
  intro e listed
  obtain ⟨i, _, rfl⟩ := List.mem_map.mp (OrderedMap.mem_entries_ofList listed)
  rfl

/-- The primary key decides only which key is excluded. -/
theorem included_shown (key other : String) (items : List (String × Option String)) :
    (shown other items).included = (shown key items).included.excluding other := by
  have all : (shownColumns items).including = shownColumns items :=
    OrderedMap.including_of_all of_mem_shownColumns
  have excluded : (shown key items).included.excluding other =
      if (shownColumns items).contains other then shownColumns items
      else (shownColumns items).insert other false := by
    rw [shown, OrderedMap.excluding]
    dsimp only
    by_cases listed : (shownColumns items).contains key = true
    · rw [if_pos listed, OrderedMap.isEmpty_of_contains listed, all]
      rfl
    · rw [if_neg listed, OrderedMap.isEmpty_insert,
        OrderedMap.including_insert (Bool.eq_false_iff.mpr listed), all]
      rfl
  rw [excluded, shown]

theorem projection_excluding (key other : String) (columns : List Column) :
    projection other columns = (projection key columns).map fun p =>
      { p with included := p.included.excluding other } := by
  by_cases star : Column.star ∈ columns
  · have star : columns.contains .star = true := List.contains_iff_mem.mpr star
    rw [projection, projection, if_pos star, if_pos star]
    by_cases alone : columns.length = 1
    · rw [if_pos alone]; rfl
    · rw [if_neg alone]; rfl
  · obtain ⟨items, rfl⟩ := exists_named star
    have shows (k : String) : projection k (named items) = .ok (shown k items) :=
      projection_eq_ok_iff.mpr (.inr ⟨items, rfl, rfl⟩)
    rw [shows, shows, Except.map, ← included_shown]
    rfl

end Select

/-! ### Descriptors -/

namespace Descriptor

/-- The descriptor as it would be under other settings. -/
def under (settings : Settings) (d : Descriptor) : Descriptor :=
  { d with
    filter := d.filter.map (Predicate.withCase settings.caseInsensitiveLike)
    projection := d.projection.excluding settings.primaryKey }

end Descriptor

end SqlBridge
