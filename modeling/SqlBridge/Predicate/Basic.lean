import SqlBridge.Text.Basic
import SqlBridge.Value

/-!
# Predicates

A predicate is a tree of comparisons and patterns on fields, joined by groups of one connective.
A group made by `Predicate.joined` has two children at least; the type itself admits any number,
because predicates are also read from JSON.

Conditions joined by connectives are read strictly from left to right: there is no precedence
between the connectives. Conditions in a row with one connective share a group, and where the
connective changes, all that stands before becomes the first child of a new group.
-/

namespace SqlBridge

inductive Operator where
  | eq
  | ne
  | lt
  | lte
  | gt
  | gte
deriving DecidableEq, Inhabited, Repr

namespace Operator

def all : List Operator := [.eq, .ne, .lt, .lte, .gt, .gte]

/-- The symbols that denote an operator, the one it is written with first. -/
def symbols : Operator → List String
  | .eq => ["="]
  | .ne => ["<>", "!="]
  | .lt => ["<"]
  | .lte => ["<="]
  | .gt => [">"]
  | .gte => [">="]

def symbol : Operator → String
  | .eq => "="
  | .ne => "<>"
  | .lt => "<"
  | .lte => "<="
  | .gt => ">"
  | .gte => ">="

def ofSymbol? (s : String) : Option Operator :=
  all.find? fun o => o.symbols.contains s

def name : Operator → String
  | .eq => "eq"
  | .ne => "ne"
  | .lt => "lt"
  | .lte => "lte"
  | .gt => "gt"
  | .gte => "gte"

def ofName? (s : String) : Option Operator :=
  all.find? fun o => o.name = s

theorem head?_symbols (o : Operator) : o.symbols.head? = some o.symbol := by
  cases o <;> rfl

theorem ofName?_name (o : Operator) : ofName? o.name = some o := by
  cases o <;> decide

/-- A symbol denotes an operator exactly when it is one of the operator's symbols. -/
theorem ofSymbol?_eq_some_iff {s : String} {o : Operator} :
    ofSymbol? s = some o ↔ s ∈ o.symbols := by
  constructor
  · intro h
    simpa using List.find?_some h
  · intro h
    cases o <;> simp only [symbols, List.mem_cons, List.not_mem_nil, or_false] at h
    all_goals first
      | (subst h; decide)
      | (rcases h with rfl | rfl <;> decide)

end Operator

inductive Logic where
  | and
  | or
deriving DecidableEq, Inhabited, Repr

namespace Logic

def all : List Logic := [.and, .or]

def spellings : Logic → List String
  | .and => ["AND", "&&"]
  | .or => ["OR", "||"]

/-- The connective that a text spells, without regard to case. -/
def ofSpelling? (s : String) : Option Logic :=
  all.find? fun l => l.spellings.any fun w => Text.sameWord w s

def name : Logic → String
  | .and => "and"
  | .or => "or"

def ofName? (s : String) : Option Logic :=
  all.find? fun l => l.name = s

theorem ofName?_name (l : Logic) : ofName? l.name = some l := by
  cases l <;> decide

end Logic

/-- A boolean expression over the fields of a row. -/
inductive Predicate where
  /-- The field compares with the value in this way. -/
  | comparison (field : String) (operator : Operator) (value : Value)
  /-- The field has a match of a regular expression. -/
  | pattern (field : String) (regex : String) (caseInsensitive : Bool)
  /-- The children are joined by one connective. -/
  | group (logic : Logic) (children : List Predicate)
deriving Inhabited, Repr

namespace Predicate

mutual

def decEq : (p q : Predicate) → Decidable (p = q)
  | .comparison f o v, .comparison f' o' v' =>
    decidable_of_iff (f = f' ∧ o = o' ∧ v = v') (by simp)
  | .pattern f r c, .pattern f' r' c' => decidable_of_iff (f = f' ∧ r = r' ∧ c = c') (by simp)
  | .group l cs, .group l' cs' =>
    match decEqList cs cs' with
    | .isTrue h => decidable_of_iff (l = l') (by simp [h])
    | .isFalse h => .isFalse (by simp [h])
  | .comparison .., .pattern .. => .isFalse (by simp)
  | .comparison .., .group .. => .isFalse (by simp)
  | .pattern .., .comparison .. => .isFalse (by simp)
  | .pattern .., .group .. => .isFalse (by simp)
  | .group .., .comparison .. => .isFalse (by simp)
  | .group .., .pattern .. => .isFalse (by simp)

def decEqList : (ps qs : List Predicate) → Decidable (ps = qs)
  | [], [] => .isTrue rfl
  | [], _ :: _ => .isFalse (by simp)
  | _ :: _, [] => .isFalse (by simp)
  | p :: ps, q :: qs =>
    match decEq p q, decEqList ps qs with
    | .isTrue h, .isTrue h' => .isTrue (by rw [h, h'])
    | .isFalse h, _ => .isFalse (by simp [h])
    | _, .isFalse h => .isFalse (by simp [h])

end

instance : DecidableEq Predicate := decEq

/-- Join predicates by a connective: nothing for none, a single one as it is. -/
def joined (logic : Logic) : List Predicate → Option Predicate
  | [] => none
  | [p] => some p
  | children => some (.group logic children)

mutual

def leafCount : Predicate → Nat
  | .comparison .. => 1
  | .pattern .. => 1
  | .group _ children => leafCounts children

def leafCounts : List Predicate → Nat
  | [] => 0
  | p :: rest => p.leafCount + leafCounts rest

end

/-! ### Chains of conditions -/

/-- What has been read of a chain: a single condition, or a group that may still grow. -/
inductive Chain where
  | single (p : Predicate)
  | run (logic : Logic) (terms : List Predicate)

def Chain.toPredicate : Chain → Predicate
  | .single p => p
  | .run logic terms => .group logic terms

def Chain.add (c : Chain) (logic : Logic) (p : Predicate) : Chain :=
  match c with
  | .single q => .run logic [q, p]
  | .run l terms =>
    if l = logic then .run l (terms ++ [p]) else .run logic [.group l terms, p]

/-- The predicate of a first condition and the conditions after it, each with its connective. -/
def ofChain (first : Predicate) (rest : List (Logic × Predicate)) : Predicate :=
  (rest.foldl (fun c t => c.add t.1 t.2) (Chain.single first)).toPredicate

@[simp] theorem ofChain_nil (first : Predicate) : ofChain first [] = first := rfl

end Predicate

end SqlBridge
