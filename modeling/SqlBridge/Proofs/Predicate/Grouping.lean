import Mathlib.Data.List.SplitBy
import SqlBridge.Proofs.Predicate.Tree

/-!
# Groups made of a chain

Terms that one connective joins in a row are a run of a chain. Folding the chain makes one group for
each run: its first child is all that stands before the run, and its other children are the terms of
the run. A term stays what it is, even if it is a group of the same connective. So a folded chain
means its terms joined strictly from left to right.
-/

namespace SqlBridge

namespace Logic

def join : Logic → Bool → Bool → Bool
  | .and, a, b => a && b
  | .or, a, b => a || b

/-- The truth value of a group: all of its children hold, or any of them does. -/
def holds : Logic → List Bool → Bool
  | .and, values => values.all id
  | .or, values => values.any id

/-- Joining the children of a group one after the other gives the truth value of the group. -/
theorem holds_cons (logic : Logic) (b : Bool) (bs : List Bool) :
    logic.holds (b :: bs) = bs.foldl logic.join b := by
  induction bs generalizing b with
  | nil => cases logic <;> simp [holds]
  | cons c bs ih =>
    rw [List.foldl_cons, ← ih]
    cases logic
    · simp [holds, join, Bool.and_assoc]
    · simp [holds, join, Bool.or_assoc]

end Logic

namespace Predicate

mutual

/-- The truth value of a predicate whose comparisons and patterns have the given truth values. -/
def eval (truth : Predicate → Bool) : Predicate → Bool
  | .comparison field operator value => truth (.comparison field operator value)
  | .pattern field regex caseInsensitive => truth (.pattern field regex caseInsensitive)
  | .group logic children => logic.holds (evals truth children)

def evals (truth : Predicate → Bool) : List Predicate → List Bool
  | [] => []
  | p :: rest => p.eval truth :: evals truth rest

end

theorem eval_group (truth : Predicate → Bool) (logic : Logic) (children : List Predicate) :
    (group logic children).eval truth = logic.holds (children.map (eval truth)) := by
  rw [eval]
  congr 1
  induction children with
  | nil => rw [evals, List.map_nil]
  | cons p rest ih => rw [evals, ih, List.map_cons]

/-- Groups made of terms, which are leaves here whatever they are. Only the first child of a group
can be a group that was made, and a group has a second child. -/
inductive Grouping (α : Type) where
  | term (a : α)
  | group (logic : Logic) (first : Grouping α) (second : α) (others : List α)

namespace Grouping

variable {α : Type}

def toPredicate (predicate : α → Predicate) : Grouping α → Predicate
  | .term a => predicate a
  | .group logic first second others =>
    .group logic (first.toPredicate predicate :: (second :: others).map predicate)

def terms : Grouping α → List α
  | .term a => [a]
  | .group _ first second others => first.terms ++ second :: others

def value (truth : α → Bool) : Grouping α → Bool
  | .term a => truth a
  | .group logic first second others =>
    logic.holds (first.value truth :: (second :: others).map truth)

def groupCount : Grouping α → Nat
  | .term _ => 0
  | .group _ first _ _ => first.groupCount + 1

def logic? : Grouping α → Option Logic
  | .term _ => none
  | .group logic _ _ _ => some logic

/-- No group has the connective of the group that is its first child. -/
def Alternates : Grouping α → Prop
  | .term _ => True
  | .group logic first _ _ => first.logic? ≠ some logic ∧ first.Alternates

/-- All so far as the first child of one more group, the other children being the terms of a run. -/
def extend (g : Grouping α) : List (Logic × α) → Grouping α
  | [] => g
  | t :: ts => .group t.1 g t.2 (ts.map Prod.snd)

theorem extend_run (g : Grouping α) (logic : Logic) (a : α) (as : List α) :
    g.extend ((a :: as).map (logic, ·)) = .group logic g a as := by
  have others : (as.map (logic, ·)).map Prod.snd = as := by simp [Function.comp_def]
  rw [List.map_cons, extend, others]

end Grouping

section Runs

variable {α : Type}

/-- The terms after the first one in runs, as long as possible, of one connective each. -/
def runs (rest : List (Logic × α)) : List (List (Logic × α)) :=
  rest.splitBy fun s t => s.1 == t.1

/-- One group for each run of terms. -/
def grouping (first : α) (rest : List (Logic × α)) : Grouping α :=
  (runs rest).foldl Grouping.extend (.term first)

/-- Runs of one connective each, which is not that of the run before. -/
inductive Alternating : Option Logic → List (List (Logic × α)) → Prop where
  | nil {previous : Option Logic} : Alternating previous []
  | cons {previous : Option Logic} {logic : Logic} {a : α} {as : List α}
      {others : List (List (Logic × α))} (apart : previous ≠ some logic)
      (next : Alternating (some logic) others) :
      Alternating previous ((a :: as).map (logic, ·) :: others)

/-- Neighbours with one connective all have that connective. -/
theorem fst_eq_of_isChain {t : Logic × α} {ts : List (Logic × α)}
    (same : (t :: ts).IsChain fun s t => (s.1 == t.1) = true) : ∀ u ∈ t :: ts, u.1 = t.1 := by
  induction ts generalizing t with
  | nil => simp
  | cons u ts ih =>
    obtain ⟨here, others⟩ := List.isChain_cons_cons.mp same
    have equal : t.1 = u.1 := beq_iff_eq.mp here
    exact List.forall_mem_cons.mpr ⟨rfl, fun v listed => (ih others v listed).trans equal.symm⟩

theorem alternating_of_isChain {previous : Option Logic} {rs : List (List (Logic × α))}
    (filled : [] ∉ rs) (same : ∀ run ∈ rs, run.IsChain fun s t => (s.1 == t.1) = true)
    (apart : rs.IsChain fun r s => ∃ hr hs, ((r.getLast hr).1 == (s.head hs).1) = false)
    (start : ∀ run ∈ rs.head?, ∀ t ∈ run.head?, previous ≠ some t.1) :
    Alternating previous rs := by
  induction rs generalizing previous with
  | nil => exact .nil
  | cons run rs ih =>
    rw [List.mem_cons, not_or] at filled
    obtain ⟨t, ts, rfl⟩ := List.exists_cons_of_ne_nil (Ne.symm filled.1)
    obtain ⟨here, others⟩ := List.forall_mem_cons.mp same
    have equal := fst_eq_of_isChain here
    have shape : t :: ts = (t.2 :: ts.map Prod.snd).map (t.1, ·) := by
      rw [List.map_cons, List.map_map]
      have each : ts.map id = ts.map fun u => (t.1, u.2) :=
        List.map_congr_left fun u listed =>
          Prod.ext (equal u (List.mem_cons_of_mem t listed)) rfl
      rw [List.map_id] at each
      exact congrArg (t :: ·) each
    rw [shape]
    refine .cons (start _ rfl _ rfl) (ih filled.2 others apart.tail fun second hsecond u hu => ?_)
    -- the last term of this run has the connective of the first one
    obtain ⟨rs, rfl⟩ := List.head?_eq_some_iff.mp hsecond
    obtain ⟨⟨hr, hs, differ⟩, _⟩ := List.isChain_cons_cons.mp apart
    obtain ⟨us, rfl⟩ := List.head?_eq_some_iff.mp hu
    rw [equal _ (List.getLast_mem hr), List.head_cons] at differ
    simpa using differ

theorem alternating_runs (rest : List (Logic × α)) : Alternating none (runs rest) :=
  alternating_of_isChain (List.nil_notMem_splitBy _ rest) (fun _ => List.isChain_of_mem_splitBy)
    (List.isChain_getLast_head_splitBy (fun s t => s.1 == t.1) rest) (by simp)

theorem flatten_runs (rest : List (Logic × α)) : (runs rest).flatten = rest :=
  List.flatten_splitBy _ rest

end Runs

/-! ### The folded chain -/

def Chain.logic? : Chain → Option Logic
  | .single _ => none
  | .run logic _ => some logic

/-- A run of another connective becomes the group of what stands before it and the terms. -/
theorem Chain.foldl_add_run {c : Chain} {logic : Logic} (p : Predicate) (ps : List Predicate)
    (apart : c.logic? ≠ some logic) :
    ((p :: ps).map (logic, ·)).foldl (fun c t => c.add t.1 t.2) c =
      .run logic (c.toPredicate :: p :: ps) := by
  have start : c.add logic p = .run logic [c.toPredicate, p] := by
    cases c with
    | single q => rfl
    | run l terms =>
      have differ : l ≠ logic := fun same => apart (congrArg some same)
      rw [add, if_neg differ, toPredicate]
  rw [List.map_cons, List.foldl_cons, start, foldl_add_map]
  rfl

section Grouping

variable {α : Type} {rs : List (List (Logic × α))} {previous : Option Logic}

/-- Folding a chain of runs makes one group for each of them. -/
theorem toPredicate_foldl_extend {predicate : α → Predicate} {c : Chain} {g : Grouping α}
    (alternating : Alternating c.logic? rs) (same : c.toPredicate = g.toPredicate predicate) :
    ((rs.flatten.map fun t => (t.1, predicate t.2)).foldl
      (fun c t => c.add t.1 t.2) c).toPredicate =
        (rs.foldl Grouping.extend g).toPredicate predicate := by
  induction rs generalizing c g with
  | nil => exact same
  | cons run rs ih =>
    cases alternating with
    | @cons _ logic a as _ apart next =>
      have image : ((a :: as).map (logic, ·)).map (fun t => (t.1, predicate t.2)) =
          (predicate a :: as.map predicate).map (logic, ·) := by simp
      rw [List.flatten_cons, List.map_append, List.foldl_append, image,
        Chain.foldl_add_run _ _ apart, List.foldl_cons]
      have grown :
          (Chain.run logic (c.toPredicate :: predicate a :: as.map predicate)).toPredicate =
            (g.extend ((a :: as).map (logic, ·))).toPredicate predicate := by
        rw [same, Grouping.extend_run]
        rfl
      exact ih next grown

theorem toPredicate_grouping (predicate : α → Predicate) (first : α) (rest : List (Logic × α)) :
    (grouping first rest).toPredicate predicate =
      ofChain (predicate first) (rest.map fun t => (t.1, predicate t.2)) := by
  have start : (Chain.single (predicate first)).toPredicate =
      (Grouping.term first).toPredicate predicate := rfl
  have alternating : Alternating (Chain.single (predicate first)).logic? (runs rest) :=
    alternating_runs rest
  have folded := toPredicate_foldl_extend alternating start
  rw [flatten_runs] at folded
  exact folded.symm

theorem terms_foldl_extend (g : Grouping α) (rs : List (List (Logic × α))) :
    (rs.foldl Grouping.extend g).terms = g.terms ++ rs.flatten.map Prod.snd := by
  induction rs generalizing g with
  | nil => rw [List.foldl_nil, List.flatten_nil, List.map_nil, List.append_nil]
  | cons run rs ih =>
    have grown : (g.extend run).terms = g.terms ++ run.map Prod.snd := by
      cases run with
      | nil => rw [Grouping.extend, List.map_nil, List.append_nil]
      | cons t ts => rw [Grouping.extend, Grouping.terms, List.map_cons]
    rw [List.foldl_cons, ih, grown, List.flatten_cons, List.map_append, List.append_assoc]

/-- A group of a run has the value of all before it and the terms joined one after the other. -/
theorem value_foldl_extend {g : Grouping α} (truth : α → Bool)
    (alternating : Alternating previous rs) :
    (rs.foldl Grouping.extend g).value truth =
      rs.flatten.foldl (fun b t => t.1.join b (truth t.2)) (g.value truth) := by
  induction alternating generalizing g with
  | nil => rfl
  | @cons _ logic a as others _ _ ih =>
    have grown : (g.extend ((a :: as).map (logic, ·))).value truth =
        ((a :: as).map (logic, ·)).foldl (fun b t => t.1.join b (truth t.2)) (g.value truth) := by
      rw [Grouping.extend_run, Grouping.value, Logic.holds_cons, List.foldl_map, List.foldl_map]
    rw [List.foldl_cons, ih, grown, List.flatten_cons, List.foldl_append]

theorem groupCount_foldl_extend {g : Grouping α} (alternating : Alternating previous rs) :
    (rs.foldl Grouping.extend g).groupCount = g.groupCount + rs.length := by
  induction alternating generalizing g with
  | nil => rfl
  | @cons _ logic a as others _ _ ih =>
    rw [List.foldl_cons, ih, Grouping.extend_run, Grouping.groupCount, List.length_cons]
    omega

theorem alternates_foldl_extend {g : Grouping α} (alternating : Alternating g.logic? rs)
    (before : g.Alternates) : (rs.foldl Grouping.extend g).Alternates := by
  induction rs generalizing g with
  | nil => exact before
  | cons run rs ih =>
    cases alternating with
    | @cons _ logic a as _ apart next =>
      have grown : (g.extend ((a :: as).map (logic, ·))).Alternates := ⟨apart, before⟩
      exact ih next grown

/-- A predicate made of groups has the value that its groups have for the values of its terms. -/
theorem eval_toPredicate (truth : Predicate → Bool) (predicate : α → Predicate) (g : Grouping α) :
    (g.toPredicate predicate).eval truth = g.value fun a => (predicate a).eval truth := by
  induction g with
  | term a => rfl
  | group logic first second others ih =>
    rw [Grouping.toPredicate, eval_group, List.map_cons, ih, List.map_map]
    rfl

/-- A folded chain is its terms in groups, one for each run. Whatever truth values the terms have,
the groups have the value of the terms joined strictly from left to right, and so has the predicate
for the values that its terms have. The groups hold the terms in order, and no group has the
connective of the group that was made before it. -/
theorem ofChain_grouped_by_runs (predicate : α → Predicate) (first : α)
    (rest : List (Logic × α)) :
    ofChain (predicate first) (rest.map fun t => (t.1, predicate t.2)) =
        (grouping first rest).toPredicate predicate ∧
      (∀ truth : α → Bool, (grouping first rest).value truth =
        rest.foldl (fun b t => t.1.join b (truth t.2)) (truth first)) ∧
      (∀ truth : Predicate → Bool,
        (ofChain (predicate first) (rest.map fun t => (t.1, predicate t.2))).eval truth =
          rest.foldl (fun b t => t.1.join b ((predicate t.2).eval truth))
            ((predicate first).eval truth)) ∧
      (grouping first rest).terms = first :: rest.map Prod.snd ∧
      (grouping first rest).groupCount = (runs rest).length ∧
      (grouping first rest).Alternates := by
  have folded := toPredicate_grouping predicate first rest
  have joined : ∀ truth : α → Bool, (grouping first rest).value truth =
      rest.foldl (fun b t => t.1.join b (truth t.2)) (truth first) := by
    intro truth
    rw [grouping, value_foldl_extend truth (alternating_runs rest), flatten_runs]
    rfl
  refine ⟨folded.symm, joined, fun truth => ?_, ?_, ?_, ?_⟩
  · rw [← folded, eval_toPredicate, joined]
  · rw [grouping, terms_foldl_extend, flatten_runs]
    rfl
  · rw [grouping, groupCount_foldl_extend (alternating_runs rest), Grouping.groupCount,
      Nat.zero_add]
  · exact alternates_foldl_extend (g := .term first) (alternating_runs rest) trivial

/-- A term that is itself a group of the connective stays a child of the group that is made. -/
example (p q r : Predicate) :
    ofChain (.group .and [p, q]) [(.and, r)] = .group .and [.group .and [p, q], r] :=
  rfl

end Grouping

end Predicate

end SqlBridge
