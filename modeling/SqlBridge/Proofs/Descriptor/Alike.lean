import Mathlib.Data.List.Forall2
import SqlBridge.Document.Render
import SqlBridge.Proofs.Condition.Grammar
import SqlBridge.Proofs.OrderedMap
import SqlBridge.Sql.Render

/-!
# Descriptors that differ in their values

Two descriptors are alike if they are equal except for their values, which are related one by one.
If related values are null together, the SQL texts of such descriptors are the same, and their
documents have the same objects, keys and arrays. Both renderers only look at the form of a value to
tell null from the rest, and no value becomes a key or text.
-/

namespace SqlBridge

/-! ### Descriptors alike -/

/-- Predicates of one form, with related values at the leaves. -/
inductive Predicate.Alike (V : Value → Value → Prop) : Predicate → Predicate → Prop where
  | comparison {field : String} {operator : Operator} {v w : Value} (related : V v w) :
      Alike V (.comparison field operator v) (.comparison field operator w)
  | pattern {field : String} {caseInsensitive : Bool} {v w : Value} (related : V v w) :
      Alike V (.pattern field (Like.toRegex (Condition.patternOf v)) caseInsensitive)
        (.pattern field (Like.toRegex (Condition.patternOf w)) caseInsensitive)
  | group {logic : Logic} {ps qs : List Predicate} (all : List.Forall₂ (Alike V) ps qs) :
      Alike V (.group logic ps) (.group logic qs)

def SameKey {α β : Type} (R : α → β → Prop) (e : String × α) (f : String × β) : Prop :=
  e.1 = f.1 ∧ R e.2 f.2

/-- Descriptors that are equal except for related values. -/
inductive Descriptor.Alike (V : Value → Value → Prop) (d : Descriptor) : Descriptor → Prop where
  | values {filter : Option Predicate} {fields : OrderedMap Value}
      (filters : Option.Rel (Predicate.Alike V) d.filter filter)
      (entries : List.Forall₂ (SameKey V) d.fields.entries fields.entries) :
      Alike V d { d with filter, fields }

section SameKey

variable {α β : Type} {R : α → β → Prop} {es : List (String × α)} {fs : List (String × β)}

theorem keys_eq_of_sameKey (h : List.Forall₂ (SameKey R) es fs) :
    es.map Prod.fst = fs.map Prod.fst := by
  induction h with
  | nil => rfl
  | cons first _ ih => rw [List.map_cons, List.map_cons, first.1, ih]

theorem values_of_sameKey (h : List.Forall₂ (SameKey R) es fs) :
    List.Forall₂ R (es.map Prod.snd) (fs.map Prod.snd) := by
  induction h with
  | nil => exact .nil
  | cons first _ ih => exact .cons first.2 ih

theorem isEmpty_eq_of_sameKey (h : List.Forall₂ (SameKey R) es fs) : es.isEmpty = fs.isEmpty := by
  cases h <;> rfl

theorem sameKey_putEntry {k : String} {a : α} {b : β} (h : List.Forall₂ (SameKey R) es fs)
    (related : R a b) :
    List.Forall₂ (SameKey R) (OrderedMap.putEntry k a es) (OrderedMap.putEntry k b fs) := by
  induction h with
  | nil => exact .cons ⟨rfl, related⟩ .nil
  | @cons e f _ _ first others ih =>
    rw [OrderedMap.putEntry, OrderedMap.putEntry, ← first.1]
    by_cases here : e.1 = k
    · rw [if_pos here, if_pos here]
      exact .cons ⟨rfl, related⟩ others
    · rw [if_neg here, if_neg here]
      exact .cons first ih

/-- Inserting related entries one after the other gives related entries. -/
theorem sameKey_ofList (h : List.Forall₂ (SameKey R) es fs) :
    List.Forall₂ (SameKey R) (OrderedMap.ofList es).entries (OrderedMap.ofList fs).entries := by
  have general : ∀ (m : OrderedMap α) (n : OrderedMap β),
      List.Forall₂ (SameKey R) m.entries n.entries →
        List.Forall₂ (SameKey R) (es.foldl (fun m e => m.insert e.1 e.2) m).entries
          (fs.foldl (fun m e => m.insert e.1 e.2) n).entries := by
    induction h with
    | nil => exact fun _ _ start => start
    | @cons e f _ _ first _ ih =>
      intro m n start
      rw [List.foldl_cons, List.foldl_cons, ← first.1]
      exact ih _ _ (sameKey_putEntry start first.2)
  exact general .empty .empty .nil

end SameKey

/-! ### Computations that agree -/

/-- If both computations succeed, their outcomes are related. -/
def Agree {ε α β : Type} (R : α → β → Prop) (x : Except ε α) (y : Except ε β) : Prop :=
  ∀ a b, x = .ok a → y = .ok b → R a b

namespace Agree

variable {ε α β γ δ : Type} {R : α → β → Prop} {S : γ → δ → Prop} {x : Except ε α} {y : Except ε β}

theorem ok {a : α} {b : β} (h : R a b) : Agree R (.ok a : Except ε α) (.ok b) := by
  rintro _ _ ⟨⟩ ⟨⟩
  exact h

theorem error (e : ε) {y : Except ε β} : Agree R (.error e : Except ε α) y := by
  rintro _ _ ⟨⟩

theorem ite {c : Prop} [Decidable c] {x' : Except ε α} {y' : Except ε β} (h : Agree R x y)
    (h' : Agree R x' y') : Agree R (if c then x else x') (if c then y else y') := by
  by_cases hc : c
  · rwa [if_pos hc, if_pos hc]
  · rwa [if_neg hc, if_neg hc]

theorem bind {f : α → Except ε γ} {g : β → Except ε δ} (h : Agree R x y)
    (each : ∀ a b, R a b → Agree S (f a) (g b)) : Agree S (x >>= f) (y >>= g) := by
  intro c d hx hy
  cases x with
  | error e => cases hx
  | ok a =>
    cases y with
    | error e => cases hy
    | ok b => exact each a b (h a b rfl rfl) c d hx hy

theorem map {f : α → γ} {g : β → δ} (h : Agree R x y) (each : ∀ a b, R a b → S (f a) (g b)) :
    Agree S (x.map f) (y.map g) := by
  cases x with
  | error e => rintro _ _ ⟨⟩
  | ok a =>
    cases y with
    | error e => rintro _ _ _ ⟨⟩
    | ok b => exact ok (each a b (h a b rfl rfl))

theorem mapM {f : α → Except ε γ} {g : β → Except ε δ} {as : List α} {bs : List β}
    (related : List.Forall₂ R as bs) (each : ∀ a b, R a b → Agree S (f a) (g b)) :
    Agree (List.Forall₂ S) (as.mapM f) (bs.mapM g) := by
  induction related with
  | nil => exact ok .nil
  | cons first _ ih =>
    rw [List.mapM_cons, List.mapM_cons]
    exact (each _ _ first).bind fun _ _ head => ih.bind fun _ _ tail => ok (.cons head tail)

end Agree

variable {V : Value → Value → Prop} {v w : Value} {p q : Predicate} {d d' : Descriptor}

/-! ### SQL -/

namespace Sql

inductive Part.Alike : Part → Part → Prop where
  | same {p : Part} : Alike p p
  | param {v w : Value} : Alike (.param v) (.param w)

/-- Parts that are alike have the same text. -/
theorem textFrom_eq {n : Nat} {ps qs : List Part} (h : List.Forall₂ Part.Alike ps qs) :
    textFrom n ps = textFrom n qs := by
  induction h generalizing n with
  | nil => rfl
  | cons first _ ih =>
    cases first with
    | same => cases ‹Part› <;> rw [textFrom, textFrom, ih]
    | param => rw [textFrom, textFrom, ih]

theorem alike_refl (ps : List Part) : List.Forall₂ Part.Alike ps ps :=
  List.forall₂_same.mpr fun _ _ => .same

theorem alike_append {ps ps' qs qs' : List Part} (h : List.Forall₂ Part.Alike ps ps')
    (h' : List.Forall₂ Part.Alike qs qs') : List.Forall₂ Part.Alike (ps ++ qs) (ps' ++ qs') :=
  List.rel_append h h'

theorem alike_separatedBy {separator : String} {pss qss : List (List Part)}
    (h : List.Forall₂ (List.Forall₂ Part.Alike) pss qss) :
    List.Forall₂ Part.Alike (separatedBy separator pss) (separatedBy separator qss) := by
  induction h with
  | nil => exact .nil
  | cons first others ih =>
    cases others with
    | nil => exact first
    | cons => exact alike_append first (.cons .same ih)

theorem eq_of_value {ps : List Part} (h : value v = .ok ps) :
    ps = [if v.isNull then .fixed "NULL" else .param v] := by
  cases v <;> cases h <;> rfl

theorem agree_value (nulls : v.isNull = w.isNull) :
    Agree (List.Forall₂ Part.Alike) (value v) (value w) := by
  intro ps qs hv hw
  rw [eq_of_value hv, eq_of_value hw, nulls]
  by_cases null : w.isNull = true
  · rw [if_pos null, if_pos null]
    exact alike_refl _
  · rw [if_neg null, if_neg null]
    exact .cons .param .nil

theorem agree_comparedWith {field : String} {operator : Operator} (nulls : v.isNull = w.isNull) :
    Agree (List.Forall₂ Part.Alike) (comparedWith field operator v)
      (comparedWith field operator w) := by
  unfold comparedWith
  rw [nulls]
  by_cases null : w.isNull = true
  · rw [if_pos null, if_pos null]
    intro ps qs hv hw
    obtain rfl := Except.ok.inj (hv.symm.trans hw)
    exact alike_refl ps
  · rw [if_neg null, if_neg null]
    exact (agree_value nulls).map fun _ _ h => .cons .same h

mutual

theorem agree_predicate (nulls : ∀ v w, V v w → v.isNull = w.isNull) : ∀ p q,
    Predicate.Alike V p q → Agree (List.Forall₂ Part.Alike) (predicate p) (predicate q)
  | .comparison field operator v, _, h => by
    cases h with
    | comparison related =>
      rw [predicate, predicate]
      refine (agree_comparedWith (nulls _ _ related)).bind fun _ _ rest => .ok ?_
      exact alike_append (alike_append (alike_refl _) rest) (alike_refl _)
  | .pattern field regex caseInsensitive, _, h => by
    cases h with
    | pattern =>
      rw [predicate, predicate]
      exact .ok (alike_append (alike_refl _) (.cons .same (.cons .param (.cons .same .nil))))
  | .group logic ps, _, h => by
    cases h with
    | group all =>
      rw [predicate, predicate]
      refine (agree_predicates nulls ps _ all).bind fun _ _ inner => .ok ?_
      exact alike_append (.cons .same (alike_separatedBy inner)) (alike_refl _)

theorem agree_predicates (nulls : ∀ v w, V v w → v.isNull = w.isNull) : ∀ ps qs,
    List.Forall₂ (Predicate.Alike V) ps qs →
      Agree (List.Forall₂ (List.Forall₂ Part.Alike)) (predicates ps) (predicates qs)
  | [], _, h => by
    cases h
    exact .ok .nil
  | p :: ps, _, h => by
    cases h with
    | cons first others =>
      rw [predicates, predicates]
      refine (agree_predicate nulls p _ first).bind fun _ _ head => ?_
      exact (agree_predicates nulls ps _ others).bind fun _ _ tail => .ok (.cons head tail)

end

variable (nulls : ∀ v w, V v w → v.isNull = w.isNull)

include nulls

theorem agree_whereClause {f g : Option Predicate} (h : Option.Rel (Predicate.Alike V) f g) :
    Agree (List.Forall₂ Part.Alike) (whereClause f) (whereClause g) := by
  cases h with
  | some related =>
    rw [whereClause, whereClause]
    exact (agree_predicate nulls _ _ related).map fun _ _ inner => .cons .same inner
  | none => exact .ok .nil

theorem agree_values {vs ws : List Value} (h : List.Forall₂ V vs ws) :
    Agree (List.Forall₂ (List.Forall₂ Part.Alike)) (vs.mapM value) (ws.mapM value) :=
  .mapM h fun v w related => agree_value (nulls v w related)

/-- Descriptors that are alike have parts that are alike. -/
theorem agree_parts (h : d.Alike V d') : Agree (List.Forall₂ Part.Alike) (parts d) (parts d') := by
  cases h with
  | @values filter fields filters entries =>
    have wheres := agree_whereClause nulls filters
    have given := agree_values nulls (values_of_sameKey entries)
    have keys : d.fields.keys = fields.keys := keys_eq_of_sameKey entries
    have empty : d.fields.isEmpty = fields.isEmpty := isEmpty_eq_of_sameKey entries
    have assignments : Agree (List.Forall₂ (List.Forall₂ Part.Alike))
        (d.fields.entries.mapM assignment) (fields.entries.mapM assignment) := by
      refine .mapM entries ?_
      rintro ⟨column, v⟩ ⟨_, w⟩ ⟨rfl, related⟩
      exact (agree_value (nulls v w related)).map fun _ _ h => .cons .same (.cons .same h)
    unfold parts
    cases d.kind with
    | select | command =>
      refine wheres.bind fun _ _ filter => .ok ?_
      exact alike_append (alike_append (alike_append (alike_refl _) filter) (alike_refl _))
        (alike_refl _)
    | insert =>
      simp only [insert, empty]
      refine .ite (.error _) (given.bind fun _ _ values => .ok ?_)
      rw [keys]
      exact alike_append (alike_append (alike_append (alike_refl _) (alike_separatedBy values))
        (alike_refl _)) (alike_refl _)
    | update =>
      simp only [update, empty]
      refine .ite (.error _)
        (assignments.bind fun _ _ fields => wheres.bind fun _ _ filter => .ok ?_)
      exact alike_append (alike_append (alike_refl _) (alike_separatedBy fields)) filter
    | delete => exact wheres.bind fun _ _ filter => .ok (alike_append (alike_refl _) filter)
    | procedure =>
      simp only [procedure]
      cases d.procedureName with
      | none => exact .error _
      | some name =>
        refine given.bind fun _ _ values => .ok ?_
        exact alike_append (alike_append (alike_refl _) (alike_separatedBy values)) (alike_refl _)

/-- Descriptors that are alike have the same text. -/
theorem text_eq_of_alike (h : d.Alike V d') {query query' : Query} (first : render d = .ok query)
    (second : render d' = .ok query') : query.text = query'.text := by
  have texts : Agree (fun q q' : Query => q.text = q'.text) (render d) (render d') :=
    (agree_parts nulls h).map fun _ _ parts => textFrom_eq parts
  exact texts query query' first second

end Sql

/-! ### Documents -/

/-- Documents of one form: the same objects, keys and arrays, with leaves that are equal or
related. -/
inductive Json.Alike (L : Json → Json → Prop) : Json → Json → Prop where
  | same {j : Json} : Alike L j j
  | leaf {j k : Json} (related : L j k) : Alike L j k
  | arr {js ks : List Json} (all : List.Forall₂ (Alike L) js ks) : Alike L (.arr js) (.arr ks)
  | obj {es fs : List (String × Json)} (keys : es.map Prod.fst = fs.map Prod.fst)
      (values : List.Forall₂ (Alike L) (es.map Prod.snd) (fs.map Prod.snd)) :
      Alike L (.obj es) (.obj fs)

namespace Document

/-- The leaves that related values leave in a document: their scalars, or the regular expressions of
the patterns that they are. -/
inductive Leaf (V : Value → Value → Prop) : Json → Json → Prop where
  | value {v w : Value} {j k : Json} (related : V v w) (first : v.toJson? = some j)
      (second : w.toJson? = some k) : Leaf V j k
  | regex {v w : Value} (related : V v w) :
      Leaf V (.str (Like.toRegex (Condition.patternOf v)))
        (.str (Like.toRegex (Condition.patternOf w)))

/-- Documents that differ in what related values leave. -/
abbrev Alike (V : Value → Value → Prop) : Json → Json → Prop :=
  Json.Alike (Leaf V)

theorem alike_obj {es fs : List (String × Json)} (h : List.Forall₂ (SameKey (Alike V)) es fs) :
    Alike V (.obj es) (.obj fs) :=
  .obj (keys_eq_of_sameKey h) (values_of_sameKey h)

theorem alike_document {es fs : List (String × Json)}
    (h : List.Forall₂ (SameKey (Alike V)) es fs) : Alike V (document es) (document fs) :=
  alike_obj (sameKey_ofList h)

/-- An object of a single key. -/
theorem alike_single {key : String} {j k : Json} (h : Alike V j k) :
    Alike V (.obj [(key, j)]) (.obj [(key, k)]) :=
  alike_obj (.cons ⟨rfl, h⟩ .nil)

theorem sameKey_refl (es : List (String × Json)) : List.Forall₂ (SameKey (Alike V)) es es :=
  List.forall₂_same.mpr fun _ _ => ⟨rfl, .same⟩

theorem toJson?_of_value {j : Json} (h : value v = .ok j) : v.toJson? = some j := by
  unfold value at h
  split at h
  · cases h
  · split at h
    · cases h
      assumption
    · cases h

theorem agree_value (related : V v w) : Agree (Alike V) (value v) (value w) :=
  fun _ _ hv hw => .leaf (.value related (toJson?_of_value hv) (toJson?_of_value hw))

theorem alike_condition {operator : Operator} {j k : Json} (h : Alike V j k) :
    Alike V (condition operator j) (condition operator k) := by
  unfold condition
  by_cases eq : operator = .eq
  · rwa [if_pos eq, if_pos eq]
  · rw [if_neg eq, if_neg eq]
    exact alike_single h

mutual

theorem agree_filter : ∀ p q, Predicate.Alike V p q → Agree (Alike V) (filter p) (filter q)
  | .comparison field operator v, _, h => by
    cases h with
    | comparison related =>
      rw [filter, filter]
      exact (agree_value related).bind fun _ _ leaf => .ok (alike_single (alike_condition leaf))
  | .pattern field regex caseInsensitive, _, h => by
    cases h with
    | pattern related =>
      rw [filter, filter]
      refine .ok (alike_single (alike_obj (.cons ⟨rfl, .leaf (.regex related)⟩ ?_)))
      exact sameKey_refl _
  | .group logic ps, _, h => by
    cases h with
    | group all =>
      rw [filter, filter]
      exact (agree_filters ps _ all).bind fun _ _ inner => .ok (alike_single (.arr inner))

theorem agree_filters : ∀ ps qs, List.Forall₂ (Predicate.Alike V) ps qs →
    Agree (List.Forall₂ (Alike V)) (filters ps) (filters qs)
  | [], _, h => by
    cases h
    exact .ok .nil
  | p :: ps, _, h => by
    cases h with
    | cons first others =>
      rw [filters, filters]
      refine (agree_filter p _ first).bind fun _ _ head => ?_
      exact (agree_filters ps _ others).bind fun _ _ tail => .ok (.cons head tail)

end

section Query

variable {o o' : Option Json} (h : Option.Rel (Alike V) o o')

include h

theorem alike_stage (key : String) : List.Forall₂ (Alike V) (stage key o) (stage key o') := by
  cases h with
  | some body => exact .cons (alike_single body) .nil
  | none => exact .nil

theorem alike_field (key : String) :
    List.Forall₂ (SameKey (Alike V)) (field key o) (field key o') := by
  cases h with
  | some body => exact .cons ⟨rfl, body⟩ .nil
  | none => exact .nil

theorem alike_getD : Alike V (o.getD (.obj [])) (o'.getD (.obj [])) := by
  cases h with
  | some body => exact body
  | none => exact .same

end Query

theorem alike_append {js js' ks ks' : List Json} (h : List.Forall₂ (Alike V) js js')
    (h' : List.Forall₂ (Alike V) ks ks') : List.Forall₂ (Alike V) (js ++ ks) (js' ++ ks') :=
  List.rel_append h h'

theorem alike_refl (js : List Json) : List.Forall₂ (Alike V) js js :=
  List.forall₂_same.mpr fun _ _ => .same

theorem alike_aggregate {table : String} {js ks : List Json} (h : List.Forall₂ (Alike V) js ks) :
    Alike V (aggregate table js) (aggregate table ks) :=
  alike_obj (.cons ⟨rfl, .same⟩ (.cons ⟨rfl, .arr h⟩ (sameKey_refl _)))

theorem agree_filterDocument? (h : Option.Rel (Predicate.Alike V) d.filter d'.filter) :
    Agree (Option.Rel (Alike V)) (filterDocument? d) (filterDocument? d') := by
  unfold filterDocument?
  generalize d.filter = f at h
  generalize d'.filter = g at h
  cases h with
  | some related => exact (agree_filter _ _ related).map fun _ _ body => .some body
  | none => exact .ok .none

theorem agree_fieldDocument (h : List.Forall₂ (SameKey V) d.fields.entries d'.fields.entries) :
    Agree (Alike V) (fieldDocument d) (fieldDocument d') := by
  have entries : Agree (List.Forall₂ (SameKey (Alike V)))
      (d.fields.entries.mapM fun e => (value e.2).map (e.1, ·))
      (d'.fields.entries.mapM fun e => (value e.2).map (e.1, ·)) := by
    refine .mapM h ?_
    rintro ⟨key, v⟩ ⟨_, w⟩ ⟨rfl, related⟩
    exact (agree_value related).map fun _ _ leaf => ⟨rfl, leaf⟩
  exact entries.map fun _ _ h => alike_document h

theorem alike_find {o o' : Option Json} (h : Option.Rel (Alike V) o o') :
    Alike V (find d o) (find d o') := by
  have fields := List.rel_append (sameKey_refl [("find", .str d.table)]) (alike_field h "filter")
  exact alike_obj (List.rel_append (List.rel_append (List.rel_append (List.rel_append fields
    (sameKey_refl _)) (sameKey_refl _)) (sameKey_refl _)) (sameKey_refl _))

theorem alike_distinct {o o' : Option Json} (h : Option.Rel (Alike V) o o') :
    Alike V (distinct d o) (distinct d o') := by
  unfold distinct
  simp only
  split
  · exact alike_obj (.cons ⟨rfl, .same⟩ (.cons ⟨rfl, .same⟩ (.cons ⟨rfl, alike_getD h⟩ .nil)))
  · exact alike_aggregate (alike_append (alike_append (alike_append (alike_append
      (alike_stage h "$match") (alike_refl _)) (alike_refl _)) (alike_refl _)) (alike_refl _))

theorem agree_pipeline {filter : Option Predicate} {fields : OrderedMap Value}
    (h : Option.Rel (Predicate.Alike V) d.filter filter) :
    Agree (List.Forall₂ (Alike V)) (pipeline d) (pipeline { d with filter, fields }) := by
  refine (agree_filterDocument? h).bind fun _ _ query => .ok ?_
  exact alike_append (alike_append (alike_append (alike_append (alike_append
    (alike_stage query "$match") (alike_refl _)) (alike_refl _)) (alike_refl _)) (alike_refl _))
    (alike_refl _)

/-- Descriptors that are alike have commands that are alike. -/
theorem agree_command (h : d.Alike V d') : Agree (Alike V) (command d) (command d') := by
  cases h with
  | @values filter fields filters entries =>
    have written : Agree (Alike V) (fieldDocument d) (fieldDocument { d with filter, fields }) :=
      agree_fieldDocument entries
    have stages :
        Agree (List.Forall₂ (Alike V)) (pipeline d) (pipeline { d with filter, fields }) :=
      agree_pipeline filters
    refine (agree_filterDocument? filters).bind fun query query' related => ?_
    cases d.kind with
    | select =>
      exact .ite (.ok (alike_find related)) (stages.bind fun _ _ h => .ok (alike_aggregate h))
    | command => exact .ok (alike_distinct related)
    | insert =>
      refine written.bind fun _ _ row => .ok (alike_obj (.cons ⟨rfl, .same⟩ ?_))
      exact .cons ⟨rfl, .arr (.cons row .nil)⟩ (sameKey_refl _)
    | update =>
      refine written.bind fun _ _ row => .ok (alike_obj (.cons ⟨rfl, .same⟩ ?_))
      refine .cons ⟨rfl, .arr (.cons (alike_obj ?_) .nil)⟩ .nil
      exact .cons ⟨rfl, alike_getD related⟩ (.cons ⟨rfl, alike_single row⟩ (sameKey_refl _))
    | delete =>
      refine .ok (alike_obj (.cons ⟨rfl, .same⟩ ?_))
      refine .cons ⟨rfl, .arr (.cons (alike_obj ?_) .nil)⟩ .nil
      exact .cons ⟨rfl, alike_getD related⟩ (sameKey_refl _)
    | procedure =>
      simp only
      cases d.procedureName with
      | none => exact .error _
      | some name =>
        refine written.bind fun _ _ row => .ok (alike_obj (.cons ⟨rfl, .same⟩ ?_))
        exact .cons ⟨rfl, row⟩ .nil

end Document

end SqlBridge
