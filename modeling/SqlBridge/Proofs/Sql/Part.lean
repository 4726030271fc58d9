import Mathlib.Data.List.Nodup
import SqlBridge.Proofs.Literal
import SqlBridge.Proofs.OrderedMap
import SqlBridge.Sql.Render

/-!
# Rendered text with named parameters

The parameters of rendered text have numbers, and those of a statement to compile have names. Each
`$k` outside double quotes becomes `:k`, and the name `k` stands for the `k`-th value. For parts
without quotes and dollar signs in their fixed text this is the text that the parts spell with
colons.
-/

namespace SqlBridge.Sql

/-- The text with `:k` for each `$k` outside double quotes; it starts inside them if `quoted`. -/
def named (quoted : Bool) : List Char → List Char
  | [] => []
  | c :: cs =>
    (if !quoted && c = '$' && cs.head?.any Char.isDigit then ':' else c)
      :: named (if c = '"' then !quoted else quoted) cs

/-- The text of a query with `:k` for each parameter `$k`. -/
def Query.named (q : Query) : String :=
  String.ofList (Sql.named false q.text.toList)

/-- The parameters of a query by their numbers in decimal, the first one being `1`. -/
def Query.bindings (q : Query) : Params :=
  .ofList ((q.params.zipIdx 1).map fun e => (e.2.repr, e.1))

/-- The text of parts of which the first parameter is `:next`. -/
def spelt (next : Nat) : List Part → List Char
  | [] => []
  | .fixed text :: rest => text.toList ++ spelt next rest
  | .identifier name :: rest => Text.enclosed '"' name.toList ++ spelt next rest
  | .param _ :: rest => ':' :: next.repr.toList ++ spelt (next + 1) rest

/-- Fixed text has no double quotes and no dollar signs. -/
def Part.Quiet : Part → Prop
  | .fixed text => ∀ c ∈ text.toList, c ≠ '"' ∧ c ≠ '$'
  | _ => True

/-- The values are the parameters from the number `next` on. -/
def Bound (params : Params) : Nat → List Value → Prop
  | _, [] => True
  | next, v :: vs => params.get? next.repr = some v ∧ Bound params (next + 1) vs

variable {n : Nat} {ps qs : List Part} {cs ds : List Char} {quoted : Bool}

/-! ### Parts in a row -/

theorem paramsOf_append : paramsOf (ps ++ qs) = paramsOf ps ++ paramsOf qs := by
  induction ps with
  | nil => rfl
  | cons p ps ih => cases p <;> simp [paramsOf, ih]

theorem spelt_append : spelt n (ps ++ qs) = spelt n ps ++ spelt (n + (paramsOf ps).length) qs := by
  induction ps generalizing n with
  | nil => rfl
  | cons p ps ih =>
    cases p with
    | fixed text => simp [spelt, paramsOf, ih]
    | identifier name => simp [spelt, paramsOf, ih]
    | param value =>
      have number : n + 1 + (paramsOf ps).length = n + ((paramsOf ps).length + 1) := by omega
      simp [spelt, paramsOf, ih, number]

theorem bound_append {params : Params} {vs ws : List Value} :
    Bound params n (vs ++ ws) ↔ Bound params n vs ∧ Bound params (n + vs.length) ws := by
  induction vs generalizing n with
  | nil => simp [Bound]
  | cons v vs ih =>
    have number : n + 1 + vs.length = n + (vs.length + 1) := by omega
    simp only [List.cons_append, Bound, ih, List.length_cons, number, and_assoc]

/-! ### Dollar signs and colons -/

theorem named_append (quiet : ∀ c ∈ cs, c ≠ '"' ∧ c ≠ '$') :
    named quoted (cs ++ ds) = cs ++ named quoted ds := by
  induction cs with
  | nil => rfl
  | cons c cs ih =>
    obtain ⟨⟨quote, dollar⟩, others⟩ := List.forall_mem_cons.mp quiet
    simp only [List.cons_append, named, quote, dollar, if_false, decide_false, Bool.and_false,
      Bool.false_and, Bool.false_eq_true, ih others]

/-- Text in double quotes is left as it is. -/
theorem named_enclosed :
    named false (Text.enclosed '"' cs ++ ds) = Text.enclosed '"' cs ++ named false ds := by
  have inside : named true (Text.doubled '"' cs ++ '"' :: ds) =
      Text.doubled '"' cs ++ '"' :: named false ds := by
    induction cs with
    | nil => simp [Text.doubled, named]
    | cons c cs ih =>
      by_cases quote : c = '"'
      · have split : Text.doubled '"' (c :: cs) = '"' :: '"' :: Text.doubled '"' cs := by
          simp [Text.doubled, quote]
        rw [split]
        simpa [named] using ih
      · have split : Text.doubled '"' (c :: cs) = c :: Text.doubled '"' cs := by
          simp [Text.doubled, quote]
        rw [split]
        simpa [named, quote] using ih
  simpa [Text.enclosed, named] using inside

theorem named_param :
    named false ('$' :: (n.repr.toList ++ ds)) = ':' :: (n.repr.toList ++ named false ds) := by
  have quiet : ∀ c ∈ n.repr.toList, c ≠ '"' ∧ c ≠ '$' := by
    intro c hc
    have digit := Literal.isDigit_of_mem_repr hc
    constructor <;> rintro rfl <;> revert digit <;> decide
  have number : (n.repr.toList ++ ds).head?.any Char.isDigit = true := by
    obtain ⟨c, cs, split⟩ := List.exists_cons_of_ne_nil (Literal.repr_ne_nil n)
    have digit : c.isDigit = true := by
      apply Literal.isDigit_of_mem_repr (n := n)
      rw [split]
      exact List.mem_cons_self
    rw [split, List.cons_append, List.head?_cons]
    exact digit
  have apart : ¬ '$' = '"' := by decide
  rw [named, number, if_neg apart, named_append quiet]
  rfl

/-- With names for its parameters a text is what its parts spell. -/
theorem named_textFrom (quiet : ∀ p ∈ ps, p.Quiet) :
    named false (textFrom n ps).toList = spelt n ps := by
  induction ps generalizing n with
  | nil => rfl
  | cons p ps ih =>
    obtain ⟨first, others⟩ := List.forall_mem_cons.mp quiet
    cases p with
    | fixed text =>
      rw [textFrom, String.toList_append, named_append first, ih others, spelt]
    | identifier name =>
      have text : (Text.quoted '"' name).toList = Text.enclosed '"' name.toList :=
        String.toList_ofList
      rw [textFrom, String.toList_append, text, named_enclosed, ih others, spelt]
    | param value =>
      have dollar : "$".toList = ['$'] := rfl
      rw [textFrom, String.toList_append, String.toList_append, dollar, List.singleton_append,
        List.cons_append, named_param, ih others, spelt, List.cons_append]

example : (Query.mk "\"$1\" = $1" [.null]).named = "\"$1\" = :1" := by decide

/-! ### Names of parameters -/

theorem bound_of_zipIdx {params : Params} {vs : List Value}
    (given : ∀ e ∈ vs.zipIdx n, params.get? e.2.repr = some e.1) : Bound params n vs := by
  induction vs generalizing n with
  | nil => trivial
  | cons v vs ih =>
    rw [List.zipIdx_cons] at given
    obtain ⟨first, others⟩ := List.forall_mem_cons.mp given
    exact ⟨first, ih others⟩

/-- No two parameters have the same name. -/
theorem Query.bound_bindings (q : Query) : Bound q.bindings 1 q.params := by
  refine bound_of_zipIdx fun e listed => ?_
  have distinct : (((q.params.zipIdx 1).map fun e => (e.2.repr, e.1)).map Prod.fst).Nodup := by
    have keys : ((q.params.zipIdx 1).map fun e => (e.2.repr, e.1)).map Prod.fst =
        (List.range' 1 q.params.length).map Nat.repr := by
      rw [← List.zipIdx_map_snd, List.map_map, List.map_map]
      rfl
    have numbers : (List.range' 1 q.params.length).Nodup := List.nodup_range'
    rw [keys]
    exact numbers.map fun _ _ same => Literal.eq_of_repr_eq same
  exact OrderedMap.get?_ofList_of_mem distinct (List.mem_map_of_mem listed)

end SqlBridge.Sql
