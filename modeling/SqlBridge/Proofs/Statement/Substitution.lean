import SqlBridge.Proofs.Literal
import SqlBridge.Proofs.Statement.Agreement
import SqlBridge.Proofs.Statement.Rebinding

/-!
# Binding and writing out

A parameter that is bound to a placeholder means what its value means when it is written in place of
the placeholder. So it does not matter which of the two is done, and parameters that no placeholder
of a statement names do not matter at all.
-/

namespace SqlBridge

/-- The token that writes a value. Floats have none here, and placeholders are no values to
write. -/
def Value.token? : Value → Option Token
  | .null => some (.word "NULL")
  | .bool true => some (.word "true")
  | .bool false => some (.word "false")
  | .int i => some (.word i.toInt.repr)
  | .str s => some (.quoted s)
  | .float _ => none
  | .placeholder _ => none

/-- The token stands for a value, and that is the value it writes. -/
theorem Value.literal_of_token? {v : Value} {u : Token} (written : v.token? = some u) :
    u.isValue = true ∧ u.literal = v ∧ v.isPlaceholder = false := by
  cases v with
  | null => cases written; exact ⟨rfl, by decide, rfl⟩
  | bool b => cases b <;> cases written <;> exact ⟨rfl, by decide, rfl⟩
  | int i => cases written; exact ⟨rfl, Literal.ofWord_toInt_repr i, rfl⟩
  | str s => cases written; exact ⟨rfl, rfl, rfl⟩
  | float x => cases written
  | placeholder name => cases written

namespace Statement

/-- Write a token in place of a placeholder, wherever that stands as a value. -/
def writeOut (name : String) (u : Token) (tokens : List Token) : List Token :=
  (places tokens).map fun x =>
    if x.2.holdsValue = true ∧ x.1 = .word (":" ++ name) then u else x.1

end Statement

namespace Pairing

/-- The pairing in which a token may stand opposite a placeholder. -/
def writing (name : String) (u : Token) (value : u.isValue = true) : Pairing where
  keeps _ := True
  swaps t u' := t = .word (":" ++ name) ∧ u' = u
  isValue := by
    rintro _ _ ⟨rfl, rfl⟩
    exact ⟨rfl, value⟩

variable {name : String} {u : Token} {value : u.isValue = true} {ctx : Context} {v : Value}

/-- Written out, a statement is paired with itself. -/
theorem aligned_writing (s : Place) (ts : List Token) :
    (writing name u value).Aligned s ts ((s.along ts).map fun x =>
      if x.2.holdsValue = true ∧ x.1 = .word (":" ++ name) then u else x.1) := by
  induction ts generalizing s with
  | nil => exact .nil
  | cons t ts ih =>
    rw [Place.along, List.map_cons]
    dsimp only
    split
    · next stands => exact .swap stands.1 ⟨stands.2, rfl⟩ (ih _)
    · exact .same trivial (ih _)

/-- A placeholder gives the value of its parameter, as the token does that writes it. -/
theorem fits_writing (named : name.toList ≠ []) (found : ctx.params.get? name = some v)
    (written : v.token? = some u) : (writing name u value).Fits ctx ctx := by
  obtain ⟨_, literal, plain⟩ := Value.literal_of_token? written
  have placeholder : (Token.word (":" ++ name)).literal = .placeholder name :=
    Literal.ofWord_placeholder named
  refine ⟨rfl, fun {t u'} paired => ?_⟩
  rcases paired with ⟨_, rfl⟩ | ⟨rfl, rfl⟩
  · rfl
  · rw [Params.valueOf, Params.valueOf, literal, placeholder, Params.bind_of_plain plain,
      Params.bind, found]
    simp [plain]

end Pairing

open Pairing

/-- Writing out a placeholder does not change what a statement compiles to. -/
theorem Statement.toOption_ofTokens_writeOut {ctx : Context} {tokens : List Token} {name : String}
    {v : Value} {u : Token} (named : name.toList ≠ []) (found : ctx.params.get? name = some v)
    (written : v.token? = some u)
    (call : ∀ text, tokens.head? = some (.word text) → opening? text ≠ some .procedure) :
    (ofTokens ctx (writeOut name u tokens)).toOption = (ofTokens ctx tokens).toOption := by
  obtain ⟨value, _, _⟩ := Value.literal_of_token? written
  have aligned : (writing name u value).Aligned .opening tokens (writeOut name u tokens) :=
    aligned_writing _ _
  rcases ofTokens_agree (fits_writing named found written) aligned
    fun text first opened => absurd opened (call text first) with agree | ⟨_, x, y, left, right⟩
  · rw [agree]
    cases compiled : ofTokens ctx tokens with
    | error e => rfl
    | ok d => rw [Except.map, Descriptor.under_of_ofTokens compiled]
  · rw [left, right]
    rfl

/-- Parameters matter only for the placeholders that stand in a statement. -/
theorem compile_congr_params {settings : Settings} {text : String} {params params' : Params}
    (same : ∀ tokens, Token.tokenize (Statement.normalize text) = .ok tokens → ∀ word name,
      .word word ∈ tokens → Literal.placeholder? word = some name →
        params'.get? name = params.get? name) :
    compile settings text params' = compile settings text params := by
  have values : ∀ tokens, Token.tokenize (Statement.normalize text) = .ok tokens →
      ∀ t ∈ tokens, params'.valueOf t = params.valueOf t := by
    intro tokens tokenized t listed
    refine Params.valueOf_congr fun name literal => ?_
    obtain ⟨word, rfl, placeholder⟩ := Token.word_of_literal_eq_placeholder literal
    exact same tokens tokenized word name listed placeholder
  rw [compile_under rfl values]
  cases compiled : compile settings text params with
  | error e => rfl
  | ok d => rw [Except.map, Descriptor.under_of_compile compiled]

/-- A parameter with a name means its value written out, and a parameter that no placeholder names
means nothing. Only in a call has a placeholder more to say, the name of its argument. -/
theorem binding_eq_writing :
    (∀ (ctx : Context) (tokens : List Token) (name : String) (v : Value) (u : Token), name ≠ "" →
      ctx.params.get? name = some v → v.token? = some u →
      (∀ text, tokens.head? = some (.word text) →
        Statement.opening? text ≠ some .procedure) →
      (Statement.ofTokens ctx (Statement.writeOut name u tokens)).toOption =
        (Statement.ofTokens ctx tokens).toOption) ∧
    ∀ (settings : Settings) (text : String) (params params' : Params),
      (∀ tokens, Token.tokenize (Statement.normalize text) = .ok tokens → ∀ word name,
        .word word ∈ tokens → Literal.placeholder? word = some name →
          params'.get? name = params.get? name) →
      compile settings text params' = compile settings text params := by
  refine ⟨fun ctx tokens name v u named found written call => ?_, fun _ _ _ _ => ?_⟩
  · have filled : name.toList ≠ [] := fun empty => named (String.toList_eq_nil_iff.mp empty)
    exact Statement.toOption_ofTokens_writeOut filled found written call
  · exact compile_congr_params

theorem binding_eq_writing_update :
    (Statement.ofTokens ⟨{}, .ofList [("p", .int (-5))]⟩ [.word "UPDATE", .word "t", .word "SET",
        .word ":p", .symbol "=", .word "-5", .word "WHERE", .word ":p", .symbol "<",
        .word "-5"]).toOption =
      some {
        kind := .update
        table := "t"
        fields := .ofList [(":p", .int (-5))]
        filter := some (.comparison ":p" .lt (.int (-5))) } ∧
    compile {} "CALL f(:p)" (.ofList [("r", .null), ("p", .int 1)]) =
      compile {} "CALL f(:p)" (.ofList [("p", .int 1), ("s", .str "x")]) := by
  have lexed : Token.tokenize (Statement.normalize "CALL f(:p)") =
      .ok [.word "CALL", .word "f", .leftParen, .word ":p", .rightParen] := by
    decide +kernel
  have bare : Literal.placeholder? "CALL" = none ∧ Literal.placeholder? "f" = none := by decide
  have single : Literal.placeholder? ":p" = some "p" := by decide
  constructor
  · have written := binding_eq_writing.1 ⟨{}, .ofList [("p", .int (-5))]⟩ [.word "UPDATE",
      .word "t", .word "SET", .word ":p", .symbol "=", .word ":p", .word "WHERE", .word ":p",
      .symbol "<", .word ":p"] "p" (.int (-5)) (.word "-5") (by decide) (by decide) (by decide) ?_
    · refine written.trans ?_
      decide +kernel
    · rintro _ ⟨rfl⟩
      decide
  · refine binding_eq_writing.2 {} _ _ _ fun tokens tokenized word name listed placeholder => ?_
    obtain rfl := Except.ok.inj (lexed.symm.trans tokenized)
    simp only [List.mem_cons, Token.word.injEq, reduceCtorEq, List.not_mem_nil, or_false,
      false_or] at listed
    rcases listed with rfl | rfl | rfl
    · simp [bare] at placeholder
    · simp [bare] at placeholder
    · rw [single, Option.some.injEq] at placeholder
      subst placeholder
      decide

/-- A colon without a name is no placeholder, so a parameter without a name is never bound. -/
theorem not_forall_toOption_writeOut :
    ¬ ∀ (ctx : Context) (tokens : List Token) (name : String) (v : Value) (u : Token),
      ctx.params.get? name = some v → v.token? = some u →
      (∀ text, tokens.head? = some (.word text) →
        Statement.opening? text ≠ some .procedure) →
      (Statement.ofTokens ctx (Statement.writeOut name u tokens)).toOption =
        (Statement.ofTokens ctx tokens).toOption := by
  intro all
  have same := all ⟨{}, .ofList [("", .int 1)]⟩ [.word "DELETE", .word "FROM", .word "t",
    .word "WHERE", .word "a", .symbol "=", .word ":"] "" (.int 1) (.word "1") (by decide)
    (by decide) (by rintro _ ⟨rfl⟩; decide)
  revert same
  decide +kernel

end SqlBridge
