import SqlBridge.Proofs.Json.Rereading

/-!
# Reading back indented text

Indented text differs from compact text in blanks between lexemes only, and those are skipped. So
both are read as the same value, and blanks behind the text do not matter either.
-/

namespace SqlBridge.Json

variable {float? : Numeral → Option Binary64} {rest tail : List Char}

/-! ### Blanks -/

theorem isScalarChar_of_isSpace {c : Char} (space : isSpace c = true) :
    isScalarChar c = false := by
  rw [isScalarChar, space]
  rfl

/-- Blanks in front of a text are skipped. -/
theorem lexemes?_spaces {spaces : List Char} (blank : ∀ c ∈ spaces, isSpace c = true) :
    lexemes? float? (spaces ++ rest) = lexemes? float? rest := by
  induction spaces with
  | nil => rfl
  | cons c spaces ih =>
    obtain ⟨first, others⟩ := List.forall_mem_cons.mp blank
    rw [List.cons_append, lexemes?, if_pos first, ih others]

theorem endsScalar_spaces {spaces : List Char} (blank : ∀ c ∈ spaces, isSpace c = true) :
    EndsScalar spaces :=
  fun c first => isScalarChar_of_isSpace (blank c (List.mem_of_mem_head? first))

theorem newline_blank (depth : Nat) : ∀ c ∈ (newline depth).toList, isSpace c = true := by
  have chars : (newline depth).toList = '\n' :: List.replicate (2 * depth) ' ' := by
    simp [newline]
  rw [chars]
  refine List.forall_mem_cons.mpr ⟨rfl, fun c listed => ?_⟩
  rw [List.eq_of_mem_replicate listed]
  rfl

theorem lexemes?_newline (depth : Nat) :
    lexemes? float? ((newline depth).toList ++ rest) = lexemes? float? rest :=
  lexemes?_spaces (newline_blank depth)

theorem endsScalar_newline (depth : Nat) : EndsScalar ((newline depth).toList ++ rest) := by
  rw [newline, String.toList_append, List.append_assoc]
  exact endsScalar_cons rfl

/-! ### Lexemes -/

/-- Two texts have the same lexemes, also behind a scalar. -/
structure SameLexemes (float? : Numeral → Option Binary64) (rest tail : List Char) : Prop where
  same : lexemes? float? rest = lexemes? float? tail
  ends_rest : EndsScalar rest
  ends_tail : EndsScalar tail

namespace SameLexemes

/-- Behind two alike texts, the same mark. -/
theorem mark {c : Char} {lexeme : Lexeme} (marks : punctuation? c = some lexeme)
    (ends : isScalarChar c = false) (same : lexemes? float? rest = lexemes? float? tail) :
    SameLexemes float? (c :: rest) (c :: tail) :=
  ⟨by rw [lexemes?_punctuation marks, lexemes?_punctuation marks, same], endsScalar_cons ends,
    endsScalar_cons ends⟩

/-- A line break in front of the first text changes nothing. -/
theorem newline (alike : SameLexemes float? rest tail) (depth : Nat) :
    SameLexemes float? ((newline depth).toList ++ rest) tail :=
  ⟨(lexemes?_newline depth).trans alike.same, endsScalar_newline depth, alike.ends_tail⟩

theorem scalar {s : String} (text : ScalarText s) (alike : SameLexemes float? rest tail) :
    lexemes? float? (s.toList ++ rest) = lexemes? float? (s.toList ++ tail) := by
  rw [lexemes?_scalar text alike.ends_rest, lexemes?_scalar text alike.ends_tail, alike.same]

end SameLexemes

-- By induction on the value. What stands behind is arbitrary on both sides, since the parts of an
-- array or object are followed by line breaks in the one text and by marks in the other.
mutual

/-- The indented text of a value has the lexemes of its compact text. -/
theorem lexemes?_indented (v : Json) (depth : Nat) {rest tail : List Char}
    (alike : SameLexemes float? rest tail) :
    lexemes? float? ((v.indented depth).toList ++ rest) =
      lexemes? float? (v.compact.toList ++ tail) := by
  match v with
  | .null | .unreadable => exact alike.scalar (s := "null") (by decide)
  | .bool true => exact alike.scalar (s := "true") (by decide)
  | .bool false => exact alike.scalar (s := "false") (by decide)
  | .int i => exact alike.scalar (scalarText_int i)
  | .float x => exact alike.scalar (scalarText_floatText x)
  | .str s =>
    have behind := congrArg (Option.map (Lexeme.string (some s) :: ·)) alike.same
    exact (lexemes?_string s).trans (behind.trans (lexemes?_string s).symm)
  | .arr [] =>
    have closed := SameLexemes.mark (c := ']') rfl rfl alike.same
    have whole := (SameLexemes.mark (c := '[') rfl rfl closed.same).same
    simpa [indented, compact, compactElements] using whole
  | .arr (w :: ws) =>
    have closed := SameLexemes.mark (c := ']') rfl rfl alike.same
    have inside := lexemes?_indentedElements (w :: ws) (depth + 1) (closed.newline depth)
      (List.cons_ne_nil w ws)
    have whole := (SameLexemes.mark (c := '[') rfl rfl inside).same
    simpa [indented, compact] using whole
  | .obj [] =>
    have closed := SameLexemes.mark (c := '\x7d') rfl rfl alike.same
    have whole := (SameLexemes.mark (c := '\x7b') rfl rfl closed.same).same
    simpa [indented, compact, compactFields] using whole
  | .obj (field :: fields) =>
    have closed := SameLexemes.mark (c := '\x7d') rfl rfl alike.same
    have inside := lexemes?_indentedFields (field :: fields) (depth + 1) (closed.newline depth)
      (List.cons_ne_nil field fields)
    have whole := (SameLexemes.mark (c := '\x7b') rfl rfl inside).same
    simpa [indented, compact] using whole

theorem lexemes?_indentedElements (vs : List Json) (depth : Nat) {rest tail : List Char}
    (alike : SameLexemes float? rest tail) (filled : vs ≠ []) :
    lexemes? float? ((indentedElements depth vs).toList ++ rest) =
      lexemes? float? ((compactElements vs).toList ++ tail) := by
  match vs with
  | [] => exact absurd rfl filled
  | [v] =>
    rw [indentedElements, String.toList_append, List.append_assoc, lexemes?_newline]
    exact lexemes?_indented v depth alike
  | v :: w :: ws =>
    have others := lexemes?_indentedElements (w :: ws) depth alike (List.cons_ne_nil w ws)
    have first := lexemes?_indented v depth (.mark (c := ',') rfl rfl others)
    have whole := (lexemes?_newline depth).trans first
    simpa [indentedElements, compactElements] using whole

theorem lexemes?_indentedFields (fields : List (String × Json)) (depth : Nat)
    {rest tail : List Char} (alike : SameLexemes float? rest tail) (filled : fields ≠ []) :
    lexemes? float? ((indentedFields depth fields).toList ++ rest) =
      lexemes? float? ((compactFields fields).toList ++ tail) := by
  -- a key and its value, the one text having a blank between the colon and the value
  have keyed : ∀ (k : String) {cs ds : List Char}, lexemes? float? cs = lexemes? float? ds →
      lexemes? float? ((Json.newline depth).toList ++ ((stringText k).toList ++ ':' :: ' ' :: cs)) =
        lexemes? float? ((stringText k).toList ++ ':' :: ds) := by
    intro k cs ds same
    have blank : lexemes? float? ([' '] ++ cs) = lexemes? float? cs :=
      lexemes?_spaces (List.forall_mem_singleton.mpr rfl)
    have colon := SameLexemes.mark (c := ':') rfl rfl (blank.trans same)
    rw [lexemes?_newline, lexemes?_string, lexemes?_string]
    exact congrArg _ colon.same
  match fields with
  | [] => exact absurd rfl filled
  | [(k, v)] =>
    have whole := keyed k (lexemes?_indented v depth alike)
    simpa [indentedFields, compactFields] using whole
  | (k, v) :: other :: others =>
    have behind := lexemes?_indentedFields (other :: others) depth alike
      (List.cons_ne_nil other others)
    have whole := keyed k (lexemes?_indented v depth (.mark (c := ',') rfl rfl behind))
    simpa [indentedFields, compactFields] using whole

end

/-- Indented text, with any blanks behind it, is read as the compact text is. -/
theorem parseWith?_pretty (v : Json) {blanks : String}
    (blank : ∀ c ∈ blanks.toList, isSpace c = true) :
    parseWith? float? (v.pretty ++ blanks) = reread? float? v := by
  have behind : SameLexemes float? blanks.toList [] := by
    refine ⟨?_, endsScalar_spaces blank, by simp [EndsScalar]⟩
    rw [← List.append_nil blanks.toList]
    exact lexemes?_spaces blank
  have lexed : lexemes? float? (v.pretty ++ blanks).toList = lexemes? float? v.compact.toList := by
    rw [String.toList_append, pretty, lexemes?_indented v 0 behind, List.append_nil]
  rw [← parseWith?_compact, parseWith?, lexed, parseWith?]

end SqlBridge.Json
