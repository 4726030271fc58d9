import SqlBridge.Json.Parser
import SqlBridge.Proofs.Json.Record
import SqlBridge.Proofs.Json.Scalar

/-!
# Reading back JSON text

Reading the compact text of a value gives the value again, up to its numbers: each of them is what
its own text is read as. Strings, arrays and objects come back as they were, fields in their order.
-/

namespace SqlBridge.Json

variable (float? : Numeral → Option Binary64)

mutual

/-- The value that the text of a value is read as, if every number in it can be read. -/
def reread? : Json → Option Json
  | .null | .unreadable => some .null
  | .bool b => some (.bool b)
  | .int i => scalar? float? i.repr.toList
  | .float x => scalar? float? (floatText x).toList
  | .str s => some (.str s)
  | .arr elements => (rereadElements? elements).map .arr
  | .obj fields => (rereadFields? fields).map .obj

def rereadElements? : List Json → Option (List Json)
  | [] => some []
  | v :: rest => do
    let w ← reread? v
    let ws ← rereadElements? rest
    pure (w :: ws)

def rereadFields? : List (String × Json) → Option (List (String × Json))
  | [] => some []
  | (k, v) :: rest => do
    let w ← reread? v
    let ws ← rereadFields? rest
    pure ((k, w) :: ws)

end

/-! ### Strings -/

def withPart (part : StringPart) (read : List StringPart × List Char) :
    List StringPart × List Char :=
  (part :: read.1, read.2)

theorem hexValue?_hexDigit : ∀ n < 16, hexValue? (hexDigit n) = some n := by
  decide

theorem readString?_simple {c e : Char} (stands : simpleEscape? e = some c) (rest : List Char) :
    readString? ('\\' :: e :: rest) = (readString? rest).map (withPart (.char c)) := by
  have no_unit : e ≠ 'u' := by
    rintro rfl
    cases stands
  rw [readString?, stands]
  · cases readString? rest <;> rfl
  · rintro _ _ _ _ _ rfl
    exact absurd rfl no_unit

theorem readString?_control {c : Char} (control : c.toNat < 0x20) (rest : List Char) :
    readString? ('\\' :: 'u' :: '0' :: '0' :: hexDigit (c.toNat / 16) :: hexDigit (c.toNat % 16) ::
      rest) = (readString? rest).map (withPart (.unit c.toNat)) := by
  have high := hexValue?_hexDigit (c.toNat / 16) (by omega)
  have low := hexValue?_hexDigit (c.toNat % 16) (by omega)
  have zero : hexValue? '0' = some 0 := by decide
  have number : (0 * 16 + 0) * 256 + c.toNat / 16 * 16 + c.toNat % 16 = c.toNat := by omega
  simp only [readString?, high, low, zero, number, Option.bind_eq_bind, Option.bind_some]
  cases readString? rest <;> rfl

theorem readString?_plain {c : Char} (quote : c ≠ '"') (backslash : c ≠ '\\')
    (ordinary : ¬c.toNat < 0x20) (rest : List Char) :
    readString? (c :: rest) = (readString? rest).map (withPart (.char c)) := by
  rw [readString?]
  · rw [if_neg (not_or.mpr ⟨backslash, ordinary⟩)]
    cases readString? rest <;> rfl
  · exact quote
  · rintro _ _ _ _ _ rfl
    exact absurd rfl backslash
  · rintro _ _ rfl
    exact absurd rfl backslash

/-- The text of a character is read as one part of a string, which stands for the character. -/
theorem readString?_escapeChar (c : Char) : ∃ part,
    (∀ rest, readString? (escapeChar c ++ rest) = (readString? rest).map (withPart part)) ∧
      ∀ parts, joinParts? (part :: parts) = (joinParts? parts).map (c :: ·) := by
  unfold escapeChar
  split
  case h_8 quote backslash _ _ _ _ _ =>
    split
    · next control =>
      refine ⟨.unit c.toNat, readString?_control control, fun parts => ?_⟩
      have low : c.toNat < 0xD800 ∨ 0xE000 ≤ c.toNat := by omega
      rw [joinParts?.eq_def (.unit c.toNat :: parts)]
      simp only [if_pos low, Char.ofNat_toNat]
    · next ordinary =>
      exact ⟨.char c, readString?_plain quote backslash ordinary, fun _ => rfl⟩
  all_goals exact ⟨_, readString?_simple rfl, fun _ => rfl⟩

/-- The characters of a string are read back up to the closing quote. -/
theorem readString?_stringText (cs rest : List Char) : ∃ parts,
    readString? (cs.flatMap escapeChar ++ '"' :: rest) = some (parts, rest) ∧
      joinParts? parts = some cs := by
  induction cs with
  | nil => exact ⟨[], rfl, rfl⟩
  | cons c cs ih =>
    obtain ⟨parts, read, joined⟩ := ih
    obtain ⟨part, first, stands⟩ := readString?_escapeChar c
    refine ⟨part :: parts, ?_, ?_⟩
    · rw [List.flatMap_cons, List.append_assoc, first, read]
      rfl
    · rw [stands, joined]
      rfl

/-! ### Lexemes -/

section Lexing

variable {float?} {stack outer : List Frame} {next : Expecting} {rest : List Char}

/-- A scalar in front of the text would end there. -/
def EndsScalar (rest : List Char) : Prop :=
  ∀ c ∈ rest.head?, isScalarChar c = false

theorem lexemes?_punctuation {c : Char} {lexeme : Lexeme} (mark : punctuation? c = some lexeme) :
    lexemes? float? (c :: rest) = (lexemes? float? rest).map (lexeme :: ·) := by
  have apart : isSpace c = false ∧ c ≠ '"' := by
    unfold punctuation? at mark
    split at mark
    case h_7 => cases mark
    all_goals decide
  rw [lexemes?, apart.1, if_neg Bool.false_ne_true, if_neg apart.2]
  simp only [mark]

theorem lexemes?_string (s : String) :
    lexemes? float? ((stringText s).toList ++ rest) =
      (lexemes? float? rest).map (.string (some s) :: ·) := by
  obtain ⟨parts, read, joined⟩ := readString?_stringText s.toList rest
  have text : (stringText s).toList ++ rest =
      '"' :: (s.toList.flatMap escapeChar ++ '"' :: rest) := by
    simp [stringText]
  rw [text, lexemes?, if_neg (by decide), if_pos rfl]
  split
  · next none => rw [read] at none; cases none
  · next some =>
    rw [read] at some
    cases some
    rw [joined, Option.map_some, String.ofList_toList]

theorem lexemes?_scalar {s : String} (text : ScalarText s) (ended : EndsScalar rest) :
    lexemes? float? (s.toList ++ rest) = (scalar? float? s.toList).bind fun v =>
      (lexemes? float? rest).map (.scalar v :: ·) := by
  obtain ⟨filled, all⟩ := text
  rcases chars : s.toList with _ | ⟨c, cs⟩
  · exact absurd chars filled
  · rw [chars] at all
    obtain ⟨first, others⟩ := List.forall_mem_cons.mp all
    have plain : isSpace c = false ∧ punctuation? c = none ∧ c ≠ '"' := by
      simpa [isScalarChar, and_assoc] using first
    have run := Text.takeWhile_append_of_all others ended
    rw [List.cons_append, lexemes?, plain.1, if_neg Bool.false_ne_true, if_neg plain.2.2]
    simp only [plain.2.1, run]
    cases scalar? float? (c :: cs) <;> rfl

end Lexing

/-! ### Runs of the parser -/

section Running

variable {float?} {stack outer : List Frame} {next : Expecting} {rest : List Char}

/-- The state in which the parser is left by the lexemes of a text. -/
def run (float? : Numeral → Option Binary64) (state : List Frame × Expecting) (cs : List Char) :
    Option (List Frame × Expecting) :=
  (lexemes? float? cs).bind (·.foldlM step state)

/-- Whatever may start a value is taken, and an array may also end if it has just been opened. -/
def Starts (stack : List Frame) (next : Expecting) : Prop :=
  ∀ lexeme, lexeme ≠ .closeArray → step (stack, next) lexeme = startValue stack lexeme

theorem starts_value : Starts stack .value :=
  fun _ _ => rfl

theorem starts_firstElement (before : List Json) :
    Starts (.array before :: outer) .firstElement := by
  intro lexeme opens
  cases lexeme with
  | closeArray => exact absurd rfl opens
  | _ => rfl

/-- The parser takes the lexeme in front of a text, then the text. -/
theorem run_of_lexemes? {state : List Frame × Expecting} {lexeme : Lexeme} {cs : List Char}
    (first : lexemes? float? cs = (lexemes? float? rest).map (lexeme :: ·)) :
    run float? state cs = (step state lexeme).bind fun state => run float? state rest := by
  simp only [run, first]
  cases lexemes? float? rest with
  | none => cases step state lexeme <;> rfl
  | some lexemes => rfl

theorem run_punctuation {state : List Frame × Expecting} {c : Char} {lexeme : Lexeme}
    (mark : punctuation? c = some lexeme) :
    run float? state (c :: rest) = (step state lexeme).bind fun state => run float? state rest :=
  run_of_lexemes? (lexemes?_punctuation mark)

theorem run_string {state : List Frame × Expecting} (s : String) :
    run float? state ((stringText s).toList ++ rest) =
      (step state (.string (some s))).bind fun state => run float? state rest :=
  run_of_lexemes? (lexemes?_string s)

theorem run_scalar {s : String} (text : ScalarText s) (starts : Starts stack next)
    (ended : EndsScalar rest) :
    run float? (stack, next) (s.toList ++ rest) = (scalar? float? s.toList).bind fun v =>
      run float? (stack, .after v) rest := by
  rw [run, lexemes?_scalar text ended]
  cases scalar? float? s.toList with
  | none => rfl
  | some v =>
    have taken : step (stack, next) (.scalar v) = some (stack, .after v) :=
      starts _ (by rintro ⟨⟩)
    rw [Option.bind_some, Option.bind_some, run]
    cases lexemes? float? rest with
    | none => rfl
    | some lexemes =>
      rw [Option.map_some, Option.bind_some, List.foldlM_cons, taken]
      rfl

def opened (fields : List (String × Json)) : List (Option String × Json) :=
  (fields.map fun e => (some e.1, e.2)).reverse

theorem opened_append (fields : List (String × Json)) (k : String) (v : Json) :
    opened (fields ++ [(k, v)]) = (some k, v) :: opened fields := by
  simp [opened]

theorem closeFields_opened (fields : List (String × Json)) :
    closeFields (opened fields) = .obj fields := by
  have read : (opened fields).reverse.mapM
      (fun e : Option String × Json => e.1.map fun k => (k, e.2)) = some fields := by
    rw [opened, List.reverse_reverse]
    induction fields with
    | nil => rfl
    | cons e fields ih =>
      rw [List.map_cons, List.mapM_cons, ih]
      rfl
  unfold closeFields
  rw [read]

theorem endsScalar_cons {c : Char} (mark : isScalarChar c = false) : EndsScalar (c :: rest) := by
  rintro d ⟨⟩
  exact mark

theorem rereadElements?_cons (v : Json) (vs : List Json) :
    rereadElements? float? (v :: vs) =
      (reread? float? v).bind fun w => (rereadElements? float? vs).map (w :: ·) := by
  rw [rereadElements?]
  cases reread? float? v <;> cases rereadElements? float? vs <;> rfl

theorem rereadFields?_cons (k : String) (v : Json) (fields : List (String × Json)) :
    rereadFields? float? ((k, v) :: fields) =
      (reread? float? v).bind fun w => (rereadFields? float? fields).map ((k, w) :: ·) := by
  rw [rereadFields?]
  cases reread? float? v <;> cases rereadFields? float? fields <;> rfl

-- By induction on the value. The stack below and the text behind are arbitrary: the parts of an
-- array or object are read with its frame on the stack and in front of what is left of its text.
mutual

/-- Where a value may start, its text is taken as a whole. -/
theorem run_value (v : Json) {stack : List Frame} {next : Expecting} {rest : List Char}
    (starts : Starts stack next) (ended : EndsScalar rest) :
    run float? (stack, next) (v.compact.toList ++ rest) =
      (reread? float? v).bind fun w => run float? (stack, .after w) rest := by
  match v with
  | .null | .unreadable | .bool true | .bool false => exact run_scalar (by decide) starts ended
  | .int i => exact run_scalar (scalarText_int i) starts ended
  | .float x => exact run_scalar (scalarText_floatText x) starts ended
  | .str s =>
    rw [compact, run_string, starts _ (by rintro ⟨⟩)]
    rfl
  | .arr elements =>
    have bracketed : (arr elements).compact.toList ++ rest =
        '[' :: ((compactElements elements).toList ++ ']' :: rest) := by
      simp [compact]
    rw [bracketed, run_punctuation rfl, starts _ (by rintro ⟨⟩), reread?]
    by_cases filled : elements = []
    · subst filled
      exact run_punctuation (c := ']') rfl
    · refine (run_elements elements [] filled (starts_firstElement [])).trans ?_
      cases rereadElements? float? elements <;> rfl
  | .obj fields =>
    have bracketed : (obj fields).compact.toList ++ rest =
        '\x7b' :: ((compactFields fields).toList ++ '\x7d' :: rest) := by
      simp [compact]
    rw [bracketed, run_punctuation rfl, starts _ (by rintro ⟨⟩), reread?]
    by_cases filled : fields = []
    · subst filled
      exact run_punctuation (c := '\x7d') rfl
    · refine (run_fields fields [] filled (.inl rfl)).trans ?_
      cases rereadFields? float? fields <;> rfl

/-- The elements of an array are taken up to its end. -/
theorem run_elements (vs before : List Json) {outer : List Frame} {next : Expecting}
    {rest : List Char} (filled : vs ≠ []) (starts : Starts (.array before :: outer) next) :
    run float? (.array before :: outer, next) ((compactElements vs).toList ++ ']' :: rest) =
      (rereadElements? float? vs).bind fun ws =>
        run float? (outer, .after (.arr (before.reverse ++ ws))) rest := by
  match vs with
  | [] => exact absurd rfl filled
  | [v] =>
    have last : ∀ w, run float? (.array before :: outer, .after w) (']' :: rest) =
        run float? (outer, .after (.arr (before.reverse ++ [w]))) rest := by
      intro w
      rw [run_punctuation rfl, ← List.reverse_cons]
      rfl
    rw [compactElements, run_value v starts (endsScalar_cons rfl), rereadElements?_cons]
    simp only [last]
    cases reread? float? v <;> rfl
  | v :: u :: us =>
    have more : ∀ w, run float? (.array before :: outer, .after w)
        (',' :: ((compactElements (u :: us)).toList ++ ']' :: rest)) =
          (rereadElements? float? (u :: us)).bind fun ws =>
            run float? (outer, .after (.arr (before.reverse ++ w :: ws))) rest := by
      intro w
      -- after the comma the parser is where it was, with one more element in the frame
      have taken : step (.array before :: outer, .after w) .comma =
          some (.array (w :: before) :: outer, .value) := rfl
      rw [run_punctuation rfl, taken, Option.bind_some,
        run_elements (u :: us) (w :: before) (List.cons_ne_nil u us) starts_value]
      simp only [List.reverse_cons, List.append_assoc, List.singleton_append]
    have text : (compactElements (v :: u :: us)).toList ++ ']' :: rest =
        v.compact.toList ++ ',' :: ((compactElements (u :: us)).toList ++ ']' :: rest) := by
      simp [compactElements]
    rw [text, run_value v starts (endsScalar_cons rfl), rereadElements?_cons]
    simp only [more]
    cases reread? float? v <;> cases rereadElements? float? (u :: us) <;> rfl

/-- The fields of an object are taken up to its end. -/
theorem run_fields (fields before : List (String × Json)) {key : Option String}
    {outer : List Frame} {next : Expecting} {rest : List Char} (filled : fields ≠ [])
    (starts : next = .firstKey ∨ next = .key) :
    run float? (.object (opened before) key :: outer, next)
        ((compactFields fields).toList ++ '\x7d' :: rest) =
      (rereadFields? float? fields).bind fun ws =>
        run float? (outer, .after (.obj (before ++ ws))) rest := by
  have keyed : ∀ k cs, run float? (.object (opened before) key :: outer, next)
      ((stringText k).toList ++ ':' :: cs) =
        run float? (.object (opened before) (some k) :: outer, .value) cs := by
    intro k cs
    rcases starts with rfl | rfl
    · rw [run_string]
      exact run_punctuation (c := ':') rfl
    · rw [run_string]
      exact run_punctuation (c := ':') rfl
  match fields with
  | [] => exact absurd rfl filled
  | [(k, v)] =>
    have last : ∀ w, run float? (.object (opened before) (some k) :: outer, .after w)
        ('\x7d' :: rest) = run float? (outer, .after (.obj (before ++ [(k, w)]))) rest := by
      intro w
      rw [run_punctuation rfl, ← closeFields_opened, opened_append]
      rfl
    have text : (compactFields [(k, v)]).toList ++ '\x7d' :: rest =
        (stringText k).toList ++ ':' :: (v.compact.toList ++ '\x7d' :: rest) := by
      simp [compactFields]
    rw [text, keyed, run_value v starts_value (endsScalar_cons rfl), rereadFields?_cons]
    simp only [last]
    cases reread? float? v <;> rfl
  | (k, v) :: (l, u) :: others =>
    have more : ∀ w, run float? (.object (opened before) (some k) :: outer, .after w)
        (',' :: ((compactFields ((l, u) :: others)).toList ++ '\x7d' :: rest)) =
          (rereadFields? float? ((l, u) :: others)).bind fun ws =>
            run float? (outer, .after (.obj (before ++ (k, w) :: ws))) rest := by
      intro w
      have taken : step (.object (opened before) (some k) :: outer, .after w) .comma =
          some (.object (opened (before ++ [(k, w)])) none :: outer, .key) := by
        rw [opened_append]
        rfl
      rw [run_punctuation rfl, taken, Option.bind_some,
        run_fields ((l, u) :: others) (before ++ [(k, w)]) (List.cons_ne_nil _ _) (.inr rfl)]
      simp only [List.append_assoc, List.singleton_append]
    have text : (compactFields ((k, v) :: (l, u) :: others)).toList ++ '\x7d' :: rest =
        (stringText k).toList ++ ':' :: (v.compact.toList ++
          ',' :: ((compactFields ((l, u) :: others)).toList ++ '\x7d' :: rest)) := by
      simp [compactFields]
    rw [text, keyed, run_value v starts_value (endsScalar_cons rfl), rereadFields?_cons]
    simp only [more]
    cases reread? float? v <;> cases rereadFields? float? ((l, u) :: others) <;> rfl

end

theorem run_nil (state : List Frame × Expecting) : run float? state [] = some state := by
  rw [run, lexemes?]
  rfl

def finished? : List Frame × Expecting → Option Json
  | ([], .after v) => some v
  | _ => none

/-- Reading the text of a value reads each of its numbers from its own text. -/
theorem parseWith?_compact (v : Json) : parseWith? float? v.compact = reread? float? v := by
  have taken : run float? ([], .value) (v.compact.toList ++ []) =
      (reread? float? v).bind fun w => run float? ([], .after w) [] :=
    run_value v starts_value nofun
  have reading : parseWith? float? v.compact =
      (run float? ([], .value) v.compact.toList).bind finished? := by
    rw [parseWith?, run]
    cases lexemes? float? v.compact.toList <;> rfl
  rw [reading, ← List.append_nil v.compact.toList, taken]
  simp only [run_nil]
  cases reread? float? v <;> rfl

end Running

/-! ### What reading back keeps -/

section Keeping

variable {float?}

theorem depth_of_scalar? {cs : List Char} {w : Json} (h : scalar? float? cs = some w) :
    w.depth = 0 := by
  unfold scalar? at h
  split at h
  · cases h; rfl
  split at h
  · cases h; rfl
  split at h
  · cases h; rfl
  obtain ⟨n, _, rfl⟩ := Option.map_eq_some_iff.mp h
  unfold Numeral.value
  cases n.integer? with
  | some i => rfl
  | none => cases float? n <;> rfl

mutual

/-- Reading back keeps how deep a value nests. -/
theorem depth_of_reread? {v w : Json} (h : reread? float? v = some w) : w.depth = v.depth := by
  match v with
  | .null | .unreadable | .bool _ | .str _ => cases h; rfl
  | .int _ | .float _ => exact depth_of_scalar? h
  | .arr elements =>
    obtain ⟨ws, read, rfl⟩ := Option.map_eq_some_iff.mp h
    rw [depth, depth, depth_of_rereadElements? read]
  | .obj fields =>
    obtain ⟨ws, read, rfl⟩ := Option.map_eq_some_iff.mp h
    rw [depth, depth, depth_of_rereadFields? read]

theorem depth_of_rereadElements? {vs ws : List Json} (h : rereadElements? float? vs = some ws) :
    depthOfElements ws = depthOfElements vs := by
  match vs with
  | [] => cases h; rfl
  | v :: vs =>
    rw [rereadElements?_cons] at h
    obtain ⟨w, first, h⟩ := Option.bind_eq_some_iff.mp h
    obtain ⟨ws, rest, rfl⟩ := Option.map_eq_some_iff.mp h
    rw [depthOfElements, depthOfElements, depth_of_reread? first, depth_of_rereadElements? rest]

theorem depth_of_rereadFields? {fields ws : List (String × Json)}
    (h : rereadFields? float? fields = some ws) : depthOfFields ws = depthOfFields fields := by
  match fields with
  | [] => cases h; rfl
  | (k, v) :: fields =>
    rw [rereadFields?_cons] at h
    obtain ⟨w, first, h⟩ := Option.bind_eq_some_iff.mp h
    obtain ⟨ws, rest, rfl⟩ := Option.map_eq_some_iff.mp h
    rw [depthOfFields, depthOfFields, depth_of_reread? first, depth_of_rereadFields? rest]

end

/-- What a part that may be left out is read as. -/
def rereadPart? (float? : Numeral → Option Binary64) (part : Option Json) : Option (Option Json) :=
  part.elim (some none) fun v => (reread? float? v).map some

/-- The fields of a record are read back part by part. -/
theorem rereadFields?_present (parts : List (String × Option Json)) :
    rereadFields? float? (present parts) =
      (parts.mapM fun part => (rereadPart? float? part.2).map fun v => (part.1, v)).map
        present := by
  induction parts with
  | nil => rfl
  | cons part parts ih =>
    obtain ⟨name, v?⟩ := part
    rw [List.mapM_cons, present_cons]
    cases v? with
    | none =>
      rw [Option.map_none, Option.toList_none, List.nil_append, ih]
      cases parts.mapM fun part => (rereadPart? float? part.2).map fun v => (part.1, v) <;> rfl
    | some v =>
      rw [Option.map_some, Option.toList_some, List.singleton_append, rereadFields?_cons, ih,
        rereadPart?, Option.elim_some]
      cases reread? float? v <;>
        cases parts.mapM fun part => (rereadPart? float? part.2).map fun v => (part.1, v) <;> rfl

/-- Reading the fields of a map back and then their values is reading each value back. -/
theorem rereadFields?_bind_mapM {α : Type} (read : Json → Option α)
    (fields : List (String × Json)) :
    (rereadFields? float? fields).bind
        (fun fields => fields.mapM fun e => (read e.2).map fun x => (e.1, x)) =
      fields.mapM fun e => ((reread? float? e.2).bind read).map fun x => (e.1, x) := by
  induction fields with
  | nil => rfl
  | cons e fields ih =>
    rw [rereadFields?_cons, List.mapM_cons, ← ih]
    cases reread? float? e.2 with
    | none => rfl
    | some w =>
      cases rereadFields? float? fields with
      | none =>
        simp only [Option.bind_some, Option.map_none, Option.bind_none]
        cases read w <;> rfl
      | some ws => rw [Option.bind_some, Option.map_some, Option.bind_some, List.mapM_cons]; rfl

/-- Reading a map back and then its values is reading each value back. -/
theorem reread?_mapValues_bind {α β : Type} (encode : α → Json) (read : Json → Option β)
    (m : OrderedMap α) :
    (reread? float? (.obj (m.mapValues encode).entries)).bind (map? read) =
      (m.entries.mapM fun e => ((reread? float? (encode e.2)).bind read).map
        fun x => (e.1, x)).map OrderedMap.ofList := by
  have values : (rereadFields? float? (m.entries.map fun e => (e.1, encode e.2))).bind
      (fun fields => fields.mapM fun e => (read e.2).map fun x => (e.1, x)) =
        m.entries.mapM fun e => ((reread? float? (encode e.2)).bind read).map
          fun x => (e.1, x) := by
    rw [rereadFields?_bind_mapM, List.mapM_map]
    rfl
  rw [← values, reread?, OrderedMap.mapValues]
  cases rereadFields? float? (m.entries.map fun e => (e.1, encode e.2)) <;> rfl

@[simp] theorem reread?_bool (b : Bool) : reread? float? (.bool b) = some (.bool b) := rfl

@[simp] theorem reread?_str (s : String) : reread? float? (.str s) = some (.str s) := rfl

section Parts

variable {α : Type} {encode : α → Json} (kept : ∀ x, reread? float? (encode x) = some (encode x))
include kept

theorem rereadPart?_optional (part : Option α) :
    rereadPart? float? (part.map encode) = some (part.map encode) := by
  cases part with
  | none => rfl
  | some x => rw [rereadPart?, Option.map_some, Option.elim_some, kept, Option.map_some]

theorem rereadElements?_map (xs : List α) :
    rereadElements? float? (xs.map encode) = some (xs.map encode) := by
  induction xs with
  | nil => rfl
  | cons x xs ih =>
    rw [List.map_cons, rereadElements?_cons, kept, ih]
    rfl

theorem rereadPart?_listPart (xs : List α) :
    rereadPart? float? (listPart encode xs) = some (listPart encode xs) := by
  cases xs with
  | nil => rfl
  | cons x xs =>
    rw [listPart, rereadPart?, Option.elim_some, reread?, rereadElements?_map kept]
    · rfl
    · exact List.cons_ne_nil x xs

theorem rereadPart?_mapPart (m : OrderedMap α) :
    rereadPart? float? (mapPart encode m) = some (mapPart encode m) := by
  have listed : ∀ es : List (String × α),
      rereadFields? float? (es.map fun e => (e.1, encode e.2)) =
        some (es.map fun e => (e.1, encode e.2)) := by
    intro es
    induction es with
    | nil => rfl
    | cons e es ih =>
      rw [List.map_cons, rereadFields?_cons, kept, ih]
      rfl
  unfold mapPart
  split
  · rfl
  · rw [rereadPart?, Option.elim_some, reread?, OrderedMap.mapValues, listed]
    rfl

end Parts

end Keeping

end SqlBridge.Json
