import SqlBridge.Proofs.Sql.Tokens

/-!
# Names in quotes

The parts of a name are put in quotes, each in double quotes or in grave accents, and points stand
between them. Such a name is read back as one token, unless it has several parts and ends in a
point, which it does if its last part is empty or ends in one: the lexer takes that point for one
that calls for another part, although it stands in quotes. Qualified names of rendered text are
names in double quotes, whose parts are what stands between points.
-/

namespace SqlBridge

namespace Token

theorem toList_intercalate_cons (s : String) (ss : List String) :
    (".".intercalate (s :: ss)).toList = s.toList ++ pointed (ss.map String.toList) := by
  induction ss generalizing s with
  | nil => simp [pointed]
  | cons t ss ih =>
    rw [String.intercalate_cons_cons, String.toList_append, String.toList_append, ih]
    simp [pointed]

namespace NamePart

def name (parts : List NamePart) : String :=
  ".".intercalate (parts.map (·.text))

def writtenName (parts : List NamePart) : String :=
  ".".intercalate (parts.map (·.written))

/-- What a name should be read back as: a literal if it is a single part in double quotes, and an
identifier otherwise. -/
def token (parts : List NamePart) : Token :=
  if parts.map (·.quote) = ['"'] then .quoted (name parts) else .identifier (name parts)

/-- The name has several parts, and it ends in a point. -/
def Unended (parts : List NamePart) : Prop :=
  1 < parts.length ∧ (name parts).toList.getLast? = some '.'

instance : DecidablePred Unended := fun _ => inferInstanceAs (Decidable (_ ∧ _))

variable {first second : NamePart} {others : List NamePart}

theorem toList_name : (name (first :: others)).toList =
    first.text.toList ++ pointed (others.map (·.text.toList)) := by
  rw [name, List.map_cons, toList_intercalate_cons, List.map_map]
  rfl

theorem toList_writtenName : (writtenName (first :: others)).toList =
    first.quote :: (Text.doubled first.quote first.text.toList ++ [first.quote] ++
      pointed (others.map (·.written.toList))) := by
  rw [writtenName, List.map_cons, toList_intercalate_cons, List.map_map, toList_written]
  rfl

/-- A name of several parts ends in a point if its last part is empty or ends in one. -/
theorem unended_concat (parts : List NamePart) (last : NamePart) :
    Unended (parts ++ [last]) ↔ parts ≠ [] ∧ ∀ c ∈ last.text.toList.getLast?, c = '.' := by
  rcases parts with _ | ⟨first, parts⟩
  · simp [Unended]
  · have ends : (name (first :: (parts ++ [last]))).toList.getLast? =
        some (last.text.toList.getLast?.getD '.') := by
      rw [toList_name, List.map_append, List.map_singleton, pointed, List.flatMap_append,
        List.flatMap_singleton, ← List.append_assoc, List.getLast?_append, List.getLast?_cons,
        Option.some_or]
    rw [List.cons_append, Unended, ends]
    cases last.text.toList.getLast? <;> simp

theorem unended_iff (first : NamePart) (others : List NamePart) :
    Unended (first :: others) ↔ others ≠ [] ∧
      ∀ c ∈ ((first :: others).getLast (List.cons_ne_nil first others)).text.toList.getLast?,
        c = '.' := by
  have concat := unended_concat (first :: others).dropLast
    ((first :: others).getLast (List.cons_ne_nil first others))
  have several : (first :: others).dropLast ≠ [] ↔ others ≠ [] := by
    cases others <;> simp
  rwa [List.dropLast_append_getLast, several] at concat

theorem writtenName_cons_cons (first second : NamePart) (others : List NamePart) :
    writtenName (first :: second :: others) =
      first.written ++ "." ++ writtenName (second :: others) :=
  String.intercalate_cons_cons

/-- A single part is read back, whatever it is. -/
theorem tokenize_written (part : NamePart) : tokenize part.written = .ok [token [part]] := by
  have read : Scans (Text.enclosed part.quote part.text.toList) _ [] :=
    scans_enclosed part.named ⟨by simp, by simp⟩
  have same : token [part] = if part.quote = '"' then .quoted (String.ofList part.text.toList)
      else .identifier (String.ofList part.text.toList) := by
    simp [token, name]
  rw [tokenize_eq_ok_iff, toList_written, ← enclosed_eq, same]
  exact read.scan_eq

/-- A name in quotes is one token, unless it has several parts and ends in a point. -/
theorem tokenize_writtenName (first : NamePart) (others : List NamePart) :
    tokenize (writtenName (first :: others)) =
      if Unended (first :: others) then
        .error (.malformedClause (.namePartExpected (name (first :: others))))
      else .ok [token (first :: others)] := by
  rcases others with _ | ⟨second, others⟩
  · have alone : writtenName [first] = first.written := String.intercalate_singleton
    rw [alone, tokenize_written, if_neg (by simp [Unended])]
  · have visible := first.quote_apart.1
    have several : token (first :: second :: others) =
        .identifier (name (first :: second :: others)) := by
      simp [token]
    have ended : ∀ part ∈ first :: second :: others, ([] : List Char).head? ≠ some part.quote := by
      simp
    have read := readToken_several ended
    rw [readQualified_nil, ← toList_name, String.ofList_toList, List.append_nil] at read
    rw [tokenize_eq, toList_writtenName, several]
    by_cases point : (name (first :: second :: others)).toList.getLast? = some '.'
    · rw [if_pos point] at read
      rw [if_pos ⟨by simp, point⟩, scan_cons_of_fault visible read]
      rfl
    · rw [if_neg point] at read
      rw [if_neg fun unended => point unended.2, scan_cons_of_readToken visible read, scan,
        String.ofList_toList]
      rfl

end NamePart

end Token

namespace Sql

open Token

variable {n : Nat}

/-- The text of a qualified name is its segments in double quotes, with points between them. -/
theorem textFrom_points {first : List Char} {others : List (List Char)} :
    textFrom n (separatedBy "." ((first :: others).map fun s => [.identifier (String.ofList s)])) =
      NamePart.writtenName ((first :: others).map .ofSegment) := by
  induction others generalizing first with
  | nil => simp [separatedBy, textFrom, NamePart.writtenName, NamePart.written, NamePart.ofSegment]
  | cons second others ih =>
    have tail : textFrom n (separatedBy "."
        ([.identifier (String.ofList second)] ::
          others.map fun s => [.identifier (String.ofList s)])) =
        NamePart.writtenName (.ofSegment second :: others.map .ofSegment) := ih
    rw [List.map_cons, List.map_cons, separatedBy_cons_cons, List.singleton_append, textFrom,
      textFrom, tail, List.map_cons, List.map_cons, NamePart.writtenName_cons_cons,
      String.append_assoc]
    rfl

/-- A qualified name in rendered text is one token, which names it, unless it ends in a point. -/
theorem tokenize_qualified (n : Nat) (name : String) :
    tokenize (textFrom n (qualified name)) =
      if name.toList.getLast? = some '.' then .error (.malformedClause (.namePartExpected name))
      else .ok [if '.' ∈ name.toList then .identifier name else .quoted name] := by
  obtain ⟨first, others, split, same⟩ := segments_eq name.toList
  have whole : NamePart.name ((first :: others).map .ofSegment) = name := by
    rw [← String.toList_inj, List.map_cons, NamePart.toList_name, same, pointed_eq others]
    simp [NamePart.ofSegment]
  rw [qualified, split, textFrom_points, List.map_cons, NamePart.tokenize_writtenName,
    ← List.map_cons]
  simp only [NamePart.token, NamePart.Unended, whole]
  rcases others with _ | ⟨second, others⟩
  · -- a single segment has no point
    have free : '.' ∉ name.toList := by
      rw [same, pointed, List.flatMap_nil, List.append_nil]
      exact point_not_mem_of_mem_segments (split ▸ List.mem_cons_self)
    have closed : name.toList.getLast? ≠ some '.' := fun last => free (List.mem_of_getLast? last)
    simp [free, closed, NamePart.ofSegment]
  · have inside : '.' ∈ name.toList := by
      rw [same]
      simp [pointed]
    simp [inside]

/-- A name in quotes is read back as one token, unless it has several parts and the last one is
empty or ends in a point; so is a qualified name of rendered text, unless it ends in a point. -/
theorem quoted_names_read_back (first : NamePart) (others : List NamePart) (n : Nat)
    (name : String) :
    (tokenize (NamePart.writtenName (first :: others)) =
      if NamePart.Unended (first :: others) then
        .error (.malformedClause (.namePartExpected (NamePart.name (first :: others))))
      else .ok [NamePart.token (first :: others)]) ∧
    (NamePart.Unended (first :: others) ↔ others ≠ [] ∧
      ∀ c ∈ ((first :: others).getLast (List.cons_ne_nil first others)).text.toList.getLast?,
        c = '.') ∧
    tokenize (textFrom n (qualified name)) =
      if name.toList.getLast? = some '.' then .error (.malformedClause (.namePartExpected name))
      else .ok [if '.' ∈ name.toList then .identifier name else .quoted name] :=
  ⟨NamePart.tokenize_writtenName first others, NamePart.unended_iff first others,
    tokenize_qualified n name⟩

/-- The point in the quotes of a last part, and the point in front of an empty last part, call for
another part. -/
theorem not_forall_quoted_names_read_back :
    (¬ ∀ (first : NamePart) (others : List NamePart),
      tokenize (NamePart.writtenName (first :: others)) =
        .ok [NamePart.token (first :: others)]) ∧
    ¬ ∀ (n : Nat) (name : String), ∃ t, tokenize (textFrom n (qualified name)) = .ok [t] := by
  constructor
  · intro all
    have failed : tokenize (NamePart.writtenName [⟨'"', "a", rfl⟩, ⟨'"', "b.", rfl⟩]) =
        .error (.malformedClause (.namePartExpected "a.b.")) := by decide +kernel
    have read := all ⟨'"', "a", rfl⟩ [⟨'"', "b.", rfl⟩]
    rw [failed] at read
    cases read
  · intro all
    have failed : tokenize (textFrom 1 (qualified "a.")) =
        .error (.malformedClause (.namePartExpected "a.")) := by decide +kernel
    obtain ⟨t, read⟩ := all 1 "a."
    rw [failed] at read
    cases read

end Sql

end SqlBridge
