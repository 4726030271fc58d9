import SqlBridge.Proofs.Text.Basic
import SqlBridge.Proofs.Token.Lexeme

/-!
# Tokens read back from their text

Characters are described by the tokens that they are in front of the characters after them. Every
token has a text, and in front of a blank, a punctuation mark or the end the text is that token
again. Names in quotes are read back too, alone or with points between them.
-/

namespace SqlBridge.Token

/-- The text of a token. A literal is in apostrophes and a name in grave accents. -/
def written : Token → List Char
  | .leftParen => ['(']
  | .rightParen => [')']
  | .comma => [',']
  | .semicolon => [';']
  | .symbol text => text.toList
  | .quoted text => Text.enclosed '\'' text.toList
  | .identifier name => Text.enclosed '\x60' name.toList
  | .word text => text.toList

/-- The text goes on with a blank or a punctuation mark, or it ends. -/
def Delimited (rest : List Char) : Prop :=
  ∀ c ∈ rest.head?, Text.isBlank c = true ∨ (punctuation? c).isSome = true

/-- The characters `cs` are the tokens `ts` in front of `rest`. -/
def Scans (cs : List Char) (ts : List Token) (rest : List Char) : Prop :=
  scan (cs ++ rest) = (scan rest).map (ts ++ ·)

variable {cs ds rest : List Char} {ts us : List Token} {c : Char} {t : Token}

/-! ### Characters -/

theorem eq_of_isSymbolChar (h : isSymbolChar c = true) :
    c = '=' ∨ c = '<' ∨ c = '>' ∨ c = '!' ∨ c = '&' ∨ c = '|' := by
  simpa [isSymbolChar, or_assoc] using h

theorem eq_of_isQuote (h : isQuote c = true) : c = '\'' ∨ c = '"' ∨ c = '\x60' := by
  simpa [isQuote, or_assoc] using h

theorem eq_of_punctuation? (h : punctuation? c = some t) :
    (c = '(' ∧ t = .leftParen) ∨ (c = ')' ∧ t = .rightParen) ∨ (c = ',' ∧ t = .comma) ∨
      (c = ';' ∧ t = .semicolon) := by
  unfold punctuation? at h
  split at h <;> cases h <;> simp

/-- The characters that are neither blank nor in a word. -/
def specials : List Char :=
  ['=', '<', '>', '!', '&', '|', '\'', '"', '\x60', '(', ')', ',', ';']

/-- A character with a property that no special one has is not special. -/
theorem not_special {p : Char → Bool} (h : p c = true) (apart : (specials.any p) = false) :
    isSymbolChar c = false ∧ isQuote c = false ∧ (punctuation? c).isSome = false := by
  have absent : c ∉ specials := by
    intro listed
    have none := List.any_eq_false.mp apart c listed
    exact none h
  refine ⟨Bool.eq_false_iff.mpr fun symbol => absent ?_,
    Bool.eq_false_iff.mpr fun quote => absent ?_, Bool.eq_false_iff.mpr fun mark => absent ?_⟩
  · rcases eq_of_isSymbolChar symbol with rfl | rfl | rfl | rfl | rfl | rfl <;> decide
  · rcases eq_of_isQuote quote with rfl | rfl | rfl <;> decide
  · obtain ⟨t, ht⟩ := Option.isSome_iff_exists.mp mark
    rcases eq_of_punctuation? ht with ⟨rfl, _⟩ | ⟨rfl, _⟩ | ⟨rfl, _⟩ | ⟨rfl, _⟩ <;> decide

theorem isWordChar_of_isAlphanum (h : c.isAlphanum = true) : isWordChar c = true := by
  have blank := Text.isBlank_eq_false_of_isAlphanum h
  obtain ⟨symbol, quote, mark⟩ := not_special h (by decide)
  simp only [isWordChar, blank, symbol, mark, quote, Bool.or_self, Bool.not_false]

/-- What delimits is in no run and in no quotes, and is no point. -/
theorem Delimited.apart (h : Delimited (c :: cs)) :
    isWordChar c = false ∧ isSymbolChar c = false ∧ isQuote c = false ∧ c ≠ '.' := by
  rcases h c rfl with blank | mark
  · obtain ⟨symbol, quote, _⟩ := not_special blank (by decide)
    refine ⟨by simp [isWordChar, blank], symbol, quote, ?_⟩
    rintro rfl
    revert blank
    decide
  · obtain ⟨t, ht⟩ := Option.isSome_iff_exists.mp mark
    rcases eq_of_punctuation? ht with ⟨rfl, _⟩ | ⟨rfl, _⟩ | ⟨rfl, _⟩ | ⟨rfl, _⟩ <;> decide

theorem Delimited.head?_ne (h : Delimited rest) (apart : isQuote c = true ∨ c = '.') :
    rest.head? ≠ some c := by
  rcases rest with _ | ⟨d, rest⟩
  · simp
  · obtain ⟨_, _, quote, point⟩ := h.apart
    rintro same
    obtain rfl := Option.some.inj same
    rcases apart with q | rfl
    · rw [quote] at q
      cases q
    · exact point rfl

/-! ### Putting texts together -/

theorem scan_cons_of_isBlank (h : Text.isBlank c = true) : scan (c :: cs) = scan cs := by
  rw [scan, if_pos h]

theorem scan_cons_of_readToken (visible : Text.isBlank c = false)
    (h : readToken c cs = .ok (t, rest)) : scan (c :: cs) = (scan rest).map (t :: ·) := by
  rw [scan, if_neg (by simp [visible])]
  split
  · next failed =>
    rw [h] at failed
    cases failed
  · next read =>
    rw [h] at read
    cases read
    rfl

theorem scan_cons_of_fault {fault : Fault} (visible : Text.isBlank c = false)
    (h : readToken c cs = .error fault) : scan (c :: cs) = .error fault := by
  rw [scan, if_neg (by simp [visible])]
  split
  · next failed =>
    rw [h] at failed
    cases failed
    rfl
  · next read =>
    rw [h] at read
    cases read

theorem scans_nil : Scans [] [] rest := by
  rw [Scans, List.nil_append]
  cases scan rest <;> rfl

theorem Scans.append (first : Scans cs ts (ds ++ rest)) (second : Scans ds us rest) :
    Scans (cs ++ ds) (ts ++ us) rest := by
  rw [Scans, List.append_assoc, first, second]
  cases scan rest with
  | error e => rfl
  | ok tokens => simp [Except.map]

theorem Scans.scan_eq (h : Scans cs ts []) : scan cs = .ok ts := by
  rw [Scans, List.append_nil] at h
  rw [h]
  simp [scan, Except.map]

theorem scans_blanks (blank : ∀ c ∈ cs, Text.isBlank c = true) : Scans cs [] rest := by
  induction cs with
  | nil => exact scans_nil
  | cons c cs ih =>
    obtain ⟨first, others⟩ := List.forall_mem_cons.mp blank
    rw [Scans, List.cons_append, scan_cons_of_isBlank first]
    exact ih others

theorem scans_of_readToken (visible : Text.isBlank c = false)
    (h : readToken c (cs ++ rest) = .ok (t, rest)) : Scans (c :: cs) [t] rest := by
  rw [Scans, List.cons_append, scan_cons_of_readToken visible h]
  rfl

/-! ### Single tokens -/

theorem scans_punctuation (h : punctuation? c = some t) : Scans [c] [t] rest := by
  refine scans_of_readToken ?_ (by simp [readToken, h])
  rcases eq_of_punctuation? h with ⟨rfl, _⟩ | ⟨rfl, _⟩ | ⟨rfl, _⟩ | ⟨rfl, _⟩ <;> decide

theorem IsLexeme.exists_cons {text : String} {p : Char → Bool}
    (lexeme : text.toList ≠ [] ∧ ∀ c ∈ text.toList, p c = true) :
    ∃ c cs, text = String.ofList (c :: cs) ∧ p c = true ∧ ∀ d ∈ cs, p d = true := by
  obtain ⟨filled, all⟩ := lexeme
  obtain ⟨c, cs, h⟩ := List.exists_cons_of_ne_nil filled
  rw [h] at all
  obtain ⟨first, others⟩ := List.forall_mem_cons.mp all
  exact ⟨c, cs, by rw [← h, String.ofList_toList], first, others⟩

theorem scans_symbol {text : String} (lexeme : (symbol text).IsLexeme)
    (ended : ∀ c ∈ rest.head?, isSymbolChar c = false) : Scans text.toList [.symbol text] rest := by
  obtain ⟨c, cs, rfl, first, others⟩ := IsLexeme.exists_cons lexeme
  obtain ⟨taken, left⟩ := Text.takeWhile_append_of_all others ended
  have visible : Text.isBlank c = false ∧ punctuation? c = none ∧ isQuote c = false := by
    rcases eq_of_isSymbolChar first with rfl | rfl | rfl | rfl | rfl | rfl <;> decide
  obtain ⟨blank, mark, quote⟩ := visible
  simp only [isQuote, Bool.or_eq_false_iff, decide_eq_false_iff_not] at quote
  rw [String.toList_ofList]
  apply scans_of_readToken blank
  simp [readToken, mark, quote, isNameQuote, first, taken, left]

theorem scans_word {text : String} (lexeme : (word text).IsLexeme)
    (ended : ∀ c ∈ rest.head?, isWordChar c = false ∧ isNameQuote c = false) :
    Scans text.toList [.word text] rest := by
  obtain ⟨c, cs, rfl, first, others⟩ := IsLexeme.exists_cons lexeme
  obtain ⟨taken, left⟩ := Text.takeWhile_append_of_all others fun d hd => (ended d hd).1
  simp only [isWordChar, Bool.not_eq_true', Bool.or_eq_false_iff, isQuote,
    decide_eq_false_iff_not] at first
  have mark : punctuation? c = none := by simpa using first.1.2
  have ends : rest.head?.any isNameQuote = false := by
    rcases rest with _ | ⟨d, rest⟩
    · rfl
    · exact (ended d rfl).2
  rw [String.toList_ofList]
  apply scans_of_readToken first.1.1.1
  simp [readToken, readWord, mark, first.2, first.1.1.2, isNameQuote, taken, left, ends]

/-! ### Text in quotes -/

theorem enclosed_eq (quote : Char) (cs : List Char) :
    Text.enclosed quote cs = quote :: (Text.doubled quote cs ++ [quote]) := rfl

theorem getLast?_enclosed {quote : Char} : (Text.enclosed quote cs).getLast? = some quote := by
  rw [Text.enclosed, List.getLast?_append, List.getLast?_singleton, Option.some_or]

theorem readQuoted_doubled {quote : Char} (ended : rest.head? ≠ some quote) :
    readQuoted quote (Text.doubled quote cs ++ [quote] ++ rest) = .ok (cs, rest) := by
  rw [List.append_assoc, List.singleton_append, readQuoted,
    Text.readQuoted_doubled quote cs rest ended]

theorem scans_literal (ended : rest.head? ≠ some '\'') :
    Scans (Text.enclosed '\'' cs) [.quoted (String.ofList cs)] rest := by
  have mark : punctuation? '\'' = none := rfl
  rw [enclosed_eq]
  apply scans_of_readToken (by decide)
  simp only [readToken, mark, if_true, readQuoted_doubled ended]

/-- A name in quotes alone is a literal if they are double, and an identifier otherwise. -/
theorem scans_enclosed {quote : Char} (named : isNameQuote quote = true)
    (ended : rest.head? ≠ some quote ∧ rest.head? ≠ some '.') :
    Scans (Text.enclosed quote cs)
      [if quote = '"' then .quoted (String.ofList cs) else .identifier (String.ofList cs)]
      rest := by
  have facts : Text.isBlank quote = false ∧ punctuation? quote = none ∧ quote ≠ '\'' := by
    simp only [isNameQuote, Bool.or_eq_true, decide_eq_true_eq] at named
    rcases named with rfl | rfl <;> decide
  rw [enclosed_eq]
  apply scans_of_readToken facts.1
  simp only [readToken, facts.2.1, facts.2.2, if_false, named, if_true, readEnclosed,
    readQuoted_doubled ended.1, ended.2]
  split <;> rfl

/-! ### Names with points -/

/-- The parts of a name after the first one, each after a point. -/
def pointed (parts : List (List Char)) : List Char :=
  parts.flatMap ('.' :: ·)

/-- The parts of a name after the first one, each after a point and in double quotes. -/
def pointedInQuotes (parts : List (List Char)) : List Char :=
  parts.flatMap fun part => '.' :: Text.enclosed '"' part

section Reading

variable {name left part after : List Char}

/-- A name that does not end in a point is read to its end. -/
theorem readQualified_of_unpointed (taken : takePoint cs rest = (name, left))
    (closed : name.getLast? ≠ some '.') : readQualified cs rest = .ok (name, left) := by
  rw [readQualified]
  simp only [taken, if_neg closed]

theorem readQualified_of_part (taken : takePoint cs rest = (name, left))
    (pointed : name.getLast? = some '.') (named : readNamePart name left = .ok (part, after)) :
    readQualified cs rest = readQualified (name ++ part) after := by
  rw [readQualified]
  simp only [taken, if_pos pointed]
  split
  · next failed =>
    rw [taken, named] at failed
    cases failed
  · next found =>
    rw [taken, named] at found
    cases found
    rfl

theorem readQualified_of_fault {fault : Fault} (taken : takePoint cs rest = (name, left))
    (pointed : name.getLast? = some '.') (failed : readNamePart name left = .error fault) :
    readQualified cs rest = .error fault := by
  rw [readQualified]
  simp only [taken, if_pos pointed]
  split
  · next found =>
    rw [taken, failed] at found
    cases found
    rfl
  · next found =>
    rw [taken, failed] at found
    cases found

theorem takePoint_of_head?_ne (ended : rest.head? ≠ some '.') : takePoint cs rest = (cs, rest) := by
  rw [takePoint.eq_def]
  split
  · exact absurd rfl ended
  · rfl

theorem readQualified_of_closed (ended : rest.head? ≠ some '.') (closed : cs.getLast? ≠ some '.') :
    readQualified cs rest = .ok (cs, rest) :=
  readQualified_of_unpointed (takePoint_of_head?_ne ended) closed

/-- At the end of the text a name is read to its end unless it ends in a point. -/
theorem readQualified_nil (name : List Char) :
    readQualified name [] =
      if name.getLast? = some '.' then .error (.namePartExpected (String.ofList name))
      else .ok (name, []) := by
  split
  · next open_ => exact readQualified_of_fault rfl open_ rfl
  · next closed => exact readQualified_of_unpointed rfl closed

theorem readQualified_point (named : readNamePart (cs ++ ['.']) ds = .ok (part, rest)) :
    readQualified cs ('.' :: ds) = readQualified (cs ++ '.' :: part) rest := by
  have taken : takePoint cs ('.' :: ds) = (cs ++ ['.'], ds) := rfl
  rw [readQualified_of_part taken (by simp) named, List.append_assoc, List.singleton_append]

/-- What a name becomes when its last part is read. -/
def nameRead (found : List Char × List Char) : Token × List Char :=
  (.identifier (String.ofList found.1), found.2)

/-- Read on after the closing quote of a name. -/
def afterEnclosed (quote : Char) (found : List Char × List Char) :
    Except Fault (Token × List Char) :=
  if found.2.head? = some '.' then (readQualified found.1 found.2).map nameRead
  else .ok (if quote = '"' then .quoted (String.ofList found.1)
    else .identifier (String.ofList found.1), found.2)

theorem readEnclosed_eq (quote : Char) (cs : List Char) :
    readEnclosed quote cs = (readQuoted quote cs).bind (afterEnclosed quote) := by
  unfold readEnclosed
  cases readQuoted quote cs with
  | error fault => rfl
  | ok found =>
    simp only [Except.bind, afterEnclosed]
    split
    · cases readQualified found.1 found.2 <;> rfl
    · split <;> rfl

end Reading

/-- A part of a name, in double quotes or in grave accents. -/
structure NamePart where
  quote : Char
  text : String
  named : isNameQuote quote = true

namespace NamePart

variable {part first second : NamePart} {parts others : List NamePart}

def written (part : NamePart) : String :=
  Text.quoted part.quote part.text

def ofSegment (segment : List Char) : NamePart where
  quote := '"'
  text := String.ofList segment
  named := by decide

theorem toList_written (part : NamePart) :
    part.written.toList =
      part.quote :: (Text.doubled part.quote part.text.toList ++ [part.quote]) := by
  rw [written, Text.quoted, String.toList_ofList, enclosed_eq]

theorem quote_apart (part : NamePart) : Text.isBlank part.quote = false ∧
    punctuation? part.quote = none ∧ part.quote ≠ '\'' ∧ part.quote ≠ '.' := by
  have named := part.named
  simp only [isNameQuote, Bool.or_eq_true, decide_eq_true_eq] at named
  rcases named with same | same <;> rw [same] <;> decide

/-- A part in quotes ends at its closing quote, if further parts follow or what follows is no such
quote. -/
theorem readQuoted_written (ended : rest.head? ≠ some part.quote) :
    readQuoted part.quote (Text.doubled part.quote part.text.toList ++ [part.quote] ++
        (pointed (parts.map (·.written.toList)) ++ rest)) =
      .ok (part.text.toList, pointed (parts.map (·.written.toList)) ++ rest) := by
  apply readQuoted_doubled
  rcases parts with _ | ⟨further, parts⟩
  · exact ended
  · intro same
    exact part.quote_apart.2.2.2 (Option.some.inj same).symm

/-- Parts in quotes are read on, whatever is in the quotes. -/
theorem readQualified_pointed (ended : ∀ part ∈ parts, rest.head? ≠ some part.quote) :
    readQualified cs (pointed (parts.map (·.written.toList)) ++ rest) =
      readQualified (cs ++ pointed (parts.map (·.text.toList))) rest := by
  induction parts generalizing cs with
  | nil => simp [pointed]
  | cons part parts ih =>
    obtain ⟨here, further⟩ := List.forall_mem_cons.mp ended
    have text : pointed ((part :: parts).map (·.written.toList)) ++ rest =
        '.' :: part.quote :: (Text.doubled part.quote part.text.toList ++ [part.quote] ++
          (pointed (parts.map (·.written.toList)) ++ rest)) := by
      simp [pointed, toList_written]
    have named : readNamePart (cs ++ ['.']) (part.quote ::
        (Text.doubled part.quote part.text.toList ++ [part.quote] ++
          (pointed (parts.map (·.written.toList)) ++ rest))) =
        .ok (part.text.toList, pointed (parts.map (·.written.toList)) ++ rest) := by
      rw [readNamePart, if_pos part.named, readQuoted_written here]
    rw [text, readQualified_point named, ih further]
    simp [pointed]

/-- A name of several parts in quotes is read to the end of the last one, and an identifier if it is
read to an end there. -/
theorem readToken_several
    (ended : ∀ part ∈ first :: second :: others, rest.head? ≠ some part.quote) :
    readToken first.quote (Text.doubled first.quote first.text.toList ++ [first.quote] ++
        (pointed ((second :: others).map (·.written.toList)) ++ rest)) =
      (readQualified (first.text.toList ++ pointed ((second :: others).map (·.text.toList)))
        rest).map nameRead := by
  obtain ⟨here, further⟩ := List.forall_mem_cons.mp ended
  obtain ⟨_, mark, literal, _⟩ := first.quote_apart
  have point : (pointed ((second :: others).map (·.written.toList)) ++ rest).head? = some '.' := rfl
  rw [readToken, mark]
  simp only [if_neg literal, if_pos first.named]
  rw [readEnclosed_eq, readQuoted_written here, Except.bind, afterEnclosed, if_pos point,
    readQualified_pointed further]

end NamePart

theorem pointedInQuotes_eq (parts : List (List Char)) :
    pointedInQuotes parts = pointed ((parts.map NamePart.ofSegment).map (·.written.toList)) := by
  simp [pointedInQuotes, pointed, NamePart.ofSegment, NamePart.toList_written, enclosed_eq,
    List.flatMap_map]

theorem pointed_eq (parts : List (List Char)) :
    pointed parts = pointed ((parts.map NamePart.ofSegment).map (·.text.toList)) := by
  simp [pointed, NamePart.ofSegment, List.flatMap_map]

/-- A name of several parts in double quotes is an identifier, if it does not end in a point. -/
theorem scans_pointedInQuotes {part : List Char} {parts : List (List Char)}
    (ended : rest.head? ≠ some '"' ∧ rest.head? ≠ some '.')
    (closed : (cs ++ pointed (part :: parts)).getLast? ≠ some '.') :
    Scans (Text.enclosed '"' cs ++ pointedInQuotes (part :: parts))
      [.identifier (String.ofList (cs ++ pointed (part :: parts)))] rest := by
  have apart : ∀ p ∈ (cs :: part :: parts).map NamePart.ofSegment, rest.head? ≠ some p.quote := by
    intro p listed
    obtain ⟨_, _, rfl⟩ := List.mem_map.mp listed
    exact ended.1
  have read := NamePart.readToken_several apart
  rw [← List.map_cons, ← pointedInQuotes_eq, ← pointed_eq, NamePart.ofSegment,
    String.toList_ofList, readQualified_of_closed ended.2 closed] at read
  rw [enclosed_eq, List.cons_append]
  apply scans_of_readToken (by decide)
  rw [List.append_assoc]
  exact read

/-! ### Every token -/

/-- A character that stands at neither end of a statement is blank or a semicolon. -/
def Visible (c : Char) : Prop :=
  Text.isBlank c = false ∧ c ≠ ';'

theorem visible_of_isWordChar (h : isWordChar c = true) : Visible c := by
  simp only [isWordChar, Bool.not_eq_true', Bool.or_eq_false_iff] at h
  refine ⟨h.1.1.1, ?_⟩
  rintro rfl
  exact absurd h.1.2 (by decide)

theorem visible_of_isSymbolChar (h : isSymbolChar c = true) : Visible c := by
  rcases eq_of_isSymbolChar h with rfl | rfl | rfl | rfl | rfl | rfl
  all_goals exact ⟨by decide, by decide⟩

theorem visible_of_run {text : String} {p : Char → Bool}
    (lexeme : text.toList ≠ [] ∧ ∀ c ∈ text.toList, p c = true)
    (visible : ∀ {c}, p c = true → Visible c) : ∃ c d, text.toList.head? = some c ∧
      text.toList.getLast? = some d ∧ Visible c ∧ Visible d := by
  obtain ⟨filled, all⟩ := lexeme
  refine ⟨text.toList.head filled, text.toList.getLast filled, List.head?_eq_some_head filled,
    List.getLast?_eq_some_getLast filled, ?_, ?_⟩
  · exact visible (all _ (List.head_mem filled))
  · exact visible (all _ (List.getLast_mem filled))

theorem visible_of_enclosed {quote : Char} (visible : Visible quote) :
    ∃ c d, (Text.enclosed quote cs).head? = some c ∧
      (Text.enclosed quote cs).getLast? = some d ∧ Visible c ∧ Visible d :=
  ⟨quote, quote, rfl, getLast?_enclosed, visible, visible⟩

/-- The text of a token other than a semicolon starts and ends visibly. -/
theorem visible_written (lexeme : t.IsLexeme) (apart : t ≠ .semicolon) :
    ∃ c d, t.written.head? = some c ∧ t.written.getLast? = some d ∧ Visible c ∧ Visible d := by
  cases t with
  | leftParen => exact ⟨'(', '(', rfl, rfl, ⟨by decide, by decide⟩, ⟨by decide, by decide⟩⟩
  | rightParen => exact ⟨')', ')', rfl, rfl, ⟨by decide, by decide⟩, ⟨by decide, by decide⟩⟩
  | comma => exact ⟨',', ',', rfl, rfl, ⟨by decide, by decide⟩, ⟨by decide, by decide⟩⟩
  | semicolon => exact absurd rfl apart
  | quoted text => exact visible_of_enclosed ⟨by decide, by decide⟩
  | identifier name => exact visible_of_enclosed ⟨by decide, by decide⟩
  | symbol text => exact visible_of_run lexeme visible_of_isSymbolChar
  | word text => exact visible_of_run lexeme visible_of_isWordChar

/-- A token that can stand in a text is read back, if what follows is set apart. -/
theorem scans_written (lexeme : t.IsLexeme) (apart : Delimited rest) :
    Scans t.written [t] rest := by
  cases t with
  | leftParen => exact scans_punctuation rfl
  | rightParen => exact scans_punctuation rfl
  | comma => exact scans_punctuation rfl
  | semicolon => exact scans_punctuation rfl
  | quoted text =>
    have read : Scans _ [.quoted (String.ofList text.toList)] rest :=
      scans_literal (apart.head?_ne (.inl (by decide)))
    rwa [String.ofList_toList] at read
  | identifier name =>
    have named : isNameQuote '\x60' = true := by decide
    have ended : rest.head? ≠ some '\x60' ∧ rest.head? ≠ some '.' :=
      ⟨apart.head?_ne (.inl (by decide)), apart.head?_ne (.inr rfl)⟩
    have read : Scans (Text.enclosed '\x60' name.toList) _ rest := scans_enclosed named ended
    rwa [if_neg (by decide), String.ofList_toList] at read
  | symbol text =>
    apply scans_symbol lexeme
    rcases rest with _ | ⟨d, rest⟩
    · simp
    · simpa using apart.apart.2.1
  | word text =>
    apply scans_word lexeme
    rcases rest with _ | ⟨d, rest⟩
    · simp
    · obtain ⟨word, _, quote, _⟩ := apart.apart
      simp only [isQuote, Bool.or_eq_false_iff, decide_eq_false_iff_not] at quote
      simp [word, isNameQuote, quote]

end SqlBridge.Token
