import SqlBridge.Proofs.Token.Printing

/-!
# Tokens with more text behind them

The lexer looks one character ahead and no further. Text that is tokens stays these tokens when more
text follows that sets it apart; and where the lexer, reading a longer text, comes to stand between
two tokens, what it has read is tokens without the rest. Text that is no tokens can only become
some if a quote follows.
-/

namespace SqlBridge.Token

variable {ε α β : Type} {quote c : Char} {cs rest name : List Char} {t : Token} {ts us : List Token}

/-! ### What is read is a beginning of the text -/

theorem suffix_of_readQuoted {text after : List Char}
    (h : readQuoted quote cs = .ok (text, after)) : after <:+ cs := by
  unfold readQuoted at h
  split at h
  · next read =>
    cases h
    obtain ⟨split, _⟩ := Text.eq_of_readQuoted read
    exact ⟨Text.doubled quote text ++ [quote], by rw [split, List.append_assoc]; rfl⟩
  · cases h

theorem suffix_of_readNamePart {part after : List Char}
    (h : readNamePart name cs = .ok (part, after)) : after <:+ cs := by
  cases cs with
  | nil => cases h
  | cons c rest =>
    simp only [readNamePart] at h
    split at h
    · exact (suffix_of_readQuoted h).trans (List.suffix_cons c rest)
    · split at h
      · cases h
        exact (List.dropWhile_suffix isWordChar).trans (List.suffix_cons c rest)
      · cases h

theorem suffix_takePoint (name cs : List Char) : (takePoint name cs).2 <:+ cs := by
  unfold takePoint
  split
  · exact List.suffix_cons _ _
  · exact List.suffix_rfl

theorem suffix_of_readQualified {whole after : List Char}
    (h : readQualified name cs = .ok (whole, after)) : after <:+ cs := by
  fun_induction readQualified name cs with
  | case1 => cases h
  | case2 name cs pointed _ part rest read _ ih =>
    exact (ih h).trans ((suffix_of_readNamePart read).trans (suffix_takePoint name cs))
  | case3 name cs pointed _ =>
    have same : pointed.2 = after := congrArg Prod.snd (Except.ok.inj h)
    exact same ▸ suffix_takePoint name cs

theorem readWord_eq (c : Char) (cs : List Char) :
    readWord c cs = if (c :: cs.takeWhile isWordChar).getLast? = some '.' ∧
        (cs.dropWhile isWordChar).head?.any isNameQuote then
      (readQualified (c :: cs.takeWhile isWordChar) (cs.dropWhile isWordChar)).map nameRead
    else .ok (.word (String.ofList (c :: cs.takeWhile isWordChar)), cs.dropWhile isWordChar) := by
  unfold readWord
  dsimp only
  split
  · cases readQualified (c :: cs.takeWhile isWordChar) (cs.dropWhile isWordChar) <;> rfl
  · rfl

theorem suffix_of_map_nameRead {after : List Char}
    (h : (readQualified name cs).map nameRead = .ok (t, after)) : after <:+ cs := by
  cases read : readQualified name cs with
  | error fault => rw [read] at h; cases h
  | ok found =>
    rw [read] at h
    cases h
    exact suffix_of_readQualified read

theorem suffix_of_afterEnclosed {found : List Char × List Char} {after : List Char}
    (h : afterEnclosed quote found = .ok (t, after)) : after <:+ found.2 := by
  unfold afterEnclosed at h
  split at h
  · exact suffix_of_map_nameRead h
  · cases h
    exact List.suffix_rfl

theorem suffix_of_readEnclosed {after : List Char} (h : readEnclosed quote cs = .ok (t, after)) :
    after <:+ cs := by
  rw [readEnclosed_eq] at h
  cases read : readQuoted quote cs with
  | error fault => rw [read] at h; cases h
  | ok found =>
    rw [read] at h
    exact (suffix_of_afterEnclosed h).trans (suffix_of_readQuoted read)

theorem suffix_of_readWord {after : List Char} (h : readWord c cs = .ok (t, after)) :
    after <:+ cs := by
  have first : cs.dropWhile isWordChar <:+ cs := List.dropWhile_suffix isWordChar
  rw [readWord_eq] at h
  split at h
  · exact (suffix_of_map_nameRead h).trans first
  · cases h
    exact first

/-- What follows a token is the end of what follows its first character. -/
theorem suffix_of_readToken {after : List Char} (h : readToken c cs = .ok (t, after)) :
    after <:+ cs := by
  unfold readToken at h
  split at h
  · cases h; exact List.suffix_rfl
  · split at h
    · split at h
      · cases h
      · next read => cases h; exact suffix_of_readQuoted read
    · split at h
      · exact suffix_of_readEnclosed h
      · split at h
        · cases h; exact List.dropWhile_suffix _
        · exact suffix_of_readWord h

/-! ### Reading with more text -/

/-- What reading gives with `rest` behind the text, next to what it gives without: the same with
`rest` left over; or, where it fails without, it fails or takes a quote of `rest`. -/
inductive Extends (rest : List Char) :
    Except ε (α × List Char) → Except ε (α × List Char) → Prop where
  | ok {a : α} {after : List Char} : Extends rest (.ok (a, after)) (.ok (a, after ++ rest))
  | error {e e' : ε} : Extends rest (.error e) (.error e')
  | beyond {e : ε} {a : α} {taken left : List Char} (split : rest = taken ++ left)
      (quote : ∃ q ∈ taken, isQuote q = true) : Extends rest (.error e) (.ok (a, left))

theorem Extends.eq_ok {a : α} {after : List Char} {r : Except ε (α × List Char)}
    (h : Extends rest (.ok (a, after)) r) : r = .ok (a, after ++ rest) := by
  cases h
  rfl

/-- Where a quote of `rest` is taken, it does not matter what else is read. -/
theorem Extends.further {e : ε} {r : Except ε (α × List Char)} {taken left : List Char}
    (split : rest = taken ++ left) (quote : ∃ q ∈ taken, isQuote q = true)
    (suffix : ∀ a after, r = .ok (a, after) → after <:+ left) : Extends rest (.error e) r := by
  cases h : r with
  | error e' => exact .error
  | ok found =>
    obtain ⟨a, after⟩ := found
    obtain ⟨more, rfl⟩ := suffix a after h
    obtain ⟨q, listed, isQuote⟩ := quote
    have longer : rest = (taken ++ more) ++ after := by rw [split, List.append_assoc]
    exact .beyond longer ⟨q, List.mem_append_left more listed, isQuote⟩

theorem extends_readQuoted (quoted : isQuote quote = true) (ended : rest.head? ≠ some quote)
    (cs : List Char) : Extends rest (readQuoted quote cs) (readQuoted quote (cs ++ rest)) := by
  cases first : Text.readQuoted quote cs with
  | ok found =>
    obtain ⟨text, after⟩ := found
    obtain ⟨split, apart⟩ := Text.eq_of_readQuoted first
    have more : (after ++ rest).head? ≠ some quote := by
      rw [List.head?_append]
      cases h : after.head? with
      | none => exact ended
      | some d => rwa [h] at apart
    rw [readQuoted, readQuoted, first, split, List.append_assoc, List.cons_append,
      Text.readQuoted_doubled quote text _ more]
    exact .ok
  | error text =>
    have split := Text.eq_of_readQuoted_error first
    rw [readQuoted, readQuoted, first]
    cases second : Text.readQuoted quote (cs ++ rest) with
    | error text' => exact .error
    | ok found =>
      obtain ⟨whole, left⟩ := found
      rw [split] at second
      obtain ⟨more, read⟩ := Text.exists_of_readQuoted_append second
      obtain ⟨closed, _⟩ := Text.eq_of_readQuoted read
      have taken : rest = (Text.doubled quote more ++ [quote]) ++ left := by
        rw [closed, List.append_assoc, List.singleton_append]
      exact .beyond taken ⟨quote, by simp, quoted⟩

theorem isQuote_of_isNameQuote (h : isNameQuote c = true) : isQuote c = true := by
  simp only [isNameQuote, Bool.or_eq_true] at h
  rcases h with h | h <;> simp [isQuote, h]

/-- What delimits is in no word, in no symbol and in no quotes around a name. -/
theorem Delimited.ended (apart : Delimited rest) : ∀ c ∈ rest.head?,
    isWordChar c = false ∧ isSymbolChar c = false ∧ isNameQuote c = false := by
  intro c hc
  obtain ⟨cs, rfl⟩ := List.head?_eq_some_iff.mp hc
  obtain ⟨word, symbol, quote, _⟩ := apart.apart
  refine ⟨word, symbol, Bool.eq_false_iff.mpr fun named => ?_⟩
  rw [isQuote_of_isNameQuote named] at quote
  cases quote

theorem extends_readNamePart (apart : Delimited rest) (name cs : List Char) :
    Extends rest (readNamePart name cs) (readNamePart name (cs ++ rest)) := by
  cases cs with
  | nil =>
    rcases rest with _ | ⟨c, rest⟩
    · exact .error
    · obtain ⟨word, _, named⟩ := apart.ended c rfl
      rw [List.nil_append, readNamePart, readNamePart, named, word]
      exact .error
  | cons c cs =>
    rw [List.cons_append, readNamePart, readNamePart]
    by_cases named : isNameQuote c = true
    · rw [if_pos named, if_pos named]
      have quoted := isQuote_of_isNameQuote named
      exact extends_readQuoted quoted (apart.head?_ne (.inl quoted)) cs
    · rw [if_neg named, if_neg named]
      by_cases word : isWordChar c = true
      · obtain ⟨taken, left⟩ := Text.takeWhile_append_of_ended cs fun d hd =>
          (apart.ended d hd).1
        rw [if_pos word, if_pos word, taken, left]
        exact .ok
      · rw [if_neg word, if_neg word]
        exact .error

theorem takePoint_append (apart : Delimited rest) (name cs : List Char) :
    takePoint name (cs ++ rest) = ((takePoint name cs).1, (takePoint name cs).2 ++ rest) := by
  rcases cs with _ | ⟨c, cs⟩
  · exact takePoint_of_head?_ne (apart.head?_ne (.inr rfl))
  · by_cases point : c = '.'
    · rw [point]
      rfl
    · simp [takePoint, point]

theorem extends_readQualified (apart : Delimited rest) (name cs : List Char) :
    Extends rest (readQualified name cs) (readQualified name (cs ++ rest)) := by
  have taken := takePoint_append apart
  fun_induction readQualified name cs with
  | case1 name cs pointed ends fault failed =>
    have part := extends_readNamePart apart pointed.1 pointed.2
    rw [failed] at part
    cases named : readNamePart pointed.1 (pointed.2 ++ rest) with
    | error fault' =>
      rw [readQualified_of_fault (taken name cs) ends named]
      exact .error
    | ok found =>
      rw [named] at part
      obtain ⟨text, left⟩ := found
      rw [readQualified_of_part (taken name cs) ends named]
      cases part with
      | beyond split quote => exact .further split quote fun _ _ => suffix_of_readQualified
  | case2 name cs pointed ends text after named _ ih =>
    have part := extends_readNamePart apart pointed.1 pointed.2
    rw [named] at part
    rw [readQualified_of_part (taken name cs) ends part.eq_ok]
    exact ih
  | case3 name cs pointed closed =>
    rw [readQualified_of_unpointed (taken name cs) closed]
    exact .ok

/-- What reads on after a reader takes the end of what is left. -/
theorem Extends.bind {r r' : Except ε (α × List Char)}
    {f : α × List Char → Except ε (β × List Char)} (h : Extends rest r r')
    (next : ∀ a after, Extends rest (f (a, after)) (f (a, after ++ rest)))
    (suffix : ∀ {found b after}, f found = .ok (b, after) → after <:+ found.2) :
    Extends rest (r.bind f) (r'.bind f) := by
  cases h with
  | ok => exact next _ _
  | error => exact .error
  | beyond split quote => exact .further split quote fun _ _ => suffix

theorem Extends.map_nameRead {r r' : Except Fault (List Char × List Char)}
    (h : Extends rest r r') : Extends rest (r.map nameRead) (r'.map nameRead) := by
  cases h with
  | ok => exact .ok
  | error => exact .error
  | beyond split quote => exact .beyond split quote

theorem Delimited.head?_append_eq (apart : Delimited rest) (cs : List Char) :
    (cs ++ rest).head? = some '.' ↔ cs.head? = some '.' := by
  rcases cs with _ | ⟨c, cs⟩
  · exact iff_of_false (apart.head?_ne (.inr rfl)) (by simp)
  · rfl

theorem Delimited.any_head?_append (apart : Delimited rest) (cs : List Char) :
    (cs ++ rest).head?.any isNameQuote = cs.head?.any isNameQuote := by
  rcases cs with _ | ⟨c, cs⟩
  · rcases rest with _ | ⟨d, rest⟩
    · rfl
    · exact (apart.ended d rfl).2.2
  · rfl

theorem extends_readEnclosed (named : isNameQuote quote = true) (apart : Delimited rest)
    (cs : List Char) : Extends rest (readEnclosed quote cs) (readEnclosed quote (cs ++ rest)) := by
  have quoted := isQuote_of_isNameQuote named
  have first := extends_readQuoted quoted (apart.head?_ne (.inl quoted)) cs
  rw [readEnclosed_eq, readEnclosed_eq]
  refine first.bind (fun text after => ?_) suffix_of_afterEnclosed
  simp only [afterEnclosed, apart.head?_append_eq]
  split
  · exact (extends_readQualified apart text after).map_nameRead
  · exact .ok

theorem extends_readWord (apart : Delimited rest) (c : Char) (cs : List Char) :
    Extends rest (readWord c cs) (readWord c (cs ++ rest)) := by
  obtain ⟨taken, left⟩ := Text.takeWhile_append_of_ended cs fun d hd =>
    (apart.ended d hd).1
  simp only [readWord_eq, taken, left, apart.any_head?_append]
  split
  · exact (extends_readQualified apart _ _).map_nameRead
  · exact .ok

theorem extends_readToken (apart : Delimited rest) (c : Char) (cs : List Char) :
    Extends rest (readToken c cs) (readToken c (cs ++ rest)) := by
  unfold readToken
  cases punctuation? c with
  | some t => exact .ok
  | none =>
    dsimp only
    by_cases literal : c = '\''
    · have quoted : isQuote c = true := by simp [isQuote, literal]
      have first := extends_readQuoted quoted (apart.head?_ne (.inl quoted)) cs
      rw [if_pos literal, if_pos literal]
      generalize readQuoted c cs = r at first
      generalize readQuoted c (cs ++ rest) = r' at first
      cases first with
      | ok => exact .ok
      | error => exact .error
      | beyond split quote => exact .beyond split quote
    · rw [if_neg literal, if_neg literal]
      by_cases named : isNameQuote c = true
      · rw [if_pos named, if_pos named]
        exact extends_readEnclosed named apart cs
      · rw [if_neg named, if_neg named]
        by_cases symbol : isSymbolChar c = true
        · obtain ⟨taken, left⟩ := Text.takeWhile_append_of_ended cs fun d hd =>
            (apart.ended d hd).2.1
          rw [if_pos symbol, if_pos symbol, taken, left]
          exact .ok
        · rw [if_neg symbol, if_neg symbol]
          exact extends_readWord apart c cs

/-! ### The lexer between two tokens -/

/-- The lexer, reading `cs`, comes to stand in front of `rest`, and has read the tokens `ts`. -/
inductive Reaches : List Char → List Token → List Char → Prop where
  | here {cs : List Char} : Reaches cs [] cs
  | blank {c : Char} {cs rest : List Char} {ts : List Token} (blank : Text.isBlank c = true)
      (next : Reaches cs ts rest) : Reaches (c :: cs) ts rest
  | token {c : Char} {cs after rest : List Char} {t : Token} {ts : List Token}
      (visible : Text.isBlank c = false) (read : readToken c cs = .ok (t, after))
      (next : Reaches after ts rest) : Reaches (c :: cs) (t :: ts) rest

theorem Reaches.suffix (h : Reaches cs ts rest) : rest <:+ cs := by
  induction h with
  | here => exact List.suffix_rfl
  | blank _ _ ih => exact ih.trans (List.suffix_cons _ _)
  | token _ read _ ih =>
    exact ih.trans ((suffix_of_readToken read).trans (List.suffix_cons _ _))

/-- The tokens of a text are those before a point that the lexer reaches and those after it. -/
theorem Reaches.scan_eq (h : Reaches cs ts rest) : scan cs = (scan rest).map (ts ++ ·) := by
  induction h with
  | @here cs => cases scan cs <;> rfl
  | blank blank _ ih => rw [scan_cons_of_isBlank blank, ih]
  | @token c cs after rest t ts visible read _ ih =>
    rw [scan_cons_of_readToken visible read, ih]
    cases scan rest <;> rfl

theorem reaches_of_scan (h : scan cs = .ok ts) : Reaches cs ts [] := by
  fun_induction scan cs generalizing ts with
  | case1 => cases h; exact .here
  | case2 c cs blank ih => exact .blank blank (ih h)
  | case3 => cases h
  | case4 c cs visible t after read _ ih =>
    cases others : scan after with
    | error fault => rw [others] at h; cases h
    | ok us =>
      rw [others] at h
      cases h
      exact .token (by simpa using visible) read (ih others)

theorem scan_eq_ok_iff : scan cs = .ok ts ↔ Reaches cs ts [] := by
  refine ⟨reaches_of_scan, fun h => ?_⟩
  rw [h.scan_eq, scan]
  simp [Except.map]

/-- Tokens stay what they are when more text follows that sets them apart. -/
theorem Reaches.append {left : List Char} (h : Reaches cs ts left) (apart : Delimited rest) :
    Reaches (cs ++ rest) ts (left ++ rest) := by
  induction h with
  | here => exact .here
  | blank blank _ ih => exact .blank blank ih
  | @token c cs after left t ts visible read _ ih =>
    have more := extends_readToken apart c cs
    rw [read] at more
    exact .token visible more.eq_ok ih

/-- Reading a text and more behind it, the lexer is still within the text; or it came to stand at
its end; or it took a quote of what is behind. -/
theorem Reaches.parted {left : List Char} (h : Reaches (cs ++ rest) ts left)
    (apart : Delimited rest) :
    (∃ after, left = after ++ rest ∧ Reaches cs ts after) ∨
      (∃ us vs, ts = us ++ vs ∧ Reaches cs us [] ∧ Reaches rest vs left) ∨
        ∃ taken, rest = taken ++ left ∧ ∃ q ∈ taken, isQuote q = true := by
  generalize whole : cs ++ rest = text at h
  induction h generalizing cs with
  | here => exact .inl ⟨cs, whole.symm, .here⟩
  | @blank c text left ts blank next ih =>
    rcases cs with _ | ⟨d, cs⟩
    · obtain rfl : rest = c :: text := whole
      exact .inr (.inl ⟨[], ts, rfl, .here, .blank blank next⟩)
    · obtain ⟨rfl, within⟩ := List.cons.inj whole
      rcases ih within with ⟨after, split, read⟩ | ⟨us, vs, split, read, others⟩ | taken
      · exact .inl ⟨after, split, .blank blank read⟩
      · exact .inr (.inl ⟨us, vs, split, .blank blank read, others⟩)
      · exact .inr (.inr taken)
  | @token c text behind left t ts visible found next ih =>
    rcases cs with _ | ⟨d, cs⟩
    · obtain rfl : rest = c :: text := whole
      exact .inr (.inl ⟨[], t :: ts, rfl, .here, .token visible found next⟩)
    · obtain ⟨rfl, within⟩ := List.cons.inj whole
      have more := extends_readToken apart d cs
      change cs ++ rest = text at within
      rw [within, found] at more
      cases first : readToken d cs with
      | ok token =>
        rw [first] at more
        cases more
        rcases ih rfl with ⟨after, split, read⟩ | ⟨us, vs, split, read, others⟩ | taken
        · exact .inl ⟨after, split, .token visible first read⟩
        · have longer : t :: ts = (t :: us) ++ vs := congrArg (t :: ·) split
          exact .inr (.inl ⟨t :: us, vs, longer, .token visible first read, others⟩)
        · exact .inr (.inr taken)
      | error fault =>
        rw [first] at more
        cases more with
        | beyond split quote =>
          obtain ⟨further, rfl⟩ := next.suffix
          obtain ⟨q, listed, quoted⟩ := quote
          refine .inr (.inr ⟨_ ++ further, ?_, q, List.mem_append_left further listed, quoted⟩)
          rw [split, List.append_assoc]

/-- The lexer does not come back to where it stood. -/
theorem Reaches.eq_nil (h : Reaches cs ts cs) : ts = [] := by
  cases h with
  | here => rfl
  | blank _ next => exact absurd next.suffix.length_le (by simp)
  | token _ read next =>
    exact absurd (next.suffix.trans (suffix_of_readToken read)).length_le (by simp)

/-- The lexer comes to stand in front of text that sets apart exactly if all before is tokens. -/
theorem reaches_append_iff (apart : Delimited rest) :
    Reaches (cs ++ rest) ts rest ↔ scan cs = .ok ts := by
  rw [scan_eq_ok_iff]
  refine ⟨fun h => ?_, fun h => h.append apart⟩
  rcases h.parted apart with
    ⟨after, split, read⟩ | ⟨us, vs, rfl, read, others⟩ | ⟨taken, split, q, listed, _⟩
  · obtain rfl := List.self_eq_append_left.mp split
    exact read
  · rwa [others.eq_nil, List.append_nil]
  · obtain rfl := List.self_eq_append_left.mp split
    cases listed

/-- Text from which the lexer reads on to the end of text without quotes is tokens. -/
theorem Reaches.exists_of_append (h : Reaches (cs ++ rest) ts []) (apart : Delimited rest)
    (plain : ∀ c ∈ rest, isQuote c = false) : ∃ us, Reaches cs us [] := by
  rcases h.parted apart with
    ⟨after, split, read⟩ | ⟨us, _, _, read, _⟩ | ⟨taken, rfl, q, listed, quoted⟩
  · obtain ⟨rfl, _⟩ := List.append_eq_nil_iff.mp split.symm
    exact ⟨ts, read⟩
  · exact ⟨us, read⟩
  · rw [plain q (List.mem_append_left _ listed)] at quoted
    cases quoted

end SqlBridge.Token
