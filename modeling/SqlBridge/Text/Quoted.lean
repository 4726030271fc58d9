/-!
# Quoted text

A quote character encloses text, and inside the text the quote itself is written twice. Nothing
else is special: a backslash stands for itself. Main statement: reading back what was enclosed
gives the text and leaves whatever follows, so long as no further quote is glued to it, and nothing
else is read; without a closing quote all of the text is.
-/

namespace SqlBridge.Text

def doubled (quote : Char) (cs : List Char) : List Char :=
  cs.flatMap fun c => if c = quote then [quote, quote] else [c]

/-- The text between two quotes, with every quote inside it doubled. -/
def enclosed (quote : Char) (cs : List Char) : List Char :=
  quote :: doubled quote cs ++ [quote]

def quoted (quote : Char) (s : String) : String :=
  String.ofList (enclosed quote s.toList)

theorem doubled_cons_quote (quote : Char) (cs : List Char) :
    doubled quote (quote :: cs) = quote :: quote :: doubled quote cs := by
  simp [doubled]

theorem doubled_cons_of_ne {quote c : Char} (cs : List Char) (h : c ≠ quote) :
    doubled quote (c :: cs) = c :: doubled quote cs := by
  simp [doubled, h]

/-- Read up to the closing quote, the opening one being consumed: the text, and what follows the
quote. Without a closing quote the failure is the text read so far, which is all of it. -/
def readQuoted (quote : Char) : List Char → Except (List Char) (List Char × List Char)
  | [] => .error []
  | c :: rest =>
    if c = quote then
      match rest with
      | [] => .ok ([], [])
      | d :: rest' =>
        if d = quote then
          match readQuoted quote rest' with
          | .ok (text, after) => .ok (quote :: text, after)
          | .error text => .error (quote :: text)
        else .ok ([], d :: rest')
    else
      match readQuoted quote rest with
      | .ok (text, after) => .ok (c :: text, after)
      | .error text => .error (c :: text)

/-- What follows a quoted text is shorter than the text with its closing quote. -/
theorem length_lt_of_readQuoted {quote : Char} {cs text after : List Char}
    (h : readQuoted quote cs = .ok (text, after)) : after.length < cs.length := by
  fun_induction readQuoted quote cs generalizing text after <;> simp_all
  all_goals omega

/-- A character other than the quote stands for itself. -/
theorem readQuoted_cons_of_ne {quote c : Char} (cs : List Char) (h : c ≠ quote) :
    readQuoted quote (c :: cs) =
      match readQuoted quote cs with
      | .ok (text, after) => .ok (c :: text, after)
      | .error text => .error (c :: text) := by
  rw [readQuoted.eq_def]; simp [h]

/-- A doubled quote stands for one quote. -/
theorem readQuoted_quote_quote (quote : Char) (cs : List Char) :
    readQuoted quote (quote :: quote :: cs) =
      match readQuoted quote cs with
      | .ok (text, after) => .ok (quote :: text, after)
      | .error text => .error (quote :: text) := by
  rw [readQuoted.eq_def]; simp

/-- A single quote ends the text. -/
theorem readQuoted_quote {quote : Char} (after : List Char) (h : after.head? ≠ some quote) :
    readQuoted quote (quote :: after) = .ok ([], after) := by
  rw [readQuoted.eq_def]; cases after <;> simp_all

/-- What was enclosed is read back, unless another quote is glued to it. -/
theorem readQuoted_doubled (quote : Char) (cs after : List Char)
    (h : after.head? ≠ some quote) :
    readQuoted quote (doubled quote cs ++ quote :: after) = .ok (cs, after) := by
  induction cs with
  | nil => exact readQuoted_quote after h
  | cons c cs ih =>
    by_cases hc : c = quote
    · rw [hc, doubled_cons_quote, List.cons_append, List.cons_append, readQuoted_quote_quote, ih]
    · rw [doubled_cons_of_ne cs hc, List.cons_append, readQuoted_cons_of_ne _ hc, ih]

/-- What is read is what was enclosed, and no further quote is glued to it. -/
theorem eq_of_readQuoted {quote : Char} {cs text after : List Char}
    (h : readQuoted quote cs = .ok (text, after)) :
    cs = doubled quote text ++ quote :: after ∧ after.head? ≠ some quote := by
  fun_induction readQuoted quote cs generalizing text after with
  | case1 => cases h
  | case2 => cases h; exact ⟨rfl, by simp⟩
  | case3 rest text' after' read ih =>
    cases h
    obtain ⟨split, ended⟩ := ih read
    exact ⟨by rw [doubled_cons_quote, split]; rfl, ended⟩
  | case4 => cases h
  | case5 d rest other => cases h; exact ⟨rfl, by simp [other]⟩
  | case6 c rest other text' after' read ih =>
    cases h
    obtain ⟨split, ended⟩ := ih read
    exact ⟨by rw [doubled_cons_of_ne text' other, split]; rfl, ended⟩
  | case7 => cases h

/-- Text without a closing quote has every quote doubled. -/
theorem eq_of_readQuoted_error {quote : Char} {cs text : List Char}
    (h : readQuoted quote cs = .error text) : cs = doubled quote text := by
  fun_induction readQuoted quote cs generalizing text with
  | case1 => cases h; rfl
  | case2 => cases h
  | case3 => cases h
  | case4 rest text' read ih => cases h; rw [doubled_cons_quote, ← ih read]
  | case5 => cases h
  | case6 => cases h
  | case7 c rest other text' read ih => cases h; rw [doubled_cons_of_ne text' other, ← ih read]

/-- Where all before is doubled, the closing quote is found behind it. -/
theorem exists_of_readQuoted_append {quote : Char} {cs rest text after : List Char}
    (h : readQuoted quote (doubled quote cs ++ rest) = .ok (text, after)) :
    ∃ more, readQuoted quote rest = .ok (more, after) := by
  induction cs generalizing text with
  | nil => exact ⟨text, h⟩
  | cons c cs ih =>
    have inner : ∃ text', readQuoted quote (doubled quote cs ++ rest) = .ok (text', after) := by
      by_cases hc : c = quote
      · rw [hc, doubled_cons_quote, List.cons_append, List.cons_append,
          readQuoted_quote_quote] at h
        split at h
        · next read => cases h; exact ⟨_, read⟩
        · cases h
      · rw [doubled_cons_of_ne cs hc, List.cons_append, readQuoted_cons_of_ne _ hc] at h
        split at h
        · next read => cases h; exact ⟨_, read⟩
        · cases h
    obtain ⟨text', read⟩ := inner
    exact ih read

end SqlBridge.Text
