import Mathlib.Data.List.DropRight
import SqlBridge.Proofs.Statement.Text
import SqlBridge.Proofs.Token.Locality

/-!
# Blanks and semicolons that do not count

Outside quotes blanks separate tokens and mean nothing else. What is taken off a statement before it
is read are blanks and the semicolons at its end, and never a part of a token: of the tokens only
the last ones are left out, so far as they are semicolons.
-/

namespace SqlBridge

namespace Token

variable {c d : Char} {cs rest after : List Char} {t : Token} {ts us vs : List Token}

/-! ### Semicolons at the end -/

theorem readEnclosed_ne_semicolon {quote : Char} :
    readEnclosed quote cs ≠ .ok (.semicolon, after) := by
  intro h
  unfold readEnclosed at h
  split at h
  · cases h
  · split at h
    · split at h <;> cases h
    · split at h <;> cases h

theorem readWord_ne_semicolon : readWord c cs ≠ .ok (.semicolon, after) := by
  intro h
  unfold readWord at h
  dsimp only at h
  split at h
  · split at h <;> cases h
  · cases h

/-- Only a semicolon is read as one. -/
theorem eq_of_readToken_semicolon (h : readToken c cs = .ok (.semicolon, after)) :
    c = ';' ∧ after = cs := by
  unfold readToken at h
  split at h
  · next mark =>
    cases h
    rcases eq_of_punctuation? mark with ⟨_, same⟩ | ⟨_, same⟩ | ⟨_, same⟩ | ⟨rfl, _⟩
    · cases same
    · cases same
    · cases same
    · exact ⟨rfl, rfl⟩
  · split at h
    · split at h <;> cases h
    · split at h
      · exact absurd h readEnclosed_ne_semicolon
      · split at h
        · cases h
        · exact absurd h readWord_ne_semicolon

/-- Text whose tokens are all semicolons is semicolons and blanks. -/
theorem Reaches.skipped (h : Reaches cs ts []) (all : ∀ t ∈ ts, t = .semicolon) :
    ∀ c ∈ cs, c = ';' ∨ Text.isBlank c = true := by
  generalize ended : ([] : List Char) = point at h
  induction h with
  | here => simp [← ended]
  | blank blank _ ih => exact List.forall_mem_cons.mpr ⟨.inr blank, ih all ended⟩
  | token _ read _ ih =>
    obtain ⟨first, others⟩ := List.forall_mem_cons.mp all
    rw [first] at read
    obtain ⟨mark, rfl⟩ := eq_of_readToken_semicolon read
    exact List.forall_mem_cons.mpr ⟨.inl mark, ih others ended⟩

/-- Semicolons and blanks are read as the semicolons. -/
theorem exists_reaches_of_skipped (skipped : ∀ c ∈ cs, c = ';' ∨ Text.isBlank c = true) :
    ∃ ts, Reaches cs ts [] ∧ ∀ t ∈ ts, t = .semicolon := by
  induction cs with
  | nil => exact ⟨[], .here, by simp⟩
  | cons c cs ih =>
    obtain ⟨first, others⟩ := List.forall_mem_cons.mp skipped
    obtain ⟨ts, read, all⟩ := ih others
    rcases first with rfl | blank
    · have mark : readToken ';' cs = .ok (.semicolon, cs) := rfl
      exact ⟨.semicolon :: ts, .token (by decide) mark read, List.forall_mem_cons.mpr ⟨rfl, all⟩⟩
    · exact ⟨ts, .blank blank read, all⟩

/-- Tokens are read up to a point before the last ones, and the last ones from there. -/
theorem Reaches.exists_between {left : List Char} (h : Reaches cs (us ++ vs) left) :
    ∃ mid, Reaches cs us mid ∧ Reaches mid vs left := by
  generalize whole : us ++ vs = ts at h
  induction h generalizing us with
  | @here cs =>
    obtain ⟨rfl, rfl⟩ := List.append_eq_nil_iff.mp whole
    exact ⟨cs, .here, .here⟩
  | blank blank _ ih =>
    obtain ⟨mid, first, others⟩ := ih whole
    exact ⟨mid, .blank blank first, others⟩
  | @token c cs _ _ t ts visible read next ih =>
    rcases us with _ | ⟨u, us⟩
    · obtain rfl : vs = t :: ts := whole
      exact ⟨c :: cs, .here, .token visible read next⟩
    · obtain ⟨rfl, within⟩ := List.cons.inj whole
      obtain ⟨mid, first, others⟩ := ih within
      exact ⟨mid, .token visible read first, others⟩

/-- The last token of text that ends visibly is no semicolon. -/
theorem Reaches.getLast?_ne (h : Reaches cs ts []) (last : cs.getLast? = some d)
    (visible : Visible d) : ts.getLast? ≠ some .semicolon := by
  intro ends
  obtain ⟨us, rfl⟩ := List.getLast?_eq_some_iff.mp ends
  obtain ⟨mid, first, tail⟩ := h.exists_between
  obtain ⟨before, rfl⟩ := first.suffix
  have filled : mid ≠ [] := by
    rintro rfl
    cases tail
  have same : mid.getLast filled = d := by
    rw [List.getLast?_append, List.getLast?_eq_some_getLast filled, Option.some_or] at last
    exact Option.some.inj last
  have skipped := tail.skipped (by simp) d (same ▸ List.getLast_mem filled)
  rcases skipped with mark | blank
  · exact visible.2 mark
  · rw [visible.1] at blank
    cases blank

end Token

namespace Text

variable {p : Char → Bool} {cs : List Char} {d : Char}

/-- What is left ends in a character that is kept. -/
theorem kept_of_getLast?_trimEndWhere (last : (trimEndWhere p cs).getLast? = some d) :
    p d = false := by
  rw [trimEndWhere, List.getLast?_reverse] at last
  have stop := List.head?_dropWhile_not p cs.reverse
  rw [last] at stop
  simpa using stop

end Text

namespace Statement

open Token

def isSkipped (c : Char) : Bool :=
  c = ';' || Text.isBlank c

theorem isSkipped_iff {c : Char} : isSkipped c = true ↔ c = ';' ∨ Text.isBlank c = true := by
  simp [isSkipped]

/-- What is taken off a statement are blanks in front of it, and blanks and semicolons behind. -/
theorem exists_normalize (text : String) : ∃ before after,
    text.toList = before ++ ((normalize text).toList ++ after) ∧
      (∀ c ∈ before, Text.isBlank c = true) ∧ (∀ c ∈ after, c = ';' ∨ Text.isBlank c = true) ∧
        ∀ d ∈ (normalize text).toList.getLast?, Visible d := by
  have shape : (normalize text).toList =
      Text.trimEndWhere isSkipped (text.toList.dropWhile Text.isBlank) := by
    rw [normalize, String.toList_ofList, Text.trim]
    exact Text.trimEndWhere_trimEndWhere fun c blank => isSkipped_iff.mpr (.inr blank)
  obtain ⟨after, split, all⟩ :=
    Text.exists_trimEndWhere isSkipped (text.toList.dropWhile Text.isBlank)
  refine ⟨text.toList.takeWhile Text.isBlank, after, ?_, ?_, fun c hc => ?_, fun d last => ?_⟩
  · rw [shape, ← split, List.takeWhile_append_dropWhile]
  · exact List.all_eq_true.mp List.all_takeWhile
  · exact isSkipped_iff.mp (all c hc)
  · rw [shape] at last
    have kept := Text.kept_of_getLast?_trimEndWhere last
    rw [Bool.eq_false_iff, Ne, isSkipped_iff, not_or] at kept
    exact ⟨by simpa using kept.2, kept.1⟩

end Statement

namespace Token

/-- Blanks that may stand between two tokens: one at least. -/
def IsGap (w : String) : Prop :=
  w.toList ≠ [] ∧ ∀ c ∈ w.toList, Text.isBlank c = true

instance : DecidablePred IsGap := fun w =>
  decidable_of_iff (w.toList ≠ [] ∧ w.toList.all Text.isBlank = true) (by simp [IsGap])

/-- The text `a ++ w ++ b` has `w` between two of its tokens, or before or behind all of them: the
lexer comes to stand right behind `a`. -/
def Between (a w b : String) : Prop :=
  ∃ ts, Reaches (a ++ w ++ b).toList ts (w ++ b).toList

theorem IsGap.delimited {w : String} (gap : IsGap w) (b : String) :
    Delimited (w ++ b).toList := by
  intro c hc
  obtain ⟨d, cs, split⟩ := List.exists_cons_of_ne_nil gap.1
  rw [String.toList_append, split] at hc
  obtain rfl : d = c := by simpa using hc
  exact .inl (gap.2 d (by simp [split]))

/-- What stands before blanks is tokens, exactly if the blanks stand between tokens. -/
theorem between_iff {a w b : String} (gap : IsGap w) :
    Between a w b ↔ ∃ ts, tokenize a = .ok ts := by
  refine exists_congr fun ts => ?_
  have whole : (a ++ w ++ b).toList = a.toList ++ (w ++ b).toList := by
    rw [String.append_assoc, String.toList_append]
  rw [tokenize_eq_ok_iff, whole, reaches_append_iff (gap.delimited b)]

/-- Blanks behind tokens set them apart from whatever follows. -/
theorem tokenize_append_gap {a w : String} {ts : List Token} (gap : IsGap w)
    (read : tokenize a = .ok ts) (b : String) :
    tokenize (a ++ w ++ b) = (tokenize b).map (ts ++ ·) := by
  have reached : Reaches (a.toList ++ (w ++ b).toList) ts (w ++ b).toList :=
    (reaches_append_iff (gap.delimited b)).mpr (tokenize_eq_ok_iff.mp read)
  have skipped : scan (w ++ b).toList = scan b.toList := by
    rw [String.toList_append]
    exact (scans_blanks gap.2).trans (by cases scan b.toList <;> rfl)
  rw [tokenize_eq, tokenize_eq, String.append_assoc, String.toList_append, reached.scan_eq, skipped]
  cases scan b.toList <;> rfl

end Token

namespace Statement

open Token

/-- What may be skipped at the end sets tokens apart and has no quotes. -/
theorem delimited_of_skipped {after : List Char}
    (skipped : ∀ c ∈ after, c = ';' ∨ Text.isBlank c = true) :
    Delimited after ∧ ∀ c ∈ after, isQuote c = false := by
  constructor
  · intro c hc
    rcases skipped c (List.mem_of_mem_head? hc) with rfl | blank
    · exact .inr rfl
    · exact .inl blank
  · intro c listed
    rcases skipped c listed with rfl | blank
    · rfl
    · exact (not_special blank (by decide)).2.1

/-- Skipped characters behind tokens add semicolons. -/
theorem scan_append_skipped {core after : List Char} {us : List Token}
    (skipped : ∀ c ∈ after, c = ';' ∨ Text.isBlank c = true) (read : scan core = .ok us) :
    ∃ ss, scan (core ++ after) = .ok (us ++ ss) ∧ ∀ t ∈ ss, t = .semicolon := by
  obtain ⟨ss, tail, all⟩ := exists_reaches_of_skipped skipped
  have reached := (reaches_append_iff (delimited_of_skipped skipped).1).mpr read
  refine ⟨ss, ?_, all⟩
  rw [reached.scan_eq, scan_eq_ok_iff.mpr tail]
  rfl

/-- Where skipped characters are taken off the end of tokens, semicolons at the end are left out. -/
theorem scan_of_skipped {core after : List Char} {ts : List Token}
    (skipped : ∀ c ∈ after, c = ';' ∨ Text.isBlank c = true)
    (visible : ∀ d ∈ core.getLast?, Visible d) (read : scan (core ++ after) = .ok ts) :
    scan core = .ok (ts.rdropWhile (· = .semicolon)) := by
  obtain ⟨apart, plain⟩ := delimited_of_skipped skipped
  obtain ⟨us, first⟩ := (reaches_of_scan read).exists_of_append apart plain
  obtain ⟨ss, whole, all⟩ := scan_append_skipped skipped (scan_eq_ok_iff.mpr first)
  obtain rfl : us ++ ss = ts := Except.ok.inj (whole.symm.trans read)
  have dropped : (us ++ ss).rdropWhile (· = .semicolon) = us.rdropWhile (· = .semicolon) := by
    rw [List.rdropWhile, List.reverse_append, List.dropWhile_append_of_pos, List.rdropWhile]
    simpa using all
  have kept : us.rdropWhile (· = .semicolon) = us := by
    rw [List.rdropWhile_eq_self_iff]
    intro filled
    have last := List.getLast?_eq_some_getLast filled
    rcases core with _ | ⟨c, cs⟩
    · cases first
      exact absurd rfl filled
    · have ends := List.getLast?_eq_some_getLast (List.cons_ne_nil c cs)
      have differ := first.getLast?_ne ends (visible _ ends)
      rw [last] at differ
      simpa using differ
  rw [dropped, kept, scan_eq_ok_iff]
  exact first

/-- A statement that is taken out of its surroundings keeps its tokens, but for semicolons at the
end, and is no tokens if it was none before. -/
theorem tokenize_normalize (text : String) :
    (∀ ts, tokenize text = .ok ts →
      tokenize (normalize text) = .ok (ts.rdropWhile (· = .semicolon))) ∧
    ∀ us, tokenize (normalize text) = .ok us → ∃ ts, tokenize text = .ok ts := by
  obtain ⟨before, after, split, blank, skipped, visible⟩ := exists_normalize text
  have inner : scan text.toList = scan ((normalize text).toList ++ after) := by
    rw [split]
    exact (scans_blanks blank).trans (by cases scan ((normalize text).toList ++ after) <;> rfl)
  constructor
  · intro ts read
    rw [tokenize_eq_ok_iff, inner] at read
    exact tokenize_eq_ok_iff.mpr (scan_of_skipped skipped visible read)
  · intro us read
    obtain ⟨ss, whole, _⟩ := scan_append_skipped skipped (tokenize_eq_ok_iff.mp read)
    exact ⟨us ++ ss, tokenize_eq_ok_iff.mpr (inner.trans whole)⟩

/-- Outside quotes blanks only separate tokens: what follows them is read as it is alone, and one
gap between tokens may be put in the place of another. What is taken off a statement before it is
read are semicolons at its end and otherwise no token, and it does not make tokens of what is
none. -/
theorem blanks_separate_tokens :
    (∀ (a w b : String) (ts : List Token), IsGap w → tokenize a = .ok ts →
      tokenize (a ++ w ++ b) = (tokenize b).map (ts ++ ·)) ∧
    (∀ a v w b : String, IsGap v → IsGap w → Between a v b →
      tokenize (a ++ v ++ b) = tokenize (a ++ w ++ b)) ∧
    ∀ text : String,
      (∀ ts, tokenize text = .ok ts →
        tokenize (normalize text) = .ok (ts.rdropWhile (· = .semicolon))) ∧
      ∀ e, tokenize text = .error e → ∃ e', tokenize (normalize text) = .error e' := by
  refine ⟨fun a w b ts gap read => tokenize_append_gap gap read b, ?_, fun text => ⟨?_, ?_⟩⟩
  · intro a v w b first second between
    obtain ⟨ts, read⟩ := (between_iff first).mp between
    rw [tokenize_append_gap first read, tokenize_append_gap second read]
  · exact (tokenize_normalize text).1
  · intro e failed
    cases h : tokenize (normalize text) with
    | error e' => exact ⟨e', rfl⟩
    | ok us =>
      obtain ⟨ts, read⟩ := (tokenize_normalize text).2 us h
      rw [failed] at read
      cases read

/-- A word that ends in a point is not joined to a name in quotes behind a gap, and neither a
semicolon in quotes nor the text of an open quote is taken off. -/
theorem blanks_separate_point_from_quotes :
    tokenize ("x." ++ "\n\t" ++ "\"y\";") = (tokenize "\"y\";").map ([.word "x."] ++ ·) ∧
    tokenize ("x." ++ " " ++ "\"y\";") = tokenize ("x." ++ "\n\t" ++ "\"y\";") ∧
    tokenize (normalize " 'a;' ; ;\n") =
      .ok ([.quoted "a;", .semicolon, .semicolon].rdropWhile (· = .semicolon)) ∧
    ∃ e, tokenize (normalize "'a ;") = .error e := by
  have line : IsGap "\n\t" := by decide
  have space : IsGap " " := by decide
  have point : tokenize "x." = .ok [.word "x."] := by decide +kernel
  have ended : tokenize " 'a;' ; ;\n" = .ok [.quoted "a;", .semicolon, .semicolon] := by
    decide +kernel
  have failed : tokenize "'a ;" = .error (.malformedClause (.unterminatedQuote '\'' "a ;")) := by
    decide +kernel
  refine ⟨?_, ?_, ?_, ?_⟩
  · exact blanks_separate_tokens.1 "x." "\n\t" "\"y\";" _ line point
  · exact blanks_separate_tokens.2.1 "x." " " "\n\t" "\"y\";" space line
      ((between_iff space).mpr ⟨_, point⟩)
  · exact (blanks_separate_tokens.2.2 " 'a;' ; ;\n").1 _ ended
  · exact (blanks_separate_tokens.2.2 "'a ;").2 _ failed

end Statement

end SqlBridge
