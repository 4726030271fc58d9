import SqlBridge.Proofs.Sql.Part
import SqlBridge.Proofs.Statement.Clause
import SqlBridge.Proofs.Token.Printing

/-!
# The tokens of rendered text

Fixed text is its own tokens in front of anything. Names and parameters are tokens in front of a
blank, a mark or the end, which is what every fixed text after them starts with. So parts with fixed
text between them have the tokens of the parts with those of the fixed text between them.
-/

namespace SqlBridge.Sql

open Token

/-- Fixed text that is the tokens `ts` in front of anything. -/
structure Fixes (text : String) (ts : List Token) : Prop where
  quiet : ∀ c ∈ text.toList, c ≠ '"' ∧ c ≠ '$'
  scans : ∀ rest, Scans text.toList ts rest

/-- Fixed text that also sets what stands before it apart. -/
structure Separates (text : String) (ts : List Token) : Prop extends Fixes text ts where
  apart : (text.toList.head?.any fun c => Text.isBlank c || (punctuation? c).isSome) = true

/-- From the parameter `n` on the parts are the tokens `ts` in front of what is set apart. -/
structure Yields (n : Nat) (ps : List Part) (ts : List Token) : Prop where
  quiet : ∀ p ∈ ps, p.Quiet
  visible : ∃ c, (spelt n ps).getLast? = some c ∧ Visible c
  scans : ∀ rest, Delimited rest → Scans (spelt n ps) ts rest

/-- Wherever the parameters of the parts are bound, the parts are tokens with the property. -/
def Gives (params : Params) (J : List Token → Prop) (ps : List Part) : Prop :=
  ∀ n, Bound params n (paramsOf ps) → ∃ ts, J ts ∧ Yields n ps ts

variable {n : Nat} {ps qs : List Part} {ts us vs : List Token} {t u : Token} {text : String}
  {params : Params}

/-! ### Fixed text -/

theorem scans_spaced {rest : List Char} (lexemes : ∀ t ∈ ts, t.IsLexeme) :
    Scans (ts.flatMap fun t => t.written ++ [' ']) ts rest := by
  induction ts with
  | nil => exact scans_nil
  | cons t ts ih =>
    obtain ⟨first, others⟩ := List.forall_mem_cons.mp lexemes
    have apart : ∀ cs, Delimited ([' '] ++ cs) := by
      intro cs c hc
      obtain rfl := Option.some.inj hc
      exact .inl (by decide)
    have gap : ∀ cs, Scans [' '] [] cs := fun cs => scans_blanks (by simp; decide)
    have here := ((scans_written first (apart _)).append (gap _)).append (ih others)
    simpa using here

/-- The text is blanks, then tokens with a blank after each, and then `after`. -/
def Spaced (text : String) (before : List Char) (ts : List Token) (after : List Char) : Prop :=
  text.toList.all (fun c => c ≠ '"' && c ≠ '$') = true ∧
    text.toList = before ++ ((ts.flatMap fun t => t.written ++ [' ']) ++ after) ∧
    before.all Text.isBlank = true ∧ ∀ t ∈ ts, t.IsLexeme

instance (text : String) (before : List Char) (ts : List Token) (after : List Char) :
    Decidable (Spaced text before ts after) :=
  inferInstanceAs (Decidable (_ ∧ _ ∧ _ ∧ _))

theorem Spaced.fixes {before after : List Char} (spaced : Spaced text before ts after)
    (marks : ∀ rest, Scans after us rest) : Fixes text (ts ++ us) := by
  obtain ⟨quiet, split, blank, lexemes⟩ := spaced
  refine ⟨by simpa using quiet, fun rest => ?_⟩
  rw [split, ← List.nil_append (ts ++ us)]
  apply Scans.append (scans_blanks (List.all_eq_true.mp blank))
  exact (scans_spaced lexemes).append (marks rest)

theorem fixes_spaced (before : List Char) (ts : List Token) (spaced : Spaced text before ts []) :
    Fixes text ts := by
  rw [← List.append_nil ts]
  exact spaced.fixes fun _ => scans_nil

theorem fixes_mark {c : Char} (mark : punctuation? c = some t) (text : String)
    (single : text.toList = [c]) : Fixes text [t] := by
  refine ⟨?_, fun rest => ?_⟩
  · intro d hd
    obtain rfl : d = c := by simpa [single] using hd
    rcases eq_of_punctuation? mark with ⟨rfl, _⟩ | ⟨rfl, _⟩ | ⟨rfl, _⟩ | ⟨rfl, _⟩ <;> decide
  · rw [single]
    exact scans_punctuation mark

theorem Separates.delimited (h : Separates text ts) (cs : List Char) :
    Delimited (text.toList ++ cs) := by
  have apart := h.apart
  rcases split : text.toList with _ | ⟨c, ds⟩
  · rw [split] at apart
    cases apart
  · intro d hd
    obtain rfl := Option.some.inj hd
    rw [split] at apart
    simpa using apart

/-! ### Single parts -/

theorem yields_of_written (quiet : ∀ p ∈ ps, p.Quiet) (lexeme : t.IsLexeme) (apart : t ≠ .semicolon)
    (text : spelt n ps = t.written) : Yields n ps [t] := by
  refine ⟨quiet, ?_, fun rest delimited => ?_⟩
  · obtain ⟨_, d, _, last, _, visible⟩ := visible_written lexeme apart
    exact ⟨d, by rw [text, last], visible⟩
  · rw [text]
    exact scans_written lexeme delimited

theorem yields_null : Yields n [.fixed "NULL"] [.word "NULL"] := by
  have quiet : ∀ p ∈ [Part.fixed "NULL"], p.Quiet := by
    intro p listed
    obtain rfl := List.mem_singleton.mp listed
    simp [Part.Quiet]
  exact yields_of_written quiet (by decide) (by simp) (by simp [spelt, written])

theorem yields_param (v : Value) : Yields n [.param v] [.word (":" ++ n.repr)] := by
  have text : (":" ++ n.repr).toList = ':' :: n.repr.toList := by
    rw [String.toList_append]
    rfl
  have lexeme : (Token.word (":" ++ n.repr)).IsLexeme := by
    refine ⟨by simp [text], ?_⟩
    rw [text]
    refine List.forall_mem_cons.mpr ⟨by decide, fun c hc => isWordChar_of_isAlphanum ?_⟩
    simp [Char.isAlphanum, Literal.isDigit_of_mem_repr hc]
  exact yields_of_written (by simp [Part.Quiet]) lexeme (by simp) (by simp [spelt, written, text])

theorem yields_identifier (name : String) : Yields n [.identifier name] [.quoted name] := by
  have text : spelt n [.identifier name] = Text.enclosed '"' name.toList := List.append_nil _
  refine ⟨by simp [Part.Quiet], ?_, fun rest delimited => ?_⟩
  · exact ⟨'"', by rw [text, getLast?_enclosed], by decide, by decide⟩
  · have ended : rest.head? ≠ some '"' ∧ rest.head? ≠ some '.' :=
      ⟨delimited.head?_ne (.inl (by decide)), delimited.head?_ne (.inr rfl)⟩
    have named : isNameQuote '"' = true := by decide
    have read : Scans (Text.enclosed '"' name.toList) _ rest := scans_enclosed named ended
    rw [if_pos rfl, String.ofList_toList] at read
    rw [text]
    exact read

/-! ### Parts in a row -/

theorem Yields.after (first : Fixes text us) (h : Yields n ps ts) :
    Yields n (.fixed text :: ps) (us ++ ts) := by
  refine ⟨List.forall_mem_cons.mpr ⟨first.quiet, h.quiet⟩, ?_, fun rest delimited => ?_⟩
  · obtain ⟨c, last, visible⟩ := h.visible
    have whole : (spelt n (.fixed text :: ps)).getLast? = some c := by
      rw [spelt, List.getLast?_append, last, Option.some_or]
    exact ⟨c, whole, visible⟩
  · exact (first.scans _).append (h.scans rest delimited)

/-- Fixed text that sets them apart may stand between parts. -/
theorem Yields.join (first : Yields n ps ts) (between : Separates text us)
    (second : Yields (n + (paramsOf ps).length) qs vs) :
    Yields n (ps ++ .fixed text :: qs) (ts ++ (us ++ vs)) := by
  have after := second.after between.toFixes
  refine ⟨List.forall_mem_append.mpr ⟨first.quiet, after.quiet⟩, ?_, fun rest delimited => ?_⟩
  · obtain ⟨c, last, visible⟩ := after.visible
    have whole : (spelt n (ps ++ .fixed text :: qs)).getLast? = some c := by
      rw [spelt_append, List.getLast?_append, last, Option.some_or]
    exact ⟨c, whole, visible⟩
  · have apart : Delimited (spelt (n + (paramsOf ps).length) (.fixed text :: qs) ++ rest) := by
      rw [spelt, List.append_assoc]
      exact between.delimited _
    rw [spelt_append]
    exact Scans.append (first.scans _ apart) (after.scans rest delimited)

theorem Yields.closed (h : Yields n ps ts) :
    Yields n (ps ++ [.fixed ")"]) (ts ++ [.rightParen]) := by
  have mark : Fixes ")" [.rightParen] := fixes_mark rfl ")" rfl
  have text : spelt n (ps ++ [.fixed ")"]) = spelt n ps ++ [')'] := by
    rw [spelt_append]
    rfl
  refine ⟨?_, ⟨')', ?_, by decide, by decide⟩, fun rest _ => ?_⟩
  · refine List.forall_mem_append.mpr ⟨h.quiet, fun p listed => ?_⟩
    obtain rfl := List.mem_singleton.mp listed
    exact mark.quiet
  · rw [text, List.getLast?_append, List.getLast?_singleton, Option.some_or]
  · rw [text]
    have apart : Delimited ([')'] ++ rest) := by
      intro c hc
      obtain rfl := Option.some.inj hc
      exact .inr rfl
    exact Scans.append (h.scans _ apart) (mark.scans rest)

theorem Gives.imp {J K : List Token → Prop} (h : Gives params J ps) (weaker : ∀ ts, J ts → K ts) :
    Gives params K ps := by
  intro n bound
  obtain ⟨ts, here, yields⟩ := h n bound
  exact ⟨ts, weaker ts here, yields⟩

theorem Gives.after {J : List Token → Prop} (h : Gives params J ps) (first : Fixes text us) :
    Gives params (fun ts => ∃ vs, ts = us ++ vs ∧ J vs) (.fixed text :: ps) := by
  intro n bound
  obtain ⟨vs, here, yields⟩ := h n bound
  exact ⟨us ++ vs, ⟨vs, rfl, here⟩, yields.after first⟩

theorem Gives.join {J K : List Token → Prop} (h : Gives params J ps) (between : Separates text us)
    (second : Gives params K qs) :
    Gives params (fun ts => ∃ as bs, ts = as ++ (us ++ bs) ∧ J as ∧ K bs)
      (ps ++ .fixed text :: qs) := by
  intro n bound
  rw [paramsOf_append, bound_append] at bound
  obtain ⟨as, left, first⟩ := h n bound.1
  obtain ⟨bs, right, second⟩ := second _ bound.2
  exact ⟨as ++ (us ++ bs), ⟨as, bs, rfl, left, right⟩, first.join between second⟩

theorem Gives.closed {J : List Token → Prop} (h : Gives params J ps) :
    Gives params (fun ts => ∃ vs, ts = vs ++ [.rightParen] ∧ J vs) (ps ++ [.fixed ")"]) := by
  intro n bound
  rw [paramsOf_append, bound_append] at bound
  obtain ⟨vs, here, yields⟩ := h n bound.1
  exact ⟨vs ++ [.rightParen], ⟨vs, rfl, here⟩, yields.closed⟩

theorem gives_identifier (name : String) :
    Gives params (fun ts => ts = [.quoted name]) [.identifier name] :=
  fun _ _ => ⟨_, rfl, yields_identifier name⟩

/-- A list has the tokens of its items, with the separator before each but the first. -/
theorem gives_separatedBy {α : Type} {J : List Token → α → Prop} {a : α} {as : List α}
    {pss : List (List Part)} (between : Separates text [u])
    (first : Gives params (fun ts => J ts a) ps)
    (others : List.Forall₂ (fun a => Gives params fun ts => J ts a) as pss) :
    Gives params
      (fun ts => ∃ vs tss, ts = vs ++ tss.flatMap (u :: ·) ∧ J vs a ∧ List.Forall₂ J tss as)
      (separatedBy text (ps :: pss)) := by
  induction others generalizing a ps with
  | nil => exact first.imp fun vs here => ⟨vs, [], by simp, here, .nil⟩
  | cons second _ ih =>
    apply (first.join between (ih second)).imp
    rintro _ ⟨vs, _, rfl, here, ws, tss, rfl, next, related⟩
    exact ⟨vs, ws :: tss, rfl, here, .cons next related⟩

/-- The items of a list with commas between them. -/
theorem gives_items {α : Type} {J : List Token → α → Prop} {as : List α} {pss : List (List Part)}
    (filled : as ≠ []) (each : List.Forall₂ (fun a => Gives params fun ts => J ts a) as pss) :
    Gives params
      (fun ts => ∀ rest, rest.head? ≠ some Token.comma → Reader.Items (fun _ => J) rest ts as)
      (separatedBy ", " pss) := by
  have comma : Separates ", " [.comma] :=
    ⟨fixes_spaced [] [.comma] (by decide), by decide⟩
  cases each with
  | nil => exact absurd rfl filled
  | cons first others =>
    apply (gives_separatedBy comma first others).imp
    rintro _ ⟨vs, tss, rfl, here, related⟩ rest ended
    exact Reader.items_of_forall₂ here related ended

/-! ### Names with points -/

/-- A name is its segments with points between them. -/
theorem segments_eq (name : List Char) :
    ∃ first others, segments name = first :: others ∧ name = first ++ pointed others := by
  induction name with
  | nil => exact ⟨[], [], rfl, rfl⟩
  | cons c cs ih =>
    obtain ⟨first, others, split, same⟩ := ih
    by_cases point : c = '.'
    · refine ⟨[], first :: others, by rw [segments, if_pos point, split], ?_⟩
      rw [same, point]
      rfl
    · refine ⟨c :: first, others, by rw [segments, if_neg point, split], ?_⟩
      rw [same, List.cons_append]

theorem point_not_mem_of_mem_segments {cs s : List Char} (h : s ∈ segments cs) : '.' ∉ s := by
  induction cs generalizing s with
  | nil =>
    obtain rfl := List.mem_singleton.mp h
    exact List.not_mem_nil
  | cons c cs ih =>
    rw [segments] at h
    split at h
    · rcases List.mem_cons.mp h with rfl | h
      · exact List.not_mem_nil
      · exact ih h
    · next other =>
      obtain ⟨first, others, split, _⟩ := segments_eq cs
      rw [split] at h ih
      rcases List.mem_cons.mp h with rfl | h
      · have inside := ih List.mem_cons_self
        simpa [eq_comm, other] using inside
      · exact ih (List.mem_cons_of_mem first h)

theorem separatedBy_cons_cons {separator : String} {pss : List (List Part)} :
    separatedBy separator (ps :: qs :: pss) =
      ps ++ .fixed separator :: separatedBy separator (qs :: pss) :=
  rfl

theorem spelt_points {first : List Char} {others : List (List Char)} :
    spelt n (separatedBy "." ((first :: others).map fun s => [.identifier (String.ofList s)])) =
      Text.enclosed '"' first ++ pointedInQuotes others := by
  induction others generalizing first with
  | nil => simp [separatedBy, spelt, pointedInQuotes]
  | cons part parts ih =>
    have point : ".".toList = ['.'] := rfl
    have tail : spelt n (separatedBy "."
        ((part :: parts).map fun s => [.identifier (String.ofList s)])) =
          Text.enclosed '"' part ++ pointedInQuotes parts := ih
    rw [List.map_cons] at tail
    rw [List.map_cons, List.map_cons, separatedBy_cons_cons, List.singleton_append, spelt, spelt,
      tail, String.toList_ofList, point]
    simp [pointedInQuotes]

/-- A qualified name has names and points only. -/
theorem mem_qualified {name : String} {p : Part} (h : p ∈ qualified name) :
    p = .fixed "." ∨ ∃ segment, p = .identifier segment := by
  have general : ∀ parts : List (List Char),
      p ∈ separatedBy "." (parts.map fun s => [.identifier (String.ofList s)]) →
        p = .fixed "." ∨ ∃ segment, p = .identifier segment := by
    intro parts
    induction parts with
    | nil => exact fun h => absurd h List.not_mem_nil
    | cons part parts ih =>
      rcases parts with _ | ⟨second, parts⟩
      · exact fun h => .inr ⟨_, List.mem_singleton.mp h⟩
      · intro h
        rcases List.mem_cons.mp h with same | h
        · exact .inr ⟨_, same⟩
        · rcases List.mem_cons.mp h with same | h
          · exact .inl same
          · exact ih h
  exact general _ h

theorem getLast?_pointedInQuotes {cs : List Char} {parts : List (List Char)}
    (last : cs.getLast? = some '"') : (cs ++ pointedInQuotes parts).getLast? = some '"' := by
  induction parts generalizing cs with
  | nil =>
    rw [pointedInQuotes, List.flatMap_nil, List.append_nil]
    exact last
  | cons part parts ih =>
    have split : cs ++ pointedInQuotes (part :: parts) =
        cs ++ '.' :: Text.enclosed '"' part ++ pointedInQuotes parts := by
      simp [pointedInQuotes]
    rw [split]
    apply ih
    rw [List.getLast?_append, List.getLast?_cons, getLast?_enclosed]
    rfl

/-- A name that does not end in a point is one token, which names it. -/
theorem gives_qualified {name : String} (closed : name.toList.getLast? ≠ some '.') :
    Gives params (fun ts => ∃ t, ts = [t] ∧ Condition.FieldOf t name) (qualified name) := by
  intro n _
  obtain ⟨first, others, split, same⟩ := segments_eq name.toList
  rcases others with _ | ⟨part, parts⟩
  · -- a single segment is the whole name
    have whole : String.ofList first = name := by
      rw [pointed, List.flatMap_nil, List.append_nil] at same
      rw [← same, String.ofList_toList]
    have single : qualified name = [.identifier name] := by
      rw [qualified, split, List.map_cons, whole]
      rfl
    rw [single]
    exact ⟨_, ⟨_, rfl, .quoted⟩, yields_identifier name⟩
  · have whole : String.ofList (first ++ pointed (part :: parts)) = name := by
      rw [← same, String.ofList_toList]
    have text : spelt n (qualified name) =
        Text.enclosed '"' first ++ pointedInQuotes (part :: parts) := by
      rw [qualified, split, spelt_points]
    rw [same] at closed
    refine ⟨_, ⟨_, rfl, .identifier⟩, ⟨fun p listed => ?_, ?_, fun rest delimited => ?_⟩⟩
    · rcases mem_qualified listed with rfl | ⟨segment, rfl⟩
      · simp [Part.Quiet]
      · trivial
    · exact ⟨'"', by rw [text, getLast?_pointedInQuotes getLast?_enclosed], by decide, by decide⟩
    · have ended : rest.head? ≠ some '"' ∧ rest.head? ≠ some '.' :=
        ⟨delimited.head?_ne (.inl (by decide)), delimited.head?_ne (.inr rfl)⟩
      have read := scans_pointedInQuotes ended closed
      rw [whole] at read
      rw [text]
      exact read

end SqlBridge.Sql
