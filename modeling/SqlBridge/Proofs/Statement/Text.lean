import SqlBridge.Proofs.Statement.Grammar
import SqlBridge.Proofs.Token.Printing

/-!
# Statements as texts

Blanks around a statement and semicolons after it do not count. A text whose tokens are a statement
compiles to the descriptor of that statement.
-/

namespace SqlBridge

namespace Text

variable {p q : Char → Bool} {cs ds : List Char} {c : Char}

theorem trimEndWhere_append_of_all (all : ∀ c ∈ ds, p c = true) :
    trimEndWhere p (cs ++ ds) = trimEndWhere p cs := by
  have back : ∀ c ∈ ds.reverse, p c = true := fun c hc => all c (List.mem_reverse.mp hc)
  rw [trimEndWhere, List.reverse_append, List.dropWhile_append_of_pos back, trimEndWhere]

/-- What is trimmed off stands at the end. -/
theorem exists_trimEndWhere (p : Char → Bool) (cs : List Char) :
    ∃ ds, cs = trimEndWhere p cs ++ ds ∧ ∀ c ∈ ds, p c = true := by
  refine ⟨(cs.reverse.takeWhile p).reverse, ?_, fun c hc => ?_⟩
  · rw [trimEndWhere, ← List.reverse_append, List.takeWhile_append_dropWhile, List.reverse_reverse]
  · exact List.all_eq_true.mp List.all_takeWhile c (List.mem_reverse.mp hc)

/-- Trimming more characters makes an earlier trimming superfluous. -/
theorem trimEndWhere_trimEndWhere (more : ∀ c, p c = true → q c = true) :
    trimEndWhere q (trimEndWhere p cs) = trimEndWhere q cs := by
  obtain ⟨ds, split, all⟩ := exists_trimEndWhere p cs
  conv => rhs; rw [split]
  exact (trimEndWhere_append_of_all fun c hc => more c (all c hc)).symm

theorem trimEndWhere_of_getLast? (last : cs.getLast? = some c) (kept : p c = false) :
    trimEndWhere p cs = cs := by
  obtain ⟨ds, rfl⟩ := List.getLast?_eq_some_iff.mp last
  rw [trimEndWhere_append_singleton, if_neg (by simp [kept])]

end Text

namespace Statement

/-- What stands around a statement is removed from it. -/
theorem normalize_surrounded {before body after : List Char} {c d : Char}
    (blank : ∀ c ∈ before, Text.isBlank c = true)
    (skipped : ∀ c ∈ after, c = ';' ∨ Text.isBlank c = true)
    (first : body.head? = some c) (last : body.getLast? = some d) (hc : Token.Visible c)
    (hd : Token.Visible d) :
    normalize (String.ofList (before ++ (body ++ after))) = String.ofList body := by
  have start : (before ++ (body ++ after)).dropWhile Text.isBlank = body ++ after := by
    rw [List.dropWhile_append_of_pos blank]
    obtain ⟨cs, rfl⟩ := List.head?_eq_some_iff.mp first
    rw [List.cons_append, List.dropWhile_cons_of_neg (by simp [hc.1])]
  have all : ∀ c ∈ after, (fun c => decide (c = ';') || Text.isBlank c) c = true := by
    intro c hc
    simpa using skipped c hc
  have kept : (fun c => decide (c = ';') || Text.isBlank c) d = false := by
    simp [hd.1, hd.2]
  rw [normalize, String.toList_ofList, Text.trim, start,
    Text.trimEndWhere_trimEndWhere fun c hc => by simp [hc],
    Text.trimEndWhere_append_of_all all, Text.trimEndWhere_of_getLast? last kept]

end Statement

/-- A text compiles if its tokens are a statement. -/
theorem compile_of_scans {settings : Settings} {params : Params} {before body after : List Char}
    {c d : Char} {tokens : List Token} {o : Statement.Opening} {x : Descriptor}
    (blank : ∀ c ∈ before, Text.isBlank c = true)
    (skipped : ∀ c ∈ after, c = ';' ∨ Text.isBlank c = true)
    (first : body.head? = some c) (last : body.getLast? = some d) (hc : Token.Visible c)
    (hd : Token.Visible d) (scans : Token.Scans body tokens [])
    (form : o.FormOf ⟨settings, params⟩ tokens x) :
    compile settings (String.ofList (before ++ (body ++ after))) params = .ok x := by
  refine compile_eq_ok_iff.mpr ⟨tokens, o, ?_, form⟩
  rw [Statement.normalize_surrounded blank skipped first last hc hd, Token.tokenize,
    String.toList_ofList, scans.scan_eq]

end SqlBridge
