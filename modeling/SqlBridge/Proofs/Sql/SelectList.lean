import SqlBridge.Proofs.Sql.Qualifier
import SqlBridge.Proofs.Statement.SelectList

/-!
# Rendered select lists

The select list of a rendered selection ends at FROM, and commas part its items. It has an item for
each column of the descriptor, with the alias that is found for the column. So it has the items of
the statement exactly if no column and no alias is written twice there.
-/

namespace SqlBridge

namespace Sql

def Lexeme.opensList : Lexeme → Bool
  | .run .word text => ["SELECT", "DISTINCT"].contains text
  | _ => false

def Lexeme.closesList (l : Lexeme) : Bool :=
  l = .run .word "FROM"

/-- The items of the select list of a selection. -/
def listedItems (ls : List Lexeme) : List (List Lexeme) :=
  ((ls.dropWhile Lexeme.opensList).takeWhile fun l => !l.closesList).splitOn (.mark ',')

/-- A name in a text: its parts, quoted, with points between them. -/
def nameLexemes (name : String) : List Lexeme :=
  [Lexeme.mark '.'].intercalate ((namesOf name).map fun s => [.identifier s])

/-- A column in a select list, with AS and its alias if it has one. -/
def itemLexemes : String × Option String → List Lexeme
  | (name, none) => nameLexemes name
  | (name, some a) => nameLexemes name ++ [asWord, .identifier a]

/-- Parts without parameters, which are these lexemes wherever they stand. -/
structure Constant (ps : List Part) (ls : List Lexeme) : Prop where
  lexemes : ∀ n, lexemesFrom n ps = ls
  values : paramsOf ps = []

variable {d : Descriptor} {ps qs : List Part} {name : String} {l m : Lexeme} {ls ms : List Lexeme}
  {i : String × Option String}

/-! ### Items apart -/

theorem mem_intercalate {lists : List (List Lexeme)} (h : l ∈ [m].intercalate lists) :
    l = m ∨ ∃ ls ∈ lists, l ∈ ls := by
  induction lists with
  | nil => simp at h
  | cons ls lists ih =>
    cases lists with
    | nil =>
      rw [List.intercalate_singleton] at h
      exact .inr ⟨ls, List.mem_cons_self, h⟩
    | cons ls' lists =>
      rw [List.intercalate_cons_cons, List.mem_append, List.mem_append, List.mem_singleton] at h
      rcases h with (here | rfl) | there
      · exact .inr ⟨ls, List.mem_cons_self, here⟩
      · exact .inl rfl
      · refine (ih there).imp_right ?_
        rintro ⟨ms, listed, inside⟩
        exact ⟨ms, List.mem_cons_of_mem ls listed, inside⟩

theorem mem_nameLexemes (h : l ∈ nameLexemes name) : l = .mark '.' ∨ ∃ s, l = .identifier s := by
  refine (mem_intercalate h).imp_right ?_
  rintro ⟨_, listed, inside⟩
  obtain ⟨s, _, rfl⟩ := List.mem_map.mp listed
  exact ⟨s, List.mem_singleton.mp inside⟩

theorem mem_itemLexemes (h : l ∈ itemLexemes i) :
    l = .mark '.' ∨ l = asWord ∨ ∃ s, l = .identifier s := by
  obtain ⟨name, _ | a⟩ := i
  · exact (mem_nameLexemes h).imp_right .inr
  · rcases List.mem_append.mp h with inside | renamed
    · exact (mem_nameLexemes inside).imp_right .inr
    · rcases List.mem_pair.mp renamed with rfl | rfl
      · exact .inr (.inl rfl)
      · exact .inr (.inr ⟨a, rfl⟩)

theorem namesOf_injective : Function.Injective namesOf := by
  intro first second same
  have parts : segments first.toList = segments second.toList :=
    List.map_injective_iff.mpr (fun _ _ => String.ofList_injective) same
  obtain ⟨p, ps, split, text⟩ := segments_eq first.toList
  obtain ⟨q, qs, others, text'⟩ := segments_eq second.toList
  rw [split, others] at parts
  obtain ⟨rfl, rfl⟩ := List.cons.inj parts
  exact String.toList_inj.mp (text.trans text'.symm)

theorem nameLexemes_injective : Function.Injective nameLexemes := by
  have split (name : String) : (nameLexemes name).splitOn (.mark '.') =
      (namesOf name).map fun s => [.identifier s] := by
    obtain ⟨first, others, names⟩ := exists_namesOf name
    refine List.splitOn_intercalate _ (fun ls listed => ?_) (by simp [names])
    obtain ⟨s, _, rfl⟩ := List.mem_map.mp listed
    simp
  intro first second same
  have parts := congrArg (List.splitOn (.mark '.')) same
  rw [split, split] at parts
  refine namesOf_injective (List.map_injective_iff.mpr (fun s t equal => ?_) parts)
  simpa using equal

theorem itemLexemes_injective : Function.Injective itemLexemes := by
  have unnamed (name : String) : asWord ∉ nameLexemes name := by
    intro inside
    rcases mem_nameLexemes inside with h | ⟨s, h⟩ <;> cases h
  rintro ⟨first, _ | a⟩ ⟨second, _ | b⟩ same
  · exact Prod.ext (nameLexemes_injective same) rfl
  · have inside : asWord ∈ nameLexemes first := by
      rw [itemLexemes, itemLexemes] at same
      simp [same]
    exact absurd inside (unnamed first)
  · have inside : asWord ∈ nameLexemes second := by
      rw [itemLexemes, itemLexemes] at same
      simp [← same]
    exact absurd inside (unnamed second)
  · obtain ⟨names, aliases⟩ := List.append_inj' same rfl
    obtain rfl := nameLexemes_injective names
    simpa using aliases

/-! ### What is rendered -/

namespace Constant

theorem fixed {text : String} (found : lexemes? text = some ls) : Constant [.fixed text] ls :=
  ⟨fun n => by simp [lexemesFrom, Part.lexemes, found], rfl⟩

theorem identifier (name : String) : Constant [.identifier name] [.identifier name] :=
  ⟨fun _ => rfl, rfl⟩

theorem append (first : Constant ps ls) (second : Constant qs ms) :
    Constant (ps ++ qs) (ls ++ ms) := by
  constructor
  · intro n
    rw [lexemesFrom_append, first.lexemes, second.lexemes]
  · rw [paramsOf_append, first.values, second.values, List.append_nil]

theorem separatedBy {α : Type} {separator : String} (mark : lexemes? separator = some [m])
    {f : α → List Part} {g : α → List Lexeme} (each : ∀ a, Constant (f a) (g a)) (as : List α) :
    Constant (separatedBy separator (as.map f)) ([m].intercalate (as.map g)) := by
  induction as with
  | nil => exact ⟨fun _ => rfl, rfl⟩
  | cons a as ih =>
    cases as with
    | nil => simpa [Sql.separatedBy] using each a
    | cons b bs =>
      rw [List.map_cons, List.map_cons, separatedBy_cons_cons, List.map_cons, List.map_cons,
        List.intercalate_cons_cons, List.append_assoc]
      exact (each a).append ((Constant.fixed mark).append ih)

theorem qualified (name : String) : Constant (qualified name) (nameLexemes name) := by
  rw [qualified_eq]
  exact .separatedBy (by decide) identifier (namesOf name)

theorem selectItem (column : String) :
    Constant (selectItem d column) (itemLexemes (column, d.aliasOf? column)) := by
  rw [Sql.selectItem]
  cases d.aliasOf? column with
  | none => simpa [itemLexemes] using Constant.qualified column
  | some a =>
    have as_ : Constant [.fixed " AS "] [asWord] := .fixed (by decide)
    exact (Constant.qualified column).append (as_.append (.identifier a))

theorem selectList (filled : d.included ≠ []) :
    Constant (selectList d) ([Lexeme.mark ','].intercalate (d.items.map itemLexemes)) := by
  have some : ¬ d.included.isEmpty = true := by simpa using filled
  rw [Sql.selectList, if_neg some, Descriptor.items, List.map_map]
  exact .separatedBy (by decide) selectItem d.included

end Constant

/-- In front of the select list stand SELECT and, in a distinct selection, DISTINCT. -/
theorem exists_constant_front (d : Descriptor) :
    ∃ ls, Constant ([.fixed "SELECT "]
      ++ if d.distinctOn.isSome then [.fixed "DISTINCT "] else []) ls ∧
        ∀ l ∈ ls, l.opensList = true := by
  have select_ : Constant [.fixed "SELECT "] [.run .word "SELECT"] := .fixed (by decide)
  split
  · have distinct_ : Constant [.fixed "DISTINCT "] [.run .word "DISTINCT"] := .fixed (by decide)
    exact ⟨_, select_.append distinct_, by decide⟩
  · exact ⟨_, by simpa using select_, by decide⟩

/-- The lists between the words in front of a select list and FROM are its items. -/
theorem listedItems_eq {lists : List (List Lexeme)} {rest : List Lexeme}
    (opened : ∀ l ∈ ls, l.opensList = true)
    (plain : ∀ ms ∈ lists, ∀ l ∈ ms, l.opensList = false ∧ l.closesList = false ∧ l ≠ .mark ',')
    (filled : lists ≠ []) :
    listedItems (ls ++ ([Lexeme.mark ','].intercalate lists ++ .run .word "FROM" :: rest)) =
      lists := by
  have inside : ∀ l ∈ [Lexeme.mark ','].intercalate lists,
      l.opensList = false ∧ l.closesList = false := by
    intro l h
    rcases mem_intercalate h with rfl | ⟨ms, listed, h⟩
    · exact ⟨rfl, rfl⟩
    · obtain ⟨opens, closes, _⟩ := plain ms listed l h
      exact ⟨opens, closes⟩
  have apart : ∀ ms ∈ lists, Lexeme.mark ',' ∉ ms :=
    fun ms listed h => (plain ms listed _ h).2.2 rfl
  have starts : ([Lexeme.mark ','].intercalate lists ++ .run .word "FROM" :: rest).dropWhile
      Lexeme.opensList = [Lexeme.mark ','].intercalate lists ++ .run .word "FROM" :: rest := by
    cases listed : [Lexeme.mark ','].intercalate lists with
    | nil => rfl
    | cons l ms =>
      rw [List.cons_append, List.dropWhile_cons_of_neg]
      simp [(inside l (by simp [listed])).1]
  rw [listedItems, List.dropWhile_append_of_pos opened, starts, List.takeWhile_append_of_pos,
    List.takeWhile_cons_of_neg (by decide), List.append_nil,
    List.splitOn_intercalate _ apart filled]
  intro l h
  simp [(inside l h).2]

theorem listed_of_mem_itemLexemes (h : l ∈ itemLexemes i) :
    l.opensList = false ∧ l.closesList = false ∧ l ≠ .mark ',' := by
  rcases mem_itemLexemes h with rfl | rfl | ⟨s, rfl⟩
  · decide
  · decide
  · exact ⟨rfl, rfl, by simp⟩

/-- The items of the select list in a rendered selection are those of its descriptor. -/
theorem listedItems_select (rendered : select d = .ok ps) (filled : d.included ≠ []) :
    listedItems (lexemesFrom 1 ps) = d.items.map itemLexemes := by
  obtain ⟨filter, _, rfl⟩ := select_eq_ok rendered
  obtain ⟨ls, front, opened⟩ := exists_constant_front d
  have list := front.append (Constant.selectList filled)
  have word : lexemes? " FROM " = some [.run .word "FROM"] := by decide
  have from_ (n : Nat) (qs : List Part) : lexemesFrom n (.fixed " FROM " :: qs) =
      .run .word "FROM" :: lexemesFrom n qs := by
    simp [lexemesFrom, Part.lexemes, Part.values, word]
  rw [← List.singleton_append, ← List.append_assoc, ← List.append_assoc, lexemesFrom_append,
    list.lexemes, from_, List.append_assoc]
  refine listedItems_eq opened (fun ms listed l h => ?_) (by simpa [Descriptor.items] using filled)
  obtain ⟨i, _, rfl⟩ := List.mem_map.mp listed
  exact listed_of_mem_itemLexemes h

end Sql

variable {settings : Settings} {text : String} {params : Params} {d : Descriptor}
  {items : List (String × Option String)} {q : Sql.Query}

/-- The select list in the text of a compiled selection has an item for each column, with the alias
that is found for it. They are the items of the statement exactly if no column and no alias is
written twice there. -/
theorem listedItems_of_compile (compiled : compile settings text params = .ok d)
    (written : Select.Writes text items) (rendered : Sql.render d = .ok q) :
    ∃ ls, Sql.lexemes? q.text = some ls ∧ Sql.listedItems ls = d.items.map Sql.itemLexemes ∧
      (Sql.listedItems ls = items.map Sql.itemLexemes ↔
        (items.map Prod.fst).Nodup ∧ (items.filterMap Prod.snd).Nodup) := by
  have kept := Select.keeps_of_compile compiled written
  obtain ⟨ps, selected, scanned⟩ := Sql.select_of_render kept.selects rendered
  have found := Sql.listedItems_select selected (kept.included_ne_nil written.ne_nil)
  refine ⟨_, scanned, found, ?_⟩
  rw [found, (List.map_injective_iff.mpr Sql.itemLexemes_injective).eq_iff, kept.items_eq_iff]

theorem listedItems_of_compile_renamed_column : ∃ d q ls,
    compile {} "SELECT DISTINCT a, b.c AS x FROM t" ∅ = .ok d ∧ Sql.render d = .ok q ∧
      Sql.lexemes? q.text = some ls ∧
      Sql.listedItems ls = [("a", none), ("b.c", some "x")].map Sql.itemLexemes := by
  let d : Descriptor := {
    kind := .command
    table := "t"
    projection := .ofList [("a", true), ("b.c", true), ("_id", false)]
    aliases := .ofList [("x", "b.c")]
    distinctOn := some "t" }
  have compiled : compile {} "SELECT DISTINCT a, b.c AS x FROM t" ∅ = .ok d := by decide +kernel
  have written : Select.Writes "SELECT DISTINCT a, b.c AS x FROM t"
      [("a", none), ("b.c", some "x")] := by
    decide +kernel
  have rendered : Sql.render d =
      .ok ⟨"SELECT DISTINCT \"a\", \"b\".\"c\" AS \"x\" FROM \"t\"", []⟩ := by
    decide +kernel
  obtain ⟨ls, scanned, _, same⟩ := listedItems_of_compile compiled written rendered
  exact ⟨d, _, ls, compiled, rendered, scanned, same.mpr (by decide)⟩

/-- Of two aliases of one column only the first one is rendered, and the column only once. -/
theorem not_forall_compile_listedItems :
    ¬ ∀ (settings : Settings) (text : String) (params : Params) (d : Descriptor)
      (items : List (String × Option String)) (q : Sql.Query) (ls : List Sql.Lexeme),
      compile settings text params = .ok d → Select.Writes text items → Sql.render d = .ok q →
      Sql.lexemes? q.text = some ls → Sql.listedItems ls = items.map Sql.itemLexemes := by
  intro all
  let d : Descriptor := {
    kind := .select
    table := "t"
    projection := .ofList [("a", true), ("_id", false)]
    aliases := .ofList [("x", "a"), ("y", "a")] }
  have compiled : compile {} "SELECT a AS x, a AS y FROM t" ∅ = .ok d := by decide +kernel
  have written : Select.Writes "SELECT a AS x, a AS y FROM t"
      [("a", some "x"), ("a", some "y")] := by
    decide +kernel
  have rendered : Sql.render d = .ok ⟨"SELECT \"a\" AS \"x\" FROM \"t\"", []⟩ := by
    decide +kernel
  have scanned : Sql.lexemes? "SELECT \"a\" AS \"x\" FROM \"t\"" =
      some [.run .word "SELECT", .identifier "a", Sql.asWord, .identifier "x", .run .word "FROM",
        .identifier "t"] := by
    decide
  have listed := all {} _ ∅ d _ _ _ compiled written rendered scanned
  revert listed
  decide

end SqlBridge
