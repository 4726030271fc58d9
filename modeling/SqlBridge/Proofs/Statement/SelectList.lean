import Mathlib.Data.List.Nodup
import SqlBridge.Proofs.Statement.Grammar
import SqlBridge.Proofs.Statement.Projection

/-!
# The items of a select list

A select list without a star is a list of items, columns with or without an alias. A descriptor
keeps it in two maps, from the columns to whether they are shown and from the aliases to their
columns, and a writer that wants the items looks for the alias of each column. What it finds are the
items that were written exactly if no column and no alias was written twice.
-/

namespace SqlBridge

open Reader

/-- The columns of a selection, each with the alias that is found for it. -/
def Descriptor.items (d : Descriptor) : List (String × Option String) :=
  d.included.map fun column => (column, d.aliasOf? column)

namespace Select

/-- The tokens of a selection up to FROM, with its select list. -/
inductive ListOf : List Token → List Column → Prop where
  | list {k f : Token} {w c q : List Token} {distinct : Bool} {columns : List Column}
      (select : k.isKeyword "SELECT" = true) (marked : Marked "DISTINCT" (c ++ f :: q) w distinct)
      (listed : Items ColumnOf (f :: q) c columns) (from_ : f.isKeyword "FROM" = true) :
      ListOf (k :: (w ++ (c ++ f :: q))) columns

/-- A text is a selection with these items and no star. -/
def Writes (text : String) (items : List (String × Option String)) : Prop :=
  ∃ tokens, Token.tokenize (Statement.normalize text) = .ok tokens ∧ ListOf tokens (named items)

/-- The name that an item has in results. -/
def outputName (i : String × Option String) : String :=
  i.2.getD i.1

def renamings (items : List (String × Option String)) : List (String × String) :=
  items.filterMap fun i => i.2.map fun a => (a, i.1)

variable {ctx : Context} {settings : Settings} {text primaryKey : String} {params : Params}
  {d : Descriptor} {tokens : List Token} {cs others : List Column}
  {items : List (String × Option String)} {i : String × Option String}

/-! ### What is written -/

def front : Reader (List Column) := do
  Reader.expectKeyword "SELECT"
  let _ ← Reader.eatKeyword "DISTINCT"
  let listed ← columns
  Reader.expectKeyword "FROM"
  return listed

/-- The select list is what a reader takes up to FROM. -/
theorem listOf_iff : ListOf tokens cs ↔ (front.run tokens).1 = .ok cs := by
  constructor
  · intro h
    cases h with
    | @list k f w c q distinct _ select marked listed from_ =>
      have reads : front.Reads (k :: (w ++ (c ++ [f]))) cs q := by
        refine reads_expectKeyword_bind.mpr ⟨k, _, rfl, select, ?_⟩
        refine reads_marked_bind.mpr ⟨w, _, distinct, rfl, by simpa using marked, ?_⟩
        refine reads_bind.mpr ⟨c, [f], cs, rfl, reads_columns.mpr listed, ?_⟩
        refine reads_expectKeyword_bind.mpr ⟨f, [], rfl, from_, ?_⟩
        exact reads_pure.mpr ⟨rfl, rfl⟩
      have run := run_eq_ok_iff.mpr ⟨_, rfl, reads⟩
      simpa using congrArg Prod.fst run
  · intro taken
    obtain ⟨rest, left⟩ : ∃ rest, front.run tokens = (.ok cs, rest) := ⟨_, Prod.ext taken rfl⟩
    obtain ⟨p, rfl, reads⟩ := run_eq_ok_iff.mp left
    obtain ⟨k, s, rfl, select, h⟩ := reads_expectKeyword_bind.mp reads
    obtain ⟨w, s, distinct, rfl, marked, h⟩ := reads_marked_bind.mp h
    obtain ⟨c, s, _, rfl, listed, h⟩ := reads_bind.mp h
    obtain ⟨f, s, rfl, from_, h⟩ := reads_expectKeyword_bind.mp h
    obtain ⟨rfl, rfl⟩ := reads_pure.mp h
    rw [List.append_assoc] at marked
    simpa using ListOf.list select marked (reads_columns.mp listed) from_

/-- A selection has one select list. -/
theorem ListOf.unique (h : ListOf tokens cs) (h' : ListOf tokens others) : cs = others :=
  Except.ok.inj ((listOf_iff.mp h).symm.trans (listOf_iff.mp h'))

theorem ListOf.ne_nil (h : ListOf tokens cs) : cs ≠ [] := by
  cases h with
  | list _ _ listed => exact listed.ne_nil

theorem writes_iff : Writes text items ↔
    ((Token.tokenize (Statement.normalize text)).bind fun tokens => (front.run tokens).1) =
      .ok (named items) := by
  rw [Writes]
  cases Token.tokenize (Statement.normalize text) with
  | error e => simp [Except.bind]
  | ok tokens => simp [Except.bind, listOf_iff]

instance : Decidable (Writes text items) :=
  decidable_of_iff _ writes_iff.symm

theorem Writes.ne_nil (h : Writes text items) : items ≠ [] := by
  obtain ⟨tokens, _, listed⟩ := h
  rintro rfl
  exact listed.ne_nil rfl

/-- The maps of a descriptor are those of a select list with these items. -/
structure Keeps (primaryKey : String) (d : Descriptor) (items : List (String × Option String)) :
    Prop where
  selects : d.kind = .select ∨ d.kind = .command
  projection : d.projection = (shown primaryKey items).included
  aliases : d.aliases = shownAliases items

theorem StatementOf.keeps (h : StatementOf ctx tokens d) (written : ListOf tokens (named items)) :
    Keeps ctx.settings.primaryKey d items := by
  cases h with
  | @select _ _ _ _ _ distinct _ _ _ _ _ _ _ select marked listed from_ _ shows =>
    obtain rfl := (ListOf.list select marked listed from_).unique written
    rcases projection_eq_ok_iff.mp shows with ⟨star, _⟩ | ⟨written, same, rfl⟩
    · have among : Column.star ∈ named items := by simp [star]
      exact absurd among star_not_mem_named
    · obtain rfl := named_injective same
      exact ⟨by cases distinct <;> simp, rfl, rfl⟩

theorem ListOf.opens (h : ListOf tokens cs) :
    ∃ word q, tokens = .word word :: q ∧ Statement.opening? word = some .select := by
  cases h with
  | @list k _ _ _ _ _ _ select =>
    cases k with
    | word word =>
      exact ⟨word, _, rfl, Statement.opening?_eq_some_iff_isKeyword.mpr ⟨_, by decide, select⟩⟩
    | _ => cases select

/-- A compiled selection keeps its select list in the maps of its descriptor. -/
theorem keeps_of_compile (compiled : compile settings text params = .ok d)
    (written : Writes text items) : Keeps settings.primaryKey d items := by
  obtain ⟨tokens, tokenized, listed⟩ := written
  obtain ⟨again, o, same, form⟩ := compile_eq_ok_iff.mp compiled
  obtain rfl := Except.ok.inj (tokenized.symm.trans same)
  obtain ⟨word, q, rfl, opens⟩ := listed.opens
  obtain ⟨first, rest, split, opened⟩ := form.opens
  obtain rfl := Token.word.inj (List.cons.inj split).1
  obtain rfl := Option.some.inj (opens.symm.trans opened)
  exact StatementOf.keeps form listed

/-! ### What is kept -/

theorem renamings_cons :
    renamings (i :: items) = (i.2.map fun a => (a, i.1)).toList ++ renamings items := by
  obtain ⟨name, _ | a⟩ := i <;> rfl

theorem mem_renamings_iff {a name : String} :
    (a, name) ∈ renamings items ↔ (name, some a) ∈ items := by
  simp [renamings]

theorem keys_renamings : (renamings items).map Prod.fst = items.filterMap Prod.snd := by
  rw [renamings, List.map_filterMap]
  refine List.filterMap_congr fun i _ => ?_
  cases i.2 <;> rfl

/-- The aliases are among the names in results. -/
theorem aliases_sublist : (items.filterMap Prod.snd).Sublist (items.map outputName) := by
  induction items with
  | nil => exact .slnil
  | cons i items ih =>
    obtain ⟨name, _ | a⟩ := i
    · exact ih.cons name
    · exact ih.cons_cons a

theorem nodup_renamings (h : items.Nodup) : (renamings items).Nodup := by
  refine List.Nodup.filterMap (fun i j e here there => ?_) h
  obtain ⟨a, renamed, rfl⟩ := Option.map_eq_some_iff.mp here
  obtain ⟨b, other, same⟩ := Option.map_eq_some_iff.mp there
  obtain ⟨rfl, columns⟩ := Prod.mk.inj same
  exact Prod.ext columns.symm (renamed.trans other.symm)

/-- Where no column is written twice, the first alias of a column is the one in its item. -/
theorem find?_renamings (columns : (items.map Prod.fst).Nodup) (listed : i ∈ items) :
    ((renamings items).find? fun e => e.2 = i.1).map Prod.fst = i.2 := by
  induction items with
  | nil => cases listed
  | cons j items ih =>
    obtain ⟨absent, columns⟩ := List.nodup_cons.mp columns
    rw [renamings_cons, List.find?_append]
    rcases List.mem_cons.mp listed with rfl | listed
    · have others : (renamings items).find? (fun e => e.2 = i.1) = none := by
        refine List.find?_eq_none.mpr fun e among same => absent ?_
        rw [← of_decide_eq_true same]
        exact List.mem_map_of_mem (mem_renamings_iff.mp among)
      rw [others, Option.or_none]
      cases i.2 <;> simp
    · have apart : j.1 ≠ i.1 := by
        intro same
        rw [same] at absent
        exact absent (List.mem_map_of_mem listed)
      have first : (j.2.map fun a => (a, j.1)).toList.find? (fun e => e.2 = i.1) = none := by
        cases j.2 <;> simp [apart]
      rw [first, Option.none_or, ih columns listed]

end Select

/-! ### What is read back -/

namespace Descriptor

open Select

variable (d : Descriptor)

theorem columns_items : d.items.map Prod.fst = d.included := by
  rw [items, List.map_map]
  exact List.map_id d.included

theorem mem_aliases_of_mem_items {column a : String} (h : (column, some a) ∈ d.items) :
    (a, column) ∈ d.aliases.entries := by
  obtain ⟨name, _, item⟩ := List.mem_map.mp h
  obtain ⟨rfl, renamed⟩ := Prod.mk.inj item
  obtain ⟨e, found, rfl⟩ := Option.map_eq_some_iff.mp renamed
  have same : e.2 = name := by simpa using List.find?_some found
  rw [← same]
  exact List.mem_of_find?_eq_some found

/-- No column is read back twice. -/
theorem nodup_columns : (d.items.map Prod.fst).Nodup := by
  rw [columns_items]
  exact d.projection.nodup.sublist (List.filter_sublist.map Prod.fst)

/-- No alias is read back twice. -/
theorem nodup_aliases : (d.items.filterMap Prod.snd).Nodup := by
  have among : ∀ e ∈ renamings d.items, e ∈ d.aliases.entries :=
    fun e listed => d.mem_aliases_of_mem_items (mem_renamings_iff.mp listed)
  rw [← keys_renamings]
  refine List.Nodup.map_on (fun e here f there key => ?_)
    (nodup_renamings (.of_map _ d.nodup_columns))
  exact List.inj_on_of_nodup_map d.aliases.nodup (among e here) (among f there) key

end Descriptor

namespace Select.Keeps

variable (kept : Keeps primaryKey d items)

include kept

theorem included_eq : d.included = (shownColumns items).keys := by
  have hidden : (if primaryKey ∈ items.map Prod.fst then [] else [(primaryKey, false)]).filter
      Prod.snd = [] := by
    split <;> rfl
  rw [Descriptor.included, kept.projection, entries_included, List.filter_append, hidden]
  simp [List.filter_map, Function.comp_def]

theorem included_ne_nil (filled : items ≠ []) : d.included ≠ [] := by
  obtain ⟨i, others, rfl⟩ := List.exists_cons_of_ne_nil filled
  have first : i.1 ∈ (shownColumns (i :: others)).keys :=
    OrderedMap.contains_eq_true_iff.mp (contains_shownColumns.mpr List.mem_cons_self)
  rw [← kept.included_eq] at first
  exact List.ne_nil_of_mem first

/-- Where no column and no alias is written twice, both maps list what was written. -/
theorem items_eq (columns : (items.map Prod.fst).Nodup)
    (aliases : (items.filterMap Prod.snd).Nodup) : d.items = items := by
  have marked : ((items.map fun i => (i.1, true)).map Prod.fst).Nodup := by
    simpa [Function.comp_def] using columns
  have included : d.included = items.map Prod.fst := by
    rw [kept.included_eq, shownColumns, OrderedMap.keys, OrderedMap.entries_ofList marked,
      List.map_map]
    rfl
  have entries : d.aliases.entries = renamings items := by
    rw [kept.aliases]
    exact OrderedMap.entries_ofList (by rwa [← keys_renamings] at aliases)
  rw [Descriptor.items, included, List.map_map]
  refine (List.map_congr_left fun i listed => ?_).trans (List.map_id items)
  exact Prod.ext rfl (by simpa [Descriptor.aliasOf?, entries] using find?_renamings columns listed)

/-- The items that are read back are those that were written exactly if no column and no alias was
written twice. -/
theorem items_eq_iff :
    d.items = items ↔ (items.map Prod.fst).Nodup ∧ (items.filterMap Prod.snd).Nodup := by
  constructor
  · rintro rfl
    exact ⟨d.nodup_columns, d.nodup_aliases⟩
  · rintro ⟨columns, aliases⟩
    exact kept.items_eq columns aliases

end Select.Keeps

end SqlBridge
