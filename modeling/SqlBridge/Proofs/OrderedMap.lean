import Mathlib.Data.List.Induction
import Mathlib.Data.List.Nodup
import Mathlib.Tactic.Tauto
import SqlBridge.OrderedMap

/-!
# Maps that grow

A map grows by entries under new keys, which come last and in order. Growing by one entry is an
insertion under a key that is absent.
-/

namespace SqlBridge.OrderedMap

universe u

variable {β : Type u} {m m' : OrderedMap β} {k : String} {v : β} {es : List (String × β)}

protected theorem ext (h : m.entries = m'.entries) : m = m' := by
  cases m
  cases m'
  cases h
  rfl

@[simp] theorem entries_none : (∅ : OrderedMap β).entries = [] := rfl

@[simp] theorem keys_none : (∅ : OrderedMap β).keys = [] := rfl

@[simp] theorem values_none : (∅ : OrderedMap β).values = [] := rfl

theorem eq_empty_of_isEmpty (h : m.isEmpty = true) : m = ∅ :=
  OrderedMap.ext (List.isEmpty_iff.mp h)

theorem contains_eq_false_iff : m.contains k = false ↔ k ∉ m.entries.map Prod.fst := by
  rw [← Bool.not_eq_true, contains, List.contains_iff_mem]
  rfl

theorem entries_insert_of_new (new : m.contains k = false) :
    (m.insert k v).entries = m.entries ++ [(k, v)] := by
  have general : ∀ es : List (String × β), k ∉ es.map Prod.fst →
      putEntry k v es = es ++ [(k, v)] := by
    intro es absent
    induction es with
    | nil => rfl
    | cons e es ih =>
      rw [List.map_cons, List.mem_cons, not_or] at absent
      rw [putEntry, if_neg (Ne.symm absent.1), ih absent.2, List.cons_append]
  exact general m.entries (contains_eq_false_iff.mp new)

/-! ### Entries and keys -/

theorem contains_eq_true_iff : m.contains k = true ↔ k ∈ m.entries.map Prod.fst :=
  List.contains_iff_mem

theorem mem_putEntry {e : String × β} (h : e ∈ putEntry k v es) : e = (k, v) ∨ e ∈ es := by
  induction es with
  | nil => exact .inl (List.mem_singleton.mp h)
  | cons f es ih =>
    rw [putEntry] at h
    split at h
    · rcases List.mem_cons.mp h with rfl | h
      · exact .inl rfl
      · exact .inr (List.mem_cons_of_mem f h)
    · rcases List.mem_cons.mp h with rfl | h
      · exact .inr List.mem_cons_self
      · exact (ih h).imp_right (List.mem_cons_of_mem f)

/-- A key that is present has one of the entries. -/
theorem get?_of_contains (h : m.contains k = true) :
    ∃ v, m.get? k = some v ∧ (k, v) ∈ m.entries := by
  obtain ⟨e, listed, same⟩ := List.mem_map.mp (contains_eq_true_iff.mp h)
  have found : (m.entries.lookup k).isSome := List.lookup_isSome_iff.mpr ⟨e, listed, by simp [same]⟩
  obtain ⟨v, hv⟩ := Option.isSome_iff_exists.mp found
  obtain ⟨before, after, split, _⟩ := List.lookup_eq_some_iff.mp hv
  exact ⟨v, hv, by simp [split]⟩

theorem mem_entries_of_get? (found : m.get? k = some v) : (k, v) ∈ m.entries := by
  obtain ⟨before, after, split, _⟩ := List.lookup_eq_some_iff.mp found
  simp [split]

theorem get?_of_mem {e : String × β} (listed : e ∈ m.entries) : m.get? e.1 = some e.2 := by
  obtain ⟨v, found, among⟩ :=
    get?_of_contains (contains_eq_true_iff.mpr (List.mem_map_of_mem listed))
  rw [found, List.inj_on_of_nodup_map m.nodup listed among rfl]

theorem mem_values_of_get? (found : m.get? k = some v) : v ∈ m.values :=
  List.mem_map_of_mem (f := Prod.snd) (mem_entries_of_get? found)

theorem mem_entries_ofList {e : String × β} (h : e ∈ (ofList es).entries) : e ∈ es := by
  have general : ∀ (es : List (String × β)) (m : OrderedMap β),
      e ∈ (es.foldl (fun m e => m.insert e.1 e.2) m).entries → e ∈ m.entries ∨ e ∈ es := by
    intro es
    induction es with
    | nil => exact fun m h => .inl h
    | cons f es ih =>
      intro m h
      rcases ih _ h with h | h
      · rcases mem_putEntry h with rfl | h
        · exact .inr List.mem_cons_self
        · exact .inl h
      · exact .inr (List.mem_cons_of_mem f h)
  exact (general es empty h).resolve_left (by simp)

theorem contains_ofList : (ofList es).contains k = true ↔ k ∈ es.map Prod.fst := by
  have general : ∀ (es : List (String × β)) (m : OrderedMap β),
      (es.foldl (fun m e => m.insert e.1 e.2) m).contains k = true ↔
        m.contains k = true ∨ k ∈ es.map Prod.fst := by
    intro es
    induction es with
    | nil => simp
    | cons e es ih =>
      intro m
      rw [List.foldl_cons, ih, contains_insert, List.map_cons, List.mem_cons, Bool.or_eq_true,
        decide_eq_true_iff]
      tauto
  rw [ofList, general]
  exact or_iff_right (by simp [contains, keys])

theorem ofList_append_singleton {e : String × β} :
    ofList (es ++ [e]) = (ofList es).insert e.1 e.2 := by
  rw [ofList, List.foldl_append]
  rfl

/-- A list gives each of its keys the last of its values. -/
theorem get?_ofList : (ofList es).get? k = (es.reverse.find? fun e => e.1 = k).map Prod.snd := by
  induction es using List.reverseRecOn with
  | nil => rfl
  | append_singleton es e ih =>
    rw [ofList_append_singleton, get?_insert, ih, List.reverse_append, List.reverse_singleton,
      List.singleton_append, List.find?_cons]
    by_cases here : e.1 = k
    · simp [here]
    · simp [here, Ne.symm here]

/-- A list that repeats no key gives each of its keys its value. -/
theorem get?_ofList_of_mem (distinct : (es.map Prod.fst).Nodup) (listed : (k, v) ∈ es) :
    (ofList es).get? k = some v := by
  have kept : ∀ (es : List (String × β)) (m : OrderedMap β), k ∉ es.map Prod.fst →
      (es.foldl (fun m e => m.insert e.1 e.2) m).get? k = m.get? k := by
    intro es
    induction es with
    | nil => exact fun _ _ => rfl
    | cons e es ih =>
      intro m absent
      rw [List.map_cons, List.mem_cons, not_or] at absent
      rw [List.foldl_cons, ih _ absent.2, get?_insert, if_neg absent.1]
  have general : ∀ (es : List (String × β)) (m : OrderedMap β), (es.map Prod.fst).Nodup →
      (k, v) ∈ es → (es.foldl (fun m e => m.insert e.1 e.2) m).get? k = some v := by
    intro es
    induction es with
    | nil => exact fun _ _ listed => absurd listed List.not_mem_nil
    | cons e es ih =>
      intro m distinct listed
      obtain ⟨absent, distinct⟩ := List.nodup_cons.mp distinct
      rcases List.mem_cons.mp listed with rfl | listed
      · rw [List.foldl_cons, kept es _ absent, get?_insert, if_pos rfl]
      · exact ih _ distinct listed
  exact general es empty distinct listed

/-! ### Lists of entries -/

/-- A list that repeats no key is the list of the entries of its map. -/
theorem entries_ofList (distinct : (es.map Prod.fst).Nodup) : (ofList es).entries = es := by
  have general : ∀ (es : List (String × β)) (m : OrderedMap β),
      ((m.entries ++ es).map Prod.fst).Nodup →
        (es.foldl (fun m e => m.insert e.1 e.2) m).entries = m.entries ++ es := by
    intro es
    induction es with
    | nil => simp
    | cons e es ih =>
      intro m distinct
      have new : m.contains e.1 = false := by
        rw [contains_eq_false_iff]
        rw [List.map_append, List.map_cons, List.nodup_append] at distinct
        exact fun present => distinct.2.2 e.1 present e.1 List.mem_cons_self rfl
      have grown := entries_insert_of_new (v := e.2) new
      rw [List.foldl_cons, ih, grown, List.append_assoc, List.singleton_append]
      rwa [grown, List.append_assoc, List.singleton_append]
  exact general es empty distinct

theorem ofList_entries (m : OrderedMap β) : ofList m.entries = m :=
  OrderedMap.ext (entries_ofList m.nodup)

/-- Computing new values keeps the keys. -/
theorem keys_of_mapM {γ : Type u} {f : β → Option γ} {es' : List (String × γ)}
    (h : (es.mapM fun e => (f e.2).map fun x => (e.1, x)) = some es') :
    es'.map Prod.fst = es.map Prod.fst := by
  induction es generalizing es' with
  | nil =>
    cases h
    rfl
  | cons e es ih =>
    rw [List.mapM_cons] at h
    obtain ⟨_, first, h⟩ := Option.bind_eq_some_iff.mp h
    obtain ⟨others, rest, h⟩ := Option.bind_eq_some_iff.mp h
    obtain ⟨x, _, rfl⟩ := Option.map_eq_some_iff.mp first
    cases h
    rw [List.map_cons, List.map_cons, ih rest]

/-- A map is computed again exactly if each of its values is. -/
theorem map_ofList_mapM_eq_some_iff {f : β → Option β} :
    (m.entries.mapM fun e => (f e.2).map fun x => (e.1, x)).map ofList = some m ↔
      ∀ v ∈ m.values, f v = some v := by
  have same : ∀ es : List (String × β),
      (es.mapM fun e => (f e.2).map fun x => (e.1, x)) = some es ↔ ∀ e ∈ es, f e.2 = some e.2 := by
    intro es
    induction es with
    | nil => simp
    | cons e es ih =>
      rw [List.mapM_cons, List.forall_mem_cons, ← ih]
      cases f e.2 <;> cases es.mapM fun e => (f e.2).map fun x => (e.1, x) <;> simp [Prod.ext_iff]
  constructor
  · intro h v listed
    obtain ⟨es, computed, back⟩ := Option.map_eq_some_iff.mp h
    have listing : es = m.entries := by
      rw [← back, entries_ofList]
      rw [keys_of_mapM computed]
      exact m.nodup
    rw [listing] at computed
    obtain ⟨e, among, rfl⟩ := List.mem_map.mp listed
    exact (same _).mp computed e among
  · intro h
    have computed := (same m.entries).mpr fun e listed => h e.2 (List.mem_map_of_mem listed)
    rw [computed, Option.map_some, ofList_entries]

/-! ### Growth -/

/-- The map becomes `m'` when the entries are put after its own. -/
def Grows (m : OrderedMap β) (es : List (String × β)) (m' : OrderedMap β) : Prop :=
  m'.entries = m.entries ++ es

theorem grows_nil : m.Grows [] m' ↔ m' = m := by
  rw [Grows, List.append_nil]
  constructor
  · exact OrderedMap.ext
  · rintro rfl
    rfl

/-- A first entry is inserted under a new key. -/
theorem grows_cons :
    m.Grows ((k, v) :: es) m' ↔ m.contains k = false ∧ (m.insert k v).Grows es m' := by
  constructor
  · intro h
    have new : m.contains k = false := by
      rw [contains_eq_false_iff]
      intro present
      have nodup := m'.nodup
      rw [h, List.map_append, List.map_cons, List.nodup_append] at nodup
      exact nodup.2.2 k present k (by simp) rfl
    refine ⟨new, ?_⟩
    rw [Grows, entries_insert_of_new new, h, List.append_assoc, List.singleton_append]
  · rintro ⟨new, h⟩
    rw [Grows, entries_insert_of_new new, List.append_assoc, List.singleton_append] at h
    exact h

theorem empty_grows : (∅ : OrderedMap β).Grows es m ↔ m.entries = es :=
  Iff.rfl

end SqlBridge.OrderedMap
