/-!
# Maps in order of insertion

A map from names to values that lists its keys in the order in which each was first inserted.
Inserting under a key that is present replaces the value and leaves the key where it stands. That
keys do not repeat is part of the type.
-/

namespace SqlBridge

universe u v

/-- A map from names to values, its keys in order of first insertion. -/
structure OrderedMap (β : Type u) where
  /-- The keys with their values. -/
  entries : List (String × β)
  /-- No key is listed twice. -/
  nodup : (entries.map Prod.fst).Nodup
deriving DecidableEq

namespace OrderedMap

variable {β : Type u} {γ : Type v}

/-- Replace the value of `key` in a list of entries, or put the entry last. -/
def putEntry (key : String) (value : β) : List (String × β) → List (String × β)
  | [] => [(key, value)]
  | e :: rest => if e.1 = key then (key, value) :: rest else e :: putEntry key value rest

theorem keys_putEntry (key : String) (value : β) (es : List (String × β)) :
    (putEntry key value es).map Prod.fst =
      if key ∈ es.map Prod.fst then es.map Prod.fst else es.map Prod.fst ++ [key] := by
  induction es with
  | nil => simp [putEntry]
  | cons e rest ih =>
    by_cases h : e.1 = key
    · simp [putEntry, h]
    · by_cases hm : key ∈ rest.map Prod.fst <;> simp_all [putEntry, Ne.symm h]

theorem nodup_keys_putEntry (key : String) (value : β) {es : List (String × β)}
    (h : (es.map Prod.fst).Nodup) : ((putEntry key value es).map Prod.fst).Nodup := by
  rw [keys_putEntry]
  split
  · exact h
  · next absent =>
    refine List.nodup_append.2 ⟨h, by simp, ?_⟩
    intro a ha b hb
    rintro rfl
    exact absent (List.mem_singleton.1 hb ▸ ha)

def empty : OrderedMap β :=
  ⟨[], by simp⟩

instance : EmptyCollection (OrderedMap β) := ⟨empty⟩
instance : Inhabited (OrderedMap β) := ⟨empty⟩

/-- Give `key` the value `value`; a new key comes last, a present one keeps its place. -/
def insert (m : OrderedMap β) (key : String) (value : β) : OrderedMap β :=
  ⟨putEntry key value m.entries, nodup_keys_putEntry key value m.nodup⟩

def ofList (es : List (String × β)) : OrderedMap β :=
  es.foldl (fun m e => m.insert e.1 e.2) empty

def keys (m : OrderedMap β) : List String :=
  m.entries.map Prod.fst

def values (m : OrderedMap β) : List β :=
  m.entries.map Prod.snd

def get? (m : OrderedMap β) (key : String) : Option β :=
  m.entries.lookup key

def contains (m : OrderedMap β) (key : String) : Bool :=
  m.keys.contains key

def isEmpty (m : OrderedMap β) : Bool :=
  m.entries.isEmpty

def mapValues (f : β → γ) (m : OrderedMap β) : OrderedMap γ :=
  ⟨m.entries.map fun e => (e.1, f e.2), by simpa [Function.comp_def] using m.nodup⟩

@[simp] theorem entries_empty : (empty : OrderedMap β).entries = [] := rfl

theorem entries_insert (m : OrderedMap β) (key : String) (value : β) :
    (m.insert key value).entries = putEntry key value m.entries := rfl

/-- Insertion adds its key at the end unless the key is present. -/
theorem keys_insert (m : OrderedMap β) (key : String) (value : β) :
    (m.insert key value).keys = if m.contains key then m.keys else m.keys ++ [key] := by
  simp only [keys, contains, entries_insert, keys_putEntry, List.contains_iff_mem]

theorem lookup_putEntry (key : String) (value : β) (es : List (String × β)) (other : String) :
    (putEntry key value es).lookup other = if other = key then some value else es.lookup other := by
  induction es with
  | nil =>
    by_cases h : other = key
    · simp [putEntry, h]
    · simp [putEntry, List.lookup_cons, h, beq_eq_false_iff_ne.2 h]
  | cons e rest ih =>
    obtain ⟨k, v⟩ := e
    by_cases hk : k = key
    · subst hk
      by_cases h : other = k
      · simp [putEntry, h]
      · simp [putEntry, List.lookup_cons, h, beq_eq_false_iff_ne.2 h]
    · by_cases h : other = k
      · subst h; simp [putEntry, hk]
      · simp [putEntry, hk, List.lookup_cons, beq_eq_false_iff_ne.2 h, ih]

/-- After an insertion the key has the new value and every other key the one it had. -/
theorem get?_insert (m : OrderedMap β) (key : String) (value : β) (other : String) :
    (m.insert key value).get? other = if other = key then some value else m.get? other :=
  lookup_putEntry key value m.entries other

/-- Insertion makes its key present and leaves the presence of every other key as it was. -/
theorem contains_insert (m : OrderedMap β) (key : String) (value : β) (other : String) :
    (m.insert key value).contains other = (decide (other = key) || m.contains other) := by
  rw [contains, keys_insert]
  by_cases present : m.contains key
  · rw [if_pos present]
    by_cases h : other = key
    · subst h; simpa [contains] using present
    · simp [contains, h]
  · rw [if_neg present]
    simp [contains, Bool.or_comm]

end OrderedMap

end SqlBridge
