/-!
# Entries in arrival order

`Keyed κ α` holds values under keys in the order in which the keys first arrived, and no key twice.
Storing under a known key keeps the key's place and replaces its value (`keys_insert`,
`get?_insert`); erasing leaves the order of the rest alone (`get?_erase`). One map laid over another
answers with the upper value where there is one (`get?_overlay`). An entry is in the map exactly if
a lookup finds it (`get?_eq_some_iff`).
-/

set_option autoImplicit false

namespace AgentAtlas

universe u v w

/-- Values under keys, in the order in which the keys first arrived. -/
@[ext]
structure Keyed (κ : Type u) (α : Type v) where
  /-- Key and value, oldest key first. -/
  entries : List (κ × α)
  /-- No key occurs twice. -/
  nodup : (entries.map Prod.fst).Nodup

namespace Keyed

variable {κ : Type u} {α : Type v} {β : Type w}

instance [DecidableEq κ] [DecidableEq α] : DecidableEq (Keyed κ α) := fun m n =>
  decidable_of_iff (m.entries = n.entries) Keyed.ext_iff.symm

instance [Repr κ] [Repr α] : Repr (Keyed κ α) := ⟨fun m p => reprPrec m.entries p⟩

/-- The keys, oldest first. -/
def keys (m : Keyed κ α) : List κ := m.entries.map Prod.fst

/-- The number of keys. -/
def size (m : Keyed κ α) : Nat := m.entries.length

/-- No entries. -/
def empty : Keyed κ α := ⟨[], List.nodup_nil⟩

instance : EmptyCollection (Keyed κ α) := ⟨empty⟩

instance : Inhabited (Keyed κ α) := ⟨empty⟩

variable [DecidableEq κ]

/-- The value under a key. -/
def get? (m : Keyed κ α) (key : κ) : Option α := m.entries.lookup key

/-- Whether the key is there. -/
def contains (m : Keyed κ α) (key : κ) : Bool := (m.get? key).isSome

/-- A lookup reads the first entry and goes on where the key differs. -/
theorem lookup_cons_eq_ite (key k : κ) (v : α) (rest : List (κ × α)) :
    ((k, v) :: rest).lookup key = if key = k then some v else rest.lookup key := by
  by_cases h : key = k
  · simp [h]
  · have hb : (key == k) = false := by simpa using h
    simp [List.lookup_cons, hb, h]

/-! ## Storing -/

/-- Store in a list of entries: in the key's place if it is there, else at the end. -/
def put (key : κ) (value : α) : List (κ × α) → List (κ × α)
  | [] => [(key, value)]
  | entry :: rest => if entry.1 = key then (key, value) :: rest else entry :: put key value rest

theorem map_fst_put (key : κ) (value : α) (entries : List (κ × α)) :
    (put key value entries).map Prod.fst =
      if key ∈ entries.map Prod.fst then entries.map Prod.fst
      else entries.map Prod.fst ++ [key] := by
  induction entries with
  | nil => simp [put]
  | cons entry rest ih =>
    by_cases h : entry.1 = key
    · simp [put, h]
    · have h' : key ≠ entry.1 := fun e => h e.symm
      by_cases hk : key ∈ rest.map Prod.fst <;> simp_all [put]

theorem nodup_put (key : κ) (value : α) {entries : List (κ × α)}
    (h : (entries.map Prod.fst).Nodup) : ((put key value entries).map Prod.fst).Nodup := by
  rw [map_fst_put]
  split
  · exact h
  · rename_i hk
    exact List.nodup_append.2 ⟨h, by simp, fun a ha b hb => by
      simp only [List.mem_singleton] at hb
      exact fun e => hk (hb ▸ e ▸ ha)⟩

theorem lookup_put (key other : κ) (value : α) (entries : List (κ × α)) :
    (put key value entries).lookup other =
      if other = key then some value else entries.lookup other := by
  induction entries with
  | nil => simp [put, lookup_cons_eq_ite]
  | cons entry rest ih =>
    obtain ⟨k, v⟩ := entry
    by_cases h : k = key
    · subst h
      by_cases ho : other = k <;> simp [put, lookup_cons_eq_ite, ho]
    · by_cases ho : other = k
      · subst ho; simp [put, h]
      · simp [put, lookup_cons_eq_ite, h, ho, ih]

/-- Store a value: in the key's place if the key is known, else at the end. -/
def insert (m : Keyed κ α) (key : κ) (value : α) : Keyed κ α :=
  ⟨put key value m.entries, nodup_put key value m.nodup⟩

/-- Store entries one after the other. -/
def insertAll (m : Keyed κ α) (entries : List (κ × α)) : Keyed κ α :=
  entries.foldl (fun m e => m.insert e.1 e.2) m

/-- The map of a list of entries: a repeated key keeps its first place and takes its last value. -/
def ofList (entries : List (κ × α)) : Keyed κ α := empty.insertAll entries

/-- Lay `upper` over `lower`: its values replace those under the same keys, its other keys follow.
-/
def overlay (lower upper : Keyed κ α) : Keyed κ α := lower.insertAll upper.entries

@[simp] theorem get?_empty (key : κ) : (empty : Keyed κ α).get? key = none := rfl

omit [DecidableEq κ] in
@[simp] theorem keys_empty : (empty : Keyed κ α).keys = [] := rfl

theorem get?_insert (m : Keyed κ α) (key other : κ) (value : α) :
    (m.insert key value).get? other = if other = key then some value else m.get? other :=
  lookup_put key other value m.entries

theorem keys_insert (m : Keyed κ α) (key : κ) (value : α) :
    (m.insert key value).keys = if key ∈ m.keys then m.keys else m.keys ++ [key] :=
  map_fst_put key value m.entries

/-- An entry is in the map exactly if a lookup finds it. -/
theorem get?_eq_some_iff {m : Keyed κ α} {key : κ} {value : α} :
    m.get? key = some value ↔ (key, value) ∈ m.entries := by
  obtain ⟨entries, h⟩ := m
  simp only [get?]
  induction entries with
  | nil => simp
  | cons entry rest ih =>
    obtain ⟨k, v⟩ := entry
    simp only [List.map_cons, List.nodup_cons] at h
    rw [lookup_cons_eq_ite]
    by_cases hk : key = k
    · subst hk
      have hn : (key, value) ∉ rest := fun hw => h.1 (List.mem_map.2 ⟨_, hw, rfl⟩)
      simp [hn, eq_comm]
    · simp [hk, ih h.2]

theorem get?_eq_none_iff {m : Keyed κ α} {key : κ} : m.get? key = none ↔ key ∉ m.keys := by
  rw [Option.eq_none_iff_forall_ne_some]
  simp only [ne_eq, get?_eq_some_iff, keys, List.mem_map, not_exists, not_and]
  constructor
  · rintro h ⟨k, v⟩ hm rfl
    exact h v hm
  · exact fun h v hm => h (key, v) hm rfl

/-- Lookups find the same where the entries are the same, in whatever order. -/
theorem get?_congr {m n : Keyed κ α} (h : ∀ entry, entry ∈ m.entries ↔ entry ∈ n.entries)
    (key : κ) : m.get? key = n.get? key := by
  apply Option.ext
  intro value
  rw [get?_eq_some_iff, get?_eq_some_iff, h]

/-! ## Erasing, selecting, rewriting values -/

/-- Leave one key out. -/
def erase (m : Keyed κ α) (key : κ) : Keyed κ α :=
  ⟨m.entries.filter fun e => e.1 ≠ key, m.nodup.sublist (List.filter_sublist.map _)⟩

/-- Keep the entries which pass a test. -/
def filter (m : Keyed κ α) (test : κ → α → Bool) : Keyed κ α :=
  ⟨m.entries.filter fun e => test e.1 e.2, m.nodup.sublist (List.filter_sublist.map _)⟩

/-- Rewrite the values and leave out the keys without a new one. -/
def filterMap (f : κ → α → Option β) (m : Keyed κ α) : Keyed κ β where
  entries := m.entries.filterMap fun e => (f e.1 e.2).map (e.1, ·)
  nodup := by
    rw [List.map_filterMap]
    refine m.nodup.sublist ?_
    have h : ∀ e : κ × α, ((f e.1 e.2).map (e.1, ·)).map Prod.fst =
        if (f e.1 e.2).isSome then some e.1 else none := fun e => by
      cases f e.1 e.2 <;> rfl
    simp only [h]
    induction m.entries with
    | nil => exact List.Sublist.slnil
    | cons e r ih =>
      rw [List.filterMap_cons, List.map_cons]
      cases (f e.1 e.2).isSome
      · exact ih.cons _
      · exact ih.cons_cons _

/-- Rewrite every value and keep the keys. -/
def mapValues (f : α → β) (m : Keyed κ α) : Keyed κ β :=
  ⟨m.entries.map fun e => (e.1, f e.2), by simpa [Function.comp_def] using m.nodup⟩

theorem get?_erase (m : Keyed κ α) (key other : κ) :
    (m.erase key).get? other = if other = key then none else m.get? other := by
  apply Option.ext
  intro value
  rw [get?_eq_some_iff]
  by_cases h : other = key
  · subst h; simp [erase]
  · simp [erase, h, get?_eq_some_iff]

theorem get?_filter (m : Keyed κ α) (test : κ → α → Bool) (key : κ) :
    (m.filter test).get? key = (m.get? key).filter (test key) := by
  apply Option.ext
  intro value
  rw [get?_eq_some_iff, Option.filter_eq_some_iff, get?_eq_some_iff]
  simp [filter]

theorem get?_filterMap (f : κ → α → Option β) (m : Keyed κ α) (key : κ) :
    (m.filterMap f).get? key = (m.get? key).bind (f key) := by
  apply Option.ext
  intro value
  rw [get?_eq_some_iff, Option.bind_eq_some_iff]
  simp only [filterMap, List.mem_filterMap, Option.map_eq_some_iff, get?_eq_some_iff, Prod.exists,
    Prod.mk.injEq]
  constructor
  · rintro ⟨k, v, hm, w, hf, rfl, rfl⟩
    exact ⟨v, hm, hf⟩
  · rintro ⟨v, hm, hf⟩
    exact ⟨key, v, hm, value, hf, rfl, rfl⟩

theorem get?_mapValues (f : α → β) (m : Keyed κ α) (key : κ) :
    (m.mapValues f).get? key = (m.get? key).map f := by
  obtain ⟨entries, h⟩ := m
  simp only [get?, mapValues]
  clear h
  induction entries with
  | nil => rfl
  | cons entry rest ih =>
    obtain ⟨k, v⟩ := entry
    rw [List.map_cons, lookup_cons_eq_ite, lookup_cons_eq_ite, ih]
    split <;> rfl

omit [DecidableEq κ] in
@[simp] theorem keys_mapValues (f : α → β) (m : Keyed κ α) : (m.mapValues f).keys = m.keys := by
  simp [keys, mapValues, Function.comp_def]

theorem get?_insertAll (m : Keyed κ α) (entries : List (κ × α)) (key : κ) :
    (m.insertAll entries).get? key = (entries.reverse.lookup key).or (m.get? key) := by
  induction entries generalizing m with
  | nil => simp [insertAll]
  | cons entry rest ih =>
    obtain ⟨k, v⟩ := entry
    rw [insertAll, List.foldl_cons, ← insertAll, ih, get?_insert, List.reverse_cons,
      List.lookup_append, lookup_cons_eq_ite]
    by_cases h : key = k <;> cases rest.reverse.lookup key <;> simp [h]

/-- Where keys are distinct, the last entry under a key is its only one. -/
theorem lookup_reverse {entries : List (κ × α)} (h : (entries.map Prod.fst).Nodup)
    (key : κ) : entries.reverse.lookup key = entries.lookup key := by
  have hr : (entries.reverse.map Prod.fst).Nodup := by
    rw [List.map_reverse]; exact (List.reverse_perm _).nodup_iff.2 h
  have e₁ : entries.reverse.lookup key = (Keyed.mk entries.reverse hr).get? key := rfl
  have e₂ : entries.lookup key = (Keyed.mk entries h).get? key := rfl
  rw [e₁, e₂]
  exact get?_congr (fun _ => List.mem_reverse) key

/-- A map laid over another answers first. -/
theorem get?_overlay (lower upper : Keyed κ α) (key : κ) :
    (lower.overlay upper).get? key = (upper.get? key).or (lower.get? key) := by
  rw [overlay, get?_insertAll, lookup_reverse upper.nodup]
  rfl

/-- Storing under a new key puts the entry at the end. -/
theorem put_of_not_mem {key : κ} {entries : List (κ × α)} (h : key ∉ entries.map Prod.fst)
    (value : α) : put key value entries = entries ++ [(key, value)] := by
  induction entries with
  | nil => rfl
  | cons entry rest ih =>
    rw [List.map_cons, List.mem_cons, not_or] at h
    rw [put, if_neg fun e => h.1 e.symm, ih h.2, List.cons_append]

theorem entries_insert_of_not_mem {m : Keyed κ α} {key : κ} (h : key ∉ m.keys) (value : α) :
    (m.insert key value).entries = m.entries ++ [(key, value)] :=
  put_of_not_mem h value

/-- Entries of new and distinct keys follow those which are there. -/
theorem entries_insertAll {m : Keyed κ α} {entries : List (κ × α)}
    (h : ((m.entries ++ entries).map Prod.fst).Nodup) :
    (m.insertAll entries).entries = m.entries ++ entries := by
  induction entries generalizing m with
  | nil => simp [insertAll]
  | cons entry rest ih =>
    have hput : (m.insert entry.1 entry.2).entries = m.entries ++ [entry] := by
      refine entries_insert_of_not_mem (fun hm => ?_) entry.2
      rw [List.map_append, List.nodup_append] at h
      exact h.2.2 entry.1 hm entry.1 (by simp) rfl
    rw [insertAll, List.foldl_cons, ← insertAll, ih, hput, List.append_assoc,
      List.singleton_append]
    rwa [hput, List.append_assoc, List.singleton_append]

/-- A list of entries with distinct keys is the list of its map. -/
theorem entries_ofList {entries : List (κ × α)} (h : (entries.map Prod.fst).Nodup) :
    (ofList entries).entries = entries := by
  rw [ofList, entries_insertAll (by simpa [empty] using h)]
  rfl

/-- An entry is stored in the same place under other keys, if no two keys become one. -/
theorem put_map {κ' : Type u} [DecidableEq κ'] {f : κ → κ'} (hf : ∀ a b, f a = f b → a = b)
    (g : α → β) (key : κ) (value : α) (entries : List (κ × α)) :
    put (f key) (g value) (entries.map fun e => (f e.1, g e.2)) =
      (put key value entries).map fun e => (f e.1, g e.2) := by
  induction entries with
  | nil => rfl
  | cons entry rest ih =>
    rw [List.map_cons, put, put]
    by_cases h : entry.1 = key
    · rw [if_pos h, if_pos (congrArg f h), List.map_cons]
    · rw [if_neg h, if_neg fun e => h (hf _ _ e), ih, List.map_cons]

/-- Reading as a map goes before or after such a change of the entries. -/
theorem entries_ofList_map {κ' : Type u} [DecidableEq κ'] {f : κ → κ'}
    (hf : ∀ a b, f a = f b → a = b) (g : α → β) (entries : List (κ × α)) :
    (ofList (entries.map fun e => (f e.1, g e.2))).entries =
      (ofList entries).entries.map fun e => (f e.1, g e.2) := by
  -- the entries stored so far correspond, and so do those after one more
  have h : ∀ (m : Keyed κ' β) (m' : Keyed κ α),
      m.entries = m'.entries.map (fun e => (f e.1, g e.2)) →
      (m.insertAll (entries.map fun e => (f e.1, g e.2))).entries =
        (m'.insertAll entries).entries.map fun e => (f e.1, g e.2) := by
    induction entries with
    | nil => intro m m' hm; exact hm
    | cons entry rest ih =>
      intro m m' hm
      apply ih
      show put (f entry.1) (g entry.2) m.entries = _
      rw [hm, put_map hf]
      rfl
  exact h empty empty rfl

/-- A list of entries read as a map: each key stands where it first arrived. -/
theorem keys_ofList (entries : List (κ × α)) :
    (ofList entries).keys = (entries.map Prod.fst).eraseDups := by
  -- the keys so far are those which arrived, each at its first place
  have h : ∀ (m : Keyed κ α) (arrived : List κ), m.keys = arrived.eraseDups →
      (m.insertAll entries).keys = (arrived ++ entries.map Prod.fst).eraseDups := by
    induction entries with
    | nil => intro m arrived hm; simpa [insertAll] using hm
    | cons entry rest ih =>
      intro m arrived hm
      rw [insertAll, List.foldl_cons, ← insertAll, ih _ (arrived ++ [entry.1]), List.map_cons,
        List.append_assoc, List.singleton_append]
      rw [keys_insert, hm, List.eraseDups_append]
      by_cases hk : entry.1 ∈ arrived <;> simp [hk, List.removeAll, List.eraseDups_cons]
  exact h empty [] rfl

/-- A list of entries read as a map: the last entry under a key counts. -/
theorem get?_ofList (entries : List (κ × α)) (key : κ) :
    (ofList entries).get? key = entries.reverse.lookup key := by
  rw [ofList, get?_insertAll]; simp

end Keyed

end AgentAtlas
