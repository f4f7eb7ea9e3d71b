import AgentAtlas.Keyed

/-!
# Tables in ascending key order

`Table κ α` holds values under the keys of a linear order, ascending and no key twice. Storing under
a known key replaces the value (`get?_insert`), and the keys stay ascending whatever the order of
the writes: that is the proof field of the type. An entry is in the table exactly if a lookup finds
it (`get?_eq_some_iff`).
-/

set_option autoImplicit false

namespace AgentAtlas

universe u v

/-- Keys of which any two are equal or in order, one way only. -/
class KeyOrder (κ : Type u) [LT κ] : Prop where
  irrefl (a : κ) : ¬ a < a
  trans {a b c : κ} : a < b → b < c → a < c
  eq_of_not_lt {a b : κ} : ¬ a < b → ¬ b < a → a = b

instance : KeyOrder Nat where
  irrefl := Nat.lt_irrefl
  trans := Nat.lt_trans
  eq_of_not_lt h h' := by omega

instance : KeyOrder String where
  irrefl := String.lt_irrefl
  trans := String.lt_trans
  eq_of_not_lt h h' := String.le_antisymm (String.not_lt.1 h') (String.not_lt.1 h)

/-- Values under the keys of an order, ascending. -/
@[ext]
structure Table (κ : Type u) (α : Type v) [LT κ] where
  /-- Key and value, least key first. -/
  entries : List (κ × α)
  /-- The keys ascend strictly. -/
  ascending : entries.Pairwise fun a b => a.1 < b.1

namespace Table

open Keyed (lookup_cons_eq_ite)

variable {κ : Type u} {α : Type v} [LT κ]

instance [DecidableEq κ] [DecidableEq α] : DecidableEq (Table κ α) := fun m n =>
  decidable_of_iff (m.entries = n.entries) Table.ext_iff.symm

instance [Repr κ] [Repr α] : Repr (Table κ α) := ⟨fun m p => reprPrec m.entries p⟩

/-- The number of keys. -/
def size (t : Table κ α) : Nat := t.entries.length

/-- The keys, least first. -/
def keys (t : Table κ α) : List κ := t.entries.map Prod.fst

/-- No entries. -/
def empty : Table κ α := ⟨[], List.Pairwise.nil⟩

instance : EmptyCollection (Table κ α) := ⟨empty⟩

instance : Inhabited (Table κ α) := ⟨empty⟩

variable [DecidableEq κ] [DecidableLT κ]

/-- The value under a key. -/
def get? (t : Table κ α) (key : κ) : Option α := t.entries.lookup key

omit [DecidableLT κ] in
@[simp] theorem get?_empty (key : κ) : (empty : Table κ α).get? key = none := rfl

/-- Store in a list of entries, before the first greater key. -/
def put (key : κ) (value : α) : List (κ × α) → List (κ × α)
  | [] => [(key, value)]
  | entry :: rest =>
    if key = entry.1 then (key, value) :: rest
    else if key < entry.1 then (key, value) :: entry :: rest
    else entry :: put key value rest

theorem mem_put {key : κ} {value : α} {entry : κ × α} {entries : List (κ × α)}
    (h : entry ∈ put key value entries) : entry = (key, value) ∨ entry ∈ entries := by
  induction entries with
  | nil => simpa [put] using h
  | cons head rest ih =>
    rw [put] at h
    split at h
    · grind
    · split at h
      · grind
      · grind

theorem lookup_put (key other : κ) (value : α) (entries : List (κ × α)) :
    (put key value entries).lookup other =
      if other = key then some value else entries.lookup other := by
  induction entries with
  | nil => simp [put, lookup_cons_eq_ite]
  | cons entry rest ih =>
    obtain ⟨k, v⟩ := entry
    by_cases h : key = k
    · subst h
      by_cases ho : other = key <;> simp [put, lookup_cons_eq_ite, ho]
    · by_cases hlt : key < k
      · simp [put, h, hlt, lookup_cons_eq_ite]
      · have hk : k ≠ key := fun e => h e.symm
        by_cases ho : other = k
        · subst ho; simp [put, h, hlt, hk]
        · simp [put, h, hlt, lookup_cons_eq_ite, ho, ih]

variable [KeyOrder κ]

theorem ascending_put (key : κ) (value : α) {entries : List (κ × α)}
    (h : entries.Pairwise fun a b => a.1 < b.1) :
    (put key value entries).Pairwise fun a b => a.1 < b.1 := by
  induction entries with
  | nil => simp [put]
  | cons entry rest ih =>
    obtain ⟨k, v⟩ := entry
    rw [List.pairwise_cons] at h
    rw [put]
    split
    · rename_i e
      subst e
      exact List.pairwise_cons.2 h
    · rename_i hne
      split
      · rename_i hlt
        refine List.pairwise_cons.2 ⟨fun e he => ?_, List.pairwise_cons.2 h⟩
        rcases List.mem_cons.1 he with rfl | he
        · exact hlt
        · exact KeyOrder.trans hlt (h.1 e he)
      · rename_i hlt
        refine List.pairwise_cons.2 ⟨fun e he => ?_, ih h.2⟩
        rcases mem_put he with rfl | he
        · exact Classical.byContradiction fun hk => hne (KeyOrder.eq_of_not_lt hlt hk)
        · exact h.1 e he

/-- Store a value under a key. -/
def insert (t : Table κ α) (key : κ) (value : α) : Table κ α :=
  ⟨put key value t.entries, ascending_put key value t.ascending⟩

/-- The table of a list of entries: the last entry under a key counts. -/
def ofList (entries : List (κ × α)) : Table κ α :=
  entries.foldl (fun t e => t.insert e.1 e.2) empty

theorem get?_insert (t : Table κ α) (key other : κ) (value : α) :
    (t.insert key value).get? other = if other = key then some value else t.get? other :=
  lookup_put key other value t.entries

omit [DecidableLT κ] in
/-- An entry is in the table exactly if a lookup finds it. -/
theorem get?_eq_some_iff {t : Table κ α} {key : κ} {value : α} :
    t.get? key = some value ↔ (key, value) ∈ t.entries := by
  obtain ⟨entries, h⟩ := t
  simp only [get?]
  induction entries with
  | nil => simp
  | cons entry rest ih =>
    obtain ⟨k, v⟩ := entry
    rw [List.pairwise_cons] at h
    rw [lookup_cons_eq_ite]
    by_cases hk : key = k
    · subst hk
      have hn : (key, value) ∉ rest := fun hw =>
        KeyOrder.irrefl key (h.1 _ hw)
      simp [hn, eq_comm]
    · simp [hk, ih h.2]

theorem get?_foldl_insert (entries : List (κ × α)) (t : Table κ α) (key : κ) :
    (entries.foldl (fun t e => t.insert e.1 e.2) t).get? key =
      (entries.reverse.lookup key).or (t.get? key) := by
  induction entries generalizing t with
  | nil => simp
  | cons entry rest ih =>
    obtain ⟨k, v⟩ := entry
    rw [List.foldl_cons, ih, get?_insert, List.reverse_cons, List.lookup_append,
      lookup_cons_eq_ite]
    by_cases hk : key = k <;> cases rest.reverse.lookup key <;> simp [hk]

/-- A table of entries answers with the last one under a key. -/
theorem get?_ofList (entries : List (κ × α)) (key : κ) :
    (ofList entries).get? key = entries.reverse.lookup key := by
  rw [ofList, get?_foldl_insert, get?_empty, Option.or_none]

omit [LT κ] [DecidableLT κ] [KeyOrder κ] in
/-- Where entries of one key agree, a lookup finds an entry exactly if it is there. -/
theorem lookup_eq_some_iff_mem {entries : List (κ × α)}
    (h : ∀ key v w, (key, v) ∈ entries → (key, w) ∈ entries → v = w) {key : κ} {value : α} :
    entries.lookup key = some value ↔ (key, value) ∈ entries := by
  induction entries with
  | nil => simp
  | cons entry rest ih =>
    obtain ⟨k, v⟩ := entry
    have hrest := ih fun key v w hv hw =>
      h key v w (List.mem_cons_of_mem _ hv) (List.mem_cons_of_mem _ hw)
    rw [lookup_cons_eq_ite]
    by_cases hk : key = k
    · -- the first entry of the key is found, and all others agree with it
      subst hk
      rw [if_pos rfl, Option.some.injEq]
      constructor
      · rintro rfl
        exact List.mem_cons_self
      · exact fun hm => h key v value List.mem_cons_self hm
    · rw [if_neg hk, hrest, List.mem_cons]
      simp [hk]

omit [KeyOrder κ] in
/-- Storing under a new key adds one entry. -/
theorem put_perm {key : κ} {entries : List (κ × α)} (h : key ∉ entries.map Prod.fst)
    (value : α) : (put key value entries).Perm ((key, value) :: entries) := by
  induction entries with
  | nil => exact List.Perm.refl _
  | cons entry rest ih =>
    rw [List.map_cons, List.mem_cons, not_or] at h
    rw [put, if_neg h.1]
    split
    · exact List.Perm.refl _
    · -- the entry moves behind a lesser one
      exact ((ih h.2).cons entry).trans (List.Perm.swap _ _ _)

theorem foldl_insert_perm {entries : List (κ × α)} :
    ∀ {t : Table κ α}, ((t.entries ++ entries).map Prod.fst).Nodup →
      (entries.foldl (fun t e => t.insert e.1 e.2) t).entries.Perm (t.entries ++ entries) := by
  induction entries with
  | nil =>
    intro t _
    simp
  | cons entry rest ih =>
    intro t h
    have hput : (t.insert entry.1 entry.2).entries.Perm (entry :: t.entries) := by
      refine put_perm (fun hm => ?_) entry.2
      rw [List.map_append, List.nodup_append] at h
      exact h.2.2 entry.1 hm entry.1 (by simp) rfl
    have hmove : ((t.insert entry.1 entry.2).entries ++ rest).Perm (t.entries ++ entry :: rest) :=
      (hput.append_right rest).trans List.perm_middle.symm
    rw [List.foldl_cons]
    exact (ih ((hmove.map Prod.fst).nodup_iff.2 h)).trans hmove

/-- The table of entries with distinct keys holds each of them once. -/
theorem ofList_perm {entries : List (κ × α)} (h : (entries.map Prod.fst).Nodup) :
    (ofList entries).entries.Perm entries :=
  foldl_insert_perm (t := empty) h

/-- Where entries of one key agree, the table of the entries holds exactly them. -/
theorem get?_ofList_eq_some_iff {entries : List (κ × α)}
    (h : ∀ key v w, (key, v) ∈ entries → (key, w) ∈ entries → v = w) {key : κ} {value : α} :
    (ofList entries).get? key = some value ↔ (key, value) ∈ entries := by
  rw [get?_ofList, lookup_eq_some_iff_mem, List.mem_reverse]
  intro k v w hv hw
  exact h k v w (List.mem_reverse.1 hv) (List.mem_reverse.1 hw)

/-- The table of entries is without any exactly if they are none. -/
theorem size_ofList_eq_zero_iff {entries : List (κ × α)} :
    (ofList entries).size = 0 ↔ entries = [] := by
  constructor
  · intro h
    apply List.eq_nil_iff_forall_not_mem.2
    intro e he
    have hfound : ((ofList entries).get? e.1).isSome = true := by
      rw [get?_ofList, List.lookup_isSome_iff]
      exact ⟨e, List.mem_reverse.2 he, by simp⟩
    rw [get?, List.eq_nil_of_length_eq_zero h] at hfound
    cases hfound
  · rintro rfl
    rfl

/-- The table of a list by position. -/
def ofPositions (values : List α) : Table Nat α where
  entries := values.zipIdx.map fun e => (e.2, e.1)
  ascending := by
    rw [List.pairwise_map, List.pairwise_iff_getElem]
    intro i j hi hj h
    simpa using h

theorem get?_ofPositions (values : List α) (i : Nat) : (ofPositions values).get? i = values[i]? := by
  apply Option.ext
  intro value
  rw [get?_eq_some_iff]
  constructor
  · intro h
    obtain ⟨e, he, hi⟩ := List.mem_map.1 h
    obtain ⟨rfl, rfl⟩ := Prod.mk.inj hi
    simpa [List.mem_zipIdx_iff_getElem?] using he
  · intro h
    exact List.mem_map.2 ⟨(value, i), by simpa [List.mem_zipIdx_iff_getElem?] using h, rfl⟩

theorem keys_ofPositions (values : List α) :
    (ofPositions values).keys = List.range values.length := by
  simp [keys, ofPositions, Function.comp_def, List.range_eq_range']

/-! ## Rewriting values -/

variable {β : Type v}

/-- Rewrite every value and keep the keys. -/
def mapValues (f : α → β) (t : Table κ α) : Table κ β where
  entries := t.entries.map fun e => (e.1, f e.2)
  ascending := List.pairwise_map.2 t.ascending

omit [DecidableLT κ] [KeyOrder κ] in
theorem get?_mapValues (f : α → β) (t : Table κ α) (key : κ) :
    (t.mapValues f).get? key = (t.get? key).map f := by
  obtain ⟨entries, h⟩ := t
  simp only [get?, mapValues]
  clear h
  induction entries with
  | nil => rfl
  | cons entry rest ih =>
    obtain ⟨k, v⟩ := entry
    rw [List.map_cons, lookup_cons_eq_ite, lookup_cons_eq_ite, ih]
    split <;> rfl

theorem mapValues_ofPositions (f : α → β) (values : List α) :
    (ofPositions values).mapValues f = ofPositions (values.map f) := by
  apply Table.ext
  simp [mapValues, ofPositions, List.zipIdx_map, Function.comp_def]

end Table

end AgentAtlas
