/-! Finite maps from names, as lists of entries in increasing order of name. -/

namespace Bylaw

/-- The entries of a map, in increasing order of name. -/
abbrev Keyed (α : Type) := List (String × α)

namespace Keyed

variable {α : Type}

def get? (key : String) : Keyed α → Option α
  | [] => none
  | (k, v) :: rest => if k = key then some v else get? key rest

/-- Sets the value at a name, which keeps its place if it has one. -/
def insert (key : String) (value : α) : Keyed α → Keyed α
  | [] => [(key, value)]
  | (k, v) :: rest =>
    if key < k then (key, value) :: (k, v) :: rest
    else if key = k then (key, value) :: rest
    else (k, v) :: insert key value rest

def erase (key : String) (entries : Keyed α) : Keyed α := entries.filter (·.1 ≠ key)

def contains (key : String) (entries : Keyed α) : Bool := (get? key entries).isSome

def names (entries : Keyed α) : List String := entries.map (·.1)

/-- The map of the given entries, the last of one name counting. -/
def ofList (entries : List (String × α)) : Keyed α :=
  entries.foldl (fun map entry => insert entry.1 entry.2 map) []

/-- Names in increasing order without repetition. -/
def sortedNames (names : List String) : List String :=
  Keyed.names (ofList (names.map fun name => (name, ())))

@[simp] theorem get?_insert_self (key : String) (value : α) (entries : Keyed α) :
    get? key (insert key value entries) = some value := by
  induction entries with
  | nil => simp [insert, get?]
  | cons e rest ih =>
    obtain ⟨k, v⟩ := e
    rw [insert]
    split
    · simp [get?]
    · split
      · simp [get?]
      · rename_i hne
        rw [get?, if_neg (fun h => hne h.symm), ih]

theorem get?_insert_of_ne {key other : String} (h : other ≠ key) (value : α)
    (entries : Keyed α) : get? other (insert key value entries) = get? other entries := by
  induction entries with
  | nil => simp [insert, get?, h.symm]
  | cons e rest ih =>
    obtain ⟨k, v⟩ := e
    rw [insert]
    split
    · simp [get?, h.symm]
    · split
      · rename_i heq
        subst heq
        simp [get?, h.symm]
      · simp [get?, ih]

/-- Of two insertions at one name the second counts. -/
theorem insert_insert (key : String) (first second : α) (entries : Keyed α) :
    insert key second (insert key first entries) = insert key second entries := by
  induction entries with
  | nil => simp [insert]
  | cons e rest ih =>
    obtain ⟨k, v⟩ := e
    by_cases hlt : key < k
    · simp [insert, hlt]
    · by_cases heq : key = k
      · simp [insert, heq]
      · simp [insert, hlt, heq, ih]

theorem mem_names_insert {key other : String} {value : α} {entries : Keyed α} :
    other ∈ names (insert key value entries) ↔ other = key ∨ other ∈ names entries := by
  induction entries with
  | nil => simp [insert, names]
  | cons e rest ih =>
    obtain ⟨k, v⟩ := e
    rw [insert]
    split
    · simp [names]
    · split
      · rename_i heq
        subst heq
        simp [names]
      · simp only [names, List.map_cons, List.mem_cons] at ih ⊢
        rw [ih]
        exact or_left_comm

theorem mem_names_ofList {key : String} {entries : List (String × α)} :
    key ∈ names (ofList entries) ↔ key ∈ entries.map (·.1) := by
  have hfold (map : Keyed α) : key ∈ names (entries.foldl (fun map e => insert e.1 e.2 map) map) ↔
      key ∈ names map ∨ key ∈ entries.map (·.1) := by
    induction entries generalizing map with
    | nil => simp
    | cons e rest ih =>
      simp only [List.foldl_cons, ih, mem_names_insert, List.map_cons, List.mem_cons]
      rw [or_comm (a := key = e.1), or_assoc]
  simpa [ofList, names] using hfold []

theorem mem_of_mem_insert {key : String} {value : α} {entries : Keyed α} {e : String × α}
    (h : e ∈ insert key value entries) : e = (key, value) ∨ e ∈ entries := by
  induction entries with
  | nil => exact .inl (List.mem_singleton.mp h)
  | cons other rest ih =>
    rw [insert] at h
    split at h
    · exact List.mem_cons.mp h
    · split at h
      · exact (List.mem_cons.mp h).imp_right (List.mem_cons_of_mem other)
      · rcases List.mem_cons.mp h with rfl | h
        · exact .inr List.mem_cons_self
        · exact (ih h).imp_right (List.mem_cons_of_mem other)

/-- A map has no entries but those that it is made of. -/
theorem mem_of_mem_ofList {entries : List (String × α)} {e : String × α} :
    e ∈ ofList entries → e ∈ entries := by
  have hfold (map : Keyed α) (h : e ∈ entries.foldl (fun map e => insert e.1 e.2 map) map) :
      e ∈ map ∨ e ∈ entries := by
    induction entries generalizing map with
    | nil => exact .inl h
    | cons first rest ih =>
      rcases ih _ h with h | h
      · exact (mem_of_mem_insert h).elim (fun h => .inr (h ▸ List.mem_cons_self)) .inl
      · exact .inr (List.mem_cons_of_mem first h)
  exact fun h => (hfold [] h).resolve_left List.not_mem_nil

/-- The names are in increasing order, and none comes twice. -/
def IsSorted (entries : Keyed α) : Prop := entries.Pairwise fun e other => e.1 < other.1

instance instDecidableIsSorted (entries : Keyed α) : Decidable (IsSorted entries) :=
  inferInstanceAs (Decidable (List.Pairwise _ entries))

theorem isSorted_iff_names {entries : Keyed α} :
    IsSorted entries ↔ (names entries).Pairwise (· < ·) := List.pairwise_map.symm

theorem isSorted_insert {key : String} {value : α} {entries : Keyed α} (h : IsSorted entries) :
    IsSorted (insert key value entries) := by
  induction entries with
  | nil => exact List.pairwise_singleton _ _
  | cons e rest ih =>
    obtain ⟨k, v⟩ := e
    obtain ⟨hk, hrest⟩ := List.pairwise_cons.mp h
    rw [insert]
    split
    · rename_i hlt
      refine List.pairwise_cons.mpr ⟨fun other ho => ?_, h⟩
      rcases List.mem_cons.mp ho with rfl | ho
      · exact hlt
      · exact String.lt_trans hlt (hk other ho)
    · split
      · rename_i heq
        subst heq
        exact List.pairwise_cons.mpr ⟨hk, hrest⟩
      · rename_i hlt hne
        have hgt : k < key := by
          rw [← String.not_le]
          exact fun hle => hne (String.le_antisymm hle (String.not_lt.mp hlt))
        refine List.pairwise_cons.mpr ⟨fun other ho => ?_, ih hrest⟩
        rcases mem_of_mem_insert ho with rfl | ho
        · exact hgt
        · exact hk other ho

theorem isSorted_ofList (entries : List (String × α)) : IsSorted (ofList entries) := by
  have hfold (map : Keyed α) (h : IsSorted map) :
      IsSorted (entries.foldl (fun map e => insert e.1 e.2 map) map) := by
    induction entries generalizing map with
    | nil => exact h
    | cons e rest ih => exact ih _ (isSorted_insert h)
  exact hfold [] .nil

theorem mem_of_get? {key : String} {value : α} {entries : Keyed α}
    (h : get? key entries = some value) : (key, value) ∈ entries := by
  induction entries with
  | nil => cases h
  | cons e rest ih =>
    obtain ⟨k, v⟩ := e
    rw [get?] at h
    split at h
    · rename_i heq
      rw [← heq, ← Option.some.inj h]
      exact List.mem_cons_self
    · exact List.mem_cons_of_mem _ (ih h)

/-- A value for a name that has that value already changes nothing. -/
theorem insert_of_get? {key : String} {value : α} {entries : Keyed α} (hs : IsSorted entries)
    (h : get? key entries = some value) : insert key value entries = entries := by
  induction entries with
  | nil => cases h
  | cons e rest ih =>
    obtain ⟨k, v⟩ := e
    obtain ⟨hk, hrest⟩ := List.pairwise_cons.mp hs
    rw [get?] at h
    split at h
    · rename_i heq
      rw [insert, if_neg (fun hlt => String.lt_irrefl k (by rwa [← heq] at hlt)), if_pos heq.symm,
        ← heq, ← Option.some.inj h]
    · rename_i hne
      have hlt : k < key := hk _ (mem_of_get? h)
      rw [insert, if_neg (String.lt_asymm hlt), if_neg (Ne.symm hne), ih hrest h]

/-- A greater name comes to stand at the end. -/
theorem insert_of_lt {key : String} {value : α} {entries : Keyed α}
    (h : ∀ e ∈ entries, e.1 < key) : insert key value entries = entries ++ [(key, value)] := by
  induction entries with
  | nil => rfl
  | cons e rest ih =>
    obtain ⟨k, v⟩ := e
    obtain ⟨hk, hrest⟩ := List.forall_mem_cons.mp h
    rw [insert, if_neg (String.lt_asymm hk), if_neg (Ne.symm (String.ne_of_lt hk)), ih hrest,
      List.cons_append]

/-- Sorted entries are the map that is made of them. -/
theorem ofList_eq_self {entries : Keyed α} : IsSorted entries → ofList entries = entries := by
  have hfold (map : Keyed α) (h : IsSorted (map ++ entries)) :
      entries.foldl (fun map e => insert e.1 e.2 map) map = map ++ entries := by
    induction entries generalizing map with
    | nil => exact (List.append_nil map).symm
    | cons e rest ih =>
      have hlt : ∀ other ∈ map, other.1 < e.1 := fun other ho =>
        (List.pairwise_append.mp h).2.2 other ho e List.mem_cons_self
      rw [List.append_cons] at h
      rw [List.foldl_cons, insert_of_lt hlt, ih _ h, List.append_assoc, List.singleton_append]
  exact hfold []

/-- Sorting names loses none, and adds none. -/
theorem mem_sortedNames {name : String} {names : List String} :
    name ∈ sortedNames names ↔ name ∈ names := by
  simp [sortedNames, mem_names_ofList]

end Keyed

end Bylaw
