/-!
# Tables

Name-indexed tables that keep the order in which names were first given. Giving a name again
replaces its entry in place. The main facts say what insertion does to the names and to each
look-up.
-/

namespace TypeLattice

variable {α β : Type}

/-- Gives `k` the value `v`: in place of an earlier entry for `k`, otherwise at the end. -/
def put (k : String) (v : α) : List (String × α) → List (String × α)
  | [] => [(k, v)]
  | e :: es => if e.1 = k then (k, v) :: es else e :: put k v es

/-- The first value given to `k`. -/
def find? (k : String) : List (String × α) → Option α
  | [] => none
  | e :: es => if e.1 = k then some e.2 else find? k es

theorem find?_put (k j : String) (v : α) (es : List (String × α)) :
    find? j (put k v es) = if k = j then some v else find? j es := by
  induction es with
  | nil => simp [put, find?]
  | cons e es ih =>
    by_cases hk : e.1 = k
    · by_cases hj : k = j <;> simp [put, find?, hk, hj]
    · simp only [put, hk, if_false, find?, ih]
      by_cases hj : e.1 = j
      · have : ¬ k = j := fun h => hk (hj.trans h.symm)
        simp [hj, this]
      · simp [hj]

theorem mem_keys_put {k j : String} {v : α} {es : List (String × α)} :
    j ∈ (put k v es).map (·.1) ↔ j = k ∨ j ∈ es.map (·.1) := by
  induction es with
  | nil => simp [put]
  | cons e es ih =>
    by_cases hk : e.1 = k
    · simp [put, hk]
    · simp only [put, hk, if_false, List.map_cons, List.mem_cons, ih]
      exact or_left_comm

theorem mem_of_mem_put {k : String} {v : α} {es : List (String × α)} {e : String × α}
    (h : e ∈ put k v es) : e = (k, v) ∨ e ∈ es := by
  induction es with
  | nil => exact .inl (by simpa [put] using h)
  | cons d es ih =>
    by_cases hk : d.1 = k
    · simp only [put, hk, if_true, List.mem_cons] at h
      exact h.imp_right (List.mem_cons_of_mem d)
    · simp only [put, hk, if_false, List.mem_cons] at h
      rcases h with rfl | h
      · exact .inr List.mem_cons_self
      · exact (ih h).imp_right (List.mem_cons_of_mem d)

theorem nodup_keys_put {k : String} {v : α} {es : List (String × α)}
    (h : (es.map (·.1)).Nodup) : ((put k v es).map (·.1)).Nodup := by
  induction es with
  | nil => simp [put]
  | cons e es ih =>
    have ⟨hnot, hrest⟩ := List.nodup_cons.1 h
    by_cases hk : e.1 = k
    · simpa only [put, hk, if_true, List.map_cons] using
        List.nodup_cons.2 ⟨hk ▸ hnot, hrest⟩
    · simp only [put, if_neg hk, List.map_cons]
      exact List.nodup_cons.2 ⟨fun hmem => (mem_keys_put.1 hmem).elim hk hnot, ih hrest⟩

theorem keys_put_of_mem {k : String} {v : α} {es : List (String × α)}
    (h : k ∈ es.map (·.1)) : (put k v es).map (·.1) = es.map (·.1) := by
  induction es with
  | nil => simp at h
  | cons e es ih =>
    by_cases hk : e.1 = k
    · simp [put, hk]
    · have : k ∈ es.map (·.1) := by simpa [Ne.symm hk] using h
      simp only [put, hk, if_false, List.map_cons, ih this]

theorem put_of_not_mem {k : String} {v : α} {es : List (String × α)}
    (h : k ∉ es.map (·.1)) : put k v es = es ++ [(k, v)] := by
  induction es with
  | nil => simp [put]
  | cons e es ih =>
    simp only [List.map_cons, List.mem_cons, not_or] at h
    simp [put, Ne.symm h.1, ih h.2]

theorem foldl_put (es fs : List (String × α)) (hn : (es.map (·.1)).Nodup)
    (hd : ∀ e ∈ es, e.1 ∉ fs.map (·.1)) :
    es.foldl (fun fs e => put e.1 e.2 fs) fs = fs ++ es := by
  induction es generalizing fs with
  | nil => simp
  | cons e es ih =>
    obtain ⟨hnot, hn⟩ := List.nodup_cons.1 hn
    have hput : put e.1 e.2 fs = fs ++ [e] := put_of_not_mem (hd e List.mem_cons_self)
    rw [List.foldl_cons, hput, ih _ hn]
    · simp
    · intro d hmem hkey
      rw [List.map_append, List.mem_append] at hkey
      rcases hkey with hkey | hkey
      · exact hd d (List.mem_cons_of_mem _ hmem) hkey
      · have he : d.1 = e.1 := by simpa using hkey
        exact hnot (List.mem_map.2 ⟨d, hmem, he⟩)

/-- A table: each name has one entry, and the entries stand in the order of first insertion. -/
structure Table (α : Type) where
  entries : List (String × α)
  nodup : (entries.map (·.1)).Nodup := by simp

namespace Table

def empty : Table α := { entries := [] }

instance : Inhabited (Table α) := ⟨empty⟩

def insert (t : Table α) (k : String) (v : α) : Table α where
  entries := put k v t.entries
  nodup := nodup_keys_put t.nodup

/-- Later entries for a name replace earlier ones. -/
def ofList (es : List (String × α)) : Table α :=
  es.foldl (fun t e => t.insert e.1 e.2) empty

def get? (t : Table α) (k : String) : Option α := find? k t.entries

def contains (t : Table α) (k : String) : Bool := (t.get? k).isSome

def keys (t : Table α) : List String := t.entries.map (·.1)

def values (t : Table α) : List α := t.entries.map (·.2)

def size (t : Table α) : Nat := t.entries.length

def isEmpty (t : Table α) : Bool := t.entries.isEmpty

/-- The same names in the same order, with `f` applied to each entry. -/
def map (f : String → α → β) (t : Table α) : Table β where
  entries := t.entries.map fun e => (e.1, f e.1 e.2)
  nodup := by simpa [List.map_map, Function.comp_def] using t.nodup

def erase (t : Table α) (k : String) : Table α where
  entries := t.entries.filter (·.1 ≠ k)
  nodup := t.nodup.sublist (List.filter_sublist.map _)

@[simp] theorem entries_empty : (empty : Table α).entries = [] := rfl

@[simp] theorem entries_insert (t : Table α) (k : String) (v : α) :
    (t.insert k v).entries = put k v t.entries := rfl

@[simp] theorem get?_empty (k : String) : (empty : Table α).get? k = none := rfl

theorem get?_insert (t : Table α) (k j : String) (v : α) :
    (t.insert k v).get? j = if k = j then some v else t.get? j :=
  find?_put k j v t.entries

theorem get?_map (t : Table α) (f : String → α → β) (k : String) :
    (t.map f).get? k = (t.get? k).map (f k) := by
  simp only [get?, map]
  induction t.entries with
  | nil => rfl
  | cons e es ih =>
    by_cases hk : e.1 = k
    · simp [find?, hk]
    · simpa [find?, hk] using ih

theorem entries_foldl_insert (es : List (String × α)) (t : Table α) :
    (es.foldl (fun t e => t.insert e.1 e.2) t).entries =
      es.foldl (fun fs e => put e.1 e.2 fs) t.entries := by
  induction es generalizing t with
  | nil => rfl
  | cons e es ih => rw [List.foldl_cons, ih, entries_insert, List.foldl_cons]

theorem entries_ofList {es : List (String × α)} (hn : (es.map (·.1)).Nodup) :
    (ofList es).entries = es := by
  rw [ofList, entries_foldl_insert, foldl_put es _ hn (by simp)]
  rfl

theorem mem_of_mem_ofList {es : List (String × α)} {e : String × α}
    (h : e ∈ (ofList es).entries) : e ∈ es := by
  have key : ∀ fs : List (String × α), e ∈ es.foldl (fun fs d => put d.1 d.2 fs) fs →
      e ∈ fs ∨ e ∈ es := by
    clear h
    induction es with
    | nil => exact fun _ h => .inl h
    | cons d es ih =>
      intro fs h
      rcases ih _ h with h | h
      · rcases mem_of_mem_put h with rfl | h
        · exact .inr List.mem_cons_self
        · exact .inl h
      · exact .inr (List.mem_cons_of_mem d h)
  rw [ofList, entries_foldl_insert] at h
  simpa using key _ h

end Table
end TypeLattice
