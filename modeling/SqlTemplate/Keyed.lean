/-!
# Ordered maps

Entries in the order in which their keys first came.
-/

namespace SqlTemplate.Keyed

variable {α : Type}

/-- Gives a key its value. A new key goes to the end, a known one keeps its place. -/
def put (key : String) (value : α) : List (String × α) → List (String × α)
  | [] => [(key, value)]
  | entry :: rest =>
    if entry.1 = key then (key, value) :: rest else entry :: put key value rest

def ofList (entries : List (String × α)) : List (String × α) :=
  entries.foldl (fun map entry => put entry.1 entry.2 map) []

def keys (map : List (String × α)) : List String := map.map (·.1)

theorem mem_keys_put (key other : String) (value : α) (map : List (String × α)) :
    other ∈ keys (put key value map) ↔ other = key ∨ other ∈ keys map := by
  induction map with
  | nil => simp [put, keys]
  | cons entry rest ih =>
    simp only [keys] at ih
    by_cases same : entry.1 = key
    · simp [put, keys, same]
    · simp only [put, same, keys, if_false, List.map_cons, List.mem_cons, ih]
      exact or_left_comm

theorem nodup_keys_put (key : String) (value : α) (map : List (String × α))
    (distinct : (keys map).Nodup) : (keys (put key value map)).Nodup := by
  induction map with
  | nil => simp [put, keys]
  | cons entry rest ih =>
    simp only [keys, List.map_cons, List.nodup_cons] at distinct
    by_cases same : entry.1 = key
    · simpa [put, keys, same] using distinct
    · have outside := mem_keys_put key entry.1 value rest
      simp only [keys] at outside ih
      simp only [put, same, keys, if_false, List.map_cons, List.nodup_cons, outside]
      exact ⟨by simp [distinct.1], ih distinct.2⟩

/-- An entry comes from the map or is the new one. -/
theorem mem_put {key : String} {value : α} {map : List (String × α)} {entry : String × α}
    (member : entry ∈ put key value map) : entry = (key, value) ∨ entry ∈ map := by
  induction map with
  | nil => exact .inl (List.mem_singleton.mp member)
  | cons first rest ih =>
    rw [put] at member
    split at member
    · exact (List.mem_cons.mp member).imp_right (List.mem_cons_of_mem _)
    · rcases List.mem_cons.mp member with rfl | later
      · exact .inr List.mem_cons_self
      · exact (ih later).imp_right (List.mem_cons_of_mem _)

/-! ### Maps from lists of entries -/

theorem nodup_keys_foldl_put (entries map : List (String × α)) (distinct : (keys map).Nodup) :
    (keys (entries.foldl (fun map entry => put entry.1 entry.2 map) map)).Nodup := by
  induction entries generalizing map with
  | nil => exact distinct
  | cons entry rest ih => exact ih _ (nodup_keys_put entry.1 entry.2 map distinct)

/-- Whatever the keys of the entries, those of the map are distinct. -/
theorem nodup_keys_ofList (entries : List (String × α)) : (keys (ofList entries)).Nodup :=
  nodup_keys_foldl_put entries [] List.nodup_nil

theorem mem_foldl_put {entries map : List (String × α)} {entry : String × α}
    (member : entry ∈ entries.foldl (fun map entry => put entry.1 entry.2 map) map) :
    entry ∈ entries ∨ entry ∈ map := by
  induction entries generalizing map with
  | nil => exact .inr member
  | cons first rest ih =>
    rcases ih member with later | known
    · exact .inl (List.mem_cons_of_mem _ later)
    · rcases mem_put known with rfl | known
      · exact .inl List.mem_cons_self
      · exact .inr known

/-- The map has no other entries than those it was made of. -/
theorem mem_of_mem_ofList {entries : List (String × α)} {entry : String × α}
    (member : entry ∈ ofList entries) : entry ∈ entries :=
  (mem_foldl_put member).resolve_right List.not_mem_nil

end SqlTemplate.Keyed
