namespace TreeLowering.Keyed

variable {α : Type}

def lookup? (key : String) (pairs : List (String × α)) : Option α :=
  (pairs.find? fun p => p.1 == key).map (·.2)

-- Puts a value under a key: one that is there keeps its place, a new one goes to the end.
def insert (key : String) (value : α) : List (String × α) → List (String × α)
  | [] => [(key, value)]
  | (k, v) :: rest => if k = key then (key, value) :: rest else (k, v) :: insert key value rest

theorem lookup?_insert (key other : String) (value : α) (pairs : List (String × α)) :
    lookup? other (insert key value pairs) =
      if key = other then some value else lookup? other pairs := by
  induction pairs with
  | nil => by_cases h : key = other <;> simp [insert, lookup?, h]
  | cons p rest ih =>
    obtain ⟨k, v⟩ := p
    unfold lookup? at ih
    unfold insert
    split
    · next same =>
      subst same
      by_cases h : k = other <;> simp [lookup?, h]
    · next differs =>
      by_cases h : k = other
      · subst h
        have other : ¬ key = k := fun e => differs e.symm
        simp [lookup?, other]
      · simp [lookup?, h, ih]

theorem mem_insert {key : String} {value : α} {pairs : List (String × α)} {p : String × α}
    (member : p ∈ insert key value pairs) : p = (key, value) ∨ p ∈ pairs := by
  induction pairs with
  | nil => exact .inl (List.mem_singleton.mp member)
  | cons first rest ih =>
    obtain ⟨k, v⟩ := first
    unfold insert at member
    split at member
    · rcases List.mem_cons.mp member with here | later
      · exact .inl here
      · exact .inr (List.mem_cons_of_mem _ later)
    · rcases List.mem_cons.mp member with here | later
      · exact .inr (here ▸ List.mem_cons_self ..)
      · exact (ih later).imp_right (List.mem_cons_of_mem _)

end TreeLowering.Keyed
