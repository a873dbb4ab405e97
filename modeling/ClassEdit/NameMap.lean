/-!
Maps from names, listed by increasing name. Names compare by code point, which for UTF-8 is
also the order of their bytes. Main statements: what `insert` and `get?` do to each other,
and the order of `names`.
-/

namespace ClassEdit

/-- Finitely many entries, at most one for a name. -/
structure NameMap (α : Type) where
  entries : List (String × α)
  increasing : entries.Pairwise fun a b => a.1 < b.1

namespace NameMap

variable {α : Type}

def empty : NameMap α := ⟨[], .nil⟩

instance : EmptyCollection (NameMap α) := ⟨empty⟩

instance : Inhabited (NameMap α) := ⟨empty⟩

/-- Puts an entry in its place, over an entry of the same name. -/
def insertEntry (name : String) (x : α) : List (String × α) → List (String × α)
  | [] => [(name, x)]
  | (n, y) :: r =>
    if name = n then (name, x) :: r
    else if name < n then (name, x) :: (n, y) :: r
    else (n, y) :: insertEntry name x r

/-- An entry behind an insertion is the new one or was there before. -/
theorem mem_insertEntry {name : String} {x : α} {l : List (String × α)} {e : String × α}
    (h : e ∈ insertEntry name x l) : e = (name, x) ∨ e ∈ l := by
  induction l with
  | nil => simpa [insertEntry] using h
  | cons p r ih =>
    obtain ⟨n, y⟩ := p
    unfold insertEntry at h
    split at h
    · rcases List.mem_cons.1 h with h | h
      · exact .inl h
      · exact .inr (List.mem_cons_of_mem _ h)
    · split at h
      · exact List.mem_cons.1 h
      · rcases List.mem_cons.1 h with h | h
        · exact .inr (h ▸ List.mem_cons_self)
        · exact (ih h).imp id (List.mem_cons_of_mem _)

theorem lt_of_not_lt {a b : String} (h : ¬a < b) (hne : a ≠ b) : b < a := by
  rw [String.not_lt] at h
  rw [← String.not_le]
  exact fun h' => hne (String.le_antisymm h' h)

/-- The names stay in order, so that a map is still one after an insertion. -/
theorem insertEntry_increasing (name : String) (x : α) {l : List (String × α)}
    (h : l.Pairwise fun a b => a.1 < b.1) :
    (insertEntry name x l).Pairwise fun a b => a.1 < b.1 := by
  induction l with
  | nil => exact .cons (by simp) .nil
  | cons p r ih =>
    obtain ⟨n, y⟩ := p
    obtain ⟨hn, hr⟩ := List.pairwise_cons.1 h
    unfold insertEntry
    split
    next e => exact e ▸ List.pairwise_cons.2 ⟨hn, hr⟩
    next hne =>
      split
      next hlt =>
        refine List.pairwise_cons.2 ⟨fun e he => ?_, h⟩
        rcases List.mem_cons.1 he with rfl | he
        · exact hlt
        · exact String.lt_trans hlt (hn e he)
      next hlt =>
        refine List.pairwise_cons.2 ⟨fun e he => ?_, ih hr⟩
        rcases mem_insertEntry he with rfl | he
        · exact lt_of_not_lt hlt hne
        · exact hn e he

def insert (m : NameMap α) (name : String) (x : α) : NameMap α :=
  ⟨insertEntry name x m.entries, insertEntry_increasing name x m.increasing⟩

/-- The first entry of the name, which is the only one. -/
def get? (m : NameMap α) (name : String) : Option α :=
  (m.entries.find? (·.1 == name)).map (·.2)

def contains (m : NameMap α) (name : String) : Bool :=
  m.entries.any (·.1 == name)

def names (m : NameMap α) : List String :=
  m.entries.map (·.1)

def size (m : NameMap α) : Nat :=
  m.entries.length

/-- Later entries of a list win over earlier ones of the same name. -/
def ofList (l : List (String × α)) : NameMap α :=
  l.foldl (fun m e => m.insert e.1 e.2) empty

/-- Under its own name the new value is found, and under any other what was there before. -/
theorem find?_insertEntry (name other : String) (x : α) (l : List (String × α)) :
    ((insertEntry name x l).find? (·.1 == other)).map (·.2) =
      if name = other then some x else (l.find? (·.1 == other)).map (·.2) := by
  induction l with
  | nil => by_cases h : name = other <;> simp [insertEntry, h]
  | cons p r ih =>
    obtain ⟨n, y⟩ := p
    unfold insertEntry
    by_cases h : name = other
    · subst h
      by_cases hn : name = n
      · simp [hn]
      · by_cases hlt : name < n
        · simp [hn, hlt]
        · simpa [hn, hlt, Ne.symm hn, List.find?_cons] using ih
    · by_cases hn : name = n
      · subst hn; simp [h]
      · by_cases hlt : name < n
        · simp [hn, hlt, h, List.find?_cons]
        · by_cases ho : n = other
          · subst ho; simp [hn, hlt]
          · simpa [hn, hlt, h, ho, List.find?_cons] using ih

theorem get?_insert (m : NameMap α) (name other : String) (x : α) :
    (m.insert name x).get? other = if name = other then some x else m.get? other :=
  find?_insertEntry name other x m.entries

theorem get?_empty (name : String) : (empty : NameMap α).get? name = none := rfl

end NameMap

end ClassEdit
