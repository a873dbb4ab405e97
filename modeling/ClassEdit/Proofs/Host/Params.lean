import ClassEdit.Host.Params

/-!
Looking up names in maps that were built from lists. As long as a list has no name twice, the
map answers with what stands in the list, and leaving entries out of the list is the same as
leaving out their values.
-/

namespace ClassEdit

section Entries

variable {α : Type} {l : List (String × α)}

theorem find?_eq_none_of_not_mem {name : String} (h : name ∉ l.map (·.1)) :
    l.find? (·.1 == name) = none := by
  rw [List.find?_eq_none]
  intro e he hname
  exact h (List.mem_map.2 ⟨e, he, beq_iff_eq.1 hname⟩)

/-- Where no name comes twice, an entry that is left out has no other one behind it. -/
theorem find?_filter_of_nodup (h : (l.map (·.1)).Nodup) (keep : α → Bool) (name : String) :
    ((l.filter fun e => keep e.2).find? (·.1 == name)).map (·.2) =
      ((l.find? (·.1 == name)).map (·.2)).filter keep := by
  induction l with
  | nil => rfl
  | cons e l ih =>
    rw [List.map_cons, List.nodup_cons] at h
    by_cases hname : e.1 = name
    · have hrest : (l.filter fun e => keep e.2).find? (·.1 == name) = none :=
        find?_eq_none_of_not_mem fun hmem => h.1 (hname ▸ (List.filter_sublist.map _).subset hmem)
      cases hkeep : keep e.2 <;> simp [hname, hkeep, hrest, Option.filter]
    · have hother : (e.1 == name) = false := by simpa using hname
      cases hkeep : keep e.2 <;>
        simp only [List.filter_cons, hkeep, if_true, Bool.false_eq_true, if_false,
        List.find?_cons, hother, ih h.2]

end Entries

namespace NameMap

variable {α : Type}

theorem names_nodup (m : NameMap α) : m.names.Nodup := by
  have hnames : m.names.Pairwise (· < ·) := List.pairwise_map.2 m.increasing
  refine hnames.imp ?_
  rintro a _ hlt rfl
  exact String.lt_irrefl a hlt

theorem get?_foldl_insert {l : List (String × α)} (h : (l.map (·.1)).Nodup)
    (m : NameMap α) (name : String) :
    (l.foldl (fun m e => m.insert e.1 e.2) m).get? name =
      ((l.find? (·.1 == name)).map (·.2)).or (m.get? name) := by
  induction l generalizing m with
  | nil => rfl
  | cons e l ih =>
    rw [List.map_cons, List.nodup_cons] at h
    rw [List.foldl_cons, ih h.2, get?_insert]
    by_cases hname : e.1 = name
    · simp [hname, find?_eq_none_of_not_mem (hname ▸ h.1)]
    · simp [hname]

/-- A map that was built from entries of distinct names holds these entries. -/
theorem get?_ofList {l : List (String × α)} (h : (l.map (·.1)).Nodup) (name : String) :
    (ofList l).get? name = (l.find? (·.1 == name)).map (·.2) := by
  rw [ofList, get?_foldl_insert h, get?_empty, Option.or_none]

end NameMap

namespace Params

theorem get?_withoutNulls (p : Params) (name : String) :
    p.withoutNulls.get? name = (p.get? name).filter (!·.isNull) := by
  have hnames : (p.entries.map (·.1)).Nodup := p.names_nodup
  rw [withoutNulls, NameMap.get?_ofList (hnames.sublist (List.filter_sublist.map _))]
  exact find?_filter_of_nodup hnames (!·.isNull) name

end Params

end ClassEdit
