import Mathlib.Data.List.Nodup
import ClassEdit.Proofs.Host.Params
import ClassEdit.Proofs.Text.ByteOrder

/-!
Maps of host values beside maps of parameters. A host map is a list that is searched from its front,
with its entries in the order in which their keys first came; parameters stand in the order of their
names. Both answer alike because no key comes twice, which every write keeps. Main statement: what
is left of a sequence of writes, that both kinds of map answer with it, and that parameters are not
changed by being made a host map and read back.
-/

namespace ClassEdit

/-- Where no key comes twice, what is found under a key is what stands there. -/
theorem find?_eq_some_iff_mem {α β : Type} [BEq α] [LawfulBEq α] {l : List (α × β)} {k : α} {x : β}
    (h : (l.map (·.1)).Nodup) : (l.find? (·.1 == k)).map (·.2) = some x ↔ (k, x) ∈ l := by
  induction l with
  | nil => simp
  | cons e l ih =>
    obtain ⟨k', y⟩ := e
    rw [List.map_cons, List.nodup_cons] at h
    rw [List.find?_cons, List.mem_cons]
    by_cases hk : k' = k
    · subst hk
      have hnot : (k', x) ∉ l := fun hmem => h.1 (List.mem_map_of_mem (f := (·.1)) hmem)
      simp [hnot, eq_comm]
    · have hother : (k' == k) = false := beq_eq_false_iff_ne.2 hk
      have hrest := ih h.2
      simp only [hother, Prod.mk.injEq, Ne.symm hk, false_and, false_or]
      exact hrest

namespace Value

variable {entries writes : List (Key × Value)} {key k : Key} {x y : Value}

/-- The map that was empty before entries were written to it, one after another. -/
def written (writes : List (Key × Value)) : Value :=
  writes.foldl (fun v e => v.withEntry e.1 e.2) (map [])

/-- The value was written under the key, and none was later. -/
def LastWrite (writes : List (Key × Value)) (key : Key) (x : Value) : Prop :=
  ∃ before behind, writes = before ++ (key, x) :: behind ∧ key ∉ behind.map (·.1)

/-- The entries are what is left of the writes. -/
structure Keeps (entries writes : List (Key × Value)) : Prop where
  distinct : (entries.map (·.1)).Nodup
  /-- The keys stand in the order in which they were first written. -/
  ordered : (entries.map (·.1)).Pairwise fun k k' => (writes.map (·.1)).idxOf k <
    (writes.map (·.1)).idxOf k'
  last : ∀ key x, (key, x) ∈ entries ↔ LastWrite writes key x

section Writes

theorem LastWrite.mem (h : LastWrite writes key x) : key ∈ writes.map (·.1) := by
  obtain ⟨before, behind, rfl, -⟩ := h
  simp

/-- Under each key that was written there is a last write. -/
theorem exists_lastWrite (h : key ∈ writes.map (·.1)) : ∃ x, LastWrite writes key x := by
  induction writes with
  | nil => cases h
  | cons e writes ih =>
    by_cases hrest : key ∈ writes.map (·.1)
    · obtain ⟨x, before, behind, rfl, hlast⟩ := ih hrest
      exact ⟨x, e :: before, behind, rfl, hlast⟩
    · rcases List.mem_cons.1 h with rfl | h
      · exact ⟨e.2, [], writes, rfl, hrest⟩
      · exact absurd h hrest

/-- One more write is the last one under its key and changes no other key. -/
theorem lastWrite_append_singleton :
    LastWrite (writes ++ [(key, x)]) k y ↔ if k = key then y = x else LastWrite writes k y := by
  constructor
  · rintro ⟨before, behind, hwrites, hlast⟩
    rcases List.eq_nil_or_concat behind with rfl | ⟨behind, e, rfl⟩
    · obtain ⟨-, he⟩ := List.append_inj' hwrites rfl
      cases he
      rw [if_pos rfl]
    · rw [List.concat_eq_append] at hwrites hlast
      rw [← List.cons_append, ← List.append_assoc] at hwrites
      obtain ⟨rfl, he⟩ := List.append_inj' hwrites rfl
      cases he
      rw [List.map_append, List.mem_append, not_or] at hlast
      have hne : k ≠ key := by simpa using hlast.2
      rw [if_neg hne]
      exact ⟨before, behind, rfl, hlast.1⟩
  · intro h
    split at h
    next hk =>
      subst hk h
      exact ⟨writes, [], rfl, List.not_mem_nil⟩
    next hk =>
      obtain ⟨before, behind, rfl, hlast⟩ := h
      refine ⟨before, behind ++ [(key, x)], by simp, ?_⟩
      simpa [hk] using hlast

end Writes

section Entries

/-- A key that is new comes last, and one that is there keeps its place. -/
theorem keys_putEntry (key : Key) (x : Value) (entries : List (Key × Value)) :
    (putEntry key x entries).map (·.1) =
    if key ∈ entries.map (·.1) then entries.map (·.1) else entries.map (·.1) ++ [key] := by
  induction entries with
  | nil => rfl
  | cons e entries ih =>
    obtain ⟨k, y⟩ := e
    by_cases hk : k = key
    · simp [putEntry, hk]
    · rw [putEntry, if_neg hk, List.map_cons, ih]
      simp only [List.map_cons, List.mem_cons, Ne.symm hk, false_or]
      split <;> rfl

/-- Under its own key stands the new value, and under any other what was there before. -/
theorem mem_putEntry (h : (entries.map (·.1)).Nodup) :
    (k, y) ∈ putEntry key x entries ↔ if k = key then y = x else (k, y) ∈ entries := by
  induction entries with
  | nil =>
    simp only [putEntry, List.mem_singleton, Prod.mk.injEq, List.not_mem_nil]
    split <;> simp_all
  | cons e entries ih =>
    obtain ⟨k', y'⟩ := e
    rw [List.map_cons, List.nodup_cons] at h
    rw [putEntry]
    by_cases hk' : k' = key
    · subst hk'
      rw [if_pos rfl, List.mem_cons, Prod.mk.injEq]
      split
      next hk =>
        subst hk
        have hnot : (k, y) ∉ entries := fun hmem => h.1 (List.mem_map_of_mem (f := (·.1)) hmem)
        simp [hnot]
      next hk => simp [hk]
    · rw [if_neg hk', List.mem_cons, ih h.2, List.mem_cons, Prod.mk.injEq]
      split
      next hk => simp [hk, Ne.symm hk']
      next hk => rfl

theorem Keeps.mem_keys_iff (h : Keeps entries writes) :
    key ∈ entries.map (·.1) ↔ key ∈ writes.map (·.1) := by
  constructor
  · intro hmem
    obtain ⟨⟨key, x⟩, hx, rfl⟩ := List.mem_map.1 hmem
    exact ((h.last key x).1 hx).mem
  · intro hmem
    obtain ⟨x, hx⟩ := exists_lastWrite hmem
    exact List.mem_map_of_mem (f := (·.1)) ((h.last key x).2 hx)

theorem keeps_nil : Keeps [] [] := by
  refine ⟨List.nodup_nil, List.Pairwise.nil, fun key x => ?_⟩
  simp [LastWrite]

/-- One more write keeps what is left of the writes before it. -/
theorem Keeps.putEntry (h : Keeps entries writes) (key : Key) (x : Value) :
    Keeps (putEntry key x entries) (writes ++ [(key, x)]) := by
  have hold {k : Key} (hk : k ∈ entries.map (·.1)) :
      ((writes ++ [(key, x)]).map (·.1)).idxOf k = (writes.map (·.1)).idxOf k := by
    rw [List.map_append, List.idxOf_append_of_mem (h.mem_keys_iff.1 hk)]
  have hordered : (entries.map (·.1)).Pairwise fun k k' =>
      ((writes ++ [(key, x)]).map (·.1)).idxOf k < ((writes ++ [(key, x)]).map (·.1)).idxOf k' := by
    refine List.Pairwise.imp_of_mem (fun hk hk' hlt => ?_) h.ordered
    rw [hold hk, hold hk']
    exact hlt
  refine ⟨?_, ?_, fun k y => ?_⟩
  · rw [keys_putEntry]
    split
    next => exact h.distinct
    next hkey => exact List.Nodup.append h.distinct (List.nodup_singleton key) (by simpa using hkey)
  · rw [keys_putEntry]
    split
    next => exact hordered
    next hkey =>
      refine List.pairwise_append.2 ⟨hordered, List.pairwise_singleton _ _, fun k hk k' hk' => ?_⟩
      -- a new key comes behind all writes before it
      obtain rfl := List.mem_singleton.1 hk'
      have hlast : (writes.map (·.1) ++ [k']).idxOf k' =
          (writes.map (·.1)).length + [k'].idxOf k' :=
        List.idxOf_append_of_notMem (mt h.mem_keys_iff.2 hkey)
      rw [hold hk, List.map_append, List.map_singleton, hlast]
      have hlt := List.idxOf_lt_length_of_mem (h.mem_keys_iff.1 hk)
      omega
  · rw [mem_putEntry h.distinct, lastWrite_append_singleton, h.last]

/-- What is left of writes, after more of them. -/
theorem Keeps.foldl (h : Keeps entries writes) (more : List (Key × Value)) :
    ∃ entries', more.foldl (fun v e => v.withEntry e.1 e.2) (map entries) = map entries' ∧
      Keeps entries' (writes ++ more) := by
  induction more generalizing entries writes with
  | nil => exact ⟨entries, rfl, by rwa [List.append_nil]⟩
  | cons e more ih =>
    obtain ⟨entries', hmap, hkeeps⟩ := ih (h.putEntry e.1 e.2)
    exact ⟨entries', hmap, by rwa [List.append_assoc, List.singleton_append] at hkeeps⟩

theorem keeps_written (writes : List (Key × Value)) :
    ∃ entries, written writes = map entries ∧ Keeps entries writes :=
  keeps_nil.foldl writes

theorem get?_map_eq_some (h : (entries.map (·.1)).Nodup) (name : String) :
    (map entries).get? name = some x ↔ (.string name, x) ∈ entries :=
  find?_eq_some_iff_mem h

end Entries

section Names

def namedEntries (entries : List (Key × Value)) : List (String × Value) :=
  entries.filterMap fun e => e.1.string?.map fun name => (name, e.2)

/-- The named entries are those under a string, and those under a number are left out. -/
theorem mem_namedEntries {name : String} :
    (name, x) ∈ namedEntries entries ↔ (.string name, x) ∈ entries := by
  rw [namedEntries, List.mem_filterMap]
  constructor
  · rintro ⟨⟨key, y⟩, hentry, he⟩
    cases key with
    | int n => cases he
    | string s =>
      cases he
      exact hentry
  · intro hentry
    exact ⟨_, hentry, rfl⟩

/-- No name comes twice among the named entries if no key does. -/
theorem nodup_namedEntries (h : (entries.map (·.1)).Nodup) :
    ((namedEntries entries).map (·.1)).Nodup := by
  have hnames : (namedEntries entries).map (·.1) = (entries.map (·.1)).filterMap Key.string? := by
    rw [namedEntries, List.map_filterMap, List.filterMap_map]
    congr 1
    funext ⟨key, x⟩
    cases key <;> rfl
  rw [hnames]
  refine List.Nodup.filterMap (fun key key' name hkey hkey' => ?_) h
  cases key with
  | int n => cases hkey
  | string s =>
    cases key' with
    | int n => cases hkey'
    | string s' =>
      cases hkey
      cases hkey'
      rfl

end Names

end Value

namespace NameMap

variable {α : Type}

/-- A name that is greater than all others comes last. -/
theorem insertEntry_of_lt {name : String} {x : α} {l : List (String × α)}
    (h : ∀ e ∈ l, e.1 < name) :
    insertEntry name x l = l ++ [(name, x)] := by
  induction l with
  | nil => rfl
  | cons e l ih =>
    obtain ⟨n, y⟩ := e
    obtain ⟨hn, hl⟩ := List.forall_mem_cons.1 h
    have hne : name ≠ n := by
      rintro rfl
      exact String.lt_irrefl name hn
    have hnot : ¬name < n := fun hlt => String.lt_irrefl name (String.lt_trans hlt hn)
    rw [insertEntry, if_neg hne, if_neg hnot, ih hl, List.cons_append]

theorem entries_foldl_insert {l : List (String × α)} {m : NameMap α}
    (h : (m.entries ++ l).Pairwise fun a b => a.1 < b.1) :
    (l.foldl (fun m e => m.insert e.1 e.2) m).entries = m.entries ++ l := by
  induction l generalizing m with
  | nil => exact (List.append_nil _).symm
  | cons e l ih =>
    have hlast : (m.insert e.1 e.2).entries = m.entries ++ [e] :=
      insertEntry_of_lt fun e' he' => (List.pairwise_append.1 h).2.2 e' he' e List.mem_cons_self
    have hsplit : m.entries ++ e :: l = (m.insert e.1 e.2).entries ++ l := by
      rw [hlast, List.append_assoc]; rfl
    rw [List.foldl_cons, ih (hsplit ▸ h), hsplit]

/-- A map is built again from its entries. -/
theorem ofList_entries (m : NameMap α) : ofList m.entries = m := by
  have hentries := entries_foldl_insert (m := empty) (l := m.entries)
    (by simpa [empty] using m.increasing)
  obtain ⟨entries, increasing⟩ := m
  generalize hbuilt : ofList entries = built
  rw [ofList] at hbuilt
  rw [hbuilt] at hentries
  obtain ⟨built, _⟩ := built
  obtain rfl : built = entries := hentries
  rfl

theorem mem_entries_iff (m : NameMap α) {name : String} {x : α} :
    (name, x) ∈ m.entries ↔ m.get? name = some x :=
  (find?_eq_some_iff_mem m.names_nodup).symm

end NameMap

namespace Params

open Value (Keeps LastWrite written)

/-- The parameters of a host map answer as the map does. -/
theorem get?_ofValue {entries : List (Key × Value)} (h : (entries.map (·.1)).Nodup)
    (name : String) :
    (ofValue (.map entries)).get? name = (Value.map entries).get? name := by
  have hparams : ofValue (.map entries) = NameMap.ofList (Value.namedEntries entries) := rfl
  have hnames := Value.nodup_namedEntries h
  refine Option.ext fun x => ?_
  rw [hparams, NameMap.get?_ofList hnames, find?_eq_some_iff_mem hnames, Value.mem_namedEntries,
    Value.get?_map_eq_some h]

theorem ofValue_toValue (p : Params) : ofValue p.toValue = p := by
  have hentries : Value.namedEntries (p.entries.map fun e => (Key.string e.1, e.2)) =
      p.entries := by
    rw [Value.namedEntries, List.filterMap_map]
    exact List.filterMap_some
  calc ofValue p.toValue = NameMap.ofList p.entries := congrArg NameMap.ofList hentries
    _ = p := p.ofList_entries

/-- Entries that are written to a map one after another are left with each key once, in the order in
which the keys came first, and with the last value of each. The map and its parameters answer with
what was written last under a name. Parameters are listed in the order of the bytes of their names,
and come back from the map that they are made. -/
theorem agree_with_maps :
    (∀ writes : List (Key × Value),
      (∃ entries, written writes = .map entries ∧ Keeps entries writes) ∧
      ∀ name, (ofValue (written writes)).get? name = (written writes).get? name ∧
        ∀ x, (written writes).get? name = some x ↔ LastWrite writes (.string name) x) ∧
    ∀ p : Params,
      (∃ entries : List (String × Value), p.toValue =
        .map (entries.map fun e => (.string e.1, e.2)) ∧
        entries.Pairwise (fun e e' => utf8Bytes e.1 < utf8Bytes e'.1) ∧
        ∀ name x, (name, x) ∈ entries ↔ p.get? name = some x) ∧
      ofValue p.toValue = p := by
  constructor
  · intro writes
    obtain ⟨entries, hwritten, hkeeps⟩ := Value.keeps_written writes
    refine ⟨⟨entries, hwritten, hkeeps⟩, fun name => ?_⟩
    rw [hwritten]
    refine ⟨get?_ofValue hkeeps.distinct name, fun x => ?_⟩
    rw [Value.get?_map_eq_some hkeeps.distinct, hkeeps.last]
  · intro p
    have hbytes : p.entries.Pairwise fun e e' => utf8Bytes e.1 < utf8Bytes e'.1 :=
      p.increasing.imp utf8Bytes_lt
    exact ⟨⟨p.entries, rfl, hbytes, fun _ _ => p.mem_entries_iff⟩, p.ofValue_toValue⟩

example : written [(.int 1, .null), (.string "1", .bool true), (.int 1, .bool false)] =
    .map [(.int 1, .bool false), (.string "1", .bool true)] := by rfl

end Params

end ClassEdit
