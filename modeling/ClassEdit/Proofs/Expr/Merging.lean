import ClassEdit.Expr.OfValue

/-!
What a merge makes of an array literal, said apart from the order in which the entries of the
collection come to the literal: which items are refreshed, which entries need an item of their own,
and which are skipped. Main statement: the items of the literal stay where they are, the first of a
key holds the last value that was added under it, what is new stands behind in the order in which
it was needed first, and a second merge of the same collection changes nothing if what it adds
without a key are strings.
-/

namespace ClassEdit

/-- The last value that the entries hold under a string key. -/
def Value.lastUnder? (key : String) (es : List (Key × Value)) : Option Value :=
  (es.filter (·.1 == .string key)).getLast?.map (·.2)

/-- The elements that pass a test on what stands before them and on themselves. -/
def selectBehind {α : Type} (p : List α → α → Bool) (before : List α) : List α → List α
  | [] => []
  | x :: xs => (if p before x then [x] else []) ++ selectBehind p (before ++ [x]) xs

namespace Value

def isStringEntry (s : String) (e : Key × Value) : Bool :=
  e.1.string?.isNone && e.2.string? == some s

def isOtherEntry (e : Key × Value) : Bool :=
  e.1.string?.isNone && e.2.string?.isNone

end Value

namespace ArrayItem

open Value (lastUnder? isStringEntry)

def keyText? (item : ArrayItem) : Option String := item.key.bind Expr.string?

/-- The items with the last value of each string key in the first item that has it. -/
def refreshed : List ArrayItem → List (Key × Value) → List ArrayItem
  | [], _ => []
  | item :: items, es =>
    match item.keyText? with
    | none => item :: refreshed items es
    | some key =>
      { item with value := ((lastUnder? key es).map Expr.ofValue).getD item.value } ::
        refreshed items (es.filter (·.1 != .string key))

/-- Whether an entry is a string without a key that stands among the items or among the entries
before it. -/
def isSkipped (items : List ArrayItem) (before : List (Key × Value)) (e : Key × Value) : Bool :=
  e.1.string?.isNone && e.2.string?.any fun s => items.any (·.isString s) ||
    before.any (isStringEntry s)

/-- Whether an entry needs an item of its own. -/
def isNeeded (items : List ArrayItem) (before : List (Key × Value)) (e : Key × Value) : Bool :=
  match e.1 with
  | .string key => !(items.any (·.hasKey key) || before.any (·.1 == .string key))
  | .int _ => !isSkipped items before e

/-- The item of an entry that needs one. -/
def newItem (es : List (Key × Value)) (e : Key × Value) : ArrayItem :=
  match e.1 with
  | .string key => .keyed (.string key none) (.ofValue ((lastUnder? key es).getD e.2))
  | .int _ => .positional (.ofValue e.2)

/-- The items that new entries are given, in the order in which they are needed. -/
def appended (items : List ArrayItem) (es : List (Key × Value)) : List ArrayItem :=
  (selectBehind (isNeeded items) [] es).map (newItem es)

end ArrayItem

section Selecting

variable {α : Type} {p : List α → α → Bool} {q : α → Bool}

theorem selectBehind_concat (p : List α → α → Bool) (before xs : List α) (x : α) :
    selectBehind p before (xs ++ [x]) = selectBehind p before xs ++ if p (before ++ xs) x
      then [x] else [] := by
  induction xs generalizing before with
  | nil => simp [selectBehind]
  | cons y xs ih => simp [selectBehind, ih]

/-- Of those that are taken only if none of their sort is before them, one is taken. -/
theorem countP_selectBehind {blocked : Bool} (h : ∀ before x, q x = true →
    p before x = !(blocked || before.any q))
    (before xs : List α) :
    (selectBehind p before xs).countP q = if !(blocked || before.any q) && xs.any q
      then 1 else 0 := by
  induction xs generalizing before with
  | nil => simp [selectBehind]
  | cons x xs ih =>
    rw [selectBehind, List.countP_append, ih]
    cases hq : q x with
    | false =>
      have hnone : (if p before x then [x] else []).countP q = 0 := by split <;> simp [hq]
      simp [hnone, hq]
    | true =>
      rw [h before x hq]
      cases hblocked : blocked || before.any q <;> simp_all

theorem any_of_countP {xs : List α} {b : Bool} (h : xs.countP q = if b then 1 else 0) :
    xs.any q = b := by
  cases b with
  | true => exact List.any_eq_true.2 (List.countP_pos_iff.1 (h ▸ Nat.one_pos))
  | false => exact List.any_eq_false.2 (List.countP_eq_zero.1 h)

/-- Those that are always taken are all there. -/
theorem filter_selectBehind (h : ∀ before x, q x = true → p before x = true) (before xs : List α) :
    (selectBehind p before xs).filter q = xs.filter q := by
  induction xs generalizing before with
  | nil => rfl
  | cons x xs ih =>
    rw [selectBehind, List.filter_append, ih]
    cases hq : q x with
    | false => split <;> simp [hq]
    | true => simp [h before x hq, hq]

theorem selectBehind_eq_nil (h : ∀ before, ∀ x ∈ xs, p before x = false) (before : List α) :
    selectBehind p before xs = [] := by
  induction xs generalizing before with
  | nil => rfl
  | cons x xs ih =>
    obtain ⟨hx, hxs⟩ := forall_and.1 fun before => List.forall_mem_cons.1 (h before)
    rw [selectBehind, hx before, ih hxs]
    rfl

end Selecting

namespace Value

theorem lastUnder?_concat (key : String) (es : List (Key × Value)) (e : Key × Value) :
    lastUnder? key (es ++ [e]) = if e.1 = .string key then some e.2 else lastUnder? key es := by
  by_cases he : e.1 = .string key <;> simp [lastUnder?, he]

theorem lastUnder?_eq_none {key : String} {es : List (Key × Value)} :
    lastUnder? key es = none ↔ es.any (·.1 == .string key) = false := by
  simp [lastUnder?]

theorem lastUnder?_filter (key other : String) (es : List (Key × Value)) :
    lastUnder? key (es.filter (·.1 != .string other)) = if key = other then none
      else lastUnder? key es := by
  by_cases h : key = other
  · subst h
    simp [lastUnder?, List.filter_filter]
  · rw [if_neg h, lastUnder?, lastUnder?, List.filter_filter]
    congr 2
    refine List.filter_congr fun e _ => ?_
    by_cases he : e.1 = .string key <;> simp [he, h]

theorem string?_ofValue (v : Value) : (Expr.ofValue v).string? = v.string? := by
  cases v with
  | float x => simp only [Expr.ofValue]; split <;> rfl
  | _ => rfl

end Value

namespace ArrayItem

open Value
  (lastUnder? lastUnder?_concat lastUnder?_eq_none isStringEntry isOtherEntry string?_ofValue)

variable {items more : List ArrayItem} {es before : List (Key × Value)} {key : String}

theorem withValue_eq_self {item : ArrayItem} {value : Expr} (h : value = item.value) :
    { item with value } = item := by
  subst h
  cases item
  rfl

section Put

theorem hasKey_iff {item : ArrayItem} : item.hasKey key = true ↔ item.keyText? = some key := by
  simp [hasKey, keyText?]

/-- A key that is there is put where it is, and what follows does not matter. -/
theorem put_append_of_any (h : items.any (·.hasKey key) = true) (value : Expr) :
    put key value (items ++ more) = put key value items ++ more := by
  induction items with
  | nil => cases h
  | cons item items ih =>
    rw [List.any_cons] at h
    cases hitem : item.hasKey key with
    | true => simp [put, hitem]
    | false =>
      rw [hitem, Bool.false_or] at h
      simp [put, hitem, ih h]

theorem put_append_of_not_any (h : items.any (·.hasKey key) = false) (value : Expr) :
    put key value (items ++ more) = items ++ put key value more := by
  induction items with
  | nil => rfl
  | cons item items ih =>
    rw [List.any_cons, Bool.or_eq_false_iff] at h
    simp [put, h.1, ih h.2]

/-- Where one item has the key, all items with the key are written to. -/
theorem put_map {α : Type} {f g : α → ArrayItem} {q : α → Bool} {value : Expr} {xs : List α}
    (hf : ∀ x, (f x).hasKey key = q x) (hg : ∀ x, g x = if q x then { f x with value } else f x)
    (hone : xs.countP q = 1) : put key value (xs.map f) = xs.map g := by
  induction xs with
  | nil => cases hone
  | cons x xs ih =>
    rw [List.map_cons, List.map_cons, put, hf, hg]
    cases hq : q x with
    | true =>
      rw [List.countP_cons_of_pos hq, Nat.succ.injEq, List.countP_eq_zero] at hone
      have hrest : xs.map f = xs.map g := List.map_congr_left fun y hy => by
        rw [hg, if_neg (hone y hy)]
      rw [if_pos rfl, if_pos rfl, hrest]
    | false =>
      rw [List.countP_cons_of_neg (by simp [hq])] at hone
      simp [ih hone]

end Put

section Refreshed

/-- Items that are refreshed keep what does not hang on the value of an item with a key. -/
theorem map_refreshed {α : Type} {f : ArrayItem → α}
    (hf : ∀ item value, item.keyText? ≠ none → f { item with value } = f item)
    (items : List ArrayItem) (es : List (Key × Value)) :
    (refreshed items es).map f = items.map f := by
  induction items generalizing es with
  | nil => rfl
  | cons item items ih =>
    unfold refreshed
    cases hkey : item.keyText? with
    | none => simp [ih]
    | some key => simp [ih, hf item _ (by simp [hkey])]

theorem any_hasKey_refreshed (items : List ArrayItem) (es : List (Key × Value)) (key : String) :
    (refreshed items es).any (·.hasKey key) = items.any (·.hasKey key) := by
  have hmap :=
    congrArg (List.any · id) (map_refreshed (f := (·.hasKey key)) (fun _ _ _ => rfl) items es)
  simpa [List.any_map] using hmap

theorem isString_eq_false {item : ArrayItem} (h : item.keyText? ≠ none) (s : String) :
    item.isString s = false := by
  cases hkey : item.key with
  | none => simp [keyText?, hkey] at h
  | some key => simp [isString, hkey]

theorem map_isString_refreshed (items : List ArrayItem) (es : List (Key × Value)) (s : String) :
    (refreshed items es).map (·.isString s) = items.map (·.isString s) := by
  refine map_refreshed (fun item value h => ?_) items es
  have hkey : ({ item with value } : ArrayItem).keyText? ≠ none := h
  rw [isString_eq_false hkey, isString_eq_false h]

theorem any_isString_refreshed (items : List ArrayItem) (es : List (Key × Value)) (s : String) :
    (refreshed items es).any (·.isString s) = items.any (·.isString s) := by
  have hmap := congrArg (List.any · id) (map_isString_refreshed items es s)
  simpa [List.any_map] using hmap

theorem countP_isString_refreshed (items : List ArrayItem) (es : List (Key × Value)) (s : String) :
    (refreshed items es).countP (·.isString s) = items.countP (·.isString s) := by
  have hmap := congrArg (List.countP id) (map_isString_refreshed items es s)
  simpa [List.countP_map, Function.comp_def] using hmap

/-- A value that is added under the key of an item goes to the first one with the key. -/
theorem put_refreshed (h : items.any (·.hasKey key) = true) (es : List (Key × Value)) (v : Value) :
    put key (.ofValue v) (refreshed items es) = refreshed items (es ++ [(.string key, v)]) := by
  induction items generalizing es with
  | nil => cases h
  | cons item items ih =>
    unfold refreshed
    cases hitem : item.keyText? with
    | none =>
      have hkey : item.hasKey key = false := by
        rw [Bool.eq_false_iff, ne_eq, hasKey_iff, hitem]; nofun
      rw [List.any_cons, hkey, Bool.false_or] at h
      simp [put, hkey, ih h]
    | some other =>
      by_cases hother : other = key
      · subst hother
        have hkey (value : Expr) : hasKey { item with value } other = true := hasKey_iff.2 hitem
        simp [put, hkey, lastUnder?_concat]
      · have hkey (value : Expr) : hasKey { item with value } key = false := by
          rw [Bool.eq_false_iff, ne_eq, hasKey_iff]
          exact fun hsome => hother (Option.some.inj (hitem.symm.trans hsome))
        rw [List.any_cons, show item.hasKey key = false from hkey item.value, Bool.false_or] at h
        simp [put, hkey, ih h, lastUnder?_concat, Ne.symm hother]

/-- An entry under a key that is not there refreshes nothing. -/
theorem refreshed_concat_of_not_any (h : items.any (·.hasKey key) = false) (es : List (Key × Value))
    (v : Value) :
    refreshed items (es ++ [(.string key, v)]) = refreshed items es := by
  induction items generalizing es with
  | nil => rfl
  | cons item items ih =>
    rw [List.any_cons, Bool.or_eq_false_iff] at h
    unfold refreshed
    cases hitem : item.keyText? with
    | none => simp [ih h.2]
    | some other =>
      have hother : key ≠ other := by
        rintro rfl
        exact Bool.eq_false_iff.1 h.1 (hasKey_iff.2 hitem)
      simp [ih h.2, lastUnder?_concat, hother]

theorem refreshed_concat_int (items : List ArrayItem) (es : List (Key × Value))
    (n : Int64) (v : Value) :
    refreshed items (es ++ [(.int n, v)]) = refreshed items es := by
  induction items generalizing es with
  | nil => rfl
  | cons item items ih =>
    unfold refreshed
    cases item.keyText? with
    | none => simp [ih]
    | some other => simp [ih, lastUnder?_concat]

end Refreshed

section Appended

theorem appended_concat (items : List ArrayItem) (es : List (Key × Value)) (e : Key × Value) :
    appended items (es ++ [e]) = (selectBehind (isNeeded items) [] es).map (newItem (es ++ [e])) ++
      if isNeeded items es e then [newItem (es ++ [e]) e] else [] := by
  rw [appended, selectBehind_concat, List.map_append, List.nil_append]
  split <;> rfl

theorem isNeeded_of_string {e : Key × Value} (h : e.1 = .string key) (before : List (Key × Value)) :
    isNeeded items before e = !(items.any (·.hasKey key) || before.any (·.1 == .string key)) := by
  rw [isNeeded, h]

theorem isNeeded_of_isStringEntry {s : String} {e : Key × Value} (h : isStringEntry s e = true)
    (before : List (Key × Value)) :
    isNeeded items before e = !(items.any (·.isString s) || before.any (isStringEntry s)) := by
  obtain ⟨key, v⟩ := e
  cases key with
  | string key => cases h
  | int n =>
    have hv : v.string? = some s := by simpa [isStringEntry, Key.string?] using h
    simp [isNeeded, isSkipped, Key.string?, hv]

theorem isNeeded_of_isOtherEntry {e : Key × Value} (h : isOtherEntry e = true)
    (before : List (Key × Value)) :
    isNeeded items before e = true := by
  obtain ⟨key, v⟩ := e
  cases key with
  | string key => cases h
  | int n =>
    have hv : v.string? = none := by simpa [isOtherEntry, Key.string?] using h
    simp [isNeeded, isSkipped, Key.string?, hv]

theorem hasKey_newItem (es : List (Key × Value)) (e : Key × Value) (key : String) :
    (newItem es e).hasKey key = (e.1 == .string key) := by
  obtain ⟨k, v⟩ := e
  cases k with
  | string k => rw [Bool.eq_iff_iff]; simp [newItem, keyed, hasKey, Expr.string?]
  | int n => simp [newItem, positional, hasKey]

theorem isString_newItem (es : List (Key × Value)) (e : Key × Value) (s : String) :
    (newItem es e).isString s = isStringEntry s e := by
  obtain ⟨k, v⟩ := e
  cases k with
  | string k => simp [newItem, keyed, isString, isStringEntry, Key.string?]
  | int n => simp [newItem, positional, isString, isStringEntry, Key.string?, string?_ofValue]

/-- A new key is given one item. -/
theorem countP_hasKey_appended (items : List ArrayItem) (es : List (Key × Value)) (key : String) :
    (appended items es).countP (·.hasKey key) =
      if !items.any (·.hasKey key) && es.any (·.1 == .string key) then 1 else 0 := by
  have hcount := countP_selectBehind (p := isNeeded items) (q := fun e => e.1 == .string key)
    (fun before e he => isNeeded_of_string (eq_of_beq he) before) [] es
  rw [List.any_nil, Bool.or_false] at hcount
  simpa [appended, Function.comp_def, hasKey_newItem] using hcount

theorem countP_isString_appended (items : List ArrayItem) (es : List (Key × Value)) (s : String) :
    (appended items es).countP (·.isString s) =
      if !items.any (·.isString s) && es.any (isStringEntry s) then 1 else 0 := by
  have hcount := countP_selectBehind (p := isNeeded items) (q := isStringEntry s)
    (fun before e he => isNeeded_of_isStringEntry he before) [] es
  rw [List.any_nil, Bool.or_false] at hcount
  simpa [appended, Function.comp_def, isString_newItem] using hcount

theorem newItem_concat_string (es : List (Key × Value)) (v : Value) (e : Key × Value) :
    newItem (es ++ [(.string key, v)]) e =
      if e.1 == .string key then { newItem es e with value := .ofValue v } else newItem es e := by
  obtain ⟨k, w⟩ := e
  cases k with
  | int n => simp [newItem]
  | string k =>
    by_cases hk : k = key
    · subst hk
      simp [newItem, keyed, lastUnder?_concat]
    · simp [newItem, lastUnder?_concat, hk, Ne.symm hk]

theorem newItem_concat_int (es : List (Key × Value)) (n : Int64) (v : Value) :
    newItem (es ++ [(.int n, v)]) = newItem es := by
  funext e
  obtain ⟨k, w⟩ := e
  cases k with
  | int n => rfl
  | string k => simp [newItem, lastUnder?_concat]

/-- Where no new item has the key, what is added under it changes none of them. -/
theorem map_newItem_concat (h : (appended items es).any (·.hasKey key) = false) (v : Value) :
    (selectBehind (isNeeded items) [] es).map (newItem (es ++ [(.string key, v)])) =
      appended items es := by
  refine List.map_congr_left fun e he => ?_
  have hnew := List.any_eq_false.1 h (newItem es e) (List.mem_map_of_mem he)
  rw [hasKey_newItem] at hnew
  rw [newItem_concat_string, if_neg hnew]

theorem appended_concat_of_any (h : items.any (·.hasKey key) = true) (es : List (Key × Value))
    (v : Value) :
    appended items (es ++ [(.string key, v)]) = appended items es := by
  have hnone : (appended items es).any (·.hasKey key) = false :=
    any_of_countP (by rw [countP_hasKey_appended, h]; rfl)
  rw [appended_concat, isNeeded_of_string rfl, h, map_newItem_concat hnone]
  exact List.append_nil _

/-- A value that is added under a new key goes to the item of that key. -/
theorem put_appended (h : items.any (·.hasKey key) = false) (es : List (Key × Value)) (v : Value) :
    put key (.ofValue v) (appended items es) = appended items (es ++ [(.string key, v)]) := by
  have hcount := countP_hasKey_appended items es key
  rw [h] at hcount
  rw [appended_concat, isNeeded_of_string rfl, h, Bool.false_or]
  cases hes : es.any (·.1 == .string key) with
  | true =>
    have hone : (selectBehind (isNeeded items) [] es).countP (·.1 == .string key) = 1 := by
      simpa [hes, appended, Function.comp_def, hasKey_newItem] using hcount
    rw [appended, put_map (fun e => hasKey_newItem es e key) (newItem_concat_string es v) hone]
    exact (List.append_nil _).symm
  | false =>
    have hnone : (appended items es).any (·.hasKey key) = false :=
      any_of_countP (by rw [hcount, hes]; rfl)
    have hput : put key (.ofValue v) (appended items es ++ []) = appended items es ++
        put key (.ofValue v) [] :=
      put_append_of_not_any hnone (.ofValue v)
    rw [List.append_nil] at hput
    rw [hput, map_newItem_concat hnone]
    simp [put, newItem, lastUnder?_concat]

end Appended

section Merged

def merged (items : List ArrayItem) (es : List (Key × Value)) : List ArrayItem :=
  refreshed items es ++ appended items es

theorem any_hasKey_merged (items : List ArrayItem) (es : List (Key × Value)) (key : String) :
    (merged items es).any (·.hasKey key) =
      (items.any (·.hasKey key) || es.any (·.1 == .string key)) := by
  rw [merged, List.any_append, any_hasKey_refreshed,
    any_of_countP (countP_hasKey_appended items es key)]
  cases items.any (·.hasKey key) <;> rfl

theorem any_isString_merged (items : List ArrayItem) (es : List (Key × Value)) (s : String) :
    (merged items es).any (·.isString s) =
      (items.any (·.isString s) || es.any (isStringEntry s)) := by
  rw [merged, List.any_append, any_isString_refreshed,
    any_of_countP (countP_isString_appended items es s)]
  cases items.any (·.isString s) <;> rfl

/-- Items that hold the last values already are refreshed to themselves. -/
theorem refreshed_eq_self (h : ∀ key v item, lastUnder? key es = some v →
    items.find? (·.hasKey key) = some item →
    item.value = .ofValue v) : refreshed items es = items := by
  induction items generalizing es with
  | nil => rfl
  | cons item items ih =>
    unfold refreshed
    cases hitem : item.keyText? with
    | none =>
      have hkey (key : String) : item.hasKey key = false := by
        rw [Bool.eq_false_iff, ne_eq, hasKey_iff, hitem]
        nofun
      dsimp only
      rw [ih fun key v other hv hother => h key v other hv (by rw [List.find?_cons, hkey, hother])]
    | some key =>
      have hvalue : ((lastUnder? key es).map Expr.ofValue).getD item.value = item.value := by
        cases hlast : lastUnder? key es with
        | none => rfl
        | some v => exact (h key v item hlast (by rw [List.find?_cons, hasKey_iff.2 hitem])).symm
      have htail : refreshed items (es.filter (·.1 != .string key)) = items := by
        refine ih fun other v item' hv hfind => ?_
        rw [Value.lastUnder?_filter] at hv
        split at hv
        next => cases hv
        next hother =>
          have hne : item.hasKey other = false := by
            rw [Bool.eq_false_iff, ne_eq, hasKey_iff, hitem]
            exact fun hsome => hother (Option.some.inj hsome).symm
          exact h other v item' hv (by rw [List.find?_cons, hne, hfind])
      dsimp only
      rw [withValue_eq_self hvalue, htail]

theorem merged_nil (items : List ArrayItem) : merged items [] = items := by
  have hsame : refreshed items [] = items := refreshed_eq_self fun _ _ _ hv => by cases hv
  rw [merged, hsame]
  exact List.append_nil items

/-- What one more entry makes of the items behind a merge. -/
theorem add?_merged (items : List ArrayItem) (es : List (Key × Value)) (e : Key × Value) :
    add? (merged items es) e = if isSkipped items es e then none
      else some (merged items (es ++ [e])) := by
  obtain ⟨k, v⟩ := e
  cases k with
  | string key =>
    have hput : put key (.ofValue v) (merged items es) =
        merged items (es ++ [(.string key, v)]) := by
      rw [merged, merged]
      cases hitems : items.any (·.hasKey key) with
      | true =>
        rw [put_append_of_any (by rw [any_hasKey_refreshed, hitems]), put_refreshed hitems,
          appended_concat_of_any hitems]
      | false =>
        rw [put_append_of_not_any (by rw [any_hasKey_refreshed, hitems]), put_appended hitems,
          refreshed_concat_of_not_any hitems]
    rw [add?, hput]
    rfl
  | int n =>
    have hmore (h : isSkipped items es (.int n, v) = false) :
        merged items es ++ [.positional (.ofValue v)] = merged items (es ++ [(.int n, v)]) := by
      have hneeded : isNeeded items es (.int n, v) = true := by rw [isNeeded, h]; rfl
      rw [merged, merged, refreshed_concat_int, appended_concat, hneeded, newItem_concat_int,
        List.append_assoc]
      rfl
    have hstring (s : String) : isSkipped items es (.int n, .string s) = (merged items es).any
        (·.isString s) := by
      rw [any_isString_merged]
      rfl
    cases v with
    | string s =>
      rw [add?, ← hstring s]
      cases hskipped : isSkipped items es (.int n, .string s) with
      | true => rfl
      | false => exact congrArg some (hmore hskipped)
    | _ => exact congrArg some (hmore rfl)

theorem merged_concat_of_isSkipped {e : Key × Value} (h : isSkipped items es e = true) :
    merged items (es ++ [e]) = merged items es := by
  obtain ⟨k, v⟩ := e
  cases k with
  | string key => cases h
  | int n =>
    have hneeded : isNeeded items es (.int n, v) = false := by rw [isNeeded, h]; rfl
    rw [merged, refreshed_concat_int, appended_concat, hneeded, newItem_concat_int]
    exact congrArg (refreshed items es ++ ·) (List.append_nil _)

/-- The entries of a merge that are not skipped. -/
def taken (items : List ArrayItem) (before es : List (Key × Value)) : List (Key × Value) :=
  selectBehind (fun before e => !isSkipped items before e) before es

/-- Entries that are added to merged items are merged with those that were before them. -/
theorem addAll_merged (items : List ArrayItem) (before es : List (Key × Value)) :
    addAll (merged items before) es =
      (merged items (before ++ es), (taken items before es).length) := by
  -- `before` are the entries that the items hold already; the next one is skipped or
  -- needed because of them
  induction es generalizing before with
  | nil => rw [addAll, List.append_nil]; rfl
  | cons e es ih =>
    have hbefore : before ++ e :: es = before ++ [e] ++ es := by simp
    rw [addAll, add?_merged, taken, selectBehind, hbefore]
    cases hskipped : isSkipped items before e with
    | true =>
      rw [← merged_concat_of_isSkipped hskipped]
      exact ih (before ++ [e])
    | false =>
      have hrest := ih (before ++ [e])
      simp [hrest, taken, Nat.add_comm]

end Merged

section Kept

theorem length_refreshed (items : List ArrayItem) (es : List (Key × Value)) :
    (refreshed items es).length = items.length := by
  induction items generalizing es with
  | nil => rfl
  | cons item items ih =>
    unfold refreshed
    cases item.keyText? with
    | none => exact congrArg (· + 1) (ih es)
    | some key => exact congrArg (· + 1) (ih _)

/-- Only the first item of a key is given another value. -/
theorem getElem?_refreshed {item : ArrayItem} {i : Nat} (h : items[i]? = some item)
    (es : List (Key × Value)) :
    ∃ value, (refreshed items es)[i]? = some { item with value } ∧
      (value = item.value ∨ ∃ key v, items.findIdx? (·.hasKey key) = some i ∧
        lastUnder? key es = some v ∧
        value = .ofValue v) := by
  induction items generalizing es i with
  | nil => cases h
  | cons first items ih =>
    cases i with
    | zero =>
      obtain rfl : first = item := Option.some.inj h
      unfold refreshed
      cases hitem : first.keyText? with
      | none => exact ⟨first.value, congrArg some (withValue_eq_self rfl).symm, .inl rfl⟩
      | some key =>
        refine ⟨_, rfl, ?_⟩
        cases hlast : lastUnder? key es with
        | none => exact .inl rfl
        | some v =>
            exact .inr ⟨key, v, by simp [List.findIdx?_cons, hasKey_iff.2 hitem], hlast, rfl⟩
    | succ i =>
      have hfirst (key : String) (hne : first.keyText? ≠ some key)
          (hi : items.findIdx? (·.hasKey key) = some i) : (first :: items).findIdx? (·.hasKey key) =
            some (i + 1) := by
        have hkey : first.hasKey key = false := Bool.eq_false_iff.2 fun hkey =>
          hne (hasKey_iff.1 hkey)
        simp [List.findIdx?_cons, hkey, hi]
      unfold refreshed
      cases hitem : first.keyText? with
      | none =>
        obtain ⟨value, hvalue, hcases⟩ := ih h es
        refine ⟨value, hvalue, hcases.imp_right ?_⟩
        rintro ⟨key, v, hi, hlast, rfl⟩
        exact ⟨key, v, hfirst key (by rw [hitem]; nofun) hi, hlast, rfl⟩
      | some other =>
        obtain ⟨value, hvalue, hcases⟩ := ih h (es.filter (·.1 != .string other))
        refine ⟨value, hvalue, hcases.imp_right ?_⟩
        rintro ⟨key, v, hi, hlast, rfl⟩
        rw [Value.lastUnder?_filter] at hlast
        split at hlast
        next => cases hlast
        next hne =>
          refine ⟨key, v, hfirst key (fun hsome => ?_) hi, hlast, rfl⟩
          exact hne (Option.some.inj (hitem.symm.trans hsome)).symm

/-- The first item of a key holds the last value that is added under it. -/
theorem value_of_find?_refreshed {v : Value} (hlast : lastUnder? key es = some v) {item : ArrayItem}
    (h : (refreshed items es).find? (·.hasKey key) = some item) : item.value = .ofValue v := by
  induction items generalizing es with
  | nil => cases h
  | cons first items ih =>
    unfold refreshed at h
    cases hfirst : first.keyText? with
    | none =>
      have hkey : first.hasKey key = false := by
        rw [Bool.eq_false_iff, ne_eq, hasKey_iff, hfirst]
        nofun
      rw [hfirst] at h
      dsimp only at h
      rw [List.find?_cons, hkey] at h
      exact ih hlast h
    | some other =>
      rw [hfirst] at h
      dsimp only at h
      by_cases hother : key = other
      · subst hother
        have hkey (value : Expr) : hasKey { first with value } key = true := hasKey_iff.2 hfirst
        rw [List.find?_cons, hkey, hlast] at h
        rw [← Option.some.inj h]
        rfl
      · have hkey (value : Expr) : hasKey { first with value } key = false := by
          rw [Bool.eq_false_iff, ne_eq, hasKey_iff]
          exact fun hsome => hother (Option.some.inj (hsome.symm.trans hfirst))
        rw [List.find?_cons, hkey] at h
        exact ih (by rw [Value.lastUnder?_filter, if_neg hother, hlast]) h

/-- Under a key stands the last value that was given for it. -/
theorem value_of_find?_merged {v : Value} (hlast : lastUnder? key es = some v) {item : ArrayItem}
    (h : (merged items es).find? (·.hasKey key) = some item) : item.value = .ofValue v := by
  rw [merged, List.find?_append, Option.or_eq_some_iff] at h
  rcases h with hkept | ⟨-, hnew⟩
  · exact value_of_find?_refreshed hlast hkept
  · obtain ⟨e, -, rfl⟩ := List.mem_map.1 (List.mem_of_find?_eq_some hnew)
    have hkey := List.find?_some hnew
    rw [hasKey_newItem, beq_iff_eq] at hkey
    obtain ⟨k, w⟩ := e
    obtain rfl : k = .string key := hkey
    simp [newItem, keyed, hlast]

/-- A second merge of the same collection changes nothing if what it adds without a key are
strings. -/
theorem merged_merged (h : es.any isOtherEntry = false) :
    merged (merged items es) es = merged items es := by
  have hold : refreshed (merged items es) es = merged items es :=
    refreshed_eq_self fun _ _ _ hlast hfind => value_of_find?_merged hlast hfind
  have hnone : ∀ before, ∀ e ∈ es, isNeeded (merged items es) before e = false := by
    rintro before ⟨k, v⟩ he
    cases k with
    | string key =>
      have hany : es.any (·.1 == .string key) = true := List.any_eq_true.2 ⟨_, he, by simp⟩
      rw [isNeeded_of_string rfl, any_hasKey_merged, hany, Bool.or_true]
      rfl
    | int n =>
      have hother := List.any_eq_false.1 h _ he
      obtain ⟨s, hs⟩ : ∃ s, v.string? = some s := by
        simpa [isOtherEntry, Key.string?, Option.isSome_iff_exists, ← Option.isSome_iff_ne_none]
          using hother
      have hentry : isStringEntry s (.int n, v) = true := by simp [isStringEntry, Key.string?, hs]
      have hany : es.any (isStringEntry s) = true := List.any_eq_true.2 ⟨_, he, hentry⟩
      rw [isNeeded_of_isStringEntry hentry, any_isString_merged, hany, Bool.or_true]
      rfl
  rw [merged, hold, appended, selectBehind_eq_nil hnone]
  exact List.append_nil _

def isOther (item : ArrayItem) : Bool :=
  item.key.isNone && item.value.string?.isNone

/-- What is no string is added once for each time it occurs. -/
theorem filter_isOther_appended (items : List ArrayItem) (es : List (Key × Value)) :
    (appended items es).filter isOther = (es.filter isOtherEntry).map fun e =>
      .positional (.ofValue e.2) := by
  have hnew (e : Key × Value) : (newItem es e).isOther = isOtherEntry e := by
    obtain ⟨k, v⟩ := e
    cases k with
    | string k => rfl
    | int n => simp [isOther, newItem, positional, string?_ofValue, isOtherEntry, Key.string?]
  have hall :=
    filter_selectBehind (p := isNeeded items)
      (fun before e he => isNeeded_of_isOtherEntry he before) [] es
  rw [appended, List.filter_map, Function.comp_def]
  simp only [hnew]
  rw [hall]
  refine List.map_congr_left fun e he => ?_
  obtain ⟨k, v⟩ := e
  cases k with
  | string k => cases (List.mem_filter.1 he).2
  | int n => rfl

end Kept

end ArrayItem

namespace ArrayLiteral

open ArrayItem (appended taken merged)
open Value (lastUnder? isStringEntry isOtherEntry)

/-- What a merge of entries into a literal gives: another literal, and how many entries made a
change. -/
structure Merges (a : ArrayLiteral) (es : List (Key × Value)) (b : ArrayLiteral) (changes : Nat) :
    Prop where
  /-- The literal is written as before. -/
  style : b = { a with items := b.items }
  /-- Its items keep their places and all that belongs to them but the value, and the value too,
  unless the item is the first of a key of the collection. -/
  kept : ∀ i item, a.items[i]? = some item → ∃ value, b.items[i]? = some { item with value } ∧
    (value = item.value ∨ ∃ key v, a.items.findIdx? (·.hasKey key) = some i ∧
      lastUnder? key es = some v ∧
      value = .ofValue v)
  /-- The first item of a key holds the last value that was added under it. -/
  keyed : ∀ key v, lastUnder? key es = some v →
    (b.items.find? (·.hasKey key)).map (·.value) = some (.ofValue v)
  /-- A key that no item had is given one item, and the others none. -/
  newKeys : ∀ key, es.any (·.1 == .string key) = true →
    (b.items.drop a.items.length).countP (·.hasKey key) = if a.items.any (·.hasKey key)
      then 0 else 1
  /-- A string that is added without a key is there once, or as often as before. -/
  strings : ∀ s, es.any (isStringEntry s) = true →
    b.items.countP (·.isString s) = max 1 (a.items.countP (·.isString s))
  /-- What else is added without a key is there once more for each time that it occurs. -/
  others : (b.items.drop a.items.length).filter (·.isOther) =
    (es.filter isOtherEntry).map fun e => .positional (.ofValue e.2)
  /-- The new items stand behind the old ones in the order in which they were needed first. -/
  order : b.items.drop a.items.length = appended a.items es
  /-- The changes are the entries that were not skipped. -/
  count : changes = (taken a.items [] es).length

/-- What all entries make of a literal is a merge, with one change for each entry that was taken. -/
theorem merges_merged (a : ArrayLiteral) (es : List (Key × Value)) :
    a.Merges es { a with items := merged a.items es } (taken a.items [] es).length := by
  have hlength := ArrayItem.length_refreshed a.items es
  have hdrop : (merged a.items es).drop a.items.length = appended a.items es := by
    rw [merged, ← hlength, List.drop_left]
  refine ⟨rfl, fun i item hitem => ?_, fun key v hlast => ?_, fun key hkey => ?_, fun s hs =>
    ?_, ?_, hdrop, rfl⟩
  · obtain ⟨value, hvalue, hcases⟩ := ArrayItem.getElem?_refreshed hitem es
    have hi : i < (ArrayItem.refreshed a.items es).length := (List.getElem?_eq_some_iff.1 hvalue).1
    exact ⟨value, (List.getElem?_append_left hi).trans hvalue, hcases⟩
  · have hes : es.any (·.1 == .string key) = true := by
      rw [← Bool.not_eq_false, ← Value.lastUnder?_eq_none, hlast]
      nofun
    have hany : (merged a.items es).any (·.hasKey key) = true := by
      rw [ArrayItem.any_hasKey_merged, hes, Bool.or_true]
    obtain ⟨item, hfind⟩ :=
      Option.isSome_iff_exists.1 (List.find?_isSome.2 (List.any_eq_true.1 hany))
    rw [hfind]
    exact congrArg some (ArrayItem.value_of_find?_merged hlast hfind)
  · rw [hdrop, ArrayItem.countP_hasKey_appended, hkey, Bool.and_true]
    cases a.items.any (·.hasKey key) <;> rfl
  · dsimp only
    rw [merged, List.countP_append, ArrayItem.countP_isString_refreshed,
      ArrayItem.countP_isString_appended, hs, Bool.and_true]
    cases hany : a.items.any (·.isString s) with
    | true =>
      have hpos : 0 < a.items.countP (·.isString s) :=
        List.countP_pos_iff.2 (List.any_eq_true.1 hany)
      exact (Nat.max_eq_right hpos).symm
    | false =>
      have hzero : a.items.countP (·.isString s) = 0 :=
        List.countP_eq_zero.2 (List.any_eq_false.1 hany)
      rw [hzero]
      rfl
  · dsimp only
    rw [hdrop, ArrayItem.filter_isOther_appended]

theorem merge_eq (a : ArrayLiteral) (additions : Value) : a.merge additions =
    ({ a with items := merged a.items additions.entries },
      (taken a.items [] additions.entries).length) := by
  have hall := ArrayItem.addAll_merged a.items [] additions.entries
  rw [ArrayItem.merged_nil, List.nil_append] at hall
  simp only [merge, hall]

/-- A collection is merged into a literal as promised, and a second time without a change, if all
that it adds without a key are strings. -/
theorem merges_merge (a : ArrayLiteral) (additions : Value) :
    a.Merges additions.entries (a.merge additions).1 (a.merge additions).2 ∧
      (additions.entries.any isOtherEntry = false →
        ((a.merge additions).1.merge additions).1 = (a.merge additions).1) := by
  rw [merge_eq]
  refine ⟨merges_merged a additions.entries, fun hstrings => ?_⟩
  rw [merge_eq]
  dsimp only
  rw [ArrayItem.merged_merged hstrings]

/-- A key comes twice, one string is there already and another comes twice. -/
theorem merges_merge_team :
    let a := ofItems [.positional (.string "name" none), .keyed (.string "k" none) (.const "x")]
    let additions : Value :=
      .map [(.string "k", .int 3), (.int 0, .string "team"), (.int 1, .string "name"),
      (.string "n", .string "new"), (.int 2, .string "team"), (.string "k", .string "last")]
    additions.entries.any isOtherEntry = false ∧ (a.merge additions).2 = 4 ∧
      (a.merge additions).1.items.map (fun item => (item.keyText?, item.value.string?)) =
        [(none, some "name"), (some "k", some "last"), (none, some "team"),
          (some "n", some "new")] ∧
      ((a.merge additions).1.merge additions).1 = (a.merge additions).1 := by
  intro a additions
  have hstrings : additions.entries.any isOtherEntry = false := by decide
  exact ⟨hstrings, by decide, by decide, (merges_merge a additions).2 hstrings⟩

end ArrayLiteral

end ClassEdit
