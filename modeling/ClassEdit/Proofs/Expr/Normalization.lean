import ClassEdit.Proofs.Expr.ArrayReading
import ClassEdit.Proofs.Text.LineEnding
import Mathlib.Data.List.Basic

/-!
Line endings inside of literals. A file is written with newlines, and pairs of a carriage return and
a newline become newlines all over it, in its string literals too. Main statement: the text of a
literal becomes the text of the literal whose strings are normalized.
-/

namespace ClassEdit

open Scan (isName)

/-- The text becomes the other one, whatever follows. -/
def Normalizes (a b : String) : Prop :=
  ∀ s, LineEnding.normalize (a.toList ++ s) = b.toList ++ LineEnding.normalize s

namespace Normalizes

theorem of_plain {a : String} (h : '\r' ∉ a.toList) : Normalizes a a :=
  LineEnding.normalize_append_of_not_mem h

theorem append {a a' b b' : String} (ha : Normalizes a a') (hb : Normalizes b b') :
    Normalizes (a ++ b) (a' ++ b') := by
  intro s
  rw [String.toList_append, List.append_assoc, ha, hb, String.toList_append, List.append_assoc]

/-- The whole text, with nothing behind it. -/
theorem eq {a b : String} (h : Normalizes a b) : LineEnding.normalize a.toList = b.toList := by
  have hs := h []
  rwa [List.append_nil, LineEnding.normalize, List.append_nil] at hs

theorem join {α : Type} {text text' : α → String} {xs : List α}
    (h : ∀ x ∈ xs, Normalizes (text x) (text' x)) :
    Normalizes (String.join (xs.map text)) (String.join (xs.map text')) := by
  induction xs with
  | nil => exact of_plain (by simp)
  | cons x xs ih =>
    rw [List.map_cons, List.map_cons, String.join_cons, String.join_cons]
    exact (h x (by simp)).append (ih fun y hy => h y (by simp [hy]))

theorem commaList {α : Type} {text text' : α → String} {xs : List α}
    (h : ∀ x ∈ xs, Normalizes (text x) (text' x)) :
    Normalizes (ClassEdit.commaList (xs.map text)) (ClassEdit.commaList (xs.map text')) := by
  induction xs with
  | nil => exact of_plain (by simp [ClassEdit.commaList])
  | cons x xs ih =>
    have hx := h x (by simp)
    by_cases hnil : xs = []
    · subst hnil
      simpa [ClassEdit.commaList] using hx
    · have hrest := ih fun y hy => h y (by simp [hy])
      have hne : ∀ t : α → String, xs.map t ≠ [] := fun t => by simpa using hnil
      rw [List.map_cons, List.map_cons, ClassEdit.commaList, ClassEdit.commaList,
        String.intercalate_cons_of_ne_nil (hne text), String.intercalate_cons_of_ne_nil (hne text')]
      exact (hx.append (of_plain (by decide))).append hrest

end Normalizes

namespace LineEnding

theorem escapeAll_of_special {c : Char} (h : c = '\\' ∨ c = '\x27') (r : List Char) :
    Quoted.escapeAll (c :: r) = '\\' :: c :: Quoted.escapeAll r := by
  simp [Quoted.escapeAll, h]

theorem escapeAll_of_ordinary {c : Char} (h : ¬ (c = '\\' ∨ c = '\x27')) (r : List Char) :
    Quoted.escapeAll (c :: r) = c :: Quoted.escapeAll r := by
  simp [Quoted.escapeAll, h]

theorem head?_escapeAll_ne {cs s : List Char} (h : cs.head? ≠ some '\n') :
    (Quoted.escapeAll cs ++ '\x27' :: s).head? ≠ some '\n' := by
  cases cs with
  | nil => simp [Quoted.escapeAll]
  | cons c r =>
    by_cases hc : c = '\\' ∨ c = '\x27'
    · simp [escapeAll_of_special hc]
    · simpa [escapeAll_of_ordinary hc] using h

/-- Normalizing does not care for the backslashes of a literal, and the quote behind it ends a
pair. -/
theorem normalize_escapeAll (cs s : List Char) : normalize (Quoted.escapeAll cs ++ '\x27' :: s) =
    Quoted.escapeAll (normalize cs) ++ '\x27' :: normalize s := by
  fun_induction normalize cs with
  | case1 r ih => simpa [Quoted.escapeAll, normalize] using ih
  | case2 c r hne ih =>
    have hcut : c = '\r' → (Quoted.escapeAll r ++ '\x27' :: s).head? ≠ some '\n' := by
      intro hc
      refine head?_escapeAll_ne fun h => ?_
      obtain ⟨r', rfl⟩ := List.head?_eq_some_iff.1 h
      exact hne r' hc rfl
    by_cases hc : c = '\\' ∨ c = '\x27'
    · have hcr : c ≠ '\r' := by
        rintro rfl
        exact absurd hc (by decide)
      rw [escapeAll_of_special hc, escapeAll_of_special hc, List.cons_append, List.cons_append,
        normalize_cons (by simp), normalize_cons (fun h => absurd h hcr), ih]
      rfl
    · rw [escapeAll_of_ordinary hc, escapeAll_of_ordinary hc, List.cons_append,
        normalize_cons hcut, ih]
      rfl
  | case3 => simp [Quoted.escapeAll, normalize_cons]

end LineEnding

namespace Expr

def normalizedText (text : String) : String :=
  String.ofList (LineEnding.normalize text.toList)

mutual

/-- The expression with the strings that are made normalized. -/
def normalized : Expr → Expr
  | .string value none => .string (normalizedText value) none
  | .array literal => .array (normalizedArray literal)
  | .string value (some spelling) => .string value (some spelling)
  | .int n spelling => .int n spelling
  | .float x spelling => .float x spelling
  | .const name => .const name
  | .raw code => .raw code

def normalizedArray : ArrayLiteral → ArrayLiteral
  | ⟨items, long, multiline, closing⟩ => ⟨normalizedItems items, long, multiline, closing⟩

def normalizedItems : List ArrayItem → List ArrayItem
  | [] => []
  | item :: items => normalizedItem item :: normalizedItems items

def normalizedItem : ArrayItem → ArrayItem
  | ⟨comments, key, value, byRef, spread, trailing⟩ =>
    ⟨comments, match key with | some key => some (normalized key) | none => none,
      normalized value, byRef,
      spread, trailing⟩

end

variable {layout : Layout}

theorem normalizes_string (value : String) :
    Normalizes (Quoted.encode value) (Quoted.encode (normalizedText value)) := by
  intro s
  have hopen := LineEnding.normalize_escapeAll value.toList s
  simp only [Quoted.encode, String.toList_ofList, List.cons_append, List.append_assoc,
    List.nil_append, normalizedText] at hopen ⊢
  rw [LineEnding.normalize_cons (by simp), hopen]

/-- No carriage return stands in a name, behind its first character. -/
theorem not_mem_of_isNameRest {cs : List Char} (h : Scan.isNameRest cs = true) : '\r' ∉ cs := by
  have hcr : Scan.isNamePart '\r' = false := by decide
  fun_induction Scan.isNameRest cs with
  | case1 c r ih =>
    simp only [Bool.and_eq_true] at h
    have hc : c ≠ '\r' := by
      rintro rfl
      exact absurd h.1 (by decide)
    simp [ih h.2, hc.symm]
  | case2 c r hne ih =>
    simp only [Bool.and_eq_true] at h
    have hc : c ≠ '\r' := by
      rintro rfl
      rw [hcr] at h
      exact absurd h.1 (by decide)
    simp [ih h.2, hc.symm]
  | case3 => simp

/-- No carriage return stands in a name. -/
theorem not_mem_of_isName {cs : List Char} (h : isName cs = true) : '\r' ∉ cs := by
  fun_cases isName cs with
  | case1 c r =>
    simp only [isName, Bool.and_eq_true] at h
    have hrest : Scan.isNameRest ('\\' :: c :: r) = true := by simp [Scan.isNameRest, h]
    exact not_mem_of_isNameRest hrest
  | case2 c r hne =>
    rw [Scan.isName_cons hne] at h
    simp only [Bool.and_eq_true] at h
    have hc : c ≠ '\r' := by
      rintro rfl
      exact absurd h.1.1 (by decide)
    simp [not_mem_of_isNameRest h.2, hc.symm]
  | case3 => simp [isName] at h

theorem normalizes_name {name : String} (h : isName name.toList = true) : Normalizes name name :=
  .of_plain (not_mem_of_isName h)

theorem normalizes_int (n : Int64) : Normalizes (integerText n) (integerText n) := by
  refine .of_plain ?_
  by_cases h : n = Int64.minValue
  · rw [h]
    decide
  · have hdigits : '\r' ∉ Nat.toDigits 10 n.toInt.natAbs := by
      intro hmem
      exact absurd (NumberLiteral.isDigit_of_mem_toDigits hmem) (by decide)
    rw [toList_integerText h]
    split
    · exact hdigits
    · simp [hdigits]

/-- Items on lines of their own are normalized one by one. -/
theorem itemLines_normalizes {inner : String} {items : List ArrayItem}
    (hinner : '\r' ∉ inner.toList) (hitems : ∀ item ∈ items, IsLiteralItem item)
    (h : ∀ item ∈ items, Normalizes (itemText layout inner item)
      (itemText layout inner (normalizedItem item))) :
    Normalizes (itemLines layout inner items) (itemLines layout inner (normalizedItems items)) := by
  induction items with
  | nil => exact .of_plain (by simp [itemLines])
  | cons item items ih =>
    have hbare : item.comments = [] ∧ item.trailing = none ∧ (normalizedItem item).comments = [] ∧
        (normalizedItem item).trailing = none := by
      cases hitems item (by simp) <;> exact ⟨rfl, rfl, rfl, rfl⟩
    obtain ⟨hco, htr, hco', htr'⟩ := hbare
    have hrest := ih (fun i hi => hitems i (by simp [hi])) fun i hi => h i (by simp [hi])
    have hline := ((((Normalizes.of_plain (a := "\n" ++ inner) (by simp [hinner])).append
      (h item (by simp))).append (.of_plain (a := ",") (by decide))).append hrest)
    simpa [itemLines, normalizedItems, hco, htr, hco', htr', linesAt, String.append_assoc]
      using hline

theorem normalizedItems_eq_map (items : List ArrayItem) :
    normalizedItems items = items.map normalizedItem := by
  induction items with
  | nil => rfl
  | cons item items ih => rw [normalizedItems, ih, List.map_cons]

/-- An array changes in its items alone when the line endings do, in both layouts. -/
theorem array_normalizes {margin : String} {items : List ArrayItem} (long multiline : Bool)
    (hmargin : '\r' ∉ margin.toList) (hindent : '\r' ∉ layout.indent.toList)
    (hitems : ∀ item ∈ items, IsLiteralItem item)
    (h : ∀ margin : String, '\r' ∉ margin.toList → ∀ item ∈ items,
      Normalizes (itemText layout margin item) (itemText layout margin (normalizedItem item))) :
    Normalizes (text layout margin (.array ⟨items, long, multiline, []⟩))
      (text layout margin (.array ⟨normalizedItems items, long, multiline, []⟩)) := by
  have hinner : '\r' ∉ (margin ++ layout.indent).toList := by simp [hmargin, hindent]
  have hopen : Normalizes (if long then "array(" else "[") (if long then "array(" else "[") :=
    .of_plain (by cases long <;> decide)
  have hclose : Normalizes (if long then ")" else "]") (if long then ")" else "]") :=
    .of_plain (by cases long <;> decide)
  have hempty : (normalizedItems items).isEmpty = items.isEmpty := by
    rw [normalizedItems_eq_map, List.isEmpty_map]
  rw [text, arrayText, text, arrayText, hempty]
  simp only [List.isEmpty_nil, Bool.and_true]
  split
  · have hlines := itemLines_normalizes hinner hitems (h _ hinner)
    have hend : Normalizes ("\n" ++ margin) ("\n" ++ margin) := .of_plain (by simp [hmargin])
    simpa [linesAt, String.append_assoc] using ((hopen.append hlines).append hend).append hclose
  · rw [itemTexts_eq_map, itemTexts_eq_map, normalizedItems_eq_map, List.map_map]
    exact (hopen.append (.commaList (h margin hmargin))).append hclose

/-- An item changes in its key and its value alone when the line endings do. -/
theorem item_normalizes {margin : String} {comments comments' : List String}
    {key key' : Option Expr} {value value' : Expr} (byRef spread : Bool)
    {trailing trailing' : Option String} (hkey : (key = none ∧ key' = none) ∨ ∃ k k', key =
      some k ∧ key' = some k' ∧
      Normalizes (k.text layout margin) (k'.text layout margin))
    (hvalue : Normalizes (value.text layout margin) (value'.text layout margin)) :
    Normalizes (itemText layout margin ⟨comments, key, value, byRef, spread, trailing⟩)
      (itemText layout margin ⟨comments', key', value', byRef, spread, trailing'⟩) := by
  have hspread : Normalizes (if spread then "..." else "") (if spread then "..." else "") :=
    .of_plain (by cases spread <;> decide)
  have hbyRef : Normalizes (if byRef then "&" else "") (if byRef then "&" else "") :=
    .of_plain (by cases byRef <;> decide)
  rcases hkey with ⟨rfl, rfl⟩ | ⟨k, k', rfl, rfl, hkey⟩
  · rw [itemText, itemText]
    exact ((hspread.append (.of_plain (by decide))).append hbyRef).append hvalue
  · rw [itemText, itemText]
    exact ((hspread.append (hkey.append (.of_plain (by decide)))).append hbyRef).append hvalue

mutual

/-- A literal that was made is normalized by normalizing its strings. -/
theorem IsLiteral.normalizes {e : Expr} (h : IsLiteral e) {margin : String}
    (hindent : '\r' ∉ layout.indent.toList) (hmargin : '\r' ∉ margin.toList) :
    Normalizes (e.text layout margin) (e.normalized.text layout margin) := by
  match h with
  | .string value => exact normalizes_string value
  | .int n => exact normalizes_int n
  | .const hname => exact normalizes_name hname
  | .array long multiline hitems =>
    exact array_normalizes long multiline hmargin hindent hitems fun margin hmargin item hitem =>
      (hitems item hitem).normalizes hindent hmargin

theorem IsLiteralItem.normalizes {item : ArrayItem} (h : IsLiteralItem item) {margin : String}
    (hindent : '\r' ∉ layout.indent.toList) (hmargin : '\r' ∉ margin.toList) :
    Normalizes (itemText layout margin item) (itemText layout margin (normalizedItem item)) := by
  match h with
  | .positional byRef hv =>
    exact item_normalizes byRef false (.inl ⟨rfl, rfl⟩) (hv.normalizes hindent hmargin)
  | .spread hv => exact item_normalizes false true (.inl ⟨rfl, rfl⟩) (hv.normalizes hindent hmargin)
  | .keyed byRef hk hv =>
    exact item_normalizes byRef false (.inr ⟨_, _, rfl, rfl, hk.normalizes hindent hmargin⟩)
      (hv.normalizes hindent hmargin)

end

mutual

/-- Normalizing a literal gives a literal. -/
theorem IsLiteral.normalized {e : Expr} (h : IsLiteral e) : IsLiteral e.normalized := by
  match h with
  | .string value => exact .string _
  | .int n => exact .int n
  | .const hname => exact .const hname
  | .array long multiline hitems =>
    refine .array long multiline fun item hitem => ?_
    rw [normalizedItems_eq_map] at hitem
    obtain ⟨item, hmem, rfl⟩ := List.mem_map.1 hitem
    exact (hitems item hmem).normalized

theorem IsLiteralItem.normalized {item : ArrayItem} (h : IsLiteralItem item) :
    IsLiteralItem (normalizedItem item) := by
  match h with
  | .positional byRef hv => exact .positional byRef hv.normalized
  | .spread hv => exact .spread hv.normalized
  | .keyed byRef hk hv => exact .keyed byRef hk.normalized hv.normalized

end

mutual

/-- The values of the string literals in an expression. -/
def strings : Expr → List String
  | .string value _ => [value]
  | .array literal => arrayStrings literal
  | .int _ _ => []
  | .float _ _ => []
  | .const _ => []
  | .raw _ => []

def arrayStrings : ArrayLiteral → List String
  | ⟨items, _, _, _⟩ => itemsStrings items

def itemsStrings : List ArrayItem → List String
  | [] => []
  | item :: items => itemStrings item ++ itemsStrings items

def itemStrings : ArrayItem → List String
  | ⟨_, key, value, _, _, _⟩ =>
      (match key with | some key => strings key | none => []) ++ strings value

end

mutual

theorem strings_spelled : (e : Expr) → (spelled e).strings = e.strings
  | .string value spelling => rfl
  | .array literal => by rw [spelled, strings, strings, arrayStrings_spelled]
  | .int n spelling => by
    rw [spelled]
    split <;> rfl
  | .float x spelling => rfl
  | .const name => rfl
  | .raw code => rfl

theorem arrayStrings_spelled : (literal : ArrayLiteral) →
    arrayStrings (spelledArray literal) = arrayStrings literal
  | ⟨items, _, _, _⟩ => by rw [spelledArray, arrayStrings, arrayStrings, itemsStrings_spelled]

theorem itemsStrings_spelled :
    (items : List ArrayItem) → itemsStrings (spelledItems items) = itemsStrings items
  | [] => rfl
  | item :: items => by
    rw [spelledItems, itemsStrings, itemsStrings, itemStrings_spelled, itemsStrings_spelled]

theorem itemStrings_spelled : (item : ArrayItem) → itemStrings (spelledItem item) = itemStrings item
  | ⟨_, none, value, _, _, _⟩ => by rw [spelledItem, itemStrings, itemStrings, strings_spelled]
  | ⟨_, some key, value, _, _, _⟩ => by
    rw [spelledItem, itemStrings, itemStrings, strings_spelled]
    simp only [strings_spelled]

end

theorem itemsStrings_eq_flatMap (items : List ArrayItem) :
    itemsStrings items = items.flatMap itemStrings := by
  induction items with
  | nil => rfl
  | cons item items ih => rw [itemsStrings, ih, List.flatMap_cons]

mutual

/-- The strings of a literal that was normalized are the normalized strings. -/
theorem IsLiteral.strings_normalized {e : Expr} (h : IsLiteral e) :
    e.normalized.strings = e.strings.map normalizedText := by
  match h with
  | .string value => rfl
  | .int n => rfl
  | .const hname => rfl
  | @IsLiteral.array items long multiline hitems =>
    have hitem : ∀ item ∈ items, itemStrings (normalizedItem item) =
        (itemStrings item).map normalizedText :=
      fun item hmem => (hitems item hmem).strings_normalized
    have htext : (normalizedItems items).flatMap itemStrings =
        (items.flatMap itemStrings).map normalizedText := by
      rw [normalizedItems_eq_map, List.flatMap_map, List.map_flatMap]
      exact List.flatMap_congr hitem
    simpa [Expr.normalized, normalizedArray, strings, arrayStrings, itemsStrings_eq_flatMap]
      using htext

theorem IsLiteralItem.strings_normalized {item : ArrayItem} (h : IsLiteralItem item) :
    itemStrings (normalizedItem item) = (itemStrings item).map normalizedText := by
  match h with
  | .positional byRef hv =>
    simpa [normalizedItem, itemStrings, ArrayItem.positional] using hv.strings_normalized
  | .spread hv =>
      simpa [normalizedItem, itemStrings, ArrayItem.positional] using hv.strings_normalized
  | .keyed byRef hk hv =>
    simp [normalizedItem, itemStrings, ArrayItem.keyed, hk.strings_normalized,
      hv.strings_normalized]

end

mutual

/-- Normalizing changes nothing where no string has a pair in it. -/
theorem IsLiteral.normalized_eq {e : Expr} (h : IsLiteral e)
    (hs : ∀ s ∈ e.strings, normalizedText s = s) :
    e.normalized = e := by
  match h with
  | .string value => rw [Expr.normalized, hs value (by simp [strings])]
  | .int n => rfl
  | .const hname => rfl
  | @IsLiteral.array items long multiline hitems =>
    have hitem : ∀ item ∈ items, normalizedItem item = item := by
      intro item hmem
      refine (hitems item hmem).normalized_eq fun s hs' => hs s ?_
      rw [strings, arrayStrings, itemsStrings_eq_flatMap]
      exact List.mem_flatMap.2 ⟨item, hmem, hs'⟩
    rw [Expr.normalized, normalizedArray, normalizedItems_eq_map, List.map_congr_left hitem,
      List.map_id']

/-- An item without line endings in its strings is normalized already. -/
theorem IsLiteralItem.normalized_eq {item : ArrayItem} (h : IsLiteralItem item)
    (hs : ∀ s ∈ itemStrings item, normalizedText s = s) : normalizedItem item = item := by
  match h with
  | .positional byRef hv =>
    have hvalue := hv.normalized_eq fun s hs' =>
      hs s (by simpa [itemStrings, ArrayItem.positional] using hs')
    simp [normalizedItem, ArrayItem.positional, hvalue]
  | .spread hv =>
    have hvalue := hv.normalized_eq fun s hs' =>
      hs s (by simpa [itemStrings, ArrayItem.positional] using hs')
    simp [normalizedItem, ArrayItem.positional, hvalue]
  | .keyed byRef hk hv =>
    have hkey := hk.normalized_eq fun s hs' => hs s (by simp [itemStrings, ArrayItem.keyed, hs'])
    have hvalue := hv.normalized_eq fun s hs' => hs s (by simp [itemStrings, ArrayItem.keyed, hs'])
    simp [normalizedItem, ArrayItem.keyed, hkey, hvalue]

end

end Expr

namespace LineEnding

theorem countPairs_cons {c : Char} {r : List Char} (h : ∀ s, c = '\r' → r = '\n' :: s → False) :
    countPairs (c :: r) = countPairs r := by
  rw [countPairs]
  exact h

theorem length_normalize (cs : List Char) : (normalize cs).length + countPairs cs = cs.length := by
  fun_induction normalize cs with
  | case1 r ih =>
    simp only [countPairs, List.length_cons]
    omega
  | case2 c r hne ih =>
    rw [countPairs_cons hne, List.length_cons, List.length_cons]
    omega
  | case3 => rfl

/-- Normalizing leaves a text as it is if no pair is in it, and only then. -/
theorem normalize_eq_self {cs : List Char} : normalize cs = cs ↔ countPairs cs = 0 := by
  constructor
  · intro h
    have hlength := length_normalize cs
    rw [h] at hlength
    omega
  · intro h
    fun_induction normalize cs with
    | case1 r ih => simp [countPairs] at h
    | case2 c r hne ih =>
      rw [countPairs_cons hne] at h
      rw [ih h]
    | case3 => rfl

end LineEnding

theorem Expr.normalizedText_eq_self {s : String} :
    normalizedText s = s ↔ LineEnding.countPairs s.toList = 0 := by
  rw [← LineEnding.normalize_eq_self, normalizedText, ← String.toList_inj, String.toList_ofList]

end ClassEdit
