import ClassEdit.Expr.OfValue
import ClassEdit.Proofs.Expr.ArrayReading

/-!
Literals survive being written and read. The text of a literal is a source of its own, in
which nothing follows the literal but the end. Main statement: the literal that is read is
the one that was written, with the spelling it was written in, and so is the literal of every
host value without floats.
-/

namespace ClassEdit

namespace Value

/-- A value in which no float stands at any depth. -/
inductive IsFloatFree : Value → Prop where
  | null : IsFloatFree null
  | bool (b : Bool) : IsFloatFree (bool b)
  | int (n : Int64) : IsFloatFree (int n)
  | string (s : String) : IsFloatFree (string s)
  | list {items : List Value} (h : ∀ v ∈ items, IsFloatFree v) : IsFloatFree (list items)
  | map {entries : List (Key × Value)} (h : ∀ e ∈ entries, IsFloatFree e.2) :
      IsFloatFree (map entries)

end Value

namespace Expr

variable {layout : Layout} {margin : String}

theorem ahead_end : Ahead [] fun c => c.ahead = [] ∧ c.head.kind = .eof :=
  fun pos => ⟨_, Cursor.before_blank pos (List.forall_mem_nil _), rfl, rfl⟩

/-- An expression of which the whole source is the text is what the source is read as. -/
theorem WrittenAs.ofSource_text {e : Expr} (h : WrittenAs layout margin e) :
    ofSource (e.text layout margin) = .ok e.spelled := by
  have hends : ∀ c : Cursor, c.ahead = [] ∧ c.head.kind = .eof → c.head.kind.endsExpr = true := by
    rintro c ⟨-, hkind⟩
    rw [hkind]
    rfl
  have hshows := h.written [] _ nofun hends ahead_end [] (List.forall_mem_nil _)
  obtain ⟨c, ⟨ls, hls, -, -, rfl⟩, -, -, -, c', hread, hend, hkind⟩ := hshows .start
  obtain ⟨hsize, hread⟩ := hread.eq_ok
  rw [List.nil_append, List.append_nil] at hls
  rw [ofSource, Lexeme.ofCode, hls]
  simp only [ok_bind, hread]
  rw [Cursor.accept_eq_false (by rw [hkind]; decide)]
  simp [hend]

/-- The item of one entry. A string key is written before its value; for an integer key only the
value is. -/
def entryItem : Key × Value → ArrayItem
  | (.string k, v) => .keyed (.string k none) (ofValue v)
  | (.int _, v) => .positional (ofValue v)

theorem ofItems_eq_map (items : List Value) :
    ofItems items = items.map fun v => .positional (ofValue v) := by
  induction items with
  | nil => rfl
  | cons v items ih => rw [ofItems, ih, List.map_cons]

theorem ofEntries_eq_map (entries : List (Key × Value)) :
    ofEntries entries = entries.map entryItem := by
  induction entries with
  | nil => rfl
  | cons e entries ih =>
    obtain ⟨_ | k, v⟩ := e
    · rw [ofEntries, ih, List.map_cons, entryItem]
    · rw [ofEntries, ih, List.map_cons, entryItem]

/-- The literal of a value without floats is one that can be made. -/
theorem isLiteral_ofValue {v : Value} (h : v.IsFloatFree) : IsLiteral (ofValue v) := by
  induction h with
  | null => exact .const rfl
  | bool b => cases b <;> exact .const rfl
  | int n => exact .int n
  | string s => exact .string s
  | list _ ih =>
    rw [ofValue, ofItems_eq_map]
    exact .array false false (List.forall_mem_map.2 fun v hv => .positional false (ih v hv))
  | map _ ih =>
    rw [ofValue, ofEntries_eq_map]
    refine .array false false (List.forall_mem_map.2 fun e he => ?_)
    have hv := ih e he
    match e, hv with
    | (.int _, _), hv => exact .positional false hv
    | (.string k, _), hv => exact .keyed false (.string k) hv

/-- A literal that was made is read as it was written, behind any white space for an indentation,
and the literal of a value without floats is one. -/
theorem ofSource_text_literal (hindent : ∀ d ∈ layout.indent.toList, isBlank d = true)
    (hmargin : ∀ d ∈ margin.toList, isBlank d = true) :
    (∀ e : Expr, e.IsLiteral → ofSource (e.text layout margin) = .ok e.spelled) ∧
      ∀ v : Value, v.IsFloatFree → ofSource ((ofValue v).text layout margin) =
        .ok (ofValue v).spelled := by
  have hread : ∀ e : Expr, e.IsLiteral → ofSource (e.text layout margin) = .ok e.spelled :=
    fun e he => (he.writtenAs hindent hmargin).ofSource_text
  exact ⟨hread, fun v hv => hread _ (isLiteral_ofValue hv)⟩

/-- A list of several lines with an empty one, the least integer under a key and quotes in a string,
and the literal of a map with both kinds of keys. -/
theorem ofSource_text_literal_nested :
    let nested : Expr := .array ⟨
      [{ ArrayItem.keyed (.string "a'\\" none) (.int Int64.minValue none) with byRef := true },
        { ArrayItem.positional (.array ⟨[], true, true, []⟩) with spread := true }],
          false, true, []⟩
    let host : Value := .map [(.string "k?>", .int 7), (.int 3, .list [.bool true, .null])]
    ofSource (nested.text .standard "\t") = .ok nested.spelled ∧
      ofSource ((ofValue host).text .standard "\t") = .ok (ofValue host).spelled := by
  intro nested host
  have hindent : ∀ d ∈ Layout.standard.indent.toList, isBlank d = true := by
    simp [Layout.standard, isBlank]
  have hmargin : ∀ d ∈ "\t".toList, isBlank d = true := by
    simp [isBlank]
  have hnested : nested.IsLiteral := by
    refine .array false true ?_
    simp only [List.forall_mem_cons, List.not_mem_nil, false_implies, implies_true, and_true]
    exact ⟨.keyed true (.string _) (.int _), .spread (.array true true (List.forall_mem_nil _))⟩
  have hhost : host.IsFloatFree := by
    refine .map ?_
    simp only [List.forall_mem_cons, List.not_mem_nil, false_implies, implies_true, and_true]
    exact ⟨.int 7, .list (by simpa using ⟨.bool true, .null⟩)⟩
  exact ⟨(ofSource_text_literal hindent hmargin).1 _ hnested,
    (ofSource_text_literal hindent hmargin).2 _ hhost⟩

end Expr

end ClassEdit
