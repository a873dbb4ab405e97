import ClassEdit.Class.Parser
import ClassEdit.Proofs.Class.Plain
import ClassEdit.Proofs.Expr.ArrayReading

/-!
The parts of a member are read as they are written: its modifiers, its type and its default, and the
lists of names, constants and fields.
-/

namespace ClassEdit

open Scan (isName Stops IsToken)

/-- A word and a space before a text. -/
theorem Shows.word {w : String} {rest : List Char} {P : Cursor → Prop} (h : Shows rest P)
    (hw : isName w.toList = true) :
    Shows ((w ++ " ").toList ++ rest) fun c => ∃ gap p c', c =
      c'.push (.bare ⟨gap, .word, w.toList, p⟩) ∧
      c'.head.gap = [' '] ∧ c'.head.comments = [] ∧ P c' := by
  intro gap hgap
  have hword :=
    (h [' '] isBlank_space).token hgap (Scan.isToken_word hw (Scan.stops_cons.2 (by decide))) rfl
    (by decide)
  rw [String.toList_append, List.append_assoc]
  refine hword.mono ?_
  rintro _ ⟨p, c, rfl, hP⟩
  exact ⟨rfl, rfl, gap, p, c, rfl, hP⟩

/-- A name before a text that does not go on with it. -/
theorem shows_name {name : String} (hname : isName name.toList = true) {rest : List Char}
    {P : Cursor → Prop} (hrest : Stops rest) (h : Ahead rest P) :
    Shows (name.toList ++ rest) fun c => ∃ t c', c = Cursor.push c' t ∧ t.kind = .word ∧
      t.string = name ∧ P c' := by
  intro gap hgap
  refine (h.token hgap (Scan.isToken_word hname hrest) rfl (by decide)).mono ?_
  rintro _ ⟨p, c, rfl, hc⟩
  exact ⟨rfl, rfl, _, c, rfl, rfl, by simp, hc⟩

namespace Modifiers

def addWords (m : Modifiers) (ws : List String) : Option Modifiers :=
  ws.foldlM (fun m w => m.add? (.bare ⟨[], .word, w.toList, .start⟩)) m

/-- The words of the modifiers, in the order in which they are written. -/
def words (m : Modifiers) : List String :=
  (if m.isFinal then ["final"] else []) ++ (if m.isAbstract then ["abstract"] else []) ++
    (match m.visibility with
      | some v => [v.keyword]
      | none => if m.isVar then ["var"] else []) ++
    (if m.isStatic then ["static"] else []) ++ (if m.isReadonly then ["readonly"] else [])

theorem text_eq_words (m : Modifiers) : m.text = String.join (m.words.map (· ++ " ")) := rfl

theorem addWords_words {m : Modifiers} (h : m.IsPlain) : empty.addWords m.words = some m := by
  obtain ⟨visibility, isStatic, isAbstract, isFinal, isReadonly, isVar⟩ := m
  rcases visibility with _ | _ | _ | _ <;> cases isVar <;> simp [IsPlain] at h <;>
    cases isStatic <;> cases isAbstract <;> cases isFinal <;> cases isReadonly <;> rfl

def ReadsOn (m : Modifiers) (c : Cursor) (m' : Modifiers) (c' : Cursor) : Prop :=
  readFrom m c.ahead = (m', c'.ahead) ∧ c'.eof = c.eof

theorem ReadsOn.eq {c c' : Cursor} {m : Modifiers} (h : ReadsOn empty c m c') :
    ∃ hc, read c = ⟨m, c', hc⟩ := by
  obtain ⟨ahead, eof⟩ := c'
  obtain ⟨hread, rfl⟩ := h
  have hc := length_readFrom empty c.ahead
  rw [hread] at hc
  refine ⟨hc, ?_⟩
  unfold read
  congr 1
  · rw [hread]
  · rw [hread]

theorem readsOn_here {c : Cursor} {m : Modifiers} (h : ∀ m : Modifiers, m.add? c.head = none) :
    ReadsOn m c m c := by
  refine ⟨?_, rfl⟩
  rcases c.eq_push with hc | ⟨c, t, rfl⟩
  · rw [hc, readFrom]
  · rw [Cursor.ahead_push, readFrom]
    rw [Cursor.head_push] at h
    rw [h]

def allWords : List String :=
  ["final", "abstract", "public", "protected", "private", "var", "static", "readonly"]

theorem isName_of_mem_allWords : ∀ w ∈ allWords, isName w.toList = true := by decide

/-- A token that is none of the words is no modifier. -/
theorem add?_eq_none {t : Token}
    (h : t.kind = .word → ∀ w ∈ allWords, (t.text.map Char.toLower == w.toList) = false)
    (m : Modifiers) :
    m.add? t = none := by
  have hword : ∀ w ∈ allWords, t.isWord w = false := by
    intro w hw
    rw [Lexeme.isWord, Bool.and_eq_false_iff]
    by_cases hk : t.kind = .word
    · exact .inr (h hk w hw)
    · exact .inl (beq_eq_false_iff_ne.2 hk)
  simp only [allWords, List.forall_mem_cons] at hword
  simp [add?, hword]

theorem add?_eq_none_of_isMemberWord {t : Token} (h : t.kind = .word → isMemberWord t.text = false)
    (m : Modifiers) : m.add? t = none := by
  refine add?_eq_none (fun hk w hw => ?_) m
  have hsub : ∀ w ∈ allWords, w ∈ memberWords := by decide
  have hne := h hk
  rw [isMemberWord, List.any_eq_false] at hne
  exact Bool.eq_false_iff.2 (hne w (hsub w hw))

theorem mem_allWords_of_mem_words {m : Modifiers} {w : String} (hw : w ∈ m.words) :
    w ∈ allWords := by
  simp only [words, List.mem_append] at hw
  rcases hw with (((hw | hw) | hw) | hw) | hw
  · split at hw <;> simp_all [allWords]
  · split at hw <;> simp_all [allWords]
  · generalize m.visibility = visibility at hw
    rcases visibility with _ | _ | _ | _
    · split at hw <;> simp_all [allWords]
    all_goals simp_all [Visibility.keyword, allWords]
  · split at hw <;> simp_all [allWords]
  · split at hw <;> simp_all [allWords]

/-- Modifiers that are written one behind the other are read one by one, up to the
first word that is none. -/
theorem shows_words {ws : List String} {rest : List Char} {P : Cursor → Prop} (h : Shows rest P)
    (hP : ∀ c, P c → ∀ m : Modifiers, m.add? c.head = none)
    (hws : ∀ w ∈ ws, w ∈ allWords) {m m' : Modifiers} (hm : m.addWords ws = some m') :
    Shows ((String.join (ws.map (· ++ " "))).toList ++ rest) fun c =>
      ((∃ w ∈ allWords, c.head.kind = .word ∧ c.head.text = w.toList) ∨ (m' = m ∧ P c)) ∧
        ∃ c', ReadsOn m c m' c' ∧ P c' := by
  induction ws generalizing m with
  | nil =>
    cases hm
    exact h.mono fun c hc => ⟨.inr ⟨rfl, hc⟩, c, readsOn_here (hP c hc), hc⟩
  | cons w ws ih =>
    simp only [addWords, List.foldlM_cons, Option.bind_eq_bind, Option.bind_eq_some_iff] at hm
    obtain ⟨m₁, hadd, hm⟩ := hm
    have hw := hws w (by simp)
    have hword := (ih (fun v hv => hws v (by simp [hv])) hm).word (isName_of_mem_allWords w hw)
    have htext : (String.join ((w :: ws).map (· ++ " "))).toList =
        (w ++ " ").toList ++ (String.join (ws.map (· ++ " "))).toList := by
      rw [List.map_cons, String.join_cons, String.toList_append]
    rw [htext, List.append_assoc]
    refine hword.mono ?_
    rintro _ ⟨gap, p, c, rfl, -, -, -, c', ⟨hread, heof⟩, hc⟩
    refine ⟨.inl ⟨w, hw, rfl, rfl⟩, c', ⟨?_, heof⟩, hc⟩
    have hadd' : m.add? (.bare ⟨gap, .word, w.toList, p⟩) = some m₁ := hadd
    rw [Cursor.ahead_push, readFrom, hadd']
    exact hread

/-- Modifiers before a text that begins with none. -/
theorem shows_text {m : Modifiers} (hm : m.IsPlain) {rest : List Char} {P : Cursor → Prop}
    (h : Shows rest P) (hP : ∀ c, P c → ∀ m : Modifiers, m.add? c.head = none) :
    Shows (m.text.toList ++ rest) fun c =>
      ((∃ w ∈ allWords, c.head.kind = .word ∧ c.head.text = w.toList) ∨ (m = empty ∧ P c)) ∧
        ∃ c', ReadsOn empty c m c' ∧ P c' :=
  shows_words h hP (fun _ => mem_allWords_of_mem_words) (addWords_words hm)

end Modifiers

namespace TypeText

/-- A type behind which the reader does not stand before an equals sign has none as its second
token. -/
theorem second_ne_equals {c c' : Cursor} {x : String} (h : Reads read c x c')
    (hc' : c'.head.kind ≠ .equals) : c.second.kind ≠ .equals := by
  intro hsecond
  rcases c.eq_push with hc | ⟨c₁, t, rfl⟩
  · obtain ⟨hsize, -⟩ := h.eq_ok
    simp [Cursor.size, hc] at hsize
  rw [Cursor.second_push] at hsecond
  have hjoint : joint? c₁ = none := joint?_eq_none (by simp [hsecond]) (by simp [hsecond])
  have hname : ∀ k ≠ TokenKind.equals, c₁.take? k = none := fun k hk =>
    Cursor.take?_eq_none (by rw [hsecond]; exact hk.symm)
  have hpart : readPart c₁ = .error (c₁.unexpected .type) := by
    rw [readPart, hname _ (by decide), hname _ (by decide)]
  have hintersection : readIntersection c₁ = .error (c₁.unexpected .name) := by
    rw [readIntersection, Cursor.takeName, hname _ (by decide)]
    rfl
  rw [Reads, read, Cursor.take?_push] at h
  by_cases hquestion : t.kind = .question
  · rw [if_pos hquestion] at h
    simp [readParts, hpart, Except.map, bind, Except.bind] at h
  · rw [if_neg hquestion] at h
    simp only at h
    rw [readParts, readPart, Cursor.take?_push, Cursor.take?_push] at h
    by_cases hparen : t.kind = .leftParen
    · simp [hparen, hintersection, Except.map, bind, Except.bind] at h
    · by_cases hword : t.kind = .word
      · simp [hword, hjoint] at h
        exact hc' (h.2 ▸ hsecond)
      · simp [hparen, hword, Except.map, bind, Except.bind] at h

end TypeText

namespace Member

/-- A type and a space, or nothing, before a text that does not go on with a type. -/
theorem shows_spaced {type : Option String} (htype : TypeText.IsOptional type) {rest : List Char}
    {P : Cursor → Prop} (h : Shows rest P) (hP : ∀ c, P c → TypeText.joint? c = none) :
    Shows ((spaced type).toList ++ rest) fun c => (type = none ∧ P c) ∨
      ∃ x, type = some x ∧ TypeText.IsFirst c.head ∧ ∃ c', Reads TypeText.read c x c' ∧ P c' := by
  intro gap hgap
  cases type with
  | none =>
    refine (h gap hgap).mono ?_
    rintro c ⟨hg, hco, hc⟩
    exact ⟨hg, hco, .inl ⟨rfl, hc⟩⟩
  | some x =>
    have hrest := (h [' '] isBlank_space).mono fun c hc => hc.2.2
    have hx :=
      TypeText.written_type (htype x rfl) _ P (Scan.stops_cons.2 (by decide)) hP hrest gap hgap
    have htext : (spaced (some x)).toList ++ rest = x.toList ++ ([' '] ++ rest) := by simp [spaced]
    rw [htext]
    refine hx.mono ?_
    rintro c ⟨hg, hco, hfirst, c', hread, hc⟩
    exact ⟨hg, hco, .inr ⟨x, rfl, hfirst, c', hread, hc⟩⟩

theorem readTypeUnless_true (c : Cursor) :
    readTypeUnless true c = .ok ⟨none, c, Nat.le_refl _⟩ :=
  rfl

theorem readTypeUnless_false {c c' : Cursor} {x : String} (h : Reads TypeText.read c x c') :
    ∃ hc, readTypeUnless false c = .ok ⟨some x, c', hc⟩ := by
  obtain ⟨hsize, hread⟩ := h.eq_ok
  refine ⟨Nat.le_of_succ_le hsize, ?_⟩
  simp [readTypeUnless, hread]
  rfl

section Values

variable {layout : Layout} {margin : String}
  (hindent : ∀ d ∈ layout.indent.toList, isBlank d = true)
  (hmargin : ∀ d ∈ margin.toList, isBlank d = true)
include hindent hmargin

/-- A value behind an equals sign, or nothing. -/
theorem ahead_assigned {value : Option Expr} (hvalue : ∀ e ∈ value, e.IsLiteral)
    {follow : List Char} {P : Cursor → Prop} (hf : Stops follow)
    (hP : ∀ c, P c → c.head.kind.endsExpr = true) (hA : Ahead follow P) :
    Stops ((assigned layout margin value).toList ++ follow) ∧
      Ahead ((assigned layout margin value).toList ++ follow) fun c =>
        ∃ c', Reads readDefault c (value.map Expr.spelled) c' ∧ P c' := by
  cases value with
  | none =>
    refine ⟨hf, hA.mono fun c hc => ⟨c, ?_, hc⟩⟩
    have hkind : c.head.kind ≠ .equals := by
      intro h
      have hend := hP c hc
      rw [h] at hend
      cases hend
    rw [Reads, readDefault, Cursor.take?_eq_none hkind]
    rfl
  | some e =>
    have he := ((hvalue e rfl).writtenAs hindent hmargin).written follow P hf hP hA
      [' '] isBlank_space
    have hequals := he.spaced (Scan.isToken_equals _) rfl (by decide)
    have htext : (assigned layout margin (some e)).toList ++ follow =
        [' '] ++ (['='] ++ ([' '] ++ ((e.text layout margin).toList ++ follow))) := by
      simp [assigned]
    rw [htext]
    refine ⟨Scan.stops_cons.2 (by decide), hequals.mono ?_⟩
    rintro _ ⟨p, c, rfl, -, -, -, c', hread, hc⟩
    obtain ⟨hsize, hread⟩ := hread.eq_ok
    refine ⟨c', ?_, hc⟩
    rw [Reads, readDefault]
    simp [hread]

def ReadsConstant (c : Cursor) (v : Constant) (c' : Cursor) : Prop :=
  ∃ t u c₁, c = (c₁.push u).push t ∧ t.kind = .word ∧ t.string = v.name ∧ u.kind = .equals ∧
    Reads Expr.read c₁ v.value c'

/-- A constant is read back with its value spelled. -/
theorem written_constant {v : Constant} (hv : v.IsPlain) :
    Written ReadsConstant (v.name ++ assigned layout margin (some v.value))
      (v.mapValue Expr.spelled)
      (fun t => t.kind = .word) fun c => c.head.kind.endsExpr = true := by
  intro follow P hf hlast hA gap hgap
  have he := (hv.value.writtenAs hindent hmargin).written follow P hf hlast hA [' '] isBlank_space
  have hequals := he.spaced (Scan.isToken_equals _) rfl (by decide)
  have hname := hequals.token hgap (Scan.isToken_word hv.name (Scan.stops_cons.2 (by decide))) rfl
    (by decide)
  have htext : (v.name ++ assigned layout margin (some v.value)).toList ++ follow =
      v.name.toList ++
        ([' '] ++ (['='] ++ ([' '] ++ ((v.value.text layout margin).toList ++ follow)))) := by
    simp [assigned]
  rw [htext]
  refine hname.mono ?_
  rintro _ ⟨p, _, rfl, p', c, rfl, -, -, -, c', hread, hc⟩
  exact ⟨rfl, rfl, rfl, c', ⟨_, _, c, rfl, rfl, by simp [Constant.mapValue], rfl, hread⟩, hc⟩

def ReadsField (c : Cursor) (v : Field) (c' : Cursor) : Prop :=
  ∃ t c₁, c = Cursor.push c₁ t ∧ t.kind = .var ∧ String.ofList t.text.tail = v.name ∧
    Reads readDefault c₁ v.default c'

/-- A field is read back with its default spelled. -/
theorem written_field {v : Field} (hv : v.IsPlain) :
    Written ReadsField ("$" ++ v.name ++ assigned layout margin v.default) (v.mapValue Expr.spelled)
      (fun t => t.kind = .var) fun c => c.head.kind.endsExpr = true := by
  intro follow P hf hlast hA gap hgap
  obtain ⟨hstops, hdefault⟩ := ahead_assigned hindent hmargin hv.default hf hlast hA
  have hname := hdefault.token hgap (Scan.isToken_var hv.name hstops) rfl (by decide)
  have htext : ("$" ++ v.name ++ assigned layout margin v.default).toList ++ follow =
      ('$' :: v.name.toList) ++ ((assigned layout margin v.default).toList ++ follow) := by
    simp
  rw [htext]
  refine hname.mono ?_
  rintro _ ⟨p, c, rfl, c', hread, hc⟩
  exact ⟨rfl, rfl, rfl, c', ⟨_, c, rfl, rfl, by simp [Field.mapValue], hread⟩, hc⟩

/-- The type and the constants behind their keyword. -/
theorem written_constants {g : ConstantGroup} (hg : g.IsPlain) :
    Written (Reads (readConstants g.modifiers)) (spaced g.type ++
        commaList (g.items.map fun c => c.name ++ assigned layout margin (some c.value)) ++ ";")
      (g.mapValues Expr.spelled) (fun _ => True) fun _ => True := by
  intro follow P hf hlast hA
  have hend := hA.mark (Scan.isToken_semicolon follow) rfl (by decide)
  have hitems : Written (fun c vs c' => c.second.kind = .equals ∧ Reads readConstantItems c vs c')
      (commaList (g.items.map fun c => c.name ++ assigned layout margin (some c.value)))
      (g.items.map (·.mapValue Expr.spelled)) (fun t => t.kind = .word)
      fun c => c.head.kind.endsExpr = true ∧ c.head.kind ≠ .comma := by
    refine written_commaList ReadsConstant ?_ ?_ ?_ hg.nonempty
      fun v hv => written_constant hindent hmargin (hg.items v hv)
    · rintro _ c' v ⟨t, u, c, rfl, ht, hname, hu, hread⟩ hc'
      obtain ⟨hsize, hread⟩ := hread.eq_ok
      refine ⟨hu, ?_⟩
      rw [Reads, readConstantItems]
      simp [ht, hu, hread, Cursor.take?_eq_none hc', hname]
    · rintro _ c' c'' s v vs ⟨t, u, c, rfl, ht, hname, hu, hread⟩ hs ⟨-, hrest⟩
      obtain ⟨hsize, hread⟩ := hread.eq_ok
      obtain ⟨hsize', hrest⟩ := hrest.eq_ok
      refine ⟨hu, ?_⟩
      rw [Reads, readConstantItems]
      simp [ht, hu, hread, hs, hrest, hname]
    · intro c t ht
      simp [ht, TokenKind.endsExpr]
  have hlist := hitems _ _ (Scan.stops_cons.2 (by decide))
    (by rintro _ ⟨p, c, rfl, -⟩; exact ⟨rfl, by simp⟩) hend
  have hgroup := shows_spaced hg.type hlist
    (by rintro c ⟨hword, -⟩; exact TypeText.joint?_eq_none (by simp [hword]) (by simp [hword]))
  intro gap hgap
  simp only [String.toList_append, List.append_assoc]
  refine (hgroup gap hgap).mono ?_
  rintro c ⟨hg', hco, hc⟩
  refine ⟨hg', hco, trivial, ?_⟩
  rcases hc with ⟨htype, hword, _, ⟨hsecond, hread⟩, p, c', rfl, hP⟩ |
    ⟨x, htype, -, c₁, htypeRead, hword, _, ⟨-, hread⟩, p, c', rfl, hP⟩
  · obtain ⟨hsize, hread⟩ := hread.eq_ok
    refine ⟨c', ?_, hP⟩
    rw [Reads, readConstants, hsecond, beq_self_eq_true, readTypeUnless_true]
    simp [hread, ConstantGroup.mapValues, htype]
  · have hsecond := TypeText.second_ne_equals htypeRead (by simp [hword])
    obtain ⟨hsize, htypeRead⟩ := readTypeUnless_false htypeRead
    obtain ⟨hsize', hread⟩ := hread.eq_ok
    refine ⟨c', ?_, hP⟩
    rw [Reads, readConstants, beq_eq_false_iff_ne.2 hsecond, htypeRead]
    simp [hread, ConstantGroup.mapValues, htype]

/-- The type and the fields behind their modifiers. -/
theorem written_fields {g : FieldGroup} (hg : g.IsPlain) :
    Written (Reads (readFields g.modifiers)) (spaced g.type ++
        commaList (g.items.map fun f => "$" ++ f.name ++ assigned layout margin f.default) ++ ";")
      (g.mapValues Expr.spelled) (fun t => t.kind = .var ∨ TypeText.IsFirst t) fun _ => True := by
  intro follow P hf hlast hA
  have hend := hA.mark (Scan.isToken_semicolon follow) rfl (by decide)
  have hitems : Written (Reads readFieldItems)
      (commaList (g.items.map fun f => "$" ++ f.name ++ assigned layout margin f.default))
      (g.items.map (·.mapValue Expr.spelled)) (fun t => t.kind = .var)
      fun c => c.head.kind.endsExpr = true ∧ c.head.kind ≠ .comma := by
    refine written_commaList ReadsField ?_ ?_ ?_ hg.nonempty
      fun v hv => written_field hindent hmargin (hg.items v hv)
    · rintro _ c' v ⟨t, c, rfl, ht, hname, hread⟩ hc'
      obtain ⟨hsize, hread⟩ := hread.eq_ok
      rw [Reads, readFieldItems]
      simp [ht, hread, Cursor.take?_eq_none hc', hname]
    · rintro _ c' c'' s v vs ⟨t, c, rfl, ht, hname, hread⟩ hs hrest
      obtain ⟨hsize, hread⟩ := hread.eq_ok
      obtain ⟨hsize', hrest⟩ := hrest.eq_ok
      rw [Reads, readFieldItems]
      simp [ht, hread, hs, hrest, hname]
    · intro c t ht
      simp [ht, TokenKind.endsExpr]
  have hlist := hitems _ _ (Scan.stops_cons.2 (by decide))
    (by rintro _ ⟨p, c, rfl, -⟩; exact ⟨rfl, by simp⟩) hend
  have hgroup := shows_spaced hg.type hlist
    (by rintro c ⟨hvar, -⟩; exact TypeText.joint?_eq_none (by simp [hvar]) (by simp [hvar]))
  intro gap hgap
  simp only [String.toList_append, List.append_assoc]
  refine (hgroup gap hgap).mono ?_
  rintro c ⟨hg', hco, hc⟩
  rcases hc with ⟨htype, hvar, _, hread, p, c', rfl, hP⟩ |
    ⟨x, htype, hfirst, c₁, htypeRead, -, _, hread, p, c', rfl, hP⟩
  · obtain ⟨hsize, hread⟩ := hread.eq_ok
    refine ⟨hg', hco, .inl hvar, c', ?_, hP⟩
    rw [Reads, readFields, Cursor.isAt, hvar, beq_self_eq_true, readTypeUnless_true]
    simp [hread, FieldGroup.mapValues, htype]
  · have hvar : c.head.kind ≠ .var := by
      rcases hfirst with h | h | ⟨h, -⟩ <;> simp [h]
    obtain ⟨hsize, htypeRead⟩ := readTypeUnless_false htypeRead
    obtain ⟨hsize', hread⟩ := hread.eq_ok
    refine ⟨hg', hco, .inr hfirst, c', ?_, hP⟩
    rw [Reads, readFields, Cursor.isAt, beq_eq_false_iff_ne.2 hvar, htypeRead]
    simp [hread, FieldGroup.mapValues, htype]

end Values

def ReadsName (c : Cursor) (v : String) (c' : Cursor) : Prop :=
  ∃ t, c = c'.push t ∧ t.kind = .word ∧ t.string = v

/-- Names with commas between them are read back, if no comma follows. -/
theorem written_names {names : List String} (hne : names ≠ [])
    (hnames : ∀ name ∈ names, isName name.toList = true) :
    Written (Reads Cursor.takeNames) (commaList names) names (fun t => t.kind = .word)
      fun c => c.head.kind ≠ .comma := by
  have hlist : Written (Reads Cursor.takeNames) (commaList (names.map id)) (names.map id)
      (fun t => t.kind = .word) fun c => True ∧ c.head.kind ≠ .comma := by
    refine written_commaList ReadsName ?_ ?_ (fun _ _ _ => trivial) hne ?_
    · rintro _ c' v ⟨t, rfl, ht, hname⟩ hc'
      rw [Reads, Cursor.takeNames]
      simp [ht, Cursor.take?_eq_none hc', hname]
    · rintro _ c' c'' s v vs ⟨t, rfl, ht, hname⟩ hs hrest
      obtain ⟨hsize, hrest⟩ := hrest.eq_ok
      rw [Reads, Cursor.takeNames]
      simp [ht, hs, hrest, hname]
    · intro name hname follow P hf hlast hA gap hgap
      refine (hA.token hgap (Scan.isToken_word (hnames name hname) hf) rfl (by decide)).mono ?_
      rintro _ ⟨p, c, rfl, hP⟩
      exact ⟨rfl, rfl, rfl, c, ⟨_, rfl, rfl, by simp⟩, hP⟩
  rw [List.map_id] at hlist
  exact fun follow P hf hlast hA => hlist follow P hf (fun c hc => ⟨trivial, hlast c hc⟩) hA

end Member

end ClassEdit
