import ClassEdit.File.Parser
import ClassEdit.Proofs.Class.RoutineReading

/-!
Classes are read as they are written. Main statement: the text of a plain class is read as the class
with its values spelled and its spacing settled.
-/

namespace ClassEdit

open Scan (isName Stops IsToken)

namespace Member

variable {layout : Layout} {margin : String}
  (hindent : ∀ d ∈ layout.indent.toList, isBlank d = true)
  (hmargin : ∀ d ∈ margin.toList, isBlank d = true)

include hmargin in
/-- A use of mixins is read back as it is. -/
theorem written_mixins {m : MixinUse} (hm : m.IsPlain) :
    Written (Reads readMixins) (m.text layout margin) m (fun t => t.isWord "use" = true)
      fun _ => True := by
  intro follow P hf hlast hA
  have hblank : ∀ d ∈ '\n' :: margin.toList, isBlank d = true :=
    List.forall_mem_cons.2 ⟨rfl, hmargin⟩
  obtain ⟨names, rules⟩ := m
  cases rules with
  | none =>
    have hend := hA.mark (Scan.isToken_semicolon follow) rfl (by decide)
    have hnames := written_names hm.nonempty hm.names _ _ (Scan.stops_cons.2 (by decide))
      (by rintro _ ⟨p, c, rfl, -⟩; simp) hend
    have htext : (MixinUse.text layout margin ⟨names, none⟩).toList ++ follow =
        ("use" ++ " ").toList ++ ((commaList names).toList ++ ([';'] ++ follow)) := by
      simp [MixinUse.text]
    rw [htext]
    refine (hnames.word rfl).mono ?_
    rintro _ ⟨gap, p, c, rfl, -, -, -, _, hread, q, c', rfl, hc⟩
    obtain ⟨hsize, hread⟩ := hread.eq_ok
    have huse : Lexeme.isWord ⟨gap, .word, "use".toList, p⟩ "use" = true := rfl
    refine ⟨huse, c', ?_, hc⟩
    rw [Reads, readMixins]
    simp only [Cursor.takeWord_push, Token.bare_toLexeme, huse, if_true, ok_bind, hread]
    simp
  | some rules =>
    cases hm.rules rules rfl
    have hclose := hA.token hblank (Scan.isToken_rightBrace follow) rfl (by decide)
    have hopen := hclose.spaced (Scan.isToken_leftBrace _) rfl (by decide)
    have hnames := written_names hm.nonempty hm.names _ _ (Scan.stops_cons.2 (by decide))
      (by rintro _ ⟨p, c, rfl, -⟩; simp) hopen
    have htext : (MixinUse.text layout margin ⟨names, some []⟩).toList ++ follow =
        ("use" ++ " ").toList ++ ((commaList names).toList ++ ([' '] ++ (['\x7b'] ++
          (('\n' :: margin.toList) ++ (['\x7d'] ++ follow))))) := by
      simp [MixinUse.text, InnerStmt.blockText]
    rw [htext]
    refine (hnames.word rfl).mono ?_
    rintro _ ⟨gap, p, c, rfl, -, -, -, _, hread, q, _, rfl, q', c', rfl, hc⟩
    obtain ⟨hsize, hread⟩ := hread.eq_ok
    have huse : Lexeme.isWord ⟨gap, .word, "use".toList, p⟩ "use" = true := rfl
    refine ⟨huse, c', ?_, hc⟩
    obtain ⟨hsize', hblock⟩ := (block_empty (c := c') (t := .bare ⟨[' '], .leftBrace, ['\x7b'], q⟩)
      (u := .bare ⟨'\n' :: margin.toList, .rightBrace, ['\x7d'], q'⟩) rfl rfl rfl).eq_ok
    rw [Reads, readMixins]
    simp only [Cursor.takeWord_push, Token.bare_toLexeme, huse, if_true, ok_bind, hread]
    simp [hblock]

def BeginsOther (c : Cursor) : Prop :=
  c.isAtWord "use" = false ∧ c.head.kind ≠ .attributeOpen ∧ c.head.kind ≠ .rightBrace

theorem reads_bare_constants {c c₁ c' : Cursor} {t : Token} {g : ConstantGroup} (hc : BeginsOther c)
    (hmodifiers : Modifiers.ReadsOn .empty c g.modifiers (c₁.push t)) (ht : t.isWord "const" = true)
    (hread : Reads (readConstants g.modifiers) c₁ g c') : Reads readBare c (.constants g) c' := by
  obtain ⟨hsize, hmodifiers⟩ := hmodifiers.eq
  obtain ⟨hsize', hread⟩ := hread.eq_ok
  rw [Reads, readBare, hc.1]
  generalize hs : Modifiers.read c = s
  rw [hmodifiers] at hs
  subst hs
  simp [ht, hread]

/-- A member with the keyword of a routine is read as one. -/
theorem reads_bare_routine {c c₁ c' : Cursor} {r : Routine} (hc : BeginsOther c)
    (hmodifiers : Modifiers.ReadsOn .empty c r.modifiers c₁)
    (hword : c₁.head.kind = .word ∧ c₁.head.text = "function".toList)
    (hread : Reads (readRoutine r.modifiers) c₁ r c') : Reads readBare c (.routine r) c' := by
  obtain ⟨hsize, hmodifiers⟩ := hmodifiers.eq
  obtain ⟨hsize', hread⟩ := hread.eq_ok
  have hconst : c₁.head.isWord "const" = false := by
    rw [Lexeme.isWord, hword.2]
    exact Bool.and_false _
  have hfunction : c₁.isAtWord "function" = true := by
    rw [Cursor.isAtWord, Lexeme.isWord, hword.1, hword.2]
    rfl
  rw [Reads, readBare, hc.1]
  generalize hs : Modifiers.read c = s
  rw [hmodifiers] at hs
  subst hs
  simp [Cursor.takeWord?_eq_none hconst, hfunction, hread]

/-- A member with modifiers and no keyword is read as fields. -/
theorem reads_bare_fields {c c₁ c' : Cursor} {g : FieldGroup} (hc : BeginsOther c)
    (hmodifiers : Modifiers.ReadsOn .empty c g.modifiers c₁) (hmarked : g.modifiers.isEmpty = false)
    (hword : c₁.head.kind = .word → isMemberWord c₁.head.text = false)
    (hread : Reads (readFields g.modifiers) c₁ g c') : Reads readBare c (.fields g) c' := by
  obtain ⟨hsize, hmodifiers⟩ := hmodifiers.eq
  obtain ⟨hsize', hread⟩ := hread.eq_ok
  have hnone : ∀ w ∈ memberWords, c₁.head.isWord w = false := by
    intro w hw
    rw [Lexeme.isWord, Bool.and_eq_false_iff]
    by_cases hk : c₁.head.kind = .word
    · have hne := hword hk
      rw [isMemberWord, List.any_eq_false] at hne
      exact .inr (Bool.eq_false_iff.2 (hne w hw))
    · exact .inl (beq_eq_false_iff_ne.2 hk)
  have hconst := hnone "const" (by decide)
  have hfunction : c₁.isAtWord "function" = false := hnone "function" (by decide)
  rw [Reads, readBare, hc.1]
  generalize hs : Modifiers.read c = s
  rw [hmodifiers] at hs
  subst hs
  simp [Cursor.takeWord?_eq_none hconst, hfunction, hread, hmarked]

def IsFirst (t : Token) : Prop :=
  t.kind ≠ .attributeOpen ∧ t.kind ≠ .rightBrace

theorem BeginsOther.isFirst {c : Cursor} (h : BeginsOther c) : IsFirst c.head := h.2

theorem beginsOther_of_word {c : Cursor} {w : String}
    (hw : w ∈ "const" :: "function" :: Modifiers.allWords) (hkind : c.head.kind = .word)
    (htext : c.head.text = w.toList) : BeginsOther c := by
  have hall : ∀ w ∈ "const" :: "function" :: Modifiers.allWords,
      (w.toList.map Char.toLower == "use".toList) = false := by decide
  refine ⟨?_, by simp [hkind], by simp [hkind]⟩
  rw [Cursor.isAtWord, Lexeme.isWord, htext, hall w hw, Bool.and_false]

theorem add?_of_word {t : Token} {w : String} (hw : w ∈ ["const", "function"])
    (htext : t.text = w.toList) (m : Modifiers) : m.add? t = none := by
  have hall : ∀ w ∈ ["const", "function"], ∀ v ∈ Modifiers.allWords,
      (w.toList.map Char.toLower == v.toList) = false := by decide
  refine Modifiers.add?_eq_none (fun _ v hv => ?_) m
  rw [htext, hall w hw v hv]

include hindent hmargin in
/-- Constants are read back as a member, with their values spelled. -/
theorem written_constants_member {g : ConstantGroup} (hg : g.IsPlain) :
    Written (Reads readBare) (g.text layout margin) (.constants (g.mapValues Expr.spelled)) IsFirst
      fun _ => True := by
  intro follow P hf hlast hA
  have hgroup := written_constants hindent hmargin hg follow P hf hlast hA
  have hmodifiers := Modifiers.shows_text hg.modifiers (hgroup.word (w := "const") rfl) ?_
  · have htext : (g.text layout margin).toList ++ follow = g.modifiers.text.toList ++
        (("const" ++ " ").toList ++ ((spaced g.type ++ commaList (g.items.map fun c =>
          c.name ++ assigned layout margin (some c.value)) ++ ";").toList ++ follow)) := by
      simp [ConstantGroup.text]
    rw [htext]
    refine hmodifiers.mono ?_
    rintro c ⟨hhead, _, hmods, gap, p, c₁, rfl, -, -, -, c', hread, hc⟩
    have hbegins : BeginsOther c := by
      rcases hhead with ⟨w, hw, hkind, htext⟩ | ⟨-, gap, p, c₁, rfl, -⟩
      · exact beginsOther_of_word (.tail _ (.tail _ hw)) hkind htext
      · exact beginsOther_of_word (.head _) rfl rfl
    exact ⟨hbegins.isFirst, c',
      reads_bare_constants (g := g.mapValues Expr.spelled) hbegins hmods rfl hread, hc⟩
  · rintro _ ⟨gap, p, c, rfl, -⟩
    exact add?_of_word (w := "const") (by decide) rfl

include hindent hmargin in
/-- A routine is read back as a member, and its body gets the layout of an empty one. -/
theorem written_routine_member {r : Routine} (hr : r.IsPlain) :
    Written (Reads readBare) (r.text layout margin)
      (.routine (r.mapValues Expr.spelled).settled) IsFirst
      fun _ => True := by
  intro follow P hf hlast hA
  have hroutine := written_routine hindent hmargin hr follow P hf hlast hA
  have hmodifiers := Modifiers.shows_text hr.modifiers hroutine ?_
  · simp only [Routine.text, String.toList_append, List.append_assoc] at hmodifiers ⊢
    refine hmodifiers.mono ?_
    rintro c ⟨hhead, c₁, hmods, ⟨hkind, htext⟩, c', hread, hc⟩
    have hbegins : BeginsOther c := by
      rcases hhead with ⟨w, hw, hkind, htext⟩ | ⟨-, ⟨hkind, htext⟩, -⟩
      · exact beginsOther_of_word (.tail _ (.tail _ hw)) hkind htext
      · exact beginsOther_of_word (.tail _ (.head _)) hkind htext
    exact ⟨hbegins.isFirst, c', reads_bare_routine (r := (r.mapValues Expr.spelled).settled)
      hbegins hmods
      ⟨hkind, htext⟩ hread, hc⟩
  · rintro c ⟨⟨-, htext⟩, -⟩
    exact add?_of_word (w := "function") (by decide) htext

include hindent hmargin in
/-- Fields are read back as a member, since they have a modifier that tells them from a routine. -/
theorem written_fields_member {g : FieldGroup} (hg : g.IsPlain) :
    Written (Reads readBare) (g.text layout margin) (.fields (g.mapValues Expr.spelled)) IsFirst
      fun _ => True := by
  intro follow P hf hlast hA
  have hgroup := written_fields hindent hmargin hg follow P hf hlast hA
  have hword : ∀ t : Token, t.kind = .var ∨ TypeText.IsFirst t → t.kind = .word →
      isMemberWord t.text = false := by
    rintro t (h | h | h | ⟨-, h⟩) hk
    · simp [h] at hk
    · simp [h] at hk
    · simp [h] at hk
    · exact h
  have hmodifiers := Modifiers.shows_text hg.modifiers hgroup fun c hc =>
    Modifiers.add?_eq_none_of_isMemberWord (hword c.head hc.1)
  have htext : (g.text layout margin).toList ++ follow = g.modifiers.text.toList ++
      ((spaced g.type ++ commaList (g.items.map fun f =>
        "$" ++ f.name ++ assigned layout margin f.default) ++ ";").toList ++ follow) := by
    simp [FieldGroup.text]
  rw [htext]
  refine hmodifiers.mono ?_
  rintro c ⟨hhead, c₁, hmods, hfirst, c', hread, hc⟩
  have hbegins : BeginsOther c := by
    rcases hhead with ⟨w, hw, hkind, htext⟩ | ⟨hnone, -⟩
    · exact beginsOther_of_word (.tail _ (.tail _ hw)) hkind htext
    · have hmarked := hg.marked
      rw [hnone] at hmarked
      cases hmarked
  exact ⟨hbegins.isFirst, c', reads_bare_fields (g := g.mapValues Expr.spelled)
    hbegins hmods hg.marked
    (hword c₁.head hfirst) hread, hc⟩

include hindent hmargin in
/-- A member is read as it is written. -/
theorem written_bare {m : Member} (hm : m.IsPlain) :
    Written (Reads readBare) (m.text layout margin) (m.mapValues Expr.spelled).settled IsFirst
      fun _ => True := by
  cases m with
  | mixins m =>
    intro follow P hf hlast hA
    refine (written_mixins hmargin hm follow P hf hlast hA).mono ?_
    rintro c ⟨huse, c', hread, hc⟩
    have hkind : c.head.kind = .word := by
      simp only [Lexeme.isWord, Bool.and_eq_true, beq_iff_eq] at huse
      exact huse.1
    obtain ⟨hsize, hread⟩ := hread.eq_ok
    refine ⟨⟨by simp [hkind], by simp [hkind]⟩, c', ?_, hc⟩
    rw [Reads, readBare, Cursor.isAtWord, huse]
    simp [hread, mapValues, settled]
  | constants g => exact written_constants_member hindent hmargin hm
  | fields g => exact written_fields_member hindent hmargin hm
  | routine r => exact written_routine_member hindent hmargin hm

/-- No comment stands behind a statement. -/
theorem finish_eq {c : Cursor} (hc : c.head.comments = []) (t : Trivia) :
    c.finish t = ⟨{ t with trailing := none }, c, Nat.le_refl _⟩ := by
  unfold Cursor.finish
  rw [Cursor.sameLineComment_eq_none hc]
  rfl

theorem reads_stmt {c c' : Cursor} {m : Member} (hcomments : c.head.comments = [])
    (hc : c.head.kind ≠ .attributeOpen) (hread : Reads readBare c m c')
    (hc' : c'.head.comments = []) :
    Reads readStmt c ⟨{ Trivia.empty with blankBefore := some c.head.followsBlankLine }, m⟩ c' := by
  obtain ⟨hsize, hread⟩ := hread.eq_ok
  rw [Reads, readStmt, takeAttributes_none hc]
  simp only [ok_bind, hread]
  generalize hs : c'.finish _ = s
  rw [finish_eq hc'] at hs
  subst hs
  simp [Cursor.leadingTrivia, hcomments, Token.first, Expr.commentTexts, Trivia.empty]

theorem reads_all_cons {c c' c'' : Cursor} {m : MemberStmt} {ms : List MemberStmt}
    (hc : c.head.kind ≠ .rightBrace) (hread : Reads readStmt c m c')
    (hrest : Reads readAll c' ms c'') :
    Reads readAll c (m :: ms) c'' := by
  obtain ⟨hsize, hread⟩ := hread.eq_ok
  obtain ⟨hsize', hrest⟩ := hrest.eq_ok
  rw [Reads, readAll, Cursor.isAt, beq_eq_false_iff_ne.2 hc]
  simp [Cursor.isEmpty_ahead hsize, hread, hrest]

end Member

/-- An empty line is read where one is written. -/
theorem count_lineBreak {margin : String} (hmargin : '\n' ∉ margin.toList) (b : Bool) :
    decide (2 ≤ ((lineBreak b).toList ++ margin.toList).count '\n') = b := by
  have hcount : margin.toList.count '\n' = 0 := List.count_eq_zero.2 hmargin
  cases b <;> simp [lineBreak, hcount]

theorem Trivia.IsPlain.eq_settled {t : Trivia} (ht : t.IsPlain) (usual : Bool) :
    { empty with blankBefore := some (t.blankBefore.getD usual) } = t.settled usual := by
  rw [settled, ht]

def IsMargin (margin : String) : Prop :=
  (∀ d ∈ margin.toList, isBlank d = true) ∧ '\n' ∉ margin.toList

theorem IsMargin.append {a b : String} (ha : IsMargin a) (hb : IsMargin b) : IsMargin (a ++ b) := by
  constructor
  · intro d hd
    rw [String.toList_append, List.mem_append] at hd
    exact hd.elim (ha.1 d) (hb.1 d)
  · rw [String.toList_append, List.mem_append, not_or]
    exact ⟨ha.2, hb.2⟩

/-- White space stands between a statement and the next one. -/
theorem IsMargin.isBlank_lineBreak {margin : String} (h : IsMargin margin) (b : Bool) :
    ∀ d ∈ (lineBreak b).toList ++ margin.toList, isBlank d = true := by
  intro d hd
  rcases List.mem_append.1 hd with hd | hd
  · have hnewline : d = '\n' := by
      cases b <;> simpa [lineBreak] using hd
    rw [hnewline]
    rfl
  · exact h.1 d hd

namespace MemberStmt

variable {layout : Layout} {margin inner : String}

/-- Members are read back one by one, up to the brace that closes the class. -/
theorem ahead_members (hindent : IsMargin layout.indent) (hmargin : IsMargin margin)
    (hinner : IsMargin inner) {follow : List Char} {P : Cursor → Prop} (hA : Ahead follow P)
    {ms : List MemberStmt} (hms : ∀ m ∈ ms, m.IsPlain) (previous : Option MemberStmt) :
    Ahead ((listText layout inner previous ms).toList ++
      (('\n' :: margin.toList) ++ (['\x7d'] ++ follow)))
      fun c => c.head.comments = [] ∧ ∃ c' t, t.kind = .rightBrace ∧ t.comments = [] ∧
        Reads Member.readAll c ((settledAfter previous ms).map (·.mapValues Expr.spelled))
          (c'.push t) ∧
          P c' := by
  induction ms generalizing previous with
  | nil =>
    have hblank : ∀ d ∈ '\n' :: margin.toList, isBlank d = true :=
      List.forall_mem_cons.2 ⟨rfl, hmargin.1⟩
    refine (hA.token hblank (Scan.isToken_rightBrace follow) rfl (by decide)).mono ?_
    rintro _ ⟨p, c, rfl, hc⟩
    refine ⟨rfl, c, .bare ⟨'\n' :: margin.toList, .rightBrace, ['\x7d'], p⟩, rfl, rfl, ?_, hc⟩
    rw [Reads, Member.readAll]
    rfl
  | cons m ms ih =>
    obtain ⟨htrivia, hmember⟩ := hms m (by simp)
    have hrest := ih (fun n hn => hms n (by simp [hn])) (some m)
    have hstops : Stops ((listText layout inner (some m) ms).toList ++
        (('\n' :: margin.toList) ++ (['\x7d'] ++ follow))) := by
      cases ms with
      | nil => exact Scan.stops_cons.2 (by decide)
      | cons n ns =>
        cases hb : n.trivia.blankBefore.getD (usualGap (some m) n) <;>
          simp [listText, textAfter, lineBreak, hb, Scan.stops_cons] <;> decide
    have hblank := hinner.isBlank_lineBreak (m.trivia.blankBefore.getD (usualGap previous m))
    have hread := Member.written_bare hindent.1 hinner.1 hmember _ _ hstops
      (fun _ _ => trivial) hrest _ hblank
    have htext : (listText layout inner previous (m :: ms)).toList =
        ((lineBreak (m.trivia.blankBefore.getD (usualGap previous m))).toList ++ inner.toList) ++
          ((m.member.text layout inner).toList ++ (listText layout inner (some m) ms).toList) := by
      rw [listText, textAfter]
      generalize hb : m.trivia.blankBefore.getD (usualGap previous m) = b
      rw [htrivia]
      simp [Trivia.leadingText, Trivia.trailingText, Trivia.empty]
    rw [htext]
    simp only [List.append_assoc] at hread ⊢
    refine hread.mono ?_
    rintro c ⟨hg, hco, ⟨hattr, hbrace⟩, c₁, hread, hco₁, c', t, ht, htc, hrest, hc⟩
    refine ⟨hco, c', t, ht, htc, Member.reads_all_cons hbrace ?_ hrest, hc⟩
    have hstmt := Member.reads_stmt hco hattr hread hco₁
    rw [Lexeme.followsBlankLine, hg, count_lineBreak hinner.2, htrivia.eq_settled,
      Member.settled_mapValues] at hstmt
    exact hstmt

end MemberStmt

namespace ClassDecl

variable {layout : Layout} {margin : String}

theorem reads_modifiers_nil {c : Cursor}
    (h : ∀ w ∈ ["abstract", "final", "readonly"], c.isAtWord w = false) :
    readModifiers c = .here [] := by
  simp only [List.forall_mem_cons] at h
  have hnone : takeModifier? c = none := by
    rw [takeModifier?, Cursor.takeWord?_eq_none h.1, Cursor.takeWord?_eq_none h.2.1,
      Cursor.takeWord?_eq_none h.2.2.1]
    rfl
  rw [readModifiers, hnone]

/-- The keyword of a modifier is taken as that modifier. -/
theorem takeModifier?_push (m : ClassModifier) (c : Cursor) (gap : List Char) (p : Position) :
    takeModifier? (c.push (.bare ⟨gap, .word, m.keyword.toList, p⟩)) =
      some ⟨m, c, c.size_push _⟩ := by
  have habstract : Lexeme.isWord ⟨gap, .word, m.keyword.toList, p⟩ "abstract" =
      (m == .abstract) := by
    cases m <;> rfl
  have hfinal : Lexeme.isWord ⟨gap, .word, m.keyword.toList, p⟩ "final" = (m == .final) := by
    cases m <;> rfl
  have hreadonly : Lexeme.isWord ⟨gap, .word, m.keyword.toList, p⟩ "readonly" =
      (m == .readonly) := by
    cases m <;> rfl
  simp only [takeModifier?, Cursor.takeWord?_push, Token.bare_toLexeme, habstract,
    hfinal, hreadonly]
  cases m <;> rfl

def AtClass (ms : List ClassModifier) (c c' : Cursor) : Prop :=
  c.isAtClass = true ∧ (readModifiers c).value = ms ∧ (readModifiers c).rest = c'

/-- The modifiers of a class are read before the word that declares it. -/
theorem shows_modifiers (ms : List ClassModifier) {rest : List Char} {P : Cursor → Prop}
    (h : Shows rest P) (hP : ∀ c, P c → AtClass [] c c) :
    Shows ((String.join (ms.map fun m => m.keyword ++ " ")).toList ++ rest) fun c =>
      (c.head.kind = .word ∧ (∃ w ∈ ["abstract", "final", "readonly"], c.head.text = w.toList) ∨
        P c) ∧
        ∃ c', AtClass ms c c' ∧ P c' := by
  induction ms with
  | nil => exact h.mono fun c hc => ⟨.inr hc, c, hP c hc, hc⟩
  | cons m ms ih =>
    have hname : isName m.keyword.toList = true := by cases m <;> rfl
    have htext : (String.join ((m :: ms).map fun m => m.keyword ++ " ")).toList =
        (m.keyword ++ " ").toList ++ (String.join (ms.map fun m => m.keyword ++ " ")).toList := by
      rw [List.map_cons, String.join_cons, String.toList_append]
    rw [htext, List.append_assoc]
    refine (ih.word hname).mono ?_
    rintro _ ⟨gap, p, c, rfl, -, -, -, c', ⟨hclass, hvalue, hrest⟩, hc⟩
    refine ⟨.inl ⟨rfl, m.keyword, by cases m <;> decide, rfl⟩, c', ⟨?_, ?_, ?_⟩, hc⟩
    · have hany : Lexeme.isAnyWord ⟨gap, .word, m.keyword.toList, p⟩
          ["abstract", "final", "readonly"] =
          true := by
        cases m <;> rfl
      rw [Cursor.isAtClass, Cursor.ahead_push, List.dropWhile_cons_of_pos (by simpa using hany)]
      exact hclass
    · rw [readModifiers, takeModifier?_push]
      simp [hvalue]
    · rw [readModifiers, takeModifier?_push]
      simp [hrest]

def BeginsBody (words : List String) (c : Cursor) : Prop :=
  c.head.kind = .leftBrace ∨ (c.head.kind = .word ∧ ∃ w ∈ words, c.head.text = w.toList)

theorem BeginsBody.isAtWord {words : List String} {c : Cursor} (h : BeginsBody words c) {v : String}
    (hv : ∀ w ∈ words, (w.toList.map Char.toLower == v.toList) = false) :
    c.head.isWord v = false := by
  rcases h with h | ⟨-, w, hw, h⟩
  · rw [Lexeme.isWord, h]
    rfl
  · rw [Lexeme.isWord, h, hv w hw, Bool.and_false]

theorem reads_interfaces {c c' : Cursor} {t : Token} {names : List String}
    (ht : t.isWord "implements" = true) (hread : Reads Cursor.takeNames c names c') :
    Reads readInterfaces (c.push t) names c' := by
  obtain ⟨hsize, hread⟩ := hread.eq_ok
  rw [Reads, readInterfaces, Cursor.takeWord?_push, if_pos ht]
  simp [hread]

/-- The interfaces of a class are read back, and nothing stands for none of them. -/
theorem ahead_interfaces {names : List String} (hnames : ∀ name ∈ names, isName name.toList = true)
    {follow : List Char} {P : Cursor → Prop} (hf : Stops follow)
    (hP : ∀ c, P c → c.head.kind = .leftBrace) (hA : Ahead follow P) :
    Stops ((if names.isEmpty then "" else " implements " ++ commaList names).toList ++ follow) ∧
      Ahead ((if names.isEmpty then "" else " implements " ++ commaList names).toList ++ follow)
        fun c =>
        BeginsBody ["implements"] c ∧ ∃ c', Reads readInterfaces c names c' ∧ P c' := by
  cases names with
  | nil =>
    refine ⟨hf, hA.mono fun c hc => ⟨.inl (hP c hc), c, ?_, hc⟩⟩
    have hword : c.head.isWord "implements" = false := by
      rw [Lexeme.isWord, hP c hc]
      rfl
    rw [Reads, readInterfaces, Cursor.takeWord?_eq_none hword]
    rfl
  | cons name names =>
    have hlist := Member.written_names (List.cons_ne_nil _ _) hnames follow P hf
      (fun c hc => by simp [hP c hc]) hA
    have htext : (if (name :: names).isEmpty then "" else " implements " ++
        commaList (name :: names)).toList ++ follow =
          [' '] ++
            (("implements" ++ " ").toList ++ ((commaList (name :: names)).toList ++ follow)) := by
      simp
    rw [htext]
    refine ⟨Scan.stops_cons.2 (by decide), ((hlist.word rfl) [' '] isBlank_space).mono ?_⟩
    rintro _ ⟨-, -, gap, p, c, rfl, -, -, -, c', hread, hc⟩
    exact ⟨.inr ⟨rfl, "implements", .head _, rfl⟩, c', reads_interfaces rfl hread, hc⟩

/-- The parent of a class is read back, and nothing stands for none. -/
theorem ahead_parent {parent : Option String} (hparent : ∀ name ∈ parent, isName name.toList = true)
    {follow : List Char} {P : Cursor → Prop} (hf : Stops follow)
    (hP : ∀ c, P c → BeginsBody ["implements"] c) (hA : Ahead follow P) :
    Stops ((parent.elim "" (" extends " ++ ·)).toList ++ follow) ∧
      Ahead ((parent.elim "" (" extends " ++ ·)).toList ++ follow) fun c =>
        ∃ c', Reads readParent c parent c' ∧ P c' := by
  cases parent with
  | none =>
    refine ⟨hf, hA.mono fun c hc => ⟨c, ?_, hc⟩⟩
    rw [Reads, readParent, Cursor.takeWord?_eq_none ((hP c hc).isAtWord (by decide))]
    rfl
  | some name =>
    have hname := shows_name (hparent name rfl) hf hA
    have htext : ((some name).elim "" (" extends " ++ ·)).toList ++ follow =
        [' '] ++ (("extends" ++ " ").toList ++ (name.toList ++ follow)) := by simp
    rw [htext]
    refine ⟨Scan.stops_cons.2 (by decide), ((hname.word rfl) [' '] isBlank_space).mono ?_⟩
    rintro _ ⟨-, -, gap, p, _, rfl, -, -, t, c, rfl, ht, hname, hc⟩
    refine ⟨c, ?_, hc⟩
    have hword : Lexeme.isWord ⟨gap, .word, "extends".toList, p⟩ "extends" = true := rfl
    rw [Reads, readParent, Cursor.takeWord?_push, Token.bare_toLexeme, if_pos hword]
    simp only [Cursor.takeName_push, if_pos ht, hname]
    rfl

/-- A class is read if its parts are: the modifiers, the name, the parent, the
interfaces and the members. -/
theorem reads_class {c c₁ c₂ c₃ c₄ c₅ : Cursor} {t u v w : Token} {d : ClassDecl}
    (hmodifiers : AtClass d.modifiers c (c₁.push t)) (ht : t.isWord "class" = true)
    (hc₁ : c₁ = c₂.push u) (hu : u.kind = .word) (hname : u.string = d.name)
    (hparent : Reads readParent c₂ d.parent c₃)
    (hinterfaces : Reads readInterfaces c₃ d.interfaces (c₄.push v)) (hv : v.kind = .leftBrace)
    (hmembers : Reads Member.readAll c₄ d.members (c₅.push w)) (hw : w.kind = .rightBrace)
    (hcomments : w.comments = []) (hclosing : d.closingComments = []) (hc₅ : c₅.head.comments = [])
    (htrailing : d.trivia.trailing = none) : Reads (read d.trivia) c d c₅ := by
  obtain ⟨-, hvalue, hrest⟩ := hmodifiers
  obtain ⟨hsize₃, hparent⟩ := hparent.eq_ok
  obtain ⟨hsize₄, hinterfaces⟩ := hinterfaces.eq_ok
  obtain ⟨hsize₅, hmembers⟩ := hmembers.eq_ok
  subst hc₁
  rw [Reads, read]
  generalize readModifiers c = s at hvalue hrest
  obtain ⟨ms, rest, hs⟩ := s
  simp only at hvalue hrest
  subst hvalue hrest
  simp only [Cursor.takeWord_push, ht, if_true, ok_bind, Cursor.takeName_push, hu, hparent,
    hinterfaces, Cursor.take_push, hv, hmembers, hw]
  generalize hs : c₅.finish _ = s
  rw [Member.finish_eq hc₅] at hs
  subst hs
  obtain ⟨⟨comments, attributes, blankBefore, trailing⟩, modifiers, name, parent,
    interfaces, members,
    closing⟩ := d
  simp_all [Expr.commentTexts]

/-- The word that declares a class, and its name, without modifiers before them. -/
theorem atClass_nil {c : Cursor} {t u : Token} (hkind : t.kind = .word)
    (htext : t.text = "class".toList) (hu : u.kind = .word) :
    AtClass [] ((c.push u).push t) ((c.push u).push t) := by
  have hword : ∀ w ∈ ["abstract", "final", "readonly"], t.isWord w = false := by
    have hall : ∀ w ∈ ["abstract", "final", "readonly"],
        ("class".toList.map Char.toLower == w.toList) = false := by decide
    intro w hw
    rw [Lexeme.isWord, htext, hall w hw, Bool.and_false]
  have hclass : t.isWord "class" = true := by
    rw [Lexeme.isWord, hkind, htext]
    rfl
  have hany : t.isAnyWord ["abstract", "final", "readonly"] = false := by
    rw [Lexeme.isAnyWord, List.any_eq_false]
    exact fun w hw => by simp [hword w hw]
  have hmodifiers : readModifiers ((c.push u).push t) = .here [] := reads_modifiers_nil hword
  refine ⟨?_, by rw [hmodifiers]; rfl, by rw [hmodifiers]; rfl⟩
  rw [Cursor.isAtClass, Cursor.ahead_push, List.dropWhile_cons_of_neg (by simp [hany])]
  simp [hclass, hu]

theorem toList_text {c : ClassDecl} (hc : c.IsPlain) (follow : List Char) :
    (c.text layout margin).toList ++ follow =
      (String.join (c.modifiers.map fun m => m.keyword ++ " ")).toList ++
        (("class" ++ " ").toList ++
        (c.name.toList ++ ((c.parent.elim "" (" extends " ++ ·)).toList ++
          ((if c.interfaces.isEmpty then "" else " implements " ++ commaList c.interfaces).toList ++
            (('\n' :: margin.toList) ++ (['\x7b'] ++
              ((MemberStmt.listText layout (margin ++ layout.indent) none c.members).toList ++
                (('\n' :: margin.toList) ++ (['\x7d'] ++ follow))))))))) := by
  rw [text, hc.trivia]
  simp [headerText, closingText, hc.closingComments, Expr.linesAt, Trivia.trailingText,
    Trivia.empty]

/-- A plain class is read as it is written. -/
theorem shows_text {c : ClassDecl} (hc : c.IsPlain) (hindent : IsMargin layout.indent)
    (hmargin : IsMargin margin) {follow : List Char} {P : Cursor → Prop}
    (hP : ∀ d, P d → d.head.comments = []) (hA : Ahead follow P) :
    Shows ((c.text layout margin).toList ++ follow) fun d => d.isAtClass = true ∧
      (d.head.kind = .word ∧ ∃ w ∈ ["class", "abstract", "final", "readonly"], d.head.text =
        w.toList) ∧
      ∀ trivia : Trivia, trivia.trailing = none → ∃ d',
        Reads (read trivia) d
          { c with
            trivia
            members := (MemberStmt.settledAfter none c.members).map (·.mapValues Expr.spelled) }
              d' ∧
          P d' := by
  have hblank : ∀ d ∈ '\n' :: margin.toList, isBlank d = true :=
    List.forall_mem_cons.2 ⟨rfl, hmargin.1⟩
  have hmembers := MemberStmt.ahead_members hindent hmargin (hmargin.append hindent)
    hA hc.members none
  have hopen := hmembers.token hblank (Scan.isToken_leftBrace _) rfl (by decide)
  obtain ⟨hstops, hinterfaces⟩ := ahead_interfaces hc.interfaces (Scan.stops_cons.2 (by decide))
    (by rintro _ ⟨p, c, rfl, -⟩; rfl) hopen
  obtain ⟨hstops, hparent⟩ := ahead_parent hc.parent hstops (fun _ hc => hc.1) hinterfaces
  have hclass := (shows_name hc.name hstops hparent).word (w := "class") rfl
  have hmodifiers := shows_modifiers c.modifiers hclass ?_
  · rw [toList_text hc]
    refine hmodifiers.mono ?_
    rintro d ⟨hhead, _, hmods, gap, p, _, rfl, -, -, u, c₂, rfl, hu, hname, hc₂⟩
    obtain ⟨c₃, hparent, -, _, hinterfaces, q, c₄, rfl, -, c₅, w, hw, hcomments, hmembers, hc₅⟩ :=
      hc₂
    refine ⟨hmods.1, ?_, fun trivia htrivia => ⟨c₅, ?_, hc₅⟩⟩
    · rcases hhead with ⟨hkind, w, hw, htext⟩ | ⟨gap, p, c, rfl, -⟩
      · exact ⟨hkind, w, .tail _ hw, htext⟩
      · exact ⟨rfl, "class", .head _, rfl⟩
    · have hword : Lexeme.isWord ⟨gap, .word, "class".toList, p⟩ "class" = true := rfl
      exact reads_class (t := .bare ⟨gap, .word, "class".toList, p⟩) (d := { c with
        trivia
        members := (MemberStmt.settledAfter none c.members).map (·.mapValues Expr.spelled) })
          hmods hword rfl hu
        hname hparent hinterfaces rfl hmembers hw hcomments hc.closingComments (hP c₅ hc₅) htrivia
  · rintro _ ⟨gap, p, _, rfl, -, -, u, c, rfl, hu, -⟩
    exact atClass_nil rfl rfl hu

end ClassDecl

end ClassEdit
