import ClassEdit.File.Parser
import ClassEdit.Proofs.Class.Widening

/-!
Reading a file with carriage returns. `widened` is the file that is read from a source with a
carriage return before each newline. It has carriage returns in its string literals and in the text
outside of the tags, and nowhere else. Main statement: both sources are files or neither is, and the
second is the first one widened.
-/

namespace ClassEdit

open LineEnding (widen)

variable {c c' : Cursor}

namespace ClassDecl

/-- The class with the carriage returns in its values. -/
def widened (c : ClassDecl) : ClassDecl := c.mapValues Expr.widened

end ClassDecl

namespace Stmt

mutual

def widened : Stmt → Stmt
  | .declare s => .declare s
  | .namespace_ decl => .namespace_ (widenedNamespace decl)
  | .import_ i => .import_ i
  | .class_ decl => .class_ decl.widened
  | .html text => .html (widenText text)
  | .raw s => .raw s

def widenedNamespace : NamespaceDecl → NamespaceDecl
  | ⟨trivia, name, braced, stmts, closingComments⟩ =>
    ⟨trivia, name, braced, widenedStmts stmts, closingComments⟩

def widenedStmts : List Stmt → List Stmt
  | [] => []
  | s :: ss => widened s :: widenedStmts ss

end

theorem widenedStmts_eq_map (ss : List Stmt) : widenedStmts ss = ss.map widened := by
  induction ss with
  | nil => rfl
  | cons s ss ih => rw [widenedStmts, List.map_cons, ih]

theorem trivia?_widened (s : Stmt) : s.widened.trivia? = s.trivia? := by
  cases s with
  | namespace_ decl => cases decl; rfl
  | _ => rfl

theorem import?_widened (s : Stmt) : s.widened.import? = s.import? := by
  cases s <;> rfl

end Stmt

namespace SourceFile

def widened (f : SourceFile) : SourceFile :=
  { f with
    prologue := f.prologue.map widenText
    stmts := f.stmts.map Stmt.widened
    epilogue := f.epilogue.map widenText }

end SourceFile

namespace Cursor.Alike

theorem isAtNamespace (h : c.Alike c') : c'.isAtNamespace = c.isAtNamespace := by
  rw [Cursor.isAtNamespace, Cursor.isAtNamespace, h.isAtWord, h.second]

/-- Both sources have a class next or neither has one. -/
theorem isAtClass (h : c.Alike c') : c'.isAtClass = c.isAtClass := by
  obtain ⟨cut, h⟩ := h
  have htokens := h.ahead
  unfold Cursor.isAtClass
  clear h
  generalize c.ahead = ts, c'.ahead = ts' at htokens
  induction htokens with
  | nil => rfl
  | @cons _ t t' ts ts' ht hts ih =>
      rw [List.dropWhile_cons, List.dropWhile_cons, ht.isAnyWord]
      cases t.isAnyWord ["abstract", "final", "readonly"] with
      | true => exact ih
      | false =>
          cases hts with
          | nil => rfl
          | cons hu _ => simp only [ht.isWord, hu.kind, Bool.false_eq_true, if_false]

end Cursor.Alike

namespace Import

theorem readKind_widened (h : c.Alike c') : Step.Alike Eq (readKind c) (readKind c') := by
  unfold readKind
  simp only [h.isAtWord, h.second]
  split
  next => exact ⟨rfl, h.skip 1⟩
  next => exact ⟨rfl, h⟩

theorem readLocalName_widened (h : c.Alike c') :
    Agrees Eq (readLocalName c) (readLocalName c') := by
  unfold readLocalName
  obtain ⟨hs, hs'⟩ | ⟨_, c₁, h₁, _, c₁', h₁', hs, hs', -, hc₁⟩ := (h.takeWord? "as").cases <;>
    simp only [hs, hs']
  · exact ⟨rfl, h⟩
  · refine hc₁.takeName.bind ?_
    rintro name c₂ h₂ _ c₂' h₂' rfl hc₂
    exact ⟨rfl, hc₂⟩

theorem readItem_widened (kind : Option ImportKind) (h : c.Alike c') :
    Agrees Eq (readItem kind c) (readItem kind c') := by
  unfold readItem
  refine h.takeName.bind ?_
  rintro name c₁ h₁ _ c₁' h₁' rfl hc₁
  refine (readLocalName_widened hc₁).bind ?_
  rintro localName c₂ h₂ _ c₂' h₂' rfl hc₂
  exact ⟨rfl, hc₂⟩

/-- The symbols of a group are the same in a widened source. -/
theorem readGroup_widened {c c' : Cursor} (h : c.Alike c') :
    Agrees Eq (readGroup c) (readGroup c') := by
  rw [readGroup, readGroup, h.isAt]
  split
  · exact ⟨rfl, h⟩
  · obtain ⟨hkind, hc₁⟩ := readKind_widened h
    have h₁ := (readKind c).progress
    simp only [← hkind]
    refine (readItem_widened _ hc₁).bind ?_
    rintro item c₂ h₂ _ c₂' h₂' rfl hc₂
    obtain ⟨hs, hs'⟩ | ⟨_, c₃, h₃, _, c₃', h₃', hs, hs', -, hc₃⟩ := (hc₂.take? .comma).cases <;>
      simp only [hs, hs']
    · exact ⟨rfl, hc₂⟩
    · refine (readGroup_widened hc₃).bind ?_
      rintro items c₄ h₄ _ c₄' h₄' rfl hc₄
      exact ⟨rfl, hc₄⟩
termination_by c.size

theorem readFurther_widened {c c' : Cursor} (h : c.Alike c') :
    Agrees Eq (readFurther c) (readFurther c') := by
  rw [readFurther, readFurther]
  obtain ⟨hs, hs'⟩ | ⟨_, c₁, h₁, _, c₁', h₁', hs, hs', -, hc₁⟩ := (h.take? .comma).cases <;>
    simp only [hs, hs']
  · exact ⟨rfl, h⟩
  · refine (readItem_widened none hc₁).bind ?_
    rintro item c₂ h₂ _ c₂' h₂' rfl hc₂
    refine (readFurther_widened hc₂).bind ?_
    rintro items c₃ h₃ _ c₃' h₃' rfl hc₃
    exact ⟨rfl, hc₃⟩
termination_by c.size

/-- The symbols of an import are the same in a widened source. -/
theorem readItems_widened (h : c.Alike c') : Agrees Eq (readItems c) (readItems c') := by
  unfold readItems
  refine h.takeName.bind ?_
  rintro first c₁ h₁ _ c₁' h₁' rfl hc₁
  have hgroup : Finds (fun t t' => t.kind = .leftBrace ∧ ∃ cut, t.Widened cut t')
      (if first.toList.getLast? == some '\\' then c₁.take? .leftBrace else none)
      (if first.toList.getLast? == some '\\' then c₁'.take? .leftBrace else none) := by
    split
    · exact hc₁.take? .leftBrace
    · exact .none
  obtain ⟨hs, hs'⟩ | ⟨_, c₂, h₂, _, c₂', h₂', hs, hs', -, hc₂⟩ :=
    hgroup.cases <;> simp only [hs, hs']
  · refine (readLocalName_widened hc₁).bind ?_
    rintro localName c₂ h₂ _ c₂' h₂' rfl hc₂
    refine (readFurther_widened hc₂).bind ?_
    rintro items c₃ h₃ _ c₃' h₃' rfl hc₃
    exact ⟨rfl, hc₃⟩
  · refine (readGroup_widened hc₂).bind ?_
    rintro items c₃ h₃ _ c₃' h₃' rfl hc₃
    refine (hc₃.take .rightBrace).bind ?_
    rintro _ c₄ h₄ _ c₄' h₄' - hc₄
    exact ⟨rfl, hc₄⟩

/-- An import is the same in a widened source. -/
theorem read_widened (trivia : Trivia) (h : c.Alike c') :
    Agrees Eq (read trivia c) (read trivia c') := by
  unfold read
  refine (h.takeWord "use").bind ?_
  rintro _ c₁ h₁ _ c₁' h₁' - hc₁
  obtain ⟨hkind, hc₂⟩ := readKind_widened hc₁
  simp only [← hkind]
  refine (readItems_widened hc₂).bind ?_
  rintro ⟨base, items⟩ c₃ h₃ _ c₃' h₃' rfl hc₃
  refine (hc₃.take .semicolon).bind ?_
  rintro _ c₄ h₄ _ c₄' h₄' - hc₄
  obtain ⟨htrivia, hc₅⟩ := hc₄.finish trivia
  refine ⟨?_, hc₅⟩
  simp [htrivia]

end Import

namespace Stmt

theorem readRaw_widened (trivia : Trivia) (h : c.Alike c') :
    Agrees Eq (readRaw trivia c) (readRaw trivia c') := by
  have ⟨cut, hcut⟩ := h
  unfold readRaw
  refine Agree.bind hcut.takeStatement ?_
  rintro ⟨ts, c₁, h₁⟩ ⟨ts', c₁', h₁'⟩ ⟨hts, hc₁⟩
  have hc₁ : c₁.Alike c₁' := ⟨false, hc₁⟩
  obtain ⟨htrivia, hc₂⟩ := hc₁.finish trivia
  exact ⟨congr (congrArg RawStmt.mk htrivia) hts.excerptOf_eq.symm, hc₂⟩

/-- A statement is read from both sources or from neither, and differs in its values alone. -/
theorem readOrdinary_widened (h : c.Alike c') :
    Agrees (fun s s' => s' = s.widened) (readOrdinary c) (readOrdinary c') := by
  unfold readOrdinary
  rw [h.leadingTrivia]
  refine h.takeAttributes.bind ?_
  rintro attributes c₁ h₁ _ c₁' h₁' rfl hc₁
  simp only [hc₁.isAtWord, hc₁.isAtClass, hc₁.second]
  split
  · refine (Import.read_widened _ hc₁).bind ?_
    rintro i c₂ h₂ _ c₂' h₂' rfl hc₂
    exact ⟨rfl, hc₂⟩
  · split
    · refine (ClassDecl.read_widened _ hc₁).bind ?_
      rintro decl c₂ h₂ _ c₂' h₂' rfl hc₂
      exact ⟨rfl, hc₂⟩
    · refine (readRaw_widened _ hc₁).bind ?_
      rintro stmt c₂ h₂ _ c₂' h₂' rfl hc₂
      refine ⟨?_, hc₂⟩
      dsimp only
      split <;> rfl

/-- The text between two tags is kept with its line endings, so it is widened. -/
theorem readOutside_widened (h : c.Alike c') :
    Agrees (fun s s' => s' = widenText s) (readOutside c) (readOutside c') := by
  unfold readOutside
  refine (h.take .closeTag).bind ?_
  rintro _ c₁ h₁ _ c₁' h₁' - hc₁
  obtain ⟨hs, hs'⟩ | ⟨t, c₂, h₂, t', c₂', h₂', hs, hs', ⟨-, cut, ht⟩, hc₂⟩ :=
    (hc₁.take? .html).cases <;>
    simp only [hs, hs']
  · exact ⟨rfl, hc₁⟩
  · refine ⟨?_, hc₂⟩
    simp [Lexeme.string, widenText_of_clean ht.clean_text, ht.text_widen]

def Listing.widened (l : Listing) : Listing :=
  { l with stmts := l.stmts.map Stmt.widened, epilogue := l.epilogue.map widenText }

/-- The statements of a namespace are read from both sources or from neither. -/
theorem readInner_widened (braced : Bool) {c c' : Cursor} (h : c.Alike c') :
    Agrees (fun l l' => l' = l.widened) (readInner braced c) (readInner braced c') := by
  have hcomments : Expr.commentTexts c'.head.comments = Expr.commentTexts c.head.comments :=
    h.commentTexts
  rw [readInner, readInner]
  simp only [hcomments, h.isEmpty, h.isAt, h.isAtNamespace]
  split
  · split
    · trivial
    · exact ⟨rfl, h.withoutComments⟩
  split
  · exact ⟨rfl, h⟩
  split
  · split
    · trivial
    · exact ⟨rfl, h⟩
  split
  · refine (readOutside_widened h).bind ?_
    rintro text c₁ h₁ _ c₁' h₁' rfl hc₁
    simp only [hc₁.isEmpty]
    split
    · split
      · trivial
      · exact ⟨rfl, hc₁⟩
    · refine (hc₁.take .openTag).bind ?_
      rintro _ c₂ h₂ _ c₂' h₂' - hc₂
      refine (readInner_widened braced hc₂).bind ?_
      rintro more c₃ h₃ _ c₃' h₃' rfl hc₃
      exact ⟨rfl, hc₃⟩
  · refine (readOrdinary_widened h).bind ?_
    rintro stmt c₁ h₁ _ c₁' h₁' rfl hc₁
    refine (readInner_widened braced hc₁).bind ?_
    rintro more c₂ h₂ _ c₂' h₂' rfl hc₂
    exact ⟨rfl, hc₂⟩
termination_by c.size

theorem readName?_widened (h : c.Alike c') : Step.Alike Eq (readName? c) (readName? c') := by
  unfold readName?
  obtain ⟨hs, hs'⟩ | ⟨t, c₁, h₁, t', c₁', h₁', hs, hs', ⟨hk, cut, ht⟩, hc₁⟩ :=
    (h.take? .word).cases <;>
    simp only [hs, hs']
  · exact ⟨rfl, h⟩
  · exact ⟨congrArg some (ht.string_eq (by rw [hk]; rfl)).symm, hc₁⟩

/-- A namespace differs in the statements in it alone, which are widened. -/
theorem readNamespace_widened (h : c.Alike c') :
    Agrees (fun x x' => x' = (widenedNamespace x.1, x.2.map widenText)) (readNamespace c)
      (readNamespace c') := by
  unfold readNamespace
  rw [h.leadingTrivia]
  refine (h.takeWord "namespace").bind ?_
  rintro _ c₁ h₁ _ c₁' h₁' - hc₁
  obtain ⟨hname, hc₂⟩ := readName?_widened hc₁
  simp only [← hname]
  obtain ⟨hs, hs'⟩ | ⟨_, c₃, h₃, _, c₃', h₃', hs, hs', -, hc₃⟩ := (hc₂.take? .leftBrace).cases <;>
    simp only [hs, hs']
  · cases (readName? c₁).value with
    | none => trivial
    | some name =>
        refine (hc₂.take .semicolon).bind ?_
        rintro _ c₃ h₃ _ c₃' h₃' - hc₃
        obtain ⟨htrivia, hc₄⟩ := hc₃.finish c.leadingTrivia
        simp only [← htrivia]
        refine (readInner_widened false hc₄).bind ?_
        rintro ⟨stmts, closingComments, epilogue⟩ c₅ h₅ _ c₅' h₅' rfl hc₅
        refine ⟨?_, hc₅⟩
        simp [Listing.widened, widenedNamespace, widenedStmts_eq_map]
  · refine (readInner_widened true hc₃).bind ?_
    rintro ⟨stmts, closingComments, epilogue⟩ c₄ h₄ _ c₄' h₄' rfl hc₄
    refine (hc₄.take .rightBrace).bind ?_
    rintro _ c₅ h₅ _ c₅' h₅' - hc₅
    obtain ⟨htrivia, hc₆⟩ := hc₅.finish c.leadingTrivia
    refine ⟨?_, hc₆⟩
    simp [← htrivia, Listing.widened, widenedNamespace, widenedStmts_eq_map]

/-- The statements of a file are read from both sources or from neither. -/
theorem readOuter_widened {c c' : Cursor} (h : c.Alike c') :
    Agrees (fun l l' => l' = l.widened) (readOuter c) (readOuter c') := by
  have hcomments : Expr.commentTexts c'.head.comments = Expr.commentTexts c.head.comments :=
    h.commentTexts
  rw [readOuter, readOuter]
  simp only [hcomments, h.isEmpty, h.isAt, h.isAtNamespace]
  split
  · exact ⟨rfl, h⟩
  split
  · refine (readNamespace_widened h).bind ?_
    rintro ⟨decl, epilogue⟩ c₁ h₁ _ c₁' h₁' rfl hc₁
    refine (readOuter_widened hc₁).bind ?_
    rintro more c₂ h₂ _ c₂' h₂' rfl hc₂
    refine ⟨?_, hc₂⟩
    cases epilogue <;> rfl
  split
  · refine (readOutside_widened h).bind ?_
    rintro text c₁ h₁ _ c₁' h₁' rfl hc₁
    simp only [hc₁.isEmpty]
    split
    · exact ⟨rfl, hc₁⟩
    · refine (hc₁.take .openTag).bind ?_
      rintro _ c₂ h₂ _ c₂' h₂' - hc₂
      refine (readOuter_widened hc₂).bind ?_
      rintro more c₃ h₃ _ c₃' h₃' rfl hc₃
      exact ⟨rfl, hc₃⟩
  · refine (readOrdinary_widened h).bind ?_
    rintro stmt c₁ h₁ _ c₁' h₁' rfl hc₁
    refine (readOuter_widened hc₁).bind ?_
    rintro more c₂ h₂ _ c₂' h₂' rfl hc₂
    exact ⟨rfl, hc₂⟩
termination_by c.size

end Stmt

namespace SourceFile

/-- What stands before the opening tag. -/
theorem prologue_widened (h : c.Alike c') :
    (c.skip (if c.isAt .html then 1 else 0)).Alike (c'.skip (if c'.isAt .html then 1 else 0)) ∧
      (if c'.isAt .html then some c'.head.string else none) =
        (if c.isAt .html then some c.head.string else none).map widenText := by
  obtain ⟨cut, ht⟩ := h.head
  rw [h.isAt]
  refine ⟨h.skip _, ?_⟩
  split
  · simp [Lexeme.string, widenText_of_clean ht.clean_text, ht.text_widen]
  · rfl

/-- A source with a carriage return before each newline is a file if the one without them is. -/
theorem ofSource_widened {source : String} (h : '\r' ∉ source.toList) :
    Agree (fun f f' => f' = f.widened) (ofSource source) (ofSource (widenText source)) := by
  have hlexemes : Agree (fun ls ls' => Lexeme.Chain false ls ls' false)
      (Scan.lexemes .html .start source.toList)
      (Scan.lexemes .html .start (widen source.toList)) :=
    Scan.lexemes_widen nofun rfl h ⟨rfl, rfl⟩
  unfold ofSource Lexeme.ofFile
  rw [widenText, if_neg h, String.toList_ofList]
  refine Agree.bind hlexemes ?_
  rintro ls ls' hls
  obtain ⟨hbehind, hprologue⟩ := prologue_widened (Cursor.alike_ofLexemes hls)
  dsimp only
  rw [hprologue]
  obtain ⟨hs, hs'⟩ | ⟨_, c₁, h₁, _, c₁', h₁', hs, hs', -, hc₁⟩ := (hbehind.take? .openTag).cases <;>
    simp only [hs, hs']
  · trivial
  · refine Agree.bind (Stmt.readOuter_widened hc₁) ?_
    rintro ⟨⟨stmts, closingComments, epilogue⟩, _, _⟩ ⟨_, _, _⟩ ⟨rfl, -⟩
    rfl

end SourceFile

end ClassEdit
