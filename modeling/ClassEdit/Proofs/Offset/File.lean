import ClassEdit.Proofs.File.Comments
import ClassEdit.Proofs.Offset.Class

/-!
Reading files by the number of the next token and the offset up to which statements have been read.
One loop reads the statements of a file, of a namespace and of a namespace between braces. Main
statement: with a round for each token that is left and one for the end, a file comes to the same as
with the reader that goes from cursor to cursor.
-/

namespace ClassEdit

open Lexeme (extent)
open Stmt (Listing)

/-- Where a list of statements stops: at the end, also at the next namespace, or at a closing
brace. -/
inductive Scope where
  | file
  | namespace_
  | braces
deriving DecidableEq

namespace Reading

section Imports

/-- The word for a kind of symbols, if a name follows it. -/
def importKind : Reading (Option ImportKind) := do
  let l ← peek
  let kind := if l.isWord "function" then some .function else if l.isWord "const"
    then some .const else none
  if kind.isSome && (← peekAt 1).kind == .word then
    let _ ← advance
    return kind
  else return none

def localName : Reading (Option String) := do
  if ← eatWord "as" then return some (← expectName .name) else return none

def importItem (kind : Option ImportKind) : Reading ImportItem := do
  let name ← expectName .name
  let localName ← localName
  return { kind, name, localName }

/-- The symbols of a group up to its closing brace, which stays ahead. -/
def importGroup : Nat → Reading (List ImportItem)
  | 0 => exhausted
  | n + 1 => do
    if ← isAt .rightBrace then return []
    else
      let kind ← importKind
      let item ← importItem kind
      if ← eat .comma then return item :: (← importGroup n) else return [item]

def importFurther : Nat → Reading (List ImportItem)
  | 0 => exhausted
  | n + 1 => do
    if ← eat .comma then
      let item ← importItem none
      return item :: (← importFurther n)
    else return []

/-- The symbols of an import behind its kind, in a group or in a list. -/
def importItems (n : Nat) : Reading (Option String × List ImportItem) := do
  let first ← expectName .name
  if ← (if first.toList.getLast? == some '\\' then eat .leftBrace else return false) then
    let items ← importGroup n
    let _ ← expect .rightBrace
    return (some (Import.dropSeparators first), items)
  else
    let localName ← localName
    let items ← importFurther n
    return (none, ⟨none, first, localName⟩ :: items)

/-- An import behind its comments, which are given. -/
def importDecl (n : Nat) (trivia : Trivia) : Reading Import := do
  let _ ← expectWord "use"
  let kind ← importKind
  let (base, items) ← importItems n
  let _ ← expect .semicolon
  let trivia ← finish trivia
  return { trivia, kind := kind.getD .class_, base, items }

end Imports

def isAtNamespace : Reading Bool := do
  let behind := (← peekAt 1).kind
  return (← peek).isWord "namespace" && (behind == .word || behind == .leftBrace)

def pastModifiers : Nat → Nat → Reading Nat
  | 0, _ => exhausted
  | n + 1, i => do
    if (← peekAt i).isAnyWord ["abstract", "final", "readonly"] then pastModifiers n (i + 1)
      else return i

def isAtClass (n : Nat) : Reading Bool := do
  let i ← pastModifiers n 0
  let behind := (← peekAt (i + 1)).kind
  return (← peekAt i).isWord "class" && behind == .word

/-- A statement as text behind its comments and attributes, which are given. -/
def rawStatement (n : Nat) (trivia : Trivia) : Reading RawStmt := do
  let text ← textOf (statement n)
  let trivia ← finish trivia
  return ⟨trivia, text⟩

/-- A statement that is no namespace, behind its comments and attributes, which are given. -/
def ordinary (n : Nat) (trivia : Trivia) : Reading Stmt := do
  let first ← peek
  let second := (← peekAt 1).kind
  if trivia.attributes.isEmpty && first.isWord "use" then return .import_ (← importDecl n trivia)
  else if ← isAtClass n then return .class_ (← classDecl n trivia)
  else
    let stmt ← rawStatement n trivia
    let isDeclare := trivia.attributes.isEmpty && first.isWord "declare" && second == .leftParen
    return if isDeclare then .declare stmt else .raw stmt

/-- A statement with the comments and the attributes before it, and the text that ends it with the
file. Namespaces are left to another reader. -/
def topStatement (n : Nat) (nested : Trivia → Reading (Stmt × Option String)) :
    Reading (Stmt × Option String) := do
  let trivia ← leadingTrivia
  let attributes ← attributes n
  let trivia := { trivia with attributes }
  if attributes.isEmpty && (← isAtNamespace) then nested trivia
    else return (← ordinary n trivia, none)

def eatText (k : TokenKind) : Reading (Option String) :=
  return (← eatIf (·.kind == k)).map (·.string)

def outsideText : Reading String := do
  let _ ← advance
  return (← eatText .html).getD ""

/-- The text behind a closing tag, and whether code follows it. -/
def inlineHtml : Reading (String × Bool) := do
  let text ← outsideText
  if ← isAt .eof then return (text, false)
  else
    let opening ← expect .openTag
    setEnd opening.span.stop
    return (text, true)

def statements (scope : Scope) (nested : Nat → Trivia → Reading (Stmt × Option String)) :
    Nat → Reading Listing
  | 0 => exhausted
  | n + 1 => do
    let next ← peek
    if next.kind == .eof then
      if scope == .braces then unexpected (.kind .rightBrace)
        else return ⟨[], ← closingComments, none⟩
    else if scope == .braces && next.kind == .rightBrace then return ⟨[], ← closingComments, none⟩
    else if scope == .namespace_ && (← isAtNamespace) then return ⟨[], [], none⟩
    else if next.kind == .closeTag then
      let (text, goesOn) ← inlineHtml
      let more ← statements scope nested n
      return if goesOn then more.cons (.html text) else { more with epilogue := some text }
    else
      let (stmt, epilogue) ← topStatement (n + 1) (nested (n + 1))
      let more ← statements scope nested n
      return { more.cons stmt with epilogue := epilogue.or more.epilogue }

def inner (n : Nat) (braced : Bool) : Reading Listing :=
  statements (if braced then .braces else .namespace_) (fun _ _ => unexpected .statement) n

/-- A namespace behind its comments, and the text behind a closing tag that ends it with the
file. -/
def namespaceDecl (n : Nat) (trivia : Trivia) : Reading (NamespaceDecl × Option String) := do
  let _ ← expectWord "namespace"
  let name ← eatText .word
  if ← isAt .leftBrace then
    let opening ← advance
    setEnd opening.span.stop
    let ⟨stmts, closingComments, _⟩ ← inner n true
    let _ ← expect .rightBrace
    let trivia ← finish trivia
    return ({ trivia, name, braced := true, stmts, closingComments }, none)
  else
    match name with
    | none => unexpected .namespaceName
    | some _ =>
      let _ ← expect .semicolon
      let trivia ← finish trivia
      let ⟨stmts, closingComments, epilogue⟩ ← inner n false
      return ({ trivia, name, braced := false, stmts, closingComments }, epilogue)

def namespaceStatement (n : Nat) (trivia : Trivia) : Reading (Stmt × Option String) := do
  let (decl, epilogue) ← namespaceDecl n trivia
  return (.namespace_ decl, epilogue)

def outer (n : Nat) : Reading Listing := statements .file namespaceStatement n

def file (n : Nat) : Reading SourceFile := do
  let prologue ← eatText .html
  if ← isAt .openTag then
    let opening ← advance
    setEnd opening.span.stop
    let ⟨stmts, closingComments, epilogue⟩ ← outer n
    return { prologue, stmts, closingComments, epilogue }
  else refuse ⟨.noOpenTag, ⟨0, 0, 1, 1⟩⟩

end Reading

section Imports

variable {ls : List Lexeme} {tight : Bool} {s : At} {c : Cursor} {n : Nat}

/-- The kind of an import is the same by offsets. -/
theorem Stands.importKind (h : Stands ls tight s c) :
    Tracks (Stands ls tight) (Reading.importKind (Tape.ofLexemes ls) s)
      (.ok (Import.readKind c)) := by
  have hat (w : String) : c.head.isWord w = c.isAtWord w := rfl
  rw [Reading.importKind, Reading.bind_of_eq h.peek, Reading.bind_of_eq (h.peekAt 1),
    Import.readKind, c.second_eq, hat, hat]
  rcases c.eq_push with hnil | ⟨c, t, rfl⟩
  · have hword (w : String) : c.isAtWord w = false := isWord_of_eof w _ (h.head_of_nil hnil).2
    rw [hword, hword]
    simp only [Bool.false_eq_true, if_false, ite_self]
    exact .pure (t := Tape.ofLexemes ls) rfl h
  · obtain ⟨-, -, -, -, hskip⟩ := h.uncons (Cursor.ahead_push c t)
    generalize (if (c.push t).isAtWord "function" then some ImportKind.function
      else if (c.push t).isAtWord "const" then some .const else none) = kind
    cases kind with
    | none =>
      rw [Option.isSome_none, Bool.false_and, if_neg Bool.false_ne_true, ite_self]
      exact .pure (t := Tape.ofLexemes ls) rfl h
    | some k =>
      rw [Option.isSome_some, Bool.true_and]
      split
      next =>
        rw [Reading.bind_of_eq h.advance]
        exact .pure (t := Tape.ofLexemes ls) rfl hskip.of_true
      next => exact .pure (t := Tape.ofLexemes ls) rfl h

theorem Stands.localName (h : Stands ls tight s c) :
    Tracks (Stands ls tight) (Reading.localName (Tape.ofLexemes ls) s)
      (Import.readLocalName c) := by
  rw [Reading.localName, Import.readLocalName]
  refine .eatWord h (fun ⟨_, c₁, h₁⟩ s₁ htake hs₁ => ?_) fun htake => ?_
  · rw [htake]
    exact .bind (Stands.takeName (c := c₁) hs₁) fun _ _ hs₂ =>
      .pure (t := Tape.ofLexemes ls) rfl hs₂.of_true
  · rw [htake]
    exact .pure (t := Tape.ofLexemes ls) rfl h

theorem Stands.importItem (h : Stands ls tight s c) (kind : Option ImportKind) :
    Tracks (Stands ls true) (Reading.importItem kind (Tape.ofLexemes ls) s)
      (Import.readItem kind c) := by
  rw [Reading.importItem, Import.readItem]
  refine .bind h.takeName fun ⟨name, c₁, h₁⟩ s₁ hs₁ => ?_
  exact .bind (Stands.localName (c := c₁) hs₁) fun _ _ hs₂ => .pure (t := Tape.ofLexemes ls) rfl hs₂

/-- The symbols of a group are read the same by offsets. -/
theorem Stands.importGroup (h : Stands ls tight s c) (hn : c.size < n) :
    Tracks (Stands ls tight) (Reading.importGroup n (Tape.ofLexemes ls) s)
      (Import.readGroup c) := by
  induction n generalizing tight s c with
  | zero => cases hn
  | succ n ih =>
    have hkind := h.importKind
    rw [Reading.importGroup, Reading.bind_of_eq (h.isAt _), Import.readGroup]
    refine .ite (fun _ => .pure (t := Tape.ofLexemes ls) rfl h) fun _ => ?_
    generalize Import.readKind c = st at hkind
    obtain ⟨kind, c₁, h₁⟩ := st
    refine .step hkind fun s₁ hs₁ => ?_
    dsimp only
    refine .bind (Stands.importItem (c := c₁) hs₁ kind) fun ⟨item, c₂, h₂⟩ s₂ hs₂ => ?_
    refine .eat hs₂ (by decide) (fun ⟨_, c₃, h₃⟩ s₃ htake hs₃ => ?_) fun htake => ?_
    · dsimp only at h₃ htake ⊢
      rw [htake]
      exact .bind (ih hs₃ (by omega)) fun _ _ hs₄ => .pure (t := Tape.ofLexemes ls) rfl hs₄.of_true
    · dsimp only at htake ⊢
      rw [htake]
      exact .pure (t := Tape.ofLexemes ls) rfl hs₂.of_true

/-- Further symbols are the same by offsets, and their loop ends. -/
theorem Stands.importFurther (h : Stands ls tight s c) (hn : c.size < n) :
    Tracks (Stands ls tight) (Reading.importFurther n (Tape.ofLexemes ls) s)
      (Import.readFurther c) := by
  induction n generalizing tight s c with
  | zero => cases hn
  | succ n ih =>
    rw [Reading.importFurther, Import.readFurther]
    refine .eat h (by decide) (fun ⟨_, c₁, h₁⟩ s₁ htake hs₁ => ?_) fun htake => ?_
    · rw [htake]
      refine .bind (Stands.importItem (c := c₁) hs₁ none) fun ⟨item, c₂, h₂⟩ s₂ hs₂ => ?_
      exact .bind (ih (c := c₂) hs₂ (by omega)) fun _ _ hs₃ =>
        .pure (t := Tape.ofLexemes ls) rfl hs₃.of_true
    · rw [htake]
      exact .pure (t := Tape.ofLexemes ls) rfl h

theorem Stands.importList {s₁ : At} {c₁ : Cursor} (hs₁ : Stands ls tight s₁ c₁)
    (h₁ : c₁.size + 1 ≤ c.size) (hn : c₁.size < n) (first : String) :
    Tracks (Stands ls tight)
      ((do
        let localName ← Reading.localName
        let items ← Reading.importFurther n
        return (none, ⟨none, first, localName⟩ :: items) :
          Reading (Option String × List ImportItem))
          (Tape.ofLexemes ls) s₁)
      (do
        let ⟨localName, c₂, h₂⟩ ← Import.readLocalName c₁
        let ⟨items, c₃, h₃⟩ ← Import.readFurther c₂
        return .past h₁ <| .after h₂ ⟨(none, ⟨none, first, localName⟩ :: items), c₃, h₃⟩ :
          Except ParseError (Step 1 (Option String × List ImportItem) c)) := by
  refine .bind hs₁.localName fun ⟨localName, c₂, h₂⟩ s₂ hs₂ => ?_
  exact .bind (Stands.importFurther (c := c₂) hs₂ (by omega)) fun _ _ hs₃ =>
    .pure (t := Tape.ofLexemes ls) rfl hs₃

/-- The symbols of an import are the same by offsets. -/
theorem Stands.importItems (h : Stands ls tight s c) (hn : c.size < n) :
    Tracks (Stands ls true) (Reading.importItems n (Tape.ofLexemes ls) s) (Import.readItems c) := by
  rw [Reading.importItems, Import.readItems]
  refine .bind h.takeName fun ⟨first, c₁, h₁⟩ s₁ hs₁ => ?_
  have hs₁ : Stands ls true s₁ c₁ := hs₁
  have hlist := hs₁.importList h₁ (by omega : c₁.size < n) first
  dsimp only
  cases first.toList.getLast? == some '\\' with
  | false => exact hlist
  | true =>
    rw [if_pos rfl, if_pos rfl]
    refine .eat hs₁ (by decide) (fun ⟨_, c₂, h₂⟩ s₂ htake hs₂ => ?_) fun htake => ?_
    · rw [htake]
      refine .bind (Stands.importGroup (c := c₂) hs₂ (by omega)) fun ⟨items, c₃, h₃⟩ s₃ hs₃ => ?_
      exact .expect hs₃ (by decide) fun _ _ hs₄ _ => .pure (t := Tape.ofLexemes ls) rfl hs₄
    · rw [htake]
      exact hlist

/-- An import is read the same by offsets. -/
theorem Stands.importDecl (h : Stands ls tight s c) (hn : c.size < n) (trivia : Trivia) :
    Tracks (Marked ls) (Reading.importDecl n trivia (Tape.ofLexemes ls) s)
      (Import.read trivia c) := by
  rw [Reading.importDecl, Import.read]
  refine .expectWord h fun ⟨_, c₁, h₁⟩ s₁ hs₁ => ?_
  have hkind := Stands.importKind (c := c₁) hs₁
  dsimp only
  generalize Import.readKind c₁ = st at hkind
  obtain ⟨kind, c₂, h₂⟩ := st
  refine .step hkind fun s₂ hs₂ => ?_
  dsimp only
  refine .bind (Stands.importItems (c := c₂) hs₂ (by omega)) fun ⟨(base, items), c₃, h₃⟩ s₃ hs₃ =>
    ?_
  refine .expect hs₃ (by decide) fun ⟨_, c₄, h₄⟩ s₄ hs₄ _ => ?_
  have hfinish := Stands.finish (c := c₄) hs₄ trivia
  dsimp only
  generalize c₄.finish trivia = st at hfinish
  obtain ⟨trivia, c₅, h₅⟩ := st
  exact .step hfinish fun _ hs => .pure (t := Tape.ofLexemes ls) rfl hs

end Imports

section Statements

variable {ls : List Lexeme} {tight : Bool} {s : At} {c : Cursor} {n : Nat}

theorem Stands.isAtNamespace (h : Stands ls tight s c) :
    Reading.isAtNamespace (Tape.ofLexemes ls) s = .ok (c.isAtNamespace, s) := by
  rw [Reading.isAtNamespace, Reading.bind_of_eq (h.peekAt 1), Reading.bind_of_eq h.peek, ←
    c.second_eq]
  rfl

/-- The modifiers of a class are counted by number, and the count ends. -/
theorem Stands.pastModifiers (h : Stands ls tight s c) {i : Nat} (hn : (c.skip i).size < n) :
    Reading.pastModifiers n i (Tape.ofLexemes ls) s =
      .ok (i + ((c.ahead.drop i).takeWhile (·.isAnyWord ["abstract", "final", "readonly"])).length,
        s) := by
  induction n generalizing i with
  | zero => cases hn
  | succ n ih =>
    have hpeek := h.peekAt i
    rw [Reading.pastModifiers, Reading.bind_of_eq hpeek]
    cases hdrop : c.ahead.drop i with
    | nil =>
      have hword (w : String) : (c.skip i).head.isWord w = false :=
        isWord_of_eof w _ (h.head_skip_of_nil hdrop).2
      rw [if_neg (by simp [Lexeme.isAnyWord, hword])]
      rfl
    | cons t ts =>
      obtain ⟨hhead, -, hbehind, hsize⟩ := h.head_skip_of_cons hdrop
      rw [hhead, List.takeWhile_cons]
      split
      next =>
        rw [ih (Nat.lt_of_lt_of_le hsize (Nat.lt_succ_iff.1 hn)), hbehind, List.length_cons,
          Nat.add_assoc, Nat.add_comm 1]
      next => rfl

/-- Whether a class begins is told the same by offsets. -/
theorem Stands.isAtClass (h : Stands ls tight s c) (hn : c.size < n) :
    Reading.isAtClass n (Tape.ofLexemes ls) s = .ok (c.isAtClass, s) := by
  have hpast := h.pastModifiers (i := 0) hn
  rw [List.drop_zero, Nat.zero_add] at hpast
  rw [Reading.isAtClass, Reading.bind_of_eq hpast, Reading.bind_of_eq (h.peekAt _),
    Reading.bind_of_eq (h.peekAt _), Cursor.isAtClass,
    ← Scan.drop_length_takeWhile]
  generalize (c.ahead.takeWhile (·.isAnyWord ["abstract", "final", "readonly"])).length = i
  cases hbehind : c.ahead.drop i with
  | nil =>
    rw [isWord_of_eof _ _ (h.head_skip_of_nil hbehind).2]
    rfl
  | cons t ts =>
    obtain ⟨hhead, -, hbehind, -⟩ := h.head_skip_of_cons hbehind
    rw [hhead]
    cases ts with
    | nil =>
      rw [(h.head_skip_of_nil hbehind).2, Bool.and_comm]
      rfl
    | cons u us =>
      rw [(h.head_skip_of_cons hbehind).1]
      rfl

theorem Stands.rawStatement (h : Stands ls tight s c) (hn : c.size < n) (trivia : Trivia) :
    Tracks (Marked ls) (Reading.rawStatement n trivia (Tape.ofLexemes ls) s)
      (Stmt.readRaw trivia c) := by
  rw [Reading.rawStatement, Stmt.readRaw]
  refine .textOf h (h.statement hn) fun ⟨ts, c₁, h₁⟩ s₁ hs₁ => ?_
  have hfinish := Stands.finish (c := c₁) hs₁ trivia
  dsimp only
  generalize c₁.finish trivia = st at hfinish
  obtain ⟨trivia, c₂, h₂⟩ := st
  exact .step hfinish fun _ hs => .pure (t := Tape.ofLexemes ls) rfl hs

/-- A statement that is no namespace, behind its comments and attributes, which are given. -/
def Stmt.readBehind (trivia : Trivia) (c : Cursor) : Except ParseError (Step 1 Stmt c) := do
  if trivia.attributes.isEmpty && c.isAtWord "use" then
    let ⟨i, c₁, h₁⟩ ← Import.read trivia c
    return ⟨.import_ i, c₁, h₁⟩
  else if c.isAtClass then
    let ⟨decl, c₁, h₁⟩ ← ClassDecl.read trivia c
    return ⟨.class_ decl, c₁, h₁⟩
  else
    let ⟨stmt, c₁, h₁⟩ ← Stmt.readRaw trivia c
    let isDeclare := trivia.attributes.isEmpty && c.isAtWord "declare" &&
      c.second.kind == .leftParen
    return ⟨if isDeclare then .declare stmt else .raw stmt, c₁, h₁⟩

/-- An ordinary statement is its attributes, and then what its first tokens tell. -/
theorem Stmt.readOrdinary_eq (c : Cursor) : Stmt.readOrdinary c = do
    let ⟨attributes, c₁, h₁⟩ ← c.takeAttributes
    return .after h₁ (← Stmt.readBehind { c.leadingTrivia with attributes } c₁) := by
  rw [Stmt.readOrdinary]
  refine congrArg _ (funext fun ⟨attributes, c₁, h₁⟩ => ?_)
  dsimp only
  rw [Stmt.readBehind]
  split
  next =>
    cases Import.read { c.leadingTrivia with attributes } c₁ <;> rfl
  next =>
    split
    next => cases ClassDecl.read { c.leadingTrivia with attributes } c₁ <;> rfl
    next => cases Stmt.readRaw { c.leadingTrivia with attributes } c₁ <;> rfl

/-- A statement behind its attributes is read the same by offsets. -/
theorem Stands.ordinary (h : Stands ls tight s c) (hn : c.size < n) (trivia : Trivia) :
    Tracks (Marked ls) (Reading.ordinary n trivia (Tape.ofLexemes ls) s)
      (Stmt.readBehind trivia c) := by
  have hat (w : String) : c.head.isWord w = c.isAtWord w := rfl
  rw [Reading.ordinary, Reading.bind_of_eq h.peek, Reading.bind_of_eq (h.peekAt 1), hat, hat,
    Stmt.readBehind, c.second_eq]
  refine .ite (fun _ => ?_) fun _ => ?_
  · exact .bind (h.importDecl hn trivia) fun _ _ hs => .pure (t := Tape.ofLexemes ls) rfl hs
  rw [Reading.bind_of_eq (h.isAtClass hn)]
  refine .ite (fun _ => ?_) fun _ => ?_
  · exact .bind (h.classDecl hn trivia) fun _ _ hs => .pure (t := Tape.ofLexemes ls) rfl hs
  · exact .bind (h.rawStatement hn trivia) fun _ _ hs => .pure (t := Tape.ofLexemes ls) rfl hs

/-- A namespace begins with a word. -/
theorem Cursor.isAt_of_namespace (h : c.isAtNamespace = true) {k : TokenKind} (hk : k ≠ .word) :
    c.isAt k = false := by
  obtain ⟨hword, -⟩ := Bool.and_eq_true_iff.1 h
  obtain ⟨hkind, -⟩ := Bool.and_eq_true_iff.1 hword
  rw [Cursor.isAt, eq_of_beq hkind, beq_eq_false_iff_ne]
  exact hk.symm

/-- Before a namespace there are no attributes. -/
theorem Cursor.takeAttributes_of_namespace (h : c.isAtNamespace = true) :
    c.takeAttributes = .ok (.here []) := by
  rw [Cursor.takeAttributes, if_neg (Bool.eq_false_iff.1 (isAt_of_namespace h (by decide)))]
  rfl

/-- Without a namespace ahead there is none behind the attributes, if there are none. -/
theorem Cursor.not_namespace_of_takeAttributes (h : c.isAtNamespace = false)
    {st : Step 0 (List String) c} (hst : c.takeAttributes = .ok st) :
    (st.value.isEmpty && st.rest.isAtNamespace) = false := by
  rw [Cursor.takeAttributes] at hst
  split at hst
  next =>
    obtain ⟨⟨ts, c₁, h₁⟩, -, hst⟩ := bind_eq_ok.1 hst
    obtain ⟨⟨more, c₂, h₂⟩, -, hst⟩ := bind_eq_ok.1 hst
    cases hst
    rfl
  next =>
    cases hst
    exact h

/-- Before a namespace the reader of statements hands on to the one of namespaces. -/
theorem Marked.topStatement_namespace (h : Marked ls s c) (hn : c.size < n)
    (hat : c.isAtNamespace = true) (nested : Trivia → Reading (Stmt × Option String)) :
    ∃ s', Stands ls false s' c ∧
      Reading.topStatement n nested (Tape.ofLexemes ls) s = nested c.leadingTrivia
        (Tape.ofLexemes ls) s' := by
  have hattributes := h.stands.attributes hn
  rw [Cursor.takeAttributes_of_namespace hat] at hattributes
  rw [Reading.topStatement, Reading.bind_of_eq h.leadingTrivia]
  generalize hmachine : Reading.attributes n (Tape.ofLexemes ls) s = result at hattributes
  generalize hst : (.ok (.here []) : Except ParseError (Step 0 (List String) c)) = r at hattributes
  cases hattributes with
  | refused e => cases hst
  | @ok st s' hs' =>
    cases hst
    have hs' : Stands ls false s' c := hs'
    refine ⟨s', hs', ?_⟩
    rw [Reading.bind_of_eq hmachine]
    rw [Reading.bind_of_eq hs'.isAtNamespace, hat]
    rfl

/-- A statement that is no namespace is read, and a reader stands behind it with its comment. -/
theorem Marked.topStatement {β : Type} {k : Nat} {c' : Cursor} {R : At → Cursor → Prop}
    (h : Marked ls s c) (hn : c.size < n) (hat : c.isAtNamespace = false)
    (nested : Trivia → Reading (Stmt × Option String)) {f : Stmt × Option String → Reading β}
    {g : Step 1 Stmt c → Except ParseError (Step k β c')} (hf : ∀ st s', Marked ls s' st.rest →
      Tracks R (f (st.value, none) (Tape.ofLexemes ls) s') (g st)) :
    Tracks R ((Reading.topStatement n nested >>= f) (Tape.ofLexemes ls) s)
      (Stmt.readOrdinary c >>= g) := by
  have hattributes := h.stands.attributes hn
  rw [Reading.topStatement, bind_assoc, Reading.bind_of_eq h.leadingTrivia, Stmt.readOrdinary_eq,
    bind_assoc, bind_assoc]
  generalize hmachine : Reading.attributes n (Tape.ofLexemes ls) s = result at hattributes
  generalize hst : c.takeAttributes = r at hattributes
  cases hattributes with
  | refused e =>
    rw [Reading.bind_of_error hmachine]
    exact .refused e
  | @ok st s' hs' =>
    have hnone := Cursor.not_namespace_of_takeAttributes hat hst
    obtain ⟨attributes, c₁, h₁⟩ := st
    have hs' : Stands ls false s' c₁ := hs'
    rw [Reading.bind_of_eq hmachine, ok_bind]
    dsimp only at hnone ⊢
    rw [bind_assoc, Reading.bind_of_eq hs'.isAtNamespace, hnone, if_neg Bool.false_ne_true,
      bind_assoc, bind_assoc]
    exact .bind (hs'.ordinary (by omega) _) fun st s₂ hs₂ => hf (.after h₁ st) s₂ hs₂

end Statements

section Outside

variable {ls : List Lexeme} {tight : Bool} {s : At} {c : Cursor} {n : Nat}

/-- Whether the next token is of a kind, and where a reader stands behind it. -/
theorem Stands.take? (h : Stands ls tight s c) {k : TokenKind} (hk : k ≠ .eof) :
    (c.isAt k = false ∧ c.take? k = none) ∨ ∃ st, c.isAt k = true ∧ c.take? k = some st ∧
      st.value = c.head ∧
      Stands ls true { s with pos := s.pos + 1 } st.rest ∧
      Reaches ls st.value.span.stop { s with pos := s.pos + 1 } st.rest := by
  rcases c.eq_push with hnil | ⟨c, t, rfl⟩
  · have hhead : c.head.kind ≠ k := by rw [(h.head_of_nil hnil).2]; exact hk.symm
    exact .inl ⟨beq_eq_false_iff_ne.2 hhead, Cursor.take?_eq_none hhead⟩
  · have hahead := Cursor.ahead_push c t
    obtain ⟨-, -, -, -, hskip⟩ := h.uncons hahead
    have hreaches := h.reaches_skip hahead
    by_cases hkind : t.kind = k
    · exact .inr
        ⟨⟨t, c, Cursor.size_push c t⟩, beq_iff_eq.2 hkind, by simp [hkind], rfl, hskip, hreaches⟩
    · exact .inl ⟨beq_eq_false_iff_ne.2 hkind, Cursor.take?_eq_none hkind⟩

/-- A token that is wanted is eaten by both readers or by neither. -/
theorem Stands.eatText (h : Stands ls tight s c) {k : TokenKind} (hk : k ≠ .eof) :
    (c.take? k = none ∧ Reading.eatText k (Tape.ofLexemes ls) s = .ok (none, s)) ∨
      ∃ st, c.take? k = some st ∧
      Reading.eatText k (Tape.ofLexemes ls) s =
        .ok (some st.value.string, { s with pos := s.pos + 1 }) ∧
      Stands ls true { s with pos := s.pos + 1 } st.rest := by
  rcases h.eatIf (p := (·.kind == k)) (fun l hl => by simp [hl, hk.symm])
    with ⟨hnone, heat⟩ | ⟨st, hsome, heat, hst, -⟩
  · refine .inl ⟨hnone, ?_⟩
    rw [Reading.eatText, Reading.bind_of_eq heat]
    rfl
  · refine .inr ⟨st, hsome, ?_, hst⟩
    rw [Reading.eatText, Reading.bind_of_eq heat]
    rfl

theorem Stands.name? (h : Stands ls true s c) :
    Tracks (Stands ls true) (Reading.eatText .word (Tape.ofLexemes ls) s)
      (.ok (Stmt.readName? c)) := by
  rw [Stmt.readName?]
  rcases h.eatText (k := .word) (by decide) with ⟨hnone, heat⟩ | ⟨st, hsome, heat, hst⟩
  · rw [hnone, heat]
    exact .ok (r := .here none) h
  · rw [hsome, heat]
    exact .ok (r := .weaken ⟨some st.value.string, st.rest, st.progress⟩) hst

/-- The text between two tags is read the same by offsets. -/
theorem Stands.outsideText (h : Stands ls tight s c) (hat : c.isAt .closeTag = true) :
    Tracks (fun s' c' => Stands ls true s' c' ∧ s'.lastEnd = s.lastEnd)
      (Reading.outsideText (Tape.ofLexemes ls) s)
      (Stmt.readOutside c) := by
  rcases h.take? (k := .closeTag) (by decide) with ⟨hnot, -⟩ | ⟨⟨t, c₁, h₁⟩, -, htake, -, hs₁, -⟩
  · rw [hat] at hnot
    cases hnot
  have hs₁ : Stands ls true { s with pos := s.pos + 1 } c₁ := hs₁
  rw [Reading.outsideText, Reading.bind_of_eq h.advance, Stmt.readOutside,
    Cursor.take, htake, ok_bind]
  dsimp only
  rcases hs₁.eatText (k := .html) (by decide) with ⟨hnone, heat⟩ | ⟨⟨u, c₂, h₂⟩, hsome, heat, hs₂⟩
  · rw [Reading.bind_of_eq heat, hnone]
    exact .pure (t := Tape.ofLexemes ls) rfl ⟨hs₁, rfl⟩
  · rw [Reading.bind_of_eq heat, hsome]
    exact .pure (t := Tape.ofLexemes ls) rfl ⟨hs₂, rfl⟩

/-- A reader stands behind a statement, or at the end, behind all comments of the source. -/
def Rests (ls : List Lexeme) (s : At) (c : Cursor) : Prop :=
  Marked ls s c ∨ c.ahead = [] ∧ ∃ front mid, Splits ls (front ++ mid) s c ∧
    s.lastEnd = extent front ∧
    ∀ l ∈ mid ++ c.head.comments, l.kind ≠ .comment

theorem Rests.marked (h : Rests ls s c) (hahead : c.ahead ≠ []) : Marked ls s c :=
  h.resolve_right fun hrests => hahead hrests.1

theorem Rests.stands (h : Rests ls s c) : Stands ls false s c := by
  rcases h with hmarked | ⟨-, front, mid, hsplits, -⟩
  · exact hmarked.stands
  · exact ⟨_, hsplits, nofun⟩

/-- The comments before the end are those that no statement has. -/
theorem Rests.closingComments (h : Rests ls s c) : ∃ s', Stands ls false s' c ∧
    Reading.closingComments (Tape.ofLexemes ls) s =
      .ok (Expr.commentTexts c.head.comments, s') := by
  rcases h with hmarked | ⟨-, front, mid, hsplits, hlast, hnone⟩
  · obtain ⟨s', hpos, -, hclosing⟩ := hmarked.closingComments
    exact ⟨s', hmarked.stands.of_pos hpos, hclosing⟩
  · have hfilter : (mid ++ c.head.comments).filter (·.kind == .comment) = [] :=
      List.filter_eq_nil_iff.2 fun l hl => by simp [hnone l hl]
    have hcomments : c.head.comments = [] := List.eq_nil_iff_forall_not_mem.2 fun l hl =>
      hnone l (List.mem_append_right _ hl) (hsplits.kind_comments l hl)
    refine ⟨s, ⟨_, hsplits, nofun⟩, ?_⟩
    rw [hsplits.closingComments hlast hfilter, hcomments]
    rfl

/-- The comments before a closing tag are those of the file or of the namespace, if nothing but
text follows the tag. -/
theorem Marked.epilogue (h : Marked ls s c) {st : Step 1 String c}
    (hst : Stmt.readOutside c = .ok st) {s' : At} (hs' : Stands ls true s' st.rest)
    (hlast : s'.lastEnd = s.lastEnd) (hahead : st.rest.ahead = []) :
    ∃ s'', Rests ls s'' st.rest ∧
      Reading.closingComments (Tape.ofLexemes ls) s' =
        .ok (Expr.commentTexts c.head.comments, s'') := by
  obtain ⟨front, hfront, hend⟩ := id h
  obtain ⟨mode, hlexed⟩ := hfront.lexed
  obtain ⟨tags, hpieces, hkinds, hoff⟩ := Stmt.readOutside_pieces hlexed hst
  have hnone : st.rest.head.comments = [] := hoff.outside
  have htags : ∀ l ∈ tags, l.kind ≠ .comment := by
    intro l hl hkind
    have hmem : TokenKind.comment ∈ tags.map (·.kind) := List.mem_map.2 ⟨l, hl, hkind⟩
    rcases hkinds with hk | hk <;> simp [hk] at hmem
  -- The tags lie behind all comments, those that the reader by offsets goes back to.
  obtain ⟨behind, hbehind, hstop⟩ := h.commentsEnd
  have hwithout := Cursor.pieces_withComments (List.append_nil c.head.comments).symm
  rw [hpieces] at hwithout
  have hwithout := List.append_cancel_left hwithout
  obtain ⟨front', hfront', -⟩ := hs'
  have hat : front' = front ++ (c.head.comments ++ tags) := by
    have hsplit := hfront'.split.symm.trans hfront.split
    rw [hpieces, ← List.append_assoc, ← List.append_assoc] at hsplit
    rw [List.append_cancel_right hsplit, List.append_assoc]
  have hat' : front' = behind ++ tags := by
    have hsplit := hfront'.split.symm.trans hbehind.split
    rw [← hwithout, ← List.append_assoc] at hsplit
    exact List.append_cancel_right hsplit
  have hkept : c.head.comments.filter (·.kind == .comment) = c.head.comments :=
    List.filter_eq_self.2 fun l hl => by simp [hfront.kind_comments l hl]
  have hlost : tags.filter (·.kind == .comment) = [] := List.filter_eq_nil_iff.2 fun l hl => by
    simp [htags l hl]
  have hfilter : ((c.head.comments ++ tags) ++ st.rest.head.comments).filter (·.kind == .comment) =
      c.head.comments := by
    rw [hnone, List.append_nil, List.filter_append, hkept, hlost, List.append_nil]
  refine ⟨_, .inr ⟨hahead, behind, tags, ?_, ?_, ?_⟩, (hat ▸ hfront').closingComments
    (hlast.trans hend) hfilter⟩
  · exact (hat' ▸ hfront').of_pos rfl
  · rw [hlast]
    exact hstop
  · rw [hnone, List.append_nil]
    exact htags

end Outside

section Files

variable {ls : List Lexeme} {tight : Bool} {s : At} {c c' : Cursor} {n k : Nat}
  {R : At → Cursor → Prop}

/-- The text between two tags and the statements behind it, or the text behind the last tag. -/
theorem Marked.html (h : Marked ls s c) (hat : c.isAt .closeTag = true) (more : Reading Listing)
    (read : (c₁ : Cursor) → Except ParseError (Step 0 Listing c₁))
    (last : Step 1 String c → Except ParseError (Step 0 Listing c))
    (hmore : ∀ s₁ c₁, Marked ls s₁ c₁ → c₁.size + 1 ≤ c.size →
      Tracks R (more (Tape.ofLexemes ls) s₁) (read c₁))
    (hlast : ∀ st s₁, Stmt.readOutside c = .ok st → Stands ls true s₁ st.rest →
      s₁.lastEnd = s.lastEnd →
      st.rest.ahead = [] → Tracks R
        ((more >>= fun more => pure { more with epilogue := some st.value }) (Tape.ofLexemes ls) s₁)
          (last st)) :
    Tracks R ((Reading.inlineHtml >>= fun (text, goesOn) => more >>= fun more =>
        pure (if goesOn = true then more.cons (.html text)
          else { more with epilogue := some text }))
        (Tape.ofLexemes ls) s)
      (Stmt.readOutside c >>= fun ⟨text, c₁, h₁⟩ =>
        if c₁.ahead.isEmpty then last ⟨text, c₁, h₁⟩
        else do
          let ⟨_, c₂, h₂⟩ ← c₁.take .openTag
          let ⟨more, c₃, h₃⟩ ← read c₂
          return .weaken <| .past h₁ <| .past h₂ ⟨more.cons (.html text), c₃, h₃⟩) := by
  have houtside := h.stands.outsideText hat
  rw [Reading.inlineHtml, bind_assoc]
  generalize hmachine : Reading.outsideText (Tape.ofLexemes ls) s = result at houtside
  generalize hread : Stmt.readOutside c = r at houtside
  cases houtside with
  | refused e =>
    rw [Reading.bind_of_error hmachine]
    exact .refused e
  | @ok st s₁ hs₁ =>
    obtain ⟨hs₁, hend⟩ := hs₁
    rw [Reading.bind_of_eq hmachine, bind_assoc, Reading.bind_of_eq (hs₁.isAt .eof),
      hs₁.isAt_eof, ok_bind]
    have hlast := hlast st s₁ hread hs₁ hend
    obtain ⟨text, c₁, h₁⟩ := st
    have hs₁ : Stands ls true s₁ c₁ := hs₁
    dsimp only at hlast ⊢
    cases hempty : c₁.ahead.isEmpty with
    | true => exact hlast (List.isEmpty_iff.1 hempty)
    | false =>
      rw [if_neg Bool.false_ne_true, if_neg Bool.false_ne_true, bind_assoc]
      refine .expect hs₁ (by decide) fun ⟨opening, c₂, h₂⟩ s₂ _ hreaches => ?_
      have hmarked : Marked ls { s₂ with lastEnd := opening.span.stop } c₂ := hreaches.of_pos rfl
      dsimp only at h₂ ⊢
      rw [bind_assoc, Reading.setEnd_bind, pure_bind]
      exact .bind (hmore _ _ hmarked (by omega)) fun _ _ hs₃ =>
        .pure (t := Tape.ofLexemes ls) rfl hs₃

theorem Stands.statements_of_nil (h : Stands ls tight s c) (hahead : c.ahead = []) (scope : Scope)
    (nested : Nat → Trivia → Reading (Stmt × Option String)) (hn : 0 < n) :
    Reading.statements scope nested n (Tape.ofLexemes ls) s =
      (if scope == .braces then Reading.unexpected (.kind .rightBrace)
        else do return ⟨[], ← Reading.closingComments, none⟩ : Reading Listing)
          (Tape.ofLexemes ls) s := by
  obtain ⟨n, rfl⟩ := Nat.exists_eq_succ_of_ne_zero (Nat.ne_of_gt hn)
  rw [Reading.statements, Reading.bind_of_eq h.peek, if_pos (beq_iff_eq.2 (h.head_of_nil hahead).2)]

/-- The statements of a namespace are read. Without braces a reader stands behind the last of
them. -/
theorem Marked.inner (h : Marked ls s c) (hn : c.size < n) (braced : Bool) :
    Tracks (fun s' c' => Stands ls false s' c' ∧ (braced = false → Rests ls s' c'))
      (Reading.inner n braced (Tape.ofLexemes ls) s) (Stmt.readInner braced c) := by
  rw [Reading.inner]
  induction n generalizing s c with
  | zero => cases hn
  | succ n ih =>
    have hc := h.stands
    have heof : (c.head.kind == .eof) = c.ahead.isEmpty := hc.isAt_eof
    have hbraces : ((if braced = true then Scope.braces else .namespace_) == .braces) = braced := by
      cases braced <;> rfl
    have hnamespace : ((if braced = true then Scope.braces else .namespace_) == .namespace_) =
        !braced := by
      cases braced <;> rfl
    have hat (k : TokenKind) : (c.head.kind == k) = c.isAt k := rfl
    obtain ⟨s', hpos, hs', hclosing⟩ := h.closingComments
    rw [Reading.statements, Reading.bind_of_eq hc.peek, Stmt.readInner, heof, hbraces,
      hnamespace, hat, hat]
    refine .ite (fun _ => .ite (fun _ => hc.unexpected _) fun hopen => ?atEnd) fun _ =>
      .ite (fun hbrace => ?closed) fun _ => ?_
    case atEnd =>
      rw [Reading.bind_of_eq hclosing]
      exact .pure (t := Tape.ofLexemes ls) rfl ⟨hs'.stands, fun _ => .inl hs'⟩
    case closed =>
      have hbraced : braced = true := (Bool.and_eq_true_iff.1 hbrace).1
      rw [Reading.bind_of_eq hclosing]
      exact .pure (t := Tape.ofLexemes ls) rfl
        ⟨hc.of_pos hpos, fun hopen => absurd hbraced (by simp [hopen])⟩
    rw [Reading.bind_of_eq hc.isAtNamespace]
    cases hns : c.isAtNamespace with
    | true =>
      cases braced with
      | false =>
        rw [Bool.not_false, Bool.and_self, if_pos rfl, if_pos rfl, if_neg Bool.false_ne_true]
        exact .pure (t := Tape.ofLexemes ls) rfl ⟨hc, fun _ => .inl h⟩
      | true =>
        obtain ⟨s₁, hs₁, hnested⟩ := h.topStatement_namespace hn hns fun _ =>
          Reading.unexpected .statement
        have hnot : c.isAt .closeTag = false := Cursor.isAt_of_namespace hns (by decide)
        rw [Bool.not_true, Bool.false_and, if_neg Bool.false_ne_true, hnot,
          if_neg Bool.false_ne_true, if_pos rfl, if_pos rfl, Reading.bind_of_same hnested,
          Reading.bind_of_error (hs₁.unexpected_eq _)]
        exact .refused _
    | false =>
      rw [Bool.and_false, if_neg Bool.false_ne_true, if_neg Bool.false_ne_true]
      refine .ite (fun htag => ?_) fun _ => ?_
      · refine h.html htag _ (Stmt.readInner braced)
          (fun st => if braced then .error (st.rest.unexpected (.kind .rightBrace))
            else return .weaken ⟨⟨[], Expr.commentTexts c.head.comments, some st.value⟩,
              st.rest, st.progress⟩)
          (fun s₁ c₁ hs₁ h₁ => ih hs₁ (by omega)) fun st s₁ hst hs₁ hend hahead => ?_
        obtain ⟨s₂, hrests, hclosing⟩ := h.epilogue hst hs₁ hend hahead
        have hprogress := st.progress
        rw [Reading.bind_of_same (hs₁.statements_of_nil hahead _ _ (by omega)), hbraces]
        cases braced with
        | true =>
          rw [if_pos rfl, if_pos rfl, Reading.bind_of_error (hs₁.unexpected_eq _)]
          exact .refused _
        | false =>
          rw [if_neg Bool.false_ne_true, if_neg Bool.false_ne_true, bind_assoc,
            Reading.bind_of_eq hclosing]
          exact .pure (t := Tape.ofLexemes ls) rfl ⟨hrests.stands, fun _ => hrests⟩
      · refine h.topStatement hn hns _ fun ⟨stmt, c₁, h₁⟩ s₁ hs₁ => ?_
        exact .bind (ih (c := c₁) hs₁ (by omega)) fun _ _ hs₂ =>
          .pure (t := Tape.ofLexemes ls) rfl hs₂

/-- A namespace is read, and a reader stands behind it. -/
theorem Stands.namespaceDecl (h : Stands ls tight s c) (hn : c.size < n) :
    Tracks (Rests ls) (Reading.namespaceDecl n c.leadingTrivia (Tape.ofLexemes ls) s)
      (Stmt.readNamespace c) := by
  rw [Reading.namespaceDecl, Stmt.readNamespace]
  generalize c.leadingTrivia = trivia
  refine .expectWord h fun ⟨_, c₁, h₁⟩ s₁ hs₁ => ?_
  have hname := Stands.name? (c := c₁) hs₁
  dsimp only
  generalize Stmt.readName? c₁ = st at hname
  obtain ⟨name, c₂, h₂⟩ := st
  refine .step hname fun s₂ hs₂ => ?_
  have hs₂ : Stands ls true s₂ c₂ := hs₂
  dsimp only
  rw [Reading.bind_of_eq (hs₂.isAt _)]
  rcases hs₂.take? (k := .leftBrace) (by decide) with ⟨hat, hnone⟩ | ⟨⟨opening, c₃, h₃⟩, hat, htake,
    hhead, -, hreaches⟩
  · rw [hat, if_neg Bool.false_ne_true, hnone]
    cases name with
    | none => exact hs₂.unexpected _
    | some name =>
      refine .expect hs₂ (by decide) fun ⟨_, c₃, h₃⟩ s₃ hs₃ _ => ?_
      have hfinish := Stands.finish (c := c₃) hs₃ trivia
      dsimp only
      generalize c₃.finish trivia = st at hfinish
      obtain ⟨trivia, c₄, h₄⟩ := st
      refine .step hfinish fun s₄ hs₄ => ?_
      dsimp only at h₃ ⊢
      refine .bind (Marked.inner (c := c₄) hs₄ (by omega) false) fun ⟨_, c₅, h₅⟩ s₅ hs₅ => ?_
      exact .pure (t := Tape.ofLexemes ls) rfl (hs₅.2 rfl)
  · rw [hat, if_pos rfl, htake, Reading.bind_of_eq hs₂.advance, ← hhead, Reading.setEnd_bind]
    have hmarked : Marked ls { pos := s₂.pos + 1, lastEnd := opening.span.stop } c₃ :=
      hreaches.of_pos rfl
    dsimp only at h₃ ⊢
    refine .bind (hmarked.inner (by omega) true) fun ⟨_, c₄, h₄⟩ s₄ hs₄ => ?_
    have hs₄ : Stands ls false s₄ c₄ := hs₄.1
    dsimp only
    refine .expect hs₄ (by decide) fun ⟨_, c₅, h₅⟩ s₅ hs₅ _ => ?_
    have hfinish := Stands.finish (c := c₅) hs₅ trivia
    dsimp only
    generalize c₅.finish trivia = st at hfinish
    obtain ⟨trivia, c₆, h₆⟩ := st
    exact .step hfinish fun _ hs => .pure (t := Tape.ofLexemes ls) rfl (.inl hs)

/-- The statements of a file are read, up to the end. -/
theorem Rests.outer (h : Rests ls s c) (hn : c.size < n) :
    Tracks (Stands ls false) (Reading.outer n (Tape.ofLexemes ls) s) (Stmt.readOuter c) := by
  rw [Reading.outer]
  induction n generalizing s c with
  | zero => cases hn
  | succ n ih =>
    have hc := h.stands
    have heof : (c.head.kind == .eof) = c.ahead.isEmpty := hc.isAt_eof
    have hat (k : TokenKind) : (c.head.kind == k) = c.isAt k := rfl
    have hbraces : (Scope.file == .braces) = false := rfl
    have hnamespace : (Scope.file == .namespace_) = false := rfl
    rw [Reading.statements, Reading.bind_of_eq hc.peek, Stmt.readOuter, heof, hbraces,
      hnamespace, hat, hat]
    refine .ite (fun _ => ?atEnd) fun hahead => ?_
    case atEnd =>
      obtain ⟨s', hs', hclosing⟩ := h.closingComments
      rw [if_neg Bool.false_ne_true, Reading.bind_of_eq hclosing]
      exact .pure (t := Tape.ofLexemes ls) rfl hs'
    have hmarked := h.marked (mt List.isEmpty_iff.2 hahead)
    rw [Bool.false_and, if_neg Bool.false_ne_true, Reading.bind_of_eq hc.isAtNamespace,
      Bool.false_and, if_neg Bool.false_ne_true]
    cases hns : c.isAtNamespace with
    | true =>
      have hnot : c.isAt .closeTag = false := Cursor.isAt_of_namespace hns (by decide)
      obtain ⟨s₁, hs₁, hnested⟩ :=
        hmarked.topStatement_namespace hn hns (Reading.namespaceStatement (n + 1))
      rw [hnot, if_neg Bool.false_ne_true, if_pos rfl, Reading.bind_of_same hnested,
        Reading.namespaceStatement, bind_assoc]
      refine .bind (hs₁.namespaceDecl hn) fun ⟨(decl, epilogue), c₁, h₁⟩ s₂ hs₂ => ?_
      dsimp only
      rw [pure_bind]
      exact .bind (ih (c := c₁) hs₂ (by omega)) fun _ _ hs₃ =>
        .pure (t := Tape.ofLexemes ls) rfl hs₃
    | false =>
      rw [if_neg Bool.false_ne_true]
      refine .ite (fun htag => ?_) fun _ => ?_
      · refine hmarked.html htag _ Stmt.readOuter
          (fun st => return .weaken ⟨⟨[], Expr.commentTexts c.head.comments, some st.value⟩,
            st.rest, st.progress⟩)
          (fun s₁ c₁ hs₁ h₁ => ih (.inl hs₁) (by omega)) fun st s₁ hst hs₁ hend hahead => ?_
        obtain ⟨s₂, hrests, hclosing⟩ := hmarked.epilogue hst hs₁ hend hahead
        have hprogress := st.progress
        rw [Reading.bind_of_same (hs₁.statements_of_nil hahead _ _ (by omega)), hbraces,
          if_neg Bool.false_ne_true, bind_assoc, Reading.bind_of_eq hclosing]
        exact .pure (t := Tape.ofLexemes ls) rfl hrests.stands
      · refine hmarked.topStatement hn hns _ fun ⟨stmt, c₁, h₁⟩ s₁ hs₁ => ?_
        exact .bind (ih (c := c₁) (.inl hs₁) (by omega)) fun _ _ hs₂ =>
          .pure (t := Tape.ofLexemes ls) rfl hs₂

/-- The text before the opening tag is read the same by offsets. -/
theorem Stands.prologue (h : Stands ls tight s c) :
    ∃ s', Stands ls tight s' (c.skip (if c.isAt .html then 1 else 0)) ∧
      Reading.eatText .html (Tape.ofLexemes ls) s =
      .ok (if c.isAt .html then some c.head.string else none, s') := by
  have hat : (c.head.kind == .html) = c.isAt .html := rfl
  rw [Reading.eatText, Reading.eatIf, bind_assoc, Reading.bind_of_eq h.peek, hat]
  cases hhtml : c.isAt .html with
  | false => exact ⟨s, h, rfl⟩
  | true =>
    have hsize : 1 ≤ c.size := by
      rcases c.eq_push with hnil | ⟨c, t, rfl⟩
      · rw [Cursor.isAt, (h.head_of_nil hnil).2] at hhtml
        cases hhtml
      · exact Nat.le_trans (Nat.le_add_left 1 _) (Cursor.size_push c t)
    refine ⟨_, (h.skip hsize Nat.one_pos).of_true, ?_⟩
    rw [if_pos rfl, bind_assoc, Reading.bind_of_eq h.advance]
    rfl

/-- A file is read from the beginning of its lexemes. -/
theorem Stands.file {source : String} (hls : Lexeme.ofFile source = .ok ls)
    (h : Stands ls tight s (.ofLexemes ls)) (hn : (Cursor.ofLexemes ls).size < n) :
    Prod.fst <$> Reading.file n (Tape.ofLexemes ls) s = Halt.ofResult
      (SourceFile.ofSource source) := by
  rw [SourceFile.ofSource, hls, ok_bind]
  dsimp only
  generalize Cursor.ofLexemes ls = c at h hn
  obtain ⟨s₁, hs₁, hprologue⟩ := h.prologue
  rw [Reading.file, Reading.bind_of_eq hprologue, Reading.bind_of_eq (hs₁.isAt _)]
  rcases hs₁.take? (k := .openTag) (by decide) with ⟨hat, hnone⟩ | ⟨⟨opening, c₁, h₁⟩, hat, htake,
    hhead, -, hreaches⟩
  · rw [hat, hnone]
    rfl
  · have hmarked : Marked ls { pos := s₁.pos + 1, lastEnd := opening.span.stop } c₁ :=
      hreaches.of_pos rfl
    have hsize : c₁.size < n := by
      rw [Cursor.size_skip] at h₁
      omega
    rw [hat, htake, if_pos rfl, Reading.bind_of_eq hs₁.advance, ← hhead, Reading.setEnd_bind]
    exact (Rests.outer (.inl hmarked) hsize).toResult _

end Files

end ClassEdit
