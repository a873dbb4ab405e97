import ClassEdit.Proofs.Class.Extents

/-!
The comments of a file. A file is read in parts: comments that it keeps, and code, of which it is
told where it ends. Main statement: the parts of a file, in order, are its source; of the comments
between them only those before a closing tag are left out, and only if code follows again.
-/

namespace ClassEdit

open Fragment (tokens)

/-- What a file is read from. -/
inductive Part where
  /-- A comment that is kept. -/
  | comment (text : String)
  /-- An attribute group. The comments behind it, which stand inside a statement, are not kept. -/
  | group (text : String)
  /-- A statement that is kept as text. -/
  | text (text : String)
  /-- Code up to the first token outside of brackets that is of one of the kinds. It is of the last
  kind. -/
  | code (stops : List TokenKind) (last : TokenKind)
  /-- What is behind an opening brace, up to its own closer. -/
  | block
  /-- The brace behind the members of a class or the statements of a namespace. -/
  | brace
  /-- The text between two tags. The comments before the first of them are not kept. -/
  | outside
  /-- The text behind the last closing tag. -/
  | epilogue
  deriving DecidableEq

/-- The last lexeme is of the kind. The tokens before it close the brackets that they open, and
outside of brackets none of them is of the other kinds. -/
def EndsWith (stops : List TokenKind) (last : TokenKind) (ls : List Lexeme) : Prop :=
  ∃ inner l, ls = inner ++ [l] ∧ l.kind = last ∧
    Brackets.Avoids stops [] ((tokens inner).map (·.kind))

/-- The lexemes are those of one statement, which goes as far in some source as it is read there. -/
def IsStatement (ls : List Lexeme) : Prop :=
  ∃ (mode : Mode) (c : Cursor) (s : Step 1 (List Token) c), c.IsLexed mode ∧
    c.takeStatement = .ok s ∧ (c.withComments []).pieces = ls ++ s.rest.pieces

/-- What stands in the source for a part. -/
def Part.Covers : Part → List Lexeme → Prop
  | comment x, ls => ∃ l, ls = [l] ∧ l.kind = .comment ∧ l.commentText = x
  | group x, ls => ∃ opening inner dropped, ls = opening :: inner ++ dropped ∧
      opening.kind = .attributeOpen ∧ EndsWith [] .rightBracket inner ∧
      String.ofList (excerpt (opening :: inner)) = x ∧ ∀ l ∈ dropped, l.kind = .comment
  | text x, ls => IsCode ls ∧ IsStatement ls ∧ String.ofList (excerpt ls) = x
  | code stops last, ls => IsCode ls ∧ EndsWith stops last ls
  | block, ls => EndsWith [] .rightBrace ls
  | brace, ls => ∃ l, ls = [l] ∧ l.kind = .rightBrace
  | outside, ls => ∃ lost tags, ls = lost ++ tags ∧ (∀ l ∈ lost, l.kind = .comment) ∧
      (tags.map (·.kind) = [.closeTag, .openTag] ∨
        tags.map (·.kind) = [.closeTag, .html, .openTag])
  | epilogue, ls => ls.map (·.kind) = [.closeTag] ∨ ls.map (·.kind) = [.closeTag, .html]

/-- The lexemes are those of the parts, one after the other. -/
inductive Woven : List Part → List Lexeme → Prop where
  | nil : Woven [] []
  | cons {p : Part} {ps : List Part} {ls ms : List Lexeme} (h : p.Covers ls) (hs : Woven ps ms) :
      Woven (p :: ps) (ls ++ ms)

namespace Woven

variable {p : Part} {ps qs : List Part} {ls ms : List Lexeme}

theorem one (h : p.Covers ls) : Woven [p] ls := by
  rw [← List.append_nil ls]
  exact .cons h .nil

theorem append (h : Woven ps ls) (h' : Woven qs ms) : Woven (ps ++ qs) (ls ++ ms) := by
  induction h with
  | nil => exact h'
  | cons h _ ih =>
    rw [List.append_assoc]
    exact .cons h ih

theorem comments (h : ∀ l ∈ ls, l.kind = .comment) :
    Woven ((Expr.commentTexts ls).map .comment) ls := by
  induction ls with
  | nil => exact .nil
  | cons l ls ih =>
    obtain ⟨hl, hls⟩ := List.forall_mem_cons.1 h
    have hcovers : (Part.comment l.commentText).Covers [l] := ⟨l, rfl, hl, rfl⟩
    exact .cons hcovers (ih hls)

end Woven

namespace Trivia

def before (t : Trivia) : List Part := t.comments.map .comment ++ t.attributes.map .group

def behind (t : Trivia) : List Part := t.trailing.toList.map .comment

end Trivia

/-- A head, and the block behind it if there is one. -/
def headParts (hasBlock : Bool) : List Part :=
  if hasBlock then [.code headEnds .leftBrace, .block] else [.code headEnds .semicolon]

def Member.parts : Member → List Part
  | mixins use => headParts use.rules.isSome
  | constants _ | fields _ => [.code [.semicolon] .semicolon]
  | routine r => headParts r.body.isSome

def MemberStmt.parts (m : MemberStmt) : List Part :=
  m.trivia.before ++ (m.member.parts ++ m.trivia.behind)

/-- A class behind what stands before it. -/
def ClassDecl.bareParts (c : ClassDecl) : List Part :=
  .code headEnds .leftBrace ::
    (c.members.flatMap MemberStmt.parts ++ c.closingComments.map .comment ++
      .brace :: c.trivia.behind)

def epilogueParts (epilogue : Option String) : List Part :=
  if epilogue.isSome then [.epilogue] else []

namespace Stmt

mutual

def parts : Stmt → List Part
  | .declare s | .raw s => s.trivia.before ++ .text s.text :: s.trivia.behind
  | .import_ i => i.trivia.before ++ .code [.semicolon] .semicolon :: i.trivia.behind
  | .class_ c => c.trivia.before ++ c.bareParts
  | .html _ => [.outside]
  | .namespace_ n => namespaceParts n

def namespaceParts : NamespaceDecl → List Part
  | ⟨trivia, _, braced, stmts, closing⟩ =>
    if braced then
      trivia.before ++ .code headEnds .leftBrace ::
        (listParts stmts ++ closing.map .comment ++ .brace :: trivia.behind)
    else
      trivia.before ++ .code headEnds .semicolon ::
        (trivia.behind ++ listParts stmts ++ closing.map .comment)

def listParts : List Stmt → List Part
  | [] => []
  | s :: ss => s.parts ++ listParts ss

end

def Listing.parts (l : Listing) : List Part :=
  listParts l.stmts ++ l.closingComments.map .comment ++ epilogueParts l.epilogue

theorem parts_cons (s : Stmt) (l : Listing) : (l.cons s).parts = s.parts ++ l.parts := by
  simp [Listing.parts, Listing.cons, listParts]

end Stmt

def SourceFile.parts (f : SourceFile) : List Part :=
  Stmt.listParts f.stmts ++ f.closingComments.map .comment ++ epilogueParts f.epilogue

def Part.comment? : Part → Option String
  | comment x => some x
  | _ => none

/-- The comments that a file keeps. -/
def SourceFile.comments (f : SourceFile) : List String := f.parts.filterMap Part.comment?

namespace Cursor

open Token (kinds)

variable {mode : Mode} {c c₀ c₁ c₂ : Cursor} {ps qs : List Part} {stops : List TokenKind}
  {last : TokenKind}

/-- The parts stand between the two cursors. -/
def Spans (c : Cursor) (ps : List Part) (c₁ : Cursor) : Prop :=
  ∃ ls, c.pieces = ls ++ c₁.pieces ∧ Woven ps ls

theorem Spans.refl : c.Spans [] c := ⟨[], rfl, .nil⟩

theorem Spans.trans (h : c.Spans ps c₁) (h' : c₁.Spans qs c₂) : c.Spans (ps ++ qs) c₂ := by
  obtain ⟨ls, hls, hps⟩ := h
  obtain ⟨ms, hms, hqs⟩ := h'
  exact ⟨ls ++ ms, by rw [hls, hms, List.append_assoc], hps.append hqs⟩

/-- The parts are all that there is before the end of the source. -/
def Ends (c : Cursor) (ps : List Part) : Prop :=
  ∃ ls eof, c.pieces = ls ++ [eof] ∧ eof.kind = .eof ∧ Woven ps ls

theorem Spans.ends (h : c.Spans ps c₁) (h' : c₁.Ends qs) : c.Ends (ps ++ qs) := by
  obtain ⟨ls, hls, hps⟩ := h
  obtain ⟨ms, eof, hms, heof, hqs⟩ := h'
  exact ⟨ls ++ ms, eof, by rw [hls, hms, List.append_assoc], heof, hps.append hqs⟩

theorem kinds_withComments (c : Cursor) (comments : List Lexeme) :
    kinds (c.withComments comments).ahead = kinds c.ahead := by
  obtain ⟨ahead, eof⟩ := c
  cases ahead <;> rfl

theorem UpTo.withComments (h : c.UpTo stops last c₁) (comments : List Lexeme) :
    (c.withComments comments).UpTo stops last c₁ := by
  rw [UpTo, kinds_withComments]
  exact h

theorem UpTo.size_lt (h : c.UpTo stops last c₁) : c₁.size + 1 ≤ c.size := by
  obtain ⟨ks, hks, -⟩ := h
  have hlength := congrArg List.length hks
  simp only [kinds, List.length_map, List.length_append, List.length_cons] at hlength
  rw [size, size]
  omega

/-- The tokens of a group are the next ones. -/
theorem exists_takeGroup {k : TokenKind} {s : Step 1 (List Token) c} (hs : c.takeGroup k = .ok s) :
    ∃ n, c.ahead ≠ [] ∧ s.value = c.ahead.take (n + 1) ∧ s.rest = c.skip (n + 1) := by
  unfold takeGroup at hs
  obtain ⟨⟨t, c₁, h₁⟩, htake, hs⟩ := bind_eq_ok.1 hs
  obtain ⟨hahead, hrest, -⟩ := take_eq_ok htake
  dsimp only at hahead hrest
  have hne : c.ahead ≠ [] := by
    rw [hahead]
    exact List.cons_ne_nil _ _
  dsimp only at hs
  split at hs
  next =>
    obtain ⟨n, -, hs⟩ := bind_eq_ok.1 hs
    cases hs
    refine ⟨n, hne, by rw [hahead]; rfl, ?_⟩
    change c₁.skip n = _
    rw [hrest, skip_skip, Nat.add_comm]
  next =>
    cases hs
    exact ⟨0, hne, by rw [hahead]; rfl, hrest⟩

theorem head_comments_withComments (c : Cursor) (comments : List Lexeme) :
    (c.withComments comments).head.comments = comments := by
  obtain ⟨ahead, eof⟩ := c
  cases ahead <;> rfl

/-- Behind a token it does not matter which comments stood before it. -/
theorem Behind.past_comments (h : c.Behind false c₁) (hsize : c₁.size + 1 ≤ c.size)
    (comments : List Lexeme) : (c.withComments comments).Behind false c₁ := by
  obtain ⟨n⟩ := h
  cases n with
  | zero => exact absurd hsize (Nat.not_succ_le_self _)
  | succ n =>
    have hahead : c.ahead ≠ [] := by
      intro hnil
      rw [size, size, hnil] at hsize
      exact Nat.not_succ_le_zero _ hsize
    rw [← skip_withComments c comments n hahead]
    exact .tokens (n + 1)

namespace IsLexed

theorem ends (hc : c.IsLexed mode) (h : c.ahead = []) :
    c.Ends ((Expr.commentTexts c.head.comments).map .comment) :=
  ⟨_, _, pieces_of_nil h, hc.eof, .comments hc.comments⟩

/-- The comments before the next token. -/
theorem spans_comments (hc : c.IsLexed mode) :
    c.Spans ((Expr.commentTexts c.head.comments).map .comment) (c.withComments []) :=
  ⟨c.head.comments, pieces_withComments (by rw [List.append_nil]), .comments hc.comments⟩

/-- The tokens up to one of a kind, with the comments before them. -/
theorem endsWith (hc : c.IsLexed mode) (h : c.Behind false c₁) (hupTo : c.UpTo stops last c₁) :
    ∃ ls mode', c.pieces = ls ++ c₁.pieces ∧ EndsWith stops last ls ∧ c₁.IsLexed mode' := by
  obtain ⟨n⟩ := h
  obtain ⟨ks, hks, havoids⟩ := hupTo
  have hsplit : kinds c.ahead = kinds (c.ahead.take n) ++ kinds (c.skip n).ahead := by
    rw [skip, kinds, kinds, kinds, ← List.map_append, List.take_append_drop]
  rw [hsplit, List.append_cons] at hks
  obtain ⟨us, vs, htake, hus, hvs⟩ := List.map_eq_append_iff.1 (List.append_cancel_right hks)
  obtain ⟨t, rfl, hlast⟩ := List.map_eq_singleton_iff.1 hvs
  have hsequence := hc.tokens
  rw [Cursor.tokens, ← List.take_append_drop n c.ahead, htake, List.append_assoc, List.append_assoc]
    at hsequence
  obtain ⟨mode', hlexed⟩ := exists_isLexed_skip ⟨mode, hc⟩ n
  refine ⟨(us ++ [t]).flatMap Token.pieces, mode', ?_, ?_, hlexed⟩
  · rw [pieces_skip c n, htake]
  · refine ⟨us.flatMap Token.pieces ++ t.comments, t.toLexeme, ?_, hlast, ?_⟩
    · simp [Token.pieces]
    · obtain ⟨mode'', htail⟩ := hsequence.of_append
      have hcomments : ∀ l ∈ t.comments, l.kind = .comment := by
        cases htail with
        | cons _ comments _ _ => exact comments
      rw [Fragment.tokens_append, Fragment.tokens_pieces hsequence,
        Fragment.tokens_of_comments hcomments, List.append_nil, List.map_map]
      rw [← hus] at havoids
      exact havoids

theorem spans_block (hc : c.IsLexed mode) (h : c.Behind false c₁)
    (hupTo : c.UpTo [] .rightBrace c₁) :
    c.Spans [.block] c₁ ∧ ∃ mode', c₁.IsLexed mode' := by
  obtain ⟨ls, mode', hpieces, hends, hc₁⟩ := hc.endsWith h hupTo
  exact ⟨⟨ls, hpieces, .one hends⟩, mode', hc₁⟩

/-- The tokens of a reader that stands behind the comments before them. -/
theorem spans_code (hc : c.IsLexed mode) (h : c.Behind false c₁) (hupTo : c.UpTo stops last c₁) :
    (c.withComments []).Spans [.code stops last] c₁ ∧ ∃ mode', c₁.IsLexed mode' := by
  have hsize := hupTo.size_lt
  have hbare : (c.withComments []).IsLexed mode := hc.withComments (List.forall_mem_nil _)
  have hbehind := h.past_comments hsize []
  obtain ⟨ls, mode', hls, hends, hc₁⟩ := hbare.endsWith hbehind (hupTo.withComments [])
  obtain ⟨code, -, hcode, hiscode, -⟩ := hbehind.code (by rwa [size_withComments]) hbare
  rw [head_comments_withComments, List.nil_append] at hcode
  obtain rfl : ls = code := List.append_cancel_right (hls.symm.trans hcode)
  exact ⟨⟨ls, hls, .one ⟨hiscode, hends⟩⟩, mode', hc₁⟩

/-- A head, and the block behind it if it has one. -/
theorem spans_headed (hc : c.IsLexed mode) {hasBlock : Bool} (h : c.Behind false c₁)
    (hheaded : c.Headed hasBlock c₁) :
    (c.withComments []).Spans (headParts hasBlock) c₁ ∧ ∃ mode', c₁.IsLexed mode' := by
  cases hasBlock with
  | false => exact hc.spans_code h hheaded
  | true =>
    obtain ⟨c', hhead, hopen, hblock, hclose⟩ := hheaded
    obtain ⟨hspans, mode', hc'⟩ := hc.spans_code hhead hopen
    obtain ⟨hspans', hc₁⟩ := hc'.spans_block hblock hclose
    exact ⟨hspans.trans hspans', hc₁⟩

theorem spans_brace (hc : c.IsLexed mode) {s : Step 1 Token c} (hs : c.take .rightBrace = .ok s) :
    (c.withComments []).Spans [.brace] s.rest ∧ ∃ mode', s.rest.IsLexed mode' := by
  obtain ⟨hpieces, hkind, hrest⟩ := hc.take hs
  refine ⟨⟨[c.head.toLexeme], ?_, .one ⟨_, rfl, hkind⟩⟩, _, hrest⟩
  rw [pieces_withComments (List.append_nil c.head.comments).symm] at hpieces
  exact List.append_cancel_left hpieces

/-- Tokens that are taken, without the comments before the first. -/
theorem exists_taken (hc : c.IsLexed mode) (hahead : c.ahead ≠ []) (n : Nat) :
    ∃ ls, (c.withComments []).pieces = ls ++ (c.skip (n + 1)).pieces ∧ IsCode ls ∧
      String.ofList (excerpt ls) = excerptOf (c.ahead.take (n + 1)) := by
  have hskip := skip_withComments c [] n hahead
  obtain ⟨ahead, eof⟩ := c
  cases ahead with
  | nil => exact absurd rfl hahead
  | cons t ts =>
    have hsequence := hc.tokens
    refine ⟨t.toLexeme :: (ts.take n).flatMap Token.pieces, ?_, isCode_tokens fun u hu => ?_, rfl⟩
    · rw [pieces_skip _ (n + 1), hskip]
      rfl
    · have hmem : u ∈ t :: ts := by
        rcases List.mem_cons.1 hu with rfl | hu
        · exact List.mem_cons_self
        · exact List.mem_cons_of_mem t (List.mem_of_mem_take hu)
      exact hsequence.kind_ne (List.mem_append_left _ hmem)

theorem spans_text (hc : c.IsLexed mode) {s : Step 1 (List Token) c}
    (hs : c.takeStatement = .ok s) :
    (c.withComments []).Spans [.text (excerptOf s.value)] s.rest ∧
      ∃ mode', s.rest.IsLexed mode' := by
  obtain ⟨n, hahead, -, hvalue, hrest⟩ := takeStatement_eq_ok hs
  obtain ⟨ls, hpieces, hcode, htext⟩ := hc.exists_taken hahead (n - 1)
  rw [← hrest] at hpieces
  rw [← hvalue] at htext
  refine ⟨⟨ls, hpieces, .one ⟨hcode, ⟨mode, c, s, hc, hs, hpieces⟩, htext⟩⟩, ?_⟩
  rw [hrest]
  exact exists_isLexed_skip ⟨mode, hc⟩ _

/-- An attribute group is kept as text, up to its own closer. The comments behind it are lost. -/
theorem spans_group (hc : c.IsLexed mode) {s : Step 1 (List Token) c}
    (hs : c.takeGroup .attributeOpen = .ok s) :
    (c.withComments []).Spans [.group (excerptOf s.value)] (s.rest.withComments []) ∧
      ∃ mode', s.rest.IsLexed mode' := by
  obtain ⟨n, hahead, hvalue, hrest⟩ := exists_takeGroup hs
  obtain ⟨ls, hpieces, -, htext⟩ := hc.exists_taken hahead n
  rw [← hrest] at hpieces
  rw [← hvalue] at htext
  obtain ⟨s', htake, hbehind, hupTo⟩ := exists_of_takeGroup rfl hs
  obtain ⟨hopening, hkind, hinside⟩ := hc.take htake
  obtain ⟨inner, mode', hinner, hends, hc₁⟩ := hinside.endsWith hbehind hupTo
  rw [pieces_withComments (List.append_nil c.head.comments).symm] at hopening
  obtain rfl : ls = c.head.toLexeme :: inner := by
    have htaken := hpieces.symm.trans (List.append_cancel_left hopening)
    rw [hinner] at htaken
    exact List.append_cancel_right htaken
  have hdropped : s.rest.pieces = s.rest.head.comments ++ (s.rest.withComments []).pieces :=
    pieces_withComments (List.append_nil _).symm
  refine ⟨⟨c.head.toLexeme :: inner ++ s.rest.head.comments, ?_,
    .one ⟨_, inner, _, rfl, hkind, hends, htext, hc₁.comments⟩⟩, mode', hc₁⟩
  rw [hpieces, hdropped, List.append_assoc]

theorem spans_attributes {mode : Mode} {c : Cursor} (hc : c.IsLexed mode)
    {s : Step 0 (List String) c} (hs : c.takeAttributes = .ok s) :
    (c.withComments []).Spans (s.value.map .group) (s.rest.withComments []) ∧
      ∃ mode', s.rest.IsLexed mode' := by
  unfold takeAttributes at hs
  split at hs
  next =>
    obtain ⟨⟨ts, c₁, h₁⟩, hgroup, hs⟩ := bind_eq_ok.1 hs
    obtain ⟨⟨more, c₂, h₂⟩, hmore, hs⟩ := bind_eq_ok.1 hs
    cases hs
    obtain ⟨hfirst, mode', hc₁⟩ := hc.spans_group hgroup
    obtain ⟨hspans, hc₂⟩ := spans_attributes hc₁ hmore
    exact ⟨hfirst.trans hspans, hc₂⟩
  next =>
    cases hs
    exact ⟨.refl, mode, hc⟩
termination_by c.size

theorem spans_finish (hc : c.IsLexed mode) (trivia : Trivia) :
    c.Spans (c.finish trivia).value.behind (c.finish trivia).rest ∧
      (c.finish trivia).rest.IsLexed mode := by
  obtain ⟨hpieces, hcomment, hrest⟩ := hc.sameLineComment
  refine ⟨⟨_, hpieces, ?_⟩, hrest⟩
  change Woven ((c.sameLineComment.value.map Lexeme.commentText).toList.map .comment) _
  cases hvalue : c.sameLineComment.value with
  | none => exact .nil
  | some l => exact .one ⟨l, rfl, hcomment l hvalue, rfl⟩

/-- A closing brace, with the comments before it and the one behind it on its line. -/
theorem spans_closing (hc : c.IsLexed mode) {s : Step 1 Token c} (hs : c.take .rightBrace = .ok s)
    (trivia : Trivia) :
    c.Spans ((Expr.commentTexts c.head.comments).map .comment ++
        .brace :: (s.rest.finish trivia).value.behind) (s.rest.finish trivia).rest ∧
      ∃ mode', (s.rest.finish trivia).rest.IsLexed mode' := by
  obtain ⟨hbrace, mode', hrest⟩ := hc.spans_brace hs
  obtain ⟨hbehind, hfinished⟩ := hrest.spans_finish trivia
  exact ⟨hc.spans_comments.trans (hbrace.trans hbehind), mode', hfinished⟩

end IsLexed

/-- A statement behind its attributes, with what stands before those. -/
theorem Spans.before {trivia : Trivia} (hc : c.IsLexed mode)
    (htrivia : trivia.comments = Expr.commentTexts c.head.comments)
    (hgroups : (c.withComments []).Spans (trivia.attributes.map .group) (c₁.withComments []))
    (h : (c₁.withComments []).Spans ps c₂) : c.Spans (trivia.before ++ ps) c₂ := by
  rw [Trivia.before, htrivia]
  exact (hc.spans_comments.trans hgroups).trans h

end Cursor

open Cursor (over_takeWord over_takeName)

variable {mode : Mode} {c : Cursor}

namespace Member

/-- A member spans the code up to where its kind says that it ends. -/
theorem spans_readBare (hc : c.IsLexed mode) {s : Step 1 Member c} (hs : readBare c = .ok s) :
    (c.withComments []).Spans s.value.parts s.rest ∧ ∃ mode', s.rest.IsLexed mode' := by
  have hbehind : c.Behind false s.rest := (leaves_readBare .refl).rest hs
  have hends := endsAt_readBare hs
  unfold parts
  split
  next hmember =>
    rw [hmember] at hends
    exact hc.spans_headed hbehind hends
  next hmember =>
    rw [hmember] at hends
    exact hc.spans_code hbehind hends
  next hmember =>
    rw [hmember] at hends
    exact hc.spans_code hbehind hends
  next hmember =>
    rw [hmember] at hends
    exact hc.spans_headed hbehind hends

theorem spans_readStmt (hc : c.IsLexed mode) {s : Step 1 MemberStmt c} (hs : readStmt c = .ok s) :
    c.Spans s.value.parts s.rest ∧ ∃ mode', s.rest.IsLexed mode' := by
  obtain ⟨⟨attributes, c₁, h₁⟩, hattributes, hs⟩ := bind_eq_ok.1 hs
  obtain ⟨⟨member, c₂, h₂⟩, hmember, hs⟩ := bind_eq_ok.1 hs
  cases hs
  obtain ⟨hgroups, mode₁, hc₁⟩ := hc.spans_attributes hattributes
  obtain ⟨hspans, mode₂, hc₂⟩ := spans_readBare hc₁ hmember
  obtain ⟨hbehind, hc₃⟩ := hc₂.spans_finish { c.leadingTrivia with attributes }
  exact ⟨.before hc rfl hgroups (hspans.trans hbehind), mode₂, hc₃⟩

/-- The members of a class span their parts, one behind the other. -/
theorem spans_readAll {mode : Mode} {c : Cursor} (hc : c.IsLexed mode)
    {s : Step 0 (List MemberStmt) c} (hs : readAll c = .ok s) :
    c.Spans (s.value.flatMap MemberStmt.parts) s.rest ∧ ∃ mode', s.rest.IsLexed mode' := by
  unfold readAll at hs
  split at hs
  next =>
    cases hs
    exact ⟨.refl, mode, hc⟩
  next =>
    split at hs
    next => cases hs
    next =>
      obtain ⟨⟨member, c₁, h₁⟩, hmember, hs⟩ := bind_eq_ok.1 hs
      obtain ⟨⟨members, c₂, h₂⟩, hmembers, hs⟩ := bind_eq_ok.1 hs
      cases hs
      obtain ⟨hspans, mode', hc₁⟩ := spans_readStmt hc hmember
      obtain ⟨hspans', hc₂⟩ := spans_readAll hc₁ hmembers
      exact ⟨hspans.trans hspans', hc₂⟩
termination_by c.size

end Member

/-- A class behind its attributes. Its head goes up to the opening brace. -/
theorem ClassDecl.spans_read {trivia : Trivia} (hc : c.IsLexed mode) {s : Step 1 ClassDecl c}
    (hs : read trivia c = .ok s) :
    (c.withComments []).Spans s.value.bareParts s.rest ∧ (∃ mode', s.rest.IsLexed mode') ∧
      s.value.trivia.before = trivia.before := by
  unfold read at hs
  have hc₁ : c.Behind false (readModifiers c).rest := behind_readModifiers .refl
  have hover := over_readModifiers c
  generalize readModifiers c = step at hc₁ hover hs
  obtain ⟨modifiers, c₁, h₁⟩ := step
  obtain ⟨⟨_, c₂, h₂⟩, hclass, hs⟩ := bind_eq_ok.1 hs
  obtain ⟨⟨name, c₃, h₃⟩, hname, hs⟩ := bind_eq_ok.1 hs
  obtain ⟨⟨parent, c₄, h₄⟩, hparent, hs⟩ := bind_eq_ok.1 hs
  obtain ⟨⟨interfaces, c₅, h₅⟩, hinterfaces, hs⟩ := bind_eq_ok.1 hs
  obtain ⟨⟨_, c₆, h₆⟩, hopen, hs⟩ := bind_eq_ok.1 hs
  obtain ⟨⟨members, c₇, h₇⟩, hmembers, hs⟩ := bind_eq_ok.1 hs
  obtain ⟨⟨_, c₈, h₈⟩, hclose, hs⟩ := bind_eq_ok.1 hs
  cases hs
  have hc₃ := ((hc₁.takeWord _).rest hclass).takeName.rest hname
  have hc₆ := ((leaves_readInterfaces ((leaves_readParent hc₃).rest hparent)).rest hinterfaces
    |>.take _).rest hopen
  have hover₃ := (hover.trans (over_takeWord (List.Subset.refl _) hclass)).trans
    (over_takeName (List.Subset.refl _) hname)
  have hover₅ := (hover₃.trans (over_readParent hparent)).trans (over_readInterfaces hinterfaces)
  obtain ⟨hhead, mode₆, hlexed₆⟩ := hc.spans_code hc₆ (hover₅.upTo hopen)
  obtain ⟨hbody, mode₇, hlexed₇⟩ := Member.spans_readAll hlexed₆ hmembers
  obtain ⟨hclosing, hlexed₈⟩ := hlexed₇.spans_closing hclose trivia
  refine ⟨?_, hlexed₈, rfl⟩
  rw [bareParts, List.append_assoc]
  exact hhead.trans (hbody.trans hclosing)

/-- An import behind the comments before it. It goes up to the first semicolon. -/
theorem Import.spans_read {trivia : Trivia} (hc : c.IsLexed mode) {s : Step 1 Import c}
    (hs : read trivia c = .ok s) :
    (c.withComments []).Spans (.code [.semicolon] .semicolon :: s.value.trivia.behind) s.rest ∧
      (∃ mode', s.rest.IsLexed mode') ∧ s.value.trivia.before = trivia.before := by
  unfold read at hs
  obtain ⟨⟨_, c₁, h₁⟩, huse, hs⟩ := bind_eq_ok.1 hs
  have hc₂ := behind_readKind ((Cursor.Behind.refl.takeWord _).rest huse)
  have hstops : [TokenKind.semicolon] ⊆ [.semicolon, .leftBrace] := by simp
  have hover₂ := (over_takeWord hstops huse).trans (over_readKind (c := c₁) hstops)
  dsimp only at hs hc₂ hover₂
  generalize readKind c₁ = step at hc₂ hover₂ hs
  obtain ⟨kind, c₂, h₂⟩ := step
  obtain ⟨⟨_, c₃, h₃⟩, hitems, hs⟩ := bind_eq_ok.1 hs
  obtain ⟨⟨_, c₄, h₄⟩, hsemicolon, hs⟩ := bind_eq_ok.1 hs
  cases hs
  have hc₄ := (((leaves_readItems hc₂).rest hitems).take _).rest hsemicolon
  obtain ⟨hcode, mode₄, hlexed₄⟩ :=
    hc.spans_code hc₄ ((hover₂.trans (over_readItems hitems)).upTo hsemicolon)
  obtain ⟨hbehind, hlexed₅⟩ := hlexed₄.spans_finish trivia
  exact ⟨hcode.trans hbehind, ⟨mode₄, hlexed₅⟩, rfl⟩

namespace Stmt

/-- A statement behind its attributes that is kept as text. -/
theorem spans_readRaw {trivia : Trivia} (hc : c.IsLexed mode) {s : Step 1 RawStmt c}
    (hs : readRaw trivia c = .ok s) :
    (c.withComments []).Spans (.text s.value.text :: s.value.trivia.behind) s.rest ∧
      (∃ mode', s.rest.IsLexed mode') ∧ s.value.trivia.before = trivia.before := by
  unfold readRaw at hs
  obtain ⟨⟨ts, c₁, h₁⟩, hts, hs⟩ := bind_eq_ok.1 hs
  cases hs
  obtain ⟨htext, mode₁, hc₁⟩ := hc.spans_text hts
  obtain ⟨hbehind, hc₂⟩ := hc₁.spans_finish trivia
  exact ⟨htext.trans hbehind, ⟨mode₁, hc₂⟩, rfl⟩

/-- A statement that is no namespace, with all that stands before and behind it. -/
theorem spans_readOrdinary (hc : c.IsLexed mode) {s : Step 1 Stmt c} (hs : readOrdinary c = .ok s) :
    c.Spans s.value.parts s.rest ∧ ∃ mode', s.rest.IsLexed mode' := by
  unfold readOrdinary at hs
  obtain ⟨⟨attributes, c₁, h₁⟩, hattributes, hs⟩ := bind_eq_ok.1 hs
  obtain ⟨hgroups, mode₁, hc₁⟩ := hc.spans_attributes hattributes
  have hbefore {ps : List Part} {c₂ : Cursor} (h : (c₁.withComments []).Spans ps c₂) :
      c.Spans ({ c.leadingTrivia with attributes }.before ++ ps) c₂ := .before hc rfl hgroups h
  dsimp only at hs
  split at hs
  next =>
    obtain ⟨⟨i, c₂, h₂⟩, himport, hs⟩ := bind_eq_ok.1 hs
    cases hs
    obtain ⟨hspans, hc₂, htrivia⟩ := Import.spans_read hc₁ himport
    refine ⟨?_, hc₂⟩
    dsimp only [Step.after]
    rw [parts, htrivia]
    exact hbefore hspans
  next =>
    split at hs
    next =>
      obtain ⟨⟨decl, c₂, h₂⟩, hclass, hs⟩ := bind_eq_ok.1 hs
      cases hs
      obtain ⟨hspans, hc₂, htrivia⟩ := ClassDecl.spans_read hc₁ hclass
      refine ⟨?_, hc₂⟩
      dsimp only [Step.after]
      rw [parts, htrivia]
      exact hbefore hspans
    next =>
      obtain ⟨⟨stmt, c₂, h₂⟩, hraw, hs⟩ := bind_eq_ok.1 hs
      cases hs
      obtain ⟨hspans, hc₂, htrivia⟩ := spans_readRaw hc₁ hraw
      refine ⟨?_, hc₂⟩
      have hparts := hbefore hspans
      rw [← htrivia] at hparts
      dsimp only [Step.after]
      split <;> exact hparts

/-- The tag and the text behind it. No comment stands behind them. -/
theorem readOutside_pieces (hc : c.IsLexed mode) {s : Step 1 String c}
    (hs : readOutside c = .ok s) :
    ∃ tags, c.pieces = c.head.comments ++ (tags ++ s.rest.pieces) ∧
      (tags.map (·.kind) = [.closeTag] ∨ tags.map (·.kind) = [.closeTag, .html]) ∧
        s.rest.IsLexed .html := by
  unfold readOutside at hs
  obtain ⟨⟨_, c₁, h₁⟩, hclose, hs⟩ := bind_eq_ok.1 hs
  obtain ⟨hpieces, hkind, hc₁⟩ := hc.take hclose
  dsimp only at hs
  split at hs
  next hhtml =>
    cases hs
    obtain ⟨hpieces', hkind', hc₂⟩ := hc₁.take? hhtml
    rw [hc₁.outside, List.nil_append] at hpieces'
    refine ⟨[c.head.toLexeme, c₁.head.toLexeme], ?_, .inr ?_, hc₂⟩
    · rw [hpieces, hpieces']
      rfl
    · simp [hkind, hkind']
  next =>
    cases hs
    refine ⟨[c.head.toLexeme], hpieces, .inl ?_, hc₁⟩
    simp [hkind]

/-- Text between two tags, with the comments before the first. -/
theorem spans_outside (hc : c.IsLexed mode) {s : Step 1 String c} (hs : readOutside c = .ok s)
    {s' : Step 1 Token s.rest} (hs' : s.rest.take .openTag = .ok s') :
    c.Spans [.outside] s'.rest ∧ ∃ mode', s'.rest.IsLexed mode' := by
  obtain ⟨tags, hpieces, hkinds, hlexed⟩ := readOutside_pieces hc hs
  obtain ⟨hpieces', hkind, hlexed'⟩ := hlexed.take hs'
  rw [hlexed.outside, List.nil_append] at hpieces'
  refine ⟨⟨c.head.comments ++ (tags ++ [s.rest.head.toLexeme]), ?_,
    .one ⟨_, _, rfl, hc.comments, ?_⟩⟩, _, hlexed'⟩
  · rw [hpieces, hpieces']
    simp
  · rcases hkinds with h | h
    · exact .inl (by simp [h, hkind])
    · exact .inr (by simp [h, hkind])

/-- Text behind the last tag, with the comments before the tag. -/
theorem spans_epilogue (hc : c.IsLexed mode) {s : Step 1 String c} (hs : readOutside c = .ok s) :
    c.Spans ((Expr.commentTexts c.head.comments).map .comment ++ [.epilogue]) s.rest ∧
      s.rest.IsLexed .html := by
  obtain ⟨tags, hpieces, hkinds, hlexed⟩ := readOutside_pieces hc hs
  refine ⟨⟨c.head.comments ++ tags, ?_, (Woven.comments hc.comments).append (.one hkinds)⟩, hlexed⟩
  rw [hpieces, List.append_assoc]

/-- The statements stand between the cursors, and what is behind the last of them. The comments
before a closing brace are left to the brace. -/
def Listing.Spans (l : Listing) (braced : Bool) (c c₁ : Cursor) : Prop :=
  if braced then
    c.Spans (listParts l.stmts) c₁ ∧ l.closingComments = Expr.commentTexts c₁.head.comments ∧
      l.epilogue = none
  else c.Spans l.parts c₁

theorem Listing.Spans.cons {l : Listing} {braced : Bool} {s : Stmt} {c c₁ c₂ : Cursor}
    (hs : c.Spans s.parts c₁) (h : l.Spans braced c₁ c₂) : (l.cons s).Spans braced c c₂ := by
  cases braced with
  | true => exact ⟨hs.trans h.1, h.2⟩
  | false =>
      have hspans := hs.trans h
      rw [← parts_cons] at hspans
      exact hspans

/-- The statements of a namespace. Text behind a closing tag can only be behind them at
the end of the source. -/
theorem spans_readInner {mode : Mode} {c : Cursor} (braced : Bool) (hc : c.IsLexed mode)
    {s : Step 0 Listing c} (hs : readInner braced c = .ok s) :
    s.value.Spans braced c s.rest ∧ (∃ mode', s.rest.IsLexed mode') ∧
      (s.value.epilogue.isSome → s.rest.ahead = [] ∧ s.rest.head.comments = []) := by
  unfold readInner at hs
  dsimp only at hs
  split at hs
  next hempty =>
    split at hs
    next => cases hs
    next hopen =>
      cases hs
      rw [eq_false_of_ne_true hopen]
      refine ⟨?_, ⟨mode, hc.withComments (List.forall_mem_nil _)⟩, nofun⟩
      change c.Spans ([] ++ _ ++ []) (c.withComments [])
      rw [List.append_nil]
      exact hc.spans_comments
  next =>
    split at hs
    next hbrace =>
      cases hs
      rw [(Bool.and_eq_true_iff.1 hbrace).1]
      exact ⟨⟨.refl, rfl, rfl⟩, ⟨mode, hc⟩, nofun⟩
    next =>
      split at hs
      next =>
        split at hs
        next => cases hs
        next hopen =>
          cases hs
          rw [eq_false_of_ne_true hopen]
          exact ⟨.refl, ⟨mode, hc⟩, nofun⟩
      next =>
        split at hs
        next =>
          obtain ⟨⟨text, c₁, h₁⟩, houtside, hs⟩ := bind_eq_ok.1 hs
          dsimp only at hs
          split at hs
          next hend =>
            split at hs
            next => cases hs
            next hopen =>
              cases hs
              rw [eq_false_of_ne_true hopen]
              obtain ⟨hspans, hc₁⟩ := spans_epilogue hc houtside
              exact ⟨hspans, ⟨_, hc₁⟩, fun _ => ⟨List.isEmpty_iff.1 hend, hc₁.outside⟩⟩
          next =>
            obtain ⟨⟨_, c₂, h₂⟩, hopen, hs⟩ := bind_eq_ok.1 hs
            obtain ⟨⟨more, c₃, h₃⟩, hmore, hs⟩ := bind_eq_ok.1 hs
            cases hs
            obtain ⟨hspans, mode', hc₂⟩ := spans_outside hc houtside hopen
            obtain ⟨hinner, hc₃⟩ := spans_readInner braced hc₂ hmore
            exact ⟨.cons (s := .html text) hspans hinner, hc₃⟩
        next =>
          obtain ⟨⟨stmt, c₁, h₁⟩, hstmt, hs⟩ := bind_eq_ok.1 hs
          obtain ⟨⟨more, c₂, h₂⟩, hmore, hs⟩ := bind_eq_ok.1 hs
          cases hs
          obtain ⟨hspans, mode', hc₁⟩ := spans_readOrdinary hc hstmt
          obtain ⟨hinner, hc₂⟩ := spans_readInner braced hc₁ hmore
          exact ⟨.cons hspans hinner, hc₂⟩
termination_by c.size

theorem over_readName? (c : Cursor) : c.Over headEnds (readName? c).rest := by
  unfold readName?
  split
  next hname => exact Cursor.over_take? (List.Subset.refl _) hname (by decide)
  next => exact .refl

/-- A namespace with its statements, and the text behind a closing tag that ends it with the
file. -/
theorem spans_readNamespace (hc : c.IsLexed mode)
    {s : Step 1 (NamespaceDecl × Option String) c} (hs : readNamespace c = .ok s) :
    c.Spans ((namespace_ s.value.1).parts ++ epilogueParts s.value.2) s.rest ∧
      (∃ mode', s.rest.IsLexed mode') ∧
      (s.value.2.isSome → s.rest.ahead = [] ∧ s.rest.head.comments = []) := by
  unfold readNamespace at hs
  obtain ⟨⟨_, c₁, h₁⟩, hword, hs⟩ := bind_eq_ok.1 hs
  have hc₁ : c.Behind false c₁ := (Cursor.Behind.refl.takeWord _).rest hword
  have hc₂ : c.Behind false (readName? c₁).rest := by
    unfold readName?
    split
    next hname => exact hc₁.take? hname
    next => exact hc₁
  have hover : c.Over headEnds (readName? c₁).rest :=
    (over_takeWord (List.Subset.refl _) hword).trans (over_readName? c₁)
  have hbefore {ps : List Part} {c₂ : Cursor} (h : (c.withComments []).Spans ps c₂) :
      c.Spans (c.leadingTrivia.before ++ ps) c₂ := .before hc rfl .refl h
  dsimp only at hs hover
  generalize readName? c₁ = step at hc₂ hover hs
  obtain ⟨name, c₂, h₂⟩ := step
  dsimp only at hc₂ hover hs
  split at hs
  next _ c₃ h₃ hopen =>
    obtain ⟨⟨⟨stmts, closingComments, epilogue⟩, c₄, h₄⟩, hinner, hs⟩ := bind_eq_ok.1 hs
    obtain ⟨⟨_, c₅, h₅⟩, hclose, hs⟩ := bind_eq_ok.1 hs
    cases hs
    obtain ⟨hhead, mode₃, hlexed₃⟩ := hc.spans_code (hc₂.take? hopen) (hover.upTo_take? hopen)
    obtain ⟨⟨hstmts, hcomments, -⟩, ⟨mode₄, hlexed₄⟩, -⟩ := spans_readInner true hlexed₃ hinner
    obtain ⟨hclosing, hlexed₅⟩ := hlexed₄.spans_closing hclose c.leadingTrivia
    dsimp only at hcomments hclosing
    rw [← hcomments] at hclosing
    refine ⟨?_, hlexed₅, Bool.noConfusion⟩
    dsimp only [Step.past, Step.after]
    rw [parts, namespaceParts, if_pos rfl, epilogueParts, if_neg Bool.noConfusion, List.append_nil,
      List.append_assoc (Stmt.listParts stmts)]
    exact hbefore (hhead.trans (hstmts.trans hclosing))
  next => cases hs
  next name' =>
    obtain ⟨⟨_, c₃, h₃⟩, hsemicolon, hs⟩ := bind_eq_ok.1 hs
    dsimp only at hs
    have hfinished := fun mode (h : c₃.IsLexed mode) => h.spans_finish c.leadingTrivia
    have htrivia : (c₃.finish c.leadingTrivia).value.before = c.leadingTrivia.before := rfl
    generalize c₃.finish c.leadingTrivia = step at hfinished htrivia hs
    obtain ⟨trivia, c₄, h₄⟩ := step
    obtain ⟨⟨⟨stmts, closingComments, epilogue⟩, c₅, h₅⟩, hinner, hs⟩ := bind_eq_ok.1 hs
    cases hs
    obtain ⟨hhead, mode₃, hlexed₃⟩ :=
      hc.spans_code ((hc₂.take _).rest hsemicolon) (hover.upTo hsemicolon)
    obtain ⟨hbehind, hlexed₄⟩ := hfinished mode₃ hlexed₃
    obtain ⟨hstmts, hlexed₅, hend⟩ := spans_readInner false hlexed₄ hinner
    refine ⟨?_, hlexed₅, hend⟩
    have hspans := hbefore (hhead.trans (hbehind.trans hstmts))
    dsimp only [Step.past, Step.after] at htrivia ⊢
    rw [parts, namespaceParts, if_neg Bool.noConfusion, htrivia]
    simpa only [Listing.parts, List.append_assoc, List.cons_append, List.nil_append] using hspans

theorem readOuter_of_nil (h : c.ahead = []) {s : Step 0 Listing c} (hs : readOuter c = .ok s) :
    s.value = ⟨[], Expr.commentTexts c.head.comments, none⟩ := by
  unfold readOuter at hs
  rw [if_pos (List.isEmpty_iff.2 h)] at hs
  cases hs
  rfl

/-- If a closing tag ends a namespace with the file, nothing is left for the file itself. -/
theorem ends_namespace {decl : NamespaceDecl} {epilogue : Option String} {c₁ : Cursor}
    (hspans : c.Spans ((namespace_ decl).parts ++ epilogueParts epilogue) c₁)
    (hend : epilogue.isSome → c₁.ahead = [] ∧ c₁.head.comments = []) {s : Step 0 Listing c₁}
    (hs : readOuter c₁ = .ok s) (hends : c₁.Ends s.value.parts) :
    c.Ends ({ s.value.cons (namespace_ decl) with
      epilogue := epilogue.or s.value.epilogue } : Listing).parts := by
  have hall := hspans.ends hends
  cases epilogue with
  | none =>
    rw [epilogueParts, if_neg nofun, List.append_nil, ← parts_cons] at hall
    exact hall
  | some text =>
    obtain ⟨hahead, hcomments⟩ := hend rfl
    have hnothing : s.value = ⟨[], [], none⟩ := by
      rw [readOuter_of_nil hahead hs, hcomments]
      rfl
    rw [hnothing] at hall ⊢
    change c.Ends ((namespace_ decl).parts ++ [.epilogue] ++ []) at hall
    change c.Ends ((namespace_ decl).parts ++ [] ++ [] ++ [.epilogue])
    rw [List.append_nil] at hall
    rw [List.append_nil, List.append_nil]
    exact hall

/-- The statements of a file, and what is behind the last of them, are all that is left of the
source. -/
theorem ends_readOuter {mode : Mode} {c : Cursor} (hc : c.IsLexed mode) {s : Step 0 Listing c}
    (hs : readOuter c = .ok s) : c.Ends s.value.parts := by
  unfold readOuter at hs
  dsimp only at hs
  split at hs
  next hempty =>
    cases hs
    change c.Ends ([] ++ _ ++ [])
    rw [List.append_nil]
    exact hc.ends (List.isEmpty_iff.1 hempty)
  next =>
    split at hs
    next =>
      obtain ⟨⟨⟨decl, epilogue⟩, c₁, h₁⟩, hnamespace, hs⟩ := bind_eq_ok.1 hs
      obtain ⟨⟨more, c₂, h₂⟩, hmore, hs⟩ := bind_eq_ok.1 hs
      cases hs
      obtain ⟨hspans, ⟨mode', hc₁⟩, hend⟩ := spans_readNamespace hc hnamespace
      exact ends_namespace hspans hend hmore (ends_readOuter hc₁ hmore)
    next =>
      split at hs
      next =>
        obtain ⟨⟨text, c₁, h₁⟩, houtside, hs⟩ := bind_eq_ok.1 hs
        dsimp only at hs
        split at hs
        next hend =>
          cases hs
          obtain ⟨hspans, hc₁⟩ := spans_epilogue hc houtside
          have hends := hspans.ends (hc₁.ends (List.isEmpty_iff.1 hend))
          rw [hc₁.outside] at hends
          change c.Ends (_ ++ []) at hends
          rw [List.append_nil] at hends
          exact hends
        next =>
          obtain ⟨⟨_, c₂, h₂⟩, hopen, hs⟩ := bind_eq_ok.1 hs
          obtain ⟨⟨more, c₃, h₃⟩, hmore, hs⟩ := bind_eq_ok.1 hs
          cases hs
          obtain ⟨hspans, mode', hc₂⟩ := spans_outside hc houtside hopen
          have hends := hspans.ends (ends_readOuter hc₂ hmore)
          have hparts : (more.cons (.html text)).parts = [.outside] ++ more.parts := parts_cons _ _
          rw [← hparts] at hends
          exact hends
      next =>
        obtain ⟨⟨stmt, c₁, h₁⟩, hstmt, hs⟩ := bind_eq_ok.1 hs
        obtain ⟨⟨more, c₂, h₂⟩, hmore, hs⟩ := bind_eq_ok.1 hs
        cases hs
        obtain ⟨hspans, mode', hc₁⟩ := spans_readOrdinary hc hstmt
        have hends := hspans.ends (ends_readOuter hc₁ hmore)
        rw [← parts_cons] at hends
        exact hends
termination_by c.size

end Stmt

namespace SourceFile

/-- A file with a statement, a class and a closing tag. Of its comments only the one
before the tag is not kept. -/
def commented : String :=
  "<?php\n// a\necho 1; // b\nclass A \x7b // c\n  const X = 1; // d\n  // e\n\x7d\n// f\n?>\n" ++
    "<?php\n// g\n"

end SourceFile

end ClassEdit
