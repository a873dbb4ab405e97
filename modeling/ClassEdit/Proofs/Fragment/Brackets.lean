import ClassEdit.Proofs.Fragment.Reads
import ClassEdit.Proofs.Fragment.Resplitting

/-!
The brackets of a fragment. The reader of a statement follows them with the closers of those
that are open, and goes past the head of a loop or a condition with the reader of a group; both
stop only where none is open that was not open before. Main statement: the brackets of every
statement are nested, and whoever reads a group passes over the statements of a fragment in it
as if they were not there.
-/

namespace ClassEdit

namespace TokenKind

def isOpener (k : TokenKind) : Bool := k.closer?.isSome

theorem isCloser_of_closer? {k c : TokenKind} (h : k.closer? = some c) : c.isCloser = true := by
  cases k <;> cases h <;> rfl

theorem isCloser_of_isOpener {k : TokenKind} (h : k.isOpener = true) : k.isCloser = false := by
  cases k <;> first | rfl | cases h

theorem isOpener_of_closer? {k c : TokenKind} (h : k.closer? = some c) : k.isOpener = true := by
  rw [isOpener, h]
  rfl

theorem isOpener_eq_false {k : TokenKind} (h : k.closer? = none) : k.isOpener = false := by
  rw [isOpener, h]
  rfl

end TokenKind

namespace Brackets

open TokenKind

/-- The brackets among tokens of the given kinds. -/
def word (ks : List TokenKind) : List TokenKind :=
  ks.filter fun k => k.isOpener || k.isCloser

/-- Words of brackets in which each is closed by its own kind. -/
inductive Matched : List TokenKind → Prop where
  | nil : Matched []
  | group {k closer : TokenKind} {inner behind : List TokenKind} (hk : k.closer? = some closer)
      (hinner : Matched inner) (hbehind : Matched behind) : Matched (k :: inner ++ closer :: behind)

/-- A word that closes the brackets that are open, the innermost first, and is matched
between their closers. -/
def Unwinds : List TokenKind → List TokenKind → Prop
  | [], ks => Matched ks
  | closer :: outer, ks =>
      ∃ inner behind, ks = inner ++ closer :: behind ∧ Matched inner ∧ Unwinds outer behind

/-- Tokens close the brackets that are open, the innermost first, and those that they open
themselves. -/
inductive Closes : List TokenKind → List TokenKind → Prop where
  | nil : Closes [] []
  | plain {k : TokenKind} {stack ks : List TokenKind} (hopen : k.closer? = none)
      (hclose : k.isCloser = false) (h : Closes stack ks) : Closes stack (k :: ks)
  | opening {k closer : TokenKind} {stack ks : List TokenKind} (hk : k.closer? = some closer)
      (h : Closes (closer :: stack) ks) : Closes stack (k :: ks)
  | closing {k : TokenKind} {stack ks : List TokenKind} (hopen : k.closer? = none)
      (hclose : k.isCloser = true) (h : Closes stack ks) : Closes (k :: stack) (k :: ks)

section Word

variable {ks ls stack behind : List TokenKind}

theorem word_cons_of_plain {k : TokenKind} (hopen : k.closer? = none)
    (hclose : k.isCloser = false) :
    word (k :: ks) = word ks := by
  refine List.filter_cons_of_neg ?_
  rw [isOpener_eq_false hopen, hclose]
  nofun

theorem word_cons_of_opener {k closer : TokenKind} (hk : k.closer? = some closer) :
    word (k :: ks) = k :: word ks := by
  refine List.filter_cons_of_pos ?_
  rw [isOpener_of_closer? hk]
  rfl

theorem word_cons_of_closer {k : TokenKind} (hclose : k.isCloser = true) :
    word (k :: ks) = k :: word ks := by
  refine List.filter_cons_of_pos ?_
  rw [hclose]
  exact Bool.or_true _

namespace Matched

/-- The brackets are the openers and as many closers. -/
theorem countP_eq (h : Matched ks) : ks.countP isCloser = ks.countP isOpener := by
  induction h with
  | nil => rfl
  | @group k closer _ _ hk _ _ hinner hbehind =>
    have hopener := isOpener_of_closer? hk
    have hcloser := isCloser_of_closer? hk
    have hnot := isCloser_of_isOpener hopener
    have hnot' : closer.isOpener = false := by
      cases hc : closer.isOpener with
      | false => rfl
      | true => rw [isCloser_of_isOpener hc] at hcloser; cases hcloser
    simp only [List.countP_append, List.countP_cons, hopener, hcloser, hnot, hnot', hinner, hbehind]
    simp only [if_true, Bool.false_eq_true, if_false]
    omega

/-- No beginning of the brackets closes more than it opens. -/
theorem countP_take_le (h : Matched ks) (n : Nat) :
    (ks.take n).countP isCloser ≤ (ks.take n).countP isOpener := by
  induction h generalizing n with
  | nil => rw [List.take_nil]; exact Nat.le_refl _
  | @group k closer inner behind hk hinner _ ih ih' =>
    have hopener := isOpener_of_closer? hk
    have hcloser := isCloser_of_closer? hk
    have hnot := isCloser_of_isOpener hopener
    have hcount := hinner.countP_eq
    cases n with
    | zero => exact Nat.le_refl _
    | succ n =>
      rw [List.cons_append, List.take_succ_cons, List.countP_cons_of_neg (by rw [hnot]; nofun),
        List.countP_cons_of_pos hopener, List.take_append, List.countP_append, List.countP_append]
      have hbefore := ih n
      cases hm : n - inner.length with
      | zero =>
        simp only [List.take_zero, List.countP_nil]
        omega
      | succ m =>
        have hbehind := ih' m
        rw [List.take_of_length_le (by omega), List.take_succ_cons, List.countP_cons_of_pos hcloser,
          List.countP_cons]
        omega

end Matched

theorem Unwinds.opening {k closer : TokenKind} (hk : k.closer? = some closer)
    (h : Unwinds (closer :: stack) ks) :
    Unwinds stack (k :: ks) := by
  obtain ⟨inner, behind, rfl, hinner, hbehind⟩ := h
  cases stack with
  | nil => exact .group hk hinner hbehind
  | cons outer stack =>
    obtain ⟨inner', behind, rfl, hinner', hbehind⟩ := hbehind
    exact ⟨k :: inner ++ closer :: inner', behind, by simp, .group hk hinner hinner', hbehind⟩

namespace Closes

theorem append (h : Closes stack ks) {stack' : List TokenKind} (h' : Closes stack' ls) :
    Closes (stack ++ stack') (ks ++ ls) := by
  induction h with
  | nil => exact h'
  | plain hopen hclose _ ih => exact .plain hopen hclose ih
  | opening hk _ ih => exact .opening hk ih
  | closing hopen hclose _ ih => exact .closing hopen hclose ih

theorem of_plain (h : ∀ k ∈ ks, k.closer? = none ∧ k.isCloser = false) : Closes [] ks := by
  induction ks with
  | nil => exact .nil
  | cons k ks ih =>
    obtain ⟨⟨hopen, hclose⟩, hks⟩ := List.forall_mem_cons.1 h
    exact .plain hopen hclose (ih hks)

/-- What closes the brackets of a stack is matched between the closers. -/
theorem unwinds (h : Closes stack ks) : Unwinds stack (word ks) := by
  induction h with
  | nil => exact .nil
  | plain hopen hclose _ ih => rwa [word_cons_of_plain hopen hclose]
  | opening hk _ ih =>
    rw [word_cons_of_opener hk]
    exact .opening hk ih
  | closing _ hclose _ ih =>
    rw [word_cons_of_closer hclose]
    exact ⟨[], _, rfl, .nil, ih⟩

end Closes

end Word

end Brackets

namespace Token

def kinds (ts : List Token) : List TokenKind := ts.map (·.kind)

@[simp] theorem kinds_cons (t : Token) (ts : List Token) :
    kinds (t :: ts) = t.kind :: kinds ts := rfl

@[simp] theorem kinds_nil : kinds [] = [] := rfl

end Token

namespace Extent

open Brackets (Closes Matched word)
open Token (kinds)

variable {eof t : Token} {ts us : List Token} {n : Nat}

/-- The last token of a group is the bracket that closes it. -/
theorem exists_kinds_of_groupRest {closer : TokenKind} {outer : List TokenKind}
    (h : groupRest eof closer outer ts = .ok n) :
    ∃ inner last, kinds (ts.take n) = inner ++ [last] ∧ Closes [last] [last] ∧
      Closes (closer :: outer).dropLast inner ∧ (closer :: outer).dropLast ++ [last] =
        closer :: outer := by
  induction ts generalizing closer outer n with
  | nil => cases h
  | cons t ts ih =>
    unfold groupRest at h
    split at h
    next inner hopen =>
      obtain ⟨m, hm, rfl⟩ := Scan.map_eq_ok h
      obtain ⟨ks, last, hks, hlast, hcloses, hstack⟩ := ih hm
      refine ⟨t.kind :: ks, last, ?_, hlast, .opening hopen hcloses, (List.cons.inj hstack).2⟩
      rw [List.take_succ_cons, Token.kinds_cons, hks, List.cons_append]
    next hopen =>
      split at h
      next hclose =>
        obtain ⟨m, hm, rfl⟩ := Scan.map_eq_ok h
        obtain ⟨ks, last, hks, hlast, hcloses, hstack⟩ := ih hm
        refine ⟨t.kind :: ks, last, ?_, hlast, .plain hopen (by simpa using hclose) hcloses, hstack⟩
        rw [List.take_succ_cons, Token.kinds_cons, hks, List.cons_append]
      next hclose =>
        have hclose : t.kind.isCloser = true := by simpa using hclose
        split at h
        next => cases h
        next hkind =>
          rw [Decidable.not_not] at hkind
          subst hkind
          cases outer with
          | nil =>
            cases h
            exact ⟨[], t.kind, rfl, .closing hopen hclose .nil, .nil, rfl⟩
          | cons o os =>
            obtain ⟨m, hm, rfl⟩ := Scan.map_eq_ok h
            obtain ⟨ks, last, hks, hlast, hcloses, hstack⟩ := ih hm
            refine ⟨t.kind :: ks, last, ?_, hlast, .closing hopen hclose hcloses, ?_⟩
            · rw [List.take_succ_cons, Token.kinds_cons, hks, List.cons_append]
            · rw [List.dropLast_cons_of_ne_nil (List.cons_ne_nil _ _), List.cons_append, hstack]

/-- A group is read up to the bracket that closes it. -/
theorem closes_of_groupRest {closer : TokenKind} {outer : List TokenKind}
    (h : groupRest eof closer outer ts = .ok n) : Closes (closer :: outer) (kinds (ts.take n)) := by
  obtain ⟨inner, last, hkinds, hlast, hinner, hstack⟩ := exists_kinds_of_groupRest h
  rw [hkinds, ← hstack]
  exact hinner.append hlast

theorem closes_take_add {stack stack' : List TokenKind} {m : Nat}
    (h : Closes stack (kinds (ts.take n))) (h' : Closes stack' (kinds ((ts.drop n).take m))) :
    Closes (stack ++ stack') (kinds (ts.take (n + m))) := by
  rw [List.take_add, kinds, List.map_append]
  exact h.append h'

/-- The head of a loop or a condition, behind its word. -/
theorem closes_of_head (hparen : ts.head?.any (·.kind == .leftParen) = true)
    (h : groupRest eof .rightParen [] ts.tail = .ok n) : Closes [] (kinds (ts.take (n + 1))) := by
  cases ts with
  | nil => cases hparen
  | cons p ts =>
    have hkind : p.kind.closer? = some .rightParen := by
      rw [show p.kind = .leftParen from eq_of_beq hparen]
      rfl
    exact .opening hkind (closes_of_groupRest h)

theorem closes_of_kind {k : TokenKind} {stack ks : List TokenKind} (hkind : t.kind = k)
    (hopen : k.closer? = none) (hclose : k.isCloser = false) (h : Closes stack ks) :
    Closes stack (t.kind :: ks) := by
  subst hkind
  exact .plain hopen hclose h

theorem closes_of_colon (hcolon : ts.head?.any (·.kind == .colon) = true) :
    Closes [] (kinds (ts.take 1)) := by
  cases ts with
  | nil => cases hcolon
  | cons t ts => exact closes_of_kind (eq_of_beq hcolon) rfl rfl .nil

/-- A statement closes what is open and what it opens. -/
theorem Reads.closes {shape : Shape} {closers : List TokenKind} {blocks : Nat} {isName : Bool}
    (h : Reads eof shape closers blocks isName ts n) : Closes closers (kinds (ts.take n)) := by
  have hhead {t : Token} {ts : List Token} {isName : Bool} {blocks k : Nat}
      (hpass : Passes [] blocks t)
      (hheader : atHeader [] isName t ts = true)
        (hgroup : groupRest eof .rightParen [] ts.tail = .ok k) :
      Closes [] (kinds ((t :: ts).take (k + 2))) :=
    .plain hpass.opener hpass.closer (closes_of_head (Bool.and_eq_true_iff.1 hheader).2 hgroup)
  induction h with
  | opener hopen _ ih => exact .opening hopen ih
  | closer hopen hclose _ _ ih => exact .closing hopen hclose ih
  | @block _ t _ hkind =>
    rw [← hkind]
    exact .closing (k := t.kind) (by rw [hkind]; rfl) (by rw [hkind]; rfl) .nil
  | semicolon hkind => exact closes_of_kind hkind rfl rfl .nil
  | more hkind _ _ ih => exact closes_of_kind hkind rfl rfl ih
  | tag => exact .nil
  | header hpass hheader hgroup _ _ ih =>
    have hclosed := closes_take_add (hhead hpass hheader hgroup) ih
    rwa [Nat.add_comm]
  | @colon blocks k n isName t ts hpass hheader hgroup hcolon _ ih =>
    have hone : Closes [] (kinds (((t :: ts).drop (k + 2)).take 1)) := closes_of_colon hcolon
    have hclosed := closes_take_add (closes_take_add (hhead hpass hheader hgroup) hone) ih
    rwa [Nat.add_comm]
  | other hpass _ _ _ ih => exact .plain hpass.opener hpass.closer ih

theorem closes_of_outside (h : ∀ t ∈ ts, isOutside t = true) : Closes [] (kinds ts) := by
  refine Closes.of_plain fun k hk => ?_
  obtain ⟨t, ht, rfl⟩ := List.mem_map.1 hk
  have hkind := h t ht
  simp only [isOutside, Bool.or_eq_true, beq_iff_eq] at hkind
  rcases hkind with (hkind | hkind) | hkind <;>
  · rw [hkind]
    exact ⟨rfl, rfl⟩

theorem closes_of_statement {c : Cursor} (h : statement c = .ok n) :
    Closes [] (kinds (c.ahead.take n)) := by
  unfold statement at h
  dsimp only at h
  split at h
  next => exact (reads_of_rest h).closes
  next =>
    cases h
    rw [← List.prefix_iff_eq_take.1 (List.takeWhile_prefix isOutside)]
    exact closes_of_outside fun t ht => List.all_eq_true.1 List.all_takeWhile t ht

/-- Tokens that close what they open are passed over in a group, and those that close brackets of it
besides leave the brackets around them. -/
theorem groupRest_of_closes {stack outer outer' : List TokenKind} {closer closer' : TokenKind}
    (h : Closes stack (kinds ts)) (hstack : stack ++ closer :: outer = closer' :: outer')
    (us : List Token) :
    groupRest eof closer' outer' (ts ++ us) = (· + ts.length) <$> groupRest eof
      closer outer us := by
  induction ts generalizing stack closer' outer' with
  | nil =>
    cases h
    obtain ⟨rfl, rfl⟩ := List.cons.inj hstack
    cases hus : groupRest eof closer outer us <;> simp [hus, Functor.map, Except.map]
  | cons t ts ih =>
    have hsucc (x : Except ParseError Nat) :
        (· + 1) <$> (· + ts.length) <$> x = (· + (t :: ts).length) <$> x := by
      cases x <;> rfl
    rw [List.cons_append, groupRest.eq_def, ← hsucc]
    dsimp only
    cases h with
    | plain hopen hclose h =>
      rw [hopen, ih h hstack, if_pos (by rw [hclose]; rfl)]
    | opening hk h =>
      rw [hk, ← ih h (by rw [List.cons_append, hstack])]
    | @closing _ stack _ hopen hclose h =>
      obtain ⟨rfl, hrest⟩ := List.cons.inj hstack
      have hrest : stack ++ closer :: outer = outer' := hrest
      rw [hopen]
      dsimp only
      rw [if_neg (by rw [hclose]; decide), if_neg (by simp)]
      -- the bracket that is closed was open before the tokens, so more than its closer is on the
      -- stack
      cases outer' with
      | nil => simp at hrest
      | cons o os => rw [← ih h hrest]

end Extent

namespace Fragment

open Brackets (Closes Matched word)
open Extent (closes_of_statement)
open Token (kinds)

def brackets (ls : List Lexeme) : List TokenKind := word (ls.map (·.kind))

/-- No comment is a bracket. -/
theorem brackets_tokens (ls : List Lexeme) : brackets (tokens ls) = brackets ls := by
  rw [brackets, brackets, word, word, tokens, List.filter_map, List.filter_map, List.filter_filter]
  refine congrArg _ (List.filter_congr fun l _ => ?_)
  cases hkind : l.kind <;> simp [hkind, TokenKind.isOpener, TokenKind.isCloser, TokenKind.closer?]

theorem brackets_of_tokens {ls : List Lexeme} {ts : List Token}
    (h : tokens ls = ts.map (·.toLexeme)) :
    brackets ls = word (kinds ts) := by
  rw [← brackets_tokens, h, brackets, List.map_map]
  rfl

theorem kinds_ahead_sameLineComment (c : Cursor) :
    kinds c.sameLineComment.rest.ahead = kinds c.ahead := by
  have hkinds := congrArg (List.map (·.kind)) c.map_ahead_sameLineComment
  rw [List.map_map, List.map_map] at hkinds
  exact hkinds

/-- The tokens ahead close what they open, and so does each part. -/
theorem Parts.closes {c : Cursor} {parts : List (List Lexeme)} (h : Parts c parts)
    (hc : ∃ mode, c.IsLexed mode) :
    Closes [] (kinds c.ahead) ∧ ∀ part ∈ parts, Matched (brackets part) := by
  induction h with
  | nil hahead => exact ⟨hahead ▸ .nil, List.forall_mem_nil _⟩
  | @closing c l ls hahead hcomments =>
    refine ⟨hahead ▸ .nil, List.forall_mem_singleton.2 ?_⟩
    rw [← hcomments, ← brackets_tokens, tokens_of_comments (Cursor.comments_of_lexed hc)]
    exact .nil
  | @cons c s parts hs hparts ih =>
    obtain ⟨n, hahead, hn, hvalue, hrest⟩ := Cursor.takeStatement_eq_ok hs
    have hpos := (Extent.statement_ends hahead hn).1
    rw [Nat.sub_add_cancel hpos] at hvalue hrest
    have hstatement := closes_of_statement hn
    rw [← hvalue] at hstatement
    obtain ⟨htokens, hlexed⟩ := tokens_part hc hs
    obtain ⟨hbehind, hmatched⟩ := ih hlexed
    have hahead : c.ahead = s.value ++ s.rest.ahead := by
      rw [hvalue, hrest]
      exact (List.take_append_drop n c.ahead).symm
    constructor
    · rw [hahead, kinds, List.map_append]
      rw [kinds_ahead_sameLineComment] at hbehind
      exact hstatement.append hbehind
    · refine List.forall_mem_cons.2 ⟨?_, hmatched⟩
      rw [brackets_of_tokens htokens]
      exact hstatement.unwinds

/-- The brackets of each statement are nested. Whoever reads a group passes over all of them. -/
theorem brackets_matched {source : String} {stmts : List InnerStmt}
    (h : ofSource source = .ok stmts) :
    ∃ (parts : List (List Lexeme)) (eof : Lexeme),
      Lexeme.ofCode (withoutOpenTag source.toList) = .ok (parts.flatten ++ [eof]) ∧
      stmts.map (·.text) = parts.map partText ∧
      (∀ part ∈ parts, Matched (brackets part) ∧ ∀ n,
        ((brackets part).take n).countP TokenKind.isCloser ≤ ((brackets part).take n).countP
          TokenKind.isOpener) ∧
      ∀ (e : Token) (closer : TokenKind) (outer : List TokenKind) (us : List Token),
        Extent.groupRest e closer outer ((Cursor.ofLexemes (parts.flatten ++ [eof])).ahead ++ us) =
          (· + (Cursor.ofLexemes (parts.flatten ++ [eof])).ahead.length) <$> Extent.groupRest e
            closer outer us := by
  obtain ⟨ls, parts, hls, hparts, htexts⟩ := exists_parts h
  obtain ⟨hlexed, -⟩ := Cursor.isLexed_ofLexemes hls
  obtain ⟨hcloses, hmatched⟩ := hparts.closes ⟨_, hlexed⟩
  have hflatten := flatten_parts hls hparts
  refine ⟨parts, _, hflatten ▸ hls, htexts, fun part hpart => ?_, fun e closer outer us => ?_⟩
  · exact ⟨hmatched part hpart, (hmatched part hpart).countP_take_le⟩
  · rw [← hflatten]
    exact Extent.groupRest_of_closes hcloses rfl us

/-- Brackets in a string and in a comment are none, and those of an attribute match too. -/
theorem brackets_matched_closure :
    ∃ stmts, ∃ (parts : List (List Lexeme)) (eof : Lexeme),
      ofSource "$f = fn ($x) => [$x, '\x7d'];\nwhile ($a): #[A] g(); endwhile; // )" = .ok stmts ∧
      stmts.map (·.text) =
        ["$f = fn ($x) => [$x, '\x7d'];", "while ($a): #[A] g(); endwhile; // )"] ∧
      parts.map partText = stmts.map (·.text) ∧ (∀ part ∈ parts, Matched (brackets part)) ∧
      Extent.groupRest ⟨eof, []⟩ .rightBrace []
        ((Cursor.ofLexemes (parts.flatten ++ [eof])).ahead ++
        [⟨⟨[], .rightBrace, ['}'], .start⟩, []⟩]) = .ok 28 := by
  have hread :
      (ofSource "$f = fn ($x) => [$x, '\x7d'];\nwhile ($a): #[A] g(); endwhile; // )").toOption.map
        (·.map (·.text)) =
          some ["$f = fn ($x) => [$x, '\x7d'];", "while ($a): #[A] g(); endwhile; // )"] := by
    decide +kernel
  cases hstmts : ofSource "$f = fn ($x) => [$x, '\x7d'];\nwhile ($a): #[A] g(); endwhile; // )" with
  | error e =>
    rw [hstmts] at hread
    cases hread
  | ok stmts =>
    rw [hstmts] at hread
    obtain ⟨parts, eof, hcode, htexts, hparts, hgroup⟩ := brackets_matched hstmts
    have hlength : (Lexeme.ofCode (withoutOpenTag
        "$f = fn ($x) => [$x, '\x7d'];\nwhile ($a): #[A] g(); endwhile; // )".toList)).toOption.map
        (fun ls => (Cursor.ofLexemes ls).ahead.length) = some 27 := by
      decide +kernel
    rw [hcode] at hlength
    refine ⟨stmts, parts, eof, rfl, Option.some.inj hread, htexts.symm, fun part hpart =>
      (hparts part hpart).1, ?_⟩
    have hahead : (Cursor.ofLexemes (parts.flatten ++ [eof])).ahead.length = 27 :=
      Option.some.inj hlength
    rw [hgroup, hahead]
    rfl

end Fragment

end ClassEdit
