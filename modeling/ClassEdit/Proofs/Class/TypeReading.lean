import ClassEdit.Class.TypeParser
import ClassEdit.Proofs.Reading

/-!
Types are read as they are written. Main statement: a text of the grammar of types, before anything
that does not go on with it, is read as this text.
-/

namespace ClassEdit

open Scan (isName Stops IsToken)
open Quoted (isNameStart)

def memberWords : List String :=
  ["public", "protected", "private", "static", "abstract", "final", "readonly", "var", "const",
    "function"]

def isMemberWord (cs : List Char) : Bool :=
  memberWords.any fun w => cs.map Char.toLower == w.toList

namespace TypeText

def isTypeName (name : String) : Bool :=
  isName name.toList && !isMemberWord name.toList

/-- Names joined by ampersands. -/
inductive IsIntersection : String → Prop where
  | name {n : String} (h : isTypeName n = true) : IsIntersection n
  | and {n ns : String} (h : isTypeName n = true) (hs : IsIntersection ns) :
      IsIntersection (n ++ "&" ++ ns)

/-- A name, or an intersection in parentheses. -/
inductive IsPart : String → Prop where
  | name {n : String} (h : isTypeName n = true) : IsPart n
  | group {ns : String} (h : IsIntersection ns) : IsPart ("(" ++ ns ++ ")")

/-- Parts joined by bars and ampersands. -/
inductive IsParts : String → Prop where
  | part {p : String} (h : IsPart p) : IsParts p
  | or {p ps : String} (h : IsPart p) (hs : IsParts ps) : IsParts (p ++ "|" ++ ps)
  | and {p ps : String} (h : IsPart p) (hs : IsParts ps) : IsParts (p ++ "&" ++ ps)

/-- A type as it is written without white space. -/
inductive IsType : String → Prop where
  | parts {ps : String} (h : IsParts ps) : IsType ps
  | nullable {ps : String} (h : IsParts ps) : IsType ("?" ++ ps)

def Opens (x : String) : Prop :=
  ∃ c r, x.toList = c :: r ∧ c ∉ ['&', '|', '=', '?', '>', '-']

/-- The first token of a type. A word is none that begins a member. -/
def IsFirst (t : Token) : Prop :=
  t.kind = .question ∨ t.kind = .leftParen ∨ (t.kind = .word ∧ isMemberWord t.text = false)

theorem opens_of_isTypeName {n : String} (h : isTypeName n = true) : Opens n := by
  simp only [isTypeName, Bool.and_eq_true] at h
  cases hn : n.toList with
  | nil => simp [hn, isName] at h
  | cons c r =>
    refine ⟨c, r, hn, fun hc => ?_⟩
    have hname := h.1
    rw [hn] at hname
    simp only [List.mem_cons, List.not_mem_nil, or_false] at hc
    rcases hc with rfl | rfl | rfl | rfl | rfl | rfl <;>
      simp [Scan.isName_cons, isNameStart] at hname

theorem Opens.append {x : String} (h : Opens x) (s : String) : Opens (x ++ s) := by
  obtain ⟨c, r, hx, hc⟩ := h
  exact ⟨c, r ++ s.toList, by simp [hx], hc⟩

theorem IsIntersection.opens {x : String} (h : IsIntersection x) : Opens x := by
  cases h with
  | name h => exact opens_of_isTypeName h
  | and h hs => exact ((opens_of_isTypeName h).append _).append _

theorem IsPart.opens {x : String} (h : IsPart x) : Opens x := by
  cases h with
  | name h => exact opens_of_isTypeName h
  | group h =>
    refine Opens.append (Opens.append ⟨'(', [], rfl, by decide⟩ _) _

theorem IsParts.opens {x : String} (h : IsParts x) : Opens x := by
  cases h with
  | part h => exact h.opens
  | or h hs => exact (h.opens.append _).append _
  | and h hs => exact (h.opens.append _).append _

theorem Opens.head_ne {x : String} (h : Opens x) (follow : List Char) {c : Char}
    (hc : (x.toList ++ follow).head? = some c) : c ∉ ['&', '|', '=', '?', '>', '-'] := by
  obtain ⟨d, r, hx, hd⟩ := h
  simp only [hx, List.cons_append, List.head?_cons, Option.some.injEq] at hc
  rwa [← hc]

section Signs

variable {x : String} (h : Opens x) (follow : List Char)
include h

theorem isToken_ampersand : IsToken .ampersand ['&'] (x.toList ++ follow) := by
  refine Scan.isToken_ampersand fun c hc => ?_
  have hne := h.head_ne follow hc
  simp only [List.mem_cons, not_or] at hne
  exact ⟨hne.1, hne.2.2.1⟩

theorem isToken_pipe : IsToken .pipe ['|'] (x.toList ++ follow) := by
  refine Scan.isToken_pipe fun c hc => ?_
  have hne := h.head_ne follow hc
  simp only [List.mem_cons, not_or] at hne
  exact ⟨hne.2.1, hne.2.2.1⟩

theorem isToken_question : IsToken .question ['?'] (x.toList ++ follow) := by
  refine Scan.isToken_question fun c hc => ?_
  have hne := h.head_ne follow hc
  simp only [List.mem_cons, not_or] at hne
  exact ⟨hne.2.2.2.1, hne.2.2.2.2.1, hne.2.2.2.2.2.1⟩

end Signs

theorem isToken_name {n : String} (h : isTypeName n = true) {follow : List Char}
    (hf : Stops follow) :
    IsToken .word n.toList follow := by
  simp only [isTypeName, Bool.and_eq_true] at h
  exact Scan.isToken_word h.1 hf

/-- An intersection of names is read back, if no further name is joined to it. -/
theorem written_intersection {x : String} (h : IsIntersection x) :
    Written (Reads readIntersection) x x (fun _ => True) fun c => c.head.kind ≠ .ampersand := by
  induction h with
  | name h =>
    intro follow P hf hlast hA gap hgap
    refine (hA.token hgap (isToken_name h hf) rfl (by decide)).mono ?_
    rintro _ ⟨p, c, rfl, hP⟩
    refine ⟨rfl, rfl, trivial, c, ?_, hP⟩
    rw [Reads, readIntersection]
    simp [Cursor.take?_eq_none (hlast c hP)]
  | and h hs ih =>
    rename_i n ns
    intro follow P hf hlast hA gap hgap
    have hrest := ih follow P hf hlast hA [] (by simp)
    have hamp := hrest.mark (isToken_ampersand hs.opens follow) rfl (by decide)
    have hname := hamp.token hgap (isToken_name h (by simp [Scan.stops_cons]; decide)) rfl
      (by decide)
    simp only [String.toList_append, List.append_assoc]
    refine hname.mono ?_
    rintro _ ⟨p, _, rfl, p', c, rfl, -, -, -, c', hread, hP⟩
    obtain ⟨hc, hread⟩ := hread.eq_ok
    refine ⟨rfl, rfl, trivial, c', ?_, hP⟩
    rw [Reads, readIntersection]
    simp [hread]

/-- A part of a type is read back, whether it stands in parentheses or not. -/
theorem written_part {x : String} (h : IsPart x) :
    Written (Reads readPart) x x (fun t => t.kind = .leftParen ∨
      (t.kind = .word ∧ isMemberWord t.text = false))
      fun _ => True := by
  cases h with
  | name h =>
    intro follow P hf hlast hA gap hgap
    refine (hA.token hgap (isToken_name h hf) rfl (by decide)).mono ?_
    rintro _ ⟨p, c, rfl, hP⟩
    simp only [isTypeName, Bool.and_eq_true, Bool.not_eq_true'] at h
    refine ⟨rfl, rfl, .inr ⟨rfl, h.2⟩, c, ?_, hP⟩
    rw [Reads, readPart]
    simp
  | group h =>
    rename_i ns
    intro follow P hf hlast hA gap hgap
    have hclose := hA.mark (Scan.isToken_rightParen follow) rfl (by decide)
    have hnames := written_intersection h _ _ (by simp [Scan.stops_cons]; decide)
      (by rintro _ ⟨p, c, rfl, -⟩; simp) hclose [] (by simp)
    have hopen := hnames.token hgap (Scan.isToken_leftParen _) rfl (by decide)
    simp only [String.toList_append, List.append_assoc]
    refine hopen.mono ?_
    rintro _ ⟨p, c, rfl, -, -, -, _, hread, p', c', rfl, hP⟩
    obtain ⟨hc, hread⟩ := hread.eq_ok
    refine ⟨rfl, rfl, .inl rfl, c', ?_, hP⟩
    rw [Reads, readPart]
    simp [hread]

/-- What cannot follow a type, since it would be read as part of it. -/
theorem joint?_eq_none {c : Cursor} (hpipe : c.head.kind ≠ .pipe) (hamp : c.head.kind = .ampersand →
    c.second.kind = .var ∨ c.second.kind = .ellipsis) : joint? c = none := by
  rw [joint?, Cursor.take?_eq_none hpipe]
  by_cases h : c.head.kind = .ampersand
  · rcases c.eq_push with hc | ⟨c, t, rfl⟩
    · simp [Cursor.take?, Cursor.next?_eq_none hc]
    · have hnext := hamp h
      rw [Cursor.head_push] at h
      rw [Cursor.second_push] at hnext
      simp [h, Cursor.isAt, hnext]
  · rw [Cursor.take?_eq_none h]

/-- A type is read back, if nothing behind it joins another part to it. -/
theorem written_parts {x : String} (h : IsParts x) :
    Written (Reads readParts) x x (fun t => t.kind = .leftParen ∨
      (t.kind = .word ∧ isMemberWord t.text = false))
      fun c => joint? c = none := by
  induction h with
  | part h =>
    intro follow P hf hlast hA gap hgap
    refine (written_part h follow P hf (fun _ _ => trivial) hA gap hgap).mono ?_
    rintro c ⟨hg, hco, hfirst, c', hread, hP⟩
    obtain ⟨hc, hread⟩ := hread.eq_ok
    refine ⟨hg, hco, hfirst, c', ?_, hP⟩
    rw [Reads, readParts]
    simp [hread, hlast c' hP]
  | or h hs ih =>
    rename_i p ps
    intro follow P hf hlast hA gap hgap
    have hrest := ih follow P hf hlast hA [] (by simp)
    have hpipe := hrest.mark (isToken_pipe hs.opens follow) rfl (by decide)
    have hpart := written_part h _ _ (by simp [Scan.stops_cons]; decide)
      (fun _ _ => trivial) hpipe gap hgap
    simp only [String.toList_append, List.append_assoc]
    refine hpart.mono ?_
    rintro c ⟨hg, hco, hfirst, _, hread, p', c', rfl, -, -, -, c'', hrest, hP⟩
    obtain ⟨hc, hread⟩ := hread.eq_ok
    obtain ⟨hc', hrest⟩ := hrest.eq_ok
    refine ⟨hg, hco, hfirst, c'', ?_, hP⟩
    rw [Reads, readParts]
    simp [hread, joint?, hrest]
  | and h hs ih =>
    rename_i p ps
    intro follow P hf hlast hA gap hgap
    have hrest := ih follow P hf hlast hA [] (by simp)
    have hamp := hrest.mark (isToken_ampersand hs.opens follow) rfl (by decide)
    have hpart := written_part h _ _ (by simp [Scan.stops_cons]; decide)
      (fun _ _ => trivial) hamp gap hgap
    simp only [String.toList_append, List.append_assoc]
    refine hpart.mono ?_
    rintro c ⟨hg, hco, hfirst, _, hread, p', c', rfl, -, -, hfirst', c'', hrest, hP⟩
    obtain ⟨hc, hread⟩ := hread.eq_ok
    obtain ⟨hc', hrest⟩ := hrest.eq_ok
    refine ⟨hg, hco, hfirst, c'', ?_, hP⟩
    have hnext : c'.isAt .var = false ∧ c'.isAt .ellipsis = false := by
      rcases hfirst' with h | ⟨h, -⟩ <;> simp [Cursor.isAt, h]
    rw [Reads, readParts]
    simp [hread, joint?, hrest, hnext]

/-- A type is read as it is written. -/
theorem written_type {x : String} (h : IsType x) :
    Written (Reads read) x x IsFirst fun c => joint? c = none := by
  cases h with
  | parts h =>
    intro follow P hf hlast hA gap hgap
    refine (written_parts h follow P hf hlast hA gap hgap).mono ?_
    rintro c ⟨hg, hco, hfirst, c', hread, hP⟩
    obtain ⟨hc, hread⟩ := hread.eq_ok
    have hkind : c.head.kind ≠ .question := by
      rcases hfirst with h | ⟨h, -⟩ <;> simp [h]
    refine ⟨hg, hco, .inr hfirst, c', ?_, hP⟩
    rw [Reads, read]
    simp [Cursor.take?_eq_none hkind, hread]
  | nullable h =>
    intro follow P hf hlast hA gap hgap
    have hparts := written_parts h follow P hf hlast hA [] (by simp)
    have hmark := hparts.token hgap (isToken_question h.opens follow) rfl (by decide)
    simp only [String.toList_append, List.append_assoc]
    refine hmark.mono ?_
    rintro _ ⟨p, c, rfl, -, -, -, c', hread, hP⟩
    obtain ⟨hc, hread⟩ := hread.eq_ok
    refine ⟨rfl, rfl, .inl rfl, c', ?_, hP⟩
    rw [Reads, read]
    simp [hread]

end TypeText

end ClassEdit
