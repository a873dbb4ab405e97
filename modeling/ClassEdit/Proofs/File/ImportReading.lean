import ClassEdit.Proofs.Class.Reading
import ClassEdit.Proofs.File.Plain

/-!
Imports are read as they are written, of each kind and with other names.
-/

namespace ClassEdit.Import

open Scan (isName Stops IsToken)

def ReadsItem (c : Cursor) (v : ImportItem) (c' : Cursor) : Prop :=
  ∃ t c₁, c = Cursor.push c₁ t ∧ t.kind = .word ∧ t.string = v.name ∧ v.kind = none ∧
    c₁.head.kind ≠ .leftBrace ∧ Reads readLocalName c₁ v.localName c'

def EndsItem (c : Cursor) : Prop :=
  c.head.kind = .comma ∨ c.head.kind = .semicolon

theorem reads_localName {c c' : Cursor} {t u : Token} (ht : t.isWord "as" = true)
    (hc : c = c'.push u) (hu : u.kind = .word) :
    Reads readLocalName (c.push t) (some u.string) c' := by
  subst hc
  rw [Reads, readLocalName, Cursor.takeWord?_push, if_pos ht]
  simp [hu]

/-- A symbol is read back with its local name. -/
theorem written_item {i : ImportItem} (hi : IsPlainItem i) :
    Written ReadsItem i.text i (fun t => t.kind = .word ∧ isPath t.string = true) EndsItem := by
  intro follow P hf hlast hA gap hgap
  have hname : isName i.name.toList = true := by
    have h := hi.name
    rw [isPath, Bool.and_eq_true] at h
    exact h.1
  have htext : i.text = i.name ++ i.localName.elim "" (" as " ++ ·) := by
    rw [ImportItem.text, hi.kind]
    simp [spaced]
  have hlocal : Stops ((i.localName.elim "" (" as " ++ ·)).toList ++ follow) ∧
      Ahead ((i.localName.elim "" (" as " ++ ·)).toList ++ follow) fun c =>
        c.head.kind ≠ .leftBrace ∧ ∃ c', Reads readLocalName c i.localName c' ∧ P c' := by
    cases hl : i.localName with
    | none =>
      refine ⟨hf, hA.mono fun c hc => ⟨?_, c, ?_, hc⟩⟩
      · rcases hlast c hc with h | h <;> simp [h]
      · have hword : c.head.isWord "as" = false := by
          rcases hlast c hc with h | h <;> simp [Lexeme.isWord, h]
        rw [Reads, readLocalName, Cursor.takeWord?_eq_none hword]
        rfl
    | some name =>
      have hword := (shows_name (hi.localName name hl) hf hA).word (w := "as") rfl
      have htext : ((some name).elim "" (" as " ++ ·)).toList ++ follow =
          [' '] ++ (("as" ++ " ").toList ++ (name.toList ++ follow)) := by simp
      rw [htext]
      refine ⟨Scan.stops_cons.2 (by decide), (hword [' '] isBlank_space).mono ?_⟩
      rintro _ ⟨-, -, gap, p, _, rfl, -, -, u, c, rfl, hu, rfl, hc⟩
      exact ⟨by simp, c, reads_localName rfl rfl hu, hc⟩
  rw [htext, String.toList_append, List.append_assoc]
  refine (hlocal.2.token hgap (Scan.isToken_word hname hlocal.1) rfl (by decide)).mono ?_
  rintro _ ⟨p, c, rfl, hbrace, c', hread, hc⟩
  exact ⟨rfl, rfl, ⟨rfl, by simpa using hi.name⟩, c',
    ⟨_, c, rfl, rfl, by simp, hi.kind, hbrace, hread⟩, hc⟩

theorem reads_item {c c' : Cursor} {v : ImportItem} (h : ReadsItem c v c') :
    Reads (readItem none) c v c' := by
  obtain ⟨t, c, rfl, ht, hname, hkind, -, hread⟩ := h
  obtain ⟨hsize, hread⟩ := hread.eq_ok
  obtain ⟨kind, name, localName⟩ := v
  rw [Reads, readItem]
  simp_all

theorem reads_further_nil {c : Cursor} (hc : c.head.kind ≠ .comma) : Reads readFurther c [] c := by
  rw [Reads, readFurther, Cursor.take?_eq_none hc]
  rfl

theorem reads_further_cons {c c' c'' : Cursor} {t : Token} {v : ImportItem} {vs : List ImportItem}
    (ht : t.kind = .comma) (hread : Reads (readItem none) c v c')
    (hrest : Reads readFurther c' vs c'') :
    Reads readFurther (c.push t) (v :: vs) c'' := by
  obtain ⟨hsize, hread⟩ := hread.eq_ok
  obtain ⟨hsize', hrest⟩ := hrest.eq_ok
  rw [Reads, readFurther, Cursor.take?_push, if_pos ht]
  simp [hread, hrest]

def ReadsItems (c : Cursor) (vs : List ImportItem) (c' : Cursor) : Prop :=
  ∃ v ws c₁, vs = v :: ws ∧ ReadsItem c v c₁ ∧ Reads readFurther c₁ ws c'

/-- Symbols with commas between them are read back, if no comma follows. -/
theorem written_items {items : List ImportItem} (hne : items ≠ [])
    (hitems : ∀ i ∈ items, IsPlainItem i) :
    Written ReadsItems (commaList (items.map ImportItem.text)) items
      (fun t => t.kind = .word ∧ isPath t.string = true) fun c => EndsItem c ∧
        c.head.kind ≠ .comma := by
  have hlist : Written ReadsItems (commaList (items.map ImportItem.text)) (items.map id)
      (fun t => t.kind = .word ∧ isPath t.string = true) fun c => EndsItem c ∧
        c.head.kind ≠ .comma := by
    refine written_commaList ReadsItem ?_ ?_ ?_ hne fun i hi => written_item (hitems i hi)
    · exact fun hread hc' => ⟨_, [], _, rfl, hread, reads_further_nil hc'⟩
    · rintro c c' c'' t v vs hread ht ⟨w, ws, c₁, rfl, hitem, hfurther⟩
      exact ⟨v, w :: ws, _, rfl, hread, reads_further_cons ht (reads_item hitem) hfurther⟩
    · exact fun c t ht => .inl ht
  rwa [List.map_id] at hlist

theorem reads_items {c c' : Cursor} {items : List ImportItem} (h : ReadsItems c items c') :
    Reads readItems c (none, items) c' := by
  obtain ⟨⟨kind, name, localName⟩, ws, c₁, rfl, ⟨t, c, rfl, ht, rfl, rfl, hbrace, hlocal⟩,
    hfurther⟩ := h
  obtain ⟨hsize, hread⟩ := hlocal.eq_ok
  obtain ⟨hsize', hread'⟩ := hfurther.eq_ok
  rw [Reads, readItems, Cursor.takeName_push, if_pos ht]
  simp only [ok_bind, Cursor.take?_eq_none hbrace, ite_self, hread, hread']
  simp

theorem readKind_none {c : Cursor} (hc : isPath c.head.string = true) :
    readKind c = .here none := by
  rw [isPath, Bool.and_eq_true] at hc
  have hne : ∀ w ∈ ["function", "const"], c.isAtWord w = false := by
    intro w hw
    have h := List.all_eq_true.1 hc.2 w hw
    rw [Cursor.isAtWord, Lexeme.isWord, Bool.and_eq_false_iff]
    refine .inr ?_
    simpa [Lexeme.string] using h
  simp [readKind, hne]

/-- The word for a kind is read as one before a name. -/
theorem readKind_push {c : Cursor} {t : Token} {k : ImportKind} {w : String}
    (hw : k.keyword? = some w) (hkind : t.kind = .word) (htext : t.text = w.toList)
    (hc : c.head.kind = .word) :
    ∃ h, readKind (c.push t) = ⟨some k, c, h⟩ := by
  have hfunction : t.isWord "function" = (k == .function) := by
    cases k <;> cases hw <;> rw [Lexeme.isWord, hkind, htext] <;> rfl
  have hconst : t.isWord "const" = (k == .const) := by
    cases k <;> cases hw <;> rw [Lexeme.isWord, hkind, htext] <;> rfl
  have hsecond : ((c.push t).second.kind == .word) = true := by
    rw [Cursor.second_push, hc]
    rfl
  refine ⟨Nat.le_of_succ_le (c.size_push t), ?_⟩
  rw [readKind]
  simp only [Cursor.isAtWord_push, hfunction, hconst, hsecond, if_true]
  cases k
  · cases hw
  · rfl
  · rfl

theorem toList_text {i : Import} (hi : i.IsPlain) (follow : List Char) :
    i.text.toList ++ follow = ("use" ++ " ").toList ++ ((spaced i.kind.keyword?).toList ++
      ((commaList (i.items.map ImportItem.text)).toList ++ ([';'] ++ follow))) := by
  simp [text, hi.base]

/-- An import is read if its parts are: the kind, the symbols and the semicolon. -/
theorem reads_import {c c₁ c' : Cursor} {t u : Token} {i : Import} (ht : t.isWord "use" = true)
    (hkind : ∃ k h, readKind c = ⟨k, c₁, h⟩ ∧ k.getD .class_ = i.kind) (hbase : i.base = none)
    (hitems : ReadsItems c₁ i.items (c'.push u)) (hu : u.kind = .semicolon)
    (hc' : c'.head.comments = []) (htrailing : i.trivia.trailing = none) :
    Reads (read i.trivia) (c.push t) i c' := by
  obtain ⟨k, hk, hkind, hkindOf⟩ := hkind
  obtain ⟨hsize, hitems⟩ := (reads_items hitems).eq_ok
  rw [Reads, read, Cursor.takeWord_push, if_pos ht]
  simp only [ok_bind]
  generalize hs : readKind c = s
  rw [hkind] at hs
  subst hs
  simp only [hitems, ok_bind, Cursor.take_push, hu, if_true]
  generalize hs : c'.finish _ = s
  rw [Member.finish_eq hc'] at hs
  subst hs
  obtain ⟨⟨comments, attributes, blankBefore, trailing⟩, kind, base, items⟩ := i
  simp_all

/-- A plain import is read as it is written. -/
theorem shows_text {i : Import} (hi : i.IsPlain) {follow : List Char} {P : Cursor → Prop}
    (hP : ∀ c, P c → c.head.comments = []) (hA : Ahead follow P) :
    Shows (i.text.toList ++ follow) fun c => (c.head.kind = .word ∧ c.head.text = "use".toList) ∧
      ∀ trivia : Trivia, trivia.trailing = none → ∃ c', Reads (read trivia) c { i with trivia } c' ∧
        P c' := by
  have hend := hA.mark (Scan.isToken_semicolon follow) rfl (by decide)
  have hitems := written_items hi.nonempty hi.items _ _ (Scan.stops_cons.2 (by decide))
    (by rintro _ ⟨p, c, rfl, -⟩; exact ⟨.inr rfl, by simp⟩) hend
  have hkind :
      Shows ((spaced i.kind.keyword?).toList ++ ((commaList (i.items.map ImportItem.text)).toList ++
      ([';'] ++ follow))) fun c => ∃ k c₁ h u c', readKind c = ⟨k, c₁, h⟩ ∧
        k.getD .class_ = i.kind ∧
        ReadsItems c₁ i.items (Cursor.push c' u) ∧ u.kind = .semicolon ∧ P c' := by
    cases hw : i.kind.keyword? with
    | none =>
      have hclass : i.kind = .class_ := by
        cases hk : i.kind <;> simp [hk, ImportKind.keyword?] at hw ⊢
      refine hitems.mono ?_
      rintro c ⟨⟨-, hpath⟩, _, hread, p, c', rfl, hc⟩
      refine ⟨none, c, Nat.le_refl _, .bare ⟨[], .semicolon, [';'], p⟩, c', readKind_none hpath, ?_,
        hread, rfl,
        hc⟩
      rw [hclass]
      rfl
    | some w =>
      have hname : isName w.toList = true := by
        cases hk : i.kind <;> rw [hk] at hw <;> cases hw <;> rfl
      refine (hitems.word hname).mono ?_
      rintro _ ⟨gap, p, c, rfl, -, -, ⟨hword, -⟩, _, hread, q, c', rfl, hc⟩
      obtain ⟨h, hkind⟩ := readKind_push (t := .bare ⟨gap, .word, w.toList, p⟩) hw rfl rfl hword
      exact ⟨some i.kind, c, h, .bare ⟨[], .semicolon, [';'], q⟩, c', hkind, rfl, hread, rfl, hc⟩
  rw [toList_text hi]
  refine (hkind.word (w := "use") rfl).mono ?_
  rintro _ ⟨gap, p, c, rfl, -, -, k, c₁, h, u, c', hkind, hkindOf, hitems, hu, hc⟩
  refine ⟨⟨rfl, rfl⟩, fun trivia htrivia => ⟨c', ?_, hc⟩⟩
  have huse : Lexeme.isWord ⟨gap, .word, "use".toList, p⟩ "use" = true := rfl
  exact reads_import (t := .bare ⟨gap, .word, "use".toList, p⟩) (i := { i with trivia }) huse
    ⟨k, h, hkind, hkindOf⟩ hi.base hitems hu (hP c' hc) htrivia

end ClassEdit.Import
