import ClassEdit.Class.Parser
import ClassEdit.Proofs.Expr.Copying
import ClassEdit.Proofs.Fragment.Copying

/-!
Literals in attributes, and the parts of a member that have none. Names, types and modifiers tell
nothing; attributes are written as they stand in the source.
-/

namespace ClassEdit

open Scan (IsCalm)

namespace Extent

/-- A group ends with a closing bracket. -/
theorem groupRest_last {eof : Token} {closer : TokenKind} {outer : List TokenKind}
    {ts : List Token} {n : Nat} (h : groupRest eof closer outer ts = .ok n) :
    ∃ u ∈ (ts.take n).getLast?, u.kind.isCloser = true := by
  induction ts generalizing closer outer n with
  | nil => cases h
  | cons t ts ih =>
    have hnext {closer : TokenKind} {outer : List TokenKind}
        (h : (· + 1) <$> groupRest eof closer outer ts = .ok n) :
        ∃ u ∈ ((t :: ts).take n).getLast?, u.kind.isCloser = true := by
      obtain ⟨m, hm, rfl⟩ := Scan.map_eq_ok h
      obtain ⟨u, hu, hkind⟩ := ih hm
      refine ⟨u, ?_, hkind⟩
      rw [List.take_succ_cons, List.getLast?_cons, Option.mem_def.1 hu]
      rfl
    unfold groupRest at h
    split at h
    next => exact hnext h
    next =>
      split at h
      next => exact hnext h
      next hcloser =>
        split at h
        next => cases h
        next =>
          split at h
          next =>
            cases h
            exact ⟨t, rfl, by simpa using hcloser⟩
          next => exact hnext h

end Extent

namespace Cursor

variable {mode : Mode} {c : Cursor}

/-- An attribute group is written with the literals in it, whatever stands around it. -/
theorem IsIn.takeGroup (hc : c.IsIn .code) {s : Step 1 (List Token) c}
    (hs : c.takeGroup .attributeOpen = .ok s) :
    ∃ xs, c.Reaches xs .code s.rest ∧ TokensTell (excerptOf s.value) xs := by
  unfold Cursor.takeGroup at hs
  obtain ⟨⟨t, c₁, h₁⟩, htake, hs⟩ := bind_eq_ok.1 hs
  dsimp only [TokenKind.closer?] at hs
  obtain ⟨n, hn, hs⟩ := bind_eq_ok.1 hs
  cases hs
  obtain ⟨u, hu, hcloser⟩ := Extent.groupRest_last hn
  obtain ⟨hmode, hopen, -⟩ := Expr.inside_of_isCloser hcloser
  obtain ⟨hahead, hrest, -⟩ := take_eq_ok htake
  have hgroup : c.ahead.take (1 + n) = t :: c₁.ahead.take n := by
    rw [hahead, Nat.add_comm, List.take_succ_cons]
  have hlast : u ∈ (t :: c₁.ahead.take n).getLast? := by
    rw [List.getLast?_cons, Option.mem_def.1 hu]
    rfl
  have hsegment := hc.segment hgroup hlast
  rw [← c.skip_skip, ← hrest] at hsegment
  have hreaches := hsegment.reaches
  rw [hmode] at hreaches
  refine ⟨_, hreaches, hsegment.tells hmode hopen fun hword => ?_⟩
  rw [hword] at hcloser
  cases hcloser

/-- Attributes are written with their literals, each with its own. -/
theorem IsIn.takeAttributes {c : Cursor} (hc : c.IsIn .code) {s : Step 0 (List String) c}
    (hs : c.takeAttributes = .ok s) :
    ∃ xss, c.Reaches xss.flatten .code s.rest ∧ List.Forall₂ TokensTell s.value xss := by
  unfold Cursor.takeAttributes at hs
  split at hs
  next =>
    obtain ⟨⟨ts, c₁, h₁⟩, hgroup, hs⟩ := bind_eq_ok.1 hs
    obtain ⟨⟨more, c₂, h₂⟩, hmore, hs⟩ := bind_eq_ok.1 hs
    cases hs
    obtain ⟨xs, hreaches, htell⟩ := hc.takeGroup hgroup
    obtain ⟨xss, hrest, htells⟩ := takeAttributes hreaches.isIn hmore
    exact ⟨xs :: xss, hreaches.trans hrest, .cons htell htells⟩
  next =>
    cases hs
    exact ⟨[], hc.refl, .nil⟩
termination_by c.size

end Cursor

namespace TypeText

/-- Types are read from code, and nothing in them is a literal. -/
theorem readIntersection_copied {mode : Mode} {c : Cursor} (hc : c.IsIn mode) {s : Step 1 String c}
    (hs : readIntersection c = .ok s) : c.Reaches [] .code s.rest ∧ IsCalm s.value := by
  unfold readIntersection at hs
  obtain ⟨⟨name, c₁, h₁⟩, hname, hs⟩ := bind_eq_ok.1 hs
  obtain ⟨hreaches, hcalm⟩ := hc.takeName hname
  dsimp only at hs
  split at hs
  next _ c₂ h₂ hmark =>
    obtain ⟨⟨names, c₃, h₃⟩, hnames, hs⟩ := bind_eq_ok.1 hs
    cases hs
    have hreaches₂ := hreaches.trans (hreaches.isIn.take? hmark rfl).1
    obtain ⟨hrest, hcalms⟩ := readIntersection_copied hreaches₂.isIn hnames
    have hsign : IsCalm "&" := by decide
    exact ⟨hreaches₂.trans hrest, Scan.isCalm_append.2
      ⟨Scan.isCalm_append.2 ⟨hcalm, hsign⟩, hcalms⟩⟩
  next =>
    cases hs
    exact ⟨hreaches, hcalm⟩
termination_by c.size

/-- A part of a type has no literal, and its text is calm. -/
theorem readPart_copied {mode : Mode} {c : Cursor} (hc : c.IsIn mode) {s : Step 1 String c}
    (hs : readPart c = .ok s) :
    c.Reaches [] .code s.rest ∧ IsCalm s.value := by
  unfold readPart at hs
  split at hs
  next hopen =>
    obtain ⟨⟨names, c₂, h₂⟩, hnames, hs⟩ := bind_eq_ok.1 hs
    obtain ⟨⟨_, c₃, h₃⟩, hclose, hs⟩ := bind_eq_ok.1 hs
    cases hs
    have hreaches := (hc.take? hopen rfl).1
    obtain ⟨hrest, hcalm⟩ := readIntersection_copied hreaches.isIn hnames
    have hsigns : IsCalm "(" ∧ IsCalm ")" := by decide
    exact ⟨(hreaches.trans hrest).trans (hrest.isIn.take hclose rfl),
      Scan.isCalm_append.2 ⟨Scan.isCalm_append.2 ⟨hsigns.1, hcalm⟩, hsigns.2⟩⟩
  next =>
    split at hs
    next hword =>
      cases hs
      obtain ⟨hreaches, -, _, d, hbegins⟩ := hc.take? hword rfl
      exact ⟨hreaches, Cursor.IsIn.isCalm_of_begins hbegins (.inl rfl)⟩
    next => cases hs

/-- The sign between two parts of a type is no literal. -/
theorem joint?_copied {c : Cursor} (hc : c.IsIn .code) {s : Step 1 String c}
    (hs : joint? c = some s) :
    c.Reaches [] .code s.rest ∧ IsCalm s.value := by
  unfold joint? at hs
  split at hs
  next hpipe =>
    cases hs
    have hsign : IsCalm "|" := by decide
    exact ⟨(hc.take? hpipe rfl).1, hsign⟩
  next =>
    split at hs
    next hmark =>
      split at hs
      next => cases hs
      next =>
        cases hs
        have hsign : IsCalm "&" := by decide
        exact ⟨(hc.take? hmark rfl).1, hsign⟩
    next => cases hs

/-- The parts of a type have no literal, and their text is calm. -/
theorem readParts_copied {mode : Mode} {c : Cursor} (hc : c.IsIn mode) {s : Step 1 String c}
    (hs : readParts c = .ok s) :
    c.Reaches [] .code s.rest ∧ IsCalm s.value := by
  unfold readParts at hs
  obtain ⟨⟨part, c₁, h₁⟩, hpart, hs⟩ := bind_eq_ok.1 hs
  obtain ⟨hreaches, hcalm⟩ := readPart_copied hc hpart
  dsimp only at hs
  split at hs
  next sign c₂ h₂ hjoint =>
    obtain ⟨⟨parts, c₃, h₃⟩, hparts, hs⟩ := bind_eq_ok.1 hs
    cases hs
    obtain ⟨hbetween, hsign⟩ := joint?_copied hreaches.isIn hjoint
    obtain ⟨hrest, hcalms⟩ := readParts_copied hbetween.isIn hparts
    exact ⟨(hreaches.trans hbetween).trans hrest, Scan.isCalm_append.2
      ⟨Scan.isCalm_append.2 ⟨hcalm, hsign⟩, hcalms⟩⟩
  next =>
    cases hs
    exact ⟨hreaches, hcalm⟩
termination_by c.size

/-- A type is passed over without a literal, and its text has none. -/
theorem read_copied {mode : Mode} {c : Cursor} (hc : c.IsIn mode) {s : Step 1 String c}
    (hs : read c = .ok s) :
    c.Reaches [] .code s.rest ∧ IsCalm s.value := by
  unfold read at hs
  split at hs
  next hmark =>
    obtain ⟨⟨parts, c₂, h₂⟩, hparts, hs⟩ := bind_eq_ok.1 hs
    cases hs
    have hreaches := (hc.take? hmark rfl).1
    obtain ⟨hrest, hcalm⟩ := readParts_copied hreaches.isIn hparts
    have hsign : IsCalm "?" := by decide
    exact ⟨hreaches.trans hrest, Scan.isCalm_append.2 ⟨hsign, hcalm⟩⟩
  next => exact readParts_copied hc hs

end TypeText

section Words

variable {x : String} {xs : List String}

/-- A text that tells nothing, with a space behind it. -/
theorem tells_spaced {text : Option String} (h : ∀ x ∈ text, IsCalm x) :
    Tells .code .code Anything (spaced text) [] := by
  cases text with
  | none => exact .nil .code _
  | some x => exact .calm_separator (c := ' ') (h x rfl) (by decide)

theorem tells_words (h : ∀ x ∈ xs, IsCalm x) :
    Tells .code .code Anything (String.join (xs.map (· ++ " "))) [] := by
  induction xs with
  | nil => exact .nil .code _
  | cons x xs ih =>
    obtain ⟨hx, hrest⟩ := List.forall_mem_cons.1 h
    rw [List.map_cons, String.join_cons]
    have hword : Tells .code .code Anything (x ++ " ") [] :=
      .calm_separator (c := ' ') hx (by decide)
    exact hword.before (ih hrest)

end Words

namespace Modifiers

theorem isWord_of_add? {m m' : Modifiers} {t : Token} (h : m.add? t = some m') :
    t.kind = .word := by
  by_contra hkind
  have hnone : m.add? t = none := by
    simp only [add?, Lexeme.isWord_of_kind hkind, Bool.false_eq_true, if_false]
  rw [hnone] at h
  cases h

/-- The words of modifiers are no literals. -/
theorem readFrom_copied {m : Modifiers} {c : Cursor} (hc : c.IsIn .code) :
    c.Reaches [] .code { c with ahead := (readFrom m c.ahead).2 } := by
  obtain ⟨ahead, eof⟩ := c
  induction ahead generalizing m with
  | nil => exact hc.refl
  | cons t ts ih =>
    unfold readFrom
    split
    next m' hadd =>
      have hkind := isWord_of_add? hadd
      have hreaches :=
        hc.skip_one (List.cons_ne_nil t ts) (by rw [Cursor.head, List.headD_cons, hkind]; rfl)
      rw [Cursor.head, List.headD_cons, hkind] at hreaches
      exact hreaches.trans (ih hreaches.isIn)
    next => exact hc.refl

theorem read_copied {c : Cursor} (hc : c.IsIn .code) : c.Reaches [] .code (read c).rest :=
  readFrom_copied hc

theorem isCalm_keyword (v : Visibility) : IsCalm v.keyword := by
  cases v <;> decide

/-- The text of modifiers has no literal, and any text may stand behind it. -/
theorem tells_text (m : Modifiers) : Tells .code .code Anything m.text [] := by
  have hone {b : Bool} {w x : String} (hx : x ∈ if b then [w] else []) (hw : IsCalm w) :
      IsCalm x := by
    cases b with
    | false => cases hx
    | true => exact List.mem_singleton.1 hx ▸ hw
  refine tells_words fun x hx => ?_
  simp only [List.mem_append] at hx
  rcases hx with (((hx | hx) | hx) | hx) | hx
  · exact hone hx (by decide)
  · exact hone hx (by decide)
  · split at hx
    next v _ => exact List.mem_singleton.1 hx ▸ isCalm_keyword v
    next => exact hone hx (by decide)
  · exact hone hx (by decide)
  · exact hone hx (by decide)

end Modifiers

end ClassEdit
