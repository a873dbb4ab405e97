import ClassEdit.Edit.Place
import ClassEdit.File.Printer
import ClassEdit.Proofs.Text.LineEnding

/-!
Written lists with one more element. Every element stands behind one or two newlines, and the
spacing of its neighbour may change with it. Since each gap begins and ends with a newline, what
comes in is still one text: a newline that the neighbour gains or loses is counted to the element.
-/

namespace ClassEdit

/-- The text begins with a newline, as everything that is written behind a member or a statement
does. -/
def StartsLine (t : String) : Prop :=
  ∃ r, t = "\n" ++ r

theorem lineBreak_eq (gap : Bool) : ∃ r, lineBreak gap = "\n" ++ r := by
  cases gap
  · exact ⟨"", rfl⟩
  · exact ⟨"\n", rfl⟩

theorem lineBreak_eq' (gap : Bool) : ∃ r, lineBreak gap = r ++ "\n" := by
  cases gap
  · exact ⟨"", rfl⟩
  · exact ⟨"\n", rfl⟩

theorem StartsLine.lineBreak (gap : Bool) (t : String) : StartsLine (lineBreak gap ++ t) := by
  obtain ⟨r, hr⟩ := lineBreak_eq gap
  exact ⟨r ++ t, by rw [hr, String.append_assoc]⟩

def SameBehindBreak (a b : String) : Prop :=
  ∃ g₁ g₂ x, a = lineBreak g₁ ++ x ∧ b = lineBreak g₂ ++ x

theorem SameBehindBreak.symm {a b : String} (h : SameBehindBreak a b) : SameBehindBreak b a := by
  obtain ⟨g₁, g₂, x, ha, hb⟩ := h
  exact ⟨g₂, g₁, x, hb, ha⟩

/-- A line put before another one is one text that comes in, whatever the gaps are. Of an empty line
that was there already, the first newline is kept before what comes in. -/
theorem SameBehindBreak.inserts {a b : String} (h : SameBehindBreak a b) (gap : Bool) (c : String) :
    Inserts a (lineBreak gap ++ c ++ b) := by
  obtain ⟨g₁, g₂, x, rfl, rfl⟩ := h
  obtain ⟨e, he⟩ := lineBreak_eq' g₂
  have hw : ("\n" ++ x).toList.head? = some '\n' := by simp [String.toList_append]
  cases g₁ with
  | false =>
      refine ⟨"", lineBreak gap ++ c ++ e, "\n" ++ x, by simp [lineBreak], ?_, fun _ => .inl hw⟩
      simp only [he, String.empty_append, String.append_assoc]
  | true =>
      obtain ⟨r, hr⟩ := lineBreak_eq gap
      refine ⟨"\n", r ++ c ++ e, "\n" ++ x, ?_, ?_, fun _ => .inl hw⟩
      · simp only [lineBreak, if_true, ← String.append_assoc]
        rfl
      · simp only [he, hr, String.append_assoc]

/-- The comments before an end are written from the beginning of a line on, as what follows them
is. -/
theorem closingText_append_startsLine (margin : String) (comments : List String) {tail : String}
    (h : StartsLine tail) : StartsLine (closingText margin comments ++ tail) := by
  cases comments with
  | nil => simpa [closingText, Expr.linesAt] using h
  | cons c cs =>
      simp only [closingText, Expr.linesAt, List.map_cons, String.join_cons, String.append_assoc]
      exact ⟨_, rfl⟩

section Respaced

variable {α : Type} [Spaced α]

/-- The second list is the first, with another gap before its first element. -/
def Respaced (xs ys : List α) : Prop :=
  ys = xs ∨ ∃ gap : Trivia → Option Bool,
    ys = xs.modifyHead (Spaced.mapTrivia fun t => { t with blankBefore := gap t })

theorem releaseTop_eq : Trivia.releaseTop = fun t =>
    { t with blankBefore := if t.blankBefore = some false then none else t.blankBefore } := by
  funext t
  simp only [Trivia.releaseTop]
  split <;> rfl

theorem inheritGap_eq (gap : Option Bool) (atTop : Bool) : Trivia.inheritGap gap atTop = fun t =>
    { t with blankBefore := if atTop || t.blankBefore == some false then gap
      else t.blankBefore } := by
  funext t
  simp only [Trivia.inheritGap]
  split <;> rfl

omit [Spaced α] in
theorem insertIdx_length_append (front back : List α) (x : α) :
    (front ++ back).insertIdx front.length x = front ++ x :: back := by
  induction front with
  | nil => simp
  | cons y front ih => simpa using ih

/-- An insertion keeps the elements before its place, and those behind it but for their spacing. -/
theorem insertSpaced_eq {xs : List α} {i : Nat} (h : i ≤ xs.length) (x : α) :
    ∃ front back back', xs = front ++ back ∧ insertSpaced xs i x = front ++ x :: back' ∧
      Respaced back back' := by
  cases i with
  | zero =>
      refine ⟨[], xs, xs.modifyHead (Spaced.mapTrivia Trivia.releaseTop),
        rfl, by simp [insertSpaced],
        .inr ⟨_, by rw [releaseTop_eq]⟩⟩
  | succ i =>
      refine ⟨xs.take (i + 1), xs.drop (i + 1), xs.drop (i + 1), by simp, ?_, .inl rfl⟩
      have hcut := insertIdx_length_append (xs.take (i + 1)) (xs.drop (i + 1)) x
      rw [List.take_append_drop, List.length_take_of_le h] at hcut
      rw [insertSpaced, if_neg (Nat.succ_ne_zero i), hcut]

theorem removeSpaced_eq {xs : List α} {i : Nat} (h : i < xs.length) :
    ∃ front back back', xs = front ++ xs[i] :: back ∧ removeSpaced xs i = front ++ back' ∧
      Respaced back back' := by
  have hlen : (xs.take i).length = i := List.length_take_of_le (Nat.le_of_lt h)
  have hxs : xs = xs.take i ++ xs[i] :: xs.drop (i + 1) := by simp
  refine ⟨xs.take i, xs.drop (i + 1), _, hxs, ?_, .inr ⟨fun t => if (i == 0) ||
    t.blankBefore == some false then (xs[i]?.bind Spaced.trivia?).bind (·.blankBefore)
    else t.blankBefore, rfl⟩⟩
  rw [removeSpaced, List.eraseIdx_eq_take_drop_succ, List.modify_eq_take_drop, inheritGap_eq,
    List.take_left' hlen, List.drop_left' hlen]

end Respaced

namespace MemberStmt

variable {layout : Layout} {margin : String} {prev : Option MemberStmt}

def bodyText (layout : Layout) (margin : String) (m : MemberStmt) : String :=
  m.trivia.leadingText margin ++ margin ++ m.member.text layout margin ++ m.trivia.trailingText

theorem textAfter_eq (m : MemberStmt) :
    m.textAfter layout margin prev =
      lineBreak (m.trivia.blankBefore.getD (usualGap prev m)) ++ m.bodyText layout margin := by
  simp only [textAfter, bodyText, String.append_assoc]

theorem listText_append (ms ms' : List MemberStmt) :
    listText layout margin prev (ms ++ ms') =
      listText layout margin prev ms ++ listText layout margin (ms.getLast?.or prev) ms' := by
  induction ms generalizing prev with
  | nil => simp [listText]
  | cons m ms ih =>
      simp only [List.cons_append, listText, ih, String.append_assoc]
      congr 2
      cases ms <;> simp [List.getLast?_cons]

/-- Members that follow are spaced by the kind of the one before them and by nothing else of it. -/
theorem listText_congr {m m' : MemberStmt} (h : m.category = m'.category) (ms : List MemberStmt) :
    listText layout margin (some m) ms = listText layout margin (some m') ms := by
  cases ms with
  | nil => rfl
  | cons n ms => simp only [listText, textAfter, usualGap, h]

/-- Whatever the gap before the first member is, the same is written behind it. -/
theorem listText_behindBreak (layout : Layout) (margin : String) (ms : List MemberStmt)
    {tail : String} (ht : StartsLine tail) :
    ∃ x, ∀ {ms' : List MemberStmt}, Respaced ms ms' → ∀ prev : Option MemberStmt,
      ∃ gap, listText layout margin prev ms' ++ tail = lineBreak gap ++ x := by
  cases ms with
  | nil =>
      obtain ⟨x, rfl⟩ := ht
      refine ⟨x, fun {ms'} h prev => ⟨false, ?_⟩⟩
      have hms : ms' = [] := by
        rcases h with h | ⟨gap, h⟩ <;> simpa using h
      simp [hms, listText, lineBreak]
  | cons m ms =>
      refine ⟨m.bodyText layout margin ++ listText layout margin (some m) ms ++ tail,
        fun {ms'} h prev => ?_⟩
      obtain ⟨m', rfl, hbody, hcat⟩ : ∃ m', ms' = m' :: ms ∧
          m'.bodyText layout margin = m.bodyText layout margin ∧ m'.category = m.category := by
        rcases h with rfl | ⟨gap, rfl⟩
        · exact ⟨m, rfl, rfl, rfl⟩
        · exact ⟨_, rfl, rfl, rfl⟩
      refine ⟨m'.trivia.blankBefore.getD (usualGap prev m'), ?_⟩
      simp only [listText, textAfter_eq, hbody, listText_congr hcat, String.append_assoc]

theorem listText_respaced {ms ms' : List MemberStmt} (h : Respaced ms ms')
    (prev' : Option MemberStmt) {tail : String} (ht : StartsLine tail) :
    SameBehindBreak (listText layout margin prev ms ++ tail)
      (listText layout margin prev' ms' ++ tail) := by
  obtain ⟨x, hx⟩ := listText_behindBreak layout margin ms ht
  obtain ⟨gap, hgap⟩ := hx (.inl rfl) prev
  obtain ⟨gap', hgap'⟩ := hx h prev'
  exact ⟨gap, gap', x, hgap, hgap'⟩

/-- A member that comes in among others, with the gap behind it changed, is one text that comes
in. -/
theorem listText_insert (front : List MemberStmt) (m : MemberStmt) {back back' : List MemberStmt}
    {tail : String}
    (h : SameBehindBreak (listText layout margin (front.getLast?.or prev) back ++ tail)
      (listText layout margin (some m) back' ++ tail)) :
    Inserts (listText layout margin prev (front ++ back) ++ tail)
      (listText layout margin prev (front ++ m :: back') ++ tail) := by
  rw [listText_append, listText_append, listText, textAfter_eq]
  simp only [String.append_assoc] at h ⊢
  refine Inserts.append_left _ ?_
  simpa only [String.append_assoc] using h.inserts _ (m.bodyText layout margin)

/-- One member in which a text comes in. -/
theorem listText_grow (front back : List MemberStmt) {m m' : MemberStmt}
    (hcat : m.category = m'.category) (htrivia : m.trivia = m'.trivia)
    (h : Inserts (m.member.text layout margin) (m'.member.text layout margin)) :
    Inserts (listText layout margin prev (front ++ m :: back))
      (listText layout margin prev (front ++ m' :: back)) := by
  rw [listText_append, listText_append, listText, listText, ← listText_congr hcat]
  refine Inserts.append_left _ (Inserts.append_right _ ?_)
  simp only [textAfter, usualGap, ← htrivia, ← hcat]
  exact ((h.append_left _).append_right _)

end MemberStmt

namespace Stmt

variable {layout : Layout} {margin : String} {top : Bool} {prev : Option Stmt}

def IsSpaced (s : Stmt) : Prop :=
  s.trivia?.isSome

theorem isSpaced_or_html (s : Stmt) : s.IsSpaced ∨ ∃ t, s = .html t := by
  cases s with
  | html t => exact .inr ⟨t, rfl⟩
  | _ => exact .inl rfl

theorem listText_cons {s : Stmt} (h : s.IsSpaced) (ss : List Stmt) :
    listText layout margin top prev (s :: ss) =
      leadingText margin top prev s ++ text layout margin s ++
        listText layout margin top (some s) ss := by
  cases s with
  | html t => cases h
  | _ => rfl

theorem leadingText_eq (s : Stmt) :
    leadingText margin top prev s =
      lineBreak ((s.trivia?.getD .empty).blankBefore.getD (usualGap top prev s)) ++
        ((s.trivia?.getD .empty).leadingText margin ++ margin) := by
  simp only [leadingText, String.append_assoc]

theorem listText_append (ss ss' : List Stmt) :
    listText layout margin top prev (ss ++ ss') =
      listText layout margin top prev ss ++ listText layout margin top
        (ss.getLast?.or prev) ss' := by
  induction ss generalizing prev with
  | nil => simp [listText]
  | cons s ss ih =>
      have hlast : (s :: ss).getLast?.or prev = ss.getLast?.or (some s) := by
        cases ss <;> simp [List.getLast?_cons]
      rcases s.isSpaced_or_html with hs | ⟨t, rfl⟩
      · rw [List.cons_append, listText_cons hs, listText_cons hs, ih, hlast]
        simp only [String.append_assoc]
      · simp only [List.cons_append, listText, ih, hlast, String.append_assoc]

theorem listText_startsLine (ss : List Stmt) {tail : String} (h : StartsLine tail) :
    StartsLine (listText layout margin top prev ss ++ tail) := by
  cases ss with
  | nil => simpa [listText] using h
  | cons s ss =>
      rcases s.isSpaced_or_html with hs | ⟨t, rfl⟩
      · rw [listText_cons hs, leadingText_eq]
        simp only [String.append_assoc]
        exact .lineBreak _ _
      · refine ⟨"?>" ++ t ++ "<?php" ++ listText layout margin top (some (.html t)) ss ++ tail, ?_⟩
        simp only [listText, text, ← String.append_assoc]
        rfl

/-- Statements that follow ask of the one before them only whether it is an import. -/
theorem listText_congr {s s' : Stmt} (h : s.import?.isSome = s'.import?.isSome) (ss : List Stmt) :
    listText layout margin top (some s) ss = listText layout margin top (some s') ss := by
  cases ss with
  | nil => rfl
  | cons r ss =>
      rcases r.isSpaced_or_html with hr | ⟨t, rfl⟩
      · rw [listText_cons hr, listText_cons hr]
        simp only [leadingText, usualGap, h]
      · rfl

theorem trivia?_withTrivia {s : Stmt} {t : Trivia} (h : s.trivia? = some t) (t' : Trivia) :
    (s.withTrivia t').trivia? = some t' := by
  cases s with
  | html => cases h
  | _ => rfl

/-- Another gap before a statement changes nothing of what is written behind the gap. -/
theorem text_withGap {s : Stmt} {t : Trivia} (h : s.trivia? = some t) (gap : Option Bool) :
    (s.withTrivia { t with blankBefore := gap }).text layout margin = s.text layout margin := by
  cases s with
  | html => cases h
  | namespace_ n =>
      cases n
      cases h
      rfl
  | _ => cases h; rfl

theorem withTrivia_self {s : Stmt} {t : Trivia} (h : s.trivia? = some t) : s.withTrivia t = s := by
  cases s with
  | html => cases h
  | namespace_ n =>
      cases n
      cases h
      rfl
  | _ => cases h; rfl

theorem import?_withTrivia (s : Stmt) (t : Trivia) :
    (s.withTrivia t).import?.isSome = s.import?.isSome := by
  cases s <;> rfl

/-- Whatever the gap before the first statement is, the same is written behind it. -/
theorem listText_behindBreak (layout : Layout) (margin : String) (top : Bool) (ss : List Stmt)
    {tail : String} (ht : StartsLine tail) :
    ∃ x, ∀ {ss' : List Stmt}, Respaced ss ss' → ∀ prev : Option Stmt,
      ∃ gap, listText layout margin top prev ss' ++ tail = lineBreak gap ++ x := by
  cases ss with
  | nil =>
      obtain ⟨x, rfl⟩ := ht
      refine ⟨x, fun {ss'} h prev => ⟨false, ?_⟩⟩
      have hss : ss' = [] := by
        rcases h with h | ⟨gap, h⟩ <;> simpa using h
      simp [hss, listText, lineBreak]
  | cons s ss =>
      cases hs : s.trivia? with
      | none =>
          obtain ⟨t, rfl⟩ : ∃ t, s = .html t := by
            cases s <;> simp_all [trivia?]
          let rest := listText layout margin top (some (.html t)) ss
          refine ⟨"?>" ++ t ++ "<?php" ++ rest ++ tail, fun {ss'} h prev => ⟨false, ?_⟩⟩
          have hss : ss' = .html t :: ss := by
            rcases h with h | ⟨gap, h⟩ <;> exact h
          have htext : text layout margin (.html t) = lineBreak false ++
              ("?>" ++ t ++ "<?php") := by
            simp only [text, ← String.append_assoc]
            rfl
          simp only [hss, listText, htext, String.append_assoc, rest]
      | some t =>
          refine ⟨t.leadingText margin ++ margin ++ text layout margin s ++
            listText layout margin top (some s) ss ++ tail, fun {ss'} h prev => ?_⟩
          obtain ⟨gap, rfl⟩ : ∃ gap, ss' = s.withTrivia { t with blankBefore := gap } :: ss := by
            rcases h with rfl | ⟨gap, rfl⟩
            · exact ⟨t.blankBefore, by rw [withTrivia_self hs]⟩
            · exact ⟨gap t, by simp [Spaced.mapTrivia, hs]⟩
          have hs' := trivia?_withTrivia hs { t with blankBefore := gap }
          refine ⟨gap.getD (usualGap top prev (s.withTrivia { t with blankBefore := gap })), ?_⟩
          rw [listText_cons (by simp [IsSpaced, hs']), leadingText_eq, hs', text_withGap hs,
            listText_congr (import?_withTrivia s _)]
          simp only [Option.getD_some, String.append_assoc]
          rfl

theorem listText_respaced {ss ss' : List Stmt} (h : Respaced ss ss') (prev' : Option Stmt)
    {tail : String} (ht : StartsLine tail) :
    SameBehindBreak (listText layout margin top prev ss ++ tail)
      (listText layout margin top prev' ss' ++ tail) := by
  obtain ⟨x, hx⟩ := listText_behindBreak layout margin top ss ht
  obtain ⟨gap, hgap⟩ := hx (.inl rfl) prev
  obtain ⟨gap', hgap'⟩ := hx h prev'
  exact ⟨gap, gap', x, hgap, hgap'⟩

/-- A statement that comes in among others, with the gap behind it changed, is one text that comes
in. -/
theorem listText_insert (front : List Stmt) {s : Stmt} (hs : s.IsSpaced) {back back' : List Stmt}
    {tail : String}
    (h : SameBehindBreak (listText layout margin top (front.getLast?.or prev) back ++ tail)
      (listText layout margin top (some s) back' ++ tail)) :
    Inserts (listText layout margin top prev (front ++ back) ++ tail)
      (listText layout margin top prev (front ++ s :: back') ++ tail) := by
  rw [listText_append, listText_append, listText_cons hs, leadingText_eq]
  simp only [String.append_assoc] at h ⊢
  refine Inserts.append_left _ ?_
  simpa only [String.append_assoc] using h.inserts _
    ((s.trivia?.getD .empty).leadingText margin ++ margin ++ text layout margin s)

/-- The second statement stands as the first does, and is the first with one more text in it. -/
structure Grows (s s' : Stmt) : Prop where
  spaced : s.IsSpaced
  trivia : s'.trivia? = s.trivia?
  import_ : s.import?.isSome = s'.import?.isSome
  text : ∀ (layout : Layout) (margin : String) {tail : String}, StartsLine tail →
    Inserts (s.text layout margin ++ tail) (s'.text layout margin ++ tail)

/-- A statement that grows makes the list grow by the same text. -/
theorem Grows.listText {s s' : Stmt} (h : Grows s s') (front back : List Stmt) {tail : String}
    (ht : StartsLine tail) :
    Inserts (Stmt.listText layout margin top prev (front ++ s :: back) ++ tail)
      (Stmt.listText layout margin top prev (front ++ s' :: back) ++ tail) := by
  have hs' : s'.IsSpaced := by
    rw [IsSpaced, h.trivia]
    exact h.spaced
  rw [listText_append, listText_append, listText_cons h.spaced, listText_cons hs',
    ← listText_congr h.import_]
  simp only [String.append_assoc]
  refine Inserts.append_left _ ?_
  have hlead : leadingText margin top (front.getLast?.or prev) s' =
      leadingText margin top (front.getLast?.or prev) s := by
    simp only [leadingText, usualGap, h.trivia, h.import_]
  rw [hlead]
  exact (h.text layout margin (listText_startsLine back ht)).append_left _

end Stmt

end ClassEdit
