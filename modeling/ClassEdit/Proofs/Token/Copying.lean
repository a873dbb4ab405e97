import ClassEdit.Proofs.Token.Reindenting
import ClassEdit.Proofs.Token.Telling

/-!
Parts of a source that are written somewhere else: moved left when they are read, moved right when
they are written, and with other text behind them. Main statements: the text of a part is code whose
literals have lost nothing but carriage returns, and it tells these literals wherever it is written.
-/

namespace ClassEdit.Scan

variable {mode : Mode} {p : Position} {cs x d d' : List Char} {l : Lexeme} {ls behind : List Lexeme}

/-- Text outside of the tags goes up to the same tag, whatever is behind that. -/
theorem Begins.html_before_tag (hx : Begins .html .html x d) (hd : Scanned .html p d (l :: ls))
    (hls : ls ≠ []) (htag : ∃ e, d' = l.text ++ e) (hd' : Scanned .html p d' (l :: behind)) :
    Begins .html .html x d' := by
  obtain ⟨hkind, hlength, e, rfl⟩ := openTag_of_html hx hd hls
  obtain ⟨e', rfl⟩ := htag
  rcases begins_html_iff.1 hx with ⟨hopen, -⟩ | ⟨-, hne, hends⟩
  · cases hopen
  · have hmoved := MovedLeft.refl (l.text ++ e') x false
    exact begins_html_iff.2
      (.inr ⟨rfl, hne, htmlLength_movedLeft hmoved hends (.tag hlength (hd'.openTag hkind).1)⟩)

/-- What is behind a part of a source can be left out. -/
theorem Scanned.cutOff (h : Scanned mode p cs (ls ++ behind)) (hbehind : behind ≠ [])
    (hlast : ∀ last ∈ ls.getLast?, Boundary [] last behind) :
    ∃ e, e.kind = .eof ∧ e.text = [] ∧ e.gap = [] ∧
      Scanned mode p (ls.flatMap Lexeme.source) (ls ++ [e]) := by
  have hend : AtLineEnd [] := by simp [AtLineEnd]
  induction ls generalizing mode p cs with
  | nil => exact ⟨_, rfl, rfl, rfl, .eof p (isGap_nil mode)⟩
  | cons l ls ih =>
    generalize htail : ls ++ behind = tail at ih h
    have hne : tail ≠ [] := by simp [← htail, hbehind]
    rw [List.cons_append, htail] at h
    cases h with
    | eof => exact absurd rfl hne
    | @cons _ _ gap x d kind _ hgap hx hd =>
      obtain ⟨e, he, htext, hend', hrest⟩ := ih hd fun last hmem =>
        hlast last (by rw [List.getLast?_cons, Option.mem_def.1 hmem]; rfl)
      rw [← htail] at hd
      have hahead : Ahead kind d (ls.flatMap Lexeme.source) := by
        cases ls with
        | nil => exact (hlast _ rfl).ahead hd hend
        | cons l₂ ls =>
          have hself := MovedLeft.self [] ((l₂ :: ls).flatMap Lexeme.markedSource)
          rw [Lexeme.map_fst_markedSource] at hself
          have hahead := ahead_of_movedLeft hd hbehind hself hend
          rwa [List.append_nil] at hahead
      refine ⟨e, he, htext, hend', ?_⟩
      rw [List.flatMap_cons, Lexeme.source, List.append_assoc]
      refine .cons hgap ?_ hrest
      by_cases hhtml : mode = .html ∧ kind = .html
      · obtain ⟨rfl, rfl⟩ := hhtml
        cases ls with
        | nil =>
          obtain ⟨hone, -⟩ := (hlast _ rfl).outside rfl
          obtain ⟨e', rfl⟩ := List.length_eq_one_iff.1 hone
          cases hd with
          | eof _ hgap' =>
            obtain rfl : d = [] := hgap'
            exact hx
          | cons _ _ hnil => exact absurd rfl hnil.ne_nil
        | cons l₂ ls =>
          refine hx.html_before_tag hd (by simp [hbehind]) ?_ hrest
          obtain ⟨-, -, hgap₂, -⟩ := hd.uncons (by simp [hbehind])
          rw [List.flatMap_cons, Lexeme.source, show l₂.gap = [] from hgap₂]
          exact ⟨_, rfl⟩
      · rw [not_and] at hhtml
        exact (hx.movedLeft hhtml (MovedLeft.refl _ x kind.isLiteral) hahead).1

section Tag

variable {e d : List Char}

/-- A tag that begins before another one ends before it too. -/
theorem atOpenTag_of_append_tag (hx : x ≠ []) (h : atOpenTag (x ++ '<' :: e) = true)
    (d : List Char) :
    atOpenTag (x ++ d) = true := by
  rcases x with _ | ⟨a, _ | ⟨b, _ | ⟨c, _ | ⟨f, _ | ⟨g, _ | ⟨k, x⟩⟩⟩⟩⟩⟩
  · exact absurd rfl hx
  all_goals simp [atOpenTag, isBlank] at h ⊢
  exact h

/-- Text before a tag may stand before any tag. -/
theorem htmlLength_before_tag (hx : htmlLength (x ++ d) = x.length)
    (htag : atOpenTag ('<' :: e) = true) :
    htmlLength (x ++ '<' :: e) = x.length := by
  induction x with
  | nil => rw [List.nil_append, htmlLength, if_pos htag, List.length_nil]
  | cons c x ih =>
    obtain ⟨hnot, hrest⟩ := htmlLength_eq_succ.1 hx
    refine htmlLength_eq_succ.2 ⟨?_, ih hrest⟩
    rw [← Bool.not_eq_true] at hnot ⊢
    exact fun h => hnot (atOpenTag_of_append_tag (List.cons_ne_nil c x) h d)

end Tag

section Last

variable {kind : TokenKind} {follow e : List Char} {xs : List (List Char)}

theorem htmlLength_append (hx : htmlLength x = x.length) (hfollow : AtBreak follow) :
    htmlLength (x ++ follow) = x.length + htmlLength follow := by
  induction x with
  | nil => rw [List.nil_append, List.length_nil, Nat.zero_add]
  | cons c x ih =>
    obtain ⟨htag, hrest⟩ := htmlLength_eq_succ.1 hx
    rw [List.cons_append, List.length_cons, Nat.add_right_comm, htmlLength_eq_succ, ih hrest,
      ← List.cons_append, atOpenTag_append_atBreak hfollow]
    exact ⟨htag, rfl⟩

/-- Text outside of the tags runs into the text of the next line. -/
theorem Holds.html (h : Holds .html follow xs) (hx : Begins .html .html x [])
    (hfollow : AtLineEnd follow) :
    Holds .html (x ++ follow) xs := by
  rcases begins_html_iff.1 hx with ⟨hopen, -⟩ | ⟨-, hne, hlength⟩
  · cases hopen
  rw [List.append_nil] at hlength
  obtain ⟨ls, hls, hxs⟩ := h .start
  cases hls with
  | eof p hgap =>
    obtain rfl : follow = [] := hgap
    exact h.lexeme hx
  | @cons _ _ gap y cs kind ls hgap hy hcs =>
    obtain rfl : gap = [] := hgap
    have hlength' := htmlLength_append hlength hfollow.atBreak
    rw [List.nil_append] at hlength' ⊢
    rw [Lexeme.literals_cons] at hxs
    rcases begins_html_iff.1 hy with ⟨-, -, htag⟩ | ⟨rfl, -, hy⟩
    · exact absurd hfollow (not_atLineEnd_of_atOpenTag htag)
    · rw [hy, ← List.append_assoc, ← List.length_append] at hlength'
      have hboth : Begins .html .html (x ++ y) cs :=
        begins_html_iff.2 (.inr ⟨rfl, by simp [hne], hlength'⟩)
      rw [← hxs, ← List.append_assoc]
      exact (holds_of_scanned hcs).lexeme hboth

/-- A tag is one still if white space is put behind it, or something behind what follows it. -/
theorem atOpenTag_append_behind (htag : atOpenTag (x ++ d) = true) (hx : x.length = 5)
    (hfollow : d = [] → ∀ c ∈ follow.head?, isBlank c = true) :
    atOpenTag (x ++ (d ++ follow)) = true := by
  rw [atOpenTag_append hx, Bool.and_eq_true] at htag ⊢
  refine ⟨htag.1, ?_⟩
  cases d with
  | nil =>
    cases follow with
    | nil => rfl
    | cons c r => exact hfollow rfl c rfl
  | cons c d => exact htag.2

/-- A lexeme at the end of a text that the end of a line is put behind. -/
theorem Begins.holds_atLineEnd (hx : Begins mode kind x e) (he : IsGap (modeAfter kind) e)
    (hfollow : AtLineEnd follow) (h : Holds (modeAfter kind) follow xs) :
    Holds mode (x ++ (e ++ follow)) ((if kind.isLiteral then [x] else []) ++ xs) := by
  by_cases hhtml : mode = .html ∧ kind = .html
  · obtain ⟨rfl, rfl⟩ := hhtml
    obtain rfl : e = [] := he
    exact h.html hx hfollow
  · rw [not_and] at hhtml
    have hahead : Ahead kind e (e ++ follow) := by
      refine ⟨⟨e, [], follow, (List.append_nil e).symm, rfl, hfollow, fun _ hnil => ?_⟩,
        fun _ htag => ?_⟩
      · rw [hnil]
        nofun
      · exact .inr (startsWith_of_append htag)
    exact (h.behindGap he).lexeme (hx.movedLeft hhtml (MovedLeft.refl _ x kind.isLiteral) hahead).1

/-- A lexeme that is no comment at the end of a text that a separator is put behind. -/
theorem Begins.holds_atSeparator (hx : Begins mode kind x e) (he : IsGap (modeAfter kind) e)
    (hcomment : kind ≠ .comment) (hmode : modeAfter kind = .code)
    (hopen : kind = .openTag → ∀ c ∈ follow.head?, isBlank c = true) (hfollow : AtSeparator follow)
    (h : Holds .code follow xs) :
    Holds mode (x ++ (e ++ follow)) ((if kind.isLiteral then [x] else []) ++ xs) := by
  rw [← hmode] at h
  refine (h.behindGap he).lexeme ?_
  cases mode with
  | code => exact begins_code_iff.2 ((begins_code_iff.1 hx).append (fun _ => hcomment) hfollow)
  | html =>
    rcases begins_html_iff.1 hx with ⟨rfl, hlength, htag⟩ | ⟨rfl, -⟩
    · exact begins_html_iff.2
        (.inl ⟨rfl, hlength, atOpenTag_append_behind htag hlength fun _ => hopen rfl⟩)
    · cases hmode

end Last

section Append

variable {last e : Lexeme} {follow : List Char} {xs : List (List Char)}

/-- Where there is more of a text than its last lexeme, it does not end. -/
theorem Scanned.ne_nil_of_cons (h : Scanned mode p d (l :: ls)) (hne : ls ≠ []) : d ≠ [] := by
  rintro rfl
  obtain ⟨e, hone, -⟩ := h.eq_of_nil
  exact hne (List.cons.inj hone).2

/-- A lexeme that is not the last of a text stays the same if something is put behind the text. -/
theorem Begins.append (hx : Begins mode kind x d) (hd : Scanned (modeAfter kind) p d (l :: ls))
    (hls : ls ≠ []) (hopen : l.kind = .openTag → ls.length = 1 →
      ∀ c ∈ follow.head?, isBlank c = true)
    (hfollow : AtSeparator follow) : Begins mode kind x (d ++ follow) := by
  have hne := hd.ne_nil_of_cons hls
  cases mode with
  | code =>
    have htoken := begins_code_iff.1 hx
    exact begins_code_iff.2 (htoken.append (fun hnil => absurd hnil hne) hfollow)
  | html =>
    rcases begins_html_iff.1 hx with ⟨rfl, hlength, htag⟩ | ⟨rfl, hnil, hends⟩
    · exact begins_html_iff.2
        (.inl ⟨rfl, hlength, atOpenTag_append_behind htag hlength fun hnil => absurd hnil hne⟩)
    · obtain ⟨hkind, hlength, -⟩ := openTag_of_html hx hd hls
      obtain ⟨r, rfl, hgap, -, hr⟩ := hd.uncons hls
      have htag := (hd.openTag hkind).1
      rw [show l.gap = [] from hgap, List.nil_append] at hends htag ⊢
      have htag' := atOpenTag_append_behind htag hlength fun hnil => by
        subst hnil
        obtain ⟨e, rfl, -⟩ := hr.eq_of_nil
        exact hopen hkind rfl
      have hmoved := MovedLeft.refl (l.text ++ (r ++ follow)) x false
      rw [List.append_assoc]
      exact begins_html_iff.2
        (.inr ⟨rfl, hnil, htmlLength_movedLeft hmoved hends (.tag hlength htag')⟩)

/-- What is put behind a text changes nothing before its last lexeme. -/
theorem Scanned.holds_append (h : Scanned mode p cs (ls ++ [last, e]))
    (hfollow : AtSeparator follow) (hopen : last.kind = .openTag →
      ∀ c ∈ follow.head?, isBlank c = true)
    (hlast : ∀ mode, Begins mode last.kind last.text e.gap → IsGap (modeAfter last.kind) e.gap →
      Holds mode (last.text ++ (e.gap ++ follow))
        ((if last.kind.isLiteral then [last.text] else []) ++ xs)) :
    Holds mode (cs ++ follow) (Lexeme.literals (ls ++ [last]) ++ xs) := by
  induction ls generalizing mode p cs with
  | nil =>
    obtain ⟨d, rfl, hgap, hx, hd⟩ := h.uncons (List.cons_ne_nil _ _)
    cases hd with
    | eof _ hgap' =>
      rw [List.nil_append, Lexeme.literals_cons, Lexeme.literals_nil, List.append_nil,
        List.append_assoc, List.append_assoc]
      exact (hlast _ hx hgap').behindGap hgap
    | cons _ _ hnil => exact absurd rfl hnil.ne_nil
  | cons l ls ih =>
    obtain ⟨d, rfl, hgap, hx, hd⟩ := h.uncons (by simp)
    have hbegins : Begins mode l.kind l.text (d ++ follow) := by
      cases ls with
      | nil => exact hx.append hd (List.cons_ne_nil _ _) (fun hkind _ => hopen hkind) hfollow
      | cons l₂ ls => exact hx.append hd (by simp) (fun _ hone => by simp at hone) hfollow
    rw [List.append_assoc, List.append_assoc, List.cons_append, Lexeme.literals_cons,
      List.append_assoc]
    exact ((ih hd).lexeme hbegins).behindGap hgap

end Append

end ClassEdit.Scan
