import ClassEdit.File.Parser
import ClassEdit.File.Printer
import ClassEdit.Proofs.Class.Copying

/-!
Imports are made of names and words, and tell nothing.
-/

namespace ClassEdit

open Scan (IsCalm)

namespace Import

theorem isCalm_keyword (kind : Option ImportKind) :
    IsCalm (spaced (kind.bind ImportKind.keyword?)) := by
  rcases kind with _ | _ | _ | _ <;> decide

/-- The word of a kind is no literal. -/
theorem readKind_copied {c : Cursor} (hc : c.IsIn .code) :
    c.Reaches [] .code (readKind c).rest := by
  unfold readKind
  dsimp only
  split
  next k hk =>
    have hword : c.head.kind = .word := by
      split at hk
      next =>
        split at hk
        next h => exact eq_of_beq (Bool.and_eq_true_iff.1 h).1
        next =>
          split at hk
          next h => exact eq_of_beq (Bool.and_eq_true_iff.1 h).1
          next => cases hk
      next => cases hk
    obtain ⟨m, hlexed⟩ := hc.lexed
    have hahead := hlexed.ahead_ne_nil (by rw [hword]; decide)
    have hreaches := hc.skip_one hahead (by rw [hword]; rfl)
    rwa [hword] at hreaches
  next => exact hc.refl

theorem readLocalName_copied {c : Cursor} (hc : c.IsIn .code) {s : Step 0 (Option String) c}
    (hs : readLocalName c = .ok s) : c.Reaches [] .code s.rest ∧ ∀ x ∈ s.value, IsCalm x := by
  unfold readLocalName at hs
  split at hs
  next hword =>
    obtain ⟨⟨name, c₂, h₂⟩, hname, hs⟩ := bind_eq_ok.1 hs
    cases hs
    have hreaches := hc.takeWord? hword
    obtain ⟨hrest, hcalm⟩ := hreaches.isIn.takeName hname
    exact ⟨hreaches.trans hrest, fun x hx => Option.some.inj hx ▸ hcalm⟩
  next =>
    cases hs
    exact ⟨hc.refl, by simp⟩

theorem isCalm_itemText {i : ImportItem} (hname : IsCalm i.name)
    (hlocal : ∀ x ∈ i.localName, IsCalm x) : IsCalm i.text := by
  have has : IsCalm (i.localName.elim "" (" as " ++ ·)) := by
    cases hi : i.localName with
    | none => decide
    | some x => exact Scan.isCalm_append.2 ⟨by decide, hlocal x hi⟩
  rw [ImportItem.text]
  exact Scan.isCalm_append.2 ⟨Scan.isCalm_append.2 ⟨isCalm_keyword i.kind, hname⟩, has⟩

theorem readItem_copied {kind : Option ImportKind} {c : Cursor} (hc : c.IsIn .code)
    {s : Step 1 ImportItem c} (hs : readItem kind c = .ok s) :
    c.Reaches [] .code s.rest ∧ IsCalm s.value.text := by
  unfold readItem at hs
  obtain ⟨⟨name, c₁, h₁⟩, hname, hs⟩ := bind_eq_ok.1 hs
  obtain ⟨⟨localName, c₂, h₂⟩, hlocal, hs⟩ := bind_eq_ok.1 hs
  cases hs
  obtain ⟨hreaches, hcalm⟩ := hc.takeName hname
  obtain ⟨hrest, hlocal⟩ := readLocalName_copied hreaches.isIn hlocal
  exact ⟨hreaches.trans hrest, isCalm_itemText hcalm hlocal⟩

/-- The symbols of a group have no literal, and their texts are calm. -/
theorem readGroup_copied {c : Cursor} (hc : c.IsIn .code) {s : Step 0 (List ImportItem) c}
    (hs : readGroup c = .ok s) :
    c.Reaches [] .code s.rest ∧ ∀ i ∈ s.value, IsCalm i.text := by
  unfold readGroup at hs
  split at hs
  next =>
    cases hs
    exact ⟨hc.refl, List.forall_mem_nil _⟩
  next =>
    have hreaches := readKind_copied hc
    have h₁ := (readKind c).progress
    dsimp only at hs
    obtain ⟨⟨item, c₂, h₂⟩, hitem, hs⟩ := bind_eq_ok.1 hs
    obtain ⟨hitem, hcalm⟩ := readItem_copied hreaches.isIn hitem
    have hreaches₂ := hreaches.trans hitem
    dsimp only at hs
    split at hs
    next _ c₃ h₃ hcomma =>
      obtain ⟨⟨items, c₄, h₄⟩, hitems, hs⟩ := bind_eq_ok.1 hs
      cases hs
      have hreaches₃ := hreaches₂.trans (hreaches₂.isIn.take? hcomma rfl).1
      obtain ⟨hrest, hcalms⟩ := readGroup_copied hreaches₃.isIn hitems
      exact ⟨hreaches₃.trans hrest, List.forall_mem_cons.2 ⟨hcalm, hcalms⟩⟩
    next =>
      cases hs
      exact ⟨hreaches₂, List.forall_mem_singleton.2 hcalm⟩
termination_by c.size

/-- Further symbols have no literal, and their texts are calm. -/
theorem readFurther_copied {c : Cursor} (hc : c.IsIn .code) {s : Step 0 (List ImportItem) c}
    (hs : readFurther c = .ok s) :
    c.Reaches [] .code s.rest ∧ ∀ i ∈ s.value, IsCalm i.text := by
  unfold readFurther at hs
  split at hs
  next _ c₁ h₁ hcomma =>
    obtain ⟨⟨item, c₂, h₂⟩, hitem, hs⟩ := bind_eq_ok.1 hs
    obtain ⟨⟨items, c₃, h₃⟩, hitems, hs⟩ := bind_eq_ok.1 hs
    cases hs
    have hreaches := (hc.take? hcomma rfl).1
    obtain ⟨hitem, hcalm⟩ := readItem_copied hreaches.isIn hitem
    have hreaches₂ := hreaches.trans hitem
    obtain ⟨hrest, hcalms⟩ := readFurther_copied hreaches₂.isIn hitems
    exact ⟨hreaches₂.trans hrest, List.forall_mem_cons.2 ⟨hcalm, hcalms⟩⟩
  next =>
    cases hs
    exact ⟨hc.refl, List.forall_mem_nil _⟩
termination_by c.size

/-- An import is made of names, with or without a group. -/
theorem readItems_copied {c : Cursor} (hc : c.IsIn .code)
    {s : Step 1 (Option String × List ImportItem) c} (hs : readItems c = .ok s) :
    c.Reaches [] .code s.rest ∧ (∀ x ∈ s.value.1, IsCalm x) ∧ ∀ i ∈ s.value.2, IsCalm i.text := by
  unfold readItems at hs
  obtain ⟨⟨first, c₁, h₁⟩, hfirst, hs⟩ := bind_eq_ok.1 hs
  obtain ⟨hreaches, hcalm⟩ := hc.takeName hfirst
  dsimp only at hs
  split at hs
  next t c₂ h₂ hbrace =>
    have hbrace : c₁.take? .leftBrace = some ⟨t, c₂, h₂⟩ := by
      split at hbrace
      next => exact hbrace
      next => cases hbrace
    obtain ⟨⟨items, c₃, h₃⟩, hitems, hs⟩ := bind_eq_ok.1 hs
    obtain ⟨⟨_, c₄, h₄⟩, hclose, hs⟩ := bind_eq_ok.1 hs
    cases hs
    have hreaches₂ := hreaches.trans (hreaches.isIn.take? hbrace rfl).1
    obtain ⟨hgroup, hcalms⟩ := readGroup_copied hreaches₂.isIn hitems
    have hreaches₃ := hreaches₂.trans hgroup
    refine ⟨hreaches₃.trans (hreaches₃.isIn.take hclose rfl), fun x hx => ?_, hcalms⟩
    obtain rfl := Option.some.inj hx
    intro ch hch
    rw [dropSeparators, String.toList_ofList] at hch
    refine hcalm ch ?_
    rw [← dropEndWhile_append (· == '\\') first.toList]
    exact List.mem_append_left _ hch
  next =>
    obtain ⟨⟨localName, c₂, h₂⟩, hlocal, hs⟩ := bind_eq_ok.1 hs
    obtain ⟨⟨items, c₃, h₃⟩, hitems, hs⟩ := bind_eq_ok.1 hs
    cases hs
    obtain ⟨hlocal, hcalmLocal⟩ := readLocalName_copied hreaches.isIn hlocal
    have hreaches₂ := hreaches.trans hlocal
    obtain ⟨hrest, hcalms⟩ := readFurther_copied hreaches₂.isIn hitems
    exact ⟨hreaches₂.trans
      hrest, by simp, List.forall_mem_cons.2 ⟨isCalm_itemText hcalm hcalmLocal, hcalms⟩⟩

/-- The text of an import is calm if the texts of its base and of its symbols are. -/
theorem isCalm_text {i : Import} (hbase : ∀ x ∈ i.base, IsCalm x)
    (hitems : ∀ item ∈ i.items, IsCalm item.text) :
    IsCalm i.text := by
  have hlist : IsCalm (commaList (i.items.map ImportItem.text)) := by
    refine Scan.isCalm_commaList fun x hx => ?_
    obtain ⟨item, hitem, rfl⟩ := List.mem_map.1 hx
    exact hitems item hitem
  have hkind : IsCalm (spaced i.kind.keyword?) := isCalm_keyword (some i.kind)
  have hmarks : IsCalm "use " ∧ IsCalm "\\\x7b" ∧ IsCalm "\x7d" ∧ IsCalm ";" := by decide
  unfold text
  dsimp only
  cases hb : i.base with
  | none =>
      exact Scan.isCalm_append.2
        ⟨Scan.isCalm_append.2 ⟨Scan.isCalm_append.2 ⟨hmarks.1, hkind⟩, hlist⟩, hmarks.2.2.2⟩
  | some base =>
    simp only [Scan.isCalm_append]
    exact ⟨⟨⟨hmarks.1, hkind⟩, ⟨⟨hbase base hb, hmarks.2.1⟩, hlist⟩, hmarks.2.2.1⟩, hmarks.2.2.2⟩

/-- An import has no literal. -/
theorem read_copied {trivia : Trivia} {xss : List (List (List Char))}
    (htrivia : TriviaTells trivia xss) {c : Cursor} (hc : c.IsIn .code) {s : Step 1 Import c}
    (hs : read trivia c = .ok s) :
    c.Reaches [] .code s.rest ∧ TriviaTells s.value.trivia xss ∧ IsCalm s.value.text := by
  unfold read at hs
  obtain ⟨⟨_, c₁, h₁⟩, huse, hs⟩ := bind_eq_ok.1 hs
  dsimp only at hs
  obtain ⟨⟨⟨base, items⟩, c₃, h₃⟩, hitems, hs⟩ := bind_eq_ok.1 hs
  obtain ⟨⟨_, c₄, h₄⟩, hend, hs⟩ := bind_eq_ok.1 hs
  cases hs
  have hreaches₁ := hc.takeWord huse
  have hreaches₂ := hreaches₁.trans (readKind_copied hreaches₁.isIn)
  obtain ⟨hitems, hbase, hcalms⟩ := readItems_copied hreaches₂.isIn hitems
  have hreaches₃ := hreaches₂.trans hitems
  have hreaches₄ := hreaches₃.trans (hreaches₃.isIn.take hend rfl)
  obtain ⟨hreaches₅, htrivia⟩ := hreaches₄.isIn.finish htrivia
  exact ⟨hreaches₄.trans hreaches₅, htrivia, isCalm_text hbase hcalms⟩

end Import

end ClassEdit
