import ClassEdit.Proofs.Edit.Widening
import ClassEdit.Proofs.File.Printing
import ClassEdit.Proofs.File.Reading
import ClassEdit.Proofs.Session.Redraining

/-!
Sessions on a text and on the same text with a carriage return before each newline. Both are opened
or neither is; they hold files that differ in the spelling of values alone, and as long as no edit
looks into those they report the same. Main statement: what the second renders is what the first
renders, with a carriage return before each newline.
-/

namespace ClassEdit

/-- A built-in edit of any kind but the one that looks into a value. -/
def Descriptor.IsBlind (d : Descriptor) : Prop :=
  d.source = .builtin ∧ d.kind ≠ EditKind.extendCollectionField.name

namespace Descriptor.IsBlind

variable {d : Descriptor} {r : Registry}

/-- Such an edit cannot be built, or it does the same to both files. -/
theorem instantiate_cases (h : d.IsBlind) (r : Registry) :
    (∃ e, d.instantiate r = .error e) ∨
      ∃ op : Operation, d.instantiate r = .ok op.apply ∧
        Edit.Commutes SourceFile.widened op.edit := by
  obtain ⟨hsource, hkind⟩ := h
  rw [instantiate, hsource]
  cases hbuilt : Operation.ofParams d.kind d.params with
  | error e => exact .inl ⟨e, rfl⟩
  | ok op =>
      obtain ⟨k, hk, hname⟩ := Operation.kind_mem_of_ofParams hbuilt
      have hne : k ≠ .extendCollectionField := by
        rintro rfl
        have hsame := List.find?_some hname
        exact hkind (eq_of_beq hsame).symm
      exact .inr ⟨op, rfl, Operation.commutes_edit hk hne⟩

/-- Edits that look into no value do the same to widened values, and report the same. -/
theorem drain_widened {ds : List Descriptor} (h : ∀ d ∈ ds, d.IsBlind) (f : SourceFile) :
    drain r ds f.widened = { drain r ds f with file := (drain r ds f).file.widened } := by
  induction ds generalizing f with
  | nil => rfl
  | cons d ds ih =>
      obtain ⟨hd, hds⟩ := List.forall_mem_cons.1 h
      rcases hd.instantiate_cases r with ⟨e, he⟩ | ⟨op, hop, hcommutes⟩
      · simp only [drain, he]
      · have happly : op.apply f.widened = ((op.apply f).1.widened, (op.apply f).2) :=
          hcommutes.apply f
        simp only [drain, hop, happly, ih hds]

end Descriptor.IsBlind

namespace Session

/-- What the session on the wider text has in common with the other one. -/
structure Widened (s s' : Session) : Prop where
  file : s'.file = s.file.widened
  pending : s'.pending = s.pending
  history : s'.history = s.history
  registry : s'.config.registry = s.config.registry
  lineEnding : s.config.layout.lineEnding = "\n"
  layout : s'.config.layout = { s.config.layout with lineEnding := "\r\n" }

namespace Widened

variable {s s' : Session}

theorem text (h : s.Widened s') : s'.text = String.ofList (LineEnding.widen s.text.toList) := by
  have hlayout : s.config.layout = ⟨s.config.layout.indent, "\n"⟩ := by rw [← h.lineEnding]
  rw [Session.text, h.layout, h.file, Session.text, hlayout]
  exact s.file.text_widened

theorem enqueue_all (h : s.Widened s') (ds : List Descriptor) :
    (ds.foldl enqueue s).Widened (ds.foldl enqueue s') := by
  rw [foldl_enqueue, foldl_enqueue]
  exact { h with pending := by rw [h.pending] }

/-- Both sessions are drained alike. -/
theorem applyPending (h : s.Widened s') (hpending : ∀ d ∈ s.pending, d.IsBlind) :
    s.applyPending.1.Widened s'.applyPending.1 ∧ s'.applyPending.2 = s.applyPending.2 := by
  have hdrain := Descriptor.IsBlind.drain_widened (r := s.config.registry) hpending s.file
  rw [Session.applyPending, Session.applyPending, h.registry, h.pending, h.file, hdrain]
  exact ⟨{ h with file := rfl, pending := rfl, history := by rw [h.history] }, rfl⟩

theorem render (h : s.Widened s') (hpending : ∀ d ∈ s.pending, d.IsBlind) :
    s'.render.2 = s.render.2.map fun text => String.ofList (LineEnding.widen text.toList) := by
  obtain ⟨hdrained, hresult⟩ := h.applyPending hpending
  simp only [Session.render, hresult, hdrained.text]
  cases s.applyPending.2 <;> rfl

end Widened

/-- Both sessions are opened or neither. -/
theorem ofSource_widened {source : String} (hclean : '\r' ∉ source.toList)
    (hlines : '\n' ∈ source.toList) :
    Agree (fun s s' => s.pending = [] ∧ s.Widened s') (ofSource source .standard)
      (ofSource (String.ofList (LineEnding.widen source.toList)) .standard) := by
  have hfile := SourceFile.ofSource_widened hclean
  have hending := LineEnding.dominant_of_not_mem hclean
  have hending' := LineEnding.dominant_widen hclean hlines
  have hconfig (text : String) : SessionConfig.standard.forSource text =
      ⟨⟨Layout.standard.indent, LineEnding.dominant text⟩, .builtins, true⟩ := rfl
  rw [widenText, if_neg hclean] at hfile
  rw [ofSource, ofSource, hconfig, hconfig, hending, hending']
  generalize SourceFile.ofSource source = result at hfile ⊢
  generalize SourceFile.ofSource (String.ofList (LineEnding.widen source.toList)) =
    result' at hfile ⊢
  cases result with
  | error e => cases result' with
    | error e' => trivial
    | ok f' => exact hfile.elim
  | ok f => cases result' with
    | error e' => exact hfile.elim
    | ok f' =>
        exact ⟨rfl,
          { file := hfile, pending := rfl, history := rfl, registry := rfl, lineEnding := rfl,
            layout := rfl }⟩

/-- Line endings do not matter but for the ending of the lines that are written: with a carriage
return before each newline a text is accepted or refused as without, edits report the same, and what
is rendered has a carriage return before each newline. -/
theorem render_widen {source : String} (hclean : '\r' ∉ source.toList)
    (hlines : '\n' ∈ source.toList) :
    let wide (text : String) := String.ofList (LineEnding.widen text.toList)
    ((∃ s, ofSource source .standard = .ok s) ↔ ∃ s', ofSource (wide source) .standard = .ok s') ∧
      ∀ s s', ofSource source .standard = .ok s → ofSource (wide source) .standard = .ok s' →
        ∀ ds : List Descriptor, (∀ d ∈ ds, d.IsBlind) →
          let t := ds.foldl enqueue s
          let t' := ds.foldl enqueue s'
          t'.applyPending.2 = t.applyPending.2 ∧
            t'.applyPending.1.history = t.applyPending.1.history ∧
            t'.render.2 = t.render.2.map wide ∧
            t'.applyPending.1.render.2 = t.applyPending.1.render.2.map wide := by
  intro wide
  have hopened := ofSource_widened hclean hlines
  refine ⟨hopened.exists_ok_iff, fun s s' hs hs' ds hds => ?_⟩
  rw [hs, hs'] at hopened
  obtain ⟨hnone, hwidened⟩ := hopened
  have hqueued := hwidened.enqueue_all ds
  have hpending : ∀ d ∈ (ds.foldl enqueue s).pending, d.IsBlind := by
    rw [foldl_enqueue, hnone]
    exact hds
  obtain ⟨hdrained, hresult⟩ := hqueued.applyPending hpending
  exact ⟨hresult, hdrained.history, hqueued.render hpending,
    hdrained.render (List.forall_mem_nil _)⟩

/-- A namespace that gets a class imported, by an import and again by an edit of no known kind. -/
theorem render_widen_namespace :
    let source := "<?php\n\nnamespace N;\n"
    let add : Descriptor := ⟨"add_import", .supplied [("path", some (.string "P\\Q"))], .builtin⟩
    let unknown : Descriptor := ⟨"add_imports", .supplied [], .builtin⟩
    '\r' ∉ source.toList ∧ '\n' ∈ source.toList ∧
      ∃ s s', ofSource source .standard = .ok s ∧
        ofSource "<?php\r\n\r\nnamespace N;\r\n" .standard = .ok s' ∧
        ([add, unknown].foldl enqueue s').applyPending.2 = .error (.unknownKind "add_imports") ∧
        ([add].foldl enqueue s').render.2 =
          .ok "<?php\r\n\r\nnamespace N;\r\n\r\nuse P\\Q;\r\n" := by
  intro source add unknown
  have hclean : '\r' ∉ source.toList := by decide
  have hlines : '\n' ∈ source.toList := by decide
  let f : SourceFile :=
    ⟨none, [.namespace_ ⟨⟨[], [], some true, none⟩, some "N", false, [], []⟩], [], none⟩
  have hread : SourceFile.ofSource source = .ok f := SourceFile.ofSource_namespace
  let s : Session := ⟨f, source, none, [], [], SessionConfig.standard.forSource source⟩
  have hs : ofSource source .standard = .ok s := by
    rw [ofSource, hread]
  let wide (text : String) := String.ofList (LineEnding.widen text.toList)
  obtain ⟨hboth, hsame⟩ := render_widen hclean hlines
  obtain ⟨s', hs'⟩ := hboth.1 ⟨s, hs⟩
  have hblind : ∀ d ∈ [add, unknown], d.IsBlind := by
    simp only [List.forall_mem_cons, List.not_mem_nil, false_imp_iff, implies_true, and_true]
    exact ⟨⟨rfl, by decide⟩, rfl, by decide⟩
  have hsource : wide source = "<?php\r\n\r\nnamespace N;\r\n" := by decide +kernel
  have hfailed := (hsame s s' hs hs' [add, unknown] hblind).1
  have hrendered :=
    (hsame s s' hs hs' [add] (fun d hd => hblind d (List.mem_append_left [unknown] hd))).2.2.1
  have herror : ([add, unknown].foldl enqueue s).applyPending.2 =
      .error (.unknownKind "add_imports") := rfl
  have htext : ([add].foldl enqueue s).applyPending.1.text =
      "<?php\n\nnamespace N;\n\nuse P\\Q;\n" := by
    decide +kernel
  have hfirst : ([add].foldl enqueue s).render.2 =
      .ok ([add].foldl enqueue s).applyPending.1.text := rfl
  have hwidened : wide "<?php\n\nnamespace N;\n\nuse P\\Q;\n" =
      "<?php\r\n\r\nnamespace N;\r\n\r\nuse P\\Q;\r\n" := by
    decide +kernel
  rw [herror] at hfailed
  rw [hfirst, htext] at hrendered
  exact ⟨hclean, hlines, s, s', hs, hsource ▸ hs', hfailed,
    hrendered.trans (congrArg Except.ok hwidened)⟩

end Session

end ClassEdit
