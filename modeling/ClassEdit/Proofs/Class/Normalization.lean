import ClassEdit.Proofs.Class.MemberReading
import ClassEdit.Proofs.Expr.Normalization

/-!
Line endings inside of plain classes. Main statement: the text of a plain class becomes the text of
the class whose values are normalized.
-/

namespace ClassEdit

open Scan (isName isIdentifier)

theorem not_mem_of_isIdentifier {cs : List Char} (h : isIdentifier cs = true) : '\r' ∉ cs := by
  simp only [isIdentifier, Bool.and_eq_true, List.all_eq_true] at h
  intro hmem
  exact absurd (h.2 _ hmem) (by decide)

namespace TypeText

theorem not_mem_of_isTypeName {n : String} (h : isTypeName n = true) : '\r' ∉ n.toList := by
  simp only [isTypeName, Bool.and_eq_true] at h
  exact Expr.not_mem_of_isName h.1

theorem IsIntersection.not_mem {x : String} (h : IsIntersection x) : '\r' ∉ x.toList := by
  induction h with
  | name h => exact not_mem_of_isTypeName h
  | and h hs ih => simp [not_mem_of_isTypeName h, ih]

theorem IsPart.not_mem {x : String} (h : IsPart x) : '\r' ∉ x.toList := by
  cases h with
  | name h => exact not_mem_of_isTypeName h
  | group h => simp [h.not_mem]

theorem IsParts.not_mem {x : String} (h : IsParts x) : '\r' ∉ x.toList := by
  induction h with
  | part h => exact h.not_mem
  | or h hs ih => simp [h.not_mem, ih]
  | and h hs ih => simp [h.not_mem, ih]

theorem IsType.not_mem {x : String} (h : IsType x) : '\r' ∉ x.toList := by
  cases h with
  | parts h => exact h.not_mem
  | nullable h => simp [h.not_mem]

theorem IsOptional.normalizes {type : Option String} (h : IsOptional type) :
    Normalizes (spaced type) (spaced type) := by
  refine .of_plain ?_
  cases type with
  | none => simp [spaced]
  | some x => simp [spaced, (h x rfl).not_mem]

end TypeText

theorem Modifiers.normalizes (m : Modifiers) : Normalizes m.text m.text := by
  rw [Modifiers.text_eq_words]
  refine .join fun w hw => ?_
  have hname := Modifiers.isName_of_mem_allWords w (Modifiers.mem_allWords_of_mem_words hw)
  exact (Expr.normalizes_name hname).append (.of_plain (by decide))

section Members

variable {layout : Layout} {margin : String} (hindent : '\r' ∉ layout.indent.toList)
  (hmargin : '\r' ∉ margin.toList)
include hindent hmargin

theorem assigned_normalizes {value : Option Expr} (h : ∀ e ∈ value, e.IsLiteral) :
    Normalizes (assigned layout margin value)
      (assigned layout margin (value.map Expr.normalized)) := by
  cases value with
  | none => exact .of_plain (by simp [assigned])
  | some e => exact Normalizes.append (.of_plain (by decide)) ((h e rfl).normalizes hindent hmargin)

/-- The text of constants is normalized by normalizing their values. -/
theorem ConstantGroup.normalizes {g : ConstantGroup} (hg : g.IsPlain) :
    Normalizes (g.text layout margin) ((g.mapValues Expr.normalized).text layout margin) := by
  have hitems :
      Normalizes (commaList (g.items.map fun c => c.name ++ assigned layout margin (some c.value)))
      (commaList ((g.items.map (·.mapValue Expr.normalized)).map fun c =>
        c.name ++ assigned layout margin (some c.value))) := by
    rw [List.map_map]
    refine .commaList fun c hc => ?_
    have hvalue : Normalizes (assigned layout margin (some c.value))
        (assigned layout margin (some c.value.normalized)) :=
      assigned_normalizes hindent hmargin (by rintro e ⟨⟩; exact (hg.items c hc).value)
    exact (Expr.normalizes_name (hg.items c hc).name).append hvalue
  exact ((((Modifiers.normalizes _).append (.of_plain (by decide))).append
    hg.type.normalizes).append
    hitems).append (.of_plain (by decide))

/-- The text of fields is normalized by normalizing their defaults. -/
theorem FieldGroup.normalizes {g : FieldGroup} (hg : g.IsPlain) :
    Normalizes (g.text layout margin) ((g.mapValues Expr.normalized).text layout margin) := by
  have hitems :
      Normalizes
        (commaList (g.items.map fun f => "$" ++ f.name ++ assigned layout margin f.default))
      (commaList ((g.items.map (·.mapValue Expr.normalized)).map fun f =>
        "$" ++ f.name ++ assigned layout margin f.default)) := by
    rw [List.map_map]
    refine .commaList fun f hf => ?_
    have hname := not_mem_of_isIdentifier (hg.items f hf).name
    exact (Normalizes.of_plain (by simp [hname])).append
      (assigned_normalizes hindent hmargin (hg.items f hf).default)
  exact (((Modifiers.normalizes _).append hg.type.normalizes).append hitems).append
    (.of_plain (by decide))

/-- Of a parameter only the default changes when the line endings do. -/
theorem Param.normalizes {p : Param} (hp : p.IsPlain) :
    Normalizes (p.text layout margin) ((p.mapValue Expr.normalized).text layout margin) := by
  have hfront : Normalizes (String.join (p.attributes.map (· ++ " ")) ++
      spaced (p.modifiers.visibility.map Visibility.keyword) ++
        if p.modifiers.isReadonly then "readonly " else "")
          (String.join (p.attributes.map (· ++ " ")) ++
      spaced (p.modifiers.visibility.map Visibility.keyword) ++
        if p.modifiers.isReadonly then "readonly " else "") := by
    refine .of_plain ?_
    rw [hp.attributes]
    generalize p.modifiers.visibility = visibility
    generalize p.modifiers.isReadonly = isReadonly
    rcases visibility with _ | _ | _ | _ <;> cases isReadonly <;> decide
  have hmarks : Normalizes (if p.byRef then "&" else "") (if p.byRef then "&" else "") :=
    .of_plain (by cases p.byRef <;> decide)
  have hdots : Normalizes (if p.variadic then "..." else "") (if p.variadic then "..." else "") :=
    .of_plain (by cases p.variadic <;> decide)
  have hname : Normalizes p.name p.name := .of_plain (not_mem_of_isIdentifier hp.name)
  exact ((((((hfront.append hp.type.normalizes).append hmarks).append hdots).append
    (.of_plain (by decide))).append hname)).append (assigned_normalizes hindent hmargin hp.default)

/-- A routine without statements changes in the defaults of its parameters alone. -/
theorem Routine.normalizes {r : Routine} (hr : r.IsPlain) :
    Normalizes (r.text layout margin) ((r.mapValues Expr.normalized).text layout margin) := by
  have hparams : Normalizes (r.paramsText layout margin)
      ((r.mapValues Expr.normalized).paramsText layout margin) := by
    have hparam := fun p hp => Param.normalizes hindent hmargin (hr.params p hp)
    have hempty : (r.params.map (·.mapValue Expr.normalized)).isEmpty = r.params.isEmpty :=
      List.isEmpty_map
    simp only [paramsText, mapValues, List.isEmpty_map, List.map_map]
    split
    · refine ((Normalizes.append (.of_plain (by decide)) ?_).append (.of_plain hmargin)).append
        (.of_plain (by decide))
      refine .join fun p hp => ?_
      exact ((Normalizes.of_plain (by simp [hindent, hmargin])).append (hparam p hp)).append
        (.of_plain (by decide))
    · exact (Normalizes.append (.of_plain (by decide)) (.commaList hparam)).append
        (.of_plain (by decide))
  have htype : Normalizes (r.returnType.elim "" (": " ++ ·))
      (r.returnType.elim "" (": " ++ ·)) := by
    refine .of_plain ?_
    cases ht : r.returnType with
    | none => simp
    | some x => simp [(hr.returnType x ht).not_mem]
  have hamp : Normalizes (if r.byRef then "&" else "") (if r.byRef then "&" else "") :=
    .of_plain (by cases r.byRef <;> decide)
  refine ((((((Modifiers.normalizes _).append (.of_plain (by decide))).append hamp).append
    (Expr.normalizes_name hr.name)).append hparams).append htype).append (.of_plain ?_)
  cases hb : r.body with
  | none => simp
  | some stmts =>
    cases hr.body stmts hb
    cases r.layout <;> simp [bodyText, InnerStmt.blockText, hmargin]

/-- The text of a member is normalized by normalizing its values. -/
theorem Member.normalizes {m : Member} (hm : m.IsPlain) :
    Normalizes (m.text layout margin) ((m.mapValues Expr.normalized).text layout margin) := by
  cases m with
  | mixins m =>
    obtain ⟨names, rules⟩ := m
    have hnames : Normalizes (commaList (names.map id)) (commaList (names.map id)) :=
      .commaList fun name hname => Expr.normalizes_name (hm.names name hname)
    rw [List.map_id] at hnames
    refine (Normalizes.append (.of_plain (by decide)) hnames).append (.of_plain ?_)
    cases rules with
    | none => simp
    | some stmts =>
      cases hm.rules stmts rfl
      simp [InnerStmt.blockText, hmargin]
  | constants g => exact ConstantGroup.normalizes hindent hmargin hm
  | fields g => exact FieldGroup.normalizes hindent hmargin hm
  | routine r => exact Routine.normalizes hindent hmargin hm

end Members

theorem Trivia.IsPlain.normalizes {t : Trivia} (ht : t.IsPlain) (margin : String) :
    Normalizes (t.leadingText margin) (t.leadingText margin) ∧
      Normalizes t.trailingText t.trailingText := by
  rw [ht]
  exact ⟨.of_plain (by simp [Trivia.leadingText, Trivia.empty]),
    .of_plain (by simp [Trivia.trailingText, Trivia.empty])⟩

theorem lineBreak_normalizes (b : Bool) : Normalizes (lineBreak b) (lineBreak b) :=
  .of_plain (by cases b <;> decide)

theorem Member.category_mapValues (f : Expr → Expr) (m : Member) :
    (m.mapValues f).category = m.category := by
  cases m <;> rfl

section Classes

variable {layout : Layout} {margin : String} (hindent : '\r' ∉ layout.indent.toList)
  (hmargin : '\r' ∉ margin.toList)
include hindent hmargin

/-- Members keep their spacing, since it depends on the categories and not on the values. -/
theorem MemberStmt.normalizes {ms : List MemberStmt} (hms : ∀ m ∈ ms, m.IsPlain)
    (previous previous' : Option MemberStmt)
    (hprevious : previous.map (·.category) = previous'.map (·.category)) :
    Normalizes (listText layout margin previous ms)
      (listText layout margin previous' (ms.map (·.mapValues Expr.normalized))) := by
  induction ms generalizing previous previous' with
  | nil => exact .of_plain (by simp [listText])
  | cons m ms ih =>
    obtain ⟨htrivia, hmember⟩ := hms m (by simp)
    have hcategory : (m.mapValues Expr.normalized).category = m.category :=
      m.member.category_mapValues _
    have hgap : usualGap previous' (m.mapValues Expr.normalized) = usualGap previous m := by
      cases previous <;> cases previous' <;> simp at hprevious
      · rfl
      · simp [usualGap, hcategory, hprevious]
    have hrest := ih (fun n hn => hms n (by simp [hn])) (some m)
      (some (m.mapValues Expr.normalized))
      (by simp [hcategory])
    rw [List.map_cons, listText, listText, textAfter, textAfter, hgap]
    exact (((((lineBreak_normalizes _).append (htrivia.normalizes margin).1).append
      (.of_plain hmargin)).append (Member.normalizes hindent hmargin hmember)).append
      (htrivia.normalizes margin).2).append hrest

/-- A plain class is normalized by normalizing its values. -/
theorem ClassDecl.normalizes {c : ClassDecl} (hc : c.IsPlain) :
    Normalizes (c.text layout margin) ((c.mapValues Expr.normalized).text layout margin) := by
  have hheader : Normalizes c.headerText c.headerText := by
    have hmodifiers : Normalizes (String.join (c.modifiers.map fun m => m.keyword ++ " "))
        (String.join (c.modifiers.map fun m => m.keyword ++ " ")) :=
      .join fun m _ => .of_plain (by cases m <;> decide)
    have hparent : Normalizes (c.parent.elim "" (" extends " ++ ·))
        (c.parent.elim "" (" extends " ++ ·)) := by
      refine .of_plain ?_
      cases hp : c.parent with
      | none => simp
      | some name => simp [Expr.not_mem_of_isName (hc.parent name hp)]
    have hinterfaces : Normalizes (if c.interfaces.isEmpty then "" else " implements " ++
        commaList c.interfaces)
        (if c.interfaces.isEmpty then "" else " implements " ++ commaList c.interfaces) := by
      split
      · exact .of_plain (by decide)
      · have hnames : Normalizes (commaList (c.interfaces.map id))
            (commaList (c.interfaces.map id)) :=
          .commaList fun name hname => Expr.normalizes_name (hc.interfaces name hname)
        rw [List.map_id] at hnames
        exact Normalizes.append (.of_plain (by decide)) hnames
    exact (((hmodifiers.append (.of_plain (by decide))).append
      (Expr.normalizes_name hc.name)).append
      hparent).append hinterfaces
  have hinner : '\r' ∉ (margin ++ layout.indent).toList := by simp [hindent, hmargin]
  have hmembers := MemberStmt.normalizes hindent hinner hc.members none none rfl
  have hclosing : Normalizes (closingText (margin ++ layout.indent) c.closingComments)
      (closingText (margin ++ layout.indent) c.closingComments) := by
    rw [hc.closingComments]
    exact .of_plain (by simp [closingText, Expr.linesAt])
  exact (((((((hheader.append (.of_plain (by decide))).append (.of_plain hmargin)).append
    (.of_plain (by decide))).append hmembers).append hclosing).append
      (.of_plain (by decide))).append
    (.of_plain hmargin)).append (.of_plain (by decide)) |>.append (hc.trivia.normalizes margin).2

end Classes

section Plain

theorem ConstantGroup.IsPlain.normalized {g : ConstantGroup} (hg : g.IsPlain) :
    (g.mapValues Expr.normalized).IsPlain where
  modifiers := hg.modifiers
  type := hg.type
  nonempty := by simpa [mapValues] using hg.nonempty
  items := by
    intro c hc
    obtain ⟨c, hmem, rfl⟩ := List.mem_map.1 hc
    exact ⟨(hg.items c hmem).name, (hg.items c hmem).value.normalized⟩

theorem default_normalized {value : Option Expr} (h : ∀ e ∈ value, e.IsLiteral) :
    ∀ e ∈ value.map Expr.normalized, e.IsLiteral := by
  intro e he
  obtain ⟨e, hmem, rfl⟩ := Option.map_eq_some_iff.1 he
  exact (h e hmem).normalized

theorem FieldGroup.IsPlain.normalized {g : FieldGroup} (hg : g.IsPlain) :
    (g.mapValues Expr.normalized).IsPlain where
  modifiers := hg.modifiers
  marked := hg.marked
  type := hg.type
  nonempty := by simpa [mapValues] using hg.nonempty
  items := by
    intro f hf
    obtain ⟨f, hmem, rfl⟩ := List.mem_map.1 hf
    exact ⟨(hg.items f hmem).name, default_normalized (hg.items f hmem).default⟩

theorem Routine.IsPlain.normalized {r : Routine} (hr : r.IsPlain) :
    (r.mapValues Expr.normalized).IsPlain where
  modifiers := hr.modifiers
  name := hr.name
  params := by
    intro p hp
    obtain ⟨p, hmem, rfl⟩ := List.mem_map.1 hp
    obtain ⟨hattributes, hmodifiers, htype, hname, hdefault⟩ := hr.params p hmem
    exact ⟨hattributes, hmodifiers, htype, hname, default_normalized hdefault⟩
  returnType := hr.returnType
  body := hr.body

theorem ClassDecl.IsPlain.normalized {c : ClassDecl} (hc : c.IsPlain) :
    (c.mapValues Expr.normalized).IsPlain where
  trivia := hc.trivia
  name := hc.name
  parent := hc.parent
  interfaces := hc.interfaces
  members := by
    intro m hm
    obtain ⟨⟨trivia, member⟩, hmem, rfl⟩ := List.mem_map.1 hm
    obtain ⟨htrivia, hmember⟩ := hc.members _ hmem
    refine ⟨htrivia, ?_⟩
    cases member with
    | mixins m => exact hmember
    | constants g => exact ConstantGroup.IsPlain.normalized hmember
    | fields g => exact FieldGroup.IsPlain.normalized hmember
    | routine r => exact Routine.IsPlain.normalized hmember
  closingComments := hc.closingComments

end Plain

end ClassEdit
