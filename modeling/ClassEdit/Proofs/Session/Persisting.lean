import ClassEdit.Proofs.File.Reading
import ClassEdit.Proofs.Session.Draining

/-!
Persisting on a storage whose writes may fail. There are three ways for it to fail: without a target
nothing happens at all, an edit that cannot be built keeps the storage as it is, and after a failed
write the edits are applied and can still be written. The source and the path of a session are those
that it was opened on, whatever was persisted where. Main statement: in every state that a session
can come to, what a persist writes is the fold of the edits that waited, then or at any later time.
-/

namespace ClassEdit

namespace Session

/-- Sessions as they are opened, on a text or on what is stored under a path. -/
inductive Opened (source : String) : Option String → Session → Prop where
  | text {config : SessionConfig} {s : Session} (h : ofSource source config = .ok s) :
      Opened source none s
  | file {m : FileMap} {path : String} {config : SessionConfig} {s : Session}
      (hstored : m.texts path = some source) (h : load m path config = .ok s) :
      Opened source (some path) s

variable {s : Session} {source : String} {path : Option String}

theorem ofSource_eq_ok {config : SessionConfig} (h : ofSource source config = .ok s) :
    s.source = source ∧ s.path = none := by
  unfold ofSource at h
  split at h
  next =>
    cases h
    exact ⟨rfl, rfl⟩
  next => cases h

/-- An opened session has the text that it was opened on, and the path if there was one. -/
theorem Opened.source_path (h : Opened source path s) : s.source = source ∧ s.path = path := by
  cases h with
  | text h => exact ofSource_eq_ok h
  | @file m path config _ hstored h =>
      have hread : Storage.read m path = .ok source := by
        change m.read path = _
        rw [FileMap.read, hstored]
      simp only [load, hread] at h
      cases hopen : ofSource source config with
      | error e =>
          rw [hopen] at h
          cases h
      | ok t =>
          rw [hopen] at h
          cases h
          exact ⟨(ofSource_eq_ok hopen).1, rfl⟩

theorem persist_of_noPath (h : s.path = none) (m : FileMap) :
    s.persist m none = (s, m, .error .noPath) := by
  rw [persist, h]
  rfl

theorem persist_of_render_error {s' : Session} {target : String} {e : EditError}
    (htarget : path.or s.path = some target) (h : s.render = (s', .error e)) (m : FileMap) :
    s.persist m path = (s', m, .error (.edit e)) := by
  rw [persist, htarget, h]

/-- Where a session can be rendered, its text is written, unless the write fails. -/
theorem persist_of_render {s' : Session} {target text : String}
    (htarget : path.or s.path = some target) (h : s.render = (s', .ok text)) (m : FileMap) :
    s.persist m path = match m.fault? target text with
      | none => (s', m.put target text, .ok target)
      | some e => (s', m, .error (.write target e)) := by
  have hwrite : Storage.write m target text = m.write target text := rfl
  rw [persist, htarget, h]
  simp only [hwrite, FileMap.write]
  cases m.fault? target text <;> rfl

theorem snapshot_eq (s : Session) (m : FileMap) (target : String) :
    s.snapshot m target = match m.fault? target s.source with
      | none => .ok (m.put target s.source)
      | some e => .error (.write target e) := by
  change (m.write target s.source).mapError (SessionError.write target) = _
  unfold FileMap.write
  cases m.fault? target s.source <;> rfl

/-- With nothing pending, calls that queue no edit do not change what is written. -/
theorem persist_run_of_quiet {calls : List (Call FileMap)} (hpending : s.pending = [])
    (hquiet : ∀ call ∈ calls, call.queued? = none) (m : FileMap) {target : String}
    (htarget : path.or s.path = some target) :
    let later := Call.run s m calls
    later.1.persist later.2 path = match later.2.fault? target s.text with
      | none => (later.1, later.2.put target s.text, .ok target)
      | some e => (later.1, later.2, .error (.write target e)) := by
  intro later
  obtain ⟨r, hsame, -⟩ := @Call.run_of_quiet FileMap _ s m calls hpending hquiet
  have hempty : later.1.pending = [] := by
    rw [hsame]
    exact hpending
  have htext : later.1.text = s.text := by
    rw [hsame]
    rfl
  have hpath : later.1.path = s.path := by rw [hsame]
  have hrender := render_of_empty hempty
  rw [htext] at hrender
  exact persist_of_render (by rwa [hpath]) hrender later.2

/-- Whatever happened to a session since it was opened, persisting and the snapshot lose
nothing of it: neither the edits that wait, nor those that could not be written, nor the text
that it was opened on. The edits that wait are applied in order, up to one that cannot be
built, and then nothing is written. Else the text of the file that they come to is written, and
after a write that fails it is what the next persist writes, whatever is called between, as
long as no edit is queued. -/
theorem persist_run {s₀ : Session} (hopened : Opened source path s₀) (m₀ : FileMap)
    (calls : List (Call FileMap)) (action : Descriptor → Action) :
    let s := (Call.run s₀ m₀ calls).1
    let m := (Call.run s₀ m₀ calls).2
    (s.path = none → s.persist m none = (s, m, .error .noPath)) ∧
    (∀ (target? : Option String) (target : String) (ds es : List Descriptor) (d : Descriptor)
        (e : EditError), target?.or s.path = some target → s.pending = ds ++ d :: es →
      (∀ x ∈ ds, x.instantiate s.config.registry = .ok (action x)) →
      d.instantiate s.config.registry = .error e →
        s.persist m target? = (s.replayed action ds, m, .error (.edit e))) ∧
    (∀ (target? : Option String) (target : String), target?.or s.path = some target →
      (∀ d ∈ s.pending, d.instantiate s.config.registry = .ok (action d)) →
        let s' := s.replayed action s.pending
        (s.persist m target? = match m.fault? target s'.text with
          | none => (s', m.put target s'.text, .ok target)
          | some e => (s', m, .error (.write target e))) ∧
        ∀ (m' : FileMap) (calls' : List (Call FileMap)), (∀ call ∈ calls', call.queued? = none) →
          let later := Call.run s' m' calls'
          ∀ (path' : Option String) (target' : String), path'.or s.path = some target' →
            later.1.persist later.2 path' = match later.2.fault? target' s'.text with
              | none => (later.1, later.2.put target' s'.text, .ok target')
              | some e => (later.1, later.2, .error (.write target' e))) ∧
    s.path = path ∧
    ∀ target, s.snapshot m target = match m.fault? target source with
      | none => .ok (m.put target source)
      | some e => .error (.write target e) := by
  intro s m
  obtain ⟨hsource, hpath⟩ := hopened.source_path
  obtain ⟨hsource', hpath'⟩ := Call.run_source_path s₀ m₀ calls
  refine ⟨?_, ?_, ?_, hpath'.trans hpath, ?_⟩
  · exact fun hnone => persist_of_noPath hnone m
  · intro target? target ds es d e htarget hpending hds hd
    exact persist_of_render_error htarget (render_of_error hpending hds hd) m
  · intro target? target htarget hall s'
    refine ⟨persist_of_render htarget (render_of_instantiate hall) m, ?_⟩
    intro m' calls' hquiet later path' target' htarget'
    exact persist_run_of_quiet (s := s') rfl hquiet m' htarget'
  · intro target
    rw [← hsource, ← hsource']
    exact s.snapshot_eq m target

/-- A session on a namespace with nothing in it. -/
def namespaced (name : String) : Session :=
  ⟨⟨none, [.namespace_ ⟨⟨[], [], some true, none⟩, some name, false, [], []⟩], [], none⟩,
    "<?php\n\nnamespace N;\n", none, [], [],
    SessionConfig.standard.forSource "<?php\n\nnamespace N;\n"⟩

/-- A namespace that is renamed, with a storage on which one path cannot be written: without a
path, with an edit of no known kind behind the renaming, with a write that fails, and with one to
another path after it. -/
theorem persist_run_namespace :
    let m₀ : FileMap :=
      ⟨fun _ => none, fun path _ => if path = "full" then some .nameTooLong else none⟩
    let rename : Descriptor :=
      ⟨"change_namespace", .supplied [("namespace", some (.string "M"))], .builtin⟩
    let unknown : Descriptor := ⟨"add_mixins", .supplied [], .builtin⟩
    let action : Descriptor → Action := fun _ => (Operation.changeNamespace "M").apply
    let s := (namespaced "N").enqueue rename
    let s' := s.replayed action [rename]
    Opened "<?php\n\nnamespace N;\n" none (namespaced "N") ∧
      s.persist m₀ none = (s, m₀, .error .noPath) ∧
      (s.enqueue unknown).persist m₀ (some "free") =
        ((s.enqueue unknown).replayed action [rename], m₀,
          .error (.edit (.unknownKind "add_mixins"))) ∧
      s.persist m₀ (some "full") = (s', m₀, .error (.write "full" .nameTooLong)) ∧
      s'.persist m₀ (some "free") = (s', m₀.put "free" "<?php\n\nnamespace M;\n", .ok "free") ∧
      s.snapshot m₀ "free" = .ok (m₀.put "free" "<?php\n\nnamespace N;\n") := by
  intro m₀ rename unknown action s s'
  have hopened : Opened "<?php\n\nnamespace N;\n" none (namespaced "N") := by
    refine @Opened.text _ .standard _ ?_
    rw [ofSource, SourceFile.ofSource_namespace]
    rfl
  have hrename : rename.instantiate s.config.registry = .ok (action rename) := rfl
  have htext : s'.text = "<?php\n\nnamespace M;\n" := by decide +kernel
  have hrun := persist_run hopened m₀ [.enqueue rename] action
  have hunknown := (persist_run hopened m₀ [.enqueue rename, .enqueue unknown] action).2.1
    (some "free") "free" [rename] [] unknown (.unknownKind "add_mixins") rfl rfl
    (List.forall_mem_singleton.2 hrename) rfl
  obtain ⟨hnoPath, -, hbuilt, -, hsnapshot⟩ := hrun
  obtain ⟨hfull, hlater⟩ := hbuilt (some "full") "full" rfl (List.forall_mem_singleton.2 hrename)
  have hfree := hlater m₀ [] (List.forall_mem_nil _) (some "free") "free" rfl
  refine ⟨hopened, hnoPath rfl, hunknown, hfull, ?_, hsnapshot "free"⟩
  rw [← htext]
  exact hfree

end Session

end ClassEdit
