import ClassEdit.Proofs.Session.Calls
import ClassEdit.Storage.FileMap

/-!
Draining as a fold. What a session comes to is told by the edits that were queued, in order, and
not by when they were drained: as long as every edit can be built, its file is the fold of the
edits and its history has one report for each. An edit that cannot be built ends a drain and takes
those behind it with it.
-/

namespace ClassEdit

section Replay

variable (action : Descriptor → Action)

/-- The file after the actions of descriptors, in order. -/
def replay (ds : List Descriptor) (f : SourceFile) : SourceFile :=
  ds.foldl (fun f d => (action d f).1) f

/-- What each action did, on what those before it left. -/
def reports (ds : List Descriptor) (f : SourceFile) : List Report :=
  ds.mapIdx fun i d => ⟨d.kind, (action d (replay action (ds.take i) f)).2⟩

theorem replay_append (ds es : List Descriptor) (f : SourceFile) :
    replay action (ds ++ es) f = replay action es (replay action ds f) :=
  List.foldl_append

theorem reports_cons (d : Descriptor) (ds : List Descriptor) (f : SourceFile) :
    reports action (d :: ds) f = ⟨d.kind, (action d f).2⟩ :: reports action ds (action d f).1 := by
  rw [reports, List.mapIdx_cons]
  rfl

theorem reports_append (ds es : List Descriptor) (f : SourceFile) :
    reports action (ds ++ es) f = reports action ds f ++ reports action es
      (replay action ds f) := by
  induction ds generalizing f with
  | nil => rfl
  | cons d ds ih => rw [List.cons_append, reports_cons, reports_cons, ih, List.cons_append]; rfl

variable {action} {r : Registry} {ds : List Descriptor}

/-- Descriptors that can be built are applied one by one. -/
theorem drain_of_instantiate (h : ∀ d ∈ ds, d.instantiate r = .ok (action d)) (f : SourceFile) :
    drain r ds f = ⟨replay action ds f, reports action ds f, none⟩ := by
  induction ds generalizing f with
  | nil => rfl
  | cons d ds ih =>
      obtain ⟨hd, hds⟩ := List.forall_mem_cons.1 h
      rw [drain, hd, reports_cons]
      simp only [ih hds]
      rfl

/-- The first descriptor that cannot be built ends the drain. -/
theorem drain_of_error (h : ∀ d ∈ ds, d.instantiate r = .ok (action d))
    {d : Descriptor} {e : EditError} (hd : d.instantiate r = .error e) (es : List Descriptor)
    (f : SourceFile) :
    drain r (ds ++ d :: es) f = ⟨replay action ds f, reports action ds f, some e⟩ := by
  rw [drain_append, drain_of_instantiate h]
  simp [drain, hd]

end Replay

namespace Session

variable {s : Session} {action : Descriptor → Action}

/-- The session with the descriptors applied, and with nothing pending. -/
def replayed (action : Descriptor → Action) (ds : List Descriptor) (s : Session) : Session :=
  { s with
    file := replay action ds s.file
    pending := []
    history := s.history ++ reports action ds s.file }

theorem replayed_replayed (ds es : List Descriptor) (s : Session) :
    (s.replayed action ds).replayed action es = s.replayed action (ds ++ es) := by
  simp only [replayed, replay_append, reports_append, List.append_assoc]

theorem applyPending_of_instantiate
    (h : ∀ d ∈ s.pending, d.instantiate s.config.registry = .ok (action d)) :
    s.applyPending = (s.replayed action s.pending, .ok (reports action s.pending s.file)) := by
  rw [applyPending, drain_of_instantiate h]
  rfl

theorem render_of_instantiate
    (h : ∀ d ∈ s.pending, d.instantiate s.config.registry = .ok (action d)) :
    s.render = (s.replayed action s.pending, .ok (s.replayed action s.pending).text) := by
  rw [render, applyPending_of_instantiate h]
  rfl

theorem applyPending_of_error {ds es : List Descriptor} {d : Descriptor} {e : EditError}
    (hpending : s.pending = ds ++ d :: es)
    (h : ∀ x ∈ ds, x.instantiate s.config.registry = .ok (action x))
    (hd : d.instantiate s.config.registry = .error e) :
    s.applyPending = (s.replayed action ds, .error e) := by
  rw [applyPending, hpending, drain_of_error h hd]
  rfl

theorem render_of_error {ds es : List Descriptor} {d : Descriptor} {e : EditError}
    (hpending : s.pending = ds ++ d :: es)
    (h : ∀ x ∈ ds, x.instantiate s.config.registry = .ok (action x))
    (hd : d.instantiate s.config.registry = .error e) :
    s.render = (s.replayed action ds, .error e) := by
  rw [render, applyPending_of_error hpending h hd]
  rfl

namespace Call

variable {σ : Type} [Storage σ] {storage : σ}

/-- Whatever was drained on the way, to apply what is left applies all that was queued. -/
theorem replayed_run {calls : List (Call σ)} (hregisters : ∀ call ∈ calls, call.registers = false)
    (h : ∀ d ∈ s.pending ++ calls.filterMap queued?, d.instantiate s.config.registry =
      .ok (action d)) :
    (∀ d ∈ (run s storage calls).1.pending,
        d.instantiate (run s storage calls).1.config.registry = .ok (action d)) ∧
      (run s storage calls).1.replayed action (run s storage calls).1.pending =
        s.replayed action (s.pending ++ calls.filterMap queued?) := by
  induction calls generalizing s storage with
  | nil => simpa [run] using h
  | cons call calls ih =>
      obtain ⟨hcall, hcalls⟩ := List.forall_mem_cons.1 hregisters
      rw [run_cons]
      cases hqueued : call.queued? with
      | some d =>
          obtain rfl := eq_enqueue hqueued
          have hpending : (s.enqueue d).pending ++ calls.filterMap queued? =
              s.pending ++ (enqueue d :: calls).filterMap queued? := by
            simp [Session.enqueue, queued?]
          rw [← hpending] at h ⊢
          exact ih hcalls h
      | none =>
          rw [List.filterMap_cons_none hqueued] at h ⊢
          rcases step_eq_or_drained hqueued hcall s storage with hsame | hdrained
          · rw [hsame]
            exact ih hcalls h
          · obtain ⟨hpending, hcalled⟩ := List.forall_mem_append.1 h
            have hstep : (call.step s storage).1 = s.replayed action s.pending := by
              rw [hdrained, applyPending_of_instantiate hpending]
            have hrun := @ih (s.replayed action s.pending) (call.step s storage).2 hcalls hcalled
            rw [hstep]
            rwa [replayed_replayed] at hrun

end Call

/-- Nothing is lost or done twice by draining early: at the end the file is the fold of all edits
that were queued, in order, with one report for each, and it is rendered the same until another edit
is queued. An edit that cannot be built leaves the fold of those before it, and an empty queue. -/
theorem applyPending_run {σ : Type} [Storage σ] (s : Session) (action : Descriptor → Action) :
    (∀ (storage : σ) (calls : List (Call σ)),
      let ds := s.pending ++ calls.filterMap Call.queued?
      let t := (Call.run s storage calls).1
      (∀ call ∈ calls, call.registers = false) →
      (∀ d ∈ ds, d.instantiate s.config.registry = .ok (action d)) →
        t.applyPending.1 = s.replayed action ds ∧
        (∃ last, t.applyPending.2 = .ok last) ∧
        t.render = (s.replayed action ds, .ok (s.replayed action ds).text) ∧
        ∀ (storage : σ) (calls : List (Call σ)),
          (∀ call ∈ calls, call.queued? = none ∧ call.registers = false) →
            (Call.run t.render.1 storage calls).1.render = t.render) ∧
    ∀ (ds es : List Descriptor) (d : Descriptor) (e : EditError),
      s.pending = ds ++ d :: es →
      (∀ x ∈ ds, x.instantiate s.config.registry = .ok (action x)) →
      d.instantiate s.config.registry = .error e →
        s.applyPending = (s.replayed action ds, .error e) ∧
          s.render = (s.replayed action ds, .error e) := by
  refine ⟨?_, fun ds es d e hpending h hd => ?_⟩
  · intro storage calls ds t hregisters h
    obtain ⟨hleft, hrun⟩ := Call.replayed_run hregisters h
    have hdrain := applyPending_of_instantiate hleft
    have hrender := render_of_instantiate hleft
    rw [hrun] at hdrain hrender
    refine ⟨congrArg Prod.fst hdrain, ⟨_, congrArg Prod.snd hdrain⟩, hrender, ?_⟩
    intro storage' calls' hquiet
    rw [hrender]
    have hpending : (s.replayed action ds).pending = [] := rfl
    obtain ⟨r, hsame, hr⟩ := Call.run_of_quiet hpending fun call hcall => (hquiet call hcall).1
    obtain rfl := hr fun call hcall => (hquiet call hcall).2
    rw [hsame]
    exact render_of_empty hpending
  · exact ⟨applyPending_of_error hpending h hd, render_of_error hpending h hd⟩

/-- A mixin that is added twice with a drain between, and one behind which an edit of no known kind
waits. -/
theorem applyPending_run_mixin :
    let f : SourceFile := ⟨none, [.class_ ⟨.empty, [], "A", none, [], [], []⟩], [], none⟩
    let s : Session := ⟨f, "", none, [], [], .standard⟩
    let add : Descriptor := ⟨"add_mixin", .supplied [("mixin", some (.string "M"))], .builtin⟩
    let unknown : Descriptor := ⟨"add_mixins", .supplied [], .builtin⟩
    let action : Descriptor → Action := fun _ => (Operation.addMixin "M").apply
    add.instantiate s.config.registry = .ok (action add) ∧
      unknown.instantiate s.config.registry = .error (.unknownKind "add_mixins") ∧
      (Call.run s (⟨fun _ => none, fun _ _ => none⟩ : FileMap)
        [.enqueue add, .render, .enqueue add]).1.applyPending.1 = s.replayed action [add, add] ∧
      { s with pending := [add, unknown, add] }.render =
        ({ s with pending := [add, unknown, add] }.replayed action [add],
          .error (.unknownKind "add_mixins")) := by
  intro f s add unknown action
  have hadd : add.instantiate s.config.registry = .ok (action add) := rfl
  have hunknown : unknown.instantiate s.config.registry = .error (.unknownKind "add_mixins") := rfl
  let storage : FileMap := ⟨fun _ => none, fun _ _ => none⟩
  let waiting : Session := { s with pending := [add, unknown, add] }
  have hrun := (applyPending_run s action).1 storage [.enqueue add, .render, .enqueue add]
    (by simp [Call.registers]) (by simp [s, Call.queued?, hadd])
  have hfail := (@applyPending_run FileMap _ waiting action).2 [add] [add] unknown _ rfl
    (by simpa using hadd) hunknown
  exact ⟨hadd, hunknown, hrun.1, hfail.2⟩

end Session

end ClassEdit
