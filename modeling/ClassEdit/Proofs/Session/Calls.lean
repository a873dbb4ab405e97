import ClassEdit.Session.Call

/-!
What single calls do to a session. Persisting ends in one of four ways. A call that neither queues
an edit nor registers a kind drains the session or leaves it as it is, and no call changes what
the session was opened on.
-/

namespace ClassEdit

namespace Session

variable {σ : Type} [Storage σ] {s : Session} {storage : σ}

/-- How persisting a session to a path can end. -/
inductive Persisted (s : Session) (storage : σ) (path : Option String) :
    Session × σ × Except SessionError String → Prop where
  | noPath (hpath : path.or s.path = none) : Persisted s storage path (s, storage, .error .noPath)
  | notBuilt {target : String} {e : EditError} (htarget : path.or s.path = some target)
      (hdrain : s.applyPending.2 = .error e) :
      Persisted s storage path (s.applyPending.1, storage, .error (.edit e))
  | notWritten {target : String} {reports : List Report} {e : StorageError}
      (htarget : path.or s.path = some target) (hdrain : s.applyPending.2 = .ok reports)
      (hwrite : Storage.write storage target s.applyPending.1.text = .error e) :
      Persisted s storage path (s.applyPending.1, storage, .error (.write target e))
  | written {target : String} {reports : List Report} {storage' : σ}
      (htarget : path.or s.path = some target) (hdrain : s.applyPending.2 = .ok reports)
      (hwrite : Storage.write storage target s.applyPending.1.text = .ok storage') :
      Persisted s storage path (s.applyPending.1, storage', .ok target)

/-- Persisting ends in one of the four ways, and it is told which. -/
theorem persisted_persist (s : Session) (storage : σ) (path : Option String) :
    Persisted s storage path (s.persist storage path) := by
  unfold persist
  cases htarget : path.or s.path with
  | none => exact .noPath htarget
  | some target =>
      have hrender : s.render =
          (s.applyPending.1, s.applyPending.2.map fun _ => s.applyPending.1.text) := rfl
      cases hdrain : s.applyPending.2 with
      | error e =>
          simp only [hrender, hdrain]
          exact .notBuilt htarget hdrain
      | ok reports =>
          simp only [hrender, hdrain, Except.map]
          cases hwrite : Storage.write storage target s.applyPending.1.text with
          | error e => exact .notWritten htarget hdrain hwrite
          | ok storage' => exact .written htarget hdrain hwrite

namespace Call

theorem run_cons (call : Call σ) (calls : List (Call σ)) :
    run s storage (call :: calls) = run (call.step s storage).1 (call.step s storage).2 calls :=
  rfl

omit [Storage σ] in
theorem eq_enqueue {call : Call σ} {d : Descriptor} (h : call.queued? = some d) :
    call = enqueue d := by
  cases call with
  | enqueue d' => exact congrArg enqueue (Option.some.inj h)
  | _ => cases h

/-- A call that neither queues nor registers drains the session or leaves it as it is. -/
theorem step_eq_or_drained {call : Call σ} (hqueued : call.queued? = none)
    (hregisters : call.registers = false) (s : Session) (storage : σ) :
    (call.step s storage).1 = s ∨ (call.step s storage).1 = s.applyPending.1 := by
  cases call with
  | enqueue d => cases hqueued
  | register kind c => cases hregisters
  | applyPending => exact .inr rfl
  | render => exact .inr rfl
  | persist path =>
      change (s.persist storage path).1 = s ∨ (s.persist storage path).1 = s.applyPending.1
      have hpersisted := persisted_persist s storage path
      generalize s.persist storage path = result at hpersisted ⊢
      cases hpersisted with
      | noPath => exact .inl rfl
      | _ => exact .inr rfl
  | snapshot path => exact .inl rfl
  | outside change => exact .inl rfl

/-- As long as nothing is queued, a session with nothing pending stays as it is but for its
kinds. -/
theorem run_of_quiet {calls : List (Call σ)} (hpending : s.pending = [])
    (hquiet : ∀ call ∈ calls, call.queued? = none) :
    ∃ r, (run s storage calls).1 = { s with config := s.config.withRegistry r } ∧
      ((∀ call ∈ calls, call.registers = false) → r = s.config.registry) := by
  induction calls generalizing s storage with
  | nil => exact ⟨_, rfl, fun _ => rfl⟩
  | cons call calls ih =>
      obtain ⟨hqueued, hcalls⟩ := List.forall_mem_cons.1 hquiet
      rw [run_cons]
      cases hregisters : call.registers with
      | true =>
          cases call with
          | register kind c =>
              obtain ⟨r, hrun, -⟩ := @ih (s.register kind c) storage hpending hcalls
              exact ⟨r, hrun, fun hall => absurd (hall _ List.mem_cons_self) nofun⟩
          | _ => cases hregisters
      | false =>
          have hstep : (call.step s storage).1 = s := by
            rcases step_eq_or_drained hqueued hregisters s storage with hsame | hdrained
            · exact hsame
            · rw [hdrained, applyPending_of_empty hpending]
          rw [hstep]
          obtain ⟨r, hrun, hr⟩ := @ih s (call.step s storage).2 hpending hcalls
          exact ⟨r, hrun, fun hall => hr fun call hcall => hall call (List.mem_cons_of_mem _ hcall)⟩

/-- A call changes neither the source of a session nor its path. -/
theorem step_source_path (call : Call σ) (s : Session) (storage : σ) :
    (call.step s storage).1.source = s.source ∧ (call.step s storage).1.path = s.path := by
  cases hqueued : call.queued? with
  | some d =>
      obtain rfl := eq_enqueue hqueued
      exact ⟨rfl, rfl⟩
  | none =>
      cases hregisters : call.registers with
      | true =>
          cases call with
          | register kind c => exact ⟨rfl, rfl⟩
          | _ => cases hregisters
      | false =>
          rcases step_eq_or_drained hqueued hregisters s storage with hsame | hdrained
          · rw [hsame]
            exact ⟨rfl, rfl⟩
          · rw [hdrained]
            exact ⟨rfl, rfl⟩

/-- Whatever is called, a session keeps what it was opened on. -/
theorem run_source_path (s : Session) (storage : σ) (calls : List (Call σ)) :
    (run s storage calls).1.source = s.source ∧ (run s storage calls).1.path = s.path := by
  induction calls generalizing s storage with
  | nil => exact ⟨rfl, rfl⟩
  | cons call calls ih =>
      obtain ⟨hsource, hpath⟩ := step_source_path call s storage
      obtain ⟨hsources, hpaths⟩ := ih (call.step s storage).1 (call.step s storage).2
      exact ⟨hsources.trans hsource, hpaths.trans hpath⟩

end Call

end Session

end ClassEdit
