import OdinSyntax.Workspace.Service

/-!
# Outcomes of requests

What a single request to a registry is answered with and does, case by case. The invariants of runs
are about the handles that were given and the sessions that are open, and need to know of a request
only what becomes of those.
-/

namespace OdinSyntax.Service

variable {α : Type}

/-! ## Handles that were given -/

theorem lt_length_of_handle? {service : Service α} {call : Nat} {handle : Handle}
    (h : service.handle? call = some handle) : call < service.answers.length := by
  refine Nat.lt_of_not_le fun behind => ?_
  simp [handle?, List.getElem?_eq_none behind] at h

/-- Earlier requests keep their handles. -/
theorem handle?_serve_of_lt {service : Service α} {call : Nat} (request : Request α)
    (h : call < service.answers.length) :
    (service.serve request).handle? call = service.handle? call := by
  rw [handle?, answers_serve, List.getElem?_append_left h]
  rfl

@[simp] theorem handle?_serve_length (service : Service α) (request : Request α) :
    (service.serve request).handle? service.answers.length =
      (service.answer request).1.handle? := by
  simp [handle?]

/-- A handle was given by an earlier request, or it is the answer to the last one. -/
theorem handle?_serve_cases {service : Service α} {request : Request α} {call : Nat}
    {handle : Handle} (h : (service.serve request).handle? call = some handle) :
    (call < service.answers.length ∧ service.handle? call = some handle) ∨
      (call = service.answers.length ∧ (service.answer request).1.handle? = some handle) := by
  have inside : call < service.answers.length + 1 := by
    simpa using lt_length_of_handle? h
  rcases Nat.lt_or_eq_of_le (Nat.le_of_lt_succ inside) with before | rfl
  · exact .inl ⟨before, handle?_serve_of_lt request before ▸ h⟩
  · exact .inr ⟨rfl, handle?_serve_length service request ▸ h⟩

/-! ## One request -/

/-- What a request is answered with, and the registry that it leaves. -/
inductive Outcome (service : Service α) : Request α → Answer α → Registry α → Prop
  | refused {id type} (h : type ≠ .odin) :
    Outcome service (.acquire id type) (.session none) service.registry
  | shared {id handle} (h : service.registry.opened[id]? = some handle) :
    Outcome service (.acquire id .odin) (.session (some handle)) service.registry
  | opened {id} (h : service.registry.opened[id]? = none) :
    Outcome service (.acquire id .odin)
      (.session (some (service.registry.begin service.registry.painter).1))
      { (service.registry.begin service.registry.painter).2 with
        opened := service.registry.opened.insert id
          (service.registry.begin service.registry.painter).1 }
  | released {id} :
    Outcome service (.release id) (.released (service.registry.release id).1)
      (service.registry.release id).2
  | begun {painter} :
    Outcome service (.begin painter) (.session (some (service.registry.begin painter).1))
      (service.registry.begin painter).2
  | listening {source label handle} (h : service.handle? source = some handle) :
    Outcome service (.listen source label) .listening (service.registry.listen handle label)
  | told {source edits handle} (h : service.handle? source = some handle) :
    Outcome service (.edit source edits) (.told (service.registry.deliveries handle edits))
      service.registry
  | painted {source snapshot region result}
    (h : (service.handle? source).bind (service.registry.paint? · snapshot region) = some result) :
    Outcome service (.paint source snapshot region) (.painted result) service.registry
  | unheard {source label} (h : service.handle? source = none) :
    Outcome service (.listen source label) .noSession service.registry
  | untold {source edits} (h : service.handle? source = none) :
    Outcome service (.edit source edits) .noSession service.registry
  | unpainted {source snapshot region}
    (h : (service.handle? source).bind (service.registry.paint? · snapshot region) = none) :
    Outcome service (.paint source snapshot region) .noSession service.registry

/-- Each request has one of these outcomes. -/
theorem outcome_answer (service : Service α) (request : Request α) :
    Outcome service request (service.answer request).1 (service.answer request).2 := by
  cases request with
  -- Of the requests only this one has three outcomes: whether the buffer is one of Odin is asked
  -- first, and then whether it has a session.
  | acquire id type =>
    by_cases odin : type = .odin
    · subst odin
      cases found : service.registry.opened[id]? with
      | some handle =>
        simp only [answer, Registry.acquire_of_some found]
        exact .shared found
      | none =>
        simp only [answer, Registry.acquire_of_none found]
        exact .opened found
    · simp only [answer, Registry.acquire_of_ne _ _ odin]
      exact .refused odin
  | release id => exact .released
  | begin painter => exact .begun
  | listen source label =>
    simp only [answer]
    split
    · exact .listening ‹_›
    · exact .unheard ‹_›
  | edit source edits =>
    simp only [answer]
    split
    · exact .told ‹_›
    · exact .untold ‹_›
  | paint source snapshot region =>
    simp only [answer]
    split
    · exact .painted ‹_›
    · exact .unpainted ‹_›

namespace Outcome

variable {service : Service α} {request : Request α} {answer : Answer α} {registry : Registry α}

/-- No request takes a session away. -/
theorem size_le (h : Outcome service request answer registry) :
    service.registry.sessions.size ≤ registry.sessions.size := by
  cases h <;> simp [Registry.begin, Registry.release]

/-- Only a buffer of another type is refused. -/
theorem handle?_eq_none_iff {id : BufferId} {type : FileType}
    (h : Outcome service (.acquire id type) answer registry) :
    answer.handle? = none ↔ type ≠ .odin := by
  cases h <;> simp_all [Answer.handle?]

/-- A request that asks for no session is answered with no handle. -/
theorem handle_cases {handle : Handle} (h : Outcome service request answer registry)
    (given : answer.handle? = some handle) :
    (∃ id, request = .acquire id .odin ∧ service.registry.opened[id]? = some handle) ∨
      (handle.index = service.registry.sessions.size ∧ handle.index < registry.sessions.size ∧
        ∀ id type, request = .acquire id type → service.registry.opened[id]? = none) := by
  cases h with
  | @shared id _ found =>
    obtain rfl := Option.some.inj given
    exact .inl ⟨id, rfl, found⟩
  | opened found =>
    obtain rfl := Option.some.inj given
    refine .inr ⟨rfl, by simp [Registry.begin], ?_⟩
    rintro id type ⟨⟩
    exact found
  | begun =>
    obtain rfl := Option.some.inj given
    exact .inr ⟨rfl, by simp [Registry.begin], nofun⟩
  | _ => simp [Answer.handle?] at given

/-- What is open after a request: what was open and is not released, and what is asked for. -/
theorem opened_iff (h : Outcome service request answer registry) (id : BufferId)
    (handle : Handle) :
    registry.opened[id]? = some handle ↔
      (service.registry.opened[id]? = some handle ∧ request ≠ .release id) ∨
        (answer.handle? = some handle ∧ ∃ type, request = .acquire id type) := by
  cases h with
  | @shared id' _ found =>
    by_cases same : id' = id
    · subst same
      simp [Answer.handle?, found]
    · simp [same]
  | @opened id' found =>
    by_cases same : id' = id
    · subst same
      simp [Answer.handle?, found]
    · simp [same, Registry.begin, Std.HashMap.getElem?_insert]
  | @released id' =>
    by_cases same : id' = id
    · simp [same, Registry.release, Answer.handle?]
    · simp [same, Registry.release, Std.HashMap.getElem?_erase]
  | _ => simp [Registry.begin, Registry.listen, Answer.handle?]

end Outcome

end OdinSyntax.Service
