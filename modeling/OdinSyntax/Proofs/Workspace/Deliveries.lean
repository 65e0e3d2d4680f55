import Mathlib.Data.List.Basic
import OdinSyntax.Proofs.Workspace.Identity

/-!
# Deliveries to listeners

Who is told of an edit is a matter of the requests before it: those listeners that were registered
with the session of the buffer, under whatever name of it. `registered` reads them off the requests,
and the listeners of each session of a registry are shown to be these, one request after the other.

Releases do not matter here. A session that is released keeps its listeners, and it is still told of
edits by those who have a name of it. The session that the buffer gets afterwards is another one.

Main statement: **`tellsListeners_run`**.
-/

namespace OdinSyntax

variable {α : Type}

namespace Registry

/-- The labels of the listeners of a session, in the order of registration. -/
def labels (registry : Registry α) (handle : Handle) : List α :=
  (registry.session? handle).elim [] fun session => session.listeners.labels.toList

/-- Each stale span is told to all listeners before the next one is. -/
theorem deliveries_eq (registry : Registry α) (handle : Handle) (edits : List Edit) :
    registry.deliveries handle edits =
      (staleSpans edits).flatMap fun span =>
        (registry.labels handle).map fun label => (label, span) := by
  rw [deliveries, labels]
  cases registry.session? handle with
  | some session => rfl
  | none => simp

/-- Nobody listens to a new session. -/
theorem labels_of_push {registry registry' : Registry α} {painter : Painter}
    (h : registry'.sessions = registry.sessions.push { painter }) (handle : Handle) :
    registry'.labels handle = registry.labels handle := by
  simp only [labels, session?, h, Array.getElem?_push]
  split
  · simp [*]
  · rfl

/-- Nobody listens to a session that was never begun. -/
theorem labels_of_size_le {registry : Registry α} {handle : Handle}
    (h : registry.sessions.size ≤ handle.index) : registry.labels handle = [] := by
  simp [labels, session?, Array.getElem?_eq_none h]

theorem labels_listen_self {registry : Registry α} {handle : Handle}
    (h : handle.index < registry.sessions.size) (label : α) :
    (registry.listen handle label).labels handle = registry.labels handle ++ [label] := by
  simp [labels, session?, listen, Array.getElem_modify_self, h]

theorem labels_listen_of_ne (registry : Registry α) {handle handle' : Handle}
    (h : handle ≠ handle') (label : α) :
    (registry.listen handle label).labels handle' = registry.labels handle' := by
  have index : handle.index ≠ handle'.index := mt Handle.eq_of_index_eq h
  simp [labels, session?, listen, Array.getElem?_modify, index]

end Registry

namespace Service

/-- The label that a request registers with the session of `handle`. A request is paired with its
number, and can use only those names that earlier requests gave. -/
def registers? (service : Service α) (handle : Handle) : Request α × Nat → Option α
  | (.listen source label, call) =>
    if source < call ∧ service.handle? source = some handle then some label else none
  | (.acquire .., _) | (.release _, _) | (.begin _, _) | (.edit .., _) | (.paint .., _) => none

/-- The labels that the requests register with the session of `handle`, in their order. -/
def registered (service : Service α) (requests : List (Request α)) (handle : Handle) : List α :=
  requests.zipIdx.filterMap (service.registers? handle)

/-- A request that was answered keeps what it registers. -/
theorem registers?_serve {service : Service α} (request request' : Request α) (handle : Handle)
    {call : Nat} (h : call ≤ service.answers.length) :
    (service.serve request).registers? handle (request', call) =
      service.registers? handle (request', call) := by
  cases request' with
  | listen source label =>
    simp only [registers?]
    refine if_congr (and_congr_right fun earlier => ?_) rfl rfl
    rw [handle?_serve_of_lt request (Nat.lt_of_lt_of_le earlier h)]
  | _ => rfl

/-- Only a listener of the session is registered with it. -/
theorem registers?_eq_none {service : Service α} {request : Request α} {handle : Handle}
    (h : ∀ source label, request = .listen source label → service.handle? source ≠ some handle)
    (call : Nat) : service.registers? handle (request, call) = none := by
  cases request with
  | listen source label => simp [registers?, h source label rfl]
  | _ => rfl

/-- What the next request registers comes behind what was registered before. -/
theorem registered_serve {service : Service α} {requests : List (Request α)}
    (h : service.answers.length = requests.length) (request : Request α) (handle : Handle) :
    (service.serve request).registered (requests ++ [request]) handle =
      service.registered requests handle ++
        (service.registers? handle (request, requests.length)).toList := by
  have earlier : requests.zipIdx.filterMap ((service.serve request).registers? handle) =
      service.registered requests handle := by
    refine List.filterMap_congr fun ⟨request', call⟩ mem => ?_
    have bound := (List.mem_zipIdx mem).2.1
    exact registers?_serve request request' handle (by omega)
  rw [registered, List.zipIdx_append, List.filterMap_append, earlier]
  have last := registers?_serve request request handle (Nat.le_of_eq h.symm)
  cases registers : service.registers? handle (request, requests.length) <;>
    simp [last, registers]

/-- Only the edits of a session are told to anyone. -/
theorem Outcome.deliveries_eq_nil {service : Service α} {request : Request α} {answer : Answer α}
    {registry : Registry α} (h : Outcome service request answer registry)
    (noEdit : ∀ source edits, request = .edit source edits → service.handle? source = none) :
    answer.deliveries = [] := by
  cases h with
  | @told source edits handle given => simp [noEdit source edits rfl] at given
  | _ => rfl

/-- A request changes the listeners of a session by what it registers. -/
theorem Outcome.labels_eq {service : Service α} {request : Request α} {answer : Answer α}
    {registry : Registry α} (h : Outcome service request answer registry)
    (lt_size : ∀ {call handle}, service.handle? call = some handle →
      handle.index < service.registry.sessions.size) (handle : Handle) :
    registry.labels handle =
      service.registry.labels handle ++
        (service.registers? handle (request, service.answers.length)).toList := by
  cases h with
  | @listening source label handle' given =>
    have earlier := lt_length_of_handle? given
    by_cases same : handle' = handle
    · subst same
      simp [registers?, earlier, given, Registry.labels_listen_self (lt_size given)]
    · simp [registers?, given, same, Registry.labels_listen_of_ne _ same]
  | @unheard source label missing => simp [registers?, missing]
  | opened found => rw [Registry.labels_of_push rfl]; exact (List.append_nil _).symm
  | begun => rw [Registry.labels_of_push rfl]; exact (List.append_nil _).symm
  | _ => exact (List.append_nil _).symm

/-- The listeners of a session are those that the requests registered. -/
theorem labels_run (painter : Painter) (requests : List (Request α)) (handle : Handle) :
    (run painter requests).registry.labels handle =
      (run painter requests).registered requests handle := by
  induction requests using List.reverseRecOn with
  | nil => simp [run, Registry.labels, Registry.session?, registered]
  | append_singleton requests request ih =>
    have traced := traced_run painter requests
    have outcome := outcome_answer (run painter requests) request
    rw [run_concat, registry_serve, outcome.labels_eq traced.lt_size, ih,
      registered_serve traced.length_eq, traced.length_eq]

/-- The request is answered with a session that has no other name, and nobody listens to it. -/
def BeginsUnheard (service : Service α) (request : Request α) : Prop :=
  ∃ handle, (service.answer request).1 = .session (some handle) ∧
    (∀ source, service.handle? source ≠ some handle) ∧
    (service.answer request).2.labels handle = []

/-- A session is new if its handle is the next one. -/
theorem Traced.beginsUnheard {requests : List (Request α)} {service : Service α}
    (h : Traced requests service) {request : Request α} (painter : Painter)
    (given : (service.answer request).1 = .session (some (service.registry.begin painter).1))
    (sessions : (service.answer request).2.sessions =
      (service.registry.begin painter).2.sessions) :
    service.BeginsUnheard request := by
  refine ⟨_, given, fun source earlier => ?_, ?_⟩
  · exact absurd (h.lt_size earlier) (Nat.lt_irrefl _)
  · rw [Registry.labels_of_push sessions]
    exact Registry.labels_of_size_le (Nat.le_refl _)

end Service

/-- Who is told of edits in a run. The parts speak of the end of the run, and each moment is the end
of a shorter run. -/
structure TellsListeners (painter : Painter) (requests : List (Request α)) : Prop where
  /-- For each edit in its order, each listener that was registered with the session under whatever
  name is told of the inserted text, in the order of registration. -/
  told : ∀ {source handle}, (Service.run painter requests).handle? source = some handle →
    ∀ edits, (Service.run painter requests).answer (.edit source edits) =
      (.told (edits.flatMap fun edit =>
        ((Service.run painter requests).registered requests handle).map fun label =>
          (label, ⟨edit.position, min (edit.position + edit.inserted) 4294967295⟩)),
        (Service.run painter requests).registry)
  /-- Nobody is told of anything but the edits of a session. -/
  silent : ∀ request, (∀ source edits, request = .edit source edits →
      (Service.run painter requests).handle? source = none) →
    ((Service.run painter requests).answer request).1.deliveries = []
  /-- The listeners of each session are those that were registered with it. -/
  labels_eq : ∀ handle, (Service.run painter requests).registry.labels handle =
    (Service.run painter requests).registered requests handle
  /-- The listeners of a session stay as they are unless one is registered with this session. -/
  kept : ∀ request handle, (∀ source label, request = .listen source label →
      (Service.run painter requests).handle? source ≠ some handle) →
    ((Service.run painter requests).answer request).2.labels handle =
      (Service.run painter requests).registry.labels handle
  /-- A buffer that is not held, be it new or released, gets a session that nobody listens to. -/
  renewed : ∀ {id}, ¬ Held requests id →
    (Service.run painter requests).BeginsUnheard (.acquire id .odin)
  /-- So does an editor that asks for a session that belongs to no buffer. -/
  begun : ∀ painter', (Service.run painter requests).BeginsUnheard (.begin painter')

/-- **The deliveries of a run**: however an editor mixes requests for buffers, releases, sessions
that belong to no buffer and names of one session, an edit is told to those who listen to its
session, once for each registration, and to nobody else. -/
theorem tellsListeners_run (painter : Painter) (requests : List (Request α)) :
    TellsListeners painter requests := by
  have traced := Service.traced_run painter requests
  exact {
    told := fun given edits => by
      simp only [Service.answer, given, Registry.deliveries_eq, Service.labels_run, staleSpans,
        List.flatMap_map]
      rfl
    silent := fun request noEdit =>
      (Service.outcome_answer (Service.run painter requests) request).deliveries_eq_nil noEdit
    labels_eq := Service.labels_run painter requests
    kept := fun request handle other => by
      have outcome := Service.outcome_answer (Service.run painter requests) request
      rw [outcome.labels_eq traced.lt_size, Service.registers?_eq_none other]
      exact List.append_nil _
    -- A buffer that is not held has no session in the registry, so one is begun for it.
    renewed := fun {id} unheld => by
      have unopened : (Service.run painter requests).registry.opened[id]? = none :=
        Option.eq_none_iff_forall_ne_some.mpr fun handle found =>
          unheld ((traced.held_iff id).mpr ⟨handle, found⟩)
      refine traced.beginsUnheard (Service.run painter requests).registry.painter ?_ ?_
      · rw [Service.answer_acquire, Registry.acquire_of_none unopened]
      · rw [Service.answer_acquire, Registry.acquire_of_none unopened]
    begun := fun painter' => traced.beginsUnheard painter' rfl rfl }

-- A session that was released keeps both its names, and what is registered under either is told
-- under each. Nobody listens to the session that the buffer has now.
example :
    let service : Service Char := .run {} [.acquire ⟨1⟩ .odin, .acquire ⟨1⟩ .odin, .listen 0 'a',
      .release ⟨1⟩, .listen 1 'b', .acquire ⟨1⟩ .odin]
    (service.answer (.edit 0 [⟨2, 0, 3⟩])).1 = .told [('a', ⟨2, 5⟩), ('b', ⟨2, 5⟩)] ∧
      (service.answer (.edit 5 [⟨2, 0, 3⟩])).1 = .told [] := by
  cbv

end OdinSyntax
