import OdinSyntax.Workspace.Registry

/-!
# Requests to a registry

An editor makes its requests to a registry one after the other, and they are numbered from zero. A
request about a session names an earlier request, the one that was answered with a handle of the
session. An editor may thus have several names for one session, and it keeps them when the buffer is
released. A name that stands for no handle has no effect.

A `Service` is a registry with the answers that it has given.
-/

namespace OdinSyntax

/-- What an editor asks of a registry. The session that a request is about is named by `source`, the
number of the request that was answered with its handle. -/
inductive Request (α : Type)
  | acquire (id : BufferId) (type : FileType)
  | release (id : BufferId)
  /-- A session that belongs to no buffer. -/
  | begin (painter : Painter)
  | listen (source : Nat) (label : α)
  | edit (source : Nat) (edits : List Edit)
  | paint (source : Nat) (snapshot : Snapshot) (region : Span)

/-- What a registry answers. -/
inductive Answer (α : Type)
  | session (handle? : Option Handle)
  | released (wasOpen : Bool)
  | listening
  /-- Which listeners were told of which spans, in the order of the calls. -/
  | told (deliveries : List (α × Span))
  | painted (result : Except PaintError (List Painted))
  /-- The request named no session. -/
  | noSession

namespace Answer

variable {α : Type}

/-- The handle that the answer gives. -/
def handle? : Answer α → Option Handle
  | session handle? => handle?
  | released _ | listening | told _ | painted _ | noSession => none

/-- Which listeners were told of which spans before the answer was given. -/
def deliveries : Answer α → List (α × Span)
  | told deliveries => deliveries
  | session _ | released _ | listening | painted _ | noSession => []

end Answer

/-- A registry, and the answers that it has given, by the numbers of the requests. -/
structure Service (α : Type) where
  registry : Registry α := {}
  answers : List (Answer α) := []

namespace Service

variable {α : Type}

/-- The handle with which the request number `source` was answered. -/
def handle? (service : Service α) (source : Nat) : Option Handle :=
  service.answers[source]?.bind Answer.handle?

/-- The answer to a request, and the registry after it. -/
def answer (service : Service α) (request : Request α) : Answer α × Registry α :=
  let registry := service.registry
  match request with
  | .acquire id type =>
    let (handle?, registry) := registry.acquire id type
    (.session handle?, registry)
  | .release id =>
    let (wasOpen, registry) := registry.release id
    (.released wasOpen, registry)
  | .begin painter =>
    let (handle, registry) := registry.begin painter
    (.session (some handle), registry)
  | .listen source label =>
    match service.handle? source with
    | some handle => (.listening, registry.listen handle label)
    | none => (.noSession, registry)
  | .edit source edits =>
    match service.handle? source with
    | some handle => (.told (registry.deliveries handle edits), registry)
    | none => (.noSession, registry)
  | .paint source snapshot region =>
    match (service.handle? source).bind (registry.paint? · snapshot region) with
    | some result => (.painted result, registry)
    | none => (.noSession, registry)

/-- Answer the next request. -/
def serve (service : Service α) (request : Request α) : Service α where
  registry := (service.answer request).2
  answers := service.answers ++ [(service.answer request).1]

/-- A new registry whose sessions are painted by `painter`, after some requests. -/
def run (painter : Painter) (requests : List (Request α)) : Service α :=
  requests.foldl serve { registry := { painter } }

/-! ## Elementary facts -/

/-- One more request is served after all others. -/
@[simp] theorem run_concat (painter : Painter) (requests : List (Request α))
    (request : Request α) :
    run painter (requests ++ [request]) = (run painter requests).serve request := by
  rw [run, run, List.foldl_append]
  rfl

theorem answer_acquire (service : Service α) (id : BufferId) (type : FileType) :
    service.answer (.acquire id type) =
      (.session (service.registry.acquire id type).1, (service.registry.acquire id type).2) := rfl

@[simp] theorem registry_serve (service : Service α) (request : Request α) :
    (service.serve request).registry = (service.answer request).2 := rfl

@[simp] theorem answers_serve (service : Service α) (request : Request α) :
    (service.serve request).answers = service.answers ++ [(service.answer request).1] := rfl

end Service

end OdinSyntax
