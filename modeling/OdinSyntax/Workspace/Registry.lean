import Std.Data.HashMap
import OdinSyntax.Painting.Painter
import OdinSyntax.Workspace.Edit
import OdinSyntax.Workspace.FileType

/-!
# Registry of sessions

A `Session` serves one buffer of an editor: it paints the buffer and tells its listeners of edits.
The `Registry` has an open session for each Odin buffer that asked for one, until the buffer is
released.

Sessions are shared, so the registry keeps all that ever began, and a `Handle` names one of them. A
handle stays good after its buffer is released. A buffer that then asks again gets a new session,
and a new handle.
-/

namespace OdinSyntax

/-- The identity that an editor gives to a buffer. -/
structure BufferId where
  raw : UInt64
deriving DecidableEq, Hashable, Inhabited

/-- Buffers are ordered by their numbers. -/
instance : Ord BufferId where
  compare a b := compare a.raw b.raw

/-- What a debugger shows of the identity. -/
def BufferId.describe (id : BufferId) : String :=
  "BufferId(" ++ toString id.raw ++ ")"

/-- What serves one buffer, for listeners with labels of type `α`. -/
structure Session (α : Type) where
  painter : Painter
  listeners : Listeners α := {}

/-- The name of a session. -/
structure Handle where
  index : Nat
deriving DecidableEq, Inhabited

/-- A handle is its number. -/
theorem Handle.eq_of_index_eq {handle handle' : Handle} (h : handle.index = handle'.index) :
    handle = handle' := by
  cases handle
  cases handle'
  exact congrArg Handle.mk h

/-- All sessions that began, and which of them are open. -/
structure Registry (α : Type) where
  /-- What paints the buffers that ask for a session. -/
  painter : Painter := {}
  sessions : Array (Session α) := #[]
  opened : Std.HashMap BufferId Handle := {}

namespace Registry

variable {α : Type}

/-- The session that a handle names. -/
def session? (registry : Registry α) (handle : Handle) : Option (Session α) :=
  registry.sessions[handle.index]?

/-- Begin a session that belongs to no buffer. -/
def begin (registry : Registry α) (painter : Painter) : Handle × Registry α :=
  (⟨registry.sessions.size⟩, { registry with sessions := registry.sessions.push { painter } })

/-- The open session of a buffer, which begins if there is none. A buffer that does not hold Odin
has no session. -/
def acquire (registry : Registry α) (id : BufferId) (type : FileType) :
    Option Handle × Registry α :=
  if type.isOdin then
    match registry.opened[id]? with
    | some handle => (some handle, registry)
    | none =>
      let (handle, registry) := registry.begin registry.painter
      (some handle, { registry with opened := registry.opened.insert id handle })
  else (none, registry)

/-- Close the session of a buffer, and say whether one was open. -/
def release (registry : Registry α) (id : BufferId) : Bool × Registry α :=
  (registry.opened.contains id, { registry with opened := registry.opened.erase id })

/-- Number of buffers with an open session. -/
def openCount (registry : Registry α) : Nat :=
  registry.opened.size

/-- Whether no session is open. -/
def isEmpty (registry : Registry α) : Bool :=
  registry.openCount == 0

/-- Register a listener with a session. -/
def listen (registry : Registry α) (handle : Handle) (label : α) : Registry α :=
  { registry with
    sessions := registry.sessions.modify handle.index fun session =>
      { session with listeners := session.listeners.add label } }

/-- Which listeners of a session are told of which spans after some edits of its buffer. -/
def deliveries (registry : Registry α) (handle : Handle) (edits : List Edit) : List (α × Span) :=
  match registry.session? handle with
  | some session => session.listeners.deliveries edits
  | none => []

/-- Paint a snapshot of a session's buffer; `none` if the handle names no session. -/
def paint? (registry : Registry α) (handle : Handle) (snapshot : Snapshot) (region : Span) :
    Option (Except PaintError (List Painted)) :=
  (registry.session? handle).map fun session => session.painter.paint snapshot region

/-! ## Elementary facts -/

/-- A buffer of another type has no session. -/
theorem acquire_of_ne (registry : Registry α) (id : BufferId) {type : FileType}
    (h : type ≠ .odin) : registry.acquire id type = (none, registry) := by
  rw [acquire, if_neg (mt type.isOdin_iff.mp h)]

/-- The open session of a buffer is shared. -/
theorem acquire_of_some {registry : Registry α} {id : BufferId} {handle : Handle}
    (h : registry.opened[id]? = some handle) :
    registry.acquire id .odin = (some handle, registry) := by
  rw [acquire, if_pos ((FileType.isOdin_iff _).mpr rfl), h]

/-- A buffer with no open session gets a new one. -/
theorem acquire_of_none {registry : Registry α} {id : BufferId}
    (h : registry.opened[id]? = none) :
    registry.acquire id .odin =
      (some (registry.begin registry.painter).1,
        { (registry.begin registry.painter).2 with
          opened := registry.opened.insert id (registry.begin registry.painter).1 }) := by
  rw [acquire, if_pos ((FileType.isOdin_iff _).mpr rfl), h]
  rfl

@[simp] theorem size_sessions_listen (registry : Registry α) (handle : Handle) (label : α) :
    (registry.listen handle label).sessions.size = registry.sessions.size := by
  simp [listen]

end Registry

end OdinSyntax
