import Mathlib.Data.List.Induction
import OdinSyntax.Proofs.Workspace.Outcome

/-!
# Identity of sessions

Which session an editor gets for a buffer is a matter of its own requests: two requests get the same
one if and only if they ask for the same buffer and do not have a release of that buffer between
them. What the requests say is put in `Unreleased`, `Holds` and `SameSession`, which know nothing of
a registry, and `Traced` says that a service has given its handles accordingly.

The invariant is kept because a handle is either that of the open session, which was asked for
before, or it is new, and then its number exceeds those of all handles that were given.

Main statement: **`oneSessionPerBuffer_run`**.
-/

namespace OdinSyntax

variable {α : Type}

/-! ## What the requests say -/

/-- No request behind number `first` and before number `stop` releases the buffer. -/
def Unreleased (requests : List (Request α)) (id : BufferId) (first stop : Nat) : Prop :=
  ∀ k, first < k → k < stop → requests[k]? ≠ some (.release id)

/-- Request number `call` asks for the session of the buffer, and the buffer was not released since.
-/
structure Holds (requests : List (Request α)) (id : BufferId) (call : Nat) : Prop where
  acquires : ∃ type, requests[call]? = some (.acquire id type)
  unreleased : Unreleased requests id call requests.length

/-- A request for the session of the buffer, as one that holds Odin, was not followed by a release.
-/
def Held (requests : List (Request α)) (id : BufferId) : Prop :=
  ∃ call, requests[call]? = some (.acquire id .odin) ∧ Unreleased requests id call requests.length

/-- Requests number `i` and `j` ask for the same buffer, and it is not released between them. -/
def SameSession (requests : List (Request α)) (i j : Nat) : Prop :=
  ∃ id, (∃ type, requests[i]? = some (.acquire id type)) ∧
    (∃ type, requests[j]? = some (.acquire id type)) ∧ Unreleased requests id i j

theorem Holds.lt_length {requests : List (Request α)} {id : BufferId} {call : Nat}
    (h : Holds requests id call) : call < requests.length := by
  obtain ⟨type, get⟩ := h.acquires
  exact (List.getElem?_eq_some_iff.mp get).1

/-- What is not released for some time is not released within that time. -/
theorem Unreleased.mono {requests : List (Request α)} {id : BufferId}
    {first first' stop stop' : Nat} (h : Unreleased requests id first stop)
    (hfirst : first ≤ first') (hstop : stop' ≤ stop) :
    Unreleased requests id first' stop' :=
  fun k hk hk' => h k (by omega) (by omega)

/-- The requests of one span and those of the next one, where the request between them is known. -/
theorem Unreleased.trans {requests : List (Request α)} {id : BufferId} {i j k : Nat}
    (h : Unreleased requests id i j) (hj : requests[j]? ≠ some (.release id))
    (h' : Unreleased requests id j k) : Unreleased requests id i k := by
  intro l hl hl'
  rcases Nat.lt_trichotomy l j with before | rfl | behind
  · exact h l hl before
  · exact hj
  · exact h' l behind hl'

section Concat

variable {requests : List (Request α)} {request : Request α} {id : BufferId} {i j call : Nat}

theorem getElem?_concat_of_lt (h : call < requests.length) :
    (requests ++ [request])[call]? = requests[call]? :=
  List.getElem?_append_left h

/-- Requests within a run are not changed by one more request behind them. -/
theorem unreleased_concat (h : j ≤ requests.length) :
    Unreleased (requests ++ [request]) id i j ↔ Unreleased requests id i j := by
  refine forall_congr' fun k => forall_congr' fun _ => forall_congr' fun hk => ?_
  rw [getElem?_concat_of_lt (by omega)]

/-- One more request leaves a buffer held unless it is the release of the buffer. -/
theorem unreleased_length_concat (h : call < requests.length) :
    Unreleased (requests ++ [request]) id call (requests ++ [request]).length ↔
      Unreleased requests id call requests.length ∧ request ≠ .release id := by
  constructor
  · intro unreleased
    refine ⟨(unreleased_concat (Nat.le_refl _)).mp (unreleased.mono (Nat.le_refl _) (by simp)), ?_⟩
    have last := unreleased requests.length h (by simp)
    simpa using last
  · rintro ⟨unreleased, ne⟩ k hk hk'
    rcases Nat.lt_or_ge k requests.length with inside | behind
    · rw [getElem?_concat_of_lt inside]
      exact unreleased k hk inside
    · rw [List.length_append, List.length_singleton] at hk'
      obtain rfl : k = requests.length := by omega
      simpa using ne

/-- A buffer that is held stays so until it is released, and the last request may ask for it. -/
theorem holds_concat :
    Holds (requests ++ [request]) id call ↔
      (Holds requests id call ∧ request ≠ .release id) ∨
        (call = requests.length ∧ ∃ type, request = .acquire id type) := by
  constructor
  · intro holds
    have bound : call < requests.length + 1 := by simpa using holds.lt_length
    obtain ⟨acquires, unreleased⟩ := holds
    rcases Nat.lt_or_eq_of_le (Nat.le_of_lt_succ bound) with inside | rfl
    · obtain ⟨unreleased, ne⟩ := (unreleased_length_concat inside).mp unreleased
      rw [getElem?_concat_of_lt inside] at acquires
      exact .inl ⟨⟨acquires, unreleased⟩, ne⟩
    · exact .inr ⟨rfl, by simpa using acquires⟩
  · rintro (⟨holds, ne⟩ | ⟨rfl, acquires⟩)
    · have inside := holds.lt_length
      refine ⟨?_, (unreleased_length_concat inside).mpr ⟨holds.unreleased, ne⟩⟩
      rw [getElem?_concat_of_lt inside]
      exact holds.acquires
    · refine ⟨by simpa using acquires, fun k hk hk' => ?_⟩
      rw [List.length_append, List.length_singleton] at hk'
      omega

/-- What earlier requests share does not depend on a further one. -/
theorem sameSession_concat_of_lt (hij : i < j) (hj : j < requests.length) :
    SameSession (requests ++ [request]) i j ↔ SameSession requests i j := by
  simp only [SameSession, getElem?_concat_of_lt hj, getElem?_concat_of_lt (Nat.lt_trans hij hj),
    unreleased_concat (Nat.le_of_lt hj)]

/-- The last request asks for the session that request number `i` asked for. -/
theorem sameSession_concat_length (hi : i < requests.length) :
    SameSession (requests ++ [request]) i requests.length ↔
      ∃ id, Holds requests id i ∧ ∃ type, request = .acquire id type := by
  simp only [SameSession, getElem?_concat_of_lt hi, unreleased_concat (Nat.le_refl _),
    List.getElem?_concat_length, Option.some.injEq]
  exact exists_congr fun id =>
    ⟨fun ⟨first, last, unreleased⟩ => ⟨⟨first, unreleased⟩, last⟩,
      fun ⟨⟨first, unreleased⟩, last⟩ => ⟨first, last, unreleased⟩⟩

end Concat

/-- A buffer is held by one of two requests for the same session if it is held by the other. -/
theorem SameSession.holds_iff {requests : List (Request α)} {id : BufferId} {i j : Nat}
    (h : SameSession requests i j) (hij : i < j) : Holds requests id i ↔ Holds requests id j := by
  obtain ⟨id', ⟨type, first⟩, ⟨type', last⟩, unreleased⟩ := h
  constructor
  · rintro ⟨⟨type'', acquires⟩, held⟩
    obtain ⟨rfl, -⟩ : id' = id ∧ type = type'' := by
      simpa [first] using acquires
    exact ⟨⟨type', last⟩, held.mono (Nat.le_of_lt hij) (Nat.le_refl _)⟩
  · rintro ⟨⟨type'', acquires⟩, held⟩
    obtain ⟨rfl, -⟩ : id' = id ∧ type' = type'' := by
      simpa [last] using acquires
    exact ⟨⟨type, first⟩, unreleased.trans (by simp [last]) held⟩

/-! ## Runs -/

namespace Service

/-- The service has answered these requests, and gave the handles that they are due. -/
structure Traced (requests : List (Request α)) (service : Service α) : Prop where
  length_eq : service.answers.length = requests.length
  refused_iff : ∀ {call id type}, requests[call]? = some (.acquire id type) →
    (service.handle? call = none ↔ type ≠ .odin)
  lt_size : ∀ {call handle}, service.handle? call = some handle →
    handle.index < service.registry.sessions.size
  opened_iff : ∀ id handle, service.registry.opened[id]? = some handle ↔
    ∃ call, service.handle? call = some handle ∧ Holds requests id call
  same_iff : ∀ {i j handle handle'}, i < j → service.handle? i = some handle →
    service.handle? j = some handle' → (handle = handle' ↔ SameSession requests i j)

namespace Traced

variable {requests : List (Request α)} {service : Service α} {painter : Painter}

theorem init : Traced ([] : List (Request α)) { registry := { painter } } where
  length_eq := rfl
  refused_iff := by simp
  lt_size := by simp [handle?]
  opened_iff := by simp [handle?]
  same_iff := by simp [handle?]

/-- Requests that were answered with one handle hold the same buffers. -/
theorem holds_of_handle_eq (h : Traced requests service) {i j : Nat} {handle : Handle}
    (hi : service.handle? i = some handle) (hj : service.handle? j = some handle) {id : BufferId}
    (holds : Holds requests id j) : Holds requests id i := by
  rcases Nat.lt_trichotomy i j with before | rfl | behind
  · exact (((h.same_iff before hi hj).mp rfl).holds_iff before).mpr holds
  · exact holds
  · exact (((h.same_iff behind hj hi).mp rfl).holds_iff behind).mp holds

/-- A buffer is held by a request if and only if the handle of the request is open for it. -/
theorem opened_iff_holds (h : Traced requests service) {call : Nat} {handle : Handle}
    (given : service.handle? call = some handle) (id : BufferId) :
    service.registry.opened[id]? = some handle ↔ Holds requests id call := by
  rw [h.opened_iff]
  exact ⟨fun ⟨call', given', holds⟩ => h.holds_of_handle_eq given given' holds,
    fun holds => ⟨call, given, holds⟩⟩

/-- The answer to the next request is the handle of an earlier one if and only if it asks for a
buffer that is held by the earlier one. -/
theorem answer_eq_iff (h : Traced requests service) {request : Request α} {i : Nat}
    {handle handle' : Handle} (earlier : service.handle? i = some handle)
    (given : (service.answer request).1.handle? = some handle') :
    handle = handle' ↔ ∃ id, Holds requests id i ∧ ∃ type, request = .acquire id type := by
  have outcome := outcome_answer service request
  rcases outcome.handle_cases given with ⟨id, rfl, found⟩ | ⟨index, -, unopened⟩
  · constructor
    · rintro rfl
      exact ⟨id, (h.opened_iff_holds earlier id).mp found, _, rfl⟩
    · rintro ⟨id', holds, type, ⟨⟩⟩
      exact Option.some.inj (((h.opened_iff_holds earlier id).mpr holds).symm.trans found)
  · constructor
    · rintro rfl
      exact absurd (h.lt_size earlier) (by omega)
    · rintro ⟨id, holds, type, rfl⟩
      have found := (h.opened_iff_holds earlier id).mpr holds
      simp [unopened id type rfl] at found

/-- The answer to the next request is the handle of a session. -/
theorem lt_size_answer (h : Traced requests service) {request : Request α} {handle : Handle}
    (given : (service.answer request).1.handle? = some handle) :
    handle.index < (service.answer request).2.sessions.size := by
  have outcome := outcome_answer service request
  rcases outcome.handle_cases given with ⟨id, -, found⟩ | ⟨-, bound, -⟩
  · obtain ⟨call, given', -⟩ := (h.opened_iff id handle).mp found
    exact Nat.lt_of_lt_of_le (h.lt_size given') outcome.size_le
  · exact bound

/-- A further request leaves what is due to the earlier ones as it was, and it is given the handle
of its buffer or a new one. -/
theorem serve (h : Traced requests service) (request : Request α) :
    Traced (requests ++ [request]) (service.serve request) where
  length_eq := by simp [h.length_eq]
  refused_iff := by
    intro call id type get
    -- An earlier request keeps its answer, and the last one is answered now.
    rcases Nat.lt_or_ge call requests.length with before | last
    · rw [getElem?_concat_of_lt before] at get
      rw [handle?_serve_of_lt request (h.length_eq ▸ before), h.refused_iff get]
    · obtain rfl : call = requests.length := by
        have bound : call < requests.length + 1 := by
          simpa using (List.getElem?_eq_some_iff.mp get).1
        omega
      obtain rfl : request = .acquire id type := by simpa using get
      rw [← h.length_eq, handle?_serve_length]
      exact (outcome_answer service _).handle?_eq_none_iff
  lt_size := by
    intro call handle given
    rcases handle?_serve_cases given with ⟨-, given⟩ | ⟨-, given⟩
    · exact Nat.lt_of_lt_of_le (h.lt_size given) (outcome_answer service request).size_le
    · exact h.lt_size_answer given
  opened_iff := by
    intro id handle
    rw [registry_serve, (outcome_answer service request).opened_iff, h.opened_iff]
    constructor
    · rintro (⟨⟨call, given, holds⟩, kept⟩ | ⟨given, acquires⟩)
      · refine ⟨call, ?_, holds_concat.mpr (.inl ⟨holds, kept⟩)⟩
        rwa [handle?_serve_of_lt request (lt_length_of_handle? given)]
      · refine ⟨requests.length, ?_, holds_concat.mpr (.inr ⟨rfl, acquires⟩)⟩
        rwa [← h.length_eq, handle?_serve_length]
    · rintro ⟨call, given, holds⟩
      rcases handle?_serve_cases given with ⟨before, given⟩ | ⟨last, given⟩
      · rcases holds_concat.mp holds with ⟨holds, kept⟩ | ⟨last, -⟩
        · exact .inl ⟨⟨call, given, holds⟩, kept⟩
        · exact absurd h.length_eq (by omega)
      · rcases holds_concat.mp holds with ⟨holds, -⟩ | ⟨-, acquires⟩
        · exact absurd h.length_eq (by have := holds.lt_length; omega)
        · exact .inr ⟨given, acquires⟩
  same_iff := by
    intro i j handle handle' hij given given'
    -- Either both requests are earlier ones, or the second of them is answered now.
    rcases handle?_serve_cases given' with ⟨before, earlier⟩ | ⟨rfl, last⟩
    · rw [handle?_serve_of_lt request (by omega)] at given
      rw [sameSession_concat_of_lt hij (h.length_eq ▸ before)]
      exact h.same_iff hij given earlier
    · rw [handle?_serve_of_lt request hij] at given
      rw [h.length_eq, sameSession_concat_length (h.length_eq ▸ hij)]
      exact h.answer_eq_iff given last

/-- An open session was asked for, and not released since. -/
theorem held_iff (h : Traced requests service) (id : BufferId) :
    Held requests id ↔ ∃ handle, service.registry.opened[id]? = some handle := by
  constructor
  · rintro ⟨call, acquires, unreleased⟩
    have given : service.handle? call ≠ none := mt (h.refused_iff acquires).mp (by simp)
    obtain ⟨handle, given⟩ := Option.ne_none_iff_exists'.mp given
    exact ⟨handle, (h.opened_iff id handle).mpr ⟨call, given, ⟨_, acquires⟩, unreleased⟩⟩
  · rintro ⟨handle, found⟩
    obtain ⟨call, given, ⟨type, acquires⟩, unreleased⟩ := (h.opened_iff id handle).mp found
    have odin : type = .odin := by
      by_contra odin
      simp [(h.refused_iff acquires).mpr odin] at given
    exact ⟨call, odin ▸ acquires, unreleased⟩

end Traced

/-- The handles of a run are those that its requests are due. -/
theorem traced_run (painter : Painter) (requests : List (Request α)) :
    Traced requests (run painter requests) := by
  induction requests using List.reverseRecOn with
  | nil => exact .init
  | append_singleton requests request ih =>
    rw [run_concat]
    exact ih.serve request

end Service

/-- How the sessions of a run correspond to buffers. The parts about a moment of the run speak of
its end, and each moment is the end of a shorter run. -/
structure OneSessionPerBuffer (painter : Painter) (requests : List (Request α)) : Prop where
  /-- Only a buffer that does not hold Odin is refused. -/
  refused_iff : ∀ {call id type}, requests[call]? = some (.acquire id type) →
    ((Service.run painter requests).handle? call = none ↔ type ≠ ⟨"odin", "code"⟩)
  /-- A buffer that is refused changes nothing. -/
  refused : ∀ id {type}, type ≠ ⟨"odin", "code"⟩ →
    (Service.run painter requests).answer (.acquire id type) =
      (.session none, (Service.run painter requests).registry)
  /-- Two requests are answered with one session if and only if they ask for the same buffer, and it
  is not released between them. -/
  same_iff : ∀ {i j handle handle'}, i < j →
    (Service.run painter requests).handle? i = some handle →
    (Service.run painter requests).handle? j = some handle' →
    (handle = handle' ↔ SameSession requests i j)
  /-- A release tells whether the buffer was held. -/
  released_iff : ∀ id,
    ((Service.run painter requests).answer (.release id)).1 = .released true ↔ Held requests id
  /-- The buffers that are held are counted. -/
  openCount_eq : ∃ ids : List BufferId, ids.Nodup ∧ (∀ id, id ∈ ids ↔ Held requests id) ∧
    (Service.run painter requests).registry.openCount = ids.length
  isEmpty_iff : (Service.run painter requests).registry.isEmpty = true ↔ ∀ id, ¬ Held requests id

/-- **The sessions of a run**: whatever an editor asks for, and however it mixes buffers, releases
and sessions that belong to no buffer, each buffer has one session from the first request for it to
its release, and no session is handed out for another buffer or after the release. -/
theorem oneSessionPerBuffer_run (painter : Painter) (requests : List (Request α)) :
    OneSessionPerBuffer painter requests := by
  have traced := Service.traced_run painter requests
  -- The registry has a session for the buffers that are held, and for no others.
  have mem_keys : ∀ id, id ∈ (Service.run painter requests).registry.opened.keys ↔
      Held requests id := by
    intro id
    rw [traced.held_iff, Std.HashMap.mem_keys, Std.HashMap.mem_iff_isSome_getElem?,
      Option.isSome_iff_exists]
  exact {
    refused_iff := traced.refused_iff
    refused := fun id type other => by
      simp only [Service.answer, Registry.acquire_of_ne _ _ other]
    same_iff := traced.same_iff
    released_iff := fun id => by
      simp [Service.answer, Registry.release, ← mem_keys]
    openCount_eq := by
      refine ⟨_, Std.HashMap.nodup_keys, mem_keys, ?_⟩
      rw [Std.HashMap.length_keys]
      rfl
    isEmpty_iff := by
      simp only [Registry.isEmpty, Registry.openCount, ← Std.HashMap.length_keys, beq_iff_eq,
        List.length_eq_zero_iff, List.eq_nil_iff_forall_not_mem, mem_keys] }

-- A buffer that is released and asks again, one that does not hold Odin, and no buffer at all.
example :
    let service : Service Unit := .run {} [.acquire ⟨7⟩ .odin, .release ⟨7⟩, .acquire ⟨7⟩ .odin,
      .acquire ⟨8⟩ ⟨"text", "code"⟩, .begin {}]
    (List.range 5).map service.handle? = [some ⟨0⟩, none, some ⟨1⟩, none, some ⟨2⟩] ∧
      (service.answer (.release ⟨7⟩)).1 = .released true ∧
      (service.answer (.release ⟨8⟩)).1 = .released false := by
  cbv

end OdinSyntax
