import OdinSyntax.Span

/-!
# Edits and their listeners

An `Edit` replaces some text of a buffer. The text that it inserted has to be painted anew, and the
`Listeners` of the buffer are told so: for each edit in its order, every listener in the order of
registration.
-/

namespace OdinSyntax

/-- One replacement of text, by its place in the text that results. -/
structure Edit where
  position : Nat
  /-- Length of the text that was replaced. -/
  removed : Nat
  /-- Length of the text that was put in its place. -/
  inserted : Nat
deriving DecidableEq, Inhabited

/-- The span of the inserted text. -/
def Edit.insertedSpan (edit : Edit) : Span :=
  .ofLength edit.position edit.inserted

/-- The spans to paint anew after some edits. -/
def staleSpans (edits : List Edit) : List Span :=
  edits.map Edit.insertedSpan

/-- The listeners of a buffer, in the order of registration. Each has a label of type `α`, and
labels may repeat. -/
structure Listeners (α : Type) where
  labels : Array α := #[]

namespace Listeners

variable {α : Type}

instance : Inhabited (Listeners α) := ⟨{}⟩

/-- Register a listener. -/
def add (listeners : Listeners α) (label : α) : Listeners α :=
  ⟨listeners.labels.push label⟩

/-- Number of listeners. -/
def count (listeners : Listeners α) : Nat :=
  listeners.labels.size

/-- Who is told of which span after some edits, in the order of the calls. -/
def deliveries (listeners : Listeners α) (edits : List Edit) : List (α × Span) :=
  (staleSpans edits).flatMap fun span => listeners.labels.toList.map fun label => (label, span)

/-- What a debugger shows of the listeners. -/
def describe (listeners : Listeners α) : String :=
  "ChangeNotifier \x7b subscribers: " ++ toString listeners.count ++ " \x7d"

@[simp] theorem toList_labels_add (listeners : Listeners α) (label : α) :
    (listeners.add label).labels.toList = listeners.labels.toList ++ [label] := by
  simp [add]

end Listeners

end OdinSyntax
