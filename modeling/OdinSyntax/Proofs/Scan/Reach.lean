import Mathlib.Logic.Relation
import OdinSyntax.Scan.Tokenize

/-!
# States that a scan passes through

`Reaches` relates the states of a scan to the later ones, and `Reached` holds of the states that the
scan of a text passes through. `run` stops at a state that it reaches, so what holds between two
steps holds when the scan is done. On a given text, `steps` evaluates it.
-/

namespace OdinSyntax.Scan

open Source

variable {σ : Type} [Source σ]

/-- One step of a scan, which happens only within the text. -/
def Next (text : σ) (region : Span) (st st' : State) : Prop :=
  st.position < length text ∧ st' = step text region st

/-- The scan gets from `st` to `st'` in some number of steps. -/
abbrev Reaches (text : σ) (region : Span) : State → State → Prop :=
  Relation.ReflTransGen (Next text region)

/-- The scan of the text passes through `st`. -/
def Reached (text : σ) (region : Span) (st : State) : Prop :=
  Reaches text region {} st

/-- Whether the next step begins a lexeme: the scan is in code, or it is in a number that has ended
before the position. -/
def State.AtLexeme (text : σ) (st : State) : Prop :=
  st.mode = .code ∨
    ∃ start, st.mode = .number start ∧ isNumberPart (charAt text st.position) = false

section Reaches

variable {text : σ} {region : Span} {st st' : State}

theorem reaches_step (h : st.position < length text) :
    Reaches text region st (step text region st) :=
  .single ⟨h, rfl⟩

/-- The scan gets to `st'` by a step and what follows it. -/
theorem Reaches.of_step (h : st.position < length text)
    (h' : Reaches text region (step text region st) st') : Reaches text region st st' :=
  .head ⟨h, rfl⟩ h'

theorem run_of_lt (h : st.position < length text) :
    run text region st = run text region (step text region st) := by
  rw [run, if_pos h]

theorem run_of_le (h : length text ≤ st.position) : run text region st = st := by
  rw [run, if_neg (by omega)]

/-- What a scan comes to does not depend on where along the way one looks at it. -/
theorem run_eq_of_reaches (h : Reaches text region st st') :
    run text region st = run text region st' := by
  induction h with
  | refl => rfl
  | tail _ hn ih => rw [ih, run_of_lt hn.1, hn.2]

theorem reaches_run (text : σ) (region : Span) (st : State) :
    Reaches text region st (run text region st) := by
  fun_induction run text region st with
  | case1 st h ih => exact .of_step h ih
  | case2 => exact .refl

/-- The scan stops at the end only. -/
theorem length_le_position_run (text : σ) (region : Span) (st : State) :
    length text ≤ (run text region st).position := by
  fun_induction run text region st with
  | case1 _ _ ih => exact ih
  | case2 st h => omega

theorem reached_scan (text : σ) (region : Span) : Reached text region (scan text region) :=
  reaches_run text region {}

/-- What holds at the start and is kept by each step holds all along. -/
theorem Reached.induct {P : State → Prop} (start : P {})
    (next : ∀ st, st.position < length text → P st → P (step text region st))
    (h : Reached text region st) : P st := by
  induction h with
  | refl => exact start
  | tail _ hn ih =>
    rw [hn.2]
    exact next _ hn.1 ih

end Reaches

/-! ## Evaluation -/

/-- At most `n` steps. The recursion is on a number, so on a given text it can be evaluated. -/
def steps (text : σ) (region : Span) : Nat → State → State
  | 0, st => st
  | n + 1, st => if st.position < length text then steps text region n (step text region st) else st

/-- As many steps as characters are left bring the scan to the end. -/
theorem run_eq_steps {text : σ} {region : Span} {n : Nat} {st : State}
    (h : length text ≤ st.position + n) : run text region st = steps text region n st := by
  induction n generalizing st with
  | zero => exact run_of_le h
  | succ n ih =>
    rw [steps]
    split
    · next hlt =>
      have hnext := position_lt_step text region st
      rw [run_of_lt hlt, ih (by omega)]
    · next hge => exact run_of_le (Nat.le_of_not_lt hge)

/-- A scan takes no more steps than the text has characters. -/
theorem scan_eq_steps (text : σ) (region : Span) :
    scan text region = steps text region (length text) {} := by
  rw [scan, run_eq_steps (Nat.le_add_left _ _)]

/-- The tokens, by a recursion that evaluates. -/
theorem tokenize_eq_steps (options : Options) (text : σ) (region : Span) :
    tokenize options text region =
      (finish options (length text) region
        (steps text region (length text) {})).tokens.toList := by
  rw [tokenize, scan_eq_steps]

/-! ## What is kept of a token -/

/-- Whether a scan for `region` keeps `token`. -/
def keeps (region : Span) (token : Token) : Bool :=
  !token.span.isEmpty && token.span.intersects region

theorem keeps_iff {region : Span} {token : Token} :
    keeps region token = true ↔
      token.span.start < token.span.stop ∧ token.span.intersects region = true := by
  rw [keeps, Bool.and_eq_true, Bool.not_eq_true', Span.isEmpty_eq_false_iff]

/-- What is emitted is added at the end, if the region keeps it. -/
theorem toList_tokens_emit (st : State) (region span : Span) (kind : Kind) :
    (st.emit region span kind).tokens.toList =
      st.tokens.toList ++ [⟨span, kind⟩].filter (keeps region) := by
  by_cases h : (!span.isEmpty && span.intersects region) = true
  · have hk : keeps region ⟨span, kind⟩ = true := h
    rw [State.emit, if_pos h, List.filter_cons_of_pos hk, Array.toList_push, List.filter_nil]
  · have hk : ¬ keeps region ⟨span, kind⟩ = true := h
    rw [State.emit, if_neg h, List.filter_cons_of_neg hk, List.filter_nil, List.append_nil]

end OdinSyntax.Scan
