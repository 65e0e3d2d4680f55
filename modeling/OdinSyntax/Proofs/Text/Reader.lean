import OdinSyntax.Proofs.Scan.Progress
import OdinSyntax.Proofs.Token.LookAhead
import OdinSyntax.Text.Reader

/-!
# Looking ahead over blanks

A look ahead from an offset, which may be past the end, passes over blanks. What it is to see then
is what is left of the text, and behind that sentinels without end (`LooksAhead`). So a pattern that
does not end with a sentinel is only found where the text holds all of it.

It sees that exactly in the texts that end in sentinels (`EndsInSentinels`). Every source is one of
them. An array with more characters than offsets reach is one only if it has a blank space at the
largest offset: a pattern is compared with the character there, which is no longer part of the text.

A reader looks ahead by loops over offsets. These are written out here as what a reader does
(`Action`): it could move, and it comes to nothing if a loop has too many rounds or a sum of offsets
is past the largest one. While blanks are passed over, the offsets are those of characters, and
behind them they stop at the largest one. Each loop comes to what the look ahead is, and it leaves
the reader where it is (`run_nextNonBlank?`, `run_matchesAfterBlanks?`).

Main statement: **`looksAhead_iff_endsInSentinels`**.
-/

namespace OdinSyntax

open Source

/-! ## What a pattern is compared with -/

namespace Source

variable {σ : Type} [Readable σ]

/-- Whether every read behind the end of the text gives the sentinel. -/
def EndsInSentinels (text : σ) : Prop :=
  ∀ offset, length text ≤ offset → charAt text offset = sentinel

/-- This is what makes a readable text a source. -/
theorem endsInSentinels {σ : Type} [Source σ] (text : σ) : EndsInSentinels text :=
  fun _ => charAt_of_length_le

/-- For an array, the character at the largest offset decides. -/
theorem endsInSentinels_array_iff (text : Array Char) :
    EndsInSentinels text ↔ text.getD maxOffset sentinel = sentinel := by
  constructor
  · intro h
    have hread := h maxOffset (Readable.length_le text)
    rwa [Readable.charAt_array, Nat.min_self] at hread
  · intro h offset hle
    rcases Nat.le_total maxOffset offset with hmax | hmax
    · rw [Readable.charAt_array, Nat.min_eq_right hmax, h]
    · -- Before the largest offset, an array is no longer than its characters.
      rw [Readable.length_array] at hle
      rcases Nat.le_total text.size maxOffset with hsize | hsize
      · exact Readable.charAt_of_size_le (by omega)
      · obtain rfl : offset = maxOffset := by omega
        rw [Readable.charAt_array, Nat.min_self, h]

/-- Past the end, the text goes on with sentinels. -/
theorem EndsInSentinels.matchesAt_iff {text : σ} (h : EndsInSentinels text) (offset : Nat)
    (pattern : List Char) :
    matchesAt text offset pattern = true ↔
      ∃ n, pattern <+: suffix text offset ++ List.replicate n sentinel := by
  induction pattern generalizing offset with
  | nil => simp [matchesAt]
  | cons c pattern ih =>
    rw [matchesAt, Bool.and_eq_true, beq_iff_eq, ih]
    by_cases hlt : offset < length text
    · simp only [suffix_of_lt hlt, List.cons_append, List.cons_prefix_cons, exists_and_left,
        eq_comm]
    · have hle := Nat.le_of_not_lt hlt
      rw [h offset hle, suffix_of_length_le hle, suffix_of_length_le (Nat.le_succ_of_le hle)]
      constructor
      · -- One sentinel more than the rest of the pattern takes.
        rintro ⟨rfl, n, hn⟩
        exact ⟨n + 1, List.cons_prefix_cons.mpr ⟨rfl, hn⟩⟩
      · rintro ⟨n, hn⟩
        cases n with
        | zero => exact absurd (List.prefix_nil.mp hn) (List.cons_ne_nil _ _)
        | succ n =>
          obtain ⟨rfl, hrest⟩ := List.cons_prefix_cons.mp hn
          exact ⟨rfl, n, hrest⟩

/-- A comparison may stop counting at the largest offset. -/
theorem matchesAt_min (text : σ) (offset : Nat) (pattern : List Char) :
    matchesAt text (min offset maxOffset) pattern = matchesAt text offset pattern := by
  induction pattern generalizing offset with
  | nil => rfl
  | cons c pattern ih =>
    have hstop : min (min offset maxOffset + 1) maxOffset = min (offset + 1) maxOffset := by omega
    have hnext := ih (min offset maxOffset + 1)
    rw [hstop, ih] at hnext
    rw [matchesAt, matchesAt, charAt_min, ← hnext]

/-- The search passes over a blank of the text. -/
theorem skipBlanks_of_isBlank {text : σ} {offset : Nat}
    (h : offset < length text ∧ isBlank (charAt text offset) = true) :
    skipBlanks text offset = skipBlanks text (offset + 1) := by
  rw [skipBlanks, if_pos h]

theorem skipBlanks_of_not {text : σ} {offset : Nat}
    (h : ¬ (offset < length text ∧ isBlank (charAt text offset) = true)) :
    skipBlanks text offset = offset := by
  rw [skipBlanks, if_neg h]

/-- Behind the end there are no blanks to pass over. -/
theorem skipBlanks_of_length_le {text : σ} {offset : Nat} (h : length text ≤ offset) :
    skipBlanks text offset = offset :=
  skipBlanks_of_not fun hskip => absurd hskip.1 (Nat.not_lt.mpr h)

/-- What is left of the text from `offset` on, without the blanks before it. -/
def restBehindBlanks (text : σ) (offset : Nat) : List Char :=
  ((toList text).drop offset).dropWhile isBlank

/-- The rest without its blanks starts where the search for one that is not blank stops. -/
theorem restBehindBlanks_eq_suffix (text : σ) (offset : Nat) :
    restBehindBlanks text offset = suffix text (skipBlanks text offset) := by
  rw [restBehindBlanks, suffix_skipBlanks, toList, ← suffix, drop_suffix, Nat.zero_add]

/-- The look ahead gives the first character that is left, with the sentinel in the place of none.
-/
theorem nextNonBlank_eq_headD (text : σ) (offset : Nat) :
    nextNonBlank text offset = (restBehindBlanks text offset).headD sentinel := by
  rw [nextNonBlank_eq, restBehindBlanks_eq_suffix, suffix_skipBlanks]

/-- Only at the end a look ahead gives the sentinel, which is blank. -/
theorem nextNonBlank_eq_sentinel_iff (text : σ) (offset : Nat) :
    nextNonBlank text offset = sentinel ↔ restBehindBlanks text offset = [] := by
  rw [nextNonBlank_eq_headD, restBehindBlanks_eq_suffix, suffix_skipBlanks]
  cases hrest : (suffix text offset).dropWhile isBlank with
  | nil => simp
  | cons c rest =>
    have hc : isBlank c = false := by
      have hhead := List.head?_dropWhile_not isBlank (suffix text offset)
      rwa [hrest] at hhead
    simp only [List.headD_cons, List.cons_ne_nil, iff_false]
    rintro rfl
    exact absurd hc (by decide)

end Source

/-- A pattern that does not end with a sentinel is a prefix of what is before the sentinels. -/
theorem prefix_of_prefix_append_sentinels {pattern rest : List Char} {n : Nat}
    (h : pattern <+: rest ++ List.replicate n sentinel) (hlast : pattern.getLast? ≠ some sentinel) :
    pattern <+: rest := by
  rcases List.prefix_or_prefix_of_prefix h (List.prefix_append rest _) with hrest | ⟨tail, rfl⟩
  · exact hrest
  · have htail := List.prefix_replicate_iff.mp ((List.prefix_append_right_inj rest).mp h)
    cases hlength : tail.length with
    | zero =>
      have hnil := List.length_eq_zero_iff.mp hlength
      exact ⟨[], by rw [hnil, List.append_nil, List.append_nil]⟩
    | succ m =>
      rw [htail.2, hlength, List.getLast?_append, List.getLast?_replicate] at hlast
      exact absurd rfl hlast

/-! ## Loops of a reader -/

namespace Reader

variable {σ : Type} [Readable σ]

/-- What a reader does: it may move, and it may come to nothing. -/
abbrev Action (σ : Type) := StateT (Reader σ) Option

/-- The first character at or after `offset` that is not blank, or the sentinel. -/
def nextNonBlank? : (rounds offset : Nat) → Action σ Char
  | 0, _ => failure
  | rounds + 1, offset => do
    let r ← get
    if offset < length r.source then
      let c := charAt r.source offset
      if isBlank c then nextNonBlank? rounds (← Scan.sum? offset 1) else return c
    else return sentinel

/-- The first offset at or after `offset` that is past the end or holds no blank. -/
def skipBlanks? : (rounds offset : Nat) → Action σ Nat
  | 0, _ => failure
  | rounds + 1, offset => do
    let r ← get
    if offset < length r.source ∧ isBlank (charAt r.source offset) then
      skipBlanks? rounds (← Scan.sum? offset 1)
    else return offset

/-- Whether the characters from `offset` on spell `pattern`. The offsets at which they are read stop
at the largest one. -/
def matchesAt? : (offset : Nat) → List Char → Action σ Bool
  | _, [] => return true
  | offset, c :: pattern => do
    let r ← get
    if charAt r.source offset = c then matchesAt? (min (offset + 1) maxOffset) pattern
    else return false

/-- Whether `pattern` follows the blanks at `offset`. -/
def matchesAfterBlanks? (rounds offset : Nat) (pattern : List Char) : Action σ Bool := do
  matchesAt? (← skipBlanks? rounds offset) pattern

variable {r : Reader σ} {rounds offset : Nat}

/-- Passing over a blank adds no offset past the largest one. -/
theorem sum?_of_lt_length (h : offset < length r.source) :
    Scan.sum? offset 1 = some (offset + 1) :=
  Scan.sum?_of_le (Nat.le_trans h (length_le r.source))

/-- The loop ends when the rounds are as many as the characters that are left, and one more. -/
theorem run_nextNonBlank? (h : length r.source - offset < rounds) :
    (nextNonBlank? rounds offset).run r = some (nextNonBlank r.source offset, r) := by
  induction rounds generalizing offset with
  | zero => exact absurd h (Nat.not_lt_zero _)
  | succ rounds ih =>
    rw [nextNonBlank?]
    by_cases hlt : offset < length r.source
    · by_cases hblank : isBlank (charAt r.source offset) = true
      · have hnext : (nextNonBlank? rounds (offset + 1)).run r =
            some (nextNonBlank r.source (offset + 1), r) := ih (by omega)
        rw [nextNonBlank, skipBlanks_of_isBlank ⟨hlt, hblank⟩, ← nextNonBlank]
        simpa [hlt, hblank, sum?_of_lt_length hlt] using hnext
      · rw [nextNonBlank, skipBlanks_of_not (fun hskip => hblank hskip.2)]
        simp [hlt, hblank]
    · rw [nextNonBlank, skipBlanks_of_not (fun hskip => hlt hskip.1)]
      simp [hlt]

theorem run_skipBlanks? (h : length r.source - offset < rounds) :
    (skipBlanks? rounds offset).run r = some (skipBlanks r.source offset, r) := by
  induction rounds generalizing offset with
  | zero => exact absurd h (Nat.not_lt_zero _)
  | succ rounds ih =>
    rw [skipBlanks?]
    by_cases hskip : offset < length r.source ∧ isBlank (charAt r.source offset) = true
    · have hnext : (skipBlanks? rounds (offset + 1)).run r =
          some (skipBlanks r.source (offset + 1), r) := ih (by omega)
      rw [skipBlanks_of_isBlank hskip]
      simpa [hskip, sum?_of_lt_length hskip.1] using hnext
    · rw [skipBlanks_of_not hskip]
      simp [hskip]

/-- The comparison ends with the pattern. -/
theorem run_matchesAt? (pattern : List Char) :
    (matchesAt? offset pattern).run r = some (matchesAt r.source offset pattern, r) := by
  induction pattern generalizing offset with
  | nil => rfl
  | cons c pattern ih =>
    have hnext : (matchesAt? (min (offset + 1) maxOffset) pattern).run r =
        some (matchesAt r.source (offset + 1) pattern, r) :=
      matchesAt_min r.source (offset + 1) pattern ▸ ih
    rw [matchesAt?, matchesAt]
    by_cases hc : charAt r.source offset = c
    · simpa [hc] using hnext
    · simp [hc]

theorem run_matchesAfterBlanks? (h : length r.source - offset < rounds) (pattern : List Char) :
    (matchesAfterBlanks? rounds offset pattern).run r =
      some (matchesAfterBlanks r.source offset pattern, r) := by
  simp [matchesAfterBlanks?, run_skipBlanks? h, run_matchesAt?, matchesAfterBlanks]

/-! ## The rest of the text -/

/-- What the look aheads of a reader give and do, from every offset and for every pattern. -/
structure LooksAhead (r : Reader σ) : Prop where
  next_eq : ∀ offset,
    nextNonBlank r.source offset = (restBehindBlanks r.source offset).headD sentinel
  next_eq_sentinel_iff : ∀ offset,
    nextNonBlank r.source offset = sentinel ↔ restBehindBlanks r.source offset = []
  /-- Behind the rest, a pattern is compared with as many sentinels as it takes. -/
  matches_iff : ∀ offset pattern, matchesAfterBlanks r.source offset pattern = true ↔
    ∃ n, pattern <+: restBehindBlanks r.source offset ++ List.replicate n sentinel
  /-- The loop takes no more rounds than characters are left, and one more. It adds no two offsets
  past the largest one, and the reader stays where it is. -/
  run_next : ∀ offset, (nextNonBlank? (length r.source - offset + 1) offset).run r =
    some (nextNonBlank r.source offset, r)
  run_matches : ∀ offset pattern,
    (matchesAfterBlanks? (length r.source - offset + 1) offset pattern).run r =
      some (matchesAfterBlanks r.source offset pattern, r)
  /-- A pattern that does not end with a sentinel is found in the text only. -/
  matches_within : ∀ offset pattern, matchesAfterBlanks r.source offset pattern = true →
    pattern.getLast? ≠ some sentinel →
      pattern <+: restBehindBlanks r.source offset ∧
        ∀ i < pattern.length, skipBlanks r.source offset + i < length r.source

/-- Before sentinels without end, a look ahead sees the rest of the text. -/
theorem looksAhead_of_endsInSentinels (h : EndsInSentinels r.source) : LooksAhead r where
  next_eq := nextNonBlank_eq_headD r.source
  next_eq_sentinel_iff := nextNonBlank_eq_sentinel_iff r.source
  matches_iff offset pattern := by
    rw [matchesAfterBlanks, h.matchesAt_iff, restBehindBlanks_eq_suffix]
  run_next offset := run_nextNonBlank? (Nat.lt_succ_self _)
  run_matches offset := run_matchesAfterBlanks? (Nat.lt_succ_self _)
  matches_within := by
    intro offset pattern hmatches hlast
    rw [matchesAfterBlanks, h.matchesAt_iff, ← restBehindBlanks_eq_suffix] at hmatches
    obtain ⟨n, hn⟩ := hmatches
    have hwithin := prefix_of_prefix_append_sentinels hn hlast
    refine ⟨hwithin, fun i hi => ?_⟩
    have hle := hwithin.length_le
    rw [restBehindBlanks_eq_suffix, length_suffix] at hle
    omega

/-- A character behind the end that is no sentinel is found there, though nothing is left. -/
theorem LooksAhead.endsInSentinels (h : LooksAhead r) : EndsInSentinels r.source := by
  intro offset hle
  have hskip := skipBlanks_of_length_le hle
  have hfound : matchesAfterBlanks r.source offset [charAt r.source offset] = true := by
    rw [matchesAfterBlanks, hskip, matchesAt, matchesAt, beq_self_eq_true, Bool.and_true]
  obtain ⟨n, hn⟩ := (h.matches_iff offset _).mp hfound
  rw [restBehindBlanks_eq_suffix, hskip, suffix_of_length_le hle, List.nil_append] at hn
  exact List.eq_of_mem_replicate (hn.subset List.mem_cons_self)

/-- **A look ahead sees what is left of the text behind the blanks iff the text ends in sentinels.**
From any offset, the next character that is not blank is then the first one of the rest, and it is
the sentinel only if nothing is left. A pattern matches iff it is a prefix of the rest with
sentinels behind it, so one that does not end with a sentinel stands within the text. Of every text,
the loops end, they move no reader and they add no two offsets past the largest one. -/
theorem looksAhead_iff_endsInSentinels (r : Reader σ) :
    LooksAhead r ↔ EndsInSentinels r.source :=
  ⟨LooksAhead.endsInSentinels, looksAhead_of_endsInSentinels⟩

/-- A colon that ends the text, with a sentinel behind it, and a look ahead from the largest offset.
-/
theorem looksAhead_iff_endsInSentinels_colon :
    let text := Snapshot.ofString "f\n :"
    let r : Reader Snapshot := ⟨text, 2⟩
    EndsInSentinels text ∧ matchesAfterBlanks text 1 [':', ' '] = true ∧
      skipBlanks text 1 + 0 < length text ∧
      (nextNonBlank? 1 maxOffset).run r = some (sentinel, r) := by
  intro text r
  have hsees := (looksAhead_iff_endsInSentinels r).mpr (Source.endsInSentinels text)
  have hrest : restBehindBlanks text 1 = [':'] := by decide +kernel
  have hnone : restBehindBlanks text maxOffset = [] := by decide +kernel
  -- The space of the pattern is no character of the text.
  have hpadded : matchesAfterBlanks text 1 [':', ' '] = true := by
    rw [hsees.matches_iff 1 [':', ' '], hrest]
    exact ⟨1, by decide⟩
  have hcolon : matchesAfterBlanks text 1 [':'] = true := by
    rw [hsees.matches_iff 1 [':'], hrest]
    exact ⟨0, by decide⟩
  have hwithin := (hsees.matches_within 1 [':'] hcolon (by decide)).2
  have hrun := hsees.run_next maxOffset
  rw [(hsees.next_eq_sentinel_iff maxOffset).mpr hnone,
    Nat.sub_eq_zero_of_le (length_le text), Nat.zero_add] at hrun
  exact ⟨Source.endsInSentinels text, hpadded, hwithin 0 (by decide), hrun⟩

/-- An array with one character more than offsets reach. From the largest offset, nothing is left of
the text and the next character is the sentinel, yet a pattern is found there. The character that is
left of the array itself is not given either. -/
theorem not_looksAhead_replicate :
    let text := Array.replicate (maxOffset + 1) 'x'
    let r : Reader (Array Char) := ⟨text, 0⟩
    length text = maxOffset ∧ restBehindBlanks text maxOffset = [] ∧
      nextNonBlank text maxOffset = sentinel ∧ matchesAfterBlanks text maxOffset ['x'] = true ∧
      (text.toList.drop maxOffset).dropWhile isBlank = ['x'] ∧ ¬ LooksAhead r := by
  intro text r
  have hsize : text.size = maxOffset + 1 := Array.size_replicate
  have hlength : length text = maxOffset := by
    rw [Readable.length_array, hsize]
    exact Nat.min_eq_right (Nat.le_succ maxOffset)
  have hread : charAt text maxOffset = 'x' := by
    rw [Readable.charAt_array, Nat.min_self, Array.getD,
      dif_pos (show maxOffset < text.size by omega)]
    exact Array.getElem_replicate _
  have hskip : skipBlanks text maxOffset = maxOffset :=
    skipBlanks_of_length_le (Nat.le_of_eq hlength)
  have hrest : restBehindBlanks text maxOffset = [] := by
    rw [restBehindBlanks_eq_suffix, hskip]
    exact suffix_of_length_le (Nat.le_of_eq hlength)
  have hnext := (nextNonBlank_eq_sentinel_iff text maxOffset).mpr hrest
  have hfound : matchesAfterBlanks text maxOffset ['x'] = true := by
    rw [matchesAfterBlanks, hskip, matchesAt, matchesAt, hread]
    rfl
  have hleft : (text.toList.drop maxOffset).dropWhile isBlank = ['x'] := by
    rw [Array.toList_replicate, List.drop_replicate, Nat.add_sub_cancel_left]
    decide
  refine ⟨hlength, hrest, hnext, hfound, hleft, fun h => ?_⟩
  have hblank := h.endsInSentinels maxOffset (Nat.le_of_eq hlength)
  exact absurd (hread.symm.trans hblank) (by decide)

end Reader

end OdinSyntax
