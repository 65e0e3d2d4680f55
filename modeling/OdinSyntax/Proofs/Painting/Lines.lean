import OdinSyntax.Painting.Painter
import OdinSyntax.Proofs.Scan.Lines

/-!
# Painting lines

A range of lines is painted by way of the region from the start of its first line to the end of the
content of its last one. That region leaves out the last line break, and for one empty line it is a
caret. All the same the answer is told by lines alone (`paintLines_eq_filter_startsOn`): it holds
the tokens of the whole text that start on a line of the range. So a text may be painted in parts,
cut at any lines, and the parts put together are the whole (`paintRanges_eq`).

A token lies within one line and has characters. Whether it meets the region therefore depends only
on whether its line is within the range (`intersects_lines_iff`), also where the region is a caret.
-/

namespace OdinSyntax

open Source Scan

/-! ## Regions of lines -/

namespace Snapshot

variable {s : Snapshot} {t : Span} {first stop : Nat}

/-- Whether `span` starts on one of the lines from `first` up to, and without, `stop`. -/
def startsOn (s : Snapshot) (first stop : Nat) (span : Span) : Bool :=
  first ≤ s.lineOf span.start && s.lineOf span.start < stop

theorem startsOn_iff :
    s.startsOn first stop t = true ↔ first ≤ s.lineOf t.start ∧ s.lineOf t.start < stop := by
  simp [startsOn]

/-- A span within one line ends behind the start of its line and of those before. -/
theorem lineStart_lt_stop_iff (hlt : t.start < t.stop)
    (hline : t.stop ≤ s.lineStop (s.lineOf t.start)) (h : first < s.lineCount) :
    s.lineStart first < t.stop ↔ first ≤ s.lineOf t.start := by
  constructor
  · intro hstop
    apply Nat.le_of_not_lt
    intro hbefore
    have hnext := lineStop_lt_lineStart hbefore h
    omega
  · intro hle
    have hstart := (le_lineOf_iff h).mp hle
    omega

/-- A span within one line starts before the end of its line and of those behind. -/
theorem start_lt_lineStop_iff (hlt : t.start < t.stop)
    (hline : t.stop ≤ s.lineStop (s.lineOf t.start)) (h : first < s.lineCount) :
    t.start < s.lineStop first ↔ s.lineOf t.start ≤ first := by
  constructor
  · intro hstart
    apply Nat.le_of_not_lt
    intro hbefore
    have hnext := lineStop_lt_lineStart hbefore (s.lineOf_lt t.start)
    have hle := s.lineStart_lineOf_le t.start
    omega
  · intro hle
    have hmono := lineStop_le_lineStop hle h
    omega

/-- A span within one line meets the region of a range of lines when its line is among them. -/
theorem intersects_lines_iff (hlt : t.start < t.stop)
    (hline : t.stop ≤ s.lineStop (s.lineOf t.start)) (h : first < stop)
    (h' : stop ≤ s.lineCount) :
    t.intersects ⟨s.lineStart first, s.lineStop (stop - 1)⟩ = true ↔
      s.startsOn first stop t = true := by
  have hfirst : s.lineStart first < t.stop ↔ first ≤ s.lineOf t.start :=
    lineStart_lt_stop_iff hlt hline (by omega)
  have hlast : t.start < s.lineStop (stop - 1) ↔ s.lineOf t.start ≤ stop - 1 :=
    start_lt_lineStop_iff hlt hline (by omega)
  rw [startsOn_iff, ← hfirst, show s.lineOf t.start < stop ↔ s.lineOf t.start ≤ stop - 1 by omega,
    ← hlast]
  by_cases hregion : s.lineStart first < s.lineStop (stop - 1)
  · rw [Span.intersects_iff_of_lt hregion]
    exact And.comm
  -- The region is a caret on an empty line. A token that contains it would be on a later line, and
  -- those start behind the caret.
  · rw [Span.intersects_iff_of_le (Nat.le_of_not_lt hregion)]
    show t.start ≤ s.lineStart first ∧ s.lineStart first < t.stop ↔ _
    have hcaret : s.lineStart first ≤ s.lineStop (stop - 1) :=
      Nat.le_trans (lineStart_le_lineStart (Nat.le_sub_one_of_lt h) (by omega))
        (lineStart_le_lineStop (by omega))
    constructor
    · rintro ⟨hstart, hstop⟩
      refine ⟨hstop, Nat.lt_of_not_le fun hbehind => ?_⟩
      have hlater : stop - 1 < s.lineOf t.start :=
        Nat.lt_of_not_le fun hle => absurd (hlast.mpr hle) (Nat.not_lt.mpr hbehind)
      have hnext := lineStop_lt_lineStart hlater (s.lineOf_lt t.start)
      have hle := s.lineStart_lineOf_le t.start
      omega
    · rintro ⟨hstop, hstart⟩
      exact ⟨by omega, hstop⟩

/-! ## Lists in the order of lines -/

/-- What starts on the lines up to `middle` is followed by what starts on the lines from there. -/
theorem filter_startsOn_append {painted : List Painted} {middle : Nat}
    (hordered : painted.Pairwise fun p q => s.lineOf p.span.start ≤ s.lineOf q.span.start)
    (h : first ≤ middle) (h' : middle ≤ stop) :
    painted.filter (s.startsOn first middle ·.span) ++
        painted.filter (s.startsOn middle stop ·.span) =
      painted.filter (s.startsOn first stop ·.span) := by
  induction hordered with
  | nil => rfl
  | @cons p painted hp _ ih =>
    by_cases hmiddle : s.lineOf p.span.start < middle
    · have hnot : ¬ s.startsOn middle stop p.span = true := by
        rw [startsOn_iff]
        omega
      have hsame : s.startsOn first middle p.span = s.startsOn first stop p.span := by
        rw [Bool.eq_iff_iff, startsOn_iff, startsOn_iff]
        omega
      rw [List.filter_cons, List.filter_cons, List.filter_cons, if_neg hnot, hsame, ← ih]
      split <;> rfl
    -- From here on nothing starts on a line before the middle.
    · have hnone : (p :: painted).filter (s.startsOn first middle ·.span) = [] := by
        rw [List.filter_eq_nil_iff]
        intro q hq
        rw [startsOn_iff]
        rcases List.mem_cons.mp hq with rfl | hq
        · omega
        · have hle := hp q hq
          omega
      rw [hnone, List.nil_append]
      apply List.filter_congr
      intro q hq
      have hle : s.lineOf p.span.start ≤ s.lineOf q.span.start := by
        rcases List.mem_cons.mp hq with rfl | hq
        · exact Nat.le_refl _
        · exact hp q hq
      rw [Bool.eq_iff_iff, startsOn_iff, startsOn_iff]
      omega

theorem filter_startsOn_self (painted : List Painted) (line : Nat) :
    painted.filter (s.startsOn line line ·.span) = [] := by
  rw [List.filter_eq_nil_iff]
  intro p _
  rw [startsOn_iff]
  omega

end Snapshot

/-! ## Ranges of lines -/

namespace Painter

variable {painter : Painter} {s : Snapshot}

/-- Paint the ranges of lines between consecutive bounds, and put the answers together. -/
def paintRanges (painter : Painter) (snapshot : Snapshot) :
    List Nat → Except PaintError (List Painted)
  | first :: stop :: bounds => do
    let painted ← painter.paintLines snapshot first stop
    let rest ← painter.paintRanges snapshot (stop :: bounds)
    return painted ++ rest
  | _ => .ok []

/-- What the painter finds in the whole text. -/
def paintedTokens (painter : Painter) (s : Snapshot) : List Painted :=
  (tokensOf painter.options (toList s)).map painter.paintToken

/-- To paint the whole text never fails. -/
theorem paintAll_eq (painter : Painter) (s : Snapshot) :
    painter.paintAll s = .ok (painter.paintedTokens s) := by
  have hwhole : (tokensOf painter.options (toList s)).filter (keeps s.whole) =
      tokensOf painter.options (toList s) := filter_keeps_whole painter.options s
  rw [paintAll, paint, if_neg (by exact Nat.lt_irrefl s.length), tokenize_eq_filter_keeps, hwhole,
    paintedTokens]

/-- What is painted comes line by line. -/
theorem pairwise_lineOf_paintedTokens (painter : Painter) (s : Snapshot) :
    (painter.paintedTokens s).Pairwise
      fun p q => s.lineOf p.span.start ≤ s.lineOf q.span.start := by
  have hkept := kept_tokensOf painter.options s
  rw [paintedTokens, List.pairwise_map]
  apply hkept.ordered.imp_of_mem
  intro t u ht _ hle
  have hlt := hkept.nonempty t ht
  exact Snapshot.lineOf_le_lineOf (Nat.le_trans (Nat.le_of_lt hlt) hle)

/-- A region of lines holds the tokens that start on one of them. -/
theorem paint_lines {first stop : Nat} (h : first < stop) (h' : stop ≤ s.lineCount) :
    painter.paint s ⟨s.lineStart first, s.lineStop (stop - 1)⟩ =
      .ok ((painter.paintedTokens s).filter (s.startsOn first stop ·.span)) := by
  have hwithin : s.lineStop (stop - 1) ≤ s.length := Snapshot.lineStop_le_length (by omega)
  have hkept := kept_tokensOf painter.options s
  rw [paint, if_neg (Nat.not_lt.mpr hwithin), tokenize_eq_filter_keeps, filter_keeps_eq,
    paintedTokens, List.filter_map]
  congr 2
  apply List.filter_congr
  intro t ht
  have hline := hkept.stop_le_lineStop (Nat.le_refl _) ht
  exact Bool.eq_iff_iff.mpr (Snapshot.intersects_lines_iff (hkept.nonempty t ht) hline h h')

/-- A range of lines that exist is painted, and so is an empty one. -/
theorem paintLines_eq_filter {first stop : Nat} (h : first ≤ stop) (h' : stop ≤ s.lineCount) :
    painter.paintLines s first stop =
      .ok ((painter.paintedTokens s).filter (s.startsOn first stop ·.span)) := by
  rw [paintLines, if_neg (by omega)]
  rcases Nat.eq_or_lt_of_le h with rfl | hlt
  · rw [if_pos rfl, Snapshot.filter_startsOn_self]
  · rw [if_neg (Nat.ne_of_lt hlt), Snapshot.lineSpan?_eq (by omega),
      Snapshot.lineSpan?_eq (by omega)]
    exact paint_lines hlt h'

/-- Ranges that follow each other give what starts on their lines. -/
theorem paintRanges_cons {first last : Nat} {bounds : List Nat}
    (hordered : (first :: bounds).Pairwise (· ≤ ·))
    (hlast : (first :: bounds).getLast? = some last) (h : last ≤ s.lineCount) :
    painter.paintRanges s (first :: bounds) =
      .ok ((painter.paintedTokens s).filter (s.startsOn first last ·.span)) := by
  induction bounds generalizing first with
  | nil =>
    obtain rfl : first = last := Option.some.inj hlast
    rw [Snapshot.filter_startsOn_self]
    rfl
  | cons stop bounds ih =>
    rw [List.getLast?_cons_cons] at hlast
    obtain ⟨hfirst, hrest⟩ := List.pairwise_cons.mp hordered
    have hle : first ≤ stop := hfirst stop List.mem_cons_self
    have hle' : stop ≤ last := by
      rcases List.mem_cons.mp (List.mem_of_getLast? hlast) with rfl | hmem
      · exact Nat.le_refl _
      · exact (List.pairwise_cons.mp hrest).1 last hmem
    rw [paintRanges, paintLines_eq_filter hle (Nat.le_trans hle' h), ih hrest hlast,
      ← Snapshot.filter_startsOn_append (painter.pairwise_lineOf_paintedTokens s) hle hle']
    rfl

/-- **Lines are painted as parts of the whole.** A range of lines is refused exactly when its bounds
are out of order or past the last line, and then with the error about lines. Otherwise the answer
holds what is painted in the whole text and starts on one of the lines, in the same order. Hence the
parts between consecutive bounds, from the first line to the last, put together are the whole. -/
theorem paintLines_eq_filter_startsOn (painter : Painter) (s : Snapshot) :
    ∃ all, painter.paintAll s = .ok all ∧
      (∀ first stop, painter.paintLines s first stop =
        if stop < first ∨ s.lineCount < stop then
          .error (.linesOutOfBounds first stop s.lineCount)
        else .ok (all.filter (s.startsOn first stop ·.span))) ∧
      ∀ bounds, bounds.head? = some 0 → bounds.getLast? = some s.lineCount →
        bounds.Pairwise (· ≤ ·) → painter.paintRanges s bounds = .ok all := by
  refine ⟨painter.paintedTokens s, painter.paintAll_eq s, ?_, ?_⟩
  · intro first stop
    by_cases hbounds : stop < first ∨ s.lineCount < stop
    · rw [if_pos hbounds, paintLines, if_pos hbounds]
    · rw [if_neg hbounds]
      exact paintLines_eq_filter (by omega) (by omega)
  · intro bounds hhead hlast hordered
    cases bounds with
    | nil => cases hhead
    -- By induction on the bounds, the parts behind the first bound are what starts on their lines.
    | cons first bounds =>
      obtain rfl : first = 0 := Option.some.inj hhead
      rw [paintRanges_cons hordered hlast (Nat.le_refl _)]
      congr 1
      rw [List.filter_eq_self]
      intro p _
      exact Snapshot.startsOn_iff.mpr ⟨Nat.zero_le _, s.lineOf_lt _⟩

/-- A line amid a comment by itself, and the text in four parts, one of them empty. -/
theorem paintLines_eq_filter_startsOn_commentedLines :
    ∃ all, Painter.paintAll {} commentedLines = .ok all ∧
      Painter.paintLines {} commentedLines 1 2 =
        .ok (all.filter (commentedLines.startsOn 1 2 ·.span)) ∧
      Painter.paintRanges {} commentedLines [0, 1, 1, 2, 4] = .ok all := by
  obtain ⟨all, hall, hlines, hranges⟩ := paintLines_eq_filter_startsOn {} commentedLines
  have hordered : [0, 1, 1, 2, 4].Pairwise (· ≤ ·) := by decide
  exact ⟨all, hall, hlines 1 2, hranges [0, 1, 1, 2, 4] rfl rfl hordered⟩

end Painter

end OdinSyntax
