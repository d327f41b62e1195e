import PatternAutomata.Proofs.Search.Extent
import PatternAutomata.Proofs.Text.Boundary
import PatternAutomata.Search.Scan

/-!
# What a scan finds

A scan goes from boundary to boundary, and after a match from its end on, or from the next boundary
if the match is empty. So it passes every boundary once: a boundary is where a match begins, or it
lies inside of a match, or a search from there finds nothing.

## Main definitions

* `Matcher.scanFrom` — the leftmost match, looked for byte by byte.
* `Matcher.Rejects`, `Matcher.Leftmost` — what a scan for one match has found out.
* `Matcher.Scans` — the matches that are found one after the other.

## Main statements

* `Matcher.findAt_eq_scanFrom` — the leftmost match is the one that is found byte by byte.
* `Matcher.findAll_cases` — all matches are those that are found one after the other.
* `Automaton.findAll_covers` — where matches begin, and where none does.
-/
namespace PatternAutomata

namespace Matcher

/-- The first match from the boundary `offset` on. -/
def scanFrom (m : Matcher) (text : String) (offset : Nat) : Except Fault (Option Match) :=
  if _h : offset < text.utf8ByteSize then
    match m.exec text offset with
    | .error fault => .error fault
    | .ok (some p) => .ok (some (.ofPath m.automaton text p))
    | .ok none => scanFrom m text (Text.boundaryFrom text (offset + 1))
  else .ok none
termination_by text.utf8ByteSize - offset
decreasing_by
  have := Text.le_boundaryFrom text (offset + 1)
  omega

/-- Searches from the boundaries from `start` up to `stop` find nothing. -/
def Rejects (m : Matcher) (text : String) (start stop : Nat) : Prop :=
  ∀ o, start ≤ o → o < stop → Text.IsBoundary text o → m.exec text o = .ok none

/-- The match is that of a search from where it begins, before the end of the text. -/
structure Found (m : Matcher) (text : String) (r : Match) : Prop where
  lt_size : r.start < text.utf8ByteSize
  ordered : Span.Ordered text ⟨r.start, r.stop⟩
  exists_exec : ∃ path, m.exec text r.start = .ok (some path) ∧ r = .ofPath m.automaton text path

/-- The match is the first one from `start` on. -/
structure Leftmost (m : Matcher) (text : String) (start : Nat) (r : Match) : Prop
    extends m.Found text r where
  le_start : start ≤ r.start
  rejects : m.Rejects text start r.start

/-- Where a scan goes on after a match. -/
def resume (text : String) (r : Match) : Nat :=
  if r.start < r.stop then r.stop else Text.boundaryFrom text (r.stop + 1)

/-- From `offset` on the matches are found one after the other, and then no more. -/
inductive Scans (m : Matcher) (text : String) : Nat → List Match → Prop
  | done {offset : Nat} : m.findAt text offset = .ok none → Scans m text offset []
  | next {offset : Nat} {r : Match} {rs : List Match} : m.findAt text offset = .ok (some r) →
      Scans m text (resume text r) rs → Scans m text offset (r :: rs)

variable {m : Matcher} {text : String} {start stop offset : Nat} {r : Match} {rs : List Match}

theorem findAt_eq_findAmong (m : Matcher) (text : String) (start : Nat) :
    m.findAt text start = m.findAmong text (Text.startsAt text start) :=
  rfl

/-- The first match is the one that is found byte by byte. -/
theorem findAt_eq_scanFrom (m : Matcher) (text : String) (start : Nat) :
    m.findAt text start = m.scanFrom text (Text.boundaryFrom text start) := by
  rw [findAt_eq_findAmong]
  generalize hoffset : Text.boundaryFrom text start = offset
  fun_induction scanFrom m text offset generalizing start with
  | case1 offset hlt fault hexec =>
    subst hoffset
    rw [Text.startsAt_of_lt hlt, findAmong, hexec]
    rfl
  | case2 offset hlt p hexec =>
    subst hoffset
    rw [Text.startsAt_of_lt hlt, findAmong, hexec]
    rfl
  | case3 offset hlt hexec ih =>
    subst hoffset
    rw [Text.startsAt_of_lt hlt, findAmong, hexec]
    exact ih _ rfl
  | case4 offset hle =>
    subst hoffset
    rw [Text.startsAt_of_le (Nat.le_of_not_lt hle), findAmong]

theorem Rejects.of_boundaryFrom (h : m.Rejects text (Text.boundaryFrom text start) stop) :
    m.Rejects text start stop := by
  intro o hle hlt hbound
  exact h o (Text.boundaryFrom_le hbound hle) hlt hbound

theorem Rejects.cons (hexec : m.exec text start = .ok none)
    (h : m.Rejects text (start + 1) stop) : m.Rejects text start stop := by
  intro o hle hlt hbound
  rcases Nat.lt_or_eq_of_le hle with hafter | rfl
  · exact h o hafter hlt hbound
  · exact hexec

theorem Leftmost.of_boundaryFrom (h : m.Leftmost text (Text.boundaryFrom text start) r) :
    m.Leftmost text start r :=
  ⟨h.toFound, (Text.le_boundaryFrom text start).trans h.le_start, h.rejects.of_boundaryFrom⟩

theorem Leftmost.cons (hexec : m.exec text start = .ok none)
    (h : m.Leftmost text (start + 1) r) : m.Leftmost text start r :=
  ⟨h.toFound, (Nat.le_succ start).trans h.le_start, h.rejects.cons hexec⟩

theorem found_of_exec (hc : m.automaton.Closed) (hs : Text.IsBoundary text start)
    (hlt : start < text.utf8ByteSize) {path : Path} (h : m.exec text start = .ok (some path)) :
    (Match.ofPath m.automaton text path).start = start ∧
      m.Found text (.ofPath m.automaton text path) := by
  obtain ⟨hstart, haligned⟩ := aligned_of_exec hc hs h
  obtain rfl : path.start = start := hstart
  exact ⟨rfl, hlt, haligned.ordered, path, h, rfl⟩

/-- A search byte by byte fails where one of its searches does; else it finds nothing, or the first
match. -/
theorem scanFrom_cases (hc : m.automaton.Closed)
    (hs : offset < text.utf8ByteSize → Text.IsBoundary text offset) :
    (∃ fault o, m.scanFrom text offset = .error fault ∧ m.exec text o = .error fault) ∨
      (m.scanFrom text offset = .ok none ∧ m.Rejects text offset text.utf8ByteSize) ∨
      ∃ r, m.scanFrom text offset = .ok (some r) ∧ m.Leftmost text offset r := by
  fun_induction scanFrom m text offset with
  | case1 offset hlt fault hexec => exact .inl ⟨fault, offset, rfl, hexec⟩
  | case2 offset hlt p hexec =>
    obtain ⟨hstart, hfound⟩ := found_of_exec hc (hs hlt) hlt hexec
    refine .inr (.inr ⟨_, rfl, hfound, hstart.ge, fun o hle ho => ?_⟩)
    omega
  | case3 offset hlt hexec ih =>
    rcases ih Text.isBoundary_boundaryFrom with hfault | ⟨hnone, hrejects⟩ | ⟨r, hsome, hleft⟩
    · exact .inl hfault
    · exact .inr (.inl ⟨hnone, hrejects.of_boundaryFrom.cons hexec⟩)
    · exact .inr (.inr ⟨r, hsome, hleft.of_boundaryFrom.cons hexec⟩)
  | case4 offset hle =>
    refine .inr (.inl ⟨rfl, fun o hge hlt => ?_⟩)
    omega

theorem findAt_cases (hc : m.automaton.Closed) (text : String) (start : Nat) :
    (∃ fault o, m.findAt text start = .error fault ∧ m.exec text o = .error fault) ∨
      (m.findAt text start = .ok none ∧ m.Rejects text start text.utf8ByteSize) ∨
      ∃ r, m.findAt text start = .ok (some r) ∧ m.Leftmost text start r := by
  rw [findAt_eq_scanFrom]
  have hs (h : Text.boundaryFrom text start < text.utf8ByteSize) :
      Text.IsBoundary text (Text.boundaryFrom text start) := Text.isBoundary_boundaryFrom h
  rcases scanFrom_cases hc hs with hfault | ⟨hnone, hrejects⟩ | ⟨r, hsome, hleft⟩
  · exact .inl hfault
  · exact .inr (.inl ⟨hnone, hrejects.of_boundaryFrom⟩)
  · exact .inr (.inr ⟨r, hsome, hleft.of_boundaryFrom⟩)

theorem rejects_of_findAt (hc : m.automaton.Closed) (h : m.findAt text start = .ok none) :
    m.Rejects text start text.utf8ByteSize := by
  rcases findAt_cases hc text start with ⟨_, _, hfault, -⟩ | ⟨-, hrejects⟩ | ⟨_, hsome, -⟩
  · cases h.symm.trans hfault
  · exact hrejects
  · cases h.symm.trans hsome

theorem leftmost_of_findAt (hc : m.automaton.Closed) (h : m.findAt text start = .ok (some r)) :
    m.Leftmost text start r := by
  rcases findAt_cases hc text start with ⟨_, _, hfault, -⟩ | ⟨hnone, -⟩ | ⟨_, hsome, hleft⟩
  · cases h.symm.trans hfault
  · cases h.symm.trans hnone
  · cases h.symm.trans hsome
    exact hleft

theorem Scans.of_findAt_eq (h : m.Scans text offset rs)
    (heq : m.findAt text start = m.findAt text offset) : m.Scans text start rs := by
  cases h with
  | done hnone => exact .done (heq.trans hnone)
  | next hsome hrest => exact .next (heq.trans hsome) hrest

/-- Where the scan for all matches goes on is where the next match is looked for. -/
theorem findAt_resume (m : Matcher) (text : String) (hle : r.start ≤ r.stop) :
    m.findAt text (resume text r) = m.findAt text (max (r.start + 1) r.stop) := by
  unfold resume
  split
  · rename_i hlt
    rw [Nat.max_eq_right hlt]
  · rename_i hnlt
    rw [Nat.max_eq_left (by omega), findAt_eq_findAmong, Text.startsAt_boundaryFrom,
      show r.stop + 1 = r.start + 1 by omega]
    rfl

section Step

variable (hlt : Text.boundaryFrom text offset < text.utf8ByteSize)
include hlt

/-- At a boundary where nothing is found the scan goes on with the next one. -/
theorem scan_of_none (hexec : m.exec text (Text.boundaryFrom text offset) = .ok none) :
    m.findAt text offset = m.findAt text (Text.boundaryFrom text offset + 1) ∧
      m.findAllAmong text (Text.startsAt text offset) =
        m.findAllAmong text (Text.startsAt text (Text.boundaryFrom text offset + 1)) := by
  rw [findAt_eq_findAmong, Text.startsAt_of_lt hlt, findAmong, findAllAmong, hexec]
  exact ⟨rfl, rfl⟩

/-- At a boundary where there is a match the scan finds it, and goes on behind it. -/
theorem scan_of_some {p : Path}
    (hexec : m.exec text (Text.boundaryFrom text offset) = .ok (some p)) :
    m.findAt text offset = .ok (some (.ofPath m.automaton text p)) ∧
      m.findAllAmong text (Text.startsAt text offset) =
        (m.findAllAmong text (Text.startsAt text
          (max (Text.boundaryFrom text offset + 1) p.stop))).map
            (Match.ofPath m.automaton text p :: ·) := by
  rw [findAt_eq_findAmong, Text.startsAt_of_lt hlt, findAmong, findAllAmong, hexec,
    ← Text.dropWhile_startsAt]
  refine ⟨rfl, ?_⟩
  change (m.findAllAmong text _ >>= fun more => .ok (Match.ofPath m.automaton text p :: more)) = _
  cases m.findAllAmong text _ <;> rfl

end Step

/-- The scan for all matches fails where one of its searches does; else it finds them one after
the other. -/
theorem findAllAmong_cases (hc : m.automaton.Closed) (text : String) (offset : Nat) :
    (∃ fault o, m.findAllAmong text (Text.startsAt text offset) = .error fault ∧
        m.exec text o = .error fault) ∨
      ∃ rs, m.findAllAmong text (Text.startsAt text offset) = .ok rs ∧
        m.Scans text offset rs := by
  induction hn : text.utf8ByteSize - offset using Nat.strong_induction_on
    generalizing offset with
  | _ n ih =>
    subst hn
    have hle := Text.le_boundaryFrom text offset
    by_cases hlt : Text.boundaryFrom text offset < text.utf8ByteSize
    · have hafter (next : Nat) (h : Text.boundaryFrom text offset < next) :=
        ih (text.utf8ByteSize - next) (by omega) next rfl
      cases hexec : m.exec text (Text.boundaryFrom text offset) with
      | error fault =>
        left
        rw [Text.startsAt_of_lt hlt, findAllAmong, hexec]
        exact ⟨fault, _, rfl, hexec⟩
      | ok found =>
        cases found with
        | none =>
          obtain ⟨hfind, hall⟩ := scan_of_none hlt hexec
          rw [hall]
          rcases hafter _ (Nat.lt_succ_self _) with hfault | ⟨rs, hrs, hscans⟩
          · exact .inl hfault
          · exact .inr ⟨rs, hrs, hscans.of_findAt_eq hfind⟩
        | some p =>
          obtain ⟨hfind, hall⟩ := scan_of_some hlt hexec
          obtain ⟨hstart, hfound⟩ := found_of_exec hc (Text.isBoundary_boundaryFrom hlt) hlt hexec
          have hresume := findAt_resume m text hfound.ordered.le
          rw [hstart] at hresume
          rw [hall]
          rcases hafter _ (Nat.le_max_left _ p.stop) with
            ⟨fault, o, hfault, hexec'⟩ | ⟨rs, hrs, hscans⟩
          · exact .inl ⟨fault, o, by rw [hfault]; rfl, hexec'⟩
          · exact .inr ⟨_, by rw [hrs]; rfl, .next hfind (hscans.of_findAt_eq hresume)⟩
    · have hstarts := Text.startsAt_of_le (Nat.le_of_not_lt hlt)
      have hnone : m.findAt text offset = .ok none := by
        rw [findAt_eq_findAmong, hstarts, findAmong]
      rw [hstarts, findAllAmong]
      exact .inr ⟨[], rfl, .done hnone⟩

theorem findAll_cases (hc : m.automaton.Closed) (text : String) :
    (∃ fault o, m.findAll text = .error fault ∧ m.exec text o = .error fault) ∨
      ∃ rs, m.findAll text = .ok rs ∧ m.Scans text 0 rs := by
  have h := findAllAmong_cases hc text 0
  rw [Text.startsAt_zero] at h
  exact h

theorem le_resume (hle : r.start ≤ r.stop) (text : String) :
    r.start < resume text r ∧ r.stop ≤ resume text r := by
  unfold resume
  split
  · omega
  · have := Text.le_boundaryFrom text (r.stop + 1)
    omega

/-- No boundary lies between a match and where the scan goes on. -/
theorem resume_le {o : Nat} (hlt : r.start < o) (hle : r.stop ≤ o)
    (hbound : Text.IsBoundary text o) : resume text r ≤ o := by
  unfold resume
  split
  · exact hle
  · exact Text.boundaryFrom_le hbound (by omega)

theorem Scans.found (hc : m.automaton.Closed) (h : m.Scans text offset rs) :
    ∀ r ∈ rs, m.Found text r := by
  induction h with
  | done _ => nofun
  | next hfind _ ih => exact List.forall_mem_cons.2 ⟨(leftmost_of_findAt hc hfind).toFound, ih⟩

/-- Every match begins behind the one before, and not before its end. -/
theorem Scans.pairwise (hc : m.automaton.Closed) (h : m.Scans text offset rs) :
    (∀ r ∈ rs, offset ≤ r.start) ∧
      rs.Pairwise fun r r' => r.start < r'.start ∧ r.stop ≤ r'.start := by
  induction h with
  | done _ => exact ⟨nofun, .nil⟩
  | @next offset r rs hfind _ ih =>
    obtain ⟨hge, hpairwise⟩ := ih
    have hleft := leftmost_of_findAt hc hfind
    have hresume := le_resume hleft.ordered.le text
    have hstart := hleft.le_start
    refine ⟨List.forall_mem_cons.2 ⟨hstart, fun r' hr' => ?_⟩, .cons (fun r' hr' => ?_) hpairwise⟩
    · have := hge r' hr'
      omega
    · have := hge r' hr'
      omega

/-- A scan passes over every boundary. -/
theorem Scans.covers (hc : m.automaton.Closed) (h : m.Scans text offset rs) {o : Nat}
    (hle : offset ≤ o) (hlt : o < text.utf8ByteSize) (hbound : Text.IsBoundary text o) :
    (∃ r ∈ rs, r.start = o) ∨ (∃ r ∈ rs, r.start < o ∧ o < r.stop) ∨
      m.exec text o = .ok none := by
  induction h with
  | done hfind => exact .inr (.inr (rejects_of_findAt hc hfind o hle hlt hbound))
  | @next offset r rs hfind _ ih =>
    have hleft := leftmost_of_findAt hc hfind
    rcases Nat.lt_trichotomy o r.start with hbefore | rfl | hafter
    · exact .inr (.inr (hleft.rejects o hle hbefore hbound))
    · exact .inl ⟨r, List.mem_cons_self, rfl⟩
    · rcases Nat.lt_or_ge o r.stop with hinside | hbehind
      · exact .inr (.inl ⟨r, List.mem_cons_self, hafter, hinside⟩)
      · rcases ih (resume_le hafter hbehind hbound) with ⟨r', hr', h⟩ | ⟨r', hr', h⟩ | h
        · exact .inl ⟨r', List.mem_cons_of_mem _ hr', h⟩
        · exact .inr (.inl ⟨r', List.mem_cons_of_mem _ hr', h⟩)
        · exact .inr (.inr h)

end Matcher

namespace Automaton

variable {a : Automaton}

/-- Scans without limits in an automaton without dangling ids. The scan for all matches ends, and
they lie one behind the other: every boundary before the end is where exactly one of them begins, or
it lies inside of one, or a search from there finds nothing. From any offset on the first match is
that of the first boundary from which a search finds something. -/
theorem findAll_covers (hpos : 0 < a.stateCount) (hd : a.danglingIds = []) (text : String) :
    (∃ rs, Matcher.findAll ⟨a, {}⟩ text = .ok rs ∧ Matcher.Scans ⟨a, {}⟩ text 0 rs ∧
      rs.Pairwise (fun r r' => r.start < r'.start ∧ r.stop ≤ r'.start) ∧
      (∀ r ∈ rs, r.start < text.utf8ByteSize ∧ Span.Ordered text ⟨r.start, r.stop⟩ ∧
        ∃ path, Matcher.exec ⟨a, {}⟩ text r.start = .ok (some path) ∧ r = .ofPath a text path) ∧
      ∀ o, Text.IsBoundary text o → o < text.utf8ByteSize →
        (rs.map Match.start).count o = 1 ∨ (∃ r ∈ rs, r.start < o ∧ o < r.stop) ∨
          Matcher.exec ⟨a, {}⟩ text o = .ok none) ∧
    ∀ start,
      (∃ o path, start ≤ o ∧ o < text.utf8ByteSize ∧ Text.IsBoundary text o ∧
        Matcher.exec ⟨a, {}⟩ text o = .ok (some path) ∧
        Matcher.findAt ⟨a, {}⟩ text start = .ok (some (.ofPath a text path)) ∧
        ∀ o', start ≤ o' → o' < o → Text.IsBoundary text o' →
          Matcher.exec ⟨a, {}⟩ text o' = .ok none) ∨
      (Matcher.findAt ⟨a, {}⟩ text start = .ok none ∧
        ∀ o, start ≤ o → o < text.utf8ByteSize → Text.IsBoundary text o →
          Matcher.exec ⟨a, {}⟩ text o = .ok none) := by
  have hc := closed_of_danglingIds hpos hd
  have hno (o : Nat) (fault : Fault) : Matcher.exec ⟨a, {}⟩ text o ≠ .error fault := by
    obtain ⟨result, hexec, -⟩ := exec_accepting text hc o
    rw [hexec]
    nofun
  constructor
  · rcases Matcher.findAll_cases (m := ⟨a, {}⟩) hc text with
      ⟨fault, o, -, hfault⟩ | ⟨rs, hrs, hscans⟩
    · exact absurd hfault (hno o fault)
    obtain ⟨-, hpairwise⟩ := hscans.pairwise hc
    have hnodup : (rs.map Match.start).Nodup :=
      List.pairwise_map.2 (hpairwise.imp fun h => h.1.ne)
    refine ⟨rs, hrs, hscans, hpairwise, fun r hr => ?_, fun o hbound hlt => ?_⟩
    · have hfound := hscans.found hc r hr
      exact ⟨hfound.lt_size, hfound.ordered, hfound.exists_exec⟩
    rcases hscans.covers hc (Nat.zero_le o) hlt hbound with ⟨r, hr, rfl⟩ | hinside | hnone
    · exact .inl (List.count_eq_one_of_mem hnodup (List.mem_map_of_mem hr))
    · exact .inr (.inl hinside)
    · exact .inr (.inr hnone)
  · intro start
    rcases Matcher.findAt_cases (m := ⟨a, {}⟩) hc text start with
      ⟨fault, o, -, hfault⟩ | ⟨hnone, hrejects⟩ | ⟨r, hsome, hleft⟩
    · exact absurd hfault (hno o fault)
    · exact .inr ⟨hnone, hrejects⟩
    · obtain ⟨path, hexec, rfl⟩ := hleft.exists_exec
      exact .inl ⟨_, path, hleft.le_start, hleft.lt_size, hleft.ordered.start, hexec, hsome,
        hleft.rejects⟩

/-- A match begins at the second character; one byte later the next one is at the third. -/
theorem findAll_covers_tangle :
    0 < tangle.stateCount ∧ tangle.danglingIds = [] ∧
      (∃ rs, Matcher.findAll ⟨tangle, {}⟩ "1éa" = .ok rs ∧ (rs.map Match.start).count 1 = 1) ∧
      ∃ path, Matcher.findAt ⟨tangle, {}⟩ "1éa" 2 = .ok (some (.ofPath tangle "1éa" path)) := by
  have hpos : 0 < tangle.stateCount := by decide
  have hd : tangle.danglingIds = [] := by decide
  have hfirst : Matcher.exec ⟨tangle, {}⟩ "1éa" 0 = .ok none :=
    Matcher.exec_of_execWithin (n := 20) (by decide +kernel)
  have hsecond : Matcher.exec ⟨tangle, {}⟩ "1éa" 1 =
      .ok (some ⟨⟨3, 4⟩, [⟨2, 4⟩, ⟨1, 3⟩, ⟨2, 3⟩, ⟨1, 1⟩, ⟨0, 1⟩]⟩) :=
    Matcher.exec_of_execWithin (n := 20) (by decide +kernel)
  have hthird : Matcher.exec ⟨tangle, {}⟩ "1éa" 3 = .ok (some ⟨⟨3, 4⟩, [⟨2, 4⟩, ⟨1, 3⟩, ⟨0, 3⟩]⟩) :=
    Matcher.exec_of_execWithin (n := 20) (by decide +kernel)
  obtain ⟨⟨rs, hrs, -, -, hfound, hcovers⟩, hfind⟩ := findAll_covers hpos hd "1éa"
  refine ⟨hpos, hd, ⟨rs, hrs, ?_⟩, ?_⟩
  · rcases hcovers 1 (by decide) (by decide) with hone | ⟨r, hr, hbefore, -⟩ | hnone
    · exact hone
    · obtain ⟨-, -, path, hexec, -⟩ := hfound r hr
      rw [Nat.lt_one_iff.1 hbefore, hfirst] at hexec
      cases hexec
    · cases hsecond.symm.trans hnone
  · rcases hfind 2 with ⟨_, path, _, _, _, _, hat, _⟩ | ⟨_, hnone⟩
    · exact ⟨path, hat⟩
    · cases hthird.symm.trans (hnone 3 (by decide) (by decide) (by decide))

end Automaton

end PatternAutomata
