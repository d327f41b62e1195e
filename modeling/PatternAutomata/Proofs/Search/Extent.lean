import PatternAutomata.Proofs.Search.Paths
import PatternAutomata.Proofs.Search.Thresholds
import PatternAutomata.Search.Match

/-!
# What an accepted path covers

Along an accepted path the search goes forward in the text, from boundary to boundary. So whatever
is read off the path is a piece of the text: what it matches, and what its groups match.

## Main definitions

* `Span.Ordered` — a range lies on boundaries, its end not before its beginning.
* `Path.Aligned` — the visits of a path lie on boundaries, in order.

## Main statements

* `Matcher.aligned_of_exec` — accepted paths are aligned.
* `Path.Aligned.ordered_of_locate` — so what a group matches lies on boundaries.
-/
namespace PatternAutomata

/-- Both ends lie between characters of the text, in order. -/
structure Span.Ordered (text : String) (span : Span) : Prop where
  start : Text.IsBoundary text span.start
  stop : Text.IsBoundary text span.stop
  le : span.start ≤ span.stop

/-- The visits lie between characters of the text, and none before an earlier one. -/
structure Path.Aligned (text : String) (p : Path) : Prop where
  isBoundary : ∀ v ∈ p.visits, Text.IsBoundary text v.offset
  ascending : p.visits.Pairwise fun v w => v.offset ≤ w.offset

theorem Span.Ordered.exists_slice {text : String} {span : Span} (h : span.Ordered text) :
    ∃ part, Text.slice? text span.start span.stop = some part := by
  obtain ⟨before, after, rfl, hstart⟩ := Text.isBoundary_iff.1 h.start
  obtain ⟨before', after', heq, hstop⟩ := Text.isBoundary_iff.1 h.stop
  have hle : before.utf8ByteSize ≤ before'.utf8ByteSize := by
    rw [hstart, hstop]
    exact h.le
  obtain ⟨part, rfl, rfl⟩ := Text.exists_between heq hle
  exact ⟨part, Text.slice?_eq_some_iff.2 ⟨before, after', rfl, hstart, hstop⟩⟩

namespace Automaton

variable {a : Automaton} {text : String} {v w : Visit} {run : List Visit}

theorem Joined.ordered (h : a.Joined text v w) (hv : Text.IsBoundary text v.offset) :
    Span.Ordered text ⟨v.offset, w.offset⟩ := by
  obtain ⟨e, -, -, hspans⟩ := h
  exact ⟨hv, (hspans.exists_slice hv).1, Label.le_of_pass? (Label.pass?_eq_some_iff.2 hspans)⟩

/-- A chain of steps goes forward from boundary to boundary. -/
theorem aligned_of_isChain (hv : Text.IsBoundary text v.offset)
    (h : (v :: run).IsChain (a.Joined text)) :
    (∀ w ∈ v :: run, Text.IsBoundary text w.offset) ∧
      (v :: run).Pairwise fun v w => v.offset ≤ w.offset := by
  induction run generalizing v with
  | nil => exact ⟨by simpa using hv, List.pairwise_singleton _ _⟩
  | cons w run ih =>
    obtain ⟨hjoined, hchain⟩ := List.isChain_cons_cons.1 h
    have hstep := hjoined.ordered hv
    obtain ⟨hbound, hascending⟩ := ih hstep.stop hchain
    refine ⟨List.forall_mem_cons.2 ⟨hv, hbound⟩, .cons (fun u hu => ?_) hascending⟩
    rcases List.mem_cons.1 hu with rfl | hu
    · exact hstep.le
    · exact hstep.le.trans (List.rel_of_pairwise_cons hascending hu)

end Automaton

namespace Matcher

variable {m : Matcher} {text : String} {start : Nat} {p : Path}

/-- A path that a search accepts, under whatever limits, begins where the search does, and its
visits are aligned. -/
theorem aligned_of_exec (hc : m.automaton.Closed) (hs : Text.IsBoundary text start)
    (h : m.exec text start = .ok (some p)) : p.start = start ∧ p.Aligned text := by
  obtain ⟨result, hplain, -, hsome⟩ := Automaton.exec_accepting text hc start
  obtain ⟨events, -, hverdict⟩ := exec_verdict m.limits hc hplain
  have hsame : m.exec text start = .ok result := (hverdict.of_ok h).2
  rw [h] at hsame
  obtain ⟨run, hvisits, haccepting⟩ := hsome p (Except.ok.inj hsame).symm
  obtain ⟨hbound, hascending⟩ := Automaton.aligned_of_isChain (v := ⟨0, start⟩) hs
    haccepting.isChain
  exact ⟨Path.start_eq hvisits, hvisits ▸ hbound, hvisits ▸ hascending⟩

/-- A search that gives no result has hit a limit. -/
theorem exceeded_of_exec (hc : m.automaton.Closed) {fault : Fault}
    (h : m.exec text start = .error fault) :
    ∃ pops peak, m.limits.Exceeded pops peak fault := by
  obtain ⟨result, hplain, -, -⟩ := Automaton.exec_accepting text hc start
  obtain ⟨events, -, ⟨-, hok⟩ | ⟨fault', hexceeded, hfault⟩⟩ := exec_verdict m.limits hc hplain
  · cases h.symm.trans hok
  · cases h.symm.trans hfault
    exact ⟨_, _, hexceeded⟩

end Matcher

namespace Path

variable {p : Path} {text : String}

theorem last_mem_visits (p : Path) : p.last ∈ p.visits := by
  simp [visits]

/-- What is read off a path lies between one of its visits and that visit or a later one. -/
theorem exists_of_locate {g : GroupSpan} {span : Span} (h : p.locate g = some span) :
    ∃ before entry after, p.visits = before ++ entry :: after ∧
      ∃ exit ∈ entry :: after, span = ⟨entry.offset, exit.offset⟩ := by
  unfold locate at h
  have hsplit := List.takeWhile_append_dropWhile (p := (·.state != g.entry))
    (l := p.last :: p.earlier)
  dsimp only at h
  generalize (p.last :: p.earlier).takeWhile (·.state != g.entry) = later at h hsplit
  generalize (p.last :: p.earlier).dropWhile (·.state != g.entry) = rest at h hsplit
  cases rest with
  | nil => cases h
  | cons entry earlier =>
    obtain ⟨exit, hexit, rfl⟩ := Option.map_eq_some_iff.1 h
    refine ⟨earlier.reverse, entry, later.reverse, ?_, exit, List.mem_of_find?_eq_some hexit, rfl⟩
    rw [visits, ← hsplit]
    simp

theorem Aligned.ordered_of_locate (hp : p.Aligned text) {g : GroupSpan} {span : Span}
    (h : p.locate g = some span) : span.Ordered text := by
  obtain ⟨before, entry, after, hvisits, exit, hexit, rfl⟩ := exists_of_locate h
  have hmem {v : Visit} (hv : v ∈ entry :: after) : v ∈ p.visits :=
    hvisits ▸ List.mem_append_right before hv
  have hafter : (entry :: after).Pairwise fun v w => v.offset ≤ w.offset :=
    (List.pairwise_append.1 (hvisits ▸ hp.ascending)).2.1
  refine ⟨hp.isBoundary entry (hmem List.mem_cons_self), hp.isBoundary exit (hmem hexit), ?_⟩
  rcases List.mem_cons.1 hexit with rfl | hexit
  · exact le_rfl
  · exact List.rel_of_pairwise_cons hafter hexit

/-- All visits lie between the first and the last one. -/
theorem Aligned.between (hp : p.Aligned text) :
    ∀ v ∈ p.visits, p.start ≤ v.offset ∧ v.offset ≤ p.stop := by
  intro v hv
  constructor
  · obtain ⟨first, run, hvisits⟩ := List.exists_cons_of_ne_nil (List.ne_nil_of_mem hv)
    have hascending := hp.ascending
    rw [hvisits] at hv hascending
    rw [start_eq hvisits]
    rcases List.mem_cons.1 hv with rfl | hv
    · exact le_rfl
    · exact List.rel_of_pairwise_cons hascending hv
  · have hvisits : p.visits = p.earlier.reverse ++ [p.last] := List.reverse_cons
    have hascending := hp.ascending
    rw [hvisits] at hv hascending
    rcases List.mem_append.1 hv with hv | hv
    · exact (List.pairwise_append.1 hascending).2.2 v hv p.last List.mem_cons_self
    · exact (congrArg Visit.offset (List.mem_singleton.1 hv)).le

/-- The whole path covers a piece of the text. -/
theorem Aligned.ordered (hp : p.Aligned text) : Span.Ordered text ⟨p.start, p.stop⟩ := by
  obtain ⟨v, run, hvisits⟩ : ∃ v run, p.visits = v :: run :=
    List.exists_cons_of_ne_nil (List.ne_nil_of_mem p.last_mem_visits)
  have hstart : p.start = v.offset := start_eq hvisits
  refine ⟨?_, hp.isBoundary _ p.last_mem_visits, (hp.between _ p.last_mem_visits).1⟩
  rw [hstart]
  exact hp.isBoundary v (hvisits ▸ List.mem_cons_self)

/-- What is read off a path lies within the path. -/
theorem Aligned.between_of_locate (hp : p.Aligned text) {g : GroupSpan} {span : Span}
    (h : p.locate g = some span) : p.start ≤ span.start ∧ span.stop ≤ p.stop := by
  obtain ⟨before, entry, after, hvisits, exit, hexit, rfl⟩ := exists_of_locate h
  have hmem {v : Visit} (hv : v ∈ entry :: after) : v ∈ p.visits :=
    hvisits ▸ List.mem_append_right before hv
  exact ⟨(hp.between entry (hmem List.mem_cons_self)).1, (hp.between exit (hmem hexit)).2⟩

end Path

end PatternAutomata
