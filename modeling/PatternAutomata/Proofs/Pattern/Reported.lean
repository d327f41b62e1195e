import PatternAutomata.Proofs.Pattern.Traversal
import PatternAutomata.Proofs.Search.Scanning

/-!
# What a group reports was matched

A copy of a group is a region of its own. Whatever accepts from the entry of a region goes through
it to its exit before anything else, so the next visit to the exit of the copy ends the walk that
began with the last visit to its entry, in whatever loops the copy lies. So the text that a group
reports is text that its body matches.

## Main definition

* `Pattern.HasGroup` — a group with an index and a body is part of a pattern.

## Main statements

* `Pattern.Renders.exists_copy` — a copy of a group is a region of its body.
* `Region.walk_of_reports` — what a region reports is what a walk through it covers.
* `Pattern.group_sound` — the ranges of groups in a match that is found.
-/
namespace PatternAutomata

namespace Pattern

/-- A group with this index and this body is part of the pattern. -/
inductive HasGroup (index : Nat) (body : Pattern) : Pattern → Prop
  | here : HasGroup index body (.group (some index) body)
  | group {capture : Option Nat} {p : Pattern} :
      HasGroup index body p → HasGroup index body (.group capture p)
  | repeated {p : Pattern} {times : Repetition} {greedy : Bool} :
      HasGroup index body p → HasGroup index body (.repeated p times greedy)
  | branch {p : Pattern} {branches : List Pattern} :
      p ∈ branches → HasGroup index body p → HasGroup index body (.alternation branches)
  | item {p : Pattern} {items : List Pattern} :
      p ∈ items → HasGroup index body p → HasGroup index body (.sequence items)

variable {p body : Pattern} {r : Region} {index : Nat} {g : GroupSpan}

/-- Writing out a counted repetition adds no groups. -/
theorem HasGroup.of_unrolled {q : Pattern} {min : Nat} {max : Option Nat} {greedy : Bool}
    (h : HasGroup index body (.sequence (q.unrolled min max greedy))) :
    HasGroup index body q := by
  have hrepeated {times : Repetition} (h : HasGroup index body (.repeated q times greedy)) :
      HasGroup index body q := by
    cases h with
    | repeated h => exact h
  cases h with
  | item hmem h =>
    rcases List.mem_append.1 hmem with hmem | hmem
    · rwa [List.eq_of_mem_replicate hmem] at h
    cases max with
    | none =>
      rw [List.mem_singleton.1 hmem] at h
      exact hrepeated h
    | some max =>
      rw [List.eq_of_mem_replicate hmem] at h
      exact hrepeated h

/-- A copy of a group is a region of the body of the group, between the entry and the exit. -/
theorem Renders.exists_copy (hr : p.Renders r) {lo hi entry : Nat} (hn : r.Numbered lo hi)
    {edges : Nat → List Edge} (hfit : r.Fits edges entry) (hg : (index, g) ∈ r.spans) :
    ∃ body r', HasGroup index body p ∧ body.Renders r' ∧ r'.Numbered (g.entry + 1) g.exit ∧
      r'.Fits edges g.entry ∧ edges (r'.exit g.entry) = [.free g.exit] := by
  induction hr generalizing lo hi entry with
  | anchor | char | charClass | set | nil => cases hg
  | cons _ _ ih ih' =>
    obtain ⟨mid, hn, hn'⟩ := hn
    rcases List.mem_append.1 hg with hg | hg
    · obtain ⟨body, r', hgroup, h⟩ := ih hn hfit.1 hg
      exact ⟨body, r', .item List.mem_cons_self hgroup, h⟩
    · obtain ⟨body, r', hgroup, h⟩ := ih' hn' hfit.2 hg
      cases hgroup with
      | item hmem hgroup => exact ⟨body, r', .item (List.mem_cons_of_mem _ hmem) hgroup, h⟩
  | alternation _ ih =>
    obtain ⟨base, -, hnums, -⟩ := hn
    obtain ⟨i, hi, hg⟩ := List.mem_flatMap.1 hg
    have hi := List.mem_range.1 hi
    obtain ⟨body, r', hgroup, h⟩ := ih i hi (hnums i hi).2 (hfit.2.2 i hi).1 hg
    exact ⟨body, r', .branch (List.getElem_mem hi) hgroup, h⟩
  | block _ _ ih =>
    obtain ⟨-, -, hn, -⟩ := hn
    obtain ⟨body, r', hgroup, h⟩ := ih hn hfit.2.2.1 hg
    exact ⟨body, r', .repeated hgroup, h⟩
  | counted _ _ ih =>
    obtain ⟨body, r', hgroup, h⟩ := ih hn hfit hg
    exact ⟨body, r', .repeated hgroup.of_unrolled, h⟩
  | group _ ih =>
    obtain ⟨body, r', hgroup, h⟩ := ih hn hfit hg
    exact ⟨body, r', .group hgroup, h⟩
  | @capture i first last body r hr ih =>
    obtain ⟨rfl, hn, -⟩ := hn
    obtain ⟨-, hbody, hlast⟩ := hfit
    rcases List.mem_append.1 hg with hg | hg
    · obtain ⟨body, r', hgroup, h⟩ := ih hn hbody hg
      exact ⟨body, r', .group hgroup, h⟩
    · cases List.mem_singleton.1 hg
      exact ⟨body, r, .here, hr, hn, hbody, hlast⟩

end Pattern

/-- What is reported between the entry and the exit of a region that a run goes through is what a
walk through the region covers. The walk keeps between the entry and the exit, so the exit that is
reported is the one behind it. -/
theorem Region.walk_of_reports {a : Automaton} {text : String} {r : Region} {g : GroupSpan}
    {v : Visit} {run : List Visit} {span : Span} (hend : a.FinalsEnd)
    (hn : r.Numbered (g.entry + 1) g.exit) (hfit : r.Fits a.edgesOf g.entry)
    (hexit : a.edgesOf (r.exit g.entry) = [.free g.exit]) (h : a.Accepting text v run)
    (hspan : g.Reports (v :: run) span) :
    ∃ run' t, r.Walk a.flags text ⟨span.start, fun _ => none⟩ run' t ∧ t.offset = span.stop := by
  obtain ⟨before, after, hvisits, -, hfind⟩ := hspan
  have hafter := h.of_append hvisits
  obtain ⟨run₁, t, run₂, rfl, hwalk, hrest⟩ :=
    exists_walk (s := ⟨span.start, fun _ => none⟩) hend hfit hafter
  obtain ⟨run₃, rfl, -⟩ := hrest.along_free hend hexit
  have hnone : run₁.find? (·.state == g.exit) = none := by
    rw [List.find?_eq_none]
    intro w hw heq
    have hlt := (hwalk.state_mem hn w hw).2
    rw [beq_iff_eq.1 heq] at hlt
    exact lt_irrefl _ hlt
  rw [List.find?_append, hnone, Option.none_or, List.find?_cons_of_pos (by simp)] at hfind
  exact ⟨run₁, t, hwalk, congrArg Visit.offset (Option.some.inj hfind)⟩

/-- A match that is found without limits is that of a path which a search from where it begins
accepts. -/
theorem Matcher.found_of_search {a : Automaton} {text : String} {m : Match} (hc : a.Closed)
    (hm : (∃ start, Matcher.findAt ⟨a, {}⟩ text start = .ok (some m)) ∨
      ∃ ms, Matcher.findAll ⟨a, {}⟩ text = .ok ms ∧ m ∈ ms) :
    Matcher.Found ⟨a, {}⟩ text m := by
  rcases hm with ⟨start, hm⟩ | ⟨ms, hms, hm⟩
  · exact (leftmost_of_findAt hc hm).toFound
  · rcases findAll_cases (m := ⟨a, {}⟩) hc text with ⟨fault, o, hfault, -⟩ | ⟨rs, hrs, hscans⟩
    · cases hfault.symm.trans hms
    · cases hrs.symm.trans hms
      exact hscans.found hc m hm

namespace Pattern

/-- What a copy of a group reports of an accepted path is text that its body matches. -/
theorem Renders.exists_matches_of_locate {p : Pattern} {r : Region} {a : Automaton} {text : String}
    {start index : Nat} {path : Path} {g : GroupSpan} {span : Span} (hr : p.Renders r)
    (hregion : a.IsRegion r) (hexec : Matcher.exec ⟨a, {}⟩ text start = .ok (some path))
    (hg : (index, g) ∈ r.spans) (h : path.locate g = some span) :
    ∃ body, HasGroup index body p ∧ body.Matches a.flags text span.start span.stop := by
  obtain ⟨result, hresult, -, hsome⟩ := Automaton.exec_accepting text hregion.closed start
  cases hexec.symm.trans hresult
  obtain ⟨run, hvisits, haccepting⟩ := hsome path rfl
  have hspan := hregion.numbered.span_mem hg
  have hreports := (Path.locate_eq_some_iff (by omega)).1 h
  rw [hvisits] at hreports
  obtain ⟨body, r', hgroup, hbody, hnumbered, hfit, hexit⟩ :=
    hr.exists_copy hregion.numbered hregion.fits hg
  obtain ⟨run', t, hwalk, hstop⟩ :=
    r'.walk_of_reports hregion.finalsEnd hnumbered hfit hexit haccepting hreports
  exact ⟨body, hgroup, hstop ▸ hbody.matches_of_walk hwalk⟩

/-- A range that a match gives for a group lies within the match, on boundaries of the text, so that
its text can be taken; and the body of a group with this index matches the text there, anchors
looking at the whole text. -/
theorem group_sound {p : Pattern} {flags : Flags} {a : Automaton} {text : String} {m : Match}
    {index : Nat} {span : Span} (hn : p.nodes < 2 ^ 29) (hb : p.build flags = .ok a)
    (hm : (∃ start, Matcher.findAt ⟨a, {}⟩ text start = .ok (some m)) ∨
      ∃ ms, Matcher.findAll ⟨a, {}⟩ text = .ok ms ∧ m ∈ ms)
    (hindex : 1 ≤ index) (hspan : m.span? index = some span) :
    (m.start ≤ span.start ∧ span.start ≤ span.stop ∧ span.stop ≤ m.stop) ∧
      (Text.IsBoundary text span.start ∧ Text.IsBoundary text span.stop) ∧
      (∃ part, m.group? index = some part ∧
        Text.slice? text span.start span.stop = some part) ∧
      ∃ body, HasGroup index body p ∧ body.Matches flags text span.start span.stop := by
  obtain ⟨r, hr, hregion, rfl, hgroups⟩ := renders_of_build hn hb
  obtain ⟨-, hspans⟩ := groups_of_build hr hb hgroups
  have hfound := Matcher.found_of_search hregion.closed hm
  obtain ⟨path, hexec, rfl⟩ := hfound.exists_exec
  have hlocate := hspan
  rw [Match.span?_ofPath _ _ _ hindex, hspans] at hlocate
  obtain ⟨g, hg, hlocate⟩ := List.exists_of_findSome?_eq_some hlocate
  obtain ⟨-, haligned⟩ := Matcher.aligned_of_exec hregion.closed hfound.ordered.start hexec
  have hordered := haligned.ordered_of_locate hlocate
  obtain ⟨hstart, hstop⟩ := haligned.between_of_locate hlocate
  obtain ⟨part, hpart⟩ := hordered.exists_slice
  have hgroup : (Match.ofPath a text path).group? index = some part := by
    rw [Match.group?, hspan]
    exact hpart
  exact ⟨⟨hstart, hordered.le, hstop⟩, ⟨hordered.start, hordered.stop⟩, ⟨part, hgroup, hpart⟩,
    hr.exists_matches_of_locate hregion hexec (Group.mem_copies.1 hg) hlocate⟩

/-- A round enters one copy of a group or two, and loops for the group in it:
`(?:(b|(a)+){1,2}c)*`. -/
def nestedInRound : Pattern :=
  .repeated (.group none (.sequence [
    .repeated (.group (some 1) (.alternation [.char 'b',
      .repeated (.group (some 2) (.char 'a')) .plus true])) (.counted 1 (some 2)) true,
    .char 'c'])) .star true

theorem group_sound_nestedInRound :
    nestedInRound.nodes < 2 ^ 29 ∧
      ∃ a m, nestedInRound.build {} = .ok a ∧
        Matcher.findAt ⟨a, {}⟩ "aabcbc" 0 = .ok (some m) ∧
        m.span? 1 = some ⟨2, 3⟩ ∧ m.group? 1 = some "b" ∧ m.span? 2 = some ⟨1, 2⟩ ∧
        (∃ body, HasGroup 1 body nestedInRound ∧ body.Matches {} "aabcbc" 2 3) ∧
        ∃ body, HasGroup 2 body nestedInRound ∧ body.Matches {} "aabcbc" 1 2 := by
  have hfound : (nestedInRound.pathWithin {} "aabcbc" 0 200).map (fun x =>
      ((Match.ofPath x.1 "aabcbc" x.2).span? 1, (Match.ofPath x.1 "aabcbc" x.2).span? 2)) =
        some (some ⟨2, 3⟩, some ⟨1, 2⟩) := by
    decide +kernel
  obtain ⟨⟨a, path⟩, hpath, hfound⟩ := Option.map_eq_some_iff.1 hfound
  obtain ⟨hb, hexec⟩ := exec_of_pathWithin hpath
  obtain ⟨hspan, hspan'⟩ := Prod.mk.inj hfound
  have hm := Matcher.find_of_exec (by decide : Text.starts "aabcbc" = 0 :: [1, 2, 3, 4, 5]) hexec
  obtain ⟨-, -, ⟨part, hpart, hslice⟩, hbody⟩ :=
    group_sound (by decide) hb (.inl ⟨0, hm⟩) le_rfl hspan
  obtain ⟨-, -, -, hbody'⟩ := group_sound (by decide) hb (.inl ⟨0, hm⟩) (by decide) hspan'
  obtain rfl : part = "b" := Option.some.inj (hslice.symm.trans (by decide))
  exact ⟨by decide, a, _, hb, hm, hspan, hpart, hspan', hbody, hbody'⟩

end Pattern

end PatternAutomata
