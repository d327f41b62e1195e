import Mathlib.Data.List.Perm.Basic
import PatternAutomata.Proofs.Pattern.Priority
import PatternAutomata.Proofs.Region.Copies

/-!
# What groups report

A match tells what its groups cover. Where all repetitions are greedy and no group has several
copies this is what matching by backtracking reports, which keeps the text of the last traversal
of a group. A group in a counted repetition has a copy for each round that is written out, and of
these the latest one on the path counts.

## Main statements

* `Pattern.exec_match_eq_head` — the match of a greedy pattern.
-/
namespace PatternAutomata

namespace Pattern

section Spans

variable {p : Pattern} {r : Region} {flags : Flags} {a : Automaton}

theorem mem_capturesAll {ps : List Pattern} {index : Nat} :
    index ∈ capturesAll ps ↔ ∃ p ∈ ps, index ∈ p.captures := by
  induction ps with
  | nil => simp [capturesAll]
  | cons p ps ih => simp [capturesAll, ih]

theorem mem_captures_of_unrolled {body : Pattern} {min : Nat} {max : Option Nat} {greedy : Bool}
    {index : Nat} (hmem : index ∈ (sequence (body.unrolled min max greedy)).captures) :
    index ∈ body.captures := by
  obtain ⟨p, hp, h⟩ := mem_capturesAll.1 hmem
  rcases List.mem_append.1 hp with hp | hp
  · rwa [List.eq_of_mem_replicate hp] at h
  cases max with
  | none => rwa [List.mem_singleton.1 hp] at h
  | some max => rwa [List.eq_of_mem_replicate hp] at h

/-- Copies are recorded only for the groups of a pattern. -/
theorem Renders.mem_captures (hr : p.Renders r) {index : Nat} {g : GroupSpan}
    (hg : (index, g) ∈ r.spans) : index ∈ p.captures := by
  induction hr with
  | anchor | char | charClass | set | nil => cases hg
  | cons _ _ ih ih' =>
    exact List.mem_append.2 ((List.mem_append.1 hg).imp ih ih')
  | alternation _ ih =>
    obtain ⟨i, hi, hg⟩ := List.mem_flatMap.1 hg
    have hi := List.mem_range.1 hi
    exact mem_capturesAll.2 ⟨_, List.getElem_mem hi, ih i hi hg⟩
  | block _ _ ih | group _ ih => exact ih hg
  | @counted body _ _ _ _ _ _ ih => exact (mem_captures_of_unrolled (ih hg) : index ∈ body.captures)
  | capture _ ih =>
    rcases List.mem_append.1 hg with hg | hg
    · exact List.mem_cons_of_mem _ (ih hg)
    · cases List.mem_singleton.1 hg
      exact List.mem_cons_self

theorem capturesAll_eq_flatMap (ps : List Pattern) : capturesAll ps = ps.flatMap captures := by
  induction ps with
  | nil => rfl
  | cons p ps ih => rw [capturesAll, ih, List.flatMap_cons]

/-- Unless a group is in a counted repetition, one copy of it is recorded. -/
theorem Renders.perm_captures (hr : p.Renders r)
    (h : p.AllRepeated fun body times _ => ∀ min max, times = .counted min max →
      body.captures = []) : (r.spans.map Prod.fst).Perm p.captures := by
  induction hr with
  | anchor | char | charClass | set | nil => exact .refl _
  | cons _ _ ih ih' =>
    obtain ⟨hp, hrest⟩ := List.forall_mem_cons.1 (allRepeated_sequence.1 h)
    rw [Region.spans, List.map_append]
    exact (ih hp).append (ih' (allRepeated_sequence.2 hrest))
  | @alternation branches _ _ _ _ ih =>
    rw [Region.spans, captures, capturesAll_eq_flatMap, flatMap_eq_flatMap_range branches,
      List.map_flatMap]
    apply List.Perm.flatMap_left _
    intro i hi
    have hi := List.mem_range.1 hi
    rw [List.getElem?_eq_getElem hi]
    exact ih i hi (allRepeated_alternation.1 h _ (List.getElem_mem hi))
  | block _ _ ih => exact ih (allRepeated_repeated.1 h).2
  | @counted body min max greedy r _ hr _ =>
    have hcaptures := (allRepeated_repeated.1 h).1 min max rfl
    have hspans : r.spans = [] := by
      rw [List.eq_nil_iff_forall_not_mem]
      rintro ⟨index, g⟩ hg
      have hmem := mem_captures_of_unrolled (hr.mem_captures hg)
      rw [hcaptures] at hmem
      cases hmem
    rw [hspans, captures, hcaptures]
    exact .refl _
  | group _ ih => exact ih (allRepeated_group.1 h)
  | @capture index _ _ body r _ ih =>
    rw [Region.spans, List.map_append]
    exact (List.perm_append_singleton index _).trans ((ih (allRepeated_group.1 h)).cons index)

theorem le_foldl_max {l : List Nat} {n : Nat} : n ≤ l.foldl max n ∧ ∀ x ∈ l, x ≤ l.foldl max n := by
  induction l generalizing n with
  | nil => exact ⟨le_rfl, nofun⟩
  | cons y l ih =>
    obtain ⟨hle, hall⟩ := @ih (max n y)
    refine ⟨(Nat.le_max_left n y).trans hle, List.forall_mem_cons.2 ⟨?_, hall⟩⟩
    exact (Nat.le_max_right n y).trans hle

/-- The captures of a pattern that was built are among the groups that were declared. -/
theorem index_bounds_of_build (hb : p.build flags = .ok a) {index : Nat}
    (hmem : index ∈ p.captures) : 1 ≤ index ∧ index < 1 + p.captures.foldl max 0 := by
  have hzero : 0 ∉ p.captures := (build_eq_ok_iff.1 hb).1
  have hle := (@le_foldl_max p.captures 0).2 index hmem
  have hne : index ≠ 0 := fun heq => hzero (heq ▸ hmem)
  omega

/-- The groups in the region of a pattern are among those that were declared. -/
theorem index_mem_of_build (hr : p.Renders r) (hb : p.build flags = .ok a) :
    ∀ s ∈ r.spans, 1 ≤ s.1 ∧ s.1 < 1 + p.captures.foldl max 0 :=
  fun _ hs => index_bounds_of_build hb (hr.mem_captures hs)

/-- What the automaton of a pattern knows of groups. -/
theorem groups_of_build (hr : p.Renders r) (hb : p.build flags = .ok a)
    (hgroups : a.groups = Group.record r.spans p.declaredGroups) :
    a.groupCount = p.captures.foldl max 0 ∧
      ∀ index, a.spansOf index = Group.copies r.spans index :=
  have hspans := index_mem_of_build hr hb
  ⟨Automaton.groupCount_of_record hspans hgroups, Automaton.spansOf_of_record hspans hgroups⟩

end Spans

section Greedy

variable {p : Pattern} {flags : Flags} {text : String}

theorem spelled_of_greedy (h : p.AllRepeated fun _ _ greedy => greedy = true) : p.spelled = p := by
  induction p using induct with
  | alternation branches ih =>
    rw [spelled, spelledAll_eq_map]
    have hmap := List.map_congr_left (g := id) fun q hq =>
      ih q hq (allRepeated_alternation.1 h q hq)
    rw [hmap, List.map_id]
  | sequence items ih =>
    rw [spelled, spelledAll_eq_map]
    have hmap := List.map_congr_left (g := id) fun q hq => ih q hq (allRepeated_sequence.1 h q hq)
    rw [hmap, List.map_id]
  | repeated body times greedy ih =>
    obtain ⟨rfl, hbody⟩ := allRepeated_repeated.1 h
    cases times with
    | counted min max => cases max <;> simp [spelled, ih hbody]
    | _ => simp [spelled, ih hbody]
  | group capture body ih => rw [spelled, ih (allRepeated_group.1 h)]
  | _ => rw [spelled]

theorem not_exposed_of_greedy (h : p.AllRepeated fun _ _ greedy => greedy = true) {offset : Nat} :
    ¬p.Exposed flags text offset := by
  intro hexposed
  induction hexposed with
  | lazyPlus => exact Bool.false_ne_true (allRepeated_repeated.1 h).1
  | round _ ih => exact ih (allRepeated_repeated.1 h).2
  | counted _ ih =>
    obtain ⟨hgreedy, h⟩ := allRepeated_repeated.1 h
    exact ih (h.unrolled hgreedy)
  | group _ ih => exact ih (allRepeated_group.1 h)
  | branch hmem _ ih => exact ih (allRepeated_alternation.1 h _ hmem)
  | first _ _ ih => exact ih (allRepeated_sequence.1 h _ List.mem_cons_self)
  | later _ _ ih =>
    exact ih (allRepeated_sequence.2 fun q hq =>
      allRepeated_sequence.1 h q (List.mem_cons_of_mem _ hq))

theorem sheltered_of_greedy (h : p.AllRepeated fun _ _ greedy => greedy = true) :
    p.Sheltered flags text := by
  induction p using induct with
  | alternation branches ih =>
    exact allRepeated_alternation.2 fun q hq => ih q hq (allRepeated_alternation.1 h q hq)
  | sequence items ih =>
    exact allRepeated_sequence.2 fun q hq => ih q hq (allRepeated_sequence.1 h q hq)
  | repeated body times greedy ih =>
    obtain ⟨-, h⟩ := allRepeated_repeated.1 h
    exact allRepeated_repeated.2 ⟨fun _ _ _ => not_exposed_of_greedy h, ih h⟩
  | group capture body ih => exact allRepeated_group.2 (ih (allRepeated_group.1 h))
  | _ => simp [Sheltered, AllRepeated, parts]

end Greedy

end Pattern

namespace Region.Walk

variable {r : Region} {flags : Flags} {text : String} {s t : Cursor} {run : List Visit}
  {path : Path} {hi index : Nat} {g : GroupSpan}

/-- The visit before a walk does not matter. -/
theorem accounted_visits (hn : r.Numbered 1 hi) (h : r.Walk flags text s run t)
    (hvisits : path.visits = ⟨0, s.offset⟩ :: run) (hg : (index, g) ∈ r.spans) :
    Accounted index g (r.spans.map Prod.fst).Nodup s path.visits t := by
  have hentry := (hn.span_mem hg).1
  rw [hvisits]
  exact (accounted_single (v := ⟨0, s.offset⟩) (Nat.ne_of_lt hentry) s).append (h.accounted hn hg)

/-- The match of a walk through a region whose groups have one copy each is what the cursor knows at
the end. -/
theorem ofPath_eq {a : Automaton} (hn : r.Numbered 1 hi) (hnodup : (r.spans.map Prod.fst).Nodup)
    (hspans : ∀ index, a.spansOf index = Group.copies r.spans index)
    (h : r.Walk flags text s run t) (hs : s.captures = fun _ => none)
    (hvisits : path.visits = ⟨0, s.offset⟩ :: run) :
    Match.ofPath a text path =
      ⟨text, ⟨s.offset, t.offset⟩, (List.range' 1 a.groupCount).map t.captures⟩ := by
  have hstop : path.stop = t.offset := by
    rw [Path.stop, Path.last_eq_getLastD hvisits, h.getLastD_eq]
  have hgroups (index : Nat) : (a.spansOf index).findSome? path.locate = t.captures index := by
    rw [hspans]
    by_cases hmem : index ∈ r.spans.map Prod.fst
    · obtain ⟨⟨i, g⟩, hg, rfl⟩ := List.mem_map.1 hmem
      have hspan := hn.span_mem hg
      rw [Group.copies_eq_singleton hnodup hg, List.findSome?_singleton]
      rcases h.accounted_visits hn hvisits hg with ⟨hpath, ht⟩ | ⟨span, hpath, ht⟩
      · rw [ht hnodup, hs, Path.locate_eq_none hpath]
      · rw [ht hnodup, (Path.locate_eq_some_iff (by omega)).2 hpath]
    · rw [Group.copies_eq_nil hmem, h.captures_eq hmem, hs]
      rfl
  rw [Match.ofPath, Path.start_eq hvisits, hstop]
  exact congrArg _ (List.map_congr_left fun index _ => hgroups index)

end Region.Walk

namespace Pattern

/-- A search for a pattern whose repetitions are greedy and whose bodies match no empty text gives
what matching by backtracking gives, groups included, if the groups are all different and none is in
a counted repetition. -/
theorem exec_match_eq_head {p : Pattern} {flags : Flags} {a : Automaton} {text : String}
    {start : Nat} (hn : p.nodes < 2 ^ 29) (hb : p.build flags = .ok a)
    (hs : Text.IsBoundary text start) (hconsuming : p.Consuming flags text)
    (hgreedy : p.AllRepeated fun _ _ greedy => greedy = true) (hnodup : p.captures.Nodup)
    (hcounted : p.AllRepeated fun body times _ => ∀ min max, times = .counted min max →
      body.captures = []) :
    ∃ result, Matcher.exec ⟨a, {}⟩ text start = .ok result ∧
      result.map (Match.ofPath a text) =
        (p.outcomes flags text ⟨start, fun _ => none⟩).head?.map fun t =>
          ⟨text, ⟨start, t.offset⟩, (List.range' 1 (p.captures.foldl max 0)).map t.captures⟩ := by
  obtain ⟨r, hr, hregion, rfl, hgroups⟩ := renders_of_build hn hb
  obtain ⟨hcount, hspans⟩ := groups_of_build hr hb hgroups
  have hp := hr.productive hconsuming
  have hfirst : SameFirst (r.outcomes a.flags text ⟨start, fun _ => none⟩)
      (p.spelled.outcomes a.flags text ⟨start, fun _ => none⟩) := hr.sameFirst _
  rw [spelled_of_greedy hgreedy] at hfirst
  rw [← hfirst.head?_eq]
  cases hhead : (r.outcomes a.flags text ⟨start, fun _ => none⟩).head? with
  | none => exact ⟨none, hregion.exec_eq_none hp hs hhead, rfl⟩
  | some t =>
    obtain ⟨path, run, hexec, hvisits, hwalk⟩ :=
      hregion.exists_exec hp (hr.sheltered (sheltered_of_greedy hgreedy)) hs hhead
    refine ⟨some path, hexec, congrArg some ?_⟩
    rw [hwalk.ofPath_eq hregion.numbered ((hr.perm_captures hcounted).nodup_iff.2 hnodup) hspans rfl
      hvisits, hcount]

/-- A group in a round of a loop that need not be entered in every round: `(?:(a)|(b(c)?))*`. -/
def keptGroup : Pattern :=
  .repeated (.group none (.alternation [.group (some 1) (.char 'a'), .group (some 2)
    (.sequence [.char 'b', .repeated (.group (some 3) (.char 'c')) .optional true])])) .star true

theorem exec_match_eq_head_keptGroup :
    keptGroup.nodes < 2 ^ 29 ∧ Text.IsBoundary "abcabx" 0 ∧ keptGroup.Consuming {} "abcabx" ∧
      (keptGroup.AllRepeated fun _ _ greedy => greedy = true) ∧ keptGroup.captures.Nodup ∧
      (keptGroup.AllRepeated fun body times _ => ∀ min max, times = .counted min max →
        body.captures = []) ∧
      ∃ a, keptGroup.build {} = .ok a ∧ ∃ result,
        Matcher.exec ⟨a, {}⟩ "abcabx" 0 = .ok result ∧ result.map (Match.ofPath a "abcabx") =
          some ⟨"abcabx", ⟨0, 5⟩, [some ⟨3, 4⟩, some ⟨4, 5⟩, some ⟨2, 3⟩]⟩ := by
  have hs : Text.IsBoundary "abcabx" 0 := by decide
  have hconsuming : keptGroup.Consuming {} "abcabx" := by
    simp only [Consuming, keptGroup, allRepeated_repeated, allRepeated_group,
      allRepeated_alternation, allRepeated_sequence, List.forall_mem_cons, allRepeated_char]
    refine ⟨fun offset _ h => ?_, trivial, ⟨trivial, ⟨fun offset _ h => ?_, trivial⟩,
      List.forall_mem_nil _⟩, List.forall_mem_nil _⟩
    · cases h with
      | group h =>
        cases h with
        | branch hmem h =>
          simp only [List.mem_cons, List.not_mem_nil, or_false] at hmem
          rcases hmem with rfl | rfl
          · cases h with
            | group h => exact lt_irrefl _ h.lt_of_char
          · cases h with
            | group h =>
              obtain ⟨j, h, h'⟩ := matches_cons_iff.1 h
              exact lt_irrefl _ (h.lt_of_char.trans_le h'.le)
    · cases h with
      | group h => exact lt_irrefl _ h.lt_of_char
  have hgreedy : keptGroup.AllRepeated fun _ _ greedy => greedy = true := by
    simp [keptGroup, allRepeated_repeated, allRepeated_group, allRepeated_alternation,
      allRepeated_sequence, allRepeated_char]
  have hcounted : keptGroup.AllRepeated fun body times _ => ∀ min max, times = .counted min max →
      body.captures = [] := by
    simp [keptGroup, allRepeated_repeated, allRepeated_group, allRepeated_alternation,
      allRepeated_sequence, allRepeated_char]
  obtain ⟨a, hb⟩ := exists_of_isOk (x := keptGroup.build {}) (by decide +kernel)
  obtain ⟨result, hexec, hmatch⟩ :=
    exec_match_eq_head (by decide) hb hs hconsuming hgreedy (by decide) hcounted
  exact ⟨by decide, hs, hconsuming, hgreedy, by decide, hcounted, a, hb, result, hexec,
    hmatch.trans (by decide +kernel)⟩

end Pattern

end PatternAutomata
