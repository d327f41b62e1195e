import Mathlib.Algebra.BigOperators.Ring.List
import Mathlib.Algebra.Ring.Nat
import PatternAutomata.Proofs.Pattern.Traversal

/-!
# The groups of a built automaton

Every copy that is built of a group leaves a span behind. An occurrence of the group in a pattern is
copied by the counted repetitions around it, each multiplying the copies made by those inside; a
repetition that allows no round makes none, and the group is still there, with fewer spans or none.

## Main definitions

* `Repetition.copies` — how many copies a repetition makes of its body.
* `Pattern.occurrences` — where a group stands in a pattern.

## Main statement

* `Pattern.groups_eq_of_build` — the groups of the automaton of a pattern, and their spans.
-/
namespace PatternAutomata

/-- How many copies of its body a repetition makes. Only counted ones make several, or none. -/
def Repetition.copies : Repetition → Nat
  | optional | star | plus => 1
  | counted min none => min + 1
  | counted _ (some max) => max

namespace Region

variable {r : Region} {lo hi : Nat}

/-- The spans of a region are recorded as they are left. -/
theorem Numbered.spans_pairwise (hn : r.Numbered lo hi) :
    r.spans.Pairwise fun s s' => s.2.exit < s'.2.exit := by
  induction r generalizing lo hi with
  | empty | edge => exact List.Pairwise.nil
  | seq r r' ih ih' =>
    obtain ⟨mid, hn, hn'⟩ := hn
    refine List.pairwise_append.2 ⟨ih hn, ih' hn', fun s hs s' hs' => ?_⟩
    have := hn.span_mem hs
    have := hn'.span_mem hs'
    omega
  | alt count start part join ih =>
    obtain ⟨base, -, hnums, -, -⟩ := hn
    refine List.pairwise_flatMap.2 ⟨fun i hi => ih i (hnums i (List.mem_range.1 hi)).2, ?_⟩
    refine List.pairwise_lt_range.imp_of_mem fun {i j} _ hj hlt s hs s' hs' => ?_
    have hj := List.mem_range.1 hj
    have := (hnums i (hlt.trans hj)).2.span_mem hs
    have := (hnums j hj).2.span_mem hs'
    have := base_succ_le_of_numbered hnums hlt hj.le
    omega
  | block b body ih => exact ih hn.2.2.1
  | capture index first last body ih =>
    obtain ⟨-, hn, -⟩ := hn
    refine List.pairwise_append.2 ⟨ih hn, List.pairwise_singleton _ _, fun s hs s' hs' => ?_⟩
    have := hn.span_mem hs
    rw [List.mem_singleton.1 hs']
    exact this.2.2

/-- The copies of a group, from the first one to the last, are recorded as they are left. -/
theorem Numbered.exits_ascending (hn : r.Numbered lo hi) (index : Nat) :
    (Group.copies r.spans index).reverse.Pairwise fun g g' => g.exit < g'.exit := by
  rw [Group.copies, List.reverse_reverse, List.pairwise_map]
  exact hn.spans_pairwise.filter _

end Region

namespace Pattern

mutual

/-- The occurrences of group `index`, each given by the repetitions around it, the outermost
first. -/
def occurrences (index : Nat) : Pattern → List (List Repetition)
  | alternation branches => occurrencesAll index branches
  | sequence items => occurrencesAll index items
  | repeated body times _ => (body.occurrences index).map (times :: ·)
  | group capture body =>
    body.occurrences index ++ if capture = some index then [[]] else []
  | anchor _ | char _ | charClass _ | set _ _ => []

def occurrencesAll (index : Nat) : List Pattern → List (List Repetition)
  | [] => []
  | p :: rest => p.occurrences index ++ occurrencesAll index rest

end

/-- How many copies are made of all the occurrences. -/
def copiesOf (occurrences : List (List Repetition)) : Nat :=
  (occurrences.map fun around => (around.map Repetition.copies).prod).sum

variable {p : Pattern} {ps : List Pattern} {index : Nat} {os os' : List (List Repetition)}

theorem copiesOf_append : copiesOf (os ++ os') = copiesOf os + copiesOf os' := by
  rw [copiesOf, List.map_append, List.sum_append]
  rfl

/-- Another repetition around everything. -/
theorem copiesOf_map_cons (times : Repetition) :
    copiesOf (os.map (times :: ·)) = times.copies * copiesOf os := by
  rw [copiesOf, List.map_map, copiesOf, ← List.sum_map_mul_left]
  rfl

theorem copies_repeated (body : Pattern) (times : Repetition) (greedy : Bool) :
    copies index (.repeated body times greedy) = times.copies * body.copies index := by
  rcases times with _ | _ | _ | ⟨min, _ | max⟩ <;> simp [copies, Repetition.copies]

theorem copiesAll_eq_copiesOf (h : ∀ p ∈ ps, p.copies index = copiesOf (p.occurrences index)) :
    copiesAll index ps = copiesOf (occurrencesAll index ps) := by
  induction ps with
  | nil => rfl
  | cons p ps ih =>
    obtain ⟨hp, hps⟩ := List.forall_mem_cons.1 h
    rw [copiesAll, occurrencesAll, copiesOf_append, hp, ih hps]

/-- Each occurrence of a group counts as often as the repetitions around it copy it. -/
theorem copies_eq_copiesOf (p : Pattern) (index : Nat) :
    p.copies index = copiesOf (p.occurrences index) := by
  induction p using induct with
  | alternation branches ih | sequence branches ih =>
    rw [copies, occurrences]
    exact copiesAll_eq_copiesOf ih
  | repeated body times greedy ih => rw [copies_repeated, occurrences, copiesOf_map_cons, ih]
  | group capture body ih =>
    rw [copies, occurrences, copiesOf_append, ih]
    split <;> rfl
  | anchor | char | charClass | set => simp [copies, occurrences, copiesOf]

/-- The groups of the automaton are numbered without a gap up to the highest index in the pattern.
Each has as many spans as copies are made of its occurrences, and they are listed, from the first
one to the last, as they are left. -/
theorem groups_eq_of_build {p : Pattern} {flags : Flags} {a : Automaton} (hn : p.nodes < 2 ^ 29)
    (hb : p.build flags = .ok a) :
    a.groups = (List.range' 1 (p.captures.foldl max 0)).map (fun index =>
        ⟨index, a.spansOf index⟩) ∧
      ∀ index, (a.spansOf index).length = copiesOf (p.occurrences index) ∧
        (a.spansOf index).reverse.Pairwise fun g g' => g.exit < g'.exit := by
  obtain ⟨r, hr, hregion, -, hgroups⟩ := renders_of_build hn hb
  obtain ⟨-, hspans⟩ := groups_of_build hr hb hgroups
  refine ⟨?groups, fun index => ⟨?length, ?exits⟩⟩
  case groups =>
    rw [hgroups, declaredGroups]
    refine (Group.record_list (index_mem_of_build hr hb)).trans (List.map_congr_left ?_)
    intro index _
    simp only [hspans, List.append_nil]
  case length => rw [hspans, hr.length_copies, copies_eq_copiesOf]
  case exits =>
    rw [hspans]
    exact hregion.numbered.exits_ascending index

/-- The pattern `(?:(a(b))((d)){2,4}?|(c){0}){1,}` with its groups numbered 1, 1, 3, 3 and 5: copies
of copies, groups inside groups of the same index, and indices without copies. -/
def sharedIndex : Pattern :=
  .repeated (.alternation [
    .sequence [.group (some 1) (.sequence [.char 'a', .group (some 1) (.char 'b')]),
      .repeated (.group (some 3) (.group (some 3) (.char 'd'))) (.counted 2 (some 4)) false],
    .repeated (.group (some 5) (.char 'c')) (.counted 0 (some 0)) true]) (.counted 1 none) true

theorem groups_eq_of_build_sharedIndex :
    sharedIndex.nodes < 2 ^ 29 ∧ ∃ a, sharedIndex.build {} = .ok a ∧
      a.groups.map (·.index) = [1, 2, 3, 4, 5] ∧
      (a.spansOf 1).length = 4 ∧ (a.spansOf 2).length = 0 ∧ (a.spansOf 3).length = 16 ∧
      (a.spansOf 5).length = 0 ∧
      (a.spansOf 1).reverse.Pairwise fun g g' => g.exit < g'.exit := by
  obtain ⟨a, hb⟩ := exists_of_isOk (x := sharedIndex.build {}) (by decide +kernel)
  obtain ⟨hgroups, hspans⟩ := groups_eq_of_build (by decide) hb
  refine ⟨by decide, a, hb, ?_, (hspans 1).1, (hspans 2).1, (hspans 3).1, (hspans 5).1,
    (hspans 1).2⟩
  rw [hgroups, List.map_map]
  exact List.map_id _

end Pattern

end PatternAutomata
