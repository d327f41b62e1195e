import Mathlib.Algebra.GroupWithZero.Nat
import Mathlib.Data.List.Find
import PatternAutomata.Proofs.Pattern.Captures
import PatternAutomata.Search.Scan

/-!
# Which traversal of a group is reported

Of the copies of a group the latest one on the path counts, with its last traversal. This is the
most recent traversal of the group unless a loop holds several copies: then a lap may visit fewer of
them than the lap before.

## Main definitions

* `mostRecent?` — the span of the most recent traversal of copies.
* `Pattern.copies` — how many copies a group has.
* `Pattern.Orderly` — no loop holds several copies of a group, and no copy another one.

## Main statements

* `Pattern.find_span_eq_mostRecent` — the traversal that is reported.
* `Pattern.find_span_ne_mostRecent` — it need not be the most recent one.
-/
namespace PatternAutomata

section Visits

variable {P : Visit → Bool} {visits after : List Visit} {v : Visit} {copies : List GroupSpan}
  {g : GroupSpan} {span : Span}

/-- The last visit that satisfies a condition, and the visits after it. -/
def lastVisit? (P : Visit → Bool) : List Visit → Option (Visit × List Visit)
  | [] => none
  | v :: rest => (lastVisit? P rest).or (if P v then some (v, rest) else none)

/-- The span from the last visit to the entry of any of the copies to the next visit to the exit of
the same copy. -/
def mostRecent? (copies : List GroupSpan) (visits : List Visit) : Option Span := do
  let (entry, after) ← lastVisit? (fun v => copies.any (·.entry == v.state)) visits
  let g ← copies.find? (·.entry == entry.state)
  let exit ← after.find? (·.state == g.exit)
  return ⟨entry.offset, exit.offset⟩

theorem lastVisit?_eq_none_iff : lastVisit? P visits = none ↔ ∀ v ∈ visits, P v = false := by
  induction visits with
  | nil => simp [lastVisit?]
  | cons v visits ih =>
    rw [lastVisit?, Option.or_eq_none_iff, ih, List.forall_mem_cons, and_comm]
    simp

theorem lastVisit?_eq_some_iff : lastVisit? P visits = some (v, after) ↔
    ∃ before, visits = before ++ v :: after ∧ P v = true ∧ ∀ w ∈ after, P w = false := by
  induction visits with
  | nil => simp [lastVisit?]
  | cons u visits ih =>
    rw [lastVisit?, Option.or_eq_some_iff, ih, lastVisit?_eq_none_iff]
    constructor
    · rintro (⟨before, rfl, hv, hafter⟩ | ⟨hnone, hu⟩)
      · exact ⟨u :: before, rfl, hv, hafter⟩
      · cases hP : P u with
        | false => simp [hP] at hu
        | true =>
          obtain ⟨rfl, rfl⟩ : u = v ∧ visits = after := by simpa [hP] using hu
          exact ⟨[], rfl, hP, hnone⟩
    · rintro ⟨before, heq, hv, hafter⟩
      cases before with
      | nil =>
        obtain ⟨rfl, rfl⟩ := List.cons.inj heq
        exact .inr ⟨hafter, if_pos hv⟩
      | cons w before =>
        obtain ⟨rfl, rfl⟩ := List.cons.inj heq
        exact .inl ⟨before, rfl, hv, hafter⟩

theorem mostRecent?_eq_none (h : ∀ g ∈ copies, ∀ v ∈ visits, v.state ≠ g.entry) :
    mostRecent? copies visits = none := by
  have hnone : lastVisit? (fun v => copies.any (·.entry == v.state)) visits = none := by
    rw [lastVisit?_eq_none_iff]
    intro v hv
    simpa using fun g hg => (h g hg v hv).symm
  rw [mostRecent?, hnone]
  rfl

/-- What one of the copies reports is the most recent traversal, if no other copy is entered after
it. -/
theorem GroupSpan.Reports.mostRecent?_eq (h : g.Reports visits span)
    (hfind : copies.find? (·.entry == g.entry) = some g)
    (hother : ∀ before after, visits = before ++ ⟨g.entry, span.start⟩ :: after →
      ∀ g' ∈ copies, g' ≠ g → ∀ v ∈ after, v.state ≠ g'.entry) :
    mostRecent? copies visits = some span := by
  obtain ⟨before, after, hvisits, hafter, hexit⟩ := h
  have hlast : lastVisit? (fun v => copies.any (·.entry == v.state)) visits =
      some (⟨g.entry, span.start⟩, after) := by
    rw [lastVisit?_eq_some_iff]
    refine ⟨before, hvisits, ?_, fun v hv => ?_⟩
    · exact List.any_eq_true.2 ⟨g, List.mem_of_find?_eq_some hfind, beq_self_eq_true _⟩
    · rw [List.any_eq_false]
      intro g' hg' heq
      rw [beq_iff_eq] at heq
      by_cases hne : g' = g
      · exact hafter v hv (hne ▸ heq.symm)
      · exact hother before after hvisits g' hg' hne v hv heq.symm
  rw [mostRecent?, hlast]
  simp [hfind, hexit]

/-- With one copy, what is read off a path is its most recent traversal. -/
theorem Path.locate_eq_mostRecent? {p : Path} (hg : g.entry ≠ g.exit)
    (h : (∀ v ∈ p.visits, v.state ≠ g.entry) ∨ ∃ span, g.Reports p.visits span) :
    p.locate g = mostRecent? [g] p.visits := by
  rcases h with h | ⟨span, h⟩
  · rw [locate_eq_none h, mostRecent?_eq_none (List.forall_mem_singleton.2 h)]
  · rw [(locate_eq_some_iff hg).2 h, h.mostRecent?_eq (by simp)]
    intro _ _ _ g' hg' hne
    exact absurd (List.mem_singleton.1 hg') hne

end Visits

namespace Pattern

section Copies

mutual

/-- How many copies of group `index` there are, counted repetitions being written out. -/
def copies (index : Nat) : Pattern → Nat
  | alternation branches => copiesAll index branches
  | sequence items => copiesAll index items
  | repeated body (.counted min none) _ => (min + 1) * body.copies index
  | repeated body (.counted _ (some max)) _ => max * body.copies index
  | repeated body .optional _ | repeated body .star _ | repeated body .plus _ => body.copies index
  | group capture body => body.copies index + if capture = some index then 1 else 0
  | anchor _ | char _ | charClass _ | set _ _ => 0

def copiesAll (index : Nat) : List Pattern → Nat
  | [] => 0
  | p :: rest => p.copies index + copiesAll index rest

end

mutual

/-- No repetition without an upper bound holds several copies of group `index`, and no copy holds
another one. -/
def Orderly (index : Nat) : Pattern → Prop
  | alternation branches => OrderlyAll index branches
  | sequence items => OrderlyAll index items
  | repeated body times _ => body.Orderly index ∧ (times.isUnbounded = true → body.copies index ≤ 1)
  | group capture body =>
    body.Orderly index ∧ (capture = some index → body.copies index = 0)
  | anchor _ | char _ | charClass _ | set _ _ => True

def OrderlyAll (index : Nat) : List Pattern → Prop
  | [] => True
  | p :: rest => p.Orderly index ∧ OrderlyAll index rest

end

variable {p : Pattern} {ps qs : List Pattern} {r : Region} {index : Nat}

theorem copiesAll_append :
    copiesAll index (ps ++ qs) = copiesAll index ps + copiesAll index qs := by
  induction ps with
  | nil => rw [List.nil_append, copiesAll, Nat.zero_add]
  | cons p ps ih => rw [List.cons_append, copiesAll, copiesAll, ih, Nat.add_assoc]

theorem copiesAll_replicate (p : Pattern) (n : Nat) :
    copiesAll index (List.replicate n p) = n * p.copies index := by
  induction n with
  | zero => rw [List.replicate_zero, copiesAll, Nat.zero_mul]
  | succ n ih => rw [List.replicate_succ, copiesAll, ih, Nat.succ_mul, Nat.add_comm]

theorem copiesAll_eq_sum (ps : List Pattern) :
    copiesAll index ps = (ps.map (copies index)).sum := by
  induction ps with
  | nil => rfl
  | cons p ps ih => rw [copiesAll, ih, List.map_cons, List.sum_cons]

/-- Writing out a counted repetition makes no more and no fewer copies. -/
theorem copies_unrolled (body : Pattern) {min : Nat} {max : Option Nat} (greedy : Bool)
    (h : ∀ m, max = some m → min ≤ m) :
    copies index (sequence (body.unrolled min max greedy)) =
      copies index (.repeated body (.counted min max) greedy) := by
  cases max with
  | none =>
    rw [unrolled, copies, copiesAll_append, copiesAll_replicate, copies]
    simp only [copiesAll, copies]
    rw [Nat.add_zero, Nat.succ_mul]
  | some max =>
    have hle := h max rfl
    rw [unrolled, copies, copiesAll_append, copiesAll_replicate, copiesAll_replicate, copies,
      copies, ← Nat.add_mul, Nat.add_sub_cancel' hle]

theorem Renders.length_copies (hr : p.Renders r) (index : Nat) :
    (Group.copies r.spans index).length = p.copies index := by
  induction hr with
  | anchor | char | charClass | set | nil => rfl
  | cons _ _ ih ih' =>
    rw [Region.spans, Group.copies_append, List.length_append, ih, ih', Nat.add_comm]
    simp only [copies, copiesAll]
  | @alternation branches _ part _ _ ih =>
    rw [Region.spans, copies, copiesAll_eq_sum, Group.length_copies, List.countP_flatMap]
    congr 1
    apply List.ext_getElem (by simp)
    intro i _ hi
    rw [List.length_map] at hi
    simp only [List.getElem_map, List.getElem_range, Function.comp_apply, ← ih i hi,
      Group.length_copies]
  | @block body times b r ht _ ih =>
    rcases times with _ | _ | _ | _
    · exact ih
    · exact ih
    · exact ih
    · cases ht
  | counted hle _ ih => rw [ih, copies_unrolled _ _ hle]
  | group _ ih => simp [ih, copies]
  | @capture i _ _ body r _ ih =>
    rw [Region.spans, Group.copies_append, List.length_append, ih, copies, Nat.add_comm]
    by_cases hi : i = index <;> simp [Group.copies, hi]

theorem orderlyAll_iff : OrderlyAll index ps ↔ ∀ p ∈ ps, p.Orderly index := by
  induction ps with
  | nil => simp [OrderlyAll]
  | cons p ps ih => rw [OrderlyAll, ih, List.forall_mem_cons]

theorem Renders.orderly (hr : p.Renders r) (h : p.Orderly index) : r.Orderly index := by
  induction hr with
  | anchor | char | charClass | set | nil => trivial
  | cons _ _ ih ih' =>
    rw [Orderly, OrderlyAll] at h
    exact ⟨ih h.1, ih' (by rw [Orderly]; exact h.2)⟩
  | alternation _ ih =>
    rw [Orderly, orderlyAll_iff] at h
    exact fun i hi => ih i hi (h _ (List.getElem_mem hi))
  | @block body times b r ht hr ih =>
    rw [Orderly] at h
    refine ⟨ih h.1, fun hagain => ?_⟩
    rw [hr.length_copies]
    exact h.2 (Repetition.isUnbounded_of_again ht hagain)
  | @counted body min max greedy r _ _ ih =>
    rw [Orderly] at h
    apply ih
    rw [Orderly, orderlyAll_iff]
    intro q hq
    rcases List.mem_append.1 hq with hq | hq
    · rw [List.eq_of_mem_replicate hq]
      exact h.1
    cases max with
    | none =>
      rw [List.mem_singleton.1 hq, Orderly]
      exact ⟨h.1, fun _ => h.2 rfl⟩
    | some max =>
      rw [List.eq_of_mem_replicate hq, Orderly]
      exact ⟨h.1, nofun⟩
  | group _ ih =>
    rw [Orderly] at h
    exact ih h.1
  | @capture i _ _ body r hr ih =>
    rw [Orderly] at h
    refine ⟨ih h.1, fun hi => ?_⟩
    rw [← List.length_eq_zero_iff, hr.length_copies, h.2 (congrArg some hi)]

end Copies

end Pattern

/-- A match that is found is that of a path which a search from one of the offsets accepts. -/
theorem Matcher.exists_exec_of_findAmong {m : Matcher} {text : String} {starts : List Nat}
    {result : Match} (h : m.findAmong text starts = .ok (some result)) :
    ∃ start path, m.exec text start = .ok (some path) ∧
      result = .ofPath m.automaton text path := by
  induction starts with
  | nil => cases h
  | cons start starts ih =>
    unfold findAmong at h
    obtain ⟨found, hexec, h⟩ := exists_of_bind_eq_ok h
    cases found with
    | none => exact ih h
    | some path =>
      cases h
      exact ⟨start, path, hexec, rfl⟩

/-- A search that accepts at the beginning of the text gives the leftmost match. -/
theorem Matcher.find_of_exec {m : Matcher} {text : String} {starts : List Nat} {path : Path}
    (hstarts : Text.starts text = 0 :: starts) (h : m.exec text 0 = .ok (some path)) :
    m.find text = .ok (some (.ofPath m.automaton text path)) := by
  rw [find, findAt, hstarts, List.dropWhile_cons_of_neg (by simp), findAmong, h]
  rfl

theorem Automaton.spansOf_eq_nil {a : Automaton} {index : Nat} (h : a.groupCount < index) :
    a.spansOf index = [] := by
  have hnone : a.groups.find? (·.index == index) = none := by
    rw [List.find?_eq_none]
    intro g hg heq
    rw [groupCount, ← List.foldl_map (f := Group.index) (g := max)] at h
    have hle := (@Pattern.le_foldl_max (a.groups.map Group.index) 0).2 _ (List.mem_map_of_mem hg)
    rw [beq_iff_eq.1 heq] at hle
    omega
  rw [spansOf, hnone]
  rfl

theorem Match.span?_ofPath (a : Automaton) (text : String) (p : Path) {index : Nat}
    (h : 1 ≤ index) :
    (ofPath a text p).span? index = (a.spansOf index).findSome? p.locate := by
  obtain ⟨i, rfl⟩ := Nat.exists_eq_add_of_le' h
  rw [span?, spans, List.getElem?_cons_succ, ofPath, List.getElem?_map]
  rcases Nat.lt_or_ge i a.groupCount with hlt | hge
  · rw [List.getElem?_range' hlt, Option.map_some, Option.join_some, Nat.one_mul, Nat.add_comm]
  · rw [List.getElem?_eq_none (by simpa using hge), Automaton.spansOf_eq_nil (by omega)]
    rfl

namespace Region.Walk

variable {r : Region} {flags : Flags} {text : String} {s t : Cursor} {run : List Visit}
  {path : Path} {hi index : Nat} {g : GroupSpan}

/-- A copy has nothing to report only if it is not entered. -/
theorem locate_eq_none_iff (hn : r.Numbered 1 hi) (h : r.Walk flags text s run t)
    (hvisits : path.visits = ⟨0, s.offset⟩ :: run) (hg : (index, g) ∈ r.spans) :
    path.locate g = none ↔ ∀ v ∈ path.visits, v.state ≠ g.entry := by
  have hspan := hn.span_mem hg
  refine ⟨fun hnone => ?_, Path.locate_eq_none⟩
  rcases h.accounted_visits hn hvisits hg with ⟨hpath, -⟩ | ⟨span, hpath, -⟩
  · exact hpath
  · rw [(Path.locate_eq_some_iff (by omega)).2 hpath] at hnone
    cases hnone

/-- If no loop holds several copies then the latest copy on the path was entered most recently: an
earlier one is not entered after it. -/
theorem findSome?_locate_eq (hn : r.Numbered 1 hi) (ho : r.Orderly index)
    (h : r.Walk flags text s run t) (hvisits : path.visits = ⟨0, s.offset⟩ :: run) :
    (Group.copies r.spans index).findSome? path.locate =
      mostRecent? (Group.copies r.spans index) path.visits := by
  have hdescending := hn.copies_descending ho
  have hascending : Ascending (Group.copies r.spans index) path.visits := by
    rw [hvisits]
    exact (h.ascending hn ho).cons fun _ _ => Nat.zero_le _
  cases hsome : (Group.copies r.spans index).findSome? path.locate with
  | none =>
    rw [mostRecent?_eq_none]
    intro g hg
    exact (h.locate_eq_none_iff hn hvisits (Group.mem_copies.1 hg)).1
      (List.findSome?_eq_none_iff.1 hsome g hg)
  | some span =>
    obtain ⟨later, g, earlier, hcopies, hg, hlater⟩ := List.findSome?_eq_some_iff.1 hsome
    have hmem (g' : GroupSpan) (hg' : g' ∈ later ++ g :: earlier) : (index, g') ∈ r.spans :=
      Group.mem_copies.1 (hcopies ▸ hg')
    have hspan := hn.span_mem (hmem g (by simp))
    rw [hcopies] at hdescending hascending ⊢
    obtain ⟨-, hbelow, habove⟩ := List.pairwise_append.1 hdescending
    have hbelow := (List.pairwise_cons.1 hbelow).1
    symm
    refine ((Path.locate_eq_some_iff (by omega)).1 hg).mostRecent?_eq ?_ ?_
    · rw [List.find?_append, List.find?_eq_none.2, Option.none_or, List.find?_cons_of_pos (by simp)]
      intro g' hg'
      have := habove g' hg' g List.mem_cons_self
      simp only [beq_iff_eq]
      omega
    · intro before after hsplit g' hg' hne v hv hstate
      rcases List.mem_append.1 hg' with hlate | hearly
      · have hnone := (h.locate_eq_none_iff hn hvisits (hmem g' hg')).1 (hlater g' hlate)
        refine hnone v ?_ hstate
        rw [hsplit]
        exact List.mem_append_right _ (List.mem_cons_of_mem _ hv)
      · have hlt := hbelow g' ((List.mem_cons.1 hearly).resolve_left hne)
        rw [hsplit] at hascending
        have hle := (List.pairwise_cons.1 (List.pairwise_append.1 hascending).2.1).1 v hv
          ⟨g, by simp, rfl⟩ ⟨g', hg', hstate⟩
        simp only at hle
        omega

end Region.Walk

namespace Pattern

/-- A match reports the last traversal of the latest copy on the path. -/
theorem find_span_eq_mostRecent {p : Pattern} {flags : Flags} {a : Automaton} {text : String}
    {m : Match} {index : Nat} (hn : p.nodes < 2 ^ 29) (hb : p.build flags = .ok a)
    (hm : Matcher.find ⟨a, {}⟩ text = .ok (some m)) (hindex : 1 ≤ index) :
    ∃ path, Matcher.exec ⟨a, {}⟩ text m.start = .ok (some path) ∧ m = .ofPath a text path ∧
      (m.span? index = none ↔ ∀ g ∈ a.spansOf index, ∀ v ∈ path.visits, v.state ≠ g.entry) ∧
      (m.span? index = ((a.spansOf index).find? fun g =>
        path.visits.any (·.state == g.entry)).bind fun g => mostRecent? [g] path.visits) ∧
      (p.Orderly index → m.span? index = mostRecent? (a.spansOf index) path.visits) := by
  obtain ⟨r, hr, hregion, rfl, hgroups⟩ := renders_of_build hn hb
  obtain ⟨-, hspans⟩ := groups_of_build hr hb hgroups
  obtain ⟨start, path, hexec, rfl⟩ := Matcher.exists_exec_of_findAmong hm
  obtain ⟨result, hresult, -, hsome⟩ := hregion.exec_walk text ⟨start, fun _ => none⟩
  cases hexec.symm.trans hresult
  obtain ⟨run, t, hvisits, hwalk, -⟩ := hsome path rfl
  have hstart : (Match.ofPath a text path).start = start := Path.start_eq hvisits
  have hnumbered := hregion.numbered
  have hnone (g) (hg : g ∈ Group.copies r.spans index) :=
    hwalk.locate_eq_none_iff hnumbered hvisits (Group.mem_copies.1 hg)
  refine ⟨path, hstart.symm ▸ hexec, rfl, ?_⟩
  rw [Match.span?_ofPath _ _ _ hindex, hspans]
  refine ⟨?_, ?_, fun ho => hwalk.findSome?_locate_eq hnumbered (hr.orderly ho) hvisits⟩
  · rw [List.findSome?_eq_none_iff]
    exact forall₂_congr hnone
  · have hvisited : ∀ g ∈ Group.copies r.spans index,
        (path.locate g).isSome = path.visits.any (·.state == g.entry) := by
      intro g hg
      rw [Bool.eq_iff_iff, Option.isSome_iff_ne_none, ne_eq, hnone g hg]
      simp
    rw [SameFirst.findSome?_eq_bind, List.find?_congr hvisited]
    apply Option.bind_congr
    intro g hg
    have hmem := Group.mem_copies.1 (List.mem_of_find?_eq_some hg)
    have hspan := hnumbered.span_mem hmem
    refine Path.locate_eq_mostRecent? (by omega) ?_
    exact (hwalk.accounted_visits hnumbered hvisits hmem).imp And.left fun ⟨span, h, _⟩ => ⟨span, h⟩

/-- Every round that is written out has a loop of its own for the group: `(?:(a)*b){2,3}`. -/
def loopInRound : Pattern :=
  .repeated (.group none (.sequence [.repeated (.group (some 1) (.char 'a')) .star true,
    .char 'b'])) (.counted 2 (some 3)) true

theorem find_span_eq_mostRecent_loopInRound :
    loopInRound.nodes < 2 ^ 29 ∧ loopInRound.Orderly 1 ∧
      ∃ a m, loopInRound.build {} = .ok a ∧ Matcher.find ⟨a, {}⟩ "aababb" = .ok (some m) ∧
        ∃ path, Matcher.exec ⟨a, {}⟩ "aababb" m.start = .ok (some path) ∧
          (a.spansOf 1).length = 3 ∧ mostRecent? (a.spansOf 1) path.visits = some ⟨3, 4⟩ := by
  have horderly : loopInRound.Orderly 1 := by
    simp [loopInRound, Orderly, OrderlyAll, copies, Repetition.isUnbounded]
  have hfound : (loopInRound.pathWithin {} "aababb" 0 200).map (fun x =>
      ((x.1.spansOf 1).length, (Match.ofPath x.1 "aababb" x.2).span? 1)) =
        some (3, some ⟨3, 4⟩) := by
    decide +kernel
  obtain ⟨⟨a, path⟩, hpath, hfound⟩ := Option.map_eq_some_iff.1 hfound
  obtain ⟨hb, hexec⟩ := exec_of_pathWithin hpath
  obtain ⟨hlength, hspan⟩ := Prod.mk.inj hfound
  have hm := Matcher.find_of_exec (by decide : Text.starts "aababb" = 0 :: [1, 2, 3, 4, 5]) hexec
  obtain ⟨path, hexec, heq, -, -, hrecent⟩ :=
    find_span_eq_mostRecent (by decide) hb hm le_rfl
  exact ⟨by decide, horderly, a, _, hb, hm, path, hexec, hlength,
    (hrecent horderly).symm.trans hspan⟩

theorem exists_find_of_pathWithin {p : Pattern} {text : String} {n : Nat} {starts : List Nat}
    {span span' : Option Span} (hstarts : Text.starts text = 0 :: starts)
    (h : (p.pathWithin {} text 0 n).map (fun x => (x.2.start, (Match.ofPath x.1 text x.2).span? 1,
      mostRecent? (x.1.spansOf 1) x.2.visits)) = some (0, span, span')) :
    ∃ a m, p.build {} = .ok a ∧ Matcher.find ⟨a, {}⟩ text = .ok (some m) ∧
      ∃ path, Matcher.exec ⟨a, {}⟩ text m.start = .ok (some path) ∧
        m.span? 1 = span ∧ mostRecent? (a.spansOf 1) path.visits = span' := by
  obtain ⟨⟨a, path⟩, hpath, hfound⟩ := Option.map_eq_some_iff.1 h
  obtain ⟨hb, hexec⟩ := exec_of_pathWithin hpath
  obtain ⟨hstart, hspans⟩ := Prod.mk.inj hfound
  obtain ⟨hspan, hrecent⟩ := Prod.mk.inj hspans
  have hm := Matcher.find_of_exec hstarts hexec
  have hexec' : Matcher.exec ⟨a, {}⟩ text (Match.ofPath a text path).start = .ok (some path) := by
    rw [Match.start, Match.ofPath, hstart]
    exact hexec
  exact ⟨a, _, hb, hm, path, hexec', hspan, hrecent⟩

/-- A loop whose rounds enter one copy of the group, or two: `(?:(a){1,2}b)*`. -/
def copiesInRound : Pattern :=
  .repeated (.group none (.sequence [
    .repeated (.group (some 1) (.char 'a')) (.counted 1 (some 2)) true, .char 'b'])) .star true

/-- A group in a group of the same index. -/
def copyInCopy : Pattern :=
  .group (some 1) (.sequence [.char 'a', .group (some 1) (.char 'b')])

/-- In the loop the second copy is entered in the first round only, but it is the one that counts;
and of a copy and the one around it, it is the one around it that counts. -/
theorem find_span_ne_mostRecent :
    (copiesInRound.nodes < 2 ^ 29 ∧
      ∃ a m, copiesInRound.build {} = .ok a ∧ Matcher.find ⟨a, {}⟩ "aabab" = .ok (some m) ∧
        ∃ path, Matcher.exec ⟨a, {}⟩ "aabab" m.start = .ok (some path) ∧
          m.span? 1 = some ⟨1, 2⟩ ∧ mostRecent? (a.spansOf 1) path.visits = some ⟨3, 4⟩) ∧
    (copyInCopy.nodes < 2 ^ 29 ∧
      ∃ a m, copyInCopy.build {} = .ok a ∧ Matcher.find ⟨a, {}⟩ "ab" = .ok (some m) ∧
        ∃ path, Matcher.exec ⟨a, {}⟩ "ab" m.start = .ok (some path) ∧
          m.span? 1 = some ⟨0, 2⟩ ∧ mostRecent? (a.spansOf 1) path.visits = some ⟨1, 2⟩) := by
  have hround : Text.starts "aabab" = [0, 1, 2, 3, 4] := by decide
  have hcopy : Text.starts "ab" = [0, 1] := by decide
  refine ⟨⟨by decide, exists_find_of_pathWithin hround (n := 200) ?_⟩,
    by decide, exists_find_of_pathWithin hcopy (n := 200) ?_⟩
  · decide +kernel
  · decide +kernel

end Pattern

end PatternAutomata
