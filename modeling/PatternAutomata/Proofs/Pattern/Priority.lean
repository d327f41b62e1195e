import PatternAutomata.Proofs.Pattern.Acceptance
import PatternAutomata.Proofs.Region.Priority

/-!
# The preferred match

A search without limits ends where matching by backtracking would end first. Two things stand
against this as it is. A counted repetition is built as so many copies of its body, and if it is
not greedy, those that are optional are left out one by one, from the first on. And a repetition by
`+` that is not greedy, alone in the body of a loop, has its way back marked when the loop begins
another round.

## Main definitions

* `SameFirst` — lists in which every search finds the same element first.

## Main statement

* `Pattern.exec_stop_eq_head` — where a search ends.
-/
namespace PatternAutomata

/-- Whatever is searched for, the same element is found first in both lists. -/
def SameFirst {α : Type*} (l l' : List α) : Prop :=
  ∀ P : α → Bool, l.find? P = l'.find? P

namespace SameFirst

variable {α β : Type*} {l l' l₁ l₁' : List α} {f f' : α → List β}

theorem refl (l : List α) : SameFirst l l := fun _ => rfl

theorem trans {l'' : List α} (h : SameFirst l l') (h' : SameFirst l' l'') : SameFirst l l'' :=
  fun P => (h P).trans (h' P)

theorem find?_true (l : List α) : l.find? (fun _ => true) = l.head? := by
  cases l with
  | nil => rfl
  | cons => exact List.find?_cons_of_pos rfl

theorem head?_eq (h : SameFirst l l') : l.head? = l'.head? := by
  rw [← find?_true l, ← find?_true l', h]

theorem append (h : SameFirst l l') (h₁ : SameFirst l₁ l₁') : SameFirst (l ++ l₁) (l' ++ l₁') :=
  fun P => by rw [List.find?_append, List.find?_append, h, h₁]

theorem findSome?_eq_bind (g : α → Option β) (l : List α) :
    l.findSome? g = (l.find? fun x => (g x).isSome).bind g := by
  induction l with
  | nil => rfl
  | cons x l ih =>
    cases hx : g x with
    | none =>
      rw [List.findSome?_cons_of_isNone (by simp [hx]), List.find?_cons_of_neg (by simp [hx]), ih]
    | some y =>
      rw [List.findSome?_cons_of_isSome (by simp [hx]), List.find?_cons_of_pos (by simp [hx]),
        Option.bind_some]

theorem flatMap (h : SameFirst l l') (hf : ∀ x, SameFirst (f x) (f' x)) :
    SameFirst (l.flatMap f) (l'.flatMap f') := fun P => by
  rw [List.find?_flatMap, List.find?_flatMap, findSome?_eq_bind, findSome?_eq_bind, h]
  simp only [hf _ P]

theorem flatMap_of_mem (hf : ∀ x ∈ l, SameFirst (f x) (f' x)) :
    SameFirst (l.flatMap f) (l.flatMap f') := by
  induction l with
  | nil => exact .refl _
  | cons x l ih =>
    obtain ⟨hx, hl⟩ := List.forall_mem_cons.1 hf
    exact hx.append (ih hl)

theorem map (h : SameFirst l l') (g : α → β) : SameFirst (l.map g) (l'.map g) := fun P => by
  rw [List.find?_map, List.find?_map, h]

end SameFirst

namespace Repetition

variable {round round' : Cursor → List Cursor} {greedy : Bool}

theorem sameFirst_upTo (h : ∀ s, SameFirst (round s) (round' s)) (n : Nat) (s : Cursor) :
    SameFirst (upTo round greedy n s) (upTo round' greedy n s) := by
  induction n generalizing s with
  | zero => exact .refl _
  | succ n ih =>
    cases greedy with
    | true => exact ((h s).flatMap ih).append (.refl _)
    | false => exact (SameFirst.refl [s]).append ((h s).flatMap ih)

theorem sameFirst_exactly (h : ∀ s, SameFirst (round s) (round' s)) (n : Nat) (s : Cursor) :
    SameFirst (exactly round n s) (exactly round' n s) := by
  induction n generalizing s with
  | zero => exact .refl _
  | succ n ih => exact (h s).flatMap ih

theorem sameFirst_outcomes (h : ∀ s, SameFirst (round s) (round' s)) (length : Nat)
    (times : Repetition) (s : Cursor) :
    SameFirst (times.outcomes round greedy length s) (times.outcomes round' greedy length s) := by
  have hunbounded (s : Cursor) : SameFirst (unbounded round greedy length s)
      (unbounded round' greedy length s) := sameFirst_upTo h _ s
  rcases times with _ | _ | _ | ⟨min, _ | max⟩
  · exact sameFirst_upTo h 1 s
  · exact hunbounded s
  · exact (h s).flatMap hunbounded
  · exact (sameFirst_exactly h min s).flatMap hunbounded
  · exact (sameFirst_exactly h min s).flatMap (sameFirst_upTo h _)

/-- Optional rounds one after the other, each of which is preferred to stopping. To leave out the
first one adds nothing new but to stop, since more rounds end wherever fewer do. -/
theorem sameFirst_exactly_optional (n : Nat) (s : Cursor) :
    SameFirst (exactly (upTo round true 1) n s) (upTo round true n s) := by
  induction n generalizing s with
  | zero => exact .refl _
  | succ n ih =>
    have hone : upTo round true 1 s = round s ++ [s] := by simp [upTo]
    have hfirst : SameFirst (exactly (upTo round true 1) (n + 1) s)
        ((round s).flatMap (upTo round true n) ++ upTo round true n s) := by
      rw [exactly, hone, List.flatMap_append, List.flatMap_singleton]
      exact ((SameFirst.refl _).flatMap ih).append (ih s)
    apply hfirst.trans
    intro P
    rw [upTo, if_pos rfl, List.find?_append, List.find?_append]
    cases hfind : ((round s).flatMap (upTo round true n)).find? P with
    | some t => rfl
    | none =>
      rw [Option.none_or, Option.none_or]
      cases n with
      | zero => rfl
      | succ n =>
        have hless : ((round s).flatMap (upTo round true n)).find? P = none := by
          rw [List.find?_eq_none] at hfind ⊢
          intro t ht
          obtain ⟨m, hm, ht⟩ := List.mem_flatMap.1 ht
          obtain ⟨k, hk, ht⟩ := Region.mem_upTo_iff.1 ht
          exact hfind t (List.mem_flatMap.2
            ⟨m, hm, Region.mem_upTo_iff.2 ⟨k, hk.trans (Nat.le_succ n), ht⟩⟩)
        rw [upTo, if_pos rfl, List.find?_append, hless, Option.none_or]

end Repetition

namespace Pattern

section Spelled

variable {flags : Flags} {text : String} {s : Cursor}

theorem outcomesAll_append (ps qs : List Pattern) (s : Cursor) :
    outcomesAll flags text (ps ++ qs) s =
      (outcomesAll flags text ps s).flatMap (outcomesAll flags text qs) := by
  induction ps generalizing s with
  | nil => simp [outcomesAll]
  | cons p ps ih =>
    rw [List.cons_append, outcomesAll, outcomesAll, List.flatMap_assoc]
    exact congrArg (fun f => List.flatMap f (p.outcomes flags text s)) (funext ih)

theorem outcomesAll_replicate (p : Pattern) (n : Nat) (s : Cursor) :
    outcomesAll flags text (List.replicate n p) s =
      Repetition.exactly (p.outcomes flags text) n s := by
  induction n generalizing s with
  | zero => simp [outcomesAll, Repetition.exactly]
  | succ n ih =>
    rw [List.replicate_succ, outcomesAll, Repetition.exactly]
    exact congrArg (fun f => List.flatMap f (p.outcomes flags text s)) (funext ih)

/-- To write out a counted repetition does not change what is found first, unless it has an upper
bound and is not greedy. -/
theorem sameFirst_unrolled (p : Pattern) (min : Nat) {max : Option Nat} {greedy : Bool}
    (h : max = none ∨ greedy = true) (s : Cursor) :
    SameFirst ((sequence (p.unrolled min max greedy)).outcomes flags text s)
      ((repeated p (.counted min max) greedy).outcomes flags text s) := by
  rw [outcomes, outcomes, unrolled.eq_def, outcomesAll_append, outcomesAll_replicate]
  cases max with
  | none =>
    apply (SameFirst.refl _).flatMap
    intro t
    rw [outcomesAll, outcomes]
    simp only [outcomesAll, List.flatMap_singleton']
    exact .refl _
  | some max =>
    obtain rfl : greedy = true := h.resolve_left nofun
    apply (SameFirst.refl _).flatMap
    intro t
    rw [outcomesAll_replicate]
    exact Repetition.sameFirst_exactly_optional _ t

theorem spelledAll_append (ps qs : List Pattern) :
    spelledAll (ps ++ qs) = spelledAll ps ++ spelledAll qs := by
  induction ps with
  | nil => rfl
  | cons p ps ih => rw [List.cons_append, spelledAll, spelledAll, ih, List.cons_append]

theorem spelledAll_unrolled (p : Pattern) (min : Nat) (max : Option Nat) (greedy : Bool) :
    spelledAll (p.unrolled min max greedy) = p.spelled.unrolled min max greedy := by
  have hreplicate (q : Pattern) (n : Nat) :
      spelledAll (List.replicate n q) = List.replicate n q.spelled := by
    induction n with
    | zero => rfl
    | succ n ih => rw [List.replicate_succ, spelledAll, ih, List.replicate_succ]
  rw [unrolled.eq_def, spelledAll_append, hreplicate]
  cases max with
  | none => rfl
  | some max => rw [hreplicate]; rfl

end Spelled

section Renders

variable {flags : Flags} {text : String} {p : Pattern} {r : Region}

/-- The outcomes of an edge that consumes. -/
theorem outcomes_edge {label : Label} {target : Nat} (h : label.isEpsilon = false) (s : Cursor) :
    (Region.edge label target).outcomes flags text s =
      consumeOne text (label.accepts · flags.dotAll) s := by
  rw [Region.outcomes, consumeOne]
  cases label with
  | epsilon => cases h
  | _ =>
    simp only [Label.pass?]
    cases Text.charAt text s.offset with
    | none => rfl
    | some c =>
      simp only [Option.bind_some]
      split <;> rfl

theorem outcomesAny_eq_flatMap (branches : List Pattern) (s : Cursor) :
    outcomesAny flags text branches s = branches.flatMap fun p => p.outcomes flags text s := by
  induction branches with
  | nil => rfl
  | cons p rest ih => rw [outcomesAny, ih, List.flatMap_cons]

theorem spelledAll_eq_map (ps : List Pattern) : spelledAll ps = ps.map spelled := by
  induction ps with
  | nil => rfl
  | cons p ps ih => rw [spelledAll, ih, List.map_cons]

/-- What is found first among the outcomes of a pattern is found first among those of its
region. -/
theorem Renders.sameFirst (hr : p.Renders r) (s : Cursor) :
    SameFirst (r.outcomes flags text s) (p.spelled.outcomes flags text s) := by
  induction hr generalizing s with
  | @anchor x target =>
    rw [spelled, outcomes, Region.outcomes, Label.pass?]
    split <;> exact .refl _
  | @char c target =>
    rw [outcomes_edge rfl, spelled, outcomes]
    have haccepts : ((Label.char c).accepts · flags.dotAll) = (· == c) :=
      funext fun _ => Bool.beq_comm
    rw [haccepts]
    exact .refl _
  | charClass =>
    rw [outcomes_edge rfl]
    exact .refl _
  | @set negated items set target hset =>
    rw [outcomes_edge rfl, spelled, outcomes]
    have haccepts : ((Label.set set).accepts · flags.dotAll) = SetItem.admits negated items :=
      funext (SetItem.contains_of_foldlM hset)
    rw [haccepts]
    exact .refl _
  | nil => exact .refl _
  | cons _ _ ih ih' => exact (ih s).flatMap ih'
  | @alternation branches start part join _ ih =>
    rw [spelled, outcomes, Region.outcomes, outcomesAny_eq_flatMap, spelledAll_eq_map,
      List.flatMap_map, flatMap_eq_flatMap_range branches]
    apply SameFirst.flatMap_of_mem
    intro i hi
    have hi := List.mem_range.1 hi
    rw [List.getElem?_eq_getElem hi]
    exact ih i hi s
  | @block body times b r ht _ ih =>
    obtain ⟨start, inner, finish, next, shape, greedy⟩ := b
    simp only at ht
    rcases times with _ | _ | _ | _
    · obtain rfl := Option.some.inj ht
      exact Repetition.sameFirst_outcomes ih _ .optional s
    · obtain rfl := Option.some.inj ht
      exact Repetition.sameFirst_outcomes ih _ .star s
    · obtain rfl := Option.some.inj ht
      exact Repetition.sameFirst_outcomes ih _ .plus s
    · cases ht
  | @counted body min max greedy r hle _ ih =>
    have hsequence (s : Cursor) : SameFirst (r.outcomes flags text s)
        ((sequence (body.spelled.unrolled min max greedy)).outcomes flags text s) := by
      have h := ih s
      rwa [spelled, spelledAll_unrolled] at h
    cases max with
    | none => exact (hsequence s).trans (sameFirst_unrolled _ _ (.inl rfl) s)
    | some max =>
      cases greedy with
      | true => exact (hsequence s).trans (sameFirst_unrolled _ _ (.inr rfl) s)
      | false => exact hsequence s
  | group _ ih => exact ih s
  | capture _ ih => exact (ih s).map _

end Renders

section Conditions

variable {flags : Flags} {text : String} {p : Pattern} {r : Region} {offset : Nat}

theorem Renders.matches_of_idle (hr : p.Renders r) (h : r.Idle flags text offset) :
    p.Matches flags text offset offset := by
  obtain ⟨s, run, t, hs, ht, hwalk⟩ := h
  have hmatch := hr.matches_of_walk hwalk
  rwa [hs, ht] at hmatch

/-- The rounds in the region of a pattern consume something if those of the pattern do. -/
theorem Renders.productive (hr : p.Renders r) (h : p.Consuming flags text) :
    r.Productive flags text := by
  induction hr with
  | anchor | char | charClass | set | nil => trivial
  | cons _ _ ih ih' =>
    obtain ⟨hp, hrest⟩ := List.forall_mem_cons.1 (allRepeated_sequence.1 h)
    exact ⟨ih hp, ih' (allRepeated_sequence.2 hrest)⟩
  | alternation _ ih =>
    exact fun i hi => ih i hi (allRepeated_alternation.1 h _ (List.getElem_mem hi))
  | block _ hr ih =>
    obtain ⟨hbody, h⟩ := allRepeated_repeated.1 h
    exact ⟨ih h, fun offset hoffset hidle => hbody offset hoffset (hr.matches_of_idle hidle)⟩
  | counted _ _ ih =>
    obtain ⟨hbody, h⟩ := allRepeated_repeated.1 h
    exact ih (h.unrolled hbody)
  | group _ ih | capture _ ih => exact ih (allRepeated_group.1 h)

/-- What is exposed in the region of a pattern is exposed in the pattern. -/
theorem Renders.exposed (hr : p.Renders r) (h : r.Exposed flags text offset) :
    p.Exposed flags text offset := by
  induction hr with
  | anchor | char | charClass | set | nil => cases h
  | cons hr hr' ih ih' =>
    rcases h with ⟨h, h'⟩ | ⟨h, h'⟩
    · exact .first (ih h) (hr'.matches_of_idle h')
    · exact .later (hr.matches_of_idle h) (ih' h')
  | alternation _ ih =>
    obtain ⟨i, hi, h⟩ := h
    exact .branch (List.getElem_mem hi) (ih i hi h)
  | @block body times b r ht _ ih =>
    obtain ⟨hskip, h⟩ := h
    obtain rfl := Repetition.eq_plus_of_skip ht hskip
    rcases h with ⟨-, hgreedy⟩ | h
    · rw [hgreedy]
      exact .lazyPlus
    · exact .round (ih h)
  | counted _ _ ih => exact .counted (ih h)
  | group _ ih | capture _ ih => exact .group (ih h)

theorem Renders.sheltered (hr : p.Renders r) (h : p.Sheltered flags text) :
    r.Sheltered flags text := by
  induction hr with
  | anchor | char | charClass | set | nil => trivial
  | cons _ _ ih ih' =>
    obtain ⟨hp, hrest⟩ := List.forall_mem_cons.1 (allRepeated_sequence.1 h)
    exact ⟨ih hp, ih' (allRepeated_sequence.2 hrest)⟩
  | alternation _ ih =>
    exact fun i hi => ih i hi (allRepeated_alternation.1 h _ (List.getElem_mem hi))
  | @block body times b r ht hr ih =>
    obtain ⟨hbody, h⟩ := allRepeated_repeated.1 h
    refine ⟨ih h, fun hagain offset hoffset hexposed => ?_⟩
    exact hbody (Repetition.isUnbounded_of_again ht hagain) offset hoffset (hr.exposed hexposed)
  | @counted body min max greedy r _ _ ih =>
    obtain ⟨hbody, h⟩ := allRepeated_repeated.1 h
    refine ih (h.unrolled fun hunbounded => hbody ?_)
    cases max with
    | none => rfl
    | some max => cases hunbounded
  | group _ ih | capture _ ih => exact ih (allRepeated_group.1 h)

end Conditions

end Pattern

namespace Automaton

variable {a : Automaton} {r : Region} {text : String} {s t : Cursor}

/-- A search in a region rejects if the region has no outcome. -/
theorem IsRegion.exec_eq_none (hr : a.IsRegion r) (hp : r.Productive a.flags text)
    (hs : Text.IsBoundary text s.offset) (h : (r.outcomes a.flags text s).head? = none) :
    Matcher.exec ⟨a, {}⟩ text s.offset = .ok none := by
  obtain ⟨result, hexec, -, hsome⟩ := hr.exec_walk text s
  cases result with
  | none => exact hexec
  | some path =>
    obtain ⟨run, t, -, hwalk, -⟩ := hsome path rfl
    have hmem := Region.mem_outcomes_of_walk hp hs hwalk
    rw [List.head?_eq_none_iff.1 h] at hmem
    cases hmem

/-- A search in a region gives a walk to its first outcome. -/
theorem IsRegion.exists_exec (hr : a.IsRegion r) (hp : r.Productive a.flags text)
    (hsh : r.Sheltered a.flags text) (hs : Text.IsBoundary text s.offset)
    (h : (r.outcomes a.flags text s).head? = some t) :
    ∃ path run, Matcher.exec ⟨a, {}⟩ text s.offset = .ok (some path) ∧
      path.visits = ⟨0, s.offset⟩ :: run ∧ r.Walk a.flags text s run t := by
  rw [← SameFirst.find?_true] at h
  obtain ⟨run, hwalk, hleads⟩ := Region.leading hr.finalsEnd hr.fits hr.numbered hp hsh _ s t hs
    (fun u _ => iff_of_true rfl (hr.accepts_exit u.offset)) h
  have hguided := hleads {⟨0, s.offset⟩} [] (Set.empty_subset _) (fun u hu heq => ?_)
    (.final ((hr.final_iff _).2 rfl))
  · rw [List.append_nil] at hguided
    obtain ⟨path, hexec, hvisits⟩ := exec_of_guided hr.closed hguided
    exact ⟨path, run, hexec, hvisits, hwalk⟩
  · have hstate := (hwalk.state_mem hr.numbered u hu).1
    rw [Set.mem_singleton_iff.1 heq] at hstate
    cases hstate

end Automaton

namespace Pattern

/-- Where the search for a pattern ends. -/
theorem exec_stop_eq_head {p : Pattern} {flags : Flags} {a : Automaton} {text : String}
    {start : Nat} (hn : p.nodes < 2 ^ 29) (hb : p.build flags = .ok a)
    (hs : Text.IsBoundary text start)
    (hconsuming : p.Consuming flags text) (hsheltered : p.Sheltered flags text) :
    ∃ result, Matcher.exec ⟨a, {}⟩ text start = .ok result ∧
      result.map Path.stop =
        (p.spelled.outcomes flags text ⟨start, fun _ => none⟩).head?.map Cursor.offset := by
  obtain ⟨r, hr, hregion, rfl, -⟩ := renders_of_build hn hb
  have hp := hr.productive hconsuming
  rw [← (hr.sameFirst _).head?_eq]
  cases hhead : (r.outcomes a.flags text ⟨start, fun _ => none⟩).head? with
  | none => exact ⟨none, hregion.exec_eq_none hp hs hhead, rfl⟩
  | some t =>
    obtain ⟨path, run, hexec, hvisits, hwalk⟩ :=
      hregion.exists_exec hp (hr.sheltered hsheltered) hs hhead
    refine ⟨some path, hexec, congrArg some ?_⟩
    rw [Path.stop, Path.last_eq_getLastD hvisits, hwalk.getLastD_eq]

/-- A repetition by `+` that is not greedy may stand in the body of a greedy loop if something
follows it there: `(?:a+?b)+`. -/
def lazyInRound : Pattern :=
  .repeated (.group none (.sequence [.repeated (.char 'a') .plus false, .char 'b'])) .plus true

theorem exec_stop_eq_head_lazyInRound :
    lazyInRound.nodes < 2 ^ 29 ∧ Text.IsBoundary "aababa" 0 ∧
      lazyInRound.Consuming {} "aababa" ∧ lazyInRound.Sheltered {} "aababa" ∧
      ∃ a, lazyInRound.build {} = .ok a ∧ ∃ result,
        Matcher.exec ⟨a, {}⟩ "aababa" 0 = .ok result ∧ result.map Path.stop = some 5 := by
  have hs : Text.IsBoundary "aababa" 0 := by decide
  have hconsuming : lazyInRound.Consuming {} "aababa" := by
    simp only [Consuming, lazyInRound, allRepeated_repeated, allRepeated_group,
      allRepeated_sequence, List.forall_mem_cons, allRepeated_char]
    refine ⟨fun offset _ h => ?_, ⟨fun offset _ h => lt_irrefl _ h.lt_of_char, trivial⟩,
      trivial, nofun⟩
    cases h with
    | group h =>
      obtain ⟨j, h, h'⟩ := matches_cons_iff.1 h
      obtain ⟨k, h', h''⟩ := matches_cons_iff.1 h'
      exact lt_irrefl _ (h.le.trans_lt (h'.lt_of_char.trans_le h''.le))
  have hsheltered : lazyInRound.Sheltered {} "aababa" := by
    simp only [Sheltered, lazyInRound, allRepeated_repeated, allRepeated_group,
      allRepeated_sequence, List.forall_mem_cons, allRepeated_char]
    refine ⟨fun _ offset _ h => ?_, ⟨fun _ offset _ => nofun, trivial⟩, trivial, nofun⟩
    cases h with
    | group h =>
      cases h with
      | first _ h =>
        obtain ⟨j, h, h'⟩ := matches_cons_iff.1 h
        exact lt_irrefl _ (h.lt_of_char.trans_le h'.le)
      | later _ h => rcases h with _ | _ | _ | _ | _ | h | ⟨_, h⟩ <;> cases h
  obtain ⟨a, hb⟩ := exists_of_isOk (x := lazyInRound.build {}) (by decide +kernel)
  obtain ⟨result, hexec, hstop⟩ := exec_stop_eq_head (by decide) hb hs hconsuming hsheltered
  exact ⟨by decide, hs, hconsuming, hsheltered, a, hb, result, hexec,
    hstop.trans (by decide +kernel)⟩

/-- The automaton of a pattern, and the path that a search from `start` accepts within `n`
turns. -/
def pathWithin (p : Pattern) (flags : Flags) (text : String) (start n : Nat) :
    Option (Automaton × Path) := do
  let a ← (p.build flags).toOption
  let machine ← (Matcher.machineAt ⟨a, {}⟩ start).toOption
  let result ← Matcher.within ⟨a, {}⟩ text n machine
  let path ← result.toOption.join
  return (a, path)

theorem exec_of_pathWithin {p : Pattern} {flags : Flags} {text : String} {start n : Nat}
    {a : Automaton} {path : Path} (h : p.pathWithin flags text start n = some (a, path)) :
    p.build flags = .ok a ∧ Matcher.exec ⟨a, {}⟩ text start = .ok (some path) := by
  have hok {ε α : Type} {x : Except ε α} {y : α} (h : x.toOption = some y) : x = .ok y := by
    cases x with
    | error => cases h
    | ok z => exact congrArg _ (Option.some.inj h)
  obtain ⟨a', ha, h⟩ := Option.bind_eq_some_iff.1 h
  obtain ⟨machine, hmachine, h⟩ := Option.bind_eq_some_iff.1 h
  obtain ⟨result, hresult, h⟩ := Option.bind_eq_some_iff.1 h
  obtain ⟨path', hpath, h⟩ := Option.bind_eq_some_iff.1 h
  cases h
  refine ⟨hok ha, ?_⟩
  rw [Matcher.exec, hok hmachine]
  refine (Matcher.run_of_within hresult).trans (hok ?_)
  cases hjoin : result.toOption with
  | none => rw [hjoin] at hpath; cases hpath
  | some x => rw [hjoin] at hpath; exact congrArg some hpath

/-- A repetition by `+` that is not greedy, alone in the body of a greedy loop: `(?:a+?)+`. -/
def lazyRounds : Pattern :=
  .repeated (.group none (.repeated (.char 'a') .plus false)) .plus true

/-- A counted repetition that is not greedy, with a body that may be longer or shorter:
`(?:a|aab){0,2}?[bc]`. -/
def lazyCopies : Pattern :=
  .sequence [.repeated (.group none (.alternation [.char 'a',
    .sequence [.char 'a', .char 'a', .char 'b']])) (.counted 0 (some 2)) false,
    .set false [.char 'b', .char 'c']]

/-- Neither an exposed repetition nor a counted one that is not greedy need be followed as a matcher
by backtracking follows it. -/
theorem exec_stop_ne_head :
    (lazyRounds.nodes < 2 ^ 29 ∧ (∀ text, lazyRounds.Consuming {} text) ∧
      ∃ a path, lazyRounds.build {} = .ok a ∧ Matcher.exec ⟨a, {}⟩ "aaa" 0 = .ok (some path) ∧
        (lazyRounds.outcomes {} "aaa" ⟨0, fun _ => none⟩).head?.map Cursor.offset = some 3 ∧
        path.stop = 1) ∧
    (lazyCopies.nodes < 2 ^ 29 ∧ (∀ text, lazyCopies.Consuming {} text) ∧
      ∃ a path, lazyCopies.build {} = .ok a ∧ Matcher.exec ⟨a, {}⟩ "aabc" 0 = .ok (some path) ∧
        (lazyCopies.outcomes {} "aabc" ⟨0, fun _ => none⟩).head?.map Cursor.offset = some 3 ∧
        path.stop = 4) := by
  have hrounds (text : String) : lazyRounds.Consuming {} text := by
    simp only [Consuming, lazyRounds, allRepeated_repeated, allRepeated_group, allRepeated_char]
    refine ⟨fun offset _ h => ?_, fun offset _ h => lt_irrefl _ h.lt_of_char, trivial⟩
    cases h with
    | group h =>
      obtain ⟨_ | n, hn, h⟩ := matches_repeated_iff.1 h
      · cases hn
      · obtain ⟨j, h, h'⟩ := matches_cons_iff.1 h
        exact lt_irrefl _ (h.lt_of_char.trans_le h'.le)
  have hcopies (text : String) : lazyCopies.Consuming {} text := by
    simp only [Consuming, lazyCopies, allRepeated_repeated, allRepeated_group,
      allRepeated_alternation, allRepeated_sequence, List.forall_mem_cons, allRepeated_char]
    refine ⟨⟨fun offset _ h => ?_, trivial, ⟨trivial, trivial, trivial, nofun⟩, nofun⟩, ?_, nofun⟩
    · cases h with
      | group h =>
        cases h with
        | branch hmem h =>
          simp only [List.mem_cons, List.not_mem_nil, or_false] at hmem
          rcases hmem with rfl | rfl
          · exact lt_irrefl _ h.lt_of_char
          · obtain ⟨j, h, h'⟩ := matches_cons_iff.1 h
            exact lt_irrefl _ (h.lt_of_char.trans_le h'.le)
    · simp [AllRepeated, parts]
  refine ⟨⟨by decide, hrounds, ?_⟩, by decide, hcopies, ?_⟩
  · have hstop : (lazyRounds.pathWithin {} "aaa" 0 40).map (·.2.stop) = some 1 := by decide +kernel
    obtain ⟨⟨a, path⟩, hpath, hstop⟩ := Option.map_eq_some_iff.1 hstop
    obtain ⟨hb, hexec⟩ := exec_of_pathWithin hpath
    exact ⟨a, path, hb, hexec, by decide +kernel, hstop⟩
  · have hstop : (lazyCopies.pathWithin {} "aabc" 0 80).map (·.2.stop) = some 4 := by decide +kernel
    obtain ⟨⟨a, path⟩, hpath, hstop⟩ := Option.map_eq_some_iff.1 hstop
    obtain ⟨hb, hexec⟩ := exec_of_pathWithin hpath
    exact ⟨a, path, hb, hexec, by decide +kernel, hstop⟩

end Pattern

end PatternAutomata
