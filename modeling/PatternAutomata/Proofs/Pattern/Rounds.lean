import PatternAutomata.Proofs.Pattern.Priority
import PatternAutomata.Proofs.Pattern.StateCount
import PatternAutomata.Proofs.Region.Spellings

/-!
# One round or more

The repetitions `+` and `{1,}` match the same, but they are built differently, and a search need not
end at the same place for both. In the loop of `+`, a round that begins where the first one ended
finds its way barred by whatever the first one left waiting at that place. Behind the copy that
`{1,}` has for its first round, the loop has states of its own, where nothing waits. So the two
agree whenever nothing waits there, and also if leaving is preferred to another round.

## Main definitions

* `Pattern.Postpones` — something may wait where a match of the pattern ends.

## Main statements

* `Pattern.exec_plus_iff_counted` — both searches accept, or both reject, and they end at the same
  offset unless something waits there.
-/
namespace PatternAutomata

namespace Pattern

/-- At `offset` a choice is left open in the pattern: a repetition that is not greedy, or a branch
before the last one that matches the empty text, and whatever comes before and after it there
matches the empty text as well. -/
inductive Postpones (flags : Flags) (text : String) : Pattern → Nat → Prop
  | lazy {body : Pattern} {times : Repetition} {shape : Fragment.Shape} {offset : Nat} :
      times.shape? = some shape → Postpones flags text (.repeated body times false) offset
  | round {body : Pattern} {times : Repetition} {shape : Fragment.Shape} {greedy : Bool}
      {offset : Nat} :
      times.shape? = some shape → Postpones flags text body offset →
      Postpones flags text (.repeated body times greedy) offset
  | counted {body : Pattern} {min : Nat} {max : Option Nat} {greedy : Bool} {offset : Nat} :
      Postpones flags text (.sequence (body.unrolled min max greedy)) offset →
      Postpones flags text (.repeated body (.counted min max) greedy) offset
  | group {capture : Option Nat} {body : Pattern} {offset : Nat} :
      Postpones flags text body offset → Postpones flags text (.group capture body) offset
  | branch {branches : List Pattern} {p : Pattern} {offset : Nat} :
      p ∈ branches → Postpones flags text p offset →
      Postpones flags text (.alternation branches) offset
  | earlier {branches before after : List Pattern} {p : Pattern} {offset : Nat} :
      branches = before ++ p :: after → after ≠ [] → p.Matches flags text offset offset →
      Postpones flags text (.alternation branches) offset
  | first {p : Pattern} {rest : List Pattern} {offset : Nat} :
      Postpones flags text p offset → Matches flags text (.sequence rest) offset offset →
      Postpones flags text (.sequence (p :: rest)) offset
  | later {p : Pattern} {rest : List Pattern} {offset : Nat} :
      Matches flags text p offset offset → Postpones flags text (.sequence rest) offset →
      Postpones flags text (.sequence (p :: rest)) offset

section Renders

variable {flags : Flags} {text : String} {p : Pattern} {r : Region} {offset : Nat}

/-- What is left open in the region of a pattern is left open in the pattern. -/
theorem Renders.postpones (hr : p.Renders r) (h : r.Postpones flags text offset) :
    p.Postpones flags text offset := by
  induction hr with
  | anchor | char | charClass | set | nil => cases h
  | cons hr hr' ih ih' =>
    rcases h with ⟨h, h'⟩ | ⟨h, h'⟩
    · exact .first (ih h) (hr'.matches_of_idle h')
    · exact .later (hr.matches_of_idle h) (ih' h')
  | @alternation branches _ _ _ hr ih =>
    rcases h with ⟨i, hi, h⟩ | ⟨i, hi, h⟩
    · exact .branch (List.getElem_mem hi) (ih i hi h)
    · have hsplit : branches = branches.take i ++ branches[i] :: branches.drop (i + 1) := by simp
      have hafter : branches.drop (i + 1) ≠ [] :=
        List.ne_nil_of_length_pos (by rw [List.length_drop]; omega)
      exact .earlier hsplit hafter ((hr i (Nat.lt_of_succ_lt hi)).matches_of_idle h)
  | @block body times b r ht _ ih =>
    rcases h with hgreedy | h
    · rw [hgreedy]
      exact .lazy ht
    · exact .round ht (ih h)
  | counted _ _ ih => exact .counted (ih h)
  | group _ ih | capture _ ih => exact .group (ih h)

/-- The region of a repetition that is not counted is a block. -/
theorem Renders.exists_block {times : Repetition} {greedy : Bool} {shape : Fragment.Shape}
    (hr : (repeated p times greedy).Renders r) (ht : times.shape? = some shape) :
    ∃ b body, r = .block b body ∧ b.shape = shape ∧ b.greedy = greedy ∧ p.Renders body := by
  cases hr with
  | block ht' hr => exact ⟨_, _, rfl, Option.some.inj (ht'.symm.trans ht), rfl, hr⟩
  | counted => cases ht

/-- The region of `{1,}` is a copy with a block behind it. -/
theorem Renders.exists_copy_block {greedy : Bool}
    (hr : (repeated p (.counted 1 none) greedy).Renders r) :
    ∃ first b body, r = .seq first (.seq (.block b body) .empty) ∧ p.Renders first ∧
      p.Renders body ∧ b.shape = ⟨true, true⟩ ∧ b.greedy = greedy := by
  cases hr with
  | block ht => cases ht
  | counted _ hr =>
    change (sequence [p, .repeated p .star greedy]).Renders r at hr
    cases hr with
    | cons hfirst hr =>
      cases hr with
      | cons hblock hr =>
        cases hr
        obtain ⟨b, body, rfl, hshape, hgreedy, hbody⟩ := hblock.exists_block rfl
        exact ⟨_, b, body, rfl, hfirst, hbody, hshape, hgreedy⟩

end Renders

section Spellings

variable {p : Pattern} {flags : Flags} {greedy : Bool} {a b : Automaton} {text : String}

/-- A pattern that is built as a copy is built on its own as well, with as many states as the limit
allows. -/
theorem exists_build_of_counted (hb : (repeated p (.counted 1 none) greedy).build flags = .ok b) :
    ∃ c, p.build flags = .ok c ∧ c.stateCount ≤ Fragment.maxStates := by
  obtain ⟨hzero, exit, b', hbuild, -⟩ := build_eq_ok_iff.1 hb
  rw [fragment] at hbuild
  obtain ⟨_, b₁, hcopies, -⟩ := Fragment.andThen_eq_ok hbuild
  obtain ⟨mid, b₂, hcopy, hle, -⟩ := Fragment.copies_succ_eq_ok hcopies
  exact ⟨b₂.setFinal mid, build_eq_ok_iff.2 ⟨hzero, mid, b₂, hcopy, rfl⟩, hle⟩

/-- The automata of the two spellings. -/
theorem exists_spellings (ha : (repeated p .plus greedy).build flags = .ok a)
    (hb : (repeated p (.counted 1 none) greedy).build flags = .ok b) :
    ∃ c r x y, p.build flags = .ok c ∧ p.Renders r ∧ Automaton.Spellings c a b r x y ∧
      x.greedy = greedy ∧ c.flags = flags := by
  obtain ⟨c, hc, hsize⟩ := exists_build_of_counted hb
  have hcount : c.stateCount = 1 + p.size := stateCount_eq_of_build hc
  have hcount' : a.stateCount = 1 + (p.size + 4) := stateCount_eq_of_build ha
  have hcount'' : b.stateCount = 1 + (1 * p.size + (p.size + 4)) := stateCount_eq_of_build hb
  rw [Fragment.maxStates] at hsize
  obtain ⟨r, hr, hregion, hflags, -⟩ := renders_of_stateCount_lt (by omega) hc
  obtain ⟨_, hr₁, hregion₁, hflags₁, -⟩ := renders_of_stateCount_lt (by omega) ha
  obtain ⟨_, hr₂, hregion₂, hflags₂, -⟩ := renders_of_stateCount_lt (by omega) hb
  obtain ⟨x, body, rfl, hshape, hgreedy, hbody⟩ := hr₁.exists_block rfl
  obtain ⟨first, y, body', rfl, hfirst, hbody', hshape', hgreedy'⟩ := hr₂.exists_copy_block
  exact ⟨c, r, x, y, hc, hr, hregion.spellings hregion₁ hregion₂ (hflags₁.trans hflags.symm)
    (hflags₂.trans hflags.symm) (hr.alike hbody) (hr.alike hfirst) (hr.alike hbody') hshape hshape'
    (hgreedy'.trans hgreedy.symm), hgreedy, hflags⟩

/-- A search for one round or more accepts with `+` just when it does with `{1,}`. Both end at the
same offset if the repetition is not greedy, or if the body postpones nothing at the offset where a
search for the body alone ends. -/
theorem exec_plus_iff_counted (ha : (repeated p .plus greedy).build flags = .ok a)
    (hb : (repeated p (.counted 1 none) greedy).build flags = .ok b) (text : String) (start : Nat) :
    ∃ c result result', p.build flags = .ok c ∧ Matcher.exec ⟨a, {}⟩ text start = .ok result ∧
      Matcher.exec ⟨b, {}⟩ text start = .ok result' ∧ (result = none ↔ result' = none) ∧
      ((greedy = true → ∀ path, Matcher.exec ⟨c, {}⟩ text start = .ok (some path) →
          ¬p.Postpones flags text path.stop) →
        result.map Path.stop = result'.map Path.stop) := by
  obtain ⟨c, r, x, y, hc, hr, hspellings, rfl, rfl⟩ := exists_spellings ha hb
  obtain ⟨result, result', hexec, hexec', hiff, hstop⟩ := hspellings.exec_iff text start
  refine ⟨c, result, result', hc, hexec, hexec', hiff, fun hopen => ?_⟩
  refine hstop fun hgreedy path hpath hpostpones => ?_
  exact hopen hgreedy path hpath (hr.postpones hpostpones)

/-- A body that ends with a character leaves nothing open, whatever choices it has before that:
`a*?b|c`. -/
def lazyBefore : Pattern :=
  .group none (.alternation [
    .sequence [.repeated (.char 'a') .star false, .char 'b'], .char 'c'])

theorem not_postpones_lazyBefore (text : String) (offset : Nat) :
    ¬lazyBefore.Postpones {} text offset := by
  have hchar {c : Char} : ¬(char c).Postpones {} text offset := nofun
  have hb : ¬Matches {} text (.sequence [.char 'b']) offset offset := fun h => by
    obtain ⟨j, h, h'⟩ := matches_cons_iff.1 h
    exact lt_irrefl _ (h.lt_of_char.trans_le h'.le)
  have hlazy : ¬Matches {} text
      (.sequence [.repeated (.char 'a') .star false, .char 'b']) offset offset := fun h => by
    obtain ⟨j, h, h'⟩ := matches_cons_iff.1 h
    obtain ⟨k, h', h''⟩ := matches_cons_iff.1 h'
    exact lt_irrefl _ (h.le.trans_lt (h'.lt_of_char.trans_le h''.le))
  intro h
  cases h with
  | group h =>
    cases h with
    | branch hmem h =>
      simp only [List.mem_cons, List.not_mem_nil, or_false] at hmem
      rcases hmem with rfl | rfl
      · cases h with
        | first _ h => exact hb h
        | later _ h =>
          cases h with
          | first h _ => exact hchar h
          | later h _ => exact lt_irrefl _ h.lt_of_char
      · exact hchar h
    | @earlier _ before _ _ _ hsplit hafter h =>
      cases before with
      | nil =>
        obtain ⟨rfl, -⟩ := List.cons.inj hsplit
        exact hlazy h
      | cons q before =>
        have hlength := congrArg List.length hsplit
        simp only [List.length_append, List.length_cons, List.length_nil] at hlength
        exact hafter (List.eq_nil_of_length_eq_zero (by omega))

theorem exec_plus_iff_counted_lazyBefore :
    ∃ a b c path path', (repeated lazyBefore .plus true).build {} = .ok a ∧
      (repeated lazyBefore (.counted 1 none) true).build {} = .ok b ∧ lazyBefore.build {} = .ok c ∧
      (∀ path, Matcher.exec ⟨c, {}⟩ "aabcabd" 0 = .ok (some path) →
        ¬lazyBefore.Postpones {} "aabcabd" path.stop) ∧
      Matcher.exec ⟨a, {}⟩ "aabcabd" 0 = .ok (some path) ∧
      Matcher.exec ⟨b, {}⟩ "aabcabd" 0 = .ok (some path') ∧ path.stop = 6 ∧ path'.stop = 6 := by
  obtain ⟨b, hb⟩ := exists_of_isOk
    (x := (repeated lazyBefore (.counted 1 none) true).build {}) (by decide +kernel)
  have hpath : ((repeated lazyBefore .plus true).pathWithin {} "aabcabd" 0 200).map (·.2.stop) =
      some 6 := by decide +kernel
  obtain ⟨⟨a, path⟩, hpath, hstop⟩ := Option.map_eq_some_iff.1 hpath
  obtain ⟨ha, hexec⟩ := exec_of_pathWithin hpath
  obtain ⟨c, result, result', hc, hresult, hresult', -, hstops⟩ :=
    exec_plus_iff_counted ha hb "aabcabd" 0
  obtain rfl := Except.ok.inj (hexec.symm.trans hresult)
  have hopen (path : Path) (_ : Matcher.exec ⟨c, {}⟩ "aabcabd" 0 = .ok (some path)) :=
    not_postpones_lazyBefore "aabcabd" path.stop
  obtain ⟨path', rfl, hstop'⟩ := Option.map_eq_some_iff.1 (hstops fun _ => hopen).symm
  exact ⟨a, b, c, path, path', ha, hb, hc, hopen, hexec, hresult', hstop, hstop'.trans hstop⟩

/-- A round that is not greedy itself: `a+?`. -/
def lazyRound : Pattern :=
  .group none (.repeated (.char 'a') .plus false)

/-- A round that is empty by preference: `|a`. -/
def emptyRound : Pattern :=
  .group none (.alternation [.sequence [], .char 'a'])

/-- What the first round leaves waiting ends the loop, and not the one behind a copy. -/
theorem exec_plus_ne_counted :
    (∃ a b path path', (repeated lazyRound .plus true).build {} = .ok a ∧
      (repeated lazyRound (.counted 1 none) true).build {} = .ok b ∧
      Matcher.exec ⟨a, {}⟩ "aaa" 0 = .ok (some path) ∧
      Matcher.exec ⟨b, {}⟩ "aaa" 0 = .ok (some path') ∧ path.stop = 1 ∧ path'.stop = 2) ∧
    ∃ a b path path', (repeated emptyRound .plus true).build {} = .ok a ∧
      (repeated emptyRound (.counted 1 none) true).build {} = .ok b ∧
      Matcher.exec ⟨a, {}⟩ "aaa" 0 = .ok (some path) ∧
      Matcher.exec ⟨b, {}⟩ "aaa" 0 = .ok (some path') ∧ path.stop = 0 ∧ path'.stop = 3 := by
  have hstop {p : Pattern} {n : Nat}
      (h : (p.pathWithin {} "aaa" 0 80).map (·.2.stop) = some n) :
      ∃ a path, p.build {} = .ok a ∧ Matcher.exec ⟨a, {}⟩ "aaa" 0 = .ok (some path) ∧
        path.stop = n := by
    obtain ⟨⟨a, path⟩, hpath, hstop⟩ := Option.map_eq_some_iff.1 h
    obtain ⟨ha, hexec⟩ := exec_of_pathWithin hpath
    exact ⟨a, path, ha, hexec, hstop⟩
  constructor
  · obtain ⟨a, path, ha, hexec, h⟩ := hstop
      (p := repeated lazyRound .plus true) (n := 1) (by decide +kernel)
    obtain ⟨b, path', hb, hexec', h'⟩ := hstop
      (p := repeated lazyRound (.counted 1 none) true) (n := 2) (by decide +kernel)
    exact ⟨a, b, path, path', ha, hb, hexec, hexec', h, h'⟩
  · obtain ⟨a, path, ha, hexec, h⟩ := hstop
      (p := repeated emptyRound .plus true) (n := 0) (by decide +kernel)
    obtain ⟨b, path', hb, hexec', h'⟩ := hstop
      (p := repeated emptyRound (.counted 1 none) true) (n := 3) (by decide +kernel)
    exact ⟨a, b, path, path', ha, hb, hexec, hexec', h, h'⟩

end Spellings

end Pattern

end PatternAutomata
