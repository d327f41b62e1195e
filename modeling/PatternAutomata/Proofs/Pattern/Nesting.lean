import Mathlib.Order.Lattice
import PatternAutomata.Proofs.Pattern.Normal

/-!
# The limit on nesting

How deep groups are nested can be seen from the tokens alone: outside brackets, an opening
parenthesis opens a group and a closing one closes the innermost group. The parser gives up where
more groups are open than are allowed. Up to there it does not look at the limit, so it goes the
same way under any other limit, and a pattern that was parsed is nested as deep as its tokens are.

## Main definitions

* `Token.Nesting` — what is open between two tokens.
* `Parser.State.Moves` — what a token does to the groups that are open.
* `Parser.reach` — how deep groups are nested in what has been read.

## Main statements

* `Parser.exists_of_tooDeep` — where the parser gives up, too many groups are open.
* `Parser.groups_le_groupDepth` — no more groups are open than are nested in what is parsed.
* `Pattern.parse_limit` — parsing the same text under two limits.
-/
namespace PatternAutomata

/-- Whether the token opens a group, outside brackets. -/
def TokenKind.opensGroup : TokenKind → Bool
  | parenOpen | nonCapturingOpen => true
  | _ => false

namespace Token

/-- What is open between two tokens. -/
structure Nesting where
  /-- The number of groups whose closing parenthesis is still to come. -/
  groups : Nat := 0
  /-- Whether the place is between brackets. -/
  inSet : Bool := false
  deriving DecidableEq, Repr

/-- What is open after one more token. -/
def Nesting.step (n : Nesting) (t : Token) : Nesting :=
  if n.inSet then { n with inSet := t.kind != .setClose }
  else
    match t.kind with
    | .parenOpen | .nonCapturingOpen => { n with groups := n.groups + 1 }
    | .parenClose => { n with groups := n.groups - 1 }
    | .setOpen | .setNegatedOpen => { n with inSet := true }
    | _ => n

theorem Nesting.step_of_opensGroup {n : Nesting} {t : Token} (hin : n.inSet = false)
    (hkind : t.kind.opensGroup = true) : n.step t = { n with groups := n.groups + 1 } := by
  unfold step
  rw [hin]
  cases hk : t.kind <;> rw [hk] at hkind <;> cases hkind <;> rfl

/-- What is open after some tokens from the first one on. -/
def nesting (ts : List Token) : Nesting :=
  ts.foldl .step {}

end Token

namespace Pattern

variable {ps qs : List Pattern}

theorem groupDepthAll_append (ps qs : List Pattern) :
    groupDepthAll (ps ++ qs) = max (groupDepthAll ps) (groupDepthAll qs) := by
  induction ps with
  | nil => simp [groupDepthAll]
  | cons p ps ih => rw [List.cons_append, groupDepthAll, ih, groupDepthAll, Nat.max_assoc]

theorem groupDepthAll_reverse (ps : List Pattern) :
    groupDepthAll ps.reverse = groupDepthAll ps := by
  induction ps with
  | nil => rfl
  | cons p ps ih =>
    rw [List.reverse_cons, groupDepthAll_append, ih]
    simp [groupDepthAll, Nat.max_comm]

end Pattern

namespace Parser

open Pattern (groupDepth groupDepthAll)
open Token (Nesting)

variable {s s' : State} {t : Token} {ts rest : List Token} {l l' : Level} {p : Pattern}
  {gs : List OpenGroup} {d e maxDepth : Nat}

/-! ## How deep the groups read so far are nested -/

/-- How deep groups are nested in what was read at the level. -/
def Level.depth (l : Level) : Nat :=
  max (groupDepthAll l.branches) (groupDepthAll l.items)

theorem Level.depth_push (l : Level) (p : Pattern) :
    (l.push p).depth = max l.depth p.groupDepth := by
  simp only [depth, push, groupDepthAll]
  omega

theorem Level.depth_endBranch (l : Level) : l.endBranch.depth = l.depth := by
  simp [depth, endBranch, groupDepthAll, Pattern.groupDepth_ofItems,
    Pattern.groupDepthAll_reverse, Nat.max_comm]

theorem Level.groupDepth_pattern (l : Level) : l.pattern.groupDepth = l.depth := by
  rw [pattern, Pattern.groupDepth_ofBranches, Pattern.groupDepthAll_reverse, ← depth_endBranch]
  simp [depth, endBranch, groupDepthAll]

/-- Another item in place of the last one, nested as deep. -/
theorem Level.depth_replace {q : Pattern} {items : List Pattern} (hitems : l.items = p :: items)
    (hq : q.groupDepth = p.groupDepth) : depth { l with items := q :: items } = l.depth := by
  simp [depth, hitems, groupDepthAll, hq]

/-- How deep groups are nested in what was read within the open groups and around them. -/
def reach : List OpenGroup → Level → Nat
  | [], l => l.depth
  | g :: gs, l => max (reach gs g.outer) (gs.length + 1 + l.depth)

theorem le_reach (gs : List OpenGroup) (l : Level) : gs.length + l.depth ≤ reach gs l := by
  cases gs with
  | nil => simp [reach]
  | cons g gs => exact Nat.le_max_right _ _

theorem reach_mono (h : l.depth ≤ l'.depth) (gs : List OpenGroup) : reach gs l ≤ reach gs l' := by
  cases gs with
  | nil => exact h
  | cons g gs =>
    simp only [reach]
    omega

/-! ## What a token does to the open groups -/

namespace State

/-- What is open. -/
def nesting (s : State) : Nesting :=
  ⟨s.groups.length, s.set.isSome⟩

/-- What a token does to the groups that are open. -/
inductive Moves (s : State) (t : Token) (s' : State) : Prop where
  | opened (capture : Option Nat) : s.set = none → t.kind.opensGroup = true →
      s'.groups = ⟨t, capture, s.level⟩ :: s.groups → s'.level = {} → s'.set = none →
      Moves s t s'
  | closed (g : OpenGroup) : s.set = none → t.kind = .parenClose → s.groups = g :: s'.groups →
      s'.level = g.outer.push (.group g.capture s.level.pattern) → s'.set = none →
      Moves s t s'
  | kept : s'.groups = s.groups → s.level.depth ≤ s'.level.depth →
      s.nesting.step t = s'.nesting → Moves s t s'

/-- What is open after a token can be seen from the token. -/
theorem Moves.nesting_eq (h : s.Moves t s') : s'.nesting = s.nesting.step t := by
  cases h with
  | opened capture hset hkind hgroups hlevel hset' =>
    rw [Nesting.step_of_opensGroup (by simp [nesting, hset]) hkind]
    simp [nesting, hset, hset', hgroups]
  | closed g hset hkind hgroups hlevel hset' =>
    simp [nesting, Nesting.step, hset, hset', hkind, hgroups]
  | kept _ _ hnesting => exact hnesting.symm

/-- What has been read gets no less nested. -/
theorem Moves.reach_le (h : s.Moves t s') : reach s.groups s.level ≤ reach s'.groups s'.level := by
  cases h with
  | opened capture _ _ hgroups hlevel =>
    rw [hgroups, reach]
    exact Nat.le_max_left _ _
  | closed g _ _ hgroups hlevel =>
    rw [hgroups, hlevel, reach, Nat.max_le]
    have hdepth : (Pattern.group g.capture s.level.pattern).groupDepth = s.level.depth + 1 := by
      rw [groupDepth, Level.groupDepth_pattern]
    have hpush := g.outer.depth_push (.group g.capture s.level.pattern)
    have hle := le_reach s'.groups (g.outer.push (.group g.capture s.level.pattern))
    refine ⟨reach_mono (by omega) _, by omega⟩
  | kept hgroups hdepth =>
    rw [hgroups]
    exact reach_mono hdepth _

/-- What a token comes to under a limit. Only the limit makes the parser give up. -/
def Comes (maxDepth : Nat) (s : State) (t : Token) : Except ParseError State → Prop
  | .ok s' => s.Moves t s'
  | .error .tooDeep => s.set = none ∧ t.kind.opensGroup = true ∧ maxDepth ≤ s.groups.length
  | .error (.invalid _) => True

section

variable (hset : s.set = none) (hstep : s.nesting.step t = s.nesting)

include hset hstep

theorem comes_ok (hset' : s'.set = none) (hgroups : s'.groups = s.groups)
    (hdepth : s.level.depth ≤ s'.level.depth) : Comes maxDepth s t (.ok s') := by
  refine .kept hgroups hdepth ?_
  rw [hstep, nesting, nesting, hgroups, hset, hset']

theorem comes_pushAtom (p : Pattern) : Comes maxDepth s t (.ok (s.pushAtom p)) :=
  comes_ok hset hstep hset rfl (by simp [pushAtom, Level.depth_push])

theorem comes_pushAnchor (a : Anchor) : Comes maxDepth s t (.ok (s.pushAnchor a)) :=
  comes_ok hset hstep hset rfl (by simp [pushAnchor, Level.depth_push])

theorem comes_escape (c : Char) : Comes maxDepth s t (.ok (s.escape c)) := by
  unfold escape
  split
  · exact comes_pushAnchor hset hstep _
  · exact comes_pushAnchor hset hstep _
  · split <;> exact comes_pushAtom hset hstep _

theorem comes_quantify {times : Except ParseError Repetition} (htimes : times ≠ .error .tooDeep) :
    Comes maxDepth s t (s.quantify t times) := by
  unfold quantify
  split
  case h_1 body items _ hitems =>
    match times, htimes with
    | .ok times, _ =>
      refine comes_ok hset hstep hset rfl ?_
      exact (Level.depth_replace hitems (by rw [groupDepth])).ge
    | .error (.invalid _), _ => trivial
  case h_2 => trivial

theorem comes_question : Comes maxDepth s t (s.question t) := by
  unfold question
  split
  case h_1 body times greedy items _ hitems =>
    refine comes_ok hset hstep hset rfl ?_
    exact (Level.depth_replace hitems (by rw [groupDepth, groupDepth])).ge
  case h_2 => exact comes_quantify hset hstep (by simp)

end

theorem bound_ne_tooDeep (t : Token) (digits : List Char) : bound t digits ≠ .error .tooDeep := by
  unfold bound
  split <;> exact nofun

theorem count_ne_tooDeep (t : Token) : count t ≠ .error .tooDeep := by
  have hbound := bound_ne_tooDeep t
  have hbind {α β : Type} {x : Except ParseError α} {f : α → Except ParseError β}
      (hx : x ≠ .error .tooDeep) (hf : ∀ a, f a ≠ .error .tooDeep) :
      x >>= f ≠ .error .tooDeep := by
    cases x with
    | ok a => exact hf a
    | error err => exact fun h => hx (congrArg Except.error (Except.error.inj h))
  unfold count
  dsimp only
  split
  · exact hbind (hbound _) fun _ => nofun
  · exact hbind (hbound _) fun _ => nofun
  · refine hbind (hbound _) fun _ => hbind (hbound _) fun _ => ?_
    split <;> exact nofun

theorem comes_openGroup (hset : s.set = none) (hkind : t.kind.opensGroup = true)
    (capture : Option Nat) (captures : Nat) :
    Comes maxDepth s t (s.openGroup maxDepth t capture captures) := by
  unfold openGroup
  split
  · exact ⟨hset, hkind, ‹_›⟩
  · exact .opened capture hset hkind rfl rfl rfl

theorem comes_closeGroup (hset : s.set = none) (hkind : t.kind = .parenClose) :
    Comes maxDepth s t (s.closeGroup t) := by
  unfold closeGroup
  split
  · trivial
  · exact .closed _ hset hkind ‹_› rfl hset

theorem comes_stepInSet {set : OpenSet} (hset : s.set = some set) :
    Comes maxDepth s t (s.stepInSet set t) := by
  unfold stepInSet
  split
  case h_1 hkind =>
    split
    · refine .kept rfl (by simp [pushAtom, Level.depth_push]) ?_
      simp [nesting, Nesting.step, pushAtom, hset, hkind]
    · trivial
  case h_2 => trivial
  case h_3 hclose hgarbage =>
    refine .kept rfl (Nat.le_refl _) ?_
    simpa [nesting, Nesting.step, hset] using hclose

/-- Outside brackets, parentheses and opening brackets apart, a token leaves open what is open. -/
theorem comes_stepOutside (hset : s.set = none) :
    Comes maxDepth s t (s.stepOutside maxDepth t) := by
  have hstep {kind : TokenKind} (hkind : t.kind = kind)
      (hplain : Nesting.step ⟨s.groups.length, false⟩ ⟨kind, 0, []⟩ = ⟨s.groups.length, false⟩) :
      s.nesting.step t = s.nesting := by
    simpa [nesting, Nesting.step, hset, hkind] using hplain
  unfold stepOutside
  split
  case h_1 hkind | h_2 hkind => exact comes_openGroup hset (by rw [hkind]; rfl) _ _
  case h_3 hkind => exact comes_closeGroup hset hkind
  case h_4 hkind | h_5 hkind =>
    refine .kept rfl (Nat.le_refl _) ?_
    simp [nesting, Nesting.step, hset, hkind]
  case h_6 hkind =>
    exact comes_ok hset (hstep hkind rfl) hset rfl (Level.depth_endBranch _).ge
  case h_7 hkind | h_8 hkind => exact comes_quantify hset (hstep hkind rfl) (by simp)
  case h_9 hkind => exact comes_question hset (hstep hkind rfl)
  case h_10 hkind => exact comes_quantify hset (hstep hkind rfl) (count_ne_tooDeep t)
  case h_11 hkind | h_12 hkind => exact comes_pushAnchor hset (hstep hkind rfl) _
  case h_13 hkind => exact comes_pushAtom hset (hstep hkind rfl) _
  case h_14 hkind _ => exact comes_escape hset (hstep hkind rfl) _
  case h_15 hkind _ | h_16 hkind _ | h_17 hkind _ => exact comes_pushAtom hset (hstep hkind rfl) _
  case h_18 => trivial

theorem comes_step (maxDepth : Nat) (s : State) (t : Token) :
    Comes maxDepth s t (step maxDepth s t) := by
  unfold Parser.step
  split
  · exact comes_stepInSet ‹_›
  · exact comes_stepOutside ‹_›

theorem moves_of_step (h : step maxDepth s t = .ok s') : s.Moves t s' := by
  have hcomes := comes_step maxDepth s t
  rwa [h] at hcomes

/-- Where the parser does not give up, it does the same under a higher limit. -/
theorem step_eq_of_le (hle : d ≤ e) (h : step d s t ≠ .error .tooDeep) :
    step e s t = step d s t := by
  have hopen (capture : Option Nat) (captures : Nat)
      (h : s.openGroup d t capture captures ≠ .error .tooDeep) :
      s.openGroup e t capture captures = s.openGroup d t capture captures := by
    unfold openGroup at h ⊢
    split at h
    · exact absurd rfl h
    · rename_i hlt
      rw [if_neg hlt, if_neg (by omega)]
  unfold Parser.step at h ⊢
  split at h
  · rfl
  · unfold stepOutside at h ⊢
    split at h <;> first | exact hopen _ _ h | rfl

end State

/-! ## Runs -/

theorem foldlM_eq_of_le (hle : d ≤ e) (h : ts.foldlM (step d) s ≠ .error .tooDeep) :
    ts.foldlM (step e) s = ts.foldlM (step d) s := by
  induction ts generalizing s with
  | nil => rfl
  | cons t ts ih =>
    rw [List.foldlM_cons] at h ⊢
    rw [List.foldlM_cons]
    cases hs : step d s t with
    | ok s' =>
      rw [State.step_eq_of_le hle (by simp [hs]), hs]
      rw [hs] at h
      exact ih h
    | error err =>
      rw [hs] at h
      rw [State.step_eq_of_le hle (hs ▸ h), hs]
      rfl

/-- What is open after a run can be seen from the tokens, and what has been read gets no less
nested. -/
theorem nesting_of_foldlM (h : ts.foldlM (step maxDepth) s = .ok s') :
    s'.nesting = ts.foldl .step s.nesting ∧ reach s.groups s.level ≤ reach s'.groups s'.level := by
  induction ts generalizing s with
  | nil =>
    obtain rfl := Except.ok.inj h
    exact ⟨rfl, le_rfl⟩
  | cons t ts ih =>
    obtain ⟨s₁, hs₁, h⟩ := exists_of_foldlM_cons_eq_ok h
    have hmoves := State.moves_of_step hs₁
    obtain ⟨hnesting, hreach⟩ := ih h
    exact ⟨by rw [hnesting, hmoves.nesting_eq, List.foldl_cons], hmoves.reach_le.trans hreach⟩

/-- Where the parser gives up, more groups are open than are allowed. -/
theorem exists_of_tooDeep (h : ts.foldlM (step d) s = .error .tooDeep) :
    ∃ before rest, ts = before ++ rest ∧ d < (before.foldl .step s.nesting).groups := by
  induction ts generalizing s with
  | nil => cases h
  | cons t ts ih =>
    rw [List.foldlM_cons] at h
    have hcomes := State.comes_step d s t
    cases hs : step d s t with
    | ok s' =>
      rw [hs] at h hcomes
      obtain ⟨before, rest, rfl, hlt⟩ := ih h
      have hmoves : s.Moves t s' := hcomes
      exact ⟨t :: before, rest, rfl, by rwa [List.foldl_cons, ← hmoves.nesting_eq]⟩
    | error err =>
      rw [hs] at h hcomes
      obtain rfl := Except.error.inj h
      obtain ⟨hset, hkind, hle⟩ := hcomes
      refine ⟨[t], ts, rfl, ?_⟩
      rw [List.foldl_cons, List.foldl_nil,
        Nesting.step_of_opensGroup (by simp [State.nesting, hset]) hkind]
      exact Nat.lt_succ_of_le hle

/-- No more groups are open than are nested in what is parsed. -/
theorem groups_le_groupDepth {source : String} (h : Pattern.parse source maxDepth = .ok p)
    (htokens : Token.ofSource source = ts ++ rest) : (Token.nesting ts).groups ≤ p.groupDepth := by
  obtain ⟨s, hs, hgroups, rfl⟩ := exists_of_parse h
  rw [htokens, List.foldlM_append] at hs
  obtain ⟨s₁, hs₁, hs⟩ := exists_of_bind_eq_ok hs
  have hnesting : s₁.nesting = Token.nesting ts := (nesting_of_foldlM hs₁).1
  have hreach : s₁.groups.length ≤ reach s.groups s.level :=
    ((Nat.le_add_right _ _).trans (le_reach _ _)).trans (nesting_of_foldlM hs).2
  rw [hgroups, reach, ← Level.groupDepth_pattern] at hreach
  rwa [← hnesting]

theorem finish_ne_tooDeep (s : State) : finish s ≠ .error .tooDeep := by
  unfold finish
  split <;> exact nofun

theorem foldlM_of_parse_tooDeep {source : String}
    (h : Pattern.parse source maxDepth = .error .tooDeep) :
    (Token.ofSource source).foldlM (step maxDepth) {} = .error .tooDeep := by
  unfold Pattern.parse at h
  cases hs : (Token.ofSource source).foldlM (step maxDepth) {} with
  | ok s =>
    rw [hs] at h
    exact absurd h (finish_ne_tooDeep s)
  | error err =>
    rw [hs] at h
    exact congrArg Except.error (Except.error.inj h)

theorem parse_eq_of_le {source : String} (hle : d ≤ e)
    (h : Pattern.parse source d ≠ .error .tooDeep) :
    Pattern.parse source e = Pattern.parse source d := by
  unfold Pattern.parse at h ⊢
  rw [foldlM_eq_of_le hle]
  intro hs
  rw [hs] at h
  exact h rfl

end Parser

namespace Pattern

/-- Parsing the same text under two limits. What is parsed under the lower one is what is parsed
under the higher one and is nested no deeper than the lower one allows. A mistake that is found
under the lower limit is found under the higher one. The parser gives up only where more groups are
open than the limit allows. -/
theorem parse_limit (source : String) {d e : Nat} (hle : d ≤ e) :
    (∀ p, parse source d = .ok p ↔ parse source e = .ok p ∧ p.groupDepth ≤ d) ∧
      (∀ diag, parse source d = .error (.invalid diag) →
        parse source e = .error (.invalid diag)) ∧
      (parse source d = .error .tooDeep → ∃ ts rest, Token.ofSource source = ts ++ rest ∧
        d < (Token.nesting ts).groups) := by
  have hopen (h : parse source d = .error .tooDeep) : ∃ ts rest,
      Token.ofSource source = ts ++ rest ∧ d < (Token.nesting ts).groups :=
    Parser.exists_of_tooDeep (Parser.foldlM_of_parse_tooDeep h)
  refine ⟨fun p => ⟨fun h => ?_, fun ⟨h, hdepth⟩ => ?_⟩, fun diag h => ?_, hopen⟩
  · rw [Parser.parse_eq_of_le hle (by simp [h])]
    exact ⟨h, (Parser.isNormal_of_parse h).2⟩
  · by_cases hdeep : parse source d = .error .tooDeep
    · obtain ⟨ts, rest, htokens, hlt⟩ := hopen hdeep
      have := Parser.groups_le_groupDepth h htokens
      omega
    · rwa [← Parser.parse_eq_of_le hle hdeep]
  · rw [Parser.parse_eq_of_le hle (by simp [h]), h]

/-- Groups side by side, and parentheses between brackets, do not count together. -/
theorem parse_limit_siblings :
    (∃ p, parse "(a)(?:[((])" 1 = .ok p ∧ parse "(a)(?:[((])" 3 = .ok p ∧ p.groupDepth ≤ 1) ∧
      parse "(a(b))" 1 = .error .tooDeep ∧
      ∃ ts rest, Token.ofSource "(a(b))" = ts ++ rest ∧ 1 < (Token.nesting ts).groups := by
  have hsiblings : Token.ofSource "(a)(?:[((])" =
      [⟨.parenOpen, 0, ['(']⟩, ⟨.char, 1, ['a']⟩, ⟨.parenClose, 2, [')']⟩,
        ⟨.nonCapturingOpen, 3, ['(', '?', ':']⟩, ⟨.setOpen, 6, ['[']⟩, ⟨.parenOpen, 7, ['(']⟩,
        ⟨.parenOpen, 8, ['(']⟩, ⟨.setClose, 9, [']']⟩, ⟨.parenClose, 10, [')']⟩] := by
    decide +kernel
  have hnested : Token.ofSource "(a(b))" =
      [⟨.parenOpen, 0, ['(']⟩, ⟨.char, 1, ['a']⟩, ⟨.parenOpen, 2, ['(']⟩, ⟨.char, 3, ['b']⟩,
        ⟨.parenClose, 4, [')']⟩, ⟨.parenClose, 5, [')']⟩] := by
    decide +kernel
  have hok : parse "(a)(?:[((])" 1 = .ok (.sequence [.group (some 1) (.char 'a'),
      .group none (.set false [.char '(', .char '('])]) := by
    rw [parse, hsiblings]
    rfl
  have hdeep : parse "(a(b))" 1 = .error .tooDeep := by
    rw [parse, hnested]
    rfl
  have hlimit := parse_limit "(a)(?:[((])" (show 1 ≤ 3 by decide)
  refine ⟨⟨_, hok, (hlimit.1 _).1 hok⟩, hdeep, ?_⟩
  exact (parse_limit "(a(b))" (show 1 ≤ 3 by decide)).2.2 hdeep

end Pattern

end PatternAutomata
