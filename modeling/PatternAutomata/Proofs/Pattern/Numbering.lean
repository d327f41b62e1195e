import PatternAutomata.Proofs.Automaton.Groups
import PatternAutomata.Proofs.Pattern.Nesting
import PatternAutomata.Proofs.Pattern.Traversal

/-!
# The numbers of groups

Groups are counted by their opening parentheses, and the count is kept by all that comes after: the
captures of the pattern are the numbers up to it, the automaton declares these groups before any of
them is built, and a match has a range for each of them, even where no copy of the group was built.

## Main definitions

* `Token.outside` — the tokens that do not stand between brackets.
* `Token.groupCount` — the number of capture groups that a pattern opens.
* `Fragment.Records` — a fragment adds nothing to the groups but copies of those listed.

## Main statements

* `Parser.captures_of_parse` — how the captures of a parsed pattern are numbered.
* `Pattern.records_fragment` — what a fragment does to the groups.
* `Pattern.numbered_of_build` — the groups of a pattern, of its automaton and of all its matches.
-/
namespace PatternAutomata

namespace Token

/-- The tokens that do not stand between brackets, where the first of them stands between brackets
if `inSet`. The bracket that opens a set is one of them, the one that closes it is not. -/
def outside (inSet : Bool) : List Token → List Token
  | [] => []
  | t :: ts =>
    if inSet then outside (t.kind != .setClose) ts
    else t :: outside (t.kind == .setOpen || t.kind == .setNegatedOpen) ts

/-- How many capture groups the tokens open. -/
def groupsOf (inSet : Bool) (ts : List Token) : Nat :=
  (outside inSet ts).countP (·.kind == .parenOpen)

/-- How many capture groups a pattern opens. -/
def groupCount (source : String) : Nat :=
  groupsOf false (ofSource source)

theorem groupsOf_cons (inSet : Bool) (t : Token) (ts : List Token) :
    groupsOf inSet (t :: ts) =
      (if inSet = false ∧ t.kind = .parenOpen then 1 else 0) +
        groupsOf (Nesting.step ⟨0, inSet⟩ t).inSet ts := by
  cases inSet with
  | true => simp [groupsOf, outside, Nesting.step]
  | false =>
    have hinSet : (Nesting.step ⟨0, false⟩ t).inSet =
        (t.kind == .setOpen || t.kind == .setNegatedOpen) := by
      unfold Nesting.step
      cases t.kind <;> rfl
    rw [hinSet]
    simp [groupsOf, outside, List.countP_cons, Nat.add_comm]

theorem Nesting.inSet_step (n : Nesting) (t : Token) :
    (n.step t).inSet = (Nesting.step ⟨0, n.inSet⟩ t).inSet := by
  obtain ⟨groups, _ | _⟩ := n
  · unfold Nesting.step
    cases t.kind <;> rfl
  · rfl

end Token

/-! ## The parser -/

namespace Parser

variable {s s' : State} {t : Token} {ts : List Token} {p : Pattern} {maxDepth : Nat}

namespace State

theorem captures_quantify {times : Except ParseError Repetition}
    (h : s.quantify t times = .ok s') : s'.captures = s.captures := by
  unfold quantify at h
  split at h
  case h_1 =>
    obtain ⟨r, -, h⟩ := exists_of_bind_eq_ok h
    obtain rfl := Except.ok.inj h
    rfl
  case h_2 => cases h

theorem captures_question (h : s.question t = .ok s') : s'.captures = s.captures := by
  unfold question at h
  split at h
  case h_1 =>
    obtain rfl := Except.ok.inj h
    rfl
  case h_2 => exact captures_quantify h

theorem captures_escape (s : State) (c : Char) : (s.escape c).captures = s.captures := by
  unfold escape
  split
  · rfl
  · rfl
  · split <;> rfl

theorem captures_openGroup {capture : Option Nat} {captures : Nat}
    (h : s.openGroup maxDepth t capture captures = .ok s') : s'.captures = captures := by
  unfold openGroup at h
  split at h
  · cases h
  · obtain rfl := Except.ok.inj h
    rfl

theorem captures_closeGroup (h : s.closeGroup t = .ok s') : s'.captures = s.captures := by
  unfold closeGroup at h
  split at h
  · cases h
  · obtain rfl := Except.ok.inj h
    rfl

theorem captures_stepInSet {set : OpenSet} (h : s.stepInSet set t = .ok s') :
    s'.captures = s.captures := by
  unfold stepInSet at h
  split at h
  case h_1 =>
    split at h
    · obtain rfl := Except.ok.inj h
      rfl
    · cases h
  case h_2 => cases h
  case h_3 =>
    obtain rfl := Except.ok.inj h
    rfl

/-- Outside brackets, an opening parenthesis is counted, and all other tokens leave the count as it
is. -/
theorem captures_stepOutside (h : s.stepOutside maxDepth t = .ok s') :
    s'.captures = s.captures + if t.kind = .parenOpen then 1 else 0 := by
  unfold stepOutside at h
  split at h
  case h_1 hkind => rw [captures_openGroup h, if_pos hkind]
  case h_18 => cases h
  all_goals
    rename_i hkind
    rw [if_neg (by simp [*])]
  case h_2 => exact captures_openGroup h
  case h_3 => exact captures_closeGroup h
  case h_7 | h_8 | h_10 => exact captures_quantify h
  case h_9 => exact captures_question h
  case h_14 =>
    obtain rfl := Except.ok.inj h
    exact captures_escape s _
  all_goals
    obtain rfl := Except.ok.inj h
    rfl

/-- Only an opening parenthesis outside brackets is counted. -/
theorem captures_step (h : step maxDepth s t = .ok s') :
    s'.captures = s.captures + if s.nesting.inSet = false ∧ t.kind = .parenOpen then 1 else 0 := by
  unfold Parser.step at h
  split at h
  case h_1 hset => simpa [nesting, hset] using captures_stepInSet h
  case h_2 hset => simpa [nesting, hset] using captures_stepOutside h

end State

/-- A run counts the groups that its tokens open. -/
theorem captures_of_foldlM (h : ts.foldlM (step maxDepth) s = .ok s') :
    s'.captures = s.captures + Token.groupsOf s.nesting.inSet ts := by
  induction ts generalizing s with
  | nil =>
    obtain rfl := Except.ok.inj h
    rfl
  | cons t ts ih =>
    obtain ⟨s₁, hs₁, h⟩ := exists_of_foldlM_cons_eq_ok h
    have hnesting := (State.moves_of_step hs₁).nesting_eq
    rw [ih h, State.captures_step hs₁, hnesting, Token.groupsOf_cons, Token.Nesting.inSet_step,
      Nat.add_assoc]

/-- The captures of a parsed pattern are numbered from 1, one for each parenthesis that opens a
capture group. -/
theorem captures_of_parse {source : String} (h : Pattern.parse source maxDepth = .ok p) :
    p.captures = List.range' 1 (Token.groupCount source) := by
  obtain ⟨s, hs, hgroups, rfl⟩ := exists_of_parse h
  have hsound : s.Sound maxDepth := (State.Sound.init maxDepth).foldlM hs
  have hcount : s.captures = Token.groupCount source := by
    rw [captures_of_foldlM hs]
    exact Nat.zero_add _
  rw [Level.captures_pattern, ← hcount, ← hsound.captured_eq, hgroups, captured]

end Parser

/-! ## The automaton -/

namespace Fragment

/-- The fragment leaves the groups as they are but for copies of groups in `indices`. -/
def Records (part : Fragment) (indices : List Nat) : Prop :=
  ∀ ⦃entry : Nat⦄ ⦃a : Automaton⦄ ⦃exit : Nat⦄ ⦃a' : Automaton⦄,
    part entry a = .ok (exit, a') →
      ∃ spans, (∀ s ∈ spans, s.1 ∈ indices) ∧ a'.groups = Group.record spans a.groups

variable {part rest : Fragment} {indices : List Nat} {index : Nat}

theorem Records.andThen (h : part.Records indices) (h' : rest.Records indices) :
    (part.andThen rest).Records indices := by
  intro entry a exit a' heq
  obtain ⟨mid, a₁, h₁, h₂⟩ := andThen_eq_ok heq
  obtain ⟨spans, hspans, hgroups⟩ := h h₁
  obtain ⟨spans', hspans', hgroups'⟩ := h' h₂
  refine ⟨spans ++ spans', List.forall_mem_append.2 ⟨hspans, hspans'⟩, ?_⟩
  rw [hgroups', hgroups, Group.record_append]

theorem records_edge (label : Label) : (edge label).Records indices := by
  intro entry a exit a' heq
  obtain ⟨-, rfl⟩ := edge_eq_ok heq
  exact ⟨[], nofun, rfl⟩

theorem records_set (negated : Bool) (items : List SetItem) :
    (set negated items).Records indices := by
  intro entry a exit a' heq
  obtain ⟨s, -, h⟩ := set_eq_ok heq
  exact records_edge _ h

theorem records_sequence_nil : (sequence []).Records indices := by
  intro entry a exit a' heq
  obtain ⟨-, rfl⟩ := sequence_nil_eq_ok heq
  exact ⟨[], nofun, rfl⟩

theorem records_copies (h : part.Records indices) (n : Nat) : (copies part n).Records indices := by
  induction n with
  | zero => exact records_sequence_nil
  | succ n ih =>
    intro entry a exit a' heq
    exact h.andThen ih (andThen_of_copies_succ heq)

theorem records_block (h : part.Records indices) (shape : Shape) (greedy : Bool) :
    (block part shape greedy).Records indices := by
  intro entry a exit a' heq
  obtain ⟨outer, a₁, h₁, -, rfl⟩ := block_eq_ok heq
  obtain ⟨spans, hspans, hgroups⟩ := h h₁
  exact ⟨spans, hspans, (Laid.groups_addExtras ..).trans hgroups⟩

theorem records_capture (h : part.Records indices) (hindex : index ∈ indices) :
    (capture index part).Records indices := by
  intro entry a exit a' heq
  obtain ⟨last, a₁, h₁, -, rfl⟩ := capture_eq_ok heq
  obtain ⟨spans, hspans, hgroups⟩ := h h₁
  refine ⟨spans ++ [(index, ⟨a.addState.1, a₁.addState.1⟩)], ?_, ?_⟩
  · exact List.forall_mem_append.2 ⟨hspans, by simpa using hindex⟩
  · rw [Group.record_append]
    exact congrArg (Group.update index _) hgroups

theorem records_repeated (h : part.Records indices) (times : Repetition) (greedy : Bool) :
    (repeated part times greedy).Records indices := by
  rcases times with _ | _ | _ | ⟨min, _ | max⟩
  · exact records_block h _ greedy
  · exact records_block h _ greedy
  · exact records_block h _ greedy
  · exact (records_copies h min).andThen (records_block h ⟨true, true⟩ greedy)
  · intro entry a exit a' heq
    exact (records_copies h min).andThen
      (records_copies (records_block h ⟨true, false⟩ greedy) (max - min)) (counted_some_eq_ok heq).2

end Fragment

namespace Pattern

variable {p : Pattern} {ps : List Pattern} {flags : Flags} {a : Automaton} {indices : List Nat}

theorem records_fragments (h : ∀ p ∈ ps, p.fragment.Records indices) :
    (Fragment.sequence (fragments ps)).Records indices := by
  induction ps with
  | nil => exact Fragment.records_sequence_nil
  | cons p ps ih =>
    obtain ⟨hp, hps⟩ := List.forall_mem_cons.1 h
    exact hp.andThen (ih hps)

theorem records_fan (h : ∀ p ∈ ps, p.fragment.Records indices) {entry : Nat} {exits : List Nat}
    {a' : Automaton} (heq : Fragment.fan (fragments ps) entry a = .ok (exits, a')) :
    ∃ spans, (∀ s ∈ spans, s.1 ∈ indices) ∧ a'.groups = Group.record spans a.groups := by
  induction ps generalizing a exits with
  | nil =>
    obtain ⟨-, rfl⟩ := Fragment.fan_nil_eq_ok heq
    exact ⟨[], nofun, rfl⟩
  | cons p ps ih =>
    obtain ⟨hp, hps⟩ := List.forall_mem_cons.1 h
    obtain ⟨first, a₁, others, h₁, h₂, -⟩ := Fragment.fan_cons_eq_ok heq
    obtain ⟨spans, hspans, hgroups⟩ := hp h₁
    obtain ⟨spans', hspans', hgroups'⟩ := ih hps h₂
    refine ⟨spans ++ spans', List.forall_mem_append.2 ⟨hspans, hspans'⟩, ?_⟩
    rw [hgroups', hgroups, Group.record_append]
    rfl

theorem captures_subset_of_mem (hp : p ∈ ps) : p.captures ⊆ capturesAll ps := by
  obtain ⟨before, rest, rfl⟩ := List.append_of_mem hp
  rw [capturesAll_append, capturesAll]
  intro index hindex
  simp [hindex]

/-- A fragment leaves the groups as they are but for copies of the captures of its pattern. -/
theorem records_fragment (p : Pattern) (h : p.captures ⊆ indices) :
    p.fragment.Records indices := by
  induction p using induct with
  | alternation branches ih =>
    rw [fragment]
    intro entry a exit a' heq
    have ih (p : Pattern) (hp : p ∈ branches) : p.fragment.Records indices :=
      ih p hp (List.Subset.trans (captures_subset_of_mem hp) h)
    obtain ⟨-, exits, a₁, h₁, -, rfl⟩ := Fragment.alternation_eq_ok heq
    obtain ⟨spans, hspans, hgroups⟩ := records_fan ih h₁
    exact ⟨spans, hspans, (joinAt_eq ..).1.trans hgroups⟩
  | sequence items ih =>
    rw [fragment]
    exact records_fragments fun p hp => ih p hp (List.Subset.trans (captures_subset_of_mem hp) h)
  | repeated body times greedy ih =>
    rw [fragment]
    exact Fragment.records_repeated (ih h) times greedy
  | group capture body ih =>
    rw [captures, List.append_subset] at h
    cases capture with
    | none =>
      rw [fragment]
      exact ih h.2
    | some index =>
      rw [fragment]
      exact Fragment.records_capture (ih h.2) (h.1 (List.mem_singleton.2 rfl))
  | anchor | char | charClass =>
    rw [fragment]
    exact Fragment.records_edge _
  | set negated items =>
    rw [fragment]
    exact Fragment.records_set negated items

/-- The automaton of a pattern has the groups that were declared, whatever their number, and no
others. -/
theorem groups_index_of_build (hb : p.build flags = .ok a) :
    a.groups.map (·.index) = List.range' 1 (p.captures.foldl max 0) ∧
      a.groupCount = p.captures.foldl max 0 := by
  obtain ⟨exit, a', hbuild, rfl⟩ := fragment_of_build hb
  obtain ⟨spans, hspans, hgroups⟩ := p.records_fragment (List.Subset.refl _) hbuild
  have hrange : ∀ s ∈ spans, 1 ≤ s.1 ∧ s.1 < 1 + p.captures.foldl max 0 :=
    fun s hs => index_bounds_of_build hb (hspans s hs)
  refine ⟨?_, Automaton.groupCount_of_record hrange hgroups⟩
  have hlist := hgroups.trans (Group.record_list (f := fun _ => []) hrange)
  rw [show (a'.setFinal exit).groups = _ from hlist, Group.list, List.map_map]
  exact List.map_id _

end Pattern

/-! ## Matches -/

/-- All matches that are found are those of paths which a search accepts. -/
theorem Matcher.exists_exec_of_findAllAmong {m : Matcher} {text : String} {starts : List Nat}
    {rs : List Match} (h : m.findAllAmong text starts = .ok rs) :
    ∀ r ∈ rs, ∃ start path, m.exec text start = .ok (some path) ∧
      r = .ofPath m.automaton text path := by
  fun_induction findAllAmong m text starts generalizing rs with
  | case1 =>
    obtain rfl := Except.ok.inj h
    exact nofun
  | case2 start rest ih ih' =>
    obtain ⟨found, hexec, h⟩ := exists_of_bind_eq_ok h
    cases found with
    | none => exact ih h
    | some path =>
      obtain ⟨more, hmore, h⟩ := exists_of_bind_eq_ok h
      obtain rfl := Except.ok.inj h
      exact List.forall_mem_cons.2 ⟨⟨start, path, hexec, rfl⟩, ih' path hmore⟩

/-- A match has a range for the whole of it and for each group of the automaton. -/
theorem Match.length_spans_ofPath (a : Automaton) (text : String) (path : Path) :
    (ofPath a text path).spans.length = a.groupCount + 1 := by
  simp [spans, ofPath]

namespace Pattern

/-- Groups are numbered by their opening parentheses. The captures of a pattern that was parsed from
a text are the numbers up to `k`, where `k` parentheses outside brackets open a capture group. These
are the groups of its automaton, and a match has `k + 1` ranges, wherever the search began and
whatever its limits were. -/
theorem numbered_of_build {source : String} {maxDepth : Nat} {p : Pattern} {flags : Flags}
    {a : Automaton} (hp : parse source maxDepth = .ok p) (hb : p.build flags = .ok a) :
    p.captures = List.range' 1 (Token.groupCount source) ∧
      a.groups.map (·.index) = List.range' 1 (Token.groupCount source) ∧
      a.groupCount = Token.groupCount source ∧
      ∀ (limits : Limits) (text : String),
        (∀ path, (Match.ofPath a text path).spans.length = Token.groupCount source + 1) ∧
        (∀ start r, Matcher.findAt { automaton := a, limits } text start = .ok (some r) →
          r.spans.length = Token.groupCount source + 1) ∧
        ∀ rs, Matcher.findAll { automaton := a, limits } text = .ok rs →
          ∀ r ∈ rs, r.spans.length = Token.groupCount source + 1 := by
  have hcaptures := Parser.captures_of_parse hp
  obtain ⟨hgroups, hcount⟩ := groups_index_of_build hb
  rw [hcaptures, Automaton.foldl_max_range'] at hgroups hcount
  have hpath (text : String) (path : Path) :
      (Match.ofPath a text path).spans.length = Token.groupCount source + 1 := by
    rw [Match.length_spans_ofPath, hcount]
  refine ⟨hcaptures, hgroups, hcount, fun limits text => ⟨hpath text, ?_, ?_⟩⟩
  · intro start r h
    obtain ⟨-, path, -, rfl⟩ := Matcher.exists_exec_of_findAmong h
    exact hpath text path
  · intro rs h r hr
    obtain ⟨-, path, -, rfl⟩ := Matcher.exists_exec_of_findAllAmong h r hr
    exact hpath text path

/-- The pattern `(?:(a)|[(]){0}(b)`: a group that does not capture, a parenthesis between brackets,
and a group of which no copy is built. -/
def unbuiltGroup : Pattern :=
  .sequence [.repeated
    (.group none (.alternation [.group (some 1) (.char 'a'), .set false [.char '(']]))
    (.counted 0 (some 0)) true, .group (some 2) (.char 'b')]

theorem numbered_of_build_unbuiltGroup :
    ∃ a, parse "(?:(a)|[(])\x7b0\x7d(b)" 2 = .ok unbuiltGroup ∧ unbuiltGroup.build {} = .ok a ∧
      unbuiltGroup.captures = [1, 2] ∧ a.groupCount = 2 ∧ a.spansOf 1 = [] ∧
      ∀ path, (Match.ofPath a "ab" path).spans.length = 3 := by
  have htokens : Token.ofSource "(?:(a)|[(])\x7b0\x7d(b)" =
      [⟨.nonCapturingOpen, 0, ['(', '?', ':']⟩, ⟨.parenOpen, 3, ['(']⟩, ⟨.char, 4, ['a']⟩,
        ⟨.parenClose, 5, [')']⟩, ⟨.pipe, 6, ['|']⟩, ⟨.setOpen, 7, ['[']⟩, ⟨.parenOpen, 8, ['(']⟩,
        ⟨.setClose, 9, [']']⟩, ⟨.parenClose, 10, [')']⟩, ⟨.braces, 11, ['\x7b', '0', '\x7d']⟩,
        ⟨.parenOpen, 14, ['(']⟩, ⟨.char, 15, ['b']⟩, ⟨.parenClose, 16, [')']⟩] := by
    decide +kernel
  have hp : parse "(?:(a)|[(])\x7b0\x7d(b)" 2 = .ok unbuiltGroup := by
    rw [parse, htokens]
    rfl
  have hgroups : Token.groupCount "(?:(a)|[(])\x7b0\x7d(b)" = 2 := by
    rw [Token.groupCount, htokens]
    rfl
  obtain ⟨a, hb, hspans⟩ : ∃ a, unbuiltGroup.build {} = .ok a ∧ a.spansOf 1 = [] := ⟨_, rfl, rfl⟩
  obtain ⟨hcaptures, -, hcount, hmatches⟩ := numbered_of_build hp hb
  rw [hgroups] at hcaptures hcount hmatches
  exact ⟨a, hp, hb, hcaptures, hcount, hspans, (hmatches {} "ab").1⟩

end Pattern

end PatternAutomata
