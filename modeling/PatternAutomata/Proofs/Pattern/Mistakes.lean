import PatternAutomata.Proofs.Pattern.Agreement
import PatternAutomata.Proofs.Pattern.Normal

/-!
# The mistakes of a pattern

A mistake is shown by a piece of the pattern, which is never empty. Mostly the piece is a token. In
a set it goes from one atom to another, and that the other one stands behind the first is known
from the order of the tokens.

## Main definitions

* `Diagnostic.Shows` — a diagnostic says what stands in the pattern.
* `SetAtom.Row` — the members of a set stand one behind the other.
* `Parser.State.Placed` — what the parser holds on to stands in what it has read.

## Main statements

* `Parser.State.Placed.step` — a token is taken, or the pattern shows why not.
* `Pattern.parse_shows` — the rules of the grammar never panic, and the pattern shows what is wrong
  with it.
-/
namespace PatternAutomata

/-- One or more characters of the text stand from one place to the other. -/
structure Text.Encloses (text : String) (start stop : Nat) : Prop where
  lt : start < stop
  le : stop ≤ text.utf8ByteSize
  isBoundary_start : IsBoundary text start
  isBoundary_stop : IsBoundary text stop

theorem Text.encloses_of_slice? {text part : String} {start stop : Nat}
    (h : slice? text start stop = some part) (hlt : start < stop) : Encloses text start stop := by
  obtain ⟨before, after, rfl, rfl, rfl⟩ := slice?_eq_some_iff.1 h
  refine ⟨hlt, ?_, isBoundary_iff.2 ⟨before, part ++ after, rfl, rfl⟩,
    isBoundary_iff.2 ⟨before ++ part, after, (String.append_assoc ..).symm, rfl⟩⟩
  simp only [String.utf8ByteSize_append]
  omega

theorem Text.Encloses.trans {text : String} {i j j' k : Nat} (h : Encloses text i j)
    (h' : Encloses text j' k) (hle : j ≤ j') : Encloses text i k where
  lt := by have := h.lt; have := h'.lt; omega
  le := h'.le
  isBoundary_start := h.isBoundary_start
  isBoundary_stop := h'.isBoundary_stop

theorem Token.IsOf.encloses {t : Token} {source : String} (h : t.IsOf source) :
    Text.Encloses source t.start t.stop :=
  Text.encloses_of_slice? h.slice?_eq (start_lt_stop h.spells)

/-- The piece from one place to another shows the mistake. -/
def Mistake.ShownBy (source : String) (start stop : Nat) : Mistake → Prop
  | unclosedGroup => Text.slice? source start stop ∈ [some "(", some "(?:"]
  | unclosedSet => Text.slice? source start stop ∈ [some "[", some "[^"]
  | unmatchedParen => Text.slice? source start stop = some ")"
  | danglingBackslash => Text.slice? source start stop = some "\\"
  | nothingToRepeat =>
    ∃ t ∈ Token.ofSource source, t.kind.isQuantifier ∧ t.start = start ∧ t.stop = stop
  | boundsOutOfOrder | boundTooLarge =>
    ∃ t ∈ Token.ofSource source, t.kind = .braces ∧ t.start = start ∧ t.stop = stop
  | rangeOutOfOrder | nonAsciiInSet => True

/-- The range of the diagnostic lies in the text, holds a character, and shows the mistake. -/
structure Diagnostic.Shows (source : String) (d : Diagnostic) : Prop
    extends Text.Encloses source d.start d.stop where
  shownBy : d.mistake.ShownBy source d.start d.stop
  message_eq : d.message = d.mistake.message

namespace SetAtom

/-- The atoms stand one behind the other, from one place of the text to another. -/
inductive Row (source : String) : Nat → Nat → List SetAtom → Prop where
  | nil {start stop : Nat} (h : start ≤ stop) : Row source start stop []
  | cons {start stop : Nat} {a : SetAtom} {rest : List SetAtom} (hstart : start ≤ a.start)
      (ha : Text.Encloses source a.start a.stop) (hrest : Row source a.stop stop rest) :
      Row source start stop (a :: rest)

variable {source : String} {i j k : Nat} {atoms atoms' : List SetAtom} {t : Token}

theorem Row.of_le (h : Row source j k atoms) (hle : i ≤ j) : Row source i k atoms := by
  cases h with
  | nil h => exact .nil (by omega)
  | cons hstart ha hrest => exact .cons (by omega) ha hrest

theorem Row.append (h : Row source i j atoms) (h' : Row source j k atoms') :
    Row source i k (atoms ++ atoms') := by
  induction h with
  | nil h => exact h'.of_le h
  | cons hstart ha _ ih => exact .cons hstart ha (ih h')

theorem row_ofChars {before after : String} {cs : List Char}
    (hsource : source = before ++ (String.ofList cs ++ after)) :
    Row source before.utf8ByteSize (before.utf8ByteSize + Text.byteLength cs)
      (ofChars before.utf8ByteSize cs) := by
  induction cs generalizing before with
  | nil => exact .nil (Nat.le_refl _)
  | cons c cs ih =>
    have hsplit : source = before ++ (String.singleton c ++ (String.ofList cs ++ after)) := by
      rw [hsource, String.ofList_cons, String.append_assoc]
    have hsize : (before ++ String.singleton c).utf8ByteSize =
        before.utf8ByteSize + c.utf8Size := by
      rw [String.utf8ByteSize_append, String.utf8ByteSize_singleton]
    have hrest := @ih (before ++ String.singleton c) (by rw [hsplit, String.append_assoc])
    rw [hsize, Nat.add_assoc] at hrest
    refine .cons (Nat.le_refl _) ?_ hrest
    exact Text.encloses_of_slice? (Text.slice?_eq_some_iff.2 ⟨_, _, hsplit, rfl, hsize⟩)
      (Nat.lt_add_of_pos_right c.utf8Size_pos)

/-- What a token stands for between brackets stands where the token does. -/
theorem row_ofToken (ht : t.IsOf source) : Row source t.start t.stop (ofToken t) := by
  have hsingle (kind : Kind) : Row source t.start t.stop [⟨kind, t.start, t.stop⟩] :=
    .cons (Nat.le_refl _) ht.encloses (.nil (Nat.le_refl _))
  obtain ⟨before, after, hsource, hstart, -⟩ := Text.slice?_eq_some_iff.1 ht.slice?_eq
  unfold ofToken
  split
  · exact hsingle _
  · exact hsingle _
  · rw [Token.stop, ← hstart]
    exact row_ofChars hsource

end SetAtom

variable {source : String} {t : Token} {d : Diagnostic} {mistake : Mistake}

theorem Diagnostic.shows_ofMistake {start stop : Nat} (h : Text.Encloses source start stop)
    (hshown : mistake.ShownBy source start stop) :
    (Diagnostic.ofMistake mistake start stop).Shows source :=
  ⟨h, hshown, rfl⟩

namespace SetItem

theorem shows_of_ofRange {lo hi : Char} {start stop : Nat}
    (hpiece : Text.Encloses source start stop) (h : ofRange lo hi start stop = .error d) :
    d.Shows source := by
  unfold ofRange at h
  split at h
  · cases h
    exact Diagnostic.shows_ofMistake hpiece trivial
  split at h
  · cases h
  · cases h
    exact Diagnostic.shows_ofMistake hpiece trivial

theorem shows_of_ofAtom {a : SetAtom} (ha : Text.Encloses source a.start a.stop)
    (h : ofAtom a = .error d) : d.Shows source := by
  unfold ofAtom at h
  split at h
  · split at h
    · cases h
    · cases h
      exact Diagnostic.shows_ofMistake ha trivial
  · cases h
  · cases h

/-- A mistake in a set is shown by some of its atoms. -/
theorem shows_of_ofAtoms {i j : Nat} {atoms : List SetAtom} (hrow : SetAtom.Row source i j atoms)
    (h : ofAtoms atoms = .error d) : d.Shows source := by
  fun_induction ofAtoms atoms generalizing i with
  | case1 lo start _ _ _ hi _ stop rest ih =>
    obtain _ | ⟨-, hlo, _ | ⟨hdash, hd, _ | ⟨hhi, hh, hrest⟩⟩⟩ := hrow
    rcases error_of_bind_eq_error h with h | ⟨item, -, h⟩
    · refine shows_of_ofRange (hlo.trans hh ?_) h
      have := hd.lt
      omega
    · rcases error_of_bind_eq_error h with h | ⟨items, -, h⟩
      · exact ih hrest h
      · cases h
  | case2 atom rest _ ih =>
    obtain _ | ⟨-, ha, hrest⟩ := hrow
    rcases error_of_bind_eq_error h with h | ⟨item, -, h⟩
    · exact shows_of_ofAtom ha h
    · rcases error_of_bind_eq_error h with h | ⟨items, -, h⟩
      · exact ih hrest h
      · cases h
  | case3 => cases h

end SetItem

namespace Parser

variable {α β : Type} {x : Except ParseError α} {f : α → Except ParseError β} {P : α → Prop}
  {Q : β → Prop} {s s' : State} {offset offset' maxDepth : Nat}

/-- Where something fails, the pattern shows why, unless groups are nested too deep. Otherwise `P`
holds. -/
def Founded (source : String) (x : Except ParseError α) (P : α → Prop) : Prop :=
  match x with
  | .ok a => P a
  | .error (.invalid d) => d.Shows source
  | .error .tooDeep => True

theorem Founded.bind (h : Founded source x P) (hf : ∀ a, P a → Founded source (f a) Q) :
    Founded source (x >>= f) Q := by
  match x, h with
  | .ok a, h => exact hf a h
  | .error (.invalid d), h => exact h
  | .error .tooDeep, _ => trivial

theorem founded_mistakeAt (ht : t.IsOf source) (h : mistake.ShownBy source t.start t.stop) :
    Founded source (.error (mistakeAt t mistake)) P :=
  Diagnostic.shows_ofMistake ht.encloses h

/-- What the parser holds on to stands in the pattern, up to `offset`. -/
structure State.Placed (source : String) (offset : Nat) (s : State) : Prop where
  group : ∀ g ∈ s.groups, g.token.IsOf source ∧
    Mistake.unclosedGroup.ShownBy source g.token.start g.token.stop
  set : ∀ b, s.set = some b → b.token.IsOf source ∧
    Mistake.unclosedSet.ShownBy source b.token.start b.token.stop ∧
    SetAtom.Row source b.token.stop offset b.atoms.reverse

theorem bound_founded (ht : t ∈ Token.ofSource source) (hkind : t.kind = .braces)
    (digits : List Char) : Founded source (bound t digits) fun _ => True := by
  unfold bound
  split
  · trivial
  · exact founded_mistakeAt (Token.isOf_of_mem_ofSource ht) ⟨t, ht, hkind, rfl, rfl⟩

theorem count_founded (ht : t ∈ Token.ofSource source) (hkind : t.kind = .braces) :
    Founded source (count t) fun _ => True := by
  have hbound := bound_founded ht hkind
  unfold count
  dsimp only
  split
  · exact (hbound _).bind fun _ _ => trivial
  · exact (hbound _).bind fun _ _ => trivial
  · refine (hbound _).bind fun min _ => (hbound _).bind fun max _ => ?_
    split
    · exact founded_mistakeAt (Token.isOf_of_mem_ofSource ht) ⟨t, ht, hkind, rfl, rfl⟩
    · trivial

namespace State

/-- Only the open groups matter where no set is open. -/
theorem Placed.of_groups (h : s.Placed source offset) (hgroups : s'.groups = s.groups)
    (hset : s'.set = none) : s'.Placed source offset' where
  group := by rw [hgroups]; exact h.group
  set := by simp [hset]

theorem Placed.quantify {times : Except ParseError Repetition} (h : s.Placed source offset)
    (hset : s.set = none) (ht : t ∈ Token.ofSource source) (hkind : t.kind.isQuantifier = true)
    (htimes : Founded source times fun _ => True) :
    Founded source (s.quantify t times) (Placed source t.stop) := by
  unfold State.quantify
  split
  · exact htimes.bind fun _ _ => h.of_groups rfl hset
  · exact founded_mistakeAt (Token.isOf_of_mem_ofSource ht) ⟨t, ht, hkind, rfl, rfl⟩

theorem Placed.escape (h : s.Placed source offset) (hset : s.set = none) (c : Char) :
    (s.escape c).Placed source offset' := by
  unfold State.escape
  split
  · exact h.of_groups rfl hset
  · exact h.of_groups rfl hset
  · split <;> exact h.of_groups rfl hset

theorem Placed.openGroup {capture : Option Nat} {captures : Nat} (h : s.Placed source offset)
    (ht : t.IsOf source) (hshown : Mistake.unclosedGroup.ShownBy source t.start t.stop) :
    Founded source (s.openGroup maxDepth t capture captures) (Placed source t.stop) := by
  unfold State.openGroup
  split
  · trivial
  · exact ⟨List.forall_mem_cons.2 ⟨⟨ht, hshown⟩, h.group⟩, nofun⟩

theorem Placed.closeGroup (h : s.Placed source offset) (hset : s.set = none) (ht : t.IsOf source)
    (hshown : Mistake.unmatchedParen.ShownBy source t.start t.stop) :
    Founded source (s.closeGroup t) (Placed source t.stop) := by
  unfold State.closeGroup
  split
  case h_1 => exact founded_mistakeAt ht hshown
  case h_2 g gs hgroups =>
    exact ⟨(List.forall_mem_cons.1 (hgroups ▸ h.group)).2, by simp [hset]⟩

theorem Placed.openSet {negated : Bool} (h : s.Placed source offset) (ht : t.IsOf source)
    (hshown : Mistake.unclosedSet.ShownBy source t.start t.stop) :
    Placed source t.stop { s with set := some { token := t, negated } } := by
  refine ⟨h.group, ?_⟩
  rintro _ ⟨⟩
  exact ⟨ht, hshown, .nil (Nat.le_refl _)⟩

/-- Outside brackets, a token is taken or refused as it stands. A token of a kind that has no case
of its own is refused, and its characters are those of the kind. -/
theorem Placed.stepOutside (h : s.Placed source offset) (hset : s.set = none)
    (ht : t ∈ Token.ofSource source) :
    Founded source (s.stepOutside maxDepth t) (Placed source t.stop) := by
  have hof : t.IsOf source := Token.isOf_of_mem_ofSource ht
  have hslice {cs : List Char} (hchars : t.chars = cs) :
      Text.slice? source t.start t.stop = some (String.ofList cs) := by
    rw [hof.slice?_eq, Token.text, hchars]
  have hspells := hof.spells
  unfold State.stepOutside
  split
  case h_1 hkind =>
    rw [hkind] at hspells
    exact h.openGroup hof (by simp [Mistake.ShownBy, hslice hspells])
  case h_2 hkind =>
    rw [hkind] at hspells
    exact h.openGroup hof (by simp [Mistake.ShownBy, hslice hspells])
  case h_3 hkind =>
    rw [hkind] at hspells
    exact h.closeGroup hset hof (hslice hspells)
  case h_4 hkind | h_5 hkind =>
    rw [hkind] at hspells
    exact h.openSet hof (by simp [Mistake.ShownBy, hslice hspells])
  case h_6 => exact h.of_groups rfl hset
  case h_7 hkind | h_8 hkind => exact h.quantify hset ht (by rw [hkind]; rfl) trivial
  case h_9 hkind =>
    unfold State.question
    split
    · exact h.of_groups rfl hset
    · exact h.quantify hset ht (by rw [hkind]; rfl) trivial
  case h_10 hkind => exact h.quantify hset ht (by rw [hkind]; rfl) (count_founded ht hkind)
  case h_11 | h_12 | h_13 => exact h.of_groups rfl hset
  case h_14 => exact h.escape hset _
  case h_15 | h_16 | h_17 => exact h.of_groups rfl hset
  case h_18 =>
    refine founded_mistakeAt hof (hslice ?_)
    cases hkind : t.kind <;> rw [hkind] at hspells <;> try contradiction
    case escape => obtain ⟨c, hc⟩ := hspells; simp_all
    case char => obtain ⟨c, hc⟩ := hspells; simp_all
    case dash => simp_all [TokenKind.Spells]
    case setClose => simp_all [TokenKind.Spells]
    case garbage => exact hspells

/-- Between brackets, a token is one more atom, or it closes the set. -/
theorem Placed.stepInSet {b : OpenSet} (h : s.Placed source t.start) (hset : s.set = some b)
    (ht : t.IsOf source) : Founded source (s.stepInSet b t) (Placed source t.stop) := by
  obtain ⟨hb, hshown, hrow⟩ := h.set b hset
  unfold State.stepInSet
  split
  case h_1 =>
    split
    case h_1 items hitems => exact ⟨h.group, nofun⟩
    case h_2 d hd => exact SetItem.shows_of_ofAtoms hrow hd
  case h_2 hkind =>
    have hspells := ht.spells
    rw [hkind] at hspells
    refine founded_mistakeAt ht ?_
    rw [Mistake.ShownBy, ht.slice?_eq, Token.text, hspells]
  case h_3 =>
    refine ⟨h.group, ?_⟩
    rintro _ ⟨⟩
    refine ⟨hb, hshown, ?_⟩
    simpa using hrow.append (SetAtom.row_ofToken ht)

theorem Placed.step (h : s.Placed source t.start) (ht : t ∈ Token.ofSource source) :
    Founded source (step maxDepth s t) (Placed source t.stop) := by
  unfold Parser.step
  split
  · exact h.stepInSet ‹_› (Token.isOf_of_mem_ofSource ht)
  · exact h.stepOutside ‹_› ht

theorem Placed.finish (h : s.Placed source offset) : Founded source (finish s) fun _ => True := by
  unfold Parser.finish
  split
  case h_1 b hset =>
    obtain ⟨hb, hshown, -⟩ := h.set b hset
    exact founded_mistakeAt hb hshown
  case h_2 g gs hset hgroups =>
    obtain ⟨hg, hshown⟩ := h.group g (by simp [hgroups])
    exact founded_mistakeAt hg hshown
  case h_3 => trivial

/-- The parser goes on from token to token. -/
theorem Placed.foldlM {cs : List Char} (h : s.Placed source offset)
    (hts : ∀ t ∈ Token.listFrom offset cs, t ∈ Token.ofSource source) :
    Founded source ((Token.listFrom offset cs).foldlM (Parser.step maxDepth) s)
      fun s' => ∃ offset', s'.Placed source offset' := by
  induction offset, cs using Token.listFrom_induct generalizing s with
  | nil offset => exact ⟨offset, h⟩
  | cons t rest ts _ ih =>
    obtain ⟨ht, hts⟩ := List.forall_mem_cons.1 hts
    rw [List.foldlM_cons]
    exact (h.step ht).bind fun s' hs' => ih hs' hts

end State

theorem founded_parse (source : String) (maxDepth : Nat) :
    Founded source (Pattern.parse source maxDepth) fun _ => True := by
  have hinit : State.Placed source 0 {} := ⟨nofun, nofun⟩
  refine (hinit.foldlM fun t ht => ht).bind ?_
  rintro s ⟨offset, hs⟩
  exact hs.finish

end Parser

/-- Parsing by the rules of the grammar gives what the parser gives, without a panic. What is wrong
with a pattern is shown by a piece of it that holds what the mistake says. -/
theorem Pattern.parse_shows (source : String) (maxDepth : Nat) :
    (∀ p, Descent.parse source maxDepth ≠ .error (.panic p)) ∧
      Descent.parse source maxDepth = (parse source maxDepth).mapError .rejected ∧
      ∀ d, parse source maxDepth = .error (.invalid d) → d.Shows source := by
  refine ⟨fun p hp => ?_, Descent.parse_eq source maxDepth, fun d hd => ?_⟩
  · rw [Descent.parse_eq] at hp
    cases h : parse source maxDepth <;> rw [h] at hp <;> cases hp
  · have := Parser.founded_parse source maxDepth
    rwa [hd] at this

theorem Pattern.parse_shows_unclosedGroup :
    parse "é(?:a" 256 = .error (.invalid (.ofMistake .unclosedGroup 2 5)) ∧
      (Diagnostic.ofMistake .unclosedGroup 2 5).Shows "é(?:a" := by
  have htokens : Token.ofSource "é(?:a" =
      [⟨.char, 0, ['é']⟩, ⟨.nonCapturingOpen, 2, ['(', '?', ':']⟩, ⟨.char, 5, ['a']⟩] := by
    decide +kernel
  have h : parse "é(?:a" 256 = .error (.invalid (.ofMistake .unclosedGroup 2 5)) := by
    rw [parse, htokens]
    rfl
  exact ⟨h, (parse_shows "é(?:a" 256).2.2 _ h⟩

end PatternAutomata
