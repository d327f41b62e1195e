import PatternAutomata.Proofs.Pattern.Descent

/-!
# The rules of the grammar agree with the parser

Where a rule is entered, the parser stands with the groups around it open. What the rule reads, the
parser reads too and adds to what it has, so that both stand at the same place when the rule is
done. Where the rule rejects the text, the parser comes to the same mistake, and where a check of
the rule would fail, the parser could not have come.

## Main definitions

* `Descent.Agrees` — what a parse comes to is what a rule comes to.
* `Descent.Meets` — a rule stands where the parser does.

## Main statement

* `Descent.parse_eq` — the rules find what the parser finds, and never panic.
-/
namespace PatternAutomata

namespace Descent

open PatternAutomata.Parser (State Level OpenGroup Operand mistakeAt)

section Outcomes

variable {α β : Type} {x : Except ParseError Pattern} {r : Except Failure α} {Q : α → Prop}
  {R : β → Prop} {a : α} {e : ParseError} {f : α → Except Failure β}

/-- A rule does not panic. Where it rejects the text, `x` is the same mistake, and where it reads
on, `Q` holds of what it has read. -/
def Agrees (x : Except ParseError Pattern) (r : Except Failure α) (Q : α → Prop) : Prop :=
  match r with
  | .ok a => Q a
  | .error (.rejected e) => x = .error e
  | .error (.panic _) => False

theorem Agrees.bind (h : Agrees x r Q) (hf : ∀ a, Q a → Agrees x (f a) R) :
    Agrees x (r >>= f) R := by
  match r, h with
  | .ok a, h => exact hf a h
  | .error (.rejected e), h => exact h

theorem Agrees.bind_ok (h : Agrees x (f a) R) : Agrees x (.ok a >>= f) R := h

theorem Agrees.rejected (h : x = .error e) : Agrees x (.error (.rejected e)) Q := h

end Outcomes

variable {source : String} {maxDepth : Nat} {x : Except ParseError Pattern} {t : Token}
  {ts : List Token} {c c' : Cursor} {gs : List OpenGroup} {l : Level} {op : Operand}

/-- What the parser comes to from a state on. -/
def run (maxDepth : Nat) (s : State) (ts : List Token) : Except ParseError Pattern :=
  ts.foldlM (Parser.step maxDepth) s >>= Parser.finish

theorem run_cons (s : State) :
    run maxDepth s (t :: ts) = Parser.step maxDepth s t >>= fun s => run maxDepth s ts := by
  rw [run, List.foldlM_cons, bind_assoc]
  rfl

/-- A rule and the parser stand at the same place of the text, outside of sets, and the parser comes
to `x`. -/
structure Meets (source : String) (maxDepth : Nat) (x : Except ParseError Pattern)
    (gs : List OpenGroup) (l : Level) (op : Operand) (c : Cursor) : Prop where
  isOf : ∀ t ∈ c.rest, t.IsOf source
  run_eq : run maxDepth ⟨gs, l, op, none, c.captures⟩ c.rest = x

/-- The next token may be a quantifier only where there is nothing to repeat. -/
def Ready (op : Operand) (c : Cursor) : Prop :=
  c.atQuantifier → op = .none

theorem textOf_eq (h : t.IsOf source) : textOf source t = .ok t.text := by
  rw [textOf, slice, h.slice?_eq]

/-- The parser takes a token that leads to another state. -/
theorem Meets.step {gs' : List OpenGroup} {l' : Level} {op' : Operand} {captures' : Nat}
    (h : Meets source maxDepth x gs l op c) (hc : c.rest = t :: ts)
    (hs : State.stepOutside ⟨gs, l, op, none, c.captures⟩ maxDepth t =
      .ok ⟨gs', l', op', none, captures'⟩) :
    Meets source maxDepth x gs' l' op' ⟨ts, captures'⟩ where
  isOf := fun u hu => h.isOf u (hc ▸ List.mem_cons_of_mem t hu)
  run_eq := by
    rw [← h.run_eq, hc, run_cons, Parser.step, hs]
    rfl

/-- The parser takes a token that is a mistake. -/
theorem Meets.eq_error {e : ParseError} (h : Meets source maxDepth x gs l op c)
    (hc : c.rest = t :: ts)
    (hs : State.stepOutside ⟨gs, l, op, none, c.captures⟩ maxDepth t = .error e) :
    x = .error e := by
  rw [← h.run_eq, hc, run_cons, Parser.step, hs]
  rfl

theorem exists_of_isAt {kind : TokenKind} (h : c.isAt kind = true) :
    ∃ t ts k, c = ⟨t :: ts, k⟩ ∧ t.kind = kind := by
  obtain ⟨_ | ⟨t, ts⟩, k⟩ := c
  · simp [Cursor.isAt, Cursor.current] at h
  · exact ⟨t, ts, k, rfl, by simpa [Cursor.isAt, Cursor.current] using h⟩

theorem bump_eq (hc : c.rest = t :: ts) : c.bump = .ok ⟨ts, c.captures⟩ := by
  rw [Cursor.bump, hc]

/-- A quantifier is a mistake behind anything but an atom, except that a question mark may follow
another quantifier. -/
theorem stepOutside_quantifier {s : State} (hq : t.kind.isQuantifier = true)
    (hop : s.operand ≠ .atom) (hlazy : s.operand = .quantified → t.kind ≠ .question) :
    s.stepOutside maxDepth t = .error (mistakeAt t .nothingToRepeat) := by
  have hquantify (times) : s.quantify t times = .error (mistakeAt t .nothingToRepeat) := by
    unfold State.quantify
    split
    · contradiction
    · rfl
  cases hkind : t.kind <;> simp only [hkind, TokenKind.isQuantifier, Bool.false_eq_true] at hq
  case question =>
    simp only [State.stepOutside, hkind, State.question]
    split
    · exact absurd hkind (hlazy ‹_›)
    · exact hquantify _
  all_goals simp only [State.stepOutside, hkind, hquantify]

theorem agrees_rejectQuantifier (h : Meets source maxDepth x gs l op c) (hop : op ≠ .atom)
    (hlazy : op = .quantified → c.isAt .question = false) :
    Agrees x (rejectQuantifier c) fun _ => c.atQuantifier = false := by
  obtain ⟨_ | ⟨t, ts⟩, k⟩ := c
  · exact rfl
  · simp only [rejectQuantifier]
    split
    case isTrue hq =>
      refine h.eq_error rfl (stepOutside_quantifier hq hop fun hop' hkind => ?_)
      have := hlazy hop'
      simp [Cursor.isAt, Cursor.current, hkind] at this
    case isFalse hq => exact Bool.eq_false_iff.2 hq

/-- The anchor that a token stands for. -/
def anchorOf (t : Token) : Option Anchor :=
  match t.kind, t.chars with
  | .caret, _ => some .start
  | .dollar, _ => some .finish
  | .escape, [_, 'b'] => some .wordBoundary
  | .escape, [_, 'B'] => some .notWordBoundary
  | _, _ => none

theorem anchor?_eq (h : ∀ t ∈ c.rest, t.IsOf source) :
    anchor? source c = .ok (c.rest.head?.bind anchorOf) := by
  obtain ⟨_ | ⟨t, ts⟩, k⟩ := c
  · rfl
  · have ht : t.IsOf source := h t List.mem_cons_self
    obtain ⟨kind, start, chars⟩ := t
    cases kind
    case escape =>
      obtain ⟨d, rfl : chars = ['\\', d]⟩ := ht.spells
      have hb : String.ofList ['\\', d] = "\\b" ↔ d = 'b' := by
        simp [← String.toList_inj]
      have hB : String.ofList ['\\', d] = "\\B" ↔ d = 'B' := by
        simp [← String.toList_inj]
      simp only [anchor?, textOf_eq ht, Token.text, List.head?_cons, Option.bind_some, anchorOf]
      change Except.ok (if _ then _ else if _ then _ else _) = _
      simp only [hb, hB]
      split
      · simp_all
      · split <;> simp_all
    all_goals rfl

theorem stepOutside_anchor {s : State} {a : Anchor} (h : anchorOf t = some a) :
    s.stepOutside maxDepth t = .ok (s.pushAnchor a) := by
  unfold anchorOf at h
  split at h <;> cases h <;> simp_all [State.stepOutside, State.escape]

theorem bound_eq (t : Token) (digits : List Char) :
    bound t digits = (Parser.bound t digits).mapError .rejected := by
  have hfilter : (Text.unsigned? 0x1_0000_0000 digits).filter (· ≤ Parser.maxBound) =
      Text.unsigned? (Parser.maxBound + 1) digits := by
    simp only [Text.unsigned?, Parser.maxBound]
    generalize (if digits.head? = some '+' then digits.tail else digits) = ds
    by_cases hds : ds ≠ [] ∧ ds.all isDigit <;> grind
  rw [bound, hfilter, Parser.bound]
  cases Text.unsigned? (Parser.maxBound + 1) digits <;> rfl

/-- The text of a count without its braces. -/
theorem slice_braces (inner : List Char) :
    slice (String.ofList ('\x7b' :: inner ++ ['\x7d'])) 1
      ((String.ofList ('\x7b' :: inner ++ ['\x7d'])).utf8ByteSize - 1) =
      .ok (String.ofList inner) := by
  have hslice : Text.slice? (String.ofList ('\x7b' :: inner ++ ['\x7d'])) 1
      ((String.ofList ('\x7b' :: inner ++ ['\x7d'])).utf8ByteSize - 1) =
      some (String.ofList inner) := by
    refine Text.slice?_eq_some_iff.2 ⟨"\x7b", "\x7d", ?_, rfl, ?_⟩
    · apply String.toList_injective
      simp
    · simp only [List.cons_append, String.ofList_cons, String.ofList_append,
        String.utf8ByteSize_append, String.ofList_nil, String.utf8ByteSize_singleton,
        String.utf8ByteSize_empty, show ('\x7d' : Char).utf8Size = 1 from rfl]
      rfl
  rw [slice, hslice]

theorem count_eq (ht : t.IsOf source) (hkind : t.kind = .braces) :
    count source t = (Parser.count t).mapError .rejected := by
  obtain ⟨inner, hchars⟩ : ∃ inner, t.chars = '\x7b' :: inner ++ ['\x7d'] := by
    simpa [TokenKind.Spells, hkind] using ht.spells
  have hinner : t.chars.tail.dropLast = inner := by simp [hchars]
  have hslice : slice t.text 1 (t.text.utf8ByteSize - 1) = .ok (String.ofList inner) := by
    rw [Token.text, hchars, slice_braces]
  have hlow : inner.dropWhile (· ≠ ',') = [] → inner.takeWhile (· ≠ ',') = inner := fun h => by
    have := List.takeWhile_append_dropWhile (p := (· ≠ ',')) (l := inner)
    rwa [h, List.append_nil] at this
  simp only [count, textOf_eq ht, Parser.count, hinner, bind, Except.bind, hslice,
    String.toList_ofList, bound_eq]
  rcases hdrop : inner.dropWhile (· ≠ ',') with _ | ⟨_, _ | ⟨c, high⟩⟩
  · rw [hlow hdrop]
    cases Parser.bound t inner <;> rfl
  · cases Parser.bound t (inner.takeWhile (· ≠ ',')) <;> rfl
  · dsimp only
    cases Parser.bound t (inner.takeWhile (· ≠ ',')) with
    | error e => rfl
    | ok min =>
      cases Parser.bound t (c :: high) with
      | error e => rfl
      | ok max =>
        exact (apply_ite (Except.mapError Failure.rejected) (max < min)
          (.error (mistakeAt t .boundsOutOfOrder)) (.ok (Repetition.counted min (some max)))).symm

theorem atomsOf_eq (ht : t.IsOf source) : atomsOf source t = .ok (SetAtom.ofToken t) := by
  have htext : textOf source t = .ok t.text := textOf_eq ht
  have hspells := ht.spells
  obtain ⟨kind, start, chars⟩ := t
  cases kind
  case dash => rfl
  case escape =>
    obtain ⟨d, rfl⟩ := hspells
    simp [atomsOf, htext, SetAtom.ofToken, Token.text, bind, Except.bind, pure, Except.pure]
  all_goals simp [atomsOf, htext, SetAtom.ofToken, Token.text, bind, Except.bind, pure, Except.pure]

/-- In a set the parser gathers what the rule for its atoms gives, and makes the set of it. -/
theorem agrees_setAtoms {opening : Token} {negated : Bool} {atoms : List SetAtom} {k : Nat}
    (h : ∀ t ∈ ts, t.IsOf source)
    (hrun : run maxDepth ⟨gs, l, op, some ⟨opening, negated, atoms⟩, k⟩ ts = x) :
    Agrees x (setAtoms source opening ts) fun (more, rest) =>
      (∀ t ∈ rest, t.IsOf source) ∧ rest.length ≤ ts.length ∧
        x = (SetItem.ofAtoms (atoms.reverse ++ more)).mapError .invalid >>= fun items =>
          run maxDepth ⟨gs, l.push (.set negated items), .atom, none, k⟩ rest := by
  induction ts generalizing atoms with
  | nil => exact hrun.symm
  | cons t ts ih =>
    obtain ⟨ht, hts⟩ := List.forall_mem_cons.1 h
    rw [run_cons, Parser.step] at hrun
    simp only [setAtoms]
    split
    case h_1 hkind =>
      simp only [State.stepInSet, hkind] at hrun
      refine ⟨hts, by simp, ?_⟩
      rw [← hrun, List.append_nil]
      cases SetItem.ofAtoms atoms.reverse <;> rfl
    case h_2 hkind =>
      simp only [State.stepInSet, hkind] at hrun
      exact hrun.symm
    case h_3 hclose hgarbage =>
      simp only [State.stepInSet] at hrun
      rw [atomsOf_eq ht]
      have hrest : run maxDepth ⟨gs, l, op,
          some ⟨opening, negated, (SetAtom.ofToken t).reverse ++ atoms⟩, k⟩ ts = x := by
        simpa [hclose, hgarbage, bind, Except.bind] using hrun
      refine Agrees.bind_ok (Agrees.bind (ih hts hrest) ?_)
      rintro ⟨more, rest⟩ ⟨hrest, hlen, hx⟩
      refine ⟨hrest, Nat.le_succ_of_le hlen, ?_⟩
      simpa using hx

/-- What has been read of `c` is the item `p`, and the parser has come that far too. -/
def ReadsAtom (source : String) (maxDepth : Nat) (x : Except ParseError Pattern)
    (gs : List OpenGroup) (l : Level) (c : Cursor) (r : Pattern × Cursor) : Prop :=
  Meets source maxDepth x gs (l.push r.1) .atom r.2 ∧ r.2.rest.length < c.rest.length

/-- What has been read of `c` is all of a group's body, or of the pattern. -/
def ReadsBody (source : String) (maxDepth : Nat) (x : Except ParseError Pattern)
    (gs : List OpenGroup) (c : Cursor) (r : Pattern × Cursor) : Prop :=
  ∃ l op, Meets source maxDepth x gs l op r.2 ∧ l.pattern = r.1 ∧
    r.2.rest.length ≤ c.rest.length ∧ (r.2.rest = [] ∨ r.2.isAt .parenClose = true)

/-- What the rule for the body of a group must do where the groups `gs` are open around it. -/
def IsBodyRule (source : String) (maxDepth : Nat) (x : Except ParseError Pattern)
    (gs : List OpenGroup) (inside : Cursor → Except Failure (Pattern × Cursor)) : Prop :=
  ∀ g c, (if maxDepth ≤ gs.length then x = .error .tooDeep
    else Meets source maxDepth x (g :: gs) {} .none c) →
    Agrees x (inside c) (ReadsBody source maxDepth x (g :: gs) c)

variable {inside : Cursor → Except Failure (Pattern × Cursor)}

theorem agrees_set (h : Meets source maxDepth x gs l op c) (hc : c.rest = t :: ts)
    (hkind : t.kind = .setOpen ∨ t.kind = .setNegatedOpen) :
    Agrees x (set source t c) (ReadsAtom source maxDepth x gs l c) := by
  have hrun := h.run_eq
  have hts : ∀ u ∈ ts, u.IsOf source := fun u hu => h.isOf u (hc ▸ List.mem_cons_of_mem t hu)
  have hstep : State.stepOutside ⟨gs, l, op, none, c.captures⟩ maxDepth t =
      .ok ⟨gs, l, op, some ⟨t, c.isAt .setNegatedOpen, []⟩, c.captures⟩ := by
    rcases hkind with hkind | hkind <;>
      simp [State.stepOutside, hkind, Cursor.isAt, Cursor.current, hc]
  rw [hc, run_cons, Parser.step, hstep] at hrun
  simp only [set, bump_eq hc]
  refine Agrees.bind_ok (Agrees.bind (agrees_setAtoms hts hrun) ?_)
  rintro ⟨atoms, rest⟩ ⟨hrest, hlen, hx⟩
  rw [List.reverse_nil, List.nil_append] at hx
  dsimp only
  cases hitems : SetItem.ofAtoms atoms with
  | error d =>
    rw [hitems] at hx
    exact Agrees.rejected hx
  | ok items =>
    refine ⟨⟨hrest, ?_⟩, ?_⟩
    · rw [hx, hitems]
      rfl
    · rw [hc]
      exact Nat.lt_succ_of_le hlen

theorem agrees_group (h : Meets source maxDepth x gs l op c) (hc : c.rest = t :: ts)
    (hkind : t.kind = .parenOpen ∨ t.kind = .nonCapturingOpen)
    (hinside : IsBodyRule source maxDepth x gs inside) :
    Agrees x (group inside t c) (ReadsAtom source maxDepth x gs l c) := by
  obtain ⟨capture, captures, hgroup, hstep⟩ : ∃ capture captures,
      (if c.isAt .parenOpen then (some (c.captures + 1), c.captures + 1)
        else (none, c.captures)) = (capture, captures) ∧
      State.stepOutside ⟨gs, l, op, none, c.captures⟩ maxDepth t =
        State.openGroup ⟨gs, l, op, none, c.captures⟩ maxDepth t capture captures := by
    rcases hkind with hkind | hkind
    · exact ⟨some (c.captures + 1), c.captures + 1,
        by simp [Cursor.isAt, Cursor.current, hc, hkind], by rw [State.stepOutside, hkind]⟩
    · exact ⟨none, c.captures, by simp [Cursor.isAt, Cursor.current, hc, hkind],
        by rw [State.stepOutside, hkind]⟩
  have hbody : if maxDepth ≤ gs.length then x = .error .tooDeep
      else Meets source maxDepth x (⟨t, capture, l⟩ :: gs) {} .none ⟨ts, captures⟩ := by
    simp only [State.openGroup] at hstep
    split
    case isTrue hdeep => exact h.eq_error hc (hstep.trans (if_pos hdeep))
    case isFalse hdeep => exact h.step hc (hstep.trans (if_neg hdeep))
  have hbump : ({ c with captures } : Cursor).bump = .ok ⟨ts, captures⟩ := bump_eq hc
  rw [group, hgroup]
  simp only [hbump]
  refine Agrees.bind_ok (Agrees.bind (hinside _ _ hbody) ?_)
  rintro ⟨body, c'⟩ ⟨l', op', hmeets, rfl, hlen, hend⟩
  dsimp only
  rcases hend with hnil | hclose
  · obtain ⟨rest, k⟩ := c'
    obtain rfl : rest = [] := hnil
    have hx : x = .error (mistakeAt t .unclosedGroup) := by
      rw [← hmeets.run_eq]
      rfl
    exact Agrees.rejected hx
  · rw [if_pos hclose]
    obtain ⟨u, us, k, rfl, hu⟩ := exists_of_isAt hclose
    refine ⟨hmeets.step rfl ?_, ?_⟩
    · simp [State.stepOutside, State.closeGroup, hu]
    · simp only [hc] at hlen ⊢
      simp only [List.length_cons] at hlen ⊢
      omega

/-- The parser takes a token that is an atom by itself. -/
theorem Meets.readsAtom {p : Pattern} (h : Meets source maxDepth x gs l op c)
    (hc : c.rest = t :: ts)
    (hs : State.stepOutside ⟨gs, l, op, none, c.captures⟩ maxDepth t =
      .ok (State.pushAtom ⟨gs, l, op, none, c.captures⟩ p)) :
    ReadsAtom source maxDepth x gs l c (p, ⟨ts, c.captures⟩) :=
  ⟨h.step hc hs, by simp [hc]⟩

theorem escape_eq_pushAtom {d : Char} (hb : d ≠ 'b') (hB : d ≠ 'B') (s : State) :
    s.escape d =
      s.pushAtom (((escapedClass? d).map .charClass).getD (.char (escapedChar d))) := by
  unfold State.escape
  split
  · contradiction
  · contradiction
  · cases escapedClass? d <;> rfl

theorem agrees_atom (h : Meets source maxDepth x gs l op c) (hready : Ready op c)
    (hend : c.atBranchEnd = false) (hanchor : c.rest.head?.bind anchorOf = none)
    (hinside : IsBodyRule source maxDepth x gs inside) :
    Agrees x (atom source inside c) (ReadsAtom source maxDepth x gs l c) := by
  obtain ⟨_ | ⟨t, ts⟩, k⟩ := c
  · simp [Cursor.atBranchEnd, Cursor.current] at hend
  have ht : t.IsOf source := h.isOf t List.mem_cons_self
  have hquantifier (hq : t.kind.isQuantifier = true) :
      x = .error (mistakeAt t .nothingToRepeat) := by
    have hop : op = .none := hready hq
    refine h.eq_error rfl (stepOutside_quantifier hq ?_ ?_) <;> simp [hop]
  simp only [atom]
  split
  case h_1 hkind => exact agrees_group h rfl (.inl hkind) hinside
  case h_2 hkind => exact agrees_group h rfl (.inr hkind) hinside
  case h_3 hkind => exact agrees_set h rfl (.inl hkind)
  case h_4 hkind => exact agrees_set h rfl (.inr hkind)
  case h_5 hkind => exact h.readsAtom rfl (by simp [State.stepOutside, hkind])
  case h_6 hkind =>
    obtain ⟨d, hchars⟩ : ∃ d, t.chars = ['\\', d] := by
      simpa [TokenKind.Spells, hkind] using ht.spells
    have hb : d ≠ 'b' := by
      rintro rfl
      simp [anchorOf, hkind, hchars] at hanchor
    have hB : d ≠ 'B' := by
      rintro rfl
      simp [anchorOf, hkind, hchars] at hanchor
    rw [textOf_eq ht, Token.text, hchars]
    refine Agrees.bind_ok (h.readsAtom rfl ?_)
    simp [State.stepOutside, hkind, hchars, escape_eq_pushAtom hb hB]
  case h_7 hkind | h_8 hkind | h_9 hkind =>
    obtain ⟨d, hchars⟩ : ∃ d, t.chars = [d] := by
      have := ht.spells
      simp only [hkind, TokenKind.Spells] at this
      first | exact this | exact ⟨_, this⟩
    rw [textOf_eq ht, Token.text, hchars]
    refine Agrees.bind_ok (h.readsAtom rfl ?_)
    simp [State.stepOutside, hkind, hchars]
  case h_10 hkind | h_11 hkind | h_12 hkind | h_13 hkind =>
    exact Agrees.rejected (hquantifier (by rw [hkind]; rfl))
  case h_14 hkind =>
    exact Agrees.rejected (h.eq_error rfl (by simp [State.stepOutside, hkind]))
  case h_15 hkind | h_16 hkind => simp [Cursor.atBranchEnd, Cursor.current, hkind] at hend
  case h_17 hkind | h_18 hkind => simp [anchorOf, hkind] at hanchor

/-- The parser takes a quantifier behind an atom. -/
theorem Meets.quantify {p : Pattern} {times : Repetition}
    (h : Meets source maxDepth x gs (l.push p) .atom c) (hc : c.rest = t :: ts)
    (hs : ∀ s : State, s.operand = .atom →
      s.stepOutside maxDepth t = s.quantify t (.ok times)) :
    Meets source maxDepth x gs (l.push (.repeated p times true)) .quantified ⟨ts, c.captures⟩ :=
  h.step hc ((hs _ rfl).trans rfl)

theorem agrees_quantifier? {p : Pattern} (h : Meets source maxDepth x gs (l.push p) .atom c) :
    Agrees x (quantifier? source c) fun
      | (none, c') => Meets source maxDepth x gs (l.push p) .atom c' ∧ c'.atQuantifier = false ∧
          c'.rest.length ≤ c.rest.length
      | (some times, c') =>
        Meets source maxDepth x gs (l.push (.repeated p times true)) .quantified c' ∧
          c'.rest.length ≤ c.rest.length := by
  obtain ⟨_ | ⟨t, ts⟩, k⟩ := c
  · exact ⟨h, rfl, Nat.le_refl _⟩
  simp only [quantifier?]
  split
  case h_1 hkind | h_2 hkind =>
    exact ⟨h.quantify rfl fun s _ => by simp [State.stepOutside, hkind], Nat.le_succ _⟩
  case h_3 hkind =>
    refine ⟨h.quantify rfl fun s hop => ?_, Nat.le_succ _⟩
    simp [State.stepOutside, hkind, State.question, hop]
  case h_4 hkind =>
    rw [count_eq (h.isOf t List.mem_cons_self) hkind]
    cases hcount : Parser.count t with
    | error e =>
      refine Agrees.rejected (h.eq_error rfl ?_)
      simp only [State.stepOutside, hkind, hcount]
      rfl
    | ok times =>
      exact ⟨h.quantify rfl fun s _ => by simp [State.stepOutside, hkind, hcount], Nat.le_succ _⟩
  case h_5 hstar hplus hquestion hbraces =>
    refine ⟨h, ?_, Nat.le_refl _⟩
    cases hkind : t.kind <;> simp_all [Cursor.atQuantifier, Cursor.current, TokenKind.isQuantifier]

/-- What has been read of `c` is an item that no quantifier follows. -/
def ReadsItem (source : String) (maxDepth : Nat) (x : Except ParseError Pattern)
    (gs : List OpenGroup) (l : Level) (c : Cursor) (r : Pattern × Cursor) : Prop :=
  ∃ op, Meets source maxDepth x gs (l.push r.1) op r.2 ∧ r.2.atQuantifier = false ∧
    r.2.rest.length < c.rest.length

theorem agrees_item (h : Meets source maxDepth x gs l op c) (hready : Ready op c)
    (hend : c.atBranchEnd = false) (hinside : IsBodyRule source maxDepth x gs inside) :
    Agrees x (item source inside c) (ReadsItem source maxDepth x gs l c) := by
  rw [item, anchor?_eq h.isOf]
  refine Agrees.bind_ok ?_
  cases hanchor : c.rest.head?.bind anchorOf with
  | some a =>
    obtain ⟨_ | ⟨t, ts⟩, k⟩ := c
    · simp at hanchor
    have hnext : Meets source maxDepth x gs (l.push (.anchor a)) .none ⟨ts, k⟩ :=
      h.step rfl (stepOutside_anchor hanchor)
    refine Agrees.bind_ok (Agrees.bind (agrees_rejectQuantifier hnext nofun nofun) ?_)
    exact fun _ hq => ⟨_, hnext, hq, Nat.lt_succ_self _⟩
  | none =>
    refine Agrees.bind (agrees_atom h hready hend hanchor hinside) ?_
    rintro ⟨p, c₁⟩ ⟨hatom, hlen₁⟩
    refine Agrees.bind (agrees_quantifier? hatom) ?_
    rintro ⟨_ | times, c₂⟩
    · rintro ⟨hmeets, hq, hlen₂⟩
      exact ⟨_, hmeets, hq, Nat.lt_of_le_of_lt hlen₂ hlen₁⟩
    · rintro ⟨hmeets, hlen₂⟩
      have hlen : c₂.rest.length < c.rest.length := Nat.lt_of_le_of_lt hlen₂ hlen₁
      cases hlazy : c₂.isAt .question with
      | false =>
        simp only [Bool.not_false, if_true, hlazy]
        refine Agrees.bind_ok (Agrees.bind (agrees_rejectQuantifier hmeets nofun fun _ => hlazy) ?_)
        exact fun _ hq => ⟨_, hmeets, hq, hlen⟩
      | true =>
        obtain ⟨t, ts, k, rfl, hkind⟩ := exists_of_isAt hlazy
        have hnext : Meets source maxDepth x gs (l.push (.repeated p times false)) .none ⟨ts, k⟩ :=
          hmeets.step rfl (by simp [State.stepOutside, hkind, State.question, Level.push])
        simp only [Bool.not_true, hlazy]
        refine Agrees.bind_ok (Agrees.bind (agrees_rejectQuantifier hnext nofun nofun) ?_)
        exact fun _ hq => ⟨_, hnext, hq, Nat.lt_of_succ_lt hlen⟩

theorem agrees_items (h : Meets source maxDepth x gs l op c) (hready : Ready op c)
    (hinside : IsBodyRule source maxDepth x gs inside) :
    Agrees x (items source inside c) fun (ps, c') =>
      (∃ op', Meets source maxDepth x gs { l with items := ps.reverse ++ l.items } op' c') ∧
        c'.rest.length ≤ c.rest.length ∧ c'.atBranchEnd = true := by
  induction hn : c.rest.length using Nat.strong_induction_on generalizing l op c with
  | _ n ih =>
    subst hn
    rw [items]
    split
    case isTrue hend => exact ⟨⟨op, h⟩, Nat.le_refl _, hend⟩
    case isFalse hend =>
      refine Agrees.bind (agrees_item h hready (Bool.eq_false_iff.2 hend) hinside) ?_
      rintro ⟨p, c₁⟩ ⟨op₁, hmeets, hq, hlen⟩
      dsimp only at hlen ⊢
      rw [dif_pos hlen]
      refine Agrees.bind (ih _ hlen hmeets (fun h => by simp [hq] at h) rfl) ?_
      rintro ⟨ps, c₂⟩ ⟨⟨op₂, hmeets₂⟩, hlen₂, hend₂⟩
      refine ⟨⟨op₂, ?_⟩, by dsimp only; omega, hend₂⟩
      simpa [Level.push] using hmeets₂

theorem agrees_branches (h : Meets source maxDepth x gs l .none c) (hitems : l.items = [])
    (hinside : IsBodyRule source maxDepth x gs inside) :
    Agrees x (branches source inside c) fun (ps, c') =>
      (∃ l' op', Meets source maxDepth x gs l' op' c' ∧
        l'.endBranch.branches = ps.reverse ++ l.branches) ∧
        c'.rest.length ≤ c.rest.length ∧ (c'.rest = [] ∨ c'.isAt .parenClose = true) := by
  induction hn : c.rest.length using Nat.strong_induction_on generalizing l c with
  | _ n ih =>
    subst hn
    rw [branches]
    refine Agrees.bind (agrees_items h (fun _ => rfl) hinside) ?_
    rintro ⟨ps, c₁⟩ ⟨⟨op₁, hmeets⟩, hlen, hend⟩
    rw [hitems, List.append_nil] at hmeets
    dsimp only at hlen hend ⊢
    split
    case isTrue hpipe =>
      obtain ⟨t, ts, k, rfl, hkind⟩ := exists_of_isAt hpipe
      have hnext : Meets source maxDepth x gs
          (Level.endBranch { l with items := ps.reverse }) .none ⟨ts, k⟩ :=
        hmeets.step rfl (by simp [State.stepOutside, hkind])
      have hlen' : ts.length < c.rest.length := hlen
      refine Agrees.bind_ok ?_
      dsimp only
      rw [dif_pos hlen']
      refine Agrees.bind (ih _ hlen' hnext rfl rfl) ?_
      rintro ⟨qs, c₂⟩ ⟨⟨l₂, op₂, hmeets₂, hbranches⟩, hlen₂, hend₂⟩
      refine ⟨⟨l₂, op₂, hmeets₂, ?_⟩, by dsimp only at hlen₂ ⊢; omega, hend₂⟩
      simpa [Level.endBranch] using hbranches
    case isFalse hpipe =>
      refine ⟨⟨_, op₁, hmeets, by simp [Level.endBranch]⟩, hlen, ?_⟩
      obtain ⟨_ | ⟨t, ts⟩, k⟩ := c₁
      · exact .inl rfl
      · right
        cases hkind : t.kind <;>
          simp [Cursor.atBranchEnd, Cursor.isAt, Cursor.current, hkind] at hend hpipe ⊢

theorem agrees_alternation (h : Meets source maxDepth x gs {} .none c)
    (hinside : IsBodyRule source maxDepth x gs inside) :
    Agrees x (alternation source inside c) (ReadsBody source maxDepth x gs c) := by
  refine Agrees.bind (agrees_branches h rfl hinside) ?_
  rintro ⟨ps, c'⟩ ⟨⟨l, op, hmeets, hbranches⟩, hlen, hend⟩
  refine ⟨l, op, hmeets, ?_, hlen, hend⟩
  rw [Level.pattern, hbranches]
  simp

theorem agrees_pattern {levels : Nat} (hlevels : gs.length + levels = maxDepth)
    (h : Meets source maxDepth x gs {} .none c) :
    Agrees x (pattern source levels c) (ReadsBody source maxDepth x gs c) := by
  induction levels generalizing gs c with
  | zero =>
    refine agrees_alternation h fun g c hg => ?_
    rw [if_pos (by omega)] at hg
    exact Agrees.rejected hg
  | succ levels ih =>
    refine agrees_alternation h fun g c hg => ?_
    rw [if_neg (by omega)] at hg
    exact ih (by simp; omega) hg

/-- The rules find what the parser finds: they never panic. -/
theorem parse_eq (source : String) (maxDepth : Nat) :
    parse source maxDepth = (Pattern.parse source maxDepth).mapError .rejected := by
  have hmeets : Meets source maxDepth (Pattern.parse source maxDepth) [] {} .none
      ⟨Token.ofSource source, 0⟩ :=
    ⟨fun t ht => Token.isOf_of_mem_ofSource ht, rfl⟩
  have hagrees : Agrees (Pattern.parse source maxDepth) (parse source maxDepth)
      fun p => Pattern.parse source maxDepth = .ok p := by
    refine Agrees.bind (agrees_pattern (by simp) hmeets) ?_
    rintro ⟨p, c⟩ ⟨l, op, h, rfl, -, hend⟩
    dsimp only at h hend ⊢
    rcases hend with hnil | hclose
    · obtain ⟨rest, k⟩ := c
      obtain rfl : rest = [] := hnil
      exact h.run_eq.symm
    · obtain ⟨t, ts, k, rfl, hkind⟩ := exists_of_isAt hclose
      refine Agrees.rejected (h.eq_error rfl ?_)
      simp [State.stepOutside, State.closeGroup, hkind]
  match hr : parse source maxDepth, hagrees with
  | .ok p, hp => rw [hp]; rfl
  | .error (.rejected e), he => rw [he]; rfl

end Descent

end PatternAutomata
