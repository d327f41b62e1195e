import PatternAutomata.Pattern.Outline
import PatternAutomata.Proofs.Pattern.Normal
import PatternAutomata.Proofs.Pattern.Tokens
import PatternAutomata.Proofs.Text.Line

/-!
# Patterns are read back from their text

A pattern is written as the grammar has it, with a backslash before every punctuation character
that stands for itself. Each part of the text is then cut into tokens as it would be alone: a
character that could make a longer token with those before it is punctuation, and so has its
backslash between. The text of a normal pattern is parsed to the pattern itself.

## Main definitions

* `Pattern.spelling`, `Pattern.written` — the text of a pattern.
* `Parser.read` — parses what is left of a text.
* `Parser.ReadsBack` — the text of a pattern takes the parser over the pattern, at its place.

## Main statements

* `Parser.readsBack_of_normal` — so it is wherever the pattern may stand.
* `Pattern.parse_image` — the patterns that come from texts are the normal ones.
-/
namespace PatternAutomata

/-- The punctuation characters of ASCII. -/
def isPunctuation (c : Char) : Bool :=
  let n := c.toNat
  (0x21 ≤ n && n ≤ 0x2f) || (0x3a ≤ n && n ≤ 0x40) || (0x5b ≤ n && n ≤ 0x60) ||
    (0x7b ≤ n && n ≤ 0x7e)

/-- A character that stands for itself. -/
def spellChar (c : Char) : List Char :=
  if isPunctuation c then ['\\', c] else [c]

def SetItem.spelling : SetItem → List Char
  | char c => spellChar c
  | range lo hi => spellChar lo ++ '-' :: spellChar hi
  | charClass k => k.written.toList

def Anchor.spelling : Anchor → List Char
  | start => ['^']
  | finish => ['$']
  | wordBoundary => ['\\', 'b']
  | notWordBoundary => ['\\', 'B']

namespace Pattern

mutual

/-- The pattern as the grammar has it. -/
def spelling : Pattern → List Char
  | alternation branches => spellBranches branches
  | sequence items => spellItems items
  | repeated body times greedy =>
    body.spelling ++ (times.shown.toList ++ if greedy then [] else ['?'])
  | group (some _) body => '(' :: (body.spelling ++ [')'])
  | group none body => '(' :: '?' :: ':' :: (body.spelling ++ [')'])
  | anchor a => a.spelling
  | char c => spellChar c
  | charClass k => k.written.toList
  | set false items => '[' :: (items.flatMap SetItem.spelling ++ [']'])
  | set true items => '[' :: '^' :: (items.flatMap SetItem.spelling ++ [']'])

def spellItems : List Pattern → List Char
  | [] => []
  | p :: rest => p.spelling ++ spellItems rest

def spellBranches : List Pattern → List Char
  | [] => []
  | [p] => p.spelling
  | p :: rest => p.spelling ++ '|' :: spellBranches rest

end

/-- The text of a pattern. -/
def written (p : Pattern) : String :=
  String.ofList p.spelling

end Pattern

theorem lexeme_of_not_punctuation {c : Char} (h : isPunctuation c = false) (rest : List Char) :
    Token.lexeme c rest = (.char, []) := by
  unfold Token.lexeme
  split
  case h_18 => rfl
  all_goals exact absurd h (by decide)

namespace Parser

open Pattern (Normal Place capturesAll)

/-- Parses what is left of a text, which begins at `offset`. -/
def read (maxDepth : Nat) (s : State) (offset : Nat) (cs : List Char) :
    Except ParseError Pattern :=
  (Token.listFrom offset cs).foldlM (step maxDepth) s >>= finish

theorem parse_ofList (cs : List Char) (maxDepth : Nat) :
    Pattern.parse (String.ofList cs) maxDepth = read maxDepth {} 0 cs := by
  rw [Pattern.parse, Token.ofSource, String.toList_ofList]
  rfl

variable {maxDepth offset k : Nat} {s s' : State} {c : Char} {rest : List Char}
  {kind : TokenKind} {gs : List OpenGroup} {l : Level} {op : Operand} {p : Pattern}
  {ps : List Pattern}

/-- The first token of a text is known. -/
theorem read_cons (tail : List Char) (h : Token.lexeme c (tail ++ rest) = (kind, tail))
    (hs : step maxDepth s ⟨kind, offset, c :: tail⟩ = .ok s') :
    read maxDepth s offset (c :: tail ++ rest) =
      read maxDepth s' (offset + Text.byteLength (c :: tail)) rest := by
  rw [List.cons_append, read, Token.listFrom_cons_append h, List.foldlM_cons, hs]
  rfl

/-- The text takes the parser from one state to another, whatever comes behind it. -/
def Reads (maxDepth : Nat) (cs : List Char) (s s' : State) : Prop :=
  ∀ offset rest, ∃ offset', read maxDepth s offset (cs ++ rest) = read maxDepth s' offset' rest

theorem Reads.nil (s : State) : Reads maxDepth [] s s := fun offset _ => ⟨offset, rfl⟩

theorem Reads.append {cs ds : List Char} {s'' : State} (h : Reads maxDepth cs s s')
    (h' : Reads maxDepth ds s' s'') : Reads maxDepth (cs ++ ds) s s'' := fun offset rest => by
  obtain ⟨o, hread⟩ := h offset (ds ++ rest)
  obtain ⟨o', hread'⟩ := h' o rest
  exact ⟨o', by rw [List.append_assoc, hread, hread']⟩

theorem reads_token (tail : List Char)
    (h : ∀ rest, Token.lexeme c (tail ++ rest) = (kind, tail))
    (hs : ∀ offset, step maxDepth s ⟨kind, offset, c :: tail⟩ = .ok s') :
    Reads maxDepth (c :: tail) s s' :=
  fun offset rest => ⟨_, read_cons tail (h rest) (hs offset)⟩

/-- The operand that the parser is left with after an item. -/
def operandAfter : Pattern → Operand
  | .anchor _ => .none
  | .repeated _ _ greedy => if greedy then .quantified else .none
  | _ => .atom

theorem escapedClass?_of_punctuation (h : isPunctuation c = true) : escapedClass? c = none := by
  unfold escapedClass? CharClass.ofLetter?
  split
  · rfl
  · split <;> first | rfl | exact absurd h (by decide) | contradiction

theorem escapedChar_of_punctuation (h : isPunctuation c = true) : escapedChar c = c := by
  unfold escapedChar
  split <;> first | rfl | exact absurd h (by decide)

theorem escape_of_punctuation (h : isPunctuation c = true) (s : State) :
    s.escape c = s.pushAtom (.char c) := by
  unfold State.escape
  split
  · exact absurd h (by decide)
  · exact absurd h (by decide)
  · rw [escapedClass?_of_punctuation h, escapedChar_of_punctuation h]

theorem reads_spellChar (c : Char) :
    Reads maxDepth (spellChar c) ⟨gs, l, op, none, k⟩
      ⟨gs, l.push (.char c), .atom, none, k⟩ := by
  unfold spellChar
  split
  case isTrue h =>
    exact reads_token [c] (fun _ => rfl) fun _ => congrArg Except.ok (escape_of_punctuation h _)
  case isFalse h =>
    exact reads_token [] (lexeme_of_not_punctuation (by simpa using h)) fun _ => rfl

/-! ### Sets -/

/-- What the text of a member stands for between brackets. -/
def kinds : SetItem → List SetAtom.Kind
  | .char c => [.char c]
  | .range lo hi => [.char lo, .dash, .char hi]
  | .charClass k => [.charClass k]

theorem kinds_ne_dash (item : SetItem) : ∃ kind ks, kinds item = kind :: ks ∧ kind ≠ .dash := by
  cases item <;> exact ⟨_, _, rfl, nofun⟩

/-- Members are told apart by what their texts stand for: no text begins with a dash, so that a
character before it does not become the end of a range. -/
theorem ofAtoms_eq_ok {items : List SetItem} {atoms : List SetAtom} (h : ∀ i ∈ items, i.IsNormal)
    (hatoms : atoms.map (·.kind) = items.flatMap kinds) : SetItem.ofAtoms atoms = .ok items := by
  induction items generalizing atoms with
  | nil =>
    obtain rfl := List.map_eq_nil_iff.1 hatoms
    rfl
  | cons item items ih =>
    obtain ⟨hitem, hitems⟩ := List.forall_mem_cons.1 h
    rw [List.flatMap_cons] at hatoms
    have halone {a : SetAtom} {rest : List SetAtom} {item' : SetItem}
        (hrest : rest.map (·.kind) = items.flatMap kinds) (ha : SetItem.ofAtom a = .ok item') :
        SetItem.ofAtoms (a :: rest) = .ok (item' :: items) := by
      have hsplit : SetItem.ofAtoms (a :: rest) =
          (do return (← SetItem.ofAtom a) :: (← SetItem.ofAtoms rest)) := by
        rw [SetItem.ofAtoms]
        rintro lo start stop dstart dstop hi hstart hstop rest' - rfl
        cases items with
        | nil => cases hrest
        | cons i items =>
          obtain ⟨kind, ks, hkinds, hdash⟩ := kinds_ne_dash i
          rw [List.flatMap_cons, hkinds] at hrest
          exact hdash (List.cons.inj hrest).1.symm
      rw [hsplit, ha, ih hitems hrest]
      rfl
    cases item with
    | char c =>
      obtain ⟨a, rest, rfl, ha, hrest⟩ := List.map_eq_cons_iff.1 hatoms
      refine halone hrest ?_
      rw [SetItem.ofAtom, ha]
      exact if_pos hitem
    | charClass k =>
      obtain ⟨a, rest, rfl, ha, hrest⟩ := List.map_eq_cons_iff.1 hatoms
      refine halone hrest ?_
      rw [SetItem.ofAtom, ha]
    | range lo hi =>
      obtain ⟨⟨_, start, _⟩, _, hcons, rfl, hdash⟩ := List.map_eq_cons_iff.1 hatoms
      obtain ⟨⟨_, _, _⟩, _, rfl, rfl, hlast⟩ := List.map_eq_cons_iff.1 hdash
      obtain ⟨⟨_, _, stop⟩, rest, rfl, rfl, hrest⟩ := List.map_eq_cons_iff.1 hlast
      obtain rfl := hcons
      obtain ⟨-, hhi, hle⟩ := hitem
      have hrange : SetItem.ofRange lo hi start stop = .ok (.range lo hi) := by
        rw [SetItem.ofRange, if_neg (Char.not_lt.2 hle), if_pos hhi]
      rw [SetItem.ofAtoms, hrange, ih hitems hrest]
      rfl

/-- Between brackets the text takes the parser over atoms of the given kinds. -/
def ReadsAtoms (cs : List Char) (ks : List SetAtom.Kind) : Prop :=
  ∀ (maxDepth : Nat) (s : State) (b : OpenSet) (offset : Nat) (rest : List Char),
    ∃ (atoms : List SetAtom) (offset' : Nat), atoms.map (·.kind) = ks ∧
      read maxDepth { s with set := some b } offset (cs ++ rest) =
        read maxDepth { s with set := some { b with atoms := atoms.reverse ++ b.atoms } }
          offset' rest

theorem ReadsAtoms.append {cs ds : List Char} {ks ks' : List SetAtom.Kind}
    (h : ReadsAtoms cs ks) (h' : ReadsAtoms ds ks') : ReadsAtoms (cs ++ ds) (ks ++ ks') := by
  intro maxDepth s b offset rest
  obtain ⟨as, o, has, hread⟩ := h maxDepth s b offset (ds ++ rest)
  obtain ⟨as', o', has', hread'⟩ :=
    h' maxDepth s { b with atoms := as.reverse ++ b.atoms } o rest
  refine ⟨as ++ as', o', by rw [List.map_append, has, has'], ?_⟩
  rw [List.append_assoc, hread, hread', List.reverse_append, List.append_assoc]

theorem readsAtoms_token {tail : List Char} {ks : List SetAtom.Kind}
    (h : ∀ rest, Token.lexeme c (tail ++ rest) = (kind, tail)) (hclose : kind ≠ .setClose)
    (hgarbage : kind ≠ .garbage)
    (hks : ∀ offset, (SetAtom.ofToken ⟨kind, offset, c :: tail⟩).map (·.kind) = ks) :
    ReadsAtoms (c :: tail) ks := by
  intro maxDepth s b offset rest
  refine ⟨SetAtom.ofToken ⟨kind, offset, c :: tail⟩, _, hks offset, read_cons tail (h rest) ?_⟩
  simp only [step, State.stepInSet]

theorem readsAtoms_spellChar (c : Char) : ReadsAtoms (spellChar c) [.char c] := by
  unfold spellChar
  split
  case isTrue h =>
    refine readsAtoms_token (fun _ => rfl) (by decide) (by decide) fun offset => ?_
    simp [SetAtom.ofToken, SetAtom.ofEscape, escapedClass?_of_punctuation h,
      escapedChar_of_punctuation h]
  case isFalse h =>
    have hlexeme (rest : List Char) := lexeme_of_not_punctuation (by simpa using h) rest
    exact readsAtoms_token hlexeme (by decide) (by decide) fun _ => rfl

theorem readsAtoms_spelling {item : SetItem} (h : item.IsNormal) :
    ReadsAtoms item.spelling (kinds item) := by
  cases item with
  | char c => exact readsAtoms_spellChar c
  | range lo hi =>
    have hdash : ReadsAtoms ['-'] [.dash] :=
      readsAtoms_token (fun _ => rfl) (by decide) (by decide) fun _ => rfl
    exact (readsAtoms_spellChar lo).append (hdash.append (readsAtoms_spellChar hi))
  | charClass k =>
    cases k with
    | any => exact absurd rfl h
    | _ => exact readsAtoms_token (fun _ => rfl) (by decide) (by decide) fun _ => rfl

theorem readsAtoms_members {items : List SetItem} (h : ∀ i ∈ items, i.IsNormal) :
    ReadsAtoms (items.flatMap SetItem.spelling) (items.flatMap kinds) := by
  induction items with
  | nil => exact fun _ _ _ offset _ => ⟨[], offset, rfl, rfl⟩
  | cons i items ih =>
    obtain ⟨hi, hitems⟩ := List.forall_mem_cons.1 h
    exact (readsAtoms_spelling hi).append (ih hitems)

theorem head?_spellChar_ne (h : isPunctuation c = true) (hc : c ≠ '\\') (d : Char) :
    (spellChar d).head? ≠ some c := by
  unfold spellChar
  split
  case isTrue => simp [Ne.symm hc]
  case isFalse hd =>
    rintro ⟨⟩
    exact hd h

/-- The members of a set cannot be taken for the mark that negates it. -/
theorem head?_members_ne {items : List SetItem} (h : ∀ i ∈ items, i.IsNormal) :
    (items.flatMap SetItem.spelling ++ ']' :: rest).head? ≠ some '^' := by
  have hchar (d : Char) (cs : List Char) : (spellChar d ++ cs).head? ≠ some '^' := by
    have hd := head?_spellChar_ne (c := '^') (by decide) (by decide) d
    unfold spellChar at hd ⊢
    split <;> simp_all
  cases items with
  | nil => simp
  | cons i items =>
    rw [List.flatMap_cons, List.append_assoc]
    cases i with
    | char d => exact hchar d _
    | range lo hi =>
      rw [SetItem.spelling, List.append_assoc]
      exact hchar lo _
    | charClass k =>
      cases k with
      | any => exact absurd rfl (show CharClass.any ≠ .any from h _ List.mem_cons_self)
      | _ => exact nofun

theorem lexeme_setOpen (h : rest.head? ≠ some '^') : Token.lexeme '[' rest = (.setOpen, []) := by
  unfold Token.lexeme
  split <;> simp_all

/-- Sets of both kinds are read alike from behind the opening bracket on. -/
theorem reads_set {negated : Bool} {items : List SetItem} (h : ∀ i ∈ items, i.IsNormal) :
    Reads maxDepth (Pattern.set negated items).spelling ⟨gs, l, op, none, k⟩
      ⟨gs, l.push (.set negated items), .atom, none, k⟩ := by
  have hmembers (t : Token) (offset : Nat) (rest : List Char) : ∃ offset',
      read maxDepth ⟨gs, l, op, some ⟨t, negated, []⟩, k⟩ offset
          (items.flatMap SetItem.spelling ++ ']' :: rest) =
        read maxDepth ⟨gs, l.push (.set negated items), .atom, none, k⟩ offset' rest := by
    obtain ⟨atoms, o, hatoms, hread⟩ := readsAtoms_members h maxDepth ⟨gs, l, op, none, k⟩
      ⟨t, negated, []⟩ offset (']' :: rest)
    refine ⟨_, hread.trans (read_cons [] rfl ?_)⟩
    simp only [step, State.stepInSet, List.append_nil, List.reverse_reverse,
      ofAtoms_eq_ok h hatoms]
    rfl
  intro offset rest
  cases negated with
  | true =>
    simp only [Pattern.spelling, List.cons_append, List.append_assoc, List.nil_append]
    obtain ⟨o, hread⟩ := hmembers ⟨.setNegatedOpen, offset, ['[', '^']⟩ _ rest
    exact ⟨o, (read_cons ['^'] rfl rfl).trans hread⟩
  | false =>
    simp only [Pattern.spelling, List.cons_append, List.append_assoc, List.nil_append]
    obtain ⟨o, hread⟩ := hmembers ⟨.setOpen, offset, ['[']⟩ _ rest
    exact ⟨o, (read_cons [] (lexeme_setOpen (head?_members_ne h)) rfl).trans hread⟩

/-! ### Repetitions -/

section Count

variable {ds es : List Char}

theorem countTail?_exact (hne : ds ≠ []) (h : ∀ c ∈ ds, isDigit c = true) :
    Token.countTail? (ds ++ ['\x7d'] ++ rest) = some (ds ++ ['\x7d']) := by
  rw [List.append_assoc]
  obtain ⟨htake, hdrop⟩ := Text.takeWhile_run rest h (c := '\x7d') rfl
  simp only [Token.countTail?, List.singleton_append, htake, hdrop]
  simp [hne]

theorem countTail?_range (hne : ds ≠ []) (h : ∀ c ∈ ds, isDigit c = true)
    (h' : ∀ c ∈ es, isDigit c = true) :
    Token.countTail? (ds ++ ',' :: (es ++ ['\x7d']) ++ rest) =
      some (ds ++ ',' :: (es ++ ['\x7d'])) := by
  rw [List.append_assoc, List.cons_append, List.append_assoc, List.singleton_append]
  obtain ⟨htake, hdrop⟩ := Text.takeWhile_run (es ++ '\x7d' :: rest) h (c := ',') rfl
  obtain ⟨htake', hdrop'⟩ := Text.takeWhile_run rest h' (c := '\x7d') rfl
  simp only [Token.countTail?, htake, hdrop, htake', hdrop']
  simp [hne]

theorem lexeme_count {inner : List Char}
    (h : Token.countTail? (inner ++ ['\x7d'] ++ rest) = some (inner ++ ['\x7d'])) :
    Token.lexeme '\x7b' (inner ++ ['\x7d'] ++ rest) = (.braces, inner ++ ['\x7d']) := by
  simp only [Token.lexeme, h]

end Count

/-- The digits of a count, with what stands between them. -/
def innerOf : Repetition → List Char
  | .counted min none => (toString min).toList ++ [',']
  | .counted min (some max) =>
    if min = max then (toString min).toList
    else (toString min).toList ++ ',' :: (toString max).toList
  | _ => []

variable {min : Nat} {max : Option Nat}

theorem shown_counted (min : Nat) (max : Option Nat) :
    (Repetition.counted min max).shown.toList =
      '\x7b' :: (innerOf (.counted min max) ++ ['\x7d']) := by
  cases max with
  | none => simp [Repetition.shown, innerOf]
  | some max =>
    by_cases h : min = max <;> simp [Repetition.shown, innerOf, h]

theorem lexeme_counted (min : Nat) (max : Option Nat) (rest : List Char) :
    Token.lexeme '\x7b' (innerOf (.counted min max) ++ ['\x7d'] ++ rest) =
      (.braces, innerOf (.counted min max) ++ ['\x7d']) := by
  have hne := Text.toString_ne_nil
  have hdigits {n : Nat} : ∀ c ∈ (toString n).toList, isDigit c = true :=
    fun _ => Text.isDigit_of_mem_toString
  apply lexeme_count
  cases max with
  | none =>
    rw [innerOf, List.append_assoc (toString min).toList]
    exact countTail?_range (hne min) hdigits nofun
  | some max =>
    by_cases h : min = max
    · rw [innerOf, if_pos h]
      exact countTail?_exact (hne min) hdigits
    · rw [innerOf, if_neg h, List.append_assoc (toString min).toList]
      exact countTail?_range (hne min) hdigits hdigits

theorem bound_toString {n : Nat} (t : Token) (h : n ≤ maxBound) :
    bound t (toString n).toList = .ok n := by
  simp only [bound, Text.unsigned?_toString (Nat.lt_succ_iff.2 h)]

theorem count_counted (h : (Repetition.counted min max).IsNormal) (offset : Nat) :
    count ⟨.braces, offset, '\x7b' :: (innerOf (.counted min max) ++ ['\x7d'])⟩ =
      .ok (.counted min max) := by
  have hcomma {n : Nat} : ∀ c ∈ (toString n).toList, decide (c ≠ ',') = true := by
    intro c hc
    have hdigit := Text.isDigit_of_mem_toString hc
    rw [decide_eq_true_eq]
    rintro rfl
    exact absurd hdigit (by decide)
  have htake {n : Nat} (rest : List Char) :
      ((toString n).toList ++ ',' :: rest).takeWhile (· ≠ ',') = (toString n).toList :=
    (Text.takeWhile_run rest hcomma (by simp)).1
  have hdrop {n : Nat} (rest : List Char) :
      ((toString n).toList ++ ',' :: rest).dropWhile (· ≠ ',') = ',' :: rest :=
    (Text.takeWhile_run rest hcomma (by simp)).2
  simp only [count, List.tail_cons, List.dropLast_concat]
  cases max with
  | none =>
    simp only [innerOf, htake, hdrop, bound_toString _ h]
    rfl
  | some max =>
    obtain ⟨hle, hmax⟩ := h
    by_cases heq : min = max
    · subst heq
      have htake' : (toString min).toList.takeWhile (· ≠ ',') = (toString min).toList := by
        rw [List.takeWhile_eq_self_iff]
        exact hcomma
      have hdrop' : (toString min).toList.dropWhile (· ≠ ',') = [] :=
        List.dropWhile_eq_nil_iff.2 hcomma
      simp only [innerOf, if_true, htake', hdrop', bound_toString _ hmax]
      rfl
    · obtain ⟨d, ds, hds⟩ := List.exists_cons_of_ne_nil (Text.toString_ne_nil max)
      have hmin := bound_toString ⟨.braces, offset, '\x7b' :: (innerOf (.counted min (some max)) ++
        ['\x7d'])⟩ (hle.trans hmax)
      have hmax := bound_toString ⟨.braces, offset, '\x7b' :: (innerOf (.counted min (some max)) ++
        ['\x7d'])⟩ hmax
      simp only [innerOf, if_neg heq, htake, hdrop] at hmin hmax ⊢
      rw [hds] at hmin hmax ⊢
      simp only [hmin, hmax, bind, Except.bind, if_neg (Nat.not_lt.2 hle)]

/-- A quantifier behind an atom. -/
theorem reads_shown {body : Pattern} {bs is : List Pattern} {times : Repetition}
    (h : times.IsNormal) :
    Reads maxDepth times.shown.toList ⟨gs, ⟨bs, body :: is⟩, .atom, none, k⟩
      ⟨gs, ⟨bs, .repeated body times true :: is⟩, .quantified, none, k⟩ := by
  cases times with
  | optional | star | plus => exact reads_token [] (fun _ => rfl) fun _ => rfl
  | counted min max =>
    rw [shown_counted]
    refine reads_token _ (lexeme_counted min max) fun offset => ?_
    simp only [step, State.stepOutside, State.quantify, count_counted h offset]
    rfl

/-! ### Groups -/

theorem head?_append_ne {cs ds : List Char} (h : cs.head? ≠ some c) (h' : ds.head? ≠ some c) :
    (cs ++ ds).head? ≠ some c := by
  cases cs with
  | nil => exact h'
  | cons d cs => exact h

/-- What may stand in a group does not begin with a question mark, so that the parenthesis before
it stands alone. An item has a text. -/
theorem spelling_of_normal {place : Place} (h : Normal place p) :
    p.spelling.head? ≠ some '?' ∧ (place = .atom ∨ place = .item → p.spelling ≠ []) := by
  induction h with
  | char c =>
    refine ⟨head?_spellChar_ne (by decide) (by decide) c, fun _ => ?_⟩
    rw [Pattern.spelling, spellChar]
    split <;> exact List.cons_ne_nil _ _
  | charClass k => cases k <;> decide
  | set negated hitems =>
    cases negated <;> exact ⟨nofun, fun _ => List.cons_ne_nil _ _⟩
  | group capture hbody ih =>
    cases capture <;> exact ⟨nofun, fun _ => List.cons_ne_nil _ _⟩
  | ofAtom hp ih => exact ⟨ih.1, fun _ => ih.2 (.inl rfl)⟩
  | anchor a => cases a <;> decide
  | repeated greedy hbody htimes ih =>
    have hne := ih.2 (.inl rfl)
    rw [Pattern.spelling]
    refine ⟨?_, fun _ => by simp [hne]⟩
    rw [List.head?_append_of_ne_nil _ hne]
    exact ih.1
  | ofItem hp ih => exact ⟨ih.1, nofun⟩
  | @sequence items hlen hitems ih =>
    refine ⟨?_, nofun⟩
    rw [Pattern.spelling]
    cases items with
    | nil => exact nofun
    | cons p items =>
      have hp := ih p List.mem_cons_self
      rw [Pattern.spellItems, List.head?_append_of_ne_nil _ (hp.2 (.inr rfl))]
      exact hp.1
  | ofBranch hp ih => exact ⟨ih.1, nofun⟩
  | @alternation branches hlen hbranches ih =>
    refine ⟨?_, nofun⟩
    match branches, hlen with
    | p :: q :: branches, _ =>
      rw [Pattern.spelling, Pattern.spellBranches]
      · exact head?_append_ne (ih p List.mem_cons_self).1 nofun
      · exact nofun

theorem lexeme_parenOpen (h : rest.head? ≠ some '?') :
    Token.lexeme '(' rest = (.parenOpen, []) := by
  unfold Token.lexeme
  split <;> simp_all

/-! ### All patterns -/

/-- The captures of patterns are numbered in order behind the first `k` ones. -/
def Numbered (k : Nat) (captures : List Nat) : Prop :=
  captures = List.range' (k + 1) captures.length

theorem Numbered.of_append {as bs : List Nat} (h : Numbered k (as ++ bs)) :
    Numbered k as ∧ Numbered (k + as.length) bs := by
  rw [Numbered, List.length_append, ← List.range'_append_1] at h
  obtain ⟨ha, hb⟩ := List.append_inj h (by simp)
  exact ⟨ha, by rw [Numbered, Nat.add_right_comm]; exact hb⟩

/-- At its place the text of the pattern takes the parser over the pattern, if its captures are the
next ones and its groups are not nested too deep. -/
def ReadsBack (maxDepth : Nat) (p : Pattern) : Place → Prop
  | .atom | .item => ∀ gs l op k, Numbered k p.captures → gs.length + p.groupDepth ≤ maxDepth →
      Reads maxDepth p.spelling ⟨gs, l, op, none, k⟩
        ⟨gs, l.push p, operandAfter p, none, k + p.captures.length⟩
  | .branch => ∀ gs bs op k, Numbered k p.captures → gs.length + p.groupDepth ≤ maxDepth →
      ∃ is op', Pattern.ofItems is.reverse = p ∧
        Reads maxDepth p.spelling ⟨gs, ⟨bs, []⟩, op, none, k⟩
          ⟨gs, ⟨bs, is⟩, op', none, k + p.captures.length⟩
  | .whole => ∀ gs op k, Numbered k p.captures → gs.length + p.groupDepth ≤ maxDepth →
      ∃ l op', l.pattern = p ∧
        Reads maxDepth p.spelling ⟨gs, {}, op, none, k⟩
          ⟨gs, l, op', none, k + p.captures.length⟩

theorem reads_items (h : ∀ p ∈ ps, ReadsBack maxDepth p .item) (bs is : List Pattern)
    (op : Operand) (hcap : Numbered k (capturesAll ps))
    (hdepth : gs.length + Pattern.groupDepthAll ps ≤ maxDepth) :
    ∃ op', Reads maxDepth (Pattern.spellItems ps) ⟨gs, ⟨bs, is⟩, op, none, k⟩
      ⟨gs, ⟨bs, ps.reverse ++ is⟩, op', none, k + (capturesAll ps).length⟩ := by
  induction ps generalizing is op k with
  | nil => exact ⟨op, .nil _⟩
  | cons p ps ih =>
    obtain ⟨hp, hps⟩ := List.forall_mem_cons.1 h
    obtain ⟨hcap, hcaps⟩ := Numbered.of_append hcap
    rw [Pattern.groupDepthAll] at hdepth
    have hread := hp gs ⟨bs, is⟩ op k hcap (by omega)
    obtain ⟨op', hreads⟩ := ih hps (p :: is) (operandAfter p) hcaps (by omega)
    refine ⟨op', ?_⟩
    rw [Pattern.spellItems, List.reverse_cons, List.append_assoc, capturesAll, List.length_append,
      ← Nat.add_assoc]
    exact hread.append hreads

theorem reads_branches (hne : ps ≠ []) (h : ∀ p ∈ ps, ReadsBack maxDepth p .branch)
    (bs : List Pattern) (op : Operand) (hcap : Numbered k (capturesAll ps))
    (hdepth : gs.length + Pattern.groupDepthAll ps ≤ maxDepth) :
    ∃ l op', l.endBranch.branches = ps.reverse ++ bs ∧
      Reads maxDepth (Pattern.spellBranches ps) ⟨gs, ⟨bs, []⟩, op, none, k⟩
        ⟨gs, l, op', none, k + (capturesAll ps).length⟩ := by
  induction ps generalizing bs op k with
  | nil => exact absurd rfl hne
  | cons p ps ih =>
    obtain ⟨hp, hps⟩ := List.forall_mem_cons.1 h
    obtain ⟨hcap, hcaps⟩ := Numbered.of_append hcap
    rw [Pattern.groupDepthAll] at hdepth
    obtain ⟨is, op₁, his, hread⟩ := hp gs bs op k hcap (by omega)
    have hlevel : (⟨bs, is⟩ : Level).endBranch = ⟨p :: bs, []⟩ := by rw [Level.endBranch, his]
    cases ps with
    | nil =>
      refine ⟨⟨bs, is⟩, op₁, by rw [hlevel]; rfl, ?_⟩
      simpa [Pattern.spellBranches, capturesAll] using hread
    | cons q ps =>
      obtain ⟨l, op', hl, hreads⟩ := ih (List.cons_ne_nil q ps) hps (p :: bs) .none hcaps (by omega)
      refine ⟨l, op', by rw [hl]; simp, ?_⟩
      have hpipe : Reads maxDepth ['|'] ⟨gs, ⟨bs, is⟩, op₁, none, k + p.captures.length⟩
          ⟨gs, ⟨p :: bs, []⟩, .none, none, k + p.captures.length⟩ := by
        refine reads_token [] (fun _ => rfl) fun _ => ?_
        rw [← hlevel]
        rfl
      rw [Pattern.spellBranches, capturesAll, List.length_append, ← Nat.add_assoc]
      · exact hread.append (hpipe.append hreads)
      · exact List.cons_ne_nil q ps

/-- The text of a group, when that of its body is known to be read back. -/
theorem reads_group {body : Pattern} (hbody : Normal .whole body)
    (ih : ReadsBack maxDepth body .whole) (capture : Option Nat) :
    ReadsBack maxDepth (.group capture body) .atom := by
  intro gs l op k hcap hdepth
  rw [Pattern.groupDepth] at hdepth
  have hopen (t : Token) (captures : Nat) :
      State.openGroup ⟨gs, l, op, none, k⟩ maxDepth t capture captures =
        .ok ⟨⟨t, capture, l⟩ :: gs, {}, .none, none, captures⟩ := if_neg (by simp only; omega)
  have hclose (t : Token) {l' : Level} {op' : Operand} {k' : Nat} (hl : l'.pattern = body) :
      Reads maxDepth [')'] ⟨⟨t, capture, l⟩ :: gs, l', op', none, k'⟩
        ⟨gs, l.push (.group capture body), .atom, none, k'⟩ := by
    refine reads_token [] (fun _ => rfl) fun _ => ?_
    rw [← hl]
    rfl
  intro offset rest
  cases capture with
  | none =>
    obtain ⟨l', op', hl, hread⟩ :=
      ih (⟨⟨.nonCapturingOpen, offset, ['(', '?', ':']⟩, none, l⟩ :: gs) .none k hcap
        (by rw [List.length_cons]; omega)
    have hstep : step maxDepth ⟨gs, l, op, none, k⟩
        ⟨.nonCapturingOpen, offset, ['(', '?', ':']⟩ = _ := hopen _ _
    obtain ⟨o, hreads⟩ := (hread.append (hclose _ hl)) _ rest
    exact ⟨o, (read_cons ['?', ':'] rfl hstep).trans hreads⟩
  | some index =>
    obtain ⟨hindex, hbodycap⟩ : Numbered k [index] ∧ Numbered (k + 1) body.captures :=
      Numbered.of_append hcap
    obtain rfl : index = k + 1 := (List.cons.inj hindex).1
    obtain ⟨l', op', hl, hread⟩ := ih (⟨⟨.parenOpen, offset, ['(']⟩, some (k + 1), l⟩ :: gs)
      .none (k + 1) hbodycap (by rw [List.length_cons]; omega)
    have hstep : step maxDepth ⟨gs, l, op, none, k⟩ ⟨.parenOpen, offset, ['(']⟩ = _ := hopen _ _
    have hhead : (body.spelling ++ [')'] ++ rest).head? ≠ some '?' := by
      rw [List.append_assoc]
      exact head?_append_ne (spelling_of_normal hbody).1 (by simp)
    have hcount : k + 1 + body.captures.length =
        k + (Pattern.group (some (k + 1)) body).captures.length := by
      simp [Pattern.captures, Nat.add_assoc, Nat.add_comm]
    obtain ⟨o, hreads⟩ := (hread.append (hclose _ hl)) _ rest
    rw [hcount] at hreads
    exact ⟨o, (read_cons [] (lexeme_parenOpen hhead) hstep).trans hreads⟩

/-- The text of a normal pattern is read back, wherever the pattern may stand. -/
theorem readsBack_of_normal {place : Place} (h : Normal place p) : ReadsBack maxDepth p place := by
  induction h with
  | char c => exact fun gs l op k _ _ => reads_spellChar c
  | charClass c =>
    intro gs l op k _ _
    cases c with
    | any => exact reads_token [] (fun _ => rfl) fun _ => rfl
    | _ => exact reads_token [_] (fun _ => rfl) fun _ => rfl
  | set negated hitems => exact fun gs l op k _ _ => reads_set hitems
  | group capture hbody ih => exact reads_group hbody ih capture
  | ofAtom hp ih => exact ih
  | anchor a =>
    intro gs l op k _ _
    cases a with
    | start | finish => exact reads_token [] (fun _ => rfl) fun _ => rfl
    | wordBoundary | notWordBoundary =>
      exact reads_token [_] (fun _ => rfl) fun _ => rfl
  | @repeated body times greedy hbody htimes ih =>
    intro gs l op k hcap hdepth
    have hbody' : operandAfter body = .atom := by cases hbody <;> rfl
    have hread := ih gs l op k hcap hdepth
    rw [hbody'] at hread
    have hshown := hread.append (reads_shown htimes)
    cases greedy with
    | true =>
      rw [Pattern.spelling, if_pos rfl, List.append_nil]
      exact hshown
    | false =>
      have hlazy : Reads maxDepth ['?']
          ⟨gs, l.push (.repeated body times true), .quantified, none, k + body.captures.length⟩
          ⟨gs, l.push (.repeated body times false), .none, none, k + body.captures.length⟩ :=
        reads_token [] (fun _ => rfl) fun _ => rfl
      rw [Pattern.spelling, ← List.append_assoc]
      exact hshown.append hlazy
  | @ofItem p hp ih =>
    intro gs bs op k hcap hdepth
    exact ⟨[p], _, rfl, ih gs ⟨bs, []⟩ op k hcap hdepth⟩
  | @sequence items hlen hitems ih =>
    intro gs bs op k hcap hdepth
    obtain ⟨op', hread⟩ := reads_items ih bs [] op hcap hdepth
    rw [List.append_nil] at hread
    refine ⟨items.reverse, op', ?_, hread⟩
    rw [List.reverse_reverse, Pattern.ofItems_eq_sequence hlen]
  | @ofBranch p hp ih =>
    intro gs op k hcap hdepth
    obtain ⟨is, op', his, hread⟩ := ih gs [] op k hcap hdepth
    refine ⟨⟨[], is⟩, op', ?_, hread⟩
    rw [Level.pattern, Level.endBranch, his]
    rfl
  | @alternation branches hlen hbranches ih =>
    intro gs op k hcap hdepth
    have hne : branches ≠ [] := by
      rintro rfl
      simp at hlen
    obtain ⟨l, op', hl, hread⟩ := reads_branches hne ih [] op hcap hdepth
    refine ⟨l, op', ?_, hread⟩
    rw [Level.pattern, hl, List.append_nil, List.reverse_reverse,
      Pattern.ofBranches_eq_alternation hlen]

end Parser

namespace Pattern

/-- A normal pattern is parsed from its text. -/
theorem parse_written {p : Pattern} {maxDepth : Nat} (h : p.IsNormal)
    (hd : p.groupDepth ≤ maxDepth) : parse p.written maxDepth = .ok p := by
  have hcap : Parser.Numbered 0 p.captures := h.captures_eq
  have hback : Parser.ReadsBack maxDepth p .whole := Parser.readsBack_of_normal h.normal
  obtain ⟨l, op, hl, hread⟩ := hback [] .none 0 hcap (by simpa using hd)
  obtain ⟨o, hread⟩ := hread 0 []
  rw [List.append_nil] at hread
  rw [written, Parser.parse_ofList, hread, Parser.read, Token.listFrom, ← hl]
  rfl

/-- The patterns that are parsed from texts are the normal ones whose groups are not nested too
deep, and each of them is parsed from the text that it is written as. -/
theorem parse_image (maxDepth : Nat) :
    (∀ source p, parse source maxDepth = .ok p → p.IsNormal ∧ p.groupDepth ≤ maxDepth) ∧
      ∀ p : Pattern, p.IsNormal → p.groupDepth ≤ maxDepth → parse p.written maxDepth = .ok p :=
  ⟨fun _ _ => Parser.isNormal_of_parse, fun _ => parse_written⟩

/-- An empty branch and dashes, brackets and braces that stand for themselves beside ones that do
not. -/
def punctuated : Pattern :=
  .alternation [
    .repeated (.group none (.alternation [.char 'a', .sequence [], .char '-'])) .star false,
    .sequence [
      .repeated (.set true [.char ']', .range 'x' 'z', .charClass .digit])
        (.counted 2 (some 3)) true,
      .group (some 1) (.char '\x7b')]]

example : punctuated.written = "(?:a||\\-)*?|[^\\]x-z\\d]\x7b2,3\x7d(\\\x7b)" := by
  decide +kernel

theorem isNormal_punctuated : punctuated.IsNormal := by
  refine ⟨.alternation (by decide) ?_, by decide⟩
  have hset : ∀ i ∈ [SetItem.char ']', .range 'x' 'z', .charClass .digit], i.IsNormal := by
    decide
  simp only [List.forall_mem_cons, List.not_mem_nil, false_implies, implies_true, and_true]
  refine ⟨.ofItem (.repeated false (.group none (.alternation (by decide) ?_)) trivial),
    .sequence (by decide) ?_⟩
  · simp only [List.forall_mem_cons, List.not_mem_nil, false_implies, implies_true, and_true]
    exact ⟨.ofItem (.ofAtom (.char 'a')), .sequence (by decide) nofun,
      .ofItem (.ofAtom (.char '-'))⟩
  · simp only [List.forall_mem_cons, List.not_mem_nil, false_implies, implies_true, and_true]
    refine ⟨.repeated true (.set true hset) (by decide), .ofAtom (.group _ ?_)⟩
    exact .ofBranch (.ofItem (.ofAtom (.char _)))

theorem parse_image_punctuated :
    punctuated.IsNormal ∧ punctuated.groupDepth ≤ 1 ∧
      parse punctuated.written 1 = .ok punctuated := by
  have hparse := (parse_image 1).2 punctuated isNormal_punctuated (by decide)
  obtain ⟨hnormal, hdepth⟩ := (parse_image 1).1 punctuated.written punctuated hparse
  exact ⟨hnormal, hdepth, hparse⟩

end Pattern

end PatternAutomata
