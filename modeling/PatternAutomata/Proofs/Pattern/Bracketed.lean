import PatternAutomata.Proofs.Pattern.Written

/-!
# What stands between brackets

A text is cut into tokens before anything is known about brackets. Between brackets the cuts make no
difference, escapes apart: a token of more than one character holds no dash, and none goes on past
the closing bracket. So a set is what its characters spell, one after the other, where a dash between
two other characters makes a range of the three.

## Main definitions

* `SetItem.Spelled` — a member of a set with the bytes that spell it.
* `SetItem.spelledFrom` — the members that some characters spell.
* `Pattern.bracketed` — the set that some characters spell, or the first mistake among its members.

## Main statements

* `SetItem.ofAtoms_ofSpelling` — the members that characters make, one by one.
* `Parser.read_bracketed` — between brackets the parser goes over the characters one by one.
* `Pattern.parse_bracketed` — a set is what its characters spell.
-/
namespace PatternAutomata

namespace SetItem

/-- A member of a set with the bytes that spell it, `stop` excluded. -/
structure Spelled where
  item : SetItem
  start : Nat
  stop : Nat
  deriving DecidableEq, Repr

/-- What is wrong with a member that was written down. -/
def mistake? : SetItem → Option Mistake
  | char c => if isAscii c then none else some .nonAsciiInSet
  | range lo hi =>
    if hi < lo then some .rangeOutOfOrder
    else if isAscii hi then none
    else some .nonAsciiInSet
  | charClass _ => none

/-- The members that the characters spell from `offset` on. -/
def spelledFrom (offset : Nat) : List Char → List Spelled
  | [] => []
  | lo :: '-' :: hi :: rest =>
    if lo ≠ '-' ∧ hi ≠ '-' then
      let stop := offset + Text.byteLength [lo, '-', hi]
      ⟨.range lo hi, offset, stop⟩ :: spelledFrom stop rest
    else
      let stop := offset + lo.utf8Size
      ⟨.char lo, offset, stop⟩ :: spelledFrom stop ('-' :: hi :: rest)
  | c :: rest =>
    let stop := offset + c.utf8Size
    ⟨.char c, offset, stop⟩ :: spelledFrom stop rest

/-- What is wrong with a member, and where it stands. -/
def Spelled.diagnostic? (i : Spelled) : Option Diagnostic :=
  i.item.mistake?.map fun mistake => .ofMistake mistake i.start i.stop

/-- A member, if nothing is wrong with it. -/
def Spelled.checked (i : Spelled) : Except Diagnostic SetItem :=
  match i.diagnostic? with
  | some d => .error d
  | none => .ok i.item

/-- The members, or what is wrong with the first one that is wrong. -/
def ofSpelled (is : List Spelled) : Except Diagnostic (List SetItem) :=
  match is.findSome? Spelled.diagnostic? with
  | some d => .error d
  | none => .ok (is.map (·.item))

end SetItem

/-- The set that the characters of `w` spell, which begin at `offset`. -/
def Pattern.bracketed (negated : Bool) (offset : Nat) (w : String) : Except ParseError Pattern :=
  match SetItem.ofSpelled (SetItem.spelledFrom offset w.toList) with
  | .ok items => .ok (.set negated items)
  | .error d => .error (.invalid d)

namespace SetAtom

variable {c : Char} {cs ds rest tail : List Char} {offset : Nat}

/-- The characters as atoms, dashes being told apart. -/
def ofSpelling (offset : Nat) : List Char → List SetAtom
  | [] => []
  | c :: rest =>
    ⟨if c = '-' then .dash else .char c, offset, offset + c.utf8Size⟩ ::
      ofSpelling (offset + c.utf8Size) rest

theorem ofSpelling_append (offset : Nat) (cs ds : List Char) :
    ofSpelling offset (cs ++ ds) =
      ofSpelling offset cs ++ ofSpelling (offset + Text.byteLength cs) ds := by
  induction cs generalizing offset with
  | nil => rfl
  | cons c cs ih =>
    have hsize : Text.byteLength (c :: cs) = c.utf8Size + Text.byteLength cs := rfl
    rw [List.cons_append, ofSpelling, ih, hsize, ← Nat.add_assoc]
    rfl

theorem ofChars_eq (h : '-' ∉ cs) (offset : Nat) : ofChars offset cs = ofSpelling offset cs := by
  induction cs generalizing offset with
  | nil => rfl
  | cons c cs ih =>
    obtain ⟨hc, hcs⟩ := not_or.1 (mt List.mem_cons.2 h)
    rw [ofChars, ofSpelling, if_neg (Ne.symm hc), ih hcs]

end SetAtom

namespace Token

variable {c : Char} {cs rest tail : List Char}

/-- What a count takes is digits, a comma and a brace. -/
theorem mem_countTail? (h : countTail? cs = some tail) (hc : c ∈ tail) :
    isDigit c = true ∨ c = ',' ∨ c = '\x7d' := by
  have hdigit {cs : List Char} (hc : c ∈ cs.takeWhile isDigit) : isDigit c = true :=
    List.all_eq_true.1 List.all_takeWhile c hc
  simp only [countTail?] at h
  split at h
  · cases h
  split at h
  case h_1 =>
    obtain rfl := Option.some.inj h
    rcases List.mem_append.1 hc with hc | hc
    · exact .inl (hdigit hc)
    · exact .inr (.inr (List.mem_singleton.1 hc))
  case h_2 rest heq =>
    split at h
    case h_1 =>
      obtain rfl := Option.some.inj h
      simp only [List.mem_append, List.mem_cons, List.not_mem_nil, or_false] at hc
      obtain (hc | rfl | hc) | rfl := hc
      · exact .inl (hdigit hc)
      · exact .inr (.inl rfl)
      · exact .inl (hdigit hc)
      · exact .inr (.inr rfl)
    case h_2 => cases h
  case h_3 => cases h

/-- A dash is a token by itself, and no other token but an escape goes on over a dash or a closing
bracket. -/
theorem lexeme_of_unescaped (hclose : c ≠ ']') (hescape : c ≠ '\\') (hdash : c ≠ '-')
    (rest : List Char) :
    (lexeme c rest).1 ∉ [.dash, .escape, .garbage, .setClose] ∧
      '-' ∉ (lexeme c rest).2 ∧ ']' ∉ (lexeme c rest).2 := by
  unfold lexeme
  split
  case h_11 rest =>
    split
    case h_1 tail htail =>
      refine ⟨by simp, fun h => ?_, fun h => ?_⟩
      · exact absurd (mem_countTail? htail h) (by decide)
      · exact absurd (mem_countTail? htail h) (by decide)
    case h_2 => decide
  all_goals first | contradiction | decide

end Token

namespace SetAtom

variable {c : Char} {rest tail : List Char} {kind : TokenKind}

/-- Between brackets a token stands for its characters, and takes none that closes the set. -/
theorem ofToken_lexeme (hclose : c ≠ ']') (hescape : c ≠ '\\')
    (h : Token.lexeme c rest = (kind, tail)) (offset : Nat) :
    ofToken ⟨kind, offset, c :: tail⟩ = ofSpelling offset (c :: tail) ∧
      kind ≠ .setClose ∧ kind ≠ .garbage ∧ ']' ∉ tail := by
  by_cases hdash : c = '-'
  · subst hdash
    obtain ⟨rfl, rfl⟩ := Prod.mk.inj h
    exact ⟨rfl, nofun, nofun, nofun⟩
  · obtain ⟨hkind, hno, htail⟩ := Token.lexeme_of_unescaped hclose hescape hdash rest
    rw [h] at hkind hno htail
    simp only [List.mem_cons, List.not_mem_nil, or_false, not_or] at hkind
    obtain ⟨hkind, hkind', hgarbage, hset⟩ := hkind
    have hchars : '-' ∉ c :: tail := by simp [hno, Ne.symm hdash]
    refine ⟨?_, hset, hgarbage, htail⟩
    rw [← ofChars_eq hchars]
    unfold ofToken
    split
    case h_1 h => exact absurd h hkind
    case h_2 h _ => exact absurd h hkind'
    case h_3 => rfl

end SetAtom

namespace SetItem

theorem ofSpelled_cons (i : Spelled) (is : List Spelled) :
    ofSpelled (i :: is) = do return (← i.checked) :: (← ofSpelled is) := by
  unfold ofSpelled Spelled.checked
  rw [List.findSome?_cons]
  cases i.diagnostic? with
  | some d => rfl
  | none => cases is.findSome? Spelled.diagnostic? <;> rfl

theorem ofRange_eq (lo hi : Char) (start stop : Nat) :
    ofRange lo hi start stop = Spelled.checked ⟨.range lo hi, start, stop⟩ := by
  simp only [ofRange, Spelled.checked, Spelled.diagnostic?, mistake?]
  split
  · rfl
  · split <;> rfl

theorem ofAtom_eq (c : Char) (start stop : Nat) :
    ofAtom ⟨if c = '-' then .dash else .char c, start, stop⟩ =
      Spelled.checked ⟨.char c, start, stop⟩ := by
  by_cases hc : c = '-'
  · subst hc
    rfl
  · simp only [if_neg hc, ofAtom, Spelled.checked, Spelled.diagnostic?, mistake?]
    split <;> rfl

/-- A character that is not the lower end of a range is a member by itself. -/
theorem ofAtoms_alone {c : Char} {cs : List Char}
    (h : c ≠ '-' → ∀ hi rest, cs = '-' :: hi :: rest → hi = '-') (offset : Nat) :
    ofAtoms (SetAtom.ofSpelling offset (c :: cs)) = do
      let item ← ofAtom ⟨if c = '-' then .dash else .char c, offset, offset + c.utf8Size⟩
      return item :: (← ofAtoms (SetAtom.ofSpelling (offset + c.utf8Size) cs)) := by
  rw [SetAtom.ofSpelling, ofAtoms]
  rintro lo start stop dstart dstop hi hstart hstop atoms hlo hatoms
  have hc : c ≠ '-' := by
    rintro rfl
    cases hlo
  rcases cs with _ | ⟨d, _ | ⟨d', rest⟩⟩
  · cases hatoms
  · cases (List.cons.inj hatoms).2
  · simp only [SetAtom.ofSpelling, List.cons.injEq, SetAtom.mk.injEq] at hatoms
    obtain ⟨⟨hd, -⟩, ⟨hd', -⟩, -⟩ := hatoms
    have hdash : d = '-' := by
      by_contra hne
      rw [if_neg hne] at hd
      cases hd
    rw [if_pos (h hc d' rest (hdash ▸ rfl))] at hd'
    cases hd'

/-- The members that characters make, one by one. -/
theorem ofAtoms_ofSpelling (offset : Nat) (cs : List Char) :
    ofAtoms (SetAtom.ofSpelling offset cs) = ofSpelled (spelledFrom offset cs) := by
  fun_induction spelledFrom offset cs with
  | case1 offset => rfl
  | case2 offset lo hi rest hends stop ih =>
    obtain ⟨hlo, hhi⟩ := hends
    have hstop : offset + lo.utf8Size + '-'.utf8Size + hi.utf8Size = stop := by
      simp only [stop, Text.byteLength, List.foldr_cons, List.foldr_nil]
      omega
    rw [ofSpelled_cons, ← ih, ← ofRange_eq]
    simp only [SetAtom.ofSpelling, if_neg hlo, if_neg hhi, if_pos, ofAtoms, hstop]
  | case3 offset lo hi rest hends stop ih =>
    rw [ofSpelled_cons, ← ih, ofAtoms_alone, ofAtom_eq]
    rintro hlo _ _ ⟨⟩
    by_contra hhi
    exact hends ⟨hlo, hhi⟩
  | case4 offset c rest hother stop ih =>
    rw [ofSpelled_cons, ← ih, ofAtoms_alone, ofAtom_eq]
    rintro - hi rest' rfl
    exact (hother hi rest' rfl).elim

end SetItem

namespace Parser

variable {maxDepth : Nat} {s : State} {b : OpenSet} {c : Char} {cs rest tail : List Char}

/-- What comes before a character and does not hold it. -/
theorem prefix_of_not_mem (h : tail <+: cs ++ c :: rest) (hc : c ∉ tail) : tail <+: cs := by
  have hfront : cs ++ [c] <+: cs ++ c :: rest := by simp
  rcases List.prefix_or_prefix_of_prefix h hfront with hle | hle
  · rcases List.prefix_concat_iff.1 hle with rfl | hle
    · exact absurd (by simp) hc
    · exact hle
  · exact absurd (hle.subset (by simp)) hc

/-- Between brackets the parser goes over the characters one by one, however they are cut. A token
may take more than one of them, so the induction is on how many there are. -/
theorem read_bracketed (hclose : ']' ∉ cs) (hescape : '\\' ∉ cs) (offset : Nat) :
    read maxDepth { s with set := some b } offset (cs ++ ']' :: rest) =
      read maxDepth
        { s with set := some { b with atoms := (SetAtom.ofSpelling offset cs).reverse ++ b.atoms } }
        (offset + Text.byteLength cs) (']' :: rest) := by
  induction hn : cs.length using Nat.strongRecOn generalizing cs offset b with
  | _ n ih =>
    cases cs with
    | nil => rfl
    | cons c cs =>
      obtain ⟨hc, hcs⟩ := not_or.1 (mt List.mem_cons.2 hclose)
      obtain ⟨hc', hcs'⟩ := not_or.1 (mt List.mem_cons.2 hescape)
      obtain ⟨kind, tail, hlexeme⟩ : ∃ kind tail,
        Token.lexeme c (cs ++ ']' :: rest) = (kind, tail) := ⟨_, _, rfl⟩
      obtain ⟨hatoms, hkind, hkind', htail⟩ :=
        SetAtom.ofToken_lexeme (Ne.symm hc) (Ne.symm hc') hlexeme offset
      have hprefix := Token.prefix_lexeme c (cs ++ ']' :: rest)
      rw [hlexeme] at hprefix
      obtain ⟨cs, rfl⟩ := prefix_of_not_mem hprefix htail
      have hstep : step maxDepth { s with set := some b } ⟨kind, offset, c :: tail⟩ =
          .ok { s with set := some { b with
            atoms := (SetAtom.ofSpelling offset (c :: tail)).reverse ++ b.atoms } } := by
        simp only [step, State.stepInSet, hatoms]
      rw [List.append_assoc] at hlexeme
      have hlt : cs.length < n := by
        rw [← hn, List.length_cons, List.length_append]
        omega
      have hread := ih cs.length hlt
        (b := { b with atoms := (SetAtom.ofSpelling offset (c :: tail)).reverse ++ b.atoms })
        (mt (List.mem_append_right _) hcs) (mt (List.mem_append_right _) hcs')
        (offset + Text.byteLength (c :: tail)) rfl
      rw [← List.cons_append, List.append_assoc, read_cons tail hlexeme hstep, hread,
        SetAtom.ofSpelling_append, List.reverse_append, List.append_assoc, Text.byteLength_append,
        Nat.add_assoc]

/-- From behind the opening bracket on. -/
theorem read_members {w : String} (hclose : ']' ∉ w.toList) (hescape : '\\' ∉ w.toList) (t : Token)
    (negated : Bool) (offset : Nat) :
    read maxDepth { set := some ⟨t, negated, []⟩ } offset (w.toList ++ [']']) =
      Pattern.bracketed negated offset w := by
  have hmembers : read maxDepth { set := some ⟨t, negated, []⟩ } offset (w.toList ++ [']']) =
      read maxDepth
        { set := some ⟨t, negated, (SetAtom.ofSpelling offset w.toList).reverse ++ []⟩ }
        (offset + Text.byteLength w.toList) [']'] :=
    read_bracketed (s := {}) (b := ⟨t, negated, []⟩) hclose hescape offset
  have hlast (offset : Nat) : Token.listFrom offset [']'] = [⟨.setClose, offset, [']']⟩] := by
    simp [Token.listFrom, Token.lexeme]
  rw [hmembers, Pattern.bracketed, ← SetItem.ofAtoms_ofSpelling, read, hlast, List.foldlM_cons]
  simp only [step, State.stepInSet, List.append_nil, List.reverse_reverse]
  cases SetItem.ofAtoms (SetAtom.ofSpelling offset w.toList) <;> rfl

end Parser

namespace Pattern

/-- A text without closing brackets and backslashes that stands between brackets is what its
characters spell, whatever tokens it was cut into: a set of the members in order, or the first
mistake among them, with the bytes where it stands. -/
theorem parse_bracketed (w : String) (maxDepth : Nat) (hclose : ']' ∉ w.toList)
    (hescape : '\\' ∉ w.toList) :
    (w.toList.head? ≠ some '^' → parse ("[" ++ w ++ "]") maxDepth = bracketed false 1 w) ∧
      parse ("[^" ++ w ++ "]") maxDepth = bracketed true 2 w := by
  have hset : "[" ++ w ++ "]" = String.ofList ('[' :: (w.toList ++ [']'])) := by
    rw [← String.toList_inj]
    simp
  have hnegated : "[^" ++ w ++ "]" = String.ofList (['[', '^'] ++ (w.toList ++ [']'])) := by
    rw [← String.toList_inj]
    simp
  constructor
  · intro hhead
    have hopen : (w.toList ++ [']']).head? ≠ some '^' := by
      cases h : w.toList with
      | nil => simp
      | cons c cs => simpa [h] using hhead
    have hread : Parser.read maxDepth {} 0 ('[' :: (w.toList ++ [']'])) =
        Parser.read maxDepth { set := some ⟨⟨.setOpen, 0, ['[']⟩, false, []⟩ } 1
          (w.toList ++ [']']) :=
      Parser.read_cons [] (Parser.lexeme_setOpen hopen) rfl
    rw [hset, Parser.parse_ofList, hread, Parser.read_members hclose hescape]
  · have hread : Parser.read maxDepth {} 0 (['[', '^'] ++ (w.toList ++ [']'])) =
        Parser.read maxDepth { set := some ⟨⟨.setNegatedOpen, 0, ['[', '^']⟩, true, []⟩ } 2
          (w.toList ++ [']']) :=
      Parser.read_cons ['^'] rfl rfl
    rw [hnegated, Parser.parse_ofList, hread, Parser.read_members hclose hescape]

/-- A range that begins within a token, a dash at the end, and a range that is out of order. -/
theorem parse_bracketed_tokens :
    parse "[(?:\x7b2\x7d-~-]" 1 = .ok (.set false [.char '(', .char '?', .char ':', .char '\x7b',
        .char '2', .range '\x7d' '~', .char '-']) ∧
      parse "[^(?:é-a]" 1 = .error (.invalid (.ofMistake .rangeOutOfOrder 5 9)) := by
  have hset := (parse_bracketed "(?:\x7b2\x7d-~-" 1 (by decide) (by decide)).1 (by decide)
  have hnegated := (parse_bracketed "(?:é-a" 1 (by decide) (by decide)).2
  exact ⟨hset, hnegated⟩

end Pattern

end PatternAutomata
