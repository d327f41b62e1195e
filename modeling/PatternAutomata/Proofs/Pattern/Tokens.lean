import PatternAutomata.Pattern.Token
import PatternAutomata.Proofs.Text.Slice

/-!
# The tokens of a pattern

A token takes what it stands for from the text that is left, and the next token begins where it
ends. So the tokens lie one behind the other, each on boundaries, and each has one of the texts
that its kind stands for.

## Main definitions

* `TokenKind.Spells` — the texts that tokens of a kind have.
* `Token.IsOf` — a token stands in a text as it says.

## Main statements

* `Token.listFrom_cons_append` — the first token, where it is known what it takes.
* `Token.listFrom_induct` — each token begins where the one before it ends.
* `Token.isOf_of_mem_ofSource` — the tokens of a text stand in it.
-/
namespace PatternAutomata

theorem Text.byteLength_eq (cs : List Char) :
    byteLength cs = (String.ofList cs).utf8ByteSize := by
  induction cs with
  | nil => rfl
  | cons c cs ih =>
    rw [String.ofList_cons, String.utf8ByteSize_append, String.utf8ByteSize_singleton, ← ih]
    rfl

theorem Text.byteLength_append (cs ds : List Char) :
    byteLength (cs ++ ds) = byteLength cs + byteLength ds := by
  simp only [byteLength_eq, String.ofList_append, String.utf8ByteSize_append]

namespace TokenKind

/-- The texts of the tokens of each kind. -/
def Spells : TokenKind → List Char → Prop
  | nonCapturingOpen, cs => cs = ['(', '?', ':']
  | parenOpen, cs => cs = ['(']
  | parenClose, cs => cs = [')']
  | setNegatedOpen, cs => cs = ['[', '^']
  | setOpen, cs => cs = ['[']
  | setClose, cs => cs = [']']
  | pipe, cs => cs = ['|']
  | star, cs => cs = ['*']
  | plus, cs => cs = ['+']
  | question, cs => cs = ['?']
  | braces, cs => ∃ inner, cs = '\x7b' :: inner ++ ['\x7d']
  | caret, cs => cs = ['^']
  | dollar, cs => cs = ['$']
  | dot, cs => cs = ['.']
  | dash, cs => cs = ['-']
  | escape, cs => ∃ c, cs = ['\\', c]
  | char, cs => ∃ c, cs = [c]
  | garbage, cs => cs = ['\\']

end TokenKind

namespace Token

variable {c : Char} {rest tail cs : List Char} {kind : TokenKind} {offset : Nat} {t : Token}

/-- What a count takes ends in a closing brace and is what comes next in the text. -/
theorem countTail?_eq_some (h : countTail? cs = some tail) :
    (∃ inner, tail = inner ++ ['\x7d']) ∧ tail <+: cs := by
  have hlow := List.takeWhile_append_dropWhile (p := isDigit) (l := cs)
  simp only [countTail?] at h
  split at h
  · cases h
  split at h
  case h_1 _ rest heq =>
    obtain rfl := Option.some.inj h
    refine ⟨⟨_, rfl⟩, rest, ?_⟩
    rw [heq] at hlow
    rw [List.append_assoc]
    exact hlow
  case h_2 _ rest heq =>
    split at h
    case h_1 _ rest' heq' =>
      have hhigh := List.takeWhile_append_dropWhile (p := isDigit) (l := rest)
      obtain rfl := Option.some.inj h
      refine ⟨⟨_, rfl⟩, rest', ?_⟩
      rw [heq'] at hhigh
      rw [heq, ← hhigh] at hlow
      simpa using hlow
    case h_2 => cases h
  case h_3 => cases h

/-- A token has a text of its kind. -/
theorem spells_lexeme (c : Char) (rest : List Char) :
    (lexeme c rest).1.Spells (c :: (lexeme c rest).2) := by
  unfold lexeme
  split
  case h_11 =>
    split
    case h_1 tail htail =>
      obtain ⟨⟨inner, rfl⟩, -⟩ := countTail?_eq_some htail
      exact ⟨inner, rfl⟩
    case h_2 => exact ⟨_, rfl⟩
  all_goals simp [TokenKind.Spells]

/-- A token takes what comes next in the text. -/
theorem prefix_lexeme (c : Char) (rest : List Char) : (lexeme c rest).2 <+: rest := by
  unfold lexeme
  split
  case h_11 =>
    split
    case h_1 tail htail => exact (countTail?_eq_some htail).2
    case h_2 => exact List.nil_prefix
  all_goals simp

/-- The tokens of a text whose first one takes `tail` beside the first character. -/
theorem listFrom_cons_append (h : lexeme c (tail ++ rest) = (kind, tail)) (offset : Nat) :
    listFrom offset (c :: (tail ++ rest)) =
      ⟨kind, offset, c :: tail⟩ :: listFrom (offset + Text.byteLength (c :: tail)) rest := by
  rw [listFrom, h, List.drop_left]
  rfl

/-- Statements about the tokens of a text are proved from the last token to the first. -/
@[elab_as_elim]
theorem listFrom_induct {motive : Nat → List Char → List Token → Prop}
    (nil : ∀ offset, motive offset [] [])
    (cons : ∀ (t : Token) (rest : List Char) (ts : List Token), t.kind.Spells t.chars →
      motive t.stop rest ts → motive t.start (t.chars ++ rest) (t :: ts))
    (offset : Nat) (cs : List Char) : motive offset cs (listFrom offset cs) := by
  fun_induction listFrom offset cs with
  | case1 offset => exact nil offset
  | case2 offset c cs t ih =>
    have hcs : c :: cs = t.chars ++ cs.drop (lexeme c cs).2.length :=
      congrArg (c :: ·) (List.prefix_iff_eq_append.1 (prefix_lexeme c cs)).symm
    rw [hcs]
    exact cons t _ _ (spells_lexeme c cs) ih

theorem start_lt_stop (h : t.kind.Spells t.chars) : t.start < t.stop := by
  have hne : t.chars ≠ [] := by
    intro hnil
    rw [hnil] at h
    cases hkind : t.kind <;> simp [TokenKind.Spells, hkind] at h
  obtain ⟨c, cs, hcs⟩ := List.exists_cons_of_ne_nil hne
  have hc := c.utf8Size_pos
  simp only [stop, hcs, Text.byteLength, List.foldr_cons]
  omega

/-- The token stands in the text where it says, with one of the texts of its kind. -/
structure IsOf (t : Token) (source : String) : Prop where
  slice?_eq : Text.slice? source t.start t.stop = some t.text
  spells : t.kind.Spells t.chars

theorem isOf_of_mem_listFrom {before : String} (h : t ∈ listFrom before.utf8ByteSize cs) :
    t.IsOf (before ++ String.ofList cs) := by
  generalize hoffset : before.utf8ByteSize = offset at h
  induction offset, cs using listFrom_induct generalizing before with
  | nil offset => cases h
  | cons u rest ts hu ih =>
    have hsplit : before ++ String.ofList (u.chars ++ rest) =
        before ++ u.text ++ String.ofList rest := by
      rw [String.ofList_append, String.append_assoc, text]
    have hstop : (before ++ u.text).utf8ByteSize = u.stop := by
      rw [String.utf8ByteSize_append, hoffset, stop, Text.byteLength_eq, text]
    rcases List.mem_cons.1 h with rfl | h
    · refine ⟨?_, hu⟩
      rw [hsplit]
      exact Text.slice?_eq_some_iff.2 ⟨before, _, String.append_assoc, hoffset, hstop⟩
    · rw [hsplit]
      exact ih hstop h

/-- The tokens of a text stand in it. -/
theorem isOf_of_mem_ofSource {source : String} (h : t ∈ ofSource source) : t.IsOf source := by
  have := @isOf_of_mem_listFrom source.toList t "" h
  rwa [String.empty_append, String.ofList_toList] at this

end Token

end PatternAutomata
