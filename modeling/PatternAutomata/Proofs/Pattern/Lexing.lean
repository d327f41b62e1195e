import Mathlib.Algebra.Ring.Parity
import Mathlib.Data.List.Chain
import Mathlib.Data.List.DropRight
import PatternAutomata.Proofs.Pattern.Bracketed

/-!
# Tokens tile a pattern

Each kind of token is declared by the texts that it may have. A scanner takes the longest declared
text that stands next, and where none does it reports an error. The only such place is before a
backslash that ends the pattern. So the tokens lie one behind the other, from the beginning of the
pattern to its end, with that backslash as the last of them.

## Main definitions

* `TokenKind.Declares` — the texts that are declared for a kind.
* `Lexing.Scans` — what a scanner reports that goes by the longest declared text.
* `Lexing.collect` — the tokens of a report, errors in a row being put together.
* `Token.Tiles` — tokens that cover a text without a gap.

## Main statements

* `Token.longest_lexeme` — a token takes the longest declared text.
* `Lexing.Scans.collect_eq` — the tokens that are collected from a report.
* `Token.ofSource_tiles` — the tokens of a pattern.
-/
namespace PatternAutomata

/-- The texts that are declared for tokens of each kind. -/
def TokenKind.Declares : TokenKind → List Char → Prop
  | braces, cs => ∃ low, low ≠ [] ∧ (∀ d ∈ low, isDigit d = true) ∧
      (cs = '\x7b' :: (low ++ ['\x7d']) ∨
        ∃ high, (∀ d ∈ high, isDigit d = true) ∧ cs = '\x7b' :: (low ++ ',' :: (high ++ ['\x7d'])))
  | char, cs => ∃ c, c ∉ ['\\', '(', ')', '[', ']', '|', '*', '+', '?', '^', '$', '.', '-'] ∧ cs = [c]
  | garbage, _ => False
  | kind, cs => kind.Spells cs

namespace Token

/-- The text of kind `kind` is the longest declared one that the characters begin with. -/
structure Longest (kind : TokenKind) (text cs : List Char) : Prop where
  declares : kind.Declares text
  front : text <+: cs
  length_le : ∀ kind' text', TokenKind.Declares kind' text' → text' <+: cs →
    text'.length ≤ text.length

variable {c d : Char} {cs rest tail text : List Char} {kind : TokenKind} {offset : Nat} {t : Token}

/-! ## The longest declared text -/

/-- What a count takes is a declared text of its kind without the opening brace. -/
theorem declares_countTail? (h : countTail? cs = some tail) :
    TokenKind.braces.Declares ('\x7b' :: tail) := by
  have hdigits (cs : List Char) : ∀ d ∈ cs.takeWhile isDigit, isDigit d = true :=
    List.all_eq_true.1 List.all_takeWhile
  simp only [countTail?] at h
  split at h
  · cases h
  rename_i hne
  refine ⟨cs.takeWhile isDigit, by simpa using hne, hdigits cs, ?_⟩
  split at h
  case h_1 =>
    obtain rfl := Option.some.inj h
    exact .inl rfl
  case h_2 rest _ =>
    split at h
    case h_1 =>
      obtain rfl := Option.some.inj h
      exact .inr ⟨rest.takeWhile isDigit, hdigits rest, by simp⟩
    case h_2 => cases h
  case h_3 => cases h

/-- Every token but a backslash at the end has a declared text, and only an escape holds a
backslash. -/
theorem declares_lexeme (hc : c ≠ '\\') (rest : List Char) :
    (lexeme c rest).1.Declares (c :: (lexeme c rest).2) ∧ '\\' ∉ c :: (lexeme c rest).2 ∧
      (lexeme c rest).1 ≠ .escape ∧ (lexeme c rest).1 ≠ .garbage := by
  unfold lexeme
  split
  case h_11 rest _ =>
    split
    case h_1 tail htail =>
      refine ⟨declares_countTail? htail, ?_, nofun, nofun⟩
      rw [List.mem_cons, not_or]
      exact ⟨by decide, fun h => absurd (mem_countTail? htail h) (by decide)⟩
    case h_2 => exact ⟨⟨_, by decide, rfl⟩, by decide, nofun, nofun⟩
  case h_16 | h_17 => exact absurd rfl hc
  case h_18 =>
    refine ⟨⟨c, ?_, rfl⟩, by simpa using hc.symm, nofun, nofun⟩
    simp only [List.mem_cons, List.not_mem_nil, or_false]
    grind
  all_goals exact ⟨rfl, by decide, nofun, nofun⟩

theorem countTail?_of_declares (h : TokenKind.braces.Declares (c :: tail)) :
    c = '\x7b' ∧ ∀ rest, countTail? (tail ++ rest) = some tail := by
  obtain ⟨low, hne, hlow, htext | ⟨high, hhigh, htext⟩⟩ := h
  · obtain ⟨rfl, rfl⟩ := List.cons.inj htext
    exact ⟨rfl, fun _ => Parser.countTail?_exact hne hlow⟩
  · obtain ⟨rfl, rfl⟩ := List.cons.inj htext
    exact ⟨rfl, fun _ => Parser.countTail?_range hne hlow hhigh⟩

/-- A declared text makes a token of its kind by itself. -/
theorem lexeme_of_declares (h : kind.Declares (c :: tail)) : lexeme c tail = (kind, tail) := by
  cases kind
  case braces =>
    obtain ⟨rfl, htail⟩ := countTail?_of_declares h
    have htail := htail []
    rw [List.append_nil] at htail
    simp only [lexeme, htail]
  case char =>
    obtain ⟨c', hc, htext⟩ := h
    obtain ⟨rfl, rfl⟩ := List.cons.inj htext
    unfold lexeme
    split
    case h_11 | h_18 => rfl
    all_goals exact absurd (by decide) hc
  case escape =>
    obtain ⟨d, htext⟩ := h
    obtain ⟨rfl, rfl⟩ := List.cons.inj htext
    rfl
  case garbage => cases h
  all_goals
    obtain ⟨rfl, rfl⟩ := List.cons.inj h
    rfl

/-- A token takes at least as much as any declared text that stands next. -/
theorem length_le_of_declares (h : kind.Declares (c :: tail)) (rest : List Char) :
    tail.length ≤ (lexeme c (tail ++ rest)).2.length := by
  cases kind
  case braces =>
    obtain ⟨rfl, htail⟩ := countTail?_of_declares h
    simp only [lexeme, htail, le_refl]
  case char =>
    obtain ⟨c', -, htext⟩ := h
    obtain ⟨rfl, rfl⟩ := List.cons.inj htext
    exact Nat.zero_le _
  case escape =>
    obtain ⟨d, htext⟩ := h
    obtain ⟨rfl, rfl⟩ := List.cons.inj htext
    exact le_rfl
  case garbage => cases h
  all_goals
    obtain ⟨rfl, rfl⟩ := List.cons.inj h
    first | exact Nat.zero_le _ | exact le_rfl

theorem exists_cons_of_declares (h : kind.Declares text) : ∃ c tail, text = c :: tail := by
  refine List.exists_cons_of_ne_nil fun hnil => ?_
  subst hnil
  cases kind <;> simp [TokenKind.Declares, TokenKind.Spells] at h

/-- Only a backslash at the end makes no token of a declared kind. -/
theorem eq_of_lexeme_garbage (h : (lexeme c rest).1 = .garbage) : c = '\\' ∧ rest = [] := by
  by_cases hc : c = '\\'
  · subst hc
    cases rest with
    | nil => exact ⟨rfl, rfl⟩
    | cons d rest => cases h
  · exact absurd h (declares_lexeme hc rest).2.2.2

/-- Of all declared texts that stand next, a token takes the longest one. -/
theorem longest_lexeme (h : (lexeme c rest).1 ≠ .garbage) :
    Longest (lexeme c rest).1 (c :: (lexeme c rest).2) (c :: rest) where
  declares := by
    by_cases hc : c = '\\'
    · subst hc
      cases rest with
      | nil => exact absurd rfl h
      | cons d rest => exact ⟨d, rfl⟩
    · exact (declares_lexeme hc rest).1
  front := List.cons_prefix_cons.2 ⟨rfl, prefix_lexeme c rest⟩
  length_le := by
    rintro kind' text' hdeclares hfront
    obtain ⟨d, tail, rfl⟩ := exists_cons_of_declares hdeclares
    obtain ⟨rfl, rest, rfl⟩ := List.cons_prefix_cons.1 hfront
    simpa using length_le_of_declares hdeclares rest

/-- The longest declared text that stands next is what the token takes. -/
theorem Longest.lexeme_eq (h : Longest kind (c :: tail) (c :: rest)) :
    lexeme c rest = (kind, tail) := by
  have halone := lexeme_of_declares h.declares
  have hgarbage : (lexeme c rest).1 ≠ .garbage := fun hgarbage => by
    obtain ⟨rfl, rfl⟩ := eq_of_lexeme_garbage hgarbage
    obtain rfl : tail = [] := by simpa using h.front
    obtain ⟨rfl, -⟩ := Prod.mk.inj halone
    exact h.declares
  have hlongest := longest_lexeme hgarbage
  have htail : (lexeme c rest).2 = tail := by
    have hfront : tail <+: rest := (List.cons_prefix_cons.1 h.front).2
    have hle := h.length_le _ _ hlongest.declares hlongest.front
    have hge := hlongest.length_le _ _ h.declares h.front
    rw [List.length_cons, List.length_cons] at hle hge
    have heq : (lexeme c rest).2.length = tail.length := by omega
    exact (List.prefix_of_prefix_length_le (prefix_lexeme c rest) hfront heq.le).eq_of_length heq
  have hsame := lexeme_of_declares hlongest.declares
  rw [htail, halone] at hsame
  exact Prod.ext (Prod.mk.inj hsame).1.symm htail

end Token

/-! ## The report of a scanner -/

namespace Lexing

/-- A token of some kind, or without a kind an error, with the bytes that it takes. -/
structure Report where
  kind? : Option TokenKind
  start : Nat
  stop : Nat
  deriving DecidableEq, Repr

/-- What a scanner reports that goes over the characters from `offset` on and takes the longest
declared text each time. Where there is none it reports an error and goes on at some later
character. -/
inductive Scans : Nat → List Char → List Report → Prop
  | done (offset : Nat) : Scans offset [] []
  | token {kind : TokenKind} {text rest : List Char} {offset : Nat} {found : List Report} :
      Token.Longest kind text (text ++ rest) →
      Scans (offset + Text.byteLength text) rest found →
      Scans offset (text ++ rest) (⟨some kind, offset, offset + Text.byteLength text⟩ :: found)
  | error {part rest : List Char} {offset : Nat} {found : List Report} : part ≠ [] →
      (∀ kind text, TokenKind.Declares kind text → ¬text <+: part ++ rest) →
      Scans (offset + Text.byteLength part) rest found →
      Scans offset (part ++ rest) (⟨none, offset, offset + Text.byteLength part⟩ :: found)

/-- A token with the bytes that it takes. -/
structure Placed where
  kind : TokenKind
  start : Nat
  stop : Nat
  deriving DecidableEq, Repr

/-- The tokens of a report on a text of `size` bytes. Errors in a row make one token of garbage, from
the first of them, at `since`, to the next token or the end of the text. -/
def collect (size : Nat) : Option Nat → List Report → List Placed
  | none, [] => []
  | some start, [] => [⟨.garbage, start, size⟩]
  | since, ⟨some kind, start, stop⟩ :: found =>
    (since.map (⟨.garbage, ·, start⟩)).toList ++ ⟨kind, start, stop⟩ :: collect size none found
  | since, ⟨none, start, _⟩ :: found => collect size (since.or (some start)) found

end Lexing

open Lexing (Scans collect)

/-- The token without its text. -/
def Token.placed (t : Token) : Lexing.Placed :=
  ⟨t.kind, t.start, t.stop⟩

namespace Lexing

variable {offset : Nat} {cs : List Char} {found : List Report}

/-- No declared text stands before a backslash at the end. -/
theorem not_declares_backslash (kind : TokenKind) (text : List Char) (h : kind.Declares text) :
    ¬text <+: ['\\'] := fun hfront => by
  obtain ⟨c, tail, rfl⟩ := Token.exists_cons_of_declares h
  obtain ⟨rfl, htail⟩ := List.cons_prefix_cons.1 hfront
  obtain rfl := List.prefix_nil.1 htail
  obtain ⟨rfl, -⟩ := Prod.mk.inj (Token.lexeme_of_declares h)
  exact h

/-- Every text can be scanned. -/
theorem exists_scans (offset : Nat) (cs : List Char) : ∃ found, Scans offset cs found := by
  fun_induction Token.listFrom offset cs with
  | case1 offset => exact ⟨_, .done offset⟩
  | case2 offset c rest t ih =>
    obtain ⟨found, hfound⟩ := ih
    by_cases hkind : (Token.lexeme c rest).1 = .garbage
    · obtain ⟨rfl, rfl⟩ := Token.eq_of_lexeme_garbage hkind
      exact ⟨_, .error (List.cons_ne_nil '\\' []) not_declares_backslash (.done _)⟩
    · have hlongest := Token.longest_lexeme hkind
      have hsplit := List.prefix_iff_eq_append.1 hlongest.front
      rw [List.length_cons, List.drop_succ_cons] at hsplit
      rw [← hsplit] at hlongest ⊢
      exact ⟨_, .token hlongest hfound⟩

theorem Scans.eq_nil (h : Scans offset [] found) : found = [] := by
  generalize hcs : [] = cs at h
  cases h with
  | done => rfl
  | token hlongest _ =>
    obtain ⟨c, tail, rfl⟩ := Token.exists_cons_of_declares hlongest.declares
    cases hcs
  | error hne _ _ => exact absurd (List.append_eq_nil_iff.1 hcs.symm).1 hne

/-- The tokens that are collected from a report are those of the text. -/
theorem Scans.collect_eq (h : Scans offset cs found) :
    collect (offset + Text.byteLength cs) none found =
      (Token.listFrom offset cs).map Token.placed := by
  induction h with
  | done offset => simp [Token.listFrom, collect]
  | @token kind text rest offset found hlongest _ ih =>
    obtain ⟨c, tail, rfl⟩ := Token.exists_cons_of_declares hlongest.declares
    rw [List.cons_append] at hlongest
    rw [collect, Text.byteLength_append, ← Nat.add_assoc, ih, List.cons_append,
      Token.listFrom_cons_append hlongest.lexeme_eq]
    rfl
  | @error part rest offset found hne hnone hrest ih =>
    obtain ⟨c, part, rfl⟩ := List.exists_cons_of_ne_nil hne
    have hkind : (Token.lexeme c (part ++ rest)).1 = .garbage := by
      by_contra hkind
      have hlongest := Token.longest_lexeme hkind
      exact hnone _ _ hlongest.declares hlongest.front
    obtain ⟨rfl, hempty⟩ := Token.eq_of_lexeme_garbage hkind
    obtain ⟨rfl, rfl⟩ := List.append_eq_nil_iff.1 hempty
    obtain rfl := hrest.eq_nil
    simp [Token.listFrom, Token.lexeme, collect, Token.placed, Token.stop]

end Lexing

namespace Token

/-! ## Tokens without a gap -/

/-- The tokens lie one behind the other from the beginning of the text to its end, each of them on
boundaries and with the text that it has. -/
structure Tiles (source : String) (ts : List Token) : Prop where
  slice?_eq : ∀ t ∈ ts, Text.slice? source t.start t.stop = some t.text
  start_lt_stop : ∀ t ∈ ts, t.start < t.stop
  first : ∀ t ∈ ts.head?, t.start = 0
  adjacent : ts.IsChain fun t u => u.start = t.stop
  last : ∀ t ∈ ts.getLast?, t.stop = source.utf8ByteSize
  nil_iff : ts = [] ↔ source = ""

/-- The number of backslashes that the characters end in. -/
def closingBackslashes (cs : List Char) : Nat :=
  (cs.rtakeWhile (· = '\\')).length

variable {source : String} {c : Char} {cs rest : List Char} {offset : Nat} {t : Token}

theorem start_of_mem_head? (h : t ∈ (listFrom offset cs).head?) : t.start = offset := by
  cases cs with
  | nil => simp [listFrom] at h
  | cons c rest =>
    rw [listFrom] at h
    obtain rfl := Option.some.inj h
    rfl

theorem adjacent_listFrom (offset : Nat) (cs : List Char) :
    (listFrom offset cs).IsChain fun t u => u.start = t.stop := by
  fun_induction listFrom offset cs with
  | case1 offset => exact .nil
  | case2 offset c rest t ih =>
    exact List.isChain_cons.2 ⟨fun u hu => start_of_mem_head? hu, ih⟩

/-- A token and what is left behind it. -/
theorem lexeme_append_drop (c : Char) (rest : List Char) :
    (c :: (lexeme c rest).2) ++ rest.drop (lexeme c rest).2.length = c :: rest :=
  congrArg (c :: ·) (List.prefix_iff_eq_append.1 (prefix_lexeme c rest))

theorem listFrom_eq_nil_iff : listFrom offset cs = [] ↔ cs = [] := by
  cases cs <;> simp [listFrom]

theorem stop_of_mem_getLast? (h : t ∈ (listFrom offset cs).getLast?) :
    t.stop = offset + Text.byteLength cs := by
  fun_induction listFrom offset cs with
  | case1 offset => cases h
  | case2 offset c rest u ih =>
    rw [← lexeme_append_drop, Text.byteLength_append, ← Nat.add_assoc]
    by_cases hrest : listFrom u.stop (rest.drop (lexeme c rest).2.length) = []
    · rw [hrest] at h
      obtain rfl := Option.some.inj h
      rw [listFrom_eq_nil_iff.1 hrest]
      rfl
    · refine ih ?_
      rwa [List.getLast?_cons_of_ne_nil hrest] at h

/-- What stands before another character than a backslash does not matter. -/
theorem closingBackslashes_append (hc : c ≠ '\\') (cs rest : List Char) :
    closingBackslashes (cs ++ c :: rest) = closingBackslashes rest := by
  have hstop : (c :: cs.reverse).takeWhile (fun c => decide (c = '\\')) = [] := by simp [hc]
  simp only [closingBackslashes, List.rtakeWhile, List.reverse_append, List.reverse_cons,
    List.append_assoc, List.singleton_append, List.length_reverse, List.takeWhile_append, hstop]
  split
  · rename_i h
    simp [h]
  · rfl

theorem closingBackslashes_of_not_mem (h : '\\' ∉ cs) (rest : List Char) :
    closingBackslashes (cs ++ rest) = closingBackslashes rest := by
  rcases List.eq_nil_or_concat cs with rfl | ⟨cs, c, rfl⟩
  · rfl
  · have hc : c ≠ '\\' := by
      rintro rfl
      exact h (by simp)
    rw [List.concat_eq_append, List.append_assoc]
    exact closingBackslashes_append hc cs rest

/-- An escape does not matter, whatever is escaped. -/
theorem odd_closingBackslashes_escape (c : Char) (rest : List Char) :
    Odd (closingBackslashes ('\\' :: c :: rest)) ↔ Odd (closingBackslashes rest) := by
  by_cases hc : c = '\\'
  · subst hc
    simp only [closingBackslashes, List.rtakeWhile, List.reverse_cons, List.append_assoc,
      List.length_reverse, List.takeWhile_append]
    split
    · rename_i h
      simp [h, Nat.odd_add]
    · rfl
  · rw [show '\\' :: c :: rest = ['\\'] ++ c :: rest from rfl, closingBackslashes_append hc]

/-- A token of garbage occurs if and only if a backslash is left over at the end. -/
theorem exists_garbage_iff (offset : Nat) (cs : List Char) :
    (∃ t ∈ listFrom offset cs, t.kind = .garbage) ↔ Odd (closingBackslashes cs) := by
  fun_induction listFrom offset cs with
  | case1 offset => simp [closingBackslashes]
  | case2 offset c rest u ih =>
    rw [List.exists_mem_cons_iff, ih]
    by_cases hc : c = '\\'
    · subst hc
      cases rest with
      | nil =>
        have hone : closingBackslashes ['\\'] = 1 := rfl
        simp [u, lexeme, hone]
      | cons d rest =>
        have hkind : u.kind = .escape := rfl
        simp [hkind, odd_closingBackslashes_escape, lexeme]
    · obtain ⟨-, hno, -, hkind⟩ := declares_lexeme hc rest
      rw [← closingBackslashes_of_not_mem hno, lexeme_append_drop]
      exact or_iff_right hkind

/-- Garbage stands at the end. -/
theorem getLast?_of_garbage (h : t ∈ listFrom offset cs) (hkind : t.kind = .garbage) :
    (listFrom offset cs).getLast? = some t := by
  fun_induction listFrom offset cs with
  | case1 offset => cases h
  | case2 offset c rest u ih =>
    rcases List.mem_cons.1 h with rfl | h
    · obtain ⟨-, rfl⟩ := eq_of_lexeme_garbage hkind
      rw [List.drop_nil, listFrom]
      rfl
    · rw [List.getLast?_cons_of_ne_nil (List.ne_nil_of_mem h)]
      exact ih h

theorem tiles_ofSource (source : String) : Tiles source (ofSource source) where
  slice?_eq t ht := (isOf_of_mem_ofSource ht).slice?_eq
  start_lt_stop t ht := start_lt_stop (isOf_of_mem_ofSource ht).spells
  first t ht := start_of_mem_head? ht
  adjacent := adjacent_listFrom 0 _
  last t ht := by
    rw [stop_of_mem_getLast? ht, Text.byteLength_eq, String.ofList_toList, Nat.zero_add]
  nil_iff := by rw [ofSource, listFrom_eq_nil_iff, String.toList_eq_nil_iff]

/-- The tokens of a pattern are those collected from what a scanner reports that takes the longest
declared text each time. They tile the pattern. One of them is garbage if and only if the pattern
ends in an odd number of backslashes, and then it is the last of these, as the last token. An
escape is a backslash and one character. -/
theorem ofSource_tiles (source : String) :
    (∃ found, Scans 0 source.toList found) ∧
      (∀ found, Scans 0 source.toList found →
        collect source.utf8ByteSize none found = (ofSource source).map placed) ∧
      Tiles source (ofSource source) ∧
      ((∃ t ∈ ofSource source, t.kind = .garbage) ↔ Odd (closingBackslashes source.toList)) ∧
      (∀ t ∈ ofSource source, t.kind = .garbage → (ofSource source).getLast? = some t ∧
        t.start + 1 = source.utf8ByteSize ∧ t.text = "\\") ∧
      ∀ t ∈ ofSource source, t.kind = .escape → ∃ c, t.text = "\\" ++ String.singleton c := by
  refine ⟨Lexing.exists_scans 0 _, fun found hfound => ?_, tiles_ofSource source,
    exists_garbage_iff 0 _, fun t ht hkind => ?_, fun t ht hkind => ?_⟩
  · have hcollect := hfound.collect_eq
    rwa [Text.byteLength_eq, String.ofList_toList, Nat.zero_add] at hcollect
  · have hlast := getLast?_of_garbage ht hkind
    have hchars : t.chars = ['\\'] := by
      have hspells := (isOf_of_mem_ofSource ht).spells
      rwa [hkind] at hspells
    have hstop := (tiles_ofSource source).last t hlast
    rw [stop, hchars] at hstop
    exact ⟨hlast, hstop, by rw [text, hchars]⟩
  · have hspells := (isOf_of_mem_ofSource ht).spells
    rw [hkind] at hspells
    obtain ⟨c, hc⟩ := hspells
    exact ⟨c, by rw [text, hc, String.ofList_cons]; simp⟩

/-- A character of two bytes, an escaped bracket, a count and one that is not finished, and a
backslash at the end: `[^é\]{2,}{2\`. -/
def unfinished : String :=
  "[^é\\]\x7b2,\x7d\x7b2\\"

theorem ofSource_tiles_unfinished :
    (∃ found, Scans 0 unfinished.toList found ∧ collect unfinished.utf8ByteSize none found =
        [⟨.setNegatedOpen, 0, 2⟩, ⟨.char, 2, 4⟩, ⟨.escape, 4, 6⟩, ⟨.braces, 6, 10⟩, ⟨.char, 10, 11⟩,
          ⟨.char, 11, 12⟩, ⟨.garbage, 12, 13⟩]) ∧
      Tiles unfinished (ofSource unfinished) ∧
      Odd (closingBackslashes unfinished.toList) := by
  have htokens : (ofSource unfinished).map placed =
      [⟨.setNegatedOpen, 0, 2⟩, ⟨.char, 2, 4⟩, ⟨.escape, 4, 6⟩, ⟨.braces, 6, 10⟩, ⟨.char, 10, 11⟩,
        ⟨.char, 11, 12⟩, ⟨.garbage, 12, 13⟩] := by
    decide +kernel
  have hgarbage : ∃ t ∈ ofSource unfinished, t.kind = .garbage := by decide +kernel
  obtain ⟨⟨found, hfound⟩, hcollect, htiles, hodd, -⟩ := ofSource_tiles unfinished
  exact ⟨⟨found, hfound, (hcollect found hfound).trans htokens⟩, htiles, hodd.1 hgarbage⟩

end Token

end PatternAutomata
