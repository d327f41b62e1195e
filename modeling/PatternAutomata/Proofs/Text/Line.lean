import Mathlib.Data.List.Basic
import Mathlib.Data.List.TakeWhile
import PatternAutomata.CharClass
import PatternAutomata.Text.Line

/-!
# Lines and words that were put together

A text that was made of lines or words is cut into the same ones again.

## Main definitions

* `Text.IsLine` — a run of characters that is a line as a whole.
* `Text.Unbroken` — a run of characters of which any part is.

## Main statements

* `Text.lines_feed` — a line feed ends a line, whatever stands around it.
* `Text.lines_of_isLine` — what is a line as a whole is one.
* `Text.words_intercalate` — the words of a line made of words.
-/
namespace PatternAutomata.Text

variable {cs rest word line : List Char} {c : Char}

/-- Put before a line feed, the characters make one line. -/
structure IsLine (line : List Char) : Prop where
  not_mem : '\n' ∉ line
  getLast?_ne : line.getLast? ≠ some '\r'

/-- No character ends a line or belongs to the end of one. -/
def Unbroken (cs : List Char) : Prop :=
  ∀ c ∈ cs, c ∉ ['\n', '\r']

instance (cs : List Char) : Decidable (Unbroken cs) :=
  List.decidableBAll _ cs

theorem Unbroken.isLine (h : Unbroken line) : IsLine line :=
  ⟨fun hmem => absurd (h _ hmem) (by decide),
    fun hlast => absurd (h _ (List.mem_of_getLast? hlast)) (by decide)⟩

theorem Unbroken.append (h : Unbroken cs) (h' : Unbroken rest) : Unbroken (cs ++ rest) :=
  List.forall_mem_append.2 ⟨h, h'⟩

/-- A line goes on with characters that make a line. -/
theorem IsLine.append (h : '\n' ∉ cs) (hrest : IsLine rest) (hne : rest ≠ []) :
    IsLine (cs ++ rest) where
  not_mem := by simp [h, hrest.not_mem]
  getLast?_ne := by
    rw [List.getLast?_append_of_ne_nil _ hne]
    exact hrest.getLast?_ne

theorem lines_ne_nil (h : cs ≠ []) : lines cs ≠ [] := by
  fun_cases lines cs <;> simp_all

/-- A character that is no part of a line end belongs to the line behind it. -/
theorem lines_cons (hc : c ≠ '\n') (hr : c = '\r' → cs.head? ≠ some '\n') (hcs : cs ≠ []) :
    lines (c :: cs) = (lines cs).modifyHead (c :: ·) := by
  obtain ⟨line, more, hlines⟩ := List.exists_cons_of_ne_nil (lines_ne_nil hcs)
  rw [lines, hlines]
  · rfl
  · exact hc
  · rintro rest rfl rfl
    exact hr rfl rfl

/-- A line feed ends a line, whatever stands before it. -/
theorem lines_feed (cs rest : List Char) :
    lines (cs ++ '\n' :: rest) = lines (cs ++ ['\n']) ++ lines rest := by
  match cs with
  | [] => rfl
  | c :: cs =>
    by_cases hc : c = '\n'
    · subst hc
      exact congrArg ([] :: ·) (lines_feed cs rest)
    by_cases hr : c = '\r' ∧ (cs ++ ['\n']).head? = some '\n'
    · obtain ⟨rfl, hhead⟩ := hr
      match cs with
      | [] => rfl
      | d :: ds =>
        obtain rfl : d = '\n' := Option.some.inj hhead
        exact congrArg ([] :: ·) (lines_feed ds rest)
    · have hhead : (cs ++ '\n' :: rest).head? = (cs ++ ['\n']).head? := by cases cs <;> rfl
      have hr' (h : c = '\r') : (cs ++ ['\n']).head? ≠ some '\n' := fun hh => hr ⟨h, hh⟩
      rw [List.cons_append, List.cons_append, lines_cons hc hr' (by simp),
        lines_cons hc (hhead ▸ hr') (by simp), lines_feed cs rest]
      obtain ⟨line, more, hlines⟩ :=
        List.exists_cons_of_ne_nil (@lines_ne_nil (cs ++ ['\n']) (by simp))
      rw [hlines]
      rfl

theorem lines_flatMap (ls : List (List Char)) :
    lines (ls.flatMap (· ++ ['\n'])) = ls.flatMap fun l => lines (l ++ ['\n']) := by
  induction ls with
  | nil => rfl
  | cons l ls ih =>
    rw [List.flatMap_cons, List.append_assoc, List.singleton_append, lines_feed, ih,
      List.flatMap_cons]

theorem lines_of_isLine (h : IsLine line) : lines (line ++ ['\n']) = [line] := by
  obtain ⟨hfeed, hlast⟩ := h
  induction line with
  | nil => rfl
  | cons c cs ih =>
    rw [List.mem_cons, not_or] at hfeed
    obtain ⟨hc, hcs⟩ := hfeed
    cases cs with
    | nil =>
      have hr : c ≠ '\r' := by simpa using hlast
      rw [List.singleton_append, lines_cons (Ne.symm hc) (fun h => absurd h hr) (by simp)]
      rfl
    | cons d ds =>
      have hd : d ≠ '\n' := fun h => hcs (by simp [h])
      have hrest := ih hcs (by simpa [List.getLast?_cons_cons] using hlast)
      rw [List.cons_append, lines_cons (Ne.symm hc) (fun _ => by simpa using hd) (by simp), hrest]
      rfl

/-- A carriage return right before the line feed belongs to the line end. -/
theorem lines_return (h : '\n' ∉ line) : lines (line ++ ['\r', '\n']) = [line] := by
  induction line with
  | nil => rfl
  | cons c cs ih =>
    rw [List.mem_cons, not_or] at h
    have hhead : (cs ++ ['\r', '\n']).head? ≠ some '\n' := by
      cases cs with
      | nil => simp
      | cons d ds => simpa using fun hd : d = '\n' => h.2 (by simp [hd])
    rw [List.cons_append, lines_cons (Ne.symm h.1) (fun _ => hhead) (by simp), ih h.2]
    rfl

/-- A run of characters ends where the next one is of another kind. -/
theorem takeWhile_run {p : Char → Bool} (rest : List Char) (h : ∀ c ∈ cs, p c = true)
    (hc : p c = false) :
    (cs ++ c :: rest).takeWhile p = cs ∧ (cs ++ c :: rest).dropWhile p = c :: rest := by
  rw [List.takeWhile_append_of_pos h, List.dropWhile_append_of_pos h]
  simp [hc]

theorem isBlank_of_isDigit (h : isDigit c = true) : isBlank c = false := by
  simp only [isDigit, Bool.and_eq_true, decide_eq_true_eq, Char.le_def,
    UInt32.le_iff_toNat_le] at h
  obtain ⟨hlow, hhigh⟩ := h
  have hlow' : 48 ≤ c.toNat := hlow
  have hhigh' : c.toNat ≤ 57 := hhigh
  simp only [isBlank, Bool.or_eq_false_iff, Bool.and_eq_false_iff, decide_eq_false_iff_not,
    beq_eq_false_iff_ne]
  omega

/-- Where there are no blanks, nothing is trimmed. -/
theorem trim_eq_self (h : ∀ c ∈ cs, isBlank c = false) : trim cs = cs := by
  have hdrop {cs : List Char} (h : ∀ c ∈ cs, isBlank c = false) : cs.dropWhile isBlank = cs := by
    cases cs with
    | nil => rfl
    | cons c cs => rw [List.dropWhile_cons_of_neg (by simp [h c])]
  rw [trim, hdrop h, hdrop fun c hc => h c (List.mem_reverse.1 hc), List.reverse_reverse]

theorem trim_cons (cs : List Char) : trim (' ' :: cs) = trim cs := by
  rw [trim, List.dropWhile_cons_of_pos rfl, trim]

/-- What is trimmed away is blank. -/
theorem mem_trim_or {cs : List Char} {c : Char} (h : c ∈ cs) :
    c ∈ trim cs ∨ isBlank c = true := by
  have hdrop {cs : List Char} (h : c ∈ cs) : c ∈ cs.dropWhile isBlank ∨ isBlank c = true := by
    rw [← List.takeWhile_append_dropWhile (p := isBlank) (l := cs), List.mem_append] at h
    exact h.symm.imp_right List.mem_takeWhile_imp
  rcases hdrop h with h | h
  · refine (hdrop (List.mem_reverse.2 h)).imp_left fun h => ?_
    rw [trim]
    exact List.mem_reverse.2 h
  · exact .inr h

/-- A line that begins with no blank is not blank. -/
theorem trim_ne_nil (h : isBlank c = false) (cs : List Char) : trim (c :: cs) ≠ [] := by
  rw [trim, List.dropWhile_cons_of_neg (by simp [h]), List.reverse_ne_nil_iff, Ne,
    List.dropWhile_eq_nil_iff]
  intro hall
  simp [hall c (by simp)] at h

/-- Words put together have their own characters, and blanks between them. -/
theorem eq_or_mem_of_mem_intercalate {ws : List (List Char)} (h : c ∈ [' '].intercalate ws) :
    c = ' ' ∨ ∃ word ∈ ws, c ∈ word := by
  induction ws with
  | nil => cases h
  | cons word ws ih =>
    cases ws with
    | nil => exact .inr ⟨word, by simp, by simpa using h⟩
    | cons word' ws =>
      rw [List.intercalate_cons_cons, List.append_assoc, List.mem_append, List.singleton_append,
        List.mem_cons] at h
      rcases h with h | rfl | h
      · exact .inr ⟨word, by simp, h⟩
      · exact .inl rfl
      · rcases ih h with h | ⟨w, hw, hc⟩
        · exact .inl h
        · exact .inr ⟨w, List.mem_cons_of_mem _ hw, hc⟩

theorem unbroken_intercalate {ws : List (List Char)} (h : ∀ word ∈ ws, Unbroken word) :
    Unbroken ([' '].intercalate ws) := fun c hc => by
  rcases eq_or_mem_of_mem_intercalate hc with rfl | ⟨word, hword, hc⟩
  · decide
  · exact h word hword c hc

theorem words_intercalate {ws : List (List Char)}
    (h : ∀ word ∈ ws, word ≠ [] ∧ ∀ c ∈ word, isBlank c = false) :
    words ([' '].intercalate ws) = ws := by
  induction ws with
  | nil => rfl
  | cons word ws ih =>
    obtain ⟨⟨hne, hword⟩, hws⟩ := List.forall_mem_cons.1 h
    have hrest := ih hws
    cases ws with
    | nil => simp [words, List.splitOnP_eq_singleton hword, hne]
    | cons word' ws =>
      rw [words] at hrest
      rw [List.intercalate_cons_cons, List.append_assoc, List.singleton_append, words,
        List.splitOnP_append_cons_of_forall_mem hword ' ' rfl, List.filter_cons_of_pos (by simpa),
        hrest]

/-- A blank before the words makes no difference. -/
theorem words_cons (cs : List Char) : words (' ' :: cs) = words cs := by
  have hsplit : (' ' :: cs).splitOnP isBlank = [] :: cs.splitOnP isBlank :=
    @List.splitOnP_append_cons_of_forall_mem _ _ [] nofun ' ' rfl cs
  rw [words, hsplit, List.filter_cons_of_neg (by simp), words]

end PatternAutomata.Text
