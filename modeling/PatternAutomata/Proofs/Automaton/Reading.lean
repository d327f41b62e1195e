import PatternAutomata.Proofs.Automaton.Edges
import PatternAutomata.Proofs.Automaton.Rule

/-!
# The lines of a listing

What comes of reading some lines is composed from what comes of each. The line of an edge is a rule
unless its label breaks it. Then the first of its lines is a rule with less of the label.

## Main definitions

* `Automaton.Draft.Reads`, `Automaton.Draft.Fails` — what comes of reading some lines.
* `Automaton.edgeLines` — the lines that the line of an edge amounts to.

## Main statements

* `Automaton.Draft.reads_edge` — the lines of an edge with a readable label add an edge.
* `Automaton.Draft.fails_edge` — the lines of an edge with an illegible range are rejected.
-/
namespace PatternAutomata

namespace Automaton

variable {a : Automaton} {cs : List Char} {c : Char} {id source target line n : Nat}

namespace Draft

variable {d d' d'' : Draft} {ls ls' : List (List Char)}

/-- Reading the lines takes the draft `d` to `d'`, wherever they stand in a listing. -/
def Reads (d : Draft) (ls : List (List Char)) (d' : Draft) : Prop :=
  ∀ k, (ls.zipIdx k).foldlM read d = .ok d'

/-- The lines are rejected, wherever they stand in a listing. -/
def Fails (d : Draft) (ls : List (List Char)) : Prop :=
  ∀ k, ∃ err, (ls.zipIdx k).foldlM read d = .error err

theorem Reads.nil (d : Draft) : d.Reads [] d := fun _ => rfl

theorem Reads.cons (h : ∀ i, d.read (cs, i) = .ok d') (hrest : d'.Reads ls d'') :
    d.Reads (cs :: ls) d'' := fun k => by
  rw [List.zipIdx_cons, List.foldlM_cons, h]
  exact hrest (k + 1)

theorem Reads.append (h : d.Reads ls d') (h' : d'.Reads ls' d'') : d.Reads (ls ++ ls') d'' :=
  fun k => by
    rw [List.zipIdx_append, List.foldlM_append, h]
    exact h' _

theorem Fails.cons (h : ∀ i, ∃ err, d.read (cs, i) = .error err) : d.Fails (cs :: ls) :=
  fun k => by
    obtain ⟨err, herr⟩ := h k
    rw [List.zipIdx_cons, List.foldlM_cons, herr]
    exact ⟨err, rfl⟩

theorem Fails.append (h : d.Fails ls) : d.Fails (ls ++ ls') := fun k => by
  obtain ⟨err, herr⟩ := h k
  rw [List.zipIdx_append, List.foldlM_append, herr]
  exact ⟨err, rfl⟩

theorem Reads.fails (h : d.Reads ls d') (h' : d'.Fails ls') : d.Fails (ls ++ ls') := fun k => by
  rw [List.zipIdx_append, List.foldlM_append, h]
  exact h' _

theorem content_eq (h : Text.IsLine cs) : content cs = cs :=
  if_neg h.getLast?_ne

theorem read_comment (h : Text.IsLine ('#' :: cs)) (i : Nat) : d.read ('#' :: cs, i) = .ok d := by
  simp [read, content_eq h]

/-- A line is read for what it says unless it is blank or a comment. -/
theorem read_eq_readLine (h : Text.IsLine (c :: cs)) (hblank : Text.isBlank c = false)
    (hc : c ≠ '#') (i : Nat) : d.read (c :: cs, i) = d.readLine (i + 1) (c :: cs) := by
  simp [read, content_eq h, Text.trim_ne_nil hblank, hc]

/-- A line is a rule if it begins with none of the words that other lines begin with. -/
theorem readLine_eq_readRule (hc : c ∉ ['t', 's', 'f', 'r']) :
    readLine ⟨some a, true⟩ line (c :: cs) =
      (a.readRule line (c :: cs)).map fun a => ⟨some a, true⟩ := by
  simp only [List.mem_cons, List.not_mem_nil, or_false, not_or] at hc
  obtain ⟨ht, hs, hf, hr⟩ := hc
  have hother {d : Char} {ds : List Char} (hd : c ≠ d) :
      List.isPrefixOf? (d :: ds) (c :: cs) = none := by
    simp [List.isPrefixOf?, Ne.symm hd]
  have htype : List.isPrefixOf? "type:".toList (c :: cs) = none := hother ht
  have hstates : List.isPrefixOf? "states:".toList (c :: cs) = none := hother hs
  have hfinal : List.isPrefixOf? "final:".toList (c :: cs) = none := hother hf
  have hrules : "rules:".toList.isPrefixOf (c :: cs) = false := by
    simp [List.isPrefixOf, Ne.symm hr]
  rw [readLine]
  simp only [htype, hstates, hfinal, hrules, declared, Bool.false_eq_true, if_false, if_true, bind,
    Except.bind]
  cases a.readRule line (c :: cs) <;> rfl

/-- What follows a line feed in a range is no rule. -/
theorem fails_brokenRange (a : Automaton) (hi : Char) :
    Fails ⟨some a, true⟩ (Text.lines ['-', hi, '\n']) := by
  have hdash : ∀ i, ∃ err, read ⟨some a, true⟩ (['-'], i) = .error err := fun i => ⟨_, rfl⟩
  by_cases hfeed : hi = '\n'
  · subst hfeed
    exact .cons hdash
  by_cases hreturn : hi = '\r'
  · subst hreturn
    exact .cons hdash
  have hline : Text.IsLine ['-', hi] := ⟨by simp [Ne.symm hfeed], by simp [hreturn]⟩
  rw [show ['-', hi, '\n'] = ['-', hi] ++ ['\n'] from rfl, Text.lines_of_isLine hline]
  refine .cons fun i => ?_
  rw [read_eq_readLine hline rfl (by decide), readLine_eq_readRule (by decide)]
  by_cases harrow : hi = '>'
  · subst harrow
    exact ⟨_, rfl⟩
  · have hcut : cutAtArrow? ['-', hi] = none := by simp [cutAtArrow?, harrow]
    rw [readRule, hcut]
    exact ⟨_, rfl⟩

end Draft

theorem unbroken_toString (n : Nat) : Text.Unbroken (toString n).toList := fun c hc hbreak => by
  have hdigit := Text.isDigit_of_mem_toString hc
  simp only [List.mem_cons, List.not_mem_nil, or_false] at hbreak
  rcases hbreak with rfl | rfl <;> cases hdigit

/-! ### Edges -/

theorem unbroken_ruleText (h : Text.Unbroken cs) (source target : Nat) :
    Text.Unbroken (ruleText source target cs) := by
  have hblank : Text.Unbroken ([' '] ++ cs) := .append (by decide) h
  have harrow : Text.Unbroken (['-', '>'] ++ ((toString target).toList ++ ' ' :: cs)) :=
    .append (by decide) ((unbroken_toString target).append hblank)
  exact (unbroken_toString source).append harrow

theorem unbroken_ruleText_nil (source target : Nat) :
    Text.Unbroken (ruleText source target []) :=
  unbroken_ruleText (by decide) source target

theorem ruleText_append (source target : Nat) (cs ds : List Char) :
    ruleText source target (cs ++ ds) = ruleText source target cs ++ ds := by
  simp [ruleText]

theorem isLine_ruleText (h : Text.IsLine cs) (hne : cs ≠ []) (source target : Nat) :
    Text.IsLine (ruleText source target cs) := by
  rw [← List.nil_append cs, ruleText_append]
  exact .append (unbroken_ruleText_nil source target).isLine.not_mem h hne

/-- The lines that the line of an edge amounts to, which are more if its label breaks it. -/
def edgeLines (source : Nat) (e : Edge) : List (List Char) :=
  Text.lines ((edgeLine .plain source e).toList ++ ['\n'])

/-- The label of an edge may be cut in two anywhere. -/
theorem edgeLines_of_append {l : Label} {ds : List Char} (h : l.shown.toList = cs ++ ds)
    (source target : Nat) :
    edgeLines source ⟨l, target⟩ = Text.lines (ruleText source target cs ++ (ds ++ ['\n'])) := by
  rw [edgeLines, toList_edgeLine, h, ruleText_append, List.append_assoc]

theorem edgeLines_of_legible {l : Label} (h : l.Legible) (source target : Nat) :
    edgeLines source ⟨l, target⟩ = [ruleText source target l.shown.toList] := by
  rw [edgeLines, toList_edgeLine]
  exact Text.lines_of_isLine (isLine_ruleText h.isLine_shown h.shown_ne_nil ..)

namespace Draft

variable (hs : source < a.stateCount) (ht : target < a.stateCount) (hcount : a.stateCount ≤ 2 ^ 32)

include hs ht hcount

theorem read_ruleText (h : Text.IsLine (ruleText source target cs)) (i : Nat) :
    read ⟨some a, true⟩ (ruleText source target cs, i) =
      (if cs.isEmpty then .ok [.epsilon none]
        else readLabels (i + 1)
          (.malformed (i + 1) (String.ofList (ruleText source target cs))) cs).map
        fun labels =>
          ⟨some (labels.foldl (fun a label => a.addEdge source label target .last) a), true⟩ := by
  have hrule := readRule_ruleText hs ht hcount (i + 1) cs
  obtain ⟨c, cs', hsource⟩ := List.exists_cons_of_ne_nil (Text.toString_ne_nil source)
  have hc : isDigit c = true :=
    Text.isDigit_of_mem_toString (n := source) (hsource ▸ List.mem_cons_self)
  have hhash : c ≠ '#' := by
    rintro rfl
    cases hc
  have hword : c ∉ ['t', 's', 'f', 'r'] := by
    rintro hmem
    simp only [List.mem_cons, List.not_mem_nil, or_false] at hmem
    rcases hmem with rfl | rfl | rfl | rfl <;> cases hc
  have htext : ruleText source target cs =
      c :: (cs' ++ '-' :: '>' :: ((toString target).toList ++ ' ' :: cs)) := by
    rw [ruleText, hsource, List.cons_append]
  rw [htext] at h hrule ⊢
  rw [read_eq_readLine h (Text.isBlank_of_isDigit hc) hhash, readLine_eq_readRule hword, hrule]
  generalize (if cs.isEmpty then .ok [.epsilon none] else readLabels (i + 1) _ cs) = labels
  cases labels <;> rfl

/-- A rule without a label is an edge that consumes nothing. -/
theorem read_ruleText_nil (i : Nat) :
    read ⟨some a, true⟩ (ruleText source target [], i) =
      .ok ⟨some (a.addEdge source (.epsilon none) target .last), true⟩ := by
  rw [read_ruleText hs ht hcount (unbroken_ruleText_nil source target).isLine]
  rfl

theorem exists_error_of_ruleText (h : Text.IsLine (ruleText source target cs)) (hne : cs ≠ [])
    (herr : ∀ line malformed, ∃ err, readLabels line malformed cs = .error err) (i : Nat) :
    ∃ err, read ⟨some a, true⟩ (ruleText source target cs, i) = .error err := by
  obtain ⟨err, herr⟩ :=
    herr (i + 1) (.malformed (i + 1) (String.ofList (ruleText source target cs)))
  rw [read_ruleText hs ht hcount h, if_neg (by simpa using hne), herr]
  exact ⟨err, rfl⟩

/-- The lines of an edge with a readable label add an edge. -/
theorem reads_edge {l : Label} (h : l.Readable) :
    Reads ⟨some a, true⟩ (edgeLines source ⟨l, target⟩)
      ⟨some (a.addEdge source l.reread target .last), true⟩ := by
  by_cases hl : l.Legible
  · rw [edgeLines_of_legible hl, (Label.legible_iff.1 hl).2]
    refine .cons (fun i => ?_) (.nil _)
    rw [read_ruleText hs ht hcount (isLine_ruleText hl.isLine_shown hl.shown_ne_nil ..),
      if_neg (by simpa using hl.shown_ne_nil), hl.readLabels_shown]
    rfl
  · cases l with
    | char c =>
      have hc : c = '\n' ∨ c = '\r' := by simpa using Decidable.not_not.1 hl
      have hbare := (unbroken_ruleText_nil source target).isLine
      have hshown : (Label.char c).shown.toList = [] ++ [c] := Label.toList_shown_char c
      rw [edgeLines_of_append hshown, List.singleton_append]
      rcases hc with rfl | rfl
      · rw [Text.lines_feed, Text.lines_of_isLine hbare]
        exact .cons (read_ruleText_nil hs ht hcount) (.cons (fun _ => rfl) (.nil _))
      · rw [Text.lines_return hbare.not_mem]
        exact .cons (read_ruleText_nil hs ht hcount) (.nil _)
    | _ => exact absurd h hl

/-- The lines of an edge with an illegible range are rejected. -/
theorem fails_edge {lo hi : Char} (hl : ¬ (Label.range lo hi).Legible) :
    Fails ⟨some a, true⟩ (edgeLines source ⟨.range lo hi, target⟩) := by
  have hsplit (cs ds : List Char) (h : [lo, '-', hi] = cs ++ ds) :
      edgeLines source ⟨.range lo hi, target⟩ =
        Text.lines (ruleText source target cs ++ (ds ++ ['\n'])) :=
    edgeLines_of_append ((Label.toList_shown_range lo hi).trans h) source target
  by_cases hlo : lo = '\n'
  · subst hlo
    rw [hsplit [] ['\n', '-', hi] rfl, List.cons_append, Text.lines_feed,
      Text.lines_of_isLine (unbroken_ruleText_nil source target).isLine]
    exact Reads.fails (.cons (read_ruleText_nil hs ht hcount) (.nil _)) (fails_brokenRange _ hi)
  have hdash : Text.IsLine (ruleText source target [lo, '-']) :=
    isLine_ruleText ⟨by simp [Ne.symm hlo], by simp⟩ (by simp) ..
  have hfails : Fails ⟨some a, true⟩ [ruleText source target [lo, '-']] :=
    .cons (exists_error_of_ruleText hs ht hcount hdash (by simp) (Label.exists_error_of_dash lo))
  by_cases hfeed : hi = '\n'
  · subst hfeed
    rw [hsplit [lo, '-'] ['\n'] rfl, List.singleton_append, Text.lines_feed,
      Text.lines_of_isLine hdash]
    exact hfails.append
  by_cases hreturn : hi = '\r'
  · subst hreturn
    rw [hsplit [lo, '-'] ['\r'] rfl, List.singleton_append, Text.lines_return hdash.not_mem]
    exact hfails
  have hline : Text.IsLine (ruleText source target (Label.range lo hi).shown.toList) := by
    rw [Label.toList_shown_range]
    exact isLine_ruleText ⟨by simp [Ne.symm hlo, Ne.symm hfeed], by simp [hreturn]⟩ (by simp) ..
  rw [edgeLines, toList_edgeLine, Text.lines_of_isLine hline]
  exact .cons (exists_error_of_ruleText hs ht hcount hline (by simp)
    (Label.exists_error_of_range hl hlo (by simp [hfeed, hreturn])))

end Draft

/-! ### The lines before the rules -/

@[simp] theorem inDim_plain (text : String) : Palette.plain.inDim text = text := by
  simp [Palette.inDim, Palette.plain]

@[simp] theorem stateId_plain (id : Nat) : Palette.plain.stateId id = toString id := by
  simp [Palette.stateId, Palette.inBlue, Palette.plain]

theorem unbroken_group (g : Group) : Text.Unbroken g.shown.toList := by
  have hspan (s : GroupSpan) : Text.Unbroken s.shown.toList := by
    rw [GroupSpan.shown, String.toList_append, String.toList_append]
    exact .append (.append (unbroken_toString _) (by decide)) (unbroken_toString _)
  simp only [Group.shown, String.toList_append]
  refine .append (.append (.append (by decide) (unbroken_toString _)) (by decide)) ?_
  split
  · decide
  · rw [String.toList_intercalate, List.map_map]
    refine Text.unbroken_intercalate fun word hword => ?_
    obtain ⟨s, -, rfl⟩ := List.mem_map.1 hword
    exact hspan s

/-- The lines of flags and groups are comments. -/
theorem comment_of_mem {text : String}
    (h : text ∈ a.flagLines .plain ++ a.groups.map (Palette.plain.inDim ·.shown)) :
    Text.IsLine text.toList ∧ text.toList.head? = some '#' := by
  rcases List.mem_append.1 h with h | h
  · simp only [flagLines, inDim_plain] at h
    split at h
    · cases h
    · obtain rfl := List.mem_singleton.1 h
      generalize a.flags = flags
      rcases flags with ⟨_ | _, _ | _⟩ <;> exact ⟨Text.Unbroken.isLine (by decide), rfl⟩
  · obtain ⟨g, -, rfl⟩ := List.mem_map.1 h
    rw [inDim_plain]
    exact ⟨(unbroken_group g).isLine, by simp [Group.shown]⟩

/-- The final states as they are listed. -/
def finalsText (ids : List Nat) : List Char :=
  [' '].intercalate (ids.map fun id => (toString id).toList)

theorem unbroken_finalsText (ids : List Nat) : Text.Unbroken (finalsText ids) := by
  refine Text.unbroken_intercalate fun word hword => ?_
  obtain ⟨id, -, rfl⟩ := List.mem_map.1 hword
  exact unbroken_toString id

theorem toList_finals (ids : List Nat) :
    ("final: " ++ " ".intercalate (ids.map Palette.plain.stateId)).toList =
      "final: ".toList ++ finalsText ids := by
  rw [String.toList_append, String.toList_intercalate, List.map_map, finalsText]
  simp only [Function.comp_def, stateId_plain]
  rfl

theorem readFinals_finalsText {ids : List Nat}
    (h : ∀ id ∈ ids, id < a.stateCount ∧ id < 2 ^ 32) :
    a.readFinals line (' ' :: finalsText ids) = .ok (ids.foldl setFinal a) := by
  have hwords : Text.words (finalsText ids) = ids.map fun id => (toString id).toList := by
    refine Text.words_intercalate fun word hword => ?_
    obtain ⟨id, -, rfl⟩ := List.mem_map.1 hword
    exact ⟨Text.toString_ne_nil id, fun _ => isBlank_of_mem_toString⟩
  rw [readFinals, Text.words_cons, hwords, List.foldlM_map]
  clear hwords
  induction ids generalizing a with
  | nil => rfl
  | cons id ids ih =>
    obtain ⟨⟨hid, hword⟩, hids⟩ := List.forall_mem_cons.1 h
    rw [List.foldlM_cons, readState_toString hid hword]
    exact ih hids

namespace Draft

variable {d : Draft} {ls : List (List Char)}

theorem reads_comments (h : ∀ cs ∈ ls, Text.IsLine cs ∧ cs.head? = some '#') (d : Draft) :
    d.Reads ls d := by
  induction ls with
  | nil => exact .nil d
  | cons cs ls ih =>
    obtain ⟨⟨hline, hhead⟩, hls⟩ := List.forall_mem_cons.1 h
    obtain ⟨rest, rfl⟩ := List.head?_eq_some_iff.1 hhead
    exact .cons (read_comment hline) (ih hls)

theorem readCount_toString (hpos : 0 < n) (hroom : n ≤ maxStates) :
    readCount line (' ' :: (toString n).toList) = .ok (ofCount n {}) := by
  have hword : n < 0x1_0000_0000_0000_0000 := by
    unfold maxStates at hroom
    omega
  obtain ⟨m, rfl⟩ : ∃ m, n = m + 1 := ⟨n - 1, by omega⟩
  rw [readCount, Text.trim_cons, Text.trim_eq_self fun _ => isBlank_of_mem_toString,
    Text.unsigned?_toString hword]
  simp [ofCount?, hroom]

theorem read_states (hpos : 0 < n) (hroom : n ≤ maxStates) (i : Nat) :
    d.read ("states: ".toList ++ (toString n).toList, i) =
      .ok { automaton := some (ofCount n {}) } := by
  have hline : Text.Unbroken ("states: ".toList ++ (toString n).toList) :=
    .append (by decide) (unbroken_toString n)
  have hread : d.read ("states: ".toList ++ (toString n).toList, i) =
      d.readLine (i + 1) ("states: ".toList ++ (toString n).toList) :=
    read_eq_readLine hline.isLine rfl (by decide) i
  have htype : List.isPrefixOf? "type:".toList ("states: ".toList ++ (toString n).toList) = none :=
    rfl
  have hstates : List.isPrefixOf? "states:".toList ("states: ".toList ++ (toString n).toList) =
      some (' ' :: (toString n).toList) := rfl
  rw [hread, readLine]
  simp only [htype, hstates, readCount_toString hpos hroom]
  rfl

theorem read_finals {ids : List Nat} (h : ∀ id ∈ ids, id < a.stateCount ∧ id < 2 ^ 32)
    (hd : d.automaton = some a) (i : Nat) :
    d.read ("final: ".toList ++ finalsText ids, i) =
      .ok { automaton := some (ids.foldl setFinal a) } := by
  have hline : Text.Unbroken ("final: ".toList ++ finalsText ids) :=
    .append (by decide) (unbroken_finalsText ids)
  have hread : d.read ("final: ".toList ++ finalsText ids, i) =
      d.readLine (i + 1) ("final: ".toList ++ finalsText ids) :=
    read_eq_readLine hline.isLine rfl (by decide) i
  have htype : List.isPrefixOf? "type:".toList ("final: ".toList ++ finalsText ids) = none := rfl
  have hstates : List.isPrefixOf? "states:".toList ("final: ".toList ++ finalsText ids) = none :=
    rfl
  have hfinal : List.isPrefixOf? "final:".toList ("final: ".toList ++ finalsText ids) =
      some (' ' :: finalsText ids) := rfl
  rw [hread, readLine]
  simp only [htype, hstates, hfinal, declared, hd, bind, Except.bind, readFinals_finalsText h]
  rfl

theorem read_rules (hd : d.automaton = some a) (i : Nat) :
    d.read ("rules:".toList, i) = .ok { automaton := some a, inRules := true } := by
  obtain ⟨_, inRules⟩ := d
  cases hd
  rfl

end Draft

end Automaton

end PatternAutomata
