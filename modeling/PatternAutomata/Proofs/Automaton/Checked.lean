import PatternAutomata.Proofs.Automaton.RuleLines
import PatternAutomata.Proofs.Pattern.Tokens
import PatternAutomata.Proofs.Pattern.Trim
import PatternAutomata.Proofs.Search.Scanning

/-!
# Reading listings with checks

Where it reads a listing, the loader takes for granted that the places at which it cuts the labels of
a rule lie between characters, that a rule leads from a state that there is, and that there is room
for all states that are declared. Here this is checked, and a check that fails is a panic. Only the
room for states is ever missing. An automaton that is read is safe to run: no search of it comes to
a state that there is not.

## Main definitions

* `Checked.Panic` — the checks that may fail.
* `Checked.addLabels` — the labels of a rule, cut out of it by byte offsets.
* `Checked.load` — the automaton of a listing.
* `Checked.Overruns` — more states are declared than there is room for.

## Main statements

* `Checked.load_eq` — the checks apart, a listing is read as before.
* `Checked.load_safe` — when a check fails, and what can be said of an automaton that is read.
-/
namespace PatternAutomata

open Automaton (Draft cutAtArrow? cutAtBlank readLabels)

namespace Checked

/-- What the loader takes for granted and does not find. -/
inductive Panic where
  /-- A text was to be cut at places that are not boundaries of it, or in the wrong order. -/
  | badSlice
  /-- An edge was to leave a state that there is not. -/
  | missingState (id : Nat)
  /-- There is no room for so many states. -/
  | noRoom (count : Nat)
  /-- A round of a loop has taken nothing. -/
  | stuck
  deriving DecidableEq, Repr

inductive Failure where
  | rejected (e : ListingError)
  | panic (p : Panic)
  deriving DecidableEq, Repr

/-- What an error comes to. -/
def Failure.ofError : ListingError → Failure
  | .tooManyStates _ count => .panic (.noRoom count)
  | e => .rejected e

/-- The part of a text from one offset to another. -/
def slice (text : String) (start stop : Nat) : Except Failure String :=
  match Text.slice? text start stop with
  | some part => .ok part
  | none => .error (.panic .badSlice)

/-- The offset of the first blank. -/
def findBlank? (text : String) : Option Nat :=
  if ' ' ∈ text.toList then some (Text.byteLength (cutAtBlank text.toList).1) else none

def addEdge (a : Automaton) (source : Nat) (label : Label) (target : Nat) :
    Except Failure Automaton :=
  match a.addEdge? source label target .last with
  | some a => .ok a
  | none => .error (.panic (.missingState source))

/-- The number of bytes of the first label. A blank in front is a label, and has to be followed by a
parting blank or by nothing. -/
def labelLength (malformed : ListingError) (rest : String) : Except Failure Nat :=
  match findBlank? rest with
  | some 0 =>
    if 1 < rest.utf8ByteSize then do
      let behind ← slice rest 1 rest.utf8ByteSize
      if behind.toList.head? = some ' ' then .ok 1 else .error (.rejected malformed)
    else .ok 1
  | some length => .ok length
  | none => .ok rest.utf8ByteSize

section

variable (line : Nat) (malformed : ListingError) (source target : Nat)

/-- Adds an edge for each label. -/
def addLabels (a : Automaton) (rest : String) : Except Failure Automaton :=
  if rest = "" then .ok a
  else do
    let length ← labelLength malformed rest
    let text ← slice rest 0 length
    match Label.ofText? text.toList with
    | none => .error (.rejected (.unknownLabel line text))
    | some label =>
      let a ← addEdge a source label target
      let behind ← slice rest (min (length + 1) rest.utf8ByteSize) rest.utf8ByteSize
      if _h : behind.utf8ByteSize < rest.utf8ByteSize then addLabels a behind
      else .error (.panic .stuck)
termination_by rest.utf8ByteSize

end

/-- Adds the edges of one rule. -/
def readRule (a : Automaton) (line : Nat) (content : List Char) : Except Failure Automaton :=
  let malformed := .malformed line (String.ofList content)
  match cutAtArrow? content with
  | none => .error (.rejected malformed)
  | some (source, rest) => do
    let (target, labels) := cutAtBlank rest
    if source.isEmpty || target.isEmpty then .error (.rejected malformed)
    let source ← (a.readState line source).mapError .rejected
    let target ← (a.readState line target).mapError .rejected
    if labels.isEmpty then addEdge a source (.epsilon none) target
    else addLabels line malformed source target a (String.ofList labels)

/-- Reads a `states:` line. -/
def readCount (line : Nat) (rest : List Char) : Except Failure Automaton :=
  match Draft.countOf? rest with
  | some (count + 1) =>
    match Automaton.ofCount? (count + 1) {} with
    | some a => .ok a
    | none => .error (.panic (.noRoom (count + 1)))
  | _ => .error (.rejected (.invalidStateCount line (String.ofList (Text.trim rest))))

/-- Reads any line. Only `states:` lines and rules have something to check. -/
def read (d : Draft) (line : List Char × Nat) : Except Failure Draft :=
  match Draft.statesText? line.1 with
  | some rest => do return { automaton := some (← readCount (line.2 + 1) rest) }
  | none =>
    if Draft.isRule line.1 && d.inRules then do
      let a ← (d.declared (line.2 + 1)).mapError .rejected
      return { automaton := some (← readRule a (line.2 + 1) (Draft.content line.1)), inRules := true }
    else (d.read line).mapError .rejected

/-- Reads a listing. -/
def load (text : String) : Except Failure Automaton := do
  let d ← (Text.lines text.toList).zipIdx.foldlM read {}
  match d.automaton with
  | none => .error (.rejected .noStates)
  | some a => .ok a

/-! ### The labels of a rule -/

variable {a : Automaton} {cs word rest : List Char} {line source target : Nat}
  {malformed : ListingError}

theorem slice_ofList (before part after : List Char) :
    slice (String.ofList (before ++ (part ++ after))) (Text.byteLength before)
      (Text.byteLength (before ++ part)) = .ok (String.ofList part) := by
  have hslice : Text.slice? (String.ofList (before ++ (part ++ after))) (Text.byteLength before)
      (Text.byteLength (before ++ part)) = some (String.ofList part) := by
    refine Text.slice?_eq_some_iff.2 ⟨String.ofList before, String.ofList after, ?_, ?_, ?_⟩
    · rw [String.ofList_append, String.ofList_append]
    · rw [Text.byteLength_eq]
    · rw [Text.byteLength_eq, String.ofList_append]
  rw [slice, hslice]

theorem addEdge_eq (h : source < a.stateCount) (label : Label) (target : Nat) :
    addEdge a source label target = .ok (a.addEdge source label target .last) := by
  simp [addEdge, Automaton.addEdge?, Automaton.hasState, h]

theorem byteLength_pos (h : cs ≠ []) : 0 < Text.byteLength cs := by
  obtain ⟨c, cs, rfl⟩ := List.exists_cons_of_ne_nil h
  exact Nat.add_pos_left c.utf8Size_pos _

theorem labelLength_blank (malformed : ListingError) (cs : List Char) :
    labelLength malformed (String.ofList (' ' :: cs)) =
      if cs = [] ∨ cs.head? = some ' ' then .ok 1 else .error (.rejected malformed) := by
  have hfind : findBlank? (String.ofList (' ' :: cs)) = some 0 := by
    rw [findBlank?, String.toList_ofList, if_pos List.mem_cons_self]
    rfl
  have hsize : (String.ofList (' ' :: cs)).utf8ByteSize = 1 + Text.byteLength cs := by
    rw [← Text.byteLength_eq]
    rfl
  have hslice : slice (String.ofList (' ' :: cs)) 1 (1 + Text.byteLength cs) =
      .ok (String.ofList cs) := by
    have hslice := slice_ofList [' '] cs []
    rwa [List.append_nil] at hslice
  unfold labelLength
  simp only [hfind, hsize, hslice]
  by_cases hcs : cs = []
  · subst hcs
    rfl
  · have hpos := byteLength_pos hcs
    rw [if_pos (by omega)]
    simp [hcs, bind, Except.bind]

/-- A label that begins with no blank ends before the first blank. -/
theorem labelLength_of_ne {c : Char} (hc : c ≠ ' ') (malformed : ListingError) (cs : List Char) :
    labelLength malformed (String.ofList (c :: cs)) =
      .ok (Text.byteLength (c :: (cutAtBlank cs).1)) := by
  have hpos : 0 < Text.byteLength (c :: (cutAtBlank cs).1) := byteLength_pos (by simp)
  unfold labelLength findBlank?
  rw [String.toList_ofList, Automaton.cutAtBlank_cons hc]
  by_cases hmem : ' ' ∈ c :: cs
  · rw [if_pos hmem]
    split
    · rename_i hzero
      exact absurd (Option.some.inj hzero) hpos.ne'
    · rename_i hlength
      rw [← Option.some.inj hlength]
    · rename_i hnone
      cases hnone
  · rw [if_neg hmem]
    rw [List.mem_cons, not_or] at hmem
    rw [Automaton.cutAtBlank_of_not_mem hmem.2, Text.byteLength_eq]

/-- What one round of the loop does, once it is known where the first label ends. -/
theorem addLabels_append (line target : Nat) (hne : word ≠ []) (hrest : rest = [] ∨ rest.head? = some ' ')
    (hlength : labelLength malformed (String.ofList (word ++ rest)) = .ok (Text.byteLength word))
    (hs : source < a.stateCount) :
    addLabels line malformed source target a (String.ofList (word ++ rest)) =
      match Label.ofText? word with
      | none => .error (.rejected (.unknownLabel line (String.ofList word)))
      | some label => addLabels line malformed source target (a.addEdge source label target .last)
          (String.ofList (rest.drop 1)) := by
  have hnonempty : String.ofList (word ++ rest) ≠ "" := by simp [hne]
  have htext : slice (String.ofList (word ++ rest)) 0 (Text.byteLength word) =
      .ok (String.ofList word) := slice_ofList [] word rest
  have hbehind : slice (String.ofList (word ++ rest))
      (min (Text.byteLength word + 1) (String.ofList (word ++ rest)).utf8ByteSize)
      (String.ofList (word ++ rest)).utf8ByteSize = .ok (String.ofList (rest.drop 1)) := by
    have hmin : min (Text.byteLength word + 1) (String.ofList (word ++ rest)).utf8ByteSize =
        Text.byteLength (word ++ rest.take 1) := by
      rw [← Text.byteLength_eq, Text.byteLength_append, Text.byteLength_append]
      rcases hrest with rfl | hrest
      · exact min_eq_right (Nat.le_succ _)
      · obtain ⟨more, rfl⟩ := List.head?_eq_some_iff.1 hrest
        have hblank : Text.byteLength (' ' :: more) = 1 + Text.byteLength more := rfl
        have hone : Text.byteLength ((' ' :: more).take 1) = 1 := rfl
        omega
    have hslice := slice_ofList (word ++ rest.take 1) (rest.drop 1) []
    rw [List.append_nil, List.append_assoc, List.take_append_drop] at hslice
    rw [hmin, ← Text.byteLength_eq]
    exact hslice
  have hless : (String.ofList (rest.drop 1)).utf8ByteSize <
      (String.ofList (word ++ rest)).utf8ByteSize := by
    have hsplit : Text.byteLength rest =
        Text.byteLength (rest.take 1) + Text.byteLength (rest.drop 1) := by
      rw [← Text.byteLength_append, List.take_append_drop]
    have hpos := byteLength_pos hne
    rw [← Text.byteLength_eq, ← Text.byteLength_eq, Text.byteLength_append]
    omega
  rw [addLabels, if_neg hnonempty, hlength]
  simp only [bind, Except.bind, htext, String.toList_ofList]
  cases Label.ofText? word with
  | none => rfl
  | some label => simp only [addEdge_eq hs, hbehind, dif_pos hless]

/-- One round where the label in front begins with no blank. -/
theorem addLabels_of_ne {c : Char} (hc : c ≠ ' ') (hs : source < a.stateCount) :
    addLabels line malformed source target a (String.ofList (c :: cs)) =
      match Label.ofText? (c :: (cutAtBlank cs).1) with
      | none => .error (.rejected (.unknownLabel line (String.ofList (c :: (cutAtBlank cs).1))))
      | some label => addLabels line malformed source target (a.addEdge source label target .last)
          (String.ofList (cutAtBlank cs).2) := by
  obtain ⟨tail, htail, hdrop, hsplit⟩ : ∃ tail, (tail = [] ∨ tail.head? = some ' ') ∧
      tail.drop 1 = (cutAtBlank cs).2 ∧ c :: cs = (c :: (cutAtBlank cs).1) ++ tail := by
    obtain ⟨hword, hnil⟩ | hsplit := Automaton.cutAtBlank_cases cs
    · exact ⟨[], .inl rfl, hnil.symm, by rw [List.append_nil, ← hword]⟩
    · exact ⟨' ' :: (cutAtBlank cs).2, .inr rfl, rfl, congrArg (c :: ·) hsplit⟩
  have hlength := labelLength_of_ne hc malformed cs
  rw [hsplit] at hlength ⊢
  rw [addLabels_append line target (by simp) htail hlength hs, hdrop]

theorem addLabels_nil (line : Nat) (malformed : ListingError) (source target : Nat)
    (a : Automaton) : addLabels line malformed source target a (String.ofList []) = .ok a := by
  rw [addLabels]
  rfl

/-- The labels of a rule are added as they are read, and no check fails. -/
theorem addLabels_eq (hs : source < a.stateCount) :
    addLabels line malformed source target a (String.ofList cs) =
      ((readLabels line malformed cs).mapError .rejected).map fun labels =>
        a.addEdges source (labels.map (⟨·, target⟩)) := by
  fun_induction readLabels line malformed cs generalizing a with
  | case1 => exact addLabels_nil ..
  | case2 =>
    have hround := addLabels_append line target (List.cons_ne_nil ' ' []) (.inl rfl)
      (labelLength_blank malformed []) hs
    exact hround.trans (addLabels_nil ..)
  | case3 rest ih =>
    have hround := addLabels_append line target (List.cons_ne_nil ' ' []) (.inr rfl)
      (labelLength_blank malformed (' ' :: rest)) hs
    have ih := @ih (a.addEdge source (.char ' ') target .last) (by simpa using hs)
    refine hround.trans (ih.trans ?_)
    cases readLabels line malformed rest <;> rfl
  | case4 c rest hpair =>
    have hc : c ≠ ' ' := fun hc => hpair hc
    have hlength := labelLength_blank malformed (c :: rest)
    rw [if_neg (by simp [hc])] at hlength
    rw [addLabels, if_neg (by simp), hlength]
    rfl
  | case5 c rest hlast hpair hother htext =>
    have hc : c ≠ ' ' := Label.ne_blank_of_cases hlast hother
    rw [addLabels_of_ne hc hs, htext]
    rfl
  | case6 c rest hlast hpair hother label htext ih =>
    have hc : c ≠ ' ' := Label.ne_blank_of_cases hlast hother
    have ih := @ih (a.addEdge source label target .last) (by simpa using hs)
    rw [addLabels_of_ne hc hs, htext]
    refine ih.trans ?_
    cases readLabels line malformed (cutAtBlank rest).2 <;> rfl

/-! ### Errors -/

/-- The errors that are no lack of room. -/
def Rejects (e : ListingError) : Prop :=
  Failure.ofError e = .rejected e

variable {α β : Type} {id : Nat} {e : ListingError} {d : Draft} {content : List Char}

theorem mapError_bind (x : Except ListingError α) (f : α → Except ListingError β)
    (g : ListingError → Failure) :
    (x >>= f).mapError g = x.mapError g >>= fun a => (f a).mapError g := by
  cases x <;> rfl

/-- Where all errors are such, they all come to rejections. -/
theorem mapError_eq {x : Except ListingError α} (h : ∀ e, x = .error e → Rejects e) :
    x.mapError .rejected = x.mapError Failure.ofError := by
  cases x with
  | ok a => rfl
  | error e => exact congrArg Except.error (h e rfl).symm

theorem rejects_of_readState {token : List Char} (h : a.readState line token = .error e) :
    Rejects e := by
  unfold Automaton.readState at h
  split at h
  · obtain rfl := Except.error.inj h
    rfl
  · split at h
    · cases h
    · obtain rfl := Except.error.inj h
      rfl

theorem rejects_of_readLabels {text : String}
    (h : readLabels line (.malformed line text) cs = .error e) : Rejects e := by
  fun_induction readLabels line (.malformed line text) cs with
  | case1 | case2 => cases h
  | case3 rest ih =>
    obtain h | ⟨_, -, h⟩ := error_of_bind_eq_error h
    · exact ih h
    · cases h
  | case4 | case5 =>
    obtain rfl := Except.error.inj h
    rfl
  | case6 c rest _ _ _ label _ ih =>
    obtain h | ⟨_, -, h⟩ := error_of_bind_eq_error h
    · exact ih h
    · cases h

theorem rejects_of_readFinals {rest : List Char} (h : a.readFinals line rest = .error e) :
    Rejects e := by
  unfold Automaton.readFinals at h
  generalize Text.words rest = tokens at h
  induction tokens generalizing a with
  | nil => cases h
  | cons token tokens ih =>
    rw [List.foldlM_cons] at h
    obtain h | ⟨_, -, h⟩ := error_of_bind_eq_error h
    · obtain h | ⟨_, -, h⟩ := error_of_bind_eq_error h
      · exact rejects_of_readState h
      · cases h
    · exact ih h

theorem rejects_of_declared (h : d.declared line = .error e) : Rejects e := by
  unfold Automaton.Draft.declared at h
  split at h
  · obtain rfl := Except.error.inj h
    rfl
  · cases h

theorem rejects_of_readRule (h : a.readRule line content = .error e) : Rejects e := by
  cases hcut : cutAtArrow? content with
  | none =>
    rw [Automaton.readRule, hcut] at h
    obtain rfl := Except.error.inj h
    rfl
  | some cut =>
    obtain ⟨before, rest⟩ := cut
    cases hempty : before.isEmpty || (cutAtBlank rest).1.isEmpty with
    | true =>
      obtain rfl := Except.error.inj ((Automaton.readRule_of_isEmpty a line hcut hempty).symm.trans h)
      rfl
    | false =>
      rw [Automaton.readRule_of_cut a line hcut hempty] at h
      obtain h | ⟨_, -, h⟩ := error_of_bind_eq_error h
      · exact rejects_of_readState h
      obtain h | ⟨_, -, h⟩ := error_of_bind_eq_error h
      · exact rejects_of_readState h
      obtain h | ⟨_, -, h⟩ := error_of_bind_eq_error h
      · split at h
        · cases h
        · exact rejects_of_readLabels h
      · cases h

/-- A line gives rise to a lack of room only if it begins with `states:`. -/
theorem rejects_of_read {text : List Char} {index : Nat} (hline : Draft.statesText? text = none)
    (h : d.read (text, index) = .error e) : Rejects e := by
  unfold Automaton.Draft.read at h
  dsimp only at h
  split at h
  · cases h
  unfold Automaton.Draft.readLine at h
  split at h
  · dsimp only at h
    split at h
    · cases h
    · obtain rfl := Except.error.inj h
      rfl
  split at h
  · rename_i hstates
    cases hline.symm.trans hstates
  split at h
  · obtain h | ⟨_, -, h⟩ := error_of_bind_eq_error h
    · exact rejects_of_declared h
    obtain h | ⟨_, -, h⟩ := error_of_bind_eq_error h
    · exact rejects_of_readFinals h
    · cases h
  split at h
  · obtain h | ⟨_, -, h⟩ := error_of_bind_eq_error h
    · exact rejects_of_declared h
    · cases h
  split at h
  · obtain h | ⟨_, -, h⟩ := error_of_bind_eq_error h
    · exact rejects_of_declared h
    obtain h | ⟨_, -, h⟩ := error_of_bind_eq_error h
    · exact rejects_of_readRule h
    · cases h
  · obtain rfl := Except.error.inj h
    rfl

/-! ### The loader with its checks -/

theorem readRule_eq (a : Automaton) (line : Nat) (content : List Char) :
    readRule a line content = (a.readRule line content).mapError .rejected := by
  cases hcut : cutAtArrow? content with
  | none => simp only [readRule, Automaton.readRule, hcut]; rfl
  | some cut =>
    obtain ⟨before, rest⟩ := cut
    cases hempty : before.isEmpty || (cutAtBlank rest).1.isEmpty with
    | true =>
      rw [Automaton.readRule_of_isEmpty a line hcut hempty]
      simp only [readRule, hcut, hempty]
      rfl
    | false =>
      rw [Automaton.readRule_of_cut a line hcut hempty]
      simp only [readRule, hcut, hempty, Bool.false_eq_true, if_false]
      cases hs : a.readState line before with
      | error e => rfl
      | ok source =>
        have hlt := Automaton.lt_of_readState hs
        cases ht : a.readState line (cutAtBlank rest).1 with
        | error e => rfl
        | ok target =>
          simp only [Except.mapError, bind, Except.bind, addEdge_eq hlt, addLabels_eq hlt]
          split
          · rfl
          · cases readLabels line (.malformed line (String.ofList content)) (cutAtBlank rest).2 <;> rfl

theorem readCount_eq (line : Nat) (rest : List Char) :
    readCount line rest = (Draft.readCount line rest).mapError Failure.ofError := by
  unfold readCount Draft.readCount Draft.countOf?
  cases Text.unsigned? 0x1_0000_0000_0000_0000 (Text.trim rest) with
  | none => rfl
  | some count =>
    cases count with
    | zero => rfl
    | succ count =>
      dsimp only
      cases Automaton.ofCount? (count + 1) {} <;> rfl

theorem read_of_statesText? {text rest : List Char} (h : Draft.statesText? text = some rest)
    (d : Draft) (i : Nat) :
    d.read (text, i) = Draft.readCount (i + 1) rest >>= fun a => .ok { automaton := some a } := by
  have hcontent := List.append_eq_of_isPrefixOf?_eq_some h
  have hcons : Draft.content text = 's' :: ("tates:".toList ++ rest) := hcontent.symm
  have htype : List.isPrefixOf? "type:".toList (Draft.content text) = none := by
    rw [hcons]
    rfl
  have hstates : List.isPrefixOf? "states:".toList (Draft.content text) = some rest := h
  have hshown : ((Text.trim (Draft.content text)).isEmpty ||
      (Draft.content text).head? = some '#') = false := by
    rw [hcons]
    simp [Text.trim_ne_nil (c := 's') rfl]
  unfold Automaton.Draft.read Automaton.Draft.readLine
  simp only [hshown, htype, hstates, Bool.false_eq_true, if_false]
  rfl

/-- The checks apart, a line is read as before. -/
theorem read_eq (d : Draft) (line : List Char × Nat) :
    read d line = (d.read line).mapError Failure.ofError := by
  obtain ⟨text, index⟩ := line
  unfold read
  cases hline : Draft.statesText? text with
  | some rest =>
    dsimp only
    rw [readCount_eq, read_of_statesText? hline, mapError_bind]
    rfl
  | none =>
    dsimp only
    rw [← mapError_eq fun e => rejects_of_read hline]
    split
    · rename_i hrule
      obtain ⟨hrule, hin⟩ := Bool.and_eq_true_iff.1 hrule
      rw [Draft.read_of_isRule d hrule, if_pos hin, mapError_bind]
      congr 1
      funext a
      rw [mapError_bind, readRule_eq]
      rfl
    · rfl

theorem foldlM_read_eq (ls : List (List Char × Nat)) (d : Draft) :
    ls.foldlM read d = (ls.foldlM Draft.read d).mapError Failure.ofError := by
  induction ls generalizing d with
  | nil => rfl
  | cons line ls ih =>
    rw [List.foldlM_cons, List.foldlM_cons, mapError_bind, read_eq]
    congr 1
    funext d
    exact ih d

/-- The checks apart, a listing is read as before. -/
theorem load_eq (text : String) :
    load text = (Automaton.ofListing text).mapError Failure.ofError := by
  unfold load Automaton.ofListing
  rw [mapError_bind, foldlM_read_eq]
  congr 1
  funext d
  cases d.automaton <;> rfl

/-! ### Lack of room -/

/-- A line that is come to declares `count` states, for which there is no room. -/
def Overruns (text : String) (count : Nat) : Prop :=
  ∃ before line more d rest, Text.lines text.toList = before ++ line :: more ∧
    before.zipIdx.foldlM Draft.read {} = .ok d ∧ Draft.statesText? line = some rest ∧
    Draft.countOf? rest = some count ∧ Automaton.maxStates < count

/-- Where lines are not read, it is because one of them is not. -/
theorem foldlM_read_eq_error_iff {ls : List (List Char)} {k : Nat} :
    (ls.zipIdx k).foldlM Draft.read d = .error e ↔
      ∃ before line more d', ls = before ++ line :: more ∧
        (before.zipIdx k).foldlM Draft.read d = .ok d' ∧
        d'.read (line, k + before.length) = .error e := by
  constructor
  · intro h
    induction ls generalizing d k with
    | nil => cases h
    | cons line ls ih =>
      rw [List.zipIdx_cons, List.foldlM_cons] at h
      obtain h | ⟨d₁, hd₁, h⟩ := error_of_bind_eq_error h
      · exact ⟨[], line, ls, d, rfl, rfl, h⟩
      · obtain ⟨before, line', more, d', rfl, hbefore, herr⟩ := ih h
        refine ⟨line :: before, line', more, d', rfl, ?_, ?_⟩
        · rw [List.zipIdx_cons, List.foldlM_cons, hd₁]
          exact hbefore
        · rwa [List.length_cons, Nat.add_comm before.length 1, ← Nat.add_assoc]
  · rintro ⟨before, line, more, d', rfl, hbefore, herr⟩
    rw [List.zipIdx_append, List.foldlM_append, hbefore]
    change ((line :: more).zipIdx (k + before.length)).foldlM Draft.read d' = _
    rw [List.zipIdx_cons, List.foldlM_cons, herr]
    rfl

theorem readCount_eq_tooManyStates_iff {line' count : Nat} :
    Draft.readCount line cs = .error (.tooManyStates line' count) ↔
      line' = line ∧ Draft.countOf? cs = some count ∧ Automaton.maxStates < count := by
  unfold Draft.readCount Draft.countOf?
  cases Text.unsigned? 0x1_0000_0000_0000_0000 (Text.trim cs) with
  | none => simp
  | some n =>
    cases n with
    | zero =>
      simp only [reduceCtorEq, Except.error.injEq, Option.some.injEq, false_iff]
      rintro ⟨-, rfl, hlt⟩
      cases hlt
    | succ n =>
      simp only [Automaton.ofCount?]
      by_cases hle : n + 1 ≤ Automaton.maxStates
      · simp only [hle, if_true, reduceCtorEq, Option.some.injEq, false_iff]
        rintro ⟨-, rfl, hlt⟩
        omega
      · simp only [hle, if_false, Except.error.injEq, ListingError.tooManyStates.injEq,
          Option.some.injEq]
        constructor
        · rintro ⟨rfl, rfl⟩
          exact ⟨rfl, rfl, Nat.not_le.1 hle⟩
        · rintro ⟨rfl, rfl, -⟩
          exact ⟨rfl, rfl⟩

theorem read_eq_tooManyStates_iff {text : List Char} {index line' count : Nat} :
    d.read (text, index) = .error (.tooManyStates line' count) ↔ line' = index + 1 ∧
      ∃ rest, Draft.statesText? text = some rest ∧ Draft.countOf? rest = some count ∧
        Automaton.maxStates < count := by
  cases hline : Draft.statesText? text with
  | none =>
    refine ⟨fun h => ?_, fun ⟨_, rest, hrest, _⟩ => nomatch hrest⟩
    cases rejects_of_read hline h
  | some rest =>
    rw [read_of_statesText? hline]
    have hbind : (Draft.readCount (index + 1) rest >>= fun a => .ok { automaton := some a }) =
        (.error (.tooManyStates line' count) : Except ListingError Draft) ↔
          Draft.readCount (index + 1) rest = .error (.tooManyStates line' count) := by
      cases Draft.readCount (index + 1) rest <;> simp [bind, Except.bind]
    rw [hbind, readCount_eq_tooManyStates_iff]
    simp

theorem ofListing_eq_tooManyStates_iff {text : String} {count : Nat} :
    (∃ line, Automaton.ofListing text = .error (.tooManyStates line count)) ↔
      Overruns text count := by
  have hfold (line : Nat) : Automaton.ofListing text = .error (.tooManyStates line count) ↔
      (Text.lines text.toList).zipIdx.foldlM Draft.read {} =
        .error (.tooManyStates line count) := by
    unfold Automaton.ofListing
    cases (Text.lines text.toList).zipIdx.foldlM Draft.read {} with
    | error e => constructor <;> exact fun h => congrArg Except.error (Except.error.inj h)
    | ok d =>
      refine ⟨fun h => ?_, nofun⟩
      obtain ⟨_ | a, inRules⟩ := d <;> cases h
  simp only [hfold, foldlM_read_eq_error_iff, read_eq_tooManyStates_iff]
  constructor
  · rintro ⟨_, before, line, more, d, hlines, hbefore, -, rest, hrest⟩
    exact ⟨before, line, more, d, rest, hlines, hbefore, hrest⟩
  · rintro ⟨before, line, more, d, rest, hlines, hbefore, hrest⟩
    exact ⟨_, before, line, more, d, hlines, hbefore, rfl, rest, hrest⟩

/-! ### Automata that are read -/

end Checked

namespace Automaton

theorem Loaded.closed {a : Automaton} (h : a.Loaded) : a.Closed :=
  ⟨h.pos, h.bounded⟩

theorem Loaded.lt_of_mem_mentionedIds {a : Automaton} (h : a.Loaded) :
    ∀ id ∈ a.mentionedIds, id < a.stateCount := by
  intro id hid
  simp only [mentionedIds, h.groups_eq, List.flatMap_nil, List.append_nil] at hid
  rcases List.mem_append.1 hid with hid | hid
  · obtain ⟨edges, hedges, hid⟩ := List.mem_flatMap.1 hid
    obtain ⟨e, he, rfl⟩ := List.mem_map.1 hid
    obtain ⟨source, hsource⟩ := exists_mem_edgesOf hedges he
    exact h.bounded source e hsource
  · exact h.lt_of_mem_finals id hid

/-- No search comes to a state that there is not, whatever the limits and the place where it
begins. -/
structure Runs (a : Automaton) : Prop where
  exec_ne : ∀ limits text start id,
    Matcher.exec ⟨a, limits⟩ text start ≠ .error (.missingState id)
  findAt_ne : ∀ limits text start id,
    Matcher.findAt ⟨a, limits⟩ text start ≠ .error (.missingState id)

theorem Closed.runs {a : Automaton} (hc : a.Closed) : a.Runs := by
  have hexec (limits : Limits) (text : String) (start id : Nat) :
      Matcher.exec ⟨a, limits⟩ text start ≠ .error (.missingState id) := by
    intro h
    obtain ⟨pops, peak, hexceeded⟩ := Matcher.exceeded_of_exec (m := ⟨a, limits⟩) hc h
    cases hexceeded
  refine ⟨hexec, fun limits text start id h => ?_⟩
  obtain ⟨fault, o, hfault, ho⟩ | ⟨hnone, -⟩ | ⟨r, hsome, -⟩ :=
    Matcher.findAt_cases (m := ⟨a, limits⟩) hc text start
  · obtain rfl := Except.error.inj (hfault.symm.trans h)
    exact hexec limits text o id ho
  · cases hnone.symm.trans h
  · cases hsome.symm.trans h

end Automaton

namespace Checked

/-- The only check that fails is that for room, and it fails just where a `states:` line that is come
to declares more states than there is room for. Any other text is rejected or read, whatever its
characters are. An automaton that is read has as many states as the last `states:` line declares,
one at least. If that number is a 32-bit word, nothing dangles, and in any case no search comes to a
state that there is not. -/
theorem load_safe (text : String) :
    (∀ p, load text = .error (.panic p) ↔ ∃ count, p = .noRoom count ∧ Overruns text count) ∧
      ∀ a, load text = .ok a →
        ∃ n, Automaton.declaredCount? text = some n ∧ a.stateCount = n ∧ 0 < n ∧
          (n < 2 ^ 32 → a.danglingIds = []) ∧ a.Runs := by
  constructor
  · intro p
    simp only [← ofListing_eq_tooManyStates_iff]
    rw [load_eq]
    cases Automaton.ofListing text with
    | ok a => simp [Except.mapError]
    | error e => cases e <;> simp [Except.mapError, Failure.ofError, eq_comm]
  · intro a h
    have hread : Automaton.ofListing text = .ok a := by
      rw [load_eq] at h
      cases hread : Automaton.ofListing text with
      | ok b =>
        rw [hread] at h
        exact congrArg Except.ok (Except.ok.inj h)
      | error e =>
        rw [hread] at h
        cases h
    have hloaded := Automaton.loaded_of_ofListing hread
    exact ⟨a.stateCount, Automaton.declaredCount?_eq hread, rfl, hloaded.pos,
      fun hn => Automaton.danglingIds_eq_nil hn hloaded.lt_of_mem_mentionedIds,
      hloaded.closed.runs⟩

/-- States that are declared twice, with ids before and after that only one of the declarations
allows, and a label of characters of several bytes. -/
def redeclared : String :=
  "type: nfa\nstates: 5\nfinal: 4\nrules:\n4->3 é\nfinal: 0\nstates: 2\n# 4\nrules:\n" ++
    "1->0   é-日 \\b\ntype: nfa\nfinal: 1  0"

theorem load_safe_redeclared :
    ∃ a, load redeclared = .ok a ∧ a.edges? 1 =
        some [⟨.char ' ', 0⟩, ⟨.range 'é' '日', 0⟩, ⟨.epsilon (some .wordBoundary), 0⟩] ∧
      a.stateCount = 2 ∧ a.danglingIds = [] ∧ a.Runs := by
  have hread : Automaton.ofListing redeclared =
      .ok ⟨#[[], [⟨.char ' ', 0⟩, ⟨.range 'é' '日', 0⟩, ⟨.epsilon (some .wordBoundary), 0⟩]], [0, 1],
        [], {}⟩ := by
    decide +kernel
  have hload := load_eq redeclared
  rw [hread] at hload
  obtain ⟨n, -, hcount, -, hdangling, hruns⟩ := (load_safe redeclared).2 _ hload
  obtain rfl : 2 = n := hcount
  exact ⟨_, hload, rfl, rfl, hdangling (by decide), hruns⟩

/-- States for which no array is large enough, though their number is a word of 64 bits. -/
def oversized : String :=
  "states: 18446744073709551615"

/-- So a text need neither be rejected nor read. -/
theorem oversized_not_loaded :
    ¬∀ text, (∃ e, load text = .error (.rejected e)) ∨ ∃ a, load text = .ok a := by
  intro h
  have hload : load oversized = .error (.panic (.noRoom 18446744073709551615)) := by
    rw [load_eq]
    decide +kernel
  obtain ⟨e, he⟩ | ⟨a, ha⟩ := h oversized
  · cases hload.symm.trans he
  · cases hload.symm.trans ha

end Checked

end PatternAutomata
