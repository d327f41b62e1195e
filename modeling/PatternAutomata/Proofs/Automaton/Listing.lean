import PatternAutomata.Pattern.Construction
import PatternAutomata.Pattern.Parser
import PatternAutomata.Proofs.Automaton.Dangling
import PatternAutomata.Proofs.Automaton.Reading

/-!
# Listings that are read back

A listing is read as an automaton with as many states, the same final ones, and the edges in the
same order, each with the label that its text is taken for. So nothing but a label can be read
wrongly.

## Main definitions

* `Automaton.addStates` — the automaton that the rules of a listing build up.
* `Automaton.reloaded` — what the listing of an automaton is read as.

## Main statements

* `Automaton.ofListing_listing` — a listing with readable labels is read.
* `Automaton.exists_error_of_ofListing` — a listing with an illegible range is rejected.
* `Automaton.listing_reloads_iff` — a listing without sets gives the automaton again just where all
  labels are legible.
-/
namespace PatternAutomata

namespace Automaton

variable {a : Automaton} {id source : Nat} {e : Edge}

/-! ### Edges that are added in the order of the listing -/

/-- The automaton with more edges of one state, behind the ones that are there. -/
def addEdges (a : Automaton) (source : Nat) (edges : List Edge) : Automaton :=
  edges.foldl (fun a e => a.addEdge source e.label e.target .last) a

@[simp] theorem stateCount_addEdges (a : Automaton) (source : Nat) (edges : List Edge) :
    (a.addEdges source edges).stateCount = a.stateCount := by
  induction edges generalizing a with
  | nil => rfl
  | cons e edges ih => exact (ih _).trans (stateCount_addEdge ..)

theorem edgesOf_addEdges {edges : List Edge} (h : source < a.stateCount) :
    (a.addEdges source edges).edgesOf id =
      if id = source then a.edgesOf id ++ edges else a.edgesOf id := by
  induction edges generalizing a with
  | nil => simp [addEdges]
  | cons e edges ih =>
    rw [addEdges, List.foldl_cons, ← addEdges, ih (by simpa using h), edgesOf_addEdge h]
    split <;> simp [insertEdge]

/-- The automaton with the edges of some states, the first of which has the index `k`. -/
def addStates (a : Automaton) (k : Nat) : List (List Edge) → Automaton
  | [] => a
  | edges :: states => (a.addEdges k edges).addStates (k + 1) states

@[simp] theorem stateCount_addStates (a : Automaton) (k : Nat) (states : List (List Edge)) :
    (a.addStates k states).stateCount = a.stateCount := by
  induction states generalizing a k with
  | nil => rfl
  | cons edges states ih => exact (ih _ _).trans (stateCount_addEdges ..)

theorem edgesOf_addStates {k : Nat} {states : List (List Edge)}
    (h : k + states.length ≤ a.stateCount) :
    (a.addStates k states).edgesOf id =
      a.edgesOf id ++ if k ≤ id then (states[id - k]?).getD [] else [] := by
  induction states generalizing a k with
  | nil => simp [addStates]
  | cons edges states ih =>
    rw [List.length_cons] at h
    rw [addStates, ih (by simp; omega), edgesOf_addEdges (by omega)]
    rcases Nat.lt_trichotomy id k with hlt | rfl | hgt
    · simp [hlt.ne, Nat.not_le.2 hlt, Nat.not_le.2 (hlt.trans (Nat.lt_succ_self k))]
    · simp
    · obtain ⟨i, rfl⟩ : ∃ i, id = k + 1 + i := ⟨id - (k + 1), by omega⟩
      have hsub : k + 1 + i - k = i + 1 := by omega
      have hne : k + 1 + i ≠ k := by omega
      have hle : k ≤ k + 1 + i := by omega
      simp only [hsub, hne, hle, if_false, if_true, Nat.le_add_right, Nat.add_sub_cancel_left,
        List.getElem?_cons_succ]

/-- Edges are all that is added. -/
theorem addStates_eq (a : Automaton) (k : Nat) (states : List (List Edge)) :
    a.addStates k states = { a with states := (a.addStates k states).states } := by
  have hedges (a : Automaton) (source : Nat) (edges : List Edge) :
      a.addEdges source edges = { a with states := (a.addEdges source edges).states } := by
    induction edges generalizing a with
    | nil => rfl
    | cons e edges ih => exact ih (a.addEdge source e.label e.target .last)
  induction states generalizing a k with
  | nil => rfl
  | cons edges states ih =>
    rw [addStates, ih, hedges]

/-- The edges of all states tell the states of automata apart. -/
theorem states_ext {b : Automaton} (hcount : a.stateCount = b.stateCount)
    (h : ∀ id, a.edgesOf id = b.edgesOf id) : a.states = b.states := by
  refine Array.ext hcount fun id ha hb => ?_
  have := h id
  simpa [edgesOf, edges?, ha, hb] using this

/-- States without edges get those of other states. -/
theorem addStates_replicate (states : Array (List Edge)) (finals : List Nat) :
    ({ states := .replicate states.size [], finals } : Automaton).addStates 0 states.toList =
      { states, finals } := by
  have hstates : (({ states := .replicate states.size [], finals } : Automaton).addStates 0
      states.toList).states = ({ states, finals } : Automaton).states := by
    refine states_ext ?_ fun id => ?_
    · rw [stateCount_addStates]
      simp [stateCount]
    · rw [edgesOf_addStates (by simp [stateCount])]
      simp only [edgesOf, edges?, Array.getElem?_replicate]
      split <;> simp
  rw [addStates_eq, hstates]

theorem foldl_setFinal (a : Automaton) (ids : List Nat) :
    ids.foldl setFinal a =
      { a with finals := ids.foldl (fun ids id => insertId id ids) a.finals } := by
  induction ids generalizing a with
  | nil => rfl
  | cons id ids ih => exact ih (a.setFinal id)

/-! ### The rules of a listing -/

/-- What an edge with a readable label is taken for. -/
def rereadEdge (e : Edge) : Edge :=
  ⟨e.label.reread, e.target⟩

/-- The lines of the edges, state by state, the first of which has the index `k`. -/
def stateLines (k : Nat) : List (List Edge) → List (List Char)
  | [] => []
  | edges :: states => edges.flatMap (edgeLines k) ++ stateLines (k + 1) states

namespace Draft

variable {edges : List Edge} {k : Nat} {states : List (List Edge)}

theorem reads_edges (hs : source < a.stateCount) (hcount : a.stateCount ≤ 2 ^ 32)
    (ht : ∀ e ∈ edges, e.target < a.stateCount) (h : ∀ e ∈ edges, e.label.Readable) :
    Reads ⟨some a, true⟩ (edges.flatMap (edgeLines source))
      ⟨some (a.addEdges source (edges.map rereadEdge)), true⟩ := by
  induction edges generalizing a with
  | nil => exact .nil _
  | cons e edges ih =>
    obtain ⟨hl, hedges⟩ := List.forall_mem_cons.1 h
    obtain ⟨ht, hts⟩ := List.forall_mem_cons.1 ht
    rw [List.flatMap_cons]
    exact (reads_edge hs ht hcount hl).append (ih (by simpa) (by simpa) (by simpa using hts) hedges)

theorem reads_states (hk : k + states.length ≤ a.stateCount) (hcount : a.stateCount ≤ 2 ^ 32)
    (ht : ∀ edges ∈ states, ∀ e ∈ edges, e.target < a.stateCount)
    (h : ∀ edges ∈ states, ∀ e ∈ edges, e.label.Readable) :
    Reads ⟨some a, true⟩ (stateLines k states)
      ⟨some (a.addStates k (states.map (·.map rereadEdge))), true⟩ := by
  induction states generalizing a k with
  | nil => exact .nil _
  | cons edges states ih =>
    obtain ⟨hedges, hstates⟩ := List.forall_mem_cons.1 h
    obtain ⟨ht, hts⟩ := List.forall_mem_cons.1 ht
    rw [List.length_cons] at hk
    rw [stateLines]
    exact (reads_edges (by omega) hcount ht hedges).append
      (ih (by simp; omega) (by simpa) (by simpa using hts) hstates)

theorem fails_edges (hs : source < a.stateCount) (hcount : a.stateCount ≤ 2 ^ 32)
    (ht : ∀ e ∈ edges, e.target < a.stateCount) (hset : ∀ e ∈ edges, ∀ s, e.label ≠ .set s)
    (h : ∃ e ∈ edges, ¬ e.label.Readable) :
    Fails ⟨some a, true⟩ (edges.flatMap (edgeLines source)) := by
  induction edges generalizing a with
  | nil => simp at h
  | cons e edges ih =>
    obtain ⟨ht, hts⟩ := List.forall_mem_cons.1 ht
    obtain ⟨hset, hsets⟩ := List.forall_mem_cons.1 hset
    rw [List.flatMap_cons]
    by_cases hl : e.label.Readable
    · have hrest : ∃ e ∈ edges, ¬ e.label.Readable := by simpa [hl] using h
      exact (reads_edge hs ht hcount hl).fails
        (ih (by simpa) (by simpa) (by simpa using hts) hsets hrest)
    · obtain ⟨label, target⟩ := e
      cases label with
      | range lo hi => exact (fails_edge hs ht hcount hl).append
      | set s => exact absurd rfl (hset s)
      | _ => exact absurd trivial hl

theorem fails_states (hk : k + states.length ≤ a.stateCount) (hcount : a.stateCount ≤ 2 ^ 32)
    (ht : ∀ edges ∈ states, ∀ e ∈ edges, e.target < a.stateCount)
    (hset : ∀ edges ∈ states, ∀ e ∈ edges, ∀ s, e.label ≠ .set s)
    (h : ∃ edges ∈ states, ∃ e ∈ edges, ¬ e.label.Readable) :
    Fails ⟨some a, true⟩ (stateLines k states) := by
  induction states generalizing a k with
  | nil => simp at h
  | cons edges states ih =>
    obtain ⟨ht, hts⟩ := List.forall_mem_cons.1 ht
    obtain ⟨hset, hsets⟩ := List.forall_mem_cons.1 hset
    rw [List.length_cons] at hk
    rw [stateLines]
    by_cases hl : ∀ e ∈ edges, e.label.Readable
    · have hrest : ∃ edges ∈ states, ∃ e ∈ edges, ¬ e.label.Readable := by
        obtain ⟨edges', hmem, e, he, hnot⟩ := h
        rcases List.mem_cons.1 hmem with rfl | hmem
        · exact absurd (hl e he) hnot
        · exact ⟨edges', hmem, e, he, hnot⟩
      exact (reads_edges (by omega) hcount ht hl).fails
        (ih (by simp; omega) (by simpa) (by simpa using hts) hsets hrest)
    · simp only [not_forall] at hl
      obtain ⟨e, he, hl⟩ := hl
      exact (fails_edges (by omega) hcount ht hset ⟨e, he, hl⟩).append

end Draft
/-! ### Listings -/

/-- The states of `a` without their edges, the final ones named. -/
def bare (a : Automaton) : Automaton :=
  { states := .replicate a.stateCount []
    finals := a.finals.foldl (fun ids id => insertId id ids) [] }

/-- What the listing of an automaton with readable labels is read as. -/
def reloaded (a : Automaton) : Automaton :=
  { a.bare with states := a.states.map (·.map rereadEdge) }

theorem isFinal_reloaded (a : Automaton) (id : Nat) : a.reloaded.isFinal id = a.isFinal id := by
  rw [Bool.eq_iff_iff]
  simp [isFinal, reloaded, bare, mem_foldl_insertId]

/-- The edges of a state stay what they are if their labels do. -/
theorem edges?_reloaded_eq_iff (a : Automaton) (id : Nat) :
    a.reloaded.edges? id = a.edges? id ↔ ∀ e ∈ a.edgesOf id, e.label.reread = e.label := by
  have hreloaded : a.reloaded.edges? id = (a.edges? id).map (·.map rereadEdge) := by
    simp [edges?, reloaded]
  have hedge (e : Edge) : rereadEdge e = e ↔ e.label.reread = e.label := by
    cases e
    simp [rereadEdge]
  rw [hreloaded, edgesOf]
  cases a.edges? id with
  | none => simp
  | some edges =>
    have hmap : edges.map rereadEdge = edges ↔ edges.map rereadEdge = edges.map fun e => e := by
      rw [List.map_id']
    rw [Option.map_some, Option.some_inj, Option.getD_some, hmap, List.map_inj_left]
    exact forall₂_congr fun e _ => hedge e

theorem stateCount_bare (a : Automaton) : a.bare.stateCount = a.stateCount := by
  simp [bare, stateCount]

theorem addStates_bare (a : Automaton) :
    a.bare.addStates 0 (a.states.toList.map (·.map rereadEdge)) = a.reloaded := by
  have := addStates_replicate (a.states.map (·.map rereadEdge)) a.bare.finals
  rwa [Array.size_map, Array.toList_map] at this

/-- The lines before the rules, which tell all but the edges. -/
def headLines (a : Automaton) : List String :=
  a.flagLines .plain ++ a.groups.map (Palette.plain.inDim ·.shown) ++
    ["states: " ++ toString a.stateCount,
      "final: " ++ " ".intercalate (a.finals.map Palette.plain.stateId),
      "rules:"]

theorem isLine_of_mem_headLines {text : String} (h : text ∈ a.headLines) :
    Text.IsLine text.toList := by
  rcases List.mem_append.1 h with h | h
  · exact (comment_of_mem h).1
  · simp only [List.mem_cons, List.not_mem_nil, or_false] at h
    rcases h with rfl | rfl | rfl
    · rw [String.toList_append]
      exact Text.Unbroken.isLine (.append (by decide) (unbroken_toString _))
    · rw [toList_finals]
      exact Text.Unbroken.isLine (.append (by decide) (unbroken_finalsText _))
    · exact Text.Unbroken.isLine (by decide)

theorem flatMap_ruleLines {k : Nat} {states : List (List Edge)} (hk : k + states.length ≤ 2 ^ 32) :
    (((states.zipIdx k).flatMap fun (edges, index) =>
      edges.map (edgeLine .plain (stateId index))).flatMap
        fun text => Text.lines (text.toList ++ ['\n'])) = stateLines k states := by
  induction states generalizing k with
  | nil => rfl
  | cons edges states ih =>
    rw [List.length_cons] at hk
    have hid : stateId k = k := Nat.mod_eq_of_lt (by omega)
    rw [List.zipIdx_cons, List.flatMap_cons, List.flatMap_append, ih (by omega), stateLines]
    simp only [hid, List.flatMap_map]
    rfl

/-- The lines of a listing, where those of an edge may be more than one. -/
theorem lines_listing (hcount : a.stateCount ≤ 2 ^ 32) :
    Text.lines (a.listing .plain).toList =
      a.headLines.map String.toList ++ stateLines 0 a.states.toList := by
  have htext : (a.listing .plain).toList =
      ((a.headLines ++ a.ruleLines .plain).map String.toList).flatMap (· ++ ['\n']) := by
    simp [listing, listingLines, headLines, String.toList_join, List.flatMap_map]
  have hhead : (a.headLines.map String.toList).flatMap (fun line => Text.lines (line ++ ['\n'])) =
      a.headLines.map String.toList := by
    rw [List.flatMap_congr fun line hline => ?_, List.flatMap_singleton']
    obtain ⟨text, hmem, rfl⟩ := List.mem_map.1 hline
    exact Text.lines_of_isLine (isLine_of_mem_headLines hmem)
  have hstates : 0 + a.states.toList.length ≤ 2 ^ 32 := by
    rw [Nat.zero_add, Array.length_toList]
    exact hcount
  rw [htext, Text.lines_flatMap, List.map_append, List.flatMap_append, hhead, List.flatMap_map]
  exact congrArg _ (flatMap_ruleLines hstates)

/-- The lines before the rules are read, whatever the labels are. -/
theorem reads_headLines (hpos : 0 < a.stateCount) (hcount : a.stateCount ≤ 2 ^ 32)
    (hfinals : ∀ id ∈ a.finals, id < a.stateCount ∧ id < 2 ^ 32) :
    Draft.Reads {} (a.headLines.map String.toList) ⟨some a.bare, true⟩ := by
  have hbare : a.finals.foldl setFinal (ofCount a.stateCount {}) = a.bare := by
    rw [foldl_setFinal, ofCount, Nat.max_eq_left hpos]
    rfl
  have hroom : a.stateCount ≤ maxStates := hcount.trans (by decide)
  have hsize : (ofCount a.stateCount {}).stateCount = a.stateCount := by
    rw [stateCount, ofCount, Array.size_replicate, Nat.max_eq_left hpos]
  rw [headLines, List.map_append]
  refine (Draft.reads_comments ?_ {}).append ?_
  · intro cs hcs
    obtain ⟨text, hmem, rfl⟩ := List.mem_map.1 hcs
    exact comment_of_mem hmem
  · rw [List.map_cons, List.map_cons, List.map_singleton, toList_finals, String.toList_append,
      ← hbare]
    exact .cons (Draft.read_states hpos hroom) (.cons (Draft.read_finals (by rwa [hsize]) rfl)
      (.cons (Draft.read_rules rfl) (.nil _)))

theorem exists_mem_edgesOf {edges : List Edge} (h : edges ∈ a.states.toList) (he : e ∈ edges) :
    ∃ id, e ∈ a.edgesOf id := by
  obtain ⟨id, hid⟩ := List.mem_iff_getElem?.1 h
  rw [Array.getElem?_toList] at hid
  exact ⟨id, by simpa [edgesOf, edges?, hid] using he⟩

theorem edgesOf_mem_states (he : e ∈ a.edgesOf id) : a.edgesOf id ∈ a.states.toList := by
  rw [edgesOf, edges?] at he ⊢
  cases hs : a.states[id]? with
  | none => simp [hs] at he
  | some edges => exact Array.mem_toList_iff.2 (Array.mem_of_getElem? hs)

theorem lt_of_mem_mentionedIds (hd : a.danglingIds = []) (h : id ∈ a.mentionedIds) :
    id < a.stateCount ∧ id < 2 ^ 32 := by
  have hlt : id < stateId a.stateCount := by
    have hnot : id ∉ a.danglingIds := by simp [hd]
    grind [mem_danglingIds]
  exact ⟨hlt.trans_le (Nat.mod_le _ _), hlt.trans (Nat.mod_lt _ (by decide))⟩

theorem length_states_le (a : Automaton) : 0 + a.states.toList.length ≤ a.bare.stateCount := by
  rw [stateCount_bare, Nat.zero_add, Array.length_toList]
  exact Nat.le_refl _

/-- A listing with readable labels is read where every final state and every target is a state. -/
theorem ofListing_listing_of_bounded (hpos : 0 < a.stateCount) (hcount : a.stateCount ≤ 2 ^ 32)
    (hfinals : ∀ id ∈ a.finals, id < a.stateCount) (hbounded : a.Bounded)
    (h : ∀ id, ∀ e ∈ a.edgesOf id, e.label.Readable) :
    ofListing (a.listing .plain) = .ok a.reloaded := by
  have hhead : Draft.Reads {} (a.headLines.map String.toList) ⟨some a.bare, true⟩ :=
    reads_headLines hpos hcount fun id hid => ⟨hfinals id hid, (hfinals id hid).trans_le hcount⟩
  have hstates : Draft.Reads ⟨some a.bare, true⟩ (stateLines 0 a.states.toList)
      ⟨some a.reloaded, true⟩ := by
    rw [← addStates_bare]
    refine Draft.reads_states a.length_states_le (stateCount_bare a ▸ hcount)
      (fun edges hedges e he => ?_) fun edges hedges e he => ?_
    · obtain ⟨id, hid⟩ := exists_mem_edgesOf hedges he
      rw [stateCount_bare]
      exact hbounded id e hid
    · obtain ⟨id, hid⟩ := exists_mem_edgesOf hedges he
      exact h id e hid
  rw [ofListing, lines_listing hcount, (hhead.append hstates) 0]
  rfl

section Reloading

variable (hpos : 0 < a.stateCount) (hcount : a.stateCount ≤ 2 ^ 32) (hd : a.danglingIds = [])

include hpos hcount hd

theorem reads_headLines_of_danglingIds :
    Draft.Reads {} (a.headLines.map String.toList) ⟨some a.bare, true⟩ :=
  reads_headLines hpos hcount fun _ hid =>
    lt_of_mem_mentionedIds hd (List.mem_append_left _ (List.mem_append_right _ hid))

omit hpos hcount in
theorem target_lt_of_danglingIds :
    ∀ edges ∈ a.states.toList, ∀ e ∈ edges, e.target < a.bare.stateCount :=
  fun edges hedges e he => by
    obtain ⟨id, hid⟩ := exists_mem_edgesOf hedges he
    rw [stateCount_bare]
    exact (lt_of_mem_mentionedIds hd (target_mem_mentionedIds hid)).1

/-- A listing with readable labels is read. -/
theorem ofListing_listing (h : ∀ id, ∀ e ∈ a.edgesOf id, e.label.Readable) :
    ofListing (a.listing .plain) = .ok a.reloaded :=
  ofListing_listing_of_bounded hpos hcount
    (fun _ hid =>
      (lt_of_mem_mentionedIds hd (List.mem_append_left _ (List.mem_append_right _ hid))).1)
    (fun _ _ he => (lt_of_mem_mentionedIds hd (target_mem_mentionedIds he)).1) h

/-- A listing with an illegible range is rejected. -/
theorem exists_error_of_ofListing (hset : ∀ id, ∀ e ∈ a.edgesOf id, ∀ s, e.label ≠ .set s)
    (h : ∃ id, ∃ e ∈ a.edgesOf id, ¬ e.label.Readable) :
    ∃ err, ofListing (a.listing .plain) = .error err := by
  have hstates : Draft.Fails ⟨some a.bare, true⟩ (stateLines 0 a.states.toList) := by
    refine Draft.fails_states a.length_states_le (stateCount_bare a ▸ hcount)
      (target_lt_of_danglingIds hd) (fun edges hedges e he => ?_) ?_
    · obtain ⟨id, hid⟩ := exists_mem_edgesOf hedges he
      exact hset id e hid
    · obtain ⟨id, e, he, hl⟩ := h
      exact ⟨a.edgesOf id, edgesOf_mem_states he, e, he, hl⟩
  obtain ⟨err, herr⟩ := (reads_headLines_of_danglingIds hpos hcount hd).fails hstates 0
  rw [ofListing, lines_listing hcount, herr]
  exact ⟨err, rfl⟩

/-- A listing without sets gives the final states and the edges of all states again, in the same
order, if all labels are legible, and only then. -/
theorem listing_reloads_iff (hset : ∀ id, ∀ e ∈ a.edgesOf id, ∀ s, e.label ≠ .set s) :
    (∃ b, ofListing (a.listing .plain) = .ok b ∧ (∀ id, b.isFinal id = a.isFinal id) ∧
      ∀ id, b.edges? id = a.edges? id) ↔ ∀ id, ∀ e ∈ a.edgesOf id, e.label.Legible := by
  by_cases hread : ∀ id, ∀ e ∈ a.edgesOf id, e.label.Readable
  · have hok := ofListing_listing hpos hcount hd hread
    have hsame : (∀ id, a.reloaded.edges? id = a.edges? id) ↔
        ∀ id, ∀ e ∈ a.edgesOf id, e.label.Legible := by
      refine forall_congr' fun id => (edges?_reloaded_eq_iff a id).trans ?_
      refine forall₂_congr fun e he => ?_
      rw [Label.legible_iff, and_iff_right (hread id e he)]
    constructor
    · rintro ⟨b, hb, -, hedges⟩
      obtain rfl := Except.ok.inj (hok.symm.trans hb)
      exact hsame.1 hedges
    · exact fun h => ⟨a.reloaded, hok, isFinal_reloaded a, hsame.2 h⟩
  · simp only [not_forall] at hread
    obtain ⟨id, e, he, hl⟩ := hread
    obtain ⟨err, herr⟩ := exists_error_of_ofListing hpos hcount hd hset ⟨id, e, he, hl⟩
    constructor
    · rintro ⟨b, hb, -⟩
      rw [herr] at hb
      cases hb
    · exact fun h => absurd (Label.legible_iff.1 (h id e he)).1 hl

end Reloading

/-- Labels that look like what parts the labels, rules and lines of a listing. -/
def barbed : Automaton where
  states := #[[⟨.char ' ', 1⟩, ⟨.char '#', 1⟩, ⟨.char '\\', 0⟩, ⟨.range '\r' '-', 1⟩],
    [⟨.epsilon (some .wordBoundary), 0⟩, ⟨.charClass .any, 1⟩, ⟨.range '-' '>', 1⟩]]
  finals := [1]
  groups := [⟨1, [⟨0, 1⟩]⟩]
  flags := { multiline := true }

theorem legible_barbed : ∀ id, ∀ e ∈ barbed.edgesOf id, e.label.Legible := fun id e he => by
  have hall : ∀ edges ∈ barbed.states.toList, ∀ e ∈ edges, e.label.Legible := by decide
  exact hall _ (edgesOf_mem_states he) e he

theorem listing_reloads_iff_barbed :
    barbed.danglingIds = [] ∧ ∃ b, ofListing (barbed.listing .plain) = .ok b ∧
      (∀ id, b.isFinal id = barbed.isFinal id) ∧ ∀ id, b.edges? id = barbed.edges? id := by
  have hset : ∀ id, ∀ e ∈ barbed.edgesOf id, ∀ s, e.label ≠ .set s := fun id e he s hs => by
    have hl := legible_barbed id e he
    rw [hs] at hl
    exact hl
  exact ⟨by decide,
    (listing_reloads_iff (by decide) (by decide) (by decide) hset).2 legible_barbed⟩

/-- The automaton of a pattern that is an escaped line feed. -/
def lineFeed : Automaton where
  states := #[[⟨.char '\n', 1⟩], []]
  finals := [1]

/-- The rule of a line feed is broken by it, and what is left of the rule consumes nothing. -/
theorem lineFeed_not_reloaded :
    (Pattern.parse "\\n" 256 = .ok (.char '\n') ∧ Pattern.build (.char '\n') {} = .ok lineFeed) ∧
      (0 < lineFeed.stateCount ∧ lineFeed.stateCount ≤ 2 ^ 32 ∧ lineFeed.danglingIds = [] ∧
        ∀ id, ∀ e ∈ lineFeed.edgesOf id, ∀ s, e.label ≠ .set s) ∧
      ¬ ∃ b, ofListing (lineFeed.listing .plain) = .ok b ∧
        (∀ id, b.isFinal id = lineFeed.isFinal id) ∧
        ∀ id, b.edges? id = lineFeed.edges? id := by
  have hlabel : ∀ id, ∀ e ∈ lineFeed.edgesOf id, e.label = .char '\n' := fun id e he => by
    have hall : ∀ edges ∈ lineFeed.states.toList, ∀ e ∈ edges, e.label = .char '\n' := by decide
    exact hall _ (edgesOf_mem_states he) e he
  have htokens : Token.ofSource "\\n" = [⟨.escape, 0, ['\\', 'n']⟩] := by decide +kernel
  have hparse : Pattern.parse "\\n" 256 = .ok (.char '\n') := by
    rw [Pattern.parse, htokens]
    rfl
  refine ⟨⟨hparse, by decide⟩, ⟨by decide, by decide, by decide, fun id e he s hs => ?_⟩, ?_⟩
  · rw [hlabel id e he] at hs
    cases hs
  · rintro ⟨b, hb, -, hedges⟩
    have hread : ofListing (lineFeed.listing .plain) = .ok lineFeed.reloaded :=
      ofListing_listing (by decide) (by decide) (by decide) fun id e he => by
        rw [hlabel id e he]
        trivial
    obtain rfl := Except.ok.inj (hread.symm.trans hb)
    have hreread := (edges?_reloaded_eq_iff lineFeed 0).1 (hedges 0) ⟨.char '\n', 1⟩ (by decide)
    exact absurd hreread (by decide)

end Automaton

end PatternAutomata
