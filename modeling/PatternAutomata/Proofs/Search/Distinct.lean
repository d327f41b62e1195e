import Mathlib.Data.List.Nodup
import Mathlib.Data.List.Perm.Subperm
import Mathlib.Data.List.ProdSigma
import PatternAutomata.Proofs.Region.Walk
import PatternAutomata.Proofs.Search.Limits
import PatternAutomata.Proofs.Text.Slice

/-!
# Searches that enter no visit twice

A search keeps no record of the visits that it enters along a consuming edge. In an automaton where
such an edge is the only one into its target, and the only one out of its source, that does no harm:
whoever enters the target again has been at the source again before. So all visits that have been
taken up or are pending differ, and the numbers of both are bounded by the number of visits.

## Main definitions

* `Automaton.SingleEntry` — consuming edges are alone where they begin and where they end.
* `Automaton.Apart` — what keeps the visits of a search apart.

## Main statements

* `Automaton.Arises.apart` — the visits that a search takes up and those still pending differ.
* `Automaton.Arises.length_le` — there are no more of them than states times offsets.
-/
namespace PatternAutomata

namespace Automaton

/-- No edge leads to state 0, and an edge that consumes is the only one to leave its source and the
only one to enter its target. -/
structure SingleEntry (a : Automaton) : Prop where
  target_pos : ∀ id, ∀ e ∈ a.edgesOf id, 0 < e.target
  edges_eq : ∀ id, ∀ e ∈ a.edgesOf id, e.label.isEpsilon = false → a.edgesOf id = [e]
  source_eq : ∀ id, ∀ e ∈ a.edgesOf id, e.label.isEpsilon = false →
    ∀ id', ∀ e' ∈ a.edgesOf id', e'.target = e.target → id' = id

/-- The visits that have been taken up, and those that are still to be. -/
def entered (taken : List Visit) (machine : Machine) : List Visit :=
  taken ++ machine.pending.map (·.last)

/-- The visits of a search differ. Each has been recorded, or has been entered along a consuming
edge, and those recorded lie where the search starts or behind an edge that consumes nothing. -/
structure Apart (a : Automaton) (text : String) (taken : List Visit) (machine : Machine) :
    Prop where
  nodup : (entered taken machine).Nodup
  entry : ∀ v ∈ entered taken machine, v ∈ machine.seen ∨
    ∃ u ∈ taken, ∃ e ∈ a.edgesOf u.state, e.label.isEpsilon = false ∧
      e.next? a.flags text u = some v
  origin : ∀ v ∈ machine.seen, v.state = 0 ∨
    ∃ id, ∃ e ∈ a.edgesOf id, e.label.isEpsilon = true ∧ e.target = v.state

variable {a : Automaton} {text : String} {start : Nat} {taken : List Visit} {machine : Machine}
  {p : Path} {rest : List Path}

/-- Only one visit leads along a consuming edge to a visit. -/
theorem SingleEntry.eq_of_next? (hs : a.SingleEntry) {e e' : Edge} {u u' w : Visit}
    (he : e ∈ a.edgesOf u.state) (hc : e.label.isEpsilon = false)
    (hw : e.next? a.flags text u = some w) (he' : e' ∈ a.edgesOf u'.state)
    (hw' : e'.next? a.flags text u' = some w) : u' = u := by
  obtain ⟨htarget, hpass⟩ := Edge.next?_eq_some_iff.1 hw
  obtain ⟨htarget', hpass'⟩ := Edge.next?_eq_some_iff.1 hw'
  have hstate := hs.source_eq _ e he hc _ e' he' (htarget'.symm.trans htarget)
  have hedge : e' = e := by
    rw [hstate, hs.edges_eq _ e he hc] at he'
    exact List.mem_singleton.1 he'
  subst hedge
  obtain ⟨c, hchar, -, hoffset⟩ := (Label.pass?_consuming hc).1 hpass
  obtain ⟨c', hchar', -, hoffset'⟩ := (Label.pass?_consuming hc).1 hpass'
  have hoffset := Text.charAt_unique hchar' hchar (hoffset'.symm.trans hoffset)
  cases u
  cases u'
  exact Visit.mk.injEq .. ▸ ⟨hstate, hoffset⟩

/-- A visit that is entered from the path taken up has not been entered before. -/
theorem Apart.not_mem_entered (h : a.Apart text taken machine) (hs : a.SingleEntry)
    (hp : machine.pending = p :: rest) {e : Edge} {w : Visit}
    (he : e ∈ a.edgesOf p.last.state) (hw : e.next? a.flags text p.last = some w)
    (hn : e.label.isEpsilon = true → w ∉ machine.seen) : w ∉ entered taken machine := by
  intro hmem
  have htarget := (Edge.next?_eq_some_iff.1 hw).1
  have hfresh : p.last ∉ taken := by
    intro htaken
    exact (List.nodup_append.1 h.nodup).2.2 _ htaken _ (by simp [hp]) rfl
  rcases h.entry w hmem with hseen | ⟨u, hu, e', he', hc', hw'⟩
  · cases hc : e.label.isEpsilon with
    | true => exact hn hc hseen
    | false =>
      have hpos := hs.target_pos _ e he
      rcases h.origin w hseen with hzero | ⟨id, e', he', hi', htarget'⟩
      · omega
      · rw [hs.source_eq _ e he hc id e' he' (htarget'.trans htarget), hs.edges_eq _ e he hc,
          List.mem_singleton] at he'
        simp [he', hc] at hi'
  · exact hfresh (hs.eq_of_next? he' hc' hw' he hw ▸ hu)

/-- Edges that consume nothing lead to visits that differ, and all are recorded. An edge adds a path
only for a visit that no edge further back has led to. -/
theorem nodup_foldr_explore (flags : Flags) (text : String) (p : Path) (machine : Machine)
    {edges : List Edge} (ht : ∀ e ∈ edges, e.target < machine.visited.size)
    (hi : ∀ e ∈ edges, e.label.isEpsilon = true) {front : List Path}
    (hfront : (edges.foldr (Machine.explore flags text p) machine).pending =
      front ++ machine.pending) :
    (front.map (·.last)).Nodup ∧
      ∀ q ∈ front, q.last ∈ (edges.foldr (Machine.explore flags text p) machine).seen := by
  induction edges generalizing front with
  | nil =>
    have : front = [] := by simpa using hfront
    simp [this]
  | cons e edges ih =>
    have ht' : ∀ e ∈ edges, e.target < machine.visited.size :=
      fun e he => ht e (List.mem_cons_of_mem _ he)
    have hi' : ∀ e ∈ edges, e.label.isEpsilon = true :=
      fun e he => hi e (List.mem_cons_of_mem _ he)
    obtain ⟨front', hfront', -⟩ := Machine.exists_pending_foldr flags text p machine edges ht'
    obtain ⟨hnodup, hseen⟩ := ih ht' hi' hfront'
    rw [List.foldr_cons] at hfront ⊢
    set next := edges.foldr (Machine.explore flags text p) machine with hnext
    have hmono {v : Visit} : v ∈ next.seen ∨ e.label.isEpsilon = true ∧
        e.next? flags text p.last = some v → v ∈ (next.explore flags text p e).seen :=
      (Machine.mem_seen_explore (by simpa [hnext] using ht e List.mem_cons_self)).2
    rcases Machine.explore_cases flags text p e next with h | ⟨w, hw, hn, h⟩
    · rw [h, hfront', List.append_cancel_right_eq] at hfront
      exact hfront ▸ ⟨hnodup, fun q hq => hmono (.inl (hseen q hq))⟩
    · have hcons : front = p.extend w :: front' := by
        rw [h, hfront', ← List.cons_append, List.append_cancel_right_eq] at hfront
        exact hfront.symm
      have he := hi e List.mem_cons_self
      rw [hcons, List.map_cons, List.nodup_cons, List.forall_mem_cons]
      refine ⟨⟨?_, hnodup⟩, hmono (.inr ⟨he, hw⟩), fun q hq => hmono (.inl (hseen q hq))⟩
      intro hmem
      obtain ⟨q, hq, hlast⟩ := List.mem_map.1 hmem
      exact hn he (by simpa [hlast] using hseen q hq)

/-- The visits that a turn enters differ: they are all recorded, or there is only one. -/
theorem SingleEntry.nodup_front (hs : a.SingleEntry) (hc : a.Closed) (hr : a.Ready machine)
    {front : List Path} (hfront : (a.afterTurn text machine p rest).pending = front ++ rest) :
    (front.map (·.last)).Nodup := by
  by_cases hi : ∀ e ∈ a.edgesOf p.last.state, e.label.isEpsilon = true
  · exact (nodup_foldr_explore a.flags text p (machine.takeUp rest)
      (hr.target_lt hc) hi hfront).1
  · obtain ⟨e, he, hi⟩ : ∃ e ∈ a.edgesOf p.last.state, e.label.isEpsilon = false := by
      simpa using hi
    rw [Automaton.afterTurn, hs.edges_eq _ e he hi] at hfront
    rcases Machine.explore_cases a.flags text p e (machine.takeUp rest) with h | ⟨w, -, -, h⟩
    · have hnil : front = [] := by
        rw [List.foldr_cons, List.foldr_nil, h] at hfront
        simpa [Machine.takeUp] using hfront
      rw [hnil]
      exact List.nodup_nil
    · have hone : front = [p.extend w] := by
        rw [List.foldr_cons, List.foldr_nil, h] at hfront
        have happend : [p.extend w] ++ rest = front ++ rest := hfront
        exact (List.append_cancel_right happend).symm
      rw [hone]
      exact List.nodup_singleton _

/-- A turn enters the visits of the paths that it puts in front of the others. -/
theorem entered_perm (taken : List Visit) {machine' : Machine} {front : List Path}
    (hp : machine.pending = p :: rest) (hfront : machine'.pending = front ++ rest) :
    (entered (p.last :: taken) machine').Perm
      (front.map (·.last) ++ entered taken machine) := by
  rw [entered, entered, hp, hfront, List.map_append, List.map_cons]
  exact (List.perm_append_comm_assoc ..).trans (List.perm_middle.symm.append_left _)

theorem apart_machineAt (hc : a.Closed) : a.Apart text [] (a.machineAt start) := by
  constructor
  case nodup => exact List.nodup_singleton _
  case entry =>
    intro v hv
    left
    rw [seen_machineAt hc]
    exact List.mem_singleton.1 hv
  case origin =>
    intro v hv
    left
    rw [seen_machineAt hc] at hv
    rw [Set.mem_singleton_iff.1 hv]

theorem Apart.afterTurn (h : a.Apart text taken machine) (hs : a.SingleEntry) (hc : a.Closed)
    (hr : a.Ready machine) (hp : machine.pending = p :: rest) :
    a.Apart text (p.last :: taken) (a.afterTurn text machine p rest) := by
  obtain ⟨front, hfront, hmem⟩ := pending_afterTurn text p rest hc hr
  have hperm := entered_perm taken hp hfront
  have hseen : (a.afterTurn text machine p rest).seen =
      machine.seen ∪ marks a.flags text (a.edgesOf p.last.state) p.last := seen_afterTurn hc hr
  constructor
  case nodup =>
    refine hperm.nodup_iff.2 (List.nodup_append.2 ⟨hs.nodup_front hc hr hfront, h.nodup, ?_⟩)
    intro v hv v' hv' heq
    obtain ⟨q, hq, rfl⟩ := List.mem_map.1 hv
    obtain ⟨e, he, w, rfl, hw, hn⟩ := hmem q hq
    rw [Path.last_extend] at heq
    exact h.not_mem_entered hs hp he hw hn (heq ▸ hv')
  case entry =>
    intro v hv
    rcases List.mem_append.1 (hperm.subset hv) with hv | hv
    · obtain ⟨q, hq, rfl⟩ := List.mem_map.1 hv
      obtain ⟨e, he, w, rfl, hw, -⟩ := hmem q hq
      cases hi : e.label.isEpsilon with
      | true => exact .inl (hseen ▸ .inr ⟨e, he, hi, hw⟩)
      | false => exact .inr ⟨p.last, List.mem_cons_self, e, he, hi, hw⟩
    · rcases h.entry v hv with hv | ⟨u, hu, hedge⟩
      · exact .inl (hseen ▸ .inl hv)
      · exact .inr ⟨u, List.mem_cons_of_mem _ hu, hedge⟩
  case origin =>
    intro v hv
    rw [hseen] at hv
    rcases hv with hv | ⟨e, he, hi, hw⟩
    · exact h.origin v hv
    · exact .inr ⟨p.last.state, e, he, hi, (Edge.next?_eq_some_iff.1 hw).1.symm⟩

/-- The visits that a search takes up and those still pending differ. -/
theorem Arises.apart (hs : a.SingleEntry) (hc : a.Closed)
    (h : a.Arises text start taken machine) : a.Apart text taken machine := by
  induction h with
  | init => exact apart_machineAt hc
  | turn h hp _ ih => exact ih.afterTurn hs hc (h.ready hc) hp

/-- A search enters states of the automaton, at or behind the offset where it starts. -/
theorem Arises.mem_entered (hc : a.Closed) (hstart : Text.IsBoundary text start)
    (h : a.Arises text start taken machine) :
    ∀ v ∈ entered taken machine,
      v.state < a.stateCount ∧ start ≤ v.offset ∧ Text.IsBoundary text v.offset := by
  induction h with
  | init =>
    intro v hv
    rw [List.mem_singleton.1 hv]
    exact ⟨hc.pos, le_rfl, hstart⟩
  | @turn taken machine p rest h hp _ ih =>
    intro v hv
    obtain ⟨front, hfront, hmem⟩ := pending_afterTurn text p rest hc (h.ready hc)
    rcases List.mem_append.1 ((entered_perm taken hp hfront).subset hv) with hv | hv
    · obtain ⟨q, hq, rfl⟩ := List.mem_map.1 hv
      obtain ⟨e, he, w, rfl, hw, -⟩ := hmem q hq
      obtain ⟨hstate, hpass⟩ := Edge.next?_eq_some_iff.1 hw
      obtain ⟨-, hle, hbound⟩ := ih p.last (by simp [entered, hp])
      exact ⟨hstate ▸ hc.target_lt _ e he, hle.trans (Label.le_of_pass? hpass),
        Label.isBoundary_of_pass? hbound hpass⟩
    · exact ih v hv

/-- There are no more visits than states times offsets. -/
theorem length_le_of_nodup {before after : String} {visits : List Visit} {count : Nat}
    (hnodup : visits.Nodup)
    (h : ∀ v ∈ visits, v.state < count ∧ before.utf8ByteSize ≤ v.offset ∧
      Text.IsBoundary (before ++ after) v.offset) :
    visits.length ≤ count * (after.length + 1) := by
  let visit (place : Nat × Nat) : Visit :=
    ⟨place.1, before.utf8ByteSize + (String.ofList (after.toList.take place.2)).utf8ByteSize⟩
  let places := List.range count ×ˢ List.range (after.length + 1)
  have hsubset : visits ⊆ places.map visit := by
    intro v hv
    obtain ⟨hstate, hle, hbound⟩ := h v hv
    obtain ⟨n, hn, hoffset⟩ := Text.exists_take hbound hle
    have hplace : (v.state, n) ∈ places :=
      List.mem_product.2 ⟨List.mem_range.2 hstate, List.mem_range.2 hn⟩
    have hvisit : visit (v.state, n) = v := by
      cases v
      exact Visit.mk.injEq .. ▸ ⟨rfl, hoffset.symm⟩
    exact List.mem_map.2 ⟨_, hplace, hvisit⟩
  calc
    visits.length ≤ (places.map visit).length := (hnodup.subperm hsubset).length_le
    _ = count * (after.length + 1) := by
      rw [List.length_map, List.length_product, List.length_range, List.length_range]

/-- A search makes no more visits, those still pending included, than there are states times
offsets from its start on. -/
theorem Arises.length_le {before after : String} (hs : a.SingleEntry) (hc : a.Closed)
    (h : a.Arises (before ++ after) before.utf8ByteSize taken machine) :
    taken.length + machine.pending.length ≤ a.stateCount * (after.length + 1) := by
  have hstart : Text.IsBoundary (before ++ after) before.utf8ByteSize :=
    Text.isBoundary_iff.2 ⟨before, after, rfl, rfl⟩
  simpa [entered] using length_le_of_nodup (h.apart hs hc).nodup (h.mem_entered hc hstart)

end Automaton

end PatternAutomata
