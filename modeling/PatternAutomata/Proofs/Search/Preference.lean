import Mathlib.Data.Set.Card
import PatternAutomata.Proofs.Search.Lead

/-!
# The preferred run

If the edges that leave a state without consuming lead to different states, there is a guided run
wherever anything accepts outside the marked visits. Nothing else is found, so a statement about
guided runs is one about searches. Marks that no accepting run comes upon make no difference to a
guided run, and an accepting run that leaves it must enter what the guided run has marked.

## Main definitions

* `Automaton.Clear` — a run enters nothing of a set of visits, as far as it consumes nothing.
* `Automaton.Parted` — edges that consume nothing lead to different states, and one that consumes
  is alone.

## Main statements

* `Automaton.exists_guided` — where anything accepts there is a guided run.
* `Automaton.Guided.widen_of_clear` — marks that make no difference.
* `Automaton.Guided.exists_mem_of_leaves`, `Automaton.Guided.last_mem_of_leaves` — how a guided run
  is left.
-/
namespace PatternAutomata.Automaton

/-- The visits `run` that follow `v` are not in `seen`, but for those that are entered by
consuming. -/
def Clear (seen : Set Visit) : Visit → List Visit → Prop
  | _, [] => True
  | v, w :: run => (w.offset = v.offset → w ∉ seen) ∧ Clear seen w run

/-- Either one edge leaves a state, or all of them are free and lead to different states. -/
def Parted (a : Automaton) : Prop :=
  ∀ id, (∃ e, a.edgesOf id = [e]) ∨ ∃ ids : List Nat, ids.Nodup ∧ a.edgesOf id = ids.map .free

variable {a : Automaton} {text : String} {seen seen' : Set Visit} {u v w : Visit}
  {run run' : List Visit} {e : Edge} {edges before after : List Edge}

namespace Clear

theorem of_notMem (h : ∀ w ∈ run, w ∉ seen) : Clear seen v run := by
  induction run generalizing v with
  | nil => trivial
  | cons w run ih =>
    obtain ⟨hw, hrun⟩ := List.forall_mem_cons.1 h
    exact ⟨fun _ => hw, ih hrun⟩

theorem union (h : Clear seen v run) (h' : Clear seen' v run) : Clear (seen ∪ seen') v run := by
  induction run generalizing v with
  | nil => trivial
  | cons w run ih =>
    refine ⟨fun hoffset hmem => ?_, ih h.2 h'.2⟩
    exact hmem.elim (h.1 hoffset) (h'.1 hoffset)

theorem mono (h : Clear seen' v run) (hs : seen ⊆ seen') : Clear seen v run := by
  induction run generalizing v with
  | nil => trivial
  | cons w run ih => exact ⟨fun hoffset hmem => h.1 hoffset (hs hmem), ih h.2⟩

theorem of_append (h : Clear seen v (run ++ run')) : Clear seen (run.getLastD v) run' := by
  induction run generalizing v with
  | nil => exact h
  | cons w run ih =>
    rw [List.getLastD_cons]
    exact ih h.2

end Clear

theorem isEpsilon_iff_of_next? (hw : e.next? a.flags text v = some w) :
    e.label.isEpsilon = true ↔ w.offset = v.offset := by
  refine ⟨fun hi => Edge.offset_eq_of_next? hi hw, fun hoffset => ?_⟩
  by_contra hi
  have := (Edge.offset_lt_of_next? (Bool.eq_false_iff.2 hi) hw).1
  omega

theorem acceptsOutside_iff :
    a.AcceptsOutside text seen v ↔ ∃ run, a.Accepting text v run ∧ Clear seen v run := by
  constructor
  · intro h
    induction h with
    | final hf => exact ⟨[], .final hf, trivial⟩
    | step e he hw hn _ ih =>
      obtain ⟨run, hrun, hclear⟩ := ih
      exact ⟨_, .step ⟨e, he, hw⟩ hrun, fun hoffset => hn ((isEpsilon_iff_of_next? hw).2 hoffset),
        hclear⟩
  · rintro ⟨run, hrun, hclear⟩
    induction hrun with
    | final hf => exact .final hf
    | step hs _ ih =>
      obtain ⟨e, he, hw⟩ := hs
      exact .step e he hw (fun hi => hclear.1 ((isEpsilon_iff_of_next? hw).1 hi)) (ih hclear.2)

/-- What is marked for the visit itself does not keep it from accepting. -/
theorem AcceptsOutside.insert_self (h : a.AcceptsOutside text seen v) :
    a.AcceptsOutside text (insert v seen) v := by
  rcases h.widen (insert v seen) with h | ⟨w, hw, hn, h⟩
  · exact h
  · rcases hw with rfl | hw
    · exact h
    · exact absurd hw hn

theorem Guided.accepting (h : a.Guided text seen v run) : a.Accepting text v run := by
  induction h with
  | final hf => exact .final hf
  | step _ hsplit hw _ _ _ ih =>
    exact .step ⟨_, hsplit ▸ List.mem_append_right _ List.mem_cons_self, hw⟩ ih

/-- Marks that no accepting run comes upon do not disturb a guided run. -/
theorem Guided.widen_of_clear (h : a.Guided text seen v run) (hs : seen ⊆ seen')
    (hclear : ∀ run', a.Accepting text v run' → Clear seen v run' → Clear seen' v run') :
    a.Guided text seen' v run := by
  induction h generalizing seen' with
  | final hf => exact .final hf
  | @step seen v w run before after e hf hsplit hw hn hpre hrun ih =>
    have he : e ∈ a.edgesOf v.state := hsplit ▸ List.mem_append_right _ List.mem_cons_self
    have hback {run' : List Visit} (hacc : a.Accepting text w run') (hc : Clear seen w run') :
        Clear seen' v (w :: run') :=
      hclear _ (.step ⟨e, he, hw⟩ hacc)
        ⟨fun hoffset => (hn ((isEpsilon_iff_of_next? hw).2 hoffset)).1, hc⟩
    refine .step hf hsplit hw (fun hi => ⟨?_, (hn hi).2⟩) (fun f hfm u hu => ?_) (ih ?_ ?_)
    · obtain ⟨run', hacc, hc⟩ := acceptsOutside_iff.1 hrun.acceptsOutside
      exact (hback hacc (hc.mono Set.subset_union_left)).1 (Edge.offset_eq_of_next? hi hw)
    · rcases hpre f hfm u hu with ⟨hi, hm⟩ | hdead
      · exact .inl ⟨hi, hs hm⟩
      · exact .inr fun h => hdead (h.mono (Set.union_subset_union_left _ hs))
    · exact Set.union_subset_union_left _ hs
    · intro run' hacc hc
      exact (hback hacc (hc.mono Set.subset_union_left)).2.union
        (hc.mono Set.subset_union_right)

section Choice

/-- The edge is taken before those in `after`: it leads to something that accepts and is not
marked, even when the targets of all these edges are. -/
def Taken (a : Automaton) (text : String) (seen : Set Visit) (v : Visit) (e : Edge)
    (after : List Edge) (w : Visit) : Prop :=
  e.next? a.flags text v = some w ∧ (e.label.isEpsilon = true → w ∉ seen) ∧
    a.AcceptsOutside text (seen ∪ marks a.flags text (e :: after) v) w

theorem marks_mono (flags : Flags) (text : String) (v : Visit) (h : edges ⊆ after) :
    marks flags text edges v ⊆ marks flags text after v := by
  rintro w ⟨e, he, hw⟩
  exact ⟨e, h he, hw⟩

/-- If something accepts behind an edge, and not when the edges of a list count as marked, then
something accepts behind one of these even so. -/
theorem exists_of_not_taken (h : a.AcceptsOutside text seen' u) (hs : seen ⊆ seen')
    (hnot : ¬a.AcceptsOutside text (seen ∪ marks a.flags text edges v) u) :
    ∃ g ∈ edges, ∃ w ∉ seen', g.label.isEpsilon = true ∧ g.next? a.flags text v = some w ∧
      a.AcceptsOutside text (seen ∪ marks a.flags text edges v) w := by
  rcases h.widen (seen ∪ marks a.flags text edges v) with h | ⟨w, hw, hn, h⟩
  · exact absurd h hnot
  · obtain ⟨g, hg, hi, hnext⟩ := hw.resolve_left fun hm => hn (hs hm)
    exact ⟨g, hg, w, hn, hi, hnext, h⟩

/-- Of edges behind which something accepts, one is the first to be taken: nothing accepts behind
those before it. The induction is on the edges from the last to the first, as a search pushes
them: what accepts behind an edge that is not taken accepts behind a later one as well. -/
theorem exists_taken (hexists : ∃ e ∈ edges, ∃ w, e.next? a.flags text v = some w ∧
      (e.label.isEpsilon = true → w ∉ seen) ∧ a.AcceptsOutside text seen w) :
    ∃ before e after w, edges = before ++ e :: after ∧ a.Taken text seen v e after w ∧
      ∀ f ∈ before, ∀ u, f.next? a.flags text v = some u →
        f.label.isEpsilon = true ∧ u ∈ seen ∨
          ¬a.AcceptsOutside text (seen ∪ marks a.flags text (e :: after) v) u := by
  induction edges with
  | nil =>
    obtain ⟨e, he, -⟩ := hexists
    cases he
  | cons f edges ih =>
    by_cases hf : ∃ w, a.Taken text seen v f edges w
    · obtain ⟨w, hw⟩ := hf
      exact ⟨[], f, edges, w, rfl, hw, nofun⟩
    have hlater {seen' : Set Visit} {u : Visit} (hs : seen ⊆ seen')
        (hu : f.next? a.flags text v = some u) (hn : f.label.isEpsilon = true → u ∉ seen)
        (hacc : a.AcceptsOutside text seen' u) :
        ∃ g ∈ edges, ∃ w ∉ seen', g.label.isEpsilon = true ∧ g.next? a.flags text v = some w ∧
          a.AcceptsOutside text (seen ∪ marks a.flags text (f :: edges) v) w := by
      obtain ⟨g, hg, w, hw, hi, hnext, hacc⟩ :=
        exists_of_not_taken hacc hs fun h => hf ⟨u, hu, hn, h⟩
      rcases List.mem_cons.1 hg with rfl | hg
      · exact absurd ⟨w, hnext, fun _ hm => hw (hs hm), hacc⟩ hf
      · exact ⟨g, hg, w, hw, hi, hnext, hacc⟩
    obtain ⟨before, e, after, w, rfl, htaken, hbefore⟩ := ih (by
      obtain ⟨e, he, w, hnext, hn, hacc⟩ := hexists
      rcases List.mem_cons.1 he with rfl | he
      · obtain ⟨g, hg, w', hw', -, hnext', hacc'⟩ := hlater subset_rfl hnext hn hacc
        exact ⟨g, hg, w', hnext', fun _ => hw', hacc'.mono Set.subset_union_left⟩
      · exact ⟨e, he, w, hnext, hn, hacc⟩)
    refine ⟨f :: before, e, after, w, rfl, htaken, fun g hg u hu => ?_⟩
    rcases List.mem_cons.1 hg with rfl | hg
    · by_contra hnot
      simp only [not_or, not_not, not_and] at hnot
      obtain ⟨h, hh, w', hw', hi, hnext, hacc⟩ :=
        hlater Set.subset_union_left hu hnot.1 hnot.2
      have hmono : marks a.flags text (e :: after) v ⊆
          marks a.flags text (g :: (before ++ e :: after)) v :=
        marks_mono _ _ _ fun x hx => List.mem_cons_of_mem _ (List.mem_append_right _ hx)
      rcases List.mem_append.1 hh with hh | hh
      · rcases hbefore h hh w' hnext with ⟨-, hm⟩ | hdead
        · exact hw' (.inl hm)
        · exact hdead (hacc.mono (Set.union_subset_union_right _ hmono))
      · exact hw' (.inr ⟨h, hh, hi, hnext⟩)
    · exact hbefore g hg u hu

end Choice

namespace Parted

theorem nodup (hp : a.Parted) (id : Nat) : ((a.edgesOf id).map (·.target)).Nodup := by
  rcases hp id with ⟨e, he⟩ | ⟨ids, hnodup, hids⟩
  · rw [he]
    exact List.nodup_singleton _
  · rw [hids, List.map_map]
    exact (List.map_id ids).symm ▸ hnodup

/-- An edge that comes after another one consumes nothing. -/
theorem isEpsilon_of_mem (hp : a.Parted) {id : Nat} (hsplit : a.edgesOf id = before ++ e :: after)
    {f : Edge} (hf : f ∈ after) : f.label.isEpsilon = true := by
  rcases hp id with ⟨e', he'⟩ | ⟨ids, -, hids⟩
  · have hlength := congrArg List.length (hsplit.symm.trans he')
    have hpos := List.length_pos_of_mem hf
    simp at hlength
    omega
  · have hmem : f ∈ ids.map .free :=
      hids ▸ hsplit ▸ List.mem_append_right _ (List.mem_cons_of_mem _ hf)
    obtain ⟨id', -, rfl⟩ := List.mem_map.1 hmem
    rfl

variable (hp : a.Parted) (hsplit : a.edgesOf v.state = before ++ e :: after)
  (hw : e.next? a.flags text v = some w)

include hp hsplit hw

theorem next?_ne {f : Edge} (hf : f ∈ before ++ after) : f.next? a.flags text v ≠ some w := by
  intro hnext
  have htarget : f.target = e.target :=
    (Edge.next?_eq_some_iff.1 hnext).1.symm.trans (Edge.next?_eq_some_iff.1 hw).1
  have hnodup := hp.nodup v.state
  rw [hsplit, List.map_append, List.map_cons, List.nodup_middle, ← List.map_append] at hnodup
  exact (List.nodup_cons.1 hnodup).1 (htarget ▸ List.mem_map_of_mem hf)

theorem notMem_marks : w ∉ marks a.flags text after v := by
  rintro ⟨f, hf, -, hnext⟩
  exact hp.next?_ne hsplit hw (List.mem_append_right _ hf) hnext

theorem kept_cons_eq : a.kept text v (w :: run) =
    marks a.flags text (e :: after) v ∪ a.kept text w run :=
  kept_cons before hsplit hw fun _ hf => hp.next?_ne hsplit hw (List.mem_append_left _ hf)

end Parted

/-- How many states are not marked at the offset of `v`. -/
noncomputable def openStates (a : Automaton) (seen : Set Visit) (offset : Nat) : Nat :=
  {id | id < a.stateCount ∧ ⟨id, offset⟩ ∉ seen}.ncard

theorem openStates_lt (hid : w.state < a.stateCount) (hw : w ∉ seen) (hs : seen ⊆ seen')
    (hw' : w ∈ seen') : a.openStates seen' w.offset < a.openStates seen w.offset := by
  refine Set.ncard_lt_ncard ⟨fun id h => ⟨h.1, fun hm => h.2 (hs hm)⟩, fun hsub => ?_⟩
    ((Set.finite_lt_nat a.stateCount).subset fun id h => h.1)
  exact (hsub ⟨hid, hw⟩ : _ ∧ _).2 hw'

/-- Where anything accepts outside the marked visits, there is a guided run. -/
theorem exists_guided {seen : Set Visit} {v : Visit} (hc : a.Closed) (hp : a.Parted)
    (h : a.AcceptsOutside text seen v) : ∃ run, a.Guided text seen v run := by
  cases hf : a.isFinal v.state with
  | true => exact ⟨[], .final hf⟩
  | false =>
    obtain ⟨w, e, he, hw, hn, hacc⟩ := h.exists_step hf
    obtain ⟨before, e, after, w, hsplit, ⟨hw, hn, hacc⟩, hbefore⟩ :=
      exists_taken ⟨e, he, w, hw, hn, hacc⟩
    have he : e ∈ a.edgesOf v.state := hsplit ▸ List.mem_append_right _ List.mem_cons_self
    obtain ⟨run, hrun⟩ := exists_guided hc hp hacc
    exact ⟨w :: run, .step hf hsplit hw (fun hi => ⟨hn hi, hp.notMem_marks hsplit hw⟩) hbefore hrun⟩
termination_by (text.utf8ByteSize - v.offset, a.openStates seen v.offset)
decreasing_by
  cases hi : e.label.isEpsilon with
  | true =>
    have hstate : w.state < a.stateCount :=
      (Edge.next?_eq_some_iff.1 hw).1 ▸ hc.target_lt _ e he
    rw [← Edge.offset_eq_of_next? hi hw]
    exact .right _ (openStates_lt hstate (hn hi) Set.subset_union_left
      (.inr ⟨e, List.mem_cons_self, hi, hw⟩))
  | false =>
    have := Edge.offset_lt_of_next? hi hw
    exact .left _ _ (by omega)

section Free

variable {id y z offset : Nat}

/-- Along the only edge of a state. -/
theorem guided_only_iff (hf : a.isFinal id = false) (h : a.edgesOf id = [.free y]) :
    a.Guided text seen ⟨id, offset⟩ run ↔ ∃ run', run = ⟨y, offset⟩ :: run' ∧
      ⟨y, offset⟩ ∉ seen ∧ a.Guided text (insert ⟨y, offset⟩ seen) ⟨y, offset⟩ run' := by
  have hmarks : seen ∪ marks a.flags text [.free y] ⟨id, offset⟩ = insert ⟨y, offset⟩ seen := by
    rw [marks_free a.flags y ⟨id, offset⟩, Set.union_singleton]
  constructor
  · intro hg
    cases hg with
    | final hf' => rw [hf] at hf'; cases hf'
    | @step _ _ w run before after e _ hsplit hw hn hpre hrun =>
      obtain ⟨rfl, rfl, rfl⟩ : before = [] ∧ e = .free y ∧ after = [] := by
        rw [h] at hsplit
        cases before with
        | nil => exact ⟨rfl, by simpa using hsplit.symm⟩
        | cons => simp at hsplit
      obtain rfl := Option.some.inj hw
      rw [hmarks] at hrun
      exact ⟨run, rfl, (hn rfl).1, hrun⟩
  · rintro ⟨run', rfl, hn, hrun⟩
    rw [← hmarks] at hrun
    have hsplit : a.edgesOf id = [] ++ .free y :: [] := h
    exact .step hf hsplit rfl (fun _ => ⟨hn, by simp [marks]⟩) nofun hrun

/-- Along one of two edges of a state. -/
theorem guided_pair_iff (hf : a.isFinal id = false) (h : a.edgesOf id = [.free y, .free z])
    (hne : y ≠ z) :
    a.Guided text seen ⟨id, offset⟩ run ↔
      (∃ run', run = ⟨y, offset⟩ :: run' ∧ ⟨y, offset⟩ ∉ seen ∧
        a.Guided text (insert ⟨y, offset⟩ (insert ⟨z, offset⟩ seen)) ⟨y, offset⟩ run') ∨
      ∃ run', run = ⟨z, offset⟩ :: run' ∧ ⟨z, offset⟩ ∉ seen ∧
        (⟨y, offset⟩ ∈ seen ∨
          ¬a.AcceptsOutside text (insert ⟨z, offset⟩ seen) ⟨y, offset⟩) ∧
        a.Guided text (insert ⟨z, offset⟩ seen) ⟨z, offset⟩ run' := by
  have hpair : seen ∪ marks a.flags text [.free y, .free z] ⟨id, offset⟩ =
      insert ⟨y, offset⟩ (insert ⟨z, offset⟩ seen) := by
    rw [marks_free_pair a.flags y z ⟨id, offset⟩, Set.union_insert, Set.union_singleton]
  have hmarks : seen ∪ marks a.flags text [.free z] ⟨id, offset⟩ = insert ⟨z, offset⟩ seen := by
    rw [marks_free a.flags z ⟨id, offset⟩, Set.union_singleton]
  constructor
  · intro hg
    cases hg with
    | final hf' => rw [hf] at hf'; cases hf'
    | @step _ _ w run before after e _ hsplit hw hn hpre hrun =>
      rw [h] at hsplit
      cases before with
      | nil =>
        obtain ⟨rfl, rfl⟩ := List.cons.inj hsplit
        obtain rfl := Option.some.inj hw
        rw [hpair] at hrun
        exact .inl ⟨run, rfl, (hn rfl).1, hrun⟩
      | cons f before =>
        obtain ⟨rfl, hsplit⟩ := List.cons.inj hsplit
        obtain ⟨rfl, rfl, rfl⟩ : before = [] ∧ e = .free z ∧ after = [] := by
          cases before with
          | nil => exact ⟨rfl, by simpa using hsplit.symm⟩
          | cons => simp at hsplit
        obtain rfl := Option.some.inj hw
        rw [hmarks] at hrun hpre
        refine .inr ⟨run, rfl, (hn rfl).1, ?_, hrun⟩
        exact (hpre _ (List.mem_singleton_self _) _ rfl).imp_left And.right
  · rintro (⟨run', rfl, hn, hrun⟩ | ⟨run', rfl, hn, hpre, hrun⟩)
    · rw [← hpair] at hrun
      have hsplit : a.edgesOf id = [] ++ .free y :: [.free z] := h
      refine .step hf hsplit rfl (fun _ => ⟨hn, ?_⟩) nofun hrun
      rw [marks_free a.flags z ⟨id, offset⟩]
      simpa using hne
    · rw [← hmarks] at hrun hpre
      have hsplit : a.edgesOf id = [.free y] ++ .free z :: [] := h
      refine .step hf hsplit rfl (fun _ => ⟨hn, by simp [marks]⟩) ?_ hrun
      intro f hfm u hu
      obtain rfl := List.mem_singleton.1 hfm
      obtain rfl := Option.some.inj hu
      exact hpre.imp_left fun hm => ⟨rfl, hm⟩

end Free

/-- An accepting run that leaves a guided run comes back to it, or comes upon what is marked: what
is preferred to the guided run does not accept otherwise, and all that comes after it is marked. -/
theorem Guided.exists_mem_of_leaves (hend : a.FinalsEnd) (hp : a.Parted)
    (h : a.Guided text seen v run) (hu : u ∈ v :: run) (hacc : a.Accepting text u run')
    (hne : run' ≠ []) : ∃ x ∈ run', x ∈ run ∨ x ∈ seen ∪ a.kept text v run := by
  induction h generalizing u run' with
  | final hf =>
    obtain rfl := List.mem_singleton.1 hu
    cases hacc with
    | final => exact absurd rfl hne
    | step hs =>
      obtain ⟨e, he, -⟩ := hs
      rw [hend _ hf] at he
      cases he
  | @step seen v w run before after e hf hsplit hw hn hpre hrun ih =>
    rw [hp.kept_cons_eq hsplit hw, ← Set.union_assoc]
    rcases List.mem_cons.1 hu with rfl | hu
    · obtain hf' | ⟨⟨f, hfm, hnext⟩, hacc⟩ := hacc
      · exact absurd rfl hne
      rename_i x run'
      rw [hsplit] at hfm
      rcases List.mem_append.1 hfm with hfm | hfm
      · rcases hpre f hfm x hnext with ⟨-, hm⟩ | hdead
        · exact ⟨x, List.mem_cons_self, .inr (.inl (.inl hm))⟩
        · by_contra hnone
          refine hdead (acceptsOutside_iff.2 ⟨run', hacc, .of_notMem fun y hy hm => ?_⟩)
          exact hnone ⟨y, List.mem_cons_of_mem _ hy, .inr (.inl hm)⟩
      rcases List.mem_cons.1 hfm with rfl | hafter
      · obtain rfl := Option.some.inj (hw.symm.trans hnext)
        exact ⟨w, List.mem_cons_self, .inl List.mem_cons_self⟩
      · have hi := hp.isEpsilon_of_mem hsplit hafter
        exact ⟨x, List.mem_cons_self,
          .inr (.inl (.inr ⟨f, List.mem_cons_of_mem _ hafter, hi, hnext⟩))⟩
    · obtain ⟨x, hx, hmem⟩ := ih hu hacc hne
      exact ⟨x, hx, hmem.imp_left (List.mem_cons_of_mem _)⟩

theorem getLastD_append_cons (before after : List Visit) (v w : Visit) :
    (before ++ w :: after).getLastD v = after.getLastD w := by
  rw [List.getLastD_eq_getLast?, List.getLast?_append, List.getLast?_cons, Option.some_or,
    Option.getD_some, List.getLastD_eq_getLast?]

/-- An accepting run that comes upon marks only where the guided run went itself ends there. The
induction is on what is left of the run where it last met the guided one. -/
theorem Guided.last_mem_of_leaves (hend : a.FinalsEnd) (hp : a.Parted)
    (h : a.Guided text seen v run) (hu : u ∈ v :: run) (hacc : a.Accepting text u run')
    (hmarked : ∀ x ∈ run', x ∈ seen ∪ a.kept text v run → x ∈ run) :
    run'.getLastD u ∈ v :: run := by
  induction hn : run'.length using Nat.strong_induction_on generalizing u run' with
  | _ n ih =>
    by_cases hne : run' = []
    · rwa [hne]
    · obtain ⟨x, hx, hmem⟩ := h.exists_mem_of_leaves hend hp hu hacc hne
      have hxrun : x ∈ run := hmem.elim id (hmarked x hx)
      obtain ⟨before, after, rfl⟩ := List.append_of_mem hx
      rw [getLastD_append_cons]
      refine ih after.length ?_ (List.mem_cons_of_mem _ hxrun)
        (hacc.of_append (List.cons_append ..).symm) (fun y hy => ?_) rfl
      · rw [List.length_append, List.length_cons] at hn
        omega
      · exact hmarked y (List.mem_append_right _ (List.mem_cons_of_mem _ hy))

end PatternAutomata.Automaton
