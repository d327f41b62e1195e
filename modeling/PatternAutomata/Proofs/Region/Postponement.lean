import PatternAutomata.Proofs.Pattern.Acceptance
import PatternAutomata.Proofs.Region.Likeness
import PatternAutomata.Proofs.Region.Shadow

/-!
# What waits where a region is left

A search that leaves a region has visits marked that wait to be tried. If the region is entered
again where it was left, these are in the way of the second walk, unless the first one has made them
itself. They wait at that place only if the region was passed there without consuming and a choice
was left open: a repetition that is not greedy, or a branch before the last one. Where no choice is
left open, a guided run through the region is in nobody's way.

## Main definitions

* `Region.Postpones` — a choice may be left open where a region is left.
* `Region.Steady` — what a walk left marked and the next one enters was visited by the first.

## Main statements

* `Region.steady` — so it is where no choice is left open.
* `Automaton.IsRegion.notMem_kept` — what a guided run left marked is in no way then.
-/
namespace PatternAutomata

namespace Region

/-- At `offset` a part of the region that leaves a choice open may be passed last, if what consumes
nothing is left out. -/
def Postpones (flags : Flags) (text : String) : Region → Nat → Prop
  | empty, _ | edge _ _, _ => False
  | seq r r', offset =>
    r.Postpones flags text offset ∧ r'.Idle flags text offset ∨
      r.Idle flags text offset ∧ r'.Postpones flags text offset
  | alt count _ part _, offset =>
    (∃ i < count, (part i).Postpones flags text offset) ∨
      ∃ i, i + 1 < count ∧ (part i).Idle flags text offset
  | block b body, offset => b.greedy = false ∨ body.Postpones flags text offset
  | capture _ _ _ body, offset => body.Postpones flags text offset

variable {a : Automaton} {text : String} {r r' body : Region} {b : Block}
  {entry lo hi : Nat} {s s' t t' : Cursor} {run run' : List Visit} {w : Visit}

open Automaton

/-- When a walk begins where another one ends, it enters what stays marked along that one only where
that one went itself, unless a choice was left open. -/
def Steady (a : Automaton) (text : String) (r : Region) : Prop :=
  ∀ ⦃entry lo hi : Nat⦄ ⦃s t : Cursor⦄ ⦃run : List Visit⦄ ⦃s' t' : Cursor⦄ ⦃run' : List Visit⦄
    ⦃w : Visit⦄, r.Fits a.edgesOf entry → r.Numbered lo hi → r.Walk a.flags text s run t →
    r.Walk a.flags text s' run' t' → s'.offset = t.offset →
    w ∈ a.kept text ⟨entry, s.offset⟩ run → w ∈ run' →
    w ∈ run ∨ r.Postpones a.flags text t.offset

theorem steady_edge (label : Label) (target : Nat) : (edge label target).Steady a text := by
  intro entry lo hi s t run s' t' run' w hfit hn h h' hst hw hw'
  have hoffset := offset_eq_of_mem_kept h h' hst hw hw'
  obtain ⟨offset, hpass, rfl, rfl⟩ := h
  obtain ⟨-, e, he, hstate⟩ := mem_edges_of_mem_kept hw
  rw [show a.edgesOf entry = _ from hfit, List.mem_singleton] at he
  subst he
  obtain ⟨id, offset'⟩ := w
  obtain rfl : id = target := hstate
  obtain rfl : offset' = offset := hoffset
  exact .inl (List.mem_singleton_self _)

/-- Of the parts between which the walks meet, one consumes nothing: the second one of the walk that
ends, or the first one of the walk that begins. -/
theorem steady_seq (hr : r.Steady a text) (hr' : r'.Steady a text) : (seq r r').Steady a text := by
  intro entry lo hi s t run s' t' run' w hfit hn h h' hst hw hw'
  have hoffset := offset_eq_of_mem_kept h h' hst hw hw'
  obtain ⟨run₁, m, run₂, h₁, h₂, rfl⟩ := h
  obtain ⟨run₁', m', run₂', h₁', h₂', rfl⟩ := h'
  obtain ⟨mid, hn, hn'⟩ := hn
  rcases between_of_mem_kept_seq hfit hn hn' h₁ h₂ h₁' h₂' hst hw hw' hoffset with
    ⟨hm, hw, hw'⟩ | ⟨hm', hw, hw'⟩
  · refine (hr hfit.1 hn h₁ h₁' (hst.trans hm.symm) hw hw').imp (List.mem_append_left _) fun h => ?_
    exact .inl ⟨hm ▸ h, m, run₂, t, hm, rfl, h₂⟩
  · refine (hr' hfit.2 hn' h₂ h₂' hm' hw hw').imp (List.mem_append_right _) fun h => ?_
    exact .inr ⟨⟨s', run₁', m', hst, hm', h₁'⟩, h⟩

/-- When a branch of an alternation is taken, it stays marked with those after it. -/
theorem exists_branch_of_mem_kept {count i : Nat} {start : Nat → Nat}
    (hedges : a.edgesOf entry = (List.range count).map fun i => .free (start i))
    (hinj : ∀ {j k : Nat}, j < count → k < count → start j = start k → j = k) (hi : i < count)
    (hw : w ∈ a.kept text ⟨entry, s.offset⟩ [⟨start i, s.offset⟩]) :
    ∃ k, i ≤ k ∧ k < count ∧ w = ⟨start k, s.offset⟩ := by
  obtain ⟨before, after, hrange⟩ := List.append_of_mem (List.mem_range.2 hi)
  have hlt {k : Nat} (hk : k ∈ before ++ i :: after) : k < count := List.mem_range.1 (hrange ▸ hk)
  have hsorted := hrange ▸ List.pairwise_lt_range
  obtain ⟨-, hafter, hbefore⟩ := List.pairwise_append.1 hsorted
  have hsplit : a.edgesOf entry = before.map (fun i => .free (start i)) ++
      .free (start i) :: after.map fun i => .free (start i) := by
    rw [hedges, hrange, List.map_append, List.map_cons]
  have hfirst : ∀ f ∈ before.map fun i => Edge.free (start i),
      f.next? a.flags text ⟨entry, s.offset⟩ ≠ some ⟨start i, s.offset⟩ := by
    intro f hf heq
    obtain ⟨k, hk, rfl⟩ := List.mem_map.1 hf
    have hki := hbefore k hk i List.mem_cons_self
    have := hinj (hlt (List.mem_append_left _ hk)) hi
      (congrArg Visit.state (Option.some.inj heq))
    omega
  have hnext : (Edge.free (start i)).next? a.flags text ⟨entry, s.offset⟩ =
      some ⟨start i, s.offset⟩ := rfl
  rw [kept_cons _ hsplit hnext hfirst, kept, Set.union_empty] at hw
  obtain ⟨e, he, -, hnext⟩ := hw
  rcases List.mem_cons.1 he with rfl | he
  · exact ⟨i, le_rfl, hi, (Option.some.inj hnext).symm⟩
  · obtain ⟨k, hk, rfl⟩ := List.mem_map.1 he
    exact ⟨k, ((List.pairwise_cons.1 hafter).1 k hk).le,
      hlt (List.mem_append_right _ (List.mem_cons_of_mem _ hk)), (Option.some.inj hnext).symm⟩

theorem steady_alt {count join : Nat} {start : Nat → Nat} {part : Nat → Region}
    (hpart : ∀ i < count, (part i).Steady a text) :
    (alt count start part join).Steady a text := by
  intro entry lo hi s t run s' t' run' w hfit hn h h' hst hw hw'
  have hoffset := offset_eq_of_mem_kept h h' hst hw hw'
  obtain ⟨-, hedges, hparts⟩ := hfit
  obtain ⟨i, hi, run₁, h, rfl⟩ := h
  obtain ⟨i', hi', run₁', h', rfl⟩ := h'
  obtain ⟨base, rfl, hnums, rfl, rfl⟩ := hn
  rw [kept_wrap, h.getLastD_eq] at hw
  rcases hw with hw | hw | hw
  · obtain ⟨k, hik, hk, rfl⟩ := exists_branch_of_mem_kept hedges (eq_of_start_eq hnums) hi hw
    rcases hik.eq_or_lt with rfl | hlt
    · exact .inl List.mem_cons_self
    · exact .inr (.inr ⟨i, by omega, s, run₁, t, hoffset, rfl, h⟩)
  · have hstate := h.kept_state (hparts i hi).1 (hnums i hi).2 w hw
    have hbounds := part_bounds hnums hi
    have hbounds' := part_bounds hnums hi'
    have hother : i' = i ∨ w ∉ run₁' := by
      by_contra hnot
      simp only [not_or, not_not] at hnot
      have hstate' := h'.state_mem (hnums i' hi').2 w hnot.2
      exact hnot.1 (eq_of_numbered hnums w.state hi' hi (by omega) (by omega))
    rcases List.mem_cons.1 hw' with rfl | hw'
    · simp only at hstate
      have := eq_of_numbered hnums (start i') hi' hi (by omega) (by omega)
      subst this
      omega
    rcases List.mem_append.1 hw' with hw' | hw'
    · obtain rfl := hother.resolve_right (not_not_intro hw')
      refine (hpart i' hi' (hparts i' hi').1 (hnums i' hi').2 h h' hst hw hw').imp
        (fun hmem => ?_) fun h => .inl ⟨i', hi', h⟩
      exact List.mem_cons_of_mem _ (List.mem_append_left _ hmem)
    · rw [List.mem_singleton.1 hw'] at hstate
      simp only at hstate
      omega
  · rw [kept_only (v := ⟨(part i).exit (start i), t.offset⟩) (hparts i hi).2] at hw
    obtain rfl := Set.mem_singleton_iff.1 hw
    exact .inl (List.mem_cons_of_mem _ (List.mem_append_right _ (List.mem_singleton_self _)))

theorem Laps.next_mem {W : Cursor → List Visit → Cursor → Prop} (h : Laps b W s run t) :
    ⟨b.next, t.offset⟩ ∈ run := by
  induction h with
  | leave => exact List.mem_append_right _ (List.mem_singleton_self _)
  | again _ _ _ ih => exact List.mem_append_right _ (List.mem_cons_of_mem _ ih)

theorem Lap.kept_le (h : Lap b (body.Walk a.flags text) s run t)
    (hw : w ∈ a.kept text ⟨entry, s.offset⟩ run) : w.offset ≤ t.offset := by
  have hbetween := h.between fun _ _ _ => Walk.between
  obtain ⟨u, hu, hoffset⟩ := exists_offset_of_mem_kept hw
  rcases List.mem_cons.1 hu with rfl | hu
  · exact hoffset.le.trans hbetween.1
  · exact hoffset.le.trans (hbetween.2 u hu).2

/-- What is visited in a block, its own states apart, is visited on a walk through its body. -/
theorem Laps.exists_body (h : Laps b (body.Walk a.flags text) s run t) (hw : w ∈ run)
    (hstate : w.state ≠ b.start ∧ w.state ≠ b.inner ∧ w.state ≠ b.finish ∧ w.state ≠ b.next) :
    ∃ s₁ run₁ t₁, body.Walk a.flags text s₁ run₁ t₁ ∧ s.offset ≤ s₁.offset ∧ w ∈ run₁ := by
  have hlap {s t : Cursor} {lap : List Visit} (h : Lap b (body.Walk a.flags text) s lap t)
      (hw : w ∈ lap) :
      ∃ s₁ run₁ t₁, body.Walk a.flags text s₁ run₁ t₁ ∧ s.offset ≤ s₁.offset ∧ w ∈ run₁ := by
    cases h with
    | skip => exact absurd (congrArg Visit.state (List.mem_singleton.1 hw)) hstate.2.2.1
    | through h =>
      rcases List.mem_cons.1 hw with rfl | hw
      · exact absurd rfl hstate.2.1
      rcases List.mem_append.1 hw with hw | hw
      · exact ⟨_, _, _, h, le_rfl, hw⟩
      · exact absurd (congrArg Visit.state (List.mem_singleton.1 hw)) hstate.2.2.1
  induction h with
  | leave h =>
    rcases List.mem_append.1 hw with hw | hw
    · exact hlap h hw
    · exact absurd (congrArg Visit.state (List.mem_singleton.1 hw)) hstate.2.2.2
  | again _ h _ ih =>
    rcases List.mem_append.1 hw with hw | hw
    · exact hlap h hw
    rcases List.mem_cons.1 hw with rfl | hw
    · exact absurd rfl hstate.1
    · obtain ⟨s₁, run₁, t₁, hwalk, hle, hmem⟩ := ih hw
      exact ⟨s₁, run₁, t₁, hwalk, (h.between fun _ _ _ => Walk.between).1.trans hle, hmem⟩

section Block

variable (hfit : (block b body).Fits a.edgesOf entry) (hgreedy : b.greedy = true)

include hfit hgreedy

/-- What stays marked at the end of a greedy round was visited in it, or stays marked by the walk
through its body. -/
theorem Lap.exists_of_mem_kept (hne : b.inner ≠ b.finish)
    (h : Lap b (body.Walk a.flags text) s run t)
    (hw : w ∈ a.kept text ⟨b.start, s.offset⟩ run) (hoffset : w.offset = t.offset) :
    w ∈ run ∨ ∃ s₁ run₁ t₁, body.Walk a.flags text s₁ run₁ t₁ ∧ t₁.offset = t.offset ∧
      w ∈ a.kept text ⟨b.inner, s₁.offset⟩ run₁ ∧ run₁ ⊆ run := by
  have hstart := hfit.2.1
  rw [Block.startEdges, hgreedy, if_pos rfl] at hstart
  cases h with
  | skip hskip =>
    rw [if_pos hskip] at hstart
    rw [kept_second (v := ⟨b.start, s.offset⟩) hstart hne] at hw
    exact .inl (hw ▸ List.mem_singleton_self _)
  | through h =>
    rename_i run₁
    rw [kept_through hfit h] at hw
    rcases hw with hw | hw | hw
    · obtain ⟨hs, e, he, hstate⟩ := mem_edges_of_mem_kept hw
      obtain ⟨id, offset⟩ := w
      rcases startEdges_target hfit he with htarget | htarget
      · obtain rfl : id = b.inner := hstate.trans htarget
        obtain rfl : offset = s.offset := hs
        exact .inl List.mem_cons_self
      · obtain rfl : id = b.finish := hstate.trans htarget
        obtain rfl : offset = t.offset := hoffset
        exact .inl (List.mem_cons_of_mem _ (List.mem_append_right _ (List.mem_singleton_self _)))
    · exact .inr ⟨s, run₁, t, h, rfl, hw,
        fun v hv => List.mem_cons_of_mem _ (List.mem_append_left _ hv)⟩
    · obtain rfl := Set.mem_singleton_iff.1 hw
      exact .inl (List.mem_cons_of_mem _ (List.mem_append_right _ (List.mem_singleton_self _)))

/-- What stays marked where a greedy block is left was visited on the way, or stays marked by a walk
through its body that ends there. -/
theorem Laps.exists_of_mem_kept (hne : b.inner ≠ b.finish) (hne' : b.start ≠ b.next)
    (h : Laps b (body.Walk a.flags text) s run t)
    (hw : w ∈ a.kept text ⟨b.start, s.offset⟩ run) (hoffset : w.offset = t.offset) :
    w ∈ run ∨ ∃ s₁ run₁ t₁, body.Walk a.flags text s₁ run₁ t₁ ∧ t₁.offset = t.offset ∧
      w ∈ a.kept text ⟨b.inner, s₁.offset⟩ run₁ ∧ run₁ ⊆ run := by
  have hfinish := hfit.2.2.2.2
  induction h with
  | @leave s t lap h =>
    rw [kept_append, h.getLastD_eq] at hw
    rcases hw with hw | hw
    · rcases h.exists_of_mem_kept hfit hgreedy hne hw hoffset with
        hmem | ⟨s₁, run₁, t₁, h, ht, hk, hsub⟩
      · exact .inl (List.mem_append_left _ hmem)
      · exact .inr ⟨s₁, run₁, t₁, h, ht, hk, List.subset_append_of_subset_left _ hsub⟩
    · rw [Block.finishEdges, hgreedy, if_pos rfl] at hfinish
      have hnext : w = ⟨b.next, t.offset⟩ := by
        split at hfinish
        · rwa [kept_second (v := ⟨b.finish, t.offset⟩) hfinish hne'] at hw
        · rwa [kept_only (v := ⟨b.finish, t.offset⟩) hfinish] at hw
      exact .inl (hnext ▸ List.mem_append_right _ (List.mem_singleton_self _))
  | @again s m t lap laps hagain h h' ih =>
    have hle := (h'.between fun _ _ _ => Walk.between).1
    have hlast := h'.next_mem
    rw [kept_append, h.getLastD_eq, kept_cons_eq (v := ⟨b.finish, m.offset⟩)] at hw
    rcases hw with hw | hw | hw
    · have hm : w.offset = m.offset := by
        have := h.kept_le hw
        omega
      rcases h.exists_of_mem_kept hfit hgreedy hne hw hm with
        hmem | ⟨s₁, run₁, t₁, h, ht, hk, hsub⟩
      · exact .inl (List.mem_append_left _ hmem)
      · exact .inr ⟨s₁, run₁, t₁, h, ht.trans (hm.symm.trans hoffset), hk,
          List.subset_append_of_subset_left _ hsub⟩
    · obtain ⟨hs, e, he, hstate⟩ := mem_edges_of_mem_kept hw
      obtain ⟨id, offset⟩ := w
      rcases finishEdges_target hfit he with htarget | htarget
      · obtain rfl : id = b.next := hstate.trans htarget
        obtain rfl : offset = t.offset := hoffset
        exact .inl (List.mem_append_right _ (List.mem_cons_of_mem _ hlast))
      · obtain rfl : id = b.start := hstate.trans htarget
        obtain rfl : offset = m.offset := hs
        exact .inl (List.mem_append_right _ List.mem_cons_self)
    · rcases ih hw hoffset with hmem | ⟨s₁, run₁, t₁, h, ht, hk, hsub⟩
      · exact .inl (List.mem_append_right _ (List.mem_cons_of_mem _ hmem))
      · exact .inr ⟨s₁, run₁, t₁, h, ht, hk, List.subset_append_of_subset_right _
          (List.subset_cons_of_subset _ hsub)⟩

end Block

theorem steady_block (hr : body.Steady a text) : (block b body).Steady a text := by
  intro entry lo hi s t run s' t' run' w hfit hn h h' hst hw hw'
  have hoffset := offset_eq_of_mem_kept h h' hst hw hw'
  cases hgreedy : b.greedy with
  | false => exact .inr (.inl hgreedy)
  | true =>
    obtain ⟨run₁, h, rfl⟩ := h
    obtain ⟨run₁', h', rfl⟩ := h'
    have hbody := hfit.2.2.1
    obtain ⟨hstart, hinner, hnum, hnext, -⟩ := hn
    have hle := hnum.le
    rw [kept_cons_eq, kept_only (v := ⟨entry, s.offset⟩) hfit.1] at hw
    rcases hw with rfl | hw
    · exact .inl List.mem_cons_self
    rcases h.exists_of_mem_kept hfit hgreedy (by omega) (by omega) hw hoffset with
      hmem | ⟨s₁, run₂, t₁, hwalk, ht, hk, hsub⟩
    · exact .inl (List.mem_cons_of_mem _ hmem)
    have hstate := hwalk.kept_state hbody hnum w hk
    have hw' : w ∈ run₁' := by
      refine (List.mem_cons.1 hw').resolve_left fun heq => ?_
      rw [heq] at hstate
      simp only at hstate
      omega
    obtain ⟨s₁', run₂', t₁', hwalk', hle', hmem'⟩ :=
      h'.exists_body hw' (by omega)
    have hs : s₁'.offset = t₁.offset := by
      have := (hwalk'.between.2 w hmem').1
      omega
    rcases hr hbody hnum hwalk hwalk' hs hk hmem' with hmem | hpost
    · exact .inl (List.mem_cons_of_mem _ (hsub hmem))
    · exact .inr (.inr (ht ▸ hpost))

theorem steady_capture {index first last : Nat} (hr : body.Steady a text) :
    (capture index first last body).Steady a text := by
  intro entry lo hi s t run s' t' run' w hfit hn h h' hst hw hw'
  obtain ⟨hentry, hbody, hlast⟩ := hfit
  obtain ⟨m, run₁, h, rfl, rfl⟩ := h
  obtain ⟨m', run₁', h', rfl, rfl⟩ := h'
  obtain ⟨rfl, hn, rfl⟩ := hn
  have hle := hn.le
  rw [kept_wrap, h.getLastD_eq, kept_only (v := ⟨entry, s.offset⟩) hentry,
    kept_only (v := ⟨body.exit first, m.offset⟩) hlast] at hw
  rcases hw with rfl | hw | rfl
  · exact .inl List.mem_cons_self
  · have hstate := h.kept_state hbody hn w hw
    rcases List.mem_cons.1 hw' with rfl | hw'
    · simp only at hstate
      omega
    rcases List.mem_append.1 hw' with hw' | hw'
    · exact (hr hbody hn h h' hst hw hw').imp_left fun hmem =>
        List.mem_cons_of_mem _ (List.mem_append_left _ hmem)
    · rw [List.mem_singleton.1 hw'] at hstate
      simp only at hstate
      omega
  · exact .inl (List.mem_cons_of_mem _ (List.mem_append_right _ (List.mem_singleton_self _)))

/-- What a walk left marked and the next one enters was visited by the first, unless a choice was
left open between the two. -/
theorem steady (a : Automaton) (text : String) (r : Region) : r.Steady a text := by
  induction r with
  | empty =>
    intro entry lo hi s t run s' t' run' w hfit hn h h' hst hw hw'
    obtain ⟨rfl, -⟩ := h
    cases hw
  | edge label target => exact steady_edge label target
  | seq r r' ih ih' => exact steady_seq ih ih'
  | alt count start part join ih => exact steady_alt fun i _ => ih i
  | block b body ih => exact steady_block ih
  | capture index first last body ih => exact steady_capture ih

end Region

namespace Automaton

variable {a : Automaton} {text : String} {r : Region} {start : Nat} {s t : Cursor}
  {run run' : List Visit}

/-- An accepting run through a region is a walk. -/
theorem IsRegion.exists_walk_of_accepting (hr : a.IsRegion r) (s : Cursor)
    (h : a.Accepting text ⟨0, s.offset⟩ run) :
    ∃ t, r.Walk a.flags text s run t ∧ run.getLastD ⟨0, s.offset⟩ = ⟨r.exit 0, t.offset⟩ := by
  obtain ⟨run₁, t, run₂, rfl, hwalk, hrest⟩ := Region.exists_walk hr.finalsEnd hr.fits h
  obtain rfl := hr.accepting_exit_iff.1 hrest
  rw [List.append_nil]
  exact ⟨t, hwalk, hwalk.getLastD_eq 0⟩

theorem IsRegion.state_mem (hr : a.IsRegion r) (h : a.Accepting text ⟨0, start⟩ run) :
    ∀ w ∈ run, 1 ≤ w.state ∧ w.state < a.stateCount := by
  obtain ⟨t, hwalk, -⟩ := hr.exists_walk_of_accepting ⟨start, fun _ => none⟩ h
  exact hwalk.state_mem hr.numbered

/-- What is left marked along a run through a region lies within it. -/
theorem IsRegion.of_mem_kept (hr : a.IsRegion r) (h : a.Accepting text ⟨0, start⟩ run) {w : Visit}
    (hw : w ∈ a.kept text ⟨0, start⟩ run) :
    1 ≤ w.state ∧ w.state < a.stateCount ∧ w.offset ≤ (run.getLastD ⟨0, start⟩).offset := by
  obtain ⟨t, hwalk, hlast⟩ := hr.exists_walk_of_accepting ⟨start, fun _ => none⟩ h
  obtain ⟨hlo, hhi⟩ := hwalk.kept_state hr.fits hr.numbered w hw
  exact ⟨hlo, hhi, hlast ▸ (hwalk.kept_offset hw).2⟩

/-- Where a guided run through a region leaves no choice open, no run that consumes something from
there on has a visit in common with it, nor enters what it left marked. Such a run would leave the
guided one for the last time somewhere, and come upon a mark again. -/
theorem IsRegion.notMem_kept (hr : a.IsRegion r) {stop : Nat}
    (h : a.Guided text {⟨0, start⟩} ⟨0, start⟩ run)
    (hstop : (run.getLastD ⟨0, start⟩).offset = stop)
    (hopen : ¬r.Postpones a.flags text stop) (hacc : a.Accepting text ⟨0, stop⟩ run')
    (hlt : stop < (run'.getLastD ⟨0, stop⟩).offset) :
    start ≠ stop ∧ ∀ w ∈ run', w ∉ a.kept text ⟨0, start⟩ run := by
  obtain ⟨m, hwalk₀, hlast⟩ := hr.exists_walk_of_accepting ⟨start, fun _ => none⟩ h.accepting
  obtain rfl : m.offset = stop := (congrArg Visit.offset hlast).symm.trans hstop
  obtain ⟨t, hwalk, -⟩ := hr.exists_walk_of_accepting m hacc
  have hcommon {w : Visit} (hw : w ∈ run') (hk : w ∈ a.kept text ⟨0, start⟩ run) : w ∈ run :=
    (Region.steady a text r hr.fits hr.numbered hwalk₀ hwalk rfl hk hw).resolve_right hopen
  have hmarked {w : Visit} (hw : w ∈ run') (hm : w ∈ {⟨0, start⟩} ∪ a.kept text ⟨0, start⟩ run) :
      w ∈ run := by
    rcases hm with hm | hm
    · have hstate := (hwalk.state_mem hr.numbered w hw).1
      rw [Set.mem_singleton_iff.1 hm] at hstate
      cases hstate
    · exact hcommon hw hm
  have hle {w : Visit} (hw : w ∈ ⟨0, start⟩ :: run) : w.offset ≤ m.offset := by
    rcases List.mem_cons.1 hw with rfl | hw
    · exact hwalk₀.offset_le
    · exact (hwalk₀.between.2 w hw).2
  constructor
  · rintro rfl
    have hlast := h.last_mem_of_leaves hr.finalsEnd hr.parted List.mem_cons_self hacc
      fun _ => hmarked
    exact absurd hlt (Nat.not_lt.2 (hle hlast))
  · intro w hw hk
    have hmem : w ∈ ⟨0, start⟩ :: run := List.mem_cons_of_mem _ (hcommon hw hk)
    obtain ⟨before, after, rfl⟩ := List.append_of_mem hw
    rw [getLastD_append_cons] at hlt
    have hlast := h.last_mem_of_leaves hr.finalsEnd hr.parted hmem
      (hacc.of_append (List.cons_append ..).symm)
      fun x hx => hmarked (List.mem_append_right _ (List.mem_cons_of_mem _ hx))
    exact absurd hlt (Nat.not_lt.2 (hle hlast))

end Automaton

end PatternAutomata
