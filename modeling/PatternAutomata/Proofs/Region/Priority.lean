import Mathlib.Data.List.Nodup
import PatternAutomata.Proofs.Region.Shadow

/-!
# The preferred walk through a region

A search takes up the edges of a state in order, so it should be led through a region to the first
outcome from which anything accepts. That it marks visits on its way stands against this. But no
loop is entered by what it left marked itself, if every round of it consumes something and no
repeated part is exposed, and then nothing else is in the way.

## Main definitions

* `Region.Leading` — a search is led through a region to the first outcome that accepts.
* `Region.Rest` — what follows the finish of a block, if no round is left out.

## Main statement

* `Region.leading` — a sheltered region whose rounds consume something leads a search so.
-/
namespace PatternAutomata

namespace Automaton

variable {a : Automaton} {text : String} {v : Visit}

theorem accepts_iff_of_free {target : Nat} (hend : a.FinalsEnd)
    (h : a.edgesOf v.state = [.free target]) :
    a.Accepts text v ↔ a.Accepts text ⟨target, v.offset⟩ := by
  constructor
  · rintro ⟨run, hrun⟩
    obtain ⟨run', -, hrun'⟩ := hrun.along_free hend h
    exact ⟨run', hrun'⟩
  · rintro ⟨run, hrun⟩
    exact ⟨_, .step (step_free (h ▸ List.mem_singleton_self _)) hrun⟩

end Automaton

namespace Region

section Definitions

variable (a : Automaton) (text : String)

/-- Whatever is to come behind the region, a search is led to its first outcome from which anything
accepts. -/
def Leading (r : Region) (entry : Nat) : Prop :=
  ∀ (P : Cursor → Bool) (s t : Cursor), Text.IsBoundary text s.offset →
    (∀ u ∈ r.outcomes a.flags text s, P u = true ↔ a.Accepts text ⟨r.exit entry, u.offset⟩) →
    (r.outcomes a.flags text s).find? P = some t →
    ∃ run, r.Walk a.flags text s run t ∧
      a.Leads text ∅ ⟨entry, s.offset⟩ run ⟨r.exit entry, t.offset⟩

end Definitions

/-- The visits that follow the finish of a block until it is left, if no round is left out. -/
inductive Rest (b : Block) (W : Cursor → List Visit → Cursor → Prop) :
    Cursor → List Visit → Cursor → Prop
  | leave {s : Cursor} : Rest b W s [⟨b.next, s.offset⟩] s
  | again {s t u : Cursor} {run rest : List Visit} :
      b.shape.again = true → W s run t → Rest b W t rest u →
      Rest b W s (⟨b.start, s.offset⟩ ::
        ((⟨b.inner, s.offset⟩ :: (run ++ [⟨b.finish, t.offset⟩])) ++ rest)) u

section Rest

variable {b : Block} {W : Cursor → List Visit → Cursor → Prop} {s t u : Cursor}
  {lap rest : List Visit}

theorem Rest.laps (h : Rest b W t rest u) (hlap : Lap b W s lap t) :
    Laps b W s (lap ++ rest) u := by
  induction h generalizing s lap with
  | leave => exact .leave hlap
  | again hagain hW _ ih => exact .again hagain hlap (ih (.through hW))

theorem Rest.between (hW : ∀ s run t, W s run t → Between s run t) (h : Rest b W s rest t) :
    Between s rest t := by
  induction h with
  | leave => exact between_single _ _
  | again _ h _ ih =>
    exact (between_single _ _).append (((Lap.through h).between hW).append ih)

end Rest

/-- What a search for `P` finds first among the outcomes of a sequence. -/
theorem exists_of_find?_flatMap {α β : Type*} {l : List α} {f : α → List β} {P : β → Bool} {t : β}
    (h : (l.flatMap f).find? P = some t) :
    ∃ m, l.find? (fun m => (f m).any P) = some m ∧ (f m).find? P = some t := by
  rw [List.find?_flatMap, List.findSome?_eq_some_iff] at h
  obtain ⟨before, m, after, rfl, hm, hbefore⟩ := h
  refine ⟨m, List.find?_eq_some_iff_append.2 ⟨?_, before, after, rfl, fun x hx => ?_⟩, hm⟩
  · exact List.any_eq_true.2 ⟨t, List.mem_of_find?_eq_some hm, List.find?_some hm⟩
  · simpa using hbefore x hx

variable {a : Automaton} {text : String} {r r' body : Region} {b : Block} {entry lo hi n : Nat}
  {s t : Cursor} {P : Cursor → Bool}

open Automaton

theorem leading_edge {label : Label} {target : Nat} (hend : a.FinalsEnd)
    (hfit : (edge label target).Fits a.edgesOf entry) :
    (edge label target).Leading a text entry := by
  intro P s t hs hP h
  have hmem := List.mem_of_find?_eq_some h
  simp only [outcomes, Option.mem_toList, Option.map_eq_some_iff] at hmem
  obtain ⟨offset, hpass, rfl⟩ := hmem
  have hmem : ⟨label, target⟩ ∈ a.edgesOf entry := hfit ▸ List.mem_singleton_self _
  refine ⟨_, ⟨offset, hpass, rfl, rfl⟩, .step [] (isFinal_eq_false hend hmem) hfit
    (Edge.next?_eq_some_iff.2 ⟨rfl, hpass⟩) ?_ (by simp [marks]) ?_⟩
  · intro f hf
    cases hf
  · intro f hf
    cases hf

theorem leading_seq (hend : a.FinalsEnd) (hfit : (seq r r').Fits a.edgesOf entry)
    (hn : (seq r r').Numbered lo hi) (hp : (seq r r').Productive a.flags text)
    (h : r.Leading a text entry) (h' : r'.Leading a text (r.exit entry)) :
    (seq r r').Leading a text entry := by
  intro P s t hs hP hfind
  obtain ⟨m, hm, hfind⟩ := exists_of_find?_flatMap hfind
  have hmem := List.mem_of_find?_eq_some hm
  obtain ⟨run, hwalk, hleads⟩ := h _ s m hs (fun u hu => by
    rw [accepts_iff_outcomes hend hfit.2 hp.2 (isBoundary_of_mem hs hu), List.any_eq_true]
    exact exists_congr fun w => and_congr_right fun hw =>
      hP w (List.mem_flatMap.2 ⟨u, hu, hw⟩)) hm
  obtain ⟨run', hwalk', hleads'⟩ := h' P m t (isBoundary_of_mem hs hmem)
    (fun u hu => hP u (List.mem_flatMap.2 ⟨m, hmem, hu⟩)) hfind
  obtain ⟨mid, hn, hn'⟩ := hn
  refine ⟨run ++ run', ⟨run, m, run', hwalk, hwalk', rfl⟩,
    hleads.append hleads' (hwalk.getLastD_eq entry) (Set.empty_subset _) fun w hw hk => ?_⟩
  have := hwalk.kept_state hfit.1 hn w hk
  have := hwalk'.state_mem hn' w hw
  omega

theorem leading_capture {index first last : Nat} (hend : a.FinalsEnd)
    (hfit : (capture index first last body).Fits a.edgesOf entry)
    (hn : (capture index first last body).Numbered lo hi) (h : body.Leading a text first) :
    (capture index first last body).Leading a text entry := by
  intro P s t hs hP hfind
  obtain ⟨hentry, hbody, hlast⟩ := hfit
  obtain ⟨rfl, hn, rfl⟩ := hn
  rw [outcomes, List.find?_map, Option.map_eq_some_iff] at hfind
  obtain ⟨m, hfind, rfl⟩ := hfind
  obtain ⟨run, hwalk, hleads⟩ := h _ s m hs (fun u hu =>
    (hP _ (List.mem_map_of_mem hu)).trans
      (accepts_iff_of_free (v := ⟨body.exit first, u.offset⟩) hend hlast).symm) hfind
  refine ⟨_, ⟨m, run, hwalk, rfl, rfl⟩, ?_⟩
  have hin : a.Leads text ∅ ⟨entry, s.offset⟩ [⟨first, s.offset⟩] ⟨first, s.offset⟩ :=
    .only hend hentry
  have hout : a.Leads text ∅ ⟨body.exit first, m.offset⟩ [⟨last, m.offset⟩] ⟨last, m.offset⟩ :=
    .only hend hlast
  refine hin.append (hleads.append hout (hwalk.getLastD_eq first) (Set.empty_subset _) ?_) rfl
    (Set.empty_subset _) ?_
  · intro w hw hk
    obtain rfl := List.mem_singleton.1 hw
    have := hwalk.kept_state hbody hn _ hk
    simp only at this
    omega
  · intro w hw hk
    rw [kept_only (v := ⟨entry, s.offset⟩) hentry] at hk
    obtain rfl := hk
    have hle := hn.le
    rcases List.mem_append.1 hw with hw | hw
    · have := hwalk.state_mem hn _ hw
      simp only at this
      omega
    · have := congrArg Visit.state (List.mem_singleton.1 hw)
      simp only at this
      omega

/-- Of the parts of an alternation, a search is led to the first one from which anything accepts. -/
theorem leads_branch {count i : Nat} {start base : Nat → Nat} {part : Nat → Region}
    {before after : List Nat} (hend : a.FinalsEnd)
    (hedges : a.edgesOf entry = (List.range count).map fun j => .free (start j))
    (hnums : ∀ j < count, start j = base j ∧ (part j).Numbered (base j + 1) (base (j + 1)))
    (hrange : List.range count = before ++ i :: after)
    (hnone : ∀ j ∈ before, ¬a.Accepts text ⟨start j, s.offset⟩) :
    a.Leads text ∅ ⟨entry, s.offset⟩ [⟨start i, s.offset⟩] ⟨start i, s.offset⟩ := by
  have hlt {j : Nat} (hj : j ∈ before ++ i :: after) : j < count :=
    List.mem_range.1 (hrange ▸ hj)
  have hsplit : a.edgesOf entry = (before.map start).map .free ++
      .free (start i) :: (after.map start).map .free := by
    rw [hedges, hrange, List.map_append, List.map_cons, List.map_map, List.map_map]
    rfl
  have hnodup : (before.map start ++ start i :: after.map start).Nodup := by
    rw [← List.map_cons, ← List.map_append]
    apply List.Nodup.map_on (fun j hj k hk => eq_of_start_eq hnums (hlt hj) (hlt hk))
    exact hrange ▸ List.nodup_range
  refine .choose hend hsplit hnodup fun x hx => ?_
  obtain ⟨j, hj, rfl⟩ := List.mem_map.1 hx
  exact hnone j hj

/-- A part before the right one has no outcome from which anything accepts. -/
theorem leading_alt {count join : Nat} {start : Nat → Nat} {part : Nat → Region}
    (hend : a.FinalsEnd) (hfit : (alt count start part join).Fits a.edgesOf entry)
    (hn : (alt count start part join).Numbered lo hi)
    (hp : (alt count start part join).Productive a.flags text)
    (h : ∀ i < count, (part i).Leading a text (start i)) :
    (alt count start part join).Leading a text entry := by
  intro P s t hs hP hfind
  obtain ⟨-, hedges, hparts⟩ := hfit
  obtain ⟨base, rfl, hnums, rfl, rfl⟩ := hn
  obtain ⟨i, hi, hfind⟩ := exists_of_find?_flatMap hfind
  obtain ⟨hany, before, after, hrange, hbefore⟩ := List.find?_eq_some_iff_append.1 hi
  have hlt {j : Nat} (hj : j ∈ before ++ i :: after) : j < count :=
    List.mem_range.1 (hrange ▸ hj)
  have hilt : i < count := hlt (List.mem_append_right _ List.mem_cons_self)
  have hiff (j : Nat) (hj : j < count) (u : Cursor) (hu : u ∈ (part j).outcomes a.flags text s) :
      P u = true ↔ a.Accepts text ⟨(part j).exit (start j), u.offset⟩ :=
    (hP u (List.mem_flatMap.2 ⟨j, List.mem_range.2 hj, hu⟩)).trans
      (accepts_iff_of_free (v := ⟨(part j).exit (start j), u.offset⟩) hend (hparts j hj).2).symm
  obtain ⟨run, hwalk, hleads⟩ := h i hilt P s t hs (hiff i hilt) hfind
  have hin : a.Leads text ∅ ⟨entry, s.offset⟩ [⟨start i, s.offset⟩] ⟨start i, s.offset⟩ := by
    refine leads_branch hend hedges hnums hrange fun j hj hacc => ?_
    have hj' := hlt (List.mem_append_left _ hj)
    obtain ⟨u, hu, hacc⟩ := (accepts_iff_outcomes hend (hparts j hj').1 (hp j hj') hs).1 hacc
    have hnone := hbefore j hj
    rw [List.any_eq_true.2 ⟨u, hu, (hiff j hj' u hu).2 hacc⟩] at hnone
    cases hnone
  have hout : a.Leads text ∅ ⟨(part i).exit (start i), t.offset⟩ [⟨base count, t.offset⟩]
      ⟨base count, t.offset⟩ := .only hend (hparts i hilt).2
  refine ⟨_, ⟨i, hilt, run, hwalk, rfl⟩, hin.append (hleads.append hout
    (hwalk.getLastD_eq (start i)) (Set.empty_subset _) ?_) rfl (Set.empty_subset _) ?_⟩
  · intro w hw hk
    obtain rfl := List.mem_singleton.1 hw
    have hstate := hwalk.kept_state (hparts i hilt).1 (hnums i hilt).2 _ hk
    have := part_bounds hnums hilt
    simp only at hstate
    omega
  · intro w hw hk
    obtain ⟨j, hj, hstate⟩ := exists_start_of_mem_kept hedges hk
    have hbounds := part_bounds hnums hj
    rcases List.mem_append.1 hw with hw | hw
    · have hmem := hwalk.state_mem (hnums i hilt).2 w hw
      obtain rfl := eq_of_numbered hnums (start j) hilt hj (by omega) (by omega)
      omega
    · have := congrArg Visit.state (List.mem_singleton.1 hw)
      simp only at this
      omega

/-- Where a round begins, only its part is entered up to the end of the block. -/
theorem Rest.state_of_mem {run rest : List Visit} {u : Cursor} {w : Visit}
    (hn : (block b body).Numbered lo hi) (hp : (block b body).Productive a.flags text)
    (hs : Text.IsBoundary text s.offset) (hwalk : body.Walk a.flags text s run t)
    (h : Rest b (body.Walk a.flags text) t rest u)
    (hw : w ∈ (⟨b.inner, s.offset⟩ :: (run ++ [⟨b.finish, t.offset⟩])) ++ rest)
    (hoffset : w.offset = s.offset) : b.start < w.state ∧ w.state < b.finish := by
  obtain ⟨rfl, hinner, hnum, -, -⟩ := hn
  have hle := hnum.le
  have hlt : s.offset < t.offset := hwalk.offset_lt (hp.2 _ hs)
  rcases List.mem_append.1 hw with hw | hw
  · rcases List.mem_cons.1 hw with rfl | hw
    · exact ⟨by simp only; omega, by simp only; omega⟩
    rcases List.mem_append.1 hw with hw | hw
    · have := hwalk.state_mem hnum w hw
      omega
    · obtain rfl := List.mem_singleton.1 hw
      exact absurd hoffset hlt.ne'
  · have := ((h.between fun _ _ _ => Walk.between).2 w hw).1
    omega

/-- What comes after a round enters nothing that the round left marked. -/
theorem Rest.notMem_kept {run rest : List Visit} {u : Cursor}
    (hfit : (block b body).Fits a.edgesOf entry) (hn : (block b body).Numbered lo hi)
    (hp : (block b body).Productive a.flags text) (hsh : (block b body).Sheltered a.flags text)
    (hs : Text.IsBoundary text s.offset) (hwalk : body.Walk a.flags text s run t)
    (h : Rest b (body.Walk a.flags text) t rest u) :
    ∀ w ∈ rest, w ∉ a.kept text ⟨b.start, s.offset⟩
      (⟨b.inner, s.offset⟩ :: (run ++ [⟨b.finish, t.offset⟩])) := by
  have hbody := hfit.2.2.1
  obtain ⟨rfl, hinner, hnum, hnext, rfl⟩ := hn
  have hle := hnum.le
  have hlt : s.offset < t.offset := hwalk.offset_lt (hp.2 _ hs)
  have ht := hwalk.isBoundary hs
  rw [kept_through hfit hwalk]
  have hlater {w : Visit} (hw : t.offset < w.offset) :
      w ∉ a.kept text ⟨b.start, s.offset⟩ [⟨b.inner, s.offset⟩] ∪
        (a.kept text ⟨b.inner, s.offset⟩ run ∪ {⟨b.finish, t.offset⟩}) := by
    rintro (hk | hk | rfl)
    · have := (mem_edges_of_mem_kept hk).1
      simp only at this
      omega
    · have := (hwalk.kept_offset hk).2
      omega
    · exact lt_irrefl _ hw
  have haround {id : Nat} (hid : id < b.start + 2 ∨ b.finish < id) :
      ⟨id, t.offset⟩ ∉ a.kept text ⟨b.start, s.offset⟩ [⟨b.inner, s.offset⟩] ∪
        (a.kept text ⟨b.inner, s.offset⟩ run ∪ {⟨b.finish, t.offset⟩}) := by
    rintro (hk | hk | hk)
    · exact hlt.ne' (mem_edges_of_mem_kept hk).1
    · have hstate := hwalk.kept_state hbody hnum _ hk
      simp only at hstate
      omega
    · have := congrArg Visit.state hk
      simp only at this
      omega
  intro w hw
  cases h with
  | leave =>
    obtain rfl := List.mem_singleton.1 hw
    exact haround (.inr (by omega))
  | @again _ m _ run' rest' hagain hwalk' hrest =>
    have hlt' : t.offset < m.offset := hwalk'.offset_lt (hp.2 _ ht)
    rcases List.mem_cons.1 hw with rfl | hw
    · exact haround (.inl (by omega))
    rcases List.mem_append.1 hw with hw | hw
    · rcases List.mem_cons.1 hw with rfl | hw
      · exact haround (.inl (by omega))
      rcases List.mem_append.1 hw with hw | hw
      · rintro (hk | hk | rfl)
        · have := (mem_edges_of_mem_kept hk).1
          have := (hwalk'.between.2 w hw).1
          simp only at *
          omega
        · exact hsh.2 hagain _ ht
            (separate a text body hbody hnum hp.1 hs hwalk hwalk' rfl hk hw (hp.2 _ ht))
        · have hstate := hwalk'.state_mem hnum _ hw
          simp only at hstate
          omega
      · obtain rfl := List.mem_singleton.1 hw
        exact hlater hlt'
    · have hbetween := hrest.between fun _ _ _ => Walk.between
      exact hlater (hlt'.trans_le (hbetween.2 w hw).1)

section Block

variable (hend : a.FinalsEnd) (hfit : (block b body).Fits a.edgesOf entry)

include hend hfit

/-- With the finish marked, the start leads only through a further round. -/
theorem not_acceptsOutside_start {R : Set Visit} (hp : (block b body).Productive a.flags text)
    (hs : Text.IsBoundary text s.offset) (hR : ⟨b.finish, s.offset⟩ ∈ R)
    (hno : ∀ w ∈ body.outcomes a.flags text s, ¬a.Accepts text ⟨b.finish, w.offset⟩) :
    ¬a.AcceptsOutside text R ⟨b.start, s.offset⟩ := by
  obtain ⟨-, hstart, hbody, houter, -⟩ := hfit
  intro h
  have hinner : Edge.free b.inner ∈ a.edgesOf b.start := hstart ▸ Block.mem_startEdges.2 (.inl rfl)
  obtain ⟨w, e, he, hw, hnew, hacc⟩ := h.exists_step (isFinal_eq_false hend hinner)
  rw [hstart, Block.mem_startEdges] at he
  rcases he with rfl | ⟨-, rfl⟩
  · obtain rfl := Option.some.inj hw
    obtain ⟨u, hu, hacc⟩ := (accepts_iff_outcomes hend hbody hp.1 hs).1 hacc.accepts
    exact hno u hu ((accepts_iff_of_free hend houter).1 hacc)
  · obtain rfl := Option.some.inj hw
    exact hnew rfl hR

/-- With the start marked, the finish leads only out of the block. -/
theorem not_acceptsOutside_finish {R : Set Visit} (hR : ⟨b.start, s.offset⟩ ∈ R)
    (hno : ¬a.Accepts text ⟨b.next, s.offset⟩) :
    ¬a.AcceptsOutside text R ⟨b.finish, s.offset⟩ := by
  have hfinish := hfit.2.2.2.2
  intro h
  have hnext : Edge.free b.next ∈ a.edgesOf b.finish :=
    hfinish ▸ Block.mem_finishEdges.2 (.inl rfl)
  obtain ⟨w, e, he, hw, hnew, hacc⟩ := h.exists_step (isFinal_eq_false hend hnext)
  rw [hfinish, Block.mem_finishEdges] at he
  rcases he with rfl | ⟨-, rfl⟩
  · obtain rfl := Option.some.inj hw
    exact hno hacc.accepts
  · obtain rfl := Option.some.inj hw
    exact hnew rfl hR

/-- What accepts from the finish of a block, with `n` further rounds to come at most. -/
theorem accepts_finish_iff (hp : (block b body).Productive a.flags text)
    (hs : Text.IsBoundary text s.offset)
    (hmore : b.shape.again = true → text.utf8ByteSize - s.offset ≤ n)
    (hnot : b.shape.again = false → n = 0) :
    a.Accepts text ⟨b.finish, s.offset⟩ ↔
      ∃ t ∈ Repetition.upTo (body.outcomes a.flags text) b.greedy n s,
        a.Accepts text ⟨b.next, t.offset⟩ := by
  obtain ⟨-, hstart, hbody, houter, hfinish⟩ := hfit
  have hnext : Edge.free b.next ∈ a.edgesOf b.finish :=
    hfinish ▸ Block.mem_finishEdges.2 (.inl rfl)
  constructor
  · rintro ⟨run, hrun⟩
    obtain ⟨w, run', rfl, ⟨e, he, hw⟩, hrun⟩ := hrun.exists_step (isFinal_eq_false hend hnext)
    rw [hfinish, Block.mem_finishEdges] at he
    rcases he with rfl | ⟨hagain, rfl⟩
    · obtain rfl := Option.some.inj hw
      exact ⟨s, mem_upTo_iff.2 ⟨0, Nat.zero_le _, List.mem_singleton_self _⟩, run', hrun⟩
    · obtain rfl := Option.some.inj hw
      obtain ⟨run₁, t, run₂, rfl, hlaps, hrun⟩ := exists_laps hend
        (fun _ _ => exists_walk hend hbody) hstart houter hfinish hrun
      obtain ⟨k, hk, -⟩ := exists_exactly_of_laps
        (fun s run t hs h => ⟨mem_outcomes_of_walk hp.1 hs h, h.isBoundary hs⟩) hlaps hs
      obtain ⟨hle, ht⟩ := add_le_of_mem_exactly
        (fun s t hs h => ⟨hp.offset_lt hs h, isBoundary_of_mem hs h⟩) hs hk
      have := ht.le
      have := hmore hagain
      exact ⟨t, mem_upTo_iff.2 ⟨k, by omega, hk⟩, run₂, hrun⟩
  · rintro ⟨t, hmem, run, hrun⟩
    obtain ⟨k, hk, h⟩ := mem_upTo_iff.1 hmem
    cases k with
    | zero =>
      obtain rfl := List.mem_singleton.1 h
      exact ⟨_, .step (step_free hnext) hrun⟩
    | succ k =>
      have hagain : b.shape.again = true := by
        cases hagain : b.shape.again with
        | true => rfl
        | false =>
          have := hnot hagain
          omega
      obtain ⟨laps, hlaps⟩ := exists_laps_of_exactly (fun _ _ => exists_walk_of_mem) h (.inl hagain)
      exact ⟨_, .step (step_free (hfinish ▸ Block.mem_finishEdges.2 (.inr ⟨hagain, rfl⟩)))
        (hlaps.accepting hstart houter hfinish (fun _ _ _ _ h h' => h.accepting hbody h') hrun)⟩

theorem any_upTo_iff (hp : (block b body).Productive a.flags text)
    (hs : Text.IsBoundary text s.offset)
    (hmore : b.shape.again = true → text.utf8ByteSize - s.offset ≤ n)
    (hnot : b.shape.again = false → n = 0)
    (hP : ∀ u ∈ Repetition.upTo (body.outcomes a.flags text) b.greedy n s,
      P u = true ↔ a.Accepts text ⟨b.next, u.offset⟩) :
    (Repetition.upTo (body.outcomes a.flags text) b.greedy n s).any P = true ↔
      a.Accepts text ⟨b.finish, s.offset⟩ := by
  rw [accepts_finish_iff hend hfit hp hs hmore hnot, List.any_eq_true]
  exact exists_congr fun u => and_congr_right fun hu => hP u hu

/-- What is preferred among the outcomes of up to `n` rounds: to stop, or a first round and what is
preferred after it. -/
theorem stop_or_through (hp : (block b body).Productive a.flags text)
    (hs : Text.IsBoundary text s.offset)
    (hmore : b.shape.again = true → text.utf8ByteSize - s.offset ≤ n)
    (hnot : b.shape.again = false → n = 1)
    (hP : ∀ u ∈ Repetition.upTo (body.outcomes a.flags text) b.greedy n s,
      P u = true ↔ a.Accepts text ⟨b.next, u.offset⟩)
    (h : (Repetition.upTo (body.outcomes a.flags text) b.greedy n s).find? P = some t) :
    (t = s ∧ (b.greedy = true →
      ∀ w ∈ body.outcomes a.flags text s, ¬a.Accepts text ⟨b.finish, w.offset⟩)) ∨
    ∃ k, n = k + 1 ∧ (b.greedy = false → ¬a.Accepts text ⟨b.next, s.offset⟩) ∧
      ∃ w, ((body.outcomes a.flags text s).find? fun w =>
        (Repetition.upTo (body.outcomes a.flags text) b.greedy k w).any P) = some w ∧
        (Repetition.upTo (body.outcomes a.flags text) b.greedy k w).find? P = some t := by
  have hlt (w : Cursor) (hw : w ∈ body.outcomes a.flags text s) :
      s.offset < w.offset ∧ w.offset ≤ text.utf8ByteSize :=
    ⟨hp.offset_lt hs hw, (isBoundary_of_mem hs hw).le⟩
  cases n with
  | zero =>
    have hagain : b.shape.again = true := by
      cases hagain : b.shape.again with
      | true => rfl
      | false => cases hnot hagain
    refine .inl ⟨List.mem_singleton.1 (List.mem_of_find?_eq_some h), fun _ w hw => ?_⟩
    have := hmore hagain
    have := hlt w hw
    omega
  | succ k =>
    have hstay : P s = true ↔ a.Accepts text ⟨b.next, s.offset⟩ := hP s (mem_upTo_succ.2 (.inl rfl))
    cases hgreedy : b.greedy with
    | true =>
      rw [Repetition.upTo, hgreedy, if_pos rfl, List.find?_append, Option.or_eq_some_iff] at h
      rcases h with h | ⟨hnone, h⟩
      · refine .inr ⟨k, rfl, fun hlazy => ?_, exists_of_find?_flatMap h⟩
        cases hlazy
      · refine .inl ⟨List.mem_singleton.1 (List.mem_of_find?_eq_some h), fun _ w hw hacc => ?_⟩
        have hw' := hlt w hw
        rw [← any_upTo_iff hend hfit hp (isBoundary_of_mem hs hw) (n := k)
          (fun hagain => by have := hmore hagain; omega)
          (fun hagain => by have := hnot hagain; omega)
          (fun u hu => hP u (mem_upTo_succ.2 (.inr ⟨w, hw, hu⟩))), List.any_eq_true] at hacc
        obtain ⟨u, hu, hPu⟩ := hacc
        rw [hgreedy] at hu
        exact List.find?_eq_none.1 hnone u (List.mem_flatMap.2 ⟨w, hw, hu⟩) hPu
    | false =>
      rw [Repetition.upTo, hgreedy, if_neg Bool.false_ne_true] at h
      cases hPs : P s with
      | true =>
        rw [List.find?_cons_of_pos hPs] at h
        refine .inl ⟨(Option.some.inj h).symm, fun hgreedy => ?_⟩
        cases hgreedy
      | false =>
        have hPs' : ¬P s = true := Bool.eq_false_iff.1 hPs
        rw [List.find?_cons_of_neg hPs'] at h
        exact .inr ⟨k, rfl, fun _ hacc => hPs' (hstay.2 hacc), exists_of_find?_flatMap h⟩

/-- A round through the part of a block, from the start to the finish. -/
theorem exists_lap_leads (hn : (block b body).Numbered lo hi)
    (hp : (block b body).Productive a.flags text) (h : body.Leading a text b.inner)
    (hs : Text.IsBoundary text s.offset)
    (hP : ∀ u ∈ body.outcomes a.flags text s, P u = true ↔ a.Accepts text ⟨b.finish, u.offset⟩)
    (hno : b.shape.skip = true → b.greedy = false → ¬a.Accepts text ⟨b.next, s.offset⟩)
    (hfind : (body.outcomes a.flags text s).find? P = some t) :
    ∃ run, body.Walk a.flags text s run t ∧
      a.Leads text {⟨b.start, s.offset⟩} ⟨b.start, s.offset⟩
        (⟨b.inner, s.offset⟩ :: (run ++ [⟨b.finish, t.offset⟩])) ⟨b.finish, t.offset⟩ := by
  have hfit' := hfit
  obtain ⟨-, hstart, hbody, houter, -⟩ := hfit'
  obtain ⟨rfl, hinner, hnum, -, -⟩ := hn
  have hle := hnum.le
  have hne : b.inner ≠ b.finish := by omega
  obtain ⟨run, hwalk, hleads⟩ := h P s t hs (fun u hu => (hP u hu).trans
    (accepts_iff_of_free (v := ⟨body.exit b.inner, u.offset⟩) hend houter).symm) hfind
  have hin : a.Leads text {⟨b.start, s.offset⟩} ⟨b.start, s.offset⟩ [⟨b.inner, s.offset⟩]
      ⟨b.inner, s.offset⟩ := by
    rw [Block.startEdges] at hstart
    split at hstart
    case isFalse => exact .only hend hstart
    case isTrue hskip =>
      split at hstart
      case isTrue => exact .first hend hstart hne
      case isFalse hgreedy =>
        have hno := hno hskip (Bool.eq_false_iff.2 hgreedy)
        exact .second hend hstart hne.symm
          (.inr (not_acceptsOutside_finish hend hfit (.inl rfl) hno))
  have hout : a.Leads text ∅ ⟨body.exit b.inner, t.offset⟩ [⟨b.finish, t.offset⟩]
      ⟨b.finish, t.offset⟩ := .only hend houter
  refine ⟨run, hwalk, hin.append (hleads.append hout (hwalk.getLastD_eq b.inner)
    (Set.empty_subset _) fun w hw hk => ?_) rfl (Set.empty_subset _) fun w hw hk => ?_⟩
  · obtain rfl := List.mem_singleton.1 hw
    have hstate := hwalk.kept_state hbody hnum _ hk
    simp only at hstate
    omega
  · obtain ⟨hoffset, e, he, hstate⟩ := mem_edges_of_mem_kept hk
    rcases List.mem_append.1 hw with hw | hw
    · have := hwalk.state_mem hnum w hw
      rcases startEdges_target hfit he with htarget | htarget <;> omega
    · obtain rfl := List.mem_singleton.1 hw
      exact absurd hoffset (hwalk.offset_lt (hp.2 _ hs)).ne'

/-- At the finish of a block a search is led out of it, unless another round is preferred. -/
theorem leads_leave (hn : (block b body).Numbered lo hi)
    (hp : (block b body).Productive a.flags text)
    (hs : Text.IsBoundary text s.offset) (hno : b.shape.again = true → b.greedy = true →
      ∀ w ∈ body.outcomes a.flags text s, ¬a.Accepts text ⟨b.finish, w.offset⟩) :
    a.Leads text {⟨b.finish, s.offset⟩} ⟨b.finish, s.offset⟩ [⟨b.next, s.offset⟩]
      ⟨b.next, s.offset⟩ := by
  have hfinish := hfit.2.2.2.2
  obtain ⟨rfl, -, hnum, hnext, -⟩ := hn
  have hne : b.start ≠ b.next := by
    have := hnum.le
    omega
  rw [Block.finishEdges] at hfinish
  split at hfinish
  case isFalse => exact .only hend hfinish
  case isTrue hagain =>
    split at hfinish
    case isTrue hgreedy =>
      exact .second hend hfinish hne
        (.inr (not_acceptsOutside_start hend hfit hp hs (.inl rfl) (hno hagain hgreedy)))
    case isFalse => exact .first hend hfinish hne.symm

/-- At the finish of a block a search is led back to the start, if another round is preferred. -/
theorem leads_again (hn : (block b body).Numbered lo hi) (hagain : b.shape.again = true)
    (hno : b.greedy = false → ¬a.Accepts text ⟨b.next, s.offset⟩) :
    a.Leads text {⟨b.finish, s.offset⟩} ⟨b.finish, s.offset⟩ [⟨b.start, s.offset⟩]
      ⟨b.start, s.offset⟩ ∧
    ⟨b.start, s.offset⟩ ∈ a.kept text ⟨b.finish, s.offset⟩ [⟨b.start, s.offset⟩] := by
  have hfinish := hfit.2.2.2.2
  obtain ⟨rfl, -, hnum, hnext, -⟩ := hn
  have hne : b.start ≠ b.next := by
    have := hnum.le
    omega
  rw [Block.finishEdges, if_pos hagain] at hfinish
  split at hfinish
  case isTrue =>
    refine ⟨.first hend hfinish hne, ?_⟩
    rw [kept_first (v := ⟨b.finish, s.offset⟩) hfinish]
    exact .inl rfl
  case isFalse hgreedy =>
    have hno := hno (Bool.eq_false_iff.2 hgreedy)
    refine ⟨.second hend hfinish hne.symm (.inr fun hacc => hno hacc.accepts), ?_⟩
    rw [kept_second (v := ⟨b.finish, s.offset⟩) hfinish hne.symm]
    exact rfl

/-- From the finish of a block a search is led to the first outcome of up to `n` further rounds
from which anything accepts. -/
theorem exists_rest (hn : (block b body).Numbered lo hi)
    (hp : (block b body).Productive a.flags text) (hsh : (block b body).Sheltered a.flags text)
    (h : body.Leading a text b.inner) (hs : Text.IsBoundary text s.offset)
    (hmore : b.shape.again = true → text.utf8ByteSize - s.offset ≤ n)
    (hnot : b.shape.again = false → n = 0)
    (hP : ∀ u ∈ Repetition.upTo (body.outcomes a.flags text) b.greedy n s,
      P u = true ↔ a.Accepts text ⟨b.next, u.offset⟩)
    (hfind : (Repetition.upTo (body.outcomes a.flags text) b.greedy n s).find? P = some t) :
    ∃ rest, Rest b (body.Walk a.flags text) s rest t ∧
      a.Leads text {⟨b.finish, s.offset⟩} ⟨b.finish, s.offset⟩ rest ⟨b.next, t.offset⟩ := by
  induction n using Nat.strong_induction_on generalizing s with
  | _ n ih =>
    cases hagain : b.shape.again with
    | false =>
      obtain rfl := hnot hagain
      obtain rfl := List.mem_singleton.1 (List.mem_of_find?_eq_some hfind)
      refine ⟨_, .leave, leads_leave hend hfit hn hp hs fun h => ?_⟩
      rw [hagain] at h
      cases h
    | true =>
      have hnot' {P : Prop} (h : b.shape.again = false) : P := by
        rw [hagain] at h
        cases h
      rcases stop_or_through hend hfit hp hs hmore hnot' hP hfind with
        ⟨rfl, hno⟩ | ⟨k, rfl, hno, w, hw, hfind⟩
      · exact ⟨_, .leave, leads_leave hend hfit hn hp hs fun _ => hno⟩
      · have hmore' (u : Cursor) (hu : u ∈ body.outcomes a.flags text s)
            (hagain : b.shape.again = true) : text.utf8ByteSize - u.offset ≤ k := by
          have := hmore hagain
          have := hp.offset_lt hs hu
          omega
        have hP' (u : Cursor) (hu : u ∈ body.outcomes a.flags text s) (v : Cursor)
            (hv : v ∈ Repetition.upTo (body.outcomes a.flags text) b.greedy k u) :=
          hP v (mem_upTo_succ.2 (.inr ⟨u, hu, hv⟩))
        have hmem := List.mem_of_find?_eq_some hw
        have hbound := isBoundary_of_mem hs hmem
        obtain ⟨run, hwalk, hlap⟩ := exists_lap_leads hend hfit hn hp h hs
          (fun u hu => any_upTo_iff hend hfit hp (isBoundary_of_mem hs hu) (hmore' u hu) hnot'
            (hP' u hu)) (fun _ => hno) hw
        obtain ⟨rest, hrest, hleads⟩ :=
          ih k (Nat.lt_succ_self k) hbound (hmore' w hmem) hnot' (hP' w hmem) hfind
        obtain ⟨hin, hkept⟩ := leads_again hend hfit hn hagain hno
        refine ⟨_, .again hagain hwalk hrest, hin.append (hlap.append hleads
          ((Lap.through hwalk).getLastD_eq _) ?_ (hrest.notMem_kept hfit hn hp hsh hs hwalk)) rfl
          (Set.singleton_subset_iff.2 (.inr hkept)) fun v hv hk => ?_⟩
        · rw [kept_through hfit hwalk]
          exact fun v hv => .inr (.inr (.inr hv))
        · obtain ⟨hoffset, e, he, hstate⟩ := mem_edges_of_mem_kept hk
          have := hrest.state_of_mem hn hp hs hwalk hv hoffset
          obtain ⟨rfl, -, -, hnext, -⟩ := hn
          rcases finishEdges_target hfit he with htarget | htarget <;> omega

/-- From the start of a block a search is led through a first round, if that is preferred. -/
theorem exists_laps_leads {Q : Cursor → Bool} {w : Cursor} (hn : (block b body).Numbered lo hi)
    (hp : (block b body).Productive a.flags text) (hsh : (block b body).Sheltered a.flags text)
    (h : body.Leading a text b.inner) (hs : Text.IsBoundary text s.offset)
    (hQ : ∀ u ∈ body.outcomes a.flags text s, Q u = true ↔ a.Accepts text ⟨b.finish, u.offset⟩)
    (hno : b.shape.skip = true → b.greedy = false → ¬a.Accepts text ⟨b.next, s.offset⟩)
    (hw : (body.outcomes a.flags text s).find? Q = some w)
    (hmore : b.shape.again = true → text.utf8ByteSize - w.offset ≤ n)
    (hnot : b.shape.again = false → n = 0)
    (hP : ∀ u ∈ Repetition.upTo (body.outcomes a.flags text) b.greedy n w,
      P u = true ↔ a.Accepts text ⟨b.next, u.offset⟩)
    (hfind : (Repetition.upTo (body.outcomes a.flags text) b.greedy n w).find? P = some t) :
    ∃ laps, Laps b (body.Walk a.flags text) s laps t ∧
      a.Leads text {⟨b.start, s.offset⟩} ⟨b.start, s.offset⟩ laps ⟨b.next, t.offset⟩ ∧
      ∀ v ∈ laps, v ≠ ⟨b.start, s.offset⟩ := by
  obtain ⟨run, hwalk, hlap⟩ := exists_lap_leads hend hfit hn hp h hs hQ hno hw
  obtain ⟨rest, hrest, hleads⟩ :=
    exists_rest hend hfit hn hp hsh h (hwalk.isBoundary hs) hmore hnot hP hfind
  refine ⟨_, hrest.laps (.through hwalk), hlap.append hleads ((Lap.through hwalk).getLastD_eq _) ?_
    (hrest.notMem_kept hfit hn hp hsh hs hwalk), fun v hv heq => ?_⟩
  · rw [kept_through hfit hwalk]
    exact fun v hv => .inr (.inr (.inr hv))
  · subst heq
    exact lt_irrefl _ (hrest.state_of_mem hn hp hs hwalk hv rfl).1

/-- From the start of a block a search is led past the part, if that is preferred. -/
theorem exists_laps_leads_of_skip (hn : (block b body).Numbered lo hi)
    (hp : (block b body).Productive a.flags text) (hs : Text.IsBoundary text s.offset)
    (hskip : b.shape.skip = true) (hno : b.greedy = true →
      ∀ w ∈ body.outcomes a.flags text s, ¬a.Accepts text ⟨b.finish, w.offset⟩) :
    ∃ laps, Laps b (body.Walk a.flags text) s laps s ∧
      a.Leads text {⟨b.start, s.offset⟩} ⟨b.start, s.offset⟩ laps ⟨b.next, s.offset⟩ ∧
      ∀ v ∈ laps, v ≠ ⟨b.start, s.offset⟩ := by
  have hleave := leads_leave hend hfit hn hp hs fun _ => hno
  obtain ⟨-, hstart, hbody, houter, -⟩ := hfit
  obtain ⟨rfl, hinner, hnum, hnext, -⟩ := hn
  have hle := hnum.le
  have hne : b.inner ≠ b.finish := by omega
  rw [Block.startEdges, if_pos hskip] at hstart
  obtain ⟨hin, hkept⟩ : a.Leads text {⟨b.start, s.offset⟩} ⟨b.start, s.offset⟩
      [⟨b.finish, s.offset⟩] ⟨b.finish, s.offset⟩ ∧
      a.kept text ⟨b.start, s.offset⟩ [⟨b.finish, s.offset⟩] ⊆
        {⟨b.finish, s.offset⟩, ⟨b.inner, s.offset⟩} ∧
      ⟨b.finish, s.offset⟩ ∈ a.kept text ⟨b.start, s.offset⟩ [⟨b.finish, s.offset⟩] := by
    split at hstart
    case isTrue hgreedy =>
      rw [kept_second (v := ⟨b.start, s.offset⟩) hstart hne]
      refine ⟨.second hend hstart hne (.inr fun hacc => ?_), fun v hv => .inl hv, rfl⟩
      obtain ⟨u, hu, hacc⟩ := (accepts_iff_outcomes hend hbody hp.1 hs).1 hacc.accepts
      exact hno hgreedy u hu ((accepts_iff_of_free hend houter).1 hacc)
    case isFalse =>
      rw [kept_first (v := ⟨b.start, s.offset⟩) hstart]
      exact ⟨.first hend hstart hne.symm, le_rfl, .inl rfl⟩
  refine ⟨_, .leave (.skip hskip), hin.append hleave rfl
    (Set.singleton_subset_iff.2 (.inr hkept.2)) fun v hv hk => ?_, fun v hv heq => ?_⟩
  · obtain rfl := List.mem_singleton.1 hv
    rcases hkept.1 hk with heq | heq
    · have := congrArg Visit.state heq
      simp only at this
      omega
    · have := congrArg Visit.state heq
      simp only at this
      omega
  · subst heq
    rcases List.mem_cons.1 hv with heq | hv
    · have := congrArg Visit.state heq
      simp only at this
      omega
    · have := congrArg Visit.state (List.mem_singleton.1 hv)
      simp only at this
      omega

theorem leading_block (hn : (block b body).Numbered lo hi)
    (hp : (block b body).Productive a.flags text) (hsh : (block b body).Sheltered a.flags text)
    (h : body.Leading a text b.inner) : (block b body).Leading a text entry := by
  intro P s t hs hP hfind
  obtain ⟨laps, hlaps, hleads, hfresh⟩ : ∃ laps, Laps b (body.Walk a.flags text) s laps t ∧
      a.Leads text {⟨b.start, s.offset⟩} ⟨b.start, s.offset⟩ laps ⟨b.next, t.offset⟩ ∧
      ∀ v ∈ laps, v ≠ ⟨b.start, s.offset⟩ := by
    simp only [outcomes, Block.outcomes] at hP hfind
    split at hfind
    case isTrue hskip =>
      rw [if_pos hskip] at hP
      rcases stop_or_through hend hfit hp hs (by simp +contextual) (by simp +contextual) hP
        hfind with
        ⟨rfl, hno⟩ | ⟨k, hk, hno, w, hw, hfind⟩
      · exact exists_laps_leads_of_skip hend hfit hn hp hs hskip hno
      · rw [hk] at hP
        have hmore (u : Cursor) (hu : u ∈ body.outcomes a.flags text s)
            (hagain : b.shape.again = true) : text.utf8ByteSize - u.offset ≤ k := by
          rw [if_pos hagain] at hk
          have := hp.offset_lt hs hu
          omega
        have hnot (hagain : b.shape.again = false) : k = 0 := by
          rw [hagain, if_neg Bool.false_ne_true] at hk
          omega
        have hP' (u : Cursor) (hu : u ∈ body.outcomes a.flags text s) (v : Cursor)
            (hv : v ∈ Repetition.upTo (body.outcomes a.flags text) b.greedy k u) :=
          hP v (mem_upTo_succ.2 (.inr ⟨u, hu, hv⟩))
        have hmem := List.mem_of_find?_eq_some hw
        exact exists_laps_leads hend hfit hn hp hsh h hs
          (fun u hu => any_upTo_iff hend hfit hp (isBoundary_of_mem hs hu) (hmore u hu) hnot
            (hP' u hu)) (fun _ => hno) hw (hmore w hmem) hnot (hP' w hmem) hfind
    case isFalse hskip =>
      rw [if_neg hskip] at hP
      obtain ⟨w, hw, hfind⟩ := exists_of_find?_flatMap hfind
      have hmore (u : Cursor) (hagain : b.shape.again = true) :
          text.utf8ByteSize - u.offset ≤ b.more text.utf8ByteSize u.offset := by
        rw [Block.more, if_pos hagain]
      have hnot (u : Cursor) (hagain : b.shape.again = false) :
          b.more text.utf8ByteSize u.offset = 0 := by
        rw [Block.more, hagain, if_neg Bool.false_ne_true]
      have hP' (u : Cursor) (hu : u ∈ body.outcomes a.flags text s) (v : Cursor)
          (hv : v ∈ Repetition.upTo (body.outcomes a.flags text) b.greedy
            (b.more text.utf8ByteSize u.offset) u) :=
        hP v (List.mem_flatMap.2 ⟨u, hu, hv⟩)
      have hmem := List.mem_of_find?_eq_some hw
      exact exists_laps_leads hend hfit hn hp hsh h hs
        (fun u hu => any_upTo_iff hend hfit hp (isBoundary_of_mem hs hu) (hmore u) (hnot u)
          (hP' u hu)) (fun h => absurd h hskip) hw (hmore w) (hnot w) (hP' w hmem) hfind
  have hentry := hfit.1
  have hin : a.Leads text ∅ ⟨entry, s.offset⟩ [⟨b.start, s.offset⟩] ⟨b.start, s.offset⟩ :=
    .only hend hentry
  refine ⟨_, ⟨laps, hlaps, rfl⟩, hin.append hleads rfl ?_ fun w hw hk => ?_⟩
  · rw [kept_only (v := ⟨entry, s.offset⟩) hentry]
    exact Set.subset_union_right
  · rw [kept_only (v := ⟨entry, s.offset⟩) hentry] at hk
    exact hfresh w hw hk

end Block

/-- A search is led through a region to its first outcome from which anything accepts, if every
round of a loop in it consumes something and none is exposed. -/
theorem leading (hend : a.FinalsEnd) (hfit : r.Fits a.edgesOf entry) (hn : r.Numbered lo hi)
    (hp : r.Productive a.flags text) (hsh : r.Sheltered a.flags text) : r.Leading a text entry := by
  induction r generalizing entry lo hi with
  | empty =>
    intro P s t hs hP h
    obtain rfl := List.mem_singleton.1 (List.mem_of_find?_eq_some h)
    exact ⟨[], ⟨rfl, rfl⟩, .nil⟩
  | edge label target => exact leading_edge hend hfit
  | seq r r' ih ih' =>
    obtain ⟨mid, hn₁, hn₂⟩ := hn
    exact leading_seq hend hfit ⟨mid, hn₁, hn₂⟩ hp (ih hfit.1 hn₁ hp.1 hsh.1)
      (ih' hfit.2 hn₂ hp.2 hsh.2)
  | alt count start part join ih =>
    have hn' := hn
    obtain ⟨base, -, hnums, -, -⟩ := hn'
    exact leading_alt hend hfit hn hp fun i hi =>
      ih i (hfit.2.2 i hi).1 (hnums i hi).2 (hp i hi) (hsh i hi)
  | block b body ih =>
    exact leading_block hend hfit hn hp hsh (ih hfit.2.2.1 hn.2.2.1 hp.1 hsh.1)
  | capture index first last body ih =>
    exact leading_capture hend hfit hn (ih hfit.2.1 hn.2.1 hp hsh)

end Region

end PatternAutomata
