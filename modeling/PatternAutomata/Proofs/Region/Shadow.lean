import PatternAutomata.Proofs.Region.Outcome
import PatternAutomata.Proofs.Search.Lead

/-!
# What a round leaves marked

A round of a loop leaves visits marked, and the next round begins where it ended. The next round
would miss its way if it had to enter what is marked. When rounds consume something, this happens
in one case only: a repetition by `+` that is not greedy ends the one round and begins the other
one. Leaving that repetition, the search has marked the way back to its start.

## Main definitions

* `Region.Exposed` — such a repetition stands alone in a region.
* `Region.Sheltered` — it does in no body of a loop.
* `Region.Separate` — a walk enters nothing that the one before it left marked.

## Main statement

* `Region.separate` — only then does a walk enter what the one before it left marked.
-/
namespace PatternAutomata.Region

section Definitions

variable (flags : Flags) (text : String)

/-- At `offset` the region is a repetition by `+` that is not greedy, if what consumes nothing is
left out. -/
def Exposed : Region → Nat → Prop
  | empty, _ | edge _ _, _ => False
  | seq r r', offset =>
    r.Exposed offset ∧ r'.Idle flags text offset ∨ r.Idle flags text offset ∧ r'.Exposed offset
  | alt count _ part _, offset => ∃ i < count, (part i).Exposed offset
  | block b body, offset =>
    b.shape.skip = false ∧
      (b.shape.again = true ∧ b.greedy = false ∨ body.Exposed offset)
  | capture _ _ _ body, offset => body.Exposed offset

/-- No body of a loop is exposed anywhere. -/
def Sheltered : Region → Prop
  | empty | edge _ _ => True
  | seq r r' => r.Sheltered ∧ r'.Sheltered
  | alt count _ part _ => ∀ i < count, (part i).Sheltered
  | block b body =>
    body.Sheltered ∧ (b.shape.again = true →
      ∀ offset, Text.IsBoundary text offset → ¬body.Exposed flags text offset)
  | capture _ _ _ body => body.Sheltered

end Definitions

variable {a : Automaton} {text : String} {r : Region} {b : Block} {body : Region}
  {entry lo hi : Nat} {s s' t t' : Cursor} {run run' : List Visit} {w : Visit}

open Automaton

/-- What stays marked along a walk lies between its ends. -/
theorem Walk.kept_offset (h : r.Walk a.flags text s run t)
    (hw : w ∈ a.kept text ⟨entry, s.offset⟩ run) :
    s.offset ≤ w.offset ∧ w.offset ≤ t.offset := by
  obtain ⟨u, hu, hoffset⟩ := exists_offset_of_mem_kept hw
  rw [hoffset]
  rcases List.mem_cons.1 hu with rfl | hu
  · exact ⟨le_rfl, h.offset_le⟩
  · exact h.between.2 u hu

theorem Lap.getLastD_eq {W : Cursor → List Visit → Cursor → Prop} (h : Lap b W s run t)
    (v : Visit) : run.getLastD v = ⟨b.finish, t.offset⟩ := by
  cases h with
  | skip => rfl
  | through h => rw [← List.cons_append, List.getLastD_concat]

section Block

variable (hfit : (block b body).Fits a.edgesOf entry)

include hfit

/-- What stays marked along a round. -/
theorem kept_through (h : body.Walk a.flags text s run t) :
    a.kept text ⟨b.start, s.offset⟩ (⟨b.inner, s.offset⟩ :: (run ++ [⟨b.finish, t.offset⟩])) =
      a.kept text ⟨b.start, s.offset⟩ [⟨b.inner, s.offset⟩] ∪
        (a.kept text ⟨b.inner, s.offset⟩ run ∪ {⟨b.finish, t.offset⟩}) := by
  obtain ⟨-, -, -, houter, -⟩ := hfit
  rw [kept_wrap, h.getLastD_eq, kept_only (v := ⟨body.exit b.inner, t.offset⟩) houter]

theorem startEdges_target {e : Edge} (he : e ∈ a.edgesOf b.start) :
    e.target = b.inner ∨ e.target = b.finish := by
  rw [hfit.2.1, Block.mem_startEdges] at he
  rcases he with rfl | ⟨-, rfl⟩
  · exact .inl rfl
  · exact .inr rfl

theorem finishEdges_target {e : Edge} (he : e ∈ a.edgesOf b.finish) :
    e.target = b.next ∨ e.target = b.start := by
  rw [hfit.2.2.2.2, Block.mem_finishEdges] at he
  rcases he with rfl | ⟨-, rfl⟩
  · exact .inl rfl
  · exact .inr rfl

theorem Laps.kept_state {P : Nat → Prop} (hstart : P b.start) (hinner : P b.inner)
    (hfinish : P b.finish) (hnext : P b.next)
    (hbody : ∀ s run t, body.Walk a.flags text s run t →
      ∀ w ∈ a.kept text ⟨b.inner, s.offset⟩ run, P w.state)
    (h : Laps b (body.Walk a.flags text) s run t) :
    ∀ w ∈ a.kept text ⟨b.start, s.offset⟩ run, P w.state := by
  have hstartEdge {s : Cursor} {u w : Visit}
      (hw : w ∈ a.kept text ⟨b.start, s.offset⟩ [u]) : P w.state := by
    obtain ⟨-, e, he, hstate⟩ := mem_edges_of_mem_kept hw
    rcases startEdges_target hfit he with h | h <;> rw [hstate, h] <;> assumption
  have hfinishEdge {s : Cursor} {u w : Visit}
      (hw : w ∈ a.kept text ⟨b.finish, s.offset⟩ [u]) : P w.state := by
    obtain ⟨-, e, he, hstate⟩ := mem_edges_of_mem_kept hw
    rcases finishEdges_target hfit he with h | h <;> rw [hstate, h] <;> assumption
  have hlap {s t : Cursor} {lap : List Visit} (h : Lap b (body.Walk a.flags text) s lap t) :
      ∀ w ∈ a.kept text ⟨b.start, s.offset⟩ lap, P w.state := by
    cases h with
    | skip => exact fun w => hstartEdge
    | through h =>
      rw [kept_through hfit h]
      rintro w (hw | hw | rfl)
      · exact hstartEdge hw
      · exact hbody _ _ _ h w hw
      · exact hfinish
  induction h with
  | leave h =>
    rw [kept_append, h.getLastD_eq]
    rintro w (hw | hw)
    · exact hlap h w hw
    · exact hfinishEdge hw
  | again _ h _ ih =>
    rw [kept_append, h.getLastD_eq]
    rintro w (hw | hw)
    · exact hlap h w hw
    · rw [kept_cons_eq] at hw
      rcases hw with hw | hw
      · exact hfinishEdge hw
      · exact ih w hw

end Block

/-- What stays marked where an alternation is entered are states where its parts are. -/
theorem exists_start_of_mem_kept {count : Nat} {start : Nat → Nat} {v u w : Visit}
    (hedges : a.edgesOf v.state = (List.range count).map fun i => .free (start i))
    (hw : w ∈ a.kept text v [u]) : ∃ i < count, w.state = start i := by
  obtain ⟨-, e, he, hstate⟩ := mem_edges_of_mem_kept hw
  rw [hedges] at he
  obtain ⟨i, hi, rfl⟩ := List.mem_map.1 he
  exact ⟨i, List.mem_range.1 hi, hstate⟩

/-- What stays marked along a walk are states that were added for the region. -/
theorem Walk.kept_state (hfit : r.Fits a.edgesOf entry) (hn : r.Numbered lo hi)
    (h : r.Walk a.flags text s run t) :
    ∀ w ∈ a.kept text ⟨entry, s.offset⟩ run, lo ≤ w.state ∧ w.state < hi := by
  induction r generalizing entry s run t lo hi with
  | empty =>
    obtain ⟨rfl, rfl⟩ := h
    exact nofun
  | edge label target =>
    obtain ⟨offset, h, rfl, rfl⟩ := h
    obtain ⟨rfl, rfl⟩ := hn
    intro w hw
    obtain ⟨-, e, he, hstate⟩ := mem_edges_of_mem_kept hw
    rw [show a.edgesOf entry = _ from hfit, List.mem_singleton] at he
    subst he
    exact ⟨hstate.ge, hstate.le.trans_lt (Nat.lt_succ_self _)⟩
  | seq r r' ih ih' =>
    obtain ⟨run₁, m, run₂, h, h', rfl⟩ := h
    obtain ⟨mid, hn, hn'⟩ := hn
    have hle := hn.le
    have hle' := hn'.le
    rw [kept_append, h.getLastD_eq]
    rintro w (hw | hw)
    · have := ih hfit.1 hn h w hw
      omega
    · have := ih' hfit.2 hn' h' w hw
      omega
  | alt count start part join ih =>
    obtain ⟨-, hedges, hparts⟩ := hfit
    obtain ⟨i, hlt, run', h, rfl⟩ := h
    obtain ⟨base, rfl, hnums, rfl, rfl⟩ := hn
    rw [kept_wrap, h.getLastD_eq]
    rintro w (hw | hw | hw)
    · obtain ⟨j, hj, hstate⟩ := exists_start_of_mem_kept hedges hw
      have hbounds := part_bounds hnums hj
      omega
    · have hstate := ih i (hparts i hlt).1 (hnums i hlt).2 h w hw
      have hbounds := part_bounds hnums hlt
      omega
    · obtain ⟨-, e, he, hstate⟩ := mem_edges_of_mem_kept hw
      rw [(hparts i hlt).2, List.mem_singleton] at he
      subst he
      have hbounds := part_bounds hnums hlt
      rw [Edge.target_free] at hstate
      omega
  | block b body ih =>
    have hfit' := hfit
    obtain ⟨hentry, -, hbody, -, -⟩ := hfit'
    obtain ⟨run', h, rfl⟩ := h
    obtain ⟨rfl, hinner, hn, hnext, rfl⟩ := hn
    have hle := hn.le
    rw [kept_cons_eq, kept_only (v := ⟨entry, s.offset⟩) hentry]
    rintro w (rfl | hw)
    · exact ⟨le_rfl, by simp only; omega⟩
    · refine Laps.kept_state hfit (P := fun id => b.start ≤ id ∧ id < b.finish + 2) (by omega)
        (by omega) (by omega) (by omega) (fun s run t h w hw => ?_) h w hw
      have := ih hbody hn h w hw
      omega
  | capture index first last body ih =>
    obtain ⟨hentry, hbody, hlast⟩ := hfit
    obtain ⟨m, run', h, rfl, rfl⟩ := h
    obtain ⟨rfl, hn, rfl⟩ := hn
    have hle := hn.le
    rw [kept_wrap, h.getLastD_eq, kept_only (v := ⟨entry, s.offset⟩) hentry,
      kept_only (v := ⟨body.exit first, m.offset⟩) hlast]
    rintro w (rfl | hw | rfl)
    · exact ⟨le_rfl, by simp only; omega⟩
    · have := ih hbody hn h w hw
      omega
    · exact ⟨by simp only; omega, Nat.lt_succ_self _⟩

section Rounds

variable {flags : Flags}

theorem Lap.exists_through {W : Cursor → List Visit → Cursor → Prop} (h : Lap b W s run t)
    (hskip : b.shape.skip = false) :
    ∃ run', W s run' t ∧ run = ⟨b.inner, s.offset⟩ :: (run' ++ [⟨b.finish, t.offset⟩]) := by
  cases h with
  | skip hskip' => rw [hskip] at hskip'; cases hskip'
  | through h => exact ⟨_, h, rfl⟩

/-- At the offset where a block is entered, its first round is what is visited. -/
theorem Laps.exists_first (hp : (block b body).Productive flags text)
    (h : Laps b (body.Walk flags text) s run t) (hskip : b.shape.skip = false)
    (hs : Text.IsBoundary text s.offset) :
    s.offset < t.offset ∧ ∀ w ∈ run, w.offset = s.offset → w.state = b.inner ∨
      ∃ run' m, body.Walk flags text s run' m ∧ w ∈ run' := by
  have hround {m : Cursor} {lap : List Visit} (h : Lap b (body.Walk flags text) s lap m) :
      s.offset < m.offset ∧ ∀ w ∈ lap, w.offset = s.offset → w.state = b.inner ∨
        ∃ run' m, body.Walk flags text s run' m ∧ w ∈ run' := by
    obtain ⟨run', hwalk, rfl⟩ := h.exists_through hskip
    have hlt := hwalk.offset_lt (hp.2 _ hs)
    refine ⟨hlt, fun w hw hoffset => ?_⟩
    rcases List.mem_cons.1 hw with rfl | hw
    · exact .inl rfl
    rcases List.mem_append.1 hw with hw | hw
    · exact .inr ⟨run', m, hwalk, hw⟩
    · rw [List.mem_singleton.1 hw] at hoffset
      exact absurd hoffset hlt.ne'
  cases h with
  | leave h =>
    obtain ⟨hlt, hmem⟩ := hround h
    refine ⟨hlt, fun w hw hoffset => ?_⟩
    rcases List.mem_append.1 hw with hw | hw
    · exact hmem w hw hoffset
    · rw [List.mem_singleton.1 hw] at hoffset
      exact absurd hoffset hlt.ne'
  | again _ h h' =>
    obtain ⟨hlt, hmem⟩ := hround h
    have hbetween := h'.between fun _ _ _ => Walk.between
    refine ⟨hlt.trans_le hbetween.1, fun w hw hoffset => ?_⟩
    rcases List.mem_append.1 hw with hw | hw
    · exact hmem w hw hoffset
    rcases List.mem_cons.1 hw with rfl | hw
    · exact absurd hoffset hlt.ne'
    · exact absurd hoffset (hlt.trans_le (hbetween.2 w hw).1).ne'

end Rounds

/-- What stays marked where a block is left was marked in its last round or when leaving it. -/
theorem Laps.exists_last (hfit : (block b body).Fits a.edgesOf entry) (hne : b.start ≠ b.next)
    (hp : (block b body).Productive a.flags text) (h : Laps b (body.Walk a.flags text) s run t)
    (hskip : b.shape.skip = false) (hs : Text.IsBoundary text s.offset)
    (hw : w ∈ a.kept text ⟨b.start, s.offset⟩ run) (hoffset : w.offset = t.offset) :
    (∃ m run', Text.IsBoundary text m.offset ∧ body.Walk a.flags text m run' t ∧
      w ∈ a.kept text ⟨b.inner, m.offset⟩ run') ∨ w.state = b.finish ∨ w.state = b.next ∨
      w.state = b.start ∧ b.shape.again = true ∧ b.greedy = false := by
  induction h with
  | @leave s t lap h =>
    obtain ⟨run', hwalk, rfl⟩ := h.exists_through hskip
    have hlt := hwalk.offset_lt (hp.2 _ hs)
    rw [kept_append, h.getLastD_eq, kept_through hfit hwalk] at hw
    rcases hw with (hw | hw | rfl) | hw
    · exact absurd (hoffset.symm.trans (mem_edges_of_mem_kept hw).1) hlt.ne'
    · exact .inl ⟨s, run', hs, hwalk, hw⟩
    · exact .inr (.inl rfl)
    · have hfinish := hfit.2.2.2.2
      rw [Block.finishEdges] at hfinish
      split at hfinish
      case isFalse =>
        rw [kept_only (v := ⟨b.finish, t.offset⟩) hfinish] at hw
        exact .inr (.inr (.inl (congrArg Visit.state hw)))
      case isTrue hagain =>
        cases hgreedy : b.greedy with
        | true =>
          rw [hgreedy, if_pos rfl] at hfinish
          rw [kept_second (v := ⟨b.finish, t.offset⟩) hfinish hne] at hw
          exact .inr (.inr (.inl (congrArg Visit.state hw)))
        | false =>
          rw [hgreedy, if_neg Bool.false_ne_true] at hfinish
          rw [kept_first (v := ⟨b.finish, t.offset⟩) hfinish] at hw
          rcases hw with rfl | rfl
          · exact .inr (.inr (.inl rfl))
          · exact .inr (.inr (.inr ⟨rfl, hagain, rfl⟩))
  | @again s t u lap laps _ h h' ih =>
    obtain ⟨run', hwalk, rfl⟩ := h.exists_through hskip
    have ht := hwalk.isBoundary hs
    have hlt := (h'.exists_first hp hskip ht).1
    rw [kept_append, h.getLastD_eq, kept_through hfit hwalk,
      kept_cons_eq (v := ⟨b.finish, t.offset⟩)] at hw
    have hle := hwalk.offset_le
    rcases hw with (hw | hw | rfl) | hw | hw
    · have := (mem_edges_of_mem_kept hw).1
      simp only at this
      omega
    · have := hwalk.kept_offset hw
      omega
    · simp only at hoffset
      omega
    · have := (mem_edges_of_mem_kept hw).1
      simp only at this
      omega
    · exact ih ht hw hoffset

section Idle

variable {flags : Flags} {r' : Region} {offset : Nat}

theorem Idle.seq (h : r.Idle flags text offset) (h' : r'.Idle flags text offset) :
    (seq r r').Idle flags text offset := by
  obtain ⟨s, run, t, hs, ht, hwalk⟩ := h
  obtain ⟨run', u, hu, hwalk'⟩ := h'.exists_walk ht
  exact ⟨s, _, u, hs, hu, run, t, run', hwalk, hwalk', rfl⟩

theorem idle_of_skip (hskip : b.shape.skip = true) (offset : Nat) :
    (block b body).Idle flags text offset :=
  ⟨⟨offset, fun _ => none⟩, _, _, rfl, rfl, _, .leave (.skip hskip), rfl⟩

end Idle

/-- What stays marked along a walk and is entered by the next one lies between the two. -/
theorem offset_eq_of_mem_kept (h : r.Walk a.flags text s run t)
    (h' : r.Walk a.flags text s' run' t') (hst : s'.offset = t.offset)
    (hw : w ∈ a.kept text ⟨entry, s.offset⟩ run) (hw' : w ∈ run') : w.offset = t.offset :=
  le_antisymm (h.kept_offset hw).2 (hst ▸ (h'.between.2 w hw').1)

/-- Such a visit of a region that is not idle there is between two walks that consume something. -/
theorem offset_of_mem_kept (h : r.Walk a.flags text s run t) (h' : r.Walk a.flags text s' run' t')
    (hst : s'.offset = t.offset) (hw : w ∈ a.kept text ⟨entry, s.offset⟩ run) (hw' : w ∈ run')
    (hidle : ¬r.Idle a.flags text t.offset) :
    s.offset < t.offset ∧ t.offset < t'.offset ∧ w.offset = t.offset :=
  ⟨lt_of_le_of_ne h.offset_le fun heq => hidle ⟨s, run, t, heq, rfl, h⟩,
    hst ▸ h'.offset_lt (hst ▸ hidle), offset_eq_of_mem_kept h h' hst hw hw'⟩

/-- Where walks in a row are followed by two more through the same regions, such a visit is of one
of the regions, and the walk through the other one that lies between consumes nothing. -/
theorem between_of_mem_kept_seq {r' : Region} {mid : Nat} {m m' : Cursor}
    {run₁ run₂ run₁' run₂' : List Visit} (hfit : (seq r r').Fits a.edgesOf entry)
    (hn : r.Numbered lo mid) (hn' : r'.Numbered mid hi) (h₁ : r.Walk a.flags text s run₁ m)
    (h₂ : r'.Walk a.flags text m run₂ t) (h₁' : r.Walk a.flags text s' run₁' m')
    (h₂' : r'.Walk a.flags text m' run₂' t') (hst : s'.offset = t.offset)
    (hw : w ∈ a.kept text ⟨entry, s.offset⟩ (run₁ ++ run₂)) (hw' : w ∈ run₁' ++ run₂')
    (hoffset : w.offset = t.offset) :
    m.offset = t.offset ∧ w ∈ a.kept text ⟨entry, s.offset⟩ run₁ ∧ w ∈ run₁' ∨
      m'.offset = t.offset ∧ w ∈ a.kept text ⟨r.exit entry, m.offset⟩ run₂ ∧ w ∈ run₂' := by
  have hle₂ := h₂.offset_le
  have hle₁' := h₁'.offset_le
  rw [kept_append, h₁.getLastD_eq] at hw
  rcases hw with hw | hw <;> rcases List.mem_append.1 hw' with hw' | hw'
  · have := (h₁.kept_offset hw).2
    exact .inl ⟨by omega, hw, hw'⟩
  · have := h₁.kept_state hfit.1 hn w hw
    have := h₂'.state_mem hn' w hw'
    omega
  · have := h₂.kept_state hfit.2 hn' w hw
    have := h₁'.state_mem hn w hw'
    omega
  · have := (h₂'.between.2 w hw').1
    exact .inr ⟨by omega, hw, hw'⟩

/-- When a walk begins where another one ends, it enters nothing that stays marked along that one,
unless the region is idle or exposed there. -/
def Separate (a : Automaton) (text : String) (r : Region) : Prop :=
  ∀ ⦃entry lo hi : Nat⦄ ⦃s t : Cursor⦄ ⦃run : List Visit⦄ ⦃s' t' : Cursor⦄ ⦃run' : List Visit⦄
    ⦃w : Visit⦄, r.Fits a.edgesOf entry → r.Numbered lo hi → r.Productive a.flags text →
    Text.IsBoundary text s.offset → r.Walk a.flags text s run t →
    r.Walk a.flags text s' run' t' → s'.offset = t.offset →
    w ∈ a.kept text ⟨entry, s.offset⟩ run → w ∈ run' → ¬r.Idle a.flags text t.offset →
    r.Exposed a.flags text t.offset

theorem separate_edge (label : Label) (target : Nat) : (edge label target).Separate a text := by
  intro entry lo hi s t run s' t' run' w hfit hn hp hs h h' hst hw hw' hidle
  obtain ⟨hlt, -, hoffset⟩ := offset_of_mem_kept h h' hst hw hw' hidle
  obtain ⟨offset, hpass, rfl, rfl⟩ := h
  exact absurd (hoffset.symm.trans (mem_edges_of_mem_kept hw).1) hlt.ne'

/-- Of the parts between which the walks meet, one consumes nothing: the second one of the walk that
ends, or the first one of the walk that begins. -/
theorem separate_seq {r' : Region} (hr : r.Separate a text) (hr' : r'.Separate a text) :
    (seq r r').Separate a text := by
  intro entry lo hi s t run s' t' run' w hfit hn hp hs h h' hst hw hw' hidle
  obtain ⟨-, -, hoffset⟩ := offset_of_mem_kept h h' hst hw hw' hidle
  obtain ⟨run₁, m, run₂, h₁, h₂, rfl⟩ := h
  obtain ⟨run₁', m', run₂', h₁', h₂', rfl⟩ := h'
  obtain ⟨mid, hn, hn'⟩ := hn
  rcases between_of_mem_kept_seq hfit hn hn' h₁ h₂ h₁' h₂' hst hw hw' hoffset with
    ⟨hm, hw, hw'⟩ | ⟨hm', hw, hw'⟩
  · have hidle₂ : r'.Idle a.flags text t.offset := ⟨m, run₂, t, hm, rfl, h₂⟩
    have hidle₁ : ¬r.Idle a.flags text m.offset := fun hidle₁ => hidle ((hm ▸ hidle₁).seq hidle₂)
    have hexposed := hr hfit.1 hn hp.1 hs h₁ h₁' (hst.trans hm.symm) hw hw' hidle₁
    exact .inl ⟨hm ▸ hexposed, hidle₂⟩
  · have hidle₁ : r.Idle a.flags text t.offset := ⟨s', run₁', m', hst, hm', h₁'⟩
    have hidle₂ : ¬r'.Idle a.flags text t.offset := fun hidle₂ => hidle (hidle₁.seq hidle₂)
    exact .inr ⟨hidle₁, hr' hfit.2 hn' hp.2 (h₁.isBoundary hs) h₂ h₂' hm' hw hw' hidle₂⟩

/-- The walks meet in one part, since to enter a part is not to enter another one. -/
theorem separate_alt {count join : Nat} {start : Nat → Nat} {part : Nat → Region}
    (hpart : ∀ i < count, (part i).Separate a text) :
    (alt count start part join).Separate a text := by
  intro entry lo hi s t run s' t' run' w hfit hn hp hs h h' hst hw hw' hidle
  obtain ⟨hlt, hlt', hoffset⟩ := offset_of_mem_kept h h' hst hw hw' hidle
  obtain ⟨-, hedges, hparts⟩ := hfit
  obtain ⟨i, hi, run₁, h, rfl⟩ := h
  obtain ⟨i', hi', run₁', h', rfl⟩ := h'
  obtain ⟨base, rfl, hnums, rfl, rfl⟩ := hn
  have hbounds := part_bounds hnums hi
  have hbounds' := part_bounds hnums hi'
  rw [kept_wrap, h.getLastD_eq] at hw
  rcases hw with hw | hw | hw
  · exact absurd (hoffset.symm.trans (mem_edges_of_mem_kept hw).1) hlt.ne'
  · have hstate := h.kept_state (hparts i hi).1 (hnums i hi).2 w hw
    rcases List.mem_cons.1 hw' with rfl | hw'
    · simp only at hstate
      obtain rfl := eq_of_numbered hnums (start i') hi hi' (by omega) (by omega)
      omega
    rcases List.mem_append.1 hw' with hbody | hw'
    · have hstate' := h'.state_mem (hnums i' hi').2 w hbody
      obtain rfl := eq_of_numbered hnums w.state hi hi' (by omega) (by omega)
      have hidle' : ¬(part i).Idle a.flags text t.offset := by
        rintro ⟨s, run, t, hs, ht, hwalk⟩
        exact hidle ⟨s, _, t, hs, ht, i, hi, run, hwalk, rfl⟩
      exact ⟨i, hi, hpart i hi (hparts i hi).1 (hnums i hi).2 (hp i hi) hs h h' hst hw hbody hidle'⟩
    · rw [List.mem_singleton.1 hw'] at hoffset
      exact absurd hoffset hlt'.ne'
  · rw [kept_only (v := ⟨(part i).exit (start i), t.offset⟩) (hparts i hi).2] at hw
    have hstate := congrArg Visit.state hw
    simp only at hstate
    rcases List.mem_cons.1 hw' with rfl | hw'
    · simp only at hstate
      omega
    rcases List.mem_append.1 hw' with hw' | hw'
    · have := h'.state_mem (hnums i' hi').2 w hw'
      omega
    · rw [List.mem_singleton.1 hw'] at hoffset
      exact absurd hoffset hlt'.ne'

theorem separate_block (hr : body.Separate a text) : (block b body).Separate a text := by
  intro entry lo hi s t run s' t' run' w hfit hn hp hs h h' hst hw hw' hidle
  obtain ⟨hlt, hlt', hoffset⟩ := offset_of_mem_kept h h' hst hw hw' hidle
  have hskip : b.shape.skip = false := by
    cases hskip : b.shape.skip with
    | false => rfl
    | true => exact absurd (idle_of_skip hskip t.offset) hidle
  have hfit' := hfit
  obtain ⟨hentry, -, hbody, -, -⟩ := hfit'
  obtain ⟨run₁, h, rfl⟩ := h
  obtain ⟨run₁', h', rfl⟩ := h'
  obtain ⟨rfl, hinner, hn, hnext, rfl⟩ := hn
  have hle := hn.le
  refine ⟨hskip, ?_⟩
  rw [kept_cons_eq] at hw
  have hw := hw.resolve_left fun hw =>
    absurd (hoffset.symm.trans (mem_edges_of_mem_kept hw).1) hlt.ne'
  have hfirst : w.state = b.start ∨ w.state = b.inner ∨
      ∃ run' m, body.Walk a.flags text s' run' m ∧ w ∈ run' := by
    rcases List.mem_cons.1 hw' with rfl | hw'
    · exact .inl rfl
    · exact .inr ((h'.exists_first hp hskip (hst ▸ h.isBoundary
        (fun _ _ _ h hs => h.isBoundary hs) hs)).2 w hw' (hoffset.trans hst.symm))
  rcases h.exists_last hfit (by omega) hp hskip hs hw hoffset with
    ⟨m, run₂, hm, h, hw⟩ | hstate | hstate | ⟨-, hagain, hgreedy⟩
  · have hstate := h.kept_state hbody hn w hw
    rcases hfirst with hstate' | hstate' | ⟨run₂', m', h', hw'⟩
    · omega
    · omega
    · exact .inr (hr hbody hn hp.1 hm h h' hst hw hw' (hp.2 _ (h.isBoundary hm)))
  · rcases hfirst with hstate' | hstate' | ⟨run₂', m', h', hw'⟩
    · omega
    · omega
    · have := h'.state_mem hn w hw'
      omega
  · rcases hfirst with hstate' | hstate' | ⟨run₂', m', h', hw'⟩
    · omega
    · omega
    · have := h'.state_mem hn w hw'
      omega
  · exact .inl ⟨hagain, hgreedy⟩

theorem separate_capture {index first last : Nat} (hr : body.Separate a text) :
    (capture index first last body).Separate a text := by
  intro entry lo hi s t run s' t' run' w hfit hn hp hs h h' hst hw hw' hidle
  obtain ⟨hlt, hlt', hoffset⟩ := offset_of_mem_kept h h' hst hw hw' hidle
  obtain ⟨hentry, hbody, hlast⟩ := hfit
  obtain ⟨m, run₁, h, rfl, rfl⟩ := h
  obtain ⟨m', run₁', h', rfl, rfl⟩ := h'
  obtain ⟨rfl, hn, rfl⟩ := hn
  have hle := hn.le
  rw [kept_wrap, h.getLastD_eq] at hw
  rcases hw with hw | hw | hw
  · exact absurd (hoffset.symm.trans (mem_edges_of_mem_kept hw).1) hlt.ne'
  · have hstate := h.kept_state hbody hn w hw
    rcases List.mem_cons.1 hw' with rfl | hw'
    · simp only at hstate
      omega
    rcases List.mem_append.1 hw' with hw' | hw'
    · have hidle' : ¬body.Idle a.flags text m.offset := by
        rintro ⟨s, run, t, hs, ht, hwalk⟩
        exact hidle ⟨s, _, t.report index s.offset, hs, ht, t, run, hwalk, rfl, rfl⟩
      exact (hr hbody hn hp hs h h' hst hw hw' hidle' : body.Exposed a.flags text m.offset)
    · rw [List.mem_singleton.1 hw'] at hoffset
      exact absurd hoffset hlt'.ne'
  · rw [kept_only (v := ⟨body.exit first, m.offset⟩) hlast] at hw
    have hstate := congrArg Visit.state hw
    simp only at hstate
    rcases List.mem_cons.1 hw' with rfl | hw'
    · simp only at hstate
      omega
    rcases List.mem_append.1 hw' with hw' | hw'
    · have := h'.state_mem hn w hw'
      omega
    · rw [List.mem_singleton.1 hw'] at hoffset
      exact absurd hoffset hlt'.ne'

/-- What a walk enters is not what the one before it left marked. -/
theorem separate (a : Automaton) (text : String) (r : Region) : r.Separate a text := by
  induction r with
  | empty =>
    intro entry lo hi s t run s' t' run' w hfit hn hp hs h h' hst hw hw' hidle
    obtain ⟨rfl, -⟩ := h
    cases hw
  | edge label target => exact separate_edge label target
  | seq r r' ih ih' => exact separate_seq ih ih'
  | alt count start part join ih => exact separate_alt fun i _ => ih i
  | block b body ih => exact separate_block ih
  | capture index first last body ih => exact separate_capture ih

end PatternAutomata.Region
