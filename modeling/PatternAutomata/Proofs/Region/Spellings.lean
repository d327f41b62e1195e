import PatternAutomata.Proofs.Region.Rounds

/-!
# A loop, and a copy with a loop behind it

One round or more can be built as a loop whose body must be entered, or as a copy of the body with a
loop behind it that may be skipped. The first round goes through the same states in both, and so do
the later ones, up to ids. But in the loop the later rounds meet what the first one left marked,
where they begin without consuming, and behind the copy they do not. So the two agree if nothing
is in the way there, or if no later round is wanted.

## Main definitions

* `Automaton.Spellings` — the two automata, and that of the body.

## Main statements

* `Automaton.Spellings.exists_guided` — guided runs that end at the same offset.
* `Automaton.Spellings.exec_iff` — searches that both accept or both reject, and where they end.
-/
namespace PatternAutomata.Automaton

/-- The automaton `a` is a loop whose body is the automaton `c`, and `b` is a copy of `c` with a
loop behind it. -/
structure Spellings (c a b : Automaton) (r : Region) (x y : Block) : Prop where
  part : c.IsRegion r
  loop : c.Repeats a (r.exit 0) x
  behind : c.Repeats b (r.exit 0) y
  copy : c.Mirrors b (· + 0) {id | id < c.stateCount ∧ id ≠ r.exit 0} (r.exit 0)
    {id | id < c.stateCount}
  loop_edges : a.edgesOf 0 = [.free x.start]
  copy_edges : b.edgesOf (r.exit 0) = [.free y.start]
  loop_start : x.start = 1
  copy_start : y.start = c.stateCount
  loop_skip : x.shape.skip = false
  copy_skip : y.shape.skip = true
  greedy_eq : y.greedy = x.greedy
  loop_closed : a.Closed
  copy_closed : b.Closed
  copy_parted : b.Parted

/-- Regions of these forms, whose parts have the shape of the region of `c`. -/
theorem IsRegion.spellings {a b c : Automaton} {r body first body' : Region} {x y : Block}
    (hc : c.IsRegion r) (ha : a.IsRegion (.block x body))
    (hb : b.IsRegion (.seq first (.seq (.block y body') .empty))) (hflags : a.flags = c.flags)
    (hflags' : b.flags = c.flags) (hbody : r.Alike body) (hfirst : r.Alike first)
    (hbody' : r.Alike body') (hshape : x.shape = ⟨false, true⟩) (hshape' : y.shape = ⟨true, true⟩)
    (hgreedy : y.greedy = x.greedy) : Spellings c a b r x y := by
  obtain ⟨mid, hnum, mid', hnum', hempty⟩ := hb.numbered
  obtain rfl : b.stateCount = mid' := hempty
  obtain ⟨hfit, hfit', -⟩ := hb.fits
  have hexit : r.exit 0 = first.exit 0 :=
    hfirst.exit_eq hc.numbered hnum (f := (· + 0)) rfl (Region.shifts_add 1 c.stateCount 0)
  have hsize := hfirst.size_eq hc.numbered hnum
  have hstart : y.start = mid := hnum'.1
  have hbehind := hc.repeats hbody' hnum' hfit' hflags' (by rw [hshape']) hb.final_iff hb.open_exit
  have hids := hbehind.lt
  exact {
    part := hc
    loop := hc.repeats hbody ha.numbered ha.fits hflags (by rw [hshape]) ha.final_iff ha.open_exit
    behind := hbehind
    copy := hc.mirrors hfirst hnum hfit hflags' fun id hid => hbehind.isFinal_eq_false (by omega)
    loop_edges := ha.fits.1
    copy_edges := hexit ▸ hfit'.1
    loop_start := ha.numbered.1
    copy_start := by omega
    loop_skip := by rw [hshape]
    copy_skip := by rw [hshape']
    greedy_eq := hgreedy
    loop_closed := ha.closed
    copy_closed := hb.closed
    copy_parted := hb.parted }

namespace Spellings

variable {a b c : Automaton} {r : Region} {x y : Block} {text : String} {start stop : Nat}
  {run rest : List Visit} {u : Visit}

theorem exit_final (h : Spellings c a b r x y) : c.isFinal (r.exit 0) = true :=
  (h.part.final_iff _).2 rfl

/-- What is marked in the loop where the first round is over. -/
def markedLoop (c : Automaton) (x : Block) (text : String) (start : Nat) (run : List Visit) :
    Set Visit :=
  insert ⟨x.inner, start⟩ (insert ⟨x.start, start⟩ {⟨0, start⟩}) ∪
    Visit.relabel (· + x.inner) '' c.kept text ⟨0, start⟩ run

/-- What is marked behind the copy. -/
def markedCopy (c : Automaton) (text : String) (start : Nat) (run : List Visit) : Set Visit :=
  {⟨0, start⟩} ∪ c.kept text ⟨0, start⟩ run

theorem start_edges (h : Spellings c a b r x y) : a.edgesOf x.start = [.free x.inner] :=
  h.loop.start_edges_of_not_skip h.loop_skip

/-- One round is enough to accept in the loop. -/
theorem accepts_loop_iff (h : Spellings c a b r x y) :
    a.Accepts text ⟨0, start⟩ ↔ c.Accepts text ⟨0, start⟩ := by
  constructor
  · rintro ⟨run, hrun⟩
    obtain ⟨run₁, rfl, hrun₁⟩ := hrun.along_free h.loop.finalsEnd h.loop_edges
    obtain ⟨run₂, rfl, hrun₂⟩ := hrun₁.along_free h.loop.finalsEnd h.start_edges
    obtain ⟨round, -, hround, -⟩ := h.loop.exists_round h.exit_final hrun₂
    exact ⟨round, hround⟩
  · rintro ⟨run, hrun⟩
    obtain ⟨t, -, hlast⟩ := h.part.exists_walk_of_accepting ⟨start, fun _ => none⟩ hrun
    have hround := h.loop.accepting_round h.part.finalsEnd h.exit_final hrun hlast
    have hentry : Edge.free x.start ∈ a.edgesOf 0 := h.loop_edges ▸ List.mem_singleton_self _
    have hstart : Edge.free x.inner ∈ a.edgesOf x.start := h.start_edges ▸ List.mem_singleton_self _
    exact ⟨_, .step (step_free hentry) (.step (step_free hstart) hround)⟩

/-- The copy is enough to accept, as the loop behind it may be skipped. -/
theorem accepts_copy_iff (h : Spellings c a b r x y) :
    b.Accepts text ⟨0, start⟩ ↔ c.Accepts text ⟨0, start⟩ := by
  constructor
  · rintro ⟨run, hrun⟩
    obtain ⟨run, -, -, hlast, -, hmore⟩ :=
      h.copy.exists_accepting (v := ⟨0, start⟩) h.loop.zero_mem hrun
    exact ⟨_, hmore [] (.final (hlast ▸ h.exit_final))⟩
  · rintro ⟨run, hrun⟩
    obtain ⟨t, -, hlast⟩ := h.part.exists_walk_of_accepting ⟨start, fun _ => none⟩ hrun
    have hbehind : Edge.free y.start ∈ b.edgesOf (r.exit 0) :=
      h.copy_edges ▸ List.mem_singleton_self _
    have hskip : Edge.free y.finish ∈ b.edgesOf y.start :=
      h.behind.start_edges ▸ Block.mem_startEdges.2 (.inr ⟨h.copy_skip, rfl⟩)
    have hnext : Edge.free y.next ∈ b.edgesOf y.finish :=
      h.behind.finish_edges ▸ Block.mem_finishEdges.2 (.inl rfl)
    have hleave : b.Accepting text ⟨r.exit 0, t.offset⟩
        [⟨y.start, t.offset⟩, ⟨y.finish, t.offset⟩, ⟨y.next, t.offset⟩] :=
      .step (step_free hbehind) (.step (step_free hskip) (.step (step_free hnext)
        (.final ((h.behind.final_iff _).2 rfl))))
    exact ⟨_, h.copy.accepting_append (v := ⟨0, start⟩) h.part.finalsEnd h.exit_final
      h.loop.zero_mem hrun (hlast ▸ hleave)⟩

theorem state_lt_of_mem_markedCopy (h : Spellings c a b r x y)
    (hrun : c.Guided text {⟨0, start⟩} ⟨0, start⟩ run) {w : Visit}
    (hw : w ∈ markedCopy c text start run) : w.state < y.start := by
  have hpos := h.part.closed.pos
  have heq := h.copy_start
  rcases hw with hw | hw
  · obtain rfl := Set.mem_singleton_iff.1 hw
    exact heq ▸ hpos
  · exact heq ▸ (h.part.of_mem_kept hrun.accepting hw).2.1

/-- What is marked in the loop where the first round is over was marked before that, and the states
of the block only where it began. -/
theorem of_mem_markedLoop (h : Spellings c a b r x y)
    (hrun : c.Guided text {⟨0, start⟩} ⟨0, start⟩ run) {w : Visit}
    (hw : w ∈ markedLoop c x text start run) :
    w.offset ≤ (run.getLastD ⟨0, start⟩).offset ∧ w.state < x.finish ∧
      (w.state ≤ x.inner → w.offset = start) := by
  have hids := h.loop.lt
  have hle := hrun.accepting.offset_le_last
  rcases hw with (rfl | rfl | hw) | ⟨u, hu, rfl⟩
  · exact ⟨hle, hids.2.1, fun _ => rfl⟩
  · exact ⟨hle, hids.1.trans hids.2.1, fun _ => rfl⟩
  · obtain rfl := Set.mem_singleton_iff.1 hw
    exact ⟨hle, Nat.zero_lt_of_lt hids.2.1, fun _ => rfl⟩
  · obtain ⟨hpos, hlt, hoffset⟩ := h.part.of_mem_kept hrun.accepting hu
    have hfinish := h.loop.finish_eq
    rw [Visit.state_relabel, Visit.offset_relabel]
    exact ⟨hoffset, by omega, fun h => by omega⟩

theorem relabel_notMem_markedLoop (h : Spellings c a b r x y)
    (hrun : c.Guided text {⟨0, start⟩} ⟨0, start⟩ run)
    (hu : 1 ≤ u.state ∧ u.state < c.stateCount) (hnew : u ∉ c.kept text ⟨0, start⟩ run) :
    u.relabel (· + x.inner) ∉ markedLoop c x text start run := by
  have hids := h.loop.lt
  have hother {id : Nat} (hid : id ≤ x.inner) : u.relabel (· + x.inner) ≠ ⟨id, start⟩ :=
    fun heq => by
      have : u.state + x.inner = id := congrArg Visit.state heq
      omega
  rintro ((heq | heq | heq) | ⟨v, hv, heq⟩)
  · exact hother le_rfl heq
  · exact hother hids.1.le heq
  · exact hother (Nat.zero_le _) heq
  · have hstate := (h.part.of_mem_kept hrun.accepting hv).2.1
    obtain rfl := Visit.relabel_inj h.loop.mirrors.injOn hstate hu.2 heq
    exact hnew hv

section First

variable (h : Spellings c a b r x y) (hrun : c.Guided text {⟨0, start⟩} ⟨0, start⟩ run)

include h hrun

/-- A state of the loop before its body is not marked anew where the first round is over. -/
theorem notMem_insert_markedLoop (hne : start ≠ stop) {id : Nat} (hid : id ≤ x.inner) :
    ⟨id, stop⟩ ∉ insert ⟨x.finish, stop⟩ (markedLoop c x text start run) := by
  rintro (heq | hmem)
  · exact absurd (congrArg Visit.state heq) (hid.trans_lt h.loop.lt.2.1).ne
  · exact hne ((h.of_mem_markedLoop hrun hmem).2.2 hid).symm

section Passed

variable (hlast : run.getLastD ⟨0, start⟩ = ⟨r.exit 0, stop⟩)

include hlast

/-- The first round of the loop. -/
theorem guided_loop
    (hrest : a.Guided text (insert ⟨x.finish, stop⟩ (markedLoop c x text start run))
      ⟨x.finish, stop⟩ rest) :
    a.Guided text {⟨0, start⟩} ⟨0, start⟩ (⟨x.start, start⟩ :: ⟨x.inner, start⟩ ::
      (run.map (Visit.relabel (· + x.inner)) ++ ⟨x.finish, stop⟩ :: rest)) := by
  have hids := h.loop.lt
  have hstart := h.loop_start
  have hfinish := h.loop.finish_eq
  have hexit := h.loop.out_lt
  refine (guided_only_iff (h.loop.isFinal_eq_false (by omega)) h.loop_edges).2
    ⟨_, rfl, by simp [hstart], ?_⟩
  refine (guided_only_iff (h.loop.isFinal_eq_false (by omega)) h.start_edges).2
    ⟨_, rfl, by simp; omega, ?_⟩
  have ht : Tallies (· + x.inner) {id | id < c.stateCount} {⟨0, start⟩}
      (insert ⟨x.inner, start⟩ (insert ⟨x.start, start⟩ {⟨0, start⟩})) := by
    rintro ⟨id, offset⟩ -
    simp only [Visit.relabel, Set.mem_insert_iff, Set.mem_singleton_iff, Visit.mk.injEq]
    omega
  have hnew : ⟨x.finish, stop⟩ ∉ markedLoop c x text start run := fun hmem =>
    lt_irrefl _ (h.of_mem_markedLoop hrun hmem).2.1
  have houter := (guided_only_iff (h.loop.isFinal_eq_false (by omega)) h.loop.outer_edges).2
    ⟨_, rfl, hnew, hrest⟩
  have hround := h.loop.mirrors.guided_append h.part.parted h.exit_final ht h.loop.zero_mem hrun
    hlast houter
  rwa [Visit.relabel_zero] at hround

/-- The copy in front of a loop. -/
theorem guided_copy
    (hrest : b.Guided text (insert ⟨y.start, stop⟩ (markedCopy c text start run)) ⟨y.start, stop⟩
      rest) :
    b.Guided text {⟨0, start⟩} ⟨0, start⟩ (run ++ ⟨y.start, stop⟩ :: rest) := by
  have hids := h.behind.lt
  have hstart := h.copy_start
  have hexit := h.loop.out_lt
  have hnew : ⟨y.start, stop⟩ ∉ markedCopy c text start run := fun hmem =>
    lt_irrefl _ (h.state_lt_of_mem_markedCopy hrun hmem)
  have hbehind := (guided_only_iff (h.behind.isFinal_eq_false (by omega)) h.copy_edges).2
    ⟨_, rfl, hnew, hrest⟩
  have himage : Visit.relabel (· + 0) '' c.kept text ⟨0, start⟩ run =
      c.kept text ⟨0, start⟩ run := Set.image_id' _
  rw [markedCopy, ← himage] at hbehind
  have hround := h.copy.guided_append h.part.parted h.exit_final (fun _ _ => Iff.rfl)
    h.loop.zero_mem hrun hlast hbehind
  have hmap : run.map (Visit.relabel (· + 0)) = run := List.map_id' run
  rwa [hmap] at hround

/-- Another round may follow in the loop, if it is guided when nothing is marked but the states of
the block, and nothing that the first round left marked is in its way. -/
theorem guided_loop_again (hgreedy : x.greedy = true) (hne : start ≠ stop)
    (hclear : ∀ round, c.Accepting text ⟨0, stop⟩ round →
      stop < (round.getLastD ⟨0, stop⟩).offset → ∀ u ∈ round, u ∉ c.kept text ⟨0, start⟩ run)
    (hrest : a.Guided text {⟨x.inner, stop⟩, ⟨x.finish, stop⟩, ⟨x.start, stop⟩} ⟨x.inner, stop⟩
      rest) :
    a.Guided text (insert ⟨x.finish, stop⟩ (markedLoop c x text start run)) ⟨x.finish, stop⟩
      (⟨x.start, stop⟩ :: ⟨x.inner, stop⟩ :: rest) := by
  have hids := h.loop.lt
  have hnew {id : Nat} (hid : id ≤ x.inner) :
      ⟨id, stop⟩ ∉ insert ⟨x.finish, stop⟩ (markedLoop c x text start run) :=
    h.notMem_insert_markedLoop hrun hne hid
  refine (guided_pair_iff (h.loop.isFinal_eq_false (by omega))
    (h.loop.finish_edges_of_greedy hgreedy) (by omega)).2 (.inl ⟨_, rfl, hnew hids.1.le, ?_⟩)
  refine (guided_only_iff (h.loop.isFinal_eq_false (by omega)) h.start_edges).2 ⟨_, rfl, ?_, ?_⟩
  · rintro (heq | heq | hmem)
    · exact absurd (congrArg Visit.state heq) hids.1.ne'
    · exact absurd (congrArg Visit.state heq) (hids.2.1.trans hids.2.2).ne
    · exact hnew le_rfl hmem
  refine h.loop.guided_widen h.exit_final hrest (.inr (Set.mem_insert _ _)) ?_ ?_ ?_
  · rintro w (rfl | rfl | rfl)
    · exact .inl rfl
    · exact .inr (.inr (.inr (.inl rfl)))
    · exact .inr (.inl rfl)
  · rintro w (rfl | rfl | rfl | rfl | hw)
    · exact le_rfl
    · exact le_rfl
    · exact le_rfl
    · exact le_rfl
    · have hoffset := (h.of_mem_markedLoop hrun hw).1
      rwa [hlast] at hoffset
  · intro round hround hlt u hu hmem
    have hstate := h.part.state_mem hround u hu
    have hfinish := h.loop.finish_eq
    have hother {id : Nat} (hid : id ≤ x.inner ∨ x.finish ≤ id) :
        u.relabel (· + x.inner) ≠ ⟨id, stop⟩ := fun heq => by
      have : u.state + x.inner = id := congrArg Visit.state heq
      omega
    rcases hmem with heq | heq | heq | heq | hmem
    · exact hother (.inl le_rfl) heq
    · exact hother (.inl hids.1.le) heq
    · exact hother (.inr hids.2.2.le) heq
    · exact hother (.inr le_rfl) heq
    · exact h.relabel_notMem_markedLoop hrun hstate (hclear round hround hlt u hu) hmem

end Passed

/-- If no more rounds are wanted, or none is possible that consumes something, the loop is left
where its first round is over. -/
theorem guided_loop_leave
    (hdone : x.greedy = true → ∀ round, c.Accepting text ⟨0, stop⟩ round →
      ¬stop < (round.getLastD ⟨0, stop⟩).offset) :
    a.Guided text (insert ⟨x.finish, stop⟩ (markedLoop c x text start run)) ⟨x.finish, stop⟩
      [⟨x.next, stop⟩] := by
  have hids := h.loop.lt
  refine h.loop.guided_leave ?_ fun hgreedy => .inr fun hacc => ?_
  · rintro (heq | hmem)
    · exact absurd (congrArg Visit.state heq) hids.2.2.ne'
    · exact absurd (h.of_mem_markedLoop hrun hmem).2.1 (not_lt.2 hids.2.2.le)
  · obtain ⟨w, e, he, hw, -, hacc⟩ :=
      hacc.exists_step (h.loop.isFinal_eq_false (show x.start ≠ x.next by omega))
    rw [h.start_edges, List.mem_singleton] at he
    subst he
    obtain rfl := Option.some.inj hw
    exact h.loop.not_acceptsOutside h.exit_final (.inr (Set.mem_insert _ _)) (hdone hgreedy) hacc

/-- Behind the copy, only the start of the block is marked of its states. -/
theorem notMem_insert_markedCopy {id : Nat} (hid : y.start < id) :
    ⟨id, stop⟩ ∉ insert (⟨y.start, stop⟩ : Visit) (markedCopy c text start run) := by
  rintro (heq | hmem)
  · exact absurd (congrArg Visit.state heq) hid.ne'
  · exact absurd (h.state_lt_of_mem_markedCopy hrun hmem) (not_lt.2 hid.le)

/-- The loop behind the copy is skipped then. -/
theorem guided_copy_leave
    (hdone : x.greedy = true → ∀ round, c.Accepting text ⟨0, stop⟩ round →
      ¬stop < (round.getLastD ⟨0, stop⟩).offset) :
    b.Guided text (insert ⟨y.start, stop⟩ (markedCopy c text start run)) ⟨y.start, stop⟩
      [⟨y.finish, stop⟩, ⟨y.next, stop⟩] := by
  have hids := h.behind.lt
  have hnew {id : Nat} (hid : y.start < id) :
      ⟨id, stop⟩ ∉ insert (⟨y.start, stop⟩ : Visit) (markedCopy c text start run) :=
    h.notMem_insert_markedCopy hrun hid
  refine h.behind.guided_skip h.copy_skip (Set.mem_insert _ _) (hnew (by omega))
    (hnew (by omega)) fun hgreedy => ?_
  exact h.behind.not_acceptsOutside h.exit_final (Set.mem_insert _ _)
    (hdone (h.greedy_eq ▸ hgreedy))

/-- A round that consumes something accepts behind the copy, even if the end of an empty round is
marked. -/
theorem acceptsOutside_behind {round : List Visit} (hround : c.Accepting text ⟨0, stop⟩ round)
    (hlt : stop < (round.getLastD ⟨0, stop⟩).offset) :
    b.AcceptsOutside text (insert ⟨y.finish, stop⟩ (insert ⟨y.start, stop⟩
      (markedCopy c text start run))) ⟨y.inner, stop⟩ := by
  have hids := h.behind.lt
  have hfinish := h.behind.finish_eq
  obtain ⟨t, -, hlast⟩ := h.part.exists_walk_of_accepting ⟨stop, fun _ => none⟩ hround
  rw [hlast] at hlt
  refine acceptsOutside_iff.2 ⟨_, h.behind.accepting_round h.part.finalsEnd h.exit_final hround
    hlast, .of_notMem fun w hw hmem => ?_⟩
  have hmarked : w = ⟨y.finish, stop⟩ ∨ w.state ≤ y.start := by
    rcases hmem with rfl | rfl | hmem
    · exact .inl rfl
    · exact .inr le_rfl
    · exact .inr (h.state_lt_of_mem_markedCopy hrun hmem).le
  rcases List.mem_append.1 hw with hw | hw
  · obtain ⟨u, hu, rfl⟩ := List.mem_map.1 hw
    have hstate := h.part.state_mem hround u hu
    have hmarked := hmarked.imp_left (congrArg Visit.state)
    simp only [Visit.state_relabel] at hmarked
    omega
  · simp only [List.mem_cons, List.not_mem_nil, or_false] at hw
    rcases hw with rfl | rfl
    · exact hmarked.elim (fun heq => hlt.ne' (congrArg Visit.offset heq))
        (not_le.2 (hids.1.trans hids.2.1))
    · exact hmarked.elim (fun heq => hlt.ne' (congrArg Visit.offset heq))
        (not_le.2 (hids.1.trans (hids.2.1.trans hids.2.2)))

/-- If another round is possible that consumes something, a run that begins with it is guided behind
the copy. In the loop, its rounds are guided when nothing is marked but the states of the block. -/
theorem exists_guided_copy_again (hgreedy : x.greedy = true)
    {round : List Visit} (hround : c.Accepting text ⟨0, stop⟩ round)
    (hlt : stop < (round.getLastD ⟨0, stop⟩).offset) :
    ∃ rest, b.Guided text (insert ⟨y.start, stop⟩ (markedCopy c text start run)) ⟨y.start, stop⟩
        (⟨y.inner, stop⟩ :: rest) ∧
      a.Guided text {⟨x.inner, stop⟩, ⟨x.finish, stop⟩, ⟨x.start, stop⟩} ⟨x.inner, stop⟩
        (rest.map (Visit.relabel (y.toBlock x))) := by
  have hids := h.behind.lt
  obtain ⟨rest, hrest⟩ := exists_guided h.copy_closed h.copy_parted
    (h.acceptsOutside_behind hrun hround hlt).insert_self
  have hedges := h.behind.start_edges_of_greedy h.copy_skip (h.greedy_eq.trans hgreedy)
  refine ⟨rest, (guided_pair_iff (h.behind.isFinal_eq_false (by omega)) hedges (by omega)).2
    (.inl ⟨rest, rfl, h.notMem_insert_markedCopy hrun hids.1, hrest⟩), ?_⟩
  have hm := h.loop.mirrors_rounds h.behind h.loop_skip
  obtain ⟨hstart, hinner, hfinish, -⟩ := h.loop.toBlock_block h.behind
  obtain ⟨hstartD, hinnerD, hfinishD, -⟩ := h.behind.mem_states
  have ht : Tallies (y.toBlock x) y.states (markedCopy c text start run) ∅ := fun u hu =>
    iff_of_false (fun hmem => absurd (h.state_lt_of_mem_markedCopy hrun hmem) (not_lt.2 hu.1))
      (Set.notMem_empty _)
  have ht₃ := ((ht.insert (u := ⟨y.start, stop⟩) hm.injOn hstartD).insert
    (u := ⟨y.finish, stop⟩) hm.injOn hfinishD).insert (u := ⟨y.inner, stop⟩) hm.injOn hinnerD
  rw [Visit.relabel_of_eq hstart, Visit.relabel_of_eq hfinish, Visit.relabel_of_eq hinner,
    insert_empty_eq] at ht₃
  exact h.loop.guided_rounds h.behind hgreedy (h.greedy_eq.trans hgreedy) h.loop_skip h.copy_skip
    h.copy_parted _ (Nat.lt_succ_self _) ht₃ hrest

end First

/-- If a later round is not wanted, or nothing is left open where the first round is over, both
have guided runs, and these end at the same offset. -/
theorem exists_guided (h : Spellings c a b r x y) (hacc : c.Accepts text ⟨0, start⟩)
    (hopen : x.greedy = true → ∀ run, c.Guided text {⟨0, start⟩} ⟨0, start⟩ run →
      ¬r.Postpones c.flags text (run.getLastD ⟨0, start⟩).offset) :
    ∃ run run', a.Guided text {⟨0, start⟩} ⟨0, start⟩ run ∧
      b.Guided text {⟨0, start⟩} ⟨0, start⟩ run' ∧
      (run.getLastD ⟨0, start⟩).offset = (run'.getLastD ⟨0, start⟩).offset := by
  obtain ⟨run, hrun⟩ := Automaton.exists_guided h.part.closed h.part.parted
    (acceptsOutside_empty hacc).insert_self
  rw [insert_empty_eq] at hrun
  obtain ⟨t, -, hlast⟩ := h.part.exists_walk_of_accepting ⟨start, fun _ => none⟩ hrun.accepting
  by_cases hagain : x.greedy = true ∧ ∃ round, c.Accepting text ⟨0, t.offset⟩ round ∧
      t.offset < (round.getLastD ⟨0, t.offset⟩).offset
  · obtain ⟨hgreedy, round, hround, hlt⟩ := hagain
    have hquiet := hopen hgreedy run hrun
    have hoffset : (run.getLastD ⟨0, start⟩).offset = t.offset := congrArg Visit.offset hlast
    rw [hoffset] at hquiet
    have hclear {round : List Visit} (hround : c.Accepting text ⟨0, t.offset⟩ round)
        (hlt : t.offset < (round.getLastD ⟨0, t.offset⟩).offset) :=
      h.part.notMem_kept hrun hoffset hquiet hround hlt
    obtain ⟨rest, hbehind, hrest⟩ := h.exists_guided_copy_again hrun hgreedy hround hlt
    have hloop := h.guided_loop_again hrun hlast hgreedy (hclear hround hlt).1
      (fun _ hround hlt => (hclear hround hlt).2) hrest
    refine ⟨_, _, h.guided_loop hrun hlast hloop, h.guided_copy hrun hlast hbehind, ?_⟩
    simp only [List.getLastD_cons, getLastD_append_cons]
    exact Visit.offset_getLastD_map_relabel _ rest rfl
  · have hdone (hgreedy : x.greedy = true) (round : List Visit)
        (hround : c.Accepting text ⟨0, t.offset⟩ round) :
        ¬t.offset < (round.getLastD ⟨0, t.offset⟩).offset :=
      fun hlt => hagain ⟨hgreedy, round, hround, hlt⟩
    refine ⟨_, _, h.guided_loop hrun hlast (h.guided_loop_leave hrun hdone),
      h.guided_copy hrun hlast (h.guided_copy_leave hrun hdone), ?_⟩
    simp only [List.getLastD_cons, getLastD_append_cons, List.getLastD_nil]

/-- Searches in the two automata both accept or both reject, as one in that of the body does. They
end at the same offset if a later round is not wanted, or nothing is left open where the search for
the body ends. -/
theorem exec_iff (h : Spellings c a b r x y) (text : String) (start : Nat) :
    ∃ result result', Matcher.exec ⟨a, {}⟩ text start = .ok result ∧
      Matcher.exec ⟨b, {}⟩ text start = .ok result' ∧ (result = none ↔ result' = none) ∧
      ((x.greedy = true → ∀ path, Matcher.exec ⟨c, {}⟩ text start = .ok (some path) →
          ¬r.Postpones c.flags text path.stop) →
        result.map Path.stop = result'.map Path.stop) := by
  obtain ⟨result, hexec, hiff⟩ := h.loop_closed.exists_exec text start
  obtain ⟨result', hexec', hiff'⟩ := h.copy_closed.exists_exec text start
  rw [h.accepts_loop_iff] at hiff
  rw [h.accepts_copy_iff] at hiff'
  refine ⟨result, result', hexec, hexec', hiff.trans hiff'.symm, fun hopen => ?_⟩
  by_cases hacc : c.Accepts text ⟨0, start⟩
  · obtain ⟨run, run', hrun, hrun', hoffset⟩ := h.exists_guided hacc fun hgreedy run hrun => by
      obtain ⟨path, hpath, hvisits⟩ := exec_of_guided h.part.closed hrun
      have hstop := hopen hgreedy path hpath
      rwa [Path.stop, Path.last_eq_getLastD hvisits] at hstop
    obtain ⟨path, hpath, hvisits⟩ := exec_of_guided h.loop_closed hrun
    obtain ⟨path', hpath', hvisits'⟩ := exec_of_guided h.copy_closed hrun'
    obtain rfl := Except.ok.inj (hexec.symm.trans hpath)
    obtain rfl := Except.ok.inj (hexec'.symm.trans hpath')
    rw [Option.map_some, Option.map_some, Path.stop, Path.stop, Path.last_eq_getLastD hvisits,
      Path.last_eq_getLastD hvisits', hoffset]
  · rw [hiff.2 hacc, hiff'.2 hacc]

end Spellings

end PatternAutomata.Automaton
