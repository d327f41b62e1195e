import PatternAutomata.Proofs.Region.Postponement

/-!
# Rounds of a repeated automaton

An automaton may be found again as the body of a block. A round through the block is a run of that
automaton then, and if two blocks have the same body, a guided run that goes round in one of them is
guided in the other as well, as long as the same visits are marked.

## Main definitions

* `Automaton.Repeats` — an automaton is the body of a block.

## Main statements

* `Automaton.Repeats.exists_longer` — a round whose end is marked consumes something.
* `Automaton.Repeats.guided_rounds` — rounds of one block are rounds of another.
-/
namespace PatternAutomata

/-- The states from the start of a block to the state behind it. -/
def Block.states (x : Block) : Set Nat :=
  {id | x.start ≤ id ∧ id ≤ x.next}

/-- From the states of one block to those of another. -/
def Block.toBlock (y x : Block) (id : Nat) : Nat :=
  id - y.start + x.start

namespace Automaton

variable {a b c : Automaton} {text : String} {seen seen' : Set Visit} {v w : Visit}
  {run run' : List Visit} {out : Nat} {x y : Block}

/-- The automaton `c`, which accepts at `out` and nowhere else, is the body of the block `x` of the
automaton `a`, which accepts where the block is left. -/
structure Repeats (c a : Automaton) (out : Nat) (x : Block) : Prop where
  mirrors : c.Mirrors a (· + x.inner) {id | id < c.stateCount ∧ id ≠ out} out
    {id | id < c.stateCount}
  start_edges : a.edgesOf x.start = x.startEdges
  outer_edges : a.edgesOf (out + x.inner) = [.free x.finish]
  finish_edges : a.edgesOf x.finish = x.finishEdges
  next_edges : a.edgesOf x.next = []
  final_iff : ∀ id, a.isFinal id = true ↔ id = x.next
  inner_eq : x.inner = x.start + 1
  finish_eq : x.finish = x.inner + c.stateCount
  next_eq : x.next = x.finish + 1
  again : x.shape.again = true

namespace Repeats

theorem finalsEnd (h : c.Repeats a out x) : a.FinalsEnd := fun id hf => by
  rw [(h.final_iff id).1 hf, h.next_edges]

theorem out_lt (h : c.Repeats a out x) : out < c.stateCount :=
  h.mirrors.subset (Set.mem_insert _ _)

/-- The states of the block itself stand in order. -/
theorem lt (h : c.Repeats a out x) :
    x.start < x.inner ∧ x.inner < x.finish ∧ x.finish < x.next := by
  have := h.out_lt
  have := h.inner_eq
  have := h.finish_eq
  have := h.next_eq
  omega

theorem mem_states (h : c.Repeats a out x) : x.start ∈ x.states ∧ x.inner ∈ x.states ∧
    x.finish ∈ x.states ∧ x.next ∈ x.states := by
  have := h.lt
  simp only [Block.states, Set.mem_ofPred_eq]
  omega

theorem zero_mem (h : c.Repeats a out x) :
    0 ∈ insert out {id | id < c.stateCount ∧ id ≠ out} := by
  have hlt := h.out_lt
  by_cases hout : 0 = out
  · exact .inl hout
  · exact .inr ⟨by omega, hout⟩

theorem isFinal_eq_false (h : c.Repeats a out x) {id : Nat} (hne : id ≠ x.next) :
    a.isFinal id = false :=
  Bool.eq_false_iff.2 fun hf => hne ((h.final_iff id).1 hf)

/-- A run from where a round begins goes through the body, and to where the round ends. -/
theorem exists_round (h : c.Repeats a out x) (hfinal : c.isFinal out = true) {offset : Nat}
    (hacc : a.Accepting text ⟨x.inner, offset⟩ run') :
    ∃ run rest, c.Accepting text ⟨0, offset⟩ run ∧ (run.getLastD ⟨0, offset⟩).state = out ∧
      run' = run.map (Visit.relabel (· + x.inner)) ++
        ⟨x.finish, (run.getLastD ⟨0, offset⟩).offset⟩ :: rest := by
  rw [← Visit.relabel_zero] at hacc
  obtain ⟨run, rest, rfl, hlast, hrest, hmore⟩ := h.mirrors.exists_accepting h.zero_mem hacc
  have hedges : a.edgesOf ((run.getLastD ⟨0, offset⟩).relabel (· + x.inner)).state =
      [.free x.finish] := by
    rw [Visit.state_relabel, hlast, h.outer_edges]
  obtain ⟨rest, rfl, -⟩ := hrest.along_free h.finalsEnd hedges
  refine ⟨run, rest, ?_, hlast, rfl⟩
  have hacc := hmore [] (.final (hlast ▸ hfinal))
  rwa [List.append_nil] at hacc

/-- A run through the body goes on to where the block is left. -/
theorem accepting_round (h : c.Repeats a out x) (hend : c.FinalsEnd) (hfinal : c.isFinal out = true)
    {offset stop : Nat} (hround : c.Accepting text ⟨0, offset⟩ run)
    (hlast : run.getLastD ⟨0, offset⟩ = ⟨out, stop⟩) :
    a.Accepting text ⟨x.inner, offset⟩
      (run.map (Visit.relabel (· + x.inner)) ++ [⟨x.finish, stop⟩, ⟨x.next, stop⟩]) := by
  have hnext : Edge.free x.next ∈ a.edgesOf x.finish :=
    h.finish_edges ▸ Block.mem_finishEdges.2 (.inl rfl)
  have hfinish : Edge.free x.finish ∈ a.edgesOf (out + x.inner) :=
    h.outer_edges ▸ List.mem_singleton_self _
  have hleave : a.Accepting text (Visit.relabel (· + x.inner) ⟨out, stop⟩)
      [⟨x.finish, stop⟩, ⟨x.next, stop⟩] :=
    .step (step_free hfinish) (.step (step_free hnext) (.final ((h.final_iff _).2 rfl)))
  have haccepting := h.mirrors.accepting_append hend hfinal h.zero_mem hround (hlast ▸ hleave)
  rwa [Visit.relabel_zero] at haccepting

/-- If the end of a round is marked where the round begins, something is consumed in it. -/
theorem exists_longer (h : c.Repeats a out x) (hfinal : c.isFinal out = true) {offset : Nat}
    (hmarked : ⟨x.finish, offset⟩ ∈ seen) (hacc : a.Accepting text ⟨x.inner, offset⟩ run')
    (hclear : Clear seen ⟨x.inner, offset⟩ run') :
    ∃ run rest, c.Accepting text ⟨0, offset⟩ run ∧ offset < (run.getLastD ⟨0, offset⟩).offset ∧
      run' = run.map (Visit.relabel (· + x.inner)) ++
        ⟨x.finish, (run.getLastD ⟨0, offset⟩).offset⟩ :: rest := by
  obtain ⟨run, rest, hrun, hlast, rfl⟩ := h.exists_round hfinal hacc
  refine ⟨run, rest, hrun, lt_of_le_of_ne hrun.offset_le_last fun heq => ?_, rfl⟩
  rw [← Visit.relabel_zero, ← heq] at hclear
  have hclear := hclear.of_append
  rw [Visit.getLastD_map_relabel] at hclear
  exact hclear.1 heq hmarked

/-- Marks that are in the way of no round that consumes something do not disturb a guided run that
begins with a round, if the end of that is marked: what follows the round lies behind all marks. -/
theorem guided_widen (h : c.Repeats a out x) (hfinal : c.isFinal out = true) {offset : Nat}
    (hrun : a.Guided text seen ⟨x.inner, offset⟩ run) (hmarked : ⟨x.finish, offset⟩ ∈ seen)
    (hs : seen ⊆ seen') (hle : ∀ w ∈ seen', w.offset ≤ offset)
    (hround : ∀ round, c.Accepting text ⟨0, offset⟩ round →
      offset < (round.getLastD ⟨0, offset⟩).offset →
        ∀ u ∈ round, u.relabel (· + x.inner) ∉ seen') :
    a.Guided text seen' ⟨x.inner, offset⟩ run := by
  refine hrun.widen_of_clear hs fun run' hacc hclear => .of_notMem fun w hw => ?_
  obtain ⟨round, rest, hacc', hlt, rfl⟩ := h.exists_longer hfinal hmarked hacc hclear
  rcases List.mem_append.1 hw with hw | hw
  · obtain ⟨u, hu, rfl⟩ := List.mem_map.1 hw
    exact hround round hacc' hlt u hu
  · have hrest := hacc.of_append (List.cons_append ..).symm
    have hoffset : (round.getLastD ⟨0, offset⟩).offset ≤ w.offset := by
      rcases List.mem_cons.1 hw with rfl | hw
      · exact le_rfl
      · exact hrest.le_offset w hw
    exact fun hmem => absurd (hle w hmem) (by omega)

theorem not_acceptsOutside (h : c.Repeats a out x) (hfinal : c.isFinal out = true) {offset : Nat}
    (hmarked : ⟨x.finish, offset⟩ ∈ seen)
    (hnone : ∀ round, c.Accepting text ⟨0, offset⟩ round →
      ¬offset < (round.getLastD ⟨0, offset⟩).offset) :
    ¬a.AcceptsOutside text seen ⟨x.inner, offset⟩ := by
  intro hacc
  obtain ⟨run, hrun, hclear⟩ := acceptsOutside_iff.1 hacc
  obtain ⟨round, -, hround, hlt, -⟩ := h.exists_longer hfinal hmarked hrun hclear
  exact hnone round hround hlt

section Blocks

variable (h : c.Repeats a out x) (h' : c.Repeats b out y)

include h h'

theorem toBlock_body (id : Nat) : y.toBlock x (id + y.inner) = id + x.inner := by
  have := h.inner_eq
  have := h'.inner_eq
  simp only [Block.toBlock]
  omega

theorem toBlock_block : y.toBlock x y.start = x.start ∧ y.toBlock x y.inner = x.inner ∧
    y.toBlock x y.finish = x.finish ∧ y.toBlock x y.next = x.next := by
  have := h.inner_eq
  have := h.finish_eq
  have := h.next_eq
  have := h'.inner_eq
  have := h'.finish_eq
  have := h'.next_eq
  simp only [Block.toBlock]
  omega

/-- The block `x`, where nothing but the body can be entered, has no edges around the body that the
block `y` has not. -/
theorem exists_edge_around (hskip : x.shape.skip = false) {id : Nat}
    (hid : id = y.start ∨ id = out + y.inner ∨ id = y.finish) :
    a.isFinal (y.toBlock x id) = false ∧ ∀ e' ∈ a.edgesOf (y.toBlock x id),
      ∃ e ∈ b.edgesOf id, e.target ∈ y.states ∧ e' = e.relabel (y.toBlock x) := by
  obtain ⟨hstart, hinner, hfinish, hnext⟩ := toBlock_block h h'
  obtain ⟨hstartD, hinnerD, hfinishD, hnextD⟩ := h'.mem_states
  have hids := h.lt
  have hout := h.out_lt
  have hfin := h.finish_eq
  rcases hid with rfl | rfl | rfl
  · refine ⟨h.isFinal_eq_false (by omega), fun e' he' => ?_⟩
    rw [hstart, h.start_edges, Block.mem_startEdges] at he'
    obtain rfl := he'.resolve_right fun hs => by simp [hskip] at hs
    exact ⟨.free y.inner, h'.start_edges ▸ Block.mem_startEdges.2 (.inl rfl), hinnerD,
      by rw [Edge.relabel_free, hinner]⟩
  · rw [toBlock_body h h', h.outer_edges, h'.outer_edges]
    refine ⟨h.isFinal_eq_false (by omega), fun e' he' => ?_⟩
    obtain rfl := List.mem_singleton.1 he'
    exact ⟨_, List.mem_singleton_self _, hfinishD, by rw [Edge.relabel_free, hfinish]⟩
  · refine ⟨h.isFinal_eq_false (by omega), fun e' he' => ?_⟩
    rw [hfinish, h.finish_edges, Block.mem_finishEdges] at he'
    rw [h'.finish_edges]
    rcases he' with rfl | ⟨-, rfl⟩
    · exact ⟨.free y.next, Block.mem_finishEdges.2 (.inl rfl), hnextD,
        by rw [Edge.relabel_free, hnext]⟩
    · exact ⟨.free y.start, Block.mem_finishEdges.2 (.inr ⟨h'.again, rfl⟩), hstartD,
        by rw [Edge.relabel_free, hstart]⟩

/-- Two blocks with the same body have the same rounds, as far as these are possible in the block
`x`, where nothing but the body can be entered. -/
theorem mirrors_rounds (hskip : x.shape.skip = false) :
    b.Mirrors a (y.toBlock x) ((· + y.inner) '' {id | id < c.stateCount ∧ id ≠ out})
      (out + y.inner) y.states where
  flags_eq := h.mirrors.flags_eq.trans h'.mirrors.flags_eq.symm
  injOn := by
    rintro id ⟨hid, -⟩ id' ⟨hid', -⟩ heq
    simp only [Block.toBlock] at heq
    omega
  subset := by
    have := h'.out_lt
    have := h'.inner_eq
    have := h'.finish_eq
    have := h'.next_eq
    rintro id (rfl | ⟨q, ⟨hq, -⟩, rfl⟩)
    · exact (by omega : y.start ≤ out + y.inner ∧ out + y.inner ≤ y.next)
    · exact (by omega : y.start ≤ q + y.inner ∧ q + y.inner ≤ y.next)
  out_notMem := by
    rintro ⟨q, ⟨-, hq⟩, heq⟩
    exact hq (Nat.add_right_cancel heq)
  edges_eq := by
    rintro _ ⟨q, hq, rfl⟩
    rw [toBlock_body h h', h.mirrors.edges_eq q hq, h'.mirrors.edges_eq q hq, List.map_map]
    refine List.map_congr_left fun e _ => ?_
    rw [Function.comp_apply, Edge.relabel, Edge.relabel, Edge.relabel, toBlock_body h h']
  not_final := by
    rintro _ ⟨q, hq, rfl⟩
    rw [toBlock_body h h']
    exact ⟨(h'.mirrors.not_final q hq).2, (h.mirrors.not_final q hq).2⟩
  target_mem := by
    rintro _ ⟨q, hq, rfl⟩ e he
    rw [h'.mirrors.edges_eq q hq] at he
    obtain ⟨e₀, he₀, rfl⟩ := List.mem_map.1 he
    exact (h'.mirrors.target_mem q hq e₀ he₀).imp (congrArg (· + y.inner))
      (Set.mem_image_of_mem _)
  covered := by
    have := h'.inner_eq
    have := h'.finish_eq
    have := h'.next_eq
    rintro id ⟨hlo, hhi⟩ hS
    by_cases hnext : id = y.next
    · exact .inl ((h'.final_iff _).2 hnext)
    · refine .inr (exists_edge_around h h' hskip ?_)
      by_contra hnot
      exact hS ⟨id - y.inner, ⟨by omega, by omega⟩, Nat.sub_add_cancel (by omega)⟩

end Blocks

/-- A block that may not be skipped has to be entered. -/
theorem start_edges_of_not_skip (h : c.Repeats a out x) (hskip : x.shape.skip = false) :
    a.edgesOf x.start = [.free x.inner] := by
  rw [h.start_edges, Block.startEdges, if_neg (by simp [hskip])]

/-- In a greedy block, a round is preferred to skipping it. -/
theorem start_edges_of_greedy (h : c.Repeats a out x) (hskip : x.shape.skip = true)
    (hgreedy : x.greedy = true) : a.edgesOf x.start = [.free x.inner, .free x.finish] := by
  rw [h.start_edges, Block.startEdges, if_pos hskip, if_pos hgreedy]

/-- In a greedy block, another round is preferred to leaving. -/
theorem finish_edges_of_greedy (h : c.Repeats a out x) (hgreedy : x.greedy = true) :
    a.edgesOf x.finish = [.free x.start, .free x.next] := by
  rw [h.finish_edges, Block.finishEdges, if_pos h.again, if_pos hgreedy]

theorem guided_next_iff (h : c.Repeats a out x) {offset : Nat} :
    a.Guided text seen ⟨x.next, offset⟩ run ↔ run = [] := by
  have hf : a.isFinal x.next = true := (h.final_iff _).2 rfl
  constructor
  · intro hrun
    cases hrun with
    | final => rfl
    | step hf' =>
      rw [hf] at hf'
      cases hf'
  · rintro rfl
    exact .final hf

/-- A block is left where a round ends, if it is not greedy or nothing else leads anywhere. -/
theorem guided_leave (h : c.Repeats a out x) {offset : Nat} (hnew : ⟨x.next, offset⟩ ∉ seen)
    (hdone : x.greedy = true → ⟨x.start, offset⟩ ∈ seen ∨
      ¬a.AcceptsOutside text (insert ⟨x.next, offset⟩ seen) ⟨x.start, offset⟩) :
    a.Guided text seen ⟨x.finish, offset⟩ [⟨x.next, offset⟩] := by
  have hids := h.lt
  have hfinal : a.isFinal x.finish = false := h.isFinal_eq_false (by omega)
  have hedges := h.finish_edges
  rw [Block.finishEdges, if_pos h.again] at hedges
  split at hedges
  · exact (guided_pair_iff hfinal hedges (by omega)).2
      (.inr ⟨[], rfl, hnew, hdone ‹_›, h.guided_next_iff.2 rfl⟩)
  · exact (guided_pair_iff hfinal hedges (by omega)).2
      (.inl ⟨[], rfl, hnew, h.guided_next_iff.2 rfl⟩)

/-- A block that may be skipped is, if it is not greedy or its body leads nowhere. -/
theorem guided_skip (h : c.Repeats a out x) (hskip : x.shape.skip = true) {offset : Nat}
    (hstart : ⟨x.start, offset⟩ ∈ seen) (hnew : ⟨x.finish, offset⟩ ∉ seen)
    (hnew' : ⟨x.next, offset⟩ ∉ seen)
    (hdone : x.greedy = true →
      ¬a.AcceptsOutside text (insert ⟨x.finish, offset⟩ seen) ⟨x.inner, offset⟩) :
    a.Guided text seen ⟨x.start, offset⟩ [⟨x.finish, offset⟩, ⟨x.next, offset⟩] := by
  have hids := h.lt
  have hfinal : a.isFinal x.start = false := h.isFinal_eq_false (by omega)
  have hedges := h.start_edges
  rw [Block.startEdges, if_pos hskip] at hedges
  split at hedges
  · refine (guided_pair_iff hfinal hedges (by omega)).2 (.inr ⟨_, rfl, hnew, .inr (hdone ‹_›), ?_⟩)
    refine h.guided_leave ?_ fun _ => .inl (.inr hstart)
    simp only [Set.mem_insert_iff, Visit.mk.injEq]
    grind
  · refine (guided_pair_iff hfinal hedges (by omega)).2 (.inl ⟨_, rfl, hnew, ?_⟩)
    refine h.guided_leave ?_ fun _ => .inl (.inr (.inr hstart))
    simp only [Set.mem_insert_iff, Visit.mk.injEq]
    grind

section Greedy

variable (h : c.Repeats a out x) (h' : c.Repeats b out y) (hgreedy : x.greedy = true)
  (hgreedy' : y.greedy = true) (hskip : x.shape.skip = false) (hskip' : y.shape.skip = true)

/-- Runs of fewer than `n` visits that are guided from the start of a round in one block are guided
in the other. -/
def CarriesRounds (a b : Automaton) (text : String) (x y : Block) (n : Nat) : Prop :=
  ∀ {seen seen' : Set Visit} {offset : Nat} {run : List Visit}, run.length < n →
    Tallies (y.toBlock x) y.states seen seen' →
    b.Guided text seen ⟨y.inner, offset⟩ run →
    a.Guided text seen' ⟨x.inner, offset⟩ (run.map (Visit.relabel (y.toBlock x)))

include h h' hgreedy' hskip hskip'

/-- What is guided where another round begins goes into the body. The end of an empty round is
marked, so the body cannot be passed by. -/
theorem guided_again {n offset : Nat} (hrounds : CarriesRounds a b text x y n)
    (ht : Tallies (y.toBlock x) y.states seen seen') (hmarked : ⟨y.finish, offset⟩ ∈ seen)
    (hle : run.length ≤ n) (hrun : b.Guided text seen ⟨y.start, offset⟩ run) :
    a.Guided text seen' ⟨x.start, offset⟩ (run.map (Visit.relabel (y.toBlock x))) := by
  have hm := mirrors_rounds h h' hskip
  have hto : Visit.relabel (y.toBlock x) ⟨y.inner, offset⟩ = ⟨x.inner, offset⟩ :=
    Visit.relabel_of_eq (toBlock_block h h').2.1
  have hinnerD := h'.mem_states.2.1
  have hids := h.lt
  have hids' := h'.lt
  have hedges := h.start_edges_of_not_skip hskip
  have hedges' := h'.start_edges_of_greedy hskip' hgreedy'
  rcases (guided_pair_iff (h'.isFinal_eq_false (by omega)) hedges' (by omega)).1 hrun with
    ⟨run, rfl, hn, hrun⟩ | ⟨-, -, hn, -⟩
  · rw [Set.insert_eq_of_mem hmarked] at hrun
    rw [List.map_cons, hto]
    refine (guided_only_iff (h.isFinal_eq_false (by omega)) hedges).2
      ⟨_, rfl, hto ▸ ht.notMem hinnerD hn, ?_⟩
    exact hrounds hle (hto ▸ ht.insert hm.injOn hinnerD) hrun
  · exact absurd hmarked hn

include hgreedy

/-- What is guided where a round ends either leaves the block or begins another round. -/
theorem guided_finish {n offset : Nat} (hrounds : CarriesRounds a b text x y n)
    (ht : Tallies (y.toBlock x) y.states seen seen') (hmarked : ⟨y.finish, offset⟩ ∈ seen)
    (hlt : run.length < n) (hrun : b.Guided text seen ⟨y.finish, offset⟩ run) :
    a.Guided text seen' ⟨x.finish, offset⟩ (run.map (Visit.relabel (y.toBlock x))) := by
  have hm := mirrors_rounds h h' hskip
  obtain ⟨hstart, -, -, hnext⟩ := toBlock_block h h'
  have htoStart : Visit.relabel (y.toBlock x) ⟨y.start, offset⟩ = ⟨x.start, offset⟩ :=
    Visit.relabel_of_eq hstart
  have htoNext : Visit.relabel (y.toBlock x) ⟨y.next, offset⟩ = ⟨x.next, offset⟩ :=
    Visit.relabel_of_eq hnext
  obtain ⟨hstartD, -, -, hnextD⟩ := h'.mem_states
  have hids := h.lt
  have hids' := h'.lt
  have hedges := h.finish_edges_of_greedy hgreedy
  have hedges' := h'.finish_edges_of_greedy hgreedy'
  have hfinal : a.isFinal x.finish = false := h.isFinal_eq_false (by omega)
  have htNext := ht.insert (u := ⟨y.next, offset⟩) hm.injOn hnextD
  rcases (guided_pair_iff (h'.isFinal_eq_false (by omega)) hedges' (by omega)).1 hrun with
    ⟨run, rfl, hn, hrun⟩ | ⟨run, rfl, hn, hpre, hrun⟩
  · have htStart := htNext.insert (u := ⟨y.start, offset⟩) hm.injOn hstartD
    rw [htoStart, htoNext] at htStart
    rw [List.map_cons, htoStart]
    refine (guided_pair_iff hfinal hedges (by omega)).2
      (.inl ⟨_, rfl, htoStart ▸ ht.notMem hstartD hn, ?_⟩)
    exact guided_again h h' hgreedy' hskip hskip' hrounds htStart (.inr (.inr hmarked))
      ((Nat.le_succ _).trans hlt.le) hrun
  · obtain rfl := h'.guided_next_iff.1 hrun
    rw [List.map_singleton, htoNext]
    refine (guided_pair_iff hfinal hedges (by omega)).2
      (.inr ⟨[], rfl, ?_, ?_, h.guided_next_iff.2 rfl⟩)
    · exact htoNext ▸ ht.notMem hnextD hn
    · rcases hpre with hmem | hdead
      · exact .inl (htoStart ▸ (ht _ hstartD).1 hmem)
      · refine .inr fun hacc => hdead ?_
        rw [← htoStart, ← htoNext] at hacc
        exact hm.acceptsOutside htNext hstartD hacc

/-- Rounds that are guided in one block are guided in the other. -/
theorem guided_rounds (hp : b.Parted) (n : Nat) : CarriesRounds a b text x y n := by
  have hm := mirrors_rounds h h' hskip
  obtain ⟨-, hinner, hfinish, -⟩ := toBlock_block h h'
  obtain ⟨-, -, hfinishD, -⟩ := h'.mem_states
  have hids := h.lt
  have hids' := h'.lt
  have hout := h.out_lt
  have hfin := h.finish_eq
  have hfin' := h'.finish_eq
  induction n with
  | zero => exact fun hlt => absurd hlt (Nat.not_lt_zero _)
  | succ n ih =>
    intro seen seen' offset run hlt ht hrun
    have hentry : y.inner ∈
        insert (out + y.inner) ((· + y.inner) '' {id | id < c.stateCount ∧ id ≠ out}) := by
      refine h.zero_mem.imp (fun hid => ?_) fun hid => ⟨0, hid, Nat.zero_add _⟩
      omega
    obtain ⟨run₁, run₂, rfl, hlast, hkept, hguided, hback⟩ :=
      hm.carry (v := ⟨y.inner, offset⟩) hp ht hentry hrun
    have ht₁ := ht.union hm.injOn hkept
    generalize run₁.getLastD ⟨y.inner, offset⟩ = last at *
    obtain ⟨id, stop⟩ := last
    obtain rfl : id = out + y.inner := hlast
    obtain ⟨run, rfl, hn, hrun⟩ :=
      (guided_only_iff (h'.isFinal_eq_false (by omega)) h'.outer_edges).1 hguided
    have hto : Visit.relabel (y.toBlock x) ⟨y.finish, stop⟩ = ⟨x.finish, stop⟩ :=
      Visit.relabel_of_eq hfinish
    have ht₂ := ht₁.insert (u := ⟨y.finish, stop⟩) hm.injOn hfinishD
    have hlt : run.length < n := by
      rw [List.length_append, List.length_cons] at hlt
      omega
    have hfinished := guided_finish h h' hgreedy hgreedy' hskip hskip' ih ht₂
      (Set.mem_insert _ _) hlt hrun
    have houter := (guided_only_iff (h.isFinal_eq_false (by omega)) h.outer_edges).2
      ⟨_, rfl, hto ▸ ht₁.notMem hfinishD hn, hto ▸ hfinished⟩
    have hrounds := hback _ ((toBlock_body h h' out).symm ▸ houter)
    rw [List.map_append, List.map_cons, hto]
    exact hinner ▸ hrounds

end Greedy

end Repeats

/-- A block whose body has the shape of the region of an automaton repeats this automaton. -/
theorem IsRegion.repeats {r body : Region} {entry lo hi : Nat} (hc : c.IsRegion r)
    (hlike : r.Alike body) (hn : (Region.block x body).Numbered lo hi)
    (hf : (Region.block x body).Fits a.edgesOf entry) (hflags : a.flags = c.flags)
    (hagain : x.shape.again = true) (hfinal : ∀ id, a.isFinal id = true ↔ id = x.next)
    (hnext : a.edgesOf x.next = []) : c.Repeats a (r.exit 0) x := by
  obtain ⟨hstart, hinner, hnum, hfinish, -⟩ := hn
  obtain ⟨-, hstarts, hfit, houter, hfinishes⟩ := hf
  have hnum : body.Numbered (x.inner + 1) x.finish := hinner ▸ hnum
  have hsize := hlike.size_eq hc.numbered hnum
  have hexit : r.exit 0 + x.inner = body.exit x.inner :=
    hlike.exit_eq hc.numbered hnum (f := (· + x.inner)) (Nat.zero_add x.inner)
      (Region.shifts_add 1 c.stateCount x.inner)
  have hmirrors := hc.mirrors hlike hnum hfit hflags fun id hid =>
    Bool.eq_false_iff.2 fun h => by
      have := (hfinal id).1 h
      omega
  exact ⟨hmirrors, hstarts, hexit ▸ houter, hfinishes, hnext, hfinal, by omega, by omega, hfinish,
    hagain⟩

end Automaton

end PatternAutomata
