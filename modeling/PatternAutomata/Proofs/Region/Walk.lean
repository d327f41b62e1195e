import PatternAutomata.Proofs.Region.Basic

/-!
# Where a walk leads

A walk through a region never goes back in the text, visits only the states that were added for
the region, and ends at its exit.

## Main statements

* `Region.Walk.between`, `Region.Walk.state_mem`, `Region.Walk.getLastD_eq` — these three facts.
* `Region.Walk.isBoundary` — a walk that starts between two characters ends between two characters.
-/
namespace PatternAutomata

theorem Label.isBoundary_of_pass? {l : Label} {flags : Flags} {text : String} {offset offset' : Nat}
    (hs : Text.IsBoundary text offset) (h : l.pass? flags text offset = some offset') :
    Text.IsBoundary text offset' := by
  cases hl : l.isEpsilon with
  | true => rwa [pass?_eq_of_isEpsilon hl h]
  | false =>
    obtain ⟨c, hc, -, rfl⟩ := (pass?_consuming hl).1 h
    exact Text.isBoundary_of_charAt hc

namespace Region

variable {flags : Flags} {text : String} {r : Region} {b : Block} {s t u : Cursor}
  {run run' : List Visit} {W : Cursor → List Visit → Cursor → Prop}

/-- The visits of `run` lie between two cursors, which are in order. -/
def Between (s : Cursor) (run : List Visit) (t : Cursor) : Prop :=
  s.offset ≤ t.offset ∧ ∀ v ∈ run, s.offset ≤ v.offset ∧ v.offset ≤ t.offset

theorem between_single (s : Cursor) (id : Nat) : Between s [⟨id, s.offset⟩] s := by
  simp [Between]

theorem Between.append (h : Between s run t) (h' : Between t run' u) :
    Between s (run ++ run') u := by
  refine ⟨h.1.trans h'.1, fun v hv => ?_⟩
  rcases List.mem_append.1 hv with hv | hv
  · exact ⟨(h.2 v hv).1, (h.2 v hv).2.trans h'.1⟩
  · exact ⟨h.1.trans (h'.2 v hv).1, (h'.2 v hv).2⟩

theorem Lap.between (hW : ∀ s run t, W s run t → Between s run t) (h : Lap b W s run t) :
    Between s run t := by
  cases h with
  | skip => exact between_single s _
  | through h => exact (between_single s _).append ((hW _ _ _ h).append (between_single t _))

theorem Laps.between (hW : ∀ s run t, W s run t → Between s run t) (h : Laps b W s run t) :
    Between s run t := by
  induction h with
  | leave h => exact (h.between hW).append (between_single _ _)
  | again _ h _ ih => exact (h.between hW).append ((between_single _ _).append ih)

/-- A walk never goes back in the text. -/
theorem Walk.between (h : r.Walk flags text s run t) : Between s run t := by
  induction r generalizing s run t with
  | empty =>
    obtain ⟨rfl, rfl⟩ := h
    simp [Between]
  | edge label target =>
    obtain ⟨offset, h, rfl, rfl⟩ := h
    simpa [Between] using Label.le_of_pass? h
  | seq r r' ih ih' =>
    obtain ⟨run₁, m, run₂, h, h', rfl⟩ := h
    exact (ih h).append (ih' h')
  | alt count start part join ih =>
    obtain ⟨i, -, run', h, rfl⟩ := h
    exact (between_single s _).append ((ih i h).append (between_single t _))
  | block b body ih =>
    obtain ⟨run', h, rfl⟩ := h
    exact (between_single s _).append (h.between fun _ _ _ => ih)
  | capture index first last body ih =>
    obtain ⟨m, run', h, rfl, rfl⟩ := h
    exact (between_single s _).append ((ih h).append (between_single m _))

theorem Walk.offset_le (h : r.Walk flags text s run t) : s.offset ≤ t.offset :=
  h.between.1

theorem Laps.forall_state {P : Nat → Prop} (hstart : P b.start) (hinner : P b.inner)
    (hfinish : P b.finish) (hnext : P b.next)
    (hW : ∀ s run t, W s run t → ∀ v ∈ run, P v.state) (h : Laps b W s run t) :
    ∀ v ∈ run, P v.state := by
  have hlap {s t : Cursor} {lap : List Visit} (h : Lap b W s lap t) : ∀ v ∈ lap, P v.state := by
    cases h with
    | skip => simpa using hfinish
    | through h =>
      simp only [List.forall_mem_cons, List.forall_mem_append, List.not_mem_nil, IsEmpty.forall_iff,
      implies_true, and_true]
      exact ⟨hinner, hW _ _ _ h, hfinish⟩
  induction h with
  | leave h =>
    simp only [List.forall_mem_cons, List.forall_mem_append, List.not_mem_nil, IsEmpty.forall_iff,
      implies_true, and_true]
    exact ⟨hlap h, hnext⟩
  | again _ h _ ih =>
    simp only [List.forall_mem_cons, List.forall_mem_append]
    exact ⟨hlap h, hstart, ih⟩

/-- A walk visits only states that were added for the region. -/
theorem Walk.state_mem {lo hi : Nat} (hn : r.Numbered lo hi) (h : r.Walk flags text s run t) :
    ∀ v ∈ run, lo ≤ v.state ∧ v.state < hi := by
  induction r generalizing s run t lo hi with
  | empty =>
    obtain ⟨rfl, rfl⟩ := h
    simp
  | edge label target =>
    obtain ⟨offset, h, rfl, rfl⟩ := h
    obtain ⟨rfl, rfl⟩ := hn
    simp
  | seq r r' ih ih' =>
    obtain ⟨run₁, m, run₂, h, h', rfl⟩ := h
    obtain ⟨mid, hn, hn'⟩ := hn
    have hle := hn.le
    have hle' := hn'.le
    intro v hv
    rcases List.mem_append.1 hv with hv | hv
    · exact ⟨(ih hn h v hv).1, (ih hn h v hv).2.trans_le hle'⟩
    · exact ⟨hle.trans (ih' hn' h' v hv).1, (ih' hn' h' v hv).2⟩
  | alt count start part join ih =>
    obtain ⟨i, hlt, run', h, rfl⟩ := h
    obtain ⟨base, rfl, hparts, rfl, rfl⟩ := hn
    obtain ⟨hlo, hstart, hpart, hhi⟩ := part_bounds hparts hlt
    simp only [List.forall_mem_cons, List.forall_mem_append, List.not_mem_nil, IsEmpty.forall_iff,
      implies_true, and_true, hstart]
    refine ⟨by omega, fun v hv => ?_, by omega⟩
    have := ih i (hparts i hlt).2 h v hv
    omega
  | block b body ih =>
    obtain ⟨run', h, rfl⟩ := h
    obtain ⟨rfl, hinner, hn, hnext, rfl⟩ := hn
    have hle := hn.le
    simp only [List.forall_mem_cons]
    refine ⟨by omega, h.forall_state (P := fun id => b.start ≤ id ∧ id < b.finish + 2)
      (by omega) (by omega) (by omega) (by omega) fun s run t h v hv => ?_⟩
    have := ih hn h v hv
    omega
  | capture index first last body ih =>
    obtain ⟨m, run', h, rfl, rfl⟩ := h
    obtain ⟨rfl, hn, rfl⟩ := hn
    have hle := hn.le
    simp only [List.forall_mem_cons, List.forall_mem_append, List.not_mem_nil, IsEmpty.forall_iff,
      implies_true, and_true]
    refine ⟨by omega, fun v hv => ?_, by omega⟩
    have := ih hn h v hv
    omega

theorem Laps.getLastD_eq (h : Laps b W s run t) (v : Visit) :
    run.getLastD v = ⟨b.next, t.offset⟩ := by
  induction h generalizing v with
  | leave h => simp
  | again _ h _ ih =>
    rename_i u lap laps _ _
    simpa [List.getLast?_append, List.getLast?_cons] using ih ⟨b.start, _⟩

/-- A walk ends at the exit. -/
theorem Walk.getLastD_eq (h : r.Walk flags text s run t) (entry : Nat) :
    run.getLastD ⟨entry, s.offset⟩ = ⟨r.exit entry, t.offset⟩ := by
  induction r generalizing s run t entry with
  | empty =>
    obtain ⟨rfl, rfl⟩ := h
    rfl
  | edge label target =>
    obtain ⟨offset, h, rfl, rfl⟩ := h
    rfl
  | seq r r' ih ih' =>
    obtain ⟨run₁, m, run₂, h, h', rfl⟩ := h
    have h := ih h entry
    have h' := ih' h' (r.exit entry)
    simp only [List.getLastD_eq_getLast?, List.getLast?_append] at h h' ⊢
    grind [exit]
  | alt count start part join ih =>
    obtain ⟨i, -, run', -, rfl⟩ := h
    rw [← List.cons_append, List.getLastD_concat]
    rfl
  | block b body ih =>
    obtain ⟨run', h, rfl⟩ := h
    rw [List.getLastD_cons]
    exact h.getLastD_eq _
  | capture index first last body ih =>
    obtain ⟨m, run', -, rfl, rfl⟩ := h
    rw [← List.cons_append, List.getLastD_concat]
    rfl

theorem Laps.isBoundary
    (hW : ∀ s run t, W s run t → Text.IsBoundary text s.offset → Text.IsBoundary text t.offset)
    (h : Laps b W s run t) (hs : Text.IsBoundary text s.offset) :
    Text.IsBoundary text t.offset := by
  have hlap {s t : Cursor} {lap : List Visit} (h : Lap b W s lap t)
      (hs : Text.IsBoundary text s.offset) : Text.IsBoundary text t.offset := by
    cases h with
    | skip => exact hs
    | through h => exact hW _ _ _ h hs
  induction h with
  | leave h => exact hlap h hs
  | again _ h _ ih => exact ih (hlap h hs)

theorem Walk.isBoundary (h : r.Walk flags text s run t) (hs : Text.IsBoundary text s.offset) :
    Text.IsBoundary text t.offset := by
  induction r generalizing s run t with
  | empty =>
    obtain ⟨-, rfl⟩ := h
    exact hs
  | edge label target =>
    obtain ⟨offset, h, -, rfl⟩ := h
    exact Label.isBoundary_of_pass? hs h
  | seq r r' ih ih' =>
    obtain ⟨run₁, m, run₂, h, h', -⟩ := h
    exact ih' h' (ih h hs)
  | alt count start part join ih =>
    obtain ⟨i, -, run', h, -⟩ := h
    exact ih i h hs
  | block b body ih =>
    obtain ⟨run', h, -⟩ := h
    exact h.isBoundary (fun _ _ _ h hs => ih h hs) hs
  | capture index first last body ih =>
    obtain ⟨m, run', h, -, rfl⟩ := h
    exact (ih h hs : Text.IsBoundary text m.offset)

end Region

end PatternAutomata
