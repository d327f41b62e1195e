import PatternAutomata.Proofs.Region.Passage

/-!
# Ordered outcomes of a region

The outcomes of a region are where its walks can end, in order of preference. That they are all of
them needs every repeated part to consume something: then a block has no more rounds than there
are bytes left.

## Main definitions

* `Region.outcomes` — the ordered outcomes.
* `Region.Idle`, `Region.Productive` — a walk that consumes nothing, and no such walk through a
  repeated part.

## Main statements

* `Region.exists_walk_of_mem`, `Region.mem_outcomes_of_walk` — the outcomes are the ends of the
  walks.
* `Region.accepts_iff_outcomes` — what accepts from the entry of a region.
-/
namespace PatternAutomata

namespace Block

/-- How many rounds may follow a round that ends at `offset`. -/
def more (b : Block) (length offset : Nat) : Nat :=
  if b.shape.again then length - offset else 0

/-- The outcomes of a block in a text of `length` bytes whose rounds consume something. -/
def outcomes (b : Block) (round : Cursor → List Cursor) (length : Nat) (s : Cursor) :
    List Cursor :=
  if b.shape.skip then
    Repetition.upTo round b.greedy (if b.shape.again then length - s.offset else 1) s
  else (round s).flatMap fun t => Repetition.upTo round b.greedy (b.more length t.offset) t

end Block

namespace Region

section Definitions

variable (flags : Flags) (text : String)

/-- Where a region can be left, the preferred outcomes first. -/
def outcomes : Region → Cursor → List Cursor
  | empty, s => [s]
  | edge label _, s => ((label.pass? flags text s.offset).map s.goto).toList
  | seq r r', s => (r.outcomes s).flatMap r'.outcomes
  | alt count _ part _, s => (List.range count).flatMap fun i => (part i).outcomes s
  | block b body, s => b.outcomes body.outcomes text.utf8ByteSize s
  | capture index _ _ body, s => (body.outcomes s).map (·.report index s.offset)

/-- A walk through the region at `offset` consumes nothing. -/
def Idle (r : Region) (offset : Nat) : Prop :=
  ∃ s run t, s.offset = offset ∧ t.offset = offset ∧ r.Walk flags text s run t

/-- Every walk through a repeated part consumes something. -/
def Productive : Region → Prop
  | empty | edge _ _ => True
  | seq r r' => r.Productive ∧ r'.Productive
  | alt count _ part _ => ∀ i < count, (part i).Productive
  | block _ body =>
    body.Productive ∧ ∀ offset, Text.IsBoundary text offset → ¬body.Idle flags text offset
  | capture _ _ _ body => body.Productive

end Definitions

variable {flags : Flags} {text : String} {r : Region} {b : Block} {s s' t : Cursor}
  {run : List Visit} {W : Cursor → List Visit → Cursor → Prop} {round : Cursor → List Cursor}

/-- What the groups have reported has no influence on a lap. -/
theorem Laps.transfer
    (hW : ∀ s run t, W s run t → ∀ s', s'.offset = s.offset →
      ∃ t', t'.offset = t.offset ∧ W s' run t')
    (h : Laps b W s run t) (hs : s'.offset = s.offset) :
    ∃ t', t'.offset = t.offset ∧ Laps b W s' run t' := by
  have hlap {s t s' : Cursor} {lap : List Visit} (h : Lap b W s lap t)
      (hs : s'.offset = s.offset) : ∃ t', t'.offset = t.offset ∧ Lap b W s' lap t' := by
    cases h with
    | skip hskip => exact ⟨s', hs, hs ▸ .skip hskip⟩
    | through h =>
      obtain ⟨t', ht, h⟩ := hW _ _ _ h s' hs
      exact ⟨t', ht, ht ▸ hs ▸ .through h⟩
  induction h generalizing s' with
  | leave h =>
    obtain ⟨t', ht, h⟩ := hlap h hs
    exact ⟨t', ht, ht ▸ .leave h⟩
  | again hagain h _ ih =>
    obtain ⟨t', ht, h⟩ := hlap h hs
    obtain ⟨u', hu, h'⟩ := ih ht
    exact ⟨u', hu, ht ▸ .again hagain h h'⟩

/-- What the groups have reported has no influence on a walk. -/
theorem Walk.transfer (h : r.Walk flags text s run t) (hs : s'.offset = s.offset) :
    ∃ t', t'.offset = t.offset ∧ r.Walk flags text s' run t' := by
  induction r generalizing s run t s' with
  | empty =>
    obtain ⟨rfl, rfl⟩ := h
    exact ⟨s', hs, rfl, rfl⟩
  | edge label target =>
    obtain ⟨offset, hpass, rfl, rfl⟩ := h
    exact ⟨s'.goto offset, rfl, offset, hs ▸ hpass, rfl, rfl⟩
  | seq r r' ih ih' =>
    obtain ⟨run₁, m, run₂, h, h', rfl⟩ := h
    obtain ⟨m', hm, h⟩ := ih h hs
    obtain ⟨t', ht, h'⟩ := ih' h' hm
    exact ⟨t', ht, _, m', _, h, h', rfl⟩
  | alt count start part join ih =>
    obtain ⟨i, hi, run', h, rfl⟩ := h
    obtain ⟨t', ht, h⟩ := ih i h hs
    exact ⟨t', ht, i, hi, run', h, by rw [hs, ht]⟩
  | block b body ih =>
    obtain ⟨run', h, rfl⟩ := h
    obtain ⟨t', ht, h⟩ := Laps.transfer (W := body.Walk flags text) (fun _ _ _ h _ => ih h) h hs
    exact ⟨t', ht, run', h, by rw [hs]⟩
  | capture index first last body ih =>
    obtain ⟨m, run', h, rfl, rfl⟩ := h
    obtain ⟨m', hm, h⟩ := ih h hs
    exact ⟨m'.report index s'.offset, hm, m', run', h, by rw [hs, hm], rfl⟩

theorem Idle.exists_walk {offset : Nat} (h : r.Idle flags text offset) (hs : s.offset = offset) :
    ∃ run t, t.offset = offset ∧ r.Walk flags text s run t := by
  obtain ⟨s', run, t', hs', ht', h⟩ := h
  obtain ⟨t, ht, h⟩ := h.transfer (hs.trans hs'.symm)
  exact ⟨run, t, ht.trans ht', h⟩

theorem mem_upTo_succ {greedy : Bool} {n : Nat} :
    t ∈ Repetition.upTo round greedy (n + 1) s ↔
      t = s ∨ ∃ m ∈ round s, t ∈ Repetition.upTo round greedy n m := by
  cases greedy <;> simp [Repetition.upTo, or_comm]

theorem mem_upTo_iff {greedy : Bool} {n : Nat} :
    t ∈ Repetition.upTo round greedy n s ↔ ∃ k ≤ n, t ∈ Repetition.exactly round k s := by
  induction n generalizing s with
  | zero => simp [Repetition.upTo, Repetition.exactly]
  | succ n ih =>
    rw [mem_upTo_succ]
    constructor
    · rintro (rfl | ⟨m, hm, h⟩)
      · exact ⟨0, Nat.zero_le _, List.mem_singleton_self _⟩
      · obtain ⟨k, hk, h⟩ := ih.1 h
        exact ⟨k + 1, Nat.succ_le_succ hk, List.mem_flatMap.2 ⟨m, hm, h⟩⟩
    · rintro ⟨_ | k, hk, h⟩
      · exact .inl (List.mem_singleton.1 h)
      · obtain ⟨m, hm, h⟩ := List.mem_flatMap.1 h
        exact .inr ⟨m, hm, ih.2 ⟨k, Nat.le_of_succ_le_succ hk, h⟩⟩

theorem exists_laps_of_exactly (hW : ∀ s t, t ∈ round s → ∃ run, W s run t) {k : Nat}
    (h : t ∈ Repetition.exactly round (k + 1) s) (hagain : b.shape.again = true ∨ k = 0) :
    ∃ run, Laps b W s run t := by
  induction k generalizing s with
  | zero =>
    obtain ⟨m, hm, h⟩ := List.mem_flatMap.1 h
    obtain rfl := List.mem_singleton.1 h
    obtain ⟨run, hrun⟩ := hW _ _ hm
    exact ⟨_, .leave (.through hrun)⟩
  | succ k ih =>
    have hagain : b.shape.again = true := by simpa using hagain
    obtain ⟨m, hm, h⟩ := List.mem_flatMap.1 h
    obtain ⟨run, hrun⟩ := hW _ _ hm
    obtain ⟨laps, hlaps⟩ := ih h (.inl hagain)
    exact ⟨_, .again hagain (.through hrun) hlaps⟩

theorem exists_exactly_of_laps
    (hW : ∀ s run t, Text.IsBoundary text s.offset → W s run t →
      t ∈ round s ∧ Text.IsBoundary text t.offset)
    (h : Laps b W s run t) (hs : Text.IsBoundary text s.offset) :
    ∃ k, t ∈ Repetition.exactly round k s ∧ (b.shape.skip = true ∨ 1 ≤ k) ∧
      (b.shape.again = true ∨ k ≤ 1) := by
  have hlap {s t : Cursor} {lap : List Visit} (h : Lap b W s lap t)
      (hs : Text.IsBoundary text s.offset) : Text.IsBoundary text t.offset ∧
        (t = s ∧ b.shape.skip = true ∨ t ∈ round s) := by
    cases h with
    | skip hskip => exact ⟨hs, .inl ⟨rfl, hskip⟩⟩
    | through h =>
      obtain ⟨hmem, ht⟩ := hW _ _ _ hs h
      exact ⟨ht, .inr hmem⟩
  induction h with
  | leave h =>
    obtain ⟨-, ⟨rfl, hskip⟩ | hmem⟩ := hlap h hs
    · exact ⟨0, List.mem_singleton_self _, .inl hskip, .inr (Nat.zero_le _)⟩
    · refine ⟨1, ?_, .inr le_rfl, .inr le_rfl⟩
      exact List.mem_flatMap.2 ⟨_, hmem, List.mem_singleton_self _⟩
  | again hagain h _ ih =>
    obtain ⟨ht, hcases⟩ := hlap h hs
    obtain ⟨k, hmem', hskip', -⟩ := ih ht
    rcases hcases with ⟨rfl, hskip⟩ | hmem
    · exact ⟨k, hmem', hskip', .inl hagain⟩
    · exact ⟨k + 1, List.mem_flatMap.2 ⟨_, hmem, hmem'⟩, .inr (by omega), .inl hagain⟩

/-- If every round consumes something, there are no more rounds than bytes consumed. -/
theorem add_le_of_mem_exactly
    (hround : ∀ s t, Text.IsBoundary text s.offset → t ∈ round s →
      s.offset < t.offset ∧ Text.IsBoundary text t.offset)
    (hs : Text.IsBoundary text s.offset) {k : Nat} (h : t ∈ Repetition.exactly round k s) :
    s.offset + k ≤ t.offset ∧ Text.IsBoundary text t.offset := by
  induction k generalizing s with
  | zero =>
    obtain rfl := List.mem_singleton.1 h
    exact ⟨le_rfl, hs⟩
  | succ k ih =>
    obtain ⟨m, hm, h⟩ := List.mem_flatMap.1 h
    obtain ⟨hlt, hm⟩ := hround s m hs hm
    obtain ⟨hle, ht⟩ := ih hm h
    exact ⟨by omega, ht⟩

/-- Every outcome is the end of a walk. -/
theorem exists_walk_of_mem (h : t ∈ r.outcomes flags text s) :
    ∃ run, r.Walk flags text s run t := by
  induction r generalizing s t with
  | empty => exact ⟨[], rfl, List.mem_singleton.1 h⟩
  | edge label target =>
    simp only [outcomes, Option.mem_toList, Option.map_eq_some_iff] at h
    obtain ⟨offset, hpass, rfl⟩ := h
    exact ⟨_, offset, hpass, rfl, rfl⟩
  | seq r r' ih ih' =>
    obtain ⟨m, hm, h⟩ := List.mem_flatMap.1 h
    obtain ⟨run, hrun⟩ := ih hm
    obtain ⟨run', hrun'⟩ := ih' h
    exact ⟨_, _, m, _, hrun, hrun', rfl⟩
  | alt count start part join ih =>
    obtain ⟨i, hi, h⟩ := List.mem_flatMap.1 h
    obtain ⟨run, hrun⟩ := ih i h
    exact ⟨_, i, List.mem_range.1 hi, run, hrun, rfl⟩
  | block b body ih =>
    have hlaps : ∃ run, Laps b (body.Walk flags text) s run t := by
      simp only [outcomes, Block.outcomes] at h
      split at h
      case isTrue hskip =>
        obtain ⟨k, hk, h⟩ := mem_upTo_iff.1 h
        cases k with
        | zero =>
          obtain rfl := List.mem_singleton.1 h
          exact ⟨_, .leave (.skip hskip)⟩
        | succ k =>
          apply exists_laps_of_exactly (fun _ _ => ih) h
          split at hk
          · exact .inl ‹_›
          · exact .inr (by omega)
      case isFalse =>
        obtain ⟨m, hm, h⟩ := List.mem_flatMap.1 h
        obtain ⟨k, hk, h⟩ := mem_upTo_iff.1 h
        refine exists_laps_of_exactly (k := k) (fun _ _ => ih)
          (List.mem_flatMap.2 ⟨m, hm, h⟩) ?_
        rw [Block.more] at hk
        split at hk
        · exact .inl ‹_›
        · exact .inr (by omega)
    obtain ⟨run, hrun⟩ := hlaps
    exact ⟨_, run, hrun, rfl⟩
  | capture index first last body ih =>
    obtain ⟨m, hm, rfl⟩ := List.mem_map.1 h
    obtain ⟨run, hrun⟩ := ih hm
    exact ⟨_, m, run, hrun, rfl, rfl⟩

/-- A walk through a repeated part consumes something. -/
theorem Walk.offset_lt (h : r.Walk flags text s run t) (hi : ¬r.Idle flags text s.offset) :
    s.offset < t.offset := by
  refine lt_of_le_of_ne h.offset_le fun heq => hi ⟨s, run, t, rfl, heq.symm, h⟩

theorem isBoundary_of_mem (hs : Text.IsBoundary text s.offset) (h : t ∈ r.outcomes flags text s) :
    Text.IsBoundary text t.offset := by
  obtain ⟨run, hrun⟩ := exists_walk_of_mem h
  exact hrun.isBoundary hs

/-- A round of a repeated part consumes something. -/
theorem Productive.offset_lt {body : Region} (hp : (block b body).Productive flags text)
    (hs : Text.IsBoundary text s.offset) (h : t ∈ body.outcomes flags text s) :
    s.offset < t.offset := by
  obtain ⟨run, hrun⟩ := exists_walk_of_mem h
  exact hrun.offset_lt (hp.2 _ hs)

/-- Every walk ends at an outcome, if walks through repeated parts consume something. -/
theorem mem_outcomes_of_walk (hp : r.Productive flags text) (hs : Text.IsBoundary text s.offset)
    (h : r.Walk flags text s run t) : t ∈ r.outcomes flags text s := by
  induction r generalizing s run t with
  | empty =>
    obtain ⟨-, rfl⟩ := h
    exact List.mem_singleton_self _
  | edge label target =>
    obtain ⟨offset, hpass, -, rfl⟩ := h
    simp [outcomes, hpass]
  | seq r r' ih ih' =>
    obtain ⟨run₁, m, run₂, h, h', -⟩ := h
    exact List.mem_flatMap.2 ⟨m, ih hp.1 hs h, ih' hp.2 (h.isBoundary hs) h'⟩
  | alt count start part join ih =>
    obtain ⟨i, hi, run', h, -⟩ := h
    exact List.mem_flatMap.2 ⟨i, List.mem_range.2 hi, ih i (hp i hi) hs h⟩
  | block b body ih =>
    obtain ⟨run', h, -⟩ := h
    have hround (s t : Cursor) (hs : Text.IsBoundary text s.offset)
        (h : t ∈ body.outcomes flags text s) :
        s.offset < t.offset ∧ Text.IsBoundary text t.offset :=
      ⟨hp.offset_lt hs h, isBoundary_of_mem hs h⟩
    obtain ⟨k, hk, hskip, hagain⟩ := exists_exactly_of_laps
      (fun s run t hs h => ⟨ih hp.1 hs h, h.isBoundary hs⟩) h hs
    simp only [outcomes, Block.outcomes]
    split
    case isTrue =>
      obtain ⟨hle, ht⟩ := add_le_of_mem_exactly hround hs hk
      have hlen := ht.le
      refine mem_upTo_iff.2 ⟨k, ?_, hk⟩
      split
      · omega
      · exact hagain.resolve_left ‹_›
    case isFalse hnot =>
      obtain ⟨k, rfl⟩ := Nat.exists_eq_add_of_le' (hskip.resolve_left hnot)
      obtain ⟨m, hm, hk⟩ := List.mem_flatMap.1 hk
      obtain ⟨hle, ht⟩ := add_le_of_mem_exactly hround (hround s m hs hm).2 hk
      have hlen := ht.le
      refine List.mem_flatMap.2 ⟨m, hm, mem_upTo_iff.2 ⟨k, ?_, hk⟩⟩
      rw [Block.more]
      split
      · omega
      · have := hagain.resolve_left ‹_›
        omega
  | capture index first last body ih =>
    obtain ⟨m, run', h, -, rfl⟩ := h
    exact List.mem_map.2 ⟨m, ih hp hs h, rfl⟩

/-- From the entry of a region accepts what some outcome leads to. -/
theorem accepts_iff_outcomes {a : Automaton} {entry : Nat} (hend : a.FinalsEnd)
    (hfit : r.Fits a.edgesOf entry) (hp : r.Productive a.flags text)
    (hs : Text.IsBoundary text s.offset) :
    a.Accepts text ⟨entry, s.offset⟩ ↔
      ∃ t ∈ r.outcomes a.flags text s, a.Accepts text ⟨r.exit entry, t.offset⟩ := by
  rw [accepts_iff hend hfit s]
  constructor
  · rintro ⟨run, t, hwalk, h⟩
    exact ⟨t, mem_outcomes_of_walk hp hs hwalk, h⟩
  · rintro ⟨t, hmem, h⟩
    obtain ⟨run, hwalk⟩ := exists_walk_of_mem hmem
    exact ⟨run, t, hwalk, h⟩

end Region

end PatternAutomata
