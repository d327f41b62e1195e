import PatternAutomata.Proofs.Pattern.Backtracking
import PatternAutomata.Proofs.Search.Run

/-!
# Regions of an automaton

A region is the part of an automaton that was built for a pattern, as a tree whose nodes keep the
states that were added for them. Two things are said of it separately: how its states are
numbered, and which edges they have. What can be walked through it from its entry to its exit does
not depend on the automaton around it.

## Main definitions

* `Region`, `Region.exit` — regions, and the state where one is left.
* `Region.Numbered` — the states added for a region are numbered consecutively.
* `Region.Fits` — the edges of an automaton are those of a region.
* `Region.spans` — the spans of the groups in a region.
* `Region.Walk` — the visits on a way through a region.
-/
namespace PatternAutomata

/-- The states and the shape of a repeated part. -/
structure Block where
  start : Nat
  inner : Nat
  finish : Nat
  next : Nat
  shape : Fragment.Shape
  greedy : Bool

namespace Block

def startEdges (b : Block) : List Edge :=
  if b.shape.skip then
    if b.greedy then [.free b.inner, .free b.finish] else [.free b.finish, .free b.inner]
  else [.free b.inner]

def finishEdges (b : Block) : List Edge :=
  if b.shape.again then
    if b.greedy then [.free b.start, .free b.next] else [.free b.next, .free b.start]
  else [.free b.next]

end Block

inductive Region where
  | empty
  | edge (label : Label) (target : Nat)
  | seq (first second : Region)
  /-- `count` parts, each entered at a state of its own, all left through `join`. -/
  | alt (count : Nat) (start : Nat → Nat) (part : Nat → Region) (join : Nat)
  | block (b : Block) (body : Region)
  | capture (index first last : Nat) (body : Region)

namespace Region

/-- The state where a region is left that is entered at `entry`. -/
def exit : Region → Nat → Nat
  | empty, entry => entry
  | edge _ target, _ => target
  | seq r r', entry => r'.exit (r.exit entry)
  | alt _ _ _ join, _ => join
  | block b _, _ => b.next
  | capture _ _ last _, _ => last

/-- The states of a region are those from `lo` on and before `hi`, in the order in which they were
added. -/
def Numbered : Region → Nat → Nat → Prop
  | empty, lo, hi => hi = lo
  | edge _ target, lo, hi => target = lo ∧ hi = lo + 1
  | seq r r', lo, hi => ∃ mid, r.Numbered lo mid ∧ r'.Numbered mid hi
  | alt count start part join, lo, hi => ∃ base : Nat → Nat, base 0 = lo ∧
      (∀ i < count, start i = base i ∧ (part i).Numbered (base i + 1) (base (i + 1))) ∧
      join = base count ∧ hi = join + 1
  | block b body, lo, hi =>
    b.start = lo ∧ b.inner = lo + 1 ∧ body.Numbered (lo + 2) b.finish ∧ b.next = b.finish + 1 ∧
      hi = b.finish + 2
  | capture _ first last body, lo, hi => first = lo ∧ body.Numbered (lo + 1) last ∧ hi = last + 1

/-- The states of a region that is entered at `entry` have the edges `edges`, its exit left out. -/
def Fits (edges : Nat → List Edge) : Region → Nat → Prop
  | empty, _ => True
  | edge label target, entry => edges entry = [⟨label, target⟩]
  | seq r r', entry => r.Fits edges entry ∧ r'.Fits edges (r.exit entry)
  | alt count start part join, entry =>
    0 < count ∧ edges entry = (List.range count).map (fun i => .free (start i)) ∧
      ∀ i < count, (part i).Fits edges (start i) ∧ edges ((part i).exit (start i)) = [.free join]
  | block b body, entry =>
    edges entry = [.free b.start] ∧ edges b.start = b.startEdges ∧ body.Fits edges b.inner ∧
      edges (body.exit b.inner) = [.free b.finish] ∧ edges b.finish = b.finishEdges
  | capture _ first last body, entry =>
    edges entry = [.free first] ∧ body.Fits edges first ∧
      edges (body.exit first) = [.free last]

/-- The spans of the groups in a region, in the order in which they are recorded. -/
def spans : Region → List (Nat × GroupSpan)
  | empty | edge _ _ => []
  | seq r r' => r.spans ++ r'.spans
  | alt count _ part _ => (List.range count).flatMap fun i => (part i).spans
  | block _ body => body.spans
  | capture index first last body => body.spans ++ [(index, ⟨first, last⟩)]

/-- The visits that follow the start of a block until its finish is reached. -/
inductive Lap (b : Block) (W : Cursor → List Visit → Cursor → Prop) :
    Cursor → List Visit → Cursor → Prop
  | skip {s : Cursor} : b.shape.skip = true → Lap b W s [⟨b.finish, s.offset⟩] s
  | through {s t : Cursor} {run : List Visit} :
      W s run t → Lap b W s (⟨b.inner, s.offset⟩ :: (run ++ [⟨b.finish, t.offset⟩])) t

/-- The visits that follow the start of a block until it is left. -/
inductive Laps (b : Block) (W : Cursor → List Visit → Cursor → Prop) :
    Cursor → List Visit → Cursor → Prop
  | leave {s t : Cursor} {lap : List Visit} :
      Lap b W s lap t → Laps b W s (lap ++ [⟨b.next, t.offset⟩]) t
  | again {s t u : Cursor} {lap laps : List Visit} :
      b.shape.again = true → Lap b W s lap t → Laps b W t laps u →
      Laps b W s (lap ++ ⟨b.start, t.offset⟩ :: laps) u

/-- The visits that follow the entry of a region on a way to its exit. -/
def Walk (flags : Flags) (text : String) : Region → Cursor → List Visit → Cursor → Prop
  | empty, s, run, t => run = [] ∧ t = s
  | edge label target, s, run, t => ∃ offset, label.pass? flags text s.offset = some offset ∧
      run = [⟨target, offset⟩] ∧ t = s.goto offset
  | seq r r', s, run, u => ∃ run₁ t run₂, r.Walk flags text s run₁ t ∧
      r'.Walk flags text t run₂ u ∧ run = run₁ ++ run₂
  | alt count start part join, s, run, t => ∃ i < count, ∃ run',
      (part i).Walk flags text s run' t ∧
      run = ⟨start i, s.offset⟩ :: (run' ++ [⟨join, t.offset⟩])
  | block b body, s, run, t => ∃ run', Laps b (body.Walk flags text) s run' t ∧
      run = ⟨b.start, s.offset⟩ :: run'
  | capture index first last body, s, run, u => ∃ t run', body.Walk flags text s run' t ∧
      run = ⟨first, s.offset⟩ :: (run' ++ [⟨last, t.offset⟩]) ∧ u = t.report index s.offset

section Numbered

variable {r : Region} {lo hi : Nat}

theorem base_le {count : Nat} {base : Nat → Nat} (hbase : ∀ i < count, base i < base (i + 1))
    {i j : Nat} (hij : i ≤ j) (hj : j ≤ count) : base i ≤ base j := by
  induction j with
  | zero => rw [Nat.le_zero.1 hij]
  | succ j ih =>
    rcases Nat.le_succ_iff.1 hij with hij | rfl
    · exact (ih hij (Nat.le_of_succ_le hj)).trans (hbase j hj).le
    · exact le_rfl

theorem Numbered.le (h : r.Numbered lo hi) : lo ≤ hi := by
  induction r generalizing lo hi with
  | empty => exact h.ge
  | edge => exact h.2 ▸ Nat.le_succ _
  | seq r r' ih ih' =>
    obtain ⟨mid, h, h'⟩ := h
    exact (ih h).trans (ih' h')
  | alt count start part join ih =>
    obtain ⟨base, rfl, hparts, rfl, rfl⟩ := h
    have hbase : ∀ i < count, base i < base (i + 1) := fun i hi => ih i (hparts i hi).2
    exact (base_le hbase (Nat.zero_le _) le_rfl).trans (Nat.le_succ _)
  | block b body ih =>
    obtain ⟨-, -, h, -, rfl⟩ := h
    have := ih h
    omega
  | capture index first last body ih =>
    obtain ⟨-, h, rfl⟩ := h
    have := ih h
    omega

section Parts

variable {count i j : Nat} {start base : Nat → Nat} {part : Nat → Region}

/-- The parts of an alternation lie one behind the other. -/
theorem base_le_of_numbered
    (hnums : ∀ i < count, start i = base i ∧ (part i).Numbered (base i + 1) (base (i + 1)))
    (hij : i ≤ j) (hj : j ≤ count) : base i ≤ base j :=
  base_le (fun i hi => (hnums i hi).2.le) hij hj

/-- A part of an alternation ends before the next ones are entered. -/
theorem base_succ_le_of_numbered
    (hnums : ∀ i < count, start i = base i ∧ (part i).Numbered (base i + 1) (base (i + 1)))
    (hij : i < j) (hj : j ≤ count) : base (i + 1) ≤ base j :=
  base_le_of_numbered hnums hij hj

/-- The states of a part, with the one where it is entered, are states of the alternation. -/
theorem part_bounds
    (hnums : ∀ i < count, start i = base i ∧ (part i).Numbered (base i + 1) (base (i + 1)))
    (hi : i < count) :
    base 0 ≤ base i ∧ start i = base i ∧ base i < base (i + 1) ∧ base (i + 1) ≤ base count :=
  ⟨base_le_of_numbered hnums (Nat.zero_le i) hi.le, (hnums i hi).1, (hnums i hi).2.le,
    base_succ_le_of_numbered hnums hi le_rfl⟩

/-- A state belongs to one part of an alternation only. -/
theorem eq_of_numbered
    (hnums : ∀ i < count, start i = base i ∧ (part i).Numbered (base i + 1) (base (i + 1)))
    (id : Nat) (hi : i < count) (hj : j < count) (h : base i ≤ id ∧ id < base (i + 1))
    (h' : base j ≤ id ∧ id < base (j + 1)) : i = j := by
  rcases Nat.lt_trichotomy i j with hlt | heq | hgt
  · have := base_succ_le_of_numbered hnums hlt hj.le
    omega
  · exact heq
  · have := base_succ_le_of_numbered hnums hgt hi.le
    omega

/-- Each part of an alternation is entered at a state of its own. -/
theorem eq_of_start_eq
    (hnums : ∀ i < count, start i = base i ∧ (part i).Numbered (base i + 1) (base (i + 1)))
    (hi : i < count) (hj : j < count) (h : start i = start j) : i = j := by
  have hbounds := part_bounds hnums hi
  have hbounds' := part_bounds hnums hj
  exact eq_of_numbered hnums (start i) hi hj (by omega) (by omega)

end Parts

/-- A region is left at its entry or at one of its states. -/
theorem Numbered.exit_mem (h : r.Numbered lo hi) (entry : Nat) :
    r.exit entry = entry ∧ hi = lo ∨ lo ≤ r.exit entry ∧ r.exit entry < hi := by
  induction r generalizing lo hi entry with
  | empty => exact .inl ⟨rfl, h⟩
  | edge label target =>
    obtain ⟨rfl, rfl⟩ := h
    exact .inr ⟨le_rfl, Nat.lt_succ_self _⟩
  | seq r r' ih ih' =>
    obtain ⟨mid, h, h'⟩ := h
    have := h.le
    have := h'.le
    have := ih h entry
    have := ih' h' (r.exit entry)
    simp only [exit]
    omega
  | alt count start part join =>
    obtain ⟨base, rfl, hparts, rfl, rfl⟩ := h
    exact .inr ⟨base_le_of_numbered hparts (Nat.zero_le _) le_rfl, Nat.lt_succ_self _⟩
  | block b body =>
    obtain ⟨-, -, h, hn, rfl⟩ := h
    have := h.le
    simp only [exit]
    omega
  | capture index first last body =>
    obtain ⟨-, h, rfl⟩ := h
    have := h.le
    simp only [exit]
    omega

end Numbered

end Region

end PatternAutomata
