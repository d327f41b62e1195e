import Mathlib.Logic.Relation
import PatternAutomata.Proofs.Region.Arrows

/-!
# No state of a region is in vain

Whatever its edges ask for when they are passed, every state of a region can be reached from the
entry, and from every state the exit can be reached. The same holds between the entry and the exit
of each copy of a group.

## Main definitions

* `Edge.Reaches` — edges lead from one state to another.
* `Region.Traversed` — the states of a region lie between its entry and its exit.

## Main statements

* `Region.Fits.traversed` — the states of a region lie between its entry and its exit.
* `Region.Fits.span_reaches` — a copy of a group can be left.
-/
namespace PatternAutomata

/-- Edges lead from the first state to the second, conditions and characters apart. -/
def Edge.Reaches (edges : Nat → List Edge) : Nat → Nat → Prop :=
  Relation.ReflTransGen fun id id' => ∃ e ∈ edges id, e.target = id'

namespace Edge.Reaches

variable {edges : Nat → List Edge} {i j k : Nat}

theorem refl (edges : Nat → List Edge) (i : Nat) : Reaches edges i i :=
  Relation.ReflTransGen.refl

theorem trans (h : Reaches edges i j) (h' : Reaches edges j k) : Reaches edges i k :=
  Relation.ReflTransGen.trans h h'

theorem edge {e : Edge} (he : e ∈ edges i) : Reaches edges i e.target :=
  .single ⟨e, he, rfl⟩

theorem free (h : .free j ∈ edges i) : Reaches edges i j :=
  edge h

/-- The only edge of a state. -/
theorem only (h : edges i = [.free j]) : Reaches edges i j :=
  free (h ▸ List.mem_singleton_self _)

end Edge.Reaches

namespace Region

open Edge (Reaches)

variable {r : Region} {edges : Nat → List Edge} {entry lo hi : Nat}

/-- The states of a region that is entered at `entry` can be reached from there, and its exit from
them. -/
def Traversed (edges : Nat → List Edge) (r : Region) (entry lo hi : Nat) : Prop :=
  ∀ ⦃id : Nat⦄, id = entry ∨ lo ≤ id ∧ id < hi →
    Reaches edges entry id ∧ Reaches edges id (r.exit entry)

theorem Traversed.across (h : Traversed edges r entry lo hi) :
    Reaches edges entry (r.exit entry) :=
  (h (.inl rfl)).2

theorem traversed_edge {label : Label} {target : Nat} (hf : (edge label target).Fits edges entry)
    (hn : (edge label target).Numbered lo hi) :
    Traversed edges (edge label target) entry lo hi := by
  intro id hid
  obtain ⟨rfl, rfl⟩ := hn
  have hedge : Reaches edges entry target :=
    .edge (e := ⟨label, target⟩) (hf ▸ List.mem_singleton_self _)
  rcases hid with rfl | hid
  · exact ⟨.refl _ _, hedge⟩
  · obtain rfl : id = target := by omega
    exact ⟨hedge, .refl _ _⟩

theorem traversed_seq {r' : Region} {mid : Nat} (h : Traversed edges r entry lo mid)
    (h' : Traversed edges r' (r.exit entry) mid hi) : Traversed edges (seq r r') entry lo hi := by
  intro id hid
  by_cases hfirst : id = entry ∨ lo ≤ id ∧ id < mid
  · obtain ⟨hto, hfrom⟩ := h hfirst
    exact ⟨hto, hfrom.trans h'.across⟩
  · have hsecond : id = r.exit entry ∨ mid ≤ id ∧ id < hi := by omega
    obtain ⟨hto, hfrom⟩ := h' hsecond
    exact ⟨h.across.trans hto, hfrom⟩

theorem traversed_alt {count : Nat} {start base : Nat → Nat} {part : Nat → Region}
    (hf : (alt count start part (base count)).Fits edges entry)
    (hstart : ∀ i < count, start i = base i)
    (h : ∀ i < count, Traversed edges (part i) (start i) (base i + 1) (base (i + 1))) :
    Traversed edges (alt count start part (base count)) entry (base 0) (base count + 1) := by
  intro id hid
  obtain ⟨hpos, hedges, hparts⟩ := hf
  have hbranch (i : Nat) (hi : i < count) : Reaches edges entry (start i) :=
    .free (hedges ▸ List.mem_map.2 ⟨i, List.mem_range.2 hi, rfl⟩)
  have hjoin (i : Nat) (hi : i < count) : Reaches edges ((part i).exit (start i)) (base count) :=
    .only (hparts i hi).2
  have hacross : Reaches edges entry (base count) :=
    (hbranch 0 hpos).trans ((h 0 hpos).across.trans (hjoin 0 hpos))
  rcases hid with rfl | hid
  · exact ⟨.refl _ _, hacross⟩
  by_cases hlast : id = base count
  · subst hlast
    exact ⟨hacross, .refl _ _⟩
  · have hlt : id < base count := by omega
    obtain ⟨i, hi, hbase⟩ := exists_between_bases hid.1 hlt
    have := hstart i hi
    have hmem : id = start i ∨ base i + 1 ≤ id ∧ id < base (i + 1) := by omega
    obtain ⟨hto, hfrom⟩ := h i hi hmem
    exact ⟨(hbranch i hi).trans hto, hfrom.trans (hjoin i hi)⟩

theorem traversed_block {b : Block} {body : Region} (hf : (block b body).Fits edges entry)
    (hn : (block b body).Numbered lo hi) (h : Traversed edges body b.inner (lo + 2) b.finish) :
    Traversed edges (block b body) entry lo hi := by
  intro id hid
  obtain ⟨hentry, hstartEdges, -, houter, hfinishEdges⟩ := hf
  obtain ⟨hstart, hinner, hn, hnext, hhi⟩ := hn
  have hle := hn.le
  have henter : Reaches edges entry b.start := .only hentry
  have hbegin : Reaches edges b.start b.inner :=
    .free (hstartEdges ▸ Block.mem_startEdges.2 (.inl rfl))
  have hout : Reaches edges (body.exit b.inner) b.finish := .only houter
  have hleave : Reaches edges b.finish b.next :=
    .free (hfinishEdges ▸ Block.mem_finishEdges.2 (.inl rfl))
  have hround : Reaches edges b.start b.finish := hbegin.trans (h.across.trans hout)
  by_cases hinside : id = b.inner ∨ lo + 2 ≤ id ∧ id < b.finish
  · obtain ⟨hto, hfrom⟩ := h hinside
    exact ⟨henter.trans (hbegin.trans hto), hfrom.trans (hout.trans hleave)⟩
  · obtain rfl | rfl | rfl | rfl : id = entry ∨ id = b.start ∨ id = b.finish ∨ id = b.next := by
      omega
    · exact ⟨.refl _ _, henter.trans (hround.trans hleave)⟩
    · exact ⟨henter, hround.trans hleave⟩
    · exact ⟨henter.trans hround, hleave⟩
    · exact ⟨henter.trans (hround.trans hleave), .refl _ _⟩

theorem traversed_capture {index first last : Nat} {body : Region}
    (hf : (capture index first last body).Fits edges entry)
    (hn : (capture index first last body).Numbered lo hi)
    (h : Traversed edges body first (lo + 1) last) :
    Traversed edges (capture index first last body) entry lo hi := by
  intro id hid
  obtain ⟨hentry, -, hclosing⟩ := hf
  obtain ⟨rfl, hn, rfl⟩ := hn
  have hle := hn.le
  have hopen : Reaches edges entry first := .only hentry
  have hclose : Reaches edges (body.exit first) last := .only hclosing
  have hacross : Reaches edges entry last := hopen.trans (h.across.trans hclose)
  by_cases hinside : id = first ∨ first + 1 ≤ id ∧ id < last
  · obtain ⟨hto, hfrom⟩ := h hinside
    exact ⟨hopen.trans hto, hfrom.trans hclose⟩
  · obtain rfl | rfl : id = entry ∨ id = last := by omega
    · exact ⟨.refl _ _, hacross⟩
    · exact ⟨hacross, .refl _ _⟩

/-- The states of a region can be reached from its entry, and its exit from them. -/
theorem Fits.traversed (hf : r.Fits edges entry) (hn : r.Numbered lo hi) :
    Traversed edges r entry lo hi := by
  induction r generalizing entry lo hi with
  | empty =>
    intro id hid
    have : hi = lo := hn
    obtain rfl : id = entry := by omega
    exact ⟨.refl _ _, .refl _ _⟩
  | edge => exact traversed_edge hf hn
  | seq r r' ih ih' =>
    obtain ⟨mid, hn, hn'⟩ := hn
    exact traversed_seq (ih hf.1 hn) (ih' hf.2 hn')
  | alt count start part join ih =>
    obtain ⟨base, rfl, hnums, rfl, rfl⟩ := hn
    exact traversed_alt hf (fun i hi => (hnums i hi).1)
      fun i hi => ih i (hf.2.2 i hi).1 (hnums i hi).2
  | block b body ih => exact traversed_block hf hn (ih hf.2.2.1 hn.2.2.1)
  | capture index first last body ih =>
    have hn' := hn
    obtain ⟨rfl, hbody, -⟩ := hn'
    exact traversed_capture hf hn (ih hf.2.1 hbody)

/-- From the entry of a copy of a group its exit can be reached. -/
theorem Fits.span_reaches {index : Nat} {g : GroupSpan} (hf : r.Fits edges entry)
    (hn : r.Numbered lo hi) (hg : (index, g) ∈ r.spans) : Reaches edges g.entry g.exit := by
  induction r generalizing entry lo hi with
  | empty | edge => cases hg
  | seq r r' ih ih' =>
    obtain ⟨mid, hn, hn'⟩ := hn
    rcases List.mem_append.1 hg with hg | hg
    · exact ih hf.1 hn hg
    · exact ih' hf.2 hn' hg
  | alt count start part join ih =>
    obtain ⟨base, -, hnums, -, -⟩ := hn
    obtain ⟨i, hi, hg⟩ := List.mem_flatMap.1 hg
    have hi := List.mem_range.1 hi
    exact ih i (hf.2.2 i hi).1 (hnums i hi).2 hg
  | block b body ih => exact ih hf.2.2.1 hn.2.2.1 hg
  | capture i first last body ih =>
    rcases List.mem_append.1 hg with hg | hg
    · exact ih hf.2.1 hn.2.1 hg
    · cases List.mem_singleton.1 hg
      exact (hf.2.1.traversed hn.2.1).across.trans (.only hf.2.2)

end Region

end PatternAutomata
