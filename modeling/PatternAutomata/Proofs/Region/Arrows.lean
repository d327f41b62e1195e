import PatternAutomata.Proofs.Region.Passage

/-!
# The edges of a region

Every edge that leaves a state of a region, its exit apart, was put there for some part of the
region. It leads to a state of the region. If it consumes a character it is the only edge of its
state, and no other edge of the region leads to the same state.

## Main definitions

* `Region.Node` — the states of a region, each with the edges that leave it.
* `Region.Arrow` — the edges of a region, each with the state that it leaves.

## Main statements

* `Region.Fits.node`, `Region.Fits.arrow` — the states of a region, and their edges.
* `Region.Arrow.target_mem` — where they lead.
* `Region.Arrow.edges_eq`, `Region.Arrow.eq_of_target` — a consuming edge is alone where it begins
  and where it ends.
-/
namespace PatternAutomata

namespace Block

variable {b : Block} {e : Edge}

theorem isEpsilon_of_mem_startEdges (h : e ∈ b.startEdges) : e.label.isEpsilon = true := by
  grind [mem_startEdges, Edge.isEpsilon_free]

theorem isEpsilon_of_mem_finishEdges (h : e ∈ b.finishEdges) : e.label.isEpsilon = true := by
  grind [mem_finishEdges, Edge.isEpsilon_free]

theorem target_of_mem_startEdges (h : e ∈ b.startEdges) :
    e.target = b.inner ∨ e.target = b.finish := by
  grind [mem_startEdges, Edge.target_free]

theorem target_of_mem_finishEdges (h : e ∈ b.finishEdges) :
    e.target = b.start ∨ e.target = b.next := by
  grind [mem_finishEdges, Edge.target_free]

end Block

namespace Region

/-- In a region that is entered at the first state, the second state has the given edges. -/
inductive Node : Region → Nat → Nat → List Edge → Prop
  | edge {label : Label} {target entry : Nat} :
      Node (.edge label target) entry entry [⟨label, target⟩]
  | first {r r' : Region} {entry id : Nat} {es : List Edge} :
      Node r entry id es → Node (.seq r r') entry id es
  | second {r r' : Region} {entry id : Nat} {es : List Edge} :
      Node r' (r.exit entry) id es → Node (.seq r r') entry id es
  | branches {count entry join : Nat} {start : Nat → Nat} {part : Nat → Region} :
      Node (.alt count start part join) entry entry
        ((List.range count).map fun i => .free (start i))
  | part {count i entry join id : Nat} {start : Nat → Nat} {part : Nat → Region}
      {es : List Edge} :
      i < count → Node (part i) (start i) id es → Node (.alt count start part join) entry id es
  | join {count i entry join : Nat} {start : Nat → Nat} {part : Nat → Region} :
      i < count → Node (.alt count start part join) entry ((part i).exit (start i)) [.free join]
  | enter {b : Block} {body : Region} {entry : Nat} :
      Node (.block b body) entry entry [.free b.start]
  | start {b : Block} {body : Region} {entry : Nat} :
      Node (.block b body) entry b.start b.startEdges
  | body {b : Block} {body : Region} {entry id : Nat} {es : List Edge} :
      Node body b.inner id es → Node (.block b body) entry id es
  | outer {b : Block} {body : Region} {entry : Nat} :
      Node (.block b body) entry (body.exit b.inner) [.free b.finish]
  | finish {b : Block} {body : Region} {entry : Nat} :
      Node (.block b body) entry b.finish b.finishEdges
  | opening {index first last entry : Nat} {body : Region} :
      Node (.capture index first last body) entry entry [.free first]
  | inside {index first last entry id : Nat} {body : Region} {es : List Edge} :
      Node body first id es → Node (.capture index first last body) entry id es
  | closing {index first last entry : Nat} {body : Region} :
      Node (.capture index first last body) entry (body.exit first) [.free last]

/-- In a region that is entered at the first state, an edge leaves the second one. -/
inductive Arrow : Region → Nat → Nat → Edge → Prop
  | edge {label : Label} {target entry : Nat} :
      Arrow (.edge label target) entry entry ⟨label, target⟩
  | first {r r' : Region} {entry id : Nat} {e : Edge} :
      Arrow r entry id e → Arrow (.seq r r') entry id e
  | second {r r' : Region} {entry id : Nat} {e : Edge} :
      Arrow r' (r.exit entry) id e → Arrow (.seq r r') entry id e
  | branch {count i entry join : Nat} {start : Nat → Nat} {part : Nat → Region} :
      i < count → Arrow (.alt count start part join) entry entry (.free (start i))
  | part {count i entry join id : Nat} {start : Nat → Nat} {part : Nat → Region} {e : Edge} :
      i < count → Arrow (part i) (start i) id e → Arrow (.alt count start part join) entry id e
  | join {count i entry join : Nat} {start : Nat → Nat} {part : Nat → Region} :
      i < count →
      Arrow (.alt count start part join) entry ((part i).exit (start i)) (.free join)
  | enter {b : Block} {body : Region} {entry : Nat} :
      Arrow (.block b body) entry entry (.free b.start)
  | start {b : Block} {body : Region} {entry : Nat} {e : Edge} :
      e ∈ b.startEdges → Arrow (.block b body) entry b.start e
  | body {b : Block} {body : Region} {entry id : Nat} {e : Edge} :
      Arrow body b.inner id e → Arrow (.block b body) entry id e
  | outer {b : Block} {body : Region} {entry : Nat} :
      Arrow (.block b body) entry (body.exit b.inner) (.free b.finish)
  | finish {b : Block} {body : Region} {entry : Nat} {e : Edge} :
      e ∈ b.finishEdges → Arrow (.block b body) entry b.finish e
  | opening {index first last entry : Nat} {body : Region} :
      Arrow (.capture index first last body) entry entry (.free first)
  | inside {index first last entry id : Nat} {body : Region} {e : Edge} :
      Arrow body first id e → Arrow (.capture index first last body) entry id e
  | closing {index first last entry : Nat} {body : Region} :
      Arrow (.capture index first last body) entry (body.exit first) (.free last)

/-- A state behind the first part and before the end of the last one belongs to one of them. -/
theorem exists_between_bases {base : Nat → Nat} {count id : Nat} (hlo : base 0 ≤ id)
    (hhi : id < base count) : ∃ i < count, base i ≤ id ∧ id < base (i + 1) := by
  induction count with
  | zero => omega
  | succ count ih =>
    by_cases h : id < base count
    · obtain ⟨i, hi, hid⟩ := ih h
      exact ⟨i, hi.trans (Nat.lt_succ_self _), hid⟩
    · exact ⟨count, Nat.lt_succ_self _, Nat.le_of_not_lt h, hhi⟩

variable {r : Region} {edges : Nat → List Edge} {entry lo hi id : Nat} {e : Edge}

/-- The states of a region, its exit left out, are its nodes. -/
theorem Fits.node (hf : r.Fits edges entry) (hn : r.Numbered lo hi) (hentry : entry < lo)
    (hid : id = entry ∨ lo ≤ id ∧ id < hi) (hne : id ≠ r.exit entry) :
    r.Node entry id (edges id) := by
  induction r generalizing entry lo hi id with
  | empty =>
    have : hi = lo := hn
    have : id ≠ entry := hne
    omega
  | edge label target =>
    obtain ⟨rfl, rfl⟩ := hn
    have : id ≠ target := hne
    obtain rfl : id = entry := by omega
    rw [show edges id = _ from hf]
    exact .edge
  | seq r r' ih ih' =>
    obtain ⟨mid, hn, hn'⟩ := hn
    obtain ⟨hf, hf'⟩ := hf
    have hle := hn.le
    have hexit := hn.exit_mem entry
    by_cases h : id ≠ r.exit entry ∧ (id = entry ∨ id < mid)
    · exact .first (ih hf hn hentry (by omega) h.1)
    · exact .second (ih' hf' hn' (by omega) (by omega) hne)
  | alt count start part join ih =>
    obtain ⟨-, hedges, hparts⟩ := hf
    obtain ⟨base, rfl, hnums, hjoin, rfl⟩ := hn
    rcases hid with rfl | hid
    · exact hedges ▸ .branches
    · have hne : id ≠ join := hne
      have hlast : id < base count := by omega
      obtain ⟨i, hi, hbase⟩ := exists_between_bases hid.1 hlast
      obtain ⟨hstart, hnum⟩ := hnums i hi
      obtain ⟨hpart, hexit⟩ := hparts i hi
      by_cases hid' : id = (part i).exit (start i)
      · rw [hid', hexit]
        exact .join hi
      · exact .part hi (ih i hpart hnum (by omega) (by omega) hid')
  | block b body ih =>
    obtain ⟨hedges, hstartEdges, hbody, houter, hfinishEdges⟩ := hf
    obtain ⟨hstart, hinner, hn, hnext, hhi⟩ := hn
    have hle := hn.le
    have hne : id ≠ b.next := hne
    by_cases h₁ : id = entry
    · rw [h₁, hedges]
      exact .enter
    by_cases h₂ : id = b.start
    · rw [h₂, hstartEdges]
      exact .start
    by_cases h₃ : id = b.finish
    · rw [h₃, hfinishEdges]
      exact .finish
    by_cases h₄ : id = body.exit b.inner
    · rw [h₄, houter]
      exact .outer
    · exact .body (ih hbody hn (by omega) (by omega) h₄)
  | capture index first last body ih =>
    obtain ⟨hedges, hbody, hclosing⟩ := hf
    obtain ⟨hfirst, hn, hhi⟩ := hn
    have hle := hn.le
    have hne : id ≠ last := hne
    by_cases h₁ : id = entry
    · rw [h₁, hedges]
      exact .opening
    by_cases h₂ : id = body.exit first
    · rw [h₂, hclosing]
      exact .closing
    · exact .inside (ih hbody hn (by omega) (by omega) h₂)

theorem Node.arrow {es : List Edge} (h : r.Node entry id es) (he : e ∈ es) :
    r.Arrow entry id e := by
  induction h with
  | edge => exact List.mem_singleton.1 he ▸ .edge
  | first _ ih => exact .first (ih he)
  | second _ ih => exact .second (ih he)
  | branches =>
    obtain ⟨i, hi, rfl⟩ := List.mem_map.1 he
    exact .branch (List.mem_range.1 hi)
  | part hi _ ih => exact .part hi (ih he)
  | join hi => exact List.mem_singleton.1 he ▸ .join hi
  | enter => exact List.mem_singleton.1 he ▸ .enter
  | start => exact .start he
  | body _ ih => exact .body (ih he)
  | outer => exact List.mem_singleton.1 he ▸ .outer
  | finish => exact .finish he
  | opening => exact List.mem_singleton.1 he ▸ .opening
  | inside _ ih => exact .inside (ih he)
  | closing => exact List.mem_singleton.1 he ▸ .closing

/-- The edges of the states of a region, its exit left out, are its arrows. -/
theorem Fits.arrow (hf : r.Fits edges entry) (hn : r.Numbered lo hi) (hentry : entry < lo)
    (hid : id = entry ∨ lo ≤ id ∧ id < hi) (hne : id ≠ r.exit entry) (he : e ∈ edges id) :
    r.Arrow entry id e :=
  (hf.node hn hentry hid hne).arrow he

namespace Arrow

/-- An arrow leads to a state of the region. -/
theorem target_mem (h : r.Arrow entry id e) (hn : r.Numbered lo hi) :
    lo ≤ e.target ∧ e.target < hi := by
  induction h generalizing lo hi with
  | edge =>
    obtain ⟨rfl, rfl⟩ := hn
    simp
  | first _ ih =>
    obtain ⟨mid, hn, hn'⟩ := hn
    have := ih hn
    have := hn'.le
    omega
  | second _ ih =>
    obtain ⟨mid, hn, hn'⟩ := hn
    have := ih hn'
    have := hn.le
    omega
  | @branch count i _ _ _ _ hi =>
    obtain ⟨base, rfl, hnums, rfl, rfl⟩ := hn
    have := part_bounds hnums hi
    rw [Edge.target_free]
    omega
  | @part count i _ _ _ _ _ _ hi _ ih =>
    obtain ⟨base, rfl, hnums, rfl, rfl⟩ := hn
    have := part_bounds hnums hi
    have := ih (hnums i hi).2
    omega
  | join hi =>
    obtain ⟨base, rfl, hnums, rfl, rfl⟩ := hn
    have := base_le_of_numbered hnums (Nat.zero_le _) le_rfl
    simpa
  | enter | outer =>
    obtain ⟨rfl, -, hn, -, rfl⟩ := hn
    have := hn.le
    simp only [Edge.target_free]
    omega
  | start he =>
    obtain ⟨rfl, hinner, hn, -, rfl⟩ := hn
    have := hn.le
    have := Block.target_of_mem_startEdges he
    omega
  | body _ ih =>
    obtain ⟨rfl, -, hn, -, rfl⟩ := hn
    have := ih hn
    omega
  | finish he =>
    obtain ⟨rfl, -, hn, hnext, rfl⟩ := hn
    have := hn.le
    have := Block.target_of_mem_finishEdges he
    omega
  | opening | closing =>
    obtain ⟨rfl, hn, rfl⟩ := hn
    have := hn.le
    simp only [Edge.target_free]
    omega
  | inside _ ih =>
    obtain ⟨rfl, hn, rfl⟩ := hn
    have := ih hn
    omega

/-- A consuming arrow is the only edge of the state that it leaves. -/
theorem edges_eq (h : r.Arrow entry id e) (hf : r.Fits edges entry)
    (hc : e.label.isEpsilon = false) : edges id = [e] := by
  induction h with
  | edge => exact hf
  | first _ ih => exact ih hf.1 hc
  | second _ ih => exact ih hf.2 hc
  | part hi _ ih => exact ih (hf.2.2 _ hi).1 hc
  | body _ ih => exact ih hf.2.2.1 hc
  | inside _ ih => exact ih hf.2.1 hc
  | start he => simp [Block.isEpsilon_of_mem_startEdges he] at hc
  | finish he => simp [Block.isEpsilon_of_mem_finishEdges he] at hc
  | branch | join | enter | outer | opening | closing => cases hc

/-- No other arrow leads where a consuming one does. -/
theorem eq_of_target {id' : Nat} {e' : Edge} (h : r.Arrow entry id e) (hn : r.Numbered lo hi)
    (hc : e.label.isEpsilon = false) (h' : r.Arrow entry id' e') (ht : e'.target = e.target) :
    id' = id := by
  induction h generalizing lo hi with
  | edge =>
    cases h'
    rfl
  | first h ih =>
    obtain ⟨mid, hn, hn'⟩ := hn
    cases h' with
    | first h' => exact ih hn hc h' ht
    | second h' =>
      have := h.target_mem hn
      have := h'.target_mem hn'
      omega
  | second h ih =>
    obtain ⟨mid, hn, hn'⟩ := hn
    cases h' with
    | first h' =>
      have := h.target_mem hn'
      have := h'.target_mem hn
      omega
    | second h' => exact ih hn' hc h' ht
  | @part count i _ _ _ _ _ _ hi h ih =>
    obtain ⟨base, rfl, hnums, rfl, rfl⟩ := hn
    have hmem := h.target_mem (hnums i hi).2
    cases h' with
    | @branch _ j _ _ _ _ hj =>
      have hbounds := part_bounds hnums hj
      rw [Edge.target_free] at ht
      obtain rfl := eq_of_numbered hnums _ hi hj ⟨by omega, hmem.2⟩ (by omega)
      omega
    | @part _ j _ _ _ _ _ _ hj h' =>
      have hmem' := h'.target_mem (hnums j hj).2
      obtain rfl := eq_of_numbered hnums _ hi hj ⟨by omega, hmem.2⟩ (ht ▸ ⟨by omega, hmem'.2⟩)
      exact ih (hnums i hi).2 hc h' ht
    | join hj =>
      have := part_bounds hnums hi
      rw [Edge.target_free] at ht
      omega
  | body h ih =>
    obtain ⟨hstart, hinner, hn, hnext, -⟩ := hn
    have hmem := h.target_mem hn
    cases h' with
    | body h' => exact ih hn hc h' ht
    | enter | outer =>
      rw [Edge.target_free] at ht
      omega
    | start he =>
      have := Block.target_of_mem_startEdges he
      omega
    | finish he =>
      have := Block.target_of_mem_finishEdges he
      omega
  | inside h ih =>
    obtain ⟨hfirst, hn, -⟩ := hn
    have hmem := h.target_mem hn
    cases h' with
    | inside h' => exact ih hn hc h' ht
    | opening | closing =>
      rw [Edge.target_free] at ht
      omega
  | start he => simp [Block.isEpsilon_of_mem_startEdges he] at hc
  | finish he => simp [Block.isEpsilon_of_mem_finishEdges he] at hc
  | branch | join | enter | outer | opening | closing => cases hc

end Arrow

end Region

end PatternAutomata
