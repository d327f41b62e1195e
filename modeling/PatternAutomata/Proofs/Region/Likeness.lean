import PatternAutomata.Proofs.Pattern.Rendering
import PatternAutomata.Proofs.Region.Arrows
import PatternAutomata.Proofs.Search.Relabelling

/-!
# Regions of one shape

Two regions that were built for one pattern have the same shape, and their states are numbered in
the same order. So the one is the other with its ids shifted, wherever they are built, but for the
entry, which may be any state.

## Main definitions

* `Region.Alike` — two regions have the same shape.
* `Region.Shifts` — a function maps the ids of one region to those of another.

## Main statements

* `Pattern.Renders.alike` — regions for one pattern have the same shape.
* `Region.Node.edges_relabel` — they have the same edges.
* `Region.Node.parted` — the edges of a state lead to different states.
* `Automaton.IsRegion.mirrors` — an automaton is found again in what has a region of its shape.
-/
namespace PatternAutomata

namespace Region

/-- The regions have the same shape. -/
inductive Alike : Region → Region → Prop
  | empty : Alike .empty .empty
  | edge {label : Label} {target target' : Nat} : Alike (.edge label target) (.edge label target')
  | seq {r₁ r₁' r₂ r₂' : Region} : Alike r₁ r₁' → Alike r₂ r₂' → Alike (.seq r₁ r₂) (.seq r₁' r₂')
  | alt {count join join' : Nat} {start start' : Nat → Nat} {part part' : Nat → Region} :
      (∀ i < count, Alike (part i) (part' i)) →
      Alike (.alt count start part join) (.alt count start' part' join')
  | block {b b' : Block} {body body' : Region} :
      b.shape = b'.shape → b.greedy = b'.greedy → Alike body body' →
      Alike (.block b body) (.block b' body')
  | capture {index first first' last last' : Nat} {body body' : Region} :
      Alike body body' → Alike (.capture index first last body) (.capture index first' last' body')

/-- The function maps the states from `lo` on and before `hi` to those from `lo'` on. -/
def Shifts (f : Nat → Nat) (lo hi lo' : Nat) : Prop :=
  ∀ id, lo ≤ id → id < hi → f id + lo = id + lo'

variable {r r' : Region} {entry entry' lo hi lo' hi' id : Nat} {f : Nat → Nat}

theorem Shifts.part (h : Shifts f lo hi lo') {first last first' : Nat} (hlo : lo ≤ first)
    (hhi : last ≤ hi) (hfirst : first + lo' = first' + lo) : Shifts f first last first' := by
  intro id hid hid'
  have := h id (hlo.trans hid) (hid'.trans_le hhi)
  omega

theorem Shifts.apply_eq (h : Shifts f lo hi lo') {id' : Nat} (hlo : lo ≤ id) (hhi : id < hi)
    (hid : id + lo' = id' + lo) : f id = id' := by
  have := h id hlo hhi
  omega

theorem shifts_add (lo hi k : Nat) : Shifts (· + k) lo hi (k + lo) :=
  fun id _ _ => Nat.add_assoc id k lo

/-- Parts of the same sizes lie at the same distances. -/
theorem base_add {count : Nat} {base base' : Nat → Nat}
    (hsize : ∀ i < count, base (i + 1) + (base' i + 1) = base' (i + 1) + (base i + 1)) {i : Nat}
    (hi : i ≤ count) : base i + base' 0 = base' i + base 0 := by
  induction i with
  | zero => exact Nat.add_comm _ _
  | succ i ih =>
    have := hsize i hi
    have := ih (Nat.le_of_succ_le hi)
    omega

/-- Regions of the same shape have the same number of states. -/
theorem Alike.size_eq (h : Alike r r') (hn : r.Numbered lo hi) (hn' : r'.Numbered lo' hi') :
    hi + lo' = hi' + lo := by
  induction h generalizing lo hi lo' hi' with
  | empty =>
    obtain rfl : hi = lo := hn
    obtain rfl : hi' = lo' := hn'
    exact Nat.add_comm _ _
  | edge =>
    obtain ⟨-, rfl⟩ := hn
    obtain ⟨-, rfl⟩ := hn'
    omega
  | seq _ _ ih₁ ih₂ =>
    obtain ⟨mid, h₁, h₂⟩ := hn
    obtain ⟨mid', h₁', h₂'⟩ := hn'
    have := ih₁ h₁ h₁'
    have := ih₂ h₂ h₂'
    omega
  | @alt count _ _ _ _ _ _ _ ih =>
    obtain ⟨base, rfl, hnums, rfl, rfl⟩ := hn
    obtain ⟨base', rfl, hnums', rfl, rfl⟩ := hn'
    have := base_add (fun i hi => ih i hi (hnums i hi).2 (hnums' i hi).2) (Nat.le_refl count)
    omega
  | block _ _ _ ih =>
    obtain ⟨-, -, hn, -, rfl⟩ := hn
    obtain ⟨-, -, hn', -, rfl⟩ := hn'
    have := ih hn hn'
    omega
  | capture _ ih =>
    obtain ⟨-, hn, rfl⟩ := hn
    obtain ⟨-, hn', rfl⟩ := hn'
    have := ih hn hn'
    omega

section Parts

/-- The second part of a sequence. -/
theorem Shifts.second {mid mid' : Nat} (hshift : Shifts f lo hi lo') (h : Alike r r')
    (hn : r.Numbered lo mid) (hn' : r'.Numbered lo' mid') : Shifts f mid hi mid' :=
  hshift.part hn.le le_rfl (h.size_eq hn hn')

/-- One part of an alternation, with the state through which it is entered. -/
theorem Shifts.branch {count i : Nat} {start start' base base' : Nat → Nat}
    {part part' : Nat → Region} (hshift : Shifts f (base 0) (base count + 1) (base' 0))
    (h : ∀ i < count, Alike (part i) (part' i))
    (hnums : ∀ i < count, start i = base i ∧ (part i).Numbered (base i + 1) (base (i + 1)))
    (hnums' : ∀ i < count, start' i = base' i ∧ (part' i).Numbered (base' i + 1) (base' (i + 1)))
    (hi : i < count) :
    f (start i) = start' i ∧ Shifts f (base i + 1) (base (i + 1)) (base' i + 1) := by
  have hbase := base_add (fun i hi => (h i hi).size_eq (hnums i hi).2 (hnums' i hi).2) hi.le
  obtain ⟨hlo, hstart, hle, hhi⟩ := part_bounds hnums hi
  rw [hstart, (hnums' i hi).1]
  exact ⟨hshift.apply_eq hlo (by omega) hbase, hshift.part (by omega) (by omega) (by omega)⟩

/-- The states of a block, and its body. -/
theorem Shifts.block {b b' : Block} {body body' : Region} (hshift : Shifts f lo hi lo')
    (h : Alike body body') (hn : (block b body).Numbered lo hi)
    (hn' : (Region.block b' body').Numbered lo' hi') :
    f b.start = b'.start ∧ f b.inner = b'.inner ∧ f b.finish = b'.finish ∧ f b.next = b'.next ∧
      Shifts f (lo + 2) b.finish (lo' + 2) := by
  obtain ⟨hstart, hinner, hn, hnext, rfl⟩ := hn
  obtain ⟨hstart', hinner', hn', hnext', rfl⟩ := hn'
  have hsize := h.size_eq hn hn'
  have hle := hn.le
  exact ⟨hshift.apply_eq (by omega) (by omega) (by omega),
    hshift.apply_eq (by omega) (by omega) (by omega),
    hshift.apply_eq (by omega) (by omega) (by omega),
    hshift.apply_eq (by omega) (by omega) (by omega), hshift.part (by omega) (by omega) (by omega)⟩

/-- The states of a capture, and its body. -/
theorem Shifts.capture {first last first' last' : Nat} {body body' : Region}
    (hshift : Shifts f lo (last + 1) lo') (h : Alike body body')
    (hfirst : first = lo) (hfirst' : first' = lo') (hn : body.Numbered (lo + 1) last)
    (hn' : body'.Numbered (lo' + 1) last') :
    f first = first' ∧ f last = last' ∧ Shifts f (lo + 1) last (lo' + 1) := by
  have hsize := h.size_eq hn hn'
  have hle := hn.le
  exact ⟨hshift.apply_eq (by omega) (by omega) (by omega),
    hshift.apply_eq (by omega) (by omega) (by omega), hshift.part (by omega) (by omega) (by omega)⟩

end Parts

/-- The exit of the one region is mapped to that of the other one. -/
theorem Alike.exit_eq (h : Alike r r') (hn : r.Numbered lo hi) (hn' : r'.Numbered lo' hi')
    (hentry : f entry = entry') (hshift : Shifts f lo hi lo') :
    f (r.exit entry) = r'.exit entry' := by
  induction h generalizing entry entry' lo hi lo' hi' with
  | empty => exact hentry
  | edge =>
    obtain ⟨rfl, rfl⟩ := hn
    obtain ⟨rfl, rfl⟩ := hn'
    exact hshift.apply_eq le_rfl (Nat.lt_succ_self _) (Nat.add_comm _ _)
  | seq h₁ _ ih₁ ih₂ =>
    obtain ⟨mid, hn₁, hn₂⟩ := hn
    obtain ⟨mid', hn₁', hn₂'⟩ := hn'
    have hexit := ih₁ hn₁ hn₁' hentry (hshift.part le_rfl hn₂.le (Nat.add_comm _ _))
    exact ih₂ hn₂ hn₂' hexit (hshift.second h₁ hn₁ hn₁')
  | @alt count _ _ _ _ _ _ h _ =>
    obtain ⟨base, rfl, hnums, rfl, rfl⟩ := hn
    obtain ⟨base', rfl, hnums', rfl, rfl⟩ := hn'
    exact hshift.apply_eq (base_le_of_numbered hnums (Nat.zero_le _) le_rfl) (Nat.lt_succ_self _)
      (base_add (fun i hi => (h i hi).size_eq (hnums i hi).2 (hnums' i hi).2) le_rfl)
  | block hshape hgreedy h _ =>
    exact (hshift.block h hn hn').2.2.2.1
  | capture h _ =>
    obtain ⟨hfirst, hn, rfl⟩ := hn
    obtain ⟨hfirst', hn', rfl⟩ := hn'
    exact (hshift.capture h hfirst hfirst' hn hn').2.1

theorem startEdges_relabel {b b' : Block} (hshape : b.shape = b'.shape)
    (hgreedy : b.greedy = b'.greedy) (hinner : f b.inner = b'.inner)
    (hfinish : f b.finish = b'.finish) : b.startEdges.map (.relabel f) = b'.startEdges := by
  simp only [Block.startEdges, hshape, hgreedy]
  split <;> [split; skip] <;> simp [hinner, hfinish]

theorem finishEdges_relabel {b b' : Block} (hshape : b.shape = b'.shape)
    (hgreedy : b.greedy = b'.greedy) (hstart : f b.start = b'.start)
    (hnext : f b.next = b'.next) : b.finishEdges.map (.relabel f) = b'.finishEdges := by
  simp only [Block.finishEdges, hshape, hgreedy]
  split <;> [split; skip] <;> simp [hstart, hnext]

/-- The edges of a state are those of the state to which it is mapped. -/
theorem Node.edges_relabel {edges : Nat → List Edge} {es : List Edge} (h : r.Node entry id es)
    (hlike : Alike r r') (hn : r.Numbered lo hi) (hn' : r'.Numbered lo' hi')
    (hf : r'.Fits edges entry') (hentry : f entry = entry') (hshift : Shifts f lo hi lo') :
    edges (f id) = es.map (.relabel f) := by
  induction h generalizing r' entry' lo hi lo' hi' with
  | edge =>
    cases hlike
    have hexit := Alike.edge.exit_eq hn hn' hentry hshift
    rw [hentry, show edges entry' = _ from hf]
    exact congrArg (fun target => [Edge.mk _ target]) hexit.symm
  | first _ ih =>
    cases hlike with
    | seq h₁ h₂ =>
      obtain ⟨mid, hn₁, hn₂⟩ := hn
      obtain ⟨mid', hn₁', hn₂'⟩ := hn'
      exact ih h₁ hn₁ hn₁' hf.1 hentry (hshift.part le_rfl hn₂.le (Nat.add_comm _ _))
  | second _ ih =>
    cases hlike with
    | seq h₁ h₂ =>
      obtain ⟨mid, hn₁, hn₂⟩ := hn
      obtain ⟨mid', hn₁', hn₂'⟩ := hn'
      have hexit := h₁.exit_eq hn₁ hn₁' hentry (hshift.part le_rfl hn₂.le (Nat.add_comm _ _))
      exact ih h₂ hn₂ hn₂' hf.2 hexit (hshift.second h₁ hn₁ hn₁')
  | @branches count entry join start part =>
    cases hlike with
    | alt h =>
      obtain ⟨base, rfl, hnums, rfl, rfl⟩ := hn
      obtain ⟨base', rfl, hnums', rfl, rfl⟩ := hn'
      rw [hentry, hf.2.1, List.map_map]
      refine List.map_congr_left fun i hi => ?_
      rw [Function.comp_apply, Edge.relabel_free,
        (hshift.branch h hnums hnums' (List.mem_range.1 hi)).1]
  | part hi _ ih =>
    cases hlike with
    | alt h =>
      obtain ⟨base, rfl, hnums, rfl, rfl⟩ := hn
      obtain ⟨base', rfl, hnums', rfl, rfl⟩ := hn'
      obtain ⟨hstart, hpart⟩ := hshift.branch h hnums hnums' hi
      exact ih (h _ hi) (hnums _ hi).2 (hnums' _ hi).2 (hf.2.2 _ hi).1 hstart hpart
  | join hi =>
    cases hlike with
    | alt h =>
      have hjoin := (Alike.alt h).exit_eq hn hn' hentry hshift
      obtain ⟨base, rfl, hnums, rfl, rfl⟩ := hn
      obtain ⟨base', rfl, hnums', rfl, rfl⟩ := hn'
      obtain ⟨hstart, hpart⟩ := hshift.branch h hnums hnums' hi
      rw [(h _ hi).exit_eq (hnums _ hi).2 (hnums' _ hi).2 hstart hpart, (hf.2.2 _ hi).2]
      exact congrArg (fun target => [Edge.free target]) hjoin.symm
  | enter =>
    cases hlike with
    | block _ _ h =>
      rw [hentry, hf.1, List.map_singleton, Edge.relabel_free, (hshift.block h hn hn').1]
  | start =>
    cases hlike with
    | block hshape hgreedy h =>
      obtain ⟨hstart, hinner, hfinish, -, -⟩ := hshift.block h hn hn'
      rw [hstart, hf.2.1, startEdges_relabel hshape hgreedy hinner hfinish]
  | body _ ih =>
    cases hlike with
    | block _ _ h =>
      obtain ⟨-, hinner, -, -, hbody⟩ := hshift.block h hn hn'
      exact ih h hn.2.2.1 hn'.2.2.1 hf.2.2.1 hinner hbody
  | outer =>
    cases hlike with
    | block _ _ h =>
      obtain ⟨-, hinner, hfinish, -, hbody⟩ := hshift.block h hn hn'
      rw [h.exit_eq hn.2.2.1 hn'.2.2.1 hinner hbody, hf.2.2.2.1, List.map_singleton,
        Edge.relabel_free, hfinish]
  | finish =>
    cases hlike with
    | block hshape hgreedy h =>
      obtain ⟨hstart, -, hfinish, hnext, -⟩ := hshift.block h hn hn'
      rw [hfinish, hf.2.2.2.2, finishEdges_relabel hshape hgreedy hstart hnext]
  | opening =>
    cases hlike with
    | capture h =>
      obtain ⟨hfirst, hn, rfl⟩ := hn
      obtain ⟨hfirst', hn', rfl⟩ := hn'
      rw [hentry, hf.1, List.map_singleton, Edge.relabel_free,
        (hshift.capture h hfirst hfirst' hn hn').1]
  | inside _ ih =>
    cases hlike with
    | capture h =>
      obtain ⟨hfirst, hn, rfl⟩ := hn
      obtain ⟨hfirst', hn', rfl⟩ := hn'
      obtain ⟨hentry, -, hbody⟩ := hshift.capture h hfirst hfirst' hn hn'
      exact ih h hn hn' hf.2.1 hentry hbody
  | closing =>
    cases hlike with
    | capture h =>
      obtain ⟨hfirst, hn, rfl⟩ := hn
      obtain ⟨hfirst', hn', rfl⟩ := hn'
      obtain ⟨hentry, hlast, hbody⟩ := hshift.capture h hfirst hfirst' hn hn'
      rw [h.exit_eq hn hn' hentry hbody, hf.2.2, List.map_singleton, Edge.relabel_free, hlast]

/-- Either one edge leaves a state, or all of them are free and lead to different states. -/
theorem Node.parted {es : List Edge} (h : r.Node entry id es) (hn : r.Numbered lo hi) :
    (∃ e, es = [e]) ∨ ∃ ids : List Nat, ids.Nodup ∧ es = ids.map .free := by
  have hpair {i j : Nat} (hne : i ≠ j) :
      ∃ ids : List Nat, ids.Nodup ∧ [Edge.free i, .free j] = ids.map .free :=
    ⟨[i, j], by simpa using hne, rfl⟩
  induction h generalizing lo hi with
  | edge | join | enter | outer | opening | closing => exact .inl ⟨_, rfl⟩
  | first _ ih =>
    obtain ⟨mid, hn, -⟩ := hn
    exact ih hn
  | second _ ih =>
    obtain ⟨mid, -, hn⟩ := hn
    exact ih hn
  | @branches count _ _ start _ =>
    obtain ⟨base, -, hnums, -, -⟩ := hn
    refine .inr ⟨(List.range count).map start, ?_, by rw [List.map_map]; rfl⟩
    refine List.nodup_range.map_on fun i hi j hj heq => ?_
    exact eq_of_start_eq hnums (List.mem_range.1 hi) (List.mem_range.1 hj) heq
  | part hlt _ ih =>
    obtain ⟨base, -, hnums, -, -⟩ := hn
    exact ih (hnums _ hlt).2
  | start =>
    obtain ⟨-, hinner, hn, -, -⟩ := hn
    have hle := hn.le
    rw [Block.startEdges]
    split
    · split
      · exact .inr (hpair (by omega))
      · exact .inr (hpair (by omega))
    · exact .inl ⟨_, rfl⟩
  | body _ ih => exact ih hn.2.2.1
  | finish =>
    obtain ⟨hstart, -, hn, hnext, -⟩ := hn
    have hle := hn.le
    rw [Block.finishEdges]
    split
    · split
      · exact .inr (hpair (by omega))
      · exact .inr (hpair (by omega))
    · exact .inl ⟨_, rfl⟩
  | inside _ ih => exact ih hn.2.1

end Region

/-- Regions that were built for one pattern have the same shape. -/
theorem Pattern.Renders.alike {p : Pattern} {r r' : Region} (h : p.Renders r)
    (h' : p.Renders r') : r.Alike r' := by
  induction h generalizing r' with
  | anchor | char | charClass =>
    cases h'
    exact .edge
  | set hset =>
    cases h' with
    | set hset' =>
      obtain rfl := Except.ok.inj (hset.symm.trans hset')
      exact .edge
  | nil =>
    cases h'
    exact .empty
  | cons _ _ ih ih' =>
    cases h' with
    | cons h₁ h₂ => exact .seq (ih h₁) (ih' h₂)
  | alternation _ ih =>
    cases h' with
    | alternation h' => exact .alt fun i hi => ih i hi (h' i hi)
  | @block body times b r ht _ ih =>
    generalize hp : Pattern.repeated body times b.greedy = p at h'
    cases h' with
    | block ht' h' =>
      obtain ⟨rfl, rfl, hgreedy⟩ := Pattern.repeated.inj hp
      exact .block (Option.some.inj (ht.symm.trans ht')) hgreedy (ih h')
    | counted =>
      obtain ⟨-, rfl, -⟩ := Pattern.repeated.inj hp
      cases ht
    | _ => cases hp
  | counted _ _ ih =>
    cases h' with
    | block ht => cases ht
    | counted _ h' => exact ih h'
  | group _ ih =>
    cases h' with
    | group h' => exact ih h'
  | capture _ ih =>
    cases h' with
    | capture h' => exact .capture (ih h')

namespace Automaton

variable {a : Automaton} {r : Region}

theorem IsRegion.parted (hr : a.IsRegion r) : a.Parted := by
  intro id
  by_cases hexit : id = r.exit 0
  · exact .inr ⟨[], List.nodup_nil, by rw [hexit, hr.open_exit]; rfl⟩
  by_cases hid : id < a.stateCount
  · have hid' : id = 0 ∨ 1 ≤ id ∧ id < a.stateCount := by omega
    exact (hr.fits.node hr.numbered Nat.one_pos hid' hexit).parted hr.numbered
  · exact .inr ⟨[], List.nodup_nil, by rw [edgesOf_eq_nil (Nat.le_of_not_lt hid)]; rfl⟩

/-- A copy of the region of a whole automaton, entered at `k`, whose other states follow. -/
theorem IsRegion.mirrors {a c : Automaton} {r r' : Region} {k hi : Nat} (hc : c.IsRegion r)
    (hlike : r.Alike r') (hn : r'.Numbered (k + 1) hi) (hf : r'.Fits a.edgesOf k)
    (hflags : a.flags = c.flags) (hfinal : ∀ id < hi, a.isFinal id = false) :
    c.Mirrors a (· + k) {id | id < c.stateCount ∧ id ≠ r.exit 0} (r.exit 0)
      {id | id < c.stateCount} where
  flags_eq := hflags
  injOn := fun _ _ _ _ h => Nat.add_right_cancel h
  subset := by
    have hexit := hc.numbered.exit_mem 0
    have hpos := hc.closed.pos
    rintro id (rfl | ⟨hid, -⟩)
    · exact (by omega : r.exit 0 < c.stateCount)
    · exact hid
  out_notMem := fun h => h.2 rfl
  edges_eq := by
    rintro id ⟨hid, hne⟩
    have hid' : id = 0 ∨ 1 ≤ id ∧ id < c.stateCount := by omega
    exact (hc.fits.node hc.numbered Nat.one_pos hid' hne).edges_relabel hlike hc.numbered hn hf
      (Nat.zero_add k) (Region.shifts_add 1 c.stateCount k)
  not_final := by
    rintro id ⟨hid, hne⟩
    refine ⟨Bool.eq_false_iff.2 fun h => hne ((hc.final_iff id).1 h), hfinal _ ?_⟩
    have := hlike.size_eq hc.numbered hn
    omega
  target_mem := by
    rintro id - e he
    by_cases h : e.target = r.exit 0
    · exact .inl h
    · exact .inr ⟨hc.closed.target_lt id e he, h⟩
  covered := fun id hid hS => .inl ((hc.final_iff id).2 (by
    by_contra hne
    exact hS ⟨hid, hne⟩))

end Automaton

end PatternAutomata
