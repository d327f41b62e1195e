import PatternAutomata.Proofs.Automaton.Edges
import PatternAutomata.Proofs.Automaton.Groups
import PatternAutomata.Proofs.Region.Basic

/-!
# Regions are what fragments build

A fragment that is built from an entry without edges leaves the rest of the automaton as it was,
and adds a region between the entry and its exit, which again has no edges. For each combinator
the region is put together from those of its parts.

## Main definitions

* `Laid` — an automaton is another one with a region added to it.
* `Fragment.Lays` — what a fragment builds are regions of a certain form.
-/
namespace PatternAutomata

/-- The automaton `a'` is `a` with the region `r` added between `entry` and `exit`. -/
structure Laid (r : Region) (entry : Nat) (a : Automaton) (exit : Nat) (a' : Automaton) :
    Prop where
  numbered : r.Numbered a.stateCount a'.stateCount
  exit_eq : exit = r.exit entry
  frame : ∀ id < a.stateCount, id ≠ entry → a'.edgesOf id = a.edgesOf id
  open_exit : a'.edgesOf exit = []
  fits : ∀ edges : Nat → List Edge,
    (∀ id < a'.stateCount, id = entry ∨ a.stateCount ≤ id → id ≠ exit →
      edges id = a'.edgesOf id) → r.Fits edges entry
  bounded : a.Bounded → a'.Bounded
  groups_eq : a'.groups = Group.record r.spans a.groups
  flags_eq : a'.flags = a.flags
  finals_eq : a'.finals = a.finals

namespace Laid

variable {r r' : Region} {entry mid exit : Nat} {a a₁ a' : Automaton}

/-- The exit is the entry or one of the states that were added. -/
theorem exit_mem (h : Laid r entry a exit a') :
    exit = entry ∧ a'.stateCount = a.stateCount ∨
      a.stateCount ≤ exit ∧ exit < a'.stateCount := by
  rw [h.exit_eq]
  exact h.numbered.exit_mem entry

theorem exit_lt (h : Laid r entry a exit a') (he : entry < a.stateCount) :
    exit < a'.stateCount := by
  have hle := h.numbered.le
  have hexit := h.exit_mem
  omega

theorem empty (ho : a.edgesOf entry = []) : Laid .empty entry a entry a where
  numbered := rfl
  exit_eq := rfl
  frame _ _ _ := rfl
  open_exit := ho
  fits _ _ := trivial
  bounded h := h
  groups_eq := rfl
  flags_eq := rfl
  finals_eq := rfl

theorem edge (he : entry < a.stateCount) (ho : a.edgesOf entry = []) (label : Label) :
    Laid (.edge label a.stateCount) entry a a.stateCount
      (a.addState.2.addEdge entry label a.stateCount .last) := by
  have hs : entry < a.addState.2.stateCount := by
    rw [Automaton.stateCount_addState]
    omega
  refine ⟨⟨rfl, by simp⟩, rfl, fun id hid hne => ?_, ?_, fun edges hagree => ?_, fun h => ?_, rfl,
    rfl, rfl⟩
  · rw [Automaton.edgesOf_addEdge hs, if_neg hne, Automaton.edgesOf_addState]
  · rw [Automaton.edgesOf_addEdge hs, if_neg (by omega), Automaton.edgesOf_addState,
      Automaton.edgesOf_eq_nil le_rfl]
  · rw [Region.Fits, hagree entry (by simp; omega) (.inl rfl) (by omega),
      Automaton.edgesOf_addEdge hs, if_pos rfl, Automaton.edgesOf_addState, ho]
    rfl
  · exact h.addState.addEdge hs (by simp)

theorem seq (he : entry < a.stateCount) (h : Laid r entry a mid a₁) (h' : Laid r' mid a₁ exit a') :
    Laid (.seq r r') entry a exit a' := by
  have hle := h.numbered.le
  have hle' := h'.numbered.le
  have hmid := h.exit_lt he
  have hmid' := h.exit_mem
  have hexit := h'.exit_mem
  refine ⟨⟨_, h.numbered, h'.numbered⟩, by rw [h'.exit_eq, h.exit_eq]; rfl, fun id hid hne => ?_,
    h'.open_exit, fun edges hagree => ⟨h.fits edges fun id hid hmem hne => ?_, ?_⟩,
    fun hb => h'.bounded (h.bounded hb), ?_, h'.flags_eq.trans h.flags_eq,
    h'.finals_eq.trans h.finals_eq⟩
  · rw [h'.frame id (by omega) (by omega), h.frame id hid hne]
  · rw [hagree id (by omega) hmem (by omega), h'.frame id hid hne]
  · rw [← h.exit_eq]
    refine h'.fits edges fun id hid hmem hne => hagree id hid ?_ hne
    omega
  · rw [h'.groups_eq, h.groups_eq, Region.spans, Group.record_append]

theorem capture (he : entry < a.stateCount) (ho : a.edgesOf entry = [])
    (hw : a₁.stateCount < 2 ^ 32) (index : Nat)
    (h : Laid r a.stateCount (a.attach entry) mid a₁) :
    Laid (.capture index a.stateCount a₁.stateCount r) entry a a₁.stateCount
      ((a₁.attach mid).addSpan index ⟨a.stateCount, a₁.stateCount⟩) := by
  have hcount := Automaton.stateCount_attach a entry
  have hnum := h.numbered
  rw [hcount] at hnum
  have hle := hnum.le
  have hw' : a.stateCount < 2 ^ 32 := by omega
  have hmid : mid < a₁.stateCount := h.exit_lt (by omega)
  have hmid' := h.exit_mem
  have hedges (id : Nat) :
      ((a₁.attach mid).addSpan index ⟨a.stateCount, a₁.stateCount⟩).edgesOf id =
      if id = mid then [.free a₁.stateCount] else a₁.edgesOf id := by
    rw [Automaton.edgesOf_addSpan, Automaton.edgesOf_attach_open hw hmid h.open_exit]
  have hentry : a₁.edgesOf entry = [.free a.stateCount] := by
    rw [h.frame entry (by omega) (by omega), Automaton.edgesOf_attach_open hw' he ho, if_pos rfl]
  have hfinal : ((a₁.attach mid).addSpan index ⟨a.stateCount, a₁.stateCount⟩).stateCount =
      a₁.stateCount + 1 := by simp
  refine ⟨⟨rfl, hnum, hfinal⟩, rfl, fun id hid hne => ?_, ?_, fun edges hagree => ?_, fun hb => ?_,
    ?_, h.flags_eq, h.finals_eq⟩
  · rw [hedges, if_neg (by omega), h.frame id (by omega) (by omega),
      Automaton.edgesOf_attach hw' he, if_neg hne]
  · rw [hedges, if_neg (by omega), Automaton.edgesOf_eq_nil le_rfl]
  · refine ⟨?_, h.fits edges fun id hid hmem hne => ?_, ?_⟩
    · rw [hagree entry (by omega) (.inl rfl) (by omega), hedges, if_neg (by omega), hentry]
    · rw [hagree id (by omega) (by omega) (by omega), hedges, if_neg hne]
    · rw [← h.exit_eq, hagree mid (by omega) (by omega) (by omega), hedges, if_pos rfl]
  · exact (h.bounded (hb.attach hw' he)).attach hw hmid
  · rw [Region.spans, Group.record_append, show Group.record r.spans a.groups = _ from
      h.groups_eq.symm]
    rfl

/-- The automaton with the edges of a block that skip its part or go back to it. -/
def addExtras (a : Automaton) (b : Block) : Automaton :=
  let a := if b.shape.skip then
      a.addEpsilon b.start b.finish (if b.greedy then .last else .first)
    else a
  if b.shape.again then a.addEpsilon b.finish b.start (if b.greedy then .first else .last) else a

@[simp] theorem stateCount_addExtras (a : Automaton) (b : Block) :
    (addExtras a b).stateCount = a.stateCount := by
  simp only [addExtras]
  split <;> split <;> simp

theorem groups_addExtras (a : Automaton) (b : Block) : (addExtras a b).groups = a.groups := by
  simp only [addExtras]
  split <;> split <;> rfl

theorem flags_addExtras (a : Automaton) (b : Block) : (addExtras a b).flags = a.flags := by
  simp only [addExtras]
  split <;> split <;> rfl

theorem finals_addExtras (a : Automaton) (b : Block) : (addExtras a b).finals = a.finals := by
  simp only [addExtras]
  split <;> split <;> rfl

theorem edgesOf_addExtras {b : Block} (hs : b.start < a.stateCount) (hf : b.finish < a.stateCount)
    (hstart : a.edgesOf b.start = [.free b.inner]) (hfinish : a.edgesOf b.finish = [.free b.next])
    (hne : b.start ≠ b.finish) (id : Nat) :
    (addExtras a b).edgesOf id =
      if id = b.start then b.startEdges else if id = b.finish then b.finishEdges
      else a.edgesOf id := by
  obtain ⟨start, inner, finish, next, ⟨skip, again⟩, greedy⟩ := b
  simp only at hs hf hstart hfinish hne
  cases skip <;> cases again <;> cases greedy <;>
    simp [addExtras, Block.startEdges, Block.finishEdges, Automaton.edgesOf_addEpsilon, hs, hf,
      Automaton.insertEdge] <;>
    grind

theorem bounded_addExtras {b : Block} (h : a.Bounded) (hs : b.start < a.stateCount)
    (hf : b.finish < a.stateCount) : (addExtras a b).Bounded := by
  simp only [addExtras]
  split <;> split
  · exact (h.addEpsilon hs hf).addEpsilon (by simpa using hf) (by simpa using hs)
  · exact h.addEpsilon hf hs
  · exact h.addEpsilon hs hf
  · exact h

theorem block (he : entry < a.stateCount) (ho : a.edgesOf entry = [])
    (hw : a₁.stateCount + 1 < 2 ^ 32) {b : Block}
    (hstart : b.start = a.stateCount) (hinner : b.inner = a.stateCount + 1)
    (hfinish : b.finish = a₁.stateCount) (hnext : b.next = a₁.stateCount + 1)
    (h : Laid r b.inner ((a.attach entry).attach b.start) mid a₁) :
    Laid (.block b r) entry a b.next (addExtras ((a₁.attach mid).attach b.finish) b) := by
  have hcount : ((a.attach entry).attach b.start).stateCount = a.stateCount + 2 := by simp
  have hnum := h.numbered
  rw [hcount] at hnum
  have hle := hnum.le
  have hmid : mid < a₁.stateCount := h.exit_lt (by omega)
  have hmid' := h.exit_mem
  have hw₁ : a.stateCount < 2 ^ 32 := by omega
  have hw₂ : (a.attach entry).stateCount < 2 ^ 32 := by simp; omega
  have hw₃ : a₁.stateCount < 2 ^ 32 := by omega
  have hw₄ : (a₁.attach mid).stateCount < 2 ^ 32 := by simp; omega
  have he' : b.start < (a.attach entry).stateCount := by simp; omega
  have hf' : b.finish < (a₁.attach mid).stateCount := by simp; omega
  have hattach (id : Nat) : ((a₁.attach mid).attach b.finish).edgesOf id =
      if id = b.finish then [.free b.next] else if id = mid then [.free b.finish]
      else a₁.edgesOf id := by
    have hopen : (a₁.attach mid).edgesOf b.finish = [] := by
      rw [hfinish, Automaton.edgesOf_attach_new hw₃ hmid]
    rw [Automaton.edgesOf_attach_open hw₄ hf' hopen,
      Automaton.edgesOf_attach_open hw₃ hmid h.open_exit, Automaton.stateCount_attach, ← hnext,
      ← hfinish]
  have hbefore {id : Nat} (hid : id < a.stateCount + 2) (hne : id ≠ b.inner) :
      a₁.edgesOf id = if id = b.start then [.free b.inner]
        else if id = entry then [.free b.start] else a.edgesOf id := by
    have hopen : (a.attach entry).edgesOf b.start = [] := by
      rw [hstart, Automaton.edgesOf_attach_new hw₁ he]
    rw [h.frame id (by omega) hne, Automaton.edgesOf_attach_open hw₂ he' hopen,
      Automaton.edgesOf_attach_open hw₁ he ho, Automaton.stateCount_attach, ← hinner, ← hstart]
  have hfinal : (addExtras ((a₁.attach mid).attach b.finish) b).stateCount =
      a₁.stateCount + 2 := by simp
  have hedges (id : Nat) : (addExtras ((a₁.attach mid).attach b.finish) b).edgesOf id =
      if id = b.start then b.startEdges else if id = b.finish then b.finishEdges
      else if id = mid then [.free b.finish] else a₁.edgesOf id := by
    rw [edgesOf_addExtras (by simp; omega) (by simp; omega) ?_ ?_ (by omega)]
    · rw [hattach]
      grind
    · rw [hattach, if_neg (by omega), if_neg (by omega), hbefore (by omega) (by omega), if_pos rfl]
    · rw [hattach, if_pos rfl]
  refine ⟨⟨hstart, hinner, hfinish ▸ hnum, by omega, by omega⟩, rfl, fun id hid hne => ?_, ?_,
    fun edges hagree => ⟨?_, ?_, ?_, ?_, ?_⟩, fun hb => ?_, ?_, ?_, ?_⟩
  · rw [hedges, if_neg (by omega), if_neg (by omega), if_neg (by omega),
      hbefore (by omega) (by omega), if_neg (by omega), if_neg hne]
  · rw [hedges, if_neg (by omega), if_neg (by omega), if_neg (by omega),
      Automaton.edgesOf_eq_nil (by omega)]
  · rw [hagree entry (by omega) (.inl rfl) (by omega), hedges, if_neg (by omega),
      if_neg (by omega), if_neg (by omega), hbefore (by omega) (by omega), if_neg (by omega),
      if_pos rfl]
  · rw [hagree _ (by omega) (by omega) (by omega), hedges, if_pos rfl]
  · apply h.fits edges
    intro id hid hmem hne
    rw [hagree id (by omega) (by omega) (by omega), hedges, if_neg (by omega), if_neg (by omega),
      if_neg hne]
  · rw [← h.exit_eq, hagree mid (by omega) (by omega) (by omega), hedges, if_neg (by omega),
      if_neg (by omega), if_pos rfl]
  · rw [hagree _ (by omega) (by omega) (by omega), hedges, if_neg (by omega), if_pos rfl]
  · refine bounded_addExtras ?_ (by simp; omega) (by simp; omega)
    exact ((h.bounded ((hb.attach hw₁ he).attach hw₂ he')).attach hw₃ hmid).attach hw₄ hf'
  · rw [groups_addExtras]
    exact h.groups_eq
  · rw [flags_addExtras]
    exact h.flags_eq
  · rw [finals_addExtras]
    exact h.finals_eq

end Laid

/-- The automaton `a'` is `a` with parts of an alternation added, all entered from `entry` and not
yet joined. -/
structure FanLaid (count : Nat) (start : Nat → Nat) (part : Nat → Region) (entry : Nat)
    (a : Automaton) (exits : List Nat) (a' : Automaton) : Prop where
  numbered : ∃ base : Nat → Nat, base 0 = a.stateCount ∧
    (∀ i < count, start i = base i ∧ (part i).Numbered (base i + 1) (base (i + 1))) ∧
    a'.stateCount = base count
  exits_eq : exits = (List.range count).map fun i => (part i).exit (start i)
  nodup : exits.Nodup
  frame : ∀ id < a.stateCount, id ≠ entry → a'.edgesOf id = a.edgesOf id
  entry_edges : a'.edgesOf entry =
    a.edgesOf entry ++ (List.range count).map fun i => .free (start i)
  open_exit : ∀ id ∈ exits, a'.edgesOf id = []
  fits : ∀ edges : Nat → List Edge,
    (∀ id < a'.stateCount, a.stateCount ≤ id → id ∉ exits → edges id = a'.edgesOf id) →
      ∀ i < count, (part i).Fits edges (start i)
  bounded : a.Bounded → a'.Bounded
  groups_eq : a'.groups =
    Group.record ((List.range count).flatMap fun i => (part i).spans) a.groups
  flags_eq : a'.flags = a.flags
  finals_eq : a'.finals = a.finals

namespace FanLaid

variable {r : Region} {count : Nat} {start : Nat → Nat} {part : Nat → Region} {entry exit : Nat}
  {exits : List Nat} {a a₁ a' : Automaton}

theorem stateCount_le (h : FanLaid count start part entry a exits a') :
    a.stateCount ≤ a'.stateCount := by
  obtain ⟨base, hzero, hparts, hcount⟩ := h.numbered
  rw [← hzero, hcount]
  exact Region.base_le_of_numbered hparts (Nat.zero_le _) le_rfl

theorem exit_mem (h : FanLaid count start part entry a exits a') {id : Nat} (hid : id ∈ exits) :
    a.stateCount ≤ id ∧ id < a'.stateCount := by
  obtain ⟨base, hzero, hparts, hcount⟩ := h.numbered
  rw [h.exits_eq] at hid
  obtain ⟨i, hi, rfl⟩ := List.mem_map.1 hid
  have hi := List.mem_range.1 hi
  have hbounds := Region.part_bounds hparts hi
  have hexit := (hparts i hi).2.exit_mem (start i)
  omega

theorem nil (start : Nat → Nat) (part : Nat → Region) (entry : Nat) (a : Automaton) :
    FanLaid 0 start part entry a [] a where
  numbered := ⟨fun _ => a.stateCount, rfl, nofun, rfl⟩
  exits_eq := rfl
  nodup := .nil
  frame _ _ _ := rfl
  entry_edges := (List.append_nil _).symm
  open_exit := nofun
  fits _ _ := nofun
  bounded h := h
  groups_eq := rfl
  flags_eq := rfl
  finals_eq := rfl

theorem cons (he : entry < a.stateCount) (hw : a₁.stateCount < 2 ^ 32)
    (h : Laid r a.stateCount (a.attach entry) exit a₁)
    (h' : FanLaid count start part entry a₁ exits a') :
    FanLaid (count + 1) (Nat.rec a.stateCount fun i _ => start i) (Nat.rec r fun i _ => part i)
      entry a (exit :: exits) a' := by
  have hattach := Automaton.stateCount_attach a entry
  have hnum := h.numbered
  rw [hattach] at hnum
  have hle := hnum.le
  have hle' := h'.stateCount_le
  have hw' : a.stateCount < 2 ^ 32 := by omega
  have hexit := h.exit_mem
  have hlt : exit < a₁.stateCount := h.exit_lt (by simp)
  have hnotMem : exit ∉ exits := fun hmem => by
    have := h'.exit_mem hmem
    omega
  obtain ⟨base, hzero, hparts, hcount⟩ := h'.numbered
  refine ⟨⟨Nat.rec a.stateCount fun i _ => base i, rfl, ?_, hcount⟩, ?_,
    List.nodup_cons.2 ⟨hnotMem, h'.nodup⟩, fun id hid hne => ?_, ?_, ?_, fun edges hagree => ?_,
    fun hb => h'.bounded (h.bounded (hb.attach hw' he)), ?_, h'.flags_eq.trans h.flags_eq,
    h'.finals_eq.trans h.finals_eq⟩
  · rintro (_ | i) hi
    · exact ⟨rfl, show r.Numbered (a.stateCount + 1) (base 0) from hzero ▸ hnum⟩
    · exact hparts i (Nat.lt_of_succ_lt_succ hi)
  · rw [List.range_succ_eq_map, List.map_cons, List.map_map, h'.exits_eq, h.exit_eq]
    rfl
  · rw [h'.frame id (by omega) hne, h.frame id (by simp; omega) (by omega),
      Automaton.edgesOf_attach hw' he, if_neg hne]
  · rw [h'.entry_edges, h.frame entry (by simp; omega) (by omega),
      Automaton.edgesOf_attach hw' he, if_pos rfl, List.range_succ_eq_map, List.map_cons,
      List.map_map, List.append_assoc]
    rfl
  · rw [List.forall_mem_cons]
    exact ⟨by rw [h'.frame exit hlt (by omega), h.open_exit], h'.open_exit⟩
  · rintro (_ | i) hi
    · apply h.fits edges
      intro id hid hmem hne
      rw [Automaton.stateCount_attach] at hmem
      rw [hagree id (by omega) (by omega) ?_, h'.frame id hid (by omega)]
      rw [List.mem_cons, not_or]
      exact ⟨hne, fun hmem' => by have := h'.exit_mem hmem'; omega⟩
    · refine h'.fits edges (fun id hid hle hnot => hagree id hid (by omega) ?_) i
        (Nat.lt_of_succ_lt_succ hi)
      rw [List.mem_cons, not_or]
      exact ⟨by omega, hnot⟩
  · rw [List.range_succ_eq_map, List.flatMap_cons, List.flatMap_map, Group.record_append,
      h'.groups_eq, h.groups_eq]
    rfl

end FanLaid

/-- Edges to one state from each of several others. -/
def joinAt (join : Nat) (exits : List Nat) (a : Automaton) : Automaton :=
  exits.foldl (fun a exit => a.addEpsilon exit join .last) a

section Join

variable {join : Nat} {exits : List Nat} {a : Automaton}

@[simp] theorem stateCount_joinAt (join : Nat) (exits : List Nat) (a : Automaton) :
    (joinAt join exits a).stateCount = a.stateCount := by
  induction exits generalizing a with
  | nil => rfl
  | cons exit exits ih => exact (ih _).trans (Automaton.stateCount_addEpsilon ..)

theorem edgesOf_joinAt (hexits : ∀ id ∈ exits, id < a.stateCount) (hnodup : exits.Nodup)
    (id : Nat) :
    (joinAt join exits a).edgesOf id =
      if id ∈ exits then a.edgesOf id ++ [.free join] else a.edgesOf id := by
  induction exits generalizing a with
  | nil => simp [joinAt]
  | cons exit exits ih =>
    obtain ⟨hlt, hexits⟩ := List.forall_mem_cons.1 hexits
    obtain ⟨hnotMem, hnodup⟩ := List.nodup_cons.1 hnodup
    have ih := ih (a := a.addEpsilon exit join .last) (by simpa using hexits) hnodup
    apply ih.trans
    rw [Automaton.edgesOf_addEpsilon hlt]
    by_cases hid : id = exit
    · subst hid
      simp [hnotMem, Automaton.insertEdge]
    · simp [hid]

theorem bounded_joinAt (h : a.Bounded) (hexits : ∀ id ∈ exits, id < a.stateCount)
    (hjoin : join < a.stateCount) : (joinAt join exits a).Bounded := by
  induction exits generalizing a with
  | nil => exact h
  | cons exit exits ih =>
    obtain ⟨hlt, hexits⟩ := List.forall_mem_cons.1 hexits
    exact ih (h.addEpsilon hlt hjoin) (by simpa using hexits) (by simpa using hjoin)

theorem joinAt_eq (join : Nat) (exits : List Nat) (a : Automaton) :
    (joinAt join exits a).groups = a.groups ∧ (joinAt join exits a).flags = a.flags ∧
      (joinAt join exits a).finals = a.finals := by
  induction exits generalizing a with
  | nil => exact ⟨rfl, rfl, rfl⟩
  | cons exit exits ih => exact ih (a.addEpsilon exit join .last)

end Join

theorem Laid.alt {count : Nat} {start : Nat → Nat} {part : Nat → Region} {entry : Nat}
    {exits : List Nat} {a a₁ : Automaton} (he : entry < a.stateCount) (ho : a.edgesOf entry = [])
    (hpos : 0 < count) (h : FanLaid count start part entry a exits a₁) :
    Laid (.alt count start part a₁.stateCount) entry a a₁.stateCount
      (joinAt a₁.stateCount exits a₁.addState.2) := by
  have hle := h.stateCount_le
  have hexits : ∀ id ∈ exits, id < a₁.addState.2.stateCount := fun id hid => by
    rw [Automaton.stateCount_addState]
    exact (h.exit_mem hid).2.trans (Nat.lt_succ_self _)
  have hentry : entry ∉ exits := fun hmem => by
    have := h.exit_mem hmem
    omega
  have hjoin : a₁.stateCount ∉ exits := fun hmem => (h.exit_mem hmem).2.false
  have hfinal : (joinAt a₁.stateCount exits a₁.addState.2).stateCount = a₁.stateCount + 1 := by
    simp
  have hedges (id : Nat) : (joinAt a₁.stateCount exits a₁.addState.2).edgesOf id =
      if id ∈ exits then [.free a₁.stateCount] else a₁.edgesOf id := by
    rw [edgesOf_joinAt hexits h.nodup, Automaton.edgesOf_addState]
    by_cases hid : id ∈ exits
    · rw [if_pos hid, if_pos hid, h.open_exit id hid]
      rfl
    · rw [if_neg hid, if_neg hid]
  obtain ⟨hgroups, hflags, hfinals⟩ := joinAt_eq a₁.stateCount exits a₁.addState.2
  obtain ⟨base, hzero, hparts, hcount⟩ := h.numbered
  refine ⟨⟨base, hzero, hparts, hcount, hfinal⟩, rfl, fun id hid hne => ?_, ?_,
    fun edges hagree => ⟨hpos, ?_, fun i hi => ⟨?_, ?_⟩⟩, fun hb => ?_, hgroups.trans h.groups_eq,
    hflags.trans h.flags_eq, hfinals.trans h.finals_eq⟩
  · rw [hedges, if_neg (fun hmem => by have := h.exit_mem hmem; omega), h.frame id hid hne]
  · rw [hedges, if_neg hjoin, Automaton.edgesOf_eq_nil le_rfl]
  · rw [hagree entry (by omega) (.inl rfl) (by omega), hedges, if_neg hentry, h.entry_edges, ho]
    rfl
  · refine h.fits edges (fun id hid hle hnot => ?_) i hi
    rw [hagree id (by omega) (.inr hle) (by omega), hedges, if_neg hnot]
  · have hmem : (part i).exit (start i) ∈ exits := by
      rw [h.exits_eq]
      exact List.mem_map.2 ⟨i, List.mem_range.2 hi, rfl⟩
    have hlt := h.exit_mem hmem
    rw [hagree _ (by omega) (.inr hlt.1) (by omega), hedges, if_pos hmem]
  · exact bounded_joinAt (h.bounded hb).addState hexits (by simp)

end PatternAutomata
