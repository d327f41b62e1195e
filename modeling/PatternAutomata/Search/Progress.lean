import PatternAutomata.Search.Machine

/-!
# Every search comes to an end

Each turn of the search machine makes a number smaller, on every automaton and every text. A place
in the text weighs more the earlier it is, so much that all paths which one path can leave behind
at later places weigh less than that path. The number adds up the weights of the pending paths and
of the visits not yet made: entering a state without consuming moves weight from the visits to the
paths, and taking up a path removes its own.

## Main statement

* `Matcher.weight_lt_of_turn` — the number is smaller after a turn.
-/
namespace PatternAutomata

namespace Visited

/-- How many of the first `count` states have not been entered at `offset`. -/
def unseenStates (v : Visited) (offset : Nat) : Nat → Nat
  | 0 => 0
  | count + 1 => unseenStates v offset count + if v.contains count offset then 0 else 1

/-- The total weight of the visits not made at the offsets before `bound`. -/
def unseenWeight (v : Visited) (weight : Nat → Nat) : Nat → Nat
  | 0 => 0
  | bound + 1 => unseenWeight v weight bound + weight bound * v.unseenStates bound v.size

variable {v : Visited} {id : Nat} {offset : Nat}

theorem unseenStates_insert_of_ne (h : id < v.size) {other : Nat} (hne : other ≠ offset)
    (count : Nat) :
    (v.insert id offset).unseenStates other count = v.unseenStates other count := by
  induction count with
  | zero => rfl
  | succ count ih => simp [unseenStates, ih, contains_insert h, hne]

theorem unseenStates_insert_of_le (h : id < v.size) {count : Nat} (hle : count ≤ id) :
    (v.insert id offset).unseenStates offset count = v.unseenStates offset count := by
  induction count with
  | zero => rfl
  | succ count ih =>
    have hne : count ≠ id := by omega
    simp [unseenStates, ih (by omega), contains_insert h, hne]

theorem unseenStates_insert_self (h : id < v.size) (hv : v.contains id offset = false)
    {count : Nat} (hlt : id < count) :
    (v.insert id offset).unseenStates offset count + 1 = v.unseenStates offset count := by
  induction count with
  | zero => omega
  | succ count ih =>
    by_cases he : id = count
    · subst he
      simp [unseenStates, unseenStates_insert_of_le h (Nat.le_refl _), contains_insert h, hv]
    · have hne : count ≠ id := fun h => he h.symm
      have := ih (by omega)
      simp only [unseenStates, contains_insert h, beq_eq_false_iff_ne.2 hne, Bool.false_and,
        Bool.or_false]
      omega

theorem unseenWeight_insert_of_le (h : id < v.size) (weight : Nat → Nat) {bound : Nat}
    (hle : bound ≤ offset) :
    (v.insert id offset).unseenWeight weight bound = v.unseenWeight weight bound := by
  induction bound with
  | zero => rfl
  | succ bound ih =>
    rw [unseenWeight, unseenWeight, ih (by omega), size_insert,
      unseenStates_insert_of_ne h (by omega)]

theorem unseenWeight_insert (h : id < v.size) (hv : v.contains id offset = false)
    (weight : Nat → Nat) {bound : Nat} (hlt : offset < bound) :
    (v.insert id offset).unseenWeight weight bound + weight offset =
      v.unseenWeight weight bound := by
  induction bound with
  | zero => omega
  | succ bound ih =>
    rw [unseenWeight, unseenWeight, size_insert]
    by_cases he : bound = offset
    · subst he
      rw [unseenWeight_insert_of_le h weight (Nat.le_refl _),
        ← unseenStates_insert_self h hv h, Nat.mul_add]
      omega
    · rw [unseenStates_insert_of_ne h he, ← ih (by omega)]
      omega

theorem unseenWeight_mono (v : Visited) (weight : Nat → Nat) {bound bound' : Nat}
    (h : bound ≤ bound') : v.unseenWeight weight bound ≤ v.unseenWeight weight bound' := by
  induction h with
  | refl => exact Nat.le_refl _
  | step _ ih => exact Nat.le_trans ih (Nat.le_add_right _ _)

end Visited

namespace Matcher

variable (m : Matcher) (text : String)

/-- The number of edges, which no single state exceeds. -/
def degree : Nat :=
  m.automaton.states.toList.foldr (fun edges n => edges.length + n) 0

/-- The weight of a path that ends at `offset`. -/
def placeWeight (offset : Nat) : Nat :=
  Nat.pow (m.degree + 1) (text.utf8ByteSize + 1 - offset)

/-- An offset after the text and after all pending paths. -/
def bound (pending : List Path) : Nat :=
  pending.foldr (fun p n => max (p.last.offset + 1) n) (text.utf8ByteSize + 1)

def pendingWeight (pending : List Path) : Nat :=
  pending.foldr (fun p n => m.placeWeight text p.last.offset + n) 0

/-- The weight of the pending paths and of the visits not made at the offsets before `limit`. -/
def weightTo (limit : Nat) (machine : Machine) : Nat :=
  m.pendingWeight text machine.pending +
    machine.visited.unseenWeight (m.placeWeight text) limit

/-- The number that every turn makes smaller. -/
def weight (machine : Machine) : Nat :=
  m.weightTo text (bound text machine.pending) machine

variable {m text}

theorem length_le_foldr {edges : List Edge} {states : List (List Edge)} (h : edges ∈ states) :
    edges.length ≤ states.foldr (fun edges n => edges.length + n) 0 := by
  induction states with
  | nil => cases h
  | cons x states ih => grind

theorem length_le_degree {id : Nat} {edges : List Edge}
    (h : m.automaton.edges? id = some edges) : edges.length ≤ m.degree :=
  length_le_foldr (Array.mem_toList_iff.2 (Array.mem_of_getElem? h))

@[simp] theorem bound_nil : bound text [] = text.utf8ByteSize + 1 := rfl

@[simp] theorem bound_cons (p : Path) (pending : List Path) :
    bound text (p :: pending) = max (p.last.offset + 1) (bound text pending) := rfl

theorem lt_bound {p : Path} {pending : List Path} (h : p ∈ pending) :
    p.last.offset < bound text pending := by
  induction pending with
  | nil => cases h
  | cons q pending ih => grind [bound_cons]

theorem size_lt_bound (pending : List Path) : text.utf8ByteSize < bound text pending := by
  induction pending with
  | nil => exact Nat.lt_succ_self _
  | cons q pending ih => grind [bound_cons]

theorem bound_le {pending : List Path} {limit : Nat} (ht : text.utf8ByteSize < limit)
    (h : ∀ p ∈ pending, p.last.offset < limit) : bound text pending ≤ limit := by
  induction pending with
  | nil => exact ht
  | cons q pending ih => grind [bound_cons]

/-- What a place can leave behind along one consuming edge. -/
def gain (m : Matcher) (text : String) (offset : Nat) : Nat :=
  if offset < text.utf8ByteSize then Nat.pow (m.degree + 1) (text.utf8ByteSize - offset) else 0

theorem degree_mul_gain_lt (offset : Nat) :
    m.degree * gain m text offset < m.placeWeight text offset := by
  unfold gain placeWeight
  split
  · rename_i h
    have hpos : 0 < Nat.pow (m.degree + 1) (text.utf8ByteSize - offset) :=
      Nat.pow_pos (Nat.succ_pos _)
    have hsucc : Nat.pow (m.degree + 1) (text.utf8ByteSize + 1 - offset) =
        Nat.pow (m.degree + 1) (text.utf8ByteSize - offset) * (m.degree + 1) := by
      rw [Nat.succ_sub (Nat.le_of_lt h)]
      rfl
    rw [hsucc, Nat.mul_comm, Nat.mul_add]
    omega
  · exact Nat.pow_pos (Nat.succ_pos _)

theorem le_size_of_charAt {offset : Nat} {c : Char} (h : Text.charAt text offset = some c) :
    offset + c.utf8Size ≤ text.utf8ByteSize := by
  obtain ⟨before, after, rfl, rfl⟩ := Text.charAt_eq_some_iff.1 h
  simp only [String.utf8ByteSize_append, String.utf8ByteSize_singleton]
  omega

theorem placeWeight_le_gain {offset : Nat} {c : Char} (h : Text.charAt text offset = some c) :
    m.placeWeight text (offset + c.utf8Size) ≤ gain m text offset := by
  have hs := le_size_of_charAt h
  have hc := c.utf8Size_pos
  rw [placeWeight, gain, if_pos (by omega)]
  exact Nat.pow_le_pow_right (by omega) (by omega)

/-- An edge is entered either without consuming, for the first time at this offset, or by a
character that lies there. -/
theorem attempt_eq_entered {visited : Visited} {v : Visit} {edge : Edge} {offset : Nat}
    (h : m.attempt text visited v edge = .entered offset) :
    (edge.label.isEpsilon = true ∧ offset = v.offset ∧ edge.target < visited.size ∧
        visited.contains edge.target v.offset = false) ∨
      (edge.label.isEpsilon = false ∧
        ∃ c, Text.charAt text v.offset = some c ∧ offset = v.offset + c.utf8Size) := by
  obtain ⟨label, target⟩ := edge
  cases label with
  | epsilon guard => cases guard <;> grind [attempt, attemptEpsilon, Label.isEpsilon]
  | _ => grind [attempt, Label.isEpsilon]

/-- What is known of a machine on the way through the edges of one state. -/
structure Within (text : String) (limit : Nat) (machine : Machine) : Prop where
  size_lt : text.utf8ByteSize < limit
  offset_lt : ∀ p ∈ machine.pending, p.last.offset < limit

theorem follow_le {p : Path} {machine machine' : Machine} {edge : Edge} {limit : Nat}
    (hw : Within text limit machine) (hp : p.last.offset < limit)
    (h : m.follow text p machine edge = .ok machine') :
    Within text limit machine' ∧
      m.weightTo text limit machine' ≤
        m.weightTo text limit machine + gain m text p.last.offset := by
  unfold follow at h
  split at h
  · cases h; exact ⟨hw, Nat.le_add_right _ _⟩
  · cases h; exact ⟨hw, Nat.le_add_right _ _⟩
  · cases h; exact ⟨hw, Nat.le_add_right _ _⟩
  · cases h
  · rename_i offset ha
    split at h
    · cases h
    · rename_i pending hpush
      cases h
      obtain rfl := Limits.eq_cons_of_push hpush
      rcases attempt_eq_entered ha with ⟨he, rfl, ht, hv⟩ | ⟨he, c, hc, rfl⟩
      · refine ⟨⟨hw.size_lt, ?_⟩, ?_⟩
        · intro q hq
          rcases List.mem_cons.1 hq with rfl | hq
          · exact hp
          · exact hw.offset_lt q hq
        · have := Visited.unseenWeight_insert ht hv (m.placeWeight text) hp
          simp only [weightTo, pendingWeight, record, he, if_true, List.foldr_cons,
            Path.extend]
          omega
      · refine ⟨⟨hw.size_lt, ?_⟩, ?_⟩
        · intro q hq
          rcases List.mem_cons.1 hq with rfl | hq
          · exact Nat.lt_of_le_of_lt (le_size_of_charAt hc) hw.size_lt
          · exact hw.offset_lt q hq
        · have := @placeWeight_le_gain m _ _ _ hc
          simp only [weightTo, pendingWeight, record, he, List.foldr_cons,
            Path.extend, Bool.false_eq_true, if_false]
          omega

theorem foldlM_follow_le {p : Path} {edges : List Edge} {machine machine' : Machine} {limit : Nat}
    (hw : Within text limit machine) (hp : p.last.offset < limit)
    (h : edges.foldlM (m.follow text p) machine = .ok machine') :
    Within text limit machine' ∧
      m.weightTo text limit machine' ≤
        m.weightTo text limit machine + edges.length * gain m text p.last.offset := by
  induction edges generalizing machine with
  | nil => cases h; exact ⟨hw, Nat.le_add_right _ _⟩
  | cons edge edges ih =>
    rw [List.foldlM_cons] at h
    cases hf : m.follow text p machine edge with
    | error fault => rw [hf] at h; cases h
    | ok next =>
      rw [hf] at h
      obtain ⟨hw', hle⟩ := follow_le hw hp hf
      obtain ⟨hw'', hle'⟩ := ih hw' h
      refine ⟨hw'', ?_⟩
      rw [List.length_cons, Nat.add_mul, Nat.one_mul]
      omega

/-- Every turn that goes on makes the weight smaller. -/
theorem weight_lt_of_turn {machine machine' : Machine}
    (h : m.turn text machine = .next machine') :
    m.weight text machine' < m.weight text machine := by
  obtain ⟨p, rest, edges, hpending, hedges, hfold⟩ := turn_eq_next h
  have hmem {q : Path} (hq : q ∈ p :: rest) : q.last.offset < bound text machine.pending :=
    lt_bound (hpending ▸ hq)
  have hw : Within text (bound text machine.pending) (machine.takeUp rest) :=
    ⟨size_lt_bound _, fun q hq => hmem (List.mem_cons_of_mem _ hq)⟩
  obtain ⟨hw', hle⟩ := foldlM_follow_le hw (hmem List.mem_cons_self) hfold
  have hgain := @degree_mul_gain_lt m text p.last.offset
  have hmul := Nat.mul_le_mul_right (gain m text p.last.offset) (length_le_degree hedges)
  have hmono := Visited.unseenWeight_mono machine'.visited (m.placeWeight text)
    (bound_le hw'.size_lt hw'.offset_lt)
  simp only [weight, weightTo, pendingWeight, Machine.takeUp, List.length_reverse] at hle ⊢
  rw [hpending, List.foldr_cons, ← hpending]
  omega

end Matcher

end PatternAutomata
